import Mathlib.Order.Bounds.Basic
import BoundaryHeap.Proofs.Pointers

namespace BoundaryHeap

open Region (Changed)

def chunkSizes (request : Nat) : Set Nat :=
  {n | n % granule = 0 ∧ minChunk ≤ n ∧ request + overhead ≤ n}

theorem isLeast_chunkSizes (request : Nat) :
    IsLeast (chunkSizes request) (roundUp (max (request + overhead) minChunk)) := by
  constructor
  · simp only [chunkSizes, Set.mem_ofPred_eq, roundUp, granule, minChunk]
    omega
  · intro n hn
    simp only [chunkSizes, Set.mem_ofPred_eq, granule, minChunk] at hn
    simp only [roundUp, granule, minChunk]
    omega

theorem chunkSize?_eq {request size : Nat} (hsize : IsLeast (chunkSizes request) size) :
    chunkSize? request = if size < addressLimit then some size else none := by
  rw [hsize.unique (isLeast_chunkSizes request), chunkSize?]
  by_cases hreq : request + overhead < addressLimit
  · rw [if_pos hreq]
  · have hlarge : ¬roundUp (max (request + overhead) minChunk) < addressLimit := by
      have hle := (isLeast_chunkSizes request).1.2.2
      omega
    rw [if_neg hreq, if_neg hlarge]

theorem isLeast_of_chunkSize? {request size : Nat} (hreq : chunkSize? request = some size) :
    IsLeast (chunkSizes request) size := by
  rw [chunkSize?_eq (isLeast_chunkSizes request)] at hreq
  rw [← Option.some.inj (Option.ite_none_right_eq_some.1 hreq).2]
  exact isLeast_chunkSizes request

/-- What was found for a request is at most one granule too large, because less than a chunk would
be left of it. -/
theorem Shape.Found.sizeAt {B : Shape} {c size : Nat} (hfound : B.Found c size)
    (hgrain : size % granule = 0) : B.sizeAt c = size ∨ B.sizeAt c = size + granule := by
  obtain ⟨t, ht, hlow, hhigh⟩ := hfound.fits
  have hproper := (hfound.holding.valid.tiles.proper ht).2
  rw [hfound.holding.valid.sizeAt_eq ht]
  simp only [granule, minChunk] at hgrain hhigh hproper ⊢
  omega

namespace Heap

variable {h h' : Heap} {A B : Shape} {request addr c size : Nat} {owner : Owner}

/-- From `h` to `h'`, the request gets the payload at `addr` of a chunk of `granted` bytes, where
`size` would do. -/
structure Provides (h : Heap) (request : Nat) (owner : Owner) (h' : Heap) (addr size granted : Nat) :
    Prop where
  least : chunkSize? request = some size ∧ IsLeast (chunkSizes request) size
  slack : granted = size ∨ granted = size + granule
  enough : request ≤ granted - overhead ∧ granted - overhead ≤ size
  usable : h'.usableSize addr = .ok (granted - overhead)
  chunk : ∃ c, addr = h.base + (c + tagBytes) ∧ (c, .live granted owner) ∈ h'.chunks ∧
    h'.region.HasTag c (.live granted owner)
  blank : ∀ i < granted - overhead, h'.peek (addr + i) = 0
  fresh : h.Refuses addr .notAllocated

/-- A chunk in hand is not live, so nobody may release it. -/
theorem Intact.refuses_holding (hi : h.Intact A) (hheld : B.Holding {c}) (hlen : B.len = A.len)
    (hlive : liveIn B.chunks = liveIn A.chunks) :
    h.Refuses (h.base + (c + tagBytes)) .notAllocated := by
  obtain ⟨⟨t, ht, hfree⟩, -⟩ := hheld.mem_loose rfl
  have htiles := hheld.valid.tiles
  have hend := htiles.end_le ht
  have hpos := htiles.size_pos ht
  have hinside : c + tagBytes < h.len := by
    rw [hi.len, ← hlen]
    simp only [tagBytes]
    omega
  rw [← refusal_payload hi.aligned (htiles.mod_of_mem rfl ht) hinside]
  apply hi.refuses_stray
  intro d u hd he
  obtain rfl : c = d := Nat.add_right_cancel (Nat.add_left_cancel he)
  rw [← hlive] at hd
  obtain ⟨hu, hbusy⟩ := mem_liveIn.1 hd
  rw [htiles.unique hu ht, hfree] at hbusy
  cases hbusy

theorem Intact.provides_found (hi : h.Intact A) (hreq : chunkSize? request = some size)
    (hfound : B.Found c size) (hkept : liveIn B.chunks = liveIn A.chunks)
    (hi' : h'.Intact (B.grant c owner)) (hr : Changed (vacant A.chunks) h.region h'.region)
    (hblank : h'.region.Blank (c + tagBytes) (B.sizeAt c - overhead)) :
    h.Provides request owner h' (h.base + (c + tagBytes)) size (B.sizeAt c) := by
  obtain ⟨hmin, hgrain, henough⟩ := chunkSize?_spec hreq
  have hslack := hfound.sizeAt hgrain
  have hbase : h'.base = h.base := hr.base
  have hlive : (c, Tag.live (B.sizeAt c) owner) ∈ liveIn (B.grant c owner).chunks :=
    hfound.holding.mem_liveIn_grant.2 (.inr ⟨rfl, rfl⟩)
  constructor
  · exact ⟨hreq, isLeast_of_chunkSize? hreq⟩
  · exact hslack
  · simp only [granule, overhead, tagBytes, minChunk] at hmin henough hslack ⊢
    omega
  · have husable := hi'.usableSize hlive
    rw [hbase, Tag.live] at husable
    exact husable
  · have hmem := (mem_liveIn.1 hlive).1
    refine ⟨c, rfl, ?_, hi'.store.tags c _ hmem⟩
    rw [hi'.chunks]
    exact hmem
  · intro i hlt
    have hoffset : h.base + (c + tagBytes) + i - h'.base = c + tagBytes + i := by omega
    rw [Heap.peek, hoffset]
    exact hblank _ (Nat.le_add_right ..) (Nat.add_lt_add_left hlt _)
  · exact hi.refuses_holding hfound.holding ((hi'.len.symm.trans hr.len).trans hi.len) hkept

theorem Intact.provides (hi : h.Intact A)
    (hok : (h.run (Heap.allocate request owner)).result = .ok addr) :
    ∃ h' size granted, Does (Heap.allocate request owner) h addr h' ∧
      h.Provides request owner h' addr size granted := by
  rcases hi.fits_or_large request with ⟨size, hreq, hfit⟩ | hlarge
  · rcases hsearch : A.search h.lastSize size with ⟨_ | c, B⟩
    · obtain ⟨s', hrun, -⟩ := hi.allocate_refused hreq hfit hsearch owner
      cases hrun.run.1.symm.trans hok
    · obtain ⟨hmin, hgrain, -⟩ := chunkSize?_spec hreq
      have hfound := hi.settled.search_some hmin hgrain hsearch
      obtain ⟨s', hrun, hi', ⟨hkept, hr⟩, hblank⟩ := hi.allocate_hands hreq hfit hsearch owner
      obtain rfl := Except.ok.inj (hrun.run.1.symm.trans hok)
      exact ⟨_, size, B.sizeAt c, hrun, hi.provides_found hreq hfound hkept hi' hr hblank⟩
  · cases (Fails.allocate_large hlarge owner).run.1.symm.trans hok

end Heap

namespace World

variable {w : World} {request addr : Nat} {owner : Owner}

/-- What a request gets when it gets anything, and for every request whether it has a size. -/
theorem reachable_provides (hw : w.Reachable)
    (hok : (w.heap.run (Heap.allocate request owner)).result = .ok addr) :
    (∃ size granted, w.heap.Provides request owner (w.step (.allocate request owner)).heap addr
      size granted) ∧ ¬w.Holds addr ∧
    ∀ request, ∃ size, IsLeast (chunkSizes request) size ∧
      chunkSize? request = if size < addressLimit then some size else none := by
  obtain ⟨A, hA⟩ := hw.tracks
  obtain ⟨h', size, granted, hrun, hgot⟩ := hA.intact.provides hok
  refine ⟨⟨size, granted, ?_⟩, ?_, fun request => ?_⟩
  · rw [heap_step_allocate, hrun.run.2]
    exact hgot
  · intro hheld
    cases (hA.accepts hheld).symm.trans hgot.fresh.1
  · exact ⟨_, isLeast_chunkSizes request, chunkSize?_eq (isLeast_chunkSizes request)⟩

/-- The chunk that came back last is one granule larger than the request needs, and its bytes were
written to. -/
theorem near_fit_provided :
    let w := sample.after [.allocate 40 .kernel, .write 0x1010 7, .release (some 0x1008)]
    (w.heap.run (Heap.allocate 24 .nobody)).result = .ok 0x1008 ∧
      ∃ size granted, w.heap.Provides 24 .nobody (w.step (.allocate 24 .nobody)).heap 0x1008 size
        granted := by
  have hok : ((sample.after [.allocate 40 .kernel, .write 0x1010 7,
      .release (some 0x1008)]).heap.run (Heap.allocate 24 .nobody)).result = .ok 0x1008 := by
    decide +kernel
  exact ⟨hok, (reachable_provides (reachable_sample.after _) hok).1⟩

end World

end BoundaryHeap
