import BoundaryHeap.Proofs.Coarsening
import BoundaryHeap.Proofs.Refinement

namespace BoundaryHeap

namespace Shape

variable {B C : Shape} {c hi : Nat}

/-- The chunk in front of the section is the same in both shapes, also when it is handed out. -/
theorem Restocks.grant (h : B.Restocks C (c + B.sizeAt c) hi) (hB : B.Holding {c})
    (hC : C.Holding {c}) (owner : Owner) : C.sizeAt c = B.sizeAt c ∧
      (B.grant c owner).Restocks (C.grant c owner) (c + B.sizeAt c) hi := by
  obtain ⟨⟨t, ht, hfree⟩, -⟩ := hB.mem_loose rfl
  have hpos := hB.valid.tiles.size_pos ht
  have hsizeB := hB.valid.sizeAt_eq ht
  have ht' : (c, t) ∈ C.chunks := (h.outside c t (.inl (by omega))).2 ht
  have hsize : C.sizeAt c = B.sizeAt c := (hC.valid.sizeAt_eq ht').trans hsizeB.symm
  have hmemB {d : Nat} {u : Tag} := hB.valid.mem_retag (d := d) (v := u)
    (u := .live (B.sizeAt c) owner) ht hsizeB
  have hmemC {d : Nat} {u : Tag} := hC.valid.mem_retag (d := d) (v := u)
    (u := .live (B.sizeAt c) owner) ht' hsizeB
  refine ⟨hsize, h.len, fun d u hd => ?_, fun d u hu hlo hhi => ?_, h.clean, h.lists⟩
  · rw [Shape.grant, Shape.grant, hsize, hmemB, hmemC, h.outside d u hd]
  · rw [Shape.grant, Shape.grant, hsize, hmemB, hmemC] at hu
    refine h.inside d u (hu.imp ?_ ?_) hlo hhi
    · rintro (⟨hu, -⟩ | ⟨rfl, -⟩)
      · exact hu
      · omega
    · rintro (⟨hu, -⟩ | ⟨rfl, -⟩)
      · exact hu
      · omega

end Shape

namespace Heap

def remembering (h : Heap) (last : Nat) : Heap :=
  { h with lastSize := last }

/-- A merge succeeds and leaves the given chunks. -/
def MergesTo (h : Heap) (chunks : List Chunk) : Prop :=
  (h.run merge).result = .ok () ∧ (h.run merge).after.region.walk = (chunks, none)

def HasSpare (h : Heap) (c n : Nat) : Prop :=
  (c, n, true) ∈ layoutOf h.chunks ∨ (c, n, true) ∈ layoutOf (h.run merge).after.chunks

/-- The heaps are alike but for the two caches and the cutting of the free section from `lo` to
`hi`. -/
structure Recut (h h' : Heap) (lo hi : Nat) : Prop where
  undamaged : h.region.walk.2 = none ∧ h'.region.walk.2 = none
  live : liveIn h'.chunks = liveIn h.chunks
  marks : h'.live = h.live
  counters : h'.counters = h.counters
  lists : ∀ l, l ≠ .recent → l ≠ .remainder →
    ∃ xs, h.store.members l = .ok xs ∧ h'.store.members l = .ok xs
  outside : ∀ c t, c < lo ∨ hi ≤ c → ((c, t) ∈ h'.chunks ↔ (c, t) ∈ h.chunks)
  inside : ∀ c t, (c, t) ∈ h.chunks ∨ (c, t) ∈ h'.chunks → lo ≤ c → c < hi → t.free = true
  merged : ∃ chunks, h.MergesTo chunks ∧ h'.MergesTo chunks

/-- Both runs hand out the `n` bytes at `c` of a free chunk of `total` bytes. -/
structure GrantedAlike (h : Heap) (o o' : Outcome Heap Nat) (c n total : Nat) : Prop where
  result : o.result = .ok (h.base + (c + tagBytes)) ∧ o'.result = .ok (h.base + (c + tagBytes))
  usable : o.after.usableSize (h.base + (c + tagBytes)) = .ok (n - overhead) ∧
    o'.after.usableSize (h.base + (c + tagBytes)) = .ok (n - overhead)
  spare : h.HasSpare c total
  le : n ≤ total
  recut : o.after.Recut o'.after (c + n) (c + total)

/-- Both runs refuse the request, and not even the caches differ. -/
structure RefusedAlike (request : Nat) (o o' : Outcome Heap Nat) : Prop where
  result : o.result = .error (.error (.outOfMemory request)) ∧
    o'.result = .error (.error (.outOfMemory request))
  view : o'.after.view = o.after.view
  recut : o.after.Recut o'.after 0 0

variable {h h' : Heap} {A B C : Shape} {c n lo hi request size last last' : Nat} {owner : Owner}

theorem Intact.remembering (hA : h.Intact A) (last : Nat) : (h.remembering last).Intact A :=
  ⟨hA.store, hA.settled, hA.marks, hA.inUse, hA.aligned⟩

theorem Intact.mergesTo (hA : h.Intact A) : h.MergesTo A.mergeAll.chunks := by
  obtain ⟨s', hrun, hA', -⟩ := hA.merge
  refine ⟨hrun.run.1, ?_⟩
  rw [hrun.run.2]
  exact hA'.store.walk

theorem Intact.hasSpare (hA : h.Intact A) (hc : A.HasSpare c n) : h.HasSpare c n := by
  rw [HasSpare, hA.chunks, Heap.chunks, hA.mergesTo.2]
  exact hc

theorem Intact.recut (hA : h.Intact A) (hB : h'.Intact B) (hAB : A.Restocks B lo hi)
    (hmarks : h'.live = h.live) (hcounters : h'.counters = h.counters) : h.Recut h' lo hi where
  undamaged := ⟨hA.undamaged, hB.undamaged⟩
  live := by
    rw [hA.chunks, hB.chunks]
    exact hAB.liveIn_eq hA.settled.valid hB.settled.valid
  marks := hmarks
  counters := hcounters
  lists l hrecent hremainder := by
    refine ⟨A.lists l, hA.store.members l, ?_⟩
    rw [← hAB.lists l hrecent hremainder]
    exact hB.store.members l
  outside := by
    rw [hA.chunks, hB.chunks]
    exact hAB.outside
  inside := by
    rw [hA.chunks, hB.chunks]
    intro c t hc hlo hhi
    rw [hAB.inside c t hc hlo hhi]
    rfl
  merged := by
    refine ⟨_, hA.mergesTo, ?_⟩
    rw [← hAB.mergeAll_eq hA.settled hB.settled]
    exact hB.mergesTo

theorem RefusedAlike.of_fails {m : HeapM Nat} {h₁ h₂ : Heap}
    (hrun : Fails m h (.error (.outOfMemory request)) h₁)
    (hrun' : Fails m h' (.error (.outOfMemory request)) h₂) (h₁A : h₁.Intact A)
    (h₂A : h₂.Intact A) (hmarks : h₂.live = h₁.live) (hcounters : h₂.counters = h₁.counters) :
    RefusedAlike request (h.run m) (h'.run m) := by
  obtain ⟨hresult, rfl⟩ := hrun.run
  obtain ⟨hresult', rfl⟩ := hrun'.run
  exact ⟨⟨hresult, hresult'⟩, h₂A.view.trans h₁A.view.symm,
    h₁A.recut h₂A (.refl A 0) hmarks hcounters⟩

theorem Intact.refusedAlike (hA : h.Intact A) (hreq : chunkSize? request = some size)
    (hfit : size ≤ A.len) (hmiss : A.search last size = (none, B))
    (hmiss' : A.search last' size = (none, B)) (owner : Owner) :
    RefusedAlike request ((h.remembering last).run (Heap.allocate request owner))
      ((h.remembering last').run (Heap.allocate request owner)) := by
  obtain ⟨s₁, hrun, hB, -⟩ := (hA.remembering last).allocate_refused hreq hfit hmiss owner
  obtain ⟨s₂, hrun', hB', -⟩ := (hA.remembering last').allocate_refused hreq hfit hmiss' owner
  exact .of_fails hrun hrun' hB hB' rfl rfl

theorem Intact.refusedAlike_large (hA : h.Intact A)
    (hlarge : ∀ size, chunkSize? request = some size → h.len < size) (owner : Owner)
    (last last' : Nat) :
    RefusedAlike request ((h.remembering last).run (Heap.allocate request owner))
      ((h.remembering last').run (Heap.allocate request owner)) := by
  have hcounted (last : Nat) :
      Intact { h.remembering last with counters := h.counters.refuse } A :=
    (hA.remembering last).work hA.settled rfl hA.store (.refl ..) rfl
  exact .of_fails (Fails.allocate_large (h := h.remembering last) hlarge owner)
    (Fails.allocate_large (h := h.remembering last') hlarge owner) (hcounted last)
    (hcounted last') rfl rfl

theorem Intact.grantedAlike (hA : h.Intact A) (hreq : chunkSize? request = some size)
    (hfit : size ≤ A.len) (hfound : A.search last size = (some c, B))
    (hfound' : A.search last' size = (some c, C)) (hc : A.HasSpare c n) (hle : B.sizeAt c ≤ n)
    (hBC : B.Restocks C (c + B.sizeAt c) (c + n)) (owner : Owner) :
    h.GrantedAlike ((h.remembering last).run (Heap.allocate request owner))
      ((h.remembering last').run (Heap.allocate request owner)) c (B.sizeAt c) n := by
  obtain ⟨hmin, hgrain, -⟩ := chunkSize?_spec hreq
  have hB := (hA.settled.search_some hmin hgrain hfound).holding
  have hC := (hA.settled.search_some hmin hgrain hfound').holding
  obtain ⟨hsize, hgrant⟩ := hBC.grant hB hC owner
  obtain ⟨s₁, hrun, hi, -, hr⟩ := (hA.remembering last).allocate_served hreq hfit hfound owner
  obtain ⟨s₂, hrun', hi', -, hr'⟩ := (hA.remembering last').allocate_served hreq hfit hfound' owner
  have hlive : (c, Tag.live (B.sizeAt c) owner) ∈ liveIn (B.grant c owner).chunks :=
    hB.mem_liveIn_grant.2 (.inr ⟨rfl, rfl⟩)
  have hlive' : (c, Tag.live (B.sizeAt c) owner) ∈ liveIn (C.grant c owner).chunks := by
    rw [← hsize]
    exact hC.mem_liveIn_grant.2 (.inr ⟨rfl, rfl⟩)
  have husable := hi.usableSize hlive
  have husable' := hi'.usableSize hlive'
  have hbase : s₁.region.base = h.base := hr.base
  have hbase' : s₂.region.base = h.base := hr'.base
  rw [Heap.base, region, hbase] at husable
  rw [Heap.base, region, hbase'] at husable'
  obtain ⟨hresult, hafter⟩ := hrun.run
  obtain ⟨hresult', hafter'⟩ := hrun'.run
  refine ⟨⟨hresult, hresult'⟩, ?_, hA.hasSpare hc, hle, ?_⟩
  · rw [hafter, hafter']
    exact ⟨husable, husable'⟩
  · rw [hafter, hafter']
    refine hi.recut hi' hgrant rfl ?_
    rw [hsize]
    rfl

end Heap

namespace World

variable {w : World}

/-- The size served last is a hint and nothing else: whatever it was, a request is granted the same
chunk or refused with the same error. -/
theorem presplit_transparent (hw : w.Reachable) (request : Nat) (owner : Owner)
    (last last' : Nat) :
    let o := (w.heap.remembering last).run (Heap.allocate request owner)
    let o' := (w.heap.remembering last').run (Heap.allocate request owner)
    (∃ c n total, w.heap.GrantedAlike o o' c n total) ∨ Heap.RefusedAlike request o o' := by
  intro o o'
  obtain ⟨A, hA⟩ := hw.tracks
  have hi := hA.intact
  rcases hi.fits_or_large request with ⟨size, hreq, hfit⟩ | hlarge
  · obtain ⟨hmin, hgrain, -⟩ := chunkSize?_spec hreq
    have hagree := hi.settled.agree_search hmin hgrain last last'
    rcases hsearch : A.search last size with ⟨found, B⟩
    rcases hsearch' : A.search last' size with ⟨found', C⟩
    rw [hsearch, hsearch'] at hagree
    cases hagree with
    | none => exact .inr (hi.refusedAlike hreq hfit hsearch hsearch' owner)
    | some hc hle hBC =>
      exact .inl ⟨_, _, _, hi.grantedAlike hreq hfit hsearch hsearch' hc hle hBC owner⟩
  · exact .inr (hi.refusedAlike_large hlarge owner last last')

/-- A chunk of 32 bytes is cut off a heap of 96 bytes. If the last chunk had 32 bytes too, a second
one is cut off for the next request. -/
theorem sample_presplit :
    let o := (sample.heap.remembering 32).run (Heap.allocate 8 .kernel)
    let o' := (sample.heap.remembering 0).run (Heap.allocate 8 .kernel)
    layoutOf o.after.chunks = [(0, 32, false), (32, 32, true), (64, 32, true)] ∧
      layoutOf o'.after.chunks = [(0, 32, false), (32, 64, true)] ∧
      sample.heap.GrantedAlike o o' 0 32 96 := by
  intro o o'
  obtain ⟨hgranted, husable, hbase, hwhole, hmerged⟩ : o.result = .ok 0x1008 ∧
      o.after.usableSize 0x1008 = .ok 16 ∧ sample.heap.base = 0x1000 ∧
      layoutOf sample.heap.chunks = [(0, 96, true)] ∧
      layoutOf (sample.heap.run Heap.merge).after.chunks = [(0, 96, true)] := by
    decide +kernel
  refine ⟨by decide +kernel, by decide +kernel, ?_⟩
  rcases presplit_transparent reachable_sample 8 .kernel 32 0 with ⟨c, n, total, halike⟩ | halike
  · obtain rfl : c = 0 := by
      have haddr := Except.ok.inj (halike.result.1.symm.trans hgranted)
      rw [hbase] at haddr
      simp only [tagBytes] at haddr
      omega
    obtain rfl : n = 32 := by
      have hsize := halike.usable.1
      rw [hbase] at hsize
      have hn := Except.ok.inj (hsize.symm.trans husable)
      simp only [overhead, tagBytes] at hn
      omega
    obtain rfl : total = 96 := by
      have hspare := halike.spare
      rw [Heap.HasSpare, hwhole, hmerged, or_self] at hspare
      simpa using hspare
    exact halike
  · cases hgranted.symm.trans halike.result.1

end World

end BoundaryHeap
