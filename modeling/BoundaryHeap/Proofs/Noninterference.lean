import BoundaryHeap.Proofs.Anonymous
import BoundaryHeap.Proofs.Determined
import BoundaryHeap.Proofs.Faultless
import BoundaryHeap.Proofs.Refinement

namespace BoundaryHeap

theorem Store.Linked.words {s : Store} {L : Lists} {l : ListId} {c : Nat} {xs ys : List Nat}
    (h : s.Linked L) (hl : L l = xs ++ c :: ys) :
    s.region.read32 (Region.nextField c) = .ok (linkWord ys.head?) ∧
      s.region.read32 (Region.referrerField c) = .ok ((Referrer.head l).along xs).encode := by
  have hheld := h.holds (l := l) (c := c) (by simp [hl])
  have hthreads := h.threads l
  rw [hl] at hthreads
  obtain ⟨-, hword, hrest⟩ := hthreads.drop
  constructor
  · have hlink : Linkable ys.head? := by
      intro d hd
      have hmem : d ∈ L l := by simp [hl, List.mem_of_head? hd]
      have hshort := h.short
      have hend := (h.holds hmem).2
      omega
    have hnext : s.region.nextAt c = ys.head? := hrest.head
    have hadmits : s.region.Admits (Region.nextField c) 4 := by
      obtain ⟨hgrid, hend⟩ := hheld
      refine ⟨?_, ?_⟩
      · simp only [Region.nextField, tagBytes]
        omega
      · simp only [Region.nextField, tagBytes, Region.Spans]
        omega
    rw [Region.read32, if_pos hadmits]
    exact congrArg Except.ok (linkOfWord_injective (hnext.trans (linkOfWord_linkWord hlink).symm))
  · have hreferrer := Region.referrerWord_eq hheld.1 hheld.2
    rw [Region.referrerWord] at hreferrer
    rw [hreferrer]
    exact congrArg Except.ok hword

namespace Heap

theorem freeChunks_anonIn (xs : List Chunk) : freeChunks (anonIn xs) = freeChunks xs := by
  rw [freeChunks, anonIn, List.countP_map]
  rfl

theorem largestFree_anonIn (xs : List Chunk) : largestFree (anonIn xs) = largestFree xs := by
  rw [largestFree, anonIn, List.foldl_map]
  rfl

/-- The heaps agree in their chunks, owners excepted, in their lists, marks and counters. -/
structure Alike (h₁ h₂ : Heap) : Prop where
  view : h₁.view.anon = h₂.view.anon
  live : h₁.live = h₂.live
  lastSize : h₁.lastSize = h₂.lastSize
  counters : h₁.counters = h₂.counters

variable {h₁ h₂ h₃ : Heap} {A₁ A₂ : Shape} {addr₁ addr₂ c : Nat} {t u : Tag}

theorem Alike.refl (h : Heap) : Alike h h :=
  ⟨rfl, rfl, rfl, rfl⟩

theorem Alike.symm (h : Alike h₁ h₂) : Alike h₂ h₁ :=
  ⟨h.view.symm, h.live.symm, h.lastSize.symm, h.counters.symm⟩

theorem Alike.trans (h : Alike h₁ h₂) (h' : Alike h₂ h₃) : Alike h₁ h₃ :=
  ⟨h.view.trans h'.view, h.live.trans h'.live, h.lastSize.trans h'.lastSize,
    h.counters.trans h'.counters⟩

theorem Alike.shape (h : Alike h₁ h₂) (hi₁ : h₁.Intact A₁) (hi₂ : h₂.Intact A₂) :
    A₁.anon = A₂.anon := by
  rw [← hi₁.view, ← hi₂.view]
  exact h.view

theorem Alike.lists (h : Alike h₁ h₂) (hi₁ : h₁.Intact A₁) (hi₂ : h₂.Intact A₂) :
    A₁.lists = A₂.lists := by
  rw [← A₁.lists_anon, h.shape hi₁ hi₂, A₂.lists_anon]

theorem Intact.alike (hi₁ : h₁.Intact A₁) (hi₂ : h₂.Intact A₂) (hA : A₁.anon = A₂.anon)
    (hlive : h₁.live = h₂.live) (hlast : h₁.lastSize = h₂.lastSize)
    (hcounters : h₁.counters = h₂.counters) : Alike h₁ h₂ := by
  refine ⟨?_, hlive, hlast, hcounters⟩
  rw [hi₁.view, hi₂.view, hA]

theorem Alike.len (h : Alike h₁ h₂) : h₁.len = h₂.len :=
  congrArg Shape.len h.view

theorem Alike.chunks (h : Alike h₁ h₂) : anonIn h₁.chunks = anonIn h₂.chunks :=
  congrArg Shape.chunks h.view

theorem Alike.layout (h : Alike h₁ h₂) : layoutOf h₁.chunks = layoutOf h₂.chunks := by
  rw [← layoutOf_anonIn, h.chunks, layoutOf_anonIn]

theorem Alike.snapshot (h : Alike h₁ h₂) : h₁.snapshot = h₂.snapshot := by
  rw [Heap.snapshot, Heap.snapshot, freeBytes, freeBytes, h.len, h.counters, ← freeChunks_anonIn,
    ← largestFree_anonIn, h.chunks, freeChunks_anonIn, largestFree_anonIn]

theorem Alike.heads (h : Alike h₁ h₂) (hi₁ : h₁.Intact A₁) (hi₂ : h₂.Intact A₂) :
    h₁.store.heads = h₂.store.heads :=
  hi₁.store.same_heads hi₂.store (h.lists hi₁ hi₂)

theorem Alike.links (h : Alike h₁ h₂) (hi₁ : h₁.Intact A₁) (hi₂ : h₂.Intact A₂)
    (hc : A₁.IsFree c) :
    h₁.region.read32 (Region.nextField c) = h₂.region.read32 (Region.nextField c) ∧
      h₁.region.read32 (Region.referrerField c) = h₂.region.read32 (Region.referrerField c) := by
  obtain ⟨l, hl⟩ := hi₁.settled.listed hc (Set.notMem_empty c)
  obtain ⟨xs, ys, hsplit⟩ := List.append_of_mem hl
  have hsplit' : A₂.lists l = xs ++ c :: ys := by
    rw [← h.lists hi₁ hi₂]
    exact hsplit
  obtain ⟨hnext₁, hreferrer₁⟩ := hi₁.store.linked.words hsplit
  obtain ⟨hnext₂, hreferrer₂⟩ := hi₂.store.linked.words hsplit'
  exact ⟨hnext₁.trans hnext₂.symm, hreferrer₁.trans hreferrer₂.symm⟩

theorem Alike.of_mem (h : Alike h₁ h₂) (hi₁ : h₁.Intact A₁) (hi₂ : h₂.Intact A₂)
    (hc : (c, t) ∈ A₁.chunks) : ∃ u, (c, u) ∈ A₂.chunks ∧ u.anon = t.anon := by
  apply of_mem_anonIn
  have hmem : (c, t.anon) ∈ A₂.anon.chunks := by
    rw [← h.shape hi₁ hi₂]
    exact mem_anonIn hc
  exact hmem

theorem Alike.anon_eq (h : Alike h₁ h₂) (hi₁ : h₁.Intact A₁) (hi₂ : h₂.Intact A₂)
    (ht : (c, t) ∈ A₁.chunks) (hu : (c, u) ∈ A₂.chunks) : t.anon = u.anon := by
  obtain ⟨v, hv, he⟩ := h.of_mem hi₁ hi₂ ht
  rw [hi₂.settled.valid.tiles.unique hu hv, he]

theorem Alike.tags (h : Alike h₁ h₂) (hi₁ : h₁.Intact A₁) (hi₂ : h₂.Intact A₂)
    (hc : (c, t) ∈ A₁.chunks) : ∃ owner, h₂.region.HasTag c ⟨t.size, t.free, owner⟩ := by
  obtain ⟨u, hu, hanon⟩ := h.of_mem hi₁ hi₂ hc
  have hsize : u.size = t.size := by
    show u.anon.size = t.anon.size
    rw [hanon]
  have hfree : u.free = t.free := by
    show u.anon.free = t.anon.free
    rw [hanon]
  refine ⟨u.owner, ?_⟩
  rw [← hsize, ← hfree]
  exact hi₂.store.tags c u hu

theorem Alike.locate (h : Alike h₁ h₂) (hi₁ : h₁.Intact A₁) (hi₂ : h₂.Intact A₂)
    (hplace : addr₁ + h₂.base = addr₂ + h₁.base) : h₁.locate addr₁ = h₂.locate addr₂ := by
  have haligned₁ := hi₁.aligned
  have haligned₂ := hi₂.aligned
  have hlen : h₁.region.len = h₂.region.len := h.len
  have hbase₁ : h₁.region.base = h₁.base := rfl
  have hbase₂ : h₂.region.base = h₂.base := rfl
  have hmod : addr₁ % alignment = addr₂ % alignment := by
    simp only [alignment, granule] at haligned₁ haligned₂ ⊢
    omega
  have hoffset : h₁.region.offsetOf? addr₁ = h₂.region.offsetOf? addr₂ := by
    simp only [Region.offsetOf?, Region.stop, hlen, hbase₁, hbase₂]
    by_cases hin : h₁.base ≤ addr₁ ∧ addr₁ < h₁.base + h₂.region.len
    · rw [if_pos hin, if_pos (by omega)]
      congr 1
      omega
    · rw [if_neg hin, if_neg (by omega)]
  rw [Heap.locate, Heap.locate, hmod, hoffset, h.live]

/-- The results agree when addresses are counted from the beginning of the regions. -/
def SameGrant (h₁ h₂ : Heap) (request : Nat) (a₁ a₂ : Except Fault Nat) : Prop :=
  (∃ offset, a₁ = .ok (h₁.base + offset) ∧ a₂ = .ok (h₂.base + offset)) ∨
    (a₁ = .error (.error (.outOfMemory request)) ∧ a₂ = .error (.error (.outOfMemory request)))

def SameAnswer (addr₁ addr₂ : Nat) (a₁ a₂ : Except Fault α) : Prop :=
  (∃ a, a₁ = .ok a ∧ a₂ = .ok a) ∨ ∃ reason, a₁ = .error (.error (.invalidFree addr₁ reason)) ∧
    a₂ = .error (.error (.invalidFree addr₂ reason))

/-- A request gets the same chunk in both heaps, or none in either. -/
theorem Alike.allocate (h : Alike h₁ h₂) (hi₁ : h₁.Intact A₁) (hi₂ : h₂.Intact A₂) (request : Nat)
    (owner₁ owner₂ : Owner) :
    SameGrant h₁ h₂ request (h₁.run (Heap.allocate request owner₁)).result
        (h₂.run (Heap.allocate request owner₂)).result ∧
      Alike (h₁.run (Heap.allocate request owner₁)).after
        (h₂.run (Heap.allocate request owner₂)).after := by
  have hlen := Shape.len_of_anon (h.shape hi₁ hi₂)
  have hrefuse : h₁.counters.refuse = h₂.counters.refuse := by rw [h.counters]
  rcases hi₁.fits_or_large request with ⟨size, hreq, hfit⟩ | hlarge₁
  · obtain ⟨hfound, hleft⟩ : (A₁.search h₁.lastSize size).1 = (A₂.search _ _).1 ∧ _ :=
      Shape.search_of_anon (h.shape hi₁ hi₂)
    rcases hsearch₁ : A₁.search h₁.lastSize size with ⟨found, B₁⟩
    rcases hsearch₂ : A₂.search h₁.lastSize size with ⟨found', B₂⟩
    rw [hsearch₁, hsearch₂] at hfound hleft
    obtain rfl : found = found' := hfound
    have hB : B₁.anon = B₂.anon := hleft
    rw [h.lastSize] at hsearch₂
    cases found with
    | none =>
      obtain ⟨s₁, hrun₁, hi₁', -, -⟩ := hi₁.allocate_refused hreq hfit hsearch₁ owner₁
      obtain ⟨s₂, hrun₂, hi₂', -, -⟩ := hi₂.allocate_refused hreq (hlen ▸ hfit) hsearch₂ owner₂
      rw [hrun₁.run.1, hrun₁.run.2, hrun₂.run.1, hrun₂.run.2]
      exact ⟨.inr ⟨rfl, rfl⟩, hi₁'.alike hi₂' hB h.live h.lastSize hrefuse⟩
    | some c =>
      obtain ⟨s₁, hrun₁, hi₁', -, -⟩ := hi₁.allocate_served hreq hfit hsearch₁ owner₁
      obtain ⟨s₂, hrun₂, hi₂', -, -⟩ := hi₂.allocate_served hreq (hlen ▸ hfit) hsearch₂ owner₂
      rw [hrun₁.run.1, hrun₁.run.2, hrun₂.run.1, hrun₂.run.2]
      refine ⟨.inl ⟨_, rfl, rfl⟩, hi₁'.alike hi₂' ?_ ?_ rfl ?_⟩
      · rw [Shape.anon_grant, Shape.anon_grant, hB]
      · rw [h.live]
      · rw [h.counters, Shape.sizeAt_of_anon hB]
  · have hlarge₂ : ∀ size, chunkSize? request = some size → h₂.len < size := by
      rw [← h.len]
      exact hlarge₁
    have hi₁' : Intact { h₁ with counters := h₁.counters.refuse } A₁ :=
      hi₁.work hi₁.settled rfl hi₁.store (.refl ..) rfl
    have hi₂' : Intact { h₂ with counters := h₂.counters.refuse } A₂ :=
      hi₂.work hi₂.settled rfl hi₂.store (.refl ..) rfl
    have hrun₁ := (Fails.allocate_large hlarge₁ owner₁).run
    have hrun₂ := (Fails.allocate_large hlarge₂ owner₂).run
    rw [hrun₁.1, hrun₁.2, hrun₂.1, hrun₂.2]
    exact ⟨.inr ⟨rfl, rfl⟩, hi₁'.alike hi₂' (h.shape hi₁ hi₂) h.live h.lastSize hrefuse⟩

theorem Alike.release (h : Alike h₁ h₂) (hi₁ : h₁.Intact A₁) (hi₂ : h₂.Intact A₂)
    (hplace : addr₁ + h₂.base = addr₂ + h₁.base) :
    SameAnswer addr₁ addr₂ (h₁.run (Heap.release (some addr₁))).result
        (h₂.run (Heap.release (some addr₂))).result ∧
      Alike (h₁.run (Heap.release (some addr₁))).after
        (h₂.run (Heap.release (some addr₂))).after := by
  have hlocate := h.locate hi₁ hi₂ hplace
  rcases hplace₁ : h₁.locate addr₁ with reason | c
  · rw [hplace₁] at hlocate
    have hrun₁ := (Fails.release (liveChunk_of_locate_error hi₁.bounded hplace₁)).run
    have hrun₂ := (Fails.release (liveChunk_of_locate_error hi₂.bounded hlocate.symm)).run
    rw [hrun₁.1, hrun₁.2, hrun₂.1, hrun₂.2]
    exact ⟨.inr ⟨reason, rfl, rfl⟩, h⟩
  · rw [hplace₁] at hlocate
    obtain ⟨t, ht, hok₁⟩ := hi₁.live_of_locate hplace₁
    obtain ⟨u, hu, hok₂⟩ := hi₂.live_of_locate hlocate.symm
    obtain ⟨-, rfl⟩ := hi₁.of_liveChunk hok₁
    obtain ⟨-, rfl⟩ := hi₂.of_liveChunk hok₂
    obtain ⟨s₁, hrun₁, hi₁', -⟩ := hi₁.release ht
    obtain ⟨s₂, hrun₂, hi₂', -⟩ := hi₂.release hu
    have hanon := h.anon_eq hi₁ hi₂ (mem_liveIn.1 ht).1 (mem_liveIn.1 hu).1
    have hsize : t.anon.size = u.anon.size := by rw [hanon]
    rw [hrun₁.run.1, hrun₁.run.2, hrun₂.run.1, hrun₂.run.2]
    refine ⟨.inl ⟨(), rfl, rfl⟩, hi₁'.alike hi₂' ?_ ?_ h.lastSize ?_⟩
    · rw [Shape.anon_giveBack, Shape.anon_giveBack, h.shape hi₁ hi₂, hanon]
    · rw [h.live]
    · rw [h.counters]
      exact congrArg (Counters.giveBack _) hsize

theorem Alike.usableSize (h : Alike h₁ h₂) (hi₁ : h₁.Intact A₁) (hi₂ : h₂.Intact A₂)
    (hplace : addr₁ + h₂.base = addr₂ + h₁.base) :
    SameAnswer addr₁ addr₂ (h₁.usableSize addr₁) (h₂.usableSize addr₂) := by
  have hlocate := h.locate hi₁ hi₂ hplace
  rw [Heap.usableSize, Heap.usableSize]
  rcases hplace₁ : h₁.locate addr₁ with reason | c
  · rw [hplace₁] at hlocate
    rw [liveChunk_of_locate_error hi₁.bounded hplace₁,
      liveChunk_of_locate_error hi₂.bounded hlocate.symm]
    exact .inr ⟨reason, rfl, rfl⟩
  · rw [hplace₁] at hlocate
    obtain ⟨t, ht, hok₁⟩ := hi₁.live_of_locate hplace₁
    obtain ⟨u, hu, hok₂⟩ := hi₂.live_of_locate hlocate.symm
    have hanon := h.anon_eq hi₁ hi₂ (mem_liveIn.1 ht).1 (mem_liveIn.1 hu).1
    have hsize : t.anon.size = u.anon.size := by rw [hanon]
    rw [hok₁, hok₂]
    refine .inl ⟨t.size - overhead, rfl, ?_⟩
    show Except.ok (u.anon.size - overhead) = _
    rw [← hsize]
    rfl

theorem Alike.merge (h : Alike h₁ h₂) (hi₁ : h₁.Intact A₁) (hi₂ : h₂.Intact A₂) :
    (h₁.run Heap.merge).result = (h₂.run Heap.merge).result ∧
      Alike (h₁.run Heap.merge).after (h₂.run Heap.merge).after := by
  obtain ⟨s₁, hrun₁, hi₁', -⟩ := hi₁.merge
  obtain ⟨s₂, hrun₂, hi₂', -⟩ := hi₂.merge
  rw [hrun₁.run.1, hrun₁.run.2, hrun₂.run.1, hrun₂.run.2]
  refine ⟨rfl, hi₁'.alike hi₂' ?_ h.live h.lastSize h.counters⟩
  rw [Shape.anon_mergeAll, h.shape hi₁ hi₂, Shape.anon_mergeAll]

/-- The heaps lay out and link their chunks alike, and every call has the same result in both. -/
structure Indistinct (h₁ h₂ : Heap) : Prop where
  heads : h₁.store.heads = h₂.store.heads
  layout : layoutOf h₁.chunks = layoutOf h₂.chunks
  tags : ∀ c size free, (c, size, free) ∈ layoutOf h₁.chunks → ∃ owner₁ owner₂,
    h₁.region.HasTag c ⟨size, free, owner₁⟩ ∧ h₂.region.HasTag c ⟨size, free, owner₂⟩
  links : ∀ c t, (c, t) ∈ h₁.chunks → t.free = true →
    h₁.region.read32 (Region.nextField c) = h₂.region.read32 (Region.nextField c) ∧
      h₁.region.read32 (Region.referrerField c) = h₂.region.read32 (Region.referrerField c)
  live : h₁.live = h₂.live
  stats : (h₁.run stats).result = (h₂.run stats).result
  allocate : ∀ request owner₁ owner₂,
    SameGrant h₁ h₂ request (h₁.run (Heap.allocate request owner₁)).result
      (h₂.run (Heap.allocate request owner₂)).result
  releaseNone : (h₁.run (release none)).result = (h₂.run (release none)).result
  release : ∀ addr₁ addr₂, addr₁ + h₂.base = addr₂ + h₁.base →
    SameAnswer addr₁ addr₂ (h₁.run (release (some addr₁))).result
      (h₂.run (release (some addr₂))).result
  usableSize : ∀ addr₁ addr₂, addr₁ + h₂.base = addr₂ + h₁.base →
    SameAnswer addr₁ addr₂ (h₁.usableSize addr₁) (h₂.usableSize addr₂)
  merge : (h₁.run merge).result = (h₂.run merge).result

theorem Alike.indistinct (h : Alike h₁ h₂) (hi₁ : h₁.Intact A₁) (hi₂ : h₂.Intact A₂) :
    Indistinct h₁ h₂ where
  heads := h.heads hi₁ hi₂
  layout := h.layout
  tags c size free hc := by
    rw [hi₁.chunks] at hc
    obtain ⟨⟨d, t⟩, ht, he⟩ := List.mem_map.1 hc
    simp only [Prod.mk.injEq] at he
    obtain ⟨rfl, rfl, rfl⟩ := he
    obtain ⟨owner, htag⟩ := h.tags hi₁ hi₂ ht
    exact ⟨t.owner, owner, hi₁.store.tags d t ht, htag⟩
  links c t hc hfree := by
    rw [hi₁.chunks] at hc
    exact h.links hi₁ hi₂ ⟨t, hc, hfree⟩
  live := h.live
  stats := by rw [hi₁.stats, hi₂.stats, h.snapshot]
  allocate request owner₁ owner₂ := (h.allocate hi₁ hi₂ request owner₁ owner₂).1
  releaseNone := by rw [(Does.release_none h₁).run.1, (Does.release_none h₂).run.1]
  release _ _ hplace := (h.release hi₁ hi₂ hplace).1
  usableSize _ _ hplace := h.usableSize hi₁ hi₂ hplace
  merge := (h.merge hi₁ hi₂).1

end Heap

/-- What two runs need not have in common: calls that only read, and what is stored in payloads. -/
def Action.isAside : Action → Bool
  | .ownedBy _ | .stats | .audit | .dump _ | .write _ _ => true
  | _ => false

/-- The same call on two heaps with these bases: for any owners, and with pointers to the same
place. -/
inductive Action.Paired (base₁ base₂ : Nat) : Action → Action → Prop
  | allocate (request : Nat) (owner₁ owner₂ : Owner) :
      Paired base₁ base₂ (.allocate request owner₁) (.allocate request owner₂)
  | releaseNone : Paired base₁ base₂ (.release none) (.release none)
  | release {addr₁ addr₂ : Nat} (place : addr₁ + base₂ = addr₂ + base₁) :
      Paired base₁ base₂ (.release (some addr₁)) (.release (some addr₂))
  | merge : Paired base₁ base₂ .merge .merge
  | usableSize {addr₁ addr₂ : Nat} (place : addr₁ + base₂ = addr₂ + base₁) :
      Paired base₁ base₂ (.usableSize addr₁) (.usableSize addr₂)

/-- Two runs that make the same calls, whatever each of them does aside. -/
inductive Matched (base₁ base₂ : Nat) : List Action → List Action → Prop
  | nil : Matched base₁ base₂ [] []
  | both {a₁ a₂ : Action} {rest₁ rest₂ : List Action} (call : a₁.Paired base₁ base₂ a₂)
      (rest : Matched base₁ base₂ rest₁ rest₂) : Matched base₁ base₂ (a₁ :: rest₁) (a₂ :: rest₂)
  | left {a : Action} {rest₁ rest₂ : List Action} (aside : a.isAside = true)
      (rest : Matched base₁ base₂ rest₁ rest₂) : Matched base₁ base₂ (a :: rest₁) rest₂
  | right {a : Action} {rest₁ rest₂ : List Action} (aside : a.isAside = true)
      (rest : Matched base₁ base₂ rest₁ rest₂) : Matched base₁ base₂ rest₁ (a :: rest₂)

namespace World

open Heap (Alike)

variable {w w₁ w₂ : World} {A A₁ A₂ : Shape} {a a₁ a₂ : Action}

theorem Tracks.aside (hw : w.Tracks A) (ha : a.isAside = true) : Alike (w.step a).heap w.heap := by
  have hread : a.isReading = true → Alike (w.step a).heap w.heap := by
    intro hreading
    rw [heap_step_reading hreading]
    exact .refl _
  cases a with
  | ownedBy owner => exact hread rfl
  | stats => exact hread rfl
  | audit => exact hread rfl
  | dump limit => exact hread rfl
  | write addr b =>
    have hi := (hw.write addr b).1.intact
    rw [World.step] at hi ⊢
    split at hi
    next hmay =>
      rw [if_pos hmay]
      exact hi.alike hw.intact rfl rfl rfl rfl
    next hmay =>
      rw [if_neg hmay]
      exact .refl _
  | allocate request owner => cases ha
  | release addr => cases ha
  | merge => cases ha
  | usableSize addr => cases ha

theorem Tracks.paired (hw₁ : w₁.Tracks A₁) (hw₂ : w₂.Tracks A₂) (h : Alike w₁.heap w₂.heap)
    (ha : a₁.Paired w₁.heap.base w₂.heap.base a₂) :
    Alike (w₁.step a₁).heap (w₂.step a₂).heap := by
  cases ha with
  | allocate request owner₁ owner₂ =>
    rw [heap_step_allocate, heap_step_allocate]
    exact (h.allocate hw₁.intact hw₂.intact request owner₁ owner₂).2
  | releaseNone =>
    rw [heap_step_release, heap_step_release, (Heap.Does.release_none _).run.2,
      (Heap.Does.release_none _).run.2]
    exact h
  | release place =>
    rw [heap_step_release, heap_step_release]
    exact (h.release hw₁.intact hw₂.intact place).2
  | merge =>
    rw [heap_step_merge, heap_step_merge]
    exact (h.merge hw₁.intact hw₂.intact).2
  | usableSize place =>
    rw [heap_step_reading rfl, heap_step_reading rfl]
    exact h

theorem base_step (hw : w.Reachable) (a : Action) : (w.step a).heap.base = w.heap.base := by
  obtain ⟨A, hA⟩ := hw.tracks
  obtain ⟨B, -, hfollows⟩ := hA.step a
  exact hfollows.base

/-- Matched runs keep alike heaps alike. -/
theorem alike_after {as₁ as₂ : List Action} (hw₁ : w₁.Reachable) (hw₂ : w₂.Reachable)
    (h : Alike w₁.heap w₂.heap) (hmatch : Matched w₁.heap.base w₂.heap.base as₁ as₂) :
    Alike (w₁.after as₁).heap (w₂.after as₂).heap := by
  generalize hbase₁ : w₁.heap.base = base₁ at hmatch
  generalize hbase₂ : w₂.heap.base = base₂ at hmatch
  induction hmatch generalizing w₁ w₂ with
  | nil => exact h
  | both call _ ih =>
    obtain ⟨A₁, hA₁⟩ := hw₁.tracks
    obtain ⟨A₂, hA₂⟩ := hw₂.tracks
    rw [← hbase₁, ← hbase₂] at call
    exact ih (hw₁.step _) (hw₂.step _) (hA₁.paired hA₂ h call)
      ((base_step hw₁ _).trans hbase₁) ((base_step hw₂ _).trans hbase₂)
  | left aside _ ih =>
    obtain ⟨A₁, hA₁⟩ := hw₁.tracks
    exact ih (hw₁.step _) hw₂ ((hA₁.aside aside).trans h) ((base_step hw₁ _).trans hbase₁) hbase₂
  | right aside _ ih =>
    obtain ⟨A₂, hA₂⟩ := hw₂.tracks
    exact ih hw₁ (hw₂.step _) (h.trans (hA₂.aside aside).symm) hbase₁
      ((base_step hw₂ _).trans hbase₂)

/-- Two regions of the same managed length are taken over and get the same calls. Whatever bytes
they began with, whoever asked and whatever was stored in payloads, the heaps cannot be told
apart. -/
theorem matched_runs_indistinct {start₁ start₂ : Nat} {bytes₁ bytes₂ : ByteArray} {h₁ h₂ : Heap}
    {journal₁ journal₂ : List Record} (h₀₁ : Heap.takeOver start₁ bytes₁ = .ok (h₁, journal₁))
    (h₀₂ : Heap.takeOver start₂ bytes₂ = .ok (h₂, journal₂)) (hlen : h₁.len = h₂.len)
    {as₁ as₂ : List Action} (hmatch : Matched h₁.base h₂.base as₁ as₂) :
    (World.after ⟨h₁, []⟩ as₁).heap.Indistinct (World.after ⟨h₂, []⟩ as₂).heap := by
  have hw₁ : Reachable ⟨h₁, []⟩ := .start h₀₁
  have hw₂ : Reachable ⟨h₂, []⟩ := .start h₀₂
  obtain ⟨-, hlive₁, hlast₁, hcounters₁⟩ := Heap.start_takeOver h₀₁
  obtain ⟨-, hlive₂, hlast₂, hcounters₂⟩ := Heap.start_takeOver h₀₂
  have hstart : Alike h₁ h₂ := by
    refine (Heap.intact_takeOver h₀₁).alike (Heap.intact_takeOver h₀₂) (by rw [hlen]) ?_ ?_ ?_
    · rw [hlive₁, hlive₂]
    · rw [hlast₁, hlast₂]
    · rw [hcounters₁, hcounters₂]
  obtain ⟨A₁, hA₁⟩ := (hw₁.after as₁).tracks
  obtain ⟨A₂, hA₂⟩ := (hw₂.after as₂).tracks
  exact (alike_after hw₁ hw₂ hstart hmatch).indistinct hA₁.intact hA₂.intact

theorem exists_takeOver {start base len : Nat} {bytes : ByteArray}
    (h : (Heap.takeOver start bytes).map (fun x => (x.1.base, x.1.len)) = .ok (base, len)) :
    ∃ heap journal, Heap.takeOver start bytes = .ok (heap, journal) ∧ heap.base = base ∧
      heap.len = len := by
  rcases hx : Heap.takeOver start bytes with f | ⟨heap, journal⟩
  · rw [hx] at h
    cases h
  · rw [hx] at h
    obtain ⟨hbase, hlen⟩ := Prod.mk.inj (Except.ok.inj h)
    exact ⟨heap, journal, rfl, hbase, hlen⟩

/-- One region is zero and its caller writes to the payload; the other lies elsewhere, is full of
ones and serves another owner. -/
theorem ones_indistinct : ∃ h₁ h₂ journal₁ journal₂,
    Heap.takeOver 0x1000 ⟨Array.replicate 96 0⟩ = .ok (h₁, journal₁) ∧
      Heap.takeOver 0x2004 ⟨Array.replicate 110 0xFF⟩ = .ok (h₂, journal₂) ∧
      (World.after ⟨h₁, []⟩ [.allocate 8 .kernel, .write 0x1008 7,
        .release (some 0x1008)]).heap.Indistinct
      (World.after ⟨h₂, []⟩ [.allocate 8 ⟨3⟩, .release (some 0x2018)]).heap := by
  have hzeros : (Heap.takeOver 0x1000 ⟨Array.replicate 96 0⟩).map
      (fun x => (x.1.base, x.1.len)) = .ok (0x1000, 96) := by decide +kernel
  have hones : (Heap.takeOver 0x2004 ⟨Array.replicate 110 0xFF⟩).map
      (fun x => (x.1.base, x.1.len)) = .ok (0x2010, 96) := by decide +kernel
  obtain ⟨h₁, journal₁, h₀₁, hbase₁, hlen₁⟩ := exists_takeOver hzeros
  obtain ⟨h₂, journal₂, h₀₂, hbase₂, hlen₂⟩ := exists_takeOver hones
  refine ⟨h₁, h₂, journal₁, journal₂, h₀₁, h₀₂, ?_⟩
  apply matched_runs_indistinct h₀₁ h₀₂ (hlen₁.trans hlen₂.symm)
  rw [hbase₁, hbase₂]
  exact .both (.allocate 8 _ _) (.left rfl (.both (.release rfl) .nil))

end World

end BoundaryHeap
