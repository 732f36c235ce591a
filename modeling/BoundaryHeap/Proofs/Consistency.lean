import BoundaryHeap.Proofs.Runs

namespace BoundaryHeap

/-- The chunks of the walk fill the region, their marks are those of the live ones, and the lists
`L` hold the free ones. -/
structure Heap.Consistent (h : Heap) (L : Lists) : Prop where
  undamaged : h.region.walk.2 = none
  tiles : Tiles 0 h.chunks h.len
  tags : ∀ c t, (c, t) ∈ h.chunks → h.region.HasTag c t
  marks : ∀ g, h.live.isMarked g = true ↔ ∃ t, (g * granule, t) ∈ h.chunks ∧ t.free = false
  members : ∀ l, h.store.members l = .ok (L l)
  nodup : ∀ l, (L l).Nodup
  listed : ∀ c t, (c, t) ∈ h.chunks → t.free = true → ∃! l, c ∈ L l
  free : ∀ l c, c ∈ L l → ∃ t, (c, t) ∈ h.chunks ∧ t.free = true
  first : ∀ l, h.store.heads.get l = (L l).head?
  next : ∀ l xs c ys, L l = xs ++ c :: ys → h.region.nextOf c = .ok ys.head?
  referrer : ∀ l xs c ys, L l = xs ++ c :: ys →
    h.region.referrerOf c = .ok (some ((Referrer.head l).along xs)) ∧
      Store.target ((Referrer.head l).along xs) h.store = .ok (some c) h.store
  binned : ∀ l c t, l.bin ≠ 0 → c ∈ L l → (c, t) ∈ h.chunks → sizeClass t.size = l.bin
  ascending : ∀ l, l.bin ≠ 0 → (L l).Pairwise (· < ·)
  remainder : (L .remainder).length ≤ 1

namespace Store

variable {s : Store} {L : Lists} {l : ListId} {c : Nat} {xs ys : List Nat}

theorem Linked.next (h : s.Linked L) (hl : L l = xs ++ c :: ys) :
    s.region.nextOf c = .ok ys.head? := by
  have hheld := h.holds (l := l) (c := c) (by simp [hl])
  have hthreads := h.threads l
  rw [hl] at hthreads
  obtain ⟨-, -, hrest⟩ := hthreads.drop
  rw [Region.nextOf_eq hheld.1 hheld.2]
  exact congrArg Except.ok hrest.head

theorem Linked.referrer (h : s.Linked L) (hl : L l = xs ++ c :: ys) :
    s.region.referrerOf c = .ok (some ((Referrer.head l).along xs)) ∧
      target ((Referrer.head l).along xs) s = .ok (some c) s := by
  have hheld := h.holds (l := l) (c := c) (by simp [hl])
  have hinside : ((Referrer.head l).along xs).Inside s.region :=
    h.inside fun d hd => by simp [hl, hd]
  have hthreads := h.threads l
  rw [hl] at hthreads
  obtain ⟨htarget, hword, -⟩ := hthreads.drop
  constructor
  · have hword' : s.region.referrerAt c = _ := hword
    rw [Region.referrerOf_eq hheld.1 hheld.2, hword', Referrer.decode_encode hinside h.short]
  · rw [target_eq hinside, htarget]

end Store

theorem Heap.Intact.consistent {h : Heap} {A : Shape} (hi : h.Intact A) :
    h.Consistent A.lists where
  undamaged := hi.undamaged
  tiles := by
    rw [hi.chunks, hi.len]
    exact hi.settled.valid.tiles
  tags := by
    rw [hi.chunks]
    exact hi.store.tags
  marks := by
    intro g
    simp only [hi.marks, hi.chunks, mem_liveIn]
  members := hi.store.members
  nodup := hi.settled.valid.distinct.nodup
  listed := by
    rw [hi.chunks]
    intro c t hc hfree
    obtain ⟨l, hl⟩ := hi.settled.listed ⟨t, hc, hfree⟩ (Set.notMem_empty c)
    exact ⟨l, hl, fun l' hl' => hi.settled.valid.distinct.only hl' hl⟩
  free := by
    rw [hi.chunks]
    exact fun l c hc => hi.settled.valid.listed hc
  first := fun l => (hi.store.threads l).head
  next := fun l xs c ys hl => hi.store.linked.next hl
  referrer := fun l xs c ys hl => hi.store.linked.referrer hl
  binned := by
    rw [hi.chunks]
    exact fun l c t hl hc ht => hi.settled.valid.binned hc hl ht
  ascending := hi.settled.valid.sorted
  remainder := hi.settled.valid.single

namespace World

/-- Every run, whatever its calls are and however they end, leaves a consistent heap. -/
theorem reachable_consistent {w : World} (hw : w.Reachable) : ∃ L, w.heap.Consistent L := by
  obtain ⟨A, hA⟩ := hw.tracks
  exact ⟨A.lists, hA.intact.consistent⟩

/-- A chunk is handed out, written to, given back and merged with its neighbour. -/
theorem reused_consistent :
    ∃ L, (sample.after [.allocate 8 .kernel, .write 0x1008 7, .release (some 0x1008),
      .merge]).heap.Consistent L :=
  reachable_consistent (reachable_sample.after _)

end World

end BoundaryHeap
