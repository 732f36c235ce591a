import BoundaryHeap.Proofs.Prescription
import BoundaryHeap.Proofs.Runs

namespace BoundaryHeap

namespace Heap

/-- The heap at list level. -/
def view (h : Heap) : Shape where
  len := h.len
  chunks := h.chunks
  lists l := (h.store.members l).toOption.getD []

variable {h : Heap} {A B : Shape} {c request size : Nat} {t : Tag}

theorem view_of_represents (hs : h.store.Represents A) : h.view = A := by
  have hlists : (fun l => (h.store.members l).toOption.getD []) = A.lists := by
    funext l
    rw [hs.members l]
    rfl
  have hchunks : h.chunks = A.chunks := congrArg Prod.fst hs.walk
  have hlen : h.len = A.len := hs.len
  rw [Heap.view, hlen, hchunks, hlists]

theorem Intact.view (hi : h.Intact A) : h.view = A :=
  view_of_represents hi.store

/-- The call ends in `a` and leaves the view `B`, with `last` as the size that was served last. -/
structure Yields (h : Heap) (m : HeapM α) (a : Except Fault α) (B : Shape) (last : Nat) : Prop where
  result : (h.run m).result = a
  view : (h.run m).after.view = B
  lastSize : (h.run m).after.lastSize = last

theorem Does.yields {m : HeapM α} {a : α} {h' : Heap} (hm : Does m h a h') (hi : h'.Intact B) :
    h.Yields m (.ok a) B h'.lastSize := by
  obtain ⟨hresult, rfl⟩ := hm.run
  exact ⟨hresult, hi.view, rfl⟩

theorem Fails.yields {m : HeapM α} {f : Fault} {h' : Heap} (hm : Fails m h f h')
    (hi : h'.Intact B) : h.Yields m (.error f) B h'.lastSize := by
  obtain ⟨hresult, rfl⟩ := hm.run
  exact ⟨hresult, hi.view, rfl⟩

/-- Every call does to the view what is said about chunks and lists. -/
structure Refines (h : Heap) : Prop where
  walk : h.region.walk = (h.view.chunks, none)
  members : ∀ l, h.store.members l = .ok (h.view.lists l)
  prescribed : ∀ size, ∃ found B, h.view.Prescribes h.lastSize size found B
  serves : ∀ {request owner size c B}, chunkSize? request = some size → size ≤ h.len →
    h.view.Prescribes h.lastSize size (some c) B →
      h.Yields (allocate request owner) (.ok (h.base + (c + tagBytes))) (B.grant c owner) size
  refuses : ∀ {request owner size B}, chunkSize? request = some size → size ≤ h.len →
    h.view.Prescribes h.lastSize size none B →
      h.Yields (allocate request owner) (.error (.error (.outOfMemory request))) B h.lastSize
  overlong : ∀ {request owner}, (∀ size, chunkSize? request = some size → h.len < size) →
    h.Yields (allocate request owner) (.error (.error (.outOfMemory request))) h.view h.lastSize
  releases : ∀ {c t}, (c, t) ∈ h.view.chunks → t.free = false →
    h.Yields (release (some (h.base + (c + tagBytes)))) (.ok ()) (h.view.giveBack c t) h.lastSize
  rejects : ∀ {addr}, (∀ c t, (c, t) ∈ h.view.chunks → t.free = false →
    addr ≠ some (h.base + (c + tagBytes))) → (h.run (release addr)).after = h
  merges : h.Yields merge (.ok ()) h.view.mergeAll h.lastSize

theorem Intact.rejects (hi : h.Intact A) {addr : Option Nat} (hstray : ∀ c t, (c, t) ∈ A.chunks →
    t.free = false → addr ≠ some (h.base + (c + tagBytes))) :
    (h.run (Heap.release addr)).after = h := by
  cases addr with
  | none => exact (Does.release_none h).run.2
  | some addr =>
    rcases hchunk : h.liveChunk addr with f | ⟨c, t⟩
    · exact (Fails.release hchunk).run.2
    · obtain ⟨hc, rfl⟩ := hi.of_liveChunk hchunk
      obtain ⟨hmem, hlive⟩ := mem_liveIn.1 hc
      exact absurd rfl (hstray c t hmem hlive)

theorem Intact.refines (hi : h.Intact A) : h.Refines := by
  obtain rfl := hi.view
  have hlen : h.len = h.view.len := rfl
  refine ⟨hi.store.walk, hi.store.members, hi.settled.exists_prescribes h.lastSize, ?_, ?_, ?_,
    ?_, hi.rejects, ?_⟩
  · intro request owner size c B hreq hfit hfound
    have hsearch := hi.settled.search_eq_iff.2 hfound
    obtain ⟨s', hrun, hi', -⟩ := hi.allocate_served hreq hfit hsearch owner
    exact hrun.yields hi'
  · intro request owner size B hreq hfit hmiss
    have hsearch := hi.settled.search_eq_iff.2 hmiss
    obtain ⟨s', hrun, hi', -⟩ := hi.allocate_refused hreq hfit hsearch owner
    exact hrun.yields hi'
  · intro request owner hlarge
    exact (Fails.allocate_large hlarge owner).yields
      (hi.work hi.settled rfl hi.store (.refl ..) rfl)
  · intro c t hc hlive
    obtain ⟨s', hrun, hi', -⟩ := hi.release (mem_liveIn.2 ⟨hc, hlive⟩)
    exact hrun.yields hi'
  · obtain ⟨s', hrun, hi', -⟩ := hi.merge
    exact hrun.yields hi'

end Heap

namespace World

variable {w : World}

/-- The heap refines the allocator on lists: whatever happened before, the search takes the chunk
that is prescribed, and allocation, release and merging leave the chunks and lists that follow. -/
theorem reachable_refines (hw : w.Reachable) : w.heap.Refines := by
  obtain ⟨A, hA⟩ := hw.tracks
  exact hA.intact.refines

/-- The larger chunk in front of it becomes dirty, and the recent chunk of the wanted size is
handed out. -/
theorem passed_refines :
    let w := sample.after [.allocate 8 .kernel, .allocate 24 .kernel, .release (some 0x1008),
      .release (some 0x1028)]
    w.heap.view.lists .recent = [32, 0] ∧
      w.heap.Yields (Heap.allocate 8 .kernel) (.ok 0x1008)
        (((w.heap.view.demote 32).unlist 0).grant 0 .kernel) 32 := by
  intro w
  obtain ⟨hl, hlarge, hsmall, hdirty, hbase, hfit⟩ : w.heap.view.lists .recent = [32, 0] ∧
      w.heap.view.sizeAt 32 = 64 ∧ w.heap.view.sizeAt 0 = 32 ∧
      w.heap.view.lists (.dirty (sizeClass 32)) = [] ∧ w.heap.base = 0x1000 ∧
      32 ≤ w.heap.len := by
    decide +kernel
  have hhead : w.heap.view.RecentMisses 32 := by
    intro c rest hc
    rw [hl] at hc
    obtain ⟨rfl, -⟩ := List.cons.inj hc
    rw [hlarge]
    decide
  have hlacks : w.heap.view.Lacks (.dirty (sizeClass 32)) (· = 32) := by
    intro d hd
    rw [hdirty] at hd
    cases hd
  have hfound : w.heap.view.Prescribes w.heap.lastSize 32 (some 0)
      (([32].foldl Shape.demote w.heap.view).unlist 0) := by
    apply Shape.Prescribes.recent hhead hlacks hl _ hsmall
    intro d hd
    rw [List.mem_singleton.1 hd, hlarge]
    decide
  have hw : w.Reachable := reachable_sample.after _
  have hreq : chunkSize? 8 = some 32 := rfl
  have hserves : w.heap.Yields (Heap.allocate 8 .kernel) _ _ 32 :=
    (reachable_refines hw).serves hreq hfit hfound
  rw [hbase] at hserves
  exact ⟨hl, hserves⟩

end World

end BoundaryHeap
