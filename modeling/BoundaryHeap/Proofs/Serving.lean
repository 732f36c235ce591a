import BoundaryHeap.Proofs.Runs

namespace BoundaryHeap

theorem Room.congr {live live' : List (Nat × Nat)} {len size : Nat} (h : Room live len size)
    (hsame : ∀ x, x ∈ live' ↔ x ∈ live) : Room live' len size := by
  obtain ⟨a, hend, hapart⟩ := h
  exact ⟨a, hend, fun c n hc => hapart c n ((hsame _).1 hc)⟩

theorem Shape.Valid.hasRoom_iff {A : Shape} {request : Nat} (h : A.Valid) :
    A.HasRoom request ↔ ∃ size, chunkSize? request = some size ∧
      ∃ run, FreeRun A.chunks run ∧ size ≤ totalOf run := by
  constructor
  · rintro ⟨size, hreq, hroom⟩
    have hpos : 0 < size := Nat.lt_of_lt_of_le (by decide) (chunkSize?_spec hreq).1
    exact ⟨size, hreq, (h.room_iff hpos).1 hroom⟩
  · rintro ⟨size, hreq, hrun⟩
    have hpos : 0 < size := Nat.lt_of_lt_of_le (by decide) (chunkSize?_spec hreq).1
    exact ⟨size, hreq, (h.room_iff hpos).2 hrun⟩

namespace Heap

def Serves (h : Heap) (request : Nat) (owner : Owner) : Prop :=
  ∃ addr, (h.run (allocate request owner)).result = .ok addr

variable {h : Heap} {A : Shape} {request : Nat}

theorem Intact.serves_iff (hi : h.Intact A) (owner : Owner) :
    h.Serves request owner ↔ A.HasRoom request := by
  rcases hi.allocate request owner with ⟨h', B, hrefused⟩ | ⟨h', c, B, hserved⟩
  · constructor
    · rintro ⟨addr, haddr⟩
      rw [hrefused.run.run.1] at haddr
      cases haddr
    · exact fun hroom => absurd hroom hrefused.full
  · exact ⟨fun _ => hserved.room, fun _ => ⟨_, hserved.run.run.1⟩⟩

theorem Intact.refuses (hi : h.Intact A) {owner : Owner} (hfail : ¬h.Serves request owner) :
    (h.run (Heap.allocate request owner)).result = .error (.error (.outOfMemory request)) := by
  rcases hi.allocate request owner with ⟨h', B, hrefused⟩ | ⟨h', c, B, hserved⟩
  · exact hrefused.run.run.1
  · exact absurd ⟨_, hserved.run.run.1⟩ hfail

end Heap

namespace World

variable {w : World}

/-- The search is sound and complete: a request is served if and only if a maximal run of free
chunks is large enough for it, and else it is refused for want of memory. Two heaps of one length
whose live chunks lie at the same places serve the same requests. -/
theorem serves_iff_free_run (hw : w.Reachable) (request : Nat) (owner : Owner) :
    (w.heap.Serves request owner ↔ ∃ size, chunkSize? request = some size ∧
      ∃ run, FreeRun w.heap.chunks run ∧ size ≤ totalOf run) ∧
    (¬w.heap.Serves request owner → (w.heap.run (Heap.allocate request owner)).result =
      .error (.error (.outOfMemory request))) ∧
    ∀ w' : World, w'.Reachable → w'.heap.len = w.heap.len →
      (∀ x, x ∈ liveExtents w'.heap.chunks ↔ x ∈ liveExtents w.heap.chunks) →
      ∀ owner', w'.heap.Serves request owner' ↔ w.heap.Serves request owner := by
  obtain ⟨A, hA⟩ := hw.tracks
  have hi := hA.intact
  refine ⟨?_, hi.refuses, ?_⟩
  · rw [hi.chunks]
    exact (hi.serves_iff owner).trans hi.settled.valid.hasRoom_iff
  · intro w' hw' hlen hsame owner'
    obtain ⟨B, hB⟩ := hw'.tracks
    rw [hi.len, hB.intact.len] at hlen
    rw [hi.chunks, hB.intact.chunks] at hsame
    rw [hi.serves_iff, hB.intact.serves_iff, Shape.HasRoom, Shape.HasRoom, hlen]
    constructor
    · rintro ⟨size, hreq, hroom⟩
      exact ⟨size, hreq, hroom.congr fun x => (hsame x).symm⟩
    · rintro ⟨size, hreq, hroom⟩
      exact ⟨size, hreq, hroom.congr hsame⟩

/-- No free chunk is large enough for the request, but the three in a row are. -/
theorem pieces_served :
    let w := sample.after [.allocate 8 .kernel, .allocate 8 .kernel, .release (some 0x1008),
      .release (some 0x1028)]
    (∀ x ∈ w.heap.chunks, x.2.size = 32) ∧ w.heap.Serves 48 .kernel := by
  intro w
  have hfree : ∀ x ∈ w.heap.chunks, x.2.free = true := by decide +kernel
  have hserves := (serves_iff_free_run (w := w) (reachable_sample.after _) 48 .kernel).1
  have hrun : FreeRun w.heap.chunks w.heap.chunks := by
    refine ⟨fun c t hc => hfree (c, t) hc, [], [], by simp, ?_, ?_⟩
    · intro x hx
      cases hx
    · intro x hx
      cases hx
  exact ⟨by decide +kernel, hserves.2 ⟨64, by decide, _, hrun, by decide +kernel⟩⟩

end World

end BoundaryHeap
