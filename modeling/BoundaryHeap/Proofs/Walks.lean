import BoundaryHeap.Heap.Walk
import BoundaryHeap.Proofs.Intact

namespace BoundaryHeap

namespace Region

variable {r : Region} {lo fuel : Nat} {xs : List Chunk}

theorem walkFrom_eq (h : Tiles lo xs r.len) (htags : ∀ c t, (c, t) ∈ xs → r.tagAt c = .ok t)
    (hfuel : xs.length < fuel) : r.walkFrom fuel lo = (xs, none) := by
  induction xs generalizing lo fuel with
  | nil =>
    obtain rfl : lo = r.len := h
    cases fuel with
    | zero => cases hfuel
    | succ fuel => rw [walkFrom, if_neg (Nat.lt_irrefl _)]
  | cons x rest ih =>
    obtain ⟨c, t⟩ := x
    have hbounds := h.bounds (List.mem_cons_self ..)
    obtain ⟨rfl, -, hrest⟩ := h
    cases fuel with
    | zero => cases hfuel
    | succ fuel =>
      have htag := htags c t (List.mem_cons_self ..)
      have htail := ih hrest (fun d u hd => htags d u (List.mem_cons_of_mem _ hd))
        (Nat.lt_of_succ_lt_succ hfuel)
      rw [walkFrom, if_pos hbounds.2, htag]
      simp only [htail]

end Region

namespace Store

variable {s : Store} {A : Shape} {f : Referrer} {xs : List Nat} {budget : Nat}

theorem Threads.chain (h : s.Threads f xs) (hheld : ∀ c ∈ xs, s.region.Holds c)
    (hbudget : xs.length ≤ budget) : s.region.chain budget (s.targetAt f) = .ok xs := by
  induction xs generalizing f budget with
  | nil =>
    have hnone : s.targetAt f = none := h
    rw [hnone]
    cases budget with
    | zero => rfl
    | succ budget => rfl
  | cons c rest ih =>
    obtain ⟨htarget, -, hrest⟩ := h
    cases budget with
    | zero => cases hbudget
    | succ budget =>
      have hc := hheld c (List.mem_cons_self ..)
      have hnext : s.region.nextOf c = .ok (s.targetAt (.next c)) := Region.nextOf_eq hc.1 hc.2
      have htail := ih hrest (fun d hd => hheld d (List.mem_cons_of_mem _ hd))
        (Nat.le_of_succ_le_succ hbudget)
      rw [htarget, Region.chain, hnext]
      simp only [bind, Except.bind, htail]
      rfl

theorem Represents.walk (h : s.Represents A) : s.region.walk = (A.chunks, none) := by
  have htiles := h.valid.tiles
  have hlength := htiles.length_le
  rw [← h.len] at htiles hlength
  apply Region.walkFrom_eq htiles fun c t hc => h.tagAt hc
  simp only [minChunk]
  omega

theorem Represents.members (h : s.Represents A) (l : ListId) : s.members l = .ok (A.lists l) := by
  have hlength := h.valid.length_le l
  rw [← h.len] at hlength
  apply (h.threads l).chain _ hlength
  intro c hc
  obtain ⟨t, ht, -⟩ := h.valid.listed hc
  exact h.holds ht

end Store

namespace Heap

variable {h : Heap} {A : Shape}

theorem Intact.chunks (hi : h.Intact A) : h.chunks = A.chunks := by
  rw [Heap.chunks, region, hi.store.walk]

theorem Intact.undamaged (hi : h.Intact A) : h.region.walk.2 = none := by
  rw [region, hi.store.walk]

end Heap

end BoundaryHeap
