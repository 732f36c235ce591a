import BoundaryHeap.Proofs.Searching

namespace BoundaryHeap.Store

theorem Relinks.takeRecentHead {A : Shape} (hA : A.Valid) (size : Nat) :
    Relinks (Store.takeRecentHead size) A (A.recentHead size)
      (match A.recentHead size with | some c => A.unlist c | none => A) := by
  have hhead := head (A := A) .recent
  unfold Shape.recentHead
  rcases hl : A.lists .recent with _ | ⟨c, rest⟩
  · rw [hl] at hhead
    exact hhead.bind (.pure ..)
  · rw [hl] at hhead
    have hlisted : A.Listed c := ⟨.recent, by simp [hl]⟩
    apply hhead.bind
    apply (sizeAt hA (hA.isFree hlisted)).bind
    by_cases hfit : size ≤ A.sizeAt c ∧ A.sizeAt c < size + minChunk
    · simp only [if_pos hfit]
      exact (detach hlisted).bind (.pure ..)
    · simp only [if_neg hfit]
      exact .pure ..

namespace Takes

variable {A : Shape} {c size walk fuel : Nat} {l : ListId}

theorem firstWith {accepts : Nat → Bool} {xs ys : List Nat} (hA : A.Valid)
    (hl : A.lists l = xs ++ ys) (hfuel : ys.length < fuel) :
    Takes (Store.firstWith accepts fuel ys.head?) A (ys.find? fun c => accepts (A.sizeAt c)) A := by
  induction ys generalizing xs fuel with
  | nil =>
    cases fuel with
    | zero => exact absurd hfuel (Nat.not_lt_zero _)
    | succ fuel => exact .pure ..
  | cons c rest ih =>
    cases fuel with
    | zero => exact absurd hfuel (Nat.not_lt_zero _)
    | succ fuel =>
      have hmem : c ∈ A.lists l := by simp [hl]
      rw [List.head?_cons, Store.firstWith]
      apply (sizeAt hA (hA.listed hmem)).bind
      by_cases hfit : accepts (A.sizeAt c) = true
      · rw [if_pos hfit, List.find?_cons_of_pos (p := fun c => accepts (A.sizeAt c)) hfit]
        exact .pure ..
      · rw [if_neg hfit, List.find?_cons_of_neg (p := fun c => accepts (A.sizeAt c)) hfit]
        have hl' : A.lists l = (xs ++ [c]) ++ rest := by
          rw [hl, List.append_assoc]
          rfl
        exact (nextOf hl).bind (ih hl' (Nat.lt_of_succ_lt_succ hfuel))

theorem exactIn (hA : A.Valid) (hfuel : A.len / minChunk < fuel) (l : ListId) (size : Nat) :
    Takes (Store.exactIn fuel l size) A (A.exactIn l size) A := by
  have hl : A.lists l = [] ++ A.lists l := rfl
  exact (head l).bind (firstWith hA hl ((hA.length_le l).trans_lt hfuel))

theorem fittingIn (hA : A.Valid) (hfuel : A.len / minChunk < fuel) (l : ListId) (size : Nat) :
    Takes (Store.fittingIn fuel l size) A (A.fittingIn l size) A := by
  have hl : A.lists l = [] ++ A.lists l := rfl
  exact (head l).bind (firstWith hA hl ((hA.length_le l).trans_lt hfuel))

theorem takeRecentHead (hA : A.Valid) (size : Nat) :
    Takes (Store.takeRecentHead size) A (A.recentHead size)
      (match A.recentHead size with | some c => A.unlist c | none => A) :=
  (Relinks.takeRecentHead hA size).takes

theorem takeDirty (hA : A.Valid) (hfuel : A.len / minChunk < fuel) (size : Nat) :
    Takes (Store.takeDirty fuel size) A (A.exactIn (.dirty (sizeClass size)) size)
      (match A.exactIn (.dirty (sizeClass size)) size with
        | some c => A.unlist c
        | none => A) := by
  have hfind := exactIn hA hfuel (.dirty (sizeClass size)) size
  rcases hfound : A.exactIn (.dirty (sizeClass size)) size with _ | c
  · rw [hfound] at hfind
    exact hfind.bind (.pure ..)
  · rw [hfound] at hfind
    obtain ⟨hmem, -⟩ := Shape.exactIn_some hfound
    exact hfind.bind ((detach ⟨_, hmem⟩).bind (.pure ..))

theorem takeRecent (h : A.Settled) (hwalk : A.len / minChunk < walk)
    (hfuel : (A.lists .recent).length < fuel) (size : Nat) :
    Takes (Store.takeRecent size walk fuel) A (A.takeRecent size).1 (A.takeRecent size).2 := by
  induction fuel generalizing A with
  | zero => exact absurd hfuel (Nat.not_lt_zero _)
  | succ fuel ih =>
    rcases hl : A.lists .recent with _ | ⟨c, rest⟩
    · rw [Shape.takeRecent_nil hl]
      exact (takeFirst_nil hl).bind (.pure ..)
    · have hlisted : A.Listed c := ⟨.recent, by simp [hl]⟩
      have hheld := h.take hlisted
      apply (takeFirst_cons hl).bind
      apply (sizeAt hheld.valid (hheld.mem_loose rfl).1).bind
      rw [Shape.sizeAt_unlist]
      by_cases hfit : A.sizeAt c = size
      · rw [Shape.takeRecent_hit hl hfit, if_pos hfit]
        exact .pure ..
      · rw [h.valid.takeRecent_miss hl hfit, if_neg hfit]
        have hrest := h.valid.recent_demote hl
        rw [hl, List.length_cons] at hfuel
        have hstep := ih (h.demote hlisted) hwalk (by rw [hrest]; omega)
        exact (fileDirty hheld hwalk).bind hstep

theorem fittingInBins (hA : A.Valid) (hfuel : A.len / minChunk < fuel)
    (bins : List (Fin binCount)) :
    Takes (Store.fittingInBins fuel size bins) A
      (bins.findSome? fun bin => A.fittingIn (.clean bin) size) A := by
  induction bins with
  | nil => exact .pure ..
  | cons bin bins ih =>
    have hfind := fittingIn hA hfuel (.clean bin) size
    rw [List.findSome?_cons]
    rcases hfound : A.fittingIn (.clean bin) size with _ | c
    · rw [hfound] at hfind
      exact hfind.bind ih
    · rw [hfound] at hfind
      exact hfind.bind (.pure ..)

theorem findFitting (hA : A.Valid) (hfuel : A.len / minChunk < fuel) (size : Nat) :
    Takes (Store.findFitting fuel size) A (A.findFitting size) A := by
  have hfind := fittingIn hA hfuel .remainder size
  unfold Shape.findFitting
  rcases hfound : A.fittingIn .remainder size with _ | c
  · rw [hfound] at hfind
    exact hfind.bind (fittingInBins hA hfuel _)
  · rw [hfound] at hfind
    exact hfind.bind (.pure ..)

theorem takeFitting (hA : A.Valid) (hfuel : A.len / minChunk < fuel) (size : Nat) :
    Takes (Store.takeFitting fuel size) A (A.findFitting size)
      (match A.findFitting size with | some c => A.unlist c | none => A) := by
  have hfind := findFitting hA hfuel size
  rcases hfound : A.findFitting size with _ | c
  · rw [hfound] at hfind
    exact hfind.bind (.pure ..)
  · rw [hfound] at hfind
    obtain ⟨hclean, -⟩ := Shape.findFitting_some hfound
    exact hfind.bind ((detach hclean.listed).bind (.pure ..))

end Takes

end BoundaryHeap.Store
