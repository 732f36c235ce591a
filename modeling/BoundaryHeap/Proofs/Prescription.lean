import BoundaryHeap.Proofs.Searching

namespace BoundaryHeap

open Store (binsFrom)

theorem find?_eq_some_iff_least {xs : List Nat} {p : Nat → Bool} {c : Nat}
    (h : xs.Pairwise (· < ·)) :
    xs.find? p = some c ↔ c ∈ xs ∧ p c = true ∧ ∀ d ∈ xs, p d = true → c ≤ d := by
  induction xs with
  | nil => simp
  | cons x rest ih =>
    obtain ⟨hx, hrest⟩ := List.pairwise_cons.1 h
    by_cases hp : p x = true
    · rw [List.find?_cons_of_pos hp, Option.some.injEq]
      constructor
      · rintro rfl
        refine ⟨List.mem_cons_self .., hp, fun d hd _ => ?_⟩
        rcases List.mem_cons.1 hd with rfl | hd
        · exact Nat.le_refl _
        · exact Nat.le_of_lt (hx d hd)
      · rintro ⟨hc, -, hleast⟩
        rcases List.mem_cons.1 hc with rfl | hc
        · rfl
        · have hle := hleast x (List.mem_cons_self ..) hp
          have hlt := hx c hc
          omega
    · rw [List.find?_cons_of_neg hp, ih hrest]
      constructor
      · rintro ⟨hc, hpc, hleast⟩
        refine ⟨List.mem_cons_of_mem _ hc, hpc, fun d hd hpd => ?_⟩
        rcases List.mem_cons.1 hd with rfl | hd
        · exact absurd hpd hp
        · exact hleast d hd hpd
      · rintro ⟨hc, hpc, hleast⟩
        rcases List.mem_cons.1 hc with rfl | hc
        · exact absurd hpc hp
        · exact ⟨hc, hpc, fun d hd => hleast d (List.mem_cons_of_mem _ hd)⟩

namespace Shape

structure Lowest (A : Shape) (l : ListId) (accepts : Nat → Prop) (c : Nat) : Prop where
  mem : c ∈ A.lists l
  fits : accepts (A.sizeAt c)
  least : ∀ d ∈ A.lists l, accepts (A.sizeAt d) → c ≤ d

def Lacks (A : Shape) (l : ListId) (accepts : Nat → Prop) : Prop :=
  ∀ d ∈ A.lists l, ¬accepts (A.sizeAt d)

/-- The latest recent chunk, if there is one, is too small or too large by a chunk or more. -/
def RecentMisses (A : Shape) (size : Nat) : Prop :=
  ∀ c rest, A.lists .recent = c :: rest → ¬(size ≤ A.sizeAt c ∧ A.sizeAt c < size + minChunk)

/-- The chunk that the remainder and the clean lists have for `size` bytes: the remainder if it is
large enough, else the lowest one of the first bin that has one. -/
inductive Offers (A : Shape) (size : Nat) : Option Nat → Prop
  | remainder {c : Nat} (hc : c ∈ A.lists .remainder) (hsize : size ≤ A.sizeAt c) :
      Offers A size (some c)
  | clean {bin : Fin binCount} {c : Nat} (hremainder : A.Lacks .remainder (size ≤ ·))
      (hbin : sizeClass size ≤ bin)
      (hlower : ∀ b, sizeClass size ≤ b → b < bin → A.Lacks (.clean b) (size ≤ ·))
      (hc : A.Lowest (.clean bin) (size ≤ ·) c) : Offers A size (some c)
  | nothing (hremainder : A.Lacks .remainder (size ≤ ·))
      (hbins : ∀ b, sizeClass size ≤ b → A.Lacks (.clean b) (size ≤ ·)) : Offers A size none

/-- No recent chunk and no dirty chunk can be handed out as it is. -/
structure Exhausted (A : Shape) (size : Nat) : Prop where
  head : A.RecentMisses size
  dirty : A.Lacks (.dirty (sizeClass size)) (· = size)
  recent : A.Lacks .recent (· = size)

/-- The chunk that a request for a chunk of `size` bytes is to get when the size `last` was served
before, and what is left of the lists and chunks. -/
inductive Prescribes (A : Shape) (last size : Nat) : Option Nat → Shape → Prop
  | recentHead {c : Nat} {rest : List Nat} (hl : A.lists .recent = c :: rest)
      (hsize : size ≤ A.sizeAt c ∧ A.sizeAt c < size + minChunk) :
      Prescribes A last size (some c) (A.unlist c)
  | dirtyBin {c : Nat} (hhead : A.RecentMisses size)
      (hc : A.Lowest (.dirty (sizeClass size)) (· = size) c) :
      Prescribes A last size (some c) (A.unlist c)
  | recent {misses rest : List Nat} {c : Nat} (hhead : A.RecentMisses size)
      (hdirty : A.Lacks (.dirty (sizeClass size)) (· = size))
      (hl : A.lists .recent = misses ++ c :: rest) (hmisses : ∀ d ∈ misses, A.sizeAt d ≠ size)
      (hsize : A.sizeAt c = size) :
      Prescribes A last size (some c) ((misses.foldl demote A).unlist c)
  | clean {c : Nat} (hexact : A.Exhausted size) (hc : A.flush.Offers size (some c)) :
      Prescribes A last size (some c) ((A.flush.unlist c).cutDown last c size)
  | merged {c : Nat} (hexact : A.Exhausted size) (hclean : A.flush.Offers size none)
      (hc : A.flush.mergeAll.Offers size (some c)) :
      Prescribes A last size (some c) ((A.flush.mergeAll.unlist c).cutDown last c size)
  | refused (hexact : A.Exhausted size) (hclean : A.flush.Offers size none)
      (hmerged : A.flush.mergeAll.Offers size none) :
      Prescribes A last size none A.flush.mergeAll

variable {A B : Shape} {c last size : Nat} {l : ListId} {found : Option Nat}

theorem recentHead_eq_none_iff : A.recentHead size = none ↔ A.RecentMisses size := by
  unfold recentHead RecentMisses
  rcases A.lists .recent with _ | ⟨c, rest⟩
  · simp
  · simp

theorem recentHead_cons {rest : List Nat} (hl : A.lists .recent = c :: rest)
    (hsize : size ≤ A.sizeAt c ∧ A.sizeAt c < size + minChunk) : A.recentHead size = some c := by
  unfold recentHead
  rw [hl]
  exact if_pos hsize

theorem exactIn_eq_none_iff : A.exactIn l size = none ↔ A.Lacks l (· = size) := by
  simp [exactIn, Lacks, List.find?_eq_none]

theorem fittingIn_eq_none_iff : A.fittingIn l size = none ↔ A.Lacks l (size ≤ ·) := by
  simp [fittingIn, Lacks, List.find?_eq_none]

theorem Valid.exactIn_eq_some_iff (h : A.Valid) (hl : l.bin ≠ 0) :
    A.exactIn l size = some c ↔ A.Lowest l (· = size) c := by
  rw [exactIn, find?_eq_some_iff_least (h.sorted l hl)]
  simp only [beq_iff_eq]
  exact ⟨fun ⟨hc, hfits, hleast⟩ => ⟨hc, hfits, hleast⟩, fun h => ⟨h.mem, h.fits, h.least⟩⟩

theorem Valid.fittingIn_eq_some_iff (h : A.Valid) (hl : l.bin ≠ 0) :
    A.fittingIn l size = some c ↔ A.Lowest l (size ≤ ·) c := by
  rw [fittingIn, find?_eq_some_iff_least (h.sorted l hl)]
  simp only [decide_eq_true_eq]
  exact ⟨fun ⟨hc, hfits, hleast⟩ => ⟨hc, hfits, hleast⟩, fun h => ⟨h.mem, h.fits, h.least⟩⟩

theorem Valid.fittingIn_remainder (h : A.Valid) :
    A.fittingIn .remainder size = some c ↔ c ∈ A.lists .remainder ∧ size ≤ A.sizeAt c := by
  constructor
  · exact fittingIn_some
  · rintro ⟨hc, hsize⟩
    have hl : A.lists .remainder = [c] := by
      have hsingle := h.single
      rcases hl : A.lists .remainder with _ | ⟨d, _ | ⟨e, rest⟩⟩
      · rw [hl] at hc
        cases hc
      · rw [hl] at hc
        rw [List.mem_singleton.1 hc]
      · rw [hl] at hsingle
        simp only [List.length_cons] at hsingle
        omega
    rw [fittingIn, hl]
    exact List.find?_cons_of_pos (by simpa using hsize)

theorem pairwise_binsFrom (size : Nat) : (binsFrom size).Pairwise (· < ·) :=
  (List.pairwise_lt_finRange binCount).sublist (List.drop_sublist ..)

theorem bin_ne_zero {bin : Fin binCount} (h : sizeClass size ≤ bin) : bin ≠ 0 := by
  rintro rfl
  have hpos := sizeClass_pos size
  rw [Fin.le_def] at h
  exact absurd hpos (Nat.not_lt_of_le h)

/-- The bins are tried in ascending order. -/
theorem findSome?_binsFrom {f : Fin binCount → Option Nat} :
    (binsFrom size).findSome? f = some c ↔
      ∃ bin, sizeClass size ≤ bin ∧ (∀ b, sizeClass size ≤ b → b < bin → f b = none) ∧
        f bin = some c := by
  have hsorted := pairwise_binsFrom size
  rw [List.findSome?_eq_some_iff]
  constructor
  · rintro ⟨lower, bin, upper, he, hbin, hnone⟩
    rw [he] at hsorted
    have hmem : ∀ b, b ∈ lower ++ bin :: upper ↔ sizeClass size ≤ b := by
      rw [← he]
      exact fun b => mem_binsFrom
    refine ⟨bin, (hmem bin).1 (by simp), fun b hb hlt => hnone b ?_, hbin⟩
    rcases List.mem_append.1 ((hmem b).2 hb) with hb | hb
    · exact hb
    · rcases List.mem_cons.1 hb with rfl | hb
      · exact absurd hlt (lt_irrefl _)
      · have hgt := (List.pairwise_cons.1 (List.pairwise_append.1 hsorted).2.1).1 b hb
        exact absurd hlt (lt_asymm hgt)
  · rintro ⟨bin, hbin, hlower, hfound⟩
    obtain ⟨lower, upper, he⟩ := List.append_of_mem (mem_binsFrom.2 hbin)
    refine ⟨lower, bin, upper, he, hfound, fun b hb => hlower b ?_ ?_⟩
    · apply mem_binsFrom.1
      rw [he]
      exact List.mem_append_left _ hb
    · rw [he] at hsorted
      exact (List.pairwise_append.1 hsorted).2.2 b hb bin (List.mem_cons_self ..)

theorem Valid.offers_some_iff (h : A.Valid) :
    A.Offers size (some c) ↔ A.findFitting size = some c := by
  unfold findFitting
  constructor
  · rintro (⟨hc, hsize⟩ | ⟨hremainder, hbin, hlower, hc⟩)
    · rw [h.fittingIn_remainder.2 ⟨hc, hsize⟩]
    · rw [fittingIn_eq_none_iff.2 hremainder]
      refine findSome?_binsFrom.2 ⟨_, hbin, fun b hb hlt => ?_, ?_⟩
      · exact fittingIn_eq_none_iff.2 (hlower b hb hlt)
      · exact (h.fittingIn_eq_some_iff (bin_ne_zero hbin)).2 hc
  · intro hfound
    split at hfound
    next d hd =>
      obtain rfl := Option.some.inj hfound
      obtain ⟨hc, hsize⟩ := fittingIn_some hd
      exact .remainder hc hsize
    next hnone =>
      obtain ⟨bin, hbin, hlower, hc⟩ := findSome?_binsFrom.1 hfound
      refine .clean (fittingIn_eq_none_iff.1 hnone) hbin (fun b hb hlt => ?_) ?_
      · exact fittingIn_eq_none_iff.1 (hlower b hb hlt)
      · exact (h.fittingIn_eq_some_iff (bin_ne_zero hbin)).1 hc

theorem offers_none_iff : A.Offers size none ↔ A.findFitting size = none := by
  unfold findFitting
  constructor
  · intro hnothing
    cases hnothing with
    | nothing hremainder hbins =>
      rw [fittingIn_eq_none_iff.2 hremainder]
      refine List.findSome?_eq_none_iff.2 fun bin hbin => ?_
      exact fittingIn_eq_none_iff.2 (hbins bin (mem_binsFrom.1 hbin))
  · intro hnone
    split at hnone
    next => cases hnone
    next hremainder =>
      refine .nothing (fittingIn_eq_none_iff.1 hremainder) fun b hb => ?_
      exact fittingIn_eq_none_iff.1 (List.findSome?_eq_none_iff.1 hnone b (mem_binsFrom.2 hb))

theorem Valid.offers_iff (h : A.Valid) : A.Offers size found ↔ A.findFitting size = found := by
  cases found with
  | none => exact offers_none_iff
  | some c => exact h.offers_some_iff

theorem Settled.takeRecent_eq (h : A.Settled) {misses rest : List Nat}
    (hl : A.lists .recent = misses ++ c :: rest) (hmisses : ∀ d ∈ misses, A.sizeAt d ≠ size)
    (hsize : A.sizeAt c = size) :
    A.takeRecent size = (some c, (misses.foldl Shape.demote A).unlist c) := by
  have htake : (A.lists .recent).takeWhile (fun d => A.sizeAt d != size) = misses := by
    rw [hl, List.takeWhile_append_of_pos fun d hd => by simpa using hmisses d hd,
      List.takeWhile_cons_of_neg (by simp [hsize]), List.append_nil]
  have hdemote : A.demoteMisses size = misses.foldl Shape.demote A := by
    rw [Shape.demoteMisses, htake]
  have hrecent := (h.demoteAll hl).2
  unfold Shape.takeRecent
  rw [hdemote, hrecent]

theorem Settled.takeRecent_flush (h : A.Settled) (hmiss : A.Lacks .recent (· = size)) :
    A.takeRecent size = (none, A.flush) := by
  have htake : (A.lists .recent).takeWhile (fun d => A.sizeAt d != size) = A.lists .recent :=
    List.takeWhile_eq_self_iff.2 fun d hd => by simpa using hmiss d hd
  have hdemote : A.demoteMisses size = A.flush := by
    rw [Shape.demoteMisses, htake, Shape.flush]
  unfold Shape.takeRecent
  rw [hdemote, h.recent_flush]

theorem sizeClass_dirty_ne (size : Nat) : (ListId.dirty (sizeClass size)).bin ≠ 0 :=
  bin_ne_zero (Nat.le_refl _)

theorem cutFitting_of_some (h : A.findFitting size = some c) :
    A.cutFitting last size = (some c, (A.unlist c).cutDown last c size) := by
  rw [cutFitting, h]

theorem cutFitting_of_none (h : A.findFitting size = none) :
    A.cutFitting last size = (none, A) := by
  rw [cutFitting, h]

theorem Settled.search_exhausted (h : A.Settled) (hexact : A.Exhausted size) :
    A.search last size =
      match A.flush.cutFitting last size with
      | (some c, C) => (some c, C)
      | (none, C) => C.mergeAll.cutFitting last size := by
  have hhead : A.recentHead size = none := recentHead_eq_none_iff.2 hexact.head
  have hdirty : A.exactIn (.dirty (sizeClass size)) size = none :=
    exactIn_eq_none_iff.2 hexact.dirty
  unfold Shape.search
  cases hcut : A.flush.cutFitting last size with
  | mk found C => cases found <;> simp [hhead, hdirty, h.takeRecent_flush hexact.recent, hcut]

theorem Settled.search_of_prescribes (h : A.Settled) (hB : A.Prescribes last size found B) :
    A.search last size = (found, B) := by
  cases hB with
  | recentHead hl hsize =>
    unfold Shape.search
    rw [recentHead_cons hl hsize]
  | dirtyBin hhead hc =>
    unfold Shape.search
    rw [recentHead_eq_none_iff.2 hhead,
      (h.valid.exactIn_eq_some_iff (sizeClass_dirty_ne size)).2 hc]
  | recent hhead hdirty hl hmisses hsize =>
    unfold Shape.search
    rw [recentHead_eq_none_iff.2 hhead, exactIn_eq_none_iff.2 hdirty,
      h.takeRecent_eq hl hmisses hsize]
  | clean hexact hc =>
    rw [h.search_exhausted hexact, cutFitting_of_some (h.flush.valid.offers_iff.1 hc)]
  | merged hexact hclean hc =>
    rw [h.search_exhausted hexact, cutFitting_of_none (offers_none_iff.1 hclean)]
    exact cutFitting_of_some (h.flush.mergeAll.1.valid.offers_iff.1 hc)
  | refused hexact hclean hmerged =>
    rw [h.search_exhausted hexact, cutFitting_of_none (offers_none_iff.1 hclean)]
    exact cutFitting_of_none (offers_none_iff.1 hmerged)

/-- There is always a step that applies. -/
theorem Settled.exists_prescribes (h : A.Settled) (last size : Nat) :
    ∃ found B, A.Prescribes last size found B := by
  by_cases hhead : A.RecentMisses size
  case neg =>
    simp only [RecentMisses, not_forall, not_not] at hhead
    obtain ⟨c, rest, hl, hsize⟩ := hhead
    exact ⟨_, _, .recentHead hl hsize⟩
  rcases hdirty : A.exactIn (.dirty (sizeClass size)) size with _ | c
  case some =>
    have hc := (h.valid.exactIn_eq_some_iff (sizeClass_dirty_ne size)).1 hdirty
    exact ⟨_, _, .dirtyBin hhead hc⟩
  rw [exactIn_eq_none_iff] at hdirty
  rcases hrecent : A.exactIn .recent size with _ | c
  case some =>
    obtain ⟨hsize, misses, rest, hl, hmisses⟩ := List.find?_eq_some_iff_append.1 hrecent
    refine ⟨_, _, .recent hhead hdirty hl (fun d hd => ?_) (by simpa using hsize)⟩
    simpa using hmisses d hd
  have hexact : A.Exhausted size := ⟨hhead, hdirty, exactIn_eq_none_iff.1 hrecent⟩
  rcases hfit : A.flush.findFitting size with _ | c
  case some => exact ⟨_, _, .clean hexact (h.flush.valid.offers_iff.2 hfit)⟩
  rcases hmerged : A.flush.mergeAll.findFitting size with _ | c
  case some =>
    exact ⟨_, _, .merged hexact (offers_none_iff.2 hfit)
      (h.flush.mergeAll.1.valid.offers_iff.2 hmerged)⟩
  exact ⟨_, _, .refused hexact (offers_none_iff.2 hfit) (offers_none_iff.2 hmerged)⟩

/-- The search takes the chunk that is prescribed, and there is one such chunk at most. -/
theorem Settled.search_eq_iff (h : A.Settled) :
    A.search last size = (found, B) ↔ A.Prescribes last size found B := by
  constructor
  · intro hsearch
    obtain ⟨found', B', hB⟩ := h.exists_prescribes last size
    obtain ⟨rfl, rfl⟩ := Prod.mk.inj ((h.search_of_prescribes hB).symm.trans hsearch)
    exact hB
  · exact h.search_of_prescribes

end Shape

end BoundaryHeap
