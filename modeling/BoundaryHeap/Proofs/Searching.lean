import BoundaryHeap.Proofs.Carving

namespace BoundaryHeap

open Store (binsFrom)

namespace Shape

variable {A B : Shape} {c last size : Nat} {t : Tag} {l : ListId}

def recentHead (A : Shape) (size : Nat) : Option Nat :=
  match A.lists .recent with
  | [] => none
  | c :: _ => if size ≤ A.sizeAt c ∧ A.sizeAt c < size + minChunk then some c else none

def exactIn (A : Shape) (l : ListId) (size : Nat) : Option Nat :=
  (A.lists l).find? fun c => A.sizeAt c == size

/-- The first chunk of a list that has at least the wanted size. -/
def fittingIn (A : Shape) (l : ListId) (size : Nat) : Option Nat :=
  (A.lists l).find? fun c => size ≤ A.sizeAt c

/-- The remainder if it is large enough, else the first clean chunk that is. -/
def findFitting (A : Shape) (size : Nat) : Option Nat :=
  match A.fittingIn .remainder size with
  | some c => some c
  | none => (binsFrom size).findSome? fun bin => A.fittingIn (.clean bin) size

/-- The recent chunks in front of the first one of exactly the wanted size become dirty. -/
def demoteMisses (A : Shape) (size : Nat) : Shape :=
  ((A.lists .recent).takeWhile fun c => A.sizeAt c != size).foldl demote A

def takeRecent (A : Shape) (size : Nat) : Option Nat × Shape :=
  match (A.demoteMisses size).lists .recent with
  | [] => (none, A.demoteMisses size)
  | c :: _ => (some c, (A.demoteMisses size).unlist c)

def cutFitting (A : Shape) (last size : Nat) : Option Nat × Shape :=
  match A.findFitting size with
  | none => (none, A)
  | some c => (some c, (A.unlist c).cutDown last c size)

/-- The chunk that serves a request, and the shape without it on any list. -/
def search (A : Shape) (last size : Nat) : Option Nat × Shape :=
  match A.recentHead size with
  | some c => (some c, A.unlist c)
  | none =>
  match A.exactIn (.dirty (sizeClass size)) size with
  | some c => (some c, A.unlist c)
  | none =>
  match A.takeRecent size with
  | (some c, B) => (some c, B)
  | (none, B) =>
  match B.cutFitting last size with
  | (some c, C) => (some c, C)
  | (none, C) => C.mergeAll.cutFitting last size

structure Found (A : Shape) (c size : Nat) : Prop where
  holding : A.Holding {c}
  fits : ∃ t, (c, t) ∈ A.chunks ∧ size ≤ t.size ∧ t.size < size + minChunk

theorem Settled.found (h : A.Settled) (hc : c ∈ A.lists l) (hlow : size ≤ A.sizeAt c)
    (hhigh : A.sizeAt c < size + minChunk) : (A.unlist c).Found c size := by
  obtain ⟨t, ht, -⟩ := h.valid.listed hc
  have htotal := h.valid.sizeAt_eq ht
  exact ⟨h.take ⟨l, hc⟩, t, ht, htotal ▸ hlow, htotal ▸ hhigh⟩

theorem recentHead_some (h : A.recentHead size = some c) :
    c ∈ A.lists .recent ∧ size ≤ A.sizeAt c ∧ A.sizeAt c < size + minChunk := by
  unfold recentHead at h
  split at h
  next => cases h
  next d rest hl =>
    split at h
    next hfit =>
      cases h
      exact ⟨by simp [hl], hfit⟩
    next => cases h

theorem exactIn_some (h : A.exactIn l size = some c) : c ∈ A.lists l ∧ A.sizeAt c = size := by
  have hsize := List.find?_some h
  exact ⟨List.mem_of_find?_eq_some h, by simpa using hsize⟩

theorem fittingIn_some (h : A.fittingIn l size = some c) : c ∈ A.lists l ∧ size ≤ A.sizeAt c := by
  have hsize := List.find?_some h
  exact ⟨List.mem_of_find?_eq_some h, by simpa using hsize⟩

theorem findFitting_some (h : A.findFitting size = some c) :
    A.Clean c ∧ size ≤ A.sizeAt c := by
  unfold findFitting at h
  split at h
  next d hd =>
    cases h
    obtain ⟨hmem, hsize⟩ := fittingIn_some hd
    exact ⟨⟨.remainder, rfl, hmem⟩, hsize⟩
  next =>
    obtain ⟨bin, -, hbin⟩ := List.exists_of_findSome?_eq_some h
    obtain ⟨hmem, hsize⟩ := fittingIn_some hbin
    exact ⟨⟨.clean bin, rfl, hmem⟩, hsize⟩

theorem mem_binsFrom {bin : Fin binCount} : bin ∈ binsFrom size ↔ sizeClass size ≤ bin := by
  rw [binsFrom, List.mem_iff_getElem]
  constructor
  · rintro ⟨i, hi, rfl⟩
    rw [List.getElem_drop, List.getElem_finRange, Fin.le_def]
    exact Nat.le_add_right ..
  · intro hle
    rw [Fin.le_def] at hle
    have hlen : bin.val - (sizeClass size).val < ((List.finRange binCount).drop
        (sizeClass size)).length := by
      rw [List.length_drop, List.length_finRange]
      omega
    refine ⟨_, hlen, ?_⟩
    rw [List.getElem_drop, List.getElem_finRange]
    apply Fin.ext
    simp only [Fin.val_cast]
    omega

/-- The bins from that of the wanted size on hold every clean chunk that is large enough. -/
theorem findFitting_none (h : A.Valid) (hnone : A.findFitting size = none) (hc : A.Clean c) :
    A.sizeAt c < size := by
  unfold findFitting at hnone
  split at hnone
  next => cases hnone
  next hremainder =>
    obtain ⟨⟨bin, kind⟩, rfl, hmem⟩ := hc
    obtain ⟨t, ht, -⟩ := h.listed hmem
    have hsize := h.sizeAt_eq ht
    by_contra hlarge
    by_cases hbin : bin = 0
    · subst hbin
      have hmiss := List.find?_eq_none.1 hremainder c hmem
      simp only [decide_eq_true_eq] at hmiss
      exact hlarge (Nat.lt_of_not_le hmiss)
    · have hclass := h.binned hmem hbin ht
      have hmono := sizeClass_mono (Nat.le_of_not_lt hlarge)
      rw [hsize, hclass] at hmono
      have hmiss := List.findSome?_eq_none_iff.1 hnone bin (mem_binsFrom.2 hmono)
      have hmiss' := List.find?_eq_none.1 hmiss c hmem
      simp only [decide_eq_true_eq] at hmiss'
      exact hlarge (Nat.lt_of_not_le hmiss')

theorem chunks_demoteAll (xs : List Nat) : (xs.foldl demote A).chunks = A.chunks := by
  induction xs generalizing A with
  | nil => rfl
  | cons c rest ih => exact ih

theorem sizeAt_demoteAll (xs : List Nat) : (xs.foldl demote A).sizeAt c = A.sizeAt c := by
  rw [sizeAt, chunks_demoteAll, sizeAt]

theorem Settled.demoteMisses (h : A.Settled) (size : Nat) :
    (A.demoteMisses size).Settled ∧
      (A.demoteMisses size).lists .recent =
        (A.lists .recent).dropWhile fun c => A.sizeAt c != size :=
  h.demoteAll List.takeWhile_append_dropWhile.symm

theorem Settled.takeRecent_some (h : A.Settled) (hfound : A.takeRecent size = (some c, B)) :
    B.Found c size := by
  obtain ⟨hsettled, hrecent⟩ := h.demoteMisses size
  unfold Shape.takeRecent at hfound
  split at hfound
  next => cases hfound
  next d rest hl =>
    cases hfound
    have hmem : c ∈ (A.demoteMisses size).lists .recent := by simp [hl]
    rw [hl] at hrecent
    have hhit := List.head?_dropWhile_not (fun c => A.sizeAt c != size) (A.lists .recent)
    rw [← hrecent] at hhit
    have hsize : (A.demoteMisses size).sizeAt c = size := by
      rw [Shape.demoteMisses, sizeAt_demoteAll]
      simpa using hhit
    apply hsettled.found hmem
    · exact Nat.le_of_eq hsize.symm
    · rw [hsize]
      exact Nat.lt_add_of_pos_right (by decide)

theorem Settled.takeRecent_none (h : A.Settled) (hmiss : A.takeRecent size = (none, B)) :
    B.Settled := by
  unfold Shape.takeRecent at hmiss
  split at hmiss
  next =>
    cases hmiss
    exact (h.demoteMisses size).1
  next => cases hmiss

theorem len_takeRecent {found : Option Nat} (hB : A.takeRecent size = (found, B)) :
    B.len = A.len := by
  unfold takeRecent at hB
  split at hB
  next =>
    cases hB
    exact len_demoteAll _
  next =>
    cases hB
    exact len_demoteAll _

theorem takeRecent_nil (hl : A.lists .recent = []) : A.takeRecent size = (none, A) := by
  have hmisses : A.demoteMisses size = A := by
    rw [demoteMisses, hl]
    rfl
  unfold takeRecent
  rw [hmisses, hl]

theorem takeRecent_hit {rest : List Nat} (hl : A.lists .recent = c :: rest)
    (hsize : A.sizeAt c = size) : A.takeRecent size = (some c, A.unlist c) := by
  have hmisses : A.demoteMisses size = A := by
    rw [demoteMisses, hl, List.takeWhile_cons_of_neg (by simp [hsize])]
    rfl
  unfold takeRecent
  rw [hmisses, hl]

theorem Valid.takeRecent_miss (h : A.Valid) {rest : List Nat} (hl : A.lists .recent = c :: rest)
    (hsize : A.sizeAt c ≠ size) : A.takeRecent size = (A.demote c).takeRecent size := by
  have hmisses : A.demoteMisses size = (A.demote c).demoteMisses size := by
    rw [demoteMisses, demoteMisses, h.recent_demote hl, hl,
      List.takeWhile_cons_of_pos (by simpa using hsize)]
    rfl
  unfold Shape.takeRecent
  rw [hmisses]

/-- A clean chunk has no clean neighbour, so its tail may be clean. -/
theorem Settled.next_not_clean (h : A.Settled) (hc : A.Clean c) :
    ¬(A.unlist c).Clean (c + A.sizeAt c) := by
  obtain ⟨t, ht, -⟩ := h.valid.isFree hc.listed
  rw [h.valid.sizeAt_eq ht]
  exact fun hnext => h.apart c t ht hc (clean_unlist.1 hnext).1

theorem Settled.cutFitting_some (h : A.Settled) (hmin : minChunk ≤ size)
    (hgrain : size % granule = 0) (hfound : A.cutFitting last size = (some c, B)) :
    B.Found c size := by
  unfold Shape.cutFitting at hfound
  split at hfound
  next => cases hfound
  next d hd =>
    cases hfound
    obtain ⟨hclean, hsize⟩ := findFitting_some hd
    obtain ⟨hheld, hfits⟩ := (h.take hclean.listed).cutDown hmin hgrain hsize
      (h.next_not_clean hclean) last
    exact ⟨hheld, hfits⟩

theorem cutFitting_none (hmiss : A.cutFitting last size = (none, B)) :
    B = A ∧ A.findFitting size = none := by
  unfold cutFitting at hmiss
  split at hmiss
  next hnone =>
    cases hmiss
    exact ⟨rfl, hnone⟩
  next => cases hmiss

/-- The search is sound. -/
theorem Settled.search_some (h : A.Settled) (hmin : minChunk ≤ size)
    (hgrain : size % granule = 0) (hfound : A.search last size = (some c, B)) :
    B.Found c size := by
  unfold Shape.search at hfound
  split at hfound
  next d hd =>
    cases hfound
    obtain ⟨hmem, hlow, hhigh⟩ := recentHead_some hd
    exact h.found hmem hlow hhigh
  next =>
  split at hfound
  next d hd =>
    cases hfound
    obtain ⟨hmem, hsize⟩ := exactIn_some hd
    apply h.found hmem (Nat.le_of_eq hsize.symm)
    rw [hsize]
    exact Nat.lt_add_of_pos_right (by decide)
  next =>
  split at hfound
  next d C hd =>
    cases hfound
    exact h.takeRecent_some hd
  next C hC =>
  have hC' := h.takeRecent_none hC
  split at hfound
  next d D hD =>
    cases hfound
    exact hC'.cutFitting_some hmin hgrain hD
  next D hD =>
    obtain ⟨rfl, -⟩ := cutFitting_none hD
    exact hC'.mergeAll.1.cutFitting_some hmin hgrain hfound

/-- The search is complete: when it fails, all free space is merged and no chunk is large enough. -/
theorem Settled.search_none (h : A.Settled) (hmiss : A.search last size = (none, B)) :
    B.Settled ∧ (∀ l, l.kind = .dirty → B.lists l = []) ∧ B.findFitting size = none := by
  unfold Shape.search at hmiss
  split at hmiss
  next => cases hmiss
  next =>
  split at hmiss
  next => cases hmiss
  next =>
  split at hmiss
  next => cases hmiss
  next C hC =>
  have hC' := h.takeRecent_none hC
  split at hmiss
  next => cases hmiss
  next D hD =>
    obtain ⟨rfl, -⟩ := cutFitting_none hD
    obtain ⟨hsettled, -, hempty⟩ := hC'.mergeAll
    obtain ⟨rfl, hnone⟩ := cutFitting_none hmiss
    exact ⟨hsettled, hempty, hnone⟩

end Shape

end BoundaryHeap
