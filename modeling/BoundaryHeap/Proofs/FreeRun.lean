import BoundaryHeap.Proofs.Shape
import Mathlib.Algebra.GroupWithZero.Nat
import Mathlib.Data.List.TakeWhile

namespace BoundaryHeap

/-- Bytes of the chunks. -/
def totalOf : List Chunk → Nat
  | [] => 0
  | x :: rest => x.2.size + totalOf rest

theorem Tiles.total {lo hi : Nat} {xs : List Chunk} (h : Tiles lo xs hi) : hi = lo + totalOf xs := by
  induction xs generalizing lo with
  | nil => exact h.symm
  | cons x rest ih =>
    obtain ⟨c, t⟩ := x
    obtain ⟨rfl, -, hrest⟩ := h
    rw [ih hrest, totalOf, Nat.add_assoc]

theorem totalOf_append (xs ys : List Chunk) : totalOf (xs ++ ys) = totalOf xs + totalOf ys := by
  induction xs with
  | nil => exact (Nat.zero_add _).symm
  | cons x rest ih => rw [List.cons_append, totalOf, ih, totalOf, Nat.add_assoc]

theorem totalOf_eq_sum (xs : List Chunk) : totalOf xs = (xs.map fun x => x.2.size).sum := by
  induction xs with
  | nil => rfl
  | cons x rest ih => rw [totalOf, ih, List.map_cons, List.sum_cons]

theorem totalOf_perm {xs ys : List Chunk} (h : xs.Perm ys) : totalOf xs = totalOf ys := by
  rw [totalOf_eq_sum, totalOf_eq_sum]
  exact (h.map _).sum_nat

theorem totalOf_reverse (xs : List Chunk) : totalOf xs.reverse = totalOf xs :=
  totalOf_perm xs.reverse_perm

theorem totalOf_filter_le (p : Chunk → Bool) (xs : List Chunk) :
    totalOf (xs.filter p) ≤ totalOf xs := by
  induction xs with
  | nil => exact Nat.le_refl _
  | cons x rest ih =>
    by_cases hx : p x = true
    · rw [List.filter_cons_of_pos hx, totalOf, totalOf]
      exact Nat.add_le_add_left ih _
    · rw [List.filter_cons_of_neg hx, totalOf]
      exact Nat.le_add_left_of_le ih

theorem totalOf_liveIn_le (xs : List Chunk) : totalOf (liveIn xs) ≤ totalOf xs :=
  totalOf_filter_le _ xs

namespace Shape

/-- The free chunks in front of `c` up to the next live one, the nearest first. -/
def freeBelow (A : Shape) (c : Nat) : List Chunk :=
  (A.chunks.filter fun x => x.1 < c).reverse.takeWhile fun x => x.2.free

/-- The free chunks behind `c` up to the next live one. -/
def freeAbove (A : Shape) (c : Nat) : List Chunk :=
  (A.chunks.filter fun x => c + A.sizeAt c ≤ x.1).takeWhile fun x => x.2.free

/-- Where the run of free chunks around `c` begins. -/
def runStart (A : Shape) (c : Nat) : Nat :=
  c - totalOf (A.freeBelow c)

def runStop (A : Shape) (c : Nat) : Nat :=
  c + A.sizeAt c + totalOf (A.freeAbove c)

def unlistAll (A : Shape) (xs : List Chunk) : Shape :=
  xs.foldl (fun A x => A.unlist x.1) A

/-- `c` and the free chunks around it become one chunk, which is on no list. -/
def joinAround (A : Shape) (c : Nat) : Shape :=
  ((A.unlistAll (A.freeBelow c)).unlistAll (A.freeAbove c)).join (A.runStart c) (A.runStop c)

def mergeAround (A : Shape) (c : Nat) : Shape :=
  (A.joinAround c).file (A.runStart c) .clean

variable {A : Shape} {c d : Nat} {t : Tag} {xs : List Chunk}

@[simp] theorem chunks_unlistAll : (A.unlistAll xs).chunks = A.chunks := by
  induction xs generalizing A with
  | nil => rfl
  | cons x rest ih => exact ih

@[simp] theorem len_unlistAll : (A.unlistAll xs).len = A.len := by
  induction xs generalizing A with
  | nil => rfl
  | cons x rest ih => exact ih

theorem mem_lists_unlistAll {l : ListId} :
    d ∈ (A.unlistAll xs).lists l ↔ d ∈ A.lists l ∧ ∀ x ∈ xs, d ≠ x.1 := by
  induction xs generalizing A with
  | nil => simp [unlistAll]
  | cons x rest ih =>
    have hstep : A.unlistAll (x :: rest) = (A.unlist x.1).unlistAll rest := rfl
    rw [hstep, ih, unlist, Lists.mem_without, List.forall_mem_cons, and_assoc]

theorem lists_unlistAll_sublist (l : ListId) : ((A.unlistAll xs).lists l).Sublist (A.lists l) := by
  induction xs generalizing A with
  | nil => exact .refl _
  | cons x rest ih => exact (ih (A := A.unlist x.1)).trans List.filter_sublist

theorem listed_unlistAll : (A.unlistAll xs).Listed d ↔ A.Listed d ∧ ∀ x ∈ xs, d ≠ x.1 := by
  simp only [Listed, mem_lists_unlistAll]
  constructor
  · rintro ⟨l, hd, hne⟩
    exact ⟨⟨l, hd⟩, hne⟩
  · rintro ⟨⟨l, hd⟩, hne⟩
    exact ⟨l, hd, hne⟩

theorem Valid.unlistAll (h : A.Valid) (xs : List Chunk) : (A.unlistAll xs).Valid := by
  induction xs generalizing A with
  | nil => exact h
  | cons x rest ih => exact ih (h.unlist x.1)

theorem Apart.unlistAll (h : A.Apart) (xs : List Chunk) : (A.unlistAll xs).Apart := by
  induction xs generalizing A with
  | nil => exact h
  | cons x rest ih => exact ih (h.unlist x.1)

theorem loose_unlistAll :
    (A.unlistAll xs).loose = {d | d ∈ A.loose ∨ (A.IsFree d ∧ ∃ x ∈ xs, d = x.1)} := by
  ext d
  simp only [loose, Set.mem_ofPred_eq, listed_unlistAll, IsFree, chunks_unlistAll]
  constructor
  · rintro ⟨hfree, hd⟩
    by_cases hlisted : A.Listed d
    · refine .inr ⟨hfree, ?_⟩
      by_contra hne
      exact hd ⟨hlisted, fun x hx he => hne ⟨x, hx, he⟩⟩
    · exact .inl ⟨hfree, hlisted⟩
  · rintro (⟨hfree, hd⟩ | ⟨hfree, x, hx, rfl⟩)
    · exact ⟨hfree, fun h => hd h.1⟩
    · exact ⟨hfree, fun h => h.2 x hx rfl⟩

theorem mem_joinAround :
    (A.runStart c, Tag.unowned (A.runStop c - A.runStart c)) ∈ (A.joinAround c).chunks :=
  mem_redraw.2 (.inr (.inl (by simp)))

/-- The maximal run of free chunks around `c` cuts the chunks of the region in three. -/
structure Around (A : Shape) (c : Nat) (t : Tag) (pre post : List Chunk) : Prop where
  chunks : A.chunks = pre ++ (A.freeBelow c).reverse ++ (c, t) :: (A.freeAbove c ++ post)
  start : Tiles 0 pre (A.runStart c)
  low : Tiles (A.runStart c) (A.freeBelow c).reverse c
  proper : t.Proper
  high : Tiles (c + t.size) (A.freeAbove c) (A.runStop c)
  stop : Tiles (A.runStop c) post A.len
  liveBelow : ∀ x, pre.getLast? = some x → x.2.free = false
  liveAbove : ∀ x, post.head? = some x → x.2.free = false

theorem head_dropWhile_free {x : Chunk} (h : (xs.dropWhile fun x => x.2.free).head? = some x) :
    x.2.free = false := by
  have hnot := List.head?_dropWhile_not (fun x : Chunk => x.2.free) xs
  rw [h] at hnot
  exact hnot

theorem Valid.around (h : A.Valid) (hc : (c, t) ∈ A.chunks) : ∃ pre post, A.Around c t pre post := by
  obtain ⟨ys, zs, he, hys, ht, hzs⟩ := h.tiles.split hc
  have hrest : Tiles c ((c, t) :: zs) A.len := ⟨rfl, ht, hzs⟩
  have hfront : Tiles 0 (ys ++ [(c, t)]) (c + t.size) := hys.append ⟨rfl, ht, rfl⟩
  have hlow : A.chunks.filter (fun x => x.1 < c) = ys := by
    rw [he]
    exact hys.filter_lt hrest
  have hhigh : A.chunks.filter (fun x => c + A.sizeAt c ≤ x.1) = zs := by
    have hall := hfront.filter_ge hzs
    rw [List.append_assoc] at hall
    rw [h.sizeAt_eq hc, he]
    exact hall
  have hbelow : ys = (ys.reverse.dropWhile fun x => x.2.free).reverse ++
      (A.freeBelow c).reverse := by
    rw [freeBelow, hlow, ← List.reverse_append, List.takeWhile_append_dropWhile,
      List.reverse_reverse]
  have habove : zs = A.freeAbove c ++ zs.dropWhile fun x => x.2.free := by
    rw [freeAbove, hhigh, List.takeWhile_append_dropWhile]
  generalize hpre : (ys.reverse.dropWhile fun x => x.2.free).reverse = pre at hbelow
  generalize hpost : (zs.dropWhile fun x => x.2.free) = post at habove
  rw [hbelow] at hys
  rw [habove] at hzs
  obtain ⟨start, hys₁, hys₂⟩ := Tiles.append_iff.1 hys
  obtain ⟨stop, hzs₁, hzs₂⟩ := Tiles.append_iff.1 hzs
  have hstart : A.runStart c = start := by
    have htotal := hys₂.total
    rw [totalOf_reverse] at htotal
    rw [runStart]
    omega
  have hstop : A.runStop c = stop := by
    rw [runStop, h.sizeAt_eq hc, hzs₁.total]
  rw [← hstart] at hys₁ hys₂
  rw [← hstop] at hzs₁ hzs₂
  refine ⟨pre, post, ⟨?_, hys₁, hys₂, ht, hzs₁, hzs₂, ?_, ?_⟩⟩
  · rw [← hbelow, ← habove]
    exact he
  · intro x hx
    rw [← hpre, List.getLast?_reverse] at hx
    exact head_dropWhile_free hx
  · intro x hx
    rw [← hpost] at hx
    exact head_dropWhile_free hx

theorem free_of_mem_freeBelow {x : Chunk} (h : x ∈ A.freeBelow c) : x.2.free = true :=
  List.mem_takeWhile_imp (p := fun x : Chunk => x.2.free) h

theorem free_of_mem_freeAbove {x : Chunk} (h : x ∈ A.freeAbove c) : x.2.free = true :=
  List.mem_takeWhile_imp (p := fun x : Chunk => x.2.free) h

def runAround (A : Shape) (c : Nat) (t : Tag) : List Chunk :=
  (A.freeBelow c).reverse ++ (c, t) :: A.freeAbove c

theorem mem_runAround {x : Chunk} :
    x ∈ A.runAround c t ↔ x ∈ A.freeBelow c ∨ x = (c, t) ∨ x ∈ A.freeAbove c := by
  simp only [runAround, List.mem_append, List.mem_reverse, List.mem_cons]

theorem free_of_mem_runAround (hfree : t.free = true) {x : Chunk} (h : x ∈ A.runAround c t) :
    x.2.free = true := by
  rcases mem_runAround.1 h with h | rfl | h
  · exact free_of_mem_freeBelow h
  · exact hfree
  · exact free_of_mem_freeAbove h

namespace Around

variable {pre post : List Chunk} {u : Tag} (h : A.Around c t pre post)

include h

theorem chunks_eq : A.chunks = pre ++ A.runAround c t ++ post := by
  rw [h.chunks, runAround]
  simp only [List.append_assoc, List.cons_append]

theorem tiles : Tiles (A.runStart c) (A.runAround c t) (A.runStop c) :=
  h.low.append ⟨rfl, h.proper, h.high⟩

theorem start_le : A.runStart c ≤ c :=
  h.low.le

theorem le_stop : c + t.size ≤ A.runStop c :=
  h.high.le

theorem mem_chunks {x : Chunk} (hx : x ∈ A.runAround c t) : x ∈ A.chunks := by
  rw [h.chunks_eq]
  simp [hx]

theorem mem_pre (hd : (d, u) ∈ A.chunks) (hlt : d < A.runStart c) : (d, u) ∈ pre := by
  rw [h.chunks_eq, List.append_assoc, List.mem_append, List.mem_append] at hd
  rcases hd with hd | hd | hd
  · exact hd
  · have hge := h.tiles.ge_of_mem hd
    omega
  · have hge := h.stop.ge_of_mem hd
    have hle := h.tiles.le
    omega

theorem mem_post (hd : (d, u) ∈ A.chunks) (hge : A.runStop c ≤ d) : (d, u) ∈ post := by
  rw [h.chunks_eq, List.append_assoc, List.mem_append, List.mem_append] at hd
  rcases hd with hd | hd | hd
  · have hlt := (h.start.bounds hd).2
    have hle := h.tiles.le
    omega
  · have hlt := (h.tiles.bounds hd).2
    omega
  · exact hd

theorem length_lt {fuel : Nat} (hfuel : A.len / minChunk < fuel) :
    (A.freeBelow c).length < fuel ∧ (A.freeAbove c).length < fuel := by
  have hlow := h.low.length_le
  have hhigh := h.high.length_le
  have hle := h.le_stop
  have hstop := h.stop.le
  simp only [minChunk] at hfuel
  rw [List.length_reverse] at hlow
  omega

theorem listed_below (hA : A.Holding {c}) : ∀ x ∈ A.freeBelow c, A.Listed x.1 := by
  intro x hx
  have hmem := h.mem_chunks (mem_runAround.2 (.inl hx))
  have hlt := (h.low.bounds (List.mem_reverse.2 hx)).2
  apply hA.listed ⟨x.2, hmem, free_of_mem_freeBelow hx⟩
  exact Nat.ne_of_lt hlt

theorem listed_above (hA : A.Holding {c}) :
    ∀ x ∈ A.freeAbove c, (A.unlistAll (A.freeBelow c)).Listed x.1 := by
  intro x hx
  have hmem := h.mem_chunks (mem_runAround.2 (.inr (.inr hx)))
  have hpos := h.proper.1
  have hge := (h.high.bounds hx).1
  simp only [minChunk] at hpos
  have hne : x.1 ∉ ({c} : Set Nat) := by
    rw [Set.mem_singleton_iff]
    omega
  apply listed_unlistAll.2
  refine ⟨hA.listed ⟨x.2, hmem, free_of_mem_freeAbove hx⟩ hne, fun y hy he => ?_⟩
  have hlt := (h.low.bounds (List.mem_reverse.2 hy)).2
  omega

theorem isSection (hc : ¬A.Listed c) :
    ((A.unlistAll (A.freeBelow c)).unlistAll (A.freeAbove c)).Section (A.runStart c) (A.runStop c)
      (A.runAround c t) := by
  refine ⟨⟨pre, post, ?_, h.start, ?_⟩, h.tiles, ?_⟩
  · simp only [chunks_unlistAll]
    exact h.chunks_eq
  · simp only [len_unlistAll]
    exact h.stop
  · intro d u hd hlisted
    obtain ⟨hlisted, hhigh⟩ := listed_unlistAll.1 hlisted
    obtain ⟨hlisted, hlow⟩ := listed_unlistAll.1 hlisted
    rcases mem_runAround.1 hd with hd | hd | hd
    · exact hlow _ hd rfl
    · cases hd
      exact hc hlisted
    · exact hhigh _ hd rfl

theorem tiles_join :
    Tiles (A.runStart c) [(A.runStart c, .unowned (A.runStop c - A.runStart c))] (A.runStop c) := by
  have hle := h.start_le
  have hstop := h.le_stop
  have hmin := h.proper.1
  have hlo := h.start.mod_end rfl
  have hhi := h.tiles.mod_end hlo
  simp only [minChunk] at hmin
  apply tiles_single
  · simp only [minChunk]
    omega
  · simp only [granule]
    omega

theorem valid_joinAround (hA : A.Valid) (hc : ¬A.Listed c) : (A.joinAround c).Valid :=
  ((hA.unlistAll _).unlistAll _).redraw (h.isSection hc) h.tiles_join

theorem loose_joinAround (hA : A.Valid) (hc : A.loose = {c}) :
    (A.joinAround c).loose = {A.runStart c} := by
  have hlisted : ¬A.Listed c := by
    have hmem : c ∈ A.loose := by simp [hc]
    exact hmem.2
  have hlow : ∀ x ∈ A.runAround c t, A.runStart c ≤ x.1 ∧ x.1 < A.runStop c :=
    fun x hx => h.tiles.bounds hx
  rw [joinAround, join, loose_redraw ((hA.unlistAll _).unlistAll _) (h.isSection hlisted)
    h.tiles_join]
  ext d
  simp only [loose_unlistAll, hc, Set.mem_union, Set.mem_ofPred_eq, Set.mem_singleton_iff,
    List.mem_singleton]
  constructor
  · rintro (⟨(rfl | ⟨-, x, hx, rfl⟩) | ⟨-, x, hx, rfl⟩, hout⟩ | ⟨u, hd, -⟩)
    · have hin := hlow _ (mem_runAround.2 (.inr (.inl rfl)))
      omega
    · have hin := hlow x (mem_runAround.2 (.inl hx))
      omega
    · have hin := hlow x (mem_runAround.2 (.inr (.inr hx)))
      omega
    · cases hd
      rfl
  · rintro rfl
    exact .inr ⟨_, rfl, rfl⟩

theorem clear_joinAround (hA : A.Valid) (hc : ¬A.Listed c) :
    (A.joinAround c).Clear (A.runStart c) (A.runStop c) := by
  have hvalid := h.valid_joinAround hA hc
  have hin := h.tiles_join
  constructor
  · intro d u hd hend hclean
    have hpos := hvalid.tiles.size_pos hd
    obtain ⟨v, hv, hfree⟩ := hvalid.isFree hclean.listed
    obtain rfl := hvalid.tiles.unique hd hv
    have hout : d < A.runStart c ∨ A.runStop c ≤ d := .inl (by omega)
    have hmem := (mem_redraw_outside hin hout).1 hd
    rw [chunks_unlistAll, chunks_unlistAll] at hmem
    have hlast := h.start.getLast?_of_end (h.mem_pre hmem (by omega)) hend
    rw [h.liveBelow _ hlast] at hfree
    cases hfree
  · intro hclean
    obtain ⟨v, hv, hfree⟩ := hvalid.isFree hclean.listed
    have hmem := (mem_redraw_outside hin (.inr (Nat.le_refl _))).1 hv
    rw [chunks_unlistAll, chunks_unlistAll] at hmem
    have hfirst := h.stop.head?_of_start (h.mem_post hmem (Nat.le_refl _))
    rw [h.liveAbove _ hfirst] at hfree
    cases hfree

theorem apart_joinAround (hA : A.Valid) (hapart : A.Apart) (hc : ¬A.Listed c) :
    (A.joinAround c).Apart :=
  ((hapart.unlistAll _).unlistAll _).redraw ((hA.unlistAll _).unlistAll _) (h.isSection hc)
    h.tiles_join

end Around

theorem Holding.joinAround (h : A.Holding {c}) : (A.joinAround c).Holding {A.runStart c} := by
  obtain ⟨⟨t, ht, -⟩, hunlisted⟩ := h.mem_loose rfl
  obtain ⟨pre, post, har⟩ := h.valid.around ht
  exact ⟨har.valid_joinAround h.valid hunlisted, har.loose_joinAround h.valid h.loose,
    har.apart_joinAround h.valid h.apart hunlisted⟩

theorem Holding.mergeAround (h : A.Holding {c}) : (A.mergeAround c).Settled := by
  obtain ⟨⟨t, ht, -⟩, hunlisted⟩ := h.mem_loose rfl
  obtain ⟨pre, post, har⟩ := h.valid.around ht
  have hjoin := h.joinAround
  have hend : A.runStart c + (Tag.unowned (A.runStop c - A.runStart c)).size = A.runStop c := by
    have hle := har.tiles.le
    simp only [Tag.unowned]
    omega
  have hfile : (A.mergeAround c).Holding ({A.runStart c} \ {A.runStart c}) := by
    apply hjoin.file rfl
    · intro he
      cases he
    · intro u hu
      rw [hjoin.valid.tiles.unique hu mem_joinAround, hend]
      exact har.clear_joinAround h.valid hunlisted
  rw [Set.sdiff_self] at hfile
  exact hfile

theorem lists_mergeAround_sublist {l : ListId} (hl : l.kind = .dirty) :
    ((A.mergeAround c).lists l).Sublist (A.lists l) := by
  have hne : l ≠ Filing.clean.list ((A.joinAround c).sizeAt (A.runStart c)) := by
    rintro rfl
    cases hl
  rw [mergeAround, lists_file, Lists.filed_ne hne]
  exact (lists_unlistAll_sublist l).trans (lists_unlistAll_sublist l)

@[simp] theorem len_joinAround : (A.joinAround c).len = A.len := by
  simp only [joinAround, join, len_redraw, len_unlistAll]

@[simp] theorem len_mergeAround : (A.mergeAround c).len = A.len :=
  len_joinAround

end Shape

end BoundaryHeap
