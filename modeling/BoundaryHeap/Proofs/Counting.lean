import BoundaryHeap.LiveMap
import BoundaryHeap.Proofs.Fresh

namespace BoundaryHeap

theorem countP_range_add (p : Nat → Bool) (a b : Nat) :
    (List.range (a + b)).countP p =
      (List.range a).countP p + (List.range b).countP fun j => p (a + j) := by
  rw [List.range_add, List.countP_append, List.countP_map]
  rfl

theorem testBit_ones {k j : Nat} (hk : k < 64) :
    (1#64 <<< k - 1#64).getLsbD j = decide (j < k) := by
  have hpow : 2 ^ k < 2 ^ 64 := Nat.pow_lt_pow_right (by decide) hk
  have hpos : 0 < 2 ^ k := Nat.two_pow_pos k
  have hnat : (1#64 <<< k - 1#64).toNat = 2 ^ k - 1 := by
    rw [BitVec.toNat_sub, BitVec.toNat_shiftLeft, Nat.shiftLeft_eq]
    simp only [BitVec.toNat_ofNat]
    omega
  rw [BitVec.getLsbD, hnat, Nat.testBit_two_pow_sub_one]

namespace LiveMap

variable (m : LiveMap)

theorem isMarked_add (q : Nat) {j : Nat} (hj : j < 64) :
    m.isMarked (64 * q + j) = (m.word q).getLsbD j := by
  have hword : (64 * q + j) / 64 = q := by omega
  have hbit : (64 * q + j) % 64 = j := by omega
  rw [isMarked, hword, hbit]

theorem eq_of_isMarked {m m' : LiveMap} (h : ∀ g, m.isMarked g = m'.isMarked g) : m = m' := by
  have hword : ∀ q, m.word q = m'.word q := by
    intro q
    apply BitVec.eq_of_getLsbD_eq
    intro j hj
    rw [← m.isMarked_add q hj, ← m'.isMarked_add q hj]
    exact h _
  obtain ⟨words⟩ := m
  obtain ⟨words'⟩ := m'
  congr 1
  apply Vector.ext
  intro q hq
  have hq' := hword q
  simp only [word, Vector.getElem?_eq_getElem hq, Option.getD_some] at hq'
  exact hq'

theorem setBits_word (q : Nat) :
    setBits (m.word q) = (List.range 64).countP fun j => m.isMarked (64 * q + j) := by
  apply List.countP_congr
  intro j hj
  rw [m.isMarked_add q (List.mem_range.1 hj)]

theorem setBits_word_low (q : Nat) {k : Nat} (hk : k < 64) :
    setBits (m.word q &&& (1#64 <<< k - 1#64)) =
      (List.range k).countP fun j => m.isMarked (64 * q + j) := by
  have hsplit : k + (64 - k) = 64 := by omega
  have hcount := countP_range_add (m.word q &&& (1#64 <<< k - 1#64)).getLsbD k (64 - k)
  rw [hsplit] at hcount
  rw [setBits, hcount]
  have hhigh : ((List.range (64 - k)).countP fun j =>
      (m.word q &&& (1#64 <<< k - 1#64)).getLsbD (k + j)) = 0 := by
    rw [List.countP_eq_zero]
    intro j _
    rw [BitVec.getLsbD_and, testBit_ones hk]
    simp
  rw [hhigh, Nat.add_zero]
  apply List.countP_congr
  intro j hj
  have hlt := List.mem_range.1 hj
  rw [m.isMarked_add q (by omega), BitVec.getLsbD_and, testBit_ones hk]
  simp [hlt]

theorem sum_setBits (q : Nat) :
    (List.range q).foldl (fun total i => total + setBits (m.word i)) 0 =
      (List.range (64 * q)).countP m.isMarked := by
  induction q with
  | zero => rfl
  | succ q ih =>
    rw [List.range_succ, List.foldl_append, ih, Nat.mul_succ, countP_range_add, ← m.setBits_word q]
    rfl

/-- Counting word by word counts every mark once. -/
theorem countMarked_eq (count : Nat) : m.countMarked count = (List.range count).countP m.isMarked := by
  have hsplit : 64 * (count / 64) + count % 64 = count := Nat.div_add_mod ..
  have hlow : count % 64 < 64 := Nat.mod_lt _ (by decide)
  rw [countMarked, sum_setBits, setBits_word_low m _ hlow, ← countP_range_add, hsplit]

variable {m} {k count : Nat}

theorem take_words (hk : k ≤ markWords) : m.words.toList.take k = (List.range k).map m.word := by
  apply List.ext_getElem?
  intro i
  rw [List.getElem?_take, List.getElem?_map]
  by_cases hi : i < k
  · rw [if_pos hi, List.getElem?_range hi, Vector.getElem?_toList, getElem?_words,
      if_pos (hi.trans_le hk)]
    rfl
  · rw [if_neg hi, List.getElem?_eq_none (by simpa using hi)]
    rfl

theorem firstWords?_eq (m : LiveMap) (k : Nat) :
    m.firstWords? k = if k ≤ markWords then some ((List.range k).map m.word) else none := by
  rw [firstWords?]
  by_cases hk : k ≤ markWords
  · rw [if_pos hk, if_pos hk, take_words hk]
  · rw [if_neg hk, if_neg hk]

theorem setBits_rest (m : LiveMap) (htail : count % 64 = 0) :
    setBits (m.word (count / 64) &&& (1#64 <<< (count % 64) - 1#64)) = 0 := by
  rw [htail]
  exact m.setBits_word_low (count / 64) (by decide)

/-- Marks are counted exactly up to the capacity. -/
theorem countMarked?_eq (m : LiveMap) (count : Nat) :
    m.countMarked? count = if count ≤ capacity then some (m.countMarked count) else none := by
  have hwords : (List.range (count / 64)).foldl (fun total i => total + setBits (m.word i)) 0 =
      ((List.range (count / 64)).map m.word).foldl (fun total w => total + setBits w) 0 := by
    rw [List.foldl_map]
  rw [countMarked?, firstWords?_eq, getElem?_words, countMarked, hwords]
  by_cases htail : count % 64 = 0
  · have hfit : count / 64 ≤ markWords ↔ count ≤ capacity := by
      simp only [capacity, markWords, markBytes]
      omega
    rw [m.setBits_rest htail]
    by_cases hin : count ≤ capacity
    · rw [if_pos hin, if_pos (hfit.2 hin)]
      simp only [Option.bind_eq_bind, Option.bind_some, if_pos htail]
      rfl
    · rw [if_neg hin, if_neg (mt hfit.1 hin)]
      rfl
  · have hfit : count / 64 < markWords ↔ count ≤ capacity := by
      simp only [capacity, markWords, markBytes]
      omega
    by_cases hin : count ≤ capacity
    · have hlt := hfit.2 hin
      rw [if_pos hin, if_pos hlt.le, if_pos hlt]
      simp only [Option.bind_eq_bind, Option.bind_some, if_neg htail]
      rfl
    · -- either a whole word is missing or the last one
      rw [if_neg hin, if_neg (mt hfit.1 hin)]
      by_cases hfull : count / 64 ≤ markWords
      · rw [if_pos hfull]
        simp only [Option.bind_eq_bind, Option.bind_some, if_neg htail]
        rfl
      · rw [if_neg hfull]
        rfl

theorem wordsFor?_eq (m : LiveMap) (count : Nat) :
    m.wordsFor? count = if count ≤ capacity then some (m.wordsFor count) else none := by
  have hfit : (count + 63) / 64 ≤ markWords ↔ count ≤ capacity := by
    simp only [capacity, markWords, markBytes]
    omega
  rw [wordsFor?, firstWords?_eq]
  simp only [hfit]
  rfl

end LiveMap

namespace ListId

theorem mem_all (l : ListId) : l ∈ all := by
  obtain ⟨bin, kind⟩ := l
  by_cases hbin : bin = 0
  · subst hbin
    cases kind with
    | clean => exact List.mem_append_left _ (List.mem_cons_of_mem _ (List.mem_cons_self ..))
    | dirty => exact List.mem_append_left _ (List.mem_cons_self ..)
  · refine List.mem_append_right _ (List.mem_flatMap.2 ⟨bin, Shape.mem_bins hbin, ?_⟩)
    cases kind with
    | clean => exact List.mem_cons_self ..
    | dirty => exact List.mem_cons_of_mem _ (List.mem_cons_self ..)

theorem map_index_all : all.map index = [1, 0] ++ List.range' 2 (2 * binCount - 2) := by
  decide +kernel

theorem nodup_all : all.Nodup := by
  apply List.Nodup.of_map index
  rw [map_index_all]
  have hcaches : ([1, 0] : List Nat).Nodup := by decide
  refine List.nodup_append.2 ⟨hcaches, List.nodup_range', fun i hi j hj => ?_⟩
  have hlow := List.mem_range'_1.1 hj
  simp only [List.mem_cons, List.not_mem_nil, or_false] at hi
  omega

end ListId

theorem Lists.Distinct.nodup_all {L : Lists} (h : L.Distinct) : (ListId.all.flatMap L).Nodup := by
  refine List.nodup_flatMap.2 ⟨fun l _ => h.nodup l, ?_⟩
  apply ListId.nodup_all.imp
  intro l l' hne c hc hc'
  exact hne (h.only hc hc')

theorem mem_listed {L : Lists} {c : Nat} : c ∈ ListId.all.flatMap L ↔ ∃ l, c ∈ L l := by
  simp only [List.mem_flatMap, ListId.mem_all, true_and]

def freeStarts (chunks : List Chunk) : List Nat :=
  (chunks.filter fun x => x.2.free).map Prod.fst

theorem mem_freeStarts {chunks : List Chunk} {c : Nat} :
    c ∈ freeStarts chunks ↔ ∃ t, (c, t) ∈ chunks ∧ t.free = true := by
  simp only [freeStarts, List.mem_map, List.mem_filter]
  constructor
  · rintro ⟨⟨_, t⟩, ⟨ht, hfree⟩, rfl⟩
    exact ⟨t, ht, hfree⟩
  · rintro ⟨t, ht, hfree⟩
    exact ⟨(c, t), ⟨ht, hfree⟩, rfl⟩

theorem length_freeStarts (chunks : List Chunk) :
    (freeStarts chunks).length = chunks.countP fun x => x.2.free := by
  rw [freeStarts, List.length_map, List.countP_eq_length_filter]

theorem Tiles.nodup_freeStarts {lo hi : Nat} {xs : List Chunk} (h : Tiles lo xs hi) :
    (freeStarts xs).Nodup := by
  rw [freeStarts, List.Nodup, List.pairwise_map]
  exact (h.sorted.filter _).imp fun hlt => Nat.ne_of_lt hlt

namespace Shape

variable {A : Shape}

theorem Settled.perm_listed (h : A.Settled) :
    (ListId.all.flatMap A.lists).Perm (freeStarts A.chunks) := by
  apply (List.perm_ext_iff_of_nodup h.valid.distinct.nodup_all h.valid.tiles.nodup_freeStarts).2
  intro c
  rw [mem_listed, mem_freeStarts]
  constructor
  · rintro ⟨l, hc⟩
    exact h.valid.listed hc
  · intro hfree
    exact h.listed hfree (Set.notMem_empty _)

theorem Settled.length_listed (h : A.Settled) :
    (ListId.all.flatMap A.lists).length = A.chunks.countP fun x => x.2.free := by
  rw [h.perm_listed.length_eq, length_freeStarts]

theorem Valid.nodup_granules (h : A.Valid) :
    ((liveIn A.chunks).map fun x => x.1 / granule).Nodup := by
  rw [List.Nodup, List.pairwise_map]
  apply (h.tiles.sorted.filter _).imp_of_mem
  rintro ⟨c, t⟩ ⟨d, u⟩ hc hd hlt
  have hgrid := h.tiles.mod_of_mem rfl (mem_liveIn.1 hc).1
  have hgrid' := h.tiles.mod_of_mem rfl (mem_liveIn.1 hd).1
  simp only [granule] at hlt ⊢
  omega

end Shape

namespace Heap

variable {h : Heap} {A : Shape}

theorem Intact.countMarked_of_le (hi : h.Intact A) {count : Nat} (hcount : h.len / granule ≤ count) :
    h.live.countMarked count = (liveIn A.chunks).length := by
  have hlength : ((liveIn A.chunks).map fun x => x.1 / granule).length = (liveIn A.chunks).length :=
    List.length_map _
  rw [LiveMap.countMarked_eq, List.countP_eq_length_filter, ← hlength]
  apply List.Perm.length_eq
  have hnodup : (List.range count).Nodup := List.nodup_range
  apply (List.perm_ext_iff_of_nodup (hnodup.filter _) hi.settled.valid.nodup_granules).2
  intro g
  simp only [List.mem_filter, List.mem_range, hi.marks, List.mem_map]
  constructor
  · rintro ⟨-, t, ht⟩
    exact ⟨(g * granule, t), ht, by simp⟩
  · rintro ⟨⟨c, t⟩, ht, rfl⟩
    have hmem := (mem_liveIn.1 ht).1
    have hgrid := hi.settled.valid.tiles.mod_of_mem rfl hmem
    have hend := hi.settled.valid.tiles.end_le hmem
    have hpos := hi.settled.valid.tiles.size_pos hmem
    have hplace : c / granule * granule = c := (hi.settled.valid.granule_eq_iff hmem).1 rfl
    refine ⟨?_, t, ?_⟩
    · apply Nat.lt_of_lt_of_le _ hcount
      rw [hi.len]
      simp only [granule]
      omega
    · rw [hplace]
      exact ht

theorem Intact.countMarked (hi : h.Intact A) :
    h.live.countMarked (h.len / granule) = (liveIn A.chunks).length :=
  hi.countMarked_of_le (Nat.le_refl _)

end Heap

end BoundaryHeap
