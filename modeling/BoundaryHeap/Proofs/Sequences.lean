import BoundaryHeap.Proofs.Determined
import BoundaryHeap.Proofs.Refinement

namespace BoundaryHeap

open Region (Changed linkBytesOf)

/-- Without `c` the lists are `L`; with `c` on the list `l`, between `xs` and `ys`, they are `M`. -/
structure Lists.Gains (L M : Lists) (l : ListId) (xs : List Nat) (c : Nat) (ys : List Nat) :
    Prop where
  without : L l = xs ++ ys
  among : M l = xs ++ c :: ys
  others : ∀ l', l' ≠ l → M l' = L l'

/-- The bytes of the links of `c` and of its neighbours, the last of `xs` and the first of `ys`. -/
def seamBytes (xs : List Nat) (c : Nat) (ys : List Nat) : Set Nat :=
  linkBytesOf ({c} ∪ {d | xs.getLast? = some d ∨ ys.head? = some d})

theorem Lists.Gains.front {L M : Lists} {l : ListId} {xs ys : List Nat} {c : Nat}
    (h : L.Gains M l xs c ys) (hfront : M l = c :: L l) (hfresh : c ∉ L l) : xs = [] := by
  have hsame := h.among.symm.trans hfront
  cases xs with
  | nil => rfl
  | cons d rest =>
    obtain ⟨rfl, -⟩ := List.cons.inj hsame
    exact absurd (by simp [h.without]) hfresh

namespace Store

/-- The heads and links spell the lists `L`, which have no chunk in common; each chunk names the
field that refers to it, and the lists of the bins ascend. -/
structure Sequenced (s : Store) (L : Lists) : Prop where
  linked : s.Linked L
  ascending : ∀ l, l.bin ≠ 0 → (L l).Pairwise (· < ·)

variable {s t u : Store} {L : Lists} {l : ListId} {c fuel size i : Nat} {xs ys : List Nat}
  {f : Filing}

theorem Linked.fresh (h : s.Linked L) (hnil : s.referrerAt c = nilWord) (l : ListId) : c ∉ L l := by
  intro hc
  obtain ⟨xs, ys, hsplit⟩ := List.append_of_mem hc
  have hseam := h.seam hsplit
  have hword := hseam.rest.2.1
  rw [hnil] at hword
  have hdecode := ((Referrer.head l).along xs).decode_encode hseam.inside h.short
  rw [← hword, Referrer.decode_nilWord] at hdecode
  cases hdecode

theorem Sequenced.file (h : s.Sequenced L) (hc : s.region.Holds c) (hnil : s.referrerAt c = nilWord)
    (hfuel : f.passed (L (f.list size)) ≤ fuel) (hempty : f = .remainder → L .remainder = []) :
    ∃ t xs ys, Store.file fuel c size f s = .ok () t ∧
      L.Gains (L.filed c size f) (f.list size) xs c ys ∧ t.Sequenced (L.filed c size f) ∧
      Changed (seamBytes xs c ys) s.region t.region := by
  have hfresh := h.linked.fresh hnil
  obtain ⟨t, hrun, hlinked, xs, ys, hl, hplace, hr⟩ := h.linked.file hc hfresh hnil hfuel hempty
  refine ⟨t, xs, ys, hrun, ⟨hl, Lists.filed_same.trans hplace, fun l' he => Lists.filed_ne he⟩,
    ⟨hlinked, Lists.sorted_filed h.ascending hfresh size f⟩, hr⟩

theorem Sequenced.detach (h : s.Sequenced L) (hl : L l = xs ++ c :: ys) :
    ∃ t, Store.detach c s = .ok () t ∧ (L.without c).Gains L l xs c ys ∧
      t.Sequenced (L.without c) ∧ t.referrerAt c = nilWord ∧
      Changed (seamBytes xs c ys) s.region t.region := by
  obtain ⟨t, hrun, hlinked, hnil, hr⟩ := h.linked.detach hl
  have hc : c ∈ L l := by simp [hl]
  have hdistinct := h.linked.distinct
  exact ⟨t, hrun, ⟨hdistinct.without_at hl, hl, fun l' he => (hdistinct.without_ne hc he).symm⟩,
    ⟨hlinked, fun l' hl' => (h.ascending l' hl').filter _⟩, hnil, hr⟩

theorem seamBytes_subset (hl : L l = xs ++ ys) (hi : i ∈ seamBytes xs c ys) :
    (c + 8 ≤ i ∧ i < c + 16) ∨ ∃ d ∈ L l, d + 8 ≤ i ∧ i < d + 16 := by
  obtain ⟨d, rfl | hd | hd, hlo, hhi⟩ := hi
  · exact .inl ⟨hlo, hhi⟩
  · refine .inr ⟨d, ?_, hlo, hhi⟩
    rw [hl]
    exact List.mem_append_left _ (List.mem_of_getLast? hd)
  · refine .inr ⟨d, ?_, hlo, hhi⟩
    rw [hl]
    exact List.mem_append_right _ (List.mem_of_head? hd)

/-- Where the lists are the same and `c` is on none of them, the link of `c` to a next chunk is all
that may differ among links. -/
theorem Linked.changed_next (hs : s.Linked L) (hu : u.Linked L) (hnil : s.referrerAt c = nilWord)
    (hnil' : u.referrerAt c = nilWord) (hl : L l = xs ++ ys)
    (hr : Changed (seamBytes xs c ys) s.region u.region) :
    Changed (Set.Ico (Region.nextField c) (Region.nextField c + 4)) s.region u.region := by
  refine ⟨hr.base, hr.len, fun i hi => ?_⟩
  by_cases hseam : i ∈ seamBytes xs c ys
  · rcases seamBytes_subset hl hseam with ⟨hlo, hhi⟩ | ⟨d, hd, hlo, hhi⟩
    · have hword : u.region.natAt (c + 12) 4 = s.region.natAt (c + 12) 4 :=
        Region.natAt_eq_of_ofNat (hnil'.trans hnil.symm)
      simp only [Region.nextField, tagBytes, Set.mem_Ico] at hi
      exact Region.byteAt_eq_of_natAt hword (by omega) (by omega)
    · exact hu.same_link_byte hs hd hlo hhi
  · exact hr.same i hseam

/-- Filing a chunk and detaching it again leaves its link to a next chunk as the only trace. -/
theorem Sequenced.detach_filed (h : s.Sequenced L) (hnil : s.referrerAt c = nilWord)
    (hgains : L.Gains (L.filed c size f) (f.list size) xs c ys) (ht : t.Sequenced (L.filed c size f))
    (hr : Changed (seamBytes xs c ys) s.region t.region) :
    ∃ u, Store.detach c t = .ok () u ∧ u.Sequenced L ∧ u.heads = s.heads ∧
      Changed (Set.Ico (Region.nextField c) (Region.nextField c + 4)) s.region u.region := by
  obtain ⟨u, hrun, -, hu, hnil', hr'⟩ := ht.detach hgains.among
  rw [Lists.without_filed (h.linked.fresh hnil)] at hu
  exact ⟨u, hrun, hu, hu.linked.same_heads h.linked,
    h.linked.changed_next hu.linked hnil hnil' hgains.without (hr.trans hr')⟩

/-- On the lists `L` the operations on lists are operations on sequences. -/
structure ActsOnSequences (s : Store) (L : Lists) : Prop where
  /-- Filing puts a chunk on one list: by address on the list of a bin, for all lists of bins ascend,
  in front of the recent chunks, or as the only remainder. Detaching undoes it. -/
  file : ∀ c size f fuel, s.region.Holds c → s.referrerAt c = nilWord →
    f.passed (L (f.list size)) ≤ fuel → (f = .remainder → L .remainder = []) →
    ∃ t M xs ys, Store.file fuel c size f s = .ok () t ∧ L.Gains M (f.list size) xs c ys ∧
      (f = .recent → xs = []) ∧ (f = .remainder → xs = [] ∧ ys = []) ∧ t.Sequenced M ∧
      Changed (seamBytes xs c ys) s.region t.region ∧
      ∃ u, Store.detach c t = .ok () u ∧ u.Sequenced L ∧ u.heads = s.heads ∧
        Changed (Set.Ico (Region.nextField c) (Region.nextField c + 4)) s.region u.region
  detach : ∀ l c, c ∈ L l → ∃ t M xs ys, Store.detach c s = .ok () t ∧ M.Gains L l xs c ys ∧
    t.Sequenced M ∧ t.referrerAt c = nilWord ∧ Changed (seamBytes xs c ys) s.region t.region
  takeFirst_nil : ∀ l, L l = [] → takeFirst l s = .ok none s
  takeFirst_cons : ∀ l c ys, L l = c :: ys → ∃ t M, takeFirst l s = .ok (some c) t ∧
    M.Gains L l [] c ys ∧ t.Sequenced M ∧ t.referrerAt c = nilWord ∧
    Changed (seamBytes [] c ys) s.region t.region

theorem list_operations (hs : s.Sequenced L) : s.ActsOnSequences L where
  file c size f fuel hc hnil hfuel hempty := by
    obtain ⟨t, xs, ys, hrun, hgains, ht, hr⟩ := hs.file hc hnil hfuel hempty
    refine ⟨t, _, xs, ys, hrun, hgains, ?_, ?_, ht, hr, hs.detach_filed hnil hgains ht hr⟩
    · rintro rfl
      exact hgains.front Lists.filed_recent (hs.linked.fresh hnil _)
    · rintro rfl
      exact List.append_eq_nil_iff.1 (hgains.without.symm.trans (hempty rfl))
  detach l c hc := by
    obtain ⟨xs, ys, hl⟩ := List.append_of_mem hc
    obtain ⟨t, hrun, hrest⟩ := hs.detach hl
    exact ⟨t, _, xs, ys, hrun, hrest⟩
  takeFirst_nil l hl := by
    have hhead := hs.linked.head l
    rw [hl] at hhead
    rw [takeFirst, bind_ok hhead]
    rfl
  takeFirst_cons l c ys hl := by
    have hhead := hs.linked.head l
    rw [hl] at hhead
    have hsplit : L l = [] ++ c :: ys := hl
    obtain ⟨t, hrun, hrest⟩ := hs.detach hsplit
    refine ⟨t, _, ?_, hrest⟩
    rw [takeFirst, bind_ok hhead]
    simp only [List.head?_cons]
    rw [bind_ok hrun]
    rfl

end Store

namespace World

theorem Reachable.sequenced {w : World} (hw : w.Reachable) :
    w.heap.store.Sequenced w.heap.view.lists := by
  obtain ⟨A, hA⟩ := hw.tracks
  rw [hA.intact.view]
  exact ⟨hA.intact.store.linked, hA.intact.settled.valid.sorted⟩

def strewn : World :=
  sample.after [.allocate 8 .kernel, .allocate 8 .kernel, .release (some 0x1008),
    .release (some 0x1028)]

def loosened : Store :=
  match Store.detach 0 strewn.heap.store with
  | .ok _ t => t
  | .error _ t => t

theorem sequenced_loosened :
    loosened.Sequenced (strewn.heap.view.lists.without 0) ∧ loosened.referrerAt 0 = nilWord := by
  have hl : strewn.heap.view.lists .recent = [32] ++ 0 :: [] := by decide +kernel
  have hw : strewn.Reachable := reachable_sample.after _
  obtain ⟨t, hrun, -, ht, hnil, -⟩ := hw.sequenced.detach hl
  unfold loosened
  split
  next t' hrun' =>
    cases hrun.symm.trans hrun'
    exact ⟨ht, hnil⟩
  next f t' hrun' => cases hrun.symm.trans hrun'

theorem loosened_operations :
    loosened.Sequenced (strewn.heap.view.lists.without 0) ∧ loosened.region.Holds 0 ∧
      loosened.referrerAt 0 = nilWord ∧
      loosened.ActsOnSequences (strewn.heap.view.lists.without 0) :=
  ⟨sequenced_loosened.1, by unfold Region.Holds; decide +kernel, sequenced_loosened.2,
    Store.list_operations sequenced_loosened.1⟩

end World

end BoundaryHeap
