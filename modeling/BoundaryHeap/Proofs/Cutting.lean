import BoundaryHeap.Proofs.Links

namespace BoundaryHeap

open Region (Changed linkBytesOf)

namespace Store

variable {s : Store} {c size total : Nat} {t : Tag}

theorem write64_eq {r : Region} {offset : Nat} (h : r.Admits offset 8) (heads : Heads)
    (w : UInt64) : write64 offset w ⟨r, heads⟩ = .ok () ⟨r.putNat offset 8 w.toNat, heads⟩ :=
  if_pos h

theorem natAt_write64 {r : Region} {offset : Nat} (h : r.Spans offset 8) (w : UInt64) :
    (r.putNat offset 8 w.toNat).natAt offset 8 = w.toNat := by
  have hmod : w.toNat % Nat.pow 256 8 = w.toNat := Nat.mod_eq_of_lt (by simpa using w.toNat_lt)
  rw [Region.natAt_putNat_same _ h, hmod]

def tagBytesOf (c size : Nat) : Set Nat :=
  Set.Ico c (c + 8) ∪ Set.Ico (c + size - 8) (c + size - 8 + 8)

theorem tagBytesOf_subset (h : minChunk ≤ size) : tagBytesOf c size ⊆ Set.Ico c (c + size) := by
  simp only [minChunk] at h
  rintro i (hi | hi)
  · rw [Set.mem_Ico] at hi ⊢
    omega
  · rw [Set.mem_Ico] at hi ⊢
    omega

theorem linkBytesOf_subset (h : minChunk ≤ size) : linkBytesOf {c} ⊆ Set.Ico c (c + size) := by
  simp only [minChunk] at h
  rintro i ⟨d, rfl, hi⟩
  rw [Set.mem_Ico]
  omega

theorem laidBytes_subset (h : minChunk ≤ size) :
    tagBytesOf c size ∪ linkBytesOf {c} ⊆ Set.Ico c (c + size) :=
  Set.union_subset (tagBytesOf_subset h) (linkBytesOf_subset h)

def stamped (s : Store) (c : Nat) (t : Tag) : Store :=
  ⟨(s.region.putNat c 8 t.encode.toNat).putNat (c + t.size - 8) 8 t.encode.toNat, s.heads⟩

theorem stamp_eq (hc : c % 16 = 0) (ht : t.Proper) (hend : c + t.size ≤ s.region.len) :
    stamp c t s = .ok () (s.stamped c t) := by
  obtain ⟨hmin, hgrain⟩ := ht
  simp only [minChunk, granule] at hmin hgrain
  have hhead : s.region.Admits c 8 := by
    refine ⟨by omega, ?_⟩
    show c + 8 ≤ s.region.len
    omega
  have hfoot : (s.region.putNat c 8 t.encode.toNat).Admits (c + t.size - 8) 8 := by
    refine ⟨by omega, ?_⟩
    show c + t.size - 8 + 8 ≤ (s.region.putNat c 8 t.encode.toNat).len
    rw [Region.len_putNat]
    omega
  obtain ⟨r, heads⟩ := s
  rw [stamp, bind_ok (write64_eq hhead heads _), stamped]
  exact write64_eq hfoot heads _

theorem changed_stamped : Changed (tagBytesOf c t.size) s.region (s.stamped c t).region := by
  have hfirst := (Region.changed_putNat (r := s.region) c 8 t.encode.toNat).mono
    (Set.subset_union_left (t := Set.Ico (c + t.size - 8) (c + t.size - 8 + 8)))
  have hsecond := (Region.changed_putNat (r := s.region.putNat c 8 t.encode.toNat)
    (c + t.size - 8) 8 t.encode.toNat).mono (Set.subset_union_right (s := Set.Ico c (c + 8)))
  simp only [stamped]
  exact hfirst.trans hsecond

theorem hasTag_stamped (ht : t.Proper) (hend : c + t.size ≤ s.region.len) :
    (s.stamped c t).region.HasTag c t := by
  have hmin := ht.1
  simp only [minChunk] at hmin
  have hhead : s.region.Spans c 8 := by
    show c + 8 ≤ s.region.len
    omega
  have hfoot : (s.region.putNat c 8 t.encode.toNat).Spans (c + t.size - 8) 8 := by
    show c + t.size - 8 + 8 ≤ (s.region.putNat c 8 t.encode.toNat).len
    rw [Region.len_putNat]
    omega
  simp only [stamped]
  refine ⟨?_, natAt_write64 hfoot _⟩
  rw [Region.natAt_putNat_disjoint (by omega)]
  exact natAt_write64 hhead _

/-- The store in which the links of `c` say that it is on no list. -/
def cleared (s : Store) (c : Nat) : Store :=
  (s.putTarget (.next c) none).putReferrer c nilWord

theorem clearLinks_eq (hc : s.region.Holds c) : clearLinks c s = .ok () (s.cleared c) := by
  rw [clearLinks, bind_ok (setNext_eq hc _)]
  exact setReferrerWord_eq (hc.of_len (by simp)) _

theorem referrerAt_cleared (hc : s.region.Holds c) : (s.cleared c).referrerAt c = nilWord :=
  referrerAt_putReferrer_same (hc.of_len (by simp)) _

theorem changed_cleared : Changed (linkBytesOf {c}) s.region (s.cleared c).region := by
  have hnext := changed_putTarget (s := s) (.next c) none
  exact hnext.trans (changed_putReferrer c nilWord)

@[simp] theorem heads_cleared : (s.cleared c).heads = s.heads := by
  simp only [cleared, putTarget, putReferrer]

theorem HasTag.clearLinks {r r' : Region} (h : r.HasTag c t) (ht : t.Proper)
    (hr : Changed (linkBytesOf {c}) r r') : r'.HasTag c t := by
  have hmin := ht.1
  simp only [minChunk] at hmin
  apply Region.HasTag.changed h hr
  · rintro i hi hi' ⟨d, rfl, hd⟩
    omega
  · rintro i hi hi' ⟨d, rfl, hd⟩
    omega

theorem layOut_run (hc : c % 16 = 0) (hmin : minChunk ≤ size) (hgrain : size % granule = 0)
    (hend : c + size ≤ s.region.len) :
    ∃ s', layOut c size s = .ok () s' ∧ s'.heads = s.heads ∧
      s'.region.HasTag c (.unowned size) ∧ s'.referrerAt c = nilWord ∧
      Changed (tagBytesOf c size ∪ linkBytesOf {c}) s.region s'.region := by
  have ht : (Tag.unowned size).Proper := ⟨hmin, hgrain⟩
  have hstamp := stamp_eq (s := s) hc ht hend
  have htag := hasTag_stamped (s := s) ht hend
  have hchanged := changed_stamped (s := s) (c := c) (t := .unowned size)
  have hheld : (s.stamped c (.unowned size)).region.Holds c := by
    refine ⟨hc, ?_⟩
    rw [hchanged.len]
    simp only [minChunk] at hmin
    omega
  have hlen : reading (fun r => .ok r.len) s = .ok s.region.len s := rfl
  have hheads : ((s.stamped c (.unowned size)).cleared c).heads = s.heads := by
    rw [heads_cleared, stamped]
  refine ⟨_, ?_, hheads, HasTag.clearLinks htag ht changed_cleared, referrerAt_cleared hheld,
    hchanged.trans_union changed_cleared⟩
  rw [layOut, bind_ok (check_eq (And.intro hc hgrain) _), bind_ok (check_eq hmin _),
    bind_ok hlen, bind_ok (check_eq hend _), bind_ok hstamp]
  exact clearLinks_eq hheld

theorem hasSize_eq (h : s.region.tagAt c = .ok (.unowned size)) :
    reading (fun r => .ok (r.hasSize c size)) s = .ok true s := by
  simp [reading, Region.hasSize, h, Tag.unowned]

theorem layOut_pair {rest : Nat} (hc : c % 16 = 0) (hmin : minChunk ≤ size)
    (hgrain : size % granule = 0) (hminr : minChunk ≤ rest) (hgrainr : rest % granule = 0)
    (hend : c + size + rest ≤ s.region.len) :
    ∃ s₁ s₂, layOut c size s = .ok () s₁ ∧ layOut (c + size) rest s₁ = .ok () s₂ ∧
      s₂.heads = s.heads ∧ s₂.region.HasTag c (.unowned size) ∧ s₂.referrerAt c = nilWord ∧
      s₂.region.HasTag (c + size) (.unowned rest) ∧ s₂.referrerAt (c + size) = nilWord ∧
      Changed (Set.Ico c (c + (size + rest))) s.region s₂.region := by
  have hmin' := hmin
  have hgrain' := hgrain
  simp only [minChunk, granule] at hmin' hgrain'
  obtain ⟨s₁, hrun₁, hheads₁, htag₁, hnil₁, hr₁⟩ :=
    layOut_run (s := s) hc hmin hgrain (by omega)
  obtain ⟨s₂, hrun₂, hheads₂, htag₂, hnil₂, hr₂⟩ :=
    layOut_run (s := s₁) (c := c + size) (by omega) hminr hgrainr (by rw [hr₁.len]; exact hend)
  replace hr₁ := hr₁.mono (laidBytes_subset hmin)
  replace hr₂ := hr₂.mono (laidBytes_subset hminr)
  have hbehind : ∀ i, i < c + size → i ∉ Set.Ico (c + size) (c + size + rest) := by
    intro i hi hin
    rw [Set.mem_Ico] at hin
    omega
  refine ⟨s₁, s₂, hrun₁, hrun₂, hheads₂.trans hheads₁, ?_, ?_, htag₂, hnil₂, ?_⟩
  · apply htag₁.changed hr₂
    · exact fun i _ hhi => hbehind i (by omega)
    · exact fun i _ hhi => hbehind i (by simp only [Tag.unowned] at hhi; omega)
  · exact (referrerAt_changed hr₂ fun i _ hhi => hbehind i (by omega)).trans hnil₁
  · apply (hr₁.mono _).trans (hr₂.mono _)
    · exact Set.Ico_subset_Ico_right (by omega)
    · exact Set.Ico_subset_Ico (by omega) (by omega)

theorem cut_run (hc : c % 16 = 0) (htag : s.region.tagAt c = .ok t) (hsize : minChunk ≤ size)
    (hgrain : size % granule = 0) (ht : t.Proper) (hrest : size + minChunk ≤ t.size)
    (hend : c + t.size ≤ s.region.len) (hlen : s.region.len ≤ maxRegion) :
    ∃ s', cut c size s = .ok (c + size) s' ∧ s'.heads = s.heads ∧
      s'.region.HasTag c (.unowned size) ∧ s'.referrerAt c = nilWord ∧
      s'.region.HasTag (c + size) (.unowned (t.size - size)) ∧
      s'.referrerAt (c + size) = nilWord ∧
      Changed (Set.Ico c (c + t.size)) s.region s'.region := by
  have hgrain' := ht.2
  have hmin := hsize
  simp only [minChunk, granule] at hmin hgrain hgrain' hrest
  have hproper : (Tag.unowned size).Proper := ⟨hsize, hgrain⟩
  have hproperr : (Tag.unowned (t.size - size)).Proper := by
    simp only [Tag.Proper, Tag.unowned, minChunk, granule]
    omega
  have htotal : size + (t.size - size) = t.size := by omega
  obtain ⟨s₁, s₂, hrun₁, hrun₂, hheads, htag₁, hnil₁, htag₂, hnil₂, hr⟩ :=
    layOut_pair (s := s) hc hsize hgrain hproperr.1 hproperr.2
      (by simp only [Tag.unowned]; omega)
  simp only [Tag.unowned] at hrun₂ htag₂ hr
  rw [htotal] at hr
  have hread₁ : s₂.region.tagAt c = .ok (.unowned size) :=
    htag₁.tagAt hc hproper (by rw [hr.len]; simp only [Tag.unowned]; omega) (hr.len ▸ hlen)
  have hread₂ : s₂.region.tagAt (c + size) = .ok (.unowned (t.size - size)) :=
    htag₂.tagAt (by omega) hproperr (by rw [hr.len]; simp only; omega) (hr.len ▸ hlen)
  have hsizeOf : sizeOf c s = .ok t.size s := by
    rw [sizeOf, bind_ok (reading_eq htag)]
    rfl
  refine ⟨s₂, ?_, hheads, htag₁, hnil₁, htag₂, hnil₂, hr⟩
  rw [cut, bind_ok hsizeOf, bind_ok (check_eq (by omega) _), bind_ok (check_eq hgrain _),
    bind_ok hrun₁, bind_ok hrun₂, bind_ok (hasSize_eq hread₁), bind_ok (check_eq rfl _),
    bind_ok (hasSize_eq hread₂), bind_ok (check_eq rfl _)]
  rfl

end Store

theorem Region.Changed.tagWords {S : Set Nat} {r r' : Region} {c size : Nat} (hr : Changed S r r')
    (hS : ∀ i ∈ Store.tagBytesOf c size, i ∉ S) :
    r'.natAt c 8 = r.natAt c 8 ∧ r'.natAt (c + size - 8) 8 = r.natAt (c + size - 8) 8 := by
  constructor
  · exact hr.natAt fun i hlo hhi => hS i (.inl (Set.mem_Ico.2 ⟨hlo, hhi⟩))
  · exact hr.natAt fun i hlo hhi => hS i (.inr (Set.mem_Ico.2 ⟨hlo, hhi⟩))

theorem Region.HasTag.of_words {r r' : Region} {c : Nat} {u : Tag} (h : r.HasTag c u)
    (he : r'.natAt c 8 = r.natAt c 8 ∧ r'.natAt (c + u.size - 8) 8 = r.natAt (c + u.size - 8) 8) :
    r'.HasTag c u :=
  ⟨he.1.trans h.1, he.2.trans h.2⟩

theorem Region.Changed.tagAt {S : Set Nat} {r r' : Region} {c : Nat} {t : Tag} (hr : Changed S r r')
    (ht : r.tagAt c = .ok t) (hS : ∀ i ∈ Store.tagBytesOf c t.size, i ∉ S) : r'.tagAt c = .ok t := by
  obtain ⟨hhead, hfoot⟩ := hr.tagWords hS
  rw [Region.tagAt_eq_ok_iff] at ht ⊢
  rw [hhead, hfoot, hr.len]
  exact ht

end BoundaryHeap
