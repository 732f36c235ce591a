import BoundaryHeap.Proofs.Gaps
import BoundaryHeap.Proofs.Takes

namespace BoundaryHeap

open Region (Changed linkBytesOf)

namespace Shape

variable {A : Shape} {c d : Nat} {t u v : Tag} {owner : Owner}

/-- The chunk at `c` gets another tag of the same size. -/
def retag (A : Shape) (c : Nat) (u : Tag) : Shape :=
  A.redraw c (c + u.size) [(c, u)]

/-- The chunk at `c` becomes a live chunk of `owner`. -/
def grant (A : Shape) (c : Nat) (owner : Owner) : Shape :=
  A.retag c (.live (A.sizeAt c) owner)

/-- The live chunk at `c` becomes the latest recent chunk. -/
def giveBack (A : Shape) (c : Nat) (t : Tag) : Shape :=
  (A.retag c { t with free := true }).file c .recent

theorem tiles_retag (ht : t.Proper) (hsize : u.size = t.size) :
    Tiles c [(c, u)] (c + u.size) :=
  ⟨rfl, ⟨hsize ▸ ht.1, hsize ▸ ht.2⟩, rfl⟩

theorem Valid.section_retag (h : A.Valid) (hc : (c, t) ∈ A.chunks) (hunlisted : ¬A.Listed c)
    (hsize : u.size = t.size) : A.Section c (c + u.size) [(c, t)] := by
  rw [hsize]
  exact h.section_of_mem hc hunlisted

theorem Valid.not_listed (h : A.Valid) (hc : (c, t) ∈ A.chunks) (hlive : t.free = false) :
    ¬A.Listed c := by
  intro hlisted
  obtain ⟨u, hu, hfree⟩ := h.isFree hlisted
  rw [h.tiles.unique hc hu, hfree] at hlive
  cases hlive

theorem Valid.retag (h : A.Valid) (hc : (c, t) ∈ A.chunks) (hunlisted : ¬A.Listed c)
    (hsize : u.size = t.size) : (A.retag c u).Valid :=
  h.redraw (h.section_retag hc hunlisted hsize) (tiles_retag (h.tiles.proper hc) hsize)

theorem Valid.mem_retag (h : A.Valid) (hc : (c, t) ∈ A.chunks) (hsize : u.size = t.size) :
    (d, v) ∈ (A.retag c u).chunks ↔ ((d, v) ∈ A.chunks ∧ d ≠ c) ∨ (d = c ∧ v = u) := by
  have hpos := h.tiles.size_pos hc
  rw [Shape.retag, mem_redraw, List.mem_singleton, Prod.mk.injEq]
  constructor
  · rintro (⟨hd, hlt⟩ | hd | ⟨hd, hge⟩)
    · exact .inl ⟨hd, Nat.ne_of_lt hlt⟩
    · exact .inr hd
    · exact .inl ⟨hd, by omega⟩
  · rintro (⟨hd, hne⟩ | hd)
    · rcases h.tiles.apart hc hd with ⟨he, -⟩ | he | he
      · exact absurd he.symm hne
      · exact .inr (.inr ⟨hd, by omega⟩)
      · exact .inl ⟨hd, by have hpos' := h.tiles.size_pos hd; omega⟩
    · exact .inr (.inl hd)

theorem Valid.chunks_retag (h : A.Valid) (hc : (c, t) ∈ A.chunks) (hunlisted : ¬A.Listed c)
    (hsize : u.size = t.size) : ∃ pre post, A.chunks = pre ++ [(c, t)] ++ post ∧
      (A.retag c u).chunks = pre ++ [(c, u)] ++ post := by
  obtain ⟨pre, post, he, -, -, he'⟩ := (h.section_retag hc hunlisted hsize).chunks_redraw [(c, u)]
  exact ⟨pre, post, he, he'⟩

theorem loose_retag (h : A.Valid) (hc : (c, t) ∈ A.chunks) (hunlisted : ¬A.Listed c)
    (hsize : u.size = t.size) :
    (A.retag c u).loose = {d | (d ∈ A.loose ∧ d ≠ c) ∨ (d = c ∧ u.free = true)} := by
  ext d
  constructor
  · rintro ⟨⟨v, hv, hfree⟩, hd⟩
    rcases (h.mem_retag hc hsize).1 hv with ⟨hmem, hne⟩ | ⟨rfl, rfl⟩
    · exact .inl ⟨⟨⟨v, hmem, hfree⟩, hd⟩, hne⟩
    · exact .inr ⟨rfl, hfree⟩
  · rintro (⟨⟨⟨v, hv, hfree⟩, hd⟩, hne⟩ | ⟨rfl, hfree⟩)
    · exact ⟨⟨v, (h.mem_retag hc hsize).2 (.inl ⟨hv, hne⟩), hfree⟩, hd⟩
    · exact ⟨⟨u, (h.mem_retag hc hsize).2 (.inr ⟨rfl, rfl⟩), hfree⟩, hunlisted⟩

theorem Holding.retag {H : Set Nat} (h : A.Holding H) (hc : (c, t) ∈ A.chunks)
    (hunlisted : ¬A.Listed c) (hsize : u.size = t.size) :
    (A.retag c u).Holding {d | (d ∈ H ∧ d ≠ c) ∨ (d = c ∧ u.free = true)} := by
  have hsec := h.valid.section_retag hc hunlisted hsize
  have htiles := tiles_retag (c := c) (h.valid.tiles.proper hc) hsize
  refine ⟨h.valid.retag hc hunlisted hsize, ?_, h.apart.redraw h.valid hsec htiles⟩
  rw [loose_retag h.valid hc hunlisted hsize, h.loose]

theorem Holding.grant (h : A.Holding {c}) (owner : Owner) : (A.grant c owner).Settled := by
  obtain ⟨⟨t, ht, -⟩, hunlisted⟩ := h.mem_loose rfl
  have hsize : (Tag.live (A.sizeAt c) owner).size = t.size := h.valid.sizeAt_eq ht
  have hretag := h.retag ht hunlisted hsize
  have hnone : {d | (d ∈ ({c} : Set Nat) ∧ d ≠ c) ∨
      (d = c ∧ (Tag.live (A.sizeAt c) owner).free = true)} = ∅ := by
    apply Set.eq_empty_of_forall_notMem
    rintro d (⟨hd, hne⟩ | ⟨-, hfree⟩)
    · exact hne hd
    · cases hfree
  rw [hnone] at hretag
  exact hretag

theorem Settled.holding_retag (h : A.Settled) (hc : (c, t) ∈ A.chunks) (hlive : t.free = false) :
    (A.retag c { t with free := true }).Holding {c} := by
  have hretag := Holding.retag h hc (h.valid.not_listed hc hlive)
    (u := { t with free := true }) rfl
  have hone : {d | (d ∈ (∅ : Set Nat) ∧ d ≠ c) ∨
      (d = c ∧ ({ t with free := true } : Tag).free = true)} = {c} := by
    ext d
    constructor
    · rintro (⟨hd, -⟩ | ⟨hd, -⟩)
      · cases hd
      · exact hd
    · intro hd
      exact .inr ⟨hd, rfl⟩
  rw [hone] at hretag
  exact hretag

theorem Settled.giveBack (h : A.Settled) (hc : (c, t) ∈ A.chunks) (hlive : t.free = false) :
    (A.giveBack c t).Settled := by
  have hfile := (h.holding_retag hc hlive).file_dirty (f := .recent) rfl fun _ => rfl
  rw [Set.sdiff_self] at hfile
  exact hfile

theorem Holding.perm_liveIn_grant (h : A.Holding {c}) (owner : Owner) :
    (liveIn (A.grant c owner).chunks).Perm ((c, .live (A.sizeAt c) owner) :: liveIn A.chunks) := by
  obtain ⟨⟨t, ht, hfree⟩, hunlisted⟩ := h.mem_loose rfl
  have hsize : (Tag.live (A.sizeAt c) owner).size = t.size := h.valid.sizeAt_eq ht
  obtain ⟨pre, post, he, he'⟩ := h.valid.chunks_retag ht hunlisted hsize
  have hfreeIn : liveIn [(c, t)] = [] := by simp [liveIn, hfree]
  have hliveIn : liveIn [(c, Tag.live (A.sizeAt c) owner)] = [(c, .live (A.sizeAt c) owner)] := rfl
  rw [Shape.grant, he', he, liveIn_append, liveIn_append, liveIn_append, liveIn_append, hfreeIn,
    hliveIn, List.append_nil, List.append_assoc]
  exact List.perm_middle

theorem Holding.mem_liveIn_grant (h : A.Holding {c}) :
    (d, v) ∈ liveIn (A.grant c owner).chunks ↔
      (d, v) ∈ liveIn A.chunks ∨ (d = c ∧ v = .live (A.sizeAt c) owner) := by
  rw [(h.perm_liveIn_grant owner).mem_iff, List.mem_cons, Prod.mk.injEq, or_comm]

theorem Holding.total_grant (h : A.Holding {c}) (owner : Owner) :
    totalOf (liveIn (A.grant c owner).chunks) = totalOf (liveIn A.chunks) + A.sizeAt c := by
  rw [totalOf_perm (h.perm_liveIn_grant owner), totalOf, Nat.add_comm]
  rfl

theorem Settled.perm_liveIn_giveBack (h : A.Settled) (hc : (c, t) ∈ liveIn A.chunks) :
    (liveIn A.chunks).Perm ((c, t) :: liveIn (A.giveBack c t).chunks) := by
  obtain ⟨hmem, hlive⟩ := mem_liveIn.1 hc
  have hsize : ({ t with free := true } : Tag).size = t.size := rfl
  obtain ⟨pre, post, he, he'⟩ :=
    h.valid.chunks_retag hmem (h.valid.not_listed hmem hlive) hsize
  have hfreeIn : liveIn [(c, ({ t with free := true } : Tag))] = [] := rfl
  have hliveIn : liveIn [(c, t)] = [(c, t)] := by simp [liveIn, hlive]
  rw [Shape.giveBack, chunks_file, he', he, liveIn_append, liveIn_append, liveIn_append,
    liveIn_append, hfreeIn, hliveIn, List.append_nil, List.append_assoc]
  exact List.perm_middle

theorem Settled.mem_liveIn_giveBack (h : A.Settled) (hc : (c, t) ∈ A.chunks) :
    (d, v) ∈ liveIn (A.giveBack c t).chunks ↔ (d, v) ∈ liveIn A.chunks ∧ d ≠ c := by
  have hsize : ({ t with free := true } : Tag).size = t.size := rfl
  rw [mem_liveIn, mem_liveIn, Shape.giveBack, chunks_file, h.valid.mem_retag hc hsize]
  constructor
  · rintro ⟨⟨hd, hne⟩ | ⟨rfl, rfl⟩, hlive⟩
    · exact ⟨⟨hd, hlive⟩, hne⟩
    · cases hlive
  · rintro ⟨⟨hd, hlive⟩, hne⟩
    exact ⟨.inl ⟨hd, hne⟩, hlive⟩

theorem Settled.total_giveBack (h : A.Settled) (hc : (c, t) ∈ liveIn A.chunks) :
    totalOf (liveIn (A.giveBack c t).chunks) + t.size = totalOf (liveIn A.chunks) := by
  rw [totalOf_perm (h.perm_liveIn_giveBack hc), totalOf, Nat.add_comm]

end Shape

namespace Store

variable {s : Store} {A : Shape} {c : Nat} {t u : Tag}

theorem Represents.retag {s' : Store} (h : s.Represents A) (hc : (c, t) ∈ A.chunks)
    (hunlisted : ¬A.Listed c) (hsize : u.size = t.size) (hheads : s'.heads = s.heads)
    (hr : Changed (Set.Ico c (c + t.size)) s.region s'.region) (htag : s'.region.HasTag c u)
    (hnil : u.free = true → s'.referrerAt c = nilWord) : s'.Represents (A.retag c u) := by
  rw [← hsize] at hr
  apply h.redraw (h.valid.section_retag hc hunlisted hsize)
    (Shape.tiles_retag (h.valid.tiles.proper hc) hsize) hheads hr
  · intro d v hd
    cases List.mem_singleton.1 hd
    exact htag
  · intro d v hd hfree
    cases List.mem_singleton.1 hd
    exact hnil hfree

theorem Represents.stamp_run (h : s.Represents A) (hc : (c, t) ∈ A.chunks)
    (hsize : u.size = t.size) :
    ∃ s', stamp c u s = .ok () s' ∧ s'.heads = s.heads ∧ s'.region.HasTag c u ∧
      Changed (tagBytesOf c t.size) s.region s'.region := by
  have ht := h.valid.tiles.proper hc
  have hu : u.Proper := ⟨hsize ▸ ht.1, hsize ▸ ht.2⟩
  have hend := h.valid.tiles.end_le hc
  rw [← h.len, ← hsize] at hend
  have hgrid := h.valid.tiles.mod_of_mem rfl hc
  have hheads : (s.stamped c u).heads = s.heads := by rw [stamped]
  refine ⟨s.stamped c u, stamp_eq hgrid hu hend, hheads, hasTag_stamped hu hend, ?_⟩
  rw [← hsize]
  exact changed_stamped

theorem zero_run {offset count : Nat} (h : s.region.Spans offset count) :
    ∃ s', zero offset count s = .ok () s' ∧ s'.heads = s.heads ∧
      Changed (Set.Ico offset (offset + count)) s.region s'.region := by
  obtain ⟨r, heads⟩ := s
  exact ⟨⟨r.fill offset 0 count, heads⟩, if_pos h, rfl, Region.changed_fill offset 0 count⟩

theorem blank_of_zero {offset count : Nat} {s' : Store} (h : zero offset count s = .ok () s') :
    s'.region.Blank offset count := by
  by_cases hspan : s.region.Spans offset count
  · have hfill : zero offset count s = .ok () { s with region := s.region.fill offset 0 count } :=
      if_pos hspan
    rw [hfill] at h
    cases h
    exact Region.blank_fill hspan
  · rw [zero, if_neg hspan] at h
    cases h

theorem stamp_zero_run (hc : c % 16 = 0) (ht : t.Proper) (hend : c + t.size ≤ s.region.len)
    (owner : Owner) :
    ∃ s₁ s₂, stamp c (.live t.size owner) s = .ok () s₁ ∧
      zero (c + tagBytes) (t.size - overhead) s₁ = .ok () s₂ ∧ s₂.heads = s.heads ∧
      s₂.region.HasTag c (.live t.size owner) ∧
      Changed (Set.Ico c (c + t.size)) s.region s₂.region := by
  have hlive : (Tag.live t.size owner).Proper := ht
  have hmin := ht.1
  have htag₁ := hasTag_stamped hlive hend
  have hr₁ := changed_stamped (s := s) (c := c) (t := .live t.size owner)
  have hspan : (s.stamped c (.live t.size owner)).region.Spans (c + tagBytes)
      (t.size - overhead) := by
    show c + 8 + (t.size - 2 * 8) ≤ (s.stamped c (.live t.size owner)).region.len
    rw [hr₁.len]
    simp only [minChunk] at hmin
    omega
  obtain ⟨s₂, hzero, hheads₂, hr₂⟩ := zero_run hspan
  have hheads₁ : (s.stamped c (.live t.size owner)).heads = s.heads := by rw [stamped]
  refine ⟨_, s₂, stamp_eq hc hlive hend, hzero, hheads₂.trans hheads₁, ?_, ?_⟩
  · apply htag₁.changed hr₂
    · intro i hlo hhi hin
      simp only [tagBytes, overhead, Set.mem_Ico] at hin
      omega
    · intro i hlo hhi hin
      simp only [tagBytes, overhead, Set.mem_Ico, Tag.live] at hin hlo
      omega
  · apply (hr₁.mono (tagBytesOf_subset hmin)).trans
    apply hr₂.mono
    intro i hin
    simp only [minChunk] at hmin
    simp only [tagBytes, overhead, Set.mem_Ico, Tag.live] at hin ⊢
    omega

theorem Represents.grant (h : s.Represents A) (hc : (c, t) ∈ A.chunks) (hunlisted : ¬A.Listed c)
    (owner : Owner) :
    ∃ s₁ s₂, stamp c (.live t.size owner) s = .ok () s₁ ∧
      zero (c + tagBytes) (t.size - overhead) s₁ = .ok () s₂ ∧
      s₂.Represents (A.grant c owner) ∧ Changed (Set.Ico c (c + t.size)) s.region s₂.region := by
  have hend := h.valid.tiles.end_le hc
  rw [← h.len] at hend
  obtain ⟨s₁, s₂, hstamp, hzero, hheads, htag, hr⟩ :=
    stamp_zero_run (h.valid.tiles.mod_of_mem rfl hc) (h.valid.tiles.proper hc) hend owner
  refine ⟨s₁, s₂, hstamp, hzero, ?_, hr⟩
  rw [Shape.grant, h.valid.sizeAt_eq hc]
  apply h.retag hc hunlisted (by rw [Tag.live]) hheads hr htag
  intro hfree
  cases hfree

theorem Represents.retag_free (h : s.Represents A) (hc : (c, t) ∈ A.chunks)
    (hlive : t.free = false) :
    ∃ s₁ s₂, stamp c { t with free := true } s = .ok () s₁ ∧ clearLinks c s₁ = .ok () s₂ ∧
      s₂.Represents (A.retag c { t with free := true }) ∧
      Changed (tagBytesOf c t.size ∪ linkBytesOf {c}) s.region s₂.region := by
  generalize hu : ({ t with free := true } : Tag) = u
  have hsize : u.size = t.size := by rw [← hu]
  have ht := h.valid.tiles.proper hc
  obtain ⟨s₁, hstamp, hheads₁, htag₁, hr₁⟩ := h.stamp_run hc hsize
  have hheld : s₁.region.Holds c := (h.holds hc).of_len hr₁.len
  have hproper : u.Proper := ⟨hsize ▸ ht.1, hsize ▸ ht.2⟩
  have htag₂ := HasTag.clearLinks htag₁ hproper (changed_cleared (s := s₁))
  have hr : Changed (tagBytesOf c t.size ∪ linkBytesOf {c}) s.region (s₁.cleared c).region :=
    hr₁.trans_union changed_cleared
  have hinside := Set.union_subset (tagBytesOf_subset (c := c) ht.1) (linkBytesOf_subset ht.1)
  refine ⟨s₁, s₁.cleared c, hstamp, clearLinks_eq hheld, ?_, hr⟩
  apply h.retag hc (h.valid.not_listed hc hlive) hsize (heads_cleared.trans hheads₁)
    (hr.mono hinside) htag₂
  intro _
  exact referrerAt_cleared hheld

/-- A live chunk comes back and becomes the latest recent chunk. Only tags and links are stored. -/
theorem Represents.giveBack (h : s.Represents A) (hA : A.Settled) (hc : (c, t) ∈ A.chunks)
    (hlive : t.free = false) :
    ∃ s₁ s₂ s₃, stamp c { t with free := true } s = .ok () s₁ ∧ clearLinks c s₁ = .ok () s₂ ∧
      file 0 c t.size .recent s₂ = .ok () s₃ ∧ s₃.Represents (A.giveBack c t) ∧
      Changed (vacant (A.giveBack c t).chunks ∩ fields (A.giveBack c t).chunks) s.region
        s₃.region := by
  obtain ⟨s₁, s₂, hstamp, hclear, hs₂, hr₂⟩ := h.retag_free hc hlive
  have hheld := hA.holding_retag hc hlive
  have hin := (hA.valid.mem_retag hc (u := { t with free := true }) rfl).2 (.inr ⟨rfl, rfl⟩)
  have hloose := hheld.mem_loose rfl
  have hsec := hheld.valid.section_of_mem hin hloose.2
  have hvacant := hsec.subset_vacant fun d u hd => by
    cases List.mem_singleton.1 hd
    rfl
  have hsize := hheld.valid.sizeAt_eq hin
  have hfile := Relinks.file (f := .recent) hloose hsize (Nat.zero_le 0) (fun he => by cases he)
  obtain ⟨s₃, hrun, hs₃, hr₃⟩ := hfile.run s₂ hs₂
  have hlinks : ∀ S : Set Nat, (∀ d ∈ S, (A.retag c { t with free := true }).IsFree d) →
      linkBytesOf S ⊆ vacant (A.giveBack c t).chunks ∩ fields (A.giveBack c t).chunks :=
    fun S hS => Set.subset_inter (hheld.valid.tiles.linkBytesOf_vacant hS) (Shape.linkBytesOf_fields hS)
  have hown : tagBytesOf c ({ t with free := true } : Tag).size ⊆ fields (A.giveBack c t).chunks :=
    tagBytesOf_fields hin
  have htags := Set.subset_inter
    ((tagBytesOf_subset (hA.valid.tiles.proper hc).1).trans hvacant) hown
  have hone : ∀ d ∈ ({c} : Set Nat), (A.retag c { t with free := true }).IsFree d := by
    rintro d rfl
    exact hloose.1
  exact ⟨s₁, s₂, s₃, hstamp, hclear, hrun, hs₃,
    (hr₂.mono (Set.union_subset htags (hlinks _ hone))).trans (hr₃.mono (hlinks _ fun d hd => hd))⟩

end Store

end BoundaryHeap
