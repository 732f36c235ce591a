import BoundaryHeap.Proofs.Draining
import BoundaryHeap.Store.Search

namespace BoundaryHeap

namespace Shape

variable {A : Shape} {H : Set Nat} {c d last size : Nat} {t u : Tag}

def dropRemainder (A : Shape) : Shape :=
  match A.lists .remainder with
  | [] => A
  | old :: _ => (A.unlist old).file old .clean

def keepRemainder (A : Shape) (rest : Nat) : Shape :=
  A.dropRemainder.file rest .remainder

/-- A chunk of `size` bytes is cut off the remainder `c` and becomes recent. -/
def stockOne (A : Shape) (c size : Nat) : Shape :=
  (((A.unlist c).cut c size).file c .recent).file (c + size) .remainder

def stock (A : Shape) (size : Nat) : Nat → Shape
  | 0 => A
  | count + 1 =>
    match A.lists .remainder with
    | [] => A
    | c :: _ =>
      if A.sizeAt c < size + minChunk then A
      else (A.stockOne c size).stock size count

/-- `c` is cut down to `size` bytes unless the tail would be no chunk. -/
def cutDown (A : Shape) (last c size : Nat) : Shape :=
  if A.sizeAt c - size < minChunk then A
  else if size = last then ((A.cut c size).keepRemainder (c + size)).stock size stockCount
  else (A.cut c size).keepRemainder (c + size)

/-- `size` is a chunk size, and a chunk of `total` bytes leaves room for another chunk behind it. -/
structure Cuttable (size total : Nat) : Prop where
  min : minChunk ≤ size
  grain : size % granule = 0
  rest : size + minChunk ≤ total

theorem Valid.halves (h : A.Valid) (hc : c ∈ A.loose) (hcut : Cuttable size (A.sizeAt c)) :
    ∃ t, (c, t) ∈ A.chunks ∧ t.size = A.sizeAt c ∧
      A.Section c (c + A.sizeAt c) [(c, t)] ∧
      Tiles c (halves c size (A.sizeAt c)) (c + A.sizeAt c) := by
  obtain ⟨⟨t, ht, hfree⟩, hunlisted⟩ := hc
  have hsize := h.sizeAt_eq ht
  have hsec := h.section_of_mem ht hunlisted
  rw [← hsize] at hsec
  refine ⟨t, ht, hsize.symm, hsec, tiles_halves hcut.min hcut.grain hcut.rest ?_⟩
  rw [hsize]
  exact (h.tiles.proper ht).2

theorem mem_cut_head : (c, Tag.unowned size) ∈ (A.cut c size).chunks :=
  mem_redraw.2 (.inr (.inl (mem_halves.2 (.inl rfl))))

theorem mem_cut_rest : (c + size, Tag.unowned (A.sizeAt c - size)) ∈ (A.cut c size).chunks :=
  mem_redraw.2 (.inr (.inl (mem_halves.2 (.inr rfl))))

theorem Valid.mem_cut (h : A.Valid) (hc : c ∈ A.loose) (hcut : Cuttable size (A.sizeAt c))
    (hd : (d, u) ∈ A.chunks) (hne : d ≠ c) : (d, u) ∈ (A.cut c size).chunks := by
  obtain ⟨t, ht, hsize, hsec, hnew⟩ := h.halves hc hcut
  have hpos := h.tiles.size_pos hd
  rcases h.tiles.apart ht hd with ⟨he, -⟩ | he | he
  · exact absurd he.symm hne
  · exact (mem_redraw_outside hnew (.inr (by omega))).2 hd
  · exact (mem_redraw_outside hnew (.inl (by omega))).2 hd

theorem Holding.cut (h : A.Holding H) (hc : c ∈ H) (hcut : Cuttable size (A.sizeAt c)) :
    (A.cut c size).Holding (insert (c + size) H) := by
  have hloose := h.mem_loose hc
  obtain ⟨t, ht, hsize, hsec, hnew⟩ := h.valid.halves hloose hcut
  refine ⟨h.valid.redraw hsec hnew, ?_, h.apart.redraw h.valid hsec hnew⟩
  have hmin := hcut.min
  have hrest := hcut.rest
  simp only [minChunk] at hmin hrest
  rw [Shape.cut, loose_redraw h.valid hsec hnew]
  ext d
  simp only [Set.mem_union, Set.mem_ofPred_eq, Set.mem_insert_iff, ← h.loose]
  constructor
  · rintro (⟨hd, -⟩ | ⟨u, hd, -⟩)
    · exact .inr hd
    · rcases mem_halves.1 hd with hd | hd
      · cases hd
        exact .inr hloose
      · cases hd
        exact .inl rfl
  · rintro (rfl | hd)
    · exact .inr ⟨_, mem_halves.2 (.inr rfl), rfl⟩
    · by_cases he : d = c
      · subst he
        exact .inr ⟨_, mem_halves.2 (.inl rfl), rfl⟩
      · obtain ⟨⟨u, hu, hfree⟩, hunlisted⟩ := id hd
        have hpos := h.valid.tiles.size_pos hu
        rcases h.valid.tiles.apart ht hu with ⟨he', -⟩ | he' | he'
        · exact absurd he'.symm he
        · exact .inl ⟨hd, .inr (by omega)⟩
        · exact .inl ⟨hd, .inl (by omega)⟩

theorem Valid.clear_cut (h : A.Valid) (hc : c ∈ A.loose) (hcut : Cuttable size (A.sizeAt c))
    (hnext : ¬A.Clean (c + A.sizeAt c)) :
    (A.cut c size).Clear (c + size) (c + A.sizeAt c) := by
  obtain ⟨t, ht, hsize, hsec, hnew⟩ := h.halves hc hcut
  have hmin := hcut.min
  have hrest := hcut.rest
  simp only [minChunk] at hmin hrest
  refine ⟨fun d u hd hend hclean => ?_, hnext⟩
  have hclean' : A.Clean d := hclean
  have hout := hsec.outside h hclean'.listed
  have hmem := (mem_redraw_outside hnew hout).1 hd
  have hbeside := hsec.beside hmem hout
  have hpos := h.tiles.size_pos hmem
  omega

theorem Valid.remainder_unlist (h : A.Valid) {old : Nat} {rest : List Nat}
    (hl : A.lists .remainder = old :: rest) : (A.unlist old).lists .remainder = [] := by
  have hsingle := h.single
  rw [hl, List.length_cons] at hsingle
  rw [h.lists_unlist_head hl]
  exact List.eq_nil_of_length_eq_zero (by omega)

@[simp] theorem chunks_dropRemainder : A.dropRemainder.chunks = A.chunks := by
  unfold dropRemainder
  split <;> rfl

@[simp] theorem len_dropRemainder : A.dropRemainder.len = A.len := by
  unfold dropRemainder
  split <;> rfl

theorem clean_dropRemainder (h : A.dropRemainder.Clean d) : A.Clean d := by
  unfold dropRemainder at h
  split at h
  next => exact h
  next old rest hl =>
    rcases clean_file h with h | rfl
    · exact (clean_unlist.1 h).1
    · exact ⟨.remainder, rfl, by simp [hl]⟩

theorem Holding.dropRemainder (h : A.Holding H) :
    A.dropRemainder.Holding H ∧ A.dropRemainder.lists .remainder = [] := by
  unfold Shape.dropRemainder
  split
  next hl => exact ⟨h, hl⟩
  next old rest hl =>
    have hlisted : A.Listed old := ⟨.remainder, by simp [hl]⟩
    have hclean : A.Clean old := ⟨.remainder, rfl, by simp [hl]⟩
    have hH : old ∉ H := fun hmem => (h.mem_loose hmem).2 hlisted
    have hfile : ((A.unlist old).file old .clean).Holding (insert old H \ {old}) := by
      apply (h.unlist hlisted).file (Set.mem_insert ..)
      · intro he
        cases he
      · exact fun t ht => (h.apart.clear ht hclean).unlist old
    rw [Set.insert_sdiff_self_of_notMem hH] at hfile
    refine ⟨hfile, ?_⟩
    rw [lists_file, Lists.filed_ne (Filing.list_ne_remainder Filing.noConfusion _).symm]
    exact h.valid.remainder_unlist hl

theorem Holding.keepRemainder (h : A.Holding H) (hc : c ∈ H)
    (hclear : ∀ t, (c, t) ∈ A.chunks → A.Clear c (c + t.size)) :
    (A.keepRemainder c).Holding (H \ {c}) := by
  obtain ⟨hheld, hempty⟩ := h.dropRemainder
  apply hheld.file hc (fun _ => hempty)
  intro t ht
  rw [chunks_dropRemainder] at ht
  have hclear' := hclear t ht
  refine ⟨fun d u hd he hclean => ?_, fun hclean => hclear'.2 (clean_dropRemainder hclean)⟩
  rw [chunks_dropRemainder] at hd
  exact hclear'.1 d u hd he (clean_dropRemainder hclean)

theorem Holding.not_inside (h : A.Holding H) (hc : (c, t) ∈ A.chunks) (hlo : c < d)
    (hhi : d < c + t.size) : d ∉ H := by
  intro hd
  obtain ⟨⟨u, hu, -⟩, -⟩ := h.mem_loose hd
  have hpos := h.valid.tiles.size_pos hu
  rcases h.valid.tiles.apart hc hu with ⟨he, -⟩ | he | he
  · omega
  · omega
  · omega

/-- The remainder is cut, and its head is the latest recent chunk. -/
theorem Holding.cutRecent (h : A.Holding H) {rest : List Nat}
    (hl : A.lists .remainder = c :: rest) (hcut : Cuttable size (A.sizeAt c)) :
    (((A.unlist c).cut c size).file c .recent).Holding (insert (c + size) H) := by
  have hlisted : A.Listed c := ⟨.remainder, by simp [hl]⟩
  have hcut' := (h.unlist hlisted).cut (Set.mem_insert c H) hcut
  have hfile := hcut'.file_dirty (f := .recent) (Set.mem_insert_of_mem _ (Set.mem_insert c H))
    fun _ => rfl
  have hmin := hcut.min
  simp only [minChunk] at hmin
  have hfresh : c ∉ insert (c + size) H := by
    rintro (he | hmem)
    · omega
    · exact (h.mem_loose hmem).2 hlisted
  rw [Set.insert_comm, Set.insert_sdiff_self_of_notMem hfresh] at hfile
  exact hfile

theorem Holding.clear_stockOne (h : A.Holding H) {rest : List Nat}
    (hl : A.lists .remainder = c :: rest) (hcut : Cuttable size (A.sizeAt c)) :
    (((A.unlist c).cut c size).file c .recent).Clear (c + size) (c + A.sizeAt c) := by
  have hlisted : A.Listed c := ⟨.remainder, by simp [hl]⟩
  have hclean : A.Clean c := ⟨.remainder, rfl, by simp [hl]⟩
  obtain ⟨t, ht, -⟩ := h.valid.isFree hlisted
  have hheld := h.unlist hlisted
  have hnext : ¬(A.unlist c).Clean (c + (A.unlist c).sizeAt c) := by
    intro hc'
    have hnext := (clean_unlist.1 hc').1
    rw [sizeAt_unlist, h.valid.sizeAt_eq ht] at hnext
    exact h.apart c t ht hclean hnext
  obtain ⟨hbefore, hafter⟩ := hheld.valid.clear_cut (hheld.mem_loose (Set.mem_insert c H)) hcut hnext
  constructor
  · intro d v hd he hd'
    exact hbefore d v hd he ((clean_file_dirty fun _ => rfl).1 hd')
  · intro hd'
    exact hafter ((clean_file_dirty fun _ => rfl).1 hd')

theorem Holding.stockOne (h : A.Holding H) {rest : List Nat} (hl : A.lists .remainder = c :: rest)
    (hcut : Cuttable size (A.sizeAt c)) : (A.stockOne c size).Holding H := by
  obtain ⟨t, ht, -⟩ := h.valid.listed (l := .remainder) (c := c) (by simp [hl])
  have hsize := h.valid.sizeAt_eq ht
  have hmin := hcut.min
  have hrest := hcut.rest
  simp only [minChunk] at hmin hrest
  have hfresh : c + size ∉ H := h.not_inside ht (by omega) (by omega)
  have hheld := h.cutRecent hl hcut
  have hempty : (((A.unlist c).cut c size).file c .recent).lists .remainder = [] := by
    rw [lists_file, Lists.filed_ne (Filing.list_ne_remainder Filing.noConfusion _).symm]
    exact h.valid.remainder_unlist hl
  have hfile : (A.stockOne c size).Holding (insert (c + size) H \ {c + size}) := by
    apply hheld.file (Set.mem_insert ..) (fun _ => hempty)
    intro u hu
    obtain rfl := hheld.valid.tiles.unique hu mem_cut_rest
    have hend : c + size + (Tag.unowned ((A.unlist c).sizeAt c - size)).size =
        c + A.sizeAt c := by
      simp only [Tag.unowned, sizeAt_unlist]
      omega
    rw [hend]
    exact h.clear_stockOne hl hcut
  rw [Set.insert_sdiff_self_of_notMem hfresh] at hfile
  exact hfile

@[simp] theorem len_stockOne : (A.stockOne c size).len = A.len := rfl

theorem Holding.mem_stockOne (h : A.Holding H) {rest : List Nat}
    (hl : A.lists .remainder = c :: rest) (hcut : Cuttable size (A.sizeAt c)) (hd : d ∈ H)
    (hu : (d, u) ∈ A.chunks) : (d, u) ∈ (A.stockOne c size).chunks := by
  have hlisted : A.Listed c := ⟨.remainder, by simp [hl]⟩
  have hheld := h.unlist hlisted
  have hne : d ≠ c := by
    rintro rfl
    exact (h.mem_loose hd).2 hlisted
  exact hheld.valid.mem_cut (hheld.mem_loose (Set.mem_insert ..)) hcut hu hne

theorem Holding.stock (h : A.Holding H) (hmin : minChunk ≤ size) (hgrain : size % granule = 0)
    (count : Nat) : (A.stock size count).Holding H ∧
      ∀ d u, d ∈ H → (d, u) ∈ A.chunks → (d, u) ∈ (A.stock size count).chunks := by
  induction count generalizing A with
  | zero => exact ⟨h, fun _ _ _ hu => hu⟩
  | succ count ih =>
    rw [Shape.stock]
    split
    next => exact ⟨h, fun _ _ _ hu => hu⟩
    next c rest hl =>
      split
      next => exact ⟨h, fun _ _ _ hu => hu⟩
      next hroom =>
        have hcut : Cuttable size (A.sizeAt c) := ⟨hmin, hgrain, Nat.le_of_not_lt hroom⟩
        obtain ⟨hheld, hmem⟩ := ih (h.stockOne hl hcut)
        exact ⟨hheld, fun d u hd hu => hmem d u hd (h.mem_stockOne hl hcut hd hu)⟩

@[simp] theorem len_keepRemainder : (A.keepRemainder c).len = A.len :=
  len_dropRemainder

theorem Holding.keepRest (h : A.Holding {c}) (hcut : Cuttable size (A.sizeAt c))
    (hnext : ¬A.Clean (c + A.sizeAt c)) :
    ((A.cut c size).keepRemainder (c + size)).Holding {c} := by
  have hheld := h.cut rfl hcut
  have hmin := hcut.min
  have hrest := hcut.rest
  simp only [minChunk] at hmin hrest
  have hkeep : ((A.cut c size).keepRemainder (c + size)).Holding
      (insert (c + size) {c} \ {c + size}) := by
    apply hheld.keepRemainder (Set.mem_insert ..)
    intro t ht
    obtain rfl := hheld.valid.tiles.unique ht mem_cut_rest
    have hend : c + size + (Tag.unowned (A.sizeAt c - size)).size = c + A.sizeAt c := by
      simp only [Tag.unowned]
      omega
    rw [hend]
    exact h.valid.clear_cut (h.mem_loose rfl) hcut hnext
  have hne : c + size ∉ ({c} : Set Nat) := by
    rw [Set.mem_singleton_iff]
    omega
  rw [Set.insert_sdiff_self_of_notMem hne] at hkeep
  exact hkeep

/-- A chunk that was cut down has the wanted size, up to a tail that would be no chunk. -/
theorem Holding.cutDown (h : A.Holding {c}) (hmin : minChunk ≤ size)
    (hgrain : size % granule = 0) (hsize : size ≤ A.sizeAt c)
    (hnext : ¬A.Clean (c + A.sizeAt c)) (last : Nat) :
    (A.cutDown last c size).Holding {c} ∧
      ∃ t, (c, t) ∈ (A.cutDown last c size).chunks ∧ size ≤ t.size ∧ t.size < size + minChunk := by
  obtain ⟨⟨t, ht, -⟩, -⟩ := h.mem_loose rfl
  have htotal := h.valid.sizeAt_eq ht
  unfold Shape.cutDown
  split
  next hsmall => exact ⟨h, t, ht, htotal ▸ hsize, by omega⟩
  next hlarge =>
    have hcut : Cuttable size (A.sizeAt c) := ⟨hmin, hgrain, by omega⟩
    have hkeep := h.keepRest hcut hnext
    have hmem : (c, Tag.unowned size) ∈ ((A.cut c size).keepRemainder (c + size)).chunks := by
      have hchunks : ((A.cut c size).keepRemainder (c + size)).chunks = (A.cut c size).chunks :=
        chunks_dropRemainder
      rw [hchunks]
      exact mem_cut_head
    have hfit : (Tag.unowned size).size < size + minChunk := Nat.lt_add_of_pos_right (by decide)
    split
    next =>
      obtain ⟨hstock, hkept⟩ := hkeep.stock hmin hgrain stockCount
      exact ⟨hstock, _, hkept c _ rfl hmem, Nat.le_refl _, hfit⟩
    next => exact ⟨hkeep, _, hmem, Nat.le_refl _, hfit⟩

end Shape

namespace Store.Takes

open Shape (Cuttable)

variable {A : Shape} {H : Set Nat} {c last size fuel : Nat}

theorem cutLoose (h : A.Holding H) (hc : c ∈ H) (hcut : Cuttable size (A.sizeAt c)) :
    Takes (Store.cut c size) A (c + size) (A.cut c size) := by
  obtain ⟨⟨t, ht, -⟩, -⟩ := h.mem_loose hc
  have hrest := hcut.rest
  rw [h.valid.sizeAt_eq ht] at hrest
  exact cut h.valid ht (h.mem_loose hc) hcut.min hcut.grain hrest

theorem fileLoose {f : Filing} (h : A.Holding H) (hc : c ∈ H) (hsize : A.sizeAt c = size)
    (hfuel : A.len / minChunk < fuel) (hempty : f = .remainder → A.lists .remainder = []) :
    Takes (Store.file fuel c size f) A () (A.file c f) :=
  .file (h.mem_loose hc) hsize (h.valid.passed_le hfuel _ _) hempty

theorem dropRemainder (h : A.Holding H) (hfuel : A.len / minChunk < fuel) :
    Takes (Store.dropRemainder fuel) A () A.dropRemainder := by
  rcases hl : A.lists .remainder with _ | ⟨old, rest⟩
  · have hdrop : A.dropRemainder = A := by
      unfold Shape.dropRemainder
      rw [hl]
    rw [hdrop]
    exact (takeFirst_nil hl).bind (.pure ..)
  · have hdrop : A.dropRemainder = (A.unlist old).file old .clean := by
      unfold Shape.dropRemainder
      rw [hl]
    rw [hdrop]
    have hlisted : A.Listed old := ⟨.remainder, by simp [hl]⟩
    have hheld := h.unlist hlisted
    apply (takeFirst_cons hl).bind
    apply (sizeAt hheld.valid (hheld.mem_loose (Set.mem_insert ..)).1).bind
    apply fileLoose hheld (Set.mem_insert ..) rfl hfuel
    intro he
    cases he

theorem keepRemainder (h : A.Holding H) (hc : c ∈ H) (hsize : A.sizeAt c = size)
    (hfuel : A.len / minChunk < fuel) :
    Takes (Store.keepRemainder fuel c size) A () (A.keepRemainder c) := by
  obtain ⟨hheld, hempty⟩ := h.dropRemainder
  have hsize' : A.dropRemainder.sizeAt c = size := by
    rw [Shape.sizeAt, Shape.chunks_dropRemainder]
    exact hsize
  have hfuel' : A.dropRemainder.len / minChunk < fuel := by
    rw [Shape.len_dropRemainder]
    exact hfuel
  exact (dropRemainder h hfuel).bind (fileLoose hheld hc hsize' hfuel' fun _ => hempty)

theorem stockOne (h : A.Holding H) {rest : List Nat} (hl : A.lists .remainder = c :: rest)
    (hcut : Cuttable size (A.sizeAt c)) (hfuel : A.len / minChunk < fuel) {m : StoreM Unit}
    {B : Shape} (hm : Takes m (A.stockOne c size) () B) :
    Takes (do
      Store.detach c
      let rest ← Store.cut c size
      Store.file fuel c size .recent
      Store.file fuel rest (A.sizeAt c - size) .remainder
      m) A () B := by
  have hlisted : A.Listed c := ⟨.remainder, by simp [hl]⟩
  have hheld := h.unlist hlisted
  have hmem := Set.mem_insert c H
  have hcut' := hheld.cut hmem hcut
  have hhead : ((A.unlist c).cut c size).sizeAt c = size :=
    hcut'.valid.sizeAt_eq Shape.mem_cut_head
  have hrest : (((A.unlist c).cut c size).file c .recent).sizeAt (c + size) = A.sizeAt c - size :=
    hcut'.valid.sizeAt_eq Shape.mem_cut_rest
  have hempty : (((A.unlist c).cut c size).file c .recent).lists .remainder = [] := by
    rw [Shape.lists_file, Lists.filed_ne (Filing.list_ne_remainder Filing.noConfusion _).symm]
    exact h.valid.remainder_unlist hl
  have hrecent : (((A.unlist c).cut c size).file c .recent).Holding
      (insert (c + size) (insert c H) \ {c}) :=
    hcut'.file_dirty (Set.mem_insert_of_mem _ hmem) fun _ => rfl
  have hmin := hcut.min
  simp only [minChunk] at hmin
  have hmem' : c + size ∈ insert (c + size) (insert c H) \ {c} := by
    refine ⟨Set.mem_insert .., ?_⟩
    rw [Set.mem_singleton_iff]
    omega
  apply (detach hlisted).bind
  apply (cutLoose hheld hmem hcut).bind
  have hfirst := fileLoose (f := .recent) hcut' (Set.mem_insert_of_mem _ hmem) hhead hfuel
    fun he => by cases he
  have hsecond := fileLoose (f := .remainder) hrecent hmem' hrest hfuel fun _ => hempty
  exact hfirst.bind (hsecond.bind hm)

theorem stock (h : A.Holding H) (hmin : minChunk ≤ size) (hgrain : size % granule = 0)
    (hfuel : A.len / minChunk < fuel) (count : Nat) :
    Takes (Store.stock fuel size count) A () (A.stock size count) := by
  induction count generalizing A with
  | zero => exact .pure ..
  | succ count ih =>
    rcases hl : A.lists .remainder with _ | ⟨c, rest⟩
    · have hstock : A.stock size (count + 1) = A := by
        rw [Shape.stock]
        rw [hl]
      have hhead := head (A := A) .remainder
      rw [hl] at hhead
      rw [hstock]
      exact hhead.bind (.pure ..)
    · have hstock : A.stock size (count + 1) =
          if A.sizeAt c < size + minChunk then A else (A.stockOne c size).stock size count := by
        rw [Shape.stock]
        rw [hl]
      have hhead := head (A := A) .remainder
      rw [hl] at hhead
      have hlisted : A.Listed c := ⟨.remainder, by simp [hl]⟩
      rw [hstock]
      apply hhead.bind
      apply (sizeAt h.valid (h.valid.isFree hlisted)).bind
      by_cases hroom : A.sizeAt c < size + minChunk
      · rw [if_pos hroom, if_pos hroom]
        exact .pure ..
      · rw [if_neg hroom, if_neg hroom]
        have hcut : Cuttable size (A.sizeAt c) := ⟨hmin, hgrain, Nat.le_of_not_lt hroom⟩
        exact stockOne h hl hcut hfuel (ih (h.stockOne hl hcut) hfuel)

theorem cutDown (h : A.Holding {c}) (hmin : minChunk ≤ size) (hgrain : size % granule = 0)
    (hsize : size ≤ A.sizeAt c) (hnext : ¬A.Clean (c + A.sizeAt c))
    (hfuel : A.len / minChunk < fuel) (last : Nat) :
    Takes (Store.cutDown fuel last c size) A () (A.cutDown last c size) := by
  apply (sizeAt h.valid (h.mem_loose rfl).1).bind
  apply (check hsize _).bind
  unfold Shape.cutDown
  by_cases hsmall : A.sizeAt c - size < minChunk
  · rw [if_pos hsmall, if_pos hsmall]
    exact .pure ..
  · rw [if_neg hsmall, if_neg hsmall]
    have hcut : Cuttable size (A.sizeAt c) := ⟨hmin, hgrain, by omega⟩
    have hheld := h.cut rfl hcut
    have hrest : (A.cut c size).sizeAt (c + size) = A.sizeAt c - size :=
      hheld.valid.sizeAt_eq Shape.mem_cut_rest
    have hkeep := h.keepRest hcut hnext
    have hfuel' : ((A.cut c size).keepRemainder (c + size)).len / minChunk < fuel := by
      rw [Shape.len_keepRemainder]
      exact hfuel
    apply (cutLoose h rfl hcut).bind
    apply (keepRemainder hheld (Set.mem_insert ..) hrest hfuel).bind
    by_cases hlast : size = last
    · rw [if_pos hlast, if_pos hlast]
      exact stock hkeep hmin hgrain hfuel' stockCount
    · rw [if_neg hlast, if_neg hlast]
      exact .pure ..

end Store.Takes

end BoundaryHeap
