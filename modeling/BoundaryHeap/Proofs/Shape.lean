import BoundaryHeap.Proofs.Filing
import BoundaryHeap.Proofs.Tiling

namespace BoundaryHeap

/-- A chunk is listed by the number of its first byte, so ascending lists stay ascending. -/
theorem pairwise_orderedInsert {xs : List Nat} {c : Nat} (h : xs.Pairwise (· < ·)) (hc : c ∉ xs) :
    (xs.orderedInsert (· < ·) c).Pairwise (· < ·) := by
  induction xs with
  | nil => simp
  | cons d rest ih =>
    obtain ⟨hd, hrest⟩ := List.pairwise_cons.1 h
    rw [List.mem_cons, not_or] at hc
    rw [List.orderedInsert]
    split
    next hcd =>
      refine List.pairwise_cons.2 ⟨fun e he => ?_, h⟩
      rcases List.mem_cons.1 he with rfl | he
      · exact hcd
      · exact hcd.trans (hd e he)
    next hcd =>
      refine List.pairwise_cons.2 ⟨fun e he => ?_, ih hrest hc.2⟩
      rcases (List.mem_orderedInsert (· < ·)).1 he with rfl | he
      · omega
      · exact hd e he

theorem Lists.Distinct.filed {L : Lists} (h : L.Distinct) {c : Nat} (hc : ∀ l, c ∉ L l)
    (size : Nat) (f : Filing) : (L.filed c size f).Distinct := by
  obtain ⟨xs, ys, hl, hplace⟩ := f.place_eq c (L (f.list size))
  rw [Lists.filed, hplace]
  exact h.update hl hc

theorem Lists.sorted_filed {L : Lists} (h : ∀ l, l.bin ≠ 0 → (L l).Pairwise (· < ·)) {c : Nat}
    (hc : ∀ l, c ∉ L l) (size : Nat) (f : Filing) (l : ListId) (hl : l.bin ≠ 0) :
    (L.filed c size f l).Pairwise (· < ·) := by
  by_cases he : l = f.list size
  · subst he
    rw [Lists.filed_same]
    cases f with
    | dirty => exact pairwise_orderedInsert (h _ hl) (hc _)
    | clean => exact pairwise_orderedInsert (h _ hl) (hc _)
    | recent => exact absurd rfl hl
    | remainder => exact absurd rfl hl
  · rw [Lists.filed_ne he]
    exact h l hl

/-- The chunks of a heap in address order and its lists of free chunks. -/
structure Shape where
  len : Nat
  chunks : List Chunk
  lists : Lists

namespace Shape

def IsFree (A : Shape) (c : Nat) : Prop :=
  ∃ t, (c, t) ∈ A.chunks ∧ t.free = true

/-- `c` is on a list. -/
def Listed (A : Shape) (c : Nat) : Prop :=
  ∃ l, c ∈ A.lists l

/-- `c` is on a clean list or the remainder. -/
def Clean (A : Shape) (c : Nat) : Prop :=
  ∃ l, l.kind = .clean ∧ c ∈ A.lists l

/-- The free chunks that are on no list. -/
def loose (A : Shape) : Set Nat :=
  {c | A.IsFree c ∧ ¬A.Listed c}

def sizeAt (A : Shape) (c : Nat) : Nat :=
  sizeIn A.chunks c

/-- The chunks fill the region, and what is on a list is a free chunk at its proper place. -/
structure Valid (A : Shape) : Prop where
  roomy : minChunk ≤ A.len
  bounded : A.len ≤ maxRegion
  tiles : Tiles 0 A.chunks A.len
  distinct : A.lists.Distinct
  listed : ∀ {l c}, c ∈ A.lists l → A.IsFree c
  binned : ∀ {l c t}, c ∈ A.lists l → l.bin ≠ 0 → (c, t) ∈ A.chunks → sizeClass t.size = l.bin
  sorted : ∀ l, l.bin ≠ 0 → (A.lists l).Pairwise (· < ·)
  single : (A.lists .remainder).length ≤ 1

/-- No two neighbours are both clean. -/
def Apart (A : Shape) : Prop :=
  ∀ c t, (c, t) ∈ A.chunks → A.Clean c → ¬A.Clean (c + t.size)

/-- The chunks next to the section from `lo` to `hi` are not clean. -/
def Clear (A : Shape) (lo hi : Nat) : Prop :=
  (∀ c t, (c, t) ∈ A.chunks → c + t.size = lo → ¬A.Clean c) ∧ ¬A.Clean hi

/-- The chunks `mid` fill the section from `lo` to `hi`, and none of them is on a list. -/
structure Section (A : Shape) (lo hi : Nat) (mid : List Chunk) : Prop where
  parts : ∃ pre post, A.chunks = pre ++ mid ++ post ∧ Tiles 0 pre lo ∧ Tiles hi post A.len
  tiles : Tiles lo mid hi
  unlisted : ∀ c t, (c, t) ∈ mid → ¬A.Listed c

def unlist (A : Shape) (c : Nat) : Shape :=
  { A with lists := A.lists.without c }

/-- `c` is filed. -/
def file (A : Shape) (c : Nat) (f : Filing) : Shape :=
  { A with lists := A.lists.filed c (A.sizeAt c) f }

/-- The section from `lo` to `hi` is cut into the chunks `new`. -/
def redraw (A : Shape) (lo hi : Nat) (new : List Chunk) : Shape :=
  { A with chunks := splice A.chunks lo hi new }

/-- The section from `lo` to `hi` becomes one free chunk. -/
def join (A : Shape) (lo hi : Nat) : Shape :=
  A.redraw lo hi [(lo, .unowned (hi - lo))]

def halves (c size total : Nat) : List Chunk :=
  [(c, .unowned size), (c + size, .unowned (total - size))]

def cut (A : Shape) (c size : Nat) : Shape :=
  A.redraw c (c + A.sizeAt c) (halves c size (A.sizeAt c))

variable {A : Shape} {lo hi c d : Nat} {t : Tag} {f : Filing} {mid new : List Chunk}

theorem Valid.sizeAt_eq (h : A.Valid) (hc : (c, t) ∈ A.chunks) : A.sizeAt c = t.size :=
  h.tiles.sizeIn hc

theorem Clean.listed (h : A.Clean c) : A.Listed c := by
  obtain ⟨l, -, hc⟩ := h
  exact ⟨l, hc⟩

theorem Valid.isFree (h : A.Valid) (hc : A.Listed c) : A.IsFree c := by
  obtain ⟨l, hl⟩ := hc
  exact h.listed hl

theorem Valid.length_le (h : A.Valid) (l : ListId) : (A.lists l).length ≤ A.len / minChunk := by
  have hsub : A.lists l ⊆ A.chunks.map Prod.fst := by
    intro c hc
    obtain ⟨t, ht, -⟩ := h.listed hc
    exact List.mem_map_of_mem ht
  have hle := (h.distinct.nodup l).length_le_of_subset hsub
  have hcount := h.tiles.length_le
  rw [List.length_map] at hle
  simp only [minChunk]
  omega

theorem Valid.passed_le {fuel : Nat} (h : A.Valid) (hfuel : A.len / minChunk < fuel) (f : Filing)
    (l : ListId) : f.passed (A.lists l) ≤ fuel := by
  have hle := h.length_le l
  cases f with
  | dirty => exact Nat.succ_le_of_lt (hle.trans_lt hfuel)
  | clean => exact Nat.succ_le_of_lt (hle.trans_lt hfuel)
  | recent => exact Nat.zero_le _
  | remainder => exact Nat.zero_le _

@[simp] theorem chunks_unlist : (A.unlist c).chunks = A.chunks := rfl

@[simp] theorem sizeAt_unlist : (A.unlist c).sizeAt d = A.sizeAt d := rfl

theorem listed_unlist : (A.unlist c).Listed d ↔ A.Listed d ∧ d ≠ c := by
  simp only [Listed, unlist, Lists.mem_without]
  constructor
  · rintro ⟨l, hd, hne⟩
    exact ⟨⟨l, hd⟩, hne⟩
  · rintro ⟨⟨l, hd⟩, hne⟩
    exact ⟨l, hd, hne⟩

theorem clean_unlist : (A.unlist c).Clean d ↔ A.Clean d ∧ d ≠ c := by
  simp only [Clean, unlist, Lists.mem_without]
  constructor
  · rintro ⟨l, hl, hd, hne⟩
    exact ⟨⟨l, hl, hd⟩, hne⟩
  · rintro ⟨⟨l, hl, hd⟩, hne⟩
    exact ⟨l, hl, hd, hne⟩

theorem Valid.unlist (h : A.Valid) (c : Nat) : (A.unlist c).Valid where
  roomy := h.roomy
  bounded := h.bounded
  tiles := h.tiles
  distinct := h.distinct.without c
  listed hd := h.listed (Lists.mem_without.1 hd).1
  binned hd := h.binned (Lists.mem_without.1 hd).1
  sorted l hl := (h.sorted l hl).filter _
  single := (List.length_filter_le ..).trans h.single

theorem loose_unlist (h : A.Valid) (hc : A.Listed c) :
    (A.unlist c).loose = insert c A.loose := by
  ext d
  simp only [loose, Set.mem_ofPred_eq, Set.mem_insert_iff, listed_unlist, not_and, ne_eq, not_not]
  constructor
  · rintro ⟨hfree, hd⟩
    by_cases hlisted : A.Listed d
    · exact .inl (hd hlisted)
    · exact .inr ⟨hfree, hlisted⟩
  · rintro (rfl | ⟨hfree, hd⟩)
    · exact ⟨h.isFree hc, fun _ => rfl⟩
    · exact ⟨hfree, fun hlisted => absurd hlisted hd⟩

theorem Apart.unlist (h : A.Apart) (c : Nat) : (A.unlist c).Apart := by
  intro d u hd hclean hnext
  exact h d u hd (clean_unlist.1 hclean).1 (clean_unlist.1 hnext).1

theorem Apart.clear (h : A.Apart) (hc : (c, t) ∈ A.chunks) (hclean : A.Clean c) :
    A.Clear c (c + t.size) := by
  refine ⟨fun d u hd he hd' => ?_, h c t hc hclean⟩
  exact h d u hd hd' (he ▸ hclean)

theorem Clear.unlist (h : A.Clear lo hi) (c : Nat) : (A.unlist c).Clear lo hi :=
  ⟨fun d u hd he hclean => h.1 d u hd he (clean_unlist.1 hclean).1,
    fun hclean => h.2 (clean_unlist.1 hclean).1⟩

@[simp] theorem chunks_file : (A.file c f).chunks = A.chunks := rfl

theorem lists_file : (A.file c f).lists = A.lists.filed c (A.sizeAt c) f := rfl

theorem listed_file : (A.file c f).Listed d ↔ A.Listed d ∨ d = c := by
  simp only [Listed, file, Lists.mem_filed]
  constructor
  · rintro ⟨l, hd | ⟨hd, -⟩⟩
    · exact .inl ⟨l, hd⟩
    · exact .inr hd
  · rintro (⟨l, hd⟩ | hd)
    · exact ⟨l, .inl hd⟩
    · exact ⟨_, .inr ⟨hd, rfl⟩⟩

theorem clean_file (h : (A.file c f).Clean d) : A.Clean d ∨ d = c := by
  obtain ⟨l, hl, hd⟩ := h
  rcases Lists.mem_filed.1 hd with hd | ⟨hd, -⟩
  · exact .inl ⟨l, hl, hd⟩
  · exact .inr hd

theorem clean_file_dirty (hf : ∀ size, (f.list size).kind = .dirty) :
    (A.file c f).Clean d ↔ A.Clean d := by
  constructor
  · rintro ⟨l, hl, hd⟩
    rcases Lists.mem_filed.1 hd with hd | ⟨-, rfl⟩
    · exact ⟨l, hl, hd⟩
    · rw [hf] at hl
      cases hl
  · rintro ⟨l, hl, hd⟩
    exact ⟨l, hl, Lists.mem_filed.2 (.inl hd)⟩

theorem Valid.file (h : A.Valid) (hc : c ∈ A.loose)
    (hempty : f = .remainder → A.lists .remainder = []) : (A.file c f).Valid := by
  have hfresh : ∀ l, c ∉ A.lists l := fun l hl => hc.2 ⟨l, hl⟩
  refine ⟨h.roomy, h.bounded, h.tiles, h.distinct.filed hfresh _ f, ?_, ?_, ?_, ?_⟩
  · intro l d hd
    rcases Lists.mem_filed.1 hd with hd | ⟨rfl, -⟩
    · exact h.listed hd
    · exact hc.1
  · intro l d t hd hl ht
    rcases Lists.mem_filed.1 hd with hd | ⟨rfl, rfl⟩
    · exact h.binned hd hl ht
    · rw [h.sizeAt_eq ht] at hl ⊢
      cases f with
      | dirty => rfl
      | clean => rfl
      | recent => exact absurd rfl hl
      | remainder => exact absurd rfl hl
  · exact Lists.sorted_filed h.sorted hfresh _ f
  · by_cases hf : f = .remainder
    · subst hf
      have hplace : (A.file c .remainder).lists .remainder = c :: A.lists .remainder :=
        Lists.filed_remainder
      rw [hplace, hempty rfl]
      exact Nat.le_refl 1
    · have hne : ListId.remainder ≠ f.list (A.sizeAt c) := by
        intro he
        have hbin := congrArg (fun l => l.bin.val) he
        have hpos := sizeClass_pos (A.sizeAt c)
        cases f with
        | dirty => exact Kind.noConfusion (congrArg ListId.kind he)
        | clean => exact absurd hbin (Nat.ne_of_lt hpos)
        | recent => exact Kind.noConfusion (congrArg ListId.kind he)
        | remainder => exact hf rfl
      rw [lists_file, Lists.filed_ne hne]
      exact h.single

theorem loose_file : (A.file c f).loose = A.loose \ {c} := by
  ext d
  simp only [loose, Set.mem_ofPred_eq, Set.mem_sdiff, Set.mem_singleton_iff, listed_file, not_or,
    and_assoc]
  rfl

/-- A chunk may be filed as clean when no neighbour is clean. -/
theorem Apart.file (h : A.Apart) (hA : A.Valid) (hc : (c, t) ∈ A.chunks)
    (hclear : A.Clear c (c + t.size)) : (A.file c f).Apart := by
  intro d u hd hclean hnext
  rcases clean_file hclean with hclean | rfl
  · rcases clean_file hnext with hnext | he
    · exact h d u hd hclean hnext
    · exact hclear.1 d u hd he hclean
  · obtain rfl := hA.tiles.unique hc hd
    have hpos := hA.tiles.size_pos hc
    rcases clean_file hnext with hnext | he
    · exact hclear.2 hnext
    · omega

theorem Apart.file_dirty (h : A.Apart) (hf : ∀ size, (f.list size).kind = .dirty) :
    (A.file c f).Apart := by
  intro d u hd hclean hnext
  exact h d u hd ((clean_file_dirty hf).1 hclean) ((clean_file_dirty hf).1 hnext)

/-- The chunks of `H` are free and on no list; all other free chunks are on one. -/
structure Holding (A : Shape) (H : Set Nat) : Prop where
  valid : A.Valid
  loose : A.loose = H
  apart : A.Apart

/-- Every free chunk is on a list. -/
abbrev Settled (A : Shape) : Prop :=
  A.Holding ∅

theorem Holding.listed {H : Set Nat} (h : A.Holding H) (hc : A.IsFree c) (hH : c ∉ H) :
    A.Listed c := by
  by_contra hunlisted
  have hmem : c ∈ A.loose := ⟨hc, hunlisted⟩
  rw [h.loose] at hmem
  exact hH hmem

theorem Holding.mem_loose {H : Set Nat} (h : A.Holding H) (hc : c ∈ H) : c ∈ A.loose :=
  h.loose ▸ hc

theorem Holding.unlist {H : Set Nat} (h : A.Holding H) (hc : A.Listed c) :
    (A.unlist c).Holding (insert c H) := by
  refine ⟨h.valid.unlist c, ?_, h.apart.unlist c⟩
  rw [loose_unlist h.valid hc, h.loose]

theorem Settled.take (h : A.Settled) (hc : A.Listed c) : (A.unlist c).Holding {c} := by
  have hheld := Holding.unlist h hc
  rw [insert_empty_eq] at hheld
  exact hheld

theorem Holding.file {H : Set Nat} (h : A.Holding H) (hc : c ∈ H)
    (hempty : f = .remainder → A.lists .remainder = [])
    (hclear : ∀ t, (c, t) ∈ A.chunks → A.Clear c (c + t.size)) :
    (A.file c f).Holding (H \ {c}) := by
  obtain ⟨t, ht, -⟩ := (h.mem_loose hc).1
  refine ⟨h.valid.file (h.mem_loose hc) hempty, ?_, h.apart.file h.valid ht (hclear t ht)⟩
  rw [loose_file, h.loose]

theorem Holding.file_dirty {H : Set Nat} (h : A.Holding H) (hc : c ∈ H)
    (hf : ∀ size, (f.list size).kind = .dirty) : (A.file c f).Holding (H \ {c}) := by
  refine ⟨h.valid.file (h.mem_loose hc) ?_, ?_, h.apart.file_dirty hf⟩
  · rintro rfl
    cases hf 0
  · rw [loose_file, h.loose]

@[simp] theorem len_redraw : (A.redraw lo hi new).len = A.len := rfl

theorem mem_redraw {x : Chunk} :
    x ∈ (A.redraw lo hi new).chunks ↔
      (x ∈ A.chunks ∧ x.1 < lo) ∨ x ∈ new ∨ (x ∈ A.chunks ∧ hi ≤ x.1) :=
  mem_splice

theorem Section.chunks_redraw (h : A.Section lo hi mid) (new : List Chunk) :
    ∃ pre post, A.chunks = pre ++ mid ++ post ∧ Tiles 0 pre lo ∧ Tiles hi post A.len ∧
      (A.redraw lo hi new).chunks = pre ++ new ++ post := by
  obtain ⟨pre, post, he, hpre, hpost⟩ := h.parts
  refine ⟨pre, post, he, hpre, hpost, ?_⟩
  rw [redraw, he]
  exact splice_eq hpre h.tiles hpost

theorem Section.mem_chunks (h : A.Section lo hi mid) {x : Chunk} :
    x ∈ A.chunks ↔ (x ∈ A.chunks ∧ x.1 < lo) ∨ x ∈ mid ∨ (x ∈ A.chunks ∧ hi ≤ x.1) := by
  obtain ⟨pre, post, he, -, -, he'⟩ := h.chunks_redraw mid
  rw [← mem_redraw, he', he]

theorem Valid.section_of_mem (h : A.Valid) (hc : (c, t) ∈ A.chunks) (hlisted : ¬A.Listed c) :
    A.Section c (c + t.size) [(c, t)] := by
  obtain ⟨pre, post, he, hpre, ht, hpost⟩ := h.tiles.split hc
  refine ⟨⟨pre, post, ?_, hpre, hpost⟩, ⟨rfl, ht, rfl⟩, ?_⟩
  · rw [he, List.append_assoc]
    rfl
  · intro d u hd
    cases List.mem_singleton.1 hd
    exact hlisted

theorem Section.mod_start (h : A.Section lo hi mid) : lo % 16 = 0 := by
  obtain ⟨_, _, -, hpre, -⟩ := h.parts
  exact hpre.mod_end rfl

theorem Section.end_le (h : A.Section lo hi mid) : hi ≤ A.len := by
  obtain ⟨_, _, -, -, hpost⟩ := h.parts
  exact hpost.le

theorem tiles_single (hmin : lo + minChunk ≤ hi) (hgrain : (hi - lo) % granule = 0) :
    Tiles lo [(lo, .unowned (hi - lo))] hi := by
  simp only [minChunk] at hmin
  refine ⟨rfl, ⟨?_, hgrain⟩, ?_⟩
  · show 32 ≤ hi - lo
    omega
  · show lo + (hi - lo) = hi
    omega

theorem mem_halves {size total : Nat} {x : Chunk} :
    x ∈ halves c size total ↔ x = (c, .unowned size) ∨ x = (c + size, .unowned (total - size)) := by
  simp only [halves, List.mem_cons, List.not_mem_nil, or_false]

theorem forall_halves {size total : Nat} {P : Nat → Tag → Prop} (hhead : P c (.unowned size))
    (hrest : P (c + size) (.unowned (total - size))) :
    ∀ d u, (d, u) ∈ halves c size total → P d u := by
  intro d u hd
  rcases mem_halves.1 hd with hd | hd
  · cases hd
    exact hhead
  · cases hd
    exact hrest

theorem tiles_halves {size total : Nat} (hsize : minChunk ≤ size) (hgrain : size % granule = 0)
    (hrest : size + minChunk ≤ total) (htotal : total % granule = 0) :
    Tiles c (halves c size total) (c + total) := by
  simp only [minChunk, granule] at hsize hgrain hrest htotal
  refine ⟨rfl, ⟨hsize, hgrain⟩, rfl, ⟨?_, ?_⟩, ?_⟩
  · show 32 ≤ total - size
    omega
  · show (total - size) % 16 = 0
    omega
  · show c + size + (total - size) = c + total
    omega

theorem Section.outside (h : A.Section lo hi mid) (hA : A.Valid) (hd : A.Listed d) :
    d < lo ∨ hi ≤ d := by
  obtain ⟨t, ht, -⟩ := hA.isFree hd
  rcases h.mem_chunks.1 ht with ⟨-, hlt⟩ | hmid | ⟨-, hge⟩
  · exact .inl hlt
  · exact absurd hd (h.unlisted d t hmid)
  · exact .inr hge

theorem Section.beside (h : A.Section lo hi mid) (hd : (d, t) ∈ A.chunks)
    (hout : d < lo ∨ hi ≤ d) : d + t.size ≤ lo ∨ hi ≤ d := by
  obtain ⟨pre, post, he, hpre, hpost⟩ := h.parts
  rw [he, List.append_assoc, List.mem_append, List.mem_append] at hd
  rcases hd with hd | hd | hd
  · exact .inl (hpre.end_le hd)
  · have hin := h.tiles.bounds hd
    omega
  · exact .inr (hpost.ge_of_mem hd)

theorem mem_redraw_outside (hnew : Tiles lo new hi) (hd : d < lo ∨ hi ≤ d) :
    (d, t) ∈ (A.redraw lo hi new).chunks ↔ (d, t) ∈ A.chunks := by
  rw [mem_redraw]
  constructor
  · rintro (⟨hmem, -⟩ | hmem | ⟨hmem, -⟩)
    · exact hmem
    · have hin := hnew.bounds hmem
      omega
    · exact hmem
  · intro hmem
    rcases hd with hd | hd
    · exact .inl ⟨hmem, hd⟩
    · exact .inr (.inr ⟨hmem, hd⟩)

theorem Valid.redraw (h : A.Valid) (hsec : A.Section lo hi mid) (hnew : Tiles lo new hi) :
    (A.redraw lo hi new).Valid := by
  have hkeep : ∀ {l d t}, d ∈ A.lists l →
      ((d, t) ∈ (A.redraw lo hi new).chunks ↔ (d, t) ∈ A.chunks) :=
    fun hd => mem_redraw_outside hnew (hsec.outside h ⟨_, hd⟩)
  refine ⟨h.roomy, h.bounded, ?_, h.distinct, ?_, ?_, h.sorted, h.single⟩
  · obtain ⟨pre, post, -, hpre, hpost, he⟩ := hsec.chunks_redraw new
    rw [he]
    exact (hpre.append hnew).append hpost
  · intro l d hd
    obtain ⟨t, ht, hfree⟩ := h.listed hd
    exact ⟨t, (hkeep hd).2 ht, hfree⟩
  · intro l d t hd hl ht
    exact h.binned hd hl ((hkeep hd).1 ht)

theorem loose_redraw (h : A.Valid) (hsec : A.Section lo hi mid) (hnew : Tiles lo new hi) :
    (A.redraw lo hi new).loose =
      {d | d ∈ A.loose ∧ (d < lo ∨ hi ≤ d)} ∪ {d | ∃ t, (d, t) ∈ new ∧ t.free = true} := by
  ext d
  constructor
  · rintro ⟨⟨t, ht, hfree⟩, hd⟩
    rcases mem_redraw.1 ht with ⟨hmem, hlt⟩ | hmem | ⟨hmem, hge⟩
    · exact .inl ⟨⟨⟨t, hmem, hfree⟩, hd⟩, .inl hlt⟩
    · exact .inr ⟨t, hmem, hfree⟩
    · exact .inl ⟨⟨⟨t, hmem, hfree⟩, hd⟩, .inr hge⟩
  · rintro (⟨⟨⟨t, ht, hfree⟩, hd⟩, hout⟩ | ⟨t, hmem, hfree⟩)
    · exact ⟨⟨t, (mem_redraw_outside hnew hout).2 ht, hfree⟩, hd⟩
    · refine ⟨⟨t, mem_redraw.2 (.inr (.inl hmem)), hfree⟩, fun hd => ?_⟩
      have hin := hnew.bounds hmem
      have hout := hsec.outside h hd
      omega

theorem Apart.redraw (h : A.Apart) (hA : A.Valid) (hsec : A.Section lo hi mid)
    (hnew : Tiles lo new hi) : (A.redraw lo hi new).Apart := by
  intro d u hd hclean hnext
  have hout := hsec.outside hA (Clean.listed (A := A) hclean)
  exact h d u ((mem_redraw_outside hnew hout).1 hd) hclean hnext

theorem liveIn_redraw (hsec : A.Section lo hi mid) (hmid : ∀ c t, (c, t) ∈ mid → t.free = true)
    (hnew : ∀ c t, (c, t) ∈ new → t.free = true) :
    liveIn (A.redraw lo hi new).chunks = liveIn A.chunks := by
  obtain ⟨pre, post, he, -, -, he'⟩ := hsec.chunks_redraw new
  rw [he', he]
  simp only [liveIn_append, liveIn_eq_nil.2 hmid, liveIn_eq_nil.2 hnew]

end Shape

end BoundaryHeap
