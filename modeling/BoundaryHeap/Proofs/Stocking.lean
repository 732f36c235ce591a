import BoundaryHeap.Proofs.Gaps

namespace BoundaryHeap

namespace Shape

variable {A B C : Shape} {H : Set Nat} {c d lo lo' hi size : Nat}

/-- `B` is `A` with the free section from `lo` to `hi` cut in another way. -/
structure Restocks (A B : Shape) (lo hi : Nat) : Prop where
  len : B.len = A.len
  outside : ∀ d u, d < lo ∨ hi ≤ d → ((d, u) ∈ B.chunks ↔ (d, u) ∈ A.chunks)
  inside : ∀ d u, (d, u) ∈ A.chunks ∨ (d, u) ∈ B.chunks → lo ≤ d → d < hi → u = .unowned u.size
  clean : ∀ d, d < lo ∨ hi ≤ d → (B.Clean d ↔ A.Clean d)
  lists : ∀ l, l ≠ .recent → l ≠ .remainder → B.lists l = A.lists l

namespace Restocks

theorem refl (A : Shape) (lo : Nat) : A.Restocks A lo lo :=
  ⟨rfl, fun _ _ _ => .rfl, fun _ _ _ hlo hhi => absurd hhi (Nat.not_lt_of_le hlo),
    fun _ _ => .rfl, fun _ _ _ => rfl⟩

theorem symm (h : A.Restocks B lo hi) : B.Restocks A lo hi :=
  ⟨h.len.symm, fun d u hd => (h.outside d u hd).symm, fun d u hu => h.inside d u hu.symm,
    fun d hd => (h.clean d hd).symm, fun l hl hl' => (h.lists l hl hl').symm⟩

/-- A section within the section is cut once more. -/
theorem trans (h : A.Restocks B lo hi) (h' : B.Restocks C lo' hi) (hle : lo ≤ lo') :
    A.Restocks C lo hi := by
  have hout {d : Nat} (hd : d < lo ∨ hi ≤ d) : d < lo' ∨ hi ≤ d :=
    hd.imp_left fun hlt => Nat.lt_of_lt_of_le hlt hle
  refine ⟨h'.len.trans h.len, fun d u hd => (h'.outside d u (hout hd)).trans (h.outside d u hd), ?_,
    fun d hd => (h'.clean d (hout hd)).trans (h.clean d hd),
    fun l hl hl' => (h'.lists l hl hl').trans (h.lists l hl hl')⟩
  rintro d u (hu | hu) hlo hhi
  · exact h.inside d u (.inl hu) hlo hhi
  · by_cases hd : d < lo'
    · exact h.inside d u (.inr ((h'.outside d u (.inl hd)).1 hu)) hlo hhi
    · exact h'.inside d u (.inr hu) (Nat.le_of_not_lt hd) hhi

theorem either (h : A.Restocks B lo hi) (p q : Prop) [Decidable p] [Decidable q] :
    (if p then B else A).Restocks (if q then B else A) lo hi := by
  by_cases hp : p
  · rw [if_pos hp]
    by_cases hq : q
    · rw [if_pos hq]
      exact h.symm.trans h (Nat.le_refl lo)
    · rw [if_neg hq]
      exact h.symm
  · rw [if_neg hp]
    by_cases hq : q
    · rw [if_pos hq]
      exact h
    · rw [if_neg hq]
      exact h.trans h.symm (Nat.le_refl lo)

end Restocks

theorem Valid.restocks_refl (h : A.Valid) {n : Nat} (hc : (c, .unowned n) ∈ A.chunks) :
    A.Restocks A c (c + n) := by
  refine ⟨rfl, fun _ _ _ => .rfl, fun d u hu hlo hhi => ?_, fun _ _ => .rfl, fun _ _ _ => rfl⟩
  have hd : (d, u) ∈ A.chunks := hu.elim id id
  rcases h.tiles.apart hc hd with ⟨rfl, rfl⟩ | he | he
  · rfl
  · exact absurd hhi (Nat.not_lt_of_le he)
  · have hpos := h.tiles.size_pos hd
    omega

theorem clean_stockOne (hd : d ≠ c) (hd' : d ≠ c + size) :
    (A.stockOne c size).Clean d ↔ A.Clean d := by
  have hcut : (((A.unlist c).cut c size).file c .recent).Clean d ↔ A.Clean d := by
    rw [clean_file_dirty fun _ => rfl]
    exact clean_unlist.trans (and_iff_left hd)
  rw [← hcut]
  constructor
  · exact fun hclean => (clean_file hclean).resolve_right hd'
  · rintro ⟨l, hl, hmem⟩
    exact ⟨l, hl, Lists.mem_filed.2 (.inl hmem)⟩

theorem Valid.lists_stockOne (h : A.Valid) (hc : c ∈ A.lists .remainder) {l : ListId}
    (hrecent : l ≠ .recent) (hremainder : l ≠ .remainder) :
    (A.stockOne c size).lists l = A.lists l := by
  rw [Shape.stockOne, lists_file, Lists.filed_ne hremainder, lists_file, Lists.filed_ne hrecent]
  exact h.distinct.without_ne hc hremainder

theorem Valid.remainder_stockOne (h : A.Valid) (hl : A.lists .remainder = [c]) :
    (A.stockOne c size).lists .remainder = [c + size] := by
  rw [Shape.stockOne, lists_file, Lists.filed_remainder, lists_file,
    Lists.filed_ne (Filing.list_ne_remainder Filing.noConfusion _).symm]
  exact congrArg _ (h.remainder_unlist hl)

theorem Holding.restocks_stockOne (h : A.Holding H) (hl : A.lists .remainder = [c]) {n : Nat}
    (hc : (c, .unowned n) ∈ A.chunks) (hcut : Cuttable size n) :
    A.Restocks (A.stockOne c size) c (c + n) := by
  have hmem : c ∈ A.lists .remainder := by simp [hl]
  have hheld := h.unlist ⟨.remainder, hmem⟩
  obtain rfl : A.sizeAt c = n := h.valid.sizeAt_eq hc
  obtain ⟨t, ht, -, -, hnew⟩ := hheld.valid.halves (hheld.mem_loose (Set.mem_insert ..)) hcut
  have hmin := hcut.min
  have hrest := hcut.rest
  simp only [minChunk] at hmin hrest
  refine ⟨rfl, fun d u hd => mem_redraw_outside hnew hd, ?_,
    fun d hd => clean_stockOne (by omega) (by omega),
    fun l hl hl' => h.valid.lists_stockOne hmem hl hl'⟩
  rintro d u (hu | hu) hlo hhi
  · exact (h.valid.restocks_refl hc).inside d u (.inl hu) hlo hhi
  · rcases mem_redraw.1 hu with ⟨-, hlt⟩ | hu | ⟨-, hge⟩
    · exact absurd hlo (Nat.not_le_of_lt hlt)
    · exact forall_halves (P := fun _ u => u = .unowned u.size) rfl rfl d u hu
    · exact absurd hhi (Nat.not_lt_of_le hge)

/-- Cutting a stock cuts the remainder anew. -/
theorem Holding.restocks_stock (h : A.Holding H) (hmin : minChunk ≤ size)
    (hgrain : size % granule = 0) {n : Nat} (hl : A.lists .remainder = [c])
    (hc : (c, .unowned n) ∈ A.chunks) (count : Nat) :
    A.Restocks (A.stock size count) c (c + n) := by
  induction count generalizing A c n with
  | zero => exact h.valid.restocks_refl hc
  | succ count ih =>
    obtain rfl : A.sizeAt c = n := h.valid.sizeAt_eq hc
    simp only [Shape.stock, hl]
    split
    next => exact h.valid.restocks_refl hc
    next hroom =>
      have hcut : Cuttable size (A.sizeAt c) := ⟨hmin, hgrain, Nat.le_of_not_lt hroom⟩
      have hend : c + size + (A.sizeAt c - size) = c + A.sizeAt c := by
        have hrest := hcut.rest
        omega
      have hlater := ih (h.stockOne hl hcut) (h.valid.remainder_stockOne hl)
        (mem_cut_rest (A := A.unlist c))
      rw [sizeAt_unlist, hend] at hlater
      exact (h.restocks_stockOne hl hc hcut).trans hlater (Nat.le_add_right ..)

theorem Settled.liveIn_mergeAll (h : A.Settled) : liveIn A.mergeAll.chunks = liveIn A.chunks :=
  (Store.Takes.mergeAll h (Nat.lt_succ_self _)).live

theorem Settled.layout_mergeAll (h : A.Settled) :
    layoutOf A.mergeAll.chunks = fillGaps 0 (liveExtents A.chunks) A.len := by
  obtain ⟨hmerged, hlen, hempty⟩ := h.mergeAll
  rw [hmerged.valid.tiles.layout_eq (hmerged.coalesced hempty), hlen,
    liveExtents_congr h.liveIn_mergeAll]

def HasSpare (A : Shape) (c n : Nat) : Prop :=
  (c, n, true) ∈ layoutOf A.chunks ∨ (c, n, true) ∈ layoutOf A.mergeAll.chunks

/-- Two searches in `A` end alike, but for the cutting of the tail behind what they found. -/
inductive Agree (A : Shape) : Option Nat × Shape → Option Nat × Shape → Prop
  | none (B : Shape) : Agree A (none, B) (none, B)
  | some {c n : Nat} {B C : Shape} (hc : A.HasSpare c n) (hle : B.sizeAt c ≤ n)
      (h : B.Restocks C (c + B.sizeAt c) (c + n)) : Agree A (some c, B) (some c, C)

theorem Holding.remainder_keepRemainder (h : A.Holding H) :
    (A.keepRemainder c).lists .remainder = [c] := by
  rw [Shape.keepRemainder, lists_file, Lists.filed_remainder, h.dropRemainder.2]

theorem Holding.restocks_cutDown (h : A.Holding {c}) (hmin : minChunk ≤ size)
    (hgrain : size % granule = 0) (hsize : size ≤ A.sizeAt c)
    (hnext : ¬A.Clean (c + A.sizeAt c)) (last last' : Nat) :
    let B := A.cutDown last c size
    B.sizeAt c ≤ A.sizeAt c ∧
      B.Restocks (A.cutDown last' c size) (c + B.sizeAt c) (c + A.sizeAt c) := by
  intro B
  by_cases hsmall : A.sizeAt c - size < minChunk
  · have hsame (last : Nat) : A.cutDown last c size = A := if_pos hsmall
    simp only [B, hsame]
    exact ⟨Nat.le_refl _, .refl ..⟩
  · have hcut : Cuttable size (A.sizeAt c) := ⟨hmin, hgrain, by omega⟩
    have hheld := h.cut rfl hcut
    have hkeep := h.keepRest hcut hnext
    have hchunks : ((A.cut c size).keepRemainder (c + size)).chunks = (A.cut c size).chunks :=
      chunks_dropRemainder
    have hhead : (c, .unowned size) ∈ ((A.cut c size).keepRemainder (c + size)).chunks := by
      rw [hchunks]
      exact mem_cut_head
    have hrest : (c + size, .unowned (A.sizeAt c - size)) ∈
        ((A.cut c size).keepRemainder (c + size)).chunks := by
      rw [hchunks]
      exact mem_cut_rest
    have hstock := hkeep.restocks_stock hmin hgrain hheld.remainder_keepRemainder hrest stockCount
    obtain ⟨hstocked, hkept⟩ := hkeep.stock hmin hgrain stockCount
    have hsizeKept := hkeep.valid.sizeAt_eq hhead
    have hsizeStocked := hstocked.valid.sizeAt_eq (hkept c _ rfl hhead)
    have hcutDown (last : Nat) : A.cutDown last c size =
        if size = last then ((A.cut c size).keepRemainder (c + size)).stock size stockCount
        else (A.cut c size).keepRemainder (c + size) := if_neg hsmall
    have hsizeB : B.sizeAt c = size := by
      simp only [B, hcutDown]
      split
      next => exact hsizeStocked
      next => exact hsizeKept
    rw [Nat.add_assoc, Nat.add_sub_cancel' hsize] at hstock
    rw [hsizeB]
    refine ⟨hsize, ?_⟩
    simp only [B, hcutDown]
    exact hstock.either _ _

theorem Valid.hasSpare (h : A.Valid) (hc : A.IsFree c) :
    (c, A.sizeAt c, true) ∈ layoutOf A.chunks := by
  obtain ⟨t, ht, hfree⟩ := hc
  rw [h.sizeAt_eq ht, ← hfree]
  exact List.mem_map_of_mem ht

theorem Valid.agree_taken (h : A.Valid) (hchunks : B.chunks = A.chunks) (hc : A.IsFree c) :
    A.Agree (some c, B) (some c, B) := by
  have hsize : B.sizeAt c = A.sizeAt c := by rw [sizeAt, hchunks, sizeAt]
  refine .some (.inl (h.hasSpare hc)) (Nat.le_of_eq hsize) ?_
  rw [hsize]
  exact .refl ..

theorem Settled.agree_cutFitting (h : B.Settled) (hmin : minChunk ≤ size)
    (hgrain : size % granule = 0) (hB : ∀ c n, (c, n, true) ∈ layoutOf B.chunks → A.HasSpare c n)
    (last last' : Nat) : A.Agree (B.cutFitting last size) (B.cutFitting last' size) := by
  unfold cutFitting
  split
  next => exact .none _
  next c hc =>
    obtain ⟨hclean, hsize⟩ := findFitting_some hc
    obtain ⟨hle, hrestocks⟩ := (h.take hclean.listed).restocks_cutDown hmin hgrain hsize
      (h.next_not_clean hclean) last last'
    exact .some (hB c _ (h.valid.hasSpare (h.valid.isFree hclean.listed))) hle hrestocks

theorem chunks_takeRecent {found : Option Nat} (hB : A.takeRecent size = (found, B)) :
    B.chunks = A.chunks := by
  unfold takeRecent at hB
  split at hB
  next =>
    cases hB
    exact chunks_demoteAll _
  next =>
    cases hB
    exact chunks_demoteAll _

theorem Settled.agree_search (h : A.Settled) (hmin : minChunk ≤ size)
    (hgrain : size % granule = 0) (last last' : Nat) :
    A.Agree (A.search last size) (A.search last' size) := by
  unfold Shape.search
  split
  next c hc => exact h.valid.agree_taken rfl (h.valid.listed (recentHead_some hc).1)
  next =>
  split
  next c hc => exact h.valid.agree_taken rfl (h.valid.listed (exactIn_some hc).1)
  next =>
  split
  next c B hB =>
    have hchunks := chunks_takeRecent hB
    obtain ⟨⟨t, ht, hfree⟩, -⟩ := (h.takeRecent_some hB).holding.mem_loose rfl
    exact h.valid.agree_taken hchunks ⟨t, hchunks ▸ ht, hfree⟩
  next B hB =>
  have hchunks := chunks_takeRecent hB
  have hB' := h.takeRecent_none hB
  have hfirst := hB'.agree_cutFitting (A := A) hmin hgrain
    (fun c n hc => .inl (hchunks ▸ hc)) last last'
  split
  next c C hC =>
    split
    next c' C' hC' =>
      rw [hC, hC'] at hfirst
      exact hfirst
    next C' hC' =>
      rw [hC, hC'] at hfirst
      cases hfirst
  next C hC =>
    -- What fits does not depend on the size served last, so both searches merge or none does.
    obtain ⟨rfl, hnone⟩ := cutFitting_none hC
    have hC' : C.cutFitting last' size = (none, C) := by rw [Shape.cutFitting, hnone]
    rw [hC']
    have hlayout : layoutOf C.mergeAll.chunks = layoutOf A.mergeAll.chunks := by
      rw [hB'.layout_mergeAll, h.layout_mergeAll, hchunks, len_takeRecent hB]
    exact hB'.mergeAll.1.agree_cutFitting hmin hgrain
      (fun c n hc => .inr (hlayout ▸ hc)) last last'

end Shape

end BoundaryHeap
