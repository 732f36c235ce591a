import BoundaryHeap.Proofs.Handing
import BoundaryHeap.Proofs.Stocking

namespace BoundaryHeap

def pieces (c size : Nat) : Nat → List Chunk
  | 0 => []
  | k + 1 => (c, .unowned size) :: pieces (c + size) size k

@[simp] theorem length_pieces (c size k : Nat) : (pieces c size k).length = k := by
  induction k generalizing c with
  | zero => rfl
  | succ k ih => rw [pieces, List.length_cons, ih]

theorem tag_of_mem_pieces {c size k : Nat} {x : Chunk} (hx : x ∈ pieces c size k) :
    x.2 = .unowned size := by
  induction k generalizing c with
  | zero => cases hx
  | succ k ih =>
    rcases List.mem_cons.1 hx with rfl | hx
    · rfl
    · exact ih hx

/-- How many pieces of `size` bytes can be cut off `total` bytes so that a chunk is left, `count`
at the most. -/
def stockable (count size total : Nat) : Nat :=
  min count ((total - minChunk) / size)

section Arithmetic

variable {count size total : Nat}

@[simp] theorem stockable_zero : stockable 0 size total = 0 :=
  Nat.zero_min _

theorem stockable_of_lt (hpos : 0 < size) (hlt : total < size + minChunk) :
    stockable count size total = 0 := by
  have hshort : total - minChunk < size := by
    simp only [minChunk] at hlt ⊢
    omega
  rw [stockable, Nat.div_eq_of_lt hshort, Nat.min_zero]

theorem stockable_succ (hpos : 0 < size) (hle : size + minChunk ≤ total) :
    stockable (count + 1) size total = stockable count size (total - size) + 1 := by
  have hroom : size ≤ total - minChunk := by
    simp only [minChunk] at hle ⊢
    omega
  rw [stockable, stockable, Nat.div_eq_sub_div hpos hroom, Nat.sub_right_comm, Nat.add_min_add_right]

theorem add_succ_mul (c k size : Nat) : c + (k + 1) * size = c + size + k * size := by
  rw [Nat.add_mul, Nat.one_mul, Nat.add_comm (k * size), Nat.add_assoc]

theorem sub_succ_mul (n k size : Nat) : n - (k + 1) * size = n - size - k * size := by
  rw [Nat.add_mul, Nat.one_mul, Nat.add_comm (k * size), Nat.sub_sub]

end Arithmetic

namespace Shape

variable {A B C : Shape} {H : Set Nat} {c d k last n size : Nat} {t : Tag} {owner : Owner}
  {pre post : List Chunk}

theorem Valid.chunks_redraw (h : A.Valid) (hchunks : A.chunks = pre ++ (c, t) :: post)
    (new : List Chunk) : (A.redraw c (c + t.size) new).chunks = pre ++ (new ++ post) := by
  have htiles := h.tiles
  rw [hchunks] at htiles
  obtain ⟨mid, hpre, rfl, ht, hpost⟩ := Tiles.append_iff.1 htiles
  have hone : Tiles c [(c, t)] (c + t.size) := ⟨rfl, ht, rfl⟩
  have hsplice : splice (pre ++ [(c, t)] ++ post) c (c + t.size) new = pre ++ new ++ post :=
    splice_eq hpre hone hpost
  rw [List.append_assoc, List.append_assoc, List.singleton_append] at hsplice
  rw [Shape.redraw, hchunks]
  exact hsplice

theorem Valid.chunks_cut (h : A.Valid) (hchunks : A.chunks = pre ++ (c, t) :: post) (size : Nat) :
    (A.cut c size).chunks =
      pre ++ (c, .unowned size) :: (c + size, .unowned (t.size - size)) :: post := by
  have hc : (c, t) ∈ A.chunks := by simp [hchunks]
  rw [Shape.cut, h.sizeAt_eq hc, h.chunks_redraw hchunks]
  rfl

theorem Valid.chunks_grant (h : A.Valid) (hchunks : A.chunks = pre ++ (c, t) :: post)
    (owner : Owner) :
    (A.grant c owner).chunks = pre ++ (c, .live t.size owner) :: post := by
  have hc : (c, t) ∈ A.chunks := by simp [hchunks]
  have hredraw := h.chunks_redraw hchunks [(c, .live t.size owner)]
  rw [Shape.grant, h.sizeAt_eq hc]
  exact hredraw

/-- `B` is `A` after `k` pieces of `size` bytes were cut off the front of the remainder, which had
`n` bytes and began at `c`. The last one is the latest recent chunk. -/
structure Stocked (A : Shape) (c n size k : Nat) (B : Shape) : Prop where
  room : k * size + minChunk ≤ n
  chunks : ∀ {pre post}, A.chunks = pre ++ (c, .unowned n) :: post → B.chunks =
    pre ++ (pieces c size k ++ (c + k * size, .unowned (n - k * size)) :: post)
  recent : B.lists .recent = ((pieces c size k).map Prod.fst).reverse ++ A.lists .recent
  remainder : B.lists .remainder = [c + k * size]
  others : ∀ l, l ≠ .recent → l ≠ .remainder → B.lists l = A.lists l

theorem Stocked.zero (hl : A.lists .remainder = [c]) (hmin : minChunk ≤ n) :
    A.Stocked c n size 0 A := by
  refine ⟨?_, fun hchunks => ?_, rfl, ?_, fun _ _ _ => rfl⟩
  · rw [Nat.zero_mul, Nat.zero_add]
    exact hmin
  · rw [Nat.zero_mul]
    exact hchunks
  · rw [Nat.zero_mul]
    exact hl

theorem Valid.recent_stockOne (h : A.Valid) (hc : c ∈ A.lists .remainder) :
    (A.stockOne c size).lists .recent = c :: A.lists .recent := by
  have hne : ListId.recent ≠ .remainder := by decide
  have hrecent : (A.unlist c).lists .recent = A.lists .recent := h.distinct.without_ne hc hne
  rw [← hrecent, Shape.stockOne, lists_file, Lists.filed_ne hne, lists_file, Lists.filed_recent]
  rfl

/-- One piece more is cut off in front of the others. -/
theorem Stocked.succ (hA : A.Valid) (hl : A.lists .remainder = [c]) (hle : size + minChunk ≤ n)
    (h : (A.stockOne c size).Stocked (c + size) (n - size) size k B) :
    A.Stocked c n size (k + 1) B := by
  have hmem : c ∈ A.lists .remainder := by simp [hl]
  have hnext := add_succ_mul c k size
  have hrest := sub_succ_mul n k size
  refine ⟨?_, fun {pre post} hchunks => ?_, ?_, ?_, fun l hrecent hremainder => ?_⟩
  · have hroom := h.room
    rw [Nat.add_mul, Nat.one_mul]
    omega
  · have hcut := (hA.unlist c).chunks_cut hchunks size
    have hfront : (A.stockOne c size).chunks =
        (pre ++ [(c, .unowned size)]) ++ (c + size, .unowned (n - size)) :: post := by
      rw [List.append_assoc]
      exact hcut
    rw [h.chunks hfront, hnext, hrest, List.append_assoc]
    rfl
  · rw [h.recent, hA.recent_stockOne hmem, pieces, List.map_cons, List.reverse_cons,
      List.append_assoc]
    rfl
  · rw [hnext]
    exact h.remainder
  · rw [h.others l hrecent hremainder]
    exact hA.lists_stockOne hmem hrecent hremainder

/-- The stock takes as many pieces as there are, up to `count`. -/
theorem Holding.stocked (h : A.Holding H) (hmin : minChunk ≤ size) (hgrain : size % granule = 0)
    (hl : A.lists .remainder = [c]) (hc : (c, .unowned n) ∈ A.chunks) (count : Nat) :
    A.Stocked c n size (stockable count size n) (A.stock size count) := by
  have hleast : minChunk ≤ n := (h.valid.tiles.proper hc).1
  induction count generalizing A c n with
  | zero =>
    rw [stockable_zero]
    exact .zero hl hleast
  | succ count ih =>
    obtain rfl : A.sizeAt c = n := h.valid.sizeAt_eq hc
    have hpos : 0 < size := Nat.lt_of_lt_of_le (by decide) hmin
    simp only [Shape.stock, hl]
    split
    next hshort =>
      rw [stockable_of_lt hpos hshort]
      exact .zero hl hleast
    next hroom =>
      have hle : size + minChunk ≤ A.sizeAt c := Nat.le_of_not_lt hroom
      have hcut : Cuttable size (A.sizeAt c) := ⟨hmin, hgrain, hle⟩
      have hrest : (c + size, .unowned (A.sizeAt c - size)) ∈ (A.stockOne c size).chunks :=
        mem_cut_rest (A := A.unlist c)
      rw [stockable_succ hpos hle]
      exact .succ h.valid hl hle
        (ih (h.stockOne hl hcut) (h.valid.remainder_stockOne hl) hrest (Nat.le_sub_of_add_le' hle))

theorem Valid.mem_dropRemainder (h : A.Valid) {l : ListId} (hl : l ≠ .remainder) :
    d ∈ A.dropRemainder.lists l ↔
      d ∈ A.lists l ∨ (d ∈ A.lists .remainder ∧ l = .clean (sizeClass (A.sizeAt d))) := by
  unfold dropRemainder
  split
  next hnil => simp [hnil]
  next old rest hcons =>
    have hnone := h.remainder_unlist hcons
    rw [h.lists_unlist_head hcons] at hnone
    subst hnone
    have hold : old ∈ A.lists .remainder := by simp [hcons]
    have hsame : (A.unlist old).lists l = A.lists l := h.distinct.without_ne hold hl
    rw [lists_file, Lists.mem_filed, hsame, hcons, List.mem_singleton]
    apply or_congr_right
    apply and_congr_right
    rintro rfl
    rfl

/-- From `A` to `B` the free chunk at `c` is handed out to `owner` as it is. -/
structure HandsWhole (A : Shape) (c : Nat) (owner : Owner) (B : Shape) : Prop where
  chunks : ∃ pre t post, A.chunks = pre ++ (c, t) :: post ∧
    B.chunks = pre ++ (c, .live (A.sizeAt c) owner) :: post
  lists : B.lists = A.lists.without c

/-- From `A` to `B` the free chunk at `c` is cut: its first `size` bytes are handed out to `owner`,
the next ones are `k` pieces of the same size, which are all that is recent, and the others are the
remainder. What was the remainder is clean. -/
structure Partitions (A : Shape) (c size k : Nat) (owner : Owner) (B : Shape) : Prop where
  chunks : ∃ pre t post, A.chunks = pre ++ (c, t) :: post ∧
    B.chunks = pre ++ (c, .live size owner) :: (pieces (c + size) size k ++
      (c + (k + 1) * size, .unowned (A.sizeAt c - (k + 1) * size)) :: post)
  rest : minChunk ≤ A.sizeAt c - (k + 1) * size
  recent : B.lists .recent = ((pieces (c + size) size k).map Prod.fst).reverse
  remainder : B.lists .remainder = [c + (k + 1) * size]
  dropped : ∀ d ∈ A.lists .remainder, d ≠ c → d ∈ B.lists (.clean (sizeClass (A.sizeAt d)))
  others : ∀ l d, l ≠ .recent → l ≠ .remainder → (d ∈ B.lists l ↔ d ≠ c ∧
    (d ∈ A.lists l ∨ (d ∈ A.lists .remainder ∧ l = .clean (sizeClass (A.sizeAt d)))))

theorem Partitions.sizeAt_recent (h : A.Partitions c size k owner B) (hB : B.Valid)
    (hd : d ∈ B.lists .recent) : B.sizeAt d = size := by
  rw [h.recent, List.mem_reverse] at hd
  obtain ⟨⟨d, u⟩, hu, rfl⟩ := List.mem_map.1 hd
  obtain ⟨pre, t, post, -, hchunks⟩ := h.chunks
  obtain rfl : u = .unowned size := tag_of_mem_pieces hu
  have hmem : (d, .unowned size) ∈ B.chunks := by simp [hchunks, hu]
  exact hB.sizeAt_eq hmem

theorem Settled.handsWhole (h : A.Settled) (hc : A.Listed c)
    (hsmall : A.sizeAt c - size < minChunk) (last : Nat) (owner : Owner) :
    A.HandsWhole c owner (((A.unlist c).cutDown last c size).grant c owner) := by
  obtain ⟨t, ht, -⟩ := h.valid.isFree hc
  obtain ⟨pre, post, hchunks⟩ := List.append_of_mem ht
  have hwhole : (A.unlist c).cutDown last c size = A.unlist c := if_pos hsmall
  rw [hwhole]
  refine ⟨⟨pre, t, post, hchunks, ?_⟩, rfl⟩
  rw [h.valid.sizeAt_eq ht]
  exact (h.valid.unlist c).chunks_grant hchunks owner

def trim (A : Shape) (c size : Nat) : Shape :=
  ((A.unlist c).cut c size).keepRemainder (c + size)

theorem Valid.chunks_trim (h : A.Valid) (hchunks : A.chunks = pre ++ (c, t) :: post) :
    (A.trim c size).chunks =
      pre ++ (c, .unowned size) :: (c + size, .unowned (A.sizeAt c - size)) :: post := by
  have hc : (c, t) ∈ A.chunks := by simp [hchunks]
  have hkept : (A.trim c size).chunks = ((A.unlist c).cut c size).chunks :=
    chunks_dropRemainder
  rw [hkept, h.sizeAt_eq hc]
  exact (h.unlist c).chunks_cut hchunks size

theorem Settled.cut_clean (h : A.Settled) (hc : A.Clean c) (hcut : Cuttable size (A.sizeAt c)) :
    ((A.unlist c).cut c size).Holding {c + size, c} :=
  (h.take hc.listed).cut rfl hcut

theorem Settled.remainder_trim (h : A.Settled) (hc : A.Clean c)
    (hcut : Cuttable size (A.sizeAt c)) : (A.trim c size).lists .remainder = [c + size] :=
  (h.cut_clean hc hcut).remainder_keepRemainder

theorem Settled.mem_trim (h : A.Settled) (hc : A.Clean c) (hcut : Cuttable size (A.sizeAt c))
    {l : ListId} (hl : l ≠ .remainder) : d ∈ (A.trim c size).lists l ↔ d ≠ c ∧
      (d ∈ A.lists l ∨ (d ∈ A.lists .remainder ∧ l = .clean (sizeClass (A.sizeAt d)))) := by
  have hheld := h.take hc.listed
  have hcut' := h.cut_clean hc hcut
  have hsize : d ∈ A.lists .remainder → d ≠ c →
      ((A.unlist c).cut c size).sizeAt d = A.sizeAt d := by
    intro hd hne
    obtain ⟨u, hu, -⟩ := h.valid.listed hd
    rw [h.valid.sizeAt_eq hu]
    exact hcut'.valid.sizeAt_eq (hheld.valid.mem_cut (hheld.mem_loose rfl) hcut hu hne)
  have hlists (l : ListId) : d ∈ ((A.unlist c).cut c size).lists l ↔ d ∈ A.lists l ∧ d ≠ c :=
    Lists.mem_without
  rw [trim, keepRemainder, lists_file, Lists.filed_ne hl, hcut'.valid.mem_dropRemainder hl,
    hlists, hlists]
  constructor
  · rintro (⟨hd, hne⟩ | ⟨⟨hd, hne⟩, he⟩)
    · exact ⟨hne, .inl hd⟩
    · rw [hsize hd hne] at he
      exact ⟨hne, .inr ⟨hd, he⟩⟩
  · rintro ⟨hne, hd | ⟨hd, he⟩⟩
    · exact .inl ⟨hd, hne⟩
    · rw [← hsize hd hne] at he
      exact .inr ⟨⟨hd, hne⟩, he⟩

theorem Settled.recent_trim (h : A.Settled) (hc : A.Clean c)
    (hcut : Cuttable size (A.sizeAt c)) (hempty : A.lists .recent = []) :
    (A.trim c size).lists .recent = [] := by
  apply List.eq_nil_iff_forall_not_mem.2
  intro d hd
  obtain ⟨-, hd | ⟨-, he⟩⟩ := (h.mem_trim hc hcut (by decide)).1 hd
  · rw [hempty] at hd
    cases hd
  · exact Kind.noConfusion (congrArg ListId.kind he)

/-- However many pieces are stocked, the chunk is partitioned. -/
theorem Settled.partitions_stocked (h : A.Settled) (hc : A.Clean c)
    (hcut : Cuttable size (A.sizeAt c)) (hempty : A.lists .recent = [])
    (hC : C.Valid) (hstocked : (A.trim c size).Stocked (c + size) (A.sizeAt c - size) size k C)
    (owner : Owner) : A.Partitions c size k owner (C.grant c owner) := by
  obtain ⟨t, ht, -⟩ := h.valid.isFree hc.listed
  obtain ⟨pre, post, hchunks⟩ := List.append_of_mem ht
  have hnext := add_succ_mul c k size
  have hrest := sub_succ_mul (A.sizeAt c) k size
  have hothers {l : ListId} {d : Nat} (hrecent : l ≠ .recent) (hremainder : l ≠ .remainder) :
      d ∈ (C.grant c owner).lists l ↔ d ≠ c ∧
        (d ∈ A.lists l ∨ (d ∈ A.lists .remainder ∧ l = .clean (sizeClass (A.sizeAt d)))) := by
    have hsame : (C.grant c owner).lists l = (A.trim c size).lists l :=
      hstocked.others l hrecent hremainder
    rw [hsame, h.mem_trim hc hcut hremainder]
  refine ⟨⟨pre, t, post, hchunks, ?_⟩, ?_, ?_, ?_, fun d hd hne => ?_, fun l d => hothers⟩
  · have hfront : (A.trim c size).chunks =
        (pre ++ [(c, .unowned size)]) ++ (c + size, .unowned (A.sizeAt c - size)) :: post := by
      rw [List.append_assoc]
      exact h.valid.chunks_trim hchunks
    have hC' := hstocked.chunks hfront
    rw [List.append_assoc] at hC'
    rw [hnext, hrest]
    exact hC.chunks_grant hC' owner
  · have hroom := hstocked.room
    rw [hrest]
    omega
  · have hrecent := hstocked.recent
    rw [h.recent_trim hc hcut hempty, List.append_nil] at hrecent
    exact hrecent
  · rw [hnext]
    exact hstocked.remainder
  · apply (hothers _ _).2 ⟨hne, .inr ⟨hd, rfl⟩⟩
    · exact fun he => Kind.noConfusion (congrArg ListId.kind he)
    · have hclean : Filing.clean ≠ .remainder := Filing.noConfusion
      exact Filing.list_ne_remainder hclean _

theorem Settled.partitions (h : A.Settled) (hc : A.Clean c) (hempty : A.lists .recent = [])
    (hcut : Cuttable size (A.sizeAt c)) (last : Nat) (owner : Owner) :
    A.Partitions c size
      (if size = last then stockable stockCount size (A.sizeAt c - size) else 0) owner
      (((A.unlist c).cutDown last c size).grant c owner) := by
  have hkeep : (A.trim c size).Holding {c} :=
    (h.take hc.listed).keepRest hcut (h.next_not_clean hc)
  have hremainder := h.remainder_trim hc hcut
  obtain ⟨t, ht, -⟩ := h.valid.isFree hc.listed
  obtain ⟨pre, post, hchunks⟩ := List.append_of_mem ht
  have hmem : (c + size, .unowned (A.sizeAt c - size)) ∈ (A.trim c size).chunks := by
    simp [h.valid.chunks_trim hchunks]
  have hlarge : ¬(A.unlist c).sizeAt c - size < minChunk := by
    have hrest := hcut.rest
    rw [sizeAt_unlist]
    omega
  have hcutDown : (A.unlist c).cutDown last c size =
      if size = last then (A.trim c size).stock size stockCount else A.trim c size :=
    if_neg hlarge
  rw [hcutDown]
  by_cases hlast : size = last
  · rw [if_pos hlast, if_pos hlast]
    exact h.partitions_stocked hc hcut hempty
      (hkeep.stock hcut.min hcut.grain stockCount).1.valid
      (hkeep.stocked hcut.min hcut.grain hremainder hmem stockCount) owner
  · rw [if_neg hlast, if_neg hlast]
    exact h.partitions_stocked hc hcut hempty hkeep.valid
      (.zero hremainder (hkeep.valid.tiles.proper hmem).1) owner

end Shape

end BoundaryHeap
