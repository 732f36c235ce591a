import BoundaryHeap.Proofs.Bursts
import Mathlib.Data.List.Find

namespace BoundaryHeap

open Store (binsFrom findFitting)

def word? (n : Nat) : Option Nat :=
  if n < addressLimit then some n else none

def difference? (a b : Nat) : Option Nat :=
  if b ≤ a then some (a - b) else none

/-- The bin of a size that is neither small nor among the largest, if every result on the way to it
fits a word. -/
def rangeBin? (size : Nat) : Option Nat := do
  let beyond ← difference? size fastLimit
  let scaled ← word? (beyond * rangeBins)
  word? (fastBins + scaled / (rangeLimit - fastLimit))

def sizeClass? (size : Nat) : Option Nat :=
  if size < fastLimit then some (max (size / granule) 1)
  else if size < rangeLimit then rangeBin? size
  else some (binCount - 1)

variable {a b size : Nat}

theorem rangeBin?_eq (hlow : fastLimit ≤ size) (hhigh : size < rangeLimit) :
    rangeBin? size =
      some (fastBins + (size - fastLimit) * rangeBins / (rangeLimit - fastLimit)) := by
  have hbeyond : difference? size fastLimit = some (size - fastLimit) := if_pos hlow
  have hscaled : (size - fastLimit) * rangeBins < addressLimit := by
    simp only [rangeBins, fastBins, fastLimit, rangeLimit, binCount, granule, addressLimit] at *
    omega
  have hbin : fastBins + (size - fastLimit) * rangeBins / (rangeLimit - fastLimit) <
      addressLimit := by
    simp only [rangeBins, fastBins, fastLimit, rangeLimit, binCount, granule, addressLimit] at *
    omega
  simp only [rangeBin?, hbeyond, word?, Option.bind_eq_bind, Option.bind_some, if_pos hscaled,
    if_pos hbin]

/-- No result on the way to a bin leaves the words. -/
theorem sizeClass?_eq (size : Nat) : sizeClass? size = some (sizeClass size).val := by
  unfold sizeClass? sizeClass
  by_cases hsmall : size < fastLimit
  · rw [if_pos hsmall, dif_pos hsmall]
  · rw [if_neg hsmall, dif_neg hsmall]
    by_cases hlarge : size < rangeLimit
    · rw [if_pos hlarge, dif_pos hlarge]
      exact rangeBin?_eq (Nat.le_of_not_lt hsmall) hlarge
    · rw [if_neg hlarge, dif_neg hlarge]

theorem sizeClass_of_small (hmin : minChunk ≤ size) (hsmall : size < fastLimit) :
    (sizeClass size).val = size / granule := by
  rw [val_sizeClass, if_pos hsmall]
  apply Nat.max_eq_left
  simp only [minChunk] at *
  omega

theorem sizeClass_eq_iff_of_small (ha : a % granule = 0) (hb : b % granule = 0)
    (hmin : minChunk ≤ a) (hsmall : a < fastLimit) (hmin' : minChunk ≤ b)
    (hsmall' : b < fastLimit) : sizeClass a = sizeClass b ↔ a = b := by
  rw [Fin.ext_iff, sizeClass_of_small hmin hsmall, sizeClass_of_small hmin' hsmall']
  simp only [granule] at *
  omega

theorem sizeClass_lt_fastBins_iff : (sizeClass size).val < fastBins ↔ size < fastLimit := by
  rw [val_sizeClass]
  simp only [fastBins, fastLimit, granule]
  split
  · omega
  · split
    · omega
    · omega

theorem sizeClass_eq_last_iff : (sizeClass size).val = binCount - 1 ↔ rangeLimit ≤ size := by
  rw [val_sizeClass]
  simp only [binCount, rangeLimit]
  split
  · omega
  · split
    · omega
    · omega

/-- The remainder, then the clean chunks bin by bin. -/
def Lists.cleanChunks (L : Lists) : List Nat :=
  L .remainder ++ ListId.bins.flatMap fun bin => L (.clean bin)

/-- The chunk at `c` has at least `size` bytes. -/
def Region.reaches (r : Region) (size c : Nat) : Bool :=
  match r.tagAt c with
  | .ok t => size ≤ t.size
  | .error _ => false

theorem bins_eq_append (size : Nat) :
    ∃ lower, ListId.bins = lower ++ binsFrom size ∧
      ∀ bin ∈ lower, bin ≠ 0 ∧ bin < sizeClass size := by
  have hall : List.finRange binCount = 0 :: ListId.bins := rfl
  have hsorted := List.pairwise_lt_finRange binCount
  obtain ⟨k, hk⟩ := Nat.exists_eq_add_one_of_ne_zero (sizeClass_pos size).ne'
  have hfrom : binsFrom size = ListId.bins.drop k := by
    rw [binsFrom, hall, hk, List.drop_succ_cons]
  have hsplit : ListId.bins = ListId.bins.take k ++ binsFrom size := by
    rw [hfrom, List.take_append_drop]
  rw [hall, List.pairwise_cons] at hsorted
  obtain ⟨hpos, hsorted⟩ := hsorted
  rw [hsplit, List.pairwise_append] at hsorted
  refine ⟨_, hsplit, fun bin hbin => ?_⟩
  have hmem : sizeClass size ∈ binsFrom size := Shape.mem_binsFrom.2 (Nat.le_refl _)
  exact ⟨(hpos bin (List.mem_of_mem_take hbin)).ne', hsorted.2.2 bin hbin _ hmem⟩

namespace Shape

variable {A : Shape} {bin : Fin binCount} {c : Nat} {t : Tag} {l : ListId}

theorem Valid.mem_binsFrom (h : A.Valid) (hbin : bin ≠ 0) (hc : c ∈ A.lists (.clean bin))
    (ht : (c, t) ∈ A.chunks) (hsize : size ≤ t.size) : bin ∈ binsFrom size := by
  have hclass : sizeClass t.size = bin := h.binned hc hbin ht
  exact Shape.mem_binsFrom.2 (hclass ▸ sizeClass_mono hsize)

theorem Valid.size_of_small (h : A.Valid) (hbin : l.bin ≠ 0) (hsmall : l.bin.val < fastBins)
    (hc : c ∈ A.lists l) (ht : (c, t) ∈ A.chunks) : t.size = l.bin * granule := by
  have hclass := h.binned hc hbin ht
  rw [← hclass] at hsmall ⊢
  obtain ⟨hmin, hgrain⟩ := h.tiles.proper ht
  rw [sizeClass_of_small hmin (sizeClass_lt_fastBins_iff.1 hsmall)]
  exact (Nat.div_mul_cancel (Nat.dvd_of_mod_eq_zero hgrain)).symm

/-- Beginning with the bin of the wanted size makes no difference. -/
theorem Valid.findFitting_eq (h : A.Valid) (size : Nat) :
    A.findFitting size = A.lists.cleanChunks.find? fun c => size ≤ A.sizeAt c := by
  obtain ⟨lower, hbins, hlower⟩ := bins_eq_append size
  have hnone : lower.findSome? (fun bin => A.fittingIn (.clean bin) size) = none := by
    apply List.findSome?_eq_none_iff.2
    intro bin hbin
    obtain ⟨hne, hlt⟩ := hlower bin hbin
    apply List.find?_eq_none.2
    intro c hc hfits
    obtain ⟨t, ht, -⟩ := h.listed hc
    rw [h.sizeAt_eq ht, decide_eq_true_eq] at hfits
    exact Nat.not_le_of_lt hlt (Shape.mem_binsFrom.1 (h.mem_binsFrom hne hc ht hfits))
  rw [Lists.cleanChunks, List.find?_append, List.find?_flatMap, hbins, List.findSome?_append]
  unfold findFitting
  simp only [fittingIn] at hnone ⊢
  rw [hnone, Option.none_or]
  cases (A.lists .remainder).find? fun c => size ≤ A.sizeAt c with
  | none => rfl
  | some c => rfl

end Shape

namespace Store

variable {s : Store} {A : Shape} {c : Nat} {t : Tag}

/-- The lists are `L`, and the sizes of the chunks on them go with the bins. -/
structure Binned (s : Store) (L : Lists) : Prop where
  members : ∀ l, s.members l = .ok (L l)
  sized : ∀ l c, c ∈ L l → ∃ size, sizeOf c s = .ok size s ∧ (l.bin ≠ 0 → sizeClass size = l.bin)
  /-- A clean chunk that is large enough is in one of the bins that are scanned. -/
  scanned : ∀ bin c size request, bin ≠ 0 → c ∈ L (.clean bin) → sizeOf c s = .ok size s →
    request ≤ size → bin ∈ binsFrom request
  /-- The small sizes have a bin each. -/
  uniform : ∀ l c size, l.bin ≠ 0 → l.bin.val < fastBins → c ∈ L l → sizeOf c s = .ok size s →
    size = l.bin * granule
  /-- What is found is the first of all clean chunks that is large enough. -/
  firstFit : ∀ fuel request, s.region.len / minChunk < fuel →
    findFitting fuel request s = .ok (L.cleanChunks.find? (s.region.reaches request)) s

theorem sizeOf_eq (ht : s.region.tagAt c = .ok t) : sizeOf c s = .ok t.size s := by
  rw [sizeOf, bind_ok (reading_eq ht)]
  rfl

theorem Represents.sizeOf_eq (h : s.Represents A) (ht : (c, t) ∈ A.chunks) :
    sizeOf c s = .ok t.size s :=
  Store.sizeOf_eq (h.tagAt ht)

theorem Represents.exists_size (h : s.Represents A) {l : ListId} (hc : c ∈ A.lists l)
    (hsize : sizeOf c s = .ok size s) : ∃ t, (c, t) ∈ A.chunks ∧ t.size = size := by
  obtain ⟨t, ht, -⟩ := h.valid.listed hc
  cases (h.sizeOf_eq ht).symm.trans hsize
  exact ⟨t, ht, rfl⟩

theorem Represents.find?_cleanChunks (h : s.Represents A) (request : Nat) :
    A.lists.cleanChunks.find? (s.region.reaches request) = A.findFitting request := by
  rw [h.valid.findFitting_eq]
  apply List.find?_congr
  intro c hc
  have hlisted : A.Listed c := by
    rcases List.mem_append.1 hc with hc | hc
    · exact ⟨_, hc⟩
    · obtain ⟨bin, -, hc⟩ := List.mem_flatMap.1 hc
      exact ⟨_, hc⟩
  obtain ⟨t, ht, -⟩ := h.valid.isFree hlisted
  rw [Region.reaches, h.tagAt ht, h.valid.sizeAt_eq ht]

theorem Represents.binned (h : s.Represents A) : s.Binned A.lists where
  members := h.members
  sized l c hc := by
    obtain ⟨t, ht, -⟩ := h.valid.listed hc
    exact ⟨t.size, h.sizeOf_eq ht, fun hl => h.valid.binned hc hl ht⟩
  scanned bin c size request hbin hc hsize hle := by
    obtain ⟨t, ht, rfl⟩ := h.exists_size hc hsize
    exact h.valid.mem_binsFrom hbin hc ht hle
  uniform l c size hbin hsmall hc hsize := by
    obtain ⟨t, ht, rfl⟩ := h.exists_size hc hsize
    exact h.valid.size_of_small hbin hsmall hc ht
  firstFit fuel request hfuel := by
    rw [h.find?_cleanChunks]
    rw [h.len] at hfuel
    exact (Idle.findFitting fuel request).stays (Takes.findFitting h.valid hfuel request) h

end Store

namespace Heap

variable {h : Heap} {A : Shape} {s : Store}

/-- A search for `size` bytes that begins in `h` goes through the clean chunks of `s`, at first or
once more after a merge. -/
inductive Scans (h : Heap) (size : Nat) (s : Store) : Prop
  | atOnce (hpass : h.PassesCaches size s)
  | merged {s₀ : Store} {counts : Nat × Nat} (hpass : h.PassesCaches size s₀)
      (hmerge : Store.mergeAll h.fuel s₀ = .ok counts s)

theorem Intact.of_scans (hi : h.Intact A) (hscans : h.Scans size s) : ∃ B, s.Represents B := by
  cases hscans with
  | atOnce hpass => exact ⟨_, (hi.of_passesCaches hpass).2⟩
  | merged hpass hmerge =>
    have hfuel : A.flush.len / minChunk < h.fuel := by
      rw [Shape.len_flush]
      exact hi.fuel
    have hs₀ := (hi.of_passesCaches hpass).2
    exact ⟨_, ((Store.Takes.mergeAll hi.settled.flush hfuel).of_ok hs₀ hmerge).2⟩

end Heap

namespace World

/-- Larger sizes never have smaller bins, no bin but those of sizes is reached, and no number on the
way to a bin leaves the words. Small sizes have a bin each, and the last bin is that of the largest
sizes. So in a heap in use, and wherever a search goes through the clean chunks, every chunk that is
large enough is in a bin that is scanned. -/
theorem bins_support_first_fit :
    (∀ a b, a ≤ b → sizeClass a ≤ sizeClass b) ∧
      (∀ size, 1 ≤ (sizeClass size).val ∧ (sizeClass size).val ≤ binCount - 1) ∧
      (∀ size, sizeClass? size = some (sizeClass size).val) ∧
      (∀ a b, a % granule = 0 → b % granule = 0 → minChunk ≤ a → a < fastLimit → minChunk ≤ b →
        b < fastLimit → (sizeClass a = sizeClass b ↔ a = b)) ∧
      (∀ size, (sizeClass size).val = binCount - 1 ↔ rangeLimit ≤ size) ∧
      ∀ w : World, w.Reachable → (∃ L, w.heap.store.Binned L) ∧
        ∀ size s, w.heap.Scans size s → ∃ L, s.Binned L := by
  refine ⟨fun _ _ => sizeClass_mono, fun size => ⟨sizeClass_pos size, ?_⟩, sizeClass?_eq,
    fun _ _ => sizeClass_eq_iff_of_small, fun _ => sizeClass_eq_last_iff, fun w hw => ?_⟩
  · exact Nat.le_sub_one_of_lt (sizeClass size).isLt
  · obtain ⟨A, hA⟩ := hw.tracks
    refine ⟨⟨_, hA.intact.store.binned⟩, fun size s hscans => ?_⟩
    obtain ⟨B, hB⟩ := hA.intact.of_scans hscans
    exact ⟨_, hB.binned⟩

theorem reachable_spacious : spacious.Reachable := by
  unfold spacious
  split
  next h journal h₀ => exact .start h₀
  next => exact reachable_sample

/-- Two free chunks are merged, one of 32 bytes and behind it one of 96 bytes. A search for 48 bytes
passes over the first, whose bin is lower, and finds the second. -/
theorem merged_binned :
    let w := spacious.after [.allocate 16 .kernel, .allocate 32 .kernel, .allocate 16 .kernel,
      .release (some 0x1008), .release (some 0x1058), .merge]
    w.heap.view.lists (.clean 2) = [0] ∧ w.heap.view.findFitting 48 = some 80 ∧
      sizeClass 32 ≤ sizeClass 48 ∧ (sizeClass 32 = sizeClass 48 ↔ 32 = 48) ∧
      (∃ L, w.heap.store.Binned L) ∧ ∃ s, w.heap.Scans 48 s ∧ ∃ L, s.Binned L := by
  intro w
  have hw : w.Reachable := reachable_spacious.after _
  obtain ⟨hmono, -, -, hsmall, -, hbinned⟩ := bins_support_first_fit
  obtain ⟨hlow, hfind, hrecent, hdirty⟩ : w.heap.view.lists (.clean 2) = [0] ∧
      w.heap.view.findFitting 48 = some 80 ∧ w.heap.view.lists .recent = [] ∧
      w.heap.view.lists (.dirty (sizeClass 48)) = [] := by
    decide +kernel
  have hexact : w.heap.view.Exhausted 48 := by
    constructor
    · intro c rest hl
      rw [hrecent] at hl
      cases hl
    · intro d hd
      rw [hdirty] at hd
      cases hd
    · intro d hd
      rw [hrecent] at hd
      cases hd
  obtain ⟨A, hA⟩ := hw.tracks
  rw [hA.intact.view] at hexact
  obtain ⟨s, hpass, -⟩ := hA.intact.passesCaches hexact
  have hscans : w.heap.Scans 48 s := .atOnce hpass
  exact ⟨hlow, hfind, hmono 32 48 (by decide),
    hsmall 32 48 rfl rfl (by decide) (by decide) (by decide) (by decide), (hbinned w hw).1,
    s, hscans, (hbinned w hw).2 48 s hscans⟩

end World

end BoundaryHeap
