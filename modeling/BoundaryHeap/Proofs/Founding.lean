import BoundaryHeap.Memory.Inspect
import BoundaryHeap.Proofs.Walks
import BoundaryHeap.Proofs.Fresh

namespace BoundaryHeap

open Region (Changed)

namespace Region

variable {r slice inner : Region} {start len i : Nat} {bytes : ByteArray}

structure OnGrid (slice : Region) (start len : Nat) : Prop where
  start_le : slice.base ≤ start
  stop_le : start + len ≤ slice.stop
  start_mod : start % granule = 0
  len_mod : len % granule = 0

/-- `r` is the largest part of the slice on the grid. It is empty if no part is. -/
structure Trims (slice r : Region) : Prop where
  base_le : slice.base ≤ r.base
  stop_le : r.stop ≤ slice.stop
  bytes : ∀ i < r.len, r.byteAt i = slice.byteAt (r.base - slice.base + i)
  greatest : ∀ start len, slice.OnGrid start len →
    slice.OnGrid r.base r.len ∧ r.base ≤ start ∧ start + len ≤ r.stop
  empty : (∀ start len, ¬slice.OnGrid start len) → r.len = 0

theorem byteAt_eq_getD (r : Region) (i : Nat) : r.byteAt i = r.bytes.data[i]?.getD 0 := by
  unfold byteAt
  split
  next h =>
    have hdata : i < r.bytes.data.size := h
    rw [Array.getElem?_eq_getElem hdata, ByteArray.getElem_eq_getElem_data, Option.getD_some]
  next h =>
    have hdata : r.bytes.data.size ≤ i := Nat.le_of_not_lt h
    rw [Array.getElem?_eq_none hdata, Option.getD_none]

theorem byteAt_trim (hi : i < (trim start bytes).len) :
    (trim start bytes).byteAt i = byteAt ⟨start, bytes⟩ ((trim start bytes).base - start + i) := by
  have hdata : i < (trim start bytes).bytes.data.size := hi
  have hlead : (trim start bytes).base - start = min (roundUp start - start) bytes.size :=
    Nat.add_sub_cancel_left ..
  rw [byteAt_eq_getD, byteAt_eq_getD, hlead]
  simp only [trim, ByteArray.data_extract, Array.size_extract] at hdata ⊢
  rw [Array.getElem?_extract, if_pos (by omega)]

theorem len_overlay (hspan : inner.base - r.base + inner.len ≤ r.len) :
    (r.overlay inner).len = r.len := by
  have hr : r.bytes.data.size = r.len := rfl
  have hinner : inner.bytes.data.size = inner.len := rfl
  show (r.overlay inner).bytes.data.size = r.len
  simp only [overlay, ByteArray.copySlice, Array.size_append, Array.size_extract, hr, hinner]
  omega

theorem byteAt_overlay (hspan : inner.base - r.base + inner.len ≤ r.len) (i : Nat) :
    (r.overlay inner).byteAt i =
      if inner.base - r.base ≤ i ∧ i < inner.base - r.base + inner.len then
        inner.byteAt (i - (inner.base - r.base))
      else r.byteAt i := by
  have hr : r.bytes.data.size = r.len := rfl
  have hinner : inner.bytes.data.size = inner.len := rfl
  simp only [byteAt_eq_getD, overlay, ByteArray.copySlice, Array.getElem?_append, Array.size_append,
    Array.size_extract, Array.getElem?_extract, hr, hinner]
  generalize inner.base - r.base = lead at hspan ⊢
  have hlead : min lead r.len = lead := by omega
  simp only [hlead, Nat.sub_zero, Nat.zero_add, Nat.min_self]
  by_cases hlo : i < lead
  · rw [if_pos (by omega), if_pos hlo, if_pos hlo, if_neg (by omega)]
  · by_cases hhi : i < lead + inner.len
    · rw [if_pos hhi, if_neg hlo, if_pos (by omega), if_pos (by omega)]
    · have hsum : lead + inner.len + (i - (lead + inner.len)) = i := by omega
      have hout : ¬(lead ≤ i ∧ i < lead + inner.len) := fun hin => hhi hin.2
      rw [if_neg hhi, hsum, if_neg hout]
      split
      next => rfl
      next hout => rw [Array.getElem?_eq_none (by omega)]

theorem overlay_part (r : Region) (offset len : Nat) : r.overlay (r.part offset len) = r := by
  have hlead : r.base + offset - r.base = offset := Nat.add_sub_cancel_left ..
  have hdata : (r.overlay (r.part offset len)).bytes.data = r.bytes.data := by
    simp only [overlay, part, hlead, Region.len, ByteArray.copySlice, ByteArray.data_extract,
      ByteArray.size_extract, ByteArray.size_data, Array.size_extract, Array.extract_extract,
      Array.extract_append_extract, Nat.zero_add, Nat.add_zero, Nat.sub_zero, Nat.min_self]
    -- The first two pieces end where the third begins.
    have hstop : max offset (min (offset + (min (offset + len) r.bytes.size - offset))
        (offset + len)) = offset + (min (offset + len) r.bytes.size - offset) := by omega
    rw [hstop, Array.extract_append_extract]
    exact Array.extract_eq_self_of_le (by simp)
  exact congrArg (Region.mk r.base) (ByteArray.ext hdata)

/-- What changes in a part of a slice changes at the same address in the slice. -/
theorem Changed.overlay {S : Set Nat} {r' : Region} (h : Changed S r r')
    (hspan : r.base - slice.base + r.len ≤ slice.len)
    (hbytes : ∀ i < r.len, r.byteAt i = slice.byteAt (r.base - slice.base + i)) :
    Changed {i | ∃ j ∈ S, i = r.base - slice.base + j} slice (slice.overlay r') := by
  have hspan' : r'.base - slice.base + r'.len ≤ slice.len := by
    rw [h.base, h.len]
    exact hspan
  refine ⟨rfl, len_overlay hspan', fun i hi => ?_⟩
  rw [byteAt_overlay hspan', h.base, h.len]
  split
  next hin =>
    have hsum : r.base - slice.base + (i - (r.base - slice.base)) = i := by omega
    have hout : i - (r.base - slice.base) ∉ S := fun hS => hi ⟨_, hS, hsum.symm⟩
    rw [h.same _ hout, hbytes _ (by omega), hsum]
  next => rfl

theorem roundUp_le {m n : Nat} (h : m ≤ n) (hn : n % granule = 0) : roundUp m ≤ n := by
  simp only [roundUp, granule] at hn ⊢
  omega

theorem lead_le (start : Nat) (bytes : ByteArray) :
    (trim start bytes).base - start + (trim start bytes).len ≤ bytes.size := by
  rw [base_trim, len_trim]
  simp only [granule]
  omega

theorem onGrid_trim (slice : Region) (h : roundUp slice.base ≤ slice.stop) :
    slice.OnGrid (trim slice.base slice.bytes).base (trim slice.base slice.bytes).len := by
  have hsize : slice.bytes.size = slice.len := rfl
  have hlead := lead_le slice.base slice.bytes
  refine ⟨Nat.le_add_right .., ?_, ?_, ?_⟩
  · rw [stop]
    omega
  · simp only [base_trim, stop, hsize, granule, roundUp] at h ⊢
    omega
  · rw [len_trim]
    exact Nat.mul_mod_left ..

theorem trim_trims (slice : Region) : slice.Trims (trim slice.base slice.bytes) := by
  have hsize : slice.bytes.size = slice.len := rfl
  have hlead := lead_le slice.base slice.bytes
  refine ⟨Nat.le_add_right .., ?_, fun i hi => byteAt_trim hi, fun start len h => ?_, fun h => ?_⟩
  · have hbase := base_trim slice.base slice.bytes
    rw [stop, stop]
    omega
  · obtain ⟨hstart, hstop, hmod, hgrain⟩ := h
    have hround := roundUp_le hstart hmod
    refine ⟨onGrid_trim slice (hround.trans ((Nat.le_add_right ..).trans hstop)), ?_, ?_⟩
    · rw [base_trim]
      omega
    · simp only [stop, base_trim, len_trim, hsize, granule, roundUp] at hstop hmod hgrain hround ⊢
      omega
  · by_contra hne
    refine h _ _ (onGrid_trim slice ?_)
    rw [len_trim, hsize] at hne
    rw [stop]
    simp only [granule] at hne
    omega

end Region

theorem fields_shift {t : Tag} (hsize : minChunk ≤ t.size) (lead : Nat) :
    {i | ∃ j ∈ fields [(0, t)], i = lead + j} ⊆ fields [(lead, t)] := by
  rintro i ⟨j, ⟨c, u, hc, hj⟩, rfl⟩
  cases List.mem_singleton.1 hc
  refine ⟨lead, t, List.mem_singleton.2 rfl, ?_⟩
  simp only [minChunk] at hsize
  rcases hj with (hj | hj) | ⟨hfree, d, rfl, hlo, hhi⟩
  · rw [Set.mem_Ico] at hj
    exact .inl (.inl (Set.mem_Ico.2 ⟨by omega, by omega⟩))
  · rw [Set.mem_Ico] at hj
    exact .inl (.inr (Set.mem_Ico.2 ⟨by omega, by omega⟩))
  · exact .inr ⟨hfree, lead, rfl, by omega, by omega⟩

/-- The lists of a fresh heap: its one chunk is on the clean list of its bin. -/
def Lists.sole (len : Nat) : Lists :=
  fun l => if l = .clean (sizeClass len) then [0] else []

theorem Shape.lists_fresh {len : Nat} (hmin : minChunk ≤ len) (hgrain : len % granule = 0) :
    (fresh len).lists = .sole len := by
  have hsize : (whole len).sizeAt 0 = len :=
    (tiles_whole hmin hgrain).sizeIn (List.mem_singleton.2 rfl)
  funext l
  rw [Lists.sole]
  split
  next hl =>
    subst hl
    rw [fresh, file, hsize]
    exact Lists.filed_same (f := .clean)
  next hl =>
    rw [fresh, file, hsize]
    exact Lists.filed_ne hl

namespace Heap

/-- `h` is a fresh heap of all of `r`, and `after` is the slice once the heap is made. -/
structure Occupies (h : Heap) (r slice after : Region) : Prop where
  base : h.base = r.base
  len : h.len = r.len
  bytes : ∀ i < r.len, h.region.byteAt i = after.byteAt (r.base - slice.base + i)
  walk : h.region.walk = ([(0, .unowned r.len)], none)
  lists : h.store.Linked (.sole r.len)
  members : ∀ l, h.store.members l = .ok (Lists.sole r.len l)
  unmarked : ∀ g, h.live.isMarked g = false
  markable : ∀ g, g * granule < r.len → ∀ (m : LiveMap) (other : Nat),
    (m.mark g).isMarked other = (decide (other = g) || m.isMarked other)
  addressable : ∀ c < r.len, c < Referrer.headFlag
  written : Changed (fields [(r.base - slice.base, .unowned r.len)]) slice after

variable {slice : Region}

theorem occupy_run (hmin : minChunk ≤ (Region.trim slice.base slice.bytes).len)
    (hmax : (Region.trim slice.base slice.bytes).len ≤ maxRegion) :
    ∃ h, (occupy slice).result = .ok h ∧
      h.Occupies (Region.trim slice.base slice.bytes) slice (occupy slice).after := by
  obtain ⟨-, hgrain⟩ := Region.trim_aligned hmin
  have hlead := Region.lead_le slice.base slice.bytes
  have htrims := Region.trim_trims slice
  obtain ⟨store, ho, hs, hr⟩ := occupy_fits hmin hmax
  have hlists := Shape.lists_fresh hmin hgrain
  rw [ho]
  generalize Region.trim slice.base slice.bytes = r at *
  have hspan : store.region.base - slice.base + store.region.len ≤ slice.len := by
    rw [hr.base, hr.len]
    exact hlead
  refine ⟨_, rfl, hr.base, hr.len, fun i hi => ?_, hs.walk, ?_, fun l => ?_, LiveMap.isMarked_empty,
    fun g hg m other => LiveMap.isMarked_mark m ?_ other, fun c hc => ?_, ?_⟩
  · rw [Region.byteAt_overlay hspan, hr.base, hr.len, if_pos ⟨Nat.le_add_right .., by omega⟩,
      Nat.add_sub_cancel_left]
    rfl
  · rw [← hlists]
    exact hs.linked
  · rw [← hlists]
    exact hs.members l
  · simp only [maxRegion, markBytes, granule, markWords] at hmax hg ⊢
    omega
  · simp only [maxRegion, markBytes, granule, Referrer.headFlag] at hmax ⊢
    omega
  · exact (hr.overlay hlead htrims.bytes).mono (fields_shift hmin _)

/-- Any slice of memory is taken over where the largest part of it on the grid is neither too small
nor too large. The heap is one clean chunk that fills this part, and nothing but the fields of the
chunk is stored. Any other slice is refused and stays as it is. -/
theorem slice_taken_over (slice : Region) :
    takeOver slice.base slice.bytes =
        (occupy slice).result.map (fun h => (h, (occupy slice).journal)) ∧
      ∃ r, slice.Trims r ∧
        ((∃ h, (occupy slice).result = .ok h) ↔ minChunk ≤ r.len ∧ r.len ≤ maxRegion) ∧
        (∀ h, (occupy slice).result = .ok h → h.Occupies r slice (occupy slice).after) ∧
        ∀ f, (occupy slice).result = .error f →
          f = .error (if r.len < minChunk then .regionTooSmall slice.len
            else .regionTooLarge r.len maxRegion) ∧
          (occupy slice).after = slice := by
  refine ⟨rfl, _, Region.trim_trims slice, occupy_ok_iff slice, fun h hok => ?_, fun f hf => ?_⟩
  · obtain ⟨hmin, hmax⟩ := (occupy_ok_iff slice).1 ⟨h, hok⟩
    obtain ⟨h', hok', hoccupies⟩ := occupy_run hmin hmax
    obtain rfl := Except.ok.inj (hok.symm.trans hok')
    exact hoccupies
  · obtain ⟨herror, hafter, -⟩ := occupy_error hf
    exact ⟨herror, hafter⟩

end Heap

end BoundaryHeap
