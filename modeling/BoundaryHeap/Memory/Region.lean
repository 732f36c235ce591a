import BoundaryHeap.Fault
import BoundaryHeap.Layout

namespace BoundaryHeap

/-- Bytes in memory, the first of them at address `base`. -/
structure Region where
  base : Nat
  bytes : ByteArray

namespace Region

instance : DecidableEq Region := fun a b =>
  match decEq a.base b.base, ByteArray.decEq a.bytes b.bytes with
  | isTrue hbase, isTrue hbytes => isTrue (by cases a; cases b; simp_all)
  | isFalse hbase, _ => isFalse (fun h => hbase (congrArg base h))
  | _, isFalse hbytes => isFalse (fun h => hbytes (congrArg bytes h))

variable (r : Region)

def len : Nat := r.bytes.size

/-- The address behind the last byte. -/
def stop : Nat := r.base + r.len

/-- The byte at `offset`, zero outside the region. -/
def byteAt (offset : Nat) : UInt8 :=
  if h : offset < r.bytes.size then r.bytes[offset] else 0

/-- Stores one byte. Outside the region nothing changes. -/
def setByte (offset : Nat) (b : UInt8) : Region :=
  if h : offset < r.bytes.size then { r with bytes := r.bytes.set offset b h } else r

/-- The number that the `width` bytes from `offset` spell, low byte first. -/
def natAt (r : Region) (offset : Nat) : Nat → Nat
  | 0 => 0
  | width + 1 => (r.byteAt offset).toNat + 256 * r.natAt (offset + 1) width

/-- Stores the `width` low bytes of `value`, low byte first. -/
def putNat (r : Region) (offset : Nat) : Nat → Nat → Region
  | 0, _ => r
  | width + 1, value =>
    (r.setByte offset (UInt8.ofNat value)).putNat (offset + 1) width (value / 256)

def fill (r : Region) (offset : Nat) (b : UInt8) : Nat → Region
  | 0 => r
  | count + 1 => (r.setByte offset b).fill (offset + 1) b count

def slice (offset count : Nat) : List UInt8 :=
  (List.range count).map fun i => r.byteAt (offset + i)

/-- The `count` bytes from `offset` lie inside the region. -/
def Spans (offset count : Nat) : Prop :=
  offset + count ≤ r.len

instance (offset count : Nat) : Decidable (r.Spans offset count) :=
  inferInstanceAs (Decidable (_ ≤ _))

/-- A load or store of `width` bytes at `offset` is aligned and inside the region. -/
def Admits (offset width : Nat) : Prop :=
  offset % width = 0 ∧ r.Spans offset width

instance (offset width : Nat) : Decidable (r.Admits offset width) :=
  inferInstanceAs (Decidable (_ ∧ _))

def accessFault (offset width : Nat) : Fault :=
  .abort (.access width offset r.len)

def read32 (offset : Nat) : Except Fault UInt32 :=
  if r.Admits offset 4 then .ok (UInt32.ofNat (r.natAt offset 4))
  else .error (r.accessFault offset 4)

/-- The 64-bit word at `offset`. -/
def read64 (offset : Nat) : Except Fault UInt64 :=
  if r.Admits offset 8 then .ok (UInt64.ofNat (r.natAt offset 8))
  else .error (r.accessFault offset 8)

/-- The offset that belongs to an address inside the region. -/
def offsetOf? (addr : Nat) : Option Nat :=
  if r.base ≤ addr ∧ addr < r.stop then some (addr - r.base) else none

/-- The largest run of whole granules inside the bytes that start at address `start`. -/
def trim (start : Nat) (bytes : ByteArray) : Region :=
  let lead := min (roundUp start - start) bytes.size
  let len := (bytes.size - lead) / granule * granule
  { base := start + lead, bytes := bytes.extract lead (lead + len) }

variable {r}

private theorem size_set (bytes : ByteArray) (i : Nat) (b : UInt8) (h : i < bytes.size) :
    (bytes.set i b h).size = bytes.size := by
  rw [← ByteArray.size_data, ByteArray.data_set, Array.size_set, ByteArray.size_data]

@[simp] theorem len_setByte (offset : Nat) (b : UInt8) : (r.setByte offset b).len = r.len := by
  unfold setByte len
  split
  · exact size_set ..
  · rfl

@[simp] theorem base_setByte (offset : Nat) (b : UInt8) : (r.setByte offset b).base = r.base := by
  unfold setByte
  split <;> rfl

theorem byteAt_setByte_same {offset : Nat} (h : offset < r.len) (b : UInt8) :
    (r.setByte offset b).byteAt offset = b := by
  have hs : offset < r.bytes.size := h
  simp [setByte, byteAt, hs, size_set, ByteArray.getElem_eq_getElem_data]

theorem byteAt_setByte_ne {i offset : Nat} (h : i ≠ offset) (b : UInt8) :
    (r.setByte offset b).byteAt i = r.byteAt i := by
  unfold setByte
  split
  next hs =>
    simp only [byteAt, size_set, ByteArray.getElem_eq_getElem_data, ByteArray.data_set]
    split
    · rw [Array.getElem_set_ne _ _ h.symm]
    · rfl
  next => rfl

@[simp] theorem len_putNat (offset width value : Nat) :
    (r.putNat offset width value).len = r.len := by
  induction width generalizing r offset value with
  | zero => rfl
  | succ width ih => simp [putNat, ih]

@[simp] theorem base_putNat (offset width value : Nat) :
    (r.putNat offset width value).base = r.base := by
  induction width generalizing r offset value with
  | zero => rfl
  | succ width ih => simp [putNat, ih]

theorem byteAt_putNat_outside {i offset width : Nat} (value : Nat)
    (h : i < offset ∨ offset + width ≤ i) :
    (r.putNat offset width value).byteAt i = r.byteAt i := by
  induction width generalizing r offset value with
  | zero => rfl
  | succ width ih =>
    rw [putNat, ih _ (by omega), byteAt_setByte_ne (by omega)]

theorem natAt_congr {s : Region} {offset width : Nat}
    (h : ∀ i, offset ≤ i → i < offset + width → s.byteAt i = r.byteAt i) :
    s.natAt offset width = r.natAt offset width := by
  induction width generalizing offset with
  | zero => rfl
  | succ width ih =>
    rw [natAt, natAt, h offset (by omega) (by omega), ih]
    exact fun i hi hj => h i (by omega) (by omega)

theorem natAt_putNat_disjoint {offset width other count value : Nat}
    (h : offset + width ≤ other ∨ other + count ≤ offset) :
    (r.putNat offset width value).natAt other count = r.natAt other count :=
  natAt_congr fun _ _ _ => byteAt_putNat_outside value (by omega)

theorem natAt_putNat_same {offset width : Nat} (value : Nat) (h : r.Spans offset width) :
    (r.putNat offset width value).natAt offset width = value % Nat.pow 256 width := by
  induction width generalizing r offset value with
  | zero => simp [natAt, Nat.mod_one]
  | succ width ih =>
    have hlen : offset + (width + 1) ≤ r.len := h
    have first : ((r.setByte offset (UInt8.ofNat value)).putNat (offset + 1) width
        (value / 256)).byteAt offset = UInt8.ofNat value := by
      rw [byteAt_putNat_outside _ (by omega), byteAt_setByte_same (by omega)]
    have inside : (r.setByte offset (UInt8.ofNat value)).Spans (offset + 1) width := by
      simp only [Spans, len_setByte]
      omega
    have rest := ih (value / 256) inside
    rw [putNat, natAt, first, rest]
    have low : (UInt8.ofNat value).toNat = value % 256 := by simp
    have pow : Nat.pow 256 (width + 1) = 256 * Nat.pow 256 width := Nat.mul_comm ..
    rw [low, pow, Nat.mod_mul]

@[simp] theorem len_fill (offset : Nat) (b : UInt8) (count : Nat) :
    (r.fill offset b count).len = r.len := by
  induction count generalizing r offset with
  | zero => rfl
  | succ count ih => simp [fill, ih]

@[simp] theorem base_fill (offset : Nat) (b : UInt8) (count : Nat) :
    (r.fill offset b count).base = r.base := by
  induction count generalizing r offset with
  | zero => rfl
  | succ count ih => simp [fill, ih]

end Region

end BoundaryHeap
