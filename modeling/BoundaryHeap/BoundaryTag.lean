import BoundaryHeap.Layout

namespace BoundaryHeap

/-- The task that a chunk was handed to. -/
structure Owner where
  id : UInt16
  deriving DecidableEq, Repr

namespace Owner

def kernel : Owner := ⟨0⟩

/-- Stands in the tags of a chunk that has had no owner yet. -/
def nobody : Owner := ⟨0xFFFF⟩

end Owner

/-- What the tags of a chunk say about it. -/
structure Tag where
  size : Nat
  free : Bool
  owner : Owner
  deriving DecidableEq, Repr

namespace Tag

def unowned (size : Nat) : Tag := ⟨size, true, .nobody⟩

def live (size : Nat) (owner : Owner) : Tag := ⟨size, false, owner⟩

@[simp] abbrev magic : Nat := 0x6B68

/-- The unit of the owner in a tag: its 32 low bits hold size and flag. -/
@[simp] abbrev ownerUnit : Nat := 0x100000000

@[simp] abbrev magicUnit : Nat := 0x1000000000000

/-- The tag as a word. Of the size, the bits that a tag has room for are kept. -/
def encode (t : Tag) : UInt64 :=
  UInt64.ofNat <|
    magic * magicUnit + t.owner.id.toNat * ownerUnit +
      t.size % ownerUnit / granule * granule + t.free.toNat

/-- Reads a word as a tag. A wrong magic number or a bit between size and flag is refused. -/
def decode (word : UInt64) : Option Tag :=
  let w := word.toNat
  if w / magicUnit = magic ∧ w % granule < 2 then
    some
      { size := w % ownerUnit / granule * granule
        free := w % granule = 1
        owner := ⟨UInt16.ofNat (w / ownerUnit)⟩ }
  else none

/-- Header and footer of a chunk agree on its extent and on whether it is free. -/
def sameExtent (a b : Tag) : Bool :=
  a.size == b.size && a.free == b.free

theorem toNat_encode (t : Tag) :
    t.encode.toNat =
      0x6B68000000000000 + t.owner.id.toNat * 0x100000000 + t.size % 0x100000000 / 16 * 16 +
        t.free.toNat := by
  have ownerBound := t.owner.id.toNat_lt
  have freeBound := t.free.toNat_le
  simp only [encode, magic, magicUnit, ownerUnit, granule, UInt64.toNat_ofNat']
  omega

theorem decode_eq_some_iff {word : UInt64} {t : Tag} :
    decode word = some t ↔
      word.toNat / 0x1000000000000 = 0x6B68 ∧ word.toNat % 16 < 2 ∧
      t = ⟨word.toNat % 0x100000000 / 16 * 16, word.toNat % 16 = 1,
        ⟨UInt16.ofNat (word.toNat / 0x100000000)⟩⟩ := by
  simp only [decode, magic, magicUnit, ownerUnit, granule]
  split
  next h =>
    constructor
    · intro ht
      exact ⟨h.1, h.2, (Option.some.inj ht).symm⟩
    · rintro ⟨-, -, rfl⟩
      rfl
  next h =>
    constructor
    · intro ht
      cases ht
    · rintro ⟨hm, hf, -⟩
      exact absurd ⟨hm, hf⟩ h

theorem decode_encode (t : Tag) :
    decode t.encode = some { t with size := t.size % 0x100000000 / 16 * 16 } := by
  have ownerBound := t.owner.id.toNat_lt
  have freeBound := t.free.toNat_le
  rw [decode_eq_some_iff, toNat_encode]
  refine ⟨by omega, by omega, ?_⟩
  obtain ⟨size, free, ⟨id⟩⟩ := t
  simp only at *
  congr 1
  · omega
  · cases free
    · exact (decide_eq_false (by simp only [Bool.toNat_false]; omega)).symm
    · exact (decide_eq_true (by simp only [Bool.toNat_true]; omega)).symm
  · congr 1
    apply UInt16.toNat_inj.1
    rw [UInt16.toNat_ofNat']
    omega

theorem encode_decode {word : UInt64} {t : Tag} (h : decode word = some t) : t.encode = word := by
  obtain ⟨hm, hf, rfl⟩ := decode_eq_some_iff.1 h
  apply UInt64.toNat_inj.1
  rw [toNat_encode]
  simp only [UInt16.toNat_ofNat']
  have : (decide (word.toNat % 16 = 1)).toNat = word.toNat % 16 := by
    by_cases h1 : word.toNat % 16 = 1
    · simp [h1]
    · simp [h1]; omega
  omega

end Tag

end BoundaryHeap
