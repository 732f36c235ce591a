import BoundaryHeap.BoundaryTag
import BoundaryHeap.FreeList
import BoundaryHeap.Memory.Region

namespace BoundaryHeap

namespace Region

variable (r : Region)

/-- Where the link to the next chunk of the list is kept. -/
def nextField (c : Nat) : Nat := c + tagBytes

/-- Where the field that refers to the chunk is named. -/
def referrerField (c : Nat) : Nat := c + tagBytes + 4

/-- The header of the chunk at `c`, once its footer has been seen to agree with it. -/
def tagAt (c : Nat) : Except Fault Tag := do
  Fault.require (c % granule = 0 ∧ c + minChunk ≤ r.len) (.corrupt c .offGrid)
  let header ← (Fault.corrupt c .badHeader).orElse (Tag.decode (← r.read64 c))
  Fault.require
    (minChunk ≤ header.size ∧ header.size % granule = 0 ∧ c + header.size ≤ r.len)
    (.corrupt c .headerSize)
  let footer ← (Fault.corrupt c .badFooter).orElse
    (Tag.decode (← r.read64 (c + header.size - tagBytes)))
  Fault.require (header.sameExtent footer) (.corrupt c .tagMismatch)
  return header

def nextOf (c : Nat) : Except Fault (Option Nat) := do
  return linkOfWord (← r.read32 (nextField c))

/-- The word that names the field referring to `c`. -/
def referrerWord (c : Nat) : Except Fault UInt32 :=
  r.read32 (referrerField c)

/-- The field that refers to `c`, if its word names one. -/
def referrerOf (c : Nat) : Except Fault (Option Referrer) := do
  return Referrer.decode (← r.referrerWord c)

/-- The chunk behind the `size` bytes of `c`, unless the region ends there. -/
def above (c size : Nat) : Option Nat :=
  if c + size < r.len then some (c + size) else none

/-- The chunk in front of `c`, found by its footer, unless the region begins at `c`. -/
def below (c : Nat) : Except Fault (Option Nat) := do
  if c = 0 then
    return none
  else
    let foot := c - tagBytes
    let footer ← (Fault.corrupt foot .badFooterBelow).orElse (Tag.decode (← r.read64 foot))
    Fault.require (minChunk ≤ footer.size ∧ footer.size ≤ c) (.corrupt foot .footerSize)
    let pred := c - footer.size
    let header ← r.tagAt pred
    Fault.require (header.size = footer.size) (.corrupt pred .notAdjacent)
    return some pred

def hasSize (c size : Nat) : Bool :=
  match r.tagAt c with
  | .ok t => t.size == size
  | .error _ => false

/-- The chunks from `offset` on with their tags, and the fault at which the walk stops early. -/
def walkFrom : Nat → Nat → List (Nat × Tag) × Option Fault
  | 0, _ => ([], some .endless)
  | fuel + 1, offset =>
    if offset < r.len then
      match r.tagAt offset with
      | .ok t =>
        let rest := walkFrom fuel (offset + t.size)
        ((offset, t) :: rest.1, rest.2)
      | .error f => ([], some f)
    else ([], none)

/-- The chunks of the region in address order. -/
def walk : List (Nat × Tag) × Option Fault :=
  r.walkFrom (r.len / minChunk + 1) 0

/-- The chunks of a list from `c` on. At most `budget` of them are visited. -/
def chain : Nat → Option Nat → Except Fault (List Nat)
  | _, none => .ok []
  | 0, some _ => .ok []
  | budget + 1, some c => do
    let next ← r.nextOf c
    return c :: (← chain budget next)

variable {r}

theorem read64_eq_ok_iff {offset : Nat} {w : UInt64} :
    r.read64 offset = .ok w ↔ r.Admits offset 8 ∧ UInt64.ofNat (r.natAt offset 8) = w := by
  unfold read64
  split <;> simp [*]

theorem tagAt_eq_ok_iff {c : Nat} {t : Tag} :
    r.tagAt c = .ok t ↔
      c % 16 = 0 ∧ 32 ≤ t.size ∧ t.size % 16 = 0 ∧ c + t.size ≤ r.len ∧
      Tag.decode (UInt64.ofNat (r.natAt c 8)) = some t ∧
      ∃ footer, Tag.decode (UInt64.ofNat (r.natAt (c + t.size - 8) 8)) = some footer ∧
        t.sameExtent footer = true := by
  simp only [tagAt, Fault.bind_eq_ok_iff, Fault.require_eq_ok_iff, Fault.orElse_eq_ok_iff,
    read64_eq_ok_iff, granule, minChunk, tagBytes]
  constructor
  · rintro ⟨-, hgrid, _, ⟨-, rfl⟩, header, hd, -, ⟨hmin, hgrain, hend⟩, _, ⟨-, rfl⟩, footer, hf, -,
      hsame, heq⟩
    obtain rfl := Except.ok.inj heq
    exact ⟨hgrid.1, hmin, hgrain, hend, hd, footer, hf, hsame⟩
  · rintro ⟨hgrid, hmin, hgrain, hend, hd, footer, hf, hsame⟩
    have hhead : r.Admits c 8 := ⟨by omega, show c + 8 ≤ r.len by omega⟩
    have hfoot : r.Admits (c + t.size - 8) 8 :=
      ⟨by omega, show c + t.size - 8 + 8 ≤ r.len by omega⟩
    exact ⟨(), ⟨hgrid, by omega⟩, _, ⟨hhead, rfl⟩, t, hd, (), ⟨hmin, hgrain, hend⟩, _,
      ⟨hfoot, rfl⟩, footer, hf, (), hsame, rfl⟩

/-- A chunk is found in front of `c` exactly if one can be read that ends there. -/
theorem below_eq_some_iff {c p : Nat} :
    r.below c = .ok (some p) ↔ ∃ t, r.tagAt p = .ok t ∧ p + t.size = c := by
  rw [below]
  constructor
  · intro hp
    split at hp
    · cases hp
    · simp only [Fault.bind_eq_ok_iff, Fault.require_eq_ok_iff] at hp
      obtain ⟨_, -, footer, -, -, ⟨-, hle⟩, header, hheader, -, hsize, he⟩ := hp
      obtain rfl := Option.some.inj (Except.ok.inj he)
      exact ⟨header, hheader, by omega⟩
  · rintro ⟨t, htag, rfl⟩
    obtain ⟨hgrid, hmin, hgrain, hend, -, footer, hfooter, hsame⟩ := tagAt_eq_ok_iff.1 htag
    simp only [Tag.sameExtent, Bool.and_eq_true, beq_iff_eq] at hsame
    have hfoot : r.Admits (p + t.size - 8) 8 :=
      ⟨by omega, show p + t.size - 8 + 8 ≤ r.len by omega⟩
    have hstart : p + t.size - footer.size = p := by omega
    rw [if_neg (by omega)]
    simp only [Fault.bind_eq_ok_iff, Fault.require_eq_ok_iff, Fault.orElse_eq_ok_iff,
      read64_eq_ok_iff, minChunk, tagBytes]
    refine ⟨_, ⟨hfoot, rfl⟩, footer, hfooter, (), by omega, t, ?_, (), hsame.1, ?_⟩
    · rw [hstart]
      exact htag
    · rw [hstart]
      rfl

end Region

end BoundaryHeap
