import BoundaryHeap.Memory.Region

namespace BoundaryHeap.Region

/-- The place of `count` bytes at a signed offset, if they all lie inside the region. -/
def locate? (r : Region) (offset : Int) (count : Nat) : Option Nat :=
  if 0 ≤ offset ∧ r.Spans offset.toNat count then some offset.toNat else none

def isZero (r : Region) (offset : Nat) : Nat → Bool
  | 0 => true
  | count + 1 => r.byteAt offset == 0 && r.isZero (offset + 1) count

def digestByte (hash : UInt64) (b : UInt8) : UInt64 :=
  (hash ^^^ b.toUInt64) * 0x100000001b3

def digestFrom (r : Region) (hash : UInt64) (offset : Nat) : Nat → UInt64
  | 0 => hash
  | count + 1 => r.digestFrom (digestByte hash (r.byteAt offset)) (offset + 1) count

/-- The FNV-1a digest of the `count` bytes from `offset` on. -/
def digest (r : Region) (offset count : Nat) : UInt64 :=
  r.digestFrom 0xcbf29ce484222325 offset count

/-- The `len` bytes from `offset` on, as far as the region has them. -/
def part (r : Region) (offset len : Nat) : Region :=
  ⟨r.base + offset, r.bytes.extract offset (offset + len)⟩

/-- The region with the bytes of `inner` in their place. -/
def overlay (r inner : Region) : Region :=
  { r with bytes := inner.bytes.copySlice 0 r.bytes (inner.base - r.base) inner.len }

end BoundaryHeap.Region
