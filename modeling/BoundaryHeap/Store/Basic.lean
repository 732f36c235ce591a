import BoundaryHeap.Memory.Chunk

namespace BoundaryHeap

/-- The first chunk of every list. -/
structure Heads where
  chunks : Vector (Option Nat) (2 * binCount)
  deriving DecidableEq

namespace Heads

def empty : Heads := ⟨Vector.replicate _ none⟩

def get (h : Heads) (list : ListId) : Option Nat :=
  have inside := list.index_lt
  h.chunks[list.index]

def set (h : Heads) (list : ListId) (c : Option Nat) : Heads :=
  ⟨h.chunks.set list.index c list.index_lt⟩

@[simp] theorem get_empty (list : ListId) : empty.get list = none := by
  simp [get, empty]

theorem get_set (h : Heads) (list other : ListId) (c : Option Nat) :
    (h.set list c).get other = if other = list then c else h.get other := by
  have inj : list.index = other.index → other = list := fun he => by
    have := ListId.ofIndex?_index list
    rw [he, ListId.ofIndex?_index other] at this
    exact Option.some.inj this
  simp only [get, set, Vector.getElem_set]
  split
  · rw [if_pos (inj (by assumption))]
  · rw [if_neg (fun he => by simp_all)]

end Heads

/-- The managed bytes and the heads of the free lists. -/
structure Store where
  region : Region
  heads : Heads
  deriving DecidableEq

abbrev StoreM := EStateM Fault Store

namespace Store

def reading (f : Region → Except Fault α) : StoreM α := fun s =>
  match f s.region with
  | .ok a => .ok a s
  | .error e => .error e s

def check (p : Prop) [Decidable p] (f : Fault) : StoreM Unit := fun s =>
  if p then .ok () s else .error f s

def write32 (offset : Nat) (w : UInt32) : StoreM Unit := fun s =>
  if s.region.Admits offset 4 then
    .ok () { s with region := s.region.putNat offset 4 w.toNat }
  else .error (s.region.accessFault offset 4) s

def write64 (offset : Nat) (w : UInt64) : StoreM Unit := fun s =>
  if s.region.Admits offset 8 then
    .ok () { s with region := s.region.putNat offset 8 w.toNat }
  else .error (s.region.accessFault offset 8) s

def zero (offset count : Nat) : StoreM Unit := fun s =>
  if s.region.Spans offset count then
    .ok () { s with region := s.region.fill offset 0 count }
  else .error (.abort (.zeroing count offset)) s

def head (list : ListId) : StoreM (Option Nat) := fun s =>
  .ok (s.heads.get list) s

def setHead (list : ListId) (c : Option Nat) : StoreM Unit := fun s =>
  .ok () { s with heads := s.heads.set list c }

def sizeOf (c : Nat) : StoreM Nat := do
  return (← reading (·.tagAt c)).size

/-- Writes `t` to both ends of the chunk at `c`. -/
def stamp (c : Nat) (t : Tag) : StoreM Unit := do
  write64 c t.encode
  write64 (c + t.size - tagBytes) t.encode

def setNext (c : Nat) (next : Option Nat) : StoreM Unit :=
  write32 (Region.nextField c) (linkWord next)

def setReferrerWord (c : Nat) (w : UInt32) : StoreM Unit :=
  write32 (Region.referrerField c) w

/-- Makes `c` a chunk on no list. -/
def clearLinks (c : Nat) : StoreM Unit := do
  setNext c none
  setReferrerWord c nilWord

/-- Makes the `size` bytes from `offset` a free chunk on no list. -/
def layOut (offset size : Nat) : StoreM Unit := do
  check (offset % granule = 0 ∧ size % granule = 0) (.abort (.chunkUnaligned offset size))
  check (minChunk ≤ size) (.abort (.chunkTooSmall size))
  check (offset + size ≤ (← reading fun r => .ok r.len)) (.abort (.chunkPastEnd offset size))
  stamp offset (.unowned size)
  clearLinks offset

/-- Cuts the chunk at `c` behind its first `size` bytes and returns the chunk of the rest. Both
parts are free and on no list. -/
def cut (c size : Nat) : StoreM Nat := do
  let total ← sizeOf c
  check (size < total) (.abort (.cutTooLarge size total))
  check (size % granule = 0) (.abort (.cutUnaligned size))
  layOut c size
  layOut (c + size) (total - size)
  check (← reading fun r => .ok (r.hasSize c size)) (.abort .cutHead)
  check (← reading fun r => .ok (r.hasSize (c + size) (total - size))) (.abort .cutRest)
  return c + size

end Store

end BoundaryHeap
