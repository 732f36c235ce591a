import BoundaryHeap.Heap.Basic

namespace BoundaryHeap

/-- A snapshot of the use of a heap. -/
structure Stats where
  regionBytes : Nat
  inUse : Nat
  freeBytes : Nat
  highWater : Nat
  allocations : Nat
  frees : Nat
  failed : Nat
  freeChunks : Nat
  largestFree : Nat
  deriving DecidableEq, Repr

namespace Heap

/-- The chunks of the heap in address order, up to the first damage. -/
def chunks (h : Heap) : List (Nat × Tag) :=
  h.region.walk.1

def freeChunks (chunks : List (Nat × Tag)) : Nat :=
  chunks.countP (·.2.free)

def largestFree (chunks : List (Nat × Tag)) : Nat :=
  chunks.foldl (fun size c => if c.2.free then max size c.2.size else size) 0

def bytesOf (owner : Owner) (chunks : List (Nat × Tag)) : Nat :=
  chunks.foldl (fun bytes c => if !c.2.free && c.2.owner == owner then bytes + c.2.size else bytes) 0

def freeBytes (h : Heap) : Except Fault Nat :=
  if h.counters.inUse ≤ h.len then .ok (h.len - h.counters.inUse) else .error (.abort .underflow)

/-- The use of the heap, without a note of damage. -/
def snapshot (h : Heap) : Except Fault Stats := do
  let chunks := h.chunks
  return {
    regionBytes := h.len
    inUse := h.counters.inUse
    freeBytes := ← h.freeBytes
    highWater := h.counters.highWater
    allocations := h.counters.allocations
    frees := h.counters.frees
    failed := h.counters.failed
    freeChunks := freeChunks chunks
    largestFree := largestFree chunks }

/-- Notes where a walk over the chunks stops early. -/
def noteDamage : HeapM Unit := do
  match ← observe fun h => .ok h.region.walk.2 with
  | none => pure ()
  | some (.error e) => note (.walkStopped e)
  | some f => throw f

def stats : HeapM Stats := do
  noteDamage
  observe snapshot

def ownedBy (owner : Owner) : HeapM Nat := do
  noteDamage
  observe fun h => .ok (bytesOf owner h.chunks)

end Heap

end BoundaryHeap
