import BoundaryHeap.Journal
import BoundaryHeap.LiveMap
import BoundaryHeap.Memory.Inspect
import BoundaryHeap.Store.Lists

namespace BoundaryHeap

/-- What a heap counts. -/
structure Counters where
  /-- Bytes of the live chunks, tags included. -/
  inUse : Nat
  /-- The largest `inUse` so far. -/
  highWater : Nat
  allocations : Nat
  frees : Nat
  /-- Requests that no chunk could serve. -/
  failed : Nat
  deriving DecidableEq, Repr

namespace Counters

def zero : Counters := ⟨0, 0, 0, 0, 0⟩

def grant (c : Counters) (size : Nat) : Counters :=
  { c with
    inUse := c.inUse + size
    highWater := max c.highWater (c.inUse + size)
    allocations := c.allocations + 1 }

def giveBack (c : Counters) (size : Nat) : Counters :=
  { c with inUse := c.inUse - size, frees := c.frees + 1 }

def refuse (c : Counters) : Counters :=
  { c with failed := c.failed + 1 }

end Counters

structure Heap where
  store : Store
  live : LiveMap
  /-- Chunk size of the last request that was served. -/
  lastSize : Nat
  counters : Counters
  deriving DecidableEq

structure Session where
  heap : Heap
  journal : List Record
  deriving DecidableEq

abbrev HeapM := EStateM Fault Session

namespace Heap

def region (h : Heap) : Region := h.store.region

def len (h : Heap) : Nat := h.region.len

def base (h : Heap) : Nat := h.region.base

/-- Fuel for the walks of one operation. No intact list has that many chunks. -/
def fuel (h : Heap) : Nat := h.len

/-- Does one piece of work on a heap. -/
def run (m : HeapM α) (h : Heap) : Outcome Heap α :=
  match m ⟨h, []⟩ with
  | .ok a s => ⟨.ok a, s.heap, s.journal⟩
  | .error f s => ⟨.error f, s.heap, s.journal⟩

def onStore (m : StoreM α) : HeapM α := fun s =>
  match s with
  | ⟨⟨store, live, lastSize, counters⟩, journal⟩ =>
    match m store with
    | .ok a store => .ok a ⟨⟨store, live, lastSize, counters⟩, journal⟩
    | .error f store => .error f ⟨⟨store, live, lastSize, counters⟩, journal⟩

instance : MonadLift StoreM HeapM := ⟨onStore⟩

def observe (f : Heap → Except Fault α) : HeapM α := fun s =>
  match f s.heap with
  | .ok a => .ok a s
  | .error e => .error e s

def check (p : Prop) [Decidable p] (f : Fault) : HeapM Unit := fun s =>
  if p then .ok () s else .error f s

def note (r : Record) : HeapM Unit := fun s =>
  .ok () { s with journal := s.journal ++ [r] }

def adjust (f : Heap → Heap) : HeapM Unit := fun s =>
  match s with
  | ⟨heap, journal⟩ => .ok () ⟨f heap, journal⟩

/-- Makes one free chunk of a region of `len` bytes and files it as clean. -/
def format (len : Nat) : StoreM Unit := do
  Store.layOut 0 len
  Store.file 1 0 len .clean

/-- Makes a heap of what lies on the grid in a slice of memory, with the slice as it is
afterwards. -/
def occupy (slice : Region) : Outcome Region Heap :=
  let region := Region.trim slice.base slice.bytes
  if region.len < minChunk then
    ⟨.error (.error (.regionTooSmall slice.len)), slice, []⟩
  else if maxRegion < region.len then
    ⟨.error (.error (.regionTooLarge region.len maxRegion)), slice, []⟩
  else
    match format region.len ⟨region, .empty⟩ with
    | .ok _ store => ⟨.ok ⟨store, .empty, 0, .zero⟩, slice.overlay store.region,
        [.regionTaken region.base region.stop region.len (sizeClass region.len)]⟩
    | .error f store => ⟨.error f, slice.overlay store.region, []⟩

/-- The heap that is made of the bytes that start at address `start`. -/
def takeOver (start : Nat) (bytes : ByteArray) : Except Fault (Heap × List Record) :=
  let o := occupy ⟨start, bytes⟩
  o.result.map fun h => (h, o.journal)

end Heap

end BoundaryHeap
