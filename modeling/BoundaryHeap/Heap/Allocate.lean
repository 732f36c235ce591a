import BoundaryHeap.Heap.Basic
import BoundaryHeap.Store.Merge
import BoundaryHeap.Store.Search

namespace BoundaryHeap.Heap

open Store (takeRecentHead takeDirty takeRecent takeFitting cutDown)

/-- Merges all free space with the given fuel for each walk. -/
def mergeWithin (fuel : Nat) : HeapM Unit := do
  let (flushed, processed) ← Store.mergeAll fuel
  note (.merged flushed processed)

def merge : HeapM Unit := do
  let fuel ← observe fun h => .ok h.fuel
  mergeWithin fuel

/-- Takes a fitting clean chunk, does `found`, and cuts the chunk down. -/
def cutFitting (fuel size : Nat) (found : HeapM Unit) : HeapM (Option Nat) := do
  match ← takeFitting fuel size with
  | none => return none
  | some c =>
    found
    let last ← observe fun h => .ok h.lastSize
    cutDown fuel last c size
    return some c

/-- Finds a free chunk for a chunk size and takes it off its list. -/
def search (fuel size : Nat) : HeapM (Option Nat) := do
  match ← takeRecentHead size with
  | some c =>
    note (.servedByRecentHead size)
    return some c
  | none =>
  match ← takeDirty fuel size with
  | some c =>
    note (.servedByDirtyBin size (sizeClass size))
    return some c
  | none =>
  match ← takeRecent size fuel fuel with
  | some c =>
    note (.servedByRecent size)
    return some c
  | none =>
  match ← cutFitting fuel size (pure ()) with
  | some c => return some c
  | none =>
    mergeWithin fuel
    cutFitting fuel size (note (.servedAfterMerge size))

/-- Counts and notes a request that no chunk can serve. -/
def refuse (request : Nat) : HeapM α := do
  adjust fun h => { h with counters := h.counters.refuse }
  let (inUse, len) ← observe fun h => .ok (h.counters.inUse, h.len)
  note (.outOfMemory request inUse len)
  throw (.error (.outOfMemory request))

def remark (c : Nat) (change : LiveMap → Nat → Option LiveMap) : HeapM Unit := do
  let live ← observe fun h => (LiveMap.wordFault (c / granule)).orElse (change h.live (c / granule))
  adjust fun h => { h with live := live }

/-- Hands out the free chunk `c`, which is on no list: its payload is zeroed and its address
returned. -/
def handOut (c size : Nat) (owner : Owner) : HeapM Nat := do
  let granted ← Store.sizeOf c
  Store.stamp c (.live granted owner)
  Store.zero (c + tagBytes) (granted - overhead)
  remark c LiveMap.mark?
  let inUse ← observe fun h => .ok h.counters.inUse
  check (inUse + granted < addressLimit) (.abort .overflow)
  adjust fun h => { h with counters := h.counters.grant granted, lastSize := size }
  let payload := c + tagBytes
  let (base, len) ← observe fun h => .ok (h.base, h.len)
  check (payload < len) (.abort (.pointer payload))
  return base + payload

/-- Serves a request of `request` bytes for `owner` with the given fuel for each walk and returns
the address of the payload. -/
def allocateWithin (fuel request : Nat) (owner : Owner) : HeapM Nat := do
  let len ← observe fun h => .ok h.len
  match chunkSize? request with
  | none => refuse request
  | some size =>
    if len < size then
      refuse request
    else
      match ← search fuel size with
      | none => refuse request
      | some c => handOut c size owner

def allocate (request : Nat) (owner : Owner) : HeapM Nat := do
  let fuel ← observe fun h => .ok h.fuel
  allocateWithin fuel request owner

/-- The live chunk whose payload begins at `addr`, with its tag. -/
def liveChunk (h : Heap) (addr : Nat) : Except Fault (Nat × Tag) := do
  let invalid (reason : PointerFault) : Fault := .error (.invalidFree addr reason)
  Fault.require (addr % alignment = 0) (invalid .misaligned)
  let payload ← (invalid .outOfRegion).orElse
    ((h.region.offsetOf? addr).filter fun offset => tagBytes ≤ offset)
  let c := payload - tagBytes
  Fault.require (c % granule = 0) (invalid .misaligned)
  let marked ← (LiveMap.wordFault (c / granule)).orElse (h.live.isMarked? (c / granule))
  Fault.require marked (invalid .notAllocated)
  let t ← h.region.tagAt c
  Fault.require (t.free = false) (.corrupt c .freeChunkLive)
  return (c, t)

def usableSize (h : Heap) (addr : Nat) : Except Fault Nat := do
  return (← h.liveChunk addr).2.size - overhead

/-- Takes a chunk back and makes it the latest recent chunk, which needs no walk. The null pointer
is ignored. -/
def release (addr : Option Nat) : HeapM Unit := do
  match addr with
  | none => pure ()
  | some addr =>
    let (c, t) ← observe fun h => h.liveChunk addr
    Store.stamp c { t with free := true }
    Store.clearLinks c
    remark c LiveMap.unmark?
    Store.file 0 c t.size .recent
    let inUse ← observe fun h => .ok h.counters.inUse
    check (t.size ≤ inUse) (.abort .underflow)
    adjust fun h => { h with counters := h.counters.giveBack t.size }

end BoundaryHeap.Heap
