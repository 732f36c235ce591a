import BoundaryHeap.Heap.Walk

namespace BoundaryHeap.Heap

/-- What a walk over the chunks in address order adds up to. -/
structure ChunkSums where
  covered : Nat
  freeChunks : Nat
  liveChunks : Nat
  liveBytes : Nat
  deriving DecidableEq, Repr

/-- Counts one more chunk, whose mark must agree with its tag. -/
def auditChunk (h : Heap) (sums : ChunkSums) (chunk : Nat × Tag) : Except Fault ChunkSums := do
  let (c, t) := chunk
  Fault.require (c = sums.covered) (.corrupt sums.covered .walkGap)
  let covered ← Fault.sum sums.covered t.size
  let marked ← (LiveMap.wordFault (c / granule)).orElse (h.live.isMarked? (c / granule))
  if t.free then
    Fault.require (marked = false) (.corrupt c .freeMarkedLive)
    return { sums with covered, freeChunks := ← Fault.sum sums.freeChunks 1 }
  else
    Fault.require (marked = true) (.corrupt c .liveUnmarked)
    return { sums with
      covered
      liveChunks := ← Fault.sum sums.liveChunks 1
      liveBytes := ← Fault.sum sums.liveBytes t.size }

/-- The chunks cover the region and are marked exactly where they are live. -/
def auditChunks (h : Heap) : Except Fault ChunkSums := do
  let (chunks, damage) := h.region.walk
  let sums ← chunks.foldlM h.auditChunk ⟨0, 0, 0, 0⟩
  match damage with
  | some f => throw f
  | none =>
    Fault.require (sums.covered = h.len) (.corrupt sums.covered .uncovered)
    return sums

def isCleanBin (list : ListId) : Bool :=
  0 < list.bin.val && list.kind == .clean

/-- The field that refers to a chunk leads, from chunk to chunk, to the head of a clean list. -/
def leadsToClean (r : Region) : Nat → Option Referrer → Except Fault Bool
  | _, none => return false
  | _, some (.head list) => return isCleanBin list
  | 0, some (.next _) => return false
  | hops + 1, some (.next c) => do
    let f ← r.referrerOf c
    leadsToClean r hops f

/-- The clean chunk `c` has no clean chunk behind it. -/
def auditMaximal (h : Heap) (c size : Nat) : Except Fault Unit := do
  match h.region.above c size with
  | none => return ()
  | some succ =>
    let t ← h.region.tagAt succ
    if t.free then
      let f ← h.region.referrerOf succ
      let clean ← leadsToClean h.region (h.len / minChunk) f
      Fault.require (clean = false) (.corrupt c .adjacentClean)
    else
      return ()

/-- The chunk `c` may stand on `list` behind `last`, and `expected` refers to it. -/
def auditMember (h : Heap) (list : ListId) (expected : Referrer) (last : Option Nat) (c : Nat) :
    Except Fault Unit := do
  let t ← h.region.tagAt c
  Fault.require (t.free = true) (.corrupt c .allocatedOnList)
  let f ← h.region.referrerOf c
  Fault.require (f = some expected) (.corrupt c .staleReferrer)
  Fault.require (list.bin.val = 0 ∨ sizeClass t.size = list.bin) (.corrupt c .wrongBin)
  Fault.require (list = .recent ∨ last.all (· < c) = true) (.corrupt c .listOrder)
  if isCleanBin list then h.auditMaximal c t.size else return ()

/-- The chunks of `list` from `cur` on are in order. At most `budget` chunks are accepted; their
number is returned. -/
def auditList (h : Heap) (list : ListId) :
    Nat → Referrer → Option Nat → Option Nat → Except Fault Nat
  | _, _, _, none => return 0
  | 0, _, _, some c => throw (.corrupt c .listCycle)
  | budget + 1, expected, last, some c => do
    h.auditMember list expected last c
    let next ← h.region.nextOf c
    return (← auditList h list budget (.next c) (some c) next) + 1

structure ListSums where
  chunks : Nat
  remainders : Nat
  deriving DecidableEq, Repr

def auditNext (h : Heap) (sums : ListSums) (list : ListId) : Except Fault ListSums := do
  let count ← h.auditList list (h.len / minChunk - sums.chunks) (.head list) none
    (h.store.heads.get list)
  return {
    chunks := sums.chunks + count
    remainders := if list = .remainder then sums.remainders + count else sums.remainders }

def auditLists (h : Heap) : Except Fault ListSums :=
  ListId.all.foldlM h.auditNext ⟨0, 0⟩

def audit (h : Heap) : Except Fault Unit := do
  let chunks ← h.auditChunks
  let lists ← h.auditLists
  Fault.require (lists.chunks = chunks.freeChunks) (.corrupt 0 .missingFromLists)
  Fault.require (lists.remainders ≤ 1) (.corrupt 0 .severalRemainders)
  let marked ← (LiveMap.countFault (h.len / granule)).orElse
    (h.live.countMarked? (h.len / granule))
  Fault.require (marked = chunks.liveChunks) (.corrupt 0 .markCount)
  let stats ← h.snapshot
  Fault.require (stats.inUse = chunks.liveBytes) (.corrupt 0 .usageDrift)

end BoundaryHeap.Heap
