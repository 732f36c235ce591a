import BoundaryHeap.Fault

namespace BoundaryHeap

open Text (hex)

inductive Level where
  | error
  | warn
  | info
  | debug
  | trace
  deriving DecidableEq, Repr

def Level.label : Level → String
  | .error => "ERROR"
  | .warn => "WARN"
  | .info => "INFO"
  | .debug => "DEBUG"
  | .trace => "TRACE"

/-- One journal record, by what happened. -/
inductive Record where
  | regionTaken (start stop len bin : Nat)
  | outOfMemory (requested inUse len : Nat)
  | servedByRecentHead (size : Nat)
  | servedByDirtyBin (size bin : Nat)
  | servedByRecent (size : Nat)
  | servedAfterMerge (size : Nat)
  | merged (flushed processed : Nat)
  /-- A walk over the chunks ended at a damaged tag. -/
  | walkStopped (error : HeapError)
  | contended
  | faulted (error : HeapError)
  | ready (len : Nat)
  /-- A release through the layout adapter failed. -/
  | releaseFailed (error : HeapError)
  deriving DecidableEq, Repr

namespace Record

def level : Record → Level
  | walkStopped _ | faulted _ | releaseFailed _ => .error
  | outOfMemory _ _ _ | contended => .warn
  | ready _ => .info
  | regionTaken _ _ _ _ | merged _ _ => .debug
  | servedByRecentHead _ | servedByDirtyBin _ _ | servedByRecent _ | servedAfterMerge _ => .trace

/-- The wording of a record. Region lengths are given in whole kibibytes. -/
def text : Record → String
  | regionTaken start stop len bin =>
    let kib := len / 1024
    s!"[kheap] region {hex start} - {hex stop} ({kib}KB), first chunk in bin {bin}"
  | outOfMemory requested inUse len =>
    s!"[kheap] out of memory: {requested} bytes requested, {inUse} of {len} in use"
  | servedByRecentHead size => s!"[kheap] {size} bytes from recent head"
  | servedByDirtyBin size bin => s!"[kheap] {size} bytes from dirty bin {bin}"
  | servedByRecent size => s!"[kheap] {size} bytes from recent cache"
  | servedAfterMerge size => s!"[kheap] {size} bytes after coalescing"
  | merged flushed processed =>
    s!"[kheap] coalesce: {flushed} flushed from recent, {processed} dirty chunks processed"
  | walkStopped error => s!"[kheap] chunk walk stopped: {error.message}"
  | contended => "[kheap] lock contended in privileged context"
  | faulted error => s!"[kheap] {error.message}"
  | ready len =>
    let kib := len / 1024
    s!"[kheap] kernel heap ready: {kib}KB"
  | releaseFailed error => s!"[kheap] dealloc: {error.message}"

def line (r : Record) : String :=
  s!"{r.level.label} {r.text}"

end Record

/-- How a piece of work ended, what it left behind, and its journal. -/
structure Outcome (σ α : Type) where
  result : Except Fault α
  after : σ
  journal : List Record

end BoundaryHeap
