import BoundaryHeap.Store.Lists

namespace BoundaryHeap.Store

/-- Moves all recent chunks to the dirty lists of their bins and returns their number. -/
def flushRecent (walk : Nat) : Nat → StoreM Nat
  | 0 => throw .endless
  | fuel + 1 => do
    match ← takeFirst .recent with
    | none => return 0
    | some c =>
      file walk c (← sizeOf c) .dirty
      return (← flushRecent walk fuel) + 1

/-- Takes the free chunks in front of `start` off their lists. Returns where the run begins and
how many bytes it has when `size` bytes from `start` on belong to it. -/
def absorbBelow : Nat → Nat → Nat → StoreM (Nat × Nat)
  | 0, _, _ => throw .endless
  | fuel + 1, start, size => do
    match ← reading (·.below start) with
    | none => return (start, size)
    | some pred =>
      let t ← reading (·.tagAt pred)
      if t.free then
        detach pred
        absorbBelow fuel pred (size + t.size)
      else
        return (start, size)

/-- Takes the free chunks behind the `size` bytes from `start` on off their lists and returns the
size of the run. -/
def absorbAbove : Nat → Nat → Nat → StoreM Nat
  | 0, _, _ => throw .endless
  | fuel + 1, start, size => do
    match ← reading fun r => .ok (r.above start size) with
    | none => return size
    | some succ =>
      let t ← reading (·.tagAt succ)
      if t.free then
        detach succ
        absorbAbove fuel start (size + t.size)
      else
        return size

/-- Joins the free chunk `c`, which is on no list, with its free neighbours. -/
def mergeAround (fuel c : Nat) : StoreM Unit := do
  let t ← reading (·.tagAt c)
  check t.free (.corrupt c .allocatedOnList)
  let (start, low) ← absorbBelow fuel c t.size
  let size ← absorbAbove fuel start low
  layOut start size
  file fuel start size .clean

def drain (walk : Nat) (list : ListId) : Nat → StoreM Nat
  | 0 => throw .endless
  | fuel + 1 => do
    match ← takeFirst list with
    | none => return 0
    | some c =>
      mergeAround walk c
      return (← drain walk list fuel) + 1

def drainAll (fuel : Nat) : List (Fin binCount) → StoreM Nat
  | [] => return 0
  | bin :: bins => do
    let taken ← drain fuel (.dirty bin) fuel
    return taken + (← drainAll fuel bins)

/-- Makes all free space clean: the recent cache is flushed and every dirty list is drained.
Returns how many chunks were flushed and how many were merged. -/
def mergeAll (fuel : Nat) : StoreM (Nat × Nat) := do
  let flushed ← flushRecent fuel fuel
  let merged ← drainAll fuel ListId.bins
  return (flushed, merged)

end BoundaryHeap.Store
