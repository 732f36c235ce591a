import BoundaryHeap.Store.Lists

namespace BoundaryHeap.Store

def firstWith (accepts : Nat → Bool) : Nat → Option Nat → StoreM (Option Nat)
  | 0, _ => throw .endless
  | _ + 1, none => pure none
  | fuel + 1, some c => do
    if accepts (← sizeOf c) then
      return some c
    else
      let next ← reading (·.nextOf c)
      firstWith accepts fuel next

def exactIn (fuel : Nat) (list : ListId) (size : Nat) : StoreM (Option Nat) := do
  firstWith (· == size) fuel (← head list)

def fittingIn (fuel : Nat) (list : ListId) (size : Nat) : StoreM (Option Nat) := do
  firstWith (size ≤ ·) fuel (← head list)

/-- The chunk released last, if it has `size` bytes and less than a smallest chunk more. -/
def takeRecentHead (size : Nat) : StoreM (Option Nat) := do
  match ← head .recent with
  | none => return none
  | some c =>
    let found ← sizeOf c
    if size ≤ found ∧ found < size + minChunk then
      detach c
      return some c
    else
      return none

def takeDirty (fuel size : Nat) : StoreM (Option Nat) := do
  match ← exactIn fuel (.dirty (sizeClass size)) size with
  | none => return none
  | some c =>
    detach c
    return some c

/-- The first recent chunk of exactly `size` bytes. The chunks in front of it become dirty. -/
def takeRecent (size : Nat) : Nat → Nat → StoreM (Option Nat)
  | _, 0 => throw .endless
  | walk, fuel + 1 => do
    match ← takeFirst .recent with
    | none => return none
    | some c =>
      let found ← sizeOf c
      if found = size then
        return some c
      else
        file walk c found .dirty
        takeRecent size walk fuel

def fittingInBins (fuel size : Nat) : List (Fin binCount) → StoreM (Option Nat)
  | [] => return none
  | bin :: bins => do
    match ← fittingIn fuel (.clean bin) size with
    | some c => return some c
    | none => fittingInBins fuel size bins

/-- The bins of chunks that may hold `size` bytes, in ascending order. -/
def binsFrom (size : Nat) : List (Fin binCount) :=
  (List.finRange binCount).drop (sizeClass size)

/-- The remainder if it has `size` bytes, else the first clean chunk that has. -/
def findFitting (fuel size : Nat) : StoreM (Option Nat) := do
  match ← fittingIn fuel .remainder size with
  | some c => return some c
  | none => fittingInBins fuel size (binsFrom size)

def takeFitting (fuel size : Nat) : StoreM (Option Nat) := do
  match ← findFitting fuel size with
  | some c =>
    detach c
    return some c
  | none => return none

def dropRemainder (fuel : Nat) : StoreM Unit := do
  match ← takeFirst .remainder with
  | some old => file fuel old (← sizeOf old) .clean
  | none => pure ()

/-- Makes `rest` the remainder in place of the chunk that was it. -/
def keepRemainder (fuel rest size : Nat) : StoreM Unit := do
  dropRemainder fuel
  file fuel rest size .remainder

/-- Cuts up to `count` chunks of `size` bytes off the remainder and makes them recent, so that a
burst of equal requests finds them there. -/
def stock (fuel size : Nat) : Nat → StoreM Unit
  | 0 => pure ()
  | count + 1 => do
    match ← head .remainder with
    | none => pure ()
    | some c =>
      let total ← sizeOf c
      if total < size + minChunk then
        pure ()
      else
        detach c
        let rest ← cut c size
        file fuel c size .recent
        file fuel rest (total - size) .remainder
        stock fuel size count

/-- Cuts the chunk `c` down to `size` bytes unless the tail would be too small to be a chunk. The
tail becomes the remainder. When `size` is the size `last` served before, a stock is cut too. -/
def cutDown (fuel last c size : Nat) : StoreM Unit := do
  let total ← sizeOf c
  check (size ≤ total) (.abort .underflow)
  if total - size < minChunk then
    pure ()
  else
    let rest ← cut c size
    keepRemainder fuel rest (total - size)
    if size = last then stock fuel size stockCount else pure ()

end BoundaryHeap.Store
