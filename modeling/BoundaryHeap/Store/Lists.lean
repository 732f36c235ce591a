import BoundaryHeap.SizeClass
import BoundaryHeap.Store.Basic

namespace BoundaryHeap

/-- Where a free chunk is filed: by size and address on a bin list, or in one of the caches. -/
inductive Filing where
  | dirty
  | clean
  | recent
  | remainder
  deriving DecidableEq, Repr

namespace Store

def target : Referrer → StoreM (Option Nat)
  | .head list => head list
  | .next c => reading (·.nextOf c)

def setTarget : Referrer → Option Nat → StoreM Unit
  | .head list, c => setHead list c
  | .next d, c => setNext d c

def setReferrer (f : Referrer) : Option Nat → StoreM Unit
  | some c => setReferrerWord c f.encode
  | none => pure ()

/-- Puts the chunk `c` between a field and what it refers to. -/
def insertAt (f : Referrer) (c : Nat) : StoreM Unit := do
  let old ← target f
  setNext c old
  setReferrer f (some c)
  setTarget f (some c)
  setReferrer (.next c) old

/-- The field at which `c` keeps the list in address order, from the field `f` on, which refers
to `cur`. -/
def placeOf (c : Nat) : Nat → Referrer → Option Nat → StoreM Referrer
  | 0, _, _ => throw .endless
  | _ + 1, f, none => pure f
  | fuel + 1, f, some d =>
    if c < d then pure f
    else do
      let next ← reading (·.nextOf d)
      placeOf c fuel (.next d) next

def insertOrdered (fuel : Nat) (list : ListId) (c : Nat) : StoreM Unit := do
  let first ← head list
  let f ← placeOf c fuel (.head list) first
  insertAt f c

/-- Files the free chunk `c` of `size` bytes, which is on no list. -/
def file (fuel c size : Nat) (filing : Filing) : StoreM Unit := do
  check ((← reading (·.referrerWord c)) = nilWord) (.abort (.stillLinked c))
  match filing with
  | .dirty => insertOrdered fuel (.dirty (sizeClass size)) c
  | .clean => insertOrdered fuel (.clean (sizeClass size)) c
  | .recent => insertAt (.head .recent) c
  | .remainder =>
    check ((← head .remainder) = none) (.abort .remainderOccupied)
    insertAt (.head .remainder) c

/-- Takes the chunk `c` off the list that holds it. -/
def detach (c : Nat) : StoreM Unit := do
  match ← reading (·.referrerOf c) with
  | none => throw (.corrupt c .unlisted)
  | some f =>
    check ((← target f) = some c) (.corrupt c .strayReferrer)
    let next ← reading (·.nextOf c)
    setTarget f next
    setReferrer f next
    clearLinks c

def takeFirst (list : ListId) : StoreM (Option Nat) := do
  match ← head list with
  | some c =>
    detach c
    return some c
  | none => return none

/-- The chunks of a list in order. A list longer than the region can hold is cut short. -/
def members (s : Store) (list : ListId) : Except Fault (List Nat) :=
  s.region.chain (s.region.len / minChunk) (s.heads.get list)

end Store

end BoundaryHeap
