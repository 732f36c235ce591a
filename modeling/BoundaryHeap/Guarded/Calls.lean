import BoundaryHeap.Guarded.Basic
import BoundaryHeap.Heap.Allocate
import BoundaryHeap.Heap.Audit
import BoundaryHeap.Heap.Report

namespace BoundaryHeap.GuardedHeap

def allocate (context : CallContext) (request : Nat) : GuardM Nat := judged do
  let owner ← modifyGet fun s => (s.guarded.owner, s)
  withHeap context (Heap.allocate request owner)

/-- An error that is returned counts as no result. -/
def optional (m : GuardM α) : GuardM (Option α) := fun s =>
  match m s with
  | .ok a s => .ok (some a) s
  | .error (.error _) s => .ok none s
  | .error f s => .error f s

/-- Serves a request, with no reason given when it fails. -/
def allocate? (context : CallContext) (request : Nat) : GuardM (Option Nat) :=
  optional (allocate context request)

def release (context : CallContext) (addr : Option Nat) : GuardM Unit :=
  judged (withHeap context (Heap.release addr))

def merge : GuardM Unit :=
  judged (locked Heap.merge)

def usableSize (addr : Nat) : GuardM Nat :=
  locked (Heap.observe fun h => h.usableSize addr)

def ownedBy (owner : Owner) : GuardM Nat :=
  locked (Heap.ownedBy owner)

def stats : GuardM Stats :=
  locked Heap.stats

def audit : GuardM Unit :=
  locked (Heap.observe Heap.audit)

def dump (limit : Option Nat) : GuardM Written :=
  locked (Heap.dump limit)

end BoundaryHeap.GuardedHeap
