namespace BoundaryHeap

structure Lock where
  held : Bool
  deriving DecidableEq, Repr

namespace Lock

def free : Lock := ⟨false⟩

/-- Takes the lock. Nobody takes a lock that is held. -/
def acquire? (l : Lock) : Option Lock :=
  if l.held then none else some ⟨true⟩

/-- Takes the lock if it is free and tells whether it was. -/
def tryAcquire (l : Lock) : Bool × Lock :=
  (!l.held, ⟨true⟩)

def release (_ : Lock) : Lock := ⟨false⟩

end Lock

end BoundaryHeap
