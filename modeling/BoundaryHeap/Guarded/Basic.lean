import BoundaryHeap.Guarded.Lock
import BoundaryHeap.Heap.Basic

namespace BoundaryHeap

inductive CallContext where
  /-- A task runs again once the lock is free. -/
  | task
  /-- A handler would keep the holder of the lock from running. -/
  | privileged
  deriving DecidableEq, Repr

inductive FaultPolicy where
  | halt
  | report
  deriving DecidableEq, Repr

def FaultPolicy.label : FaultPolicy → String
  | .halt => "Halt"
  | .report => "Report"

/-- Nothing protects the memory of a kernel, so it stops before damage can grow. -/
def FaultPolicy.standard : FaultPolicy := .halt

/-- What a call does to the interrupt mask and the lock, and when it works on the heap. -/
inductive GuardEvent where
  /-- Interrupts were masked; `old` is the mask before. -/
  | disable (old : UInt32)
  | acquire
  | tryAcquire (taken : Bool)
  /-- The heap was worked on, under this mask and with the lock in this state. -/
  | work (mask : UInt32) (held : Bool)
  | release
  | restore (mask : UInt32)
  deriving DecidableEq, Repr

/-- The event as the lock and the interrupt control see it. -/
def GuardEvent.call? : GuardEvent → Option String
  | .disable old =>
    let mask := old.toNat
    some s!"disable {mask}"
  | .acquire => some "acquire"
  | .tryAcquire taken => some s!"try_acquire {taken}"
  | .work _ _ => none
  | .release => some "release"
  | .restore mask =>
    let mask := mask.toNat
    some s!"restore {mask}"

/-- A heap with its lock, the interrupt mask, and what is known of the running task. -/
structure GuardedHeap where
  heap : Heap
  lock : Lock
  mask : UInt32
  policy : FaultPolicy
  /-- The running task, if the heap can ask for it. -/
  task : Option Owner
  deriving DecidableEq

structure GuardSession where
  guarded : GuardedHeap
  journal : List Record
  events : List GuardEvent
  deriving DecidableEq

abbrev GuardM := EStateM Fault GuardSession

structure GuardOutcome (α : Type) extends Outcome GuardedHeap α where
  events : List GuardEvent

namespace GuardedHeap

def run (m : GuardM α) (g : GuardedHeap) : GuardOutcome α :=
  match m ⟨g, [], []⟩ with
  | .ok a s => ⟨⟨.ok a, s.guarded, s.journal⟩, s.events⟩
  | .error f s => ⟨⟨.error f, s.guarded, s.journal⟩, s.events⟩

def ofHeap (heap : Heap) (mask : UInt32) (policy : FaultPolicy) (task : Option Owner) :
    GuardedHeap :=
  ⟨heap, .free, mask, policy, task⟩

/-- The owner that new allocations are stamped with. -/
def owner (g : GuardedHeap) : Owner := g.task.getD .kernel

def switchTo (g : GuardedHeap) (owner : Owner) : GuardedHeap :=
  { g with task := g.task.map fun _ => owner }

def emit (e : GuardEvent) : GuardM Unit := fun s =>
  .ok () { s with events := s.events ++ [e] }

def note (r : Record) : GuardM Unit := fun s =>
  .ok () { s with journal := s.journal ++ [r] }

def disable : GuardM UInt32 := do
  let old ← modifyGet fun s => (s.guarded.mask, { s with guarded.mask := 1 })
  emit (.disable old)
  return old

def restore (mask : UInt32) : GuardM Unit := do
  modify fun s => { s with guarded.mask := mask }
  emit (.restore mask)

/-- Waits for the lock. The wait for a lock that is held does not end. -/
def takeLock : GuardM Unit := do
  match ← modifyGet fun s => (s.guarded.lock.acquire?, s) with
  | none => throw .endless
  | some lock =>
    modify fun s => { s with guarded.lock := lock }
    emit .acquire

def tryLock : GuardM Bool := do
  let taken ← modifyGet fun s =>
    let (taken, lock) := s.guarded.lock.tryAcquire
    (taken, { s with guarded.lock := lock })
  emit (.tryAcquire taken)
  return taken

def unlock : GuardM Unit := do
  modify fun s => { s with guarded.lock := s.guarded.lock.release }
  emit .release

/-- Works on the heap and returns how that ended. -/
def work (m : HeapM α) : GuardM (Except Fault α) := do
  let (mask, held) ← modifyGet fun s => ((s.guarded.mask, s.guarded.lock.held), s)
  emit (.work mask held)
  fun s =>
    match s with
    | ⟨⟨heap, lock, mask, policy, task⟩, journal, events⟩ =>
      match m ⟨heap, journal⟩ with
      | .ok a ⟨heap, journal⟩ =>
        .ok (.ok a) ⟨⟨heap, lock, mask, policy, task⟩, journal, events⟩
      | .error f ⟨heap, journal⟩ =>
        .ok (.error f) ⟨⟨heap, lock, mask, policy, task⟩, journal, events⟩

/-- Works on the heap with the lock taken, then gives back the lock and the mask. -/
def finish (saved : UInt32) (m : HeapM α) : GuardM α := do
  let result ← work m
  unlock
  restore saved
  match result with
  | .ok a => return a
  | .error f => throw f

def locked (m : HeapM α) : GuardM α := do
  let saved ← disable
  takeLock
  finish saved m

/-- Works on the heap under the lock of the calling context. -/
def withHeap (context : CallContext) (m : HeapM α) : GuardM α :=
  match context with
  | .task => locked m
  | .privileged => do
    let saved ← disable
    if ← tryLock then
      finish saved m
    else
      restore saved
      note .contended
      throw (.error .lockContended)

/-- A fatal error is noted, and under the halting policy it ends the program. -/
def judge (e : HeapError) : GuardM α := do
  if e.isFatal then
    note (.faulted e)
    let policy ← modifyGet fun s => (s.guarded.policy, s)
    if policy = .halt then throw (.abort (.halted e)) else throw (.error e)
  else
    throw (.error e)

def judged (m : GuardM α) : GuardM α := fun s =>
  match m s with
  | .error (.error e) s => judge e s
  | r => r

end GuardedHeap

end BoundaryHeap
