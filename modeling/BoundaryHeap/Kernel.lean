import BoundaryHeap.Guarded.Calls

namespace BoundaryHeap

/-- The kernel heap, if it is installed, and the running task. -/
structure Kernel where
  handle : Option GuardedHeap
  task : Owner
  deriving DecidableEq

structure KernelSession where
  kernel : Kernel
  journal : List Record
  deriving DecidableEq

abbrev KernelM := EStateM Fault KernelSession

/-- Size and alignment that a block is asked for with. -/
structure BlockLayout where
  size : Nat
  align : Nat
  deriving DecidableEq, Repr

/-- The alignment is a power of two, and the size rounded up to it is a signed number. -/
def BlockLayout.valid (l : BlockLayout) : Bool :=
  l.align != 0 && l.align &&& (l.align - 1) == 0 &&
    (l.size + l.align - 1) / l.align * l.align < 0x8000000000000000

namespace Kernel

def fresh (task : Owner) : Kernel := ⟨none, task⟩

def switchTo (s : Kernel) (owner : Owner) : Kernel :=
  ⟨s.handle.map (·.switchTo owner), owner⟩

def note (r : Record) : KernelM Unit := fun s =>
  .ok () { s with journal := s.journal ++ [r] }

/-- Runs `m` on the installed heap, or `absent` if there is none. -/
def onHandle (absent : KernelM α) (m : GuardM α) : KernelM α := fun s =>
  match s with
  | ⟨⟨none, _⟩, _⟩ => absent s
  | ⟨⟨some guarded, task⟩, journal⟩ =>
    match m ⟨guarded, journal, []⟩ with
    | .ok a ⟨guarded, journal, _⟩ => .ok a ⟨⟨some guarded, task⟩, journal⟩
    | .error f ⟨guarded, journal, _⟩ => .error f ⟨⟨some guarded, task⟩, journal⟩

def onHandle? (m : GuardM α) : KernelM (Option α) :=
  onHandle (pure none) do return some (← m)

def isInstalled : KernelM Bool :=
  modifyGet fun s => (s.kernel.handle.isSome, s)

/-- Makes `heap` the kernel heap, unless there is one. -/
def install (heap : Heap) : KernelM Unit := do
  if ← isInstalled then
    throw (.error .alreadyInitialized)
  else
    modify fun s => { s with
      kernel.handle := some (.ofHeap heap 0 .standard (some s.kernel.task)) }

def noteReady : KernelM Unit := do
  match ← onHandle? GuardedHeap.stats with
  | some stats => note (.ready stats.regionBytes)
  | none => pure ()

def allocate? (context : CallContext) (request : Nat) : KernelM (Option Nat) :=
  onHandle (pure none) (GuardedHeap.allocate? context request)

/-- Without a heap, no pointer is one that was handed out. -/
def releaseUninstalled (addr : Option Nat) : KernelM Unit :=
  match addr with
  | none => pure ()
  | some addr => throw (.error (.invalidFree addr .outOfRegion))

def release (context : CallContext) (addr : Option Nat) : KernelM Unit :=
  onHandle (releaseUninstalled addr) (GuardedHeap.release context addr)

def uninstalledReport : Report := ⟨["kheap: not initialized"], none⟩

def dump (limit : Option Nat) : KernelM Written :=
  onHandle
    (match uninstalledReport.write limit with
      | .ok w => pure w
      | .error f => throw f)
    (GuardedHeap.dump limit)

def stats : KernelM (Option Stats) :=
  onHandle? GuardedHeap.stats

/-- Serves a request for a block, unless it must be aligned to more than every pointer is. The
block is zeroed. -/
def allocateBlock (l : BlockLayout) : KernelM (Option Nat) :=
  if alignment < l.align then pure none else allocate? .task l.size

def allocateZeroedBlock (l : BlockLayout) : KernelM (Option Nat) :=
  allocateBlock l

/-- Takes a block back. An error is noted and not returned. -/
def releaseBlock (addr : Option Nat) : KernelM Unit := fun s =>
  match release .task addr s with
  | .error (.error e) s => note (.releaseFailed e) s
  | r => r

end Kernel

end BoundaryHeap
