import BoundaryHeap.Memory.Inspect
import BoundaryHeap.Kernel

namespace BoundaryHeap

/-- The memory of a board and the kernel that runs on it. The bytes of an installed heap are kept
in the heap; what `ram` holds in their place does not count. -/
structure Board where
  ram : Region
  kernel : Kernel

structure BoardSession where
  board : Board
  journal : List Record

abbrev BoardM := EStateM Fault BoardSession

namespace Board

def fresh (len : Nat) (task : Owner) : Board :=
  ⟨⟨boardBase, ⟨Array.replicate len 0⟩⟩, .fresh task⟩

/-- The bytes that are in memory now. -/
def memory (b : Board) : Region :=
  match b.kernel.handle with
  | none => b.ram
  | some g => b.ram.overlay g.heap.region

def setMemory (b : Board) (r : Region) : Board :=
  match b with
  | ⟨_, ⟨none, task⟩⟩ => ⟨r, ⟨none, task⟩⟩
  | ⟨_, ⟨some g, task⟩⟩ =>
    let own := g.heap.region
    let offset := own.base - r.base
    let region : Region := { own with bytes := r.bytes.extract offset (offset + own.len) }
    ⟨r, ⟨some { g with heap.store.region := region }, task⟩⟩

def work (m : BoardM α) (b : Board) : Outcome Board α :=
  match m ⟨b, []⟩ with
  | .ok a s => ⟨.ok a, s.board, s.journal⟩
  | .error f s => ⟨.error f, s.board, s.journal⟩

def onKernel (m : KernelM α) : BoardM α := fun s =>
  match s with
  | ⟨⟨ram, kernel⟩, journal⟩ =>
    match m ⟨kernel, journal⟩ with
    | .ok a s => .ok a ⟨⟨ram, s.kernel⟩, s.journal⟩
    | .error f s => .error f ⟨⟨ram, s.kernel⟩, s.journal⟩

def run (m : KernelM α) (b : Board) : Outcome Board α :=
  b.work (onKernel m)

/-- Makes a heap of the `len` bytes of memory from `offset` on. They are stored to in memory,
whatever is kept there. -/
def occupy (offset len : Nat) : BoardM Heap := fun s =>
  let memory := s.board.memory
  let o := Heap.occupy (memory.part offset len)
  let s : BoardSession := ⟨s.board.setMemory (memory.overlay o.after), s.journal ++ o.journal⟩
  match o.result with
  | .ok heap => .ok heap s
  | .error f => .error f s

/-- Installs the kernel heap over the `len` bytes of memory from `offset` on and returns its
policy. No bytes are touched when there is a kernel heap. -/
def install (offset len : Nat) : BoardM FaultPolicy := do
  if ← onKernel Kernel.isInstalled then
    throw (.error .alreadyInitialized)
  else
    let heap ← occupy offset len
    onKernel (Kernel.install heap)
    onKernel Kernel.noteReady
    return .standard

def init (b : Board) (offset len : Nat) : Outcome Board FaultPolicy :=
  b.work (install offset len)

def initWindow (b : Board) : Outcome Board FaultPolicy :=
  b.init 0 boardSize

end Board

end BoundaryHeap
