import BoundaryHeap.Board
import BoundaryHeap.Proofs.Faultless
import BoundaryHeap.Proofs.Founding
import BoundaryHeap.Proofs.Matching
import BoundaryHeap.Proofs.Policies

namespace BoundaryHeap

inductive KernelCall where
  | allocate? (context : CallContext) (request : Nat)
  | release (context : CallContext) (addr : Option Nat)
  | dump (limit : Option Nat)
  | stats
  | allocateBlock (l : BlockLayout)
  | allocateZeroedBlock (l : BlockLayout)
  | releaseBlock (addr : Option Nat)
  deriving DecidableEq

namespace KernelCall

/-- The call as a program on the kernel. Only the use of a heap that is not there is no answer. -/
def perform : KernelCall → KernelM (Option Answer)
  | allocate? context request => (some ∘ .address?) <$> Kernel.allocate? context request
  | release context addr => (fun _ => some .done) <$> Kernel.release context addr
  | dump limit => (some ∘ .written) <$> Kernel.dump limit
  | stats => (Option.map .stats) <$> Kernel.stats
  | allocateBlock l => (some ∘ .address?) <$> Kernel.allocateBlock l
  | allocateZeroedBlock l => (some ∘ .address?) <$> Kernel.allocateZeroedBlock l
  | releaseBlock addr => (fun _ => some .done) <$> Kernel.releaseBlock addr

/-- What the call returns when there is no heap. -/
def absent : KernelCall → Except Fault (Option Answer)
  | allocate? _ _ | allocateBlock _ | allocateZeroedBlock _ => .ok (some (.address? none))
  | release _ none | releaseBlock _ => .ok (some .done)
  | release _ (some addr) => .error (.error (.invalidFree addr .outOfRegion))
  | dump limit => (Kernel.uninstalledReport.write limit).map (some ∘ .written)
  | stats => .ok none

def absentNotes : KernelCall → List Record
  | releaseBlock (some addr) => [.releaseFailed (.invalidFree addr .outOfRegion)]
  | _ => []

/-- The call of the guarded heap that the call goes to. Blocks that must be aligned to more than
every pointer is are not asked for. -/
def method : KernelCall → Option Call
  | allocate? context request => some (.allocate? context request)
  | release context addr => some (.release context addr)
  | dump limit => some (.dump limit)
  | stats => some .stats
  | allocateBlock l | allocateZeroedBlock l =>
    if alignment < l.align then none else some (.allocate? .task l.size)
  | releaseBlock addr => some (.release .task addr)

def pass : KernelCall → Except Fault Answer → Except Fault (Option Answer)
  | releaseBlock _, .error (.error _) => .ok (some .done)
  | _, r => r.map some

def notes : KernelCall → Except Fault Answer → List Record
  | releaseBlock _, .error (.error e) => [.releaseFailed e]
  | _, _ => []

end KernelCall

theorem GuardedHeap.locked_of_does {m : HeapM α} {g : GuardedHeap} {a : α} {h : Heap}
    (hfree : g.lock.held = false) (hm : Heap.Does m g.heap a h) (journal : List Record)
    (events : List GuardEvent) :
    ∃ journal' events', locked m ⟨g, journal, events⟩ =
      .ok a ⟨{ g with heap := h }, journal', events'⟩ := by
  obtain ⟨heap, ⟨held⟩, mask, policy, task⟩ := g
  cases hfree
  obtain ⟨journal', hrun⟩ := hm journal
  have hlocked : locked m ⟨⟨heap, ⟨false⟩, mask, policy, task⟩, journal, events⟩ =
      finish mask m ⟨⟨heap, ⟨true⟩, 1, policy, task⟩, journal,
        events ++ [.disable mask] ++ [.acquire]⟩ := rfl
  refine ⟨journal', events ++ [.disable mask] ++ [.acquire] ++ [.work 1 true] ++ [.release] ++
    [.restore mask], ?_⟩
  rw [hlocked, run_finish, hrun]
  rfl

theorem Kernel.noteReady_ok {heap : Heap} {A : Shape} (hi : heap.Intact A) (task : Owner)
    (records : List Record) :
    let kernel : Kernel := ⟨some (.ofHeap heap 0 .standard (some task)), task⟩
    ∃ journal, noteReady ⟨kernel, records⟩ = .ok () ⟨kernel, journal⟩ := by
  intro kernel
  obtain ⟨stats, -, hdoes⟩ := hi.stats_does
  obtain ⟨journal, events, hrun⟩ := GuardedHeap.locked_of_does
    (g := .ofHeap heap 0 .standard (some task)) rfl hdoes records []
  have hstep : GuardedHeap.stats ⟨.ofHeap heap 0 .standard (some task), records, []⟩ =
      .ok stats ⟨.ofHeap heap 0 .standard (some task), journal, events⟩ := hrun
  have hcall : onHandle? GuardedHeap.stats ⟨kernel, records⟩ =
      .ok (some stats) ⟨kernel, journal⟩ := by
    simp only [onHandle?, onHandle, kernel, bind, EStateM.bind, hstep]
    rfl
  refine ⟨journal ++ [.ready stats.regionBytes], ?_⟩
  rw [noteReady, bind_ok hcall]
  rfl

namespace Board

variable {b : Board} {g : GuardedHeap}

def holding (b : Board) (g : GuardedHeap) : Board :=
  { b with kernel.handle := some g }

theorem run_none (hnone : b.kernel.handle = none) (absent : KernelM α) (m : GuardM α) :
    b.run (Kernel.onHandle absent m) = b.run absent := by
  obtain ⟨ram, handle, task⟩ := b
  obtain rfl : handle = none := hnone
  rfl

theorem run_some (hsome : b.kernel.handle = some g) (absent : KernelM α) (m : GuardM α) :
    b.run (Kernel.onHandle absent m) =
      ⟨(g.run m).result, b.holding (g.run m).after, (g.run m).journal⟩ := by
  obtain ⟨ram, handle, task⟩ := b
  obtain rfl : handle = some g := hsome
  simp only [run, work, onKernel, Kernel.onHandle, GuardedHeap.run, holding]
  cases m ⟨g, [], []⟩ <;> rfl

theorem run_map (f : α → β) (m : KernelM α) (b : Board) :
    b.run (f <$> m) = ⟨(b.run m).result.map f, (b.run m).after, (b.run m).journal⟩ := by
  obtain ⟨ram, kernel⟩ := b
  simp only [run, work, onKernel, Functor.map, EStateM.map]
  cases m ⟨kernel, []⟩ <;> rfl

/-- A call goes to the guarded heap, and what that returns is passed on. -/
structure ActsOn (b : Board) (g : GuardedHeap) (c : KernelCall) : Prop where
  denied : c.method = none → b.run c.perform = ⟨.ok (some (.address? none)), b, []⟩
  passed : ∀ m, c.method = some m →
    b.run c.perform =
      let o := g.run m.perform
      ⟨c.pass o.result, b.holding o.after, o.journal ++ c.notes o.result⟩

theorem actsOn_of_method {c : KernelCall} {m : Call} (hm : c.method = some m)
    (hrun : b.run c.perform =
      let o := g.run m.perform
      ⟨c.pass o.result, b.holding o.after, o.journal ++ c.notes o.result⟩) : b.ActsOn g c := by
  constructor
  · intro hnone
    rw [hm] at hnone
    cases hnone
  · intro m' hm'
    obtain rfl := Option.some.inj (hm.symm.trans hm')
    exact hrun

theorem run_method {f : α → Answer} (hsome : b.kernel.handle = some g) (absent : KernelM α)
    (m : GuardM α) :
    b.run ((some ∘ f) <$> Kernel.onHandle absent m) =
      let o := g.run (f <$> m)
      ⟨o.result.map some, b.holding o.after, o.journal ++ []⟩ := by
  rw [run_map, run_some hsome, GuardedHeap.run_map]
  simp only [GuardOutcome.through, List.append_nil]
  cases (g.run m).result <;> rfl

theorem run_method? {f : α → Answer} (hsome : b.kernel.handle = some g) (m : GuardM α) :
    b.run (Option.map f <$> Kernel.onHandle? m) =
      let o := g.run (f <$> m)
      ⟨o.result.map some, b.holding o.after, o.journal ++ []⟩ := by
  rw [run_map, Kernel.onHandle?, run_some hsome, GuardedHeap.run_map]
  simp only [GuardOutcome.through, GuardedHeap.run, bind, EStateM.bind, List.append_nil]
  cases m ⟨g, [], []⟩ <;> rfl

theorem run_releaseBlock (b : Board) (addr : Option Nat) :
    b.run (Kernel.releaseBlock addr) =
      let o := b.run (Kernel.release .task addr)
      match o.result with
      | .error (.error e) => ⟨.ok (), o.after, o.journal ++ [.releaseFailed e]⟩
      | _ => o := by
  obtain ⟨ram, kernel⟩ := b
  simp only [run, work, onKernel, Kernel.releaseBlock]
  cases Kernel.release .task addr ⟨kernel, []⟩ with
  | ok u s => rfl
  | error f s => cases f <;> rfl

theorem actsOn_block (hsome : b.kernel.handle = some g) (l : BlockLayout) :
    b.ActsOn g (.allocateBlock l) := by
  by_cases halign : alignment < l.align
  · have hm : (KernelCall.allocateBlock l).method = none := if_pos halign
    constructor
    · intro _
      rw [KernelCall.perform, Kernel.allocateBlock, if_pos halign]
      rfl
    · intro m hm'
      rw [hm] at hm'
      cases hm'
  · have hm : (KernelCall.allocateBlock l).method = some (.allocate? .task l.size) :=
      if_neg halign
    apply actsOn_of_method hm
    rw [KernelCall.perform, Kernel.allocateBlock, if_neg halign]
    exact run_method hsome _ _

theorem actsOn_release (hsome : b.kernel.handle = some g) (addr : Option Nat) :
    b.ActsOn g (.releaseBlock addr) := by
  apply actsOn_of_method rfl
  rw [KernelCall.perform, run_map, run_releaseBlock, Kernel.release, run_some hsome,
    Call.perform, GuardedHeap.run_map]
  simp only [GuardOutcome.through]
  -- An error is noted and forgiven; whatever else comes back is passed on.
  rcases (g.run (GuardedHeap.release .task addr)).result with (e | a | _) | u
  case error.error => rfl
  all_goals
    simp only [KernelCall.notes, Except.map, List.append_nil]
    rfl

theorem actsOn (hsome : b.kernel.handle = some g) (c : KernelCall) : b.ActsOn g c := by
  cases c with
  | allocateBlock l => exact actsOn_block hsome l
  | allocateZeroedBlock l => exact ⟨(actsOn_block hsome l).denied, (actsOn_block hsome l).passed⟩
  | releaseBlock addr => exact actsOn_release hsome addr
  | allocate? context request => exact actsOn_of_method rfl (run_method hsome _ _)
  | release context addr => exact actsOn_of_method rfl (run_method hsome _ _)
  | dump limit => exact actsOn_of_method rfl (run_method hsome _ _)
  | stats => exact actsOn_of_method rfl (run_method? hsome _)

theorem run_absent (hnone : b.kernel.handle = none) (c : KernelCall) :
    b.run c.perform = ⟨c.absent, b, c.absentNotes⟩ := by
  obtain ⟨ram, handle, task⟩ := b
  obtain rfl : handle = none := hnone
  cases c with
  | allocate? context request => rfl
  | release context addr => cases addr <;> rfl
  | stats => rfl
  | releaseBlock addr => cases addr <;> rfl
  | allocateBlock l =>
    rw [KernelCall.perform, Kernel.allocateBlock]
    split <;> rfl
  | allocateZeroedBlock l =>
    rw [KernelCall.perform, Kernel.allocateZeroedBlock, Kernel.allocateBlock]
    split <;> rfl
  | dump limit =>
    rw [KernelCall.perform, run_map, Kernel.dump, run_none rfl, KernelCall.absent]
    cases Kernel.uninstalledReport.write limit <;> rfl

end Board

/-- What happens on a board: an installation, a call, or something that others do in between. -/
inductive BoardMove where
  | init (offset len : Nat)
  | call (c : KernelCall)
  | task (owner : Owner)
  /-- Any bytes in memory are stored to. -/
  | memory (bytes : ByteArray)

/-- What a move on a board does to the heap that is installed there. Memory begins at `base`. -/
def GuardedHeap.undergo (base : Nat) (g : GuardedHeap) : BoardMove → GuardedHeap
  | .init _ _ => g
  | .call c =>
    match c.method with
    | none => g
    | some m => (g.run m.perform).after
  | .task owner => g.switchTo owner
  | .memory bytes =>
    let offset := g.heap.base - base
    { g with heap := g.heap.overwritten (bytes.extract offset (offset + g.heap.len)) }

namespace Board

variable {b : Board} {g : GuardedHeap} {offset len : Nat} {m : BoardMove} {moves : List BoardMove}

/-- What a heap makes of the `len` bytes of memory from `offset` on. -/
def offer (b : Board) (offset len : Nat) : Outcome Region Heap :=
  Heap.occupy (b.memory.part offset len)

/-- The board with the heap that was made of the `len` bytes of memory from `offset` on, and with
these bytes as they are then. -/
def installing (b : Board) (offset len : Nat) (heap : Heap) : Board :=
  (b.setMemory (b.memory.overlay (b.offer offset len).after)).holding
    (.ofHeap heap 0 .standard (some b.kernel.task))

def step (b : Board) : BoardMove → Board
  | .init offset len => (b.init offset len).after
  | .call c => (b.run c.perform).after
  | .task owner => { b with kernel := b.kernel.switchTo owner }
  | .memory bytes => b.setMemory { b.ram with bytes := bytes }

def play (b : Board) (moves : List BoardMove) : Board := moves.foldl step b

def Accepts (b : Board) : BoardMove → Prop
  | .init offset len => ∃ heap, (b.offer offset len).result = .ok heap
  | _ => False

/-- Among the moves there is one that offers bytes that a heap accepts. -/
def Opened (b : Board) : List BoardMove → Prop
  | [] => False
  | m :: moves => b.Accepts m ∨ (b.step m).Opened moves

theorem isInstalled_eq (b : Board) (journal : List Record) :
    onKernel Kernel.isInstalled ⟨b, journal⟩ = .ok b.kernel.handle.isSome ⟨b, journal⟩ :=
  rfl

theorem init_accepted {heap : Heap} (hnone : b.kernel.handle = none)
    (hoffer : (b.offer offset len).result = .ok heap) :
    ∃ journal, b.init offset len = ⟨.ok .standard, b.installing offset len heap, journal⟩ := by
  obtain ⟨ram, handle, task⟩ := b
  obtain rfl : handle = none := hnone
  have hresult : (Heap.occupy (ram.part offset len)).result = .ok heap := hoffer
  generalize ho : Heap.occupy (ram.part offset len) = o at hresult
  have hinstalled : Board.installing ⟨ram, ⟨none, task⟩⟩ offset len heap =
      ⟨ram.overlay o.after, ⟨some (.ofHeap heap 0 .standard (some task)), task⟩⟩ := by
    rw [← ho]
    rfl
  have hoccupy : occupy offset len ⟨⟨ram, ⟨none, task⟩⟩, []⟩ =
      .ok heap ⟨⟨ram.overlay o.after, ⟨none, task⟩⟩, o.journal⟩ := by
    simp only [occupy, memory, ho, hresult]
    rfl
  have hinstall : onKernel (Kernel.install heap)
      ⟨⟨ram.overlay o.after, ⟨none, task⟩⟩, o.journal⟩ =
        .ok () ⟨Board.installing ⟨ram, ⟨none, task⟩⟩ offset len heap, o.journal⟩ := by
    rw [hinstalled]
    rfl
  obtain ⟨journal, hready⟩ := Kernel.noteReady_ok
    (Heap.intact_takeOver (Heap.takeOver_of_occupy hoffer)) task o.journal
  have hnoted : onKernel Kernel.noteReady
      ⟨Board.installing ⟨ram, ⟨none, task⟩⟩ offset len heap, o.journal⟩ =
        .ok () ⟨Board.installing ⟨ram, ⟨none, task⟩⟩ offset len heap, journal⟩ := by
    rw [hinstalled]
    simp only [onKernel, hready]
  refine ⟨journal, ?_⟩
  rw [init, work, install, bind_ok (isInstalled_eq _ _)]
  simp only [Option.isSome_none, Bool.false_eq_true, if_false]
  rw [bind_ok hoccupy, bind_ok hinstall, bind_ok hnoted]
  rfl

theorem init_refused {f : Fault} (hnone : b.kernel.handle = none)
    (hoffer : (b.offer offset len).result = .error f) :
    b.init offset len = ⟨.error f, b, []⟩ := by
  obtain ⟨ram, handle, task⟩ := b
  obtain rfl : handle = none := hnone
  have hresult : (Heap.occupy (ram.part offset len)).result = .error f := hoffer
  obtain ⟨-, hafter, hjournal⟩ := Heap.occupy_error hresult
  have hoccupy : occupy offset len ⟨⟨ram, ⟨none, task⟩⟩, []⟩ =
      .error f ⟨⟨ram, ⟨none, task⟩⟩, []⟩ := by
    simp only [occupy, memory, hresult, hafter, hjournal, Region.overlay_part]
    rfl
  rw [init, work, install, bind_ok (isInstalled_eq _ _)]
  simp only [Option.isSome_none, Bool.false_eq_true, if_false]
  simp only [bind, EStateM.bind, hoccupy]

theorem init_again (hsome : b.kernel.handle = some g) (offset len : Nat) :
    b.init offset len = ⟨.error (.error .alreadyInitialized), b, []⟩ := by
  rw [init, work, install, bind_ok (isInstalled_eq b []), hsome]
  rfl

/-- Without a heap, an `init` goes as a heap takes the bytes that it offers, and every call goes as
if there were no memory. -/
structure Uninstalled (b : Board) : Prop where
  handle : b.kernel.handle = none
  accepted : ∀ offset len heap, (b.offer offset len).result = .ok heap →
    ∃ journal, b.init offset len = ⟨.ok .standard, b.installing offset len heap, journal⟩
  refused : ∀ offset len f, (b.offer offset len).result = .error f →
    b.init offset len = ⟨.error f, b, []⟩ ∧
      ((∃ size, f = .error (.regionTooSmall size)) ∨
        ∃ size, f = .error (.regionTooLarge size maxRegion))
  calls : ∀ c : KernelCall, b.run c.perform = ⟨c.absent, b, c.absentNotes⟩

/-- With the heap `g` installed, an `init` changes nothing, every call is one of `g`, and after any
moves the heap is what these moves make of `g`. -/
structure Installed (b : Board) (g : GuardedHeap) : Prop where
  handle : b.kernel.handle = some g
  again : ∀ offset len, b.init offset len = ⟨.error (.error .alreadyInitialized), b, []⟩
  calls : ∀ c, b.ActsOn g c
  later : ∀ moves, (b.play moves).kernel.handle =
    some (moves.foldl (GuardedHeap.undergo b.ram.base) g)

theorem uninstalled (hnone : b.kernel.handle = none) : b.Uninstalled where
  handle := hnone
  accepted _ _ _ hoffer := init_accepted hnone hoffer
  refused _ _ _ hoffer := by
    refine ⟨init_refused hnone hoffer, ?_⟩
    rw [(Heap.occupy_error hoffer).1]
    split
    · exact .inl ⟨_, rfl⟩
    · exact .inr ⟨_, rfl⟩
  calls c := run_absent hnone c

theorem step_some (hsome : b.kernel.handle = some g) (m : BoardMove) :
    (b.step m).kernel.handle = some (g.undergo b.ram.base m) ∧
      (b.step m).ram.base = b.ram.base := by
  cases m with
  | init offset len =>
    rw [step, init_again hsome]
    exact ⟨hsome, rfl⟩
  | call c =>
    have hacts := actsOn hsome c
    rcases hmethod : c.method with _ | m
    · rw [step, hacts.denied hmethod, GuardedHeap.undergo, hmethod]
      exact ⟨hsome, rfl⟩
    · rw [step, hacts.passed m hmethod, GuardedHeap.undergo, hmethod]
      exact ⟨rfl, rfl⟩
  | task owner =>
    obtain ⟨ram, handle, task⟩ := b
    obtain rfl : handle = some g := hsome
    exact ⟨rfl, rfl⟩
  | memory bytes =>
    obtain ⟨ram, handle, task⟩ := b
    obtain rfl : handle = some g := hsome
    exact ⟨rfl, rfl⟩

theorem play_some (hsome : b.kernel.handle = some g) (moves : List BoardMove) :
    (b.play moves).kernel.handle = some (moves.foldl (GuardedHeap.undergo b.ram.base) g) := by
  induction moves generalizing b g with
  | nil => exact hsome
  | cons m rest ih =>
    obtain ⟨hstep, hbase⟩ := step_some hsome m
    have hrest := ih hstep
    rw [hbase] at hrest
    exact hrest

theorem installed (hsome : b.kernel.handle = some g) : b.Installed g where
  handle := hsome
  again := init_again hsome
  calls := actsOn hsome
  later := play_some hsome

/-- A heap is installed where a heap accepts what is offered, and nowhere else. -/
theorem step_none (hnone : b.kernel.handle = none) (m : BoardMove) :
    (¬b.Accepts m → (b.step m).kernel.handle = none) ∧
      (b.Accepts m → ∃ g, (b.step m).kernel.handle = some g) := by
  cases m with
  | init offset len =>
    rcases hoffer : (b.offer offset len).result with f | heap
    · refine ⟨fun _ => ?_, ?_⟩
      · rw [step, init_refused hnone hoffer]
        exact hnone
      · rintro ⟨heap, hok⟩
        rw [hoffer] at hok
        cases hok
    · obtain ⟨journal, hrun⟩ := init_accepted hnone hoffer
      refine ⟨fun hno => absurd ⟨heap, hoffer⟩ hno, fun _ => ?_⟩
      rw [step, hrun]
      exact ⟨_, rfl⟩
  | call c =>
    refine ⟨fun _ => ?_, fun h => h.elim⟩
    rw [step, run_absent hnone]
    exact hnone
  | task owner =>
    refine ⟨fun _ => ?_, fun h => h.elim⟩
    rw [step, Kernel.switchTo, hnone]
    rfl
  | memory bytes =>
    refine ⟨fun _ => ?_, fun h => h.elim⟩
    obtain ⟨ram, handle, task⟩ := b
    obtain rfl : handle = none := hnone
    rfl

theorem play_none (hnone : b.kernel.handle = none) (moves : List BoardMove) :
    (¬b.Opened moves → (b.play moves).kernel.handle = none) ∧
      (b.Opened moves → ∃ g, (b.play moves).kernel.handle = some g) := by
  induction moves generalizing b with
  | nil => exact ⟨fun _ => hnone, fun h => h.elim⟩
  | cons m rest ih =>
    obtain ⟨hrefused, haccepted⟩ := step_none hnone m
    by_cases haccepts : b.Accepts m
    · obtain ⟨g, hsome⟩ := haccepted haccepts
      exact ⟨fun hno => absurd (.inl haccepts) hno, fun _ => ⟨_, play_some hsome rest⟩⟩
    · obtain ⟨hclosed, hopened⟩ := ih (hrefused haccepts)
      exact ⟨fun hno => hclosed fun h => hno (.inr h), fun h => hopened (h.resolve_left haccepts)⟩

/-- However installations and calls follow each other, there is no heap up to the first `init` that
offers bytes which a heap accepts, and from then on there is that one. -/
theorem installed_once (hnone : b.kernel.handle = none) (moves : List BoardMove) :
    (¬b.Opened moves → (b.play moves).Uninstalled) ∧
      (b.Opened moves → ∃ g, (b.play moves).Installed g) := by
  obtain ⟨hclosed, hopened⟩ := play_none hnone moves
  refine ⟨fun h => uninstalled (hclosed h), fun h => ?_⟩
  obtain ⟨g, hsome⟩ := hopened h
  exact ⟨g, installed hsome⟩

/-- The first region is too small, and a call comes before the second one is offered. -/
theorem second_installed :
    (fresh 96 .kernel).kernel.handle = none ∧
      let moves := [.init 0 16, .call (.allocate? .task 8), .init 0 96]
      (fresh 96 .kernel).Opened moves ∧ ∃ g, ((fresh 96 .kernel).play moves).Installed g := by
  have hnone : (fresh 96 .kernel).kernel.handle = none := rfl
  have hok : ((((fresh 96 .kernel).step (.init 0 16)).step
      (.call (.allocate? .task 8))).offer 0 96).result.isOk := by decide +kernel
  have hopened : (fresh 96 .kernel).Opened
      [.init 0 16, .call (.allocate? .task 8), .init 0 96] := by
    refine .inr (.inr (.inl ?_))
    rcases hoffer : ((((fresh 96 .kernel).step (.init 0 16)).step
        (.call (.allocate? .task 8))).offer 0 96).result with f | heap
    · rw [hoffer] at hok
      cases hok
    · exact ⟨heap, hoffer⟩
  exact ⟨hnone, hopened, (installed_once hnone _).2 hopened⟩

end Board

end BoundaryHeap
