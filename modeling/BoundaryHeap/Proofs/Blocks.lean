import BoundaryHeap.Proofs.Installation
import BoundaryHeap.Proofs.Isolation
import BoundaryHeap.Proofs.Serving
import Mathlib.Tactic.IntervalCases

namespace BoundaryHeap

theorem chunkSize?_mono {request request' total : Nat} (hle : request' ≤ request)
    (h : chunkSize? request = some total) :
    ∃ total', chunkSize? request' = some total' ∧ total' ≤ total := by
  unfold chunkSize? at h ⊢
  simp only [overhead, tagBytes, addressLimit, minChunk] at h ⊢
  split at h
  next hlow =>
    obtain ⟨hsize, htotal⟩ := Option.ite_none_right_eq_some.1 h
    have htotal := Option.some.inj htotal
    have hround : roundUp (max (request' + 2 * 8) 32) ≤ roundUp (max (request + 2 * 8) 32) := by
      simp only [roundUp, granule]
      omega
    rw [if_pos (by omega), if_pos (by omega)]
    exact ⟨_, rfl, htotal ▸ hround⟩
  next => cases h

/-- What is aligned as every pointer is meets every alignment that is no stricter. -/
theorem BlockLayout.aligned_of_valid {l : BlockLayout} {addr : Nat} (hvalid : l.valid = true)
    (halign : l.align ≤ alignment) (haddr : addr % alignment = 0) : addr % l.align = 0 := by
  obtain ⟨size, align⟩ := l
  simp only [valid, Bool.and_eq_true, bne_iff_ne, ne_eq, beq_iff_eq] at hvalid
  obtain ⟨⟨hpos, hpower⟩, -⟩ := hvalid
  simp only [alignment] at halign haddr ⊢
  -- Of the numbers up to the alignment of pointers, the powers of two are 1, 2, 4 and 8.
  interval_cases align
  all_goals first | exact absurd rfl hpos | exact absurd hpower (by decide) | omega

namespace World

variable {w : World} {A : Shape} {addr request size total : Nat} {owner : Owner} {gr : Grant}
  {a : Action}

theorem Tracks.keeps_grant (hw : w.Tracks A) (hgr : gr ∈ w.held)
    (hne : a ≠ .release (some gr.addr)) (hsize : w.heap.usableSize gr.addr = .ok size) :
    gr ∈ (w.step a).held ∧ (w.step a).heap.usableSize gr.addr = .ok size ∧
      ∀ i < size, (w.step a).heap.peek (gr.addr + i) =
        a.overwrite (gr.addr + i) (w.heap.peek (gr.addr + i)) := by
  obtain ⟨c, t, hc, rfl⟩ := (hw.held gr).1 hgr
  have hkeep : Keeps ⟨w.heap.base + (c + tagBytes), t.owner⟩ w [a] :=
    ⟨fun h => absurd h hne, trivial⟩
  obtain ⟨B, hB, hcB, hbase, hbytes⟩ := hw.keeps hc hkeep
  have hstep : w.after [a] = w.step a := rfl
  rw [hstep] at hB hbase hbytes
  have hheld := hB.mem_held hcB
  have husable := hB.intact.usableSize hcB
  rw [hbase] at hheld husable
  obtain rfl := Except.ok.inj ((hw.intact.usableSize hc).symm.trans hsize)
  refine ⟨hheld, husable, fun i hi => ?_⟩
  simp only [tagBytes, overhead] at hi
  have hbyte := hbytes (c + tagBytes + i) (Nat.le_add_right ..) (by simp only [tagBytes]; omega)
  have haddr : w.heap.base + (c + tagBytes + i) = w.heap.base + (c + tagBytes) + i :=
    (Nat.add_assoc ..).symm
  have hoffset : w.heap.base + (c + tagBytes) + i - w.heap.base = c + tagBytes + i := by omega
  rw [haddr] at hbyte
  rw [Heap.peek, Heap.peek, hbase, hoffset, hbyte]
  rfl

theorem Tracks.grants_blank (hw : w.Tracks A)
    (hok : (w.heap.run (Heap.allocate request owner)).result = .ok addr) :
    (w.step (.allocate request owner)).held = ⟨addr, owner⟩ :: w.held ∧ addr % alignment = 0 ∧
      ∃ total size, chunkSize? request = some total ∧
        (w.step (.allocate request owner)).heap.usableSize addr = .ok size ∧
        total ≤ size + overhead ∧
        ∀ i < size, (w.step (.allocate request owner)).heap.peek (addr + i) = 0 := by
  rcases hw.intact.allocate request owner with ⟨h', B, h⟩ | ⟨h', c, B, h⟩
  · rw [h.run.run.1] at hok
    cases hok
  · obtain rfl := Except.ok.inj (h.run.run.1.symm.trans hok)
    have hstep : w.step (.allocate request owner) =
        ⟨h', ⟨w.heap.base + (c + tagBytes), owner⟩ :: w.held⟩ := finish_ok h.run.run
    have hbase : h'.base = w.heap.base := h.changed.base
    have hc : (c, Tag.live (B.sizeAt c) owner) ∈ liveIn (B.grant c owner).chunks :=
      h.holding.mem_liveIn_grant.2 (.inr ⟨rfl, rfl⟩)
    have husable := h.intact.usableSize hc
    have hgrid := h.intact.settled.valid.tiles.mod_of_mem rfl (mem_liveIn.1 hc).1
    have haligned := hw.intact.aligned
    obtain ⟨total, hreq, hfit⟩ := h.fits
    rw [hbase] at husable
    rw [hstep]
    refine ⟨rfl, ?_, total, _, hreq, husable, ?_, fun i hi => ?_⟩
    · simp only [alignment, tagBytes, granule] at haligned ⊢
      omega
    · show total ≤ B.sizeAt c - overhead + overhead
      have hmin := (chunkSize?_spec hreq).2.2
      simp only [tagBytes, overhead] at hmin ⊢
      omega
    · show h'.region.byteAt (w.heap.base + (c + tagBytes) + i - h'.base) = 0
      have hoffset : w.heap.base + (c + tagBytes) + i - h'.base = c + tagBytes + i := by omega
      rw [hoffset]
      exact h.blank _ (Nat.le_add_right ..) (Nat.add_lt_add_left hi _)

/-- Where a chunk came back there is room for what needs no larger chunk. -/
theorem Tracks.serves_again (hw : w.Tracks A) (hgr : gr ∈ w.held)
    (hsize : w.heap.usableSize gr.addr = .ok size) (hreq : chunkSize? request = some total)
    (hfit : total ≤ size + overhead) (owner : Owner) :
    (w.step (.release (some gr.addr))).heap.Serves request owner := by
  obtain ⟨c, t, hc, rfl⟩ := (hw.held gr).1 hgr
  obtain rfl := Except.ok.inj ((hw.intact.usableSize hc).symm.trans hsize)
  obtain ⟨hB, -⟩ := hw.returned hc
  have hA := hw.intact.settled
  obtain ⟨hmem, hlive⟩ := mem_liveIn.1 hc
  have hmin := (hA.valid.tiles.proper hmem).1
  have hback : (c, { t with free := true }) ∈ (A.giveBack c t).chunks := by
    rw [Shape.giveBack, Shape.chunks_file]
    exact (hA.valid.mem_retag (u := { t with free := true }) hmem rfl).2 (.inr ⟨rfl, rfl⟩)
  rw [hB.intact.serves_iff]
  refine ⟨total, hreq, hB.intact.settled.valid.tiles.room_of_chunk hback rfl ?_⟩
  show total ≤ t.size
  simp only [minChunk, tagBytes, overhead] at hmin hfit
  omega

end World

def KernelCall.forBlock (zeroed : Bool) (l : BlockLayout) : KernelCall :=
  if zeroed then .allocateZeroedBlock l else .allocateBlock l

namespace Board

variable {b : Board} {g : GuardedHeap} {zeroed : Bool} {l : BlockLayout} {addr : Nat}

def withHeap (b : Board) (g : GuardedHeap) (h : Heap) : Board :=
  b.holding { g with heap := h }

theorem run_forBlock_over (hsome : b.kernel.handle = some g) (halign : alignment < l.align) :
    b.run (KernelCall.forBlock zeroed l).perform = ⟨.ok (some (.address? none)), b, []⟩ := by
  have hm : (KernelCall.forBlock zeroed l).method = none := by
    cases zeroed <;> exact if_pos halign
  exact (actsOn hsome _).denied hm

theorem run_forBlock (hsome : b.kernel.handle = some g) (hfree : g.lock.held = false)
    (halign : l.align ≤ alignment) :
    let o := g.heap.run (Heap.allocate l.size g.owner)
    let o' := b.run (KernelCall.forBlock zeroed l).perform
    o'.result = ((Call.allocate? .task l.size).settle g.policy (o.result.map .address)).map some ∧
      o'.after = b.withHeap g o.after := by
  have hm : (KernelCall.forBlock zeroed l).method = some (.allocate? .task l.size) := by
    cases zeroed <;> exact if_neg (Nat.not_lt_of_le halign)
  have hpass (r : Except Fault Answer) : (KernelCall.forBlock zeroed l).pass r = r.map some := by
    cases zeroed <;> rfl
  obtain ⟨hafter, hresult⟩ := Heap.run_map Answer.address (Heap.allocate l.size g.owner) g.heap
  rw [(actsOn hsome _).passed _ hm, Call.run_free _ hfree]
  simp only [hpass]
  rw [Call.work, hafter, hresult]
  exact ⟨rfl, rfl⟩

theorem run_forBlock_served (hsome : b.kernel.handle = some g) (hfree : g.lock.held = false)
    (halign : l.align ≤ alignment)
    (hok : (g.heap.run (Heap.allocate l.size g.owner)).result = .ok addr) :
    (b.run (KernelCall.forBlock zeroed l).perform).result = .ok (some (.address? (some addr))) := by
  rw [(run_forBlock hsome hfree halign).1, hok]
  rfl

theorem run_forBlock_refused (hsome : b.kernel.handle = some g) (hfree : g.lock.held = false)
    (halign : l.align ≤ alignment) (hfull : (g.heap.run (Heap.allocate l.size g.owner)).result =
      .error (.error (.outOfMemory l.size))) :
    (b.run (KernelCall.forBlock zeroed l).perform).result = .ok (some (.address? none)) := by
  have hverdict : g.policy.verdict (.error (.outOfMemory l.size)) =
      .error (.outOfMemory l.size) := by
    cases g.policy <;> rfl
  rw [(run_forBlock hsome hfree halign).1, hfull]
  simp only [Except.map, Call.settle, Except.mapError, hverdict]

/-- A pointer that the heap accepts is taken back without an error, be it one that is forgiven. -/
theorem run_release_done (hsome : b.kernel.handle = some g) (hfree : g.lock.held = false)
    (hok : (g.heap.run (Heap.release (some addr))).result = .ok ()) :
    (b.run (KernelCall.release .task (some addr)).perform).result = .ok (some .done) ∧
      (b.run (KernelCall.releaseBlock (some addr)).perform).result = .ok (some .done) ∧
      (b.run (KernelCall.releaseBlock (some addr)).perform).after =
        b.withHeap g (g.heap.run (Heap.release (some addr))).after := by
  obtain ⟨hafter, hresult⟩ :=
    Heap.run_map (fun _ => Answer.done) (Heap.release (some addr)) g.heap
  rw [hok] at hresult
  rw [(actsOn hsome _).passed (.release .task (some addr)) rfl,
    (actsOn hsome _).passed (.release .task (some addr)) rfl, Call.run_free _ hfree]
  simp only [Call.work, hresult, hafter]
  exact ⟨rfl, rfl, rfl⟩

end Board

structure Block where
  addr : Nat
  layout : BlockLayout
  deriving DecidableEq

/-- A board with the blocks that its callers hold. -/
structure BlockWorld where
  board : Board
  blocks : List Block

/-- What callers of blocks do. A block that comes back may be said to have any layout. -/
inductive BlockAction where
  | allocate (zeroed : Bool) (l : BlockLayout)
  | release (addr : Nat) (l : BlockLayout)
  | write (addr : Nat) (b : UInt8)
  | task (owner : Owner)

/-- The byte at `addr` after the action, if nobody but callers writes it. -/
def BlockAction.overwrite (addr : Nat) (old : UInt8) : BlockAction → UInt8
  | .write target b => if target = addr then b else old
  | _ => old

namespace BlockWorld

def peek (w : BlockWorld) (addr : Nat) : UInt8 :=
  match w.board.kernel.handle with
  | none => 0
  | some g => g.heap.peek addr

def poke (w : BlockWorld) (addr : Nat) (b : UInt8) : Board :=
  match w.board.kernel.handle with
  | none => w.board
  | some g => w.board.withHeap g (g.heap.poke addr b)

def mayWrite (w : BlockWorld) (addr : Nat) : Bool :=
  w.blocks.any fun k => k.addr ≤ addr && addr < k.addr + k.layout.size

/-- A call for a block. -/
def ask (w : BlockWorld) (zeroed : Bool) (l : BlockLayout) : Outcome Board (Option Answer) :=
  w.board.run (KernelCall.forBlock zeroed l).perform

/-- One action. Only blocks that are held come back, and only their bytes are written. -/
def step (w : BlockWorld) : BlockAction → BlockWorld
  | .allocate zeroed l =>
    match (w.ask zeroed l).result with
    | .ok (some (.address? (some addr))) => ⟨(w.ask zeroed l).after, ⟨addr, l⟩ :: w.blocks⟩
    | _ => ⟨(w.ask zeroed l).after, w.blocks⟩
  | .release addr _ =>
    if addr ∈ w.blocks.map Block.addr then
      ⟨(w.board.run (KernelCall.releaseBlock (some addr)).perform).after,
        w.blocks.filter fun k => k.addr ≠ addr⟩
    else w
  | .write addr b => if w.mayWrite addr then ⟨w.poke addr b, w.blocks⟩ else w
  | .task owner => ⟨{ w.board with kernel := w.board.kernel.switchTo owner }, w.blocks⟩

def after (w : BlockWorld) (actions : List BlockAction) : BlockWorld := actions.foldl step w

/-- The blocks are those that the heap behind the guard has handed out, each large enough. -/
structure Holds (w : BlockWorld) (g : GuardedHeap) (held : List Grant) : Prop where
  handle : w.board.kernel.handle = some g
  free : g.lock.held = false
  tracks : ∃ A, (World.mk g.heap held).Tracks A
  addrs : held.map Grant.addr = w.blocks.map Block.addr
  fits : ∀ k ∈ w.blocks, ∃ total size, chunkSize? k.layout.size = some total ∧
    g.heap.usableSize k.addr = .ok size ∧ total ≤ size + overhead

variable {w w' : BlockWorld} {g g' : GuardedHeap} {held held' : List Grant} {a : BlockAction}

/-- A block that is held is still there, and its bytes are as the action leaves them. -/
def Keeps (w : BlockWorld) (a : BlockAction) (w' : BlockWorld) : Prop :=
  ∀ k ∈ w.blocks, (∀ l, a ≠ .release k.addr l) → k ∈ w'.blocks ∧
    ∀ i < k.layout.size, w'.peek (k.addr + i) = a.overwrite (k.addr + i) (w.peek (k.addr + i))

theorem Holds.peek (hw : w.Holds g held) (addr : Nat) : w.peek addr = g.heap.peek addr := by
  rw [BlockWorld.peek, hw.handle]

theorem Holds.grant (hw : w.Holds g held) {k : Block} (hk : k ∈ w.blocks) :
    ∃ gr ∈ held, gr.addr = k.addr := by
  have hmem : k.addr ∈ held.map Grant.addr := by
    rw [hw.addrs]
    exact List.mem_map_of_mem hk
  exact List.mem_map.1 hmem

theorem Holds.size_le (hw : w.Holds g held) {k : Block} (hk : k ∈ w.blocks) :
    ∃ size, g.heap.usableSize k.addr = .ok size ∧ k.layout.size ≤ size := by
  obtain ⟨total, size, hreq, hsize, hfit⟩ := hw.fits k hk
  have hmin := (chunkSize?_spec hreq).2.2
  exact ⟨size, hsize, by omega⟩

/-- The heap that callers of blocks use, as callers of a heap see it. -/
def world (g : GuardedHeap) (held : List Grant) : World := ⟨g.heap, held⟩

/-- A block stays as it is while the heap does anything but take it back. -/
theorem Holds.kept (hw : w.Holds g held) {k : Block} (hk : k ∈ w.blocks) {act : Action}
    (hne : act ≠ .release (some k.addr)) :
    (∃ total size, chunkSize? k.layout.size = some total ∧
      ((world g held).step act).heap.usableSize k.addr = .ok size ∧ total ≤ size + overhead) ∧
    ∀ i < k.layout.size, ((world g held).step act).heap.peek (k.addr + i) =
      act.overwrite (k.addr + i) (w.peek (k.addr + i)) := by
  obtain ⟨A, hA⟩ := hw.tracks
  obtain ⟨total, size, hreq, hsize, hfit⟩ := hw.fits k hk
  obtain ⟨gr, hgr, haddr⟩ := hw.grant hk
  rw [← haddr] at hne hsize
  obtain ⟨-, husable, hbytes⟩ := hA.keeps_grant hgr hne hsize
  rw [haddr] at husable hbytes
  refine ⟨⟨total, size, hreq, husable, hfit⟩, fun i hi => ?_⟩
  have hmin := (chunkSize?_spec hreq).2.2
  rw [hw.peek]
  exact hbytes i (by omega)

/-- The heap did something, and the blocks that are held now are old ones that it did not take back
or are large enough. -/
theorem Holds.act (hw : w.Holds g held) (act : Action) {blocks : List Block}
    (haddrs : ((world g held).step act).held.map Grant.addr = blocks.map Block.addr)
    (hblocks : ∀ k ∈ blocks, (k ∈ w.blocks ∧ act ≠ .release (some k.addr)) ∨
      ∃ total size, chunkSize? k.layout.size = some total ∧
        ((world g held).step act).heap.usableSize k.addr = .ok size ∧ total ≤ size + overhead) :
    Holds ⟨w.board.withHeap g ((world g held).step act).heap, blocks⟩
      { g with heap := ((world g held).step act).heap } ((world g held).step act).held where
  handle := rfl
  free := hw.free
  tracks := by
    obtain ⟨A, hA⟩ := hw.tracks
    obtain ⟨B, hB, -⟩ := hA.step act
    exact ⟨B, hB⟩
  addrs := haddrs
  fits k hk := by
    rcases hblocks k hk with ⟨hold, hne⟩ | hnew
    · exact (hw.kept hold hne).1
    · exact hnew

theorem Holds.peek_act (hw : w.Holds g held) {act : Action} {k : Block} (hk : k ∈ w.blocks)
    (hne : act ≠ .release (some k.addr)) (blocks : List Block) :
    ∀ i < k.layout.size,
      BlockWorld.peek ⟨w.board.withHeap g ((world g held).step act).heap, blocks⟩ (k.addr + i) =
        act.overwrite (k.addr + i) (w.peek (k.addr + i)) :=
  (hw.kept hk hne).2

section Allocation

variable {zeroed : Bool} {l : BlockLayout} {addr : Nat}

theorem Holds.ask_over (hw : w.Holds g held) (halign : alignment < l.align) :
    w.ask zeroed l = ⟨.ok (some (.address? none)), w.board, []⟩ :=
  Board.run_forBlock_over hw.handle halign

theorem Holds.step_over (hw : w.Holds g held) (halign : alignment < l.align) :
    w.step (.allocate zeroed l) = w := by
  simp only [BlockWorld.step, hw.ask_over halign]

theorem Holds.after_ask (hw : w.Holds g held) (halign : l.align ≤ alignment) :
    (w.ask zeroed l).after =
      w.board.withHeap g ((world g held).step (.allocate l.size g.owner)).heap := by
  rw [World.heap_step_allocate]
  exact (Board.run_forBlock hw.handle hw.free halign).2

theorem Holds.step_refused (hw : w.Holds g held) (zeroed : Bool) (halign : l.align ≤ alignment)
    (hfull : (g.heap.run (Heap.allocate l.size g.owner)).result =
      .error (.error (.outOfMemory l.size))) :
    (w.ask zeroed l).result = .ok (some (.address? none)) ∧
      w.step (.allocate zeroed l) =
        ⟨w.board.withHeap g ((world g held).step (.allocate l.size g.owner)).heap, w.blocks⟩ := by
  have hnone : (w.ask zeroed l).result = .ok (some (.address? none)) :=
    Board.run_forBlock_refused hw.handle hw.free halign hfull
  refine ⟨hnone, ?_⟩
  simp only [BlockWorld.step, hnone, hw.after_ask halign]

theorem Holds.step_served (hw : w.Holds g held) (zeroed : Bool) (halign : l.align ≤ alignment)
    (hok : (g.heap.run (Heap.allocate l.size g.owner)).result = .ok addr) :
    (w.ask zeroed l).result = .ok (some (.address? (some addr))) ∧
      w.step (.allocate zeroed l) =
        ⟨w.board.withHeap g ((world g held).step (.allocate l.size g.owner)).heap,
          ⟨addr, l⟩ :: w.blocks⟩ := by
  have hsome : (w.ask zeroed l).result = .ok (some (.address? (some addr))) :=
    Board.run_forBlock_served hw.handle hw.free halign hok
  refine ⟨hsome, ?_⟩
  simp only [BlockWorld.step, hsome, hw.after_ask halign]

/-- A request for a block that may be aligned as pointers are is refused for want of memory, or
served with a block that is aligned and zeroed. -/
theorem Holds.allocate (hw : w.Holds g held) (zeroed : Bool) (halign : l.align ≤ alignment) :
    ((w.ask zeroed l).result = .ok (some (.address? none)) ∧
      (w.step (.allocate zeroed l)).blocks = w.blocks ∧
      ∃ g' held', (w.step (.allocate zeroed l)).Holds g' held') ∨
    ∃ addr, (w.ask zeroed l).result = .ok (some (.address? (some addr))) ∧
      (w.step (.allocate zeroed l)).blocks = ⟨addr, l⟩ :: w.blocks ∧
      (∃ g' held', (w.step (.allocate zeroed l)).Holds g' held') ∧
      (l.valid = true → addr % l.align = 0) ∧
      ∀ i < l.size, (w.step (.allocate zeroed l)).peek (addr + i) = 0 := by
  obtain ⟨A, hA⟩ := hw.tracks
  have hne (k : Block) : Action.allocate l.size g.owner ≠ .release (some k.addr) :=
    fun h => by cases h
  rcases hA.intact.allocate l.size g.owner with ⟨h', B, h⟩ | ⟨h', c, B, h⟩
  · obtain ⟨hnone, hstep⟩ := hw.step_refused zeroed halign h.run.run.1
    have hheld : ((world g held).step (.allocate l.size g.owner)).held = held := by
      rw [world, World.step, World.finish_error h.run.run]
    refine .inl ⟨hnone, ?_, ?_⟩
    · rw [hstep]
    · rw [hstep]
      refine ⟨_, _, hw.act _ ?_ fun k hk => .inl ⟨hk, hne k⟩⟩
      rw [hheld]
      exact hw.addrs
  · have hok := h.run.run.1
    obtain ⟨hsome, hstep⟩ := hw.step_served zeroed halign hok
    obtain ⟨hheld, haligned, total, size, hreq, husable, hfit, hblank⟩ := hA.grants_blank hok
    refine .inr ⟨_, hsome, ?_, ?_, ?_, fun i hi => ?_⟩
    · rw [hstep]
    · rw [hstep]
      refine ⟨_, _, hw.act _ ?_ fun k hk => ?_⟩
      · rw [world, hheld, List.map_cons, List.map_cons, hw.addrs]
      · rcases List.mem_cons.1 hk with rfl | hk
        · exact .inr ⟨total, size, hreq, husable, hfit⟩
        · exact .inl ⟨hk, hne k⟩
    · exact fun hvalid => BlockLayout.aligned_of_valid hvalid halign haligned
    · have hmin := (chunkSize?_spec hreq).2.2
      rw [hstep]
      exact hblank i (by omega)

theorem board_step_allocate (w : BlockWorld) (zeroed : Bool) (l : BlockLayout) :
    (w.step (.allocate zeroed l)).board = (w.ask zeroed l).after := by
  rw [BlockWorld.step]
  split <;> rfl

theorem Holds.keeps_allocate (hw : w.Holds g held) (zeroed : Bool) (l : BlockLayout) :
    w.Keeps (.allocate zeroed l) (w.step (.allocate zeroed l)) := by
  intro k hk _
  by_cases halign : l.align ≤ alignment
  · constructor
    · rcases hw.allocate zeroed halign with ⟨-, hblocks, -⟩ | ⟨addr, -, hblocks, -⟩
      · rw [hblocks]
        exact hk
      · rw [hblocks]
        exact List.mem_cons_of_mem _ hk
    · intro i hi
      rw [BlockWorld.peek, board_step_allocate, hw.after_ask halign]
      exact hw.peek_act hk (fun h => by cases h) [] i hi
  · rw [hw.step_over (Nat.lt_of_not_le halign)]
    exact ⟨hk, fun _ _ => rfl⟩

end Allocation

theorem Holds.release_done (hw : w.Holds g held) {k : Block} (hk : k ∈ w.blocks) :
    (g.heap.run (Heap.release (some k.addr))).result = .ok () := by
  obtain ⟨A, hA⟩ := hw.tracks
  obtain ⟨gr, hgr, haddr⟩ := hw.grant hk
  obtain ⟨c, t, hc, rfl⟩ := (hA.held gr).1 hgr
  obtain ⟨s', hrun, -⟩ := hA.intact.release hc
  rw [← haddr]
  exact hrun.run.1

theorem Holds.step_release (hw : w.Holds g held) {k : Block} (hk : k ∈ w.blocks)
    (l : BlockLayout) :
    w.step (.release k.addr l) =
      ⟨w.board.withHeap g ((world g held).step (.release (some k.addr))).heap,
        w.blocks.filter fun k' => k'.addr ≠ k.addr⟩ := by
  have hdone := Board.run_release_done hw.handle hw.free (hw.release_done hk)
  rw [BlockWorld.step, if_pos (List.mem_map_of_mem hk), hdone.2.2, World.heap_step_release]
  rfl

theorem Holds.held_release (hw : w.Holds g held) {k : Block} (hk : k ∈ w.blocks) :
    ((world g held).step (.release (some k.addr))).held.map Grant.addr =
      (w.blocks.filter fun k' => k'.addr ≠ k.addr).map Block.addr := by
  have hok : ((world g held).heap.run (Heap.release (some k.addr))).result = .ok () :=
    hw.release_done hk
  have hfilter := congrArg (List.filter fun addr => addr ≠ k.addr) hw.addrs
  rw [List.filter_map, List.filter_map] at hfilter
  have hsame : (fun gr : Grant => decide (some gr.addr ≠ some k.addr)) =
      (fun addr => decide (addr ≠ k.addr)) ∘ Grant.addr := by
    funext gr
    simp
  rw [World.step_release, World.finish, hok]
  simp only [world, hsame]
  exact hfilter

theorem Holds.release (hw : w.Holds g held) {k : Block} (hk : k ∈ w.blocks) (l : BlockLayout) :
    (∃ g' held', (w.step (.release k.addr l)).Holds g' held') ∧
      w.Keeps (.release k.addr l) (w.step (.release k.addr l)) := by
  have hkept : ∀ k' : Block, k'.addr ≠ k.addr →
      Action.release (some k.addr) ≠ .release (some k'.addr) := by
    intro k' hne h
    injection h with h
    injection h with h
    exact hne h.symm
  rw [hw.step_release hk]
  constructor
  · refine ⟨_, _, hw.act _ (hw.held_release hk) fun k' hk' => .inl ?_⟩
    obtain ⟨hmem, hne⟩ := List.mem_filter.1 hk'
    exact ⟨hmem, hkept k' (of_decide_eq_true hne)⟩
  · intro k' hk' hne
    have hne' : k'.addr ≠ k.addr := fun h => hne l (by rw [h])
    exact ⟨List.mem_filter.2 ⟨hk', decide_eq_true hne'⟩, hw.peek_act hk' (hkept k' hne') _⟩

theorem Holds.write (hw : w.Holds g held) {addr : Nat} (hmay : w.mayWrite addr = true) (b : UInt8) :
    w.step (.write addr b) =
        ⟨w.board.withHeap g ((world g held).step (.write addr b)).heap, w.blocks⟩ ∧
      ((world g held).step (.write addr b)).held = held := by
  have hallowed : (world g held).mayWrite addr = true := by
    rw [mayWrite, List.any_eq_true] at hmay
    obtain ⟨k, hk, hrange⟩ := hmay
    obtain ⟨size, hsize, hle⟩ := hw.size_le hk
    obtain ⟨gr, hgr, haddr⟩ := hw.grant hk
    rw [← haddr] at hsize hrange
    rw [World.mayWrite, List.any_eq_true]
    refine ⟨gr, hgr, ?_⟩
    simp only [Bool.and_eq_true, decide_eq_true_eq] at hrange
    simp only [world, hsize, Bool.and_eq_true, decide_eq_true_eq]
    omega
  have hstep : (world g held).step (.write addr b) = ⟨g.heap.poke addr b, held⟩ := if_pos hallowed
  rw [hstep, BlockWorld.step, if_pos hmay, poke, hw.handle]
  exact ⟨rfl, rfl⟩

/-- Every action leaves the callers with blocks that the heap has handed out, and of those that it
did not take back each has the bytes that its holders wrote. -/
theorem Holds.step (hw : w.Holds g held) (a : BlockAction) :
    (∃ g' held', (w.step a).Holds g' held') ∧ w.Keeps a (w.step a) := by
  cases a with
  | allocate zeroed l =>
    refine ⟨?_, hw.keeps_allocate zeroed l⟩
    by_cases halign : l.align ≤ alignment
    · rcases hw.allocate zeroed halign with ⟨-, -, hnext⟩ | ⟨addr, -, -, hnext, -⟩
      · exact hnext
      · exact hnext
    · rw [hw.step_over (Nat.lt_of_not_le halign)]
      exact ⟨g, held, hw⟩
  | release addr l =>
    by_cases hmem : addr ∈ w.blocks.map Block.addr
    · obtain ⟨k, hk, rfl⟩ := List.mem_map.1 hmem
      exact hw.release hk l
    · rw [BlockWorld.step, if_neg hmem]
      exact ⟨⟨g, held, hw⟩, fun k hk _ => ⟨hk, fun _ _ => rfl⟩⟩
  | write addr b =>
    by_cases hmay : w.mayWrite addr = true
    · obtain ⟨hstep, hheld⟩ := hw.write hmay b
      have hne (k : Block) : Action.write addr b ≠ .release (some k.addr) := fun h => by cases h
      rw [hstep]
      refine ⟨⟨_, _, hw.act _ ?_ fun k hk => .inl ⟨hk, hne k⟩⟩, fun k hk _ => ⟨hk, ?_⟩⟩
      · rw [hheld]
        exact hw.addrs
      · exact hw.peek_act hk (hne k) w.blocks
    · rw [BlockWorld.step, if_neg hmay]
      refine ⟨⟨g, held, hw⟩, fun k hk _ => ⟨hk, fun i hi => ?_⟩⟩
      -- A byte of a block may be written, so this one is not written to.
      refine (if_neg fun h => hmay ?_).symm
      rw [mayWrite, List.any_eq_true, h]
      exact ⟨k, hk, by simp [hi]⟩
  | task owner =>
    have hhandle : (w.step (.task owner)).board.kernel.handle = some (g.switchTo owner) := by
      rw [BlockWorld.step, Kernel.switchTo, hw.handle]
      rfl
    refine ⟨⟨g.switchTo owner, held, hhandle, hw.free, hw.tracks, hw.addrs, hw.fits⟩, ?_⟩
    intro k hk _
    refine ⟨hk, fun i _ => ?_⟩
    rw [BlockWorld.peek, hhandle, hw.peek]
    rfl

theorem Holds.after (hw : w.Holds g held) (actions : List BlockAction) :
    ∃ g' held', (w.after actions).Holds g' held' := by
  induction actions generalizing w g held with
  | nil => exact ⟨g, held, hw⟩
  | cons a rest ih =>
    obtain ⟨⟨g', held', hstep⟩, -⟩ := hw.step a
    exact ih hstep

end BlockWorld

/-- Two blocks that differ in their addresses and share no byte. -/
def Block.Apart (k k' : Block) : Prop :=
  k.addr ≠ k'.addr ∧ (k.addr + k.layout.size ≤ k'.addr ∨ k'.addr + k'.layout.size ≤ k.addr)

namespace BlockWorld

/-- What comes of a call for a block: nothing at all if it must be aligned to more than pointers
are, else no block, or a block that is aligned, zeroed and apart from those that are held. -/
inductive Replies (w : BlockWorld) (zeroed : Bool) (l : BlockLayout) : Prop where
  | denied (halign : alignment < l.align)
      (hask : w.ask zeroed l = ⟨.ok (some (.address? none)), w.board, []⟩)
  | refused (halign : l.align ≤ alignment)
      (hask : (w.ask zeroed l).result = .ok (some (.address? none)))
      (hblocks : (w.step (.allocate zeroed l)).blocks = w.blocks)
  | served {addr : Nat} (halign : l.align ≤ alignment)
      (hask : (w.ask zeroed l).result = .ok (some (.address? (some addr))))
      (hblocks : (w.step (.allocate zeroed l)).blocks = ⟨addr, l⟩ :: w.blocks)
      (haligned : l.valid = true → addr % l.align = 0)
      (hzero : ∀ i < l.size, (w.step (.allocate zeroed l)).peek (addr + i) = 0)
      (hapart : ∀ k ∈ w.blocks, Block.Apart ⟨addr, l⟩ k)

/-- What comes of the return of the block `k`: no error, not even one that is forgiven, and room for
every block that is no larger. -/
structure Returns (w : BlockWorld) (k : Block) (l : BlockLayout) : Prop where
  done : (w.board.run (KernelCall.releaseBlock (some k.addr)).perform).result = .ok (some .done)
  unforgiven :
    (w.board.run (KernelCall.release .task (some k.addr)).perform).result = .ok (some .done)
  blocks : (w.step (.release k.addr l)).blocks = w.blocks.filter fun k' => k'.addr ≠ k.addr
  room : ∀ zeroed l', l'.align ≤ alignment → l'.size ≤ k.layout.size →
    ∃ addr, ((w.step (.release k.addr l)).ask zeroed l').result = .ok (some (.address? (some addr)))

/-- The heap serves blocks as it should: what is held is apart, and until a block comes back nobody
but its holders changes it. -/
structure Sound (w : BlockWorld) : Prop where
  apart : w.blocks.Pairwise Block.Apart
  replies : ∀ zeroed l, w.Replies zeroed l
  stable : ∀ k ∈ w.blocks, ∀ actions, (∀ l, .release k.addr l ∉ actions) →
    k ∈ (w.after actions).blocks ∧
      ∀ i < k.layout.size, (w.after actions).peek (k.addr + i) =
        actions.foldl (BlockAction.overwrite (k.addr + i)) (w.peek (k.addr + i))
  returns : ∀ k ∈ w.blocks, ∀ l, w.Returns k l

variable {w : BlockWorld} {g : GuardedHeap} {held : List Grant}

theorem Holds.apart (hw : w.Holds g held) : w.blocks.Pairwise Block.Apart := by
  obtain ⟨A, hA⟩ := hw.tracks
  have hheld : (held.map Grant.addr).Pairwise fun a a' => a ≠ a' ∧ ∀ size size',
      g.heap.usableSize a = .ok size → g.heap.usableSize a' = .ok size' →
      a + size ≤ a' ∨ a' + size' ≤ a :=
    hA.distinct.and (List.pairwise_map.2 hA.apart)
  rw [hw.addrs, List.pairwise_map] at hheld
  apply hheld.imp_of_mem
  rintro k k' hk hk' ⟨hne, hapart⟩
  obtain ⟨size, hsize, hle⟩ := hw.size_le hk
  obtain ⟨size', hsize', hle'⟩ := hw.size_le hk'
  have hsides := hapart size size' hsize hsize'
  exact ⟨hne, by omega⟩

theorem Holds.stable (hw : w.Holds g held) {k : Block} (hk : k ∈ w.blocks)
    {actions : List BlockAction} (hkeep : ∀ l, .release k.addr l ∉ actions) :
    k ∈ (w.after actions).blocks ∧
      ∀ i < k.layout.size, (w.after actions).peek (k.addr + i) =
        actions.foldl (BlockAction.overwrite (k.addr + i)) (w.peek (k.addr + i)) := by
  induction actions generalizing w g held with
  | nil => exact ⟨hk, fun _ _ => rfl⟩
  | cons a rest ih =>
    obtain ⟨⟨g', held', hstep⟩, hkeeps⟩ := hw.step a
    have hfirst : ∀ l, a ≠ .release k.addr l := fun l h => hkeep l (h ▸ List.mem_cons_self ..)
    obtain ⟨hk', hbytes⟩ := hkeeps k hk hfirst
    obtain ⟨hlast, hpeek⟩ := ih hstep hk' fun l hl => hkeep l (List.mem_cons_of_mem _ hl)
    refine ⟨hlast, fun i hi => ?_⟩
    have hbyte := hpeek i hi
    rw [hbytes i hi] at hbyte
    exact hbyte

theorem Holds.replies (hw : w.Holds g held) (zeroed : Bool) (l : BlockLayout) :
    w.Replies zeroed l := by
  by_cases halign : l.align ≤ alignment
  · rcases hw.allocate zeroed halign with ⟨hask, hblocks, -⟩ |
      ⟨addr, hask, hblocks, ⟨g', held', hnext⟩, haligned, hzero⟩
    · exact .refused halign hask hblocks
    · have hapart := hnext.apart
      rw [hblocks, List.pairwise_cons] at hapart
      exact .served halign hask hblocks haligned hzero hapart.1
  · have halign := Nat.lt_of_not_le halign
    exact .denied halign (hw.ask_over halign)

theorem Holds.returns (hw : w.Holds g held) {k : Block} (hk : k ∈ w.blocks) (l : BlockLayout) :
    w.Returns k l := by
  obtain ⟨hrelease, hdone, -⟩ := Board.run_release_done hw.handle hw.free (hw.release_done hk)
  have hstep := hw.step_release hk l
  refine ⟨hdone, hrelease, by rw [hstep], fun zeroed l' halign hsize => ?_⟩
  obtain ⟨A, hA⟩ := hw.tracks
  obtain ⟨total, size, hreq, husable, hfit⟩ := hw.fits k hk
  obtain ⟨total', hreq', hle⟩ := chunkSize?_mono hsize hreq
  obtain ⟨gr, hgr, haddr⟩ := hw.grant hk
  rw [← haddr] at husable
  obtain ⟨addr, hserved⟩ := hA.serves_again hgr husable hreq' (hle.trans hfit) g.owner
  rw [haddr] at hserved
  rw [hstep]
  exact ⟨addr, Board.run_forBlock_served rfl hw.free halign hserved⟩

theorem Holds.sound (hw : w.Holds g held) : w.Sound :=
  ⟨hw.apart, hw.replies, fun _ hk _ hkeep => hw.stable hk hkeep, fun _ hk l => hw.returns hk l⟩

theorem holds_of_init {b : Board} {offset len : Nat} {policy : FaultPolicy}
    (hinit : (b.init offset len).result = .ok policy) :
    ∃ g, Holds ⟨(b.init offset len).after, []⟩ g [] := by
  cases hhandle : b.kernel.handle with
  | some g =>
    rw [Board.init_again hhandle] at hinit
    cases hinit
  | none =>
    rcases hoffer : (b.offer offset len).result with f | heap
    · rw [Board.init_refused hhandle hoffer] at hinit
      cases hinit
    · obtain ⟨journal, hrun⟩ := Board.init_accepted hhandle hoffer
      have hstart : (World.mk heap []).Reachable := .start (Heap.takeOver_of_occupy hoffer)
      rw [hrun]
      exact ⟨_, rfl, rfl, hstart.tracks, rfl, fun k hk => by cases hk⟩

/-- Once the heap is installed, every run of calls for blocks and of writes to them finds the heap
serving blocks as it should. -/
theorem blocks_sound {b : Board} {offset len : Nat} {policy : FaultPolicy}
    (hinit : (b.init offset len).result = .ok policy) (actions : List BlockAction) :
    (after ⟨(b.init offset len).after, []⟩ actions).Sound := by
  obtain ⟨g, hw⟩ := holds_of_init hinit
  obtain ⟨g', held', hw'⟩ := hw.after actions
  exact hw'.sound

/-- A block is written to and comes back, a block without bytes is asked for, and one that must be
aligned to more than pointers are. -/
theorem recycled_sound :
    let b := (Board.fresh 96 .kernel).init 0 96
    let w := after ⟨b.after, []⟩ [.allocate false ⟨16, 8⟩, .write 0x40100008 7,
      .release 0x40100008 ⟨0, 1⟩, .allocate true ⟨0, 1⟩, .allocate false ⟨8, 16⟩,
      .allocate false ⟨5, 4⟩]
    b.result = .ok .standard ∧ w.blocks = [⟨0x40100028, ⟨5, 4⟩⟩, ⟨0x40100008, ⟨0, 1⟩⟩] ∧
      w.Sound := by
  intro b w
  obtain ⟨hinit, hblocks⟩ : b.result = .ok .standard ∧
      w.blocks = [⟨0x40100028, ⟨5, 4⟩⟩, ⟨0x40100008, ⟨0, 1⟩⟩] := by
    decide +kernel
  exact ⟨hinit, hblocks, blocks_sound hinit _⟩

end BlockWorld

end BoundaryHeap
