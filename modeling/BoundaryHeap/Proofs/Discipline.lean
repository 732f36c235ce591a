import BoundaryHeap.Guarded.Calls
import BoundaryHeap.Proofs.Runs

namespace BoundaryHeap

inductive Call where
  | allocate (context : CallContext) (request : Nat)
  | allocate? (context : CallContext) (request : Nat)
  | release (context : CallContext) (addr : Option Nat)
  | usableSize (addr : Nat)
  | ownedBy (owner : Owner)
  | stats
  | merge
  | audit
  | dump (limit : Option Nat)
  deriving DecidableEq

inductive Answer where
  | address (addr : Nat)
  | address? (addr : Option Nat)
  | size (bytes : Nat)
  | stats (use : Stats)
  | written (text : Written)
  | done
  deriving DecidableEq

def CallContext.taking : CallContext → GuardEvent
  | .task => .acquire
  | .privileged => .tryAcquire true

/-- What becomes of a fault under a policy: a fatal error may end the program. -/
def FaultPolicy.verdict (policy : FaultPolicy) : Fault → Fault
  | .error e => if e.isFatal ∧ policy = .halt then .abort (.halted e) else .error e
  | f => f

/-- What becomes of a result when errors are returned without their reason. -/
def unreasoned : Except Fault α → Except Fault (Option α)
  | .ok a => .ok (some a)
  | .error (.error _) => .ok none
  | .error f => .error f

theorem Heap.run_map (f : α → β) (m : HeapM α) (h : Heap) :
    (run (f <$> m) h).after = (run m h).after ∧
      (run (f <$> m) h).result = (run m h).result.map f := by
  simp only [run, Functor.map, EStateM.map]
  cases m ⟨h, []⟩ with
  | ok a s => exact ⟨rfl, rfl⟩
  | error f s => exact ⟨rfl, rfl⟩

namespace GuardedHeap

/-- The guard was taken. The heap is worked on between the taking of the lock and its release, and
how that ended settles what is returned. -/
structure Entered (g : GuardedHeap) (context : CallContext) (m : HeapM α)
    (settle : Except Fault α → Except Fault β) (o : GuardOutcome β) : Prop where
  events : o.events = [.disable g.mask, context.taking, .work 1 true, .release, .restore g.mask]
  after : o.after = { g with heap := (Heap.run m g.heap).after }
  result : o.result = settle (Heap.run m g.heap).result

/-- Another holds the lock. The heap is not touched. -/
structure Refused (g : GuardedHeap) (refusal : Except Fault β) (o : GuardOutcome β) : Prop where
  events : o.events = [.disable g.mask, .tryAcquire false, .restore g.mask]
  after : o.after = g
  result : o.result = refusal

/-- How work under the guard goes, by the lock and the context. -/
inductive Guards (g : GuardedHeap) (context : CallContext) (m : HeapM α)
    (settle : Except Fault α → Except Fault β) (o : GuardOutcome β) : Prop where
  | entered (hfree : g.lock.held = false) (h : Entered g context m settle o)
  | refused (hheld : g.lock.held = true) (hcontext : context = .privileged)
      (h : Refused g (settle (.error (.error .lockContended))) o)
  | waiting (hcontext : context = .task) (h : o.result = .error .endless)

/-- One piece of work goes as another, with its result passed through `k`. -/
structure Passes (o : GuardOutcome α) (k : Except Fault α → Except Fault β) (o' : GuardOutcome β) :
    Prop where
  events : o'.events = o.events
  after : o'.after = o.after
  result : o'.result = k o.result

variable {g : GuardedHeap} {context : CallContext} {m : HeapM α} {p : GuardM β}
  {settle : Except Fault α → Except Fault β}

theorem run_finish (m : HeapM α) (g : GuardedHeap) (saved : UInt32) (journal : List Record)
    (events : List GuardEvent) :
    finish saved m ⟨g, journal, events⟩ =
      match m ⟨g.heap, journal⟩ with
      | .ok a s => .ok a ⟨⟨s.heap, .free, saved, g.policy, g.task⟩, s.journal,
          events ++ [.work g.mask g.lock.held] ++ [.release] ++ [.restore saved]⟩
      | .error f s => .error f ⟨⟨s.heap, .free, saved, g.policy, g.task⟩, s.journal,
          events ++ [.work g.mask g.lock.held] ++ [.release] ++ [.restore saved]⟩ := by
  obtain ⟨heap, lock, mask, policy, task⟩ := g
  have hread (s : GuardSession) :
      (modifyGet fun s => ((s.guarded.mask, s.guarded.lock.held), s) : GuardM (UInt32 × Bool)) s =
        .ok (s.guarded.mask, s.guarded.lock.held) s := rfl
  simp only [finish, work, emit, bind, EStateM.bind, hread]
  cases m ⟨heap, journal⟩ with
  | ok a s => rfl
  | error f s => rfl

theorem entered_withHeap (context : CallContext) (m : HeapM α) (hfree : g.lock.held = false) :
    Entered g context m id (run (withHeap context m) g) := by
  obtain ⟨heap, ⟨held⟩, mask, policy, task⟩ := g
  cases hfree
  have hrun : withHeap context m ⟨⟨heap, ⟨false⟩, mask, policy, task⟩, [], []⟩ =
      finish mask m ⟨⟨heap, ⟨true⟩, 1, policy, task⟩, [], [.disable mask, context.taking]⟩ := by
    cases context <;> rfl
  constructor <;> simp only [run, Heap.run, hrun, run_finish]
  all_goals
    cases m ⟨heap, []⟩ with
    | ok a s => rfl
    | error f s => rfl

/-- The three ways to the lock: it is free, it is held and the call gives up, it is held and the
call waits. -/
theorem guards_withHeap (context : CallContext) (m : HeapM α) (g : GuardedHeap) :
    Guards g context m id (run (withHeap context m) g) := by
  cases hlock : g.lock.held with
  | false => exact .entered hlock (entered_withHeap context m hlock)
  | true =>
    obtain ⟨heap, ⟨held⟩, mask, policy, task⟩ := g
    cases hlock
    cases context with
    | task => exact .waiting rfl rfl
    | privileged => exact .refused rfl rfl ⟨rfl, rfl, rfl⟩

theorem guards_locked (m : HeapM α) (g : GuardedHeap) : Guards g .task m id (run (locked m) g) :=
  guards_withHeap .task m g

theorem judge_error (e : HeapError) (s : GuardSession) :
    ∃ s', judge (α := β) e s = .error (s.guarded.policy.verdict (.error e)) s' ∧
      s'.guarded = s.guarded ∧ s'.events = s.events := by
  cases hfatal : e.isFatal with
  | false =>
    have hverdict : s.guarded.policy.verdict (.error e) = .error e := by
      simp only [FaultPolicy.verdict, hfatal, Bool.false_eq_true, false_and, if_false]
    refine ⟨s, ?_, rfl, rfl⟩
    rw [judge, hfatal, hverdict]
    rfl
  | true =>
    refine ⟨{ s with journal := s.journal ++ [.faulted e] }, ?_, rfl, rfl⟩
    have hverdict : s.guarded.policy.verdict (.error e) =
        if s.guarded.policy = .halt then .abort (.halted e) else .error e := by
      simp only [FaultPolicy.verdict, hfatal, true_and]
    obtain ⟨⟨heap, lock, mask, policy, task⟩, journal, events⟩ := s
    rw [judge, hfatal, hverdict]
    cases policy with
    | halt => rfl
    | report => rfl

theorem passes_judged (p : GuardM β) (g : GuardedHeap) :
    Passes (run p g) (Except.mapError (run p g).after.policy.verdict) (run (judged p) g) := by
  simp only [run, judged]
  cases p ⟨g, [], []⟩ with
  | ok b s => exact ⟨rfl, rfl, rfl⟩
  | error f s =>
    cases f with
    | abort a => exact ⟨rfl, rfl, rfl⟩
    | endless => exact ⟨rfl, rfl, rfl⟩
    | error e =>
      obtain ⟨s', hjudge, hguarded, hevents⟩ := judge_error (β := β) e s
      simp only [hjudge]
      exact ⟨hevents, hguarded, rfl⟩

theorem passes_optional (p : GuardM β) (g : GuardedHeap) :
    Passes (run p g) unreasoned (run (optional p) g) := by
  simp only [run, optional]
  cases p ⟨g, [], []⟩ with
  | ok b s => exact ⟨rfl, rfl, rfl⟩
  | error f s => cases f <;> exact ⟨rfl, rfl, rfl⟩

theorem passes_map (k : β → γ) (p : GuardM β) (g : GuardedHeap) :
    Passes (run p g) (Except.map k) (run (k <$> p) g) := by
  simp only [run, Functor.map, EStateM.map]
  cases p ⟨g, [], []⟩ with
  | ok b s => exact ⟨rfl, rfl, rfl⟩
  | error f s => exact ⟨rfl, rfl, rfl⟩

theorem Guards.pass {k : Except Fault β → Except Fault γ} {o : GuardOutcome β}
    {o' : GuardOutcome γ} (h : Guards g context m settle o) (hpass : Passes o k o')
    (hendless : k (.error .endless) = .error .endless) :
    Guards g context m (fun r => k (settle r)) o' := by
  cases h with
  | entered hfree h =>
    refine .entered hfree ⟨hpass.events.trans h.events, hpass.after.trans h.after, ?_⟩
    rw [hpass.result, h.result]
  | refused hheld hcontext h =>
    refine .refused hheld hcontext ⟨hpass.events.trans h.events, hpass.after.trans h.after, ?_⟩
    rw [hpass.result, h.result]
  | waiting hcontext h =>
    refine .waiting hcontext ?_
    rw [hpass.result, h, hendless]

/-- The policy that a call is judged under is that of the heap it was made on. -/
theorem Guards.judged (h : Guards g context m settle (run p g)) :
    Guards g context m (fun r => (settle r).mapError g.policy.verdict) (run (judged p) g) := by
  have hpass := passes_judged p g
  cases h with
  | entered hfree h =>
    rw [h.after] at hpass
    exact (Guards.entered hfree h).pass hpass rfl
  | refused hheld hcontext h =>
    rw [h.after] at hpass
    exact (Guards.refused hheld hcontext h).pass hpass rfl
  | waiting hcontext h =>
    refine .waiting hcontext ?_
    rw [hpass.result, h]
    rfl

theorem Guards.over {settle' : Except Fault δ → Except Fault β} {o : GuardOutcome β} (f : α → δ)
    (h : Guards g context m settle o) (hsettle : ∀ r, settle r = settle' (r.map f)) :
    Guards g context (f <$> m) settle' o := by
  cases h with
  | entered hfree h =>
    obtain ⟨hafter, hresult⟩ := Heap.run_map f m g.heap
    refine .entered hfree ⟨h.events, ?_, ?_⟩
    · rw [h.after, hafter]
    · rw [h.result, hresult, hsettle]
  | refused hheld hcontext h =>
    refine .refused hheld hcontext ⟨h.events, h.after, ?_⟩
    rw [h.result, hsettle]
    rfl
  | waiting hcontext h => exact .waiting hcontext h

theorem run_allocate (context : CallContext) (request : Nat) (g : GuardedHeap) :
    run (allocate context request) g =
      run (judged (withHeap context (Heap.allocate request g.owner))) g := by
  have hread : (modifyGet fun s => (s.guarded.owner, s) : GuardM Owner) ⟨g, [], []⟩ =
      .ok g.owner ⟨g, [], []⟩ := rfl
  simp only [run, allocate, judged, bind_ok hread]

theorem guards_allocate (context : CallContext) (request : Nat) (g : GuardedHeap) :
    Guards g context (Heap.allocate request g.owner) (Except.mapError g.policy.verdict)
      (run (allocate context request) g) := by
  rw [run_allocate]
  exact (guards_withHeap context (Heap.allocate request g.owner) g).judged

end GuardedHeap

namespace Call

open GuardedHeap

def context : Call → CallContext
  | allocate context _ | allocate? context _ | release context _ => context
  | _ => .task

def perform : Call → GuardM Answer
  | allocate context request => .address <$> GuardedHeap.allocate context request
  | allocate? context request => .address? <$> GuardedHeap.allocate? context request
  | release context addr => (fun _ => .done) <$> GuardedHeap.release context addr
  | usableSize addr => .size <$> GuardedHeap.usableSize addr
  | ownedBy owner => .size <$> GuardedHeap.ownedBy owner
  | stats => .stats <$> GuardedHeap.stats
  | merge => (fun _ => .done) <$> GuardedHeap.merge
  | audit => (fun _ => .done) <$> GuardedHeap.audit
  | dump limit => .written <$> GuardedHeap.dump limit

/-- The work of a call on the heap. -/
def work (owner : Owner) : Call → HeapM Answer
  | allocate _ request | allocate? _ request => .address <$> Heap.allocate request owner
  | release _ addr => (fun _ => .done) <$> Heap.release addr
  | usableSize addr => .size <$> Heap.observe fun h => h.usableSize addr
  | ownedBy owner => .size <$> Heap.ownedBy owner
  | stats => .stats <$> Heap.stats
  | merge => (fun _ => .done) <$> Heap.merge
  | audit => (fun _ => .done) <$> Heap.observe Heap.audit
  | dump limit => .written <$> Heap.dump limit

/-- What a call returns when its work ended in `r`. -/
def settle (policy : FaultPolicy) : Call → Except Fault Answer → Except Fault Answer
  | allocate _ _, r | release _ _, r | merge, r => r.mapError policy.verdict
  | allocate? _ _, r =>
    match r.mapError policy.verdict with
    | .ok (.address addr) => .ok (.address? (some addr))
    | .error (.error _) => .ok (.address? none)
    | r => r
  | _, r => r

theorem guards (c : Call) (g : GuardedHeap) :
    Guards g c.context (c.work g.owner) (c.settle g.policy) (run c.perform g) := by
  cases c with
  | allocate context request =>
    have hcall := (guards_allocate context request g).pass (passes_map Answer.address _ g) rfl
    exact hcall.over _ fun r => by cases r <;> rfl
  | allocate? context request =>
    have hwork := (guards_allocate context request g).pass (passes_optional _ g) rfl
    refine (hwork.pass (passes_map Answer.address? _ g) rfl).over _ fun r => ?_
    cases r with
    | ok a => rfl
    | error f =>
      simp only [settle, Except.map, Except.mapError]
      cases g.policy.verdict f <;> rfl
  | release context addr =>
    have hwork := (guards_withHeap context (Heap.release addr) g).judged
    exact (hwork.pass (passes_map _ _ g) rfl).over _ fun r => by cases r <;> rfl
  | usableSize addr =>
    have hwork := guards_locked (Heap.observe fun h => h.usableSize addr) g
    exact (hwork.pass (passes_map Answer.size _ g) rfl).over _ fun r => rfl
  | ownedBy owner =>
    have hwork := guards_locked (Heap.ownedBy owner) g
    exact (hwork.pass (passes_map Answer.size _ g) rfl).over _ fun r => rfl
  | stats =>
    have hwork := guards_locked Heap.stats g
    exact (hwork.pass (passes_map Answer.stats _ g) rfl).over _ fun r => rfl
  | merge =>
    have hwork := (guards_locked Heap.merge g).judged
    exact (hwork.pass (passes_map _ _ g) rfl).over _ fun r => by cases r <;> rfl
  | audit =>
    have hwork := guards_locked (Heap.observe Heap.audit) g
    exact (hwork.pass (passes_map _ _ g) rfl).over _ fun r => rfl
  | dump limit =>
    have hwork := guards_locked (Heap.dump limit) g
    exact (hwork.pass (passes_map Answer.written _ g) rfl).over _ fun r => rfl

def refusal : Call → Except Fault Answer
  | allocate? _ _ => .ok (.address? none)
  | _ => .error (.error .lockContended)

theorem settle_lockContended (c : Call) (policy : FaultPolicy) :
    c.settle policy (.error (.error .lockContended)) = c.refusal := by
  cases c <;> rfl

end Call

/-- What the guard events of one call tell about the mask and the lock. -/
structure Watch where
  mask : UInt32
  held : Bool
  /-- The watched call has taken the lock and not given it back. -/
  mine : Bool

namespace Watch

/-- Nobody takes a held lock or gives back the lock of another, and work needs both the lock and
masked interrupts. -/
def step (w : Watch) : GuardEvent → Option Watch
  | .disable old => if w.mask = old then some { w with mask := 1 } else none
  | .acquire => if w.held then none else some { w with held := true, mine := true }
  | .tryAcquire taken =>
    if taken = !w.held then some { w with held := true, mine := w.mine || taken } else none
  | .work mask held => if w.mine ∧ held = true ∧ mask = 1 then some w else none
  | .release => if w.mine then some { w with held := false, mine := false } else none
  | .restore mask => some { w with mask := mask }

def replay (w : Watch) (events : List GuardEvent) : Option Watch :=
  events.foldlM step w

end Watch

namespace Call

open GuardedHeap

/-- A call ends. The wait for a lock that nobody gives back does not, nor does a walk along a ring
of links. -/
def Ends (c : Call) (g : GuardedHeap) : Prop :=
  (run c.perform g).result ≠ .error .endless

instance (c : Call) (g : GuardedHeap) : Decidable (c.Ends g) :=
  inferInstanceAs (Decidable (_ ≠ _))

/-- A call works on the heap under its own lock only, with interrupts masked, and leaves the mask
and the lock as they were. -/
structure Disciplined (c : Call) (g : GuardedHeap) : Prop where
  entered : g.lock.held = false →
    Entered g c.context (c.work g.owner) (c.settle g.policy) (run c.perform g)
  refused : g.lock.held = true →
    c.context = .privileged ∧ Refused g c.refusal (run c.perform g)
  watched : Watch.replay ⟨g.mask, g.lock.held, false⟩ (run c.perform g).events =
    some ⟨g.mask, g.lock.held, false⟩
  mask : (run c.perform g).after.mask = g.mask
  lock : (run c.perform g).after.lock = g.lock

theorem disciplined {c : Call} (hends : c.Ends g) : c.Disciplined g := by
  have hheld (h : g.lock.held = false) : g.lock.held ≠ true := by
    rw [h]
    exact Bool.false_ne_true
  cases c.guards g with
  | entered hfree h =>
    refine ⟨fun _ => h, fun ht => absurd ht (hheld hfree), ?_, ?_, ?_⟩
    · rw [h.events, hfree]
      cases c.context <;> simp [Watch.replay, Watch.step, CallContext.taking]
    · rw [h.after]
    · rw [h.after]
  | refused ht hcontext h =>
    rw [settle_lockContended] at h
    refine ⟨fun hfree => absurd ht (hheld hfree), fun _ => ⟨hcontext, h⟩, ?_, ?_, ?_⟩
    · rw [h.events, ht]
      simp [Watch.replay, Watch.step]
    · rw [h.after]
    · rw [h.after]
  | waiting _ h => exact absurd h hends

end Call

/-- What happens to a guarded heap: a call, or something that others do between calls. -/
inductive Move where
  | call (c : Call)
  /-- Another context takes the lock or gives it back. -/
  | lock (held : Bool)
  | mask (mask : UInt32)
  | policy (policy : FaultPolicy)
  | task (owner : Owner)
  /-- The heap becomes another one, in whatever state. -/
  | heap (heap : Heap)

namespace Move

def Ends (g : GuardedHeap) : Move → Prop
  | call c => c.Ends g
  | _ => True

def isCall : Move → Bool
  | call _ => true
  | _ => false

end Move

namespace GuardedHeap

/-- A guarded heap after a move. -/
def move (g : GuardedHeap) : Move → GuardedHeap
  | .call c => (run c.perform g).after
  | .lock held => { g with lock := ⟨held⟩ }
  | .mask mask => { g with mask := mask }
  | .policy policy => { g with policy := policy }
  | .task owner => g.switchTo owner
  | .heap heap => { g with heap := heap }

def play (g : GuardedHeap) (moves : List Move) : GuardedHeap := moves.foldl move g

def Ends (g : GuardedHeap) : List Move → Prop
  | [] => True
  | m :: moves => m.Ends g ∧ Ends (g.move m) moves

/-- The mask and the lock, which calls only borrow. -/
def guard (g : GuardedHeap) : UInt32 × Lock := (g.mask, g.lock)

/-- Each call among the moves finds the heap as the moves before it left it. -/
theorem call_disciplined {g : GuardedHeap} {moves : List Move} (hends : g.Ends moves)
    {earlier later : List Move} {c : Call} (hmoves : moves = earlier ++ .call c :: later) :
    c.Disciplined (g.play earlier) := by
  induction earlier generalizing g moves with
  | nil =>
    subst hmoves
    exact Call.disciplined hends.1
  | cons m rest ih =>
    subst hmoves
    exact ih hends.2 rfl

/-- The moves of others do the same to the mask and the lock, whatever the heap is. -/
theorem guard_move {m : Move} (hm : m.isCall = false) {g g' : GuardedHeap}
    (hguard : g.guard = g'.guard) : (g.move m).guard = (g'.move m).guard := by
  obtain ⟨hmask, hlock⟩ := Prod.mk.inj hguard
  cases m with
  | call c => cases hm
  | lock held => exact Prod.ext hmask rfl
  | mask mask => exact Prod.ext rfl hlock
  | policy policy => exact hguard
  | task owner => exact hguard
  | heap heap => exact hguard

theorem guard_play {moves : List Move} {g g' : GuardedHeap} (hguard : g.guard = g'.guard)
    (hends : g.Ends moves) :
    (g.play moves).guard = (g'.play (moves.filter fun m => !m.isCall)).guard := by
  induction moves generalizing g g' with
  | nil => exact hguard
  | cons m rest ih =>
    obtain ⟨hm, hrest⟩ := hends
    cases hcall : m.isCall with
    | false =>
      rw [List.filter_cons_of_pos (by rw [hcall]; rfl)]
      exact ih (guard_move hcall hguard) hrest
    | true =>
      rw [List.filter_cons_of_neg (by rw [hcall]; exact Bool.false_ne_true)]
      refine ih (Eq.trans ?_ hguard) hrest
      cases m with
      | call c =>
        have hc := Call.disciplined hm
        exact Prod.ext hc.mask hc.lock
      | _ => cases hcall

/-- In every sequence of calls that end, between whatever others do to the lock, the mask and the
heap, each call goes by the guard's discipline, and the mask and the lock end up as others alone
would have left them. -/
theorem calls_disciplined (g : GuardedHeap) (moves : List Move) (hends : g.Ends moves) :
    (∀ earlier c later, moves = earlier ++ .call c :: later → c.Disciplined (g.play earlier)) ∧
      (g.play moves).mask = (g.play (moves.filter fun m => !m.isCall)).mask ∧
      (g.play moves).lock = (g.play (moves.filter fun m => !m.isCall)).lock := by
  obtain ⟨hmask, hlock⟩ := Prod.mk.inj (guard_play (g := g) rfl hends)
  exact ⟨fun earlier c later hmoves => call_disciplined hends hmoves, hmask, hlock⟩

/-- Calls of both kinds around a time in which another holds the lock, the last one ending the
program. -/
theorem sample_disciplined :
    let g := ofHeap World.sample.heap 7 .halt none
    let moves := [.call (.allocate .task 8), .lock true, .call (.allocate? .privileged 8),
      .call (.release .privileged (some 0x1008)), .lock false, .call .audit,
      .call (.release .privileged (some 3))]
    g.Ends moves ∧
      ((∀ earlier c later, moves = earlier ++ .call c :: later → c.Disciplined (g.play earlier)) ∧
        (g.play moves).mask = (g.play (moves.filter fun m => !m.isCall)).mask ∧
        (g.play moves).lock = (g.play (moves.filter fun m => !m.isCall)).lock) := by
  intro g moves
  have hends : g.Ends moves := by
    refine ⟨?_, trivial, ?_, ?_, trivial, ?_, ?_, trivial⟩
    all_goals
      show Call.Ends _ _
      decide +kernel
  exact ⟨hends, calls_disciplined g moves hends⟩

end GuardedHeap

end BoundaryHeap
