import BoundaryHeap.Proofs.Policies

namespace BoundaryHeap

namespace Call

open GuardedHeap

/-- The call made from `context`, if it is one of those that can be made from both. -/
def inContext (context : CallContext) : Call → Call
  | allocate _ request => allocate context request
  | allocate? _ request => allocate? context request
  | release _ addr => release context addr
  | c => c

/-- The result of the work as a call returns it: some give no reason when they fail. -/
def plain : Call → Except Fault Answer → Except Fault Answer
  | allocate? _ _, .ok (.address addr) => .ok (.address? (some addr))
  | allocate? _ _, .error (.error _) => .ok (.address? none)
  | _, r => r

/-- The call on a heap that nothing guards. -/
def bare (c : Call) (owner : Owner) (h : Heap) : Outcome Heap Answer :=
  let o := h.run (c.work owner)
  ⟨c.plain o.result, o.after, o.journal⟩

/-- The call finds the lock free and does not fault. -/
structure Smooth (c : Call) (g : GuardedHeap) : Prop where
  free : g.lock.held = false
  spared : ∀ e, ¬ c.Faults g e

variable {c : Call} {g : GuardedHeap}

theorem remarks_eq_nil_iff {r : Except Fault α} :
    remarks r = [] ↔ ∀ e : HeapError, r = .error (.error e) → e.isFatal = false := by
  rcases r with (e | a | _) | a
  · cases hfatal : e.isFatal <;> simp [remarks, hfatal]
  all_goals simp [remarks]

theorem smooth_iff (c : Call) (g : GuardedHeap) : c.Smooth g ↔ g.lock.held = false ∧
    (c.isJudged = true → remarks (g.heap.run (c.work g.owner)).result = []) := by
  constructor
  · intro ⟨hfree, hspared⟩
    refine ⟨hfree, fun hjudged => remarks_eq_nil_iff.2 fun e hwork => ?_⟩
    exact Bool.eq_false_iff.2 fun hfatal =>
      hspared e ⟨hjudged, e.isFatal_iff.1 hfatal, hfree, hwork⟩
  · intro ⟨hfree, hremarks⟩
    refine ⟨hfree, fun e hfaults => ?_⟩
    have hspared := remarks_eq_nil_iff.1 (hremarks hfaults.judged) e hfaults.work
    rw [e.isFatal_iff.2 hfaults.fatal] at hspared
    cases hspared

instance (c : Call) (g : GuardedHeap) : Decidable (c.Smooth g) :=
  decidable_of_iff _ (c.smooth_iff g).symm

theorem verdict_report (f : Fault) : FaultPolicy.report.verdict f = f := by
  cases f with
  | error e => exact if_neg fun h => nomatch h.2
  | _ => rfl

theorem settle_report (c : Call) (r : Except Fault Answer) : c.settle .report r = c.plain r := by
  have hverdict : r.mapError FaultPolicy.report.verdict = r := by
    cases r with
    | error f => exact congrArg Except.error (verdict_report f)
    | ok a => rfl
  cases c with
  | allocate? context request =>
    simp only [settle, hverdict]
    rcases r with f | a
    · cases f <;> rfl
    · cases a <;> rfl
  | _ => simp only [settle, plain, hverdict]

theorem Smooth.run_perform (h : c.Smooth g) :
    let o := run c.perform g
    let o' := c.bare g.owner g.heap
    o.result = o'.result ∧ o.after = { g with heap := o'.after } ∧ o.journal = o'.journal := by
  have hquiet := ((c.smooth_iff g).1 h).2
  rw [run_free c h.free]
  refine ⟨?_, rfl, ?_⟩
  · exact (settle_policy h.free h.spared g.policy .report).trans (c.settle_report _)
  · show _ ++ (if c.isJudged then _ else []) = _
    cases hjudged : c.isJudged with
    | true => rw [if_pos rfl, hquiet hjudged, List.append_nil]; rfl
    | false => rw [if_neg Bool.false_ne_true, List.append_nil]; rfl

theorem work_inContext (c : Call) (context : CallContext) (owner : Owner) :
    (c.inContext context).work owner = c.work owner := by
  cases c <;> rfl

theorem plain_inContext (c : Call) (context : CallContext) (r : Except Fault Answer) :
    (c.inContext context).plain r = c.plain r := by
  rw [← settle_report, ← settle_report]
  cases c <;> rfl

theorem isJudged_inContext (c : Call) (context : CallContext) :
    (c.inContext context).isJudged = c.isJudged := by
  cases c <;> rfl

theorem bare_inContext (c : Call) (context : CallContext) (owner : Owner) (h : Heap) :
    (c.inContext context).bare owner h = c.bare owner h := by
  rw [bare, bare, work_inContext, plain_inContext]

theorem smooth_inContext (h : c.Smooth g) (context : CallContext) :
    (c.inContext context).Smooth g := by
  rw [smooth_iff, work_inContext, isJudged_inContext]
  exact (c.smooth_iff g).1 h

end Call

inductive Move.Twin : Move → Move → Prop
  | same (m : Move) : Twin m m
  | other (c : Call) (context : CallContext) : Twin (.call c) (.call (c.inContext context))

/-- What the calls among some moves answer on a heap that nothing guards, and what heaps they
leave, while `task` tells the running task. -/
def Heap.answers (h : Heap) (task : Option Owner) : List Move → List (Outcome Heap Answer)
  | [] => []
  | .call c :: moves =>
    let o := c.bare (task.getD .kernel) h
    o :: answers o.after task moves
  | .task owner :: moves => answers h (task.map fun _ => owner) moves
  | .heap h :: moves => answers h task moves
  | _ :: moves => answers h task moves

namespace GuardedHeap

def answers (g : GuardedHeap) : List Move → List (Outcome Heap Answer)
  | [] => []
  | .call c :: moves =>
    let o := run c.perform g
    ⟨o.result, o.after.heap, o.journal⟩ :: answers o.after moves
  | m :: moves => answers (g.move m) moves

def Smooth (g : GuardedHeap) : List Move → Prop
  | [] => True
  | .call c :: moves => c.Smooth g ∧ Smooth (g.move (.call c)) moves
  | m :: moves => Smooth (g.move m) moves

variable {g : GuardedHeap} {moves twins : List Move}

theorem answers_eq_bare (hsmooth : g.Smooth moves) :
    g.answers moves = g.heap.answers g.task moves := by
  induction moves generalizing g with
  | nil => rfl
  | cons m rest ih =>
    cases m with
    | call c =>
      obtain ⟨hcall, hrest⟩ := hsmooth
      obtain ⟨hresult, hafter, hjournal⟩ := hcall.run_perform
      have htail := ih hrest
      rw [move, hafter] at htail
      rw [answers, hresult, hjournal, hafter, htail]
      rfl
    | _ => exact ih hsmooth

theorem bare_twins (htwins : List.Forall₂ Move.Twin moves twins) (h : Heap)
    (task : Option Owner) : h.answers task twins = h.answers task moves := by
  induction htwins generalizing h task with
  | nil => rfl
  | @cons m m' _ _ hm _ ih =>
    cases hm with
    | same =>
      cases m with
      | call c => exact congrArg (List.cons _) (ih _ task)
      | _ => exact ih _ _
    | other c context =>
      rw [Heap.answers, Heap.answers, Call.bare_inContext]
      exact congrArg (List.cons _) (ih _ task)

theorem smooth_twins (htwins : List.Forall₂ Move.Twin moves twins) (hsmooth : g.Smooth moves) :
    g.Smooth twins := by
  induction htwins generalizing g with
  | nil => trivial
  | @cons m m' _ _ hm _ ih =>
    cases hm with
    | same =>
      cases m with
      | call c => exact ⟨hsmooth.1, ih hsmooth.2⟩
      | _ => exact ih hsmooth
    | other c context =>
      obtain ⟨hcall, hrest⟩ := hsmooth
      have htwin := Call.smooth_inContext hcall context
      refine ⟨htwin, ih ?_⟩
      rw [move, htwin.run_perform.2.1, Call.bare_inContext, ← hcall.run_perform.2.1]
      exact hrest

/-- The guard adds nothing but the way to the lock: calls that find it free and do not fault answer
and leave the heap as the bare heap does, whichever contexts they are made from. -/
theorem answers_unguarded (g : GuardedHeap) (moves twins : List Move) (hsmooth : g.Smooth moves)
    (htwins : List.Forall₂ Move.Twin moves twins) :
    g.answers twins = g.answers moves ∧ g.answers moves = g.heap.answers g.task moves := by
  refine ⟨?_, answers_eq_bare hsmooth⟩
  rw [answers_eq_bare (smooth_twins htwins hsmooth), bare_twins htwins, answers_eq_bare hsmooth]

/-- Two tasks take turns, one request is too large, and every call changes its context. -/
theorem sample_unguarded :
    let g := ofHeap World.sample.heap 7 .halt (some .kernel)
    let moves := [.call (.allocate .task 8), .task ⟨5⟩, .call (.allocate? .task 80),
      .call (.release .task (some 0x1008))]
    let twins := [.call (.allocate .privileged 8), .task ⟨5⟩, .call (.allocate? .privileged 80),
      .call (.release .privileged (some 0x1008))]
    (g.Smooth moves ∧ List.Forall₂ Move.Twin moves twins) ∧
      g.answers twins = g.answers moves ∧ g.answers moves = g.heap.answers g.task moves := by
  intro g moves twins
  have hsmooth : g.Smooth moves := by
    refine ⟨?_, ?_, ?_, trivial⟩
    all_goals
      show Call.Smooth _ _
      decide +kernel
  have htwins : List.Forall₂ Move.Twin moves twins :=
    .cons (.other _ _) <| .cons (.same _) <| .cons (.other _ _) <| .cons (.other _ _) .nil
  exact ⟨⟨hsmooth, htwins⟩, answers_unguarded g moves twins hsmooth htwins⟩

end GuardedHeap

end BoundaryHeap
