import BoundaryHeap.Proofs.Discipline

namespace BoundaryHeap

def GuardOutcome.through (o : GuardOutcome α) (k : Except Fault α → Except Fault β) :
    GuardOutcome β :=
  ⟨⟨k o.result, o.after, o.journal⟩, o.events⟩

def remarks : Except Fault α → List Record
  | .error (.error e) => if e.isFatal then [.faulted e] else []
  | _ => []

theorem HeapError.isFatal_iff (e : HeapError) : e.isFatal = true ↔
    (∃ addr reason, e = .invalidFree addr reason) ∨
      ∃ offset damage, e = .corruptState offset damage := by
  cases e <;> simp [isFatal]

theorem remarks_map (f : α → β) (r : Except Fault α) : remarks (r.map f) = remarks r := by
  rcases r with (_ | _ | _) | _ <;> rfl

namespace Heap

theorem journal_map (f : α → β) (m : HeapM α) (h : Heap) :
    (run (f <$> m) h).journal = (run m h).journal := by
  simp only [run, Functor.map, EStateM.map]
  cases m ⟨h, []⟩ with
  | ok a s => rfl
  | error f s => rfl

/-- Whatever the program notes, it is no error. -/
def Calm (m : HeapM α) : Prop :=
  ∀ s, (∀ r ∈ s.journal, r.level ≠ .error) →
    match m s with
    | .ok _ s' | .error _ s' => ∀ r ∈ s'.journal, r.level ≠ .error

namespace Calm

theorem pure (a : α) : Calm (pure a) :=
  fun _ hs => hs

theorem throw (f : Fault) : Calm (throw f : HeapM α) :=
  fun _ hs => hs

theorem note {r : Record} (hr : r.level ≠ .error) : Calm (note r) := by
  intro s hs r' hr'
  rcases List.mem_append.1 hr' with hold | hnew
  · exact hs r' hold
  · rw [List.mem_singleton.1 hnew]
    exact hr

theorem observe (g : Heap → Except Fault α) : Calm (observe g) := by
  intro s hs
  simp only [Heap.observe]
  cases g s.heap with
  | ok a => exact hs
  | error f => exact hs

theorem check (p : Prop) [Decidable p] (f : Fault) : Calm (check p f) := by
  intro s hs
  by_cases hp : p
  · simpa only [Heap.check, if_pos hp] using hs
  · simpa only [Heap.check, if_neg hp] using hs

theorem adjust (g : Heap → Heap) : Calm (adjust g) :=
  fun _ hs => hs

theorem lift (m : StoreM α) : Calm (liftM m) := by
  intro s hs
  obtain ⟨⟨store, live, lastSize, counters⟩, journal⟩ := s
  show match onStore m _ with
    | .ok _ s' | .error _ s' => ∀ r ∈ s'.journal, r.level ≠ .error
  simp only [onStore]
  cases m store with
  | ok a store => exact hs
  | error f store => exact hs

theorem bind {m : HeapM α} {k : α → HeapM β} (hm : Calm m) (hk : ∀ a, Calm (k a)) :
    Calm (m >>= k) := by
  intro s hs
  have hfirst := hm s hs
  simp only [Bind.bind, EStateM.bind]
  cases hrun : m s with
  | ok a s' =>
    rw [hrun] at hfirst
    exact hk a s' hfirst
  | error f s' =>
    rw [hrun] at hfirst
    exact hfirst

theorem map {m : HeapM α} (f : α → β) (hm : Calm m) : Calm (f <$> m) := by
  rw [map_eq_pure_bind]
  exact hm.bind fun a => pure (f a)

theorem run {m : HeapM α} (hm : Calm m) (h : Heap) :
    ∀ r ∈ (h.run m).journal, r.level ≠ .error := by
  have hall := hm ⟨h, []⟩ fun r hr => absurd hr List.not_mem_nil
  simp only [Heap.run]
  cases hrun : m ⟨h, []⟩ with
  | ok a s =>
    rw [hrun] at hall
    exact hall
  | error f s =>
    rw [hrun] at hall
    exact hall

end Calm

theorem calm_mergeWithin (fuel : Nat) : Calm (mergeWithin fuel) :=
  (Calm.lift _).bind fun _ => .note (by simp [Record.level])

theorem calm_merge : Calm merge :=
  (Calm.observe _).bind fun fuel => calm_mergeWithin fuel

theorem calm_cutFitting (fuel size : Nat) {found : HeapM Unit} (hfound : Calm found) :
    Calm (cutFitting fuel size found) := by
  apply (Calm.lift _).bind
  rintro (_ | c)
  · exact .pure none
  · exact hfound.bind fun _ => (Calm.observe _).bind fun _ => (Calm.lift _).bind fun _ => .pure _

theorem calm_search (fuel size : Nat) : Calm (search fuel size) := by
  have hserved {r : Record} (hr : r.level ≠ .error) (c : Nat) :
      Calm (do note r; return some c) := (Calm.note hr).bind fun _ => .pure _
  apply (Calm.lift _).bind
  rintro (_ | c)
  · apply (Calm.lift _).bind
    rintro (_ | c)
    · apply (Calm.lift _).bind
      rintro (_ | c)
      · apply (calm_cutFitting fuel size (.pure ())).bind
        rintro (_ | c)
        · refine (calm_mergeWithin fuel).bind fun _ => calm_cutFitting fuel size (.note ?_)
          simp [Record.level]
        · exact .pure _
      · exact hserved (by simp [Record.level]) c
    · exact hserved (by simp [Record.level]) c
  · exact hserved (by simp [Record.level]) c

theorem calm_refuse (request : Nat) : Calm (refuse request : HeapM α) :=
  (Calm.adjust _).bind fun _ => (Calm.observe _).bind fun _ =>
    (Calm.note (by simp [Record.level])).bind fun _ => .throw _

theorem calm_remark (c : Nat) (change : LiveMap → Nat → Option LiveMap) :
    Calm (remark c change) :=
  (Calm.observe _).bind fun _ => .adjust _

theorem calm_handOut (c size : Nat) (owner : Owner) : Calm (handOut c size owner) :=
  (Calm.lift _).bind fun _ => (Calm.lift _).bind fun _ => (Calm.lift _).bind fun _ =>
    (calm_remark c _).bind fun _ => (Calm.observe _).bind fun _ => (Calm.check _ _).bind fun _ =>
      (Calm.adjust _).bind fun _ => (Calm.observe _).bind fun _ => (Calm.check _ _).bind fun _ =>
        .pure _

theorem calm_allocate (request : Nat) (owner : Owner) : Calm (allocate request owner) := by
  refine (Calm.observe _).bind fun fuel => (Calm.observe _).bind fun len => ?_
  cases chunkSize? request with
  | none => exact calm_refuse request
  | some size =>
    by_cases hsize : len < size
    · simpa only [if_pos hsize] using calm_refuse request
    · simp only [if_neg hsize]
      apply (calm_search fuel size).bind
      rintro (_ | c)
      · exact calm_refuse request
      · exact calm_handOut c size owner

theorem calm_release (addr : Option Nat) : Calm (release addr) := by
  cases addr with
  | none => exact .pure ()
  | some addr =>
    exact (Calm.observe _).bind fun _ => (Calm.lift _).bind fun _ => (Calm.lift _).bind fun _ =>
      (calm_remark _ _).bind fun _ => (Calm.lift _).bind fun _ => (Calm.observe _).bind fun _ =>
        (Calm.check _ _).bind fun _ => .adjust _

end Heap

namespace GuardedHeap

def under (g : GuardedHeap) (policy : FaultPolicy) : GuardedHeap := { g with policy := policy }

def guarding (g : GuardedHeap) (context : CallContext) (m : HeapM α) : GuardOutcome α :=
  if g.lock.held then
    match context with
    | .task => ⟨⟨.error .endless, { g with mask := 1 }, []⟩, [.disable g.mask]⟩
    | .privileged =>
      ⟨⟨.error (.error .lockContended), g, [.contended]⟩,
        [.disable g.mask, .tryAcquire false, .restore g.mask]⟩
  else
    let o := g.heap.run m
    ⟨⟨o.result, { g with heap := o.after }, o.journal⟩,
      [.disable g.mask, context.taking, .work 1 true, .release, .restore g.mask]⟩

variable {α β : Type} {g : GuardedHeap}

theorem guarding_free (hfree : g.lock.held = false) (context : CallContext) (m : HeapM α) :
    g.guarding context m =
      ⟨⟨(g.heap.run m).result, { g with heap := (g.heap.run m).after }, (g.heap.run m).journal⟩,
        [.disable g.mask, context.taking, .work 1 true, .release, .restore g.mask]⟩ := by
  simp only [guarding, hfree, Bool.false_eq_true, if_false]

theorem run_withHeap (context : CallContext) (m : HeapM α) (g : GuardedHeap) :
    run (withHeap context m) g = g.guarding context m := by
  obtain ⟨heap, ⟨held⟩, mask, policy, task⟩ := g
  cases held with
  | true => cases context <;> rfl
  | false =>
    have hrun : withHeap context m ⟨⟨heap, ⟨false⟩, mask, policy, task⟩, [], []⟩ =
        finish mask m ⟨⟨heap, ⟨true⟩, 1, policy, task⟩, [], [.disable mask, context.taking]⟩ := by
      cases context <;> rfl
    simp only [run, guarding, Heap.run, hrun, run_finish]
    cases m ⟨heap, []⟩ with
    | ok a s => rfl
    | error f s => rfl

theorem guarding_map (g : GuardedHeap) (context : CallContext) (f : α → β) (m : HeapM α) :
    g.guarding context (f <$> m) = (g.guarding context m).through (Except.map f) := by
  obtain ⟨hafter, hresult⟩ := Heap.run_map f m g.heap
  simp only [guarding, hafter, hresult, Heap.journal_map]
  split
  · cases context <;> rfl
  · rfl

theorem guarding_under (g : GuardedHeap) (context : CallContext) (m : HeapM α)
    (policy : FaultPolicy) :
    let o := g.guarding context m
    (g.under policy).guarding context m =
      ⟨⟨o.result, o.after.under policy, o.journal⟩, o.events⟩ := by
  obtain ⟨heap, ⟨held⟩, mask, old, task⟩ := g
  cases held with
  | false => rfl
  | true => cases context <;> rfl

theorem guarding_policy (g : GuardedHeap) (context : CallContext) (m : HeapM α) :
    (g.guarding context m).after.policy = g.policy := by
  unfold guarding
  split
  · cases context <;> rfl
  · rfl

theorem run_map (k : α → β) (p : GuardM α) (g : GuardedHeap) :
    run (k <$> p) g = (run p g).through (Except.map k) := by
  simp only [run, Functor.map, EStateM.map]
  cases p ⟨g, [], []⟩ with
  | ok a s => rfl
  | error f s => rfl

theorem run_optional (p : GuardM α) (g : GuardedHeap) :
    run (optional p) g = (run p g).through unreasoned := by
  simp only [run, optional]
  cases p ⟨g, [], []⟩ with
  | ok a s => rfl
  | error f s => cases f <;> rfl

theorem judge_eq (e : HeapError) (s : GuardSession) :
    judge (α := β) e s = .error (s.guarded.policy.verdict (.error e))
      { s with journal := s.journal ++ remarks (.error (.error e) : Except Fault β) } := by
  obtain ⟨⟨heap, lock, mask, policy, task⟩, journal, events⟩ := s
  rw [judge, remarks, FaultPolicy.verdict]
  cases e.isFatal with
  | false =>
    simp only [Bool.false_eq_true, false_and, if_false, List.append_nil]
    rfl
  | true => cases policy <;> rfl

theorem run_judged (p : GuardM α) (g : GuardedHeap) :
    let o := run p g
    run (judged p) g = ⟨⟨o.result.mapError o.after.policy.verdict, o.after,
      o.journal ++ remarks o.result⟩, o.events⟩ := by
  simp only [run, judged]
  cases p ⟨g, [], []⟩ with
  | ok a s => simp only [remarks, Except.mapError, List.append_nil]
  | error f s =>
    cases f with
    | error e => simp only [judge_eq]; rfl
    | abort a => simp only [remarks, Except.mapError, FaultPolicy.verdict, List.append_nil]
    | endless => simp only [remarks, Except.mapError, FaultPolicy.verdict, List.append_nil]

theorem run_locked (k : α → β) (m : HeapM α) (g : GuardedHeap) :
    run (k <$> locked m) g = g.guarding .task (k <$> m) := by
  rw [run_map, guarding_map, ← run_withHeap]
  rfl

theorem run_judged_withHeap (context : CallContext) (m : HeapM α) (g : GuardedHeap) :
    let o := g.guarding context m
    run (judged (withHeap context m)) g =
      ⟨⟨o.result.mapError g.policy.verdict, o.after, o.journal ++ remarks o.result⟩, o.events⟩ := by
  rw [run_judged, run_withHeap, guarding_policy]

theorem run_guarded (k : α → β) (context : CallContext) (m : HeapM α) (g : GuardedHeap) :
    let o := g.guarding context (k <$> m)
    run (k <$> judged (withHeap context m)) g =
      ⟨⟨o.result.mapError g.policy.verdict, o.after, o.journal ++ remarks o.result⟩, o.events⟩ := by
  rw [run_map, run_judged_withHeap]
  simp only [guarding_map, GuardOutcome.through, remarks_map]
  cases (g.guarding context m).result <;> rfl

end GuardedHeap

namespace Call

open GuardedHeap

/-- The calls whose errors go to the judge. -/
def isJudged : Call → Bool
  | allocate _ _ | allocate? _ _ | release _ _ | merge => true
  | _ => false

def close (c : Call) (policy : FaultPolicy) (o : GuardOutcome Answer) : GuardOutcome Answer :=
  ⟨⟨c.settle policy o.result, o.after, o.journal ++ if c.isJudged then remarks o.result else []⟩,
    o.events⟩

theorem settle_of_not_judged {c : Call} (hjudged : c.isJudged = false) (policy : FaultPolicy)
    (r : Except Fault Answer) : c.settle policy r = r := by
  cases c <;> first | rfl | cases hjudged

theorem settle_allocate? (context : CallContext) (request : Nat) (policy : FaultPolicy)
    (r : Except Fault Nat) : settle policy (allocate? context request) (r.map .address) =
      (unreasoned (r.mapError policy.verdict)).map .address? := by
  rcases r with f | addr
  · simp only [settle, Except.map, Except.mapError]
    cases policy.verdict f <;> rfl
  · rfl

theorem close_of_not_judged {c : Call} (hjudged : c.isJudged = false) (policy : FaultPolicy)
    (o : GuardOutcome Answer) : c.close policy o = o := by
  rw [close, settle_of_not_judged hjudged, hjudged, if_neg Bool.false_ne_true, List.append_nil]

/-- A call is its work under the guard, closed by a verdict. -/
theorem run_perform (c : Call) (g : GuardedHeap) :
    run c.perform g = c.close g.policy (g.guarding c.context (c.work g.owner)) := by
  cases c with
  | allocate context request =>
    rw [perform, run_map, run_allocate, ← run_map]
    exact run_guarded Answer.address context _ g
  | allocate? context request =>
    rw [perform, run_map, GuardedHeap.allocate?, run_optional, run_allocate, run_judged_withHeap]
    simp only [close, work, Call.context, guarding_map, GuardOutcome.through, remarks_map,
      settle_allocate?, isJudged, if_true]
  | release context addr => exact run_guarded _ context (Heap.release addr) g
  | usableSize addr => exact (run_locked _ _ g).trans (close_of_not_judged rfl _ _).symm
  | ownedBy owner => exact (run_locked _ _ g).trans (close_of_not_judged rfl _ _).symm
  | stats => exact (run_locked _ _ g).trans (close_of_not_judged rfl _ _).symm
  | merge => exact run_guarded _ .task Heap.merge g
  | audit => exact (run_locked _ _ g).trans (close_of_not_judged rfl _ _).symm
  | dump limit => exact (run_locked _ _ g).trans (close_of_not_judged rfl _ _).symm

/-- What a call returns at an error that does not end the program. -/
def failure (e : HeapError) : Call → Except Fault Answer
  | allocate? _ _ => .ok (.address? none)
  | _ => .error (.error e)

/-- The work of a call that is judged ends in a fatal error. -/
structure Faults (c : Call) (g : GuardedHeap) (e : HeapError) : Prop where
  judged : c.isJudged = true
  fatal : (∃ addr reason, e = .invalidFree addr reason) ∨
    ∃ offset damage, e = .corruptState offset damage
  free : g.lock.held = false
  work : (g.heap.run (c.work g.owner)).result = .error (.error e)

variable {c : Call} {g h r : GuardedHeap} {e : HeapError} {policy : FaultPolicy}

theorem settle_error (c : Call) (policy : FaultPolicy) (e : HeapError) :
    c.settle policy (.error (.error e)) =
      if c.isJudged ∧ e.isFatal ∧ policy = .halt then .error (.abort (.halted e))
      else c.failure e := by
  have hverdict : policy.verdict (.error e) =
      if e.isFatal ∧ policy = .halt then .abort (.halted e) else .error e := rfl
  by_cases hend : e.isFatal ∧ policy = .halt
  · rw [if_pos hend] at hverdict
    simp only [hend, and_self, and_true]
    rw [hend.2] at hverdict
    cases c <;> simp [settle, Except.mapError, hverdict, isJudged, failure]
  · rw [if_neg hend] at hverdict
    simp only [hend, and_false, if_false]
    cases c <;> simp only [settle, Except.mapError, hverdict, failure]

theorem settle_abort (c : Call) (policy : FaultPolicy) (a : Abort) :
    c.settle policy (.error (.abort a)) = .error (.abort a) := by
  cases c <;> rfl

theorem settle_endless (c : Call) (policy : FaultPolicy) :
    c.settle policy (.error .endless) = .error .endless := by
  cases c <;> rfl

theorem settle_ok (c : Call) (a : Answer) : ∃ b, ∀ policy, c.settle policy (.ok a) = .ok b := by
  cases c with
  | allocate? context request => cases a <;> exact ⟨_, fun _ => rfl⟩
  | _ => exact ⟨a, fun _ => rfl⟩

theorem failure_ne_abort (c : Call) (e : HeapError) (a : Abort) :
    c.failure e ≠ .error (.abort a) := by
  cases c <;> exact fun h => nomatch h

theorem run_free (c : Call) (hfree : g.lock.held = false) :
    let o := g.heap.run (c.work g.owner)
    run c.perform g = ⟨⟨c.settle g.policy o.result, { g with heap := o.after },
      o.journal ++ if c.isJudged then remarks o.result else []⟩,
      [.disable g.mask, c.context.taking, .work 1 true, .release, .restore g.mask]⟩ := by
  rw [run_perform, guarding_free hfree, close]

theorem result_held (c : Call) (hheld : g.lock.held = true) :
    (run c.perform g).result =
      match c.context with
      | .task => .error .endless
      | .privileged => c.failure .lockContended := by
  rw [run_perform]
  simp only [close, guarding, hheld, if_true]
  cases c.context with
  | task => exact settle_endless c g.policy
  | privileged =>
    refine (settle_error c g.policy .lockContended).trans (if_neg fun h => ?_)
    cases h.2.1

theorem run_under (c : Call) (g : GuardedHeap) (policy : FaultPolicy) :
    let o := run c.perform g
    let o' := run c.perform (g.under policy)
    o'.after = o.after.under policy ∧ o'.journal = o.journal ∧ o'.events = o.events := by
  rw [run_perform, run_perform]
  show (c.close policy ((g.under policy).guarding c.context (c.work g.owner))).after = _ ∧
    (c.close policy ((g.under policy).guarding c.context (c.work g.owner))).journal = _ ∧
    (c.close policy ((g.under policy).guarding c.context (c.work g.owner))).events = _
  rw [guarding_under]
  exact ⟨rfl, rfl, rfl⟩

theorem calm_work {c : Call} (hjudged : c.isJudged = true) (owner : Owner) :
    Heap.Calm (c.work owner) := by
  cases c with
  | allocate context request => exact (Heap.calm_allocate request owner).map _
  | allocate? context request => exact (Heap.calm_allocate request owner).map _
  | release context addr => exact (Heap.calm_release addr).map _
  | merge => exact Heap.calm_merge.map _
  | _ => cases hjudged

/-- A call under the two policies differs in its result at most, and only if it faults. -/
theorem settle_policy (hfree : g.lock.held = false) (hfaults : ∀ e, ¬ c.Faults g e)
    (policy policy' : FaultPolicy) :
    c.settle policy (g.heap.run (c.work g.owner)).result =
      c.settle policy' (g.heap.run (c.work g.owner)).result := by
  rcases hwork : (g.heap.run (c.work g.owner)).result with (e | a | _) | a
  · have hspared : ¬ (c.isJudged = true ∧ e.isFatal = true) :=
      fun ⟨hjudged, hfatal⟩ => hfaults e ⟨hjudged, e.isFatal_iff.1 hfatal, hfree, hwork⟩
    rw [settle_error, settle_error, if_neg fun h => hspared ⟨h.1, h.2.1⟩,
      if_neg fun h => hspared ⟨h.1, h.2.1⟩]
  · rw [settle_abort, settle_abort]
  · rw [settle_endless, settle_endless]
  · obtain ⟨b, hb⟩ := settle_ok c a
    rw [hb, hb]

theorem settle_eq_abort_iff (c : Call) (policy : FaultPolicy) (r : Except Fault Answer)
    (a : Abort) : c.settle policy r = .error (.abort a) ↔ r = .error (.abort a) ∨
      ∃ e, r = .error (.error e) ∧ c.isJudged = true ∧ e.isFatal = true ∧ policy = .halt ∧
        a = .halted e := by
  rcases r with (e | a' | _) | b
  · rw [settle_error]
    split
    next hend =>
      simp only [Except.error.injEq, Fault.abort.injEq, reduceCtorEq, false_or]
      constructor
      · rintro rfl
        exact ⟨e, rfl, hend.1, hend.2.1, hend.2.2, rfl⟩
      · rintro ⟨_, he, -, -, -, rfl⟩
        rw [Fault.error.inj he]
    next hend =>
      refine ⟨fun h => absurd h (failure_ne_abort c e a), ?_⟩
      rintro (h | ⟨_, he, hjudged, hfatal, hpolicy, -⟩)
      · cases h
      · cases he
        exact absurd ⟨hjudged, hfatal, hpolicy⟩ hend
  · rw [settle_abort]
    simp
  · rw [settle_endless]
    simp
  · obtain ⟨b', hb⟩ := settle_ok c b
    rw [hb]
    simp

/-- How a call that faults goes on the halting heap `h` and on the reporting heap `r`. -/
structure Stops (c : Call) (h r : GuardedHeap) (e : HeapError) : Prop where
  halted : (run c.perform h).result = .error (.abort (.halted e))
  reported : (run c.perform r).result = c.failure e
  /-- The fault is the only error that is noted. -/
  noted : (run c.perform h).journal.filter (fun n => n.level = .error) = [.faulted e]
  /-- The lock and the mask are given back. -/
  events : (run c.perform h).events =
    [.disable h.mask, c.context.taking, .work 1 true, .release, .restore h.mask]
  after : (run c.perform h).after = { h with heap := (r.heap.run (c.work r.owner)).after }

/-- A call goes on the halting heap `h` as on the reporting heap `r`, but for the result of a call
that faults. -/
structure Parts (c : Call) (h r : GuardedHeap) : Prop where
  before : h = r.under .halt
  after : (run c.perform h).after = (run c.perform r).after.under .halt
  journal : (run c.perform h).journal = (run c.perform r).journal
  events : (run c.perform h).events = (run c.perform r).events
  result : (∀ e, ¬ c.Faults r e) → (run c.perform h).result = (run c.perform r).result
  stops : ∀ e, c.Faults r e → c.Stops h r e

/-- Under no policy does an error end the program, but a fault under the halting one. -/
structure Survives (c : Call) (g : GuardedHeap) : Prop where
  contended : g.lock.held = true → c.context = .privileged →
    (run c.perform g).result = c.failure .lockContended
  spared : ∀ e, g.lock.held = false → (g.heap.run (c.work g.owner)).result = .error (.error e) →
    (c.isJudged = true → (∀ addr reason, e ≠ .invalidFree addr reason) ∧
      ∀ offset damage, e ≠ .corruptState offset damage) →
    (run c.perform g).result = c.failure e
  panics : ∀ a, (run c.perform g).result = .error (.abort a) ↔ g.lock.held = false ∧
    ((g.heap.run (c.work g.owner)).result = .error (.abort a) ∨
      ∃ e, c.Faults g e ∧ g.policy = .halt ∧ a = .halted e)

theorem noted_of_faults (hfaults : c.Faults g e) :
    (run c.perform g).journal.filter (fun n => n.level = .error) = [.faulted e] := by
  have hfatal := e.isFatal_iff.2 hfaults.fatal
  have hcalm := (calm_work hfaults.judged g.owner).run g.heap
  have hquiet : (g.heap.run (c.work g.owner)).journal.filter (fun n => n.level = .error) = [] :=
    List.filter_eq_nil_iff.2 fun n hn => by simpa using hcalm n hn
  rw [run_free c hfaults.free]
  simp only [hfaults.work, hfaults.judged, remarks, hfatal, if_true, List.filter_append,
    hquiet, List.nil_append]
  simp [Record.level]

theorem stops (hfaults : c.Faults r e) (hpolicy : r.policy = .report) :
    c.Stops (r.under .halt) r e := by
  have hhalted : c.Faults (r.under .halt) e :=
    ⟨hfaults.judged, hfaults.fatal, hfaults.free, hfaults.work⟩
  have hrun := run_free c hhalted.free
  refine ⟨?_, ?_, noted_of_faults hhalted, ?_, ?_⟩
  · rw [hrun]
    simp only [hhalted.work, settle_error]
    exact if_pos ⟨hfaults.judged, e.isFatal_iff.2 hfaults.fatal, rfl⟩
  · rw [run_free c hfaults.free]
    simp only [hfaults.work, settle_error, hpolicy]
    exact if_neg fun h => nomatch h.2.2
  · rw [hrun]
  · rw [hrun]
    rfl

theorem parts (c : Call) (hpolicy : r.policy = .report) : c.Parts (r.under .halt) r := by
  obtain ⟨hafter, hjournal, hevents⟩ := run_under c r .halt
  refine ⟨rfl, hafter, hjournal, hevents, fun hfaults => ?_, fun e he => stops he hpolicy⟩
  cases hlock : r.lock.held with
  | true => rw [result_held c hlock, result_held c (g := r.under .halt) hlock]
  | false =>
    rw [run_free c hlock, run_free c (g := r.under .halt) hlock]
    exact settle_policy hlock hfaults .halt r.policy

theorem survives (c : Call) (g : GuardedHeap) : c.Survives g := by
  refine ⟨fun hheld hcontext => ?_, fun e hfree hwork hspared => ?_, fun a => ?_⟩
  · rw [result_held c hheld, hcontext]
  · rw [run_free c hfree]
    simp only [hwork, settle_error]
    refine if_neg fun ⟨hjudged, hfatal, _⟩ => ?_
    obtain ⟨hfree, hcorrupt⟩ := hspared hjudged
    obtain ⟨addr, reason, he⟩ | ⟨offset, damage, he⟩ := e.isFatal_iff.1 hfatal
    · exact hfree addr reason he
    · exact hcorrupt offset damage he
  · cases hlock : g.lock.held with
    | true =>
      refine ⟨fun h => ?_, fun h => nomatch h.1⟩
      rw [result_held c hlock] at h
      cases hcontext : c.context with
      | task =>
        rw [hcontext] at h
        cases h
      | privileged =>
        rw [hcontext] at h
        exact absurd h (failure_ne_abort c _ a)
    | false =>
      rw [run_free c hlock]
      refine (settle_eq_abort_iff c g.policy _ a).trans ?_
      simp only [true_and]
      refine or_congr_right ⟨?_, ?_⟩
      · rintro ⟨e, hwork, hjudged, hfatal, hpolicy, ha⟩
        exact ⟨e, ⟨hjudged, e.isFatal_iff.1 hfatal, hlock, hwork⟩, hpolicy, ha⟩
      · rintro ⟨e, hfaults, hpolicy, ha⟩
        exact ⟨e, hfaults.work, hfaults.judged, e.isFatal_iff.2 hfaults.fatal, hpolicy, ha⟩

end Call

namespace GuardedHeap

theorem under_move {m : Move} (hm : ∀ p, m ≠ .policy p) (g : GuardedHeap) (policy : FaultPolicy) :
    (g.under policy).move m = (g.move m).under policy := by
  cases m with
  | call c => exact (Call.run_under c g policy).1
  | policy p => exact absurd rfl (hm p)
  | _ => rfl

theorem under_play {moves : List Move} (hmoves : ∀ p, .policy p ∉ moves) (g : GuardedHeap)
    (policy : FaultPolicy) : (g.under policy).play moves = (g.play moves).under policy := by
  induction moves generalizing g with
  | nil => rfl
  | cons m rest ih =>
    have hm : ∀ p, m ≠ .policy p := fun p he => hmoves p (he ▸ List.mem_cons_self)
    show ((g.under policy).move m).play rest = _
    rw [under_move hm]
    exact ih (fun p hp => hmoves p (List.mem_cons_of_mem m hp)) (g.move m)

/-- A run under the halting and a run under the reporting policy go the same way call by call, up
to the first call that faults, which panics in the one and returns in the other. -/
theorem policies_part_at_fault (g : GuardedHeap) (moves : List Move)
    (hmoves : ∀ p, .policy p ∉ moves) :
    (∀ earlier c later, moves = earlier ++ .call c :: later →
      c.Parts ((g.under .halt).play earlier) ((g.under .report).play earlier)) ∧
    ∀ (c : Call) (g' : GuardedHeap), c.Survives g' := by
  refine ⟨fun earlier c later hsplit => ?_, Call.survives⟩
  have hearlier : ∀ p, .policy p ∉ earlier := by
    intro p hp
    exact hmoves p (hsplit ▸ List.mem_append_left _ hp)
  rw [under_play hearlier, under_play hearlier]
  exact Call.parts (r := (g.play earlier).under .report) c rfl

/-- Calls before and after a contended one, with a fault at the end. -/
theorem sample_policies_part :
    let g := ofHeap World.sample.heap 7 .halt none
    let earlier := [.call (.allocate .task 8), .lock true, .call (.allocate? .privileged 8),
      .lock false]
    let last := Call.release .privileged (some 3)
    let moves := earlier ++ [.call last]
    (∀ p, .policy p ∉ moves) ∧
      last.Faults ((g.under .report).play earlier) (.invalidFree 3 .misaligned) ∧
      (∀ earlier c later, moves = earlier ++ .call c :: later →
        c.Parts ((g.under .halt).play earlier) ((g.under .report).play earlier)) ∧
      ∀ (c : Call) (g' : GuardedHeap), c.Survives g' := by
  intro g earlier last moves
  have hmoves : ∀ p, .policy p ∉ moves := by
    simp [moves, earlier, last]
  exact ⟨hmoves, ⟨rfl, .inl ⟨3, .misaligned, rfl⟩, by decide +kernel, by decide +kernel⟩,
    policies_part_at_fault g moves hmoves⟩

end GuardedHeap

end BoundaryHeap
