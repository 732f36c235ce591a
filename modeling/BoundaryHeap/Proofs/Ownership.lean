import BoundaryHeap.Proofs.Accounting
import BoundaryHeap.Proofs.Policies
import Mathlib.Algebra.BigOperators.Group.Finset.Basic

namespace BoundaryHeap

namespace Call

def action (owner : Owner) : Call → Action
  | allocate _ request | allocate? _ request => .allocate request owner
  | release _ addr => .release addr
  | usableSize addr => .usableSize addr
  | ownedBy owner => .ownedBy owner
  | stats => .stats
  | merge => .merge
  | audit => .audit
  | dump limit => .dump limit

def holds (owner : Owner) (held : List Grant) : Call → Except Fault Answer → List Grant
  | allocate _ _, .ok (.address addr) => ⟨addr, owner⟩ :: held
  | allocate? _ _, .ok (.address? (some addr)) => ⟨addr, owner⟩ :: held
  | release _ addr, .ok _ => held.filter fun g => some g.addr ≠ addr
  | _, _ => held

variable {owner : Owner} {held : List Grant}

theorem holds_error (c : Call) (f : Fault) : c.holds owner held (.error f) = held := by
  cases c <;> rfl

theorem holds_failure (c : Call) (e : HeapError) : c.holds owner held (c.failure e) = held := by
  cases c <;> rfl

theorem holds_settle_error (c : Call) (policy : FaultPolicy) (f : Fault) :
    c.holds owner held (c.settle policy (.error f)) = held := by
  cases f with
  | error e =>
    rw [settle_error]
    split
    · exact holds_error c _
    · exact holds_failure c e
  | abort a => rw [settle_abort, holds_error]
  | endless => rw [settle_endless, holds_error]

end Call

namespace World

theorem finish_map (w : World) (k : α → β) (m : HeapM α) (held : β → List Grant) :
    w.finish (w.heap.run (k <$> m)) held = w.finish (w.heap.run m) fun a => held (k a) := by
  obtain ⟨hafter, hresult⟩ := Heap.run_map k m w.heap
  rw [finish, finish, hafter, hresult]
  cases (w.heap.run m).result <;> rfl

theorem step_action (w : World) (c : Call) (owner : Owner) (policy : FaultPolicy) :
    w.step (c.action owner) = w.finish (w.heap.run (c.work owner))
      fun a => c.holds owner w.held (c.settle policy (.ok a)) := by
  cases c <;> simp only [Call.work, finish_map] <;> rfl

variable {w : World} {A : Shape} {usable : Nat → Nat}

theorem Tracks.sum_held (hw : w.Tracks A)
    (husable : ∀ g ∈ w.held, w.heap.usableSize g.addr = .ok (usable g.addr)) (p : Owner → Bool) :
    ((w.held.filter fun g => p g.owner).map fun g => usable g.addr + overhead).sum =
      totalOf ((liveIn w.heap.chunks).filter fun x => p x.2.owner) := by
  have hperm := (hw.perm_held.filter fun g => p g.owner).map fun g => usable g.addr + overhead
  rw [hperm.sum_nat, List.filter_map, List.map_map, totalOf_eq_sum, hw.intact.chunks]
  congr 1
  apply List.map_congr_left
  rintro ⟨c, t⟩ hx
  have hc : (c, t) ∈ liveIn A.chunks := (List.mem_filter.1 hx).1
  have hsize := husable _ ((hw.held _).2 ⟨c, t, hc, rfl⟩)
  rw [hw.intact.usableSize hc] at hsize
  have hmin := (hw.intact.settled.valid.tiles.proper (mem_liveIn.1 hc).1).1
  have heq := Except.ok.inj hsize
  show usable (w.heap.base + (c + tagBytes)) + overhead = t.size
  simp only [minChunk, overhead, tagBytes] at hmin heq ⊢
  omega

theorem Tracks.exists_usable (hw : w.Tracks A) :
    ∃ usable : Nat → Nat, ∀ g ∈ w.held, w.heap.usableSize g.addr = .ok (usable g.addr) := by
  refine ⟨fun addr => (w.heap.usableSize addr).toOption.getD 0, fun g hg => ?_⟩
  obtain ⟨c, t, hc, rfl⟩ := (hw.held g).1 hg
  simp only [hw.intact.usableSize hc, Except.toOption, Option.getD_some]

end World

theorem sum_owners (held : List Grant) (bytes : Grant → Nat) :
    ∑ id ∈ Finset.range 65536, ((held.filter fun g => g.owner = ⟨.ofNat id⟩).map bytes).sum =
      (held.map bytes).sum := by
  induction held with
  | nil => simp
  | cons g rest ih =>
    have hcons (id : Nat) : (((g :: rest).filter fun g => g.owner = ⟨.ofNat id⟩).map bytes).sum =
        (if g.owner = ⟨.ofNat id⟩ then bytes g else 0) +
          ((rest.filter fun g => g.owner = ⟨.ofNat id⟩).map bytes).sum := by
      by_cases hg : g.owner = ⟨.ofNat id⟩
      · simp [hg]
      · simp [hg]
    have hone : ∑ id ∈ Finset.range 65536, (if g.owner = ⟨.ofNat id⟩ then bytes g else 0) =
        bytes g := by
      have hmem : g.owner.id.toNat ∈ Finset.range 65536 := Finset.mem_range.2 g.owner.id.toNat_lt
      rw [Finset.sum_eq_single_of_mem _ hmem]
      · simp
      · intro id hid hne
        refine if_neg fun he => hne ?_
        rw [he, UInt16.toNat_ofNat']
        exact (Nat.mod_eq_of_lt (Finset.mem_range.1 hid)).symm
    simp only [hcons, Finset.sum_add_distrib, hone, ih, List.map_cons, List.sum_cons]

structure GuardedWorld where
  guarded : GuardedHeap
  held : List Grant

inductive Deed where
  | call (c : Call)
  | write (addr : Nat) (b : UInt8)
  | lock (held : Bool)
  | mask (mask : UInt32)
  | policy (policy : FaultPolicy)
  | task (owner : Owner)

namespace GuardedWorld

open GuardedHeap

/-- The heap behind the guard. -/
def world (w : GuardedWorld) : World := ⟨w.guarded.heap, w.held⟩

/-- One deed. A pointer is held in the name of the task that runs when it is asked for, and of the
kernel where nothing can tell which task runs. -/
def step (w : GuardedWorld) : Deed → GuardedWorld
  | .call c =>
    let o := run c.perform w.guarded
    ⟨o.after, c.holds (w.guarded.task.getD .kernel) w.held o.result⟩
  | .write addr b => ⟨w.guarded.move (.heap (w.world.step (.write addr b)).heap), w.held⟩
  | .lock held => ⟨w.guarded.move (.lock held), w.held⟩
  | .mask mask => ⟨w.guarded.move (.mask mask), w.held⟩
  | .policy policy => ⟨w.guarded.move (.policy policy), w.held⟩
  | .task owner => ⟨w.guarded.move (.task owner), w.held⟩

def after (w : GuardedWorld) (deeds : List Deed) : GuardedWorld := deeds.foldl step w

variable {w : GuardedWorld}

theorem world_call_free (c : Call) (hfree : w.guarded.lock.held = false) :
    (w.step (.call c)).world = w.world.step (c.action (w.guarded.task.getD .kernel)) := by
  rw [w.world.step_action c (w.guarded.task.getD .kernel) w.guarded.policy, step, c.run_free hfree,
    World.finish]
  simp only [world, GuardedHeap.owner]
  cases (w.guarded.heap.run (c.work (w.guarded.task.getD .kernel))).result with
  | ok a => rfl
  | error f => rw [c.holds_settle_error]

theorem world_call_held (c : Call) (hheld : w.guarded.lock.held = true) :
    (w.step (.call c)).world = w.world := by
  have hheap : (run c.perform w.guarded).after.heap = w.guarded.heap := by
    rw [c.run_perform]
    simp only [Call.close, guarding, hheld, if_true]
    cases c.context <;> rfl
  rw [step, world, hheap, c.result_held hheld]
  cases c.context with
  | task => exact congrArg _ (c.holds_error _)
  | privileged => exact congrArg _ (c.holds_failure _)

theorem world_write (w : GuardedWorld) (addr : Nat) (b : UInt8) :
    (w.step (.write addr b)).world = w.world.step (.write addr b) := by
  have hheld : (w.world.step (.write addr b)).held = w.held := by
    rw [World.step]
    split <;> rfl
  rw [step, world, ← hheld]
  rfl

theorem reachable_step (hw : w.world.Reachable) (d : Deed) : (w.step d).world.Reachable := by
  cases d with
  | call c =>
    cases hlock : w.guarded.lock.held with
    | false =>
      rw [world_call_free c hlock]
      exact hw.step _
    | true =>
      rw [world_call_held c hlock]
      exact hw
  | write addr b =>
    rw [world_write]
    exact hw.step _
  | _ => exact hw

theorem reachable_after (hw : w.world.Reachable) (deeds : List Deed) :
    (w.after deeds).world.Reachable := by
  induction deeds generalizing w with
  | nil => exact hw
  | cons d rest ih => exact ih (reachable_step hw d)

/-- The heap tells of each owner the bytes of what was handed out in its name, tags included, and
of all owners together what is in use. -/
structure Owned (w : GuardedWorld) (usable : Nat → Nat) (owned : Owner → Nat) : Prop where
  distinct : (w.held.map Grant.addr).Nodup
  usableSize : ∀ g ∈ w.held, w.guarded.heap.usableSize g.addr = .ok (usable g.addr)
  bytes : ∀ o, owned o =
    ((w.held.filter fun g => g.owner = o).map fun g => usable g.addr + overhead).sum
  told : ∀ o, (w.guarded.heap.run (Heap.ownedBy o)).result = .ok (owned o)
  answered : w.guarded.lock.held = false →
    ∀ o, (run (ownedBy o) w.guarded).result = .ok (owned o)
  inUse : ∃ s, (w.guarded.heap.run Heap.stats).result = .ok s ∧
    ∑ id ∈ Finset.range 65536, owned ⟨.ofNat id⟩ = s.inUse

theorem owned_of_reachable (hw : w.world.Reachable) : ∃ usable owned, w.Owned usable owned := by
  obtain ⟨A, hA⟩ := hw.tracks
  obtain ⟨usable, husable⟩ := hA.exists_usable
  have hbytes (o : Owner) : Heap.bytesOf o w.guarded.heap.chunks =
      ((w.held.filter fun g => g.owner = o).map fun g => usable g.addr + overhead).sum :=
    (Heap.bytesOf_eq o _).trans (hA.sum_held husable fun owner => owner = o).symm
  have htold (o : Owner) : (w.guarded.heap.run (Heap.ownedBy o)).result =
      .ok (Heap.bytesOf o w.guarded.heap.chunks) :=
    (hA.intact.ownedBy_does o).run.1
  refine ⟨usable, fun o => Heap.bytesOf o w.guarded.heap.chunks, hA.distinct, husable, hbytes,
    htold, fun hfree o => ?_, ?_⟩
  · exact (entered_withHeap .task (Heap.ownedBy o) hfree).result.trans (htold o)
  · have hi : w.guarded.heap.Intact A := hA.intact
    have htotal := hA.sum_held husable fun _ => true
    simp only [List.filter_true] at htotal
    refine ⟨_, hi.stats.trans (Heap.snapshot_eq hi.inUse_le), ?_⟩
    calc ∑ id ∈ Finset.range 65536, Heap.bytesOf ⟨.ofNat id⟩ w.guarded.heap.chunks
      _ = (w.held.map fun g => usable g.addr + overhead).sum := by simp only [hbytes, sum_owners]
      _ = totalOf (liveIn w.guarded.heap.chunks) := htotal
      _ = w.guarded.heap.counters.inUse := by rw [hi.chunks, hi.inUse]

/-- Whatever callers do and whichever tasks run, what the heap tells of an owner is what was handed
out in its name and not taken back, and over all owners this is what is in use. -/
theorem ownership_accounted {start : Nat} {bytes : ByteArray} {h : Heap} {journal : List Record}
    (h₀ : Heap.takeOver start bytes = .ok (h, journal)) (mask : UInt32) (policy : FaultPolicy)
    (task : Option Owner) (deeds : List Deed) :
    ∃ usable owned, (after ⟨ofHeap h mask policy task, []⟩ deeds).Owned usable owned :=
  have hw : (GuardedWorld.mk (ofHeap h mask policy task) []).world.Reachable := .start h₀
  owned_of_reachable (reachable_after hw deeds)

/-- A chunk goes from one task to another, and another one to a third. -/
theorem reused_accounted :
    let deeds := [.task ⟨5⟩, .call (.allocate .task 8), .task .nobody, .call (.allocate? .task 8),
      .call (.release .privileged (some 0x1008)), .call (.allocate .privileged 8), .task ⟨6⟩,
      .call (.release .task (some 0x1028)), .call (.allocate .task 8), .call .merge]
    let w := after ⟨ofHeap World.sample.heap 7 .halt (some .kernel), []⟩ deeds
    w.held = [⟨0x1028, ⟨6⟩⟩, ⟨0x1008, .nobody⟩] ∧ ∃ usable owned, w.Owned usable owned := by
  have hok : (Heap.takeOver 0x1000 ⟨Array.replicate 96 0⟩).isOk = true := by decide +kernel
  refine ⟨by decide +kernel, ?_⟩
  unfold World.sample
  split
  next h journal h₀ => exact ownership_accounted h₀ 7 .halt (some .kernel) _
  next f hf =>
    rw [hf] at hok
    cases hok

end GuardedWorld

end BoundaryHeap
