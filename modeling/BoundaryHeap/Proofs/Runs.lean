import BoundaryHeap.Heap.Audit
import BoundaryHeap.Heap.Report
import BoundaryHeap.Proofs.Fresh
import BoundaryHeap.Proofs.Walks

namespace BoundaryHeap

open Region (Changed)

structure Grant where
  addr : Nat
  owner : Owner
  deriving DecidableEq

/-- A heap with what its callers hold. -/
structure World where
  heap : Heap
  held : List Grant

inductive Action where
  | allocate (request : Nat) (owner : Owner)
  | release (addr : Option Nat)
  | merge
  | usableSize (addr : Nat)
  | ownedBy (owner : Owner)
  | stats
  | audit
  | dump (limit : Option Nat)
  | write (addr : Nat) (b : UInt8)
  deriving DecidableEq

/-- The byte at `addr` after the action, if nobody but callers writes it. -/
def Action.overwrite (addr : Nat) (old : UInt8) : Action → UInt8
  | .write target b => if target = addr then b else old
  | _ => old

namespace Heap

def peek (h : Heap) (addr : Nat) : UInt8 :=
  h.region.byteAt (addr - h.base)

def poke (h : Heap) (addr : Nat) (b : UInt8) : Heap :=
  { h with store.region := h.region.setByte (addr - h.base) b }

/-- The program may fail, but it changes nothing. -/
def Quiet (m : HeapM α) : Prop :=
  ∀ h, (∃ a, Does m h a h) ∨ ∃ f, Fails m h f h

theorem Quiet.pure (a : α) : Quiet (pure a) :=
  fun h => .inl ⟨a, .pure a h⟩

theorem Quiet.throw (f : Fault) : Quiet (throw f : HeapM α) :=
  fun h => .inr ⟨f, .throw f h⟩

theorem Quiet.note (r : Record) : Quiet (note r) :=
  fun h => .inl ⟨(), .note r h⟩

theorem Quiet.observe (g : Heap → Except Fault α) : Quiet (observe g) := by
  intro h
  rcases hg : g h with f | a
  · exact .inr ⟨f, .observe hg⟩
  · exact .inl ⟨a, .observe hg⟩

theorem Quiet.bind {m : HeapM α} {k : α → HeapM β} (hm : Quiet m) (hk : ∀ a, Quiet (k a)) :
    Quiet (m >>= k) := by
  intro h
  rcases hm h with ⟨a, hrun⟩ | ⟨f, hrun⟩
  · rcases hk a h with ⟨b, hrun'⟩ | ⟨f, hrun'⟩
    · exact .inl ⟨b, hrun.bind hrun'⟩
    · exact .inr ⟨f, hrun.bind_fails hrun'⟩
  · exact .inr ⟨f, hrun.bind⟩

theorem quiet_noteDamage : Quiet noteDamage := by
  apply (Quiet.observe _).bind
  intro damage
  cases damage with
  | none => exact .pure ()
  | some f =>
    cases f with
    | error e => exact .note _
    | abort a => exact .throw _
    | endless => exact .throw _

theorem quiet_stats : Quiet stats :=
  quiet_noteDamage.bind fun _ => .observe snapshot

theorem quiet_ownedBy (owner : Owner) : Quiet (ownedBy owner) :=
  quiet_noteDamage.bind fun _ => .observe _

theorem quiet_dump (limit : Option Nat) : Quiet (dump limit) :=
  quiet_noteDamage.bind fun _ => .observe _

end Heap

namespace World

/-- The heap after a piece of work; what is held changes if it succeeded. -/
def finish (w : World) (o : Outcome Heap α) (held : α → List Grant) : World :=
  match o.result with
  | .ok a => ⟨o.after, held a⟩
  | .error _ => ⟨o.after, w.held⟩

def mayWrite (w : World) (addr : Nat) : Bool :=
  w.held.any fun g =>
    match w.heap.usableSize g.addr with
    | .ok size => g.addr ≤ addr && addr < g.addr + size
    | .error _ => false

/-- One action. A write outside what is held is not done. -/
def step (w : World) : Action → World
  | .allocate request owner =>
    w.finish (w.heap.run (Heap.allocate request owner)) fun addr => ⟨addr, owner⟩ :: w.held
  | .release addr =>
    w.finish (w.heap.run (Heap.release addr)) fun _ => w.held.filter fun g => some g.addr ≠ addr
  | .merge => w.finish (w.heap.run Heap.merge) fun _ => w.held
  | .usableSize addr =>
    w.finish (w.heap.run (Heap.observe fun h => h.usableSize addr)) fun _ => w.held
  | .ownedBy owner => w.finish (w.heap.run (Heap.ownedBy owner)) fun _ => w.held
  | .stats => w.finish (w.heap.run Heap.stats) fun _ => w.held
  | .audit => w.finish (w.heap.run (Heap.observe Heap.audit)) fun _ => w.held
  | .dump limit => w.finish (w.heap.run (Heap.dump limit)) fun _ => w.held
  | .write addr b => if w.mayWrite addr then ⟨w.heap.poke addr b, w.held⟩ else w

def answer (w : World) : Action → Except Fault Unit
  | .allocate request owner => (w.heap.run (Heap.allocate request owner)).result.map fun _ => ()
  | .release addr => (w.heap.run (Heap.release addr)).result
  | .merge => (w.heap.run Heap.merge).result
  | .usableSize addr => (w.heap.usableSize addr).map fun _ => ()
  | .ownedBy owner => (w.heap.run (Heap.ownedBy owner)).result.map fun _ => ()
  | .stats => (w.heap.run Heap.stats).result.map fun _ => ()
  | .audit => w.heap.audit
  | .dump limit => (w.heap.run (Heap.dump limit)).result.map fun _ => ()
  | .write _ _ => .ok ()

def after (w : World) (actions : List Action) : World :=
  actions.foldl step w

/-- What callers can make of any region that can be taken over. -/
inductive Reachable : World → Prop
  | start {start : Nat} {bytes : ByteArray} {h : Heap} {journal : List Record}
      (h₀ : Heap.takeOver start bytes = .ok (h, journal)) : Reachable ⟨h, []⟩
  | step {w : World} (hw : Reachable w) (a : Action) : Reachable (w.step a)

/-- The heap of `w` has the shape `A`, and its live chunks are what is held. -/
structure Tracks (w : World) (A : Shape) : Prop where
  intact : w.heap.Intact A
  held : ∀ g, g ∈ w.held ↔
    ∃ c t, (c, t) ∈ liveIn A.chunks ∧ g = ⟨w.heap.base + (c + tagBytes), t.owner⟩
  distinct : (w.held.map Grant.addr).Nodup

/-- From the shape `A` to the shape `B`, the action keeps every live chunk but one that it takes
back, and only a write to a byte of a payload changes it. -/
structure Follows (w : World) (a : Action) (A B : Shape) : Prop where
  base : (w.step a).heap.base = w.heap.base
  len : (w.step a).heap.len = w.heap.len
  kept : ∀ c t, (c, t) ∈ liveIn A.chunks →
    (c, t) ∈ liveIn B.chunks ∨ a = .release (some (w.heap.base + (c + tagBytes)))
  bytes : ∀ c t i, (c, t) ∈ liveIn A.chunks → (c, t) ∈ liveIn B.chunks → c + tagBytes ≤ i →
    i + tagBytes < c + t.size →
    (w.step a).heap.region.byteAt i = a.overwrite (w.heap.base + i) (w.heap.region.byteAt i)

variable {w : World} {A B : Shape} {a : Action} {c i : Nat} {t : Tag}

theorem finish_ok {o : Outcome Heap α} {held : α → List Grant} {x : α} {h : Heap}
    (ho : o.result = .ok x ∧ o.after = h) : w.finish o held = ⟨h, held x⟩ := by
  rw [finish, ho.1, ← ho.2]

theorem finish_error {o : Outcome Heap α} {held : α → List Grant} {f : Fault} {h : Heap}
    (ho : o.result = .error f ∧ o.after = h) : w.finish o held = ⟨h, w.held⟩ := by
  rw [finish, ho.1, ← ho.2]

theorem not_vacant (hc : (c, t) ∈ liveIn A.chunks) (hlo : c ≤ i) (hhi : i < c + t.size) :
    i ∉ vacant A.chunks := by
  intro hvacant
  rcases hvacant c t hc with hout | hout
  · omega
  · omega

theorem Follows.of_free (hbase : (w.step a).heap.base = w.heap.base)
    (hlive : ∀ c t, (c, t) ∈ liveIn A.chunks → (c, t) ∈ liveIn B.chunks)
    (hr : Changed (vacant A.chunks) w.heap.region (w.step a).heap.region)
    (hquiet : ∀ addr old, a.overwrite addr old = old) : w.Follows a A B := by
  refine ⟨hbase, hr.len, fun c t hc => .inl (hlive c t hc), fun c t i hc _ hlo hhi => ?_⟩
  simp only [tagBytes] at hlo hhi
  rw [hquiet, hr.same i (not_vacant hc (by omega) (by omega))]

theorem Tracks.idle (hw : w.Tracks A) {h' : Heap} (hstep : w.step a = ⟨h', w.held⟩)
    (hi : h'.Intact B) (hlive : liveIn B.chunks = liveIn A.chunks)
    (hr : Changed (vacant A.chunks) w.heap.region h'.region)
    (hquiet : ∀ addr old, a.overwrite addr old = old) :
    (w.step a).Tracks B ∧ w.Follows a A B := by
  have hbase : h'.base = w.heap.base := hr.base
  constructor
  · rw [hstep]
    refine ⟨hi, ?_, hw.distinct⟩
    rw [hlive, hbase]
    exact hw.held
  · apply Follows.of_free _ _ _ hquiet
    · rw [hstep]
      exact hbase
    · rw [hlive]
      exact fun c t hc => hc
    · rw [hstep]
      exact hr

theorem Tracks.quiet (hw : w.Tracks A) {m : HeapM α} (hm : Heap.Quiet m)
    (hstep : w.step a = w.finish (w.heap.run m) fun _ => w.held)
    (hquiet : ∀ addr old, a.overwrite addr old = old) :
    (w.step a).Tracks A ∧ w.Follows a A A := by
  have hsame : w.step a = ⟨w.heap, w.held⟩ := by
    rw [hstep]
    rcases hm w.heap with ⟨x, hrun⟩ | ⟨f, hrun⟩
    · exact finish_ok hrun.run
    · exact finish_error hrun.run
  exact hw.idle hsame hw.intact rfl (.refl ..) hquiet

theorem Tracks.merge (hw : w.Tracks A) :
    (w.step .merge).Tracks A.mergeAll ∧ w.Follows .merge A A.mergeAll := by
  obtain ⟨s', hrun, hi, hr⟩ := hw.intact.merge
  have hlive := (Store.Takes.mergeAll hw.intact.settled hw.intact.fuel).live
  exact hw.idle (finish_ok hrun.run) hi hlive hr fun _ _ => rfl

theorem Tracks.granted (hw : w.Tracks A) (hheld : B.Holding {c})
    (hlive : liveIn B.chunks = liveIn A.chunks) {owner : Owner} {h' : Heap}
    (hstep : w.step a = ⟨h', ⟨w.heap.base + (c + tagBytes), owner⟩ :: w.held⟩)
    (hi : h'.Intact (B.grant c owner))
    (hr : Changed (vacant A.chunks) w.heap.region h'.region)
    (hquiet : ∀ addr old, a.overwrite addr old = old) :
    (w.step a).Tracks (B.grant c owner) ∧ w.Follows a A (B.grant c owner) := by
  have hbase : h'.base = w.heap.base := hr.base
  constructor
  · rw [hstep]
    refine ⟨hi, fun g => ?_, ?_⟩
    · simp only [List.mem_cons, hw.held, hheld.mem_liveIn_grant, hlive, hbase]
      constructor
      · rintro (rfl | ⟨d, u, hd, rfl⟩)
        · exact ⟨c, _, .inr ⟨rfl, rfl⟩, rfl⟩
        · exact ⟨d, u, .inl hd, rfl⟩
      · rintro ⟨d, u, hd | ⟨rfl, rfl⟩, rfl⟩
        · exact .inr ⟨d, u, hd, rfl⟩
        · exact .inl rfl
    · rw [List.map_cons, List.nodup_cons]
      refine ⟨fun hmem => ?_, hw.distinct⟩
      obtain ⟨g, hg, haddr⟩ := List.mem_map.1 hmem
      obtain ⟨d, u, hd, rfl⟩ := (hw.held g).1 hg
      obtain rfl : d = c := Nat.add_right_cancel (Nat.add_left_cancel haddr)
      rw [← hlive] at hd
      obtain ⟨hu, hbusy⟩ := mem_liveIn.1 hd
      obtain ⟨⟨t, ht, hfree⟩, -⟩ := hheld.mem_loose rfl
      rw [hheld.valid.tiles.unique hu ht, hfree] at hbusy
      cases hbusy
  · apply Follows.of_free _ _ _ hquiet
    · rw [hstep]
      exact hbase
    · intro d u hd
      rw [hheld.mem_liveIn_grant, hlive]
      exact .inl hd
    · rw [hstep]
      exact hr

theorem Tracks.allocate (hw : w.Tracks A) (request : Nat) (owner : Owner) :
    ∃ B, (w.step (.allocate request owner)).Tracks B ∧
      w.Follows (.allocate request owner) A B := by
  rcases hw.intact.allocate request owner with ⟨h', B, h⟩ | ⟨h', c, B, h⟩
  · exact ⟨B, hw.idle (finish_error h.run.run) h.intact h.live h.changed fun _ _ => rfl⟩
  · exact ⟨_, hw.granted h.holding h.live (finish_ok h.run.run) h.intact h.changed fun _ _ => rfl⟩

theorem step_release (w : World) (addr : Option Nat) : w.step (.release addr) =
    w.finish (w.heap.run (Heap.release addr)) fun _ => w.held.filter fun g => some g.addr ≠ addr :=
  rfl

theorem Tracks.returned (hw : w.Tracks A) (hc : (c, t) ∈ liveIn A.chunks) :
    let a := Action.release (some (w.heap.base + (c + tagBytes)))
    (w.step a).Tracks (A.giveBack c t) ∧ w.Follows a A (A.giveBack c t) := by
  intro a
  obtain ⟨hmem, hlive⟩ := mem_liveIn.1 hc
  have hA := hw.intact.settled
  obtain ⟨s', hrun, hi, hr⟩ := hw.intact.release hc
  have hstep : w.step a = _ := (step_release w _).trans (finish_ok hrun.run)
  have hbase : s'.region.base = w.heap.base := hr.base
  constructor
  · rw [hstep]
    refine ⟨hi, fun g => ?_, ?_⟩
    · show g ∈ _ ↔ ∃ d, ∃ u : Tag, (d, u) ∈ _ ∧ g = ⟨s'.region.base + (d + tagBytes), u.owner⟩
      simp only [List.mem_filter, hw.held, hA.mem_liveIn_giveBack hmem, hbase,
        decide_eq_true_eq, ne_eq, Option.some.injEq]
      constructor
      · rintro ⟨⟨d, u, hd, rfl⟩, hne⟩
        exact ⟨d, u, ⟨hd, fun he => hne (by rw [he])⟩, rfl⟩
      · rintro ⟨d, u, ⟨hd, hne⟩, rfl⟩
        exact ⟨⟨d, u, hd, rfl⟩, fun he => hne (Nat.add_right_cancel (Nat.add_left_cancel he))⟩
    · exact hw.distinct.sublist (List.filter_sublist.map _)
  · refine ⟨?_, ?_, fun d u hd => ?_, fun d u i _ hd hlo hhi => ?_⟩
    · rw [hstep]
      exact hbase
    · rw [hstep]
      exact hr.len
    · by_cases he : d = c
      · subst he
        exact .inr rfl
      · exact .inl ((hA.mem_liveIn_giveBack hmem).2 ⟨hd, he⟩)
    · rw [hstep]
      simp only [tagBytes] at hlo hhi
      exact hr.same i fun hin => not_vacant hd (by omega) (by omega) hin.1

theorem Tracks.release (hw : w.Tracks A) (addr : Option Nat) :
    ∃ B, (w.step (.release addr)).Tracks B ∧ w.Follows (.release addr) A B := by
  cases addr with
  | none =>
    have hall : (w.held.filter fun g => some g.addr ≠ none) = w.held := by
      simp
    have hstep := (step_release w none).trans (finish_ok (Heap.Does.release_none w.heap).run)
    rw [hall] at hstep
    exact ⟨A, hw.idle hstep hw.intact rfl (.refl ..) fun _ _ => rfl⟩
  | some addr =>
    rcases hchunk : w.heap.liveChunk addr with f | ⟨c, t⟩
    · have hstep : w.step (.release (some addr)) = ⟨w.heap, w.held⟩ :=
        finish_error (Heap.Fails.release hchunk).run
      exact ⟨A, hw.idle hstep hw.intact rfl (.refl ..) fun _ _ => rfl⟩
    · obtain ⟨hc, rfl⟩ := hw.intact.of_liveChunk hchunk
      exact ⟨_, hw.returned hc⟩

theorem Tracks.mayWrite_iff (hw : w.Tracks A) {addr : Nat} :
    w.mayWrite addr = true ↔ ∃ i ∈ payloads A.chunks, addr = w.heap.base + i := by
  rw [World.mayWrite, List.any_eq_true]
  constructor
  · rintro ⟨g, hg, hsize⟩
    obtain ⟨c, t, hc, rfl⟩ := (hw.held g).1 hg
    have hpos := hw.intact.settled.valid.tiles.size_pos (mem_liveIn.1 hc).1
    simp only [hw.intact.usableSize hc, Bool.and_eq_true, decide_eq_true_eq, tagBytes,
      overhead] at hsize
    refine ⟨addr - w.heap.base, ⟨c, t, hc, ?_, ?_⟩, ?_⟩
    · simp only [tagBytes]
      omega
    · simp only [tagBytes]
      omega
    · omega
  · rintro ⟨i, ⟨c, t, hc, hlo, hhi⟩, rfl⟩
    refine ⟨_, (hw.held _).2 ⟨c, t, hc, rfl⟩, ?_⟩
    simp only [hw.intact.usableSize hc, Bool.and_eq_true, decide_eq_true_eq]
    simp only [tagBytes, overhead] at hlo hhi ⊢
    omega

theorem Tracks.write (hw : w.Tracks A) (addr : Nat) (b : UInt8) :
    (w.step (.write addr b)).Tracks A ∧ w.Follows (.write addr b) A A := by
  by_cases hmay : w.mayWrite addr = true
  · obtain ⟨i, hi, rfl⟩ := hw.mayWrite_iff.1 hmay
    have hstep : w.step (.write (w.heap.base + i) b) =
        ⟨w.heap.poke (w.heap.base + i) b, w.held⟩ := if_pos hmay
    have hoffset : w.heap.base + i - w.heap.base = i := Nat.add_sub_cancel_left ..
    rw [Heap.poke, hoffset] at hstep
    have hr := Region.changed_setByte (r := w.heap.region) i b
    have hs : Store.Represents ⟨w.heap.region.setByte i b, w.heap.store.heads⟩ A :=
      hw.intact.store.payload rfl (hr.mono (Set.singleton_subset_iff.2 hi))
    have hbase : (w.heap.region.setByte i b).base = w.heap.base := hr.base
    constructor
    · rw [hstep]
      refine ⟨⟨hs, hw.intact.settled, hw.intact.marks, hw.intact.inUse,
        hw.intact.aligned_after hr⟩, ?_, hw.distinct⟩
      show ∀ g, g ∈ w.held ↔ ∃ c t, _ ∧ g = ⟨(w.heap.region.setByte i b).base + _, _⟩
      rw [hbase]
      exact hw.held
    · refine ⟨?_, ?_, fun c t hc => .inl hc, fun c t j hc _ hlo hhi => ?_⟩
      · rw [hstep]
        exact hbase
      · rw [hstep]
        exact hr.len
      · rw [hstep]
        show (w.heap.region.setByte i b).byteAt j = _
        by_cases he : i = j
        · subst he
          have hend := hw.intact.settled.valid.tiles.end_le (mem_liveIn.1 hc).1
          have hlen : w.heap.region.len = A.len := hw.intact.len
          rw [Region.byteAt_setByte_same (by simp only [tagBytes] at hhi; omega)]
          exact (if_pos rfl).symm
        · rw [Region.byteAt_setByte_ne (Ne.symm he)]
          exact (if_neg fun heq => he (Nat.add_left_cancel heq)).symm
  · have hstep : w.step (.write addr b) = w := if_neg hmay
    constructor
    · rw [hstep]
      exact hw
    · refine ⟨by rw [hstep], by rw [hstep], fun c t hc => .inl hc, fun c t j hc _ hlo hhi => ?_⟩
      rw [hstep]
      refine (if_neg fun heq => hmay ?_).symm
      exact hw.mayWrite_iff.2 ⟨j, ⟨c, t, hc, hlo, hhi⟩, heq⟩

/-- Every action keeps the heap intact and what is held live. -/
theorem Tracks.step (hw : w.Tracks A) (a : Action) :
    ∃ B, (w.step a).Tracks B ∧ w.Follows a A B := by
  cases a with
  | allocate request owner => exact hw.allocate request owner
  | release addr => exact hw.release addr
  | merge => exact ⟨_, hw.merge⟩
  | usableSize addr => exact ⟨A, hw.quiet (.observe _) rfl fun _ _ => rfl⟩
  | ownedBy owner => exact ⟨A, hw.quiet (Heap.quiet_ownedBy owner) rfl fun _ _ => rfl⟩
  | stats => exact ⟨A, hw.quiet Heap.quiet_stats rfl fun _ _ => rfl⟩
  | audit => exact ⟨A, hw.quiet (.observe _) rfl fun _ _ => rfl⟩
  | dump limit => exact ⟨A, hw.quiet (Heap.quiet_dump limit) rfl fun _ _ => rfl⟩
  | write addr b => exact ⟨A, hw.write addr b⟩

theorem Reachable.tracks (hw : w.Reachable) : ∃ A, w.Tracks A := by
  induction hw with
  | start h₀ =>
    refine ⟨_, Heap.intact_takeOver h₀, fun g => ?_, .nil⟩
    constructor
    · intro hg
      cases hg
    · rintro ⟨c, t, hc, -⟩
      cases hc
  | step _ a ih =>
    obtain ⟨A, hA⟩ := ih
    obtain ⟨B, hB, -⟩ := hA.step a
    exact ⟨B, hB⟩

theorem Reachable.after (hw : w.Reachable) (actions : List Action) :
    (w.after actions).Reachable := by
  induction actions generalizing w with
  | nil => exact hw
  | cons a rest ih => exact ih (hw.step a)

def sample : World :=
  match Heap.takeOver 0x1000 ⟨Array.replicate 96 0⟩ with
  | .ok (h, _) => ⟨h, []⟩
  | .error _ => ⟨⟨⟨⟨0, .empty⟩, .empty⟩, .empty, 0, .zero⟩, []⟩

theorem reachable_sample : sample.Reachable := by
  have hok : (Heap.takeOver 0x1000 ⟨Array.replicate 96 0⟩).isOk = true := by decide +kernel
  unfold sample
  split
  next h journal h₀ => exact .start h₀
  next f hf =>
    rw [hf] at hok
    cases hok

end World

end BoundaryHeap
