import BoundaryHeap.Proofs.Faultless
import Mathlib.Data.List.Perm.Basic
import Mathlib.Order.Bounds.Basic

namespace BoundaryHeap

def freeIn (chunks : List Chunk) : List Chunk :=
  chunks.filter fun x => x.2.free

theorem perm_freeIn_liveIn (chunks : List Chunk) : (freeIn chunks ++ liveIn chunks).Perm chunks :=
  List.filter_append_perm ..

theorem total_liveIn_freeIn (chunks : List Chunk) :
    totalOf (liveIn chunks) + totalOf (freeIn chunks) = totalOf chunks := by
  rw [Nat.add_comm, ← totalOf_append]
  exact totalOf_perm (perm_freeIn_liveIn chunks)

def Fault.isOutOfMemory : Fault → Bool
  | .error (.outOfMemory _) => true
  | _ => false

/-- The work ended for want of memory. -/
def endsShort : Except Fault α → Bool
  | .ok _ => false
  | .error f => f.isOutOfMemory

theorem endsShort_map (f : α → β) (x : Except Fault α) : endsShort (x.map f) = endsShort x := by
  cases x with
  | ok => rfl
  | error => rfl

theorem isOk_map (f : α → β) (x : Except Fault α) : (x.map f).isOk = x.isOk := by
  cases x with
  | ok => rfl
  | error => rfl

namespace Heap

theorem freeChunks_eq (chunks : List Chunk) : freeChunks chunks = (freeIn chunks).length :=
  List.countP_eq_length_filter

theorem largestFree_eq (chunks : List Chunk) :
    largestFree chunks = ((freeIn chunks).map fun x => x.2.size).max?.getD 0 := by
  have hfold : largestFree chunks = ((freeIn chunks).map fun x => x.2.size).foldl max 0 := by
    rw [freeIn, List.foldl_map, List.foldl_filter]
    rfl
  rw [hfold, List.foldl_max]
  exact Nat.zero_max _

variable {h h' : Heap} {A : Shape} {c : Nat} {t : Tag}

theorem snapshot_eq (hle : h.counters.inUse ≤ h.len) :
    h.snapshot = .ok {
      regionBytes := h.len
      inUse := h.counters.inUse
      freeBytes := h.len - h.counters.inUse
      highWater := h.counters.highWater
      allocations := h.counters.allocations
      frees := h.counters.frees
      failed := h.counters.failed
      freeChunks := (freeIn h.chunks).length
      largestFree := ((freeIn h.chunks).map fun x => x.2.size).max?.getD 0 } := by
  rw [Heap.snapshot, freeBytes, if_pos hle, freeChunks_eq, largestFree_eq]
  rfl

/-- How the counters move when a request was served, a chunk was taken back, or memory ran short. -/
structure Counted (h h' : Heap) (served returned short : Bool) : Prop where
  allocations : h'.counters.allocations = h.counters.allocations + served.toNat
  frees : h'.counters.frees = h.counters.frees + returned.toNat
  failed : h'.counters.failed = h.counters.failed + short.toNat
  live : (liveIn h'.chunks).length + returned.toNat = (liveIn h.chunks).length + served.toNat
  highWater : h'.counters.highWater = max h.counters.highWater h'.counters.inUse

theorem Counted.level {served returned short : Bool} (h : Counted h h' served returned short) :
    h'.counters.inUse ≤ h'.counters.highWater := by
  rw [h.highWater]
  exact Nat.le_max_right ..

theorem Counted.kept {short : Bool}
    (hcounters : h'.counters = { h.counters with failed := h.counters.failed + short.toNat })
    (hlive : (liveIn h'.chunks).length = (liveIn h.chunks).length)
    (hwater : h.counters.inUse ≤ h.counters.highWater) : Counted h h' false false short := by
  refine ⟨?_, ?_, ?_, hlive, ?_⟩
  · rw [hcounters]
    rfl
  · rw [hcounters]
    rfl
  · rw [hcounters]
  · rw [hcounters]
    exact (Nat.max_eq_left hwater).symm

theorem Intact.counted_allocate (hi : h.Intact A) (hwater : h.counters.inUse ≤ h.counters.highWater)
    (request : Nat) (owner : Owner) :
    let o := h.run (Heap.allocate request owner)
    Counted h o.after o.result.isOk false (endsShort o.result) := by
  intro o
  rcases hi.allocate_ends request owner with ⟨s', B, hrun, hi', hlive, -⟩ |
    ⟨s', size, c, B, -, hheld, hrun, hi', hlive, -⟩
  · rw [hrun.run.1, hrun.run.2]
    refine Counted.kept rfl ?_ hwater
    rw [hi'.chunks, hlive, hi.chunks]
  · rw [hrun.run.1, hrun.run.2]
    refine ⟨rfl, rfl, rfl, ?_, rfl⟩
    rw [hi'.chunks, (hheld.perm_liveIn_grant owner).length_eq, hlive, hi.chunks]
    rfl

theorem Intact.counted_release (hi : h.Intact A) (hwater : h.counters.inUse ≤ h.counters.highWater)
    (addr : Nat) :
    let o := h.run (Heap.release (some addr))
    Counted h o.after false o.result.isOk (endsShort o.result) := by
  intro o
  rcases hi.release_ends addr with ⟨reason, hrun⟩ | ⟨s', c, t, hc, hrun, hi', -⟩
  · rw [hrun.run.1, hrun.run.2]
    exact .kept rfl rfl hwater
  · rw [hrun.run.1, hrun.run.2]
    refine ⟨rfl, rfl, rfl, ?_, ?_⟩
    · rw [hi'.chunks, hi.chunks, (hi.settled.perm_liveIn_giveBack hc).length_eq]
      rfl
    · exact (Nat.max_eq_left ((Nat.sub_le ..).trans hwater)).symm

theorem Intact.counted_merge (hi : h.Intact A) (hwater : h.counters.inUse ≤ h.counters.highWater) :
    let o := h.run Heap.merge
    Counted h o.after false false (endsShort o.result) := by
  intro o
  have hlive := (Store.Takes.mergeAll hi.settled hi.fuel).live
  obtain ⟨s', hrun, hi', -⟩ := hi.merge
  rw [hrun.run.1, hrun.run.2]
  refine Counted.kept rfl ?_ hwater
  rw [hi'.chunks, hlive, hi.chunks]

end Heap

namespace World

open Heap (Counted)

/-- The action is a request, and it gets a chunk. -/
def serves (w : World) (a : Action) : Bool :=
  match a with
  | .allocate _ _ => (w.answer a).isOk
  | _ => false

/-- The action gives a pointer back, not the null pointer, and the heap accepts it. -/
def takesBack (w : World) (a : Action) : Bool :=
  match a with
  | .release (some _) => (w.answer a).isOk
  | _ => false

def runsShort (w : World) (a : Action) : Bool :=
  endsShort (w.answer a)

/-- How many actions of the run from `w` are such as `p` says, each in the world it meets. -/
def tally (p : World → Action → Bool) : World → List Action → Nat
  | _, [] => 0
  | w, a :: rest => (p w a).toNat + tally p (w.step a) rest

variable {w : World} {A : Shape} {a : Action} {actions : List Action}

theorem runsShort_reading (hi : w.heap.Intact A) (ha : a.isReading = true) :
    w.runsShort a = false := by
  have hfaultless := hi.faultless
  cases a with
  | usableSize addr =>
    rcases hfaultless.usableSize addr with ⟨size, hend⟩ | ⟨reason, hend⟩
    · rw [runsShort, answer, hend]
      rfl
    · rw [runsShort, answer, hend]
      rfl
  | ownedBy owner =>
    obtain ⟨bytes, hend⟩ := hfaultless.ownedBy owner
    rw [runsShort, answer, hend]
    rfl
  | stats =>
    obtain ⟨stats, hend⟩ := hfaultless.stats
    rw [runsShort, answer, hend]
    rfl
  | audit =>
    rw [runsShort, answer, hfaultless.audit]
    rfl
  | dump limit =>
    obtain ⟨written, hend⟩ := hfaultless.dump limit
    rw [runsShort, answer, hend]
    rfl
  | allocate request owner => cases ha
  | release addr => cases ha
  | merge => cases ha
  | write addr b => cases ha

theorem Tracks.counted_reading (hw : w.Tracks A)
    (hwater : w.heap.counters.inUse ≤ w.heap.counters.highWater) (ha : a.isReading = true) :
    Counted w.heap (w.step a).heap false false (w.runsShort a) := by
  rw [heap_step_reading ha, runsShort_reading hw.intact ha]
  exact .kept rfl rfl hwater

theorem Tracks.counted_write (hw : w.Tracks A)
    (hwater : w.heap.counters.inUse ≤ w.heap.counters.highWater) (addr : Nat) (b : UInt8) :
    Counted w.heap (w.step (.write addr b)).heap false false false := by
  have hi := (hw.write addr b).1.intact
  refine Counted.kept ?_ ?_ hwater
  · rw [World.step]
    split
    · rfl
    · rfl
  · rw [hi.chunks, hw.intact.chunks]

theorem Tracks.counted (hw : w.Tracks A)
    (hwater : w.heap.counters.inUse ≤ w.heap.counters.highWater) (a : Action) :
    Counted w.heap (w.step a).heap (w.serves a) (w.takesBack a) (w.runsShort a) := by
  cases a with
  | allocate request owner =>
    rw [heap_step_allocate, serves, runsShort, answer, isOk_map, endsShort_map]
    exact hw.intact.counted_allocate hwater request owner
  | release addr =>
    rw [heap_step_release]
    cases addr with
    | none =>
      rw [runsShort, answer, (Heap.Does.release_none _).run.1, (Heap.Does.release_none _).run.2]
      exact .kept rfl rfl hwater
    | some addr => exact hw.intact.counted_release hwater addr
  | merge =>
    rw [heap_step_merge]
    exact hw.intact.counted_merge hwater
  | usableSize addr => exact hw.counted_reading hwater rfl
  | ownedBy owner => exact hw.counted_reading hwater rfl
  | stats => exact hw.counted_reading hwater rfl
  | audit => exact hw.counted_reading hwater rfl
  | dump limit => exact hw.counted_reading hwater rfl
  | write addr b => exact hw.counted_write hwater addr b

/-- What has been counted over a run, and what became of the live chunks. -/
structure Tallied (w : World) (actions : List Action) : Prop where
  allocations : (w.after actions).heap.counters.allocations =
    w.heap.counters.allocations + tally serves w actions
  frees : (w.after actions).heap.counters.frees =
    w.heap.counters.frees + tally takesBack w actions
  failed : (w.after actions).heap.counters.failed =
    w.heap.counters.failed + tally runsShort w actions
  live : (liveIn (w.after actions).heap.chunks).length + tally takesBack w actions =
    (liveIn w.heap.chunks).length + tally serves w actions
  level : (w.after actions).heap.counters.inUse ≤ (w.after actions).heap.counters.highWater

theorem Tracks.tallied (hw : w.Tracks A)
    (hwater : w.heap.counters.inUse ≤ w.heap.counters.highWater) (actions : List Action) :
    w.Tallied actions := by
  induction actions generalizing w A with
  | nil => exact ⟨rfl, rfl, rfl, rfl, hwater⟩
  | cons a rest ih =>
    have hstep := hw.counted hwater a
    obtain ⟨B, hB, -⟩ := hw.step a
    have hrest := ih hB hstep.level
    refine ⟨?_, ?_, ?_, ?_, hrest.level⟩
    · rw [tally, ← Nat.add_assoc, ← hstep.allocations]
      exact hrest.allocations
    · rw [tally, ← Nat.add_assoc, ← hstep.frees]
      exact hrest.frees
    · rw [tally, ← Nat.add_assoc, ← hstep.failed]
      exact hrest.failed
    · have hlive := hstep.live
      have hlive' := hrest.live
      simp only [tally]
      show (liveIn ((w.step a).after rest).heap.chunks).length + _ = _
      omega

def reportedUse (w : World) : Except Fault Nat :=
  (w.heap.run Heap.stats).result.map Stats.inUse

theorem reportedUse_eq (hi : w.heap.Intact A) : w.reportedUse = .ok w.heap.counters.inUse := by
  rw [reportedUse, hi.stats, Heap.snapshot_eq hi.inUse_le]
  rfl

/-- The most that was ever in use is the greatest use after any part of the run from its start. -/
theorem Reachable.highWater (hw : w.Reachable)
    (hstart : w.heap.counters.highWater = w.heap.counters.inUse) (actions : List Action) :
    IsGreatest {n | ∃ part, part <+: actions ∧ (w.after part).reportedUse = .ok n}
      (w.after actions).heap.counters.highWater := by
  have huse : ∀ part, (w.after part).reportedUse = .ok (w.after part).heap.counters.inUse := by
    intro part
    obtain ⟨B, hB⟩ := (hw.after part).tracks
    exact reportedUse_eq hB.intact
  -- one more call at the end of the run adds one part: the whole run
  induction actions using List.reverseRecOn with
  | nil =>
    constructor
    · refine ⟨[], List.prefix_refl [], ?_⟩
      rw [huse, World.after, List.foldl_nil, hstart]
    · rintro n ⟨part, hpart, hn⟩
      obtain rfl := List.prefix_nil.1 hpart
      rw [huse] at hn
      obtain rfl := Except.ok.inj hn
      exact Nat.le_of_eq hstart.symm
  | append_singleton rest a ih =>
    obtain ⟨A, hA⟩ := hw.tracks
    obtain ⟨B, hB⟩ := (hw.after rest).tracks
    have hlast : w.after (rest ++ [a]) = (w.after rest).step a := List.foldl_concat ..
    have hwater := (hB.counted (hA.tallied (Nat.le_of_eq hstart.symm) rest).level a).highWater
    rw [← hlast] at hwater
    rw [hwater]
    obtain ⟨⟨part, hpart, hn⟩, hmax⟩ := ih
    constructor
    · rcases Nat.le_total (w.after rest).heap.counters.highWater
        (w.after (rest ++ [a])).heap.counters.inUse with hle | hle
      · rw [Nat.max_eq_right hle]
        exact ⟨rest ++ [a], List.prefix_refl _, huse _⟩
      · rw [Nat.max_eq_left hle]
        exact ⟨part, hpart.trans (List.prefix_append ..), hn⟩
    · rintro n ⟨part', hpart', hn'⟩
      rcases List.prefix_concat_iff.1 hpart' with rfl | hshort
      · rw [huse] at hn'
        obtain rfl := Except.ok.inj hn'
        exact Nat.le_max_right ..
      · exact (hmax ⟨part', hshort, hn'⟩).trans (Nat.le_max_left ..)

/-- The numbers recount what the actions of the run from `w` did. -/
structure Recounts (w : World) (actions : List Action) (s : Stats) : Prop where
  allocations : s.allocations = tally serves w actions
  frees : s.frees = tally takesBack w actions
  failed : s.failed = tally runsShort w actions
  calls : s.allocations + s.frees + s.failed ≤ actions.countP Action.isCall
  highWater :
    IsGreatest {n | ∃ part, part <+: actions ∧ (w.after part).reportedUse = .ok n} s.highWater

/-- The numbers agree with the chunks, with the marks and with what is held. -/
structure Balanced (w : World) (s : Stats) : Prop where
  undamaged : w.heap.region.walk.2 = none
  live : s.frees + (liveIn w.heap.chunks).length = s.allocations
  held : w.held.length = (liveIn w.heap.chunks).length
  marked : w.heap.live.countMarked (64 * markWords) = (liveIn w.heap.chunks).length
  inUse : ∃ sizes, List.Forall₂ (fun g size => w.heap.usableSize g.addr = .ok size) w.held sizes ∧
    s.inUse = (sizes.map fun size => size + overhead).sum
  freeBytes : s.freeBytes = totalOf (freeIn w.heap.chunks)
  region : s.inUse + s.freeBytes = s.regionBytes ∧ s.regionBytes = w.heap.len
  freeChunks : s.freeChunks = (freeIn w.heap.chunks).length
  largestFree : s.largestFree = ((freeIn w.heap.chunks).map fun x => x.2.size).max?.getD 0

theorem Tracks.perm_held (hw : w.Tracks A) : w.held.Perm
    ((liveIn A.chunks).map fun x => ⟨w.heap.base + (x.1 + tagBytes), x.2.owner⟩) := by
  have hheld : w.held.Nodup := .of_map _ hw.distinct
  refine (List.perm_ext_iff_of_nodup hheld ?_).2 fun g => ?_
  · rw [List.Nodup, List.pairwise_map]
    apply (hw.intact.settled.valid.tiles.sorted.filter _).imp
    intro x y hlt he
    have haddr := congrArg Grant.addr he
    simp only at haddr
    omega
  · rw [hw.held, List.mem_map]
    constructor
    · rintro ⟨c, t, hc, rfl⟩
      exact ⟨(c, t), hc, rfl⟩
    · rintro ⟨⟨c, t⟩, hc, rfl⟩
      exact ⟨c, t, hc, rfl⟩

theorem Tracks.sizes (hw : w.Tracks A) :
    ∃ sizes, List.Forall₂ (fun g size => w.heap.usableSize g.addr = .ok size) w.held sizes ∧
      w.heap.counters.inUse = (sizes.map fun size => size + overhead).sum := by
  have hlive : List.Forall₂ (fun (g : Grant) size => w.heap.usableSize g.addr = .ok size)
      ((liveIn A.chunks).map fun x => ⟨w.heap.base + (x.1 + tagBytes), x.2.owner⟩)
      ((liveIn A.chunks).map fun x => x.2.size - overhead) := by
    rw [List.forall₂_map_left_iff, List.forall₂_map_right_iff, List.forall₂_same]
    rintro ⟨c, t⟩ hc
    exact hw.intact.usableSize hc
  obtain ⟨sizes, hsizes, hperm⟩ := List.perm_comp_forall₂ hw.perm_held hlive
  refine ⟨sizes, hsizes, ?_⟩
  rw [hw.intact.inUse, totalOf_eq_sum, (hperm.map _).sum_nat, List.map_map]
  congr 1
  apply List.map_congr_left
  rintro ⟨c, t⟩ hc
  have hmin := (hw.intact.settled.valid.tiles.proper (mem_liveIn.1 hc).1).1
  simp only [minChunk] at hmin
  show t.size = t.size - 16 + 16
  omega

theorem Tracks.balanced (hw : w.Tracks A) {s : Stats} (hs : w.heap.snapshot = .ok s)
    (hlive : w.heap.counters.frees + (liveIn w.heap.chunks).length = w.heap.counters.allocations) :
    w.Balanced s := by
  have hi := hw.intact
  have hchunks := hi.chunks
  have hlen : w.heap.len = totalOf w.heap.chunks := by
    rw [hi.len, hchunks, hi.settled.valid.tiles.total, Nat.zero_add]
  have hsplit := total_liveIn_freeIn w.heap.chunks
  have huse : w.heap.counters.inUse = totalOf (liveIn w.heap.chunks) := by
    rw [hchunks]
    exact hi.inUse
  obtain rfl := Except.ok.inj ((Heap.snapshot_eq hi.inUse_le).symm.trans hs)
  refine ⟨hi.undamaged, hlive, ?_, ?_, hw.sizes, ?_, ⟨?_, rfl⟩, rfl, rfl⟩
  · rw [hw.perm_held.length_eq, List.length_map, hchunks]
  · rw [hchunks]
    apply hi.countMarked_of_le
    have hbound := hi.settled.valid.bounded
    rw [hi.len]
    simp only [granule, markWords, markBytes, maxRegion] at hbound ⊢
    omega
  · show w.heap.len - w.heap.counters.inUse = _
    omega
  · show w.heap.counters.inUse + (w.heap.len - w.heap.counters.inUse) = w.heap.len
    omega

/-- A region is taken over and then called in any way: the reported numbers recount the calls and
agree with what is there. -/
theorem run_accounted {start : Nat} {bytes : ByteArray} {h : Heap} {journal : List Record}
    (h₀ : Heap.takeOver start bytes = .ok (h, journal)) (actions : List Action) :
    ∃ s, ((World.after ⟨h, []⟩ actions).heap.run Heap.stats).result = .ok s ∧
      Recounts ⟨h, []⟩ actions s ∧ Balanced (World.after ⟨h, []⟩ actions) s := by
  have hw : Reachable ⟨h, []⟩ := .start h₀
  obtain ⟨A, hA⟩ := hw.tracks
  obtain ⟨-, -, -, hzero⟩ := Heap.start_takeOver h₀
  have hnone : (liveIn h.chunks).length = 0 := by
    rw [(Heap.intact_takeOver h₀).chunks]
    rfl
  have hlevel : h.counters.highWater = h.counters.inUse := by
    rw [hzero]
    rfl
  have hmost := hw.highWater hlevel actions
  obtain ⟨hallocations, hfrees, hfailed, hlive, -⟩ := hA.tallied (Nat.le_of_eq hlevel.symm) actions
  simp only [hzero, Counters.zero, hnone, Nat.zero_add] at hallocations hfrees hfailed hlive
  obtain ⟨B, hB, hkeeps, -⟩ := hA.keeps_after (Heap.keeps_takeOver h₀) actions
  have hcalls := hkeeps.counts
  rw [Nat.zero_add] at hcalls
  obtain ⟨s, hs⟩ := hB.intact.snapshot
  have hbalanced := hB.balanced hs (by omega)
  obtain rfl := Except.ok.inj ((Heap.snapshot_eq hB.intact.inUse_le).symm.trans hs)
  exact ⟨_, hB.intact.stats.trans hs, ⟨hallocations, hfrees, hfailed, hcalls, hmost⟩, hbalanced⟩

/-- The second request gets 64 bytes, though 48 would do, because the rest would be no chunk. The
third runs short, the second release is a stray, and the peak is over when the run ends. -/
theorem rounded_accounted :
    let actions := [.allocate 8 .kernel, .allocate 24 .kernel, .allocate 8 .kernel,
      .release (some 0x1008), .release (some 0x1010)]
    let w := sample.after actions
    w.heap.snapshot = .ok ⟨96, 64, 32, 96, 2, 1, 1, 1, 32⟩ ∧
      ∃ s, (w.heap.run Heap.stats).result = .ok s ∧ sample.Recounts actions s ∧ w.Balanced s := by
  have hok : (Heap.takeOver 0x1000 ⟨Array.replicate 96 0⟩).isOk = true := by decide +kernel
  refine ⟨by decide +kernel, ?_⟩
  unfold sample
  split
  next h journal h₀ => exact run_accounted h₀ _
  next f hf =>
    rw [hf] at hok
    cases hok

end World

end BoundaryHeap
