import BoundaryHeap.Proofs.Faultless
import BoundaryHeap.Proofs.Isolation

namespace BoundaryHeap

namespace Heap

variable {h h' : Heap} {A : Shape} {addr c : Nat} {t : Tag}

/-- Why `addr` is refused where no live payload begins. -/
def refusal (h : Heap) (addr : Nat) : PointerFault :=
  if addr % alignment ≠ 0 then .misaligned
  else if addr < h.base + tagBytes ∨ h.base + h.len ≤ addr then .outOfRegion
  else if (addr - h.base - tagBytes) % granule ≠ 0 then .misaligned
  else .notAllocated

def Refuses (h : Heap) (addr : Nat) (reason : PointerFault) : Prop :=
  (h.run (release (some addr))).result = .error (.error (.invalidFree addr reason)) ∧
    (h.run (release (some addr))).after = h

theorem refusal_congr (hbase : h'.base = h.base) (hlen : h'.len = h.len) :
    h'.refusal addr = h.refusal addr := by
  rw [refusal, refusal, hbase, hlen]

theorem refusal_payload (halign : h.base % granule = 0) (hgrid : c % granule = 0)
    (hinside : c + tagBytes < h.len) : h.refusal (h.base + (c + tagBytes)) = .notAllocated := by
  simp only [granule, tagBytes] at halign hgrid hinside
  unfold refusal
  simp only [alignment, tagBytes, granule]
  rw [if_neg (by omega), if_neg (by omega), if_neg (by omega)]

theorem offsetOf?_filter (h : Heap) (addr : Nat) :
    (h.region.offsetOf? addr).filter (tagBytes ≤ ·) =
      if addr < h.base + tagBytes ∨ h.base + h.len ≤ addr then none else some (addr - h.base) := by
  have hstop : h.region.stop = h.base + h.len := rfl
  have hbase : h.region.base = h.base := rfl
  rw [Region.offsetOf?, hstop, hbase]
  by_cases hin : h.base ≤ addr ∧ addr < h.base + h.len
  · rw [if_pos hin, Option.filter_some]
    by_cases hlow : addr < h.base + tagBytes
    · have hbelow : ¬tagBytes ≤ addr - h.base := by omega
      rw [decide_eq_false hbelow, if_pos (Or.inl hlow)]
      rfl
    · have habove : tagBytes ≤ addr - h.base := by omega
      have hnot : ¬(addr < h.base + tagBytes ∨ h.base + h.len ≤ addr) := by omega
      rw [decide_eq_true habove, if_neg hnot]
      rfl
  · have hout : addr < h.base + tagBytes ∨ h.base + h.len ≤ addr := by omega
    rw [if_neg hin, if_pos hout]
    rfl

theorem refusal_of_locate {reason : PointerFault} (hbad : h.locate addr = .error reason) :
    reason = h.refusal addr := by
  rw [locate, offsetOf?_filter] at hbad
  rw [refusal]
  by_cases halign : addr % alignment = 0
  · rw [if_pos halign] at hbad
    rw [if_neg (not_not_intro halign)]
    by_cases hout : addr < h.base + tagBytes ∨ h.base + h.len ≤ addr
    · rw [if_pos hout] at hbad
      rw [if_pos hout]
      exact (Except.error.inj hbad).symm
    · simp only [if_neg hout] at hbad
      rw [if_neg hout]
      by_cases hgrid : (addr - h.base - tagBytes) % granule = 0
      · rw [if_pos hgrid] at hbad
        rw [if_neg (not_not_intro hgrid)]
        split at hbad
        next => cases hbad
        next => exact (Except.error.inj hbad).symm
      · rw [if_neg hgrid] at hbad
        rw [if_pos hgrid]
        exact (Except.error.inj hbad).symm
  · rw [if_neg halign] at hbad
    rw [if_pos halign]
    exact (Except.error.inj hbad).symm

theorem Intact.refuses_stray (hi : h.Intact A)
    (hstray : ∀ c t, (c, t) ∈ liveIn A.chunks → addr ≠ h.base + (c + tagBytes)) :
    h.Refuses addr (h.refusal addr) := by
  rcases hplace : h.locate addr with reason | c
  · rw [← refusal_of_locate hplace]
    exact (Fails.release (liveChunk_of_locate_error hi.bounded hplace)).run
  · obtain ⟨t, hc, hok⟩ := hi.live_of_locate hplace
    exact absurd (hi.of_liveChunk hok).2 (hstray c t hc)

end Heap

namespace World

variable {w : World} {A : Shape} {a : Action} {actions : List Action} {addr c : Nat} {t : Tag}
  {g : Grant}

/-- Somebody holds the pointer `addr`. -/
def Holds (w : World) (addr : Nat) : Prop :=
  ∃ g ∈ w.held, g.addr = addr

def HandsOut (g : Grant) (w : World) (a : Action) : Prop :=
  ∃ request, a = .allocate request g.owner ∧
    (w.heap.run (Heap.allocate request g.owner)).result = .ok g.addr

/-- A request of the run got `g`, and no release of it succeeded since. -/
def Issued (g : Grant) (w : World) (actions : List Action) : Prop :=
  ∃ before a since, actions = before ++ a :: since ∧ HandsOut g (w.after before) a ∧
    Keeps g ((w.after before).step a) since

def Withheld (addr : Nat) : World → List Action → Prop
  | _, [] => True
  | w, a :: rest =>
    (∀ request owner, a = .allocate request owner →
      (w.heap.run (Heap.allocate request owner)).result ≠ .ok addr) ∧
      Withheld addr (w.step a) rest

/-- Releases accept what is held and nothing else, now and after whatever comes next. -/
structure Discerns (w : World) : Prop where
  accepted : ∀ addr, (w.heap.run (Heap.release (some addr))).result = .ok () ↔ w.Holds addr
  refused : ∀ addr, ¬w.Holds addr → w.heap.Refuses addr (w.heap.refusal addr)
  granted : ∀ request owner addr,
    (w.heap.run (Heap.allocate request owner)).result = .ok addr →
      ((w.step (.allocate request owner)).heap.run (Heap.release (some addr))).result = .ok ()
  stable : ∀ g ∈ w.held, ∀ actions, Keeps g w actions →
    ((w.after actions).heap.run (Heap.release (some g.addr))).result = .ok ()
  spent : ∀ addr, w.Holds addr → ∀ actions, Withheld addr (w.step (.release (some addr))) actions →
    ((w.step (.release (some addr))).after actions).heap.Refuses addr .notAllocated
  interior : ∀ g ∈ w.held, ∀ size, w.heap.usableSize g.addr = .ok size →
    ∀ actions, Keeps g w actions → ∀ addr, g.addr < addr → addr < g.addr + size →
      (w.after actions).heap.Refuses addr (w.heap.refusal addr)

theorem held_finish (w : World) (o : Outcome Heap α) : (w.finish o fun _ => w.held).held = w.held := by
  unfold finish
  split
  · rfl
  · rfl

theorem mem_held_other (hheld : (w.step a).held = w.held) (hrel : a ≠ .release (some g.addr))
    (halloc : ∀ request, a ≠ .allocate request g.owner) :
    g ∈ (w.step a).held ↔ (g ∈ w.held ∧ Keeps g w [a]) ∨ HandsOut g w a := by
  rw [hheld]
  constructor
  · intro hg
    exact .inl ⟨hg, fun ha => absurd ha hrel, trivial⟩
  · rintro (⟨hg, -⟩ | ⟨request, ha, -⟩)
    · exact hg
    · exact absurd ha (halloc request)

theorem mem_held_allocate (w : World) (request : Nat) (owner : Owner) :
    g ∈ (w.step (.allocate request owner)).held ↔
      (g ∈ w.held ∧ Keeps g w [.allocate request owner]) ∨
        HandsOut g w (.allocate request owner) := by
  have hkeeps : Keeps g w [.allocate request owner] := ⟨nofun, trivial⟩
  rw [and_iff_left hkeeps, step, finish]
  rcases hresult : (w.heap.run (Heap.allocate request owner)).result with f | addr
  · constructor
    · exact .inl
    · rintro (hg | ⟨_, ha, haddr⟩)
      · exact hg
      · obtain ⟨rfl, rfl⟩ := Action.allocate.inj ha
        cases haddr.symm.trans hresult
  · rw [List.mem_cons]
    constructor
    · rintro (rfl | hg)
      · exact .inr ⟨request, rfl, hresult⟩
      · exact .inl hg
    · rintro (hg | ⟨_, ha, haddr⟩)
      · exact .inr hg
      · obtain ⟨rfl, rfl⟩ := Action.allocate.inj ha
        exact .inl (congrArg (Grant.mk · g.owner) (Except.ok.inj (haddr.symm.trans hresult)))

theorem mem_held_release (w : World) (addr : Option Nat) :
    g ∈ (w.step (.release addr)).held ↔
      (g ∈ w.held ∧ Keeps g w [.release addr]) ∨ HandsOut g w (.release addr) := by
  have hnone : ¬HandsOut g w (.release addr) := fun ⟨_, ha, _⟩ => nomatch ha
  rw [or_iff_left hnone, step, finish]
  rcases hresult : (w.heap.run (Heap.release addr)).result with f | x
  · have hkeeps : Keeps g w [.release addr] := by
      refine ⟨fun ha => ⟨f, ?_⟩, trivial⟩
      rw [← Action.release.inj ha]
      exact hresult
    exact (and_iff_left hkeeps).symm
  · rw [List.mem_filter, decide_eq_true_eq]
    apply and_congr_right
    intro _
    constructor
    · exact fun hne => ⟨fun ha => absurd (Action.release.inj ha).symm hne, trivial⟩
    · rintro ⟨hkeep, -⟩ rfl
      obtain ⟨f, hf⟩ := hkeep rfl
      cases hf.symm.trans hresult

/-- What is held after an action was held before and not taken back, or was just handed out. -/
theorem mem_held_step (w : World) (a : Action) :
    g ∈ (w.step a).held ↔ (g ∈ w.held ∧ Keeps g w [a]) ∨ HandsOut g w a := by
  cases a with
  | allocate request owner => exact mem_held_allocate w request owner
  | release addr => exact mem_held_release w addr
  | merge => exact mem_held_other (held_finish ..) (by simp) (by simp)
  | usableSize addr => exact mem_held_other (held_finish ..) (by simp) (by simp)
  | ownedBy owner => exact mem_held_other (held_finish ..) (by simp) (by simp)
  | stats => exact mem_held_other (held_finish ..) (by simp) (by simp)
  | audit => exact mem_held_other (held_finish ..) (by simp) (by simp)
  | dump limit => exact mem_held_other (held_finish ..) (by simp) (by simp)
  | write addr b =>
    have hheld : (w.step (.write addr b)).held = w.held := by
      rw [step]
      split
      · rfl
      · rfl
    exact mem_held_other hheld (by simp) (by simp)

theorem issued_cons : Issued g w (a :: actions) ↔
    (HandsOut g w a ∧ Keeps g (w.step a) actions) ∨ Issued g (w.step a) actions := by
  constructor
  · rintro ⟨before, b, since, he, hout, hkeep⟩
    cases before with
    | nil =>
      obtain ⟨rfl, rfl⟩ := List.cons.inj he
      exact .inl ⟨hout, hkeep⟩
    | cons a' rest =>
      obtain ⟨rfl, rfl⟩ := List.cons.inj he
      exact .inr ⟨rest, b, since, rfl, hout, hkeep⟩
  · rintro (⟨hout, hkeep⟩ | ⟨before, b, since, rfl, hout, hkeep⟩)
    · exact ⟨[], a, actions, rfl, hout, hkeep⟩
    · exact ⟨a :: before, b, since, rfl, hout, hkeep⟩

theorem mem_held_after (w : World) (actions : List Action) :
    g ∈ (w.after actions).held ↔ (g ∈ w.held ∧ Keeps g w actions) ∨ Issued g w actions := by
  induction actions generalizing w with
  | nil =>
    have hnone : ¬Issued g w [] := by
      rintro ⟨before, a, since, he, -⟩
      cases before with
      | nil => cases he
      | cons a' rest => cases he
    rw [or_iff_left hnone]
    exact (and_iff_left trivial).symm
  | cons a rest ih =>
    have hkeeps : Keeps g w (a :: rest) ↔ Keeps g w [a] ∧ Keeps g (w.step a) rest := by
      rw [Keeps, Keeps, Keeps, and_true]
    have hafter : g ∈ (w.after (a :: rest)).held ↔ g ∈ ((w.step a).after rest).held := Iff.rfl
    rw [hafter, ih (w.step a), mem_held_step, issued_cons, hkeeps, or_and_right, or_assoc,
      and_assoc]

/-- Who does not hold `addr` does not get to hold it without a request. -/
theorem not_holds_after (hnot : ¬w.Holds addr) (hwithheld : Withheld addr w actions) :
    ¬(w.after actions).Holds addr := by
  induction actions generalizing w with
  | nil => exact hnot
  | cons a rest ih =>
    apply ih _ hwithheld.2
    intro ⟨g, hg, haddr⟩
    rcases (mem_held_step w a).1 hg with ⟨hg, -⟩ | ⟨request, ha, hresult⟩
    · exact hnot ⟨g, hg, haddr⟩
    · rw [haddr] at hresult
      exact hwithheld.1 request g.owner ha hresult

theorem Tracks.after (hw : w.Tracks A) (actions : List Action) :
    ∃ B, (w.after actions).Tracks B ∧ (w.after actions).heap.base = w.heap.base ∧
      (w.after actions).heap.len = w.heap.len := by
  induction actions generalizing w A with
  | nil => exact ⟨A, hw, rfl, rfl⟩
  | cons a rest ih =>
    obtain ⟨B, hB, hfollows⟩ := hw.step a
    obtain ⟨C, hC, hbase, hlen⟩ := ih hB
    exact ⟨C, hC, hbase.trans hfollows.base, hlen.trans hfollows.len⟩

theorem Tracks.holds_iff (hw : w.Tracks A) : w.Holds addr ↔
    ∃ c t, (c, t) ∈ liveIn A.chunks ∧ addr = w.heap.base + (c + tagBytes) := by
  constructor
  · rintro ⟨g, hg, rfl⟩
    obtain ⟨c, t, hc, rfl⟩ := (hw.held g).1 hg
    exact ⟨c, t, hc, rfl⟩
  · rintro ⟨c, t, hc, rfl⟩
    exact ⟨_, hw.mem_held hc, rfl⟩

theorem Tracks.accepts (hw : w.Tracks A) (hheld : w.Holds addr) :
    (w.heap.run (Heap.release (some addr))).result = .ok () := by
  obtain ⟨c, t, hc, rfl⟩ := hw.holds_iff.1 hheld
  obtain ⟨s', hrun, -⟩ := hw.intact.release hc
  exact hrun.run.1

theorem Tracks.refuses (hw : w.Tracks A) (hnot : ¬w.Holds addr) :
    w.heap.Refuses addr (w.heap.refusal addr) :=
  hw.intact.refuses_stray fun c t hc haddr => hnot (hw.holds_iff.2 ⟨c, t, hc, haddr⟩)

theorem Tracks.refuses_after (hw : w.Tracks A) (hnot : ¬(w.after actions).Holds addr) :
    (w.after actions).heap.Refuses addr (w.heap.refusal addr) := by
  obtain ⟨B, hB, hbase, hlen⟩ := hw.after actions
  rw [← Heap.refusal_congr hbase hlen]
  exact hB.refuses hnot

theorem Tracks.refusal_held (hw : w.Tracks A) (hheld : w.Holds addr) :
    w.heap.refusal addr = .notAllocated := by
  obtain ⟨c, t, hc, rfl⟩ := hw.holds_iff.1 hheld
  have htiles := hw.intact.settled.valid.tiles
  have hend := htiles.end_le (mem_liveIn.1 hc).1
  have hpos := htiles.size_pos (mem_liveIn.1 hc).1
  apply Heap.refusal_payload hw.intact.aligned (htiles.mod_of_mem rfl (mem_liveIn.1 hc).1)
  rw [hw.intact.len]
  simp only [tagBytes]
  omega

theorem Tracks.not_holds_released (hw : w.Tracks A) (hheld : w.Holds addr) :
    ¬(w.step (.release (some addr))).Holds addr := by
  rintro ⟨g, hg, rfl⟩
  rcases (mem_held_step w _).1 hg with ⟨-, hkeep, -⟩ | ⟨_, ha, -⟩
  · obtain ⟨f, hf⟩ := hkeep rfl
    cases hf.symm.trans (hw.accepts hheld)
  · cases ha

/-- No payload begins inside another. -/
theorem Tracks.not_holds_inside (hw : w.Tracks A) (hc : (c, t) ∈ liveIn A.chunks)
    (hlo : w.heap.base + (c + tagBytes) < addr) (hhi : addr < w.heap.base + (c + t.size)) :
    ¬w.Holds addr := by
  intro hheld
  obtain ⟨d, u, hd, rfl⟩ := hw.holds_iff.1 hheld
  have hpos := hw.intact.settled.valid.tiles.size_pos (mem_liveIn.1 hc).1
  simp only [tagBytes] at hlo hhi
  rcases hw.intact.settled.valid.tiles.apart (mem_liveIn.1 hc).1 (mem_liveIn.1 hd).1 with
    ⟨rfl, -⟩ | he | he
  · omega
  · omega
  · have hpos' := hw.intact.settled.valid.tiles.size_pos (mem_liveIn.1 hd).1
    omega

theorem Tracks.discerns (hw : w.Tracks A) : w.Discerns where
  accepted addr := by
    constructor
    · intro hok
      by_contra hnot
      cases hok.symm.trans (hw.refuses hnot).1
    · exact hw.accepts
  refused addr := hw.refuses
  granted request owner addr hok := by
    obtain ⟨B, hB, -⟩ := hw.step (.allocate request owner)
    exact hB.accepts ⟨⟨addr, owner⟩, (mem_held_step w _).2 (.inr ⟨request, rfl, hok⟩), rfl⟩
  stable g hg actions hkeep := by
    obtain ⟨B, hB, -⟩ := hw.after actions
    exact hB.accepts ⟨g, (mem_held_after w actions).2 (.inl ⟨hg, hkeep⟩), rfl⟩
  spent addr hheld actions hwithheld := by
    have hgone : ¬(w.after (.release (some addr) :: actions)).Holds addr :=
      not_holds_after (w := w.step (.release (some addr))) (hw.not_holds_released hheld) hwithheld
    have hrefuses := hw.refuses_after hgone
    rw [hw.refusal_held hheld] at hrefuses
    exact hrefuses
  interior g hg size hsize actions hkeep addr hlo hhi := by
    obtain ⟨c, t, hc, rfl⟩ := (hw.held g).1 hg
    obtain rfl := Except.ok.inj ((hw.intact.usableSize hc).symm.trans hsize)
    obtain ⟨B, hB, hcB, hbase, -⟩ := hw.keeps hc hkeep
    rw [← hbase] at hlo hhi
    apply hw.refuses_after
    apply hB.not_holds_inside hcB hlo
    have hpos := hB.intact.settled.valid.tiles.size_pos (mem_liveIn.1 hcB).1
    simp only [tagBytes, overhead] at hhi
    omega

/-- In every run from the start, the pointers that are accepted are those that a request got and no
release took back since; all others are refused. -/
theorem run_discerns {start : Nat} {bytes : ByteArray} {h : Heap} {journal : List Record}
    (h₀ : Heap.takeOver start bytes = .ok (h, journal)) (actions : List Action) :
    (∀ g, g ∈ (World.after ⟨h, []⟩ actions).held ↔ Issued g ⟨h, []⟩ actions) ∧
      (World.after ⟨h, []⟩ actions).Discerns := by
  constructor
  · intro g
    rw [mem_held_after]
    exact or_iff_right fun hg => nomatch hg.1
  · obtain ⟨A, hA⟩ := (Reachable.start h₀).tracks
    obtain ⟨B, hB, -⟩ := hA.after actions
    exact hB.discerns

/-- Two chunks come back and are merged and cut again. Where the second one began, the payload of
the new one goes on, and the caller has left a byte of a tag there. -/
theorem recut_discerns :
    let actions := [.allocate 8 .kernel, .allocate 8 .nobody, .release (some 0x1008),
      .release (some 0x1028), .allocate 40 .kernel, .write 0x1020 0x21]
    let w := sample.after actions
    w.held = [⟨0x1008, .kernel⟩] ∧ (∀ g, g ∈ w.held ↔ Issued g sample actions) ∧
      w.Discerns := by
  have hok : (Heap.takeOver 0x1000 ⟨Array.replicate 96 0⟩).isOk = true := by decide +kernel
  refine ⟨by decide +kernel, ?_⟩
  unfold sample
  split
  next h journal h₀ => exact run_discerns h₀ _
  next f hf =>
    rw [hf] at hok
    cases hok

end World

end BoundaryHeap
