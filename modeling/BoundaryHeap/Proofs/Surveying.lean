import BoundaryHeap.Proofs.Sections

namespace BoundaryHeap

namespace Region

variable {r : Region} {budget n c d : Nat} {cur : Option Nat}

def leads (r : Region) (c : Nat) : Option Nat :=
  match r.nextOf c with
  | .ok next => next
  | .error _ => none

def along (r : Region) : Nat → Option Nat → Option Nat
  | 0, cur => cur
  | n + 1, cur => r.along n (cur.bind r.leads)

/-- What fewer than `budget` links lead to from `cur` on. -/
def trail (r : Region) (budget : Nat) (cur : Option Nat) : List Nat :=
  (List.range budget).filterMap fun n => r.along n cur

/-- Fewer than `budget` links lead from `cur` to `d`, and no link can be read there. -/
def Astray (r : Region) (budget : Nat) (cur : Option Nat) (d : Nat) : Prop :=
  ∃ n < budget, r.along n cur = some d ∧ ¬r.Admits (nextField d) 4

/-- Every link leads to a place at which a link can be read. -/
def Followable (r : Region) : Prop :=
  ∀ c d, r.nextOf c = .ok (some d) → r.Admits (nextField d) 4

theorem along_none (r : Region) (n : Nat) : r.along n none = none := by
  induction n with
  | zero => rfl
  | succ n ih => exact ih

theorem length_trail_le (r : Region) (budget : Nat) (cur : Option Nat) :
    (r.trail budget cur).length ≤ budget := by
  have hle := (List.range budget).length_filterMap_le fun n => r.along n cur
  rw [List.length_range] at hle
  exact hle

theorem trail_none (r : Region) (budget : Nat) : r.trail budget none = [] := by
  rw [trail, List.filterMap_eq_nil_iff]
  exact fun n _ => r.along_none n

theorem trail_succ (r : Region) (budget c : Nat) :
    r.trail (budget + 1) (some c) = c :: r.trail budget (r.leads c) := by
  rw [trail, List.range_succ_eq_map, List.filterMap_cons, List.filterMap_map]
  rfl

theorem astray_here (hout : ¬r.Admits (nextField c) 4) : r.Astray (budget + 1) (some c) c :=
  ⟨0, Nat.succ_pos _, rfl, hout⟩

theorem Astray.behind (h : r.Astray budget (r.leads c) d) : r.Astray (budget + 1) (some c) d := by
  obtain ⟨n, hn, halong, hout⟩ := h
  exact ⟨n + 1, Nat.succ_lt_succ hn, halong, hout⟩

theorem nextOf_of_admits (h : r.Admits (nextField c) 4) : r.nextOf c = .ok (r.leads c) := by
  obtain ⟨w, hw⟩ := read32_of_admits h
  rw [leads, nextOf, hw]
  rfl

theorem nextOf_of_not_admits (h : ¬r.Admits (nextField c) 4) :
    r.nextOf c = .error (r.accessFault (nextField c) 4) := by
  rw [nextOf, read32, if_neg h]
  rfl

theorem leads_of_not_admits (h : ¬r.Admits (nextField c) 4) : r.leads c = none := by
  rw [leads, nextOf_of_not_admits h]

/-- A walk that does not go astray finds what the links lead to. -/
theorem chain_of_not_astray (h : ∀ d, ¬r.Astray budget cur d) :
    r.chain budget cur = .ok (r.trail budget cur) := by
  induction budget generalizing cur with
  | zero => cases cur <;> rfl
  | succ budget ih =>
    cases cur with
    | none =>
      rw [trail_none]
      rfl
    | some c =>
      have hc : r.Admits (nextField c) 4 := by
        by_contra hout
        exact h c (astray_here hout)
      have hrest := ih fun d hd => h d hd.behind
      rw [chain, Fault.bind_ok (nextOf_of_admits hc), Fault.bind_ok hrest, trail_succ]
      rfl

theorem chain_of_astray (h : r.Astray budget cur d) :
    r.chain budget cur = .error (r.accessFault (nextField d) 4) := by
  induction budget generalizing cur with
  | zero =>
    obtain ⟨n, hn, -⟩ := h
    cases hn
  | succ budget ih =>
    obtain ⟨n, hn, halong, hout⟩ := h
    rcases cur with _ | c
    · rw [along_none] at halong
      cases halong
    · cases n with
      | zero =>
        obtain rfl := Option.some.inj halong
        rw [chain, nextOf_of_not_admits hout]
        rfl
      | succ n =>
        have hc : r.Admits (nextField c) 4 := by
          -- Where no link can be read, nothing is found behind it.
          by_contra hstop
          have hnone : r.along n (r.leads c) = some d := halong
          rw [leads_of_not_admits hstop, along_none] at hnone
          cases hnone
        have hbehind : r.Astray budget (r.leads c) d :=
          ⟨n, Nat.lt_of_succ_lt_succ hn, halong, hout⟩
        rw [chain, Fault.bind_ok (nextOf_of_admits hc), ih hbehind]
        rfl

theorem Followable.not_astray (h : r.Followable)
    (hstart : ∀ c, cur = some c → r.Admits (nextField c) 4) : ¬r.Astray budget cur d := by
  rintro ⟨n, -, halong, hout⟩
  induction n generalizing cur with
  | zero => exact hout (hstart d halong)
  | succ n ih =>
    have hbehind : ∀ c, cur.bind r.leads = some c → r.Admits (nextField c) 4 := by
      intro c hc
      obtain ⟨b, rfl, hb⟩ := Option.bind_eq_some_iff.1 hc
      have hnext := nextOf_of_admits (hstart b rfl)
      rw [hb] at hnext
      exact h b c hnext
    exact ih hbehind halong

end Region

namespace Heap

variable {h : Heap} {l : ListId} {d : Nat}

def trails (h : Heap) : Lists := fun l =>
  h.region.trail (h.len / minChunk) (h.store.heads.get l)

def Astray (h : Heap) (l : ListId) (d : Nat) : Prop :=
  h.region.Astray (h.len / minChunk) (h.store.heads.get l) d

theorem members_of_not_astray (hl : ∀ d, ¬h.Astray l d) :
    h.store.members l = .ok (h.trails l) :=
  Region.chain_of_not_astray hl

theorem members_of_astray (hd : h.Astray l d) :
    h.store.members l = .error (.abort (.access 4 (Region.nextField d) h.len)) :=
  Region.chain_of_astray hd

def allLines (h : Heap) : List String :=
  h.headLines ++ "lists:" :: listLines h.trails ListId.all ++ h.marksReport.lines

/-- How a report on damaged bytes ends: with every line, or at the first list whose walk goes
astray. -/
inductive Surveyed (h : Heap) : Prop where
  | whole (hnone : ∀ l d, ¬h.Astray l d)
      (hrun : (h.run (dump none)).result =
        .ok ⟨String.join (h.allLines.map (· ++ "\n")), true⟩) : h.Surveyed
  | broken {before behind : List ListId} {l : ListId} {d : Nat}
      (hall : ListId.all = before ++ l :: behind) (hbefore : ∀ l' ∈ before, ∀ d', ¬h.Astray l' d')
      (hl : h.Astray l d)
      (hlines : h.report.lines = h.headLines ++ "lists:" :: listLines h.trails before)
      (hrun : (h.run (dump none)).result =
        .error (.abort (.access 4 (Region.nextField d) h.len))) : h.Surveyed

theorem dump_whole (hle : h.counters.inUse ≤ h.len) (hlen : h.len ≤ maxRegion)
    (hnone : ∀ l d, ¬h.Astray l d) :
    Does (dump none) h ⟨String.join (h.allLines.map (· ++ "\n")), true⟩ h :=
  dump_of_report (report_of_members hle hlen fun l => members_of_not_astray (hnone l))

theorem exists_first_astray (h : Heap) (hsome : ¬∀ l d, ¬h.Astray l d) :
    ∃ before l behind d, ListId.all = before ++ l :: behind ∧
      (∀ l' ∈ before, ∀ d', ¬h.Astray l' d') ∧ h.Astray l d := by
  classical
  obtain ⟨l₀, hl₀⟩ := not_forall.1 hsome
  rcases hfind : ListId.all.find? fun l => ∃ d, h.Astray l d with _ | l
  · rw [List.find?_eq_none] at hfind
    simp only [decide_eq_true_eq] at hfind
    exact absurd (fun d hd => hfind l₀ (ListId.mem_all l₀) ⟨d, hd⟩) hl₀
  · rw [List.find?_eq_some_iff_append] at hfind
    obtain ⟨hl, before, behind, hall, hbefore⟩ := hfind
    simp only [decide_eq_true_eq, Bool.not_eq_true', decide_eq_false_iff_not] at hl hbefore
    obtain ⟨d, hd⟩ := hl
    exact ⟨before, l, behind, d, hall, fun l' hl' d' hd' => hbefore l' hl' ⟨d', hd'⟩, hd⟩

theorem surveyed (hle : h.counters.inUse ≤ h.len) (hlen : h.len ≤ maxRegion) : h.Surveyed := by
  by_cases hnone : ∀ l d, ¬h.Astray l d
  · exact .whole hnone (dump_whole hle hlen hnone).run.1
  · obtain ⟨before, l, behind, d, hall, hbefore, hd⟩ := h.exists_first_astray hnone
    have hreport := report_of_error hle hall
      (fun l' hl' => members_of_not_astray (hbefore l' hl')) (members_of_astray hd)
    exact .broken hall hbefore hd (by rw [hreport]) (dump_of_fault hreport).run.1

theorem inUse_le_overwritten {bytes : ByteArray} (hle : h.counters.inUse ≤ h.len)
    (hsize : bytes.size = h.len) :
    (h.overwritten bytes).counters.inUse ≤ (h.overwritten bytes).len :=
  hle.trans (Nat.le_of_eq hsize.symm)

theorem boundsReport_overwritten {bytes : ByteArray} (hle : h.counters.inUse ≤ h.len)
    (hsize : bytes.size = h.len) : (h.overwritten bytes).boundsReport = h.boundsReport := by
  have hbase : (h.overwritten bytes).base = h.base := rfl
  have hlen : (h.overwritten bytes).len = h.len := hsize
  have hstop : (h.overwritten bytes).region.stop = h.region.stop :=
    congrArg (h.base + ·) hsize
  have hcounters : (h.overwritten bytes).counters = h.counters := rfl
  simp only [boundsReport, snapshot, freeBytes, hbase, hlen, hstop, hcounters, if_pos hle]
  rfl

theorem marksReport_overwritten {bytes : ByteArray} (hsize : bytes.size = h.len) :
    (h.overwritten bytes).marksReport = h.marksReport := by
  have hlen : (h.overwritten bytes).len = h.len := hsize
  have hbase : (h.overwritten bytes).base = h.base := rfl
  have hlive : (h.overwritten bytes).live = h.live := rfl
  simp only [marksReport, hlen, hbase, hlive]

/-- The links of the first chunks of the lists are in the region, whatever they are. -/
theorem Intact.admits_head {A : Shape} {bytes : ByteArray} (hi : h.Intact A)
    (hsize : bytes.size = h.len) {c : Nat} (hc : h.store.heads.get l = some c) :
    (h.overwritten bytes).region.Admits (Region.nextField c) 4 := by
  have hfirst := (hi.store.threads l).head.symm.trans hc
  obtain ⟨t, ht, -⟩ := hi.settled.valid.listed (List.mem_of_head? hfirst)
  obtain ⟨hgrid, hend⟩ := hi.store.holds ht
  have hlen : (h.overwritten bytes).region.len = h.store.region.len := hsize
  simp only [Region.nextField, tagBytes, Region.Admits, Region.Spans, hlen]
  omega

end Heap

namespace World

variable {w : World}

/-- Whatever bytes a region comes to hold, a dump of the heap changes nothing and ends: with every
section, or in a failed check at the first list whose links lead astray. None does if every link
leads to a place at which a link can be read, in a circle or not. -/
theorem dump_surveys (hw : w.Reachable) (bytes : ByteArray) (hsize : bytes.size = w.heap.len) :
    let h := w.heap.overwritten bytes
    ((h.run (Heap.dump none)).after = h ∧ h.boundsReport = w.heap.boundsReport ∧
      h.marksReport = w.heap.marksReport) ∧
    h.Surveyed ∧ (∀ l, (h.trails l).length ≤ h.len / minChunk) ∧
    (h.region.Followable → ∀ l d, ¬h.Astray l d) := by
  intro h
  obtain ⟨A, hA⟩ := hw.tracks
  have hle := hA.intact.inUse_le
  refine ⟨⟨(Heap.quiet_dump none).after h, ?_, ?_⟩, ?_, fun l => ?_, fun hfollow l d => ?_⟩
  · exact Heap.boundsReport_overwritten hle hsize
  · exact Heap.marksReport_overwritten hsize
  · exact Heap.surveyed (Heap.inUse_le_overwritten hle hsize)
      ((Nat.le_of_eq hsize).trans hA.intact.bounded)
  · exact Region.length_trail_le ..
  · exact hfollow.not_astray fun c hc => hA.intact.admits_head hsize hc

def served : World := sample.step (.allocate 16 .kernel)

theorem reachable_served : served.Reachable := reachable_sample.step _

def linkedOn (next : UInt32) : ByteArray :=
  (served.heap.region.putNat (Region.nextField 32) 4 next.toNat).bytes

theorem linkedOn_trails :
    ((linkedOn 32).size = served.heap.len ∧
      (served.heap.overwritten (linkedOn 32)).trails .remainder = [32, 32, 32]) ∧
    (linkedOn 1).size = served.heap.len ∧
      (served.heap.overwritten (linkedOn 1)).trails .remainder = [32, 1] ∧
      (served.heap.overwritten (linkedOn 1)).store.members .recent = .ok [] ∧
      (served.heap.overwritten (linkedOn 1)).store.members .remainder =
        .error (.abort (.access 4 9 96)) ∧
      served.heap.counters.inUse ≤ served.heap.len := by
  decide +kernel

theorem circle_surveys :
    (served.Reachable ∧ (linkedOn 32).size = served.heap.len) ∧
      let h := served.heap.overwritten (linkedOn 32)
      ((h.run (Heap.dump none)).after = h ∧ h.boundsReport = served.heap.boundsReport ∧
        h.marksReport = served.heap.marksReport) ∧
      h.Surveyed ∧ (∀ l, (h.trails l).length ≤ h.len / minChunk) ∧
      (h.region.Followable → ∀ l d, ¬h.Astray l d) :=
  ⟨⟨reachable_served, linkedOn_trails.1.1⟩,
    dump_surveys reachable_served (linkedOn 32) linkedOn_trails.1.1⟩

/-- One overwritten link makes the dump reach for a word that is not aligned. -/
theorem dump_strays :
    ¬∀ (w : World) (bytes : ByteArray), w.Reachable → bytes.size = w.heap.len →
      ∃ text, ((w.heap.overwritten bytes).run (Heap.dump none)).result = .ok ⟨text, true⟩ := by
  intro hsurvives
  obtain ⟨-, hsize, -, hrecent, hremainder, hle⟩ := linkedOn_trails
  obtain ⟨text, htext⟩ := hsurvives served (linkedOn 1) reachable_served hsize
  have hle' := Heap.inUse_le_overwritten hle hsize
  have hall : ListId.all = [.recent] ++ .remainder :: (ListId.bins.flatMap fun b =>
      [.clean b, .dirty b]) := rfl
  have hbefore : ∀ l ∈ [ListId.recent],
      (served.heap.overwritten (linkedOn 1)).store.members l = .ok [] := by
    intro l hl
    rw [List.mem_singleton.1 hl, hrecent]
  have hreport := Heap.report_of_error (L := fun _ => []) hle' hall hbefore hremainder
  rw [(Heap.dump_of_fault hreport).run.1] at htext
  cases htext

end World

end BoundaryHeap
