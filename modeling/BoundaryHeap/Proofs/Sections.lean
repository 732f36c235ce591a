import BoundaryHeap.Proofs.Auditing
import BoundaryHeap.Proofs.Resilience

namespace BoundaryHeap

open Text (padRight)

namespace Report

variable {a : Report} {rs : List Report} {f : Fault}

theorem append_of_none (ha : a.fault = none) (b : Report) :
    a.append b = ⟨a.lines ++ b.lines, b.fault⟩ := by
  rw [append, ha]

theorem append_of_some (ha : a.fault = some f) (b : Report) : a.append b = a := by
  rw [append, ha]

theorem foldl_append_of_none (ha : a.fault = none) (hrs : ∀ r ∈ rs, r.fault = none) :
    rs.foldl append a = ⟨a.lines ++ rs.flatMap lines, none⟩ := by
  induction rs generalizing a with
  | nil =>
    obtain ⟨text, fault⟩ := a
    obtain rfl : fault = none := ha
    rw [List.flatMap_nil, List.append_nil, List.foldl_nil]
  | cons r rest ih =>
    have hr : (a.append r).fault = none := fault_append ha (hrs r (List.mem_cons_self ..))
    rw [List.foldl_cons, ih hr fun r' hr' => hrs r' (List.mem_cons_of_mem _ hr'),
      append_of_none ha, List.flatMap_cons, List.append_assoc]

theorem foldl_append_of_some (ha : a.fault = some f) (rs : List Report) :
    rs.foldl append a = a := by
  induction rs with
  | nil => rfl
  | cons r rest ih => rw [List.foldl_cons, append_of_some ha, ih]

end Report

def ListId.lines (l : ListId) : Nat → List String
  | 0 => []
  | count + 1 => ["  " ++ padRight 10 l.label ++ " " ++ toString (count + 1)]

def damageLines : Option Fault → List String
  | some (.error e) => ["  !! " ++ e.message]
  | _ => []

namespace Heap

variable {h : Heap} {L : Lists} {l : ListId} {f : Fault}

def chunkLines (h : Heap) : List String :=
  h.chunks.map (chunkLine h.base) ++ damageLines h.region.walk.2

def listLines (L : Lists) (lists : List ListId) : List String :=
  lists.flatMap fun l => l.lines (L l).length

theorem fault_boundsReport (hle : h.counters.inUse ≤ h.len) : h.boundsReport.fault = none := by
  obtain ⟨stats, hstats, -⟩ := snapshot_of_le hle
  rw [boundsReport, hstats]

theorem chunksReport_eq (h : Heap) : h.chunksReport = ⟨"chunks:" :: h.chunkLines, none⟩ := by
  rw [chunksReport, chunkLines, chunks]
  rcases hwalk : h.region.walk with ⟨listed, _ | f⟩
  · simp only [damageLines, List.append_nil]
  · obtain ⟨offset, damage, rfl⟩ : f.Reports := Region.reports_walk (by rw [hwalk])
    simp only [Fault.corrupt, damageLines, List.cons_append]

theorem listReport_of_members {chunks : List Nat} (hl : h.store.members l = .ok chunks) :
    h.listReport l = ⟨l.lines chunks.length, none⟩ := by
  rw [listReport, hl]
  cases chunks with
  | nil => rfl
  | cons c rest => rfl

theorem listReport_of_error (hl : h.store.members l = .error f) :
    h.listReport l = ⟨[], some f⟩ := by
  rw [listReport, hl]

theorem flatMap_listReport {lists : List ListId}
    (hL : ∀ l ∈ lists, h.store.members l = .ok (L l)) :
    (lists.map h.listReport).flatMap Report.lines = listLines L lists := by
  rw [listLines, List.flatMap_map]
  apply List.flatMap_congr
  intro l hl
  rw [listReport_of_members (hL l hl)]

theorem fault_listReport {lists : List ListId} (hL : ∀ l ∈ lists, h.store.members l = .ok (L l)) :
    ∀ r ∈ lists.map h.listReport, r.fault = none := by
  intro r hr
  obtain ⟨l, hl, rfl⟩ := List.mem_map.1 hr
  rw [listReport_of_members (hL l hl)]

theorem foldl_listReport {lists : List ListId} (hL : ∀ l ∈ lists, h.store.members l = .ok (L l)) :
    (lists.map h.listReport).foldl Report.append ⟨["lists:"], none⟩ =
      ⟨"lists:" :: listLines L lists, none⟩ := by
  rw [Report.foldl_append_of_none rfl (fault_listReport hL), flatMap_listReport hL,
    List.singleton_append]

theorem listsReport_of_members (hL : ∀ l, h.store.members l = .ok (L l)) :
    h.listsReport = ⟨"lists:" :: listLines L ListId.all, none⟩ :=
  foldl_listReport fun l _ => hL l

/-- The walk along a list ends the report; the lists in front of it are there. -/
theorem listsReport_of_error {before behind : List ListId}
    (hall : ListId.all = before ++ l :: behind)
    (hL : ∀ l ∈ before, h.store.members l = .ok (L l)) (hl : h.store.members l = .error f) :
    h.listsReport = ⟨"lists:" :: listLines L before, some f⟩ := by
  rw [listsReport, hall, List.map_append, List.map_cons, List.foldl_append, foldl_listReport hL,
    List.foldl_cons, Report.append_of_none rfl, listReport_of_error hl, List.append_nil,
    Report.foldl_append_of_some rfl]

def headLines (h : Heap) : List String :=
  h.boundsReport.lines ++ "chunks:" :: h.chunkLines

theorem report_of_members (hle : h.counters.inUse ≤ h.len) (hlen : h.len ≤ maxRegion)
    (hL : ∀ l, h.store.members l = .ok (L l)) :
    h.report =
      ⟨h.headLines ++ "lists:" :: listLines L ListId.all ++ h.marksReport.lines, none⟩ := by
  rw [report, Report.append_of_none (fault_boundsReport hle), chunksReport_eq,
    Report.append_of_none rfl, listsReport_of_members hL, Report.append_of_none rfl, headLines,
    marksReport_eq hlen]
  simp only [List.append_assoc, List.cons_append]

/-- A walk along a list that ends in a fault ends the report there. -/
theorem report_of_error {before behind : List ListId} (hle : h.counters.inUse ≤ h.len)
    (hall : ListId.all = before ++ l :: behind)
    (hL : ∀ l ∈ before, h.store.members l = .ok (L l)) (hl : h.store.members l = .error f) :
    h.report = ⟨h.headLines ++ "lists:" :: listLines L before, some f⟩ := by
  have hlists := listsReport_of_error hall hL hl
  rw [report, Report.append_of_none (fault_boundsReport hle), chunksReport_eq,
    Report.append_of_none rfl, hlists, Report.append_of_some rfl, headLines]
  simp only [List.append_assoc, List.cons_append]

theorem noteDamage_does (h : Heap) : Does noteDamage h () h := by
  have hwalk : Does (observe fun h => .ok h.region.walk.2) h h.region.walk.2 h := .get _ h
  apply hwalk.bind
  rcases hdamage : h.region.walk.2 with _ | f
  · exact .pure () h
  · obtain ⟨offset, damage, rfl⟩ : f.Reports := Region.reports_walk hdamage
    exact .note _ h

theorem dump_of_report {lines : List String} (hreport : h.report = ⟨lines, none⟩) :
    Does (dump none) h ⟨String.join (lines.map (· ++ "\n")), true⟩ h := by
  apply h.noteDamage_does.bind
  apply Does.observe
  rw [hreport]
  rfl

theorem dump_of_fault {lines : List String} (hreport : h.report = ⟨lines, some f⟩) :
    Fails (dump none) h f h := by
  apply h.noteDamage_does.bind_fails
  apply Fails.observe
  rw [hreport]
  rfl

end Heap

end BoundaryHeap
