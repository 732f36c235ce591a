import BoundaryHeap.Heap.Walk

namespace BoundaryHeap

open Text (hex padLeft padRight)

def ListId.label (l : ListId) : String :=
  if l = recent then "recent"
  else if l = remainder then "remainder"
  else
    let bin := l.bin.val
    match l.kind with
    | .clean => s!"bin {bin}c"
    | .dirty => s!"bin {bin}d"

/-- The lines of a report, and the fault that ended it. -/
structure Report where
  lines : List String
  fault : Option Fault
  deriving DecidableEq, Repr

/-- What reached a sink: the text, and whether it is all there. -/
structure Written where
  text : String
  complete : Bool
  deriving DecidableEq, Repr

namespace Report

def text (r : Report) : String :=
  String.join (r.lines.map (· ++ "\n"))

/-- One report behind the other, unless the first ended in a fault. -/
def append (a : Report) (b : Report) : Report :=
  match a.fault with
  | some _ => a
  | none => ⟨a.lines ++ b.lines, b.fault⟩

/-- Writes a report to a sink. A sink with a limit takes so many bytes and refuses the next one;
the report ends there. -/
def write (r : Report) : Option Nat → Except Fault Written
  | none =>
    match r.fault with
    | some f => .error f
    | none => .ok ⟨r.text, true⟩
  | some limit =>
    if limit < r.text.length then
      .ok ⟨String.ofList (r.text.toList.take limit), false⟩
    else
      match r.fault with
      | some f => .error f
      | none => .ok ⟨r.text, true⟩

end Report

namespace Heap

def markChar (marked : Bool) : Char := if marked then '#' else '.'

@[simp] abbrev wordsPerRow : Nat := 4

def holder (owner : Owner) : String :=
  if owner = .kernel then " kernel"
  else
    let id := owner.id.toNat
    s!" task {id}"

def chunkLine (base : Nat) (chunk : Nat × Tag) : String :=
  let (c, t) := chunk
  let state := if t.free then "free" else "used" ++ holder t.owner
  "  " ++ hex (base + c) ++ " " ++ padLeft 8 (toString t.size) ++ " " ++ state

def boundsReport (h : Heap) : Report :=
  match h.snapshot with
  | .error f => ⟨[], some f⟩
  | .ok s =>
    let start := hex h.base
    let stop := hex h.region.stop
    ⟨[s!"kheap: {start} - {stop} ({s.regionBytes} bytes)",
      s!"  in use {s.inUse} / free {s.freeBytes} / peak {s.highWater}" ++
        s!"  allocs {s.allocations} frees {s.frees} failed {s.failed}"], none⟩

/-- Every chunk, and the damage that ends the walk. -/
def chunksReport (h : Heap) : Report :=
  let (chunks, damage) := h.region.walk
  let listed := "chunks:" :: chunks.map (chunkLine h.base)
  match damage with
  | none => ⟨listed, none⟩
  | some (.error e) => ⟨listed ++ ["  !! " ++ e.message], none⟩
  | some f => ⟨listed, some f⟩

/-- The line of one list. An empty list has none. -/
def listReport (h : Heap) (list : ListId) : Report :=
  match h.store.members list with
  | .error f => ⟨[], some f⟩
  | .ok [] => ⟨[], none⟩
  | .ok chunks => ⟨["  " ++ padRight 10 list.label ++ " " ++ toString chunks.length], none⟩

def listsReport (h : Heap) : Report :=
  (ListId.all.map h.listReport).foldl Report.append ⟨["lists:"], none⟩

/-- The characters of one word of marks, lowest granule first. -/
def wordChars (w : BitVec 64) : List Char :=
  (List.range 64).map fun i => markChar (w.getLsbD i)

/-- The rows of marks from the row that starts at address `addr` on. -/
def markRows : Nat → Nat → List (BitVec 64) → List String
  | 0, _, _ => []
  | _, _, [] => []
  | rows + 1, addr, words =>
    ("  " ++ hex addr ++ " " ++ String.ofList ((words.take wordsPerRow).flatMap wordChars)) ::
      markRows rows (addr + wordsPerRow * 64 * granule) (words.drop wordsPerRow)

def marksReport (h : Heap) : Report :=
  let count := h.len / granule
  match h.live.wordsFor? count with
  | none => ⟨["bitmap:"], some (LiveMap.wordsFault ((count + 63) / 64))⟩
  | some words => ⟨"bitmap:" :: markRows words.length h.base words, none⟩

def report (h : Heap) : Report :=
  h.boundsReport.append <| h.chunksReport.append <| h.listsReport.append h.marksReport

def dump (limit : Option Nat) : HeapM Written := do
  noteDamage
  observe fun h => h.report.write limit

end Heap

end BoundaryHeap
