import BoundaryHeap.Proofs.Reading
import BoundaryHeap.Proofs.Sections

namespace BoundaryHeap

open Text (Piece Row hex numeral? hexNumeral? words linesOf linesUnder padRight)

/-- The line of a chunk: where it begins, its size, and who holds it if it is used. -/
structure ChunkRow where
  addr : Nat
  size : Nat
  holder : Option Owner
  deriving DecidableEq, Repr

/-- A row of marks: where its first granule begins, and which of its granules are marked. -/
structure MarkRow where
  addr : Nat
  marks : List Bool
  deriving DecidableEq, Repr

structure Picture where
  chunks : List ChunkRow
  lists : List (ListId × Nat)
  marks : List MarkRow
  deriving DecidableEq, Repr

def readHolder : List (List Char) → Option (Option Owner)
  | [state] => if state = "free".toList then some none else none
  | [state, who] =>
    if state = "used".toList ∧ who = "kernel".toList then some (some .kernel) else none
  | [state, who, id] =>
    if state = "used".toList ∧ who = "task".toList then
      ((numeral? 10 id).filter (· < UInt16.size)).map fun n => some ⟨.ofNat n⟩
    else none
  | _ => none

def ChunkRow.read (line : List Char) : Option ChunkRow :=
  match words line with
  | addr :: size :: state => do
    return ⟨← hexNumeral? addr, ← numeral? 10 size, ← readHolder state⟩
  | _ => none

def readKind : Option Char → Option Kind
  | some 'c' => some .clean
  | some 'd' => some .dirty
  | _ => none

def readBin (word : List Char) : Option ListId := do
  let bin ← numeral? 10 word.dropLast
  let kind ← readKind word.getLast?
  if h : bin < binCount then some ⟨⟨bin, h⟩, kind⟩ else none

def readLabel : List (List Char) → Option ListId
  | [name] =>
    if name = "recent".toList then some .recent
    else if name = "remainder".toList then some .remainder
    else none
  | [name, bin] => if name = "bin".toList then readBin bin else none
  | _ => none

def readListRow (line : List Char) : Option (ListId × Nat) := do
  let count ← (words line).getLast?
  return (← readLabel (words line).dropLast, ← numeral? 10 count)

def readMark : Char → Option Bool
  | '#' => some true
  | '.' => some false
  | _ => none

def MarkRow.read (line : List Char) : Option MarkRow :=
  match words line with
  | [addr, marks] => do return ⟨← hexNumeral? addr, ← marks.mapM readMark⟩
  | _ => none

/-- The picture in a text, if every row of its sections can be read. -/
def Picture.read (text : String) : Option Picture := do
  let lines := linesOf text.toList
  return {
    chunks := ← (linesUnder "chunks:".toList lines).mapM ChunkRow.read
    lists := ← (linesUnder "lists:".toList lines).mapM readListRow
    marks := ← (linesUnder "bitmap:".toList lines).mapM MarkRow.read }

def ChunkRow.of (base : Nat) (x : Chunk) : ChunkRow :=
  ⟨base + x.1, x.2.size, if x.2.free then none else some x.2.owner⟩

def stateWords (t : Tag) : List (List Char) :=
  if t.free then ["free".toList]
  else if t.owner = .kernel then ["used".toList, "kernel".toList]
  else ["used".toList, "task".toList, Nat.toDigits 10 t.owner.id.toNat]

theorem readHolder_stateWords (t : Tag) :
    readHolder (stateWords t) = some (if t.free then none else some t.owner) := by
  rw [stateWords]
  split
  next => rw [readHolder, if_pos rfl]
  next =>
    split
    next hkernel => rw [readHolder, if_pos ⟨rfl, rfl⟩, hkernel]
    next =>
      have hid : t.owner.id.toNat < UInt16.size := t.owner.id.toNat_lt
      have howner : (⟨.ofNat t.owner.id.toNat⟩ : Owner) = t.owner := by rw [UInt16.ofNat_toNat]
      rw [readHolder, if_pos ⟨rfl, rfl⟩, Text.numeral?_decimal,
        Option.filter_some, if_pos (decide_eq_true hid), Option.map_some, howner]

namespace Heap

theorem piece_state (t : Tag) :
    Piece (if t.free then "free" else "used" ++ holder t.owner) (stateWords t) := by
  rw [stateWords]
  split
  next => exact ⟨by decide, by decide⟩
  next =>
    rw [holder]
    split
    next => exact ⟨by decide, by decide⟩
    next =>
      have hstate : ∀ id : Nat, "used" ++ s!" task {id}" = "used task" ++ " " ++ toString id := by
        intro id
        rw [← String.append_assoc]
        rfl
      have htask : Piece "used task" ["used".toList, "task".toList] := ⟨by decide, by decide⟩
      rw [hstate]
      exact htask.append (Text.piece_toString _)

theorem row_chunkLine (base : Nat) (x : Chunk) :
    Row (chunkLine base x)
      ((hex (base + x.1)).toList :: Nat.toDigits 10 x.2.size :: stateWords x.2) :=
  ((Text.piece_hex _).row.append ((Text.piece_toString _).padLeft 8)).append (piece_state x.2)

theorem read_chunkLine (base : Nat) (x : Chunk) :
    ChunkRow.read (chunkLine base x).toList = some (.of base x) := by
  rw [ChunkRow.read, (row_chunkLine base x).words]
  simp only [Text.hexNumeral?_hex, Text.numeral?_decimal, readHolder_stateWords]
  rfl

example : ChunkRow.read "  0x1020       32 used task 9".toList = some ⟨0x1020, 32, some ⟨9⟩⟩ := by
  decide

theorem read_chunkLines (base : Nat) (xs : List Chunk) :
    ((xs.map (chunkLine base)).map String.toList).mapM ChunkRow.read =
      some (xs.map (.of base)) := by
  rw [List.map_map]
  exact Text.mapM_map_of_read fun x _ => read_chunkLine base x

end Heap

namespace ListId

def letter : Kind → Char
  | .clean => 'c'
  | .dirty => 'd'

def labelWords (l : ListId) : List (List Char) :=
  if l = recent then ["recent".toList]
  else if l = remainder then ["remainder".toList]
  else ["bin".toList, Nat.toDigits 10 l.bin.val ++ [letter l.kind]]

theorem readKind_letter (k : Kind) : readKind (some (letter k)) = some k := by
  cases k <;> rfl

theorem readBin_digits (l : ListId) :
    readBin (Nat.toDigits 10 l.bin.val ++ [letter l.kind]) = some l := by
  simp only [readBin, List.dropLast_concat, List.getLast?_concat, Text.numeral?_decimal,
    readKind_letter]
  exact dif_pos l.bin.isLt

theorem readLabel_labelWords (l : ListId) : readLabel l.labelWords = some l := by
  rw [labelWords]
  split
  next hrecent => rw [readLabel, if_pos rfl, hrecent]
  next =>
    split
    next hremainder =>
      have hne : "remainder".toList ≠ "recent".toList := by decide
      rw [readLabel, if_neg hne, if_pos rfl, hremainder]
    next => rw [readLabel, if_pos rfl, readBin_digits]

theorem label_of_ne {l : ListId} (hrecent : l ≠ recent) (hremainder : l ≠ remainder) :
    l.label = "bin" ++ " " ++ (toString l.bin.val ++ String.ofList [letter l.kind]) := by
  rw [label, if_neg hrecent, if_neg hremainder]
  cases l.kind <;> (rw [← String.append_assoc]; rfl)

theorem piece_bin (l : ListId) :
    Piece (toString l.bin.val ++ String.ofList [letter l.kind])
      [Nat.toDigits 10 l.bin.val ++ [letter l.kind]] := by
  have hletter : Text.Solid [letter l.kind] := by
    cases l.kind <;> exact ⟨by decide, by decide, by decide⟩
  have hdigits : Text.Solid (Nat.toDigits 10 l.bin.val) := Text.solid_toDigits (by decide) _
  apply (hdigits.append hletter).piece
  rw [String.toList_append, String.toList_ofList]
  exact congrArg (· ++ [letter l.kind]) Nat.toList_repr

theorem piece_label (l : ListId) : Piece l.label l.labelWords := by
  by_cases hrecent : l = recent
  · subst hrecent
    exact ⟨by decide, by decide⟩
  by_cases hremainder : l = remainder
  · subst hremainder
    exact ⟨by decide, by decide⟩
  have hbin : Piece "bin" ["bin".toList] := ⟨by decide, by decide⟩
  rw [label_of_ne hrecent hremainder, labelWords, if_neg hrecent, if_neg hremainder]
  exact hbin.append l.piece_bin

theorem row_lines (l : ListId) (count : Nat) :
    Row ("  " ++ padRight 10 l.label ++ " " ++ toString (count + 1))
      (l.labelWords ++ [Nat.toDigits 10 (count + 1)]) :=
  (l.piece_label.padRight 10).row.append (Text.piece_toString _)

def rows (l : ListId) : Nat → List (ListId × Nat)
  | 0 => []
  | count + 1 => [(l, count + 1)]

theorem read_row (l : ListId) (count : Nat) :
    readListRow ("  " ++ padRight 10 l.label ++ " " ++ toString (count + 1)).toList =
      some (l, count + 1) := by
  rw [readListRow, (l.row_lines count).words, List.getLast?_concat, List.dropLast_concat]
  simp only [readLabel_labelWords, Option.bind_eq_bind, Option.bind_some, Text.numeral?_decimal]
  rfl

theorem read_lines (l : ListId) (count : Nat) :
    (l.lines count).mapM (fun line => readListRow line.toList) = some (l.rows count) := by
  cases count with
  | zero => rfl
  | succ count =>
    rw [lines, rows, List.mapM_cons, l.read_row]
    rfl

theorem read_listLines (L : Lists) (lists : List ListId) :
    ((Heap.listLines L lists).map String.toList).mapM readListRow =
      some (lists.flatMap fun l => l.rows (L l).length) := by
  rw [List.mapM_map, Heap.listLines]
  exact Text.mapM_flatMap_of_read fun l _ => l.read_lines _

theorem row_of_mem_lines {l : ListId} {count : Nat} {line : String} (hline : line ∈ l.lines count) :
    ∃ entries, Row line entries := by
  cases count with
  | zero => cases hline
  | succ count =>
    obtain rfl := List.mem_singleton.1 hline
    exact ⟨_, l.row_lines count⟩

end ListId

def MarkRow.granules (row : MarkRow) : List (Nat × Bool) :=
  row.marks.zipIdx.map fun m => (row.addr + granule * m.2, m.1)

def wordMarks (w : BitVec 64) : List Bool :=
  (List.range 64).map w.getLsbD

def markRowsOf : Nat → Nat → List (BitVec 64) → List MarkRow
  | 0, _, _ => []
  | _, _, [] => []
  | rows + 1, addr, words =>
    ⟨addr, (words.take Heap.wordsPerRow).flatMap wordMarks⟩ ::
      markRowsOf rows (addr + Heap.wordsPerRow * 64 * granule) (words.drop Heap.wordsPerRow)

theorem readMark_markChar (marked : Bool) : readMark (Heap.markChar marked) = some marked := by
  cases marked <;> rfl

theorem wordChars_eq (w : BitVec 64) : Heap.wordChars w = (wordMarks w).map Heap.markChar := by
  rw [Heap.wordChars, wordMarks, List.map_map]
  rfl

theorem flatMap_wordChars (ws : List (BitVec 64)) :
    ws.flatMap Heap.wordChars = (ws.flatMap wordMarks).map Heap.markChar := by
  rw [List.map_flatMap]
  exact List.flatMap_congr fun w _ => wordChars_eq w

theorem solid_marks {marks : List Bool} (h : marks ≠ []) :
    Text.Solid (marks.map Heap.markChar) := by
  have hmark : ∀ m, Heap.markChar m ≠ ' ' ∧ Heap.markChar m ≠ '\n' := by decide
  refine ⟨fun hnil => h (List.map_eq_nil_iff.1 hnil), fun hc => ?_, fun hc => ?_⟩
  · obtain ⟨m, -, hm⟩ := List.mem_map.1 hc
    exact (hmark m).1 hm
  · obtain ⟨m, -, hm⟩ := List.mem_map.1 hc
    exact (hmark m).2 hm

def MarkRow.line (row : MarkRow) : String :=
  "  " ++ hex row.addr ++ " " ++ String.ofList (row.marks.map Heap.markChar)

theorem row_markLine {row : MarkRow} (h : row.marks ≠ []) :
    Row row.line [(hex row.addr).toList, row.marks.map Heap.markChar] :=
  (Text.piece_hex _).row.append ((solid_marks h).piece (String.toList_ofList ..))

theorem read_markLine {row : MarkRow} (h : row.marks ≠ []) :
    MarkRow.read row.line.toList = some row := by
  have hmarks : (row.marks.map Heap.markChar).mapM readMark = some (row.marks.map id) :=
    Text.mapM_map_of_read fun m _ => readMark_markChar m
  rw [List.map_id] at hmarks
  rw [MarkRow.read, (row_markLine h).words]
  simp only [Text.hexNumeral?_hex, hmarks]
  rfl

theorem markRowsOf_cons (rows addr : Nat) (w : BitVec 64) (rest : List (BitVec 64)) :
    markRowsOf (rows + 1) addr (w :: rest) =
      ⟨addr, ((w :: rest).take Heap.wordsPerRow).flatMap wordMarks⟩ ::
        markRowsOf rows (addr + Heap.wordsPerRow * 64 * granule)
          ((w :: rest).drop Heap.wordsPerRow) :=
  rfl

theorem markRows_eq (rows addr : Nat) (ws : List (BitVec 64)) :
    Heap.markRows rows addr ws = (markRowsOf rows addr ws).map MarkRow.line := by
  induction rows generalizing addr ws with
  | zero => rfl
  | succ rows ih =>
    cases ws with
    | nil => rfl
    | cons w rest =>
      rw [markRowsOf_cons, List.map_cons, ← ih, MarkRow.line, ← flatMap_wordChars]
      rfl

theorem ne_nil_of_mem_markRowsOf {rows addr : Nat} {ws : List (BitVec 64)} {row : MarkRow}
    (hrow : row ∈ markRowsOf rows addr ws) : row.marks ≠ [] := by
  induction rows generalizing addr ws with
  | zero => cases hrow
  | succ rows ih =>
    cases ws with
    | nil => cases hrow
    | cons w rest =>
      rw [markRowsOf_cons] at hrow
      rcases List.mem_cons.1 hrow with rfl | hrow
      · simp [wordMarks]
      · exact ih hrow

theorem read_markRows (rows addr : Nat) (ws : List (BitVec 64)) :
    ((Heap.markRows rows addr ws).map String.toList).mapM MarkRow.read =
      some (markRowsOf rows addr ws) := by
  have hread : ∀ row ∈ markRowsOf rows addr ws,
      (MarkRow.read ∘ String.toList) row.line = some (id row) :=
    fun row hrow => read_markLine (ne_nil_of_mem_markRowsOf hrow)
  rw [markRows_eq, List.mapM_map, Text.mapM_map_of_read hread, List.map_id]

theorem length_flatMap_wordMarks (ws : List (BitVec 64)) :
    (ws.flatMap wordMarks).length = 64 * ws.length := by
  induction ws with
  | nil => rfl
  | cons w rest ih =>
    rw [List.flatMap_cons, List.length_append, ih, wordMarks, List.length_map, List.length_range,
      List.length_cons]
    omega

theorem granules_nil (addr : Nat) : MarkRow.granules ⟨addr, []⟩ = [] :=
  rfl

theorem granules_append (addr : Nat) (front back : List Bool) :
    MarkRow.granules ⟨addr, front ++ back⟩ =
      MarkRow.granules ⟨addr, front⟩ ++
        MarkRow.granules ⟨addr + granule * front.length, back⟩ := by
  simp only [MarkRow.granules, List.zipIdx_append, List.map_append, Nat.zero_add]
  congr 1
  rw [List.zipIdx_eq_map_add, List.map_map]
  apply List.map_congr_left
  rintro ⟨m, i⟩ -
  show (addr + granule * (front.length + i), m) = (addr + granule * front.length + granule * i, m)
  rw [Nat.mul_add, Nat.add_assoc]

/-- Row by row, every granule is there once with its mark. -/
theorem granules_markRowsOf {rows addr : Nat} {ws : List (BitVec 64)} (hrows : ws.length ≤ rows) :
    (markRowsOf rows addr ws).flatMap MarkRow.granules =
      MarkRow.granules ⟨addr, ws.flatMap wordMarks⟩ := by
  induction rows generalizing addr ws with
  | zero =>
    obtain rfl := List.eq_nil_of_length_eq_zero (Nat.le_zero.1 hrows)
    rfl
  | succ rows ih =>
    cases ws with
    | nil => rfl
    | cons w rest =>
      have hrest : ((w :: rest).drop Heap.wordsPerRow).length ≤ rows := by
        simp only [List.length_drop, Heap.wordsPerRow, List.length_cons] at hrows ⊢
        omega
      have hcut : (w :: rest).flatMap wordMarks =
          ((w :: rest).take Heap.wordsPerRow).flatMap wordMarks ++
            ((w :: rest).drop Heap.wordsPerRow).flatMap wordMarks := by
        rw [← List.flatMap_append, List.take_append_drop]
      have hbehind : addr + Heap.wordsPerRow * 64 * granule =
            addr + granule * (64 * ((w :: rest).take Heap.wordsPerRow).length) ∨
          (w :: rest).drop Heap.wordsPerRow = [] := by
        rcases Nat.lt_or_ge (w :: rest).length Heap.wordsPerRow with hshort | hfull
        · exact .inr (List.drop_eq_nil_of_le (Nat.le_of_lt hshort))
        · rw [List.length_take_of_le hfull]
          exact .inl rfl
      rw [markRowsOf_cons, List.flatMap_cons, ih hrest, hcut, granules_append,
        length_flatMap_wordMarks]
      rcases hbehind with haddr | hnil
      · rw [haddr]
      · -- Behind the last row there is nothing.
        rw [hnil, List.flatMap_nil, granules_nil, granules_nil]

theorem flatMap_wordsFor (m : LiveMap) (count : Nat) :
    (m.wordsFor count).flatMap wordMarks =
      (List.range (64 * ((count + 63) / 64))).map m.isMarked := by
  rw [LiveMap.wordsFor]
  induction (count + 63) / 64 with
  | zero => rfl
  | succ q ih =>
    rw [List.range_succ, List.map_append, List.flatMap_append, ih, Nat.mul_succ, List.range_add,
      List.map_append, List.map_map]
    congr 1
    rw [List.map_singleton, List.flatMap_singleton, wordMarks]
    apply List.map_congr_left
    intro j hj
    exact (m.isMarked_add q (List.mem_range.1 hj)).symm

end BoundaryHeap
