import BoundaryHeap.Proofs.Picture

namespace BoundaryHeap

open Text (Row linesUnder)

namespace Picture

/-- The line is no title of a section, and no line feed is in it. -/
structure Opening (line : String) : Prop where
  head : line.toList.head? = some 'k' ∨ line.toList.head? = some ' '
  no_feed : '\n' ∉ line.toList

def Rows (lines : List String) : Prop :=
  ∀ line ∈ lines, ∃ entries, Row line entries

variable {opening chunks lists marks : List String}

theorem Rows.indented (h : Rows chunks) :
    ∀ row ∈ chunks.map String.toList, Text.indented row = true := by
  intro row hrow
  obtain ⟨line, hline, rfl⟩ := List.mem_map.1 hrow
  obtain ⟨entries, hentries⟩ := h line hline
  exact hentries.indented

theorem Rows.no_feed (h : Rows chunks) : ∀ line ∈ chunks, '\n' ∉ line.toList := by
  intro line hline
  obtain ⟨entries, hentries⟩ := h line hline
  exact hentries.no_feed

theorem Rows.not_mem {title : List Char} (h : Rows chunks) (htitle : Text.indented title = false) :
    title ∉ chunks.map String.toList :=
  Text.not_mem_of_indented h.indented htitle

theorem not_mem_opening {title : List Char} (h : ∀ line ∈ opening, Opening line)
    (htitle : title.head? ≠ some 'k' ∧ title.head? ≠ some ' ') :
    title ∉ opening.map String.toList := by
  intro hmem
  obtain ⟨line, hline, rfl⟩ := List.mem_map.1 hmem
  rcases (h line hline).head with hhead | hhead
  · exact htitle.1 hhead
  · exact htitle.2 hhead

def sections (opening chunks lists marks : List String) : List String :=
  opening ++ "chunks:" :: (chunks ++ "lists:" :: (lists ++ "bitmap:" :: marks))

theorem no_feed_sections (hopening : ∀ line ∈ opening, Opening line) (hchunks : Rows chunks)
    (hlists : Rows lists) (hmarks : Rows marks) :
    ∀ line ∈ sections opening chunks lists marks, '\n' ∉ line.toList := by
  intro line hline
  simp only [sections, List.mem_append, List.mem_cons] at hline
  rcases hline with hline | rfl | hline | rfl | hline | rfl | hline
  · exact (hopening line hline).no_feed
  · decide
  · exact hchunks.no_feed line hline
  · decide
  · exact hlists.no_feed line hline
  · decide
  · exact hmarks.no_feed line hline

theorem under_chunks (hopening : ∀ line ∈ opening, Opening line) (hchunks : Rows chunks) :
    linesUnder "chunks:".toList ((sections opening chunks lists marks).map String.toList) =
      chunks.map String.toList := by
  simp only [sections, List.map_append, List.map_cons]
  rw [Text.linesUnder_append (not_mem_opening hopening (by decide)),
    Text.linesUnder_title hchunks.indented]
  intro line hline
  obtain rfl := Option.some.inj hline
  decide

theorem under_lists (hopening : ∀ line ∈ opening, Opening line) (hchunks : Rows chunks)
    (hlists : Rows lists) :
    linesUnder "lists:".toList ((sections opening chunks lists marks).map String.toList) =
      lists.map String.toList := by
  simp only [sections, List.map_append, List.map_cons]
  rw [Text.linesUnder_append (not_mem_opening hopening (by decide)),
    Text.linesUnder_cons_of_ne (by decide), Text.linesUnder_append (hchunks.not_mem (by decide)),
    Text.linesUnder_title hlists.indented]
  intro line hline
  obtain rfl := Option.some.inj hline
  decide

theorem under_marks (hopening : ∀ line ∈ opening, Opening line) (hchunks : Rows chunks)
    (hlists : Rows lists) (hmarks : Rows marks) :
    linesUnder "bitmap:".toList ((sections opening chunks lists marks).map String.toList) =
      marks.map String.toList := by
  simp only [sections, List.map_append, List.map_cons]
  rw [← List.append_nil (marks.map String.toList),
    Text.linesUnder_append (not_mem_opening hopening (by decide)),
    Text.linesUnder_cons_of_ne (by decide), Text.linesUnder_append (hchunks.not_mem (by decide)),
    Text.linesUnder_cons_of_ne (by decide), Text.linesUnder_append (hlists.not_mem (by decide)),
    Text.linesUnder_title hmarks.indented, List.append_nil]
  intro line hline
  cases hline

theorem read_sections (hopening : ∀ line ∈ opening, Opening line) (hchunks : Rows chunks)
    (hlists : Rows lists) (hmarks : Rows marks) :
    read (String.join ((sections opening chunks lists marks).map (· ++ "\n"))) = do
      return {
        chunks := ← (chunks.map String.toList).mapM ChunkRow.read
        lists := ← (lists.map String.toList).mapM readListRow
        marks := ← (marks.map String.toList).mapM MarkRow.read } := by
  have hlines := Text.linesOf_join (no_feed_sections hopening hchunks hlists hmarks)
  simp only [read, hlines, under_chunks hopening hchunks, under_lists hopening hchunks hlists,
    under_marks hopening hchunks hlists hmarks]

end Picture

namespace Heap

variable {h : Heap} {A : Shape} {L : Lists}

open Picture (Opening Rows)

theorem opening_boundsReport (h : Heap) : ∀ line ∈ h.boundsReport.lines, Opening line := by
  have hdigits : ∀ n, '\n' ∉ Nat.toDigits 10 n ∧ '\n' ∉ Nat.toDigits 16 n := fun n =>
    ⟨(Text.solid_toDigits (by decide) n).no_feed, (Text.solid_toDigits (by decide) n).no_feed⟩
  intro line hline
  rw [boundsReport] at hline
  split at hline
  next => cases hline
  next s _ =>
    rcases List.mem_cons.1 hline with rfl | hline
    · exact ⟨.inl (by simp [toString]), by simp [toString, hdigits]⟩
    · obtain rfl := List.mem_singleton.1 hline
      exact ⟨.inr (by simp [toString]), by simp [toString, hdigits]⟩

theorem rows_chunks (base : Nat) (xs : List Chunk) : Rows (xs.map (chunkLine base)) := by
  intro line hline
  obtain ⟨x, -, rfl⟩ := List.mem_map.1 hline
  exact ⟨_, row_chunkLine base x⟩

theorem rows_lists (L : Lists) (lists : List ListId) : Rows (listLines L lists) := by
  intro line hline
  obtain ⟨l, -, hline⟩ := List.mem_flatMap.1 hline
  exact ListId.row_of_mem_lines hline

theorem rows_marks (rows addr : Nat) (ws : List (BitVec 64)) : Rows (markRows rows addr ws) := by
  intro line hline
  rw [markRows_eq] at hline
  obtain ⟨row, hrow, rfl⟩ := List.mem_map.1 hline
  exact ⟨_, row_markLine (ne_nil_of_mem_markRowsOf hrow)⟩

/-- The words of marks that a report shows. -/
def markWordsShown (h : Heap) : List (BitVec 64) :=
  h.live.wordsFor (h.len / granule)

def picture (h : Heap) (L : Lists) : Picture where
  chunks := h.chunks.map (.of h.base)
  lists := ListId.all.flatMap fun l => l.rows (L l).length
  marks := markRowsOf h.markWordsShown.length h.base h.markWordsShown

theorem report_sections (hlen : h.len ≤ maxRegion) (hwhole : h.region.walk.2 = none)
    (L : Lists) :
    h.headLines ++ "lists:" :: listLines L ListId.all ++ h.marksReport.lines =
      Picture.sections h.boundsReport.lines (h.chunks.map (chunkLine h.base))
        (listLines L ListId.all) (markRows h.markWordsShown.length h.base h.markWordsShown) := by
  have hundamaged : damageLines h.region.walk.2 = [] := by
    rw [hwhole]
    rfl
  rw [headLines, chunkLines, hundamaged, List.append_nil, marksReport_eq hlen]
  simp only [Picture.sections, markWordsShown, List.append_assoc, List.cons_append]

theorem read_picture (hlen : h.len ≤ maxRegion) (hwhole : h.region.walk.2 = none) (L : Lists) :
    Picture.read (String.join ((h.headLines ++ "lists:" :: listLines L ListId.all ++
      h.marksReport.lines).map (· ++ "\n"))) = some (h.picture L) := by
  rw [report_sections hlen hwhole, Picture.read_sections h.opening_boundsReport (rows_chunks _ _)
    (rows_lists L _) (rows_marks _ _ _), read_chunkLines, ListId.read_listLines, read_markRows]
  rfl

end Heap

/-- The rows follow one another from `lo` to `hi`. -/
def ChunkRow.Abut : Nat → List ChunkRow → Nat → Prop
  | lo, [], hi => lo = hi
  | lo, row :: rest, hi => row.addr = lo ∧ Abut (lo + row.size) rest hi

def Picture.granules (p : Picture) : List (Nat × Bool) :=
  p.marks.flatMap MarkRow.granules

/-- The picture is true of a heap and of what its callers hold. -/
structure Picture.TrueOf (p : Picture) (w : World) : Prop where
  /-- A row for each chunk of the walk. -/
  walk : p.chunks = w.heap.chunks.map (.of w.heap.base)
  ascending : p.chunks.Pairwise fun row next => row.addr < next.addr
  abut : ChunkRow.Abut w.heap.base p.chunks w.heap.region.stop
  /-- Used are the chunks that are held, by the owners that they were handed to. -/
  held : ∀ g, g ∈ w.held ↔
    ∃ row ∈ p.chunks, row.holder = some g.owner ∧ g.addr = row.addr + tagBytes
  /-- The granules of the region, up to the end of the last word. -/
  granules : p.granules.map Prod.fst =
    (List.range (64 * ((w.heap.len / granule + 63) / 64))).map (w.heap.base + granule * ·)
  marked : ∀ addr m, (addr, m) ∈ p.granules →
    (m = true ↔ ∃ g ∈ w.held, g.addr = addr + tagBytes)
  marks : p.granules.countP Prod.snd = p.chunks.countP (·.holder.isSome)
  /-- The lists that are not empty, with the number of chunks on them. -/
  lists : ∃ L : Lists, (∀ l, w.heap.store.Threads (.head l) (L l)) ∧
    ∀ l count, (l, count) ∈ p.lists ↔ L l ≠ [] ∧ count = (L l).length
  once : (p.lists.map Prod.fst).Nodup
  total : (p.lists.map Prod.snd).sum = p.chunks.countP (·.holder.isNone)

namespace Heap

variable {h : Heap} {A : Shape} {base : Nat} {L : Lists}

theorem abut_of_tiles {lo hi : Nat} {xs : List Chunk} (base : Nat) (hxs : Tiles lo xs hi) :
    ChunkRow.Abut (base + lo) (xs.map (.of base)) (base + hi) := by
  induction xs generalizing lo with
  | nil => exact congrArg (base + ·) hxs
  | cons x rest ih =>
    obtain ⟨c, t⟩ := x
    obtain ⟨rfl, -, hrest⟩ := hxs
    refine ⟨rfl, ?_⟩
    have habut := ih hrest
    rwa [← Nat.add_assoc] at habut

theorem ascending_of_tiles {lo hi : Nat} {xs : List Chunk} (hxs : Tiles lo xs hi) :
    (xs.map (.of base)).Pairwise fun row next : ChunkRow => row.addr < next.addr :=
  List.pairwise_map.2 (hxs.sorted.imp fun hlt => Nat.add_lt_add_left hlt base)

theorem granules_map_range (addr k : Nat) (f : Nat → Bool) :
    MarkRow.granules ⟨addr, (List.range k).map f⟩ =
      (List.range k).map fun g => (addr + granule * g, f g) := by
  induction k with
  | zero => rfl
  | succ k ih =>
    rw [List.range_succ, List.map_append, granules_append, ih, List.map_append, List.length_map,
      List.length_range]
    rfl

theorem granules_picture (h : Heap) (L : Lists) :
    (h.picture L).granules = (List.range (64 * ((h.len / granule + 63) / 64))).map fun g =>
      (h.base + granule * g, h.live.isMarked g) := by
  have hshown : h.markWordsShown.flatMap wordMarks = _ := flatMap_wordsFor h.live (h.len / granule)
  rw [Picture.granules, picture, granules_markRowsOf (Nat.le_refl _), hshown, granules_map_range]

theorem mem_rows {l other : ListId} {count length : Nat} :
    (other, count) ∈ l.rows length ↔ other = l ∧ 0 < length ∧ count = length := by
  cases length with
  | zero =>
    constructor
    · intro hmem
      cases hmem
    · rintro ⟨-, hpos, -⟩
      cases hpos
  | succ length =>
    simp only [ListId.rows, List.mem_singleton, Prod.mk.injEq, Nat.succ_pos, true_and]

theorem mem_picture_lists {l : ListId} {count : Nat} :
    (l, count) ∈ (h.picture L).lists ↔ L l ≠ [] ∧ count = (L l).length := by
  simp only [picture, List.mem_flatMap, ListId.mem_all, true_and, mem_rows,
    List.length_pos_iff_ne_nil]
  constructor
  · rintro ⟨_, rfl, hl⟩
    exact hl
  · exact fun hl => ⟨l, rfl, hl⟩

theorem sum_rows (L : Lists) (lists : List ListId) :
    ((lists.flatMap fun l => l.rows (L l).length).map Prod.snd).sum = (lists.flatMap L).length := by
  induction lists with
  | nil => rfl
  | cons l rest ih =>
    have hsum : ((l.rows (L l).length).map Prod.snd).sum = (L l).length := by
      cases (L l).length with
      | zero => rfl
      | succ count => exact Nat.add_zero _
    rw [List.flatMap_cons, List.map_append, List.sum_append, ih, hsum, List.flatMap_cons,
      List.length_append]

theorem nodup_rows {lists : List ListId} (hlists : lists.Nodup) (L : Lists) :
    ((lists.flatMap fun l => l.rows (L l).length).map Prod.fst).Nodup := by
  have hsub : ((lists.flatMap fun l => l.rows (L l).length).map Prod.fst).Sublist lists := by
    induction lists with
    | nil => exact .slnil
    | cons l rest ih =>
      have hrest := ih (List.nodup_cons.1 hlists).2
      rw [List.flatMap_cons, List.map_append]
      cases (L l).length with
      | zero => exact hrest.cons l
      | succ count => exact hrest.cons_cons l
  exact hlists.sublist hsub

theorem mem_picture_chunks (hi : h.Intact A) {row : ChunkRow} :
    row ∈ (h.picture L).chunks ↔ ∃ c t, (c, t) ∈ A.chunks ∧ row = .of h.base (c, t) := by
  simp only [picture, hi.chunks, List.mem_map, Prod.exists]
  constructor
  · rintro ⟨c, t, hc, rfl⟩
    exact ⟨c, t, hc, rfl⟩
  · rintro ⟨c, t, hc, rfl⟩
    exact ⟨c, t, hc, rfl⟩

theorem holder_eq_some_iff {x : Chunk} {owner : Owner} :
    (ChunkRow.of base x).holder = some owner ↔ x.2.free = false ∧ x.2.owner = owner := by
  rw [ChunkRow.of]
  cases x.2.free <;> simp

theorem countP_granules (hi : h.Intact A) (L : Lists) :
    (h.picture L).granules.countP Prod.snd = (h.picture L).chunks.countP (·.holder.isSome) := by
  have hused : ((·.holder.isSome) ∘ ChunkRow.of h.base : Chunk → Bool) = fun x => !x.2.free := by
    funext x
    simp only [Function.comp_apply, ChunkRow.of]
    cases x.2.free <;> rfl
  have hcover : h.len / granule ≤ 64 * ((h.len / granule + 63) / 64) := by omega
  have hmarked := hi.countMarked_of_le hcover
  rw [LiveMap.countMarked_eq] at hmarked
  have hshown : (Prod.snd ∘ fun g => (h.base + granule * g, h.live.isMarked g)) =
      h.live.isMarked := rfl
  rw [granules_picture, List.countP_map, hshown, hmarked, picture, List.countP_map, hused,
    hi.chunks, liveIn, List.countP_eq_length_filter]

theorem countP_free (hi : h.Intact A) (L : Lists) :
    (h.picture L).chunks.countP (·.holder.isNone) = A.chunks.countP fun x => x.2.free := by
  have hfree : ((·.holder.isNone) ∘ ChunkRow.of h.base : Chunk → Bool) = fun x => x.2.free := by
    funext x
    simp only [Function.comp_apply, ChunkRow.of]
    cases x.2.free <;> rfl
  rw [picture, List.countP_map, hfree, hi.chunks]

end Heap

namespace World

variable {w : World} {A : Shape}

theorem Tracks.held_iff (hw : w.Tracks A) (L : Lists) (g : Grant) :
    g ∈ w.held ↔ ∃ row ∈ (w.heap.picture L).chunks, row.holder = some g.owner ∧
      g.addr = row.addr + tagBytes := by
  simp only [hw.held, Heap.mem_picture_chunks hw.intact]
  constructor
  · rintro ⟨c, t, hc, rfl⟩
    obtain ⟨hmem, hlive⟩ := mem_liveIn.1 hc
    exact ⟨_, ⟨c, t, hmem, rfl⟩, Heap.holder_eq_some_iff.2 ⟨hlive, rfl⟩, (Nat.add_assoc ..).symm⟩
  · rintro ⟨_, ⟨c, t, hmem, rfl⟩, hholder, haddr⟩
    obtain ⟨hlive, howner⟩ := Heap.holder_eq_some_iff.1 hholder
    obtain ⟨addr, owner⟩ := g
    refine ⟨c, t, mem_liveIn.2 ⟨hmem, hlive⟩, ?_⟩
    rw [Grant.mk.injEq]
    exact ⟨haddr.trans (Nat.add_assoc ..), howner.symm⟩

theorem Tracks.marked_iff (hw : w.Tracks A) (g : Nat) :
    w.heap.live.isMarked g = true ↔
      ∃ grant ∈ w.held, grant.addr = w.heap.base + granule * g + tagBytes := by
  rw [hw.intact.marks]
  constructor
  · rintro ⟨t, ht⟩
    refine ⟨⟨w.heap.base + (g * granule + tagBytes), t.owner⟩, ?_, ?_⟩
    · exact (hw.held _).2 ⟨g * granule, t, ht, rfl⟩
    · rw [Nat.mul_comm, Nat.add_assoc]
  · rintro ⟨grant, hgrant, haddr⟩
    obtain ⟨c, t, hc, rfl⟩ := (hw.held grant).1 hgrant
    have hplace : c = g * granule := by
      rw [← Nat.add_assoc, Nat.mul_comm] at haddr
      exact Nat.add_left_cancel (Nat.add_right_cancel haddr)
    exact ⟨t, hplace ▸ hc⟩

theorem Tracks.trueOf (hw : w.Tracks A) : (w.heap.picture A.lists).TrueOf w where
  walk := rfl
  ascending := by
    rw [Heap.picture, hw.intact.chunks]
    exact Heap.ascending_of_tiles hw.intact.settled.valid.tiles
  abut := by
    have hstop : w.heap.region.stop = w.heap.base + A.len :=
      congrArg (w.heap.base + ·) hw.intact.len
    rw [Heap.picture, hw.intact.chunks, hstop]
    exact Heap.abut_of_tiles w.heap.base hw.intact.settled.valid.tiles
  held := hw.held_iff A.lists
  granules := by
    rw [Heap.granules_picture, List.map_map]
    rfl
  marked := by
    intro addr m hmem
    rw [Heap.granules_picture] at hmem
    obtain ⟨g, -, he⟩ := List.mem_map.1 hmem
    obtain ⟨rfl, rfl⟩ := Prod.mk.injEq .. ▸ he
    exact hw.marked_iff g
  marks := Heap.countP_granules hw.intact A.lists
  lists := ⟨A.lists, hw.intact.store.threads, fun _ _ => Heap.mem_picture_lists⟩
  once := Heap.nodup_rows ListId.nodup_all A.lists
  total := by
    rw [Heap.countP_free hw.intact, ← hw.intact.settled.length_listed]
    exact Heap.sum_rows A.lists ListId.all

/-- A dump of a heap in use reaches its sink whole, and its text reads as a picture that is true of
the heap. -/
theorem dump_depicts (hw : w.Reachable) :
    ∃ text p, (w.heap.run (Heap.dump none)).result = .ok ⟨text, true⟩ ∧
      Picture.read text = some p ∧ p.TrueOf w := by
  obtain ⟨A, hA⟩ := hw.tracks
  have hreport := Heap.report_of_members hA.intact.inUse_le hA.intact.bounded
    hA.intact.store.members
  exact ⟨_, _, (Heap.dump_of_report hreport).run.1,
    w.heap.read_picture hA.intact.bounded hA.intact.undamaged A.lists, hA.trueOf⟩

/-- A chunk that came back, one that task 9 holds, and the remainder. -/
def tenanted : World :=
  sample.after [.allocate 16 .kernel, .allocate 16 ⟨9⟩, .release (some 0x1008)]

theorem tenanted_depicts :
    tenanted.Reachable ∧ tenanted.held = [⟨0x1028, ⟨9⟩⟩] ∧
      ∃ text p, (tenanted.heap.run (Heap.dump none)).result = .ok ⟨text, true⟩ ∧
        Picture.read text = some p ∧ p.TrueOf tenanted := by
  have hreachable : tenanted.Reachable := reachable_sample.after _
  have hheld : tenanted.held = [⟨0x1028, ⟨9⟩⟩] := by decide +kernel
  exact ⟨hreachable, hheld, dump_depicts hreachable⟩

end World

end BoundaryHeap
