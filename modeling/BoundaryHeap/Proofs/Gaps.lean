import BoundaryHeap.Proofs.Searching

namespace BoundaryHeap

def liveExtents (chunks : List Chunk) : List (Nat × Nat) :=
  (liveIn chunks).map fun x => (x.1, x.2.size)

/-- The chunks as offset, size and whether they are free. -/
def layoutOf (chunks : List Chunk) : List (Nat × Nat × Bool) :=
  chunks.map fun x => (x.1, x.2.size, x.2.free)

/-- One free chunk from `lo` to `hi`, or none when there is no room between them. -/
def gap (lo hi : Nat) : List (Nat × Nat × Bool) :=
  if lo < hi then [(lo, hi - lo, true)] else []

/-- The given live extents with every gap from `lo` to `hi` filled by one free chunk. -/
def fillGaps : Nat → List (Nat × Nat) → Nat → List (Nat × Nat × Bool)
  | lo, [], hi => gap lo hi
  | lo, (c, size) :: rest, hi => gap lo c ++ (c, size, false) :: fillGaps (c + size) rest hi

/-- No two free chunks are neighbours. -/
def Coalesced (chunks : List Chunk) : Prop :=
  ∀ c t u, (c, t) ∈ chunks → (c + t.size, u) ∈ chunks → t.free = true → u.free = false

/-- There are `size` bytes in a row that no live extent touches. -/
def Room (live : List (Nat × Nat)) (len size : Nat) : Prop :=
  ∃ a, a + size ≤ len ∧ ∀ c n, (c, n) ∈ live → c + n ≤ a ∨ a + size ≤ c

/-- `run` is a maximal run of neighbouring free chunks. -/
structure FreeRun (chunks run : List Chunk) : Prop where
  free : ∀ c t, (c, t) ∈ run → t.free = true
  maximal : ∃ pre post, chunks = pre ++ run ++ post ∧
    (∀ x, pre.getLast? = some x → x.2.free = false) ∧
    (∀ x, post.head? = some x → x.2.free = false)

theorem mem_liveExtents {chunks : List Chunk} {c n : Nat} :
    (c, n) ∈ liveExtents chunks ↔ ∃ t, (c, t) ∈ chunks ∧ t.free = false ∧ t.size = n := by
  simp only [liveExtents, List.mem_map, Prod.mk.injEq, Prod.exists, mem_liveIn]
  constructor
  · rintro ⟨d, t, ⟨hmem, hlive⟩, rfl, hsize⟩
    exact ⟨t, hmem, hlive, hsize⟩
  · rintro ⟨t, hmem, hlive, hsize⟩
    exact ⟨c, t, ⟨hmem, hlive⟩, rfl, hsize⟩

theorem liveExtents_congr {xs ys : List Chunk} (h : liveIn xs = liveIn ys) :
    liveExtents xs = liveExtents ys := by
  rw [liveExtents, h, liveExtents]

namespace Tiles

variable {lo hi a size : Nat} {xs : List Chunk}

theorem cover (h : Tiles lo xs hi) (hlo : lo ≤ a) (hhi : a < hi) :
    ∃ c t, (c, t) ∈ xs ∧ c ≤ a ∧ a < c + t.size := by
  induction xs generalizing lo with
  | nil =>
    have he : lo = hi := h
    omega
  | cons x rest ih =>
    obtain ⟨c, t⟩ := x
    obtain ⟨rfl, -, hrest⟩ := h
    by_cases hin : a < c + t.size
    · exact ⟨c, t, List.mem_cons_self .., hlo, hin⟩
    · obtain ⟨d, u, hmem, hd⟩ := ih hrest (Nat.le_of_not_lt hin)
      exact ⟨d, u, List.mem_cons_of_mem _ hmem, hd⟩

theorem free_of_room (h : Tiles 0 xs hi) (hpos : 0 < size) (hend : a + size ≤ hi)
    (hapart : ∀ c n, (c, n) ∈ liveExtents xs → c + n ≤ a ∨ a + size ≤ c) :
    ∃ c t, (c, t) ∈ xs ∧ t.free = true ∧ c ≤ a ∧ a < c + t.size := by
  obtain ⟨c, t, hc, hlo, hhi⟩ := h.cover (Nat.zero_le a) (by omega : a < hi)
  refine ⟨c, t, hc, ?_, hlo, hhi⟩
  by_contra hlive
  rw [Bool.not_eq_true] at hlive
  rcases hapart c t.size (mem_liveExtents.2 ⟨t, hc, hlive, rfl⟩) with he | he
  · omega
  · omega

theorem layout_eq (h : Tiles lo xs hi) (hfree : Coalesced xs) :
    layoutOf xs = fillGaps lo (liveExtents xs) hi := by
  induction xs generalizing lo with
  | nil =>
    have he : lo = hi := h
    have hgap : gap lo hi = [] := if_neg (by omega)
    exact hgap.symm
  | cons x rest ih =>
    obtain ⟨c, t⟩ := x
    obtain ⟨rfl, ht, hrest⟩ := h
    have hmin := ht.1
    simp only [minChunk] at hmin
    have hfree' : Coalesced rest := fun d v w hd hw =>
      hfree d v w (List.mem_cons_of_mem _ hd) (List.mem_cons_of_mem _ hw)
    have htail := ih hrest hfree'
    have hself : gap c c = [] := if_neg (Nat.lt_irrefl c)
    rcases hstate : t.free with _ | _
    · have hlive : liveExtents ((c, t) :: rest) = (c, t.size) :: liveExtents rest := by
        simp [liveExtents, liveIn, hstate]
      rw [hlive, fillGaps, hself, ← htail]
      simp only [layoutOf, List.map_cons, hstate, List.nil_append]
    · have hlive : liveExtents ((c, t) :: rest) = liveExtents rest := by
        simp [liveExtents, liveIn, hstate]
      have hgap : gap c (c + t.size) = [(c, t.size, true)] := by
        rw [gap, if_pos (by omega), Nat.add_sub_cancel_left]
      rw [hlive]
      cases rest with
      | nil =>
        obtain rfl : c + t.size = hi := hrest
        simp only [layoutOf, List.map_cons, List.map_nil, hstate]
        exact hgap.symm
      | cons y rest =>
        obtain ⟨d, u⟩ := y
        obtain ⟨rfl, -, -⟩ := id hrest
        have hu := hfree c t u (List.mem_cons_self ..) (by simp) hstate
        have hnext : liveExtents ((c + t.size, u) :: rest) =
            (c + t.size, u.size) :: liveExtents rest := by
          simp [liveExtents, liveIn, hu]
        have hself' : gap (c + t.size) (c + t.size) = [] := if_neg (Nat.lt_irrefl _)
        rw [hnext, fillGaps, hself', List.nil_append] at htail
        rw [hnext, fillGaps, hgap, ← htail]
        simp only [layoutOf, List.map_cons, hstate, List.cons_append, List.nil_append]

theorem room_of_chunk (h : Tiles 0 xs hi) {c : Nat} {t : Tag} (hc : (c, t) ∈ xs)
    (hfree : t.free = true) (hsize : size ≤ t.size) : Room (liveExtents xs) hi size := by
  have hend := h.end_le hc
  refine ⟨c, by omega, fun d n hd => ?_⟩
  obtain ⟨u, hu, hlive, rfl⟩ := mem_liveExtents.1 hd
  rcases h.apart hc hu with ⟨rfl, rfl⟩ | he | he
  · rw [hfree] at hlive
    cases hlive
  · exact .inr (by omega)
  · exact .inl he

theorem chunk_of_room (h : Tiles 0 xs hi) (hco : Coalesced xs) (hpos : 0 < size)
    (hroom : Room (liveExtents xs) hi size) :
    ∃ c t, (c, t) ∈ xs ∧ t.free = true ∧ size ≤ t.size := by
  obtain ⟨a, hend, hapart⟩ := hroom
  obtain ⟨c, t, hc, hfree, hlo, hhi⟩ := h.free_of_room hpos hend hapart
  refine ⟨c, t, hc, hfree, ?_⟩
  by_contra hsmall
  obtain ⟨u, hu⟩ := h.above hc (by omega)
  have hpos' := h.size_pos hu
  have hlive := hco c t u hc hu hfree
  rcases hapart _ u.size (mem_liveExtents.2 ⟨u, hu, hlive, rfl⟩) with he | he
  · omega
  · omega

theorem room_of_run (h : Tiles 0 xs hi) {run : List Chunk} (hrun : FreeRun xs run)
    (hsize : size ≤ totalOf run) : Room (liveExtents xs) hi size := by
  obtain ⟨hfree, pre, post, rfl, -, -⟩ := hrun
  obtain ⟨stop, hfront, hpost⟩ := append_iff.1 h
  obtain ⟨start, hpre, htiles⟩ := append_iff.1 hfront
  have htotal := htiles.total
  have hle := hpost.le
  refine ⟨start, by omega, fun d n hd => ?_⟩
  obtain ⟨u, hu, hlive, rfl⟩ := mem_liveExtents.1 hd
  rw [List.append_assoc, List.mem_append, List.mem_append] at hu
  rcases hu with hu | hu | hu
  · exact .inl (hpre.end_le hu)
  · rw [hfree d u hu] at hlive
    cases hlive
  · have hge := hpost.ge_of_mem hu
    exact .inr (by omega)

end Tiles

namespace Shape

variable {A B : Shape} {c last size : Nat}

theorem Around.freeRun {t : Tag} {pre post : List Chunk} (h : A.Around c t pre post)
    (hfree : t.free = true) : FreeRun A.chunks (A.runAround c t) := by
  exact ⟨fun _ _ hd => free_of_mem_runAround hfree hd, pre, post, h.chunks_eq, h.liveBelow,
    h.liveAbove⟩

/-- Room between the live chunks is room in a maximal run of free chunks. -/
theorem Valid.room_iff (h : A.Valid) (hpos : 0 < size) :
    Room (liveExtents A.chunks) A.len size ↔ ∃ run, FreeRun A.chunks run ∧ size ≤ totalOf run := by
  constructor
  · rintro ⟨a, hend, hapart⟩
    obtain ⟨c, t, hc, hfree, hlo, hhi⟩ := h.tiles.free_of_room hpos hend hapart
    obtain ⟨pre, post, har⟩ := h.around hc
    refine ⟨_, har.freeRun hfree, ?_⟩
    have htotal := har.tiles.total
    have hstart := har.start_le
    have hstop := har.le_stop
    have hreach : a + size ≤ A.runStop c := by
      by_contra hshort
      have hpost := har.stop
      cases hhead : post with
      | nil =>
        rw [hhead] at hpost
        have he : A.runStop c = A.len := hpost
        omega
      | cons y rest =>
        obtain ⟨d, u⟩ := y
        have hlive := har.liveAbove (d, u) (by rw [hhead]; rfl)
        rw [hhead] at hpost
        obtain ⟨rfl, hu, -⟩ := hpost
        have hmin := hu.1
        simp only [minChunk] at hmin
        have hmem : (A.runStop c, u) ∈ A.chunks := by
          rw [har.chunks_eq, hhead]
          simp
        rcases hapart _ u.size (mem_liveExtents.2 ⟨u, hmem, hlive, rfl⟩) with he | he
        · omega
        · omega
    omega
  · rintro ⟨run, hrun, hsize⟩
    exact h.tiles.room_of_run hrun hsize

theorem Settled.clean (h : A.Settled) (hempty : ∀ l, l.kind = .dirty → A.lists l = [])
    (hc : A.IsFree c) : A.Clean c := by
  obtain ⟨l, hl⟩ := h.listed hc (Set.notMem_empty c)
  refine ⟨l, ?_, hl⟩
  cases hkind : l.kind with
  | clean => rfl
  | dirty =>
    rw [hempty l hkind] at hl
    cases hl

theorem Settled.coalesced (h : A.Settled) (hempty : ∀ l, l.kind = .dirty → A.lists l = []) :
    Coalesced A.chunks := by
  intro c t u hc hu hfree
  by_contra hnext
  rw [Bool.not_eq_false] at hnext
  exact h.apart c t hc (h.clean hempty ⟨t, hc, hfree⟩) (h.clean hempty ⟨u, hu, hnext⟩)

theorem Found.room (h : A.Found c size) : Room (liveExtents A.chunks) A.len size := by
  obtain ⟨t, ht, hlow, -⟩ := h.fits
  obtain ⟨⟨u, hu, hfree⟩, -⟩ := h.holding.mem_loose rfl
  obtain rfl := h.holding.valid.tiles.unique ht hu
  exact h.holding.valid.tiles.room_of_chunk ht hfree hlow

/-- A search that fails leaves no room for the request. -/
theorem Settled.no_room (h : A.Settled) (hpos : 0 < size)
    (hmiss : A.search last size = (none, B)) : ¬Room (liveExtents B.chunks) B.len size := by
  obtain ⟨hsettled, hempty, hnone⟩ := h.search_none hmiss
  intro hroom
  obtain ⟨c, t, hc, hfree, hlarge⟩ :=
    hsettled.valid.tiles.chunk_of_room (hsettled.coalesced hempty) hpos hroom
  have hclean := hsettled.clean hempty ⟨t, hc, hfree⟩
  have hsmall := findFitting_none hsettled.valid hnone hclean
  rw [hsettled.valid.sizeAt_eq hc] at hsmall
  omega

end Shape

end BoundaryHeap
