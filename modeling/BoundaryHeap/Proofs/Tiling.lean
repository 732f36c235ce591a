import BoundaryHeap.Proofs.Bytes

namespace BoundaryHeap

abbrev Chunk : Type := Nat × Tag

/-- The chunks follow one another from `lo` to `hi`. -/
def Tiles : Nat → List Chunk → Nat → Prop
  | lo, [], hi => lo = hi
  | lo, (c, t) :: rest, hi => c = lo ∧ t.Proper ∧ Tiles (c + t.size) rest hi

namespace Tiles

variable {lo mid hi : Nat} {xs ys zs : List Chunk} {c d : Nat} {t u : Tag}

theorem append_iff : Tiles lo (xs ++ ys) hi ↔ ∃ mid, Tiles lo xs mid ∧ Tiles mid ys hi := by
  induction xs generalizing lo with
  | nil =>
    constructor
    · exact fun h => ⟨lo, rfl, h⟩
    · rintro ⟨mid, rfl, h⟩
      exact h
  | cons x rest ih =>
    obtain ⟨c, t⟩ := x
    constructor
    · rintro ⟨h1, h2, h3⟩
      obtain ⟨mid, h4, h5⟩ := ih.1 h3
      exact ⟨mid, ⟨h1, h2, h4⟩, h5⟩
    · rintro ⟨mid, ⟨h1, h2, h3⟩, h4⟩
      exact ⟨h1, h2, ih.2 ⟨mid, h3, h4⟩⟩

theorem append (h : Tiles lo xs mid) (h' : Tiles mid ys hi) : Tiles lo (xs ++ ys) hi :=
  append_iff.2 ⟨mid, h, h'⟩

theorem le (h : Tiles lo xs hi) : lo ≤ hi := by
  induction xs generalizing lo with
  | nil => exact Nat.le_of_eq h
  | cons x rest ih =>
    obtain ⟨c, t⟩ := x
    obtain ⟨rfl, -, h3⟩ := h
    have hrest := ih h3
    omega

theorem length_le (h : Tiles lo xs hi) : lo + 32 * xs.length ≤ hi := by
  induction xs generalizing lo with
  | nil =>
    have he : lo = hi := h
    simp [he]
  | cons x rest ih =>
    obtain ⟨c, t⟩ := x
    obtain ⟨rfl, ⟨hmin, -⟩, h3⟩ := h
    have hrest := ih h3
    simp only [minChunk] at hmin
    rw [List.length_cons]
    omega

theorem split (h : Tiles lo xs hi) (hc : (c, t) ∈ xs) :
    ∃ ys zs, xs = ys ++ (c, t) :: zs ∧ Tiles lo ys c ∧ t.Proper ∧ Tiles (c + t.size) zs hi := by
  obtain ⟨ys, zs, rfl⟩ := List.append_of_mem hc
  obtain ⟨mid, h1, rfl, h2, h3⟩ := append_iff.1 h
  exact ⟨ys, zs, rfl, h1, h2, h3⟩

theorem proper (h : Tiles lo xs hi) (hc : (c, t) ∈ xs) : t.Proper := by
  obtain ⟨_, _, -, -, ht, -⟩ := h.split hc
  exact ht

theorem size_pos (h : Tiles lo xs hi) (hc : (c, t) ∈ xs) : 32 ≤ t.size :=
  (h.proper hc).1

theorem ge_of_mem (h : Tiles lo xs hi) (hc : (c, t) ∈ xs) : lo ≤ c := by
  obtain ⟨_, _, -, h1, -, -⟩ := h.split hc
  exact h1.le

theorem end_le (h : Tiles lo xs hi) (hc : (c, t) ∈ xs) : c + t.size ≤ hi := by
  obtain ⟨_, _, -, -, -, h3⟩ := h.split hc
  exact h3.le

theorem bounds (h : Tiles lo xs hi) (hc : (c, t) ∈ xs) : lo ≤ c ∧ c < hi := by
  have hge := h.ge_of_mem hc
  have hend := h.end_le hc
  have hpos := h.size_pos hc
  omega

theorem mod_end (h : Tiles lo xs hi) (hlo : lo % 16 = 0) : hi % 16 = 0 := by
  induction xs generalizing lo with
  | nil => exact h ▸ hlo
  | cons x rest ih =>
    obtain ⟨c, t⟩ := x
    obtain ⟨rfl, ⟨-, hgrain⟩, h3⟩ := h
    simp only [granule] at hgrain
    exact ih h3 (by omega)

theorem mod_of_mem (h : Tiles lo xs hi) (hlo : lo % 16 = 0) (hc : (c, t) ∈ xs) : c % 16 = 0 := by
  obtain ⟨_, _, -, h1, -, -⟩ := h.split hc
  exact h1.mod_end hlo

theorem apart (h : Tiles lo xs hi) (hc : (c, t) ∈ xs) (hd : (d, u) ∈ xs) :
    (c = d ∧ t = u) ∨ c + t.size ≤ d ∨ d + u.size ≤ c := by
  obtain ⟨ys, zs, rfl, h1, -, h3⟩ := h.split hc
  rcases List.mem_append.1 hd with hd | hd
  · exact .inr (.inr (h1.end_le hd))
  · rcases List.mem_cons.1 hd with he | hd
    · cases he
      exact .inl ⟨rfl, rfl⟩
    · exact .inr (.inl (h3.ge_of_mem hd))

theorem unique (h : Tiles lo xs hi) (hc : (c, t) ∈ xs) (hd : (c, u) ∈ xs) : t = u := by
  have hmin := h.size_pos hc
  have hmin' := h.size_pos hd
  rcases h.apart hc hd with ⟨-, he⟩ | he | he
  · exact he
  · omega
  · omega

theorem above (h : Tiles lo xs hi) (hc : (c, t) ∈ xs) (hend : c + t.size < hi) :
    ∃ u, (c + t.size, u) ∈ xs := by
  obtain ⟨ys, zs, rfl, -, -, h3⟩ := h.split hc
  cases zs with
  | nil =>
    have he : c + t.size = hi := h3
    omega
  | cons x rest =>
    obtain ⟨d, u⟩ := x
    obtain ⟨rfl, -, -⟩ := h3
    exact ⟨u, by simp⟩

theorem getLast?_of_end (h : Tiles lo xs hi) (hc : (c, t) ∈ xs) (hend : c + t.size = hi) :
    xs.getLast? = some (c, t) := by
  obtain ⟨ys, zs, rfl, -, -, h3⟩ := h.split hc
  cases zs with
  | nil => simp
  | cons x rest =>
    obtain ⟨d, u⟩ := x
    have hpos := h3.size_pos (List.mem_cons_self ..)
    have hle := h3.end_le (List.mem_cons_self ..)
    have hge := h3.ge_of_mem (List.mem_cons_self ..)
    omega

theorem end_of_getLast? (h : Tiles lo xs hi) (hc : xs.getLast? = some (c, t)) :
    c + t.size = hi := by
  obtain ⟨ys, rfl⟩ := List.getLast?_eq_some_iff.1 hc
  obtain ⟨mid, -, rfl, -, hend⟩ := append_iff.1 h
  exact hend

theorem head?_of_start (h : Tiles lo xs hi) (hc : (lo, t) ∈ xs) : xs.head? = some (lo, t) := by
  cases xs with
  | nil => cases hc
  | cons x rest =>
    obtain ⟨d, u⟩ := x
    obtain ⟨rfl, -, -⟩ := id h
    rw [h.unique hc (List.mem_cons_self ..)]
    rfl

theorem sorted (h : Tiles lo xs hi) :
    xs.Pairwise fun x y => x.1 < y.1 := by
  induction xs generalizing lo with
  | nil => exact .nil
  | cons x rest ih =>
    obtain ⟨c, t⟩ := x
    have hpos := h.size_pos (List.mem_cons_self ..)
    obtain ⟨rfl, -, hrest⟩ := h
    refine List.pairwise_cons.2 ⟨fun y hy => ?_, ih hrest⟩
    have hge := hrest.ge_of_mem (c := y.1) (t := y.2) hy
    show c < y.1
    omega

theorem filter_lt (h : Tiles lo xs mid) (h' : Tiles mid ys hi) :
    (xs ++ ys).filter (fun x => x.1 < mid) = xs := by
  rw [List.filter_append, List.filter_eq_self.2, List.filter_eq_nil_iff.2, List.append_nil]
  · rintro ⟨c, t⟩ hc
    have hge := h'.ge_of_mem hc
    simpa using hge
  · rintro ⟨c, t⟩ hc
    have hend := h.end_le hc
    have hmin := h.size_pos hc
    simp only [decide_eq_true_eq]
    omega

theorem filter_ge (h : Tiles lo xs mid) (h' : Tiles mid ys hi) :
    (xs ++ ys).filter (fun x => mid ≤ x.1) = ys := by
  rw [List.filter_append, List.filter_eq_nil_iff.2, List.filter_eq_self.2, List.nil_append]
  · rintro ⟨c, t⟩ hc
    have hge := h'.ge_of_mem hc
    simpa using hge
  · rintro ⟨c, t⟩ hc
    have hend := h.end_le hc
    have hmin := h.size_pos hc
    simp only [decide_eq_true_eq]
    omega

end Tiles

/-- The chunks with `new` in the place of those from `lo` up to `hi`. -/
def splice (chunks : List Chunk) (lo hi : Nat) (new : List Chunk) : List Chunk :=
  chunks.filter (fun x => x.1 < lo) ++ new ++ chunks.filter (fun x => hi ≤ x.1)

theorem mem_splice {chunks new : List Chunk} {lo hi : Nat} {x : Chunk} :
    x ∈ splice chunks lo hi new ↔
      (x ∈ chunks ∧ x.1 < lo) ∨ x ∈ new ∨ (x ∈ chunks ∧ hi ≤ x.1) := by
  simp only [splice, List.append_assoc, List.mem_append, List.mem_filter, decide_eq_true_eq]

theorem splice_eq {xs ys zs new : List Chunk} {a lo hi b : Nat} (hx : Tiles a xs lo)
    (hy : Tiles lo ys hi) (hz : Tiles hi zs b) :
    splice (xs ++ ys ++ zs) lo hi new = xs ++ new ++ zs := by
  have hlow := hx.filter_lt (hy.append hz)
  have hhigh := (hx.append hy).filter_ge hz
  rw [← List.append_assoc] at hlow
  rw [splice, hlow, hhigh]

def sizeIn (chunks : List Chunk) (c : Nat) : Nat :=
  ((chunks.find? fun x => x.1 = c).map fun x => x.2.size).getD 0

theorem Tiles.sizeIn {lo hi : Nat} {xs : List Chunk} {c : Nat} {t : Tag} (h : Tiles lo xs hi)
    (hc : (c, t) ∈ xs) : sizeIn xs c = t.size := by
  rcases hfind : xs.find? (fun x => x.1 = c) with _ | ⟨d, u⟩
  · have hnone := List.find?_eq_none.1 hfind (c, t) hc
    simp at hnone
  · have hd : d = c := by simpa using List.find?_some hfind
    subst hd
    have hu := h.unique hc (List.mem_of_find?_eq_some hfind)
    simp only [BoundaryHeap.sizeIn, hfind, Option.map_some, Option.getD_some, hu]

/-- The chunks that are handed out. -/
def liveIn (chunks : List Chunk) : List Chunk :=
  chunks.filter fun x => !x.2.free

theorem mem_liveIn {chunks : List Chunk} {c : Nat} {t : Tag} :
    (c, t) ∈ liveIn chunks ↔ (c, t) ∈ chunks ∧ t.free = false := by
  simp [liveIn]

theorem liveIn_append (xs ys : List Chunk) : liveIn (xs ++ ys) = liveIn xs ++ liveIn ys :=
  List.filter_append ..

theorem liveIn_eq_nil {xs : List Chunk} : liveIn xs = [] ↔ ∀ c t, (c, t) ∈ xs → t.free = true := by
  simp [liveIn]

end BoundaryHeap
