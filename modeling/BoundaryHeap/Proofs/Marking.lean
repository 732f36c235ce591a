import BoundaryHeap.Proofs.Counting
import BoundaryHeap.Proofs.Runs
import Mathlib.Algebra.Order.Floor.Div
import Mathlib.Data.Finset.Card
import Mathlib.GroupTheory.GroupAction.Ring

namespace BoundaryHeap

namespace LiveMap

variable {m : LiveMap} {index g k count : Nat}

theorem length_wordsFor (m : LiveMap) (count : Nat) : (m.wordsFor count).length = count ⌈/⌉ 64 := by
  rw [wordsFor, List.length_map, List.length_range, Nat.ceilDiv_eq_add_pred_div]
  rfl

theorem getLsbD_wordsFor (m : LiveMap) {bit : Nat} (hk : k < (m.wordsFor count).length)
    (hbit : bit < 64) : (m.wordsFor count)[k].getLsbD bit = m.isMarked (64 * k + bit) := by
  rw [m.isMarked_add k hbit]
  simp only [wordsFor, List.getElem_map, List.getElem_range]

def marked (m : LiveMap) : Finset Nat := (Finset.range capacity).filter fun g => m.isMarked g

@[simp] theorem mem_marked : g ∈ m.marked ↔ m.isMarked g := by
  rw [marked, Finset.mem_filter, Finset.mem_range]
  exact and_iff_right_of_imp lt_of_isMarked

theorem marked_empty : empty.marked = ∅ := by
  ext g
  simp

theorem marked_mark (hin : index < capacity) : (m.mark index).marked = insert index m.marked := by
  ext g
  rw [mem_marked, Finset.mem_insert, mem_marked, isMarked_mark m (div_lt_markWords.2 hin)]
  simp

theorem marked_unmark (hin : index < capacity) :
    (m.unmark index).marked = m.marked.erase index := by
  ext g
  rw [mem_marked, Finset.mem_erase, mem_marked, isMarked_unmark m (div_lt_markWords.2 hin)]
  simp

theorem marked_injective : Function.Injective marked := by
  intro m m' h
  apply eq_of_isMarked
  intro g
  rw [Bool.eq_iff_iff, ← mem_marked, ← mem_marked, h]

theorem countMarked_eq_card (m : LiveMap) (count : Nat) :
    m.countMarked count = ((Finset.range count).filter fun g => m.isMarked g).card := by
  have hset : (Finset.range count).filter (fun g => m.isMarked g) =
      ((List.range count).filter m.isMarked).toFinset := by
    ext g
    simp
  rw [hset, List.toFinset_card_of_nodup (List.nodup_range.filter _),
    ← List.countP_eq_length_filter, countMarked_eq]

inductive Change
  | mark (index : Nat)
  | unmark (index : Nat)
  deriving DecidableEq

def Change.target : Change → Nat
  | .mark index | .unmark index => index

def change (m : LiveMap) : Change → LiveMap
  | .mark index => m.mark index
  | .unmark index => m.unmark index

def change? (m : LiveMap) : Change → Option LiveMap
  | .mark index => m.mark? index
  | .unmark index => m.unmark? index

def after (m : LiveMap) (changes : List Change) : LiveMap :=
  changes.foldl change m

def after? (m : LiveMap) (changes : List Change) : Option LiveMap :=
  changes.foldlM change? m

variable {c : Change} {changes : List Change}

theorem change?_eq (m : LiveMap) (c : Change) :
    m.change? c = if c.target < capacity then some (m.change c) else none := by
  cases c with
  | mark index => exact m.mark?_eq index
  | unmark index => exact m.unmark?_eq index

theorem after?_eq (hin : ∀ c ∈ changes, c.target < capacity) :
    m.after? changes = some (m.after changes) := by
  induction changes generalizing m with
  | nil => rfl
  | cons c rest ih =>
    rw [List.forall_mem_cons] at hin
    rw [after?, List.foldlM_cons, change?_eq, if_pos hin.1]
    exact ih hin.2

theorem mem_marked_change (hin : c.target < capacity) :
    g ∈ (m.change c).marked ↔ if c.target = g then c = .mark g else g ∈ m.marked := by
  cases c with
  | mark index =>
    have hin : index < capacity := hin
    rw [change, marked_mark hin, Finset.mem_insert]
    by_cases he : index = g
    · simp [Change.target, he]
    · simp [Change.target, he, Ne.symm he]
  | unmark index =>
    have hin : index < capacity := hin
    rw [change, marked_unmark hin, Finset.mem_erase]
    by_cases he : index = g
    · simp [Change.target, he]
    · simp [Change.target, he, Ne.symm he]

theorem after_concat (m : LiveMap) (before : List Change) (c : Change) :
    m.after (before ++ [c]) = (m.after before).change c :=
  List.foldl_concat ..

/-- The last change of a granule decides about it. -/
theorem isMarked_after (hin : ∀ c ∈ changes, c.target < capacity) :
    (empty.after changes).isMarked g ↔
      (changes.filter fun c => c.target = g).getLast? = some (.mark g) := by
  induction changes using List.reverseRecOn with
  | nil =>
    rw [after, List.foldl_nil, ← mem_marked, marked_empty]
    simp
  | append_singleton before c ih =>
    rw [List.forall_mem_append, List.forall_mem_singleton] at hin
    rw [after_concat, ← mem_marked, mem_marked_change hin.2, List.filter_append]
    by_cases he : c.target = g
    · simp [he]
    · rw [if_neg he, mem_marked, ih hin.1]
      simp [he]

/-- All operations read one set of marks, and find every word that they need. -/
structure ReadsSet (m : LiveMap) : Prop where
  test : ∀ g < capacity, m.isMarked? g = some (m.isMarked g)
  count : ∀ n ≤ capacity, m.countMarked? n = some (m.countMarked n)
  card : ∀ n, m.countMarked n = ((Finset.range n).filter fun g => m.isMarked g).card
  words : ∀ n ≤ capacity, m.wordsFor? n = some (m.wordsFor n)
  length : ∀ n, (m.wordsFor n).length = n ⌈/⌉ 64
  bits : ∀ n k (hk : k < (m.wordsFor n).length) bit, bit < 64 →
    (m.wordsFor n)[k].getLsbD bit = m.isMarked (64 * k + bit)

theorem readsSet (m : LiveMap) : m.ReadsSet where
  test g hg := by rw [isMarked?_eq, if_pos hg]
  count n hn := by rw [countMarked?_eq, if_pos hn]
  card n := m.countMarked_eq_card n
  words n hn := by rw [wordsFor?_eq, if_pos hn]
  length n := m.length_wordsFor n
  bits _ _ hk _ hbit := m.getLsbD_wordsFor hk hbit

theorem countMarked?_live {h : Heap} {A : Shape} (hi : h.Intact A) :
    h.live.countMarked? (h.len / granule) = some (liveIn A.chunks).length := by
  rw [countMarked?_eq, if_pos (div_le_capacity hi.bounded), hi.countMarked]

/-- The map is a finite set of granules. A run of changes within the map leaves a granule marked
exactly when its last change was a mark, whatever happened to the others. The operations agree on
the set, and maps with the same set are the same. In a heap in use the marks that are counted are
as many as the live chunks. -/
theorem marks_form_set :
    (∀ changes : List Change, (∀ c ∈ changes, c.target < capacity) →
      empty.after? changes = some (empty.after changes) ∧
        ∀ g, (empty.after changes).isMarked g ↔
          (changes.filter fun c => c.target = g).getLast? = some (.mark g)) ∧
      (∀ m : LiveMap, m.ReadsSet) ∧ Function.Injective marked ∧
      ∀ w : World, w.Reachable →
        w.heap.live.countMarked? (w.heap.len / granule) = some (liveIn w.heap.chunks).length := by
  constructor
  · intro changes hin
    exact ⟨after?_eq hin, fun g => isMarked_after hin⟩
  · refine ⟨readsSet, marked_injective, fun w hw => ?_⟩
    obtain ⟨A, hA⟩ := hw.tracks
    rw [hA.intact.chunks]
    exact countMarked?_live hA.intact

/-- A mark that is cleared and set again, one that stays cleared, and the last that there is. In a
heap with one live chunk one mark is counted. -/
theorem rewritten_marks :
    let changes : List Change :=
      [.mark 5, .mark 64, .mark 129, .unmark 5, .mark (capacity - 1), .unmark 64, .mark 5]
    let m := empty.after changes
    let w := World.sample.after [.allocate 8 .kernel]
    empty.after? changes = some m ∧ m.isMarked? 5 = some true ∧ m.isMarked? 64 = some false ∧
      m.isMarked? (capacity - 1) = some true ∧ m.countMarked? 130 = some 2 ∧
      m.countMarked? capacity = some (m.countMarked capacity) ∧ (m.wordsFor 130).length = 3 ∧
      w.heap.live.countMarked? (w.heap.len / granule) = some 1 := by
  intro changes m w
  obtain ⟨hruns, hreads, -, hheaps⟩ := marks_form_set
  have hin : ∀ c ∈ changes, c.target < capacity := by decide
  obtain ⟨hrun, hmarked⟩ := hruns changes hin
  have h := hreads m
  have htrue : m.isMarked 5 = true := (hmarked 5).2 (by decide)
  have hfalse : m.isMarked 64 = false := Bool.eq_false_iff.2 (mt (hmarked 64).1 (by decide))
  have hlast : m.isMarked (capacity - 1) = true := (hmarked (capacity - 1)).2 (by decide)
  have hcount : m.countMarked 130 = 2 := by
    rw [h.card 130, Finset.filter_congr fun g _ => hmarked g]
    decide +kernel
  have hlength : (m.wordsFor 130).length = 3 := h.length 130
  have hlive : (liveIn w.heap.chunks).length = 1 := by decide +kernel
  rw [h.test 5 (by decide), h.test 64 (by decide), h.test (capacity - 1) (by decide),
    h.count 130 (by decide), htrue, hfalse, hlast, hcount,
    hheaps w (World.reachable_sample.after _), hlive]
  exact ⟨hrun, rfl, rfl, rfl, rfl, h.count capacity le_rfl, hlength, rfl⟩

end LiveMap

end BoundaryHeap
