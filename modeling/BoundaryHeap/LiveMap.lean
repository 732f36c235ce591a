import BoundaryHeap.Fault

namespace BoundaryHeap

@[simp] abbrev markWords : Nat := markBytes / 8

/-- Marks of the granules of a region. -/
structure LiveMap where
  words : Vector (BitVec 64) markWords
  deriving DecidableEq

def setBits (w : BitVec 64) : Nat :=
  (List.range 64).countP w.getLsbD

theorem and_bit_ne_zero (w : BitVec 64) {k : Nat} (hk : k < 64) :
    (w &&& 1#64 <<< k != 0#64) = w.getLsbD k := by
  have hbit : (1#64 <<< k).getLsbD k = true := by
    simp [hk]
  have hmask : w &&& BitVec.twoPow 64 k = if w.getLsbD k then BitVec.twoPow 64 k else 0#64 :=
    BitVec.and_twoPow w k
  rw [BitVec.twoPow] at hmask
  rw [hmask]
  cases w.getLsbD k with
  | false => rfl
  | true =>
    have hne : 1#64 <<< k ≠ 0#64 := by
      intro hzero
      rw [hzero] at hbit
      simp at hbit
    exact bne_iff_ne.2 hne

namespace LiveMap

def empty : LiveMap := ⟨Vector.replicate markWords 0⟩

/-- The word at `index`, as statements speak of it: no granule behind the last word is marked.
Programs go to the words with the checks of `isMarked?`, `rewrite?` and the counts. -/
def word (m : LiveMap) (index : Nat) : BitVec 64 := m.words[index]?.getD 0

def isMarked (m : LiveMap) (index : Nat) : Bool :=
  (m.word (index / 64)).getLsbD (index % 64)

def mark (m : LiveMap) (index : Nat) : LiveMap :=
  ⟨m.words.setIfInBounds (index / 64) (m.word (index / 64) ||| 1#64 <<< (index % 64))⟩

def unmark (m : LiveMap) (index : Nat) : LiveMap :=
  ⟨m.words.setIfInBounds (index / 64) (m.word (index / 64) &&& ~~~(1#64 <<< (index % 64)))⟩

/-- Number of marks among the first `count` granules. -/
def countMarked (m : LiveMap) (count : Nat) : Nat :=
  (List.range (count / 64)).foldl (fun total i => total + setBits (m.word i)) 0 +
    setBits (m.word (count / 64) &&& (1#64 <<< (count % 64) - 1#64))

def wordsFor (m : LiveMap) (count : Nat) : List (BitVec 64) :=
  (List.range ((count + 63) / 64)).map m.word

/-- Number of granules that the map has a mark for. -/
def capacity : Nat := markWords * 64

def isMarked? (m : LiveMap) (index : Nat) : Option Bool := do
  let w ← m.words[index / 64]?
  return w &&& 1#64 <<< (index % 64) != 0

/-- Reads the word of a granule and writes it again. -/
def rewrite? (m : LiveMap) (index : Nat) (f : BitVec 64 → BitVec 64) : Option LiveMap := do
  let w ← m.words[index / 64]?
  return ⟨m.words.setIfInBounds (index / 64) (f w)⟩

def mark? (m : LiveMap) (index : Nat) : Option LiveMap :=
  m.rewrite? index (· ||| 1#64 <<< (index % 64))

def unmark? (m : LiveMap) (index : Nat) : Option LiveMap :=
  m.rewrite? index (· &&& ~~~(1#64 <<< (index % 64)))

def firstWords? (m : LiveMap) (k : Nat) : Option (List (BitVec 64)) :=
  if k ≤ markWords then some (m.words.toList.take k) else none

/-- Whole words are counted first, and one more word is read only when some of its bits count. -/
def countMarked? (m : LiveMap) (count : Nat) : Option Nat := do
  let full ← m.firstWords? (count / 64)
  let total := full.foldl (fun total w => total + setBits w) 0
  if count % 64 = 0 then return total
  let last ← m.words[count / 64]?
  return total + setBits (last &&& (1#64 <<< (count % 64) - 1#64))

def wordsFor? (m : LiveMap) (count : Nat) : Option (List (BitVec 64)) :=
  m.firstWords? ((count + 63) / 64)

def wordFault (index : Nat) : Fault := .abort (.word (index / 64) markWords)

def wordsFault (k : Nat) : Fault := .abort (.words k markWords)

def countFault (count : Nat) : Fault :=
  if count / 64 ≤ markWords then wordFault count else wordsFault (count / 64)

theorem word_setIfInBounds (m : LiveMap) {i : Nat} (h : i < markWords) (w : BitVec 64) (j : Nat) :
    word ⟨m.words.setIfInBounds i w⟩ j = if i = j then w else m.word j := by
  simp only [word, Vector.getElem?_setIfInBounds, if_pos h]
  split <;> rfl

@[simp] theorem isMarked_empty (index : Nat) : empty.isMarked index = false := by
  simp only [isMarked, word, empty, Vector.getElem?_replicate]
  split <;> simp

theorem isMarked_mark (m : LiveMap) {index : Nat} (h : index / 64 < markWords) (other : Nat) :
    (m.mark index).isMarked other = (decide (other = index) || m.isMarked other) := by
  simp only [isMarked, mark, word_setIfInBounds m h]
  split
  next hw =>
    have hb := Nat.mod_lt other (show 64 > 0 by decide)
    by_cases he : other = index
    · simp [he, Nat.mod_lt]
    · have : other % 64 ≠ index % 64 := by omega
      simp [hw, he, hb]
      omega
  next hw =>
    have : other ≠ index := fun he => hw (by rw [he])
    simp [this]

theorem isMarked_unmark (m : LiveMap) {index : Nat} (h : index / 64 < markWords) (other : Nat) :
    (m.unmark index).isMarked other = (!decide (other = index) && m.isMarked other) := by
  simp only [isMarked, unmark, word_setIfInBounds m h]
  split
  next hw =>
    have hb := Nat.mod_lt other (show 64 > 0 by decide)
    by_cases he : other = index
    · simp [he, Nat.mod_lt]
    · have : other % 64 ≠ index % 64 := by omega
      simp [hw, he, hb]
      omega
  next hw =>
    have : other ≠ index := fun he => hw (by rw [he])
    simp [this]

theorem div_lt_markWords {index : Nat} : index / 64 < markWords ↔ index < capacity :=
  Nat.div_lt_iff_lt_mul (by decide)

theorem getElem?_words (m : LiveMap) (k : Nat) :
    m.words[k]? = if k < markWords then some (m.word k) else none := by
  by_cases hk : k < markWords
  · rw [if_pos hk, word, Vector.getElem?_eq_getElem hk]
    rfl
  · rw [if_neg hk, Vector.getElem?_eq_none (Nat.le_of_not_lt hk)]

theorem getElem?_words_div (m : LiveMap) (index : Nat) :
    m.words[index / 64]? = if index < capacity then some (m.word (index / 64)) else none := by
  rw [getElem?_words]
  simp only [div_lt_markWords]

theorem isMarked?_eq (m : LiveMap) (index : Nat) :
    m.isMarked? index = if index < capacity then some (m.isMarked index) else none := by
  rw [isMarked?, getElem?_words_div]
  by_cases hin : index < capacity
  · rw [if_pos hin, if_pos hin]
    exact congrArg some (and_bit_ne_zero _ (Nat.mod_lt _ (by decide)))
  · rw [if_neg hin, if_neg hin]
    rfl

theorem isMarked?_eq_some_iff {m : LiveMap} {index : Nat} {marked : Bool} :
    m.isMarked? index = some marked ↔ index < capacity ∧ m.isMarked index = marked := by
  rw [isMarked?_eq]
  split <;> simp [*]

theorem lt_of_isMarked {m : LiveMap} {index : Nat} (h : m.isMarked index) : index < capacity := by
  refine Decidable.byContradiction fun hout => ?_
  have hword := m.getElem?_words_div index
  rw [if_neg hout] at hword
  rw [isMarked, word, hword] at h
  simp at h

theorem isMarked?_of_isMarked {m : LiveMap} {index : Nat} (h : m.isMarked index) :
    m.isMarked? index = some true :=
  isMarked?_eq_some_iff.2 ⟨lt_of_isMarked h, h⟩

theorem rewrite?_eq (m : LiveMap) (index : Nat) (f : BitVec 64 → BitVec 64) :
    m.rewrite? index f = if index < capacity then
      some ⟨m.words.setIfInBounds (index / 64) (f (m.word (index / 64)))⟩ else none := by
  rw [rewrite?, getElem?_words_div]
  by_cases hin : index < capacity
  · rw [if_pos hin, if_pos hin]
    rfl
  · rw [if_neg hin, if_neg hin]
    rfl

theorem mark?_eq (m : LiveMap) (index : Nat) :
    m.mark? index = if index < capacity then some (m.mark index) else none :=
  m.rewrite?_eq index _

theorem unmark?_eq (m : LiveMap) (index : Nat) :
    m.unmark? index = if index < capacity then some (m.unmark index) else none :=
  m.rewrite?_eq index _

theorem mark?_of_lt (m : LiveMap) {index : Nat} (h : index < capacity) :
    m.mark? index = some (m.mark index) := by
  rw [mark?_eq, if_pos h]

theorem unmark?_of_lt (m : LiveMap) {index : Nat} (h : index < capacity) :
    m.unmark? index = some (m.unmark index) := by
  rw [unmark?_eq, if_pos h]

end LiveMap

end BoundaryHeap
