import BoundaryHeap.Layout

namespace BoundaryHeap

@[simp] abbrev nilWord : UInt32 := 0xFFFFFFFF

def linkWord : Option Nat → UInt32
  | none => nilWord
  | some c => UInt32.ofNat c

def linkOfWord (w : UInt32) : Option Nat :=
  if w = nilWord then none else some w.toNat

/-- The two lists of a bin: chunks that have no clean neighbour, and chunks not yet looked at. -/
inductive Kind where
  | clean
  | dirty
  deriving DecidableEq, Repr

/-- A list of the table. -/
structure ListId where
  bin : Fin binCount
  kind : Kind
  deriving DecidableEq, Repr

namespace ListId

/-- The chunks released last, the latest in front. -/
def recent : ListId := ⟨0, .dirty⟩

/-- The tail of the chunk that was cut last. -/
def remainder : ListId := ⟨0, .clean⟩

/-- The clean list of a bin. -/
def clean (bin : Fin binCount) : ListId := ⟨bin, .clean⟩

/-- The dirty list of a bin. -/
def dirty (bin : Fin binCount) : ListId := ⟨bin, .dirty⟩

def index (l : ListId) : Nat :=
  2 * l.bin + match l.kind with | .clean => 0 | .dirty => 1

def ofIndex? (i : Nat) : Option ListId :=
  if h : i / 2 < binCount then some ⟨⟨i / 2, h⟩, if i % 2 = 0 then .clean else .dirty⟩ else none

def bins : List (Fin binCount) := (List.finRange binCount).tail

def all : List ListId :=
  [recent, remainder] ++ bins.flatMap fun b => [clean b, dirty b]

theorem index_lt (l : ListId) : l.index < 2 * binCount := by
  have h := l.bin.isLt
  unfold index
  cases l.kind <;> simp only [binCount] at * <;> omega

theorem ofIndex?_index (l : ListId) : ofIndex? l.index = some l := by
  obtain ⟨bin, kind⟩ := l
  have half : index ⟨bin, kind⟩ / 2 = bin := by
    unfold index
    cases kind <;> simp only <;> omega
  simp only [ofIndex?, half, bin.isLt, dite_true, Option.some.injEq, mk.injEq, true_and]
  cases kind <;> simp [index]

theorem index_of_ofIndex? {i : Nat} {l : ListId} (h : ofIndex? i = some l) : l.index = i := by
  simp only [ofIndex?] at h
  split at h
  · simp only [Option.some.injEq] at h
    subst h
    by_cases hi : i % 2 = 0 <;> simp only [index, hi, if_true, if_false] <;> omega
  · simp at h

end ListId

/-- The field that refers to a listed chunk: the head of its list or the link of the chunk before. -/
inductive Referrer where
  | head (list : ListId)
  | next (chunk : Nat)
  deriving DecidableEq, Repr

namespace Referrer

/-- Words with the top bit set name heads of lists. -/
@[simp] abbrev headFlag : Nat := 0x80000000

def encode : Referrer → UInt32
  | head l => UInt32.ofNat (headFlag + l.index)
  | next c => UInt32.ofNat c

def decode (w : UInt32) : Option Referrer :=
  if w.toNat < headFlag then some (next w.toNat)
  else (ListId.ofIndex? (w.toNat - headFlag)).map head

theorem decode_encode_head (l : ListId) : decode (head l).encode = some (head l) := by
  have h := l.index_lt
  simp only [binCount] at h
  have hw : (UInt32.ofNat (headFlag + l.index)).toNat = headFlag + l.index := by
    rw [UInt32.toNat_ofNat']; simp only [headFlag]; omega
  rw [decode, encode, hw, if_neg (by omega), Nat.add_sub_cancel_left, ListId.ofIndex?_index]
  rfl

theorem decode_encode_next {c : Nat} (h : c < headFlag) :
    decode (next c).encode = some (next c) := by
  have hw : (UInt32.ofNat c).toNat = c := by
    rw [UInt32.toNat_ofNat']; simp only [headFlag] at h; omega
  rw [decode, encode, hw, if_pos h]

theorem encode_decode {w : UInt32} {f : Referrer} (h : decode w = some f) : f.encode = w := by
  simp only [decode] at h
  split at h
  · obtain rfl := Option.some.inj h
    simp [encode]
  · obtain ⟨l, hl, rfl⟩ := Option.map_eq_some_iff.1 h
    have hi := ListId.index_of_ofIndex? hl
    simp only [encode, hi]
    rw [Nat.add_sub_of_le (by omega), UInt32.ofNat_toNat]

@[simp] theorem decode_nilWord : decode nilWord = none := by decide

end Referrer

end BoundaryHeap
