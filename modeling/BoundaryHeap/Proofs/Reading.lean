import BoundaryHeap.Text.Numeral
import Mathlib.Data.List.Basic

namespace BoundaryHeap.Text

def digit? (c : Char) : Option Nat :=
  "0123456789abcdef".toList.idxOf? c

def numeralFrom? (b n : Nat) (digits : List Char) : Option Nat :=
  digits.foldlM (fun n c => ((digit? c).filter (· < b)).map (b * n + ·)) n

def numeral? (b : Nat) (digits : List Char) : Option Nat :=
  if digits = [] then none else numeralFrom? b 0 digits

/-- The number that a hexadecimal numeral with its radix mark stands for. -/
def hexNumeral? : List Char → Option Nat
  | '0' :: 'x' :: digits => numeral? 16 digits
  | _ => none

def words (line : List Char) : List (List Char) :=
  (line.splitOn ' ').filter (· ≠ [])

def linesOf (text : List Char) : List (List Char) :=
  (text.splitOn '\n').dropLast

/-- The line begins with a blank. -/
def indented (line : List Char) : Bool :=
  line.head? == some ' '

def linesUnder (title : List Char) (lines : List (List Char)) : List (List Char) :=
  (lines.dropWhile (· ≠ title)).tail.takeWhile indented

/-- A word: no blank and no line feed. -/
structure Solid (word : List Char) : Prop where
  ne_nil : word ≠ []
  no_blank : ' ' ∉ word
  no_feed : '\n' ∉ word

/-- A piece of a line that has these words. -/
structure Piece (s : String) (entries : List (List Char)) : Prop where
  words : words s.toList = entries
  no_feed : '\n' ∉ s.toList

/-- An indented line that has these words. -/
structure Row (line : String) (entries : List (List Char)) : Prop extends Piece line entries where
  indented : indented line.toList = true

variable {b n : Nat} {c : Char} {word line title : List Char} {lines : List (List Char)}

theorem digit?_digitChar (h : n < 16) : digit? (Nat.digitChar n) = some n := by
  have hall : ∀ n < 16, digit? (Nat.digitChar n) = some n := by decide
  exact hall n h

theorem numeralFrom?_append (m : Nat) (front back : List Char) :
    numeralFrom? b m (front ++ back) = (numeralFrom? b m front).bind (numeralFrom? b · back) :=
  List.foldlM_append

theorem numeralFrom?_digit (m : Nat) (hn : n < b) (hb : b ≤ 16) :
    numeralFrom? b m [Nat.digitChar n] = some (b * m + n) := by
  have hfilter : (digit? (Nat.digitChar n)).filter (· < b) = some n := by
    rw [digit?_digitChar (Nat.lt_of_lt_of_le hn hb), Option.filter_some, if_pos (decide_eq_true hn)]
  rw [numeralFrom?, List.foldlM_cons, hfilter]
  rfl

theorem numeral?_toDigits (hb : 1 < b) (hb' : b ≤ 16) (n : Nat) :
    numeral? b (Nat.toDigits b n) = some n := by
  rw [numeral?, if_neg Nat.toDigits_ne_nil]
  induction n using Nat.strongRecOn with
  | ind n ih =>
    rw [Nat.toDigits_eq_if hb]
    split
    next hlt => rw [numeralFrom?_digit 0 hlt hb', Nat.mul_zero, Nat.zero_add]
    next hge =>
      have hless : n / b < n := Nat.div_lt_self (by omega) hb
      rw [numeralFrom?_append, ih _ hless, Option.bind_some,
        numeralFrom?_digit _ (Nat.mod_lt _ (by omega)) hb', Nat.div_add_mod]

theorem numeral?_decimal (n : Nat) : numeral? 10 (Nat.toDigits 10 n) = some n :=
  numeral?_toDigits (by decide) (by decide) n

@[simp] theorem toList_hex (n : Nat) : (hex n).toList = '0' :: 'x' :: Nat.toDigits 16 n := by
  simp only [hex, hexDigits, String.toList_append, String.toList_ofList, String.reduceToList,
    List.cons_append, List.nil_append]

theorem hexNumeral?_hex (n : Nat) : hexNumeral? (hex n).toList = some n := by
  rw [toList_hex]
  exact numeral?_toDigits (by decide) (by decide) n

theorem mem_toDigits (hb : 1 < b) (hc : c ∈ Nat.toDigits b n) : ∃ d, c = Nat.digitChar d := by
  induction n using Nat.strongRecOn with
  | ind n ih =>
    rw [Nat.toDigits_eq_if hb] at hc
    split at hc
    next => exact ⟨n, List.mem_singleton.1 hc⟩
    next hge =>
      rcases List.mem_append.1 hc with hfront | hlast
      · exact ih _ (Nat.div_lt_self (by omega) hb) hfront
      · exact ⟨n % b, List.mem_singleton.1 hlast⟩

theorem solid_toDigits (hb : 1 < b) (n : Nat) : Solid (Nat.toDigits b n) where
  ne_nil := Nat.toDigits_ne_nil
  no_blank hc := by
    obtain ⟨d, hd⟩ := mem_toDigits hb hc
    exact Nat.digitChar_ne ' ' (by decide) hd.symm
  no_feed hc := by
    obtain ⟨d, hd⟩ := mem_toDigits hb hc
    exact Nat.digitChar_ne '\n' (by decide) hd.symm

theorem Solid.append {front back : List Char} (hfront : Solid front) (hback : Solid back) :
    Solid (front ++ back) where
  ne_nil := List.append_ne_nil_of_left_ne_nil hfront.ne_nil back
  no_blank := List.not_mem_append hfront.no_blank hback.no_blank
  no_feed := List.not_mem_append hfront.no_feed hback.no_feed

theorem solid_hex (n : Nat) : Solid (hex n).toList := by
  have hradix : Solid ['0', 'x'] := ⟨by decide, by decide, by decide⟩
  rw [toList_hex]
  exact hradix.append (solid_toDigits (by decide) n)

@[simp] theorem words_nil : words [] = [] := by
  rw [words, List.splitOn_nil]
  rfl

theorem words_append_blank (front back : List Char) :
    words (front ++ ' ' :: back) = words front ++ words back := by
  rw [words, List.splitOn, List.splitOnP_append_cons front back rfl, List.filter_append]
  rfl

theorem words_blank (line : List Char) : words (' ' :: line) = words line :=
  words_append_blank [] line

theorem Solid.words (h : Solid word) : words word = [word] := by
  have hsplit : word.splitOn ' ' = [word] := by
    apply List.splitOnP_eq_singleton
    intro c hc
    exact beq_false_of_ne fun he => h.no_blank (he ▸ hc)
  rw [Text.words, hsplit, List.filter_cons_of_pos (by simpa using h.ne_nil), List.filter_nil]

theorem words_blanks_append (k : Nat) (line : List Char) :
    words (List.replicate k ' ' ++ line) = words line := by
  induction k with
  | zero => rfl
  | succ k ih => rw [List.replicate_succ, List.cons_append, words_blank, ih]

theorem words_append_blanks (k : Nat) (line : List Char) :
    words (line ++ List.replicate k ' ') = words line := by
  induction k with
  | zero => rw [List.replicate_zero, List.append_nil]
  | succ k ih =>
    rw [List.replicate_succ', ← List.append_assoc, words_append_blank, ih, words_nil,
      List.append_nil]

section

variable {s t : String} {entries entries' : List (List Char)}

theorem no_feed_append : '\n' ∉ (s ++ t).toList ↔ '\n' ∉ s.toList ∧ '\n' ∉ t.toList := by
  rw [String.toList_append, List.mem_append, not_or]

theorem no_feed_blanks (k : Nat) : '\n' ∉ (String.ofList (List.replicate k ' ')).toList := by
  rw [String.toList_ofList]
  intro hc
  exact absurd (List.eq_of_mem_replicate hc) (by decide)

theorem Solid.piece (h : Solid word) (hs : s.toList = word) : Piece s [word] := by
  subst hs
  exact ⟨h.words, h.no_feed⟩

theorem piece_hex (n : Nat) : Piece (hex n) [(hex n).toList] :=
  (solid_hex n).piece rfl

theorem piece_toString (n : Nat) : Piece (toString n) [Nat.toDigits 10 n] :=
  (solid_toDigits (by decide) n).piece Nat.toList_repr

theorem Piece.padLeft (h : Piece s entries) (width : Nat) : Piece (padLeft width s) entries where
  words := by
    rw [Text.padLeft, String.toList_append, String.toList_ofList, words_blanks_append, h.words]
  no_feed := no_feed_append.2 ⟨no_feed_blanks _, h.no_feed⟩

theorem Piece.padRight (h : Piece s entries) (width : Nat) : Piece (padRight width s) entries where
  words := by
    rw [Text.padRight, String.toList_append, String.toList_ofList, words_append_blanks, h.words]
  no_feed := no_feed_append.2 ⟨h.no_feed, no_feed_blanks _⟩

theorem toList_append_append (s t : String) :
    (s ++ " " ++ t).toList = s.toList ++ ' ' :: t.toList := by
  simp only [String.toList_append, String.reduceToList, List.append_assoc, List.singleton_append]

theorem Piece.append (h : Piece s entries) (h' : Piece t entries') :
    Piece (s ++ " " ++ t) (entries ++ entries') where
  words := by rw [toList_append_append, words_append_blank, h.words, h'.words]
  no_feed := no_feed_append.2 ⟨no_feed_append.2 ⟨h.no_feed, by decide⟩, h'.no_feed⟩

theorem Piece.row (h : Piece s entries) : Row ("  " ++ s) entries := by
  have hlist : ("  " ++ s).toList = ' ' :: ' ' :: s.toList := by
    simp only [String.toList_append, String.reduceToList, List.cons_append, List.nil_append]
  refine ⟨⟨?_, no_feed_append.2 ⟨by decide, h.no_feed⟩⟩, ?_⟩
  · rw [hlist, words_blank, words_blank, h.words]
  · rw [hlist]
    rfl

theorem Row.append (h : Row s entries) (h' : Piece t entries') :
    Row (s ++ " " ++ t) (entries ++ entries') where
  toPiece := h.toPiece.append h'
  indented := by
    have hhead := h.indented
    rw [toList_append_append, Text.indented, List.head?_append]
    rw [Text.indented, beq_iff_eq] at hhead
    rw [hhead]
    rfl

end

theorem linesOf_append {line : List Char} (h : '\n' ∉ line) (rest : List Char) :
    linesOf (line ++ '\n' :: rest) = line :: linesOf rest := by
  have hsplit : (line ++ '\n' :: rest).splitOn '\n' = line :: rest.splitOn '\n' := by
    apply List.splitOnP_append_cons_of_forall_mem _ _ rfl
    intro c hc
    exact beq_false_of_ne fun he => h (he ▸ hc)
  rw [linesOf, hsplit, List.dropLast_cons_of_ne_nil (List.splitOn_ne_nil _ _), linesOf]

/-- The lines that were put together are found again. -/
theorem linesOf_join {lines : List String} (h : ∀ l ∈ lines, '\n' ∉ l.toList) :
    linesOf (String.join (lines.map (· ++ "\n"))).toList = lines.map String.toList := by
  rw [String.toList_join, List.flatMap_map]
  induction lines with
  | nil => rfl
  | cons l rest ih =>
    have hline : (l ++ "\n").toList = l.toList ++ ['\n'] := String.toList_append
    rw [List.flatMap_cons, hline, List.append_assoc, List.singleton_append,
      linesOf_append (h l (List.mem_cons_self ..)),
      ih fun l' hl' => h l' (List.mem_cons_of_mem _ hl'), List.map_cons]

theorem linesUnder_append {front : List (List Char)} (h : title ∉ front) :
    linesUnder title (front ++ lines) = linesUnder title lines := by
  rw [linesUnder, List.dropWhile_append_of_pos]
  · rfl
  · intro line hline
    exact decide_eq_true fun he => h (he ▸ hline)

theorem linesUnder_cons_of_ne (h : title ≠ line) :
    linesUnder title (line :: lines) = linesUnder title lines := by
  rw [← List.singleton_append, linesUnder_append]
  exact List.not_mem_cons_of_ne_of_not_mem h List.not_mem_nil

/-- A section is the rows up to the next title. -/
theorem linesUnder_title {rows rest : List (List Char)} (hrows : ∀ row ∈ rows, indented row = true)
    (hrest : ∀ line ∈ rest.head?, indented line = false) :
    linesUnder title (title :: (rows ++ rest)) = rows := by
  have hdrop : (title :: (rows ++ rest)).dropWhile (· ≠ title) = title :: (rows ++ rest) :=
    List.dropWhile_cons_of_neg (by simp)
  rw [linesUnder, hdrop, List.tail_cons, List.takeWhile_append_of_pos hrows]
  cases rest with
  | nil => exact List.append_nil rows
  | cons line rest =>
    rw [List.takeWhile_cons_of_neg, List.append_nil]
    rw [hrest line rfl]
    exact Bool.false_ne_true

theorem not_mem_of_indented {rows : List (List Char)} (hrows : ∀ row ∈ rows, indented row = true)
    (htitle : indented title = false) : title ∉ rows := by
  intro hmem
  rw [hrows title hmem] at htitle
  cases htitle

theorem mapM_map_of_read {α β γ : Type} {f : α → γ} {read : γ → Option β} {g : α → β} {xs : List α}
    (h : ∀ x ∈ xs, read (f x) = some (g x)) : (xs.map f).mapM read = some (xs.map g) := by
  induction xs with
  | nil => rfl
  | cons x rest ih =>
    rw [List.map_cons, List.mapM_cons, h x (List.mem_cons_self ..),
      ih fun y hy => h y (List.mem_cons_of_mem _ hy)]
    rfl

theorem mapM_flatMap_of_read {α β γ : Type} {f : α → List γ} {read : γ → Option β} {g : α → List β}
    {xs : List α} (h : ∀ x ∈ xs, (f x).mapM read = some (g x)) :
    (xs.flatMap f).mapM read = some (xs.flatMap g) := by
  induction xs with
  | nil => rfl
  | cons x rest ih =>
    rw [List.flatMap_cons, List.mapM_append, h x (List.mem_cons_self ..),
      ih fun y hy => h y (List.mem_cons_of_mem _ hy)]
    rfl

end BoundaryHeap.Text
