import BoundaryHeap.Proofs.Merging

namespace BoundaryHeap

namespace Shape

variable {A : Shape} {c : Nat} {rest ys : List Nat} {l : ListId} {bin : Fin binCount}

def demote (A : Shape) (c : Nat) : Shape :=
  (A.unlist c).file c .dirty

/-- All recent chunks become dirty. -/
def flush (A : Shape) : Shape :=
  (A.lists .recent).foldl demote A

theorem Settled.demote (h : A.Settled) (hc : A.Listed c) : (A.demote c).Settled := by
  have hfile := (h.take hc).file_dirty (f := .dirty) rfl fun _ => rfl
  rw [Set.sdiff_self] at hfile
  exact hfile

theorem Valid.lists_unlist_head (h : A.Valid) (hl : A.lists l = c :: rest) :
    (A.unlist c).lists l = rest := by
  have hl' : A.lists l = [] ++ c :: rest := hl
  exact h.distinct.without_at hl'

theorem recent_ne_dirty (size : Nat) : ListId.recent ≠ Filing.dirty.list size := by
  intro he
  have hbin : (0 : Nat) = (sizeClass size).val := congrArg (fun l => l.bin.val) he
  have hpos := sizeClass_pos size
  omega

theorem Valid.recent_demote (h : A.Valid) (hl : A.lists .recent = c :: rest) :
    (A.demote c).lists .recent = rest := by
  rw [Shape.demote, lists_file, Lists.filed_ne (recent_ne_dirty _)]
  exact h.lists_unlist_head hl

theorem Settled.demoteAll {xs : List Nat} (h : A.Settled) (hl : A.lists .recent = xs ++ ys) :
    (xs.foldl Shape.demote A).Settled ∧ (xs.foldl Shape.demote A).lists .recent = ys := by
  induction xs generalizing A with
  | nil => exact ⟨h, hl⟩
  | cons c rest ih =>
    have hlisted : A.Listed c := ⟨.recent, by simp [hl]⟩
    exact ih (h.demote hlisted) (h.valid.recent_demote hl)

theorem Settled.flush (h : A.Settled) : A.flush.Settled :=
  (h.demoteAll (List.append_nil _).symm).1

theorem Settled.recent_flush (h : A.Settled) : A.flush.lists .recent = [] :=
  (h.demoteAll (List.append_nil _).symm).2

theorem len_demoteAll (xs : List Nat) : (xs.foldl demote A).len = A.len := by
  induction xs generalizing A with
  | nil => rfl
  | cons c rest ih => exact ih

theorem length_merge_head (hl : A.lists l = c :: rest) (hkind : l.kind = .dirty) :
    (((A.unlist c).mergeAround c).lists l).length < (A.lists l).length := by
  have hle := (lists_mergeAround_sublist (A := A.unlist c) (c := c) hkind).length_le
  have hlt : ((A.unlist c).lists l).length < (A.lists l).length := by
    apply List.length_filter_lt_length_iff_exists.2
    exact ⟨c, by simp [hl], by simp⟩
  exact Nat.lt_of_le_of_lt hle hlt

/-- Merges every chunk of a dirty list with its neighbours and counts how many were taken off. -/
def drain (A : Shape) (bin : Fin binCount) : Nat × Shape :=
  match hl : A.lists (.dirty bin) with
  | [] => (0, A)
  | c :: _ =>
    let tail := drain ((A.unlist c).mergeAround c) bin
    (tail.1 + 1, tail.2)
termination_by (A.lists (.dirty bin)).length
decreasing_by exact length_merge_head hl rfl

def drainAll (A : Shape) : List (Fin binCount) → Nat × Shape
  | [] => (0, A)
  | bin :: bins =>
    let tail := drainAll (A.drain bin).2 bins
    ((A.drain bin).1 + tail.1, tail.2)

/-- All free space is merged. -/
def mergeAll (A : Shape) : Shape :=
  (A.flush.drainAll ListId.bins).2

theorem drain_nil (hl : A.lists (.dirty bin) = []) : A.drain bin = (0, A) := by
  rw [drain]
  split
  next => rfl
  next hl' =>
    rw [hl] at hl'
    cases hl'

theorem drain_cons (hl : A.lists (.dirty bin) = c :: rest) :
    A.drain bin = ((((A.unlist c).mergeAround c).drain bin).1 + 1,
      (((A.unlist c).mergeAround c).drain bin).2) := by
  rw [drain]
  split
  next hl' =>
    rw [hl] at hl'
    cases hl'
  next hl' =>
    rw [hl] at hl'
    cases hl'
    rfl

/-- What draining a dirty list keeps: the free chunks are on lists, and no list of chunks not yet
looked at grows. -/
theorem Settled.drain (h : A.Settled) (bin : Fin binCount) :
    (A.drain bin).2.Settled ∧ (A.drain bin).2.lists (.dirty bin) = [] ∧
      (A.drain bin).2.len = A.len ∧
      ∀ l, l.kind = .dirty → ((A.drain bin).2.lists l).Sublist (A.lists l) := by
  induction hn : (A.lists (.dirty bin)).length using Nat.strong_induction_on generalizing A with
  | _ n ih =>
    rcases hl : A.lists (.dirty bin) with _ | ⟨c, rest⟩
    · rw [drain_nil hl]
      exact ⟨h, hl, rfl, fun _ _ => .refl _⟩
    · rw [drain_cons hl]
      have hlisted : A.Listed c := ⟨.dirty bin, by simp [hl]⟩
      have hlt := length_merge_head hl rfl
      rw [hn] at hlt
      obtain ⟨hsettled, hempty, hlen, hsub⟩ := ih _ hlt (h.take hlisted).mergeAround rfl
      refine ⟨hsettled, hempty, hlen.trans len_mergeAround, fun l hkind => ?_⟩
      have hstep := lists_mergeAround_sublist (A := A.unlist c) (c := c) hkind
      exact (hsub l hkind).trans (hstep.trans List.filter_sublist)

theorem Settled.drainAll (h : A.Settled) (bins : List (Fin binCount)) :
    (A.drainAll bins).2.Settled ∧ (∀ bin ∈ bins, (A.drainAll bins).2.lists (.dirty bin) = []) ∧
      (A.drainAll bins).2.len = A.len ∧
      ∀ l, l.kind = .dirty → ((A.drainAll bins).2.lists l).Sublist (A.lists l) := by
  induction bins generalizing A with
  | nil => exact ⟨h, fun bin hbin => (List.not_mem_nil hbin).elim, rfl, fun _ _ => .refl _⟩
  | cons bin bins ih =>
    obtain ⟨hsettled, hempty, hlen, hsub⟩ := h.drain bin
    obtain ⟨hsettled', hempty', hlen', hsub'⟩ := ih hsettled
    refine ⟨hsettled', fun other hother => ?_, hlen'.trans hlen, fun l hkind => ?_⟩
    · rcases List.mem_cons.1 hother with rfl | hother
      · have hnil := hsub' (.dirty other) rfl
        rw [hempty] at hnil
        exact List.sublist_nil.1 hnil
      · exact hempty' other hother
    · exact (hsub' l hkind).trans (hsub l hkind)

theorem mem_bins {bin : Fin binCount} (h : bin ≠ 0) : bin ∈ ListId.bins := by
  have hall : List.finRange binCount = 0 :: ListId.bins := rfl
  have hmem := List.mem_finRange bin
  rw [hall, List.mem_cons] at hmem
  exact hmem.resolve_left h

theorem Settled.mergeAll (h : A.Settled) :
    A.mergeAll.Settled ∧ A.mergeAll.len = A.len ∧ ∀ l, l.kind = .dirty → A.mergeAll.lists l = [] := by
  obtain ⟨hsettled, hempty, hlen, hsub⟩ := h.flush.drainAll ListId.bins
  refine ⟨hsettled, hlen.trans (len_demoteAll _), fun l hkind => ?_⟩
  obtain ⟨bin, kind⟩ := l
  cases hkind
  by_cases hbin : bin = 0
  · subst hbin
    have hnil := hsub .recent rfl
    rw [h.recent_flush] at hnil
    exact List.sublist_nil.1 hnil
  · exact hempty bin (mem_bins hbin)

end Shape

def Store.Merged (s : Store) : Prop :=
  ∀ l, l.kind = .dirty → s.heads.get l = none

theorem Store.Represents.merged {s : Store} {A : Shape} (hs : s.Represents A)
    (hempty : ∀ l, l.kind = .dirty → A.lists l = []) : s.Merged := by
  intro l hl
  have hhead := (hs.threads l).head
  rw [hempty l hl] at hhead
  exact hhead

namespace Store.Relinks

variable {A : Shape} {walk fuel : Nat}

theorem sizeAt {c : Nat} (hA : A.Valid) (hc : A.IsFree c) :
    Relinks (Store.sizeOf c) A (A.sizeAt c) A := by
  obtain ⟨t, ht, -⟩ := hc
  rw [hA.sizeAt_eq ht]
  exact .sizeOf ht

theorem fileDirty {c : Nat} (h : A.Holding {c}) (hwalk : A.len / minChunk < walk) :
    Relinks (Store.file walk c (A.sizeAt c) .dirty) A () (A.file c .dirty) := by
  apply Relinks.file (h.mem_loose rfl) rfl
  · exact h.valid.passed_le hwalk _ _
  · intro he
    cases he

theorem flushRecent {xs : List Nat} (h : A.Settled) (hl : A.lists .recent = xs)
    (hwalk : A.len / minChunk < walk) (hfuel : xs.length < fuel) :
    Relinks (Store.flushRecent walk fuel) A xs.length (xs.foldl Shape.demote A) := by
  induction xs generalizing A fuel with
  | nil =>
    cases fuel with
    | zero => exact absurd hfuel (Nat.not_lt_zero _)
    | succ fuel => exact (takeFirst_nil hl).bind (.pure ..)
  | cons c rest ih =>
    cases fuel with
    | zero => exact absurd hfuel (Nat.not_lt_zero _)
    | succ fuel =>
      have hlisted : A.Listed c := ⟨.recent, by simp [hl]⟩
      have hstep := ih (h.demote hlisted) (h.valid.recent_demote hl) hwalk
        (Nat.lt_of_succ_lt_succ hfuel)
      apply (takeFirst_cons hl).bind
      have hheld := h.take hlisted
      apply (sizeAt hheld.valid (hheld.mem_loose rfl).1).bind
      exact (fileDirty hheld hwalk).bind (hstep.bind (.pure ..))

/-- Flushing the recent cache ends once the fuel exceeds the number of chunks that the region has
room for. -/
theorem flush (h : A.Settled) (hfuel : A.len / minChunk < fuel) :
    Relinks (Store.flushRecent fuel fuel) A (A.lists .recent).length A.flush :=
  flushRecent h rfl hfuel ((h.valid.length_le _).trans_lt hfuel)

end Store.Relinks

namespace Store.Takes

variable {A : Shape} {walk fuel : Nat}

theorem sizeAt {c : Nat} (hA : A.Valid) (hc : A.IsFree c) : Takes (Store.sizeOf c) A (A.sizeAt c) A :=
  (Relinks.sizeAt hA hc).takes

theorem fileDirty {c : Nat} (h : A.Holding {c}) (hwalk : A.len / minChunk < walk) :
    Takes (Store.file walk c (A.sizeAt c) .dirty) A () (A.file c .dirty) :=
  (Relinks.fileDirty h hwalk).takes

theorem drain {bin : Fin binCount} (h : A.Settled) (hwalk : A.len / minChunk < walk)
    (hfuel : (A.lists (.dirty bin)).length < fuel) :
    Takes (Store.drain walk (.dirty bin) fuel) A (A.drain bin).1 (A.drain bin).2 := by
  induction fuel generalizing A with
  | zero => exact absurd hfuel (Nat.not_lt_zero _)
  | succ fuel ih =>
    rcases hl : A.lists (.dirty bin) with _ | ⟨c, rest⟩
    · rw [Shape.drain_nil hl]
      exact (takeFirst_nil hl).bind (.pure ..)
    · rw [Shape.drain_cons hl]
      have hlisted : A.Listed c := ⟨.dirty bin, by simp [hl]⟩
      have hheld := h.take hlisted
      have hlt := Shape.length_merge_head hl rfl
      have hwalk' : ((A.unlist c).mergeAround c).len / minChunk < walk := by
        rw [Shape.len_mergeAround]
        exact hwalk
      have hstep := ih hheld.mergeAround hwalk' (by omega)
      apply (takeFirst_cons hl).bind
      exact (Takes.mergeAround hheld hwalk).bind (hstep.bind (.pure ..))

theorem drainAll (h : A.Settled) (hfuel : A.len / minChunk < fuel) (bins : List (Fin binCount)) :
    Takes (Store.drainAll fuel bins) A (A.drainAll bins).1 (A.drainAll bins).2 := by
  induction bins generalizing A with
  | nil => exact .pure ..
  | cons bin bins ih =>
    obtain ⟨hsettled, -, hlen, -⟩ := h.drain bin
    have hfirst : Takes (Store.drain fuel (.dirty bin) fuel) A (A.drain bin).1 (A.drain bin).2 :=
      drain h hfuel ((h.valid.length_le _).trans_lt hfuel)
    exact hfirst.bind ((ih hsettled (hlen ▸ hfuel)).bind (.pure ..))

theorem mergeAll (h : A.Settled) (hfuel : A.len / minChunk < fuel) :
    Takes (Store.mergeAll fuel) A ((A.lists .recent).length, (A.flush.drainAll ListId.bins).1)
      A.mergeAll := by
  have hflush := (Relinks.flush h hfuel).takes
  have hlen : A.flush.len = A.len := Shape.len_demoteAll _
  have hdrain := drainAll h.flush (hlen ▸ hfuel) ListId.bins
  exact hflush.bind (hdrain.bind (.pure ..))

end Store.Takes

end BoundaryHeap
