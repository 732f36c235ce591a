import BoundaryHeap.Proofs.Links
import Mathlib.Data.List.Sort

namespace BoundaryHeap

open Region (Changed linkBytesOf)

namespace Filing

def list (f : Filing) (size : Nat) : ListId :=
  match f with
  | .dirty => .dirty (sizeClass size)
  | .clean => .clean (sizeClass size)
  | .recent => .recent
  | .remainder => .remainder

def place (f : Filing) (c : Nat) (xs : List Nat) : List Nat :=
  match f with
  | .dirty | .clean => xs.orderedInsert (· < ·) c
  | .recent | .remainder => c :: xs

/-- How many chunks of a list a walk to the place of a new one may pass. -/
def passed (f : Filing) (xs : List Nat) : Nat :=
  match f with
  | .dirty | .clean => xs.length + 1
  | .recent | .remainder => 0

theorem list_ne_remainder {filing : Filing} (h : filing ≠ .remainder) (size : Nat) :
    filing.list size ≠ .remainder := by
  intro he
  have hpos := sizeClass_pos size
  cases filing with
  | dirty => exact Kind.noConfusion (congrArg ListId.kind he)
  | clean =>
    have hbin : (sizeClass size).val = 0 := congrArg (fun l => l.bin.val) he
    omega
  | recent => exact Kind.noConfusion (congrArg ListId.kind he)
  | remainder => exact h rfl

theorem place_eq (f : Filing) (c : Nat) (xs : List Nat) :
    ∃ ys zs, xs = ys ++ zs ∧ f.place c xs = ys ++ c :: zs := by
  have hsplit : ∀ p : Nat → Bool, xs = xs.takeWhile p ++ xs.dropWhile p :=
    fun p => (List.takeWhile_append_dropWhile ..).symm
  cases f with
  | dirty => exact ⟨_, _, hsplit _, List.orderedInsert_eq_take_drop ..⟩
  | clean => exact ⟨_, _, hsplit _, List.orderedInsert_eq_take_drop ..⟩
  | recent => exact ⟨[], xs, rfl, rfl⟩
  | remainder => exact ⟨[], xs, rfl, rfl⟩

theorem mem_place {f : Filing} {c d : Nat} {xs : List Nat} :
    d ∈ f.place c xs ↔ d = c ∨ d ∈ xs := by
  obtain ⟨ys, zs, rfl, he⟩ := f.place_eq c xs
  rw [he]
  simp only [List.mem_append, List.mem_cons]
  tauto

end Filing

def Lists.filed (L : Lists) (c size : Nat) (f : Filing) : Lists :=
  Function.update L (f.list size) (f.place c (L (f.list size)))

namespace Lists

variable {L : Lists} {c size : Nat} {f : Filing}

@[simp] theorem filed_same : L.filed c size f (f.list size) = f.place c (L (f.list size)) :=
  Function.update_self ..

theorem filed_remainder : L.filed c size .remainder .remainder = c :: L .remainder :=
  filed_same (L := L) (c := c) (f := .remainder)

theorem filed_recent : L.filed c size .recent .recent = c :: L .recent :=
  filed_same (L := L) (c := c) (f := .recent)

theorem filed_ne {l : ListId} (h : l ≠ f.list size) : L.filed c size f l = L l :=
  Function.update_of_ne h ..

theorem mem_filed {l : ListId} {d : Nat} :
    d ∈ L.filed c size f l ↔ d ∈ L l ∨ (d = c ∧ l = f.list size) := by
  by_cases he : l = f.list size
  · subst he
    rw [filed_same, Filing.mem_place]
    tauto
  · rw [filed_ne he]
    tauto

/-- Filing a chunk and taking it off again leaves the lists as they were. -/
theorem without_filed (hfresh : ∀ l, c ∉ L l) (f : Filing) :
    (L.filed c size f).without c = L := by
  have hsame (xs : List Nat) (hxs : c ∉ xs) : xs.filter (· ≠ c) = xs := by
    apply List.filter_eq_self.2
    intro d hd
    exact decide_eq_true (ne_of_mem_of_not_mem hd hxs)
  funext l
  rw [without]
  by_cases he : l = f.list size
  · subst he
    obtain ⟨xs, ys, hl, hplace⟩ := f.place_eq c (L (f.list size))
    have hnot := hfresh (f.list size)
    rw [hl, List.mem_append, not_or] at hnot
    have hgone : (c :: ys).filter (· ≠ c) = ys.filter (· ≠ c) := by simp
    rw [filed_same, hplace, List.filter_append, hgone, hsame xs hnot.1, hsame ys hnot.2, hl]
  · rw [filed_ne he, hsame _ (hfresh l)]

end Lists

namespace Store

variable {s t : Store} {L : Lists}

theorem Threads.placeOf {g : Referrer} {xs : List Nat} (h : s.Threads g xs)
    (hheld : ∀ d ∈ xs, s.region.Holds d) (c : Nat) {fuel : Nat} (hfuel : xs.length < fuel) :
    placeOf c fuel g xs.head? s = .ok (g.along (xs.takeWhile fun d => ¬c < d)) s := by
  induction xs generalizing g fuel with
  | nil =>
    cases fuel with
    | zero => exact absurd hfuel (Nat.not_lt_zero _)
    | succ fuel => rfl
  | cons d rest ih =>
    cases fuel with
    | zero => exact absurd hfuel (Nat.not_lt_zero _)
    | succ fuel =>
      obtain ⟨-, -, hrest⟩ := h
      have hd := hheld d (by simp)
      have hnext : s.region.nextOf d = .ok rest.head? :=
        (Region.nextOf_eq hd.1 hd.2).trans (congrArg Except.ok hrest.head)
      rw [List.length_cons] at hfuel
      simp only [List.head?_cons, Store.placeOf]
      by_cases hcd : c < d
      · rw [if_pos hcd, List.takeWhile_cons_of_neg (by simpa using hcd)]
        rfl
      · rw [if_neg hcd, List.takeWhile_cons_of_pos (by simpa using hcd), Referrer.along_cons,
          bind_ok (reading_eq hnext)]
        exact ih hrest (fun e he => hheld e (List.mem_cons_of_mem _ he)) (by omega)

theorem Linked.insertOrdered (h : s.Linked L) {l : ListId} {c fuel : Nat} (hc : s.region.Holds c)
    (hfresh : ∀ l, c ∉ L l) (hfuel : (L l).length < fuel) :
    ∃ t, Store.insertOrdered fuel l c s = .ok () t ∧
      t.Linked (Function.update L l ((L l).orderedInsert (· < ·) c)) ∧
      ∃ xs ys, L l = xs ++ ys ∧ (L l).orderedInsert (· < ·) c = xs ++ c :: ys ∧
        Changed (linkBytesOf ({c} ∪ {d | xs.getLast? = some d ∨ ys.head? = some d})) s.region
          t.region := by
  have hplace := List.orderedInsert_eq_take_drop (· < ·) c (L l)
  have hsplit := (List.takeWhile_append_dropWhile (l := L l) (p := fun d => ¬c < d)).symm
  obtain ⟨t, hrun, hlinked, hchanged⟩ := h.insertAt hsplit hc hfresh
  have hthreads := h.threads l
  have hwalk := hthreads.placeOf (fun d hd => h.holds hd) c hfuel
  have hhead : head l s = .ok (L l).head? s :=
    congrArg (EStateM.Result.ok · s) hthreads.head
  refine ⟨t, ?_, hplace ▸ hlinked, _, _, hsplit, hplace, hchanged⟩
  rw [Store.insertOrdered, bind_ok hhead, bind_ok hwalk]
  exact hrun

theorem file_eq {c : Nat} (hc : s.region.Holds c) (hnil : s.referrerAt c = nilWord)
    (fuel size : Nat) (f : Filing) (hempty : f = .remainder → s.heads.get .remainder = none) :
    file fuel c size f s =
      match f with
      | .dirty | .clean => insertOrdered fuel (f.list size) c s
      | .recent | .remainder => insertAt (.head (f.list size)) c s := by
  have hword : s.region.referrerWord c = .ok nilWord :=
    (Region.referrerWord_eq hc.1 hc.2).trans (congrArg Except.ok hnil)
  unfold file
  rw [bind_ok (reading_eq hword), bind_ok (check_eq rfl _)]
  cases f with
  | dirty => rfl
  | clean => rfl
  | recent => rfl
  | remainder =>
    have hhead : head .remainder s = .ok none s :=
      congrArg (EStateM.Result.ok · s) (hempty rfl)
    simp only
    rw [bind_ok hhead, bind_ok (check_eq rfl _)]
    rfl

theorem Linked.file (h : s.Linked L) {c : Nat} (hc : s.region.Holds c) (hfresh : ∀ l, c ∉ L l)
    (hnil : s.referrerAt c = nilWord) {fuel size : Nat} {f : Filing}
    (hfuel : f.passed (L (f.list size)) ≤ fuel) (hempty : f = .remainder → L .remainder = []) :
    ∃ t, Store.file fuel c size f s = .ok () t ∧ t.Linked (L.filed c size f) ∧
      ∃ xs ys, L (f.list size) = xs ++ ys ∧ f.place c (L (f.list size)) = xs ++ c :: ys ∧
        Changed (linkBytesOf ({c} ∪ {d | xs.getLast? = some d ∨ ys.head? = some d})) s.region
          t.region := by
  have hhead : f = .remainder → s.heads.get .remainder = none := by
    intro hf
    have hthreads := (h.threads .remainder).head
    rw [hempty hf] at hthreads
    exact hthreads
  have hall : L (f.list size) = [] ++ L (f.list size) := rfl
  have hfront := h.insertAt hall hc hfresh
  rw [file_eq hc hnil fuel size f hhead]
  cases f with
  | dirty => exact h.insertOrdered hc hfresh hfuel
  | clean => exact h.insertOrdered hc hfresh hfuel
  | recent =>
    obtain ⟨t, hrun, hlinked, hchanged⟩ := hfront
    exact ⟨t, hrun, hlinked, [], _, rfl, rfl, hchanged⟩
  | remainder =>
    obtain ⟨t, hrun, hlinked, hchanged⟩ := hfront
    exact ⟨t, hrun, hlinked, [], _, rfl, rfl, hchanged⟩

theorem Linked.head (h : s.Linked L) (l : ListId) : Store.head l s = .ok (L l).head? s :=
  congrArg (EStateM.Result.ok · s) (h.threads l).head

end Store

end BoundaryHeap
