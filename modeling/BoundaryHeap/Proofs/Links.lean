import BoundaryHeap.Proofs.Fields
import Mathlib.Data.List.Nodup

namespace BoundaryHeap

open Region (Changed linkBytesOf)

abbrev Lists := ListId → List Nat

namespace Lists

variable {L : Lists}

structure Distinct (L : Lists) : Prop where
  nodup : ∀ l, (L l).Nodup
  only : ∀ {l l' c}, c ∈ L l → c ∈ L l' → l = l'

def without (L : Lists) (c : Nat) : Lists :=
  fun l => (L l).filter (· ≠ c)

theorem mem_without {l : ListId} {c d : Nat} : d ∈ L.without c l ↔ d ∈ L l ∧ d ≠ c := by
  simp [without]

theorem Distinct.without (h : L.Distinct) (c : Nat) : (L.without c).Distinct := by
  refine ⟨fun l => (h.nodup l).filter _, fun hl hl' => ?_⟩
  rw [mem_without] at hl hl'
  exact h.only hl.1 hl'.1

theorem Distinct.without_at (h : L.Distinct) {l : ListId} {c : Nat} {xs ys : List Nat}
    (hl : L l = xs ++ c :: ys) : L.without c l = xs ++ ys := by
  have hnodup := h.nodup l
  rw [hl, List.nodup_append, List.nodup_cons] at hnodup
  obtain ⟨-, ⟨hys, -⟩, hxs⟩ := hnodup
  have hxs' : ∀ d ∈ xs, d ≠ c := fun d hd => hxs d hd c (by simp)
  have hys' : ∀ d ∈ ys, d ≠ c := fun d hd he => hys (he ▸ hd)
  simp only [Lists.without, hl, List.filter_append, List.filter_cons, ne_eq, not_true, decide_false]
  rw [List.filter_eq_self.2 fun d hd => by simpa using hxs' d hd,
    List.filter_eq_self.2 fun d hd => by simpa using hys' d hd]
  rfl

theorem Distinct.without_ne (h : L.Distinct) {l l' : ListId} {c : Nat} (hc : c ∈ L l)
    (hl : l' ≠ l) : L.without c l' = L l' := by
  refine List.filter_eq_self.2 fun d hd => ?_
  have hne : d ≠ c := fun he => hl (h.only (he ▸ hd) hc)
  simpa using hne

theorem Distinct.update (h : L.Distinct) {l : ListId} {c : Nat} {xs ys : List Nat}
    (hl : L l = xs ++ ys) (hc : ∀ l, c ∉ L l) :
    Distinct (Function.update L l (xs ++ c :: ys)) := by
  have hmem : ∀ l' d, d ∈ Function.update L l (xs ++ c :: ys) l' →
      d ∈ L l' ∨ (l' = l ∧ d = c) := by
    intro l' d hd
    by_cases he : l' = l
    · subst he
      rw [Function.update_self] at hd
      simp only [List.mem_append, List.mem_cons] at hd
      rw [hl, List.mem_append]
      tauto
    · rw [Function.update_of_ne he] at hd
      exact .inl hd
  refine ⟨fun l' => ?_, fun {l' l'' d} hd hd' => ?_⟩
  · by_cases he : l' = l
    · subst he
      have hnodup := h.nodup l'
      have hfresh := hc l'
      rw [hl] at hnodup hfresh
      rw [Function.update_self]
      exact List.nodup_middle.2 (List.nodup_cons.2 ⟨hfresh, hnodup⟩)
    · rw [Function.update_of_ne he]
      exact h.nodup l'
  · rcases hmem l' d hd with h1 | ⟨rfl, rfl⟩ <;> rcases hmem l'' d hd' with h2 | ⟨rfl, he⟩
    · exact h.only h1 h2
    · exact absurd (he ▸ h1) (hc l')
    · exact absurd h2 (hc l'')
    · rfl

end Lists

namespace Store

variable {s t : Store} {L : Lists}

/-- From the field `f` on, the links lead along the chunks `xs` and end behind them. -/
def Threads (s : Store) : Referrer → List Nat → Prop
  | f, [] => s.targetAt f = none
  | f, c :: rest =>
    s.targetAt f = some c ∧ s.referrerAt c = f.encode ∧ s.Threads (.next c) rest

theorem Threads.head {f : Referrer} {xs : List Nat} (h : s.Threads f xs) :
    s.targetAt f = xs.head? := by
  cases xs with
  | nil => exact h
  | cons c rest => exact h.1

theorem Threads.drop {f : Referrer} {xs ys : List Nat} (h : s.Threads f (xs ++ ys)) :
    s.Threads (f.along xs) ys := by
  induction xs generalizing f with
  | nil => exact h
  | cons c rest ih =>
    rw [Referrer.along_cons]
    exact ih h.2.2

theorem Threads.congr {f : Referrer} {xs : List Nat} (h : s.Threads f xs)
    (hf : t.targetAt f = s.targetAt f) (ht : ∀ c ∈ xs, t.targetAt (.next c) = s.targetAt (.next c))
    (hr : ∀ c ∈ xs, t.referrerAt c = s.referrerAt c) : t.Threads f xs := by
  induction xs generalizing f with
  | nil => exact hf.trans h
  | cons c rest ih =>
    obtain ⟨h1, h2, h3⟩ := h
    refine ⟨hf.trans h1, (hr c (by simp)).trans h2, ih h3 (ht c (by simp)) ?_ ?_⟩
    · exact fun d hd => ht d (List.mem_cons_of_mem _ hd)
    · exact fun d hd => hr d (List.mem_cons_of_mem _ hd)

theorem Threads.move {f g : Referrer} {xs : List Nat} (h : s.Threads f xs)
    (hg : t.targetAt g = s.targetAt f) (hhead : ∀ c, xs.head? = some c → t.referrerAt c = g.encode)
    (ht : ∀ c ∈ xs, t.targetAt (.next c) = s.targetAt (.next c))
    (hr : ∀ c ∈ xs.tail, t.referrerAt c = s.referrerAt c) : t.Threads g xs := by
  cases xs with
  | nil => exact hg.trans h
  | cons c rest =>
    obtain ⟨h1, -, h3⟩ := h
    refine ⟨hg.trans h1, hhead c rfl, h3.congr (ht c (by simp)) ?_ hr⟩
    exact fun d hd => ht d (List.mem_cons_of_mem _ hd)

theorem Threads.graft {f : Referrer} {xs ys ys' : List Nat} (h : s.Threads f (xs ++ ys))
    (hnodup : xs.Nodup) (hf : ∀ c ∈ xs, f ≠ .next c)
    (ht : ∀ g, g = f ∨ (∃ c ∈ xs, g = .next c) → g ≠ f.along xs → t.targetAt g = s.targetAt g)
    (hr : ∀ c ∈ xs, t.referrerAt c = s.referrerAt c) (htail : t.Threads (f.along xs) ys') :
    t.Threads f (xs ++ ys') := by
  induction xs generalizing f with
  | nil => exact htail
  | cons c rest ih =>
    rw [Referrer.along_cons] at ht htail
    obtain ⟨h1, h2, h3⟩ := h
    rw [List.nodup_cons] at hnodup
    have hlast : f ≠ (Referrer.next c).along rest := by
      rcases (Referrer.next c).along_eq rest with ⟨-, he⟩ | ⟨d, -, hd, he⟩
      · rw [he]
        exact hf c (by simp)
      · rw [he]
        exact hf d (List.mem_cons_of_mem _ hd)
    refine ⟨(ht f (.inl rfl) hlast).trans h1, (hr c (by simp)).trans h2, ?_⟩
    apply ih h3 hnodup.2 ?_ ?_ (fun d hd => hr d (List.mem_cons_of_mem _ hd)) htail
    · rintro d hd he
      cases he
      exact hnodup.1 hd
    · rintro g (rfl | ⟨d, hd, rfl⟩) hne
      · exact ht _ (.inr ⟨c, by simp, rfl⟩) hne
      · exact ht _ (.inr ⟨d, List.mem_cons_of_mem _ hd, rfl⟩) hne

/-- The heads and links spell the lists `L`. -/
structure Linked (s : Store) (L : Lists) : Prop where
  threads : ∀ l, s.Threads (.head l) (L l)
  distinct : L.Distinct
  holds : ∀ {l c}, c ∈ L l → s.region.Holds c
  short : s.region.len ≤ 0x80000000

theorem reading_eq {f : Region → Except Fault α} {a : α} (h : f s.region = .ok a) :
    reading f s = .ok a s := by
  simp only [reading, h]

theorem check_eq {p : Prop} [Decidable p] (h : p) (f : Fault) : check p f s = .ok () s :=
  if_pos h

def detached (s : Store) (f : Referrer) (c : Nat) : Store :=
  (((s.putTarget f (s.targetAt (.next c))).tell f (s.targetAt (.next c))).putTarget (.next c)
    none).putReferrer c nilWord

section Detached

variable {f : Referrer} {c : Nat} (hc : s.region.Holds c) (hf : f.Inside s.region)
  (hnext : ∀ d, s.targetAt (.next c) = some d → s.region.Holds d)

include hc

theorem referrerAt_detached : (s.detached f c).referrerAt c = nilWord :=
  referrerAt_putReferrer_same (by simpa [Region.Holds] using hc) _

include hnext

theorem referrerAt_detached_next {d : Nat} (hd : s.targetAt (.next c) = some d) (hne : d ≠ c) :
    (s.detached f c).referrerAt d = f.encode := by
  have hheld := hnext d hd
  rw [detached, referrerAt_putReferrer_ne hc hheld hne,
    referrerAt_putTarget (f := .next c) (r := s.region) hc hheld, hd]
  exact referrerAt_tell_same (by simpa [Region.Holds] using hheld) f

include hf

theorem referrerAt_detached_ne {d : Nat} (hd : s.region.Holds d) (hne : d ≠ c)
    (hne' : s.targetAt (.next c) ≠ some d) : (s.detached f c).referrerAt d = s.referrerAt d := by
  rw [detached, referrerAt_putReferrer_ne hc hd hne,
    referrerAt_putTarget (f := .next c) (r := s.region) hc hd, referrerAt_tell_ne hnext hd hne']
  exact referrerAt_putTarget hf hd _

theorem targetAt_detached (hshort : s.region.len ≤ 0x80000000) (hne : f ≠ .next c) :
    (s.detached f c).targetAt f = s.targetAt (.next c) := by
  have hlink : Linkable (s.targetAt (.next c)) := by
    intro d hd
    have hend := (hnext d hd).2
    omega
  rw [detached, targetAt_putReferrer hf hc,
    targetAt_putTarget_ne (g := .next c) (q := s.region) hf hc hne, targetAt_tell hf hnext]
  exact targetAt_putTarget_same hf hlink

theorem targetAt_detached_ne {g : Referrer} (hg : g.Inside s.region) (hne : g ≠ f)
    (hne' : g ≠ .next c) : (s.detached f c).targetAt g = s.targetAt g := by
  rw [detached, targetAt_putReferrer hg hc,
    targetAt_putTarget_ne (g := .next c) (q := s.region) hg hc hne', targetAt_tell hg hnext]
  exact targetAt_putTarget_ne hg hf hne _

theorem detach_eq (hshort : s.region.len ≤ 0x80000000) (hr : s.referrerAt c = f.encode)
    (ht : s.targetAt f = some c) : detach c s = .ok () (s.detached f c) := by
  have hword : s.region.referrerOf c = .ok (some f) := by
    rw [Region.referrerOf_eq hc.1 hc.2]
    exact congrArg Except.ok ((congrArg Referrer.decode hr).trans (f.decode_encode hf hshort))
  have hlink : s.region.nextOf c = .ok (s.targetAt (.next c)) := Region.nextOf_eq hc.1 hc.2
  rw [detach, bind_ok (reading_eq hword)]
  simp only
  rw [bind_ok (target_eq hf), bind_ok (check_eq ht _), bind_ok (reading_eq hlink),
    bind_ok (setTarget_eq hf _), bind_ok (setReferrer_eq (by simpa [Region.Holds] using hnext) f),
    clearLinks, bind_ok (setNext_eq (by simpa [Region.Holds] using hc) _),
    setReferrerWord_eq (by simpa [Region.Holds] using hc)]
  rfl

end Detached

theorem changed_detached (f : Referrer) (c : Nat) :
    Changed (f.bytes ∪ linkBytesOf ({c} ∪ {d | s.targetAt (.next c) = some d})) s.region
      (s.detached f c).region := by
  have hself := Region.linkBytesOf_left f.bytes {c} {d | s.targetAt (.next c) = some d}
  have hnext := Region.linkBytesOf_right f.bytes {c} {d | s.targetAt (.next c) = some d}
  have h1 := (changed_putTarget (s := s) f (s.targetAt (.next c))).mono
    (T := f.bytes ∪ linkBytesOf ({c} ∪ {d | s.targetAt (.next c) = some d}))
    Set.subset_union_left
  have h2 := (changed_tell (s := s.putTarget f (s.targetAt (.next c))) f
    (s.targetAt (.next c))).mono hnext
  have h3 := (changed_putTarget (s := (s.putTarget f (s.targetAt (.next c))).tell f
    (s.targetAt (.next c))) (.next c) none).mono hself
  exact ((h1.trans h2).trans h3).trans ((changed_putReferrer c nilWord).mono hself)

theorem Linked.inside (h : s.Linked L) {l : ListId} {xs : List Nat} (hxs : ∀ c ∈ xs, c ∈ L l) :
    ((Referrer.head l).along xs).Inside s.region := by
  rcases (Referrer.head l).along_eq xs with ⟨-, he⟩ | ⟨c, -, hc, he⟩
  · rw [he]
    trivial
  · rw [he]
    exact h.holds (hxs c hc)

/-- Only the list `l` changes, and only behind `xs`: the stores are about the field there, about
the chunk `c` and about the chunk `n` behind it. -/
theorem Linked.relink {L' : Lists} (h : s.Linked L) {l : ListId} {c : Nat} {n : Option Nat}
    {xs ys ys' : List Nat} (hl : L l = xs ++ ys) (hl' : L' l = xs ++ ys')
    (hother : ∀ l', l' ≠ l → L' l' = L l') (hdistinct : L'.Distinct)
    (hlen : t.region.len = s.region.len) (hholds : ∀ d ∈ ys', s.region.Holds d) (hcx : c ∉ xs)
    (hc : ∀ l', c ∈ L l' → l' = l) (hnx : ∀ d, n = some d → d ∉ xs)
    (hn : ∀ l' d, n = some d → d ∈ L l' → l' = l)
    (ht : ∀ g : Referrer, g.Inside s.region → g ≠ (Referrer.head l).along xs → g ≠ .next c →
      t.targetAt g = s.targetAt g)
    (hr : ∀ d, s.region.Holds d → d ≠ c → n ≠ some d → t.referrerAt d = s.referrerAt d)
    (htail : t.Threads ((Referrer.head l).along xs) ys') : t.Linked L' := by
  have hxs : ∀ d ∈ xs, d ∈ L l := fun d hd => by simp [hl, hd]
  refine ⟨fun l' => ?_, hdistinct, fun {l' d} hd => ?_, hlen ▸ h.short⟩
  · by_cases he : l' = l
    · subst he
      rw [hl']
      have hnodup := h.distinct.nodup l'
      have hthreads := h.threads l'
      rw [hl] at hnodup hthreads
      apply hthreads.graft (List.nodup_append.1 hnodup).1 (fun _ _ => Referrer.noConfusion) ?_ ?_
        htail
      · rintro g (rfl | ⟨d, hd, rfl⟩) hne
        · exact ht _ trivial hne Referrer.noConfusion
        · refine ht _ (h.holds (hxs d hd)) hne fun hdc => ?_
          cases hdc
          exact hcx hd
      · intro d hd
        refine hr d (h.holds (hxs d hd)) ?_ fun hnd => hnx d hnd hd
        rintro rfl
        exact hcx hd
    · rw [hother l' he]
      apply (h.threads l').congr
      · exact ht _ trivial (fun hf => he (Referrer.head_of_along_eq hf.symm)) Referrer.noConfusion
      · intro d hd
        refine ht _ (h.holds hd) ?_ ?_
        · intro hf
          have hlast := List.mem_of_getLast? (Referrer.getLast?_of_along_eq hf.symm)
          exact he (h.distinct.only hd (hxs d hlast))
        · intro hh
          cases hh
          exact he (hc l' hd)
      · intro d hd
        refine hr d (h.holds hd) ?_ fun hnd => he (hn l' d hnd hd)
        rintro rfl
        exact he (hc l' hd)
  · refine Region.Holds.of_len ?_ hlen
    by_cases he : l' = l
    · subst he
      rw [hl', List.mem_append] at hd
      rcases hd with hd | hd
      · exact h.holds (hxs d hd)
      · exact hholds d hd
    · rw [hother l' he] at hd
      exact h.holds hd

/-- The store after `c` was put between the field `f` and what it refers to. -/
def inserted (s : Store) (f : Referrer) (c : Nat) : Store :=
  (((s.putTarget (.next c) (s.targetAt f)).putReferrer c f.encode).putTarget f (some c)).tell
    (.next c) (s.targetAt f)

section Inserted

variable {f : Referrer} {c : Nat} (hc : s.region.Holds c) (hf : f.Inside s.region)
  (hnext : ∀ d, s.targetAt f = some d → s.region.Holds d)

include hnext

theorem referrerAt_inserted_next {d : Nat} (hd : s.targetAt f = some d) :
    (s.inserted f c).referrerAt d = (Referrer.next c).encode := by
  rw [inserted, hd]
  exact referrerAt_tell_same ((hnext d hd).of_len (by simp)) _

include hc hf

theorem insertAt_eq : insertAt f c s = .ok () (s.inserted f c) := by
  have hf' : f.Inside ((s.putTarget (.next c) (s.targetAt f)).putReferrer c f.encode).region := by
    cases f with
    | head l => trivial
    | next d => exact Region.Holds.of_len hf (by simp)
  rw [insertAt, bind_ok (target_eq hf), bind_ok (setNext_eq hc _), setReferrer,
    bind_ok (setReferrerWord_eq (hc.of_len (by simp)) _), bind_ok (setTarget_eq hf' _),
    setReferrer_eq fun d hd => (hnext d hd).of_len (by simp)]
  rfl

theorem targetAt_inserted (hshort : s.region.len ≤ 0x80000000) :
    (s.inserted f c).targetAt f = some c := by
  have hend := hc.2
  have hf' : f.Inside ((s.putTarget (.next c) (s.targetAt f)).putReferrer c f.encode).region := by
    cases f with
    | head l => trivial
    | next d => exact Region.Holds.of_len hf (by simp)
  rw [inserted, targetAt_tell hf hnext]
  exact targetAt_putTarget_same hf' (linkable_some (by omega))

theorem targetAt_inserted_chunk (hshort : s.region.len ≤ 0x80000000) (hne : f ≠ .next c) :
    (s.inserted f c).targetAt (.next c) = s.targetAt f := by
  have hlink : Linkable (s.targetAt f) := by
    intro d hd
    have hend := (hnext d hd).2
    omega
  rw [inserted, targetAt_tell (f := .next c) (r := s.region) hc hnext,
    targetAt_putTarget_ne (f := .next c) (r := s.region) hc hf hne.symm,
    targetAt_putReferrer (f := .next c) (r := s.region) hc hc]
  exact targetAt_putTarget_same (f := .next c) hc hlink

theorem targetAt_inserted_ne {g : Referrer} (hg : g.Inside s.region) (hne : g ≠ f)
    (hne' : g ≠ .next c) : (s.inserted f c).targetAt g = s.targetAt g := by
  rw [inserted, targetAt_tell hg hnext, targetAt_putTarget_ne hg hf hne,
    targetAt_putReferrer hg hc]
  exact targetAt_putTarget_ne (g := .next c) (q := s.region) hg hc hne' _

theorem referrerAt_inserted (hne : s.targetAt f ≠ some c) :
    (s.inserted f c).referrerAt c = f.encode := by
  rw [inserted, referrerAt_tell_ne hnext hc hne, referrerAt_putTarget hf hc]
  exact referrerAt_putReferrer_same (hc.of_len (by simp)) _

theorem referrerAt_inserted_ne {d : Nat} (hd : s.region.Holds d) (hne : d ≠ c)
    (hne' : s.targetAt f ≠ some d) : (s.inserted f c).referrerAt d = s.referrerAt d := by
  rw [inserted, referrerAt_tell_ne hnext hd hne', referrerAt_putTarget hf hd,
    referrerAt_putReferrer_ne hc hd hne]
  exact referrerAt_putTarget (f := .next c) (r := s.region) hc hd _

end Inserted

theorem changed_inserted (f : Referrer) (c : Nat) :
    Changed (f.bytes ∪ linkBytesOf ({c} ∪ {d | s.targetAt f = some d})) s.region
      (s.inserted f c).region := by
  have hself := Region.linkBytesOf_left f.bytes {c} {d | s.targetAt f = some d}
  have hnext := Region.linkBytesOf_right f.bytes {c} {d | s.targetAt f = some d}
  have h1 := (changed_putTarget (s := s) (.next c) (s.targetAt f)).mono hself
  have h2 := (changed_putReferrer (s := s.putTarget (.next c) (s.targetAt f)) c f.encode).mono hself
  have h3 := (changed_putTarget (s := (s.putTarget (.next c) (s.targetAt f)).putReferrer c f.encode)
    f (some c)).mono (Set.subset_union_left
      (t := linkBytesOf ({c} ∪ {d | s.targetAt f = some d})))
  exact ((h1.trans h2).trans h3).trans ((changed_tell (.next c) (s.targetAt f)).mono hnext)

/-- The list `l` consists of `xs` and `ys`, and `f` is the field between them. -/
structure Seam (s : Store) (L : Lists) (l : ListId) (xs ys : List Nat) (f : Referrer) : Prop where
  list : L l = xs ++ ys
  field : (Referrer.head l).along xs = f
  inside : f.Inside s.region
  rest : s.Threads f ys
  held : ∀ d ∈ ys, s.region.Holds d
  apart : ∀ d ∈ ys, d ∉ xs
  nodup : ys.Nodup

theorem Linked.seam (h : s.Linked L) {l : ListId} {xs ys : List Nat} (hl : L l = xs ++ ys) :
    Seam s L l xs ys ((Referrer.head l).along xs) := by
  have hthreads := h.threads l
  have hnodup := h.distinct.nodup l
  rw [hl] at hthreads hnodup
  obtain ⟨-, hnodupy, hapart⟩ := List.nodup_append.1 hnodup
  refine ⟨hl, rfl, h.inside fun d hd => ?_, hthreads.drop, fun d hd => ?_,
    fun d hd hx => hapart d hx d hd rfl, hnodupy⟩
  · rw [hl]
    exact List.mem_append_left _ hd
  · apply h.holds (l := l)
    rw [hl]
    exact List.mem_append_right _ hd

theorem ne_head_of_mem_tail {ys : List Nat} {d : Nat} (h : ys.Nodup) (hd : d ∈ ys.tail) :
    ys.head? ≠ some d := by
  intro he
  cases ys with
  | nil => cases hd
  | cons e rest =>
    cases he
    exact (List.nodup_cons.1 h).1 hd

section Seam

variable {l : ListId} {xs ys : List Nat} {f : Referrer} {c d : Nat}

theorem Seam.mem (h : Seam s L l xs ys f) (hd : s.targetAt f = some d) : d ∈ ys := by
  rw [h.rest.head] at hd
  exact List.mem_of_head? hd

theorem Seam.holds (h : Seam s L l xs ys f) (hd : s.targetAt f = some d) : s.region.Holds d :=
  h.held d (h.mem hd)

theorem Seam.mem_list (h : Seam s L l xs ys f) (hd : d ∈ ys) : d ∈ L l := by
  rw [h.list]
  exact List.mem_append_right _ hd

theorem Seam.field_ne (h : Seam s L l xs ys f) (hd : d ∉ xs) : f ≠ .next d := by
  intro he
  rw [← h.field] at he
  exact hd (List.mem_of_getLast? (Referrer.getLast?_of_along_eq he))

theorem Seam.threads_inserted (h : Seam s L l xs ys f) (hc : s.region.Holds c) (hcx : c ∉ xs)
    (hcy : c ∉ ys) (hshort : s.region.len ≤ 0x80000000) :
    (s.inserted f c).Threads f (c :: ys) := by
  have hheld : ∀ d, s.targetAt f = some d → s.region.Holds d := fun d hd => h.holds hd
  have hnc : s.targetAt f ≠ some c := fun he => hcy (h.mem he)
  refine ⟨targetAt_inserted hc h.inside hheld hshort, referrerAt_inserted hc h.inside hheld hnc, ?_⟩
  apply h.rest.move (targetAt_inserted_chunk hc h.inside hheld hshort (h.field_ne hcx))
  · exact fun d hd => referrerAt_inserted_next hheld (h.rest.head.trans hd)
  · intro d hd
    apply targetAt_inserted_ne (g := .next d) hc h.inside hheld (h.held d hd)
    · exact (h.field_ne (h.apart d hd)).symm
    · intro he
      cases he
      exact hcy hd
  · intro d hd
    have hdy := List.mem_of_mem_tail hd
    apply referrerAt_inserted_ne hc h.inside hheld (h.held d hdy)
    · exact fun he => hcy (he ▸ hdy)
    · rw [h.rest.head]
      exact ne_head_of_mem_tail h.nodup hd

theorem Seam.behind (h : Seam s L l xs (c :: ys) f) (hd : s.targetAt (.next c) = some d) :
    d ∈ ys := by
  rw [h.rest.2.2.head] at hd
  exact List.mem_of_head? hd

theorem Seam.threads_detached (h : Seam s L l xs (c :: ys) f)
    (hshort : s.region.len ≤ 0x80000000) : (s.detached f c).Threads f ys := by
  obtain ⟨hcy, hnodup⟩ := List.nodup_cons.1 h.nodup
  have hc := h.held c (List.mem_cons_self ..)
  have hcx := h.apart c (List.mem_cons_self ..)
  have hrest := h.rest.2.2
  have hheld : ∀ d, s.targetAt (.next c) = some d → s.region.Holds d :=
    fun d hd => h.held d (List.mem_cons_of_mem _ (h.behind hd))
  apply hrest.move (targetAt_detached hc h.inside hheld hshort (h.field_ne hcx))
  · intro d hd
    have hdn : s.targetAt (.next c) = some d := hrest.head.trans hd
    apply referrerAt_detached_next hc hheld hdn
    rintro rfl
    exact hcy (h.behind hdn)
  · intro d hd
    have hdy : d ∈ c :: ys := List.mem_cons_of_mem _ hd
    apply targetAt_detached_ne (g := .next d) hc h.inside hheld (h.held d hdy)
    · exact (h.field_ne (h.apart d hdy)).symm
    · intro he
      cases he
      exact hcy hd
  · intro d hd
    have hdy := List.mem_of_mem_tail hd
    apply referrerAt_detached_ne hc h.inside hheld (h.held d (List.mem_cons_of_mem _ hdy))
    · exact fun he => hcy (he ▸ hdy)
    · rw [hrest.head]
      exact ne_head_of_mem_tail hnodup hd

end Seam

theorem linkBytesOf_neighbours {c : Nat} {xs : List Nat} {n : Option Nat} :
    linkBytesOf ({d | xs.getLast? = some d} ∪ ({c} ∪ {d | n = some d})) ⊆
      linkBytesOf ({c} ∪ {d | xs.getLast? = some d ∨ n = some d}) := by
  apply Region.linkBytesOf_mono
  rintro d (hd | hd | hd)
  · exact .inr (.inl hd)
  · exact .inl hd
  · exact .inr (.inr hd)

/-- A chunk leaves its list and no other list changes. -/
theorem Linked.detach (h : s.Linked L) {l : ListId} {c : Nat} {xs ys : List Nat}
    (hl : L l = xs ++ c :: ys) :
    ∃ t, Store.detach c s = .ok () t ∧ t.Linked (L.without c) ∧ t.referrerAt c = nilWord ∧
      Changed (linkBytesOf ({c} ∪ {d | xs.getLast? = some d ∨ ys.head? = some d})) s.region
        t.region := by
  have hseam := h.seam hl
  have hmem : c ∈ L l := hseam.mem_list (List.mem_cons_self ..)
  have hc := h.holds hmem
  obtain ⟨htarget, hreferrer, hrest⟩ := hseam.rest
  have hbehind : ∀ d, s.targetAt (.next c) = some d → d ∈ c :: ys :=
    fun d hd => List.mem_cons_of_mem _ (hseam.behind hd)
  have hheld : ∀ d, s.targetAt (.next c) = some d → s.region.Holds d :=
    fun d hd => hseam.held d (hbehind d hd)
  have hchanged := changed_detached (s := s) ((Referrer.head l).along xs) c
  rw [Referrer.bytes_along, ← Region.linkBytesOf_union, hrest.head] at hchanged
  refine ⟨_, detach_eq hc hseam.inside hheld h.short hreferrer htarget, ?_,
    referrerAt_detached hc, hchanged.mono linkBytesOf_neighbours⟩
  apply h.relink (c := c) (n := s.targetAt (.next c)) hl (h.distinct.without_at hl)
    (fun l' he => h.distinct.without_ne hmem he) (h.distinct.without c) hchanged.len
    (fun d hd => hseam.held d (List.mem_cons_of_mem _ hd))
    (hseam.apart c (List.mem_cons_self ..)) (fun l' hl' => h.distinct.only hl' hmem)
    (fun d hd => hseam.apart d (hbehind d hd))
    (fun l' d hd hl' => h.distinct.only hl' (hseam.mem_list (hbehind d hd)))
  · exact fun g hg hne hne' => targetAt_detached_ne hc hseam.inside hheld hg hne hne'
  · exact fun d hd hne hne' => referrerAt_detached_ne hc hseam.inside hheld hd hne hne'
  · exact hseam.threads_detached h.short

/-- A chunk on no list gets the place behind `xs` on the list `l`. -/
theorem Linked.insertAt (h : s.Linked L) {l : ListId} {c : Nat} {xs ys : List Nat}
    (hl : L l = xs ++ ys) (hc : s.region.Holds c) (hfresh : ∀ l, c ∉ L l) :
    ∃ t, Store.insertAt ((Referrer.head l).along xs) c s = .ok () t ∧
      t.Linked (Function.update L l (xs ++ c :: ys)) ∧
      Changed (linkBytesOf ({c} ∪ {d | xs.getLast? = some d ∨ ys.head? = some d})) s.region
        t.region := by
  have hseam := h.seam hl
  have hcx : c ∉ xs := fun hx => hfresh l (by simp [hl, hx])
  have hcy : c ∉ ys := fun hy => hfresh l (hseam.mem_list hy)
  have hheld : ∀ d, s.targetAt ((Referrer.head l).along xs) = some d → s.region.Holds d :=
    fun d hd => hseam.holds hd
  have hchanged := changed_inserted (s := s) ((Referrer.head l).along xs) c
  rw [Referrer.bytes_along, ← Region.linkBytesOf_union, hseam.rest.head] at hchanged
  refine ⟨_, insertAt_eq hc hseam.inside hheld, ?_, hchanged.mono linkBytesOf_neighbours⟩
  apply h.relink (c := c) (n := s.targetAt ((Referrer.head l).along xs)) hl
    (Function.update_self ..) (fun l' he => Function.update_of_ne he ..)
    (h.distinct.update hl hfresh) hchanged.len ?_ hcx (fun l' hl' => absurd hl' (hfresh l'))
    (fun d hd => hseam.apart d (hseam.mem hd))
    (fun l' d hd hl' => h.distinct.only hl' (hseam.mem_list (hseam.mem hd)))
  · exact fun g hg hne hne' => targetAt_inserted_ne hc hseam.inside hheld hg hne hne'
  · exact fun d hd hne hne' => referrerAt_inserted_ne hc hseam.inside hheld hd hne hne'
  · exact hseam.threads_inserted hc hcx hcy h.short
  · intro d hd
    rcases List.mem_cons.1 hd with rfl | hd
    · exact hc
    · exact hseam.held d hd

end Store

end BoundaryHeap
