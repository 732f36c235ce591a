import BoundaryHeap.Proofs.Fading
import BoundaryHeap.Proofs.Filing

namespace BoundaryHeap

open Region (Changed linkBytesOf)

theorem Referrer.Inside.of_len {r r' : Region} {f : Referrer} (h : f.Inside r)
    (hlen : r'.len = r.len) : f.Inside r' := by
  cases f with
  | head l => trivial
  | next c => exact Region.Holds.of_len h hlen

namespace Store

inductive OnList (s : Store) : Nat → Prop where
  | head {l : ListId} {c : Nat} (h : s.targetAt (.head l) = some c) : s.OnList c
  | next {c d : Nat} (hc : s.OnList c) (h : s.targetAt (.next c) = some d) : s.OnList d

def FieldOf (N : Set Nat) : Referrer → Prop
  | .head _ => True
  | .next c => c ∈ N

theorem fieldOf_sdiff {N : Set Nat} {c : Nat} {f : Referrer} :
    FieldOf (N \ {c}) f ↔ FieldOf N f ∧ f ≠ .next c := by
  cases f with
  | head l =>
    constructor
    · intro _
      exact ⟨trivial, Referrer.noConfusion⟩
    · intro _
      trivial
  | next d =>
    constructor
    · rintro ⟨hd, hne⟩
      exact ⟨hd, fun he => hne (Referrer.next.inj he)⟩
    · rintro ⟨hd, hne⟩
      exact ⟨hd, fun he => hne (congrArg Referrer.next he)⟩

theorem fieldOf_insert {N : Set Nat} {c : Nat} {f : Referrer} :
    FieldOf (insert c N) f ↔ f = .next c ∨ FieldOf N f := by
  cases f with
  | head l =>
    constructor
    · intro _
      exact .inr trivial
    · intro _
      trivial
  | next d =>
    constructor
    · rintro (rfl | hd)
      · exact .inl rfl
      · exact .inr hd
    · rintro (he | hd)
      · exact .inl (Referrer.next.inj he)
      · exact .inr hd

/-- The heads and the links of the chunks of `N` make lists, as far as `whole` says. -/
structure Woven (whole : Prop) (N H : Set Nat) (s : Store) : Prop where
  short : s.region.len ≤ 0x80000000
  holds : ∀ c, c ∈ N ∨ c ∈ H → s.region.Holds c
  apart : ∀ c ∈ N, c ∉ H
  leads : ∀ f, FieldOf N f → ∀ d, s.targetAt f = some d → d ∈ N
  once : ∀ f g, FieldOf N f → FieldOf N g → ∀ d, s.targetAt f = some d → s.targetAt g = some d →
    f = g
  names : ∀ c ∈ N, ∀ f, Referrer.decode (s.referrerAt c) = some f →
    f.Inside s.region ∧ (FieldOf N f ∨ s.targetAt f ≠ some c)
  hand : ∀ c ∈ H, s.referrerAt c = nilWord
  last : ∀ r, s.targetAt (.head .remainder) = some r → s.targetAt (.next r) = none
  exact : whole → ∀ f, FieldOf N f → ∀ d, s.targetAt f = some d → s.referrerAt d = f.encode
  reached : whole → ∀ c ∈ N, s.OnList c

/-- The field is on the way along another list than that of the remainder. -/
structure Aside (s : Store) (f : Referrer) : Prop where
  head : f ≠ .head .remainder
  next : ∀ r, s.targetAt (.head .remainder) = some r → f ≠ .next r

/-- From `s` to `t` the chunk `c` in hand went to the listed ones, by stores to links. -/
structure Gained (whole : Prop) (N H : Set Nat) (c : Nat) (s t : Store) : Prop where
  woven : t.Woven whole (insert c N) (H \ {c})
  changed : Changed (linkBytesOf (insert c N)) s.region t.region

variable {s t : Store} {whole : Prop} {N H : Set Nat} {c d : Nat} {f g : Referrer}

theorem targetAt_detached_self (hc : s.region.Holds c) :
    (s.detached f c).targetAt (.next c) = none := by
  have hc' : ((s.putTarget f (s.targetAt (.next c))).tell f (s.targetAt (.next c))).region.Holds c :=
    hc.of_len (by simp)
  rw [detached, targetAt_putReferrer (f := .next c) hc hc]
  exact targetAt_putTarget_same (f := .next c) hc' fun d hd => by cases hd

namespace Woven

theorem inside (h : s.Woven whole N H) (hf : FieldOf N f) : f.Inside s.region := by
  cases f with
  | head l => trivial
  | next c => exact h.holds c (.inl hf)

theorem target_holds (h : s.Woven whole N H) (hf : FieldOf N f) :
    ∀ d, s.targetAt f = some d → s.region.Holds d :=
  fun d hd => h.holds d (.inl (h.leads f hf d hd))

/-- A chunk on a list has a field that refers to it. -/
theorem field_of_onList (h : s.Woven whole N H) (hc : s.OnList c) :
    ∃ f, FieldOf N f ∧ s.targetAt f = some c := by
  induction hc with
  | @head l c h' => exact ⟨.head l, trivial, h'⟩
  | @next c d hc h' ih =>
    obtain ⟨g, hg, hgc⟩ := ih
    exact ⟨.next c, h.leads g hg c hgc, h'⟩

theorem mem_of_onList (h : s.Woven whole N H) (hc : s.OnList c) : c ∈ N := by
  obtain ⟨f, hf, ht⟩ := h.field_of_onList hc
  exact h.leads f hf c ht

/-- A chunk that is on a list by whole links names the field that refers to it. -/
theorem named (h : s.Woven whole N H) (hwhole : whole) (hc : c ∈ N) :
    ∃ f, FieldOf N f ∧ s.targetAt f = some c ∧ Referrer.decode (s.referrerAt c) = some f := by
  obtain ⟨f, hf, ht⟩ := h.field_of_onList (h.reached hwhole c hc)
  refine ⟨f, hf, ht, ?_⟩
  rw [h.exact hwhole f hf c ht]
  exact f.decode_encode (h.inside hf) h.short

section Detached

variable (h : s.Woven whole N H) (hf : FieldOf N f) (ht : s.targetAt f = some c)

include h hf ht

theorem target_detached (hg : FieldOf N g) (hne : g ≠ .next c) :
    (g = f ∧ (s.detached f c).targetAt g = s.targetAt (.next c)) ∨
      (g ≠ f ∧ (s.detached f c).targetAt g = s.targetAt g) := by
  have hc := h.leads f hf c ht
  have hheld := h.holds c (.inl hc)
  have hnext := h.target_holds (f := .next c) hc
  by_cases he : g = f
  · subst he
    exact .inl ⟨rfl, targetAt_detached hheld (h.inside hf) hnext h.short hne⟩
  · exact .inr ⟨he, targetAt_detached_ne hheld (h.inside hf) hnext (h.inside hg) he hne⟩

theorem referrer_detached_next (hd : s.targetAt (.next c) = some d) (hne : d ≠ c) :
    (s.detached f c).referrerAt d = f.encode := by
  have hc := h.leads f hf c ht
  exact referrerAt_detached_next (h.holds c (.inl hc)) (h.target_holds (f := .next c) hc) hd hne

theorem referrer_detached_ne (hd : d ∈ N ∨ d ∈ H) (hne : d ≠ c)
    (hnext : s.targetAt (.next c) ≠ some d) : (s.detached f c).referrerAt d = s.referrerAt d := by
  have hc := h.leads f hf c ht
  exact referrerAt_detached_ne (h.holds c (.inl hc)) (h.inside hf)
    (h.target_holds (f := .next c) hc) (h.holds d hd) hne hnext

/-- What a field refers to that does not belong to the chunk is another chunk. -/
theorem leads_detached (hg : FieldOf N g) (hne : g ≠ .next c)
    (hd : (s.detached f c).targetAt g = some d) : d ∈ N ∧ d ≠ c := by
  have hc := h.leads f hf c ht
  rcases h.target_detached hf ht hg hne with ⟨rfl, he⟩ | ⟨hgf, he⟩
  · rw [he] at hd
    refine ⟨h.leads (.next c) hc d hd, ?_⟩
    rintro rfl
    exact hne (h.once g (.next d) hf hc d ht hd)
  · rw [he] at hd
    refine ⟨h.leads g hg d hd, ?_⟩
    rintro rfl
    exact hgf (h.once g f hg hf d hd ht)

theorem once_detached {g' : Referrer} (hg : FieldOf N g) (hg' : FieldOf N g') (hne : g ≠ .next c)
    (hne' : g' ≠ .next c) (hd : (s.detached f c).targetAt g = some d)
    (hd' : (s.detached f c).targetAt g' = some d) : g = g' := by
  have hc := h.leads f hf c ht
  rcases h.target_detached hf ht hg hne with ⟨rfl, he⟩ | ⟨hgf, he⟩
  · rcases h.target_detached hf ht hg' hne' with ⟨rfl, -⟩ | ⟨-, he'⟩
    · rfl
    · rw [he] at hd
      rw [he'] at hd'
      exact absurd (h.once g' (.next c) hg' hc d hd' hd) hne'
  · rcases h.target_detached hf ht hg' hne' with ⟨rfl, he'⟩ | ⟨-, he'⟩
    · rw [he] at hd
      rw [he'] at hd'
      exact absurd (h.once g (.next c) hg hc d hd hd') hne
    · rw [he] at hd
      rw [he'] at hd'
      exact h.once g g' hg hg' d hd hd'

theorem names_detached (hd : d ∈ N) (hne : d ≠ c)
    (hg : Referrer.decode ((s.detached f c).referrerAt d) = some g) :
    g.Inside s.region ∧ (FieldOf (N \ {c}) g ∨ (s.detached f c).targetAt g ≠ some d) := by
  have hc := h.leads f hf c ht
  have hheld := h.holds c (.inl hc)
  have hnext := h.target_holds (f := .next c) hc
  by_cases hbehind : s.targetAt (.next c) = some d
  · rw [h.referrer_detached_next hf ht hbehind hne, f.decode_encode (h.inside hf) h.short] at hg
    obtain rfl := Option.some.inj hg
    refine ⟨h.inside hf, .inl (fieldOf_sdiff.2 ⟨hf, ?_⟩)⟩
    rintro rfl
    exact hne (Option.some.inj (hbehind.symm.trans ht))
  · rw [h.referrer_detached_ne hf ht (.inl hd) hne hbehind] at hg
    obtain ⟨hinside, hnamed⟩ := h.names d hd g hg
    refine ⟨hinside, ?_⟩
    by_cases hgc : g = .next c
    · subst hgc
      rw [targetAt_detached_self hheld]
      exact .inr (Option.some_ne_none d).symm
    · by_cases hfield : FieldOf N g
      · exact .inl (fieldOf_sdiff.2 ⟨hfield, hgc⟩)
      · have hgf : g ≠ f := by
          rintro rfl
          exact hfield hf
        rw [targetAt_detached_ne hheld (h.inside hf) hnext hinside hgf hgc]
        exact .inr (hnamed.resolve_left hfield)

theorem last_detached {r : Nat} (hr : (s.detached f c).targetAt (.head .remainder) = some r) :
    (s.detached f c).targetAt (.next r) = none := by
  have hc := h.leads f hf c ht
  rcases h.target_detached (g := .head .remainder) hf ht trivial Referrer.noConfusion with
    ⟨rfl, he⟩ | ⟨hne, he⟩
  · rw [he, h.last c ht] at hr
    cases hr
  · rw [he] at hr
    have hnone := h.last r hr
    have hrc : r ≠ c := by
      rintro rfl
      exact hne (h.once _ f trivial hf r hr ht)
    have hnext : (Referrer.next r) ≠ .next c := fun he' => hrc (Referrer.next.inj he')
    have hrN : r ∈ N := h.leads (.head .remainder) trivial r hr
    rcases h.target_detached (g := .next r) hf ht hrN hnext with
      ⟨rfl, -⟩ | ⟨-, he'⟩
    · rw [hnone] at ht
      cases ht
    · rw [he']
      exact hnone

theorem exact_detached (hwhole : whole) (hg : FieldOf N g) (hne : g ≠ .next c)
    (hd : (s.detached f c).targetAt g = some d) : (s.detached f c).referrerAt d = g.encode := by
  have hc := h.leads f hf c ht
  obtain ⟨hdN, hdc⟩ := h.leads_detached hf ht hg hne hd
  rcases h.target_detached hf ht hg hne with ⟨rfl, he⟩ | ⟨-, he⟩
  · rw [he] at hd
    exact h.referrer_detached_next hf ht hd hdc
  · rw [he] at hd
    have hbehind : s.targetAt (.next c) ≠ some d :=
      fun hn => hne (h.once g (.next c) hg hc d hd hn)
    rw [h.referrer_detached_ne hf ht (.inl hdN) hdc hbehind]
    exact h.exact hwhole g hg d hd

/-- The chunks of a list stay on it when another one is taken off: the links lead past it. -/
theorem onList_detached (hd : s.OnList d) :
    (d ≠ c → (s.detached f c).OnList d) ∧
      (d = c → ∀ e, s.targetAt (.next c) = some e → e ≠ c → (s.detached f c).OnList e) := by
  have hc := h.leads f hf c ht
  -- along the links; the field in front of the chunk now refers to what is behind it
  have hstep : ∀ g, FieldOf N g → g ≠ .next c → ∀ e, s.targetAt g = some e →
      (∀ e', (s.detached f c).targetAt g = some e' → (s.detached f c).OnList e') →
      (e ≠ c → (s.detached f c).OnList e) ∧
        (e = c → ∀ e', s.targetAt (.next c) = some e' → e' ≠ c → (s.detached f c).OnList e') := by
    intro g hg hne e he hlead
    rcases h.target_detached hf ht hg hne with ⟨rfl, hg'⟩ | ⟨hgf, hg'⟩
    · obtain rfl := Option.some.inj (he.symm.trans ht)
      exact ⟨fun hne' => absurd rfl hne', fun _ e' he' _ => hlead e' (hg'.trans he')⟩
    · refine ⟨fun _ => hlead e (hg'.trans he), ?_⟩
      rintro rfl
      exact absurd (h.once g f hg hf e he ht) hgf
  induction hd with
  | @head l e he => exact hstep (.head l) trivial Referrer.noConfusion e he fun e' he' => .head he'
  | @next e e' he hlink ih =>
    have heN := h.mem_of_onList he
    by_cases hec : e = c
    · subst hec
      refine ⟨fun hne => ih.2 rfl e' hlink hne, ?_⟩
      rintro rfl e'' he'' hne
      exact absurd (Option.some.inj (he''.symm.trans hlink)) hne
    · exact hstep (.next e) heN (fun he' => hec (Referrer.next.inj he')) e' hlink
        fun e'' he'' => .next (ih.1 hec) he''

theorem detached : (s.detached f c).Woven whole (N \ {c}) (insert c H) := by
  have hc := h.leads f hf c ht
  have hheld := h.holds c (.inl hc)
  have hlen := (changed_detached (s := s) f c).len
  constructor
  case short =>
    rw [hlen]
    exact h.short
  case holds =>
    rintro d (hd | rfl | hd)
    · exact (h.holds d (.inl hd.1)).of_len hlen
    · exact hheld.of_len hlen
    · exact (h.holds d (.inr hd)).of_len hlen
  case apart =>
    rintro d hd (rfl | hd')
    · exact hd.2 rfl
    · exact h.apart d hd.1 hd'
  case leads =>
    intro g hg d hd
    obtain ⟨hg, hne⟩ := fieldOf_sdiff.1 hg
    exact h.leads_detached hf ht hg hne hd
  case once =>
    intro g g' hg hg' d hd hd'
    obtain ⟨hg, hne⟩ := fieldOf_sdiff.1 hg
    obtain ⟨hg', hne'⟩ := fieldOf_sdiff.1 hg'
    exact h.once_detached hf ht hg hg' hne hne' hd hd'
  case names =>
    intro d hd g hg
    obtain ⟨hinside, hnamed⟩ := h.names_detached hf ht hd.1 hd.2 hg
    exact ⟨hinside.of_len hlen, hnamed⟩
  case hand =>
    rintro d (rfl | hd)
    · exact referrerAt_detached hheld
    · have hdc : d ≠ c := by
        rintro rfl
        exact h.apart d hc hd
      have hbehind : s.targetAt (.next c) ≠ some d :=
        fun hn => h.apart d (h.leads (.next c) hc d hn) hd
      rw [h.referrer_detached_ne hf ht (.inr hd) hdc hbehind]
      exact h.hand d hd
  case last => exact fun r hr => h.last_detached hf ht hr
  case exact =>
    intro hwhole g hg d hd
    obtain ⟨hg, hne⟩ := fieldOf_sdiff.1 hg
    exact h.exact_detached hf ht hwhole hg hne hd
  case reached =>
    intro hwhole d hd
    exact (h.onList_detached hf ht (h.reached hwhole d hd.1)).1 hd.2

end Detached

theorem bytes_subset (hf : FieldOf N f) : f.bytes ⊆ linkBytesOf N := by
  cases f with
  | head l => exact Set.empty_subset _
  | next c => exact Region.linkBytesOf_mono (Set.singleton_subset_iff.2 hf)

theorem remainder_detached {r : Nat} (h : s.Woven whole N H) (hf : FieldOf N f)
    (ht : s.targetAt f = some c)
    (hr : (s.detached f c).targetAt (.head .remainder) = some r) :
    s.targetAt (.head .remainder) = some r ∧ r ≠ c := by
  rcases h.target_detached (g := .head .remainder) hf ht trivial Referrer.noConfusion with
    ⟨rfl, he⟩ | ⟨hne, he⟩
  · rw [he, h.last c ht] at hr
    cases hr
  · rw [he] at hr
    refine ⟨hr, ?_⟩
    intro hrc
    subst hrc
    exact hne (h.once (.head .remainder) f trivial hf r hr ht)

theorem meets_detach (h : s.Woven whole N H) (hc : c ∈ N) :
    Meets (Store.detach c) s
      (fun _ t => t.Woven whole (N \ {c}) (insert c H) ∧
        Changed (linkBytesOf N) s.region t.region ∧
        ∀ r, t.targetAt (.head .remainder) = some r →
          s.targetAt (.head .remainder) = some r ∧ r ≠ c)
      (fun e t => t = s ∧ e.Reports ∧ ¬whole) := by
  have hheld := h.holds c (.inl hc)
  have hread : reading (·.referrerOf c) s = .ok (Referrer.decode (s.referrerAt c)) s :=
    reading_eq (Region.referrerOf_eq hheld.1 hheld.2)
  cases hword : Referrer.decode (s.referrerAt c) with
  | none =>
    rw [hword] at hread
    apply meets_after hread
    apply meets_throw
    refine ⟨rfl, Fault.reports_corrupt _ _, ?_⟩
    intro hwhole
    obtain ⟨f, -, -, hf⟩ := h.named hwhole hc
    rw [hf] at hword
    cases hword
  | some f =>
    obtain ⟨hinside, hnamed⟩ := h.names c hc f hword
    by_cases ht : s.targetAt f = some c
    · have hf := hnamed.resolve_right fun hne => hne ht
      have hnext := h.target_holds (f := .next c) hc
      refine meets_of_ok (detach_eq hheld hinside hnext h.short
        (Referrer.encode_decode hword).symm ht) ⟨h.detached hf ht, ?_, ?_⟩
      · apply (changed_detached f c).mono
        apply Set.union_subset (bytes_subset hf)
        apply Region.linkBytesOf_mono
        intro d hd
        rcases hd with rfl | hd
        · exact hc
        · exact h.leads (.next c) hc d hd
      · exact fun r hr => h.remainder_detached hf ht hr
    · rw [hword] at hread
      apply meets_after hread
      apply meets_after (target_eq hinside)
      apply Meets.bind (meets_check (R := fun _ _ => False) (fun he => ht he) fun _ => ?_)
      · exact fun _ _ hfalse => hfalse.elim
      · refine ⟨rfl, Fault.reports_corrupt _ _, ?_⟩
        intro hwhole
        obtain ⟨g, -, hg, hgword⟩ := h.named hwhole hc
        rw [hword] at hgword
        obtain rfl := Option.some.inj hgword
        exact ht hg

theorem fresh (h : s.Woven whole N H) (hc : c ∈ H) : c ∉ N := fun hN => h.apart c hN hc

section Inserted

variable (h : s.Woven whole N H) (hf : FieldOf N f) (hc : c ∈ H)

include h hf hc

theorem field_ne : f ≠ .next c := by
  intro he
  subst he
  exact h.apart c hf hc

theorem target_inserted (hg : FieldOf (insert c N) g)
    (hd : (s.inserted f c).targetAt g = some d) :
    (g = f ∧ d = c) ∨ (g = .next c ∧ s.targetAt f = some d) ∨
      (FieldOf N g ∧ g ≠ f ∧ s.targetAt g = some d) := by
  have hheld := h.holds c (.inr hc)
  have hnext := h.target_holds hf
  rcases fieldOf_insert.1 hg with rfl | hg
  · rw [targetAt_inserted_chunk hheld (h.inside hf) hnext h.short (h.field_ne hf hc)] at hd
    exact .inr (.inl ⟨rfl, hd⟩)
  · have hgc := h.field_ne hg hc
    by_cases he : g = f
    · subst he
      rw [targetAt_inserted hheld (h.inside hf) hnext h.short] at hd
      exact .inl ⟨rfl, (Option.some.inj hd).symm⟩
    · rw [targetAt_inserted_ne hheld (h.inside hf) hnext (h.inside hg) he hgc] at hd
      exact .inr (.inr ⟨hg, he, hd⟩)

theorem referrer_inserted : (s.inserted f c).referrerAt c = f.encode := by
  apply referrerAt_inserted (h.holds c (.inr hc)) (h.inside hf) (h.target_holds hf)
  exact fun he => h.fresh hc (h.leads f hf c he)

theorem referrer_inserted_ne (hd : d ∈ N ∨ d ∈ H) (hne : d ≠ c) (hf' : s.targetAt f ≠ some d) :
    (s.inserted f c).referrerAt d = s.referrerAt d :=
  referrerAt_inserted_ne (h.holds c (.inr hc)) (h.inside hf) (h.target_holds hf) (h.holds d hd) hne
    hf'

theorem leads_inserted (hg : FieldOf (insert c N) g)
    (hd : (s.inserted f c).targetAt g = some d) : d ∈ insert c N := by
  rcases h.target_inserted hf hc hg hd with ⟨-, rfl⟩ | ⟨-, he⟩ | ⟨hg, -, he⟩
  · exact .inl rfl
  · exact .inr (h.leads f hf d he)
  · exact .inr (h.leads g hg d he)

theorem once_inserted {g' : Referrer} (hg : FieldOf (insert c N) g)
    (hg' : FieldOf (insert c N) g') (hd : (s.inserted f c).targetAt g = some d)
    (hd' : (s.inserted f c).targetAt g' = some d) : g = g' := by
  have hfresh := h.fresh hc
  rcases h.target_inserted hf hc hg hd with ⟨rfl, rfl⟩ | ⟨rfl, he⟩ | ⟨hgN, hne, he⟩
  · rcases h.target_inserted hf hc hg' hd' with ⟨rfl, -⟩ | ⟨-, he'⟩ | ⟨hgN', -, he'⟩
    · rfl
    · exact absurd (h.leads g hf d he') hfresh
    · exact absurd (h.leads g' hgN' d he') hfresh
  · rcases h.target_inserted hf hc hg' hd' with ⟨-, rfl⟩ | ⟨rfl, -⟩ | ⟨hgN', hne', he'⟩
    · exact absurd (h.leads f hf d he) hfresh
    · rfl
    · exact absurd (h.once g' f hgN' hf d he' he) hne'
  · rcases h.target_inserted hf hc hg' hd' with ⟨-, rfl⟩ | ⟨-, he'⟩ | ⟨hgN', -, he'⟩
    · exact absurd (h.leads g hgN d he) hfresh
    · exact absurd (h.once g f hgN hf d he he') hne
    · exact h.once g g' hgN hgN' d he he'

theorem names_inserted (hd : d ∈ insert c N)
    (hg : Referrer.decode ((s.inserted f c).referrerAt d) = some g) :
    g.Inside s.region ∧ (FieldOf (insert c N) g ∨ (s.inserted f c).targetAt g ≠ some d) := by
  have hheld := h.holds c (.inr hc)
  have hnext := h.target_holds hf
  by_cases hdc : d = c
  · subst hdc
    rw [h.referrer_inserted hf hc, f.decode_encode (h.inside hf) h.short] at hg
    obtain rfl := Option.some.inj hg
    exact ⟨h.inside hf, .inl (fieldOf_insert.2 (.inr hf))⟩
  · have hdN := hd.resolve_left hdc
    by_cases hbehind : s.targetAt f = some d
    · have hinside : (Referrer.next c).Inside s.region := hheld
      rw [referrerAt_inserted_next hnext hbehind,
        (Referrer.next c).decode_encode hinside h.short] at hg
      obtain rfl := Option.some.inj hg
      exact ⟨hinside, .inl (fieldOf_insert.2 (.inl rfl))⟩
    · rw [h.referrer_inserted_ne hf hc (.inl hdN) hdc hbehind] at hg
      obtain ⟨hinside, hnamed⟩ := h.names d hdN g hg
      refine ⟨hinside, ?_⟩
      by_cases hfield : FieldOf (insert c N) g
      · exact .inl hfield
      · have hgN : ¬FieldOf N g := fun hg => hfield (fieldOf_insert.2 (.inr hg))
        have hgc : g ≠ .next c := fun he => hfield (fieldOf_insert.2 (.inl he))
        have hgf : g ≠ f := by
          intro he
          subst he
          exact hgN hf
        rw [targetAt_inserted_ne hheld (h.inside hf) hnext hinside hgf hgc]
        exact .inr (hnamed.resolve_left hgN)

theorem last_inserted (hempty : f = .head .remainder → s.targetAt f = none)
    (hside : ∀ r, s.targetAt (.head .remainder) = some r → f ≠ .next r) {r : Nat}
    (hr : (s.inserted f c).targetAt (.head .remainder) = some r) :
    (s.inserted f c).targetAt (.next r) = none := by
  have hheld := h.holds c (.inr hc)
  have hnext := h.target_holds hf
  rcases h.target_inserted hf hc (g := .head .remainder) trivial hr with
    ⟨he, rfl⟩ | ⟨he, -⟩ | ⟨-, -, he⟩
  · rw [targetAt_inserted_chunk hheld (h.inside hf) hnext h.short (h.field_ne hf hc)]
    exact hempty he.symm
  · cases he
  · have hrN : r ∈ N := h.leads (.head .remainder) trivial r he
    rw [targetAt_inserted_ne (g := .next r) hheld (h.inside hf) hnext (h.holds r (.inl hrN))
      (hside r he).symm (h.field_ne (f := .next r) hrN hc)]
    exact h.last r he

theorem exact_inserted (hwhole : whole) (hg : FieldOf (insert c N) g)
    (hd : (s.inserted f c).targetAt g = some d) : (s.inserted f c).referrerAt d = g.encode := by
  have hfresh := h.fresh hc
  rcases h.target_inserted hf hc hg hd with ⟨rfl, rfl⟩ | ⟨rfl, he⟩ | ⟨hg, hne, he⟩
  · exact h.referrer_inserted hf hc
  · exact referrerAt_inserted_next (h.target_holds hf) he
  · have hdN := h.leads g hg d he
    have hdc : d ≠ c := by
      intro hdc
      subst hdc
      exact hfresh hdN
    have hbehind : s.targetAt f ≠ some d := fun he' => hne (h.once g f hg hf d he he')
    rw [h.referrer_inserted_ne hf hc (.inl hdN) hdc hbehind]
    exact h.exact hwhole g hg d he

theorem onList_inserted (hd : s.OnList d) : (s.inserted f c).OnList d := by
  have hheld := h.holds c (.inr hc)
  have hnext := h.target_holds hf
  have hchunk := targetAt_inserted_chunk hheld (h.inside hf) hnext h.short (h.field_ne hf hc)
  have hfield := targetAt_inserted hheld (h.inside hf) hnext h.short
  have hstep : ∀ g, FieldOf N g → ∀ e, s.targetAt g = some e →
      (∀ e', (s.inserted f c).targetAt g = some e' → (s.inserted f c).OnList e') →
      (s.inserted f c).OnList e := by
    intro g hg e he hlead
    by_cases hgf : g = f
    · subst hgf
      exact .next (hlead c hfield) (hchunk.trans he)
    · apply hlead e
      rw [targetAt_inserted_ne hheld (h.inside hf) hnext (h.inside hg) hgf (h.field_ne hg hc)]
      exact he
  induction hd with
  | @head l e he => exact hstep (.head l) trivial e he fun e' he' => .head he'
  | @next e e' he hlink ih =>
    exact hstep (.next e) (h.mem_of_onList he) e' hlink fun e'' he'' => .next ih he''

theorem onList_inserted_self (hwhole : whole) : (s.inserted f c).OnList c := by
  have hfield := targetAt_inserted (h.holds c (.inr hc)) (h.inside hf) (h.target_holds hf) h.short
  cases f with
  | head l => exact .head hfield
  | next e => exact .next (h.onList_inserted hf hc (h.reached hwhole e hf)) hfield

theorem inserted (hempty : f = .head .remainder → s.targetAt f = none)
    (hside : ∀ r, s.targetAt (.head .remainder) = some r → f ≠ .next r) :
    (s.inserted f c).Woven whole (insert c N) (H \ {c}) := by
  have hlen := (changed_inserted (s := s) f c).len
  constructor
  case short =>
    rw [hlen]
    exact h.short
  case holds =>
    intro d hd
    rcases hd with (rfl | hd) | hd
    · exact (h.holds d (.inr hc)).of_len hlen
    · exact (h.holds d (.inl hd)).of_len hlen
    · exact (h.holds d (.inr hd.1)).of_len hlen
  case apart =>
    intro d hd hd'
    rcases hd with rfl | hd
    · exact hd'.2 rfl
    · exact h.apart d hd hd'.1
  case leads => exact fun g hg d hd => h.leads_inserted hf hc hg hd
  case once => exact fun g g' hg hg' d hd hd' => h.once_inserted hf hc hg hg' hd hd'
  case names =>
    intro d hd g hg
    obtain ⟨hinside, hnamed⟩ := h.names_inserted hf hc hd hg
    exact ⟨hinside.of_len hlen, hnamed⟩
  case hand =>
    intro d hd
    have hbehind : s.targetAt f ≠ some d := fun he => h.apart d (h.leads f hf d he) hd.1
    rw [h.referrer_inserted_ne hf hc (.inr hd.1) hd.2 hbehind]
    exact h.hand d hd.1
  case last => exact fun r hr => h.last_inserted hf hc hempty hside hr
  case exact => exact fun hwhole g hg d hd => h.exact_inserted hf hc hwhole hg hd
  case reached =>
    intro hwhole d hd
    rcases hd with rfl | hd
    · exact h.onList_inserted_self hf hc hwhole
    · exact h.onList_inserted hf hc (h.reached hwhole d hd)

end Inserted

/-- The walk to the place of a chunk ends at a field of the list it began on. -/
theorem meets_placeOf (h : s.Woven whole N H) (hf : FieldOf N f) (haside : s.Aside f) (fuel : Nat) :
    Meets (placeOf c fuel f (s.targetAt f)) s (fun g t => t = s ∧ FieldOf N g ∧ s.Aside g)
      (fun e _ => e = .endless) := by
  induction fuel generalizing f with
  | zero => exact meets_throw rfl
  | succ fuel ih =>
    cases ht : s.targetAt f with
    | none => exact meets_pure ⟨rfl, hf, haside⟩
    | some d =>
      rw [placeOf]
      split
      · exact meets_pure ⟨rfl, hf, haside⟩
      · have hd := h.leads f hf d ht
        have hheld := h.holds d (.inl hd)
        have hnext : s.region.nextOf d = .ok (s.targetAt (.next d)) :=
          Region.nextOf_eq hheld.1 hheld.2
        apply meets_after (reading_eq hnext)
        apply ih (f := .next d) hd
        constructor
        · exact Referrer.noConfusion
        · intro r hr he
          obtain rfl := Referrer.next.inj he
          exact haside.head (h.once f (.head .remainder) hf trivial d ht hr)

theorem meets_insertAt (h : s.Woven whole N H) (hf : FieldOf N f) (hc : c ∈ H)
    (hempty : f = .head .remainder → s.targetAt f = none)
    (hside : ∀ r, s.targetAt (.head .remainder) = some r → f ≠ .next r)
    {E : Fault → Store → Prop} :
    Meets (insertAt f c) s
      (fun _ t => Gained whole N H c s t ∧
        (f ≠ .head .remainder → t.targetAt (.head .remainder) = s.targetAt (.head .remainder)))
      E := by
  have hheld := h.holds c (.inr hc)
  have hnext := h.target_holds hf
  apply meets_of_ok (insertAt_eq hheld (h.inside hf) hnext)
  refine ⟨⟨h.inserted hf hc hempty hside, ?_⟩, fun hne => ?_⟩
  · apply (changed_inserted f c).mono
    apply Set.union_subset
    · exact (bytes_subset hf).trans (Region.linkBytesOf_mono (Set.subset_insert c N))
    · apply Region.linkBytesOf_mono
      intro d hd
      rcases hd with rfl | hd
      · exact .inl rfl
      · exact .inr (h.leads f hf d hd)
  · exact targetAt_inserted_ne (g := .head .remainder) hheld (h.inside hf) hnext trivial hne.symm
      Referrer.noConfusion

theorem meets_insertFront (h : s.Woven whole N H) (hc : c ∈ H) {l : ListId}
    (hempty : l = .remainder → s.targetAt (.head .remainder) = none)
    {E : Fault → Store → Prop} :
    Meets (insertAt (.head l) c) s
      (fun _ t => Gained whole N H c s t ∧
        (l ≠ .remainder → t.targetAt (.head .remainder) = s.targetAt (.head .remainder)))
      E := by
  apply (h.meets_insertAt (f := .head l) trivial hc ?_ fun _ _ => Referrer.noConfusion).imp
  · rintro _ t ⟨ht, hkeep⟩
    exact ⟨ht, fun hne => hkeep fun he => hne (Referrer.head.inj he)⟩
  · intro he
    obtain rfl := Referrer.head.inj he
    exact hempty rfl

theorem meets_insertOrdered (h : s.Woven whole N H) (hc : c ∈ H) {l : ListId}
    (hl : l ≠ .remainder) (fuel : Nat) :
    Meets (insertOrdered fuel l c) s
      (fun _ t => Gained whole N H c s t ∧
        t.targetAt (.head .remainder) = s.targetAt (.head .remainder))
      (fun e _ => e = .endless) := by
  have haside : s.Aside (.head l) :=
    ⟨fun he => hl (Referrer.head.inj he), fun _ _ => Referrer.noConfusion⟩
  have hhead : Store.head l s = .ok (s.targetAt (.head l)) s := rfl
  apply meets_after hhead
  apply (h.meets_placeOf (f := .head l) trivial haside fuel).bind
  rintro g _ ⟨rfl, hg, hgaside⟩
  apply (h.meets_insertAt hg hc (fun he => absurd he hgaside.head) hgaside.next).imp
  rintro _ t ⟨ht, hkeep⟩
  exact ⟨ht, hkeep hgaside.head⟩

/-- A chunk in hand is filed. The remainder is filed only when there is none. -/
theorem meets_file (h : s.Woven whole N H) (hc : c ∈ H) {filing : Filing}
    (hempty : filing = .remainder → s.targetAt (.head .remainder) = none) (fuel size : Nat) :
    Meets (file fuel c size filing) s
      (fun _ t => Gained whole N H c s t ∧
        (filing ≠ .remainder → t.targetAt (.head .remainder) = s.targetAt (.head .remainder)))
      (fun e _ => e = .endless) := by
  have hlist : filing ≠ .remainder → filing.list size ≠ .remainder :=
    fun hne => Filing.list_ne_remainder hne size
  rw [Meets, file_eq (h.holds c (.inr hc)) (h.hand c hc) fuel size filing hempty]
  cases filing with
  | dirty =>
    apply (h.meets_insertOrdered hc (hlist Filing.noConfusion) fuel).imp
    exact fun _ t ht => ⟨ht.1, fun _ => ht.2⟩
  | clean =>
    apply (h.meets_insertOrdered hc (hlist Filing.noConfusion) fuel).imp
    exact fun _ t ht => ⟨ht.1, fun _ => ht.2⟩
  | recent =>
    have hne : ListId.recent ≠ .remainder := hlist Filing.noConfusion
    apply (h.meets_insertFront hc fun he => absurd he hne).imp
    exact fun _ t ht => ⟨ht.1, fun _ => ht.2 hne⟩
  | remainder =>
    apply (h.meets_insertFront hc fun _ => hempty rfl).imp
    exact fun _ t ht => ⟨ht.1, fun hne => absurd rfl hne⟩

/-- What is stored beside the links of the listed chunks keeps the lists, when no bytes come to look
like a link to a chunk. -/
theorem redrawn {H' : Set Nat} (h : s.Woven whole N H) (hheads : t.heads = s.heads)
    (hlen : t.region.len = s.region.len)
    (hnext : ∀ d ∈ N, t.targetAt (.next d) = s.targetAt (.next d))
    (hreferrer : ∀ d ∈ N, t.referrerAt d = s.referrerAt d) (hfades : s.region.Fades t.region)
    (hholds : ∀ d ∈ H', t.region.Holds d) (hapart : ∀ d ∈ N, d ∉ H')
    (hnil : ∀ d ∈ H', t.referrerAt d = nilWord) : t.Woven whole N H' := by
  have htarget : ∀ f, FieldOf N f → t.targetAt f = s.targetAt f := by
    intro f hf
    cases f with
    | head l => exact congrArg (·.get l) hheads
    | next d => exact hnext d hf
  constructor
  case short =>
    rw [hlen]
    exact h.short
  case holds =>
    intro d hd
    rcases hd with hd | hd
    · exact (h.holds d (.inl hd)).of_len hlen
    · exact hholds d hd
  case apart => exact hapart
  case leads =>
    intro f hf d hd
    rw [htarget f hf] at hd
    exact h.leads f hf d hd
  case once =>
    intro f g hf hg d hd hd'
    rw [htarget f hf] at hd
    rw [htarget g hg] at hd'
    exact h.once f g hf hg d hd hd'
  case names =>
    intro d hd f hf
    rw [hreferrer d hd] at hf
    obtain ⟨hinside, hnamed⟩ := h.names d hd f hf
    refine ⟨hinside.of_len hlen, ?_⟩
    rcases hnamed with hfield | hne
    · exact .inl hfield
    · cases f with
      | head l => exact .inl trivial
      | next x =>
        rcases hfades x hinside.1 with hsame | hnone
        · exact .inr (by rw [targetAt, hsame]; exact hne)
        · exact .inr fun he => hnone d he (h.holds d (.inl hd)).1
  case hand => exact hnil
  case last =>
    intro r hr
    rw [htarget (.head .remainder) trivial] at hr
    have hrN : r ∈ N := h.leads (.head .remainder) trivial r hr
    rw [htarget (.next r) hrN]
    exact h.last r hr
  case exact =>
    intro hwhole f hf d hd
    rw [htarget f hf] at hd
    rw [hreferrer d (h.leads f hf d hd)]
    exact h.exact hwhole f hf d hd
  case reached =>
    intro hwhole c hc
    have hlisted := h.reached hwhole c hc
    clear hc
    induction hlisted with
    | @head l d hd => exact .head ((htarget (.head l) trivial).trans hd)
    | @next d e hd he ih => exact .next ih ((htarget (.next d) (h.mem_of_onList hd)).trans he)

end Woven

end Store

end BoundaryHeap
