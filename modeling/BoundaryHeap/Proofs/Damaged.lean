import BoundaryHeap.Proofs.Intact
import BoundaryHeap.Proofs.Stranding

namespace BoundaryHeap

open Region (Changed linkBytesOf)

namespace Store

variable {s t : Store} {L : Lists} {A : Shape} {c d : Nat} {f g : Referrer}

theorem Linked.around (h : s.Linked L) {l : ListId} (hc : c ∈ L l) :
    ∃ xs ys, L l = xs ++ c :: ys ∧ s.Threads (.next c) ys := by
  obtain ⟨xs, ys, hl⟩ := List.append_of_mem hc
  exact ⟨xs, ys, hl, (h.seam hl).rest.2.2⟩

theorem Linked.leads (h : s.Linked L) (hf : FieldOf {c | ∃ l, c ∈ L l} f)
    (hd : s.targetAt f = some d) : (∃ l, d ∈ L l) ∧ s.referrerAt d = f.encode := by
  have hstep : ∀ (l : ListId) (ys : List Nat), (∀ e ∈ ys, e ∈ L l) → s.Threads f ys →
      (∃ l, d ∈ L l) ∧ s.referrerAt d = f.encode := by
    intro l ys hys hthreads
    cases ys with
    | nil =>
      have hnone : s.targetAt f = none := hthreads
      rw [hnone] at hd
      cases hd
    | cons e rest =>
      obtain ⟨htarget, hreferrer, -⟩ := hthreads
      obtain rfl := Option.some.inj (htarget.symm.trans hd)
      exact ⟨⟨l, hys e (List.mem_cons_self ..)⟩, hreferrer⟩
  cases f with
  | head l => exact hstep l (L l) (fun _ he => he) (h.threads l)
  | next c =>
    obtain ⟨l, hc⟩ := hf
    obtain ⟨xs, ys, hl, hthreads⟩ := h.around hc
    apply hstep l ys _ hthreads
    intro e he
    rw [hl]
    exact List.mem_append_right _ (List.mem_cons_of_mem _ he)

theorem Threads.onList {xs : List Nat} (h : s.Threads f xs)
    (hf : ∀ d, s.targetAt f = some d → s.OnList d) : ∀ d ∈ xs, s.OnList d := by
  induction xs generalizing f with
  | nil =>
    intro d hd
    cases hd
  | cons e rest ih =>
    obtain ⟨htarget, -, hrest⟩ := h
    have he := hf e htarget
    intro d hd
    rcases List.mem_cons.1 hd with rfl | hd
    · exact he
    · exact ih hrest (fun d hd => .next he hd) d hd

theorem Linked.field_inside (h : s.Linked L) (hf : FieldOf {c | ∃ l, c ∈ L l} f) :
    f.Inside s.region := by
  cases f with
  | head l => trivial
  | next c =>
    obtain ⟨l, hc⟩ := hf
    exact h.holds hc

theorem Linked.once (h : s.Linked L) (hf : FieldOf {c | ∃ l, c ∈ L l} f)
    (hg : FieldOf {c | ∃ l, c ∈ L l} g) (hd : s.targetAt f = some d) (hd' : s.targetAt g = some d) :
    f = g := by
  have hword := (h.leads hf hd).2.symm.trans (h.leads hg hd').2
  have hdecode := congrArg Referrer.decode hword
  rw [f.decode_encode (h.field_inside hf) h.short,
    g.decode_encode (h.field_inside hg) h.short] at hdecode
  exact Option.some.inj hdecode

theorem Linked.names (h : s.Linked L) {l : ListId} (hc : c ∈ L l)
    (hf : Referrer.decode (s.referrerAt c) = some f) :
    f.Inside s.region ∧ FieldOf {c | ∃ l, c ∈ L l} f := by
  obtain ⟨xs, ys, hl⟩ := List.append_of_mem hc
  have hseam := h.seam hl
  obtain ⟨-, hreferrer, -⟩ := hseam.rest
  rw [hreferrer, ((Referrer.head l).along xs).decode_encode hseam.inside h.short] at hf
  obtain rfl := Option.some.inj hf
  refine ⟨hseam.inside, ?_⟩
  rcases (Referrer.head l).along_eq xs with ⟨-, he⟩ | ⟨e, -, hmem, he⟩
  · rw [he]
    trivial
  · rw [he]
    refine ⟨l, ?_⟩
    rw [hl]
    exact List.mem_append_left _ hmem

theorem Linked.last (h : s.Linked L) {l : ListId} (hsingle : (L l).length ≤ 1)
    (hc : s.targetAt (.head l) = some c) : s.targetAt (.next c) = none := by
  have hthreads := h.threads l
  cases hl : L l with
  | nil =>
    rw [hl] at hthreads
    have hnone : s.targetAt (.head l) = none := hthreads
    rw [hnone] at hc
    cases hc
  | cons e rest =>
    rw [hl] at hthreads hsingle
    obtain ⟨htarget, -, hrest⟩ := hthreads
    obtain rfl := Option.some.inj (htarget.symm.trans hc)
    have hnil : rest = [] := by
      apply List.eq_nil_of_length_eq_zero
      rw [List.length_cons] at hsingle
      omega
    subst hnil
    exact hrest

theorem Linked.woven (h : s.Linked L) (hsingle : (L .remainder).length ≤ 1) :
    s.Woven True {c | ∃ l, c ∈ L l} ∅ := by
  constructor
  case short => exact h.short
  case holds =>
    intro c hc
    rcases hc with ⟨l, hc⟩ | hc
    · exact h.holds hc
    · exact absurd hc (Set.notMem_empty c)
  case apart => exact fun c _ => Set.notMem_empty c
  case leads => exact fun f hf d hd => (h.leads hf hd).1
  case once => exact fun f g hf hg d hd hd' => h.once hf hg hd hd'
  case names =>
    rintro c ⟨l, hc⟩ f hf
    obtain ⟨hinside, hfield⟩ := h.names hc hf
    exact ⟨hinside, .inl hfield⟩
  case hand => exact fun c hc => absurd hc (Set.notMem_empty c)
  case last => exact fun r hr => h.last hsingle hr
  case exact => exact fun _ f hf d hd => (h.leads hf hd).2
  case reached =>
    rintro - c ⟨l, hc⟩
    exact (h.threads l).onList (fun d hd => .head hd) c hc

theorem Linked.woven_settled (h : s.Linked A.lists) (hA : A.Settled) :
    s.Woven True (unheld A.chunks ∅) ∅ := by
  have hlisted : unheld A.chunks ∅ = {c | ∃ l, c ∈ A.lists l} := by
    ext c
    constructor
    · intro hc
      exact Shape.Holding.listed hA hc.1 (Set.notMem_empty c)
    · intro hc
      exact ⟨hA.valid.isFree hc, Set.notMem_empty c⟩
  rw [hlisted]
  exact h.woven hA.valid.single

/-- A settled heap whose bytes were overwritten, with what is still known of tags and links. -/
theorem Represents.upholds {marred : Set Nat} {whole : Prop} (h : s.Represents A)
    (hlen : t.region.len = s.region.len)
    (hmarred : ∀ c ∈ marred, ∃ u, (c, u) ∈ liveIn A.chunks ∧ t.region.Defaced c u.size)
    (htags : ∀ c u, (c, u) ∈ A.chunks → c ∉ marred → t.region.HasTag c u)
    (hwoven : t.Woven whole (unheld A.chunks ∅) ∅) :
    t.Upholds ⟨t.region, A.chunks, marred, whole⟩ A.chunks ∅ := by
  constructor
  case bounded =>
    rw [hlen, h.len]
    exact h.valid.bounded
  case tiles =>
    rw [hlen, h.len]
    exact h.valid.tiles
  case live => rfl
  case marred => exact hmarred
  case tags => exact htags
  case held => exact fun c hc => absurd hc (Set.notMem_empty c)
  case woven => exact hwoven
  case changed => exact .refl ..

end Store

namespace Heap

variable {W : Wreck} {σ : Session} {chunks : List Chunk} {c fuel size request : Nat} {owner : Owner}

/-- Nothing but vacant bytes was stored to. -/
def Spares (W : Wreck) (s : Store) : Prop :=
  Changed (vacant W.chunks) W.region s.region

/-- What a search of the damaged heap leaves: one chunk in hand, or none. -/
def Sought (W : Wreck) : Option Nat → Store → Prop
  | none, t => ∃ chunks, t.Upholds W chunks ∅
  | some c, t => ∃ chunks, t.Upholds W chunks {c}

theorem sought_of_took {least : Nat} {o : Option Nat} {t : Store}
    (h : Store.Took W chunks ∅ least o t) : Sought W o t := by
  cases o with
  | none => exact ⟨chunks, h⟩
  | some c =>
    obtain ⟨-, -, ht⟩ := h
    rw [insert_empty_eq] at ht
    exact ⟨chunks, ht⟩

theorem meets_mergeWithin (h : σ.heap.store.Upholds W chunks ∅) (fuel : Nat) :
    Meets (mergeWithin fuel) σ (OfStore fun _ t => ∃ chunks', t.Upholds W chunks' ∅)
      (OfStore W.Fails) := by
  apply (meets_lift (h.meets_mergeAll fuel)).bind
  intro counts τ hτ
  exact hτ

theorem meets_merge (h : σ.heap.store.Upholds W chunks ∅) :
    Meets merge σ (OfStore fun _ t => ∃ chunks', t.Upholds W chunks' ∅) (OfStore W.Fails) := by
  have hfuel : (observe fun h => .ok h.fuel) σ = .ok σ.heap.fuel σ := rfl
  apply meets_after hfuel
  exact meets_mergeWithin h σ.heap.fuel

/-- A program that leaves the heap alone. -/
def Idle (m : HeapM Unit) : Prop := ∀ σ : Session, ∃ j, m σ = .ok () ⟨σ.heap, j⟩

theorem meets_cutFitting (h : σ.heap.store.Upholds W chunks ∅) (hmin : minChunk ≤ size)
    (hgrain : size % granule = 0) (fuel : Nat) {found : HeapM Unit} (hfound : Idle found) :
    Meets (cutFitting fuel size found) σ (OfStore (Sought W)) (OfStore W.Fails) := by
  apply (meets_lift (h.meets_takeFitting fuel size)).bind
  intro o τ hτ
  cases o with
  | none => exact ⟨chunks, hτ⟩
  | some c =>
    obtain ⟨⟨u, hu, hle⟩, -, ht⟩ := hτ
    rw [insert_empty_eq] at ht
    obtain ⟨j, hj⟩ := hfound τ
    apply meets_after hj
    have hlast : (observe fun h => .ok h.lastSize) ⟨τ.heap, j⟩ =
        .ok τ.heap.lastSize ⟨τ.heap, j⟩ := rfl
    apply meets_after hlast
    have hcut := ht.meets_cutDown rfl hu hmin hgrain hle fuel τ.heap.lastSize
    apply (meets_lift (σ := ⟨τ.heap, j⟩) hcut).bind
    intro _ τ' hτ'
    exact hτ'

theorem meets_search (h : σ.heap.store.Upholds W chunks ∅) (hmin : minChunk ≤ size)
    (hgrain : size % granule = 0) (fuel : Nat) :
    Meets (search fuel size) σ (OfStore (Sought W)) (OfStore W.Fails) := by
  apply (meets_lift (h.meets_takeRecentHead size)).bind
  intro o σ₁ h₁
  cases o with
  | some c => exact sought_of_took h₁
  | none =>
    have h₁ : σ₁.heap.store.Upholds W chunks ∅ := h₁
    apply (meets_lift (h₁.meets_takeDirty fuel size)).bind
    intro o σ₂ h₂
    cases o with
    | some c => exact sought_of_took h₂
    | none =>
      have h₂ : σ₂.heap.store.Upholds W chunks ∅ := h₂
      apply (meets_lift (h₂.meets_takeRecent size fuel fuel)).bind
      intro o σ₃ h₃
      cases o with
      | some c => exact sought_of_took h₃
      | none =>
        apply (meets_cutFitting h₃ hmin hgrain fuel fun σ => ⟨σ.journal, rfl⟩).bind
        intro o σ₄ h₄
        cases o with
        | some c => exact h₄
        | none =>
          obtain ⟨chunks₄, h₄⟩ := h₄
          apply (meets_mergeWithin h₄ fuel).bind
          rintro _ σ₅ ⟨chunks₅, h₅⟩
          exact meets_cutFitting h₅ hmin hgrain fuel fun σ => ⟨_, rfl⟩

/-- However it ends, the program leaves the counters as they are. -/
def Uncounted (m : HeapM α) : Prop :=
  ∀ σ, Meets m σ (fun _ τ => τ.heap.counters = σ.heap.counters) fun _ τ =>
    τ.heap.counters = σ.heap.counters

namespace Uncounted

theorem pure (a : α) : Uncounted (pure a) :=
  fun _ => rfl

theorem note (r : Record) : Uncounted (note r) :=
  fun _ => rfl

theorem observe (g : Heap → Except Fault α) : Uncounted (observe g) := by
  intro σ
  unfold Meets Heap.observe
  cases g σ.heap <;> rfl

theorem lift (m : StoreM α) : Uncounted (liftM m) := by
  rintro ⟨⟨store, live, lastSize, counters⟩, journal⟩
  show Meets (onStore m) _ _ _
  cases hm : m store with
  | ok a s =>
    have hrun : onStore m ⟨⟨store, live, lastSize, counters⟩, journal⟩ =
        .ok a ⟨⟨s, live, lastSize, counters⟩, journal⟩ := by simp only [onStore, hm]
    exact meets_of_ok hrun rfl
  | error f s =>
    have hrun : onStore m ⟨⟨store, live, lastSize, counters⟩, journal⟩ =
        .error f ⟨⟨s, live, lastSize, counters⟩, journal⟩ := by simp only [onStore, hm]
    exact meets_of_error hrun rfl

theorem bind {m : HeapM α} {k : α → HeapM β} (hm : Uncounted m) (hk : ∀ a, Uncounted (k a)) :
    Uncounted (m >>= k) := by
  intro σ
  apply (hm σ).bind
  intro a τ hτ
  have hrest := hk a τ
  rw [hτ] at hrest
  exact hrest

end Uncounted

theorem uncounted_cutFitting (fuel size : Nat) {found : HeapM Unit} (hfound : Uncounted found) :
    Uncounted (cutFitting fuel size found) := by
  apply (Uncounted.lift _).bind
  rintro (_ | c)
  · exact .pure none
  · exact hfound.bind fun _ => (Uncounted.observe _).bind fun _ =>
      (Uncounted.lift _).bind fun _ => .pure _

theorem uncounted_search (fuel size : Nat) : Uncounted (search fuel size) := by
  have hserved (r : Record) (c : Nat) : Uncounted (do note r; return some c) :=
    (Uncounted.note r).bind fun _ => .pure _
  apply (Uncounted.lift _).bind
  rintro (_ | c)
  · apply (Uncounted.lift _).bind
    rintro (_ | c)
    · apply (Uncounted.lift _).bind
      rintro (_ | c)
      · apply (uncounted_cutFitting fuel size (.pure ())).bind
        rintro (_ | c)
        · have hmerge : Uncounted (mergeWithin fuel) := (Uncounted.lift _).bind fun _ => .note _
          exact hmerge.bind fun _ => uncounted_cutFitting fuel size (.note _)
        · exact .pure _
      · exact hserved _ c
    · exact hserved _ c
  · exact hserved _ c

theorem meets_handOut (h : σ.heap.store.Upholds W chunks {c})
    (huse : σ.heap.counters.inUse ≤ maxRegion) (size : Nat) (owner : Owner)
    {E : Fault → Session → Prop} :
    Meets (handOut c size owner) σ (OfStore fun _ => Spares W) E := by
  obtain ⟨u, hu, hsize⟩ := h.exists_sizeOf (h.held c rfl)
  obtain ⟨v, hv, hfree⟩ := h.held c rfl
  obtain rfl := h.tiles.unique hu hv
  have hend := h.tiles.end_le hu
  have hpos := h.tiles.size_pos hu
  obtain ⟨s₁, s₂, hstamp, hzero, -, -, hr⟩ :=
    Store.stamp_zero_run (h.grid hu) (h.tiles.proper hu) hend owner
  have hinside : c + tagBytes < s₂.region.len := by
    rw [hr.len]
    simp only [tagBytes]
    omega
  have hvacant : Set.Ico c (c + u.size) ⊆ vacant W.chunks := by
    rw [h.vacant_eq]
    exact h.tiles.subset_vacant hu hfree
  have hword : c / granule < LiveMap.capacity := LiveMap.lt_capacity (by omega) h.bounded
  have hsum : σ.heap.counters.inUse + u.size < addressLimit :=
    add_lt_addressLimit huse (Nat.le_trans (by omega) h.bounded)
  have hdoes : Does (handOut c size owner) σ.heap (s₂.region.base + (c + tagBytes))
      ⟨s₂, σ.heap.live.mark (c / granule), size, σ.heap.counters.grant u.size⟩ := by
    apply (Does.lift hsize).bind
    apply (Does.lift hstamp).bind
    apply (Does.lift hzero).bind
    apply (Does.mark hword _).bind
    apply (Does.get (fun h => h.counters.inUse) _).bind
    apply (Does.check hsum _).bind
    apply (Does.adjust _ _).bind
    apply (Does.get (fun h => (h.base, h.len)) _).bind
    exact (Does.check hinside _).bind (.pure _ _)
  obtain ⟨j, hrun⟩ := hdoes σ.journal
  exact meets_of_ok hrun (h.changed.trans (hr.mono hvacant))

/-- An allocation on a damaged heap is served, refused for want of memory, or fails. -/
theorem meets_allocate (h : σ.heap.store.Upholds W chunks ∅)
    (huse : σ.heap.counters.inUse ≤ maxRegion) (request : Nat) (owner : Owner) :
    Meets (allocate request owner) σ (OfStore fun _ => Spares W)
      (OfStore fun f t => (f = .error (.outOfMemory request) ∧ Spares W t) ∨ W.Fails f t) := by
  have hrefuse : ∀ τ : Session, Spares W τ.heap.store →
      Meets (refuse request) τ (OfStore fun (_ : Nat) => Spares W)
        (OfStore fun f t => (f = .error (.outOfMemory request) ∧ Spares W t) ∨ W.Fails f t) := by
    intro τ hτ
    obtain ⟨j, hrun⟩ := Fails.refuse (α := Nat) request τ.heap τ.journal
    exact meets_of_error hrun (.inl ⟨rfl, hτ⟩)
  have hfuel : (observe fun h => .ok h.fuel) σ = .ok σ.heap.fuel σ := rfl
  have hlen : (observe fun h => .ok h.len) σ = .ok σ.heap.len σ := rfl
  apply meets_after hfuel
  apply meets_after hlen
  cases hreq : chunkSize? request with
  | none => exact hrefuse σ h.changed
  | some size =>
    obtain ⟨hmin, hgrain, -⟩ := chunkSize?_spec hreq
    by_cases hlarge : σ.heap.len < size
    · simp only [if_pos hlarge]
      exact hrefuse σ h.changed
    · simp only [if_neg hlarge]
      have hsearch := (meets_search h hmin hgrain σ.heap.fuel).and (uncounted_search _ size σ)
      apply (hsearch.mono (fun _ _ hq => hq) fun _ _ he => .inr he.1).bind
      rintro o τ ⟨hτ, hcounters⟩
      cases o with
      | none =>
        obtain ⟨chunks', ht⟩ := hτ
        exact hrefuse τ ht.changed
      | some c =>
        obtain ⟨chunks', ht⟩ := hτ
        rw [← hcounters] at huse
        exact meets_handOut ht huse size owner

theorem run_of_meets {m : HeapM α} {h : Heap} {Q : α → Store → Prop} {E : Fault → Store → Prop}
    (hm : Meets m ⟨h, []⟩ (OfStore Q) (OfStore E)) :
    (∃ a, (h.run m).result = .ok a ∧ Q a (h.run m).after.store) ∨
      ∃ f, (h.run m).result = .error f ∧ E f (h.run m).after.store := by
  unfold Meets at hm
  unfold run
  cases hrun : m ⟨h, []⟩ with
  | ok a σ =>
    rw [hrun] at hm
    exact .inl ⟨a, rfl, hm⟩
  | error f σ =>
    rw [hrun] at hm
    exact .inr ⟨f, rfl, hm⟩

end Heap

end BoundaryHeap
