import BoundaryHeap.Proofs.Merging
import BoundaryHeap.Proofs.Wreck
import BoundaryHeap.Store.Search

namespace BoundaryHeap

open Region (Changed linkBytesOf)

namespace Store

def Sheds (c : Nat) (s t : Store) : Prop :=
  ∀ r, t.heads.get .remainder = some r → s.heads.get .remainder = some r ∧ r ≠ c

theorem Sheds.none_of_head {c : Nat} {s t : Store} (h : Sheds c s t)
    (hc : s.heads.get .remainder = some c) : t.heads.get .remainder = none := by
  cases ht : t.heads.get .remainder with
  | none => rfl
  | some r =>
    obtain ⟨hr, hne⟩ := h r ht
    exact absurd (Option.some.inj (hr.symm.trans hc)) hne

/-- What a search leaves: it took a free chunk of the least size off its list, or none. -/
def Took (W : Wreck) (chunks : List Chunk) (H : Set Nat) (least : Nat) : Option Nat → Store → Prop
  | none, t => t.Upholds W chunks H
  | some c, t => (∃ u, (c, u) ∈ chunks ∧ least ≤ u.size) ∧ c ∉ H ∧ t.Upholds W chunks (insert c H)

namespace Upholds

variable {W : Wreck} {chunks : List Chunk} {H : Set Nat} {s : Store} {c d size : Nat} {u : Tag}
  {l : ListId} {E : Fault → Store → Prop}

theorem meets_detach (h : s.Upholds W chunks H) (hc : c ∈ unheld chunks H) :
    Meets (detach c) s (fun _ t => t.Upholds W chunks (insert c H) ∧ Sheds c s t) W.Fails := by
  apply (h.woven.meets_detach hc).mono
  · rintro _ t ⟨hwoven, hr, hsheds⟩
    rw [← unheld_insert] at hwoven
    refine ⟨h.relinked hwoven ?_ (hr.mono (Region.linkBytesOf_mono fun d hd => hd.1)), hsheds⟩
    intro d hd
    rcases hd with rfl | hd
    · exact hc.1
    · exact h.held d hd
  · rintro e t ⟨rfl, hreports, hnot⟩
    exact .inr ⟨hreports, chunks, H, h, fun hwhole => absurd hwhole hnot⟩

theorem meets_takeFirst (h : s.Upholds W chunks H) (l : ListId) :
    Meets (takeFirst l) s
      (fun o t => o = s.heads.get l ∧
        match o with
        | none => t = s
        | some c => c ∈ unheld chunks H ∧ t.Upholds W chunks (insert c H) ∧ Sheds c s t)
      W.Fails := by
  have hhead : head l s = .ok (s.heads.get l) s := rfl
  apply meets_after hhead
  cases hget : s.heads.get l with
  | none => exact meets_pure ⟨rfl, rfl⟩
  | some c =>
    have hc := h.mem_of_head hget
    apply (h.meets_detach hc).bind
    intro _ t ht
    exact meets_pure ⟨rfl, hc, ht⟩

theorem meets_file (h : s.Upholds W chunks H) (hc : c ∈ H) {filing : Filing}
    (hempty : filing = .remainder → s.heads.get .remainder = none) (fuel size : Nat) :
    Meets (file fuel c size filing) s
      (fun _ t => t.Upholds W chunks (H \ {c}) ∧
        (filing ≠ .remainder → t.heads.get .remainder = s.heads.get .remainder))
      W.Fails := by
  have hfree := h.held c hc
  apply (h.woven.meets_file hc hempty fuel size).mono
  · rintro _ t ⟨⟨hwoven, hr⟩, hkeep⟩
    rw [insert_unheld hfree] at hwoven hr
    exact ⟨h.relinked hwoven (fun d hd => h.held d hd.1)
      (hr.mono (Region.linkBytesOf_mono fun d hd => hd.1)), hkeep⟩
  · exact fun e t he => .inl he

theorem meets_refile (h : s.Upholds W chunks (insert c H)) (hc : c ∉ H) {filing : Filing}
    (hempty : filing = .remainder → s.heads.get .remainder = none) (fuel size : Nat) :
    Meets (file fuel c size filing) s
      (fun _ t => t.Upholds W chunks H ∧
        (filing ≠ .remainder → t.heads.get .remainder = s.heads.get .remainder))
      W.Fails := by
  have hfile := h.meets_file (Set.mem_insert c H) hempty fuel size
  rw [Set.insert_sdiff_self_of_notMem hc] at hfile
  exact hfile

theorem exists_sizeOf (h : s.Upholds W chunks H) (hc : FreeIn chunks c) :
    ∃ u, (c, u) ∈ chunks ∧ sizeOf c s = .ok u.size s := by
  obtain ⟨u, hu, hfree⟩ := hc
  exact ⟨u, hu, h.sizeOf_eq hu hfree⟩

theorem nextOf_eq (h : s.Upholds W chunks H) (hc : c ∈ unheld chunks H) :
    s.region.nextOf c = .ok (s.targetAt (.next c)) :=
  Region.nextOf_eq (h.holds hc.1).1 (h.holds hc.1).2

theorem meets_flushRecent (h : s.Upholds W chunks H) (walk fuel : Nat) :
    Meets (flushRecent walk fuel) s (fun _ t => t.Upholds W chunks H) W.Fails := by
  induction fuel generalizing s with
  | zero => exact meets_throw (.inl rfl)
  | succ fuel ih =>
    apply (h.meets_takeFirst .recent).bind
    rintro o t ⟨-, ht⟩
    cases o with
    | none =>
      subst ht
      exact meets_pure h
    | some c =>
      obtain ⟨hc, ht, -⟩ := ht
      obtain ⟨u, -, hsize⟩ := ht.exists_sizeOf hc.1
      apply meets_after hsize
      apply (ht.meets_refile hc.2 Filing.noConfusion walk u.size).bind
      intro _ t' ht'
      apply (ih ht'.1).bind
      intro _ t'' ht''
      exact meets_pure ht''

theorem meets_firstWith (h : s.Upholds W chunks H) {accepts : Nat → Bool} {fuel : Nat}
    {cur : Option Nat} (hcur : ∀ c, cur = some c → c ∈ unheld chunks H) :
    Meets (firstWith accepts fuel cur) s
      (fun o t => t = s ∧ ∀ c, o = some c → c ∈ unheld chunks H ∧
        ∃ u, (c, u) ∈ chunks ∧ accepts u.size = true)
      W.Fails := by
  induction fuel generalizing cur with
  | zero => exact meets_throw (.inl rfl)
  | succ fuel ih =>
    cases cur with
    | none =>
      refine meets_pure ⟨rfl, ?_⟩
      intro c hc
      cases hc
    | some c =>
      have hc := hcur c rfl
      obtain ⟨u, hu, hsize⟩ := h.exists_sizeOf hc.1
      apply meets_after hsize
      split
      next haccepts =>
        refine meets_pure ⟨rfl, ?_⟩
        intro d hd
        cases hd
        exact ⟨hc, u, hu, haccepts⟩
      next =>
        apply meets_after (reading_eq (h.nextOf_eq hc))
        exact ih fun d hd => h.woven.leads (.next c) hc d hd

theorem meets_firstIn (h : s.Upholds W chunks H) {accepts : Nat → Bool} (fuel : Nat) (l : ListId) :
    Meets (do firstWith accepts fuel (← head l)) s
      (fun o t => t = s ∧ ∀ c, o = some c → c ∈ unheld chunks H ∧
        ∃ u, (c, u) ∈ chunks ∧ accepts u.size = true)
      W.Fails := by
  have hhead : head l s = .ok (s.heads.get l) s := rfl
  apply meets_after hhead
  exact h.meets_firstWith fun c hc => h.mem_of_head hc

theorem took_of_detached {least : Nat} {t : Store} (hc : c ∈ unheld chunks H)
    (hu : (c, u) ∈ chunks) (hleast : least ≤ u.size) (ht : t.Upholds W chunks (insert c H)) :
    Took W chunks H least (some c) t :=
  ⟨⟨u, hu, hleast⟩, hc.2, ht⟩

theorem meets_takeFound {least : Nat} {m : StoreM (Option Nat)}
    (h : s.Upholds W chunks H)
    (hm : Meets m s (fun o t => t = s ∧ ∀ c, o = some c → c ∈ unheld chunks H ∧
      ∃ u, (c, u) ∈ chunks ∧ least ≤ u.size) W.Fails)
    {k : Option Nat → StoreM (Option Nat)} (hnone : k none = pure none)
    (hsome : ∀ c, k (some c) = do detach c; return some c) :
    Meets (m >>= k) s (Took W chunks H least) W.Fails := by
  apply hm.bind
  rintro o t ⟨rfl, ho⟩
  cases o with
  | none =>
    rw [hnone]
    exact meets_pure h
  | some c =>
    obtain ⟨hc, u, hu, hleast⟩ := ho c rfl
    rw [hsome]
    apply (h.meets_detach hc).bind
    intro _ t ht
    exact meets_pure (took_of_detached hc hu hleast ht.1)

theorem meets_takeRecentHead (h : s.Upholds W chunks H) (size : Nat) :
    Meets (takeRecentHead size) s (Took W chunks H size) W.Fails := by
  have hhead : head .recent s = .ok (s.heads.get .recent) s := rfl
  apply meets_after hhead
  cases hget : s.heads.get .recent with
  | none => exact meets_pure h
  | some c =>
    have hc := h.mem_of_head hget
    obtain ⟨u, hu, hsize⟩ := h.exists_sizeOf hc.1
    apply meets_after hsize
    split
    next hfits =>
      apply (h.meets_detach hc).bind
      intro _ t ht
      exact meets_pure (took_of_detached hc hu hfits.1 ht.1)
    next => exact meets_pure h

theorem meets_takeDirty (h : s.Upholds W chunks H) (fuel size : Nat) :
    Meets (takeDirty fuel size) s (Took W chunks H size) W.Fails := by
  refine h.meets_takeFound ?_ rfl fun _ => rfl
  apply (h.meets_firstIn fuel (.dirty (sizeClass size))).imp
  rintro o t ⟨rfl, ho⟩
  refine ⟨rfl, ?_⟩
  intro c hc
  obtain ⟨hmem, u, hu, heq⟩ := ho c hc
  exact ⟨hmem, u, hu, Nat.le_of_eq (beq_iff_eq.1 heq).symm⟩

theorem meets_takeRecent (h : s.Upholds W chunks H) (size walk fuel : Nat) :
    Meets (takeRecent size walk fuel) s (Took W chunks H size) W.Fails := by
  induction fuel generalizing s with
  | zero => exact meets_throw (.inl rfl)
  | succ fuel ih =>
    apply (h.meets_takeFirst .recent).bind
    rintro o t ⟨-, ht⟩
    cases o with
    | none =>
      subst ht
      exact meets_pure h
    | some c =>
      obtain ⟨hc, ht, -⟩ := ht
      obtain ⟨u, hu, hsize⟩ := ht.exists_sizeOf hc.1
      apply meets_after hsize
      split
      next heq => exact meets_pure (took_of_detached hc hu (Nat.le_of_eq heq.symm) ht)
      next =>
        apply (ht.meets_refile hc.2 Filing.noConfusion walk u.size).bind
        intro _ t' ht'
        exact ih ht'.1

theorem meets_fittingIn (h : s.Upholds W chunks H) (fuel size : Nat) (l : ListId) :
    Meets (fittingIn fuel l size) s
      (fun o t => t = s ∧ ∀ c, o = some c → c ∈ unheld chunks H ∧
        ∃ u, (c, u) ∈ chunks ∧ size ≤ u.size)
      W.Fails := by
  apply (h.meets_firstIn fuel l).imp
  rintro o t ⟨rfl, ho⟩
  refine ⟨rfl, ?_⟩
  intro c hc
  obtain ⟨hmem, u, hu, hle⟩ := ho c hc
  exact ⟨hmem, u, hu, of_decide_eq_true hle⟩

theorem meets_fittingInBins (h : s.Upholds W chunks H) (fuel size : Nat)
    (bins : List (Fin binCount)) :
    Meets (fittingInBins fuel size bins) s
      (fun o t => t = s ∧ ∀ c, o = some c → c ∈ unheld chunks H ∧
        ∃ u, (c, u) ∈ chunks ∧ size ≤ u.size)
      W.Fails := by
  induction bins with
  | nil =>
    refine meets_pure ⟨rfl, ?_⟩
    intro c hc
    cases hc
  | cons bin bins ih =>
    apply (h.meets_fittingIn fuel size (.clean bin)).bind
    rintro o t ⟨rfl, ho⟩
    cases o with
    | none => exact ih
    | some c => exact meets_pure ⟨rfl, ho⟩

theorem meets_findFitting (h : s.Upholds W chunks H) (fuel size : Nat) :
    Meets (findFitting fuel size) s
      (fun o t => t = s ∧ ∀ c, o = some c → c ∈ unheld chunks H ∧
        ∃ u, (c, u) ∈ chunks ∧ size ≤ u.size)
      W.Fails := by
  apply (h.meets_fittingIn fuel size .remainder).bind
  rintro o t ⟨rfl, ho⟩
  cases o with
  | none => exact h.meets_fittingInBins fuel size (binsFrom size)
  | some c => exact meets_pure ⟨rfl, ho⟩

theorem meets_takeFitting (h : s.Upholds W chunks H) (fuel size : Nat) :
    Meets (takeFitting fuel size) s (Took W chunks H size) W.Fails :=
  h.meets_takeFound (h.meets_findFitting fuel size) rfl fun _ => rfl

theorem not_held_inside (h : s.Upholds W chunks H) (hu : (c, u) ∈ chunks) (hpos : 0 < size)
    (hin : size < u.size) : c + size ∉ H := by
  intro hH
  obtain ⟨v, hv, -⟩ := h.held _ hH
  have hpos' := h.tiles.size_pos hv
  rcases h.tiles.apart hu hv with ⟨he, -⟩ | he | he
  · omega
  · omega
  · omega

theorem mem_insert_iff_halves (h : s.Upholds W chunks H) (hc : c ∈ H) (hu : (c, u) ∈ chunks) :
    d ∈ insert (c + size) H ↔
      (d ∈ H ∧ (d < c ∨ c + u.size ≤ d)) ∨ ∃ v, (d, v) ∈ Shape.halves c size u.size := by
  constructor
  · rintro (rfl | hd)
    · exact .inr ⟨_, Shape.mem_halves.2 (.inr rfl)⟩
    · obtain ⟨v, hv, -⟩ := h.held d hd
      have hpos := h.tiles.size_pos hv
      rcases h.tiles.apart hv hu with ⟨rfl, -⟩ | he | he
      · exact .inr ⟨_, Shape.mem_halves.2 (.inl rfl)⟩
      · exact .inl ⟨hd, .inl (by omega)⟩
      · exact .inl ⟨hd, .inr he⟩
  · rintro (hd | ⟨v, hv⟩)
    · exact .inr hd.1
    · rcases Shape.mem_halves.1 hv with he | he
      · cases he
        exact .inr hc
      · cases he
        exact .inl rfl

theorem meets_cut (h : s.Upholds W chunks H) (hc : c ∈ H) (hu : (c, u) ∈ chunks)
    (hmin : minChunk ≤ size) (hgrain : size % granule = 0) (hrest : size + minChunk ≤ u.size) :
    Meets (cut c size) s
      (fun rest t => rest = c + size ∧ c + size ∉ H ∧ t.heads = s.heads ∧
        ∃ chunks', t.Upholds W chunks' (insert (c + size) H))
      E := by
  obtain ⟨v, hv, hfree⟩ := h.held c hc
  obtain rfl := h.tiles.unique hu hv
  have hfresh : c + size ∉ H := by
    simp only [minChunk] at hmin hrest
    exact h.not_held_inside hu (by omega) (by omega)
  have hproper := h.tiles.proper hu
  have htag := h.tagAt hu (h.not_marred hu hfree)
  obtain ⟨t, hrun, hheads, htag₁, hnil₁, htag₂, hnil₂, hr⟩ :=
    cut_run (h.grid hu) htag hmin hgrain hproper hrest (h.tiles.end_le hu) h.bounded
  obtain ⟨pre, post, hspans⟩ := Spans.single h.tiles hu
  have hcut : Recut chunks c (c + u.size) pre [(c, u)] post (Shape.halves c size u.size) H
      (insert (c + size) H) s t := by
    constructor
    case spans => exact hspans
    case inHand =>
      intro d v hd
      cases List.mem_singleton.1 hd
      exact hc
    case tiles => exact Shape.tiles_halves hmin hgrain hrest hproper.2
    case free => exact Shape.forall_halves rfl rfl
    case heads => exact hheads
    case changed => exact hr
    case fades => exact (Fading.cut c size).of_ok hrun
    case tags => exact Shape.forall_halves htag₁ htag₂
    case nil => exact Shape.forall_halves hnil₁ hnil₂
    case hand => exact fun d => h.mem_insert_iff_halves hc hu
  exact meets_of_ok hrun ⟨rfl, hfresh, hheads, _, h.recut hcut⟩

theorem meets_dropRemainder (h : s.Upholds W chunks H) (fuel : Nat) :
    Meets (dropRemainder fuel) s
      (fun _ t => t.Upholds W chunks H ∧ t.heads.get .remainder = none) W.Fails := by
  apply (h.meets_takeFirst .remainder).bind
  rintro o t ⟨ho, ht⟩
  cases o with
  | none =>
    subst ht
    exact meets_pure ⟨h, ho.symm⟩
  | some old =>
    obtain ⟨hold, ht, hsheds⟩ := ht
    have hnone := hsheds.none_of_head ho.symm
    obtain ⟨u, -, hsize⟩ := ht.exists_sizeOf hold.1
    apply meets_after hsize
    apply (ht.meets_refile hold.2 (fun _ => hnone) fuel u.size).imp
    intro _ t' ht'
    exact ⟨ht'.1, (ht'.2 Filing.noConfusion).trans hnone⟩

theorem meets_keepRemainder (h : s.Upholds W chunks (insert c H)) (hc : c ∉ H)
    (fuel size : Nat) :
    Meets (keepRemainder fuel c size) s (fun _ t => t.Upholds W chunks H) W.Fails := by
  apply (h.meets_dropRemainder fuel).bind
  rintro _ t ⟨ht, hnone⟩
  apply (ht.meets_refile hc (fun _ => hnone) fuel size).imp
  exact fun _ t' ht' => ht'.1

theorem meets_stock (h : s.Upholds W chunks H) (hmin : minChunk ≤ size)
    (hgrain : size % granule = 0) (fuel count : Nat) :
    Meets (stock fuel size count) s (fun _ t => ∃ chunks', t.Upholds W chunks' H) W.Fails := by
  induction count generalizing s chunks with
  | zero => exact meets_pure ⟨chunks, h⟩
  | succ count ih =>
    have hhead : head .remainder s = .ok (s.heads.get .remainder) s := rfl
    apply meets_after hhead
    cases hget : s.heads.get .remainder with
    | none => exact meets_pure ⟨chunks, h⟩
    | some c =>
      have hc := h.mem_of_head hget
      obtain ⟨u, hu, hsize⟩ := h.exists_sizeOf hc.1
      apply meets_after hsize
      split
      next => exact meets_pure ⟨chunks, h⟩
      next hlarge =>
        apply (h.meets_detach hc).bind
        rintro _ s₁ ⟨h₁, hsheds⟩
        have hnone := hsheds.none_of_head hget
        apply (h₁.meets_cut (Set.mem_insert c H) hu hmin hgrain (Nat.le_of_not_lt hlarge)).bind
        rintro _ s₂ ⟨rfl, hfresh, hheads, chunks', h₂⟩
        have hrest : c + size ∉ H := fun hH => hfresh (Set.mem_insert_of_mem c hH)
        have hhead₂ : c ∉ insert (c + size) H := by
          rintro (he | hH)
          · simp only [minChunk] at hmin
            omega
          · exact hc.2 hH
        rw [Set.insert_comm] at h₂
        apply (h₂.meets_refile hhead₂ Filing.noConfusion fuel size).bind
        rintro _ s₃ ⟨h₃, hkeep⟩
        have hnone₃ : s₃.heads.get .remainder = none := by
          rw [hkeep Filing.noConfusion, hheads]
          exact hnone
        apply (h₃.meets_refile hrest (fun _ => hnone₃) fuel (u.size - size)).bind
        rintro _ s₄ ⟨h₄, -⟩
        exact ih h₄

theorem meets_cutDown (h : s.Upholds W chunks H) (hc : c ∈ H) (hu : (c, u) ∈ chunks)
    (hmin : minChunk ≤ size) (hgrain : size % granule = 0) (hle : size ≤ u.size)
    (fuel last : Nat) :
    Meets (cutDown fuel last c size) s (fun _ t => ∃ chunks', t.Upholds W chunks' H) W.Fails := by
  obtain ⟨v, hv, hsize⟩ := h.exists_sizeOf (h.held c hc)
  obtain rfl := h.tiles.unique hu hv
  apply meets_after hsize
  apply meets_after (check_eq hle _)
  split
  next => exact meets_pure ⟨chunks, h⟩
  next hlarge =>
    have hrest : size + minChunk ≤ u.size := by omega
    apply (h.meets_cut hc hu hmin hgrain hrest).bind
    rintro _ s₁ ⟨rfl, hfresh, -, chunks', h₁⟩
    apply (h₁.meets_keepRemainder hfresh fuel (u.size - size)).bind
    intro _ s₂ h₂
    split
    · exact h₂.meets_stock hmin hgrain fuel stockCount
    · exact meets_pure ⟨chunks', h₂⟩

end Upholds

end Store

end BoundaryHeap
