import BoundaryHeap.Proofs.Salvage

namespace BoundaryHeap

namespace Region

variable {r : Region} {c p size : Nat} {t : Tag}

/-- What is found in front of a footer that is not that of a free chunk is no free chunk. -/
theorem below_of_defaced (hp : r.below (c + size) = .ok (some p)) (hd : r.Defaced c size) :
    ∃ t, r.tagAt p = .ok t ∧ t.free = false := by
  obtain ⟨t, htag, hend⟩ := below_eq_some_iff.1 hp
  obtain ⟨-, -, -, -, -, footer, hfooter, hsame⟩ := tagAt_eq_ok_iff.1 htag
  rw [hend] at hfooter
  simp only [Tag.sameExtent, Bool.and_eq_true, beq_iff_eq] at hsame
  exact ⟨t, htag, hsame.2.trans (hd.2 footer hfooter)⟩

theorem free_of_defaced (htag : r.tagAt c = .ok t) (hd : r.Defaced c size) : t.free = false := by
  obtain ⟨-, -, -, -, hheader, -⟩ := tagAt_eq_ok_iff.1 htag
  exact hd.1 t hheader

end Region

/-- What is in hand are the chunks that fill the `size` bytes from `start` on. -/
def InHand (chunks : List Chunk) (len : Nat) (H : Set Nat) (start size : Nat) : Prop :=
  minChunk ≤ size ∧ ∃ pre mid post, Spans chunks len start (start + size) pre mid post ∧
    ∀ c, c ∈ H ↔ ∃ u, (c, u) ∈ mid

namespace InHand

variable {chunks : List Chunk} {len start size c : Nat} {H : Set Nat} {u : Tag}

theorem single (h : Tiles 0 chunks len) (hc : (c, u) ∈ chunks) :
    InHand chunks len {c} c u.size := by
  obtain ⟨pre, post, hspans⟩ := Spans.single h hc
  refine ⟨h.size_pos hc, pre, _, post, hspans, ?_⟩
  intro d
  constructor
  · rintro rfl
    exact ⟨u, List.mem_singleton.2 rfl⟩
  · rintro ⟨v, hv⟩
    cases List.mem_singleton.1 hv
    rfl

/-- In front of what is in hand is a chunk that can be taken too, unless the region begins. -/
theorem before (h : InHand chunks len H start size) :
    start = 0 ∨ ∃ d u, (d, u) ∈ chunks ∧ d + u.size = start ∧ d ∉ H ∧
      InHand chunks len (insert d H) d (size + u.size) := by
  obtain ⟨hmin, pre, mid, post, hspans, hH⟩ := h
  rcases pre.eq_nil_or_concat with rfl | ⟨rest, ⟨d, u⟩, rfl⟩
  · have he : 0 = start := hspans.below
    exact .inl he.symm
  · right
    obtain ⟨_, hrest, rfl, hu, hend⟩ := Tiles.append_iff.1 (List.concat_eq_append ▸ hspans.below)
    have hend : d + u.size = start := hend
    have hpos := hu.1
    simp only [minChunk] at hmin hpos
    have hstop : d + (size + u.size) = start + size := by omega
    have hmem : (d, u) ∈ chunks := hspans.mem_iff.2 (.inl (by simp))
    refine ⟨d, u, hmem, hend, ?_, ?_, rest, (d, u) :: mid, post, ⟨?_, hrest, ?_, ?_⟩, ?_⟩
    · intro hd
      obtain ⟨v, hv⟩ := (hH d).1 hd
      have hge := hspans.inside.ge_of_mem hv
      omega
    · simp only [minChunk]
      omega
    · rw [hspans.chunks, List.concat_eq_append]
      simp only [List.append_assoc, List.cons_append, List.nil_append]
    · rw [hstop]
      refine ⟨rfl, hu, ?_⟩
      rw [hend]
      exact hspans.inside
    · rw [hstop]
      exact hspans.above
    · intro e
      simp only [Set.mem_insert_iff, hH, List.mem_cons, Prod.mk.injEq]
      constructor
      · rintro (rfl | ⟨v, hv⟩)
        · exact ⟨u, .inl ⟨rfl, rfl⟩⟩
        · exact ⟨v, .inr hv⟩
      · rintro ⟨v, ⟨rfl, -⟩ | hv⟩
        · exact .inl rfl
        · exact .inr ⟨v, hv⟩

theorem behind (h : InHand chunks len H start size) :
    start + size = len ∨ ∃ u, (start + size, u) ∈ chunks ∧ start + size < len ∧
      start + size ∉ H ∧ InHand chunks len (insert (start + size) H) start (size + u.size) := by
  obtain ⟨hmin, pre, mid, post, hspans, hH⟩ := h
  cases post with
  | nil => exact .inl hspans.above
  | cons x rest =>
    right
    obtain ⟨d, u⟩ := x
    obtain ⟨rfl, hu, hrest⟩ := id hspans.above
    have hpos := hu.1
    have hle := hrest.le
    simp only [minChunk] at hmin hpos
    have hmem : (start + size, u) ∈ chunks := hspans.mem_iff.2 (.inr (.inr (by simp)))
    refine ⟨u, hmem, by omega, ?_, ?_, pre, mid ++ [(start + size, u)], rest,
      ⟨?_, hspans.below, ?_, ?_⟩, ?_⟩
    · intro hd
      obtain ⟨v, hv⟩ := (hH _).1 hd
      have hbounds := hspans.inside.bounds hv
      omega
    · simp only [minChunk]
      omega
    · rw [hspans.chunks]
      simp only [List.append_assoc, List.cons_append, List.nil_append]
    · apply hspans.inside.append
      exact ⟨rfl, hu, Nat.add_assoc ..⟩
    · rw [← Nat.add_assoc]
      exact hrest
    · intro e
      simp only [Set.mem_insert_iff, hH, List.mem_append, List.mem_singleton, Prod.mk.injEq]
      constructor
      · rintro (rfl | ⟨v, hv⟩)
        · exact ⟨u, .inr ⟨rfl, rfl⟩⟩
        · exact ⟨v, .inl hv⟩
      · rintro ⟨v, hv | ⟨rfl, -⟩⟩
        · exact .inr ⟨v, hv⟩
        · exact .inl rfl

theorem stranded_before {W : Wreck} (h : InHand chunks len H start size)
    (hc : (c, u) ∈ liveIn chunks) (hm : c ∈ W.marred) (hend : c + u.size = start) :
    W.Stranded chunks len H := by
  obtain ⟨-, pre, mid, post, hspans, hH⟩ := h
  exact ⟨_, _, pre, mid, post, hspans, hH, c, u, hm, hc, .inr hend.symm⟩

theorem stranded_behind {W : Wreck} (h : InHand chunks len H start size)
    (hc : (start + size, u) ∈ liveIn chunks) (hm : start + size ∈ W.marred) :
    W.Stranded chunks len H := by
  obtain ⟨-, pre, mid, post, hspans, hH⟩ := h
  exact ⟨_, _, pre, mid, post, hspans, hH, _, u, hm, hc, .inl rfl⟩

end InHand

namespace Store.Upholds

variable {W : Wreck} {chunks : List Chunk} {H : Set Nat} {s : Store} {c start size : Nat} {u : Tag}

theorem marred_live (h : s.Upholds W chunks H) (hc : (c, u) ∈ chunks) (hm : c ∈ W.marred) :
    (c, u) ∈ liveIn chunks ∧ s.region.Defaced c u.size := by
  obtain ⟨v, hv, hdefaced⟩ := h.marred c hm
  obtain rfl := h.tiles.unique hc (mem_liveIn.1 hv).1
  exact ⟨hv, hdefaced⟩

theorem below_eq (h : s.Upholds W chunks H) (hc : (c, u) ∈ chunks) (hm : c ∉ W.marred) :
    s.region.below (c + u.size) = .ok (some c) :=
  Region.below_eq_some_iff.2 ⟨u, h.tagAt hc hm, rfl⟩

theorem fails_of_reports {f : Fault} (h : s.Upholds W chunks H) (hf : f.Reports)
    (hstranded : W.Stranded chunks s.region.len H) : W.Fails f s :=
  .inr ⟨hf, chunks, H, h, fun _ => hstranded⟩

/-- In front of the run is the begin of the region, a chunk with good tags, or a marred one: then the
reading of its tags fails or shows no free chunk. -/
theorem meets_below (h : s.Upholds W chunks H)
    (hhand : InHand chunks s.region.len H start size) :
    Meets (reading (·.below start)) s
      (fun o t => t = s ∧ ∀ d, o = some d →
        (∃ u, (d, u) ∈ chunks ∧ d ∉ W.marred ∧ d + u.size = start ∧ d ∉ H ∧
          InHand chunks s.region.len (insert d H) d (size + u.size)) ∨
        ∃ u, s.region.tagAt d = .ok u ∧ u.free = false)
      W.Fails := by
  rcases hhand.before with rfl | ⟨d, u, hd, rfl, hnew, hhand'⟩
  · apply meets_of_ok (s := s) (t := s) (a := none) rfl
    exact ⟨rfl, fun d hd => by cases hd⟩
  · by_cases hm : d ∈ W.marred
    · obtain ⟨hlive, hdefaced⟩ := h.marred_live hd hm
      have hgrid := h.grid hd
      have hgrain := (h.tiles.proper hd).2
      simp only [granule] at hgrain
      apply meets_reading
      · intro o ho
        refine ⟨rfl, ?_⟩
        rintro p rfl
        exact .inr (Region.below_of_defaced ho hdefaced)
      · intro f hf
        apply h.fails_of_reports _ (hhand.stranded_before hlive hm rfl)
        exact Region.failsIn_below (by omega) (h.tiles.end_le hd) f hf
    · apply meets_of_ok (reading_eq (h.below_eq hd hm))
      refine ⟨rfl, ?_⟩
      intro p hp
      cases hp
      exact .inl ⟨u, hd, hm, rfl, hnew, hhand'⟩

theorem meets_absorbBelow (h : s.Upholds W chunks H)
    (hhand : InHand chunks s.region.len H start size) (fuel : Nat) :
    Meets (absorbBelow fuel start size) s
      (fun p t => ∃ H', t.Upholds W chunks H' ∧ InHand chunks t.region.len H' p.1 p.2)
      W.Fails := by
  induction fuel generalizing s H start size with
  | zero => exact meets_throw (.inl rfl)
  | succ fuel ih =>
    apply (h.meets_below hhand).bind
    rintro o t ⟨rfl, ho⟩
    cases o with
    | none => exact meets_pure ⟨H, h, hhand⟩
    | some d =>
      rcases ho d rfl with ⟨u, hd, hm, -, hnew, hhand'⟩ | ⟨u, htag, hlive⟩
      · apply meets_after (reading_eq (h.tagAt hd hm))
        split
        next hfree =>
          apply (h.meets_detach ⟨⟨u, hd, hfree⟩, hnew⟩).bind
          rintro _ t ⟨ht, -⟩
          apply ih ht
          rw [ht.changed.len, ← h.changed.len]
          exact hhand'
        next => exact meets_pure ⟨H, h, hhand⟩
      · apply meets_after (reading_eq htag)
        rw [hlive]
        exact meets_pure ⟨H, h, hhand⟩

theorem meets_absorbAbove (h : s.Upholds W chunks H)
    (hhand : InHand chunks s.region.len H start size) (fuel : Nat) :
    Meets (absorbAbove fuel start size) s
      (fun n t => ∃ H', t.Upholds W chunks H' ∧ InHand chunks t.region.len H' start n)
      W.Fails := by
  induction fuel generalizing s H size with
  | zero => exact meets_throw (.inl rfl)
  | succ fuel ih =>
    have hread : reading (fun r => .ok (r.above start size)) s =
        .ok (s.region.above start size) s := rfl
    apply meets_after hread
    unfold Region.above
    rcases hhand.behind with hend | ⟨u, hd, hlt, hnew, hhand'⟩
    · rw [if_neg (by omega)]
      exact meets_pure ⟨H, h, hhand⟩
    · rw [if_pos hlt]
      by_cases hm : start + size ∈ W.marred
      · obtain ⟨hlive, hdefaced⟩ := h.marred_live hd hm
        have htag : Meets (reading (·.tagAt (start + size))) s
            (fun v t => t = s ∧ v.free = false) W.Fails := by
          apply meets_reading
          · exact fun v hv => ⟨rfl, Region.free_of_defaced hv hdefaced⟩
          · intro f hf
            exact h.fails_of_reports (Region.failsIn_tagAt _ _ f hf) (hhand.stranded_behind hlive hm)
        apply htag.bind
        rintro v t ⟨rfl, hv⟩
        rw [hv]
        exact meets_pure ⟨H, h, hhand⟩
      · apply meets_after (reading_eq (h.tagAt hd hm))
        split
        next hfree =>
          apply (h.meets_detach ⟨⟨u, hd, hfree⟩, hnew⟩).bind
          rintro _ t ⟨ht, -⟩
          apply ih ht
          rw [ht.changed.len, ← h.changed.len]
          exact hhand'
        next => exact meets_pure ⟨H, h, hhand⟩

theorem meets_join (h : s.Upholds W chunks H) (hhand : InHand chunks s.region.len H start size)
    {E : Fault → Store → Prop} :
    Meets (layOut start size) s (fun _ t => ∃ chunks', t.Upholds W chunks' {start}) E := by
  obtain ⟨hmin, pre, mid, post, hspans, hH⟩ := hhand
  have hstart : start % 16 = 0 := hspans.below.mod_end rfl
  have hstop : (start + size) % 16 = 0 := (hspans.below.append hspans.inside).mod_end rfl
  have hgrain : size % granule = 0 := by
    simp only [granule]
    omega
  obtain ⟨t, hrun, hheads, htag, hnil, hr⟩ := layOut_run hstart hmin hgrain hspans.above.le
  have hcut : Recut chunks start (start + size) pre mid post [(start, .unowned size)] H {start}
      s t := by
    have hself : ∀ {d : Nat} {v : Tag}, (d, v) ∈ [(start, Tag.unowned size)] →
        d = start ∧ v = .unowned size := by
      intro d v hd
      exact Prod.mk.inj (List.mem_singleton.1 hd)
    constructor
    case spans => exact hspans
    case inHand => exact fun d v hd => (hH d).2 ⟨v, hd⟩
    case tiles => exact ⟨rfl, ⟨hmin, hgrain⟩, rfl⟩
    case free =>
      intro d v hd
      rw [(hself hd).2]
      rfl
    case heads => exact hheads
    case changed => exact hr.mono (laidBytes_subset hmin)
    case fades => exact (Fading.layOut start size).of_ok hrun
    case tags =>
      intro d v hd
      obtain ⟨rfl, rfl⟩ := hself hd
      exact htag
    case nil =>
      intro d v hd
      rw [(hself hd).1]
      exact hnil
    case hand =>
      intro d
      constructor
      · rintro rfl
        exact .inr ⟨_, List.mem_singleton.2 rfl⟩
      · rintro (⟨hd, hside⟩ | ⟨v, hv⟩)
        · obtain ⟨v, hv⟩ := (hH d).1 hd
          have hbounds := hspans.inside.bounds hv
          omega
        · exact (hself hv).1
  exact meets_of_ok hrun ⟨_, h.recut hcut⟩

theorem meets_mergeAround (h : s.Upholds W chunks {c}) (fuel : Nat) :
    Meets (mergeAround fuel c) s (fun _ t => ∃ chunks', t.Upholds W chunks' ∅) W.Fails := by
  obtain ⟨u, hu, hfree⟩ := h.held c rfl
  apply meets_after (reading_eq (h.tagAt hu (h.not_marred hu hfree)))
  apply meets_after (check_eq hfree _)
  apply (h.meets_absorbBelow (.single h.tiles hu) fuel).bind
  rintro ⟨start, low⟩ s₁ ⟨H₁, h₁, hhand₁⟩
  apply (h₁.meets_absorbAbove hhand₁ fuel).bind
  rintro size s₂ ⟨H₂, h₂, hhand₂⟩
  apply (h₂.meets_join hhand₂).bind
  rintro _ s₃ ⟨chunks', h₃⟩
  rw [← insert_empty_eq] at h₃
  apply (h₃.meets_refile (Set.notMem_empty _) Filing.noConfusion fuel size).imp
  exact fun _ t ht => ⟨chunks', ht.1⟩

theorem meets_drain (h : s.Upholds W chunks ∅) (walk : Nat) (l : ListId) (fuel : Nat) :
    Meets (drain walk l fuel) s (fun _ t => ∃ chunks', t.Upholds W chunks' ∅) W.Fails := by
  induction fuel generalizing s chunks with
  | zero => exact meets_throw (.inl rfl)
  | succ fuel ih =>
    apply (h.meets_takeFirst l).bind
    rintro o t ⟨-, ht⟩
    cases o with
    | none =>
      subst ht
      exact meets_pure ⟨chunks, h⟩
    | some c =>
      obtain ⟨-, ht, -⟩ := ht
      rw [insert_empty_eq] at ht
      apply (ht.meets_mergeAround walk).bind
      rintro _ t₁ ⟨chunks₁, h₁⟩
      apply (ih h₁).bind
      intro _ t₂ h₂
      exact meets_pure h₂

theorem meets_drainAll (h : s.Upholds W chunks ∅) (fuel : Nat) (bins : List (Fin binCount)) :
    Meets (drainAll fuel bins) s (fun _ t => ∃ chunks', t.Upholds W chunks' ∅) W.Fails := by
  induction bins generalizing s chunks with
  | nil => exact meets_pure ⟨chunks, h⟩
  | cons bin bins ih =>
    apply (h.meets_drain fuel (.dirty bin) fuel).bind
    rintro _ t₁ ⟨chunks₁, h₁⟩
    apply (ih h₁).bind
    intro _ t₂ h₂
    exact meets_pure h₂

theorem meets_mergeAll (h : s.Upholds W chunks ∅) (fuel : Nat) :
    Meets (mergeAll fuel) s (fun _ t => ∃ chunks', t.Upholds W chunks' ∅) W.Fails := by
  apply (h.meets_flushRecent fuel fuel).bind
  intro _ t₁ h₁
  apply (h₁.meets_drainAll fuel ListId.bins).bind
  intro _ t₂ h₂
  exact meets_pure h₂

end Store.Upholds

end BoundaryHeap
