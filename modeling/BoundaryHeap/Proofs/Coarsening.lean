import BoundaryHeap.Proofs.Determined
import BoundaryHeap.Proofs.Gaps
import BoundaryHeap.Proofs.Stocking

namespace BoundaryHeap

namespace Shape

variable {A B C : Shape} {c d lo hi : Nat} {t u : Tag} {l : ListId}

/-- The clean chunks of `B` are clean chunks of `A` or were made by a merge, which swallowed what
was clean there and more. -/
structure Coarsens (A B : Shape) : Prop where
  fresh : ∀ c t, (c, t) ∈ B.chunks → B.Clean c →
    t = .unowned t.size ∨ ((c, t) ∈ A.chunks ∧ A.Clean c)
  covers : ∀ c t, (c, t) ∈ A.chunks → A.Clean c → ∃ d u, (d, u) ∈ B.chunks ∧ B.Clean d ∧
    ((d, u) = (c, t) ∨ (d ≤ c ∧ c + t.size ≤ d + u.size ∧ t.size < u.size))

namespace Coarsens

theorem of_clean (hchunks : B.chunks = A.chunks) (hclean : ∀ c, B.Clean c ↔ A.Clean c) :
    A.Coarsens B := by
  refine ⟨fun c t hc hc' => .inr ⟨hchunks ▸ hc, (hclean c).1 hc'⟩, fun c t hc hc' => ?_⟩
  exact ⟨c, t, hchunks ▸ hc, (hclean c).2 hc', .inl rfl⟩

theorem refl (A : Shape) : A.Coarsens A :=
  of_clean rfl fun _ => .rfl

theorem trans (h : A.Coarsens B) (h' : B.Coarsens C) : A.Coarsens C := by
  constructor
  · intro c t hc hclean
    rcases h'.fresh c t hc hclean with ht | ⟨hc, hclean⟩
    · exact .inl ht
    · exact h.fresh c t hc hclean
  · intro c t hc hclean
    obtain ⟨d, u, hd, hclean, he⟩ := h.covers c t hc hclean
    obtain ⟨e, v, hv, hclean, he'⟩ := h'.covers d u hd hclean
    refine ⟨e, v, hv, hclean, ?_⟩
    rcases he with he | he
    · cases he
      exact he'
    · rcases he' with he' | he'
      · cases he'
        exact .inr he
      · exact .inr (by omega)

end Coarsens

theorem Valid.not_clean (h : A.Valid) {l : ListId} (hl : l.kind = .dirty) (hc : c ∈ A.lists l) :
    ¬A.Clean c := by
  rintro ⟨l', hl', hc'⟩
  obtain rfl := h.distinct.only hc hc'
  rw [hl] at hl'
  cases hl'

theorem Valid.coarsens_unlist (h : A.Valid) (hl : l.kind = .dirty) (hc : c ∈ A.lists l) :
    A.Coarsens (A.unlist c) := by
  refine .of_clean rfl fun d => clean_unlist.trans (and_iff_left_of_imp fun hd => ?_)
  rintro rfl
  exact h.not_clean hl hc hd

theorem Valid.coarsens_demote (h : A.Valid) (hc : c ∈ A.lists .recent) :
    A.Coarsens (A.demote c) :=
  (h.coarsens_unlist rfl hc).trans (.of_clean rfl fun _ => clean_file_dirty fun _ => rfl)

theorem Settled.coarsens_demoteAll {xs ys : List Nat} (h : A.Settled)
    (hl : A.lists .recent = xs ++ ys) : A.Coarsens (xs.foldl Shape.demote A) := by
  induction xs generalizing A with
  | nil => exact .refl A
  | cons c rest ih =>
    have hc : c ∈ A.lists .recent := by simp [hl]
    exact (h.valid.coarsens_demote hc).trans (ih (h.demote ⟨_, hc⟩) (h.valid.recent_demote hl))

theorem clean_unlistAll {xs : List Chunk} :
    (A.unlistAll xs).Clean d ↔ A.Clean d ∧ ∀ x ∈ xs, d ≠ x.1 := by
  simp only [Clean, mem_lists_unlistAll]
  constructor
  · rintro ⟨l, hl, hd, hne⟩
    exact ⟨⟨l, hl, hd⟩, hne⟩
  · rintro ⟨⟨l, hl, hd⟩, hne⟩
    exact ⟨l, hl, hd, hne⟩

theorem Around.clean_joinAround {pre post : List Chunk} (h : A.Around c t pre post)
    (hd : d < A.runStart c ∨ A.runStop c ≤ d) : (A.joinAround c).Clean d ↔ A.Clean d := by
  have hout {x : Chunk} (hx : x ∈ A.runAround c t) : d ≠ x.1 := by
    have hin := h.tiles.bounds hx
    omega
  have hjoin : (A.joinAround c).Clean d ↔
      ((A.unlistAll (A.freeBelow c)).unlistAll (A.freeAbove c)).Clean d := .rfl
  rw [hjoin, clean_unlistAll, clean_unlistAll, and_assoc]
  exact and_iff_left ⟨fun x hx => hout (mem_runAround.2 (.inl hx)),
    fun x hx => hout (mem_runAround.2 (.inr (.inr hx)))⟩

theorem clean_mergeAround_start : (A.mergeAround c).Clean (A.runStart c) :=
  ⟨_, rfl, Lists.mem_filed.2 (.inr ⟨rfl, rfl⟩)⟩

theorem Holding.coarsens_mergeAround (h : A.Holding {c}) (hc : (c, t) ∈ A.chunks) :
    A.Coarsens (A.mergeAround c) := by
  obtain ⟨pre, post, har⟩ := h.valid.around hc
  have hsec := har.isSection (h.mem_loose rfl).2
  have hnew := har.tiles_join
  have hlt := (hnew.bounds (List.mem_singleton.2 rfl)).2
  have hpos := h.valid.tiles.size_pos hc
  -- Outside the run the chunks and the clean lists stay as they are.
  have houtside {d : Nat} {u : Tag} (hd : d < A.runStart c ∨ A.runStop c ≤ d) :
      (d, u) ∈ (A.mergeAround c).chunks ↔ (d, u) ∈ A.chunks := by
    refine (mem_redraw_outside hnew hd).trans ?_
    rw [chunks_unlistAll, chunks_unlistAll]
  have hclean {d : Nat} (hd : d < A.runStart c ∨ A.runStop c ≤ d) :
      (A.mergeAround c).Clean d ↔ A.Clean d := by
    rw [← har.clean_joinAround hd]
    constructor
    · exact fun hd' => (clean_file hd').resolve_right (by omega)
    · rintro ⟨l, hl, hmem⟩
      exact ⟨l, hl, Lists.mem_filed.2 (.inl hmem)⟩
  constructor
  · intro d u hd hd'
    by_cases hout : d < A.runStart c ∨ A.runStop c ≤ d
    · exact .inr ⟨(houtside hout).1 hd, (hclean hout).1 hd'⟩
    · rcases mem_redraw.1 hd with ⟨-, hd⟩ | hd | ⟨-, hd⟩
      · exact absurd (.inl hd) hout
      · cases List.mem_singleton.1 hd
        exact .inl rfl
      · exact absurd (.inr hd) hout
  · intro d u hd hd'
    by_cases hout : d < A.runStart c ∨ A.runStop c ≤ d
    · exact ⟨d, u, (houtside hout).2 hd, (hclean hout).2 hd', .inl rfl⟩
    · have hin : (d, u) ∈ A.runAround c t := by
        have hsplit := hsec.mem_chunks (x := (d, u))
        rw [chunks_unlistAll, chunks_unlistAll] at hsplit
        rcases hsplit.1 hd with ⟨-, hd⟩ | hd | ⟨-, hd⟩
        · exact absurd (.inl hd) hout
        · exact hd
        · exact absurd (.inr hd) hout
      have hbounds := har.tiles.bounds hin
      have hend := har.tiles.end_le hin
      have hstart := har.start_le
      have hstop := har.le_stop
      refine ⟨_, _, mem_joinAround, clean_mergeAround_start, .inr ⟨hbounds.1, ?_, ?_⟩⟩
      · simp only [Tag.unowned]
        omega
      · simp only [Tag.unowned]
        rcases h.valid.tiles.apart hc hd with ⟨rfl, -⟩ | he | he
        · exact absurd hd'.listed (h.mem_loose rfl).2
        · omega
        · omega

theorem Settled.coarsens_merge (h : A.Settled) (hl : l.kind = .dirty) (hc : c ∈ A.lists l) :
    A.Coarsens ((A.unlist c).mergeAround c) := by
  obtain ⟨t, ht, -⟩ := h.valid.listed hc
  exact (h.valid.coarsens_unlist hl hc).trans ((h.take ⟨l, hc⟩).coarsens_mergeAround ht)

theorem Settled.coarsens_drain (h : A.Settled) (bin : Fin binCount) :
    A.Coarsens (A.drain bin).2 := by
  induction hn : (A.lists (.dirty bin)).length using Nat.strong_induction_on generalizing A with
  | _ n ih =>
    rcases hl : A.lists (.dirty bin) with _ | ⟨c, rest⟩
    · rw [drain_nil hl]
      exact .refl A
    · rw [drain_cons hl]
      have hc : c ∈ A.lists (.dirty bin) := by simp [hl]
      have hlt := length_merge_head hl rfl
      rw [hn] at hlt
      exact (h.coarsens_merge rfl hc).trans (ih _ hlt (h.take ⟨_, hc⟩).mergeAround rfl)

theorem Settled.coarsens_drainAll (h : A.Settled) (bins : List (Fin binCount)) :
    A.Coarsens (A.drainAll bins).2 := by
  induction bins generalizing A with
  | nil => exact .refl A
  | cons bin bins ih => exact (h.coarsens_drain bin).trans (ih (h.drain bin).1)

theorem Settled.coarsens_mergeAll (h : A.Settled) : A.Coarsens A.mergeAll :=
  (h.coarsens_demoteAll (List.append_nil _).symm).trans (h.flush.coarsens_drainAll ListId.bins)

theorem Restocks.shared_or_unowned (h : A.Restocks B lo hi) (hc : (c, t) ∈ B.chunks) :
    ((c, t) ∈ A.chunks ∧ (B.Clean c ↔ A.Clean c)) ∨ t = .unowned t.size := by
  by_cases hout : c < lo ∨ hi ≤ c
  · exact .inl ⟨(h.outside c t hout).1 hc, h.clean c hout⟩
  · rw [not_or, Nat.not_lt, Nat.not_le] at hout
    exact .inr (h.inside c t (.inr hc) hout.1 hout.2)

theorem Restocks.mem_live (h : A.Restocks B lo hi) (hc : (c, t) ∈ liveIn B.chunks) :
    (c, t) ∈ liveIn A.chunks := by
  obtain ⟨hmem, hlive⟩ := mem_liveIn.1 hc
  rcases h.shared_or_unowned hmem with ⟨hshared, -⟩ | ht
  · exact mem_liveIn.2 ⟨hshared, hlive⟩
  · rw [ht] at hlive
    cases hlive

theorem Restocks.liveIn_eq (h : A.Restocks B lo hi) (hA : A.Valid) (hB : B.Valid) :
    liveIn B.chunks = liveIn A.chunks :=
  eq_of_mem_iff (hB.tiles.sorted.filter _) (hA.tiles.sorted.filter _)
    fun _ => ⟨h.mem_live, h.symm.mem_live⟩

/-- Where a merged chunk was made by the merge in one shape, it has no owner in the other one. -/
theorem Restocks.fresh_mergeAll (h : A.Restocks B lo hi) (hA : A.Settled) (hB : B.Settled)
    {u : Tag} (hc : (c, t) ∈ A.mergeAll.chunks) (ht : t = .unowned t.size)
    (hu : (c, u) ∈ B.mergeAll.chunks) (hclean : B.mergeAll.Clean c) (hsize : u.size = t.size) :
    u = t := by
  rcases hB.coarsens_mergeAll.fresh c u hu hclean with hu' | ⟨hu', hclean'⟩
  · rw [ht, hu', hsize]
  · rcases h.shared_or_unowned hu' with ⟨hshared, hiff⟩ | hu'
    · -- A clean chunk of the first shape, too: it stayed, or a larger chunk lies over it.
      obtain ⟨d, v, hd, -, he | ⟨hle, hend, hlt⟩⟩ :=
        hA.coarsens_mergeAll.covers c u hshared (hiff.1 hclean')
      · cases he
        exact hA.mergeAll.1.valid.tiles.unique hd hc
      · have hpos := hA.mergeAll.1.valid.tiles.size_pos hc
        rcases hA.mergeAll.1.valid.tiles.apart hc hd with ⟨rfl, rfl⟩ | he | he
        · omega
        · omega
        · omega
    · rw [ht, hu', hsize]

theorem Restocks.tag_mergeAll (h : A.Restocks B lo hi) (hA : A.Settled) (hB : B.Settled)
    {u : Tag} (ht : (c, t) ∈ A.mergeAll.chunks) (hcleanA : A.mergeAll.Clean c)
    (hu : (c, u) ∈ B.mergeAll.chunks) (hcleanB : B.mergeAll.Clean c) (hsize : u.size = t.size) :
    u = t := by
  rcases hA.coarsens_mergeAll.fresh c t ht hcleanA with ht' | ⟨ht', -⟩
  · exact h.fresh_mergeAll hA hB ht ht' hu hcleanB hsize
  · rcases hB.coarsens_mergeAll.fresh c u hu hcleanB with hu' | ⟨hu', -⟩
    · exact (h.symm.fresh_mergeAll hB hA hu hu' ht hcleanA hsize.symm).symm
    · rcases h.shared_or_unowned hu' with ⟨hshared, -⟩ | hunowned
      · exact hA.valid.tiles.unique hshared ht'
      · rcases h.symm.shared_or_unowned ht' with ⟨hshared, -⟩ | hunowned'
        · exact hB.valid.tiles.unique hu' hshared
        · rw [hunowned, hunowned', hsize]

theorem Restocks.mem_mergeAll (h : A.Restocks B lo hi) (hA : A.Settled) (hB : B.Settled)
    (hc : (c, t) ∈ A.mergeAll.chunks) : (c, t) ∈ B.mergeAll.chunks := by
  have hlive := h.liveIn_eq hA.valid hB.valid
  cases hfree : t.free with
  | false =>
    have hmem := mem_liveIn.2 ⟨hc, hfree⟩
    rw [hA.liveIn_mergeAll, ← hlive, ← hB.liveIn_mergeAll] at hmem
    exact (mem_liveIn.1 hmem).1
  | true =>
    have hlayout : layoutOf B.mergeAll.chunks = layoutOf A.mergeAll.chunks := by
      rw [hA.layout_mergeAll, hB.layout_mergeAll, h.len, liveExtents_congr hlive]
    have hplace : (c, t.size, true) ∈ layoutOf B.mergeAll.chunks := by
      rw [hlayout, ← hfree]
      exact List.mem_map_of_mem hc
    obtain ⟨⟨d, u⟩, hu, he⟩ := List.mem_map.1 hplace
    obtain ⟨rfl, hsize, hfree'⟩ : d = c ∧ u.size = t.size ∧ u.free = true := by
      simpa using he
    obtain ⟨hA', -, hemptyA⟩ := hA.mergeAll
    obtain ⟨hB', -, hemptyB⟩ := hB.mergeAll
    rw [← h.tag_mergeAll hA hB hc (hA'.clean hemptyA ⟨t, hc, hfree⟩) hu
      (hB'.clean hemptyB ⟨u, hu, hfree'⟩) hsize]
    exact hu

/-- Merging makes up for any cutting of the section. -/
theorem Restocks.mergeAll_eq (h : A.Restocks B lo hi) (hA : A.Settled) (hB : B.Settled) :
    B.mergeAll.chunks = A.mergeAll.chunks := by
  apply eq_of_mem_iff hB.mergeAll.1.valid.tiles.sorted hA.mergeAll.1.valid.tiles.sorted
  exact fun _ => ⟨h.symm.mem_mergeAll hB hA, h.mem_mergeAll hA hB⟩

end Shape

end BoundaryHeap
