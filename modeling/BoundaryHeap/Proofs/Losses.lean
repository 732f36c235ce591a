import BoundaryHeap.Proofs.Containment

namespace BoundaryHeap

open Region (Changed linkBytesOf)

namespace Store

variable {s t : Store} {W : Wreck} {chunks : List Chunk} {H : Set Nat} {A : Shape} {c d l i : Nat}
  {u : Tag}

theorem not_onList_of_empty (h : s.heads = .empty) : ¬s.OnList c := by
  intro hc
  induction hc with
  | @head l c hc =>
    have hnone : s.targetAt (.head l) = none := by
      rw [targetAt, h, Heads.get_empty]
    rw [hnone] at hc
    cases hc
  | next _ _ ih => exact ih

def ListsByte (s : Store) (i : Nat) : Prop :=
  ∃ c u, s.OnList c ∧ s.region.tagAt c = .ok u ∧ c ≤ i ∧ i < c + u.size

/-- The vacant bytes of the region are those of the free chunks. -/
theorem Upholds.free_iff (h : s.Upholds W chunks H) :
    (∃ c u, (c, u) ∈ chunks ∧ u.free = true ∧ c ≤ i ∧ i < c + u.size) ↔
      i < s.region.len ∧ i ∈ vacant W.chunks := by
  rw [h.vacant_eq]
  constructor
  · rintro ⟨c, u, hu, hfree, hlo, hhi⟩
    exact ⟨hhi.trans_le (h.tiles.end_le hu),
      h.tiles.subset_vacant hu hfree (Set.mem_Ico.2 ⟨hlo, hhi⟩)⟩
  · rintro ⟨hlen, hvacant⟩
    obtain ⟨c, u, hu, hlo, hhi⟩ := h.tiles.cover (Nat.zero_le i) hlen
    refine ⟨c, u, hu, ?_, hlo, hhi⟩
    by_contra hlive
    have hside := hvacant c u (mem_liveIn.2 ⟨hu, Bool.eq_false_iff.2 hlive⟩)
    omega

theorem Upholds.listsByte_iff (h : s.Upholds W chunks H) (hwhole : W.whole) :
    s.ListsByte i ↔
      ∃ c u, (c, u) ∈ chunks ∧ u.free = true ∧ c ∉ H ∧ c ≤ i ∧ i < c + u.size := by
  constructor
  · rintro ⟨c, u, hlisted, htag, hlo, hhi⟩
    obtain ⟨⟨v, hv, hfree⟩, hH⟩ := h.woven.mem_of_onList hlisted
    have htag' := h.tagAt hv (h.not_marred hv hfree)
    obtain rfl := Except.ok.inj (htag.symm.trans htag')
    exact ⟨c, u, hv, hfree, hH, hlo, hhi⟩
  · rintro ⟨c, u, hu, hfree, hH, hlo, hhi⟩
    refine ⟨c, u, h.woven.reached hwhole c ⟨⟨u, hu, hfree⟩, hH⟩, ?_, hlo, hhi⟩
    exact h.tagAt hu (h.not_marred hu hfree)

theorem Upholds.listsByte_iff_vacant (h : s.Upholds W chunks ∅) (hwhole : W.whole) :
    s.ListsByte i ↔ i < s.region.len ∧ i ∈ vacant W.chunks := by
  rw [h.listsByte_iff hwhole, ← h.free_iff]
  constructor
  · rintro ⟨c, u, hu, hfree, -, hin⟩
    exact ⟨c, u, hu, hfree, hin⟩
  · rintro ⟨c, u, hu, hfree, hin⟩
    exact ⟨c, u, hu, hfree, Set.notMem_empty c, hin⟩

/-- A section is in hand: its bytes are vacant, and the other vacant ones are on lists. -/
theorem Upholds.listsByte_iff_outside {lo hi : Nat} {pre mid post : List Chunk}
    (h : s.Upholds W chunks H) (hwhole : W.whole)
    (hspans : Spans chunks s.region.len lo hi pre mid post)
    (hH : ∀ c, c ∈ H ↔ ∃ u, (c, u) ∈ mid) :
    (lo ≤ i ∧ i < hi → i < s.region.len ∧ i ∈ vacant W.chunks) ∧
      (s.ListsByte i ↔ (i < s.region.len ∧ i ∈ vacant W.chunks) ∧ ¬(lo ≤ i ∧ i < hi)) := by
  constructor
  · rintro ⟨hlo, hhi⟩
    obtain ⟨c, u, hu, hin⟩ := hspans.inside.cover hlo hhi
    obtain ⟨v, hv, hfree⟩ := h.held c ((hH c).2 ⟨u, hu⟩)
    have hmem := hspans.mem_iff.2 (.inr (.inl hu))
    obtain rfl := h.tiles.unique hmem hv
    exact h.free_iff.1 ⟨c, u, hmem, hfree, hin⟩
  · rw [h.listsByte_iff hwhole, ← h.free_iff]
    constructor
    · rintro ⟨c, u, hu, hfree, hc, hlo, hhi⟩
      refine ⟨⟨c, u, hu, hfree, hlo, hhi⟩, ?_⟩
      intro hin
      rcases hspans.place hu with ⟨hmid, -⟩ | ⟨-, hside⟩
      · exact hc ((hH c).2 ⟨u, hmid⟩)
      · omega
    · rintro ⟨⟨c, u, hu, hfree, hlo, hhi⟩, hout⟩
      refine ⟨c, u, hu, hfree, ?_, hlo, hhi⟩
      intro hc
      obtain ⟨v, hv⟩ := (hH c).1 hc
      obtain rfl := h.tiles.unique hu (hspans.mem_iff.2 (.inr (.inl hv)))
      have hge := hspans.inside.ge_of_mem hv
      have hle := hspans.inside.end_le hv
      exact hout ⟨by omega, by omega⟩

theorem not_mem_tagBytesOf {len : Nat} (h : Tiles 0 chunks len) (hl : (l, u) ∈ chunks) {v : Tag}
    (hc : (c, v) ∈ chunks) (hne : c ≠ l) {i : Nat} (hlo : c ≤ i) (hhi : i < c + v.size) :
    i ∉ tagBytesOf l u.size := by
  intro hi
  have hin := tagBytesOf_subset (h.size_pos hl) hi
  rw [Set.mem_Ico] at hin
  rcases h.apart hc hl with ⟨he, -⟩ | he | he
  · exact hne he
  · omega
  · omega

theorem Represents.linked_defaced (h : s.Represents A) (hl : (l, u) ∈ A.chunks)
    (hlive : u.free = false) (hheads : t.heads = s.heads)
    (hr : Changed (tagBytesOf l u.size) s.region t.region) : t.Linked A.lists := by
  have hs := h.linked
  have hlinks : ∀ c, A.IsFree c →
      t.targetAt (.next c) = s.targetAt (.next c) ∧ t.referrerAt c = s.referrerAt c := by
    rintro c ⟨v, hv, hfree⟩
    have hpos := h.valid.tiles.size_pos hv
    have hne : c ≠ l := by
      rintro rfl
      obtain rfl := h.valid.tiles.unique hl hv
      rw [hfree] at hlive
      cases hlive
    have hout := fun i => not_mem_tagBytesOf h.valid.tiles hl hv hne (i := i)
    constructor
    · exact targetAt_changed hr fun i hlo hhi => hout i (by omega) (by omega)
    · exact referrerAt_changed hr fun i hlo hhi => hout i (by omega) (by omega)
  constructor
  case threads =>
    intro k
    apply (h.threads k).congr
    · exact congrArg (·.get k) hheads
    · exact fun c hc => (hlinks c (h.valid.listed hc)).1
    · exact fun c hc => (hlinks c (h.valid.listed hc)).2
  case distinct => exact hs.distinct
  case holds => exact fun hc => (hs.holds hc).of_len hr.len
  case short =>
    rw [hr.len]
    exact hs.short

/-- The words that are overwritten are tags of one live chunk: lists and other tags stay. -/
theorem Represents.upholds_defaced (h : s.Represents A) (hA : A.Settled)
    (hl : (l, u) ∈ A.chunks) (hlive : u.free = false) (hheads : t.heads = s.heads)
    (hr : Changed (tagBytesOf l u.size) s.region t.region)
    (hdefaced : t.region.Defaced l u.size) :
    t.Upholds ⟨t.region, A.chunks, {l}, True⟩ A.chunks ∅ := by
  apply h.upholds hr.len
  · rintro c rfl
    exact ⟨u, mem_liveIn.2 ⟨hl, hlive⟩, hdefaced⟩
  · intro c v hc hne
    apply (h.tags c v hc).of_words
    apply hr.tagWords
    intro i hi
    have hin := tagBytesOf_subset (h.valid.tiles.size_pos hc) hi
    rw [Set.mem_Ico] at hin
    exact not_mem_tagBytesOf h.valid.tiles hl hc hne hin.1 hin.2
  · exact (h.linked_defaced hl hlive hheads hr).woven_settled hA

end Store

/-- Of what is on the lists of `h`, the heap `h'` has lost one run of bytes from its lists, which
ends at the chunk of `size` bytes at `l` or begins behind it. -/
def Heap.Strands (l size : Nat) (h h' : Heap) : Prop :=
  ∃ lo hi, (hi = l ∨ lo = l + size) ∧ (∀ i, lo ≤ i → i < hi → h.store.ListsByte i) ∧
    ∀ i, h'.store.ListsByte i ↔ h.store.ListsByte i ∧ ¬(lo ≤ i ∧ i < hi)

/-- The call stops where tags were overwritten, with the run in front of them or behind in hand. -/
theorem Heap.strands_of_fails {chunks : List Chunk} {l : Nat} {u : Tag} {f : Fault} {h h' : Heap}
    (hs : h.store.Upholds ⟨h.region, chunks, {l}, True⟩ chunks ∅) (hl : (l, u) ∈ liveIn chunks)
    (hfails : Wreck.Fails ⟨h.region, chunks, {l}, True⟩ f h'.store) (hf : f.Reports) :
    Heap.Strands l u.size h h' := by
  rcases hfails with rfl | ⟨-, chunks', H, hs', hstranded⟩
  · obtain ⟨offset, damage, he⟩ := hf
    cases he
  · obtain ⟨lo, hi, pre, mid, post, hspans, hH, l', v, hm, hl', hside⟩ := hstranded trivial
    obtain rfl : l' = l := hm
    rw [hs'.live] at hl'
    obtain rfl := hs.tiles.unique (mem_liveIn.1 hl).1 (mem_liveIn.1 hl').1
    have hlen : h'.store.region.len = h.store.region.len := hs'.changed.len
    have hbefore : ∀ i, h.store.ListsByte i ↔ i < h'.store.region.len ∧ i ∈ vacant chunks := by
      intro i
      rw [hlen]
      exact hs.listsByte_iff_vacant trivial
    refine ⟨lo, hi, hside, ?_, ?_⟩
    · intro i hlo hhi
      rw [hbefore]
      exact (hs'.listsByte_iff_outside trivial hspans hH).1 ⟨hlo, hhi⟩
    · intro i
      rw [hbefore]
      exact (hs'.listsByte_iff_outside trivial hspans hH).2

namespace World

variable {w : World} {l : Nat} {t : Tag}

/-- The tags of one live chunk are overwritten with words that are no tags of a free one. If a call
reports damage, all free chunks are still on lists but one run of them, next to this chunk. -/
theorem report_strands (hw : w.Reachable) (hl : (l, t) ∈ w.heap.chunks) (hlive : t.free = false)
    (bytes : ByteArray)
    (htags : Changed (Store.tagBytesOf l t.size) w.heap.region
      (w.heap.overwritten bytes).region)
    (hdefaced : (w.heap.overwritten bytes).region.Defaced l t.size) :
    let h := w.heap.overwritten bytes
    (∀ request owner offset damage,
      (h.run (Heap.allocate request owner)).result = .error (.corrupt offset damage) →
        h.Strands l t.size (h.run (Heap.allocate request owner)).after) ∧
    ∀ offset damage, (h.run Heap.merge).result = .error (.corrupt offset damage) →
      h.Strands l t.size (h.run Heap.merge).after := by
  intro h
  obtain ⟨A, hA⟩ := hw.tracks
  have huse : h.counters.inUse ≤ maxRegion := hA.intact.inUse_bounded
  rw [hA.intact.chunks] at hl
  have hupholds : h.store.Upholds ⟨h.region, A.chunks, {l}, True⟩ A.chunks ∅ :=
    hA.intact.store.upholds_defaced (t := h.store) hA.intact.settled hl hlive rfl htags hdefaced
  have hmem : (l, t) ∈ liveIn A.chunks := mem_liveIn.2 ⟨hl, hlive⟩
  constructor
  · intro request owner offset damage hreport
    have hmeets := Heap.meets_allocate (σ := ⟨h, []⟩) hupholds huse request owner
    rcases Heap.run_of_meets hmeets with ⟨_, hrun, -⟩ | ⟨f, hrun, hor⟩
    · rw [hrun] at hreport
      cases hreport
    · rw [hrun] at hreport
      obtain rfl := Except.error.inj hreport
      rcases hor with ⟨he, -⟩ | hfails
      · cases he
      · exact Heap.strands_of_fails hupholds hmem hfails (Fault.reports_corrupt offset damage)
  · intro offset damage hreport
    have hmeets := Heap.meets_merge (σ := ⟨h, []⟩) hupholds
    rcases Heap.run_of_meets hmeets with ⟨_, hrun, -⟩ | ⟨f, hrun, hfails⟩
    · rw [hrun] at hreport
      cases hreport
    · rw [hrun] at hreport
      obtain rfl := Except.error.inj hreport
      exact Heap.strands_of_fails hupholds hmem hfails (Fault.reports_corrupt offset damage)

/-- Three chunks fill the region; the one in the middle was released. -/
def flanked : World :=
  sample.after [.allocate 8 .kernel, .allocate 8 .kernel, .allocate 8 .kernel,
    .release (some 0x1028)]

theorem reachable_flanked : flanked.Reachable := reachable_sample.after _

theorem flanked_chunk : (64, ⟨32, false, .kernel⟩) ∈ flanked.heap.chunks := by decide +kernel

/-- This heap with zeros in the tags of the chunk behind the one that was released. -/
def overrun : Heap :=
  flanked.heap.overwritten ((flanked.heap.region.putNat 64 8 0).putNat 88 8 0).bytes

theorem overrun_changed :
    Changed (Store.tagBytesOf 64 32) flanked.heap.region overrun.region := by
  have hbase : ((flanked.heap.region.putNat 64 8 0).putNat 88 8 0).base = flanked.heap.base := by
    rw [Region.base_putNat, Region.base_putNat, Heap.base, Heap.region]
  rw [overrun, Heap.region_overwritten hbase]
  exact (Region.changed_putNat 64 8 0).trans_union (Region.changed_putNat 88 8 0)

theorem overrun_defaced : overrun.region.Defaced 64 32 := by
  have hwords : Tag.decode (UInt64.ofNat (overrun.region.natAt 64 8)) = none ∧
      Tag.decode (UInt64.ofNat (overrun.region.natAt (64 + 32 - 8) 8)) = none := by
    decide +kernel
  constructor
  · intro u hu
    rw [hwords.1] at hu
    cases hu
  · intro u hu
    rw [hwords.2] at hu
    cases hu

theorem overrun_merge :
    (overrun.run Heap.merge).result = .error (.corrupt 64 .badHeader) ∧
    overrun.store.heads.get .recent = some 32 ∧
    overrun.region.tagAt 32 = .ok ⟨32, true, .kernel⟩ ∧
    (overrun.run Heap.merge).after.store.heads = .empty := by
  decide +kernel

theorem overrun_strands :
    (flanked.Reachable ∧ (64, ⟨32, false, .kernel⟩) ∈ flanked.heap.chunks ∧
      Changed (Store.tagBytesOf 64 32) flanked.heap.region overrun.region ∧
      overrun.region.Defaced 64 32) ∧
    (overrun.run Heap.merge).result = .error (.corrupt 64 .badHeader) ∧
      overrun.Strands 64 32 (overrun.run Heap.merge).after := by
  refine ⟨⟨reachable_flanked, flanked_chunk, overrun_changed, overrun_defaced⟩, overrun_merge.1, ?_⟩
  exact (report_strands reachable_flanked flanked_chunk rfl _ overrun_changed overrun_defaced).2 64
    .badHeader overrun_merge.1

/-- A merge that reports damage has taken a free chunk off its list and leaves it on none. -/
theorem report_drops_chunk :
    ¬∀ (w : World) (l : Nat) (t : Tag) (bytes : ByteArray), w.Reachable →
      (l, t) ∈ w.heap.chunks → t.free = false →
      Changed (Store.tagBytesOf l t.size) w.heap.region (w.heap.overwritten bytes).region →
      ∀ offset damage,
        ((w.heap.overwritten bytes).run Heap.merge).result = .error (.corrupt offset damage) →
        ∀ i, (w.heap.overwritten bytes).store.ListsByte i →
          ((w.heap.overwritten bytes).run Heap.merge).after.store.ListsByte i := by
  intro hkept
  obtain ⟨hreport, hhead, htag, hempty⟩ := overrun_merge
  have hlisted : overrun.store.OnList 32 := .head hhead
  have hbyte : overrun.store.ListsByte 32 :=
    ⟨32, ⟨32, true, .kernel⟩, hlisted, htag, Nat.le_refl 32, Nat.lt_add_of_pos_right (by decide)⟩
  have hstays := hkept flanked 64 ⟨32, false, .kernel⟩
    ((flanked.heap.region.putNat 64 8 0).putNat 88 8 0).bytes reachable_flanked flanked_chunk rfl
  rw [← overrun] at hstays
  obtain ⟨c, u, hc, -⟩ := hstays overrun_changed 64 .badHeader hreport 32 hbyte
  exact Store.not_onList_of_empty hempty hc

end World

end BoundaryHeap
