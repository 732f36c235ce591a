import BoundaryHeap.Proofs.Represents
import BoundaryHeap.Proofs.Woven

namespace BoundaryHeap

open Region (Changed linkBytesOf)

/-- How a damaged heap was found: its bytes and chunks, the live chunks whose tags were overwritten,
and whether the links were left alone. -/
structure Wreck where
  region : Region
  chunks : List Chunk
  marred : Set Nat
  whole : Prop

def FreeIn (chunks : List Chunk) (c : Nat) : Prop :=
  ∃ t, (c, t) ∈ chunks ∧ t.free = true

def unheld (chunks : List Chunk) (H : Set Nat) : Set Nat :=
  {c | FreeIn chunks c ∧ c ∉ H}

theorem unheld_insert (chunks : List Chunk) (H : Set Nat) (c : Nat) :
    unheld chunks (insert c H) = unheld chunks H \ {c} := by
  ext d
  simp only [unheld, Set.mem_ofPred_eq, Set.mem_insert_iff, Set.mem_sdiff, Set.mem_singleton_iff]
  tauto

theorem insert_unheld {chunks : List Chunk} {H : Set Nat} {c : Nat} (hc : FreeIn chunks c) :
    insert c (unheld chunks H) = unheld chunks (H \ {c}) := by
  ext d
  simp only [unheld, Set.mem_ofPred_eq, Set.mem_insert_iff, Set.mem_sdiff, Set.mem_singleton_iff]
  constructor
  · intro hd
    rcases hd with rfl | hd
    · exact ⟨hc, fun hd => hd.2 rfl⟩
    · exact ⟨hd.1, fun hd' => hd.2 hd'.1⟩
  · intro hd
    by_cases hdc : d = c
    · exact .inl hdc
    · exact .inr ⟨hd.1, fun hd' => hd.2 ⟨hd', hdc⟩⟩

/-- The chunks `mid` fill the section of the region from `lo` to `hi`, between `pre` and `post`. -/
structure Spans (chunks : List Chunk) (len lo hi : Nat) (pre mid post : List Chunk) : Prop where
  chunks : chunks = pre ++ mid ++ post
  below : Tiles 0 pre lo
  inside : Tiles lo mid hi
  above : Tiles hi post len

namespace Spans

variable {chunks pre mid post new : List Chunk} {len lo hi c : Nat} {t : Tag}

theorem mem_iff (h : Spans chunks len lo hi pre mid post) {x : Chunk} :
    x ∈ chunks ↔ x ∈ pre ∨ x ∈ mid ∨ x ∈ post := by
  rw [h.chunks, List.mem_append, List.mem_append, or_assoc]

theorem place (h : Spans chunks len lo hi pre mid post) (hc : (c, t) ∈ chunks) :
    ((c, t) ∈ mid ∧ lo ≤ c ∧ c + t.size ≤ hi) ∨
      (((c, t) ∈ pre ∨ (c, t) ∈ post) ∧ (c + t.size ≤ lo ∨ hi ≤ c)) := by
  rcases h.mem_iff.1 hc with hpre | hmid | hpost
  · exact .inr ⟨.inl hpre, .inl (h.below.end_le hpre)⟩
  · exact .inl ⟨hmid, h.inside.ge_of_mem hmid, h.inside.end_le hmid⟩
  · exact .inr ⟨.inr hpost, .inr (h.above.ge_of_mem hpost)⟩

theorem redraw (h : Spans chunks len lo hi pre mid post) (hnew : Tiles lo new hi) :
    Spans (pre ++ new ++ post) len lo hi pre new post :=
  ⟨rfl, h.below, hnew, h.above⟩

theorem tiles (h : Spans chunks len lo hi pre mid post) : Tiles 0 chunks len := by
  rw [h.chunks]
  exact (h.below.append h.inside).append h.above

theorem single (h : Tiles 0 chunks len) (hc : (c, t) ∈ chunks) :
    ∃ pre post, Spans chunks len c (c + t.size) pre [(c, t)] post := by
  obtain ⟨pre, post, he, hpre, ht, hpost⟩ := h.split hc
  refine ⟨pre, post, ?_, hpre, ⟨rfl, ht, rfl⟩, hpost⟩
  rw [he, List.append_assoc]
  rfl

theorem liveIn (h : Spans chunks len lo hi pre mid post)
    (hmid : ∀ c t, (c, t) ∈ mid → t.free = true) :
    liveIn chunks = BoundaryHeap.liveIn pre ++ BoundaryHeap.liveIn post := by
  rw [h.chunks, liveIn_append, liveIn_append, liveIn_eq_nil.2 hmid, List.append_nil]

end Spans

/-- Neither word at the ends of the chunk reads as the tag of a free one. -/
def Region.Defaced (r : Region) (c size : Nat) : Prop :=
  (∀ t, Tag.decode (UInt64.ofNat (r.natAt c 8)) = some t → t.free = false) ∧
    ∀ t, Tag.decode (UInt64.ofNat (r.natAt (c + size - 8) 8)) = some t → t.free = false

theorem Region.Defaced.of_words {r r' : Region} {c size : Nat} (h : r.Defaced c size)
    (he : r'.natAt c 8 = r.natAt c 8 ∧ r'.natAt (c + size - 8) 8 = r.natAt (c + size - 8) 8) :
    r'.Defaced c size := by
  unfold Region.Defaced
  rw [he.1, he.2]
  exact h

namespace Store

/-- What is left of the heap `W` is kept in `s`: its chunks are `chunks`, those of `H` are in hand,
and the other free ones are woven into lists. -/
structure Upholds (W : Wreck) (chunks : List Chunk) (H : Set Nat) (s : Store) : Prop where
  bounded : s.region.len ≤ maxRegion
  tiles : Tiles 0 chunks s.region.len
  live : liveIn chunks = liveIn W.chunks
  marred : ∀ c ∈ W.marred, ∃ t, (c, t) ∈ liveIn chunks ∧ s.region.Defaced c t.size
  tags : ∀ c t, (c, t) ∈ chunks → c ∉ W.marred → s.region.HasTag c t
  held : ∀ c ∈ H, FreeIn chunks c
  woven : s.Woven W.whole (unheld chunks H) H
  changed : Changed (vacant W.chunks) W.region s.region

end Store

namespace Wreck

/-- The chunks in hand fill a section next to a chunk whose tags were overwritten. -/
def Stranded (W : Wreck) (chunks : List Chunk) (len : Nat) (H : Set Nat) : Prop :=
  ∃ lo hi pre mid post, Spans chunks len lo hi pre mid post ∧ (∀ c, c ∈ H ↔ ∃ t, (c, t) ∈ mid) ∧
    ∃ l t, l ∈ W.marred ∧ (l, t) ∈ liveIn chunks ∧ (hi = l ∨ lo = l + t.size)

/-- A program on the heap stops: a walk has no end, or damage is reported. Then the heap is kept as
far as it was, and if its links were whole, what is in hand lies next to overwritten tags. -/
def Fails (W : Wreck) (f : Fault) (s : Store) : Prop :=
  f = .endless ∨ (f.Reports ∧ ∃ chunks H, s.Upholds W chunks H ∧
    (W.whole → W.Stranded chunks s.region.len H))

end Wreck

namespace Store.Upholds

variable {W : Wreck} {chunks pre mid post new : List Chunk} {H H' : Set Nat} {s t : Store}
  {c d lo hi size : Nat} {u : Tag} {l : ListId}

theorem not_marred (h : s.Upholds W chunks H) (hc : (c, u) ∈ chunks) (hfree : u.free = true) :
    c ∉ W.marred := by
  intro hm
  obtain ⟨v, hv, -⟩ := h.marred c hm
  obtain ⟨hmem, hlive⟩ := mem_liveIn.1 hv
  obtain rfl := h.tiles.unique hc hmem
  rw [hfree] at hlive
  cases hlive

theorem grid (h : s.Upholds W chunks H) (hc : (c, u) ∈ chunks) : c % 16 = 0 :=
  h.tiles.mod_of_mem rfl hc

theorem holds (h : s.Upholds W chunks H) (hc : FreeIn chunks c) : s.region.Holds c := by
  obtain ⟨u, hu, -⟩ := hc
  have hend := h.tiles.end_le hu
  have hpos := h.tiles.size_pos hu
  refine ⟨h.grid hu, ?_⟩
  omega

theorem tagAt (h : s.Upholds W chunks H) (hc : (c, u) ∈ chunks) (hm : c ∉ W.marred) :
    s.region.tagAt c = .ok u :=
  (h.tags c u hc hm).tagAt (h.grid hc) (h.tiles.proper hc) (h.tiles.end_le hc) h.bounded

theorem sizeOf_eq (h : s.Upholds W chunks H) (hc : (c, u) ∈ chunks) (hfree : u.free = true) :
    sizeOf c s = .ok u.size s := by
  rw [sizeOf, bind_ok (reading_eq (h.tagAt hc (h.not_marred hc hfree)))]
  rfl

theorem mem_of_head (h : s.Upholds W chunks H) (hc : s.heads.get l = some c) :
    c ∈ unheld chunks H :=
  h.woven.leads (.head l) trivial c hc

theorem vacant_eq (h : s.Upholds W chunks H) : vacant W.chunks = vacant chunks := by
  unfold vacant
  rw [h.live]

theorem linkBytes_apart (h : s.Upholds W chunks H) (hc : (c, u) ∈ chunks) :
    ∀ i ∈ tagBytesOf c u.size, i ∉ linkBytesOf {d | FreeIn chunks d} := by
  rintro i hi ⟨d, ⟨v, hv, -⟩, hlo, hhi⟩
  have hpos := h.tiles.size_pos hc
  have hpos' := h.tiles.size_pos hv
  have hsub := tagBytesOf_subset hpos hi
  rw [Set.mem_Ico] at hsub
  rcases h.tiles.apart hc hv with ⟨rfl, rfl⟩ | he | he
  · rcases hi with hi | hi
    · rw [Set.mem_Ico] at hi
      omega
    · rw [Set.mem_Ico] at hi
      omega
  · omega
  · omega

theorem linkBytes_vacant (h : s.Upholds W chunks H) :
    linkBytesOf {d | FreeIn chunks d} ⊆ vacant W.chunks := by
  rw [h.vacant_eq]
  exact h.tiles.linkBytesOf_vacant fun _ hd => hd

/-- Only links of free chunks are stored. -/
theorem relinked (h : s.Upholds W chunks H) (hwoven : t.Woven W.whole (unheld chunks H') H')
    (hheld : ∀ c ∈ H', FreeIn chunks c)
    (hr : Changed (linkBytesOf {d | FreeIn chunks d}) s.region t.region) :
    t.Upholds W chunks H' := by
  constructor
  case bounded =>
    rw [hr.len]
    exact h.bounded
  case tiles =>
    rw [hr.len]
    exact h.tiles
  case live => exact h.live
  case marred =>
    intro c hc
    obtain ⟨v, hv, hdefaced⟩ := h.marred c hc
    have hmem := (mem_liveIn.1 hv).1
    exact ⟨v, hv, hdefaced.of_words (hr.tagWords (h.linkBytes_apart hmem))⟩
  case tags =>
    intro c v hc hm
    exact (h.tags c v hc hm).of_words (hr.tagWords (h.linkBytes_apart hc))
  case held => exact hheld
  case woven => exact hwoven
  case changed => exact h.changed.trans (hr.mono h.linkBytes_vacant)

/-- From `s` to `t` the section between `pre` and `post`, whose chunks `mid` are in hand, is cut into
the free chunks `new`, and only its bytes are stored to. -/
structure Recut (chunks : List Chunk) (lo hi : Nat) (pre mid post new : List Chunk)
    (H H' : Set Nat) (s t : Store) : Prop where
  spans : Spans chunks s.region.len lo hi pre mid post
  inHand : ∀ c u, (c, u) ∈ mid → c ∈ H
  tiles : Tiles lo new hi
  free : ∀ c u, (c, u) ∈ new → u.free = true
  heads : t.heads = s.heads
  changed : Changed (Set.Ico lo hi) s.region t.region
  fades : s.region.Fades t.region
  tags : ∀ c u, (c, u) ∈ new → t.region.HasTag c u
  nil : ∀ c u, (c, u) ∈ new → t.referrerAt c = nilWord
  hand : ∀ c, c ∈ H' ↔ (c ∈ H ∧ (c < lo ∨ hi ≤ c)) ∨ ∃ u, (c, u) ∈ new

theorem Recut.mem_beside (hcut : Recut chunks lo hi pre mid post new H H' s t)
    (hc : (c, u) ∈ pre ∨ (c, u) ∈ post) : (c, u) ∈ chunks ∧ (c, u) ∈ pre ++ new ++ post := by
  rw [hcut.spans.mem_iff, (hcut.spans.redraw hcut.tiles).mem_iff]
  tauto

theorem Recut.tiles_all (hcut : Recut chunks lo hi pre mid post new H H' s t) :
    Tiles 0 (pre ++ new ++ post) t.region.len := by
  rw [hcut.changed.len]
  exact (hcut.spans.redraw hcut.tiles).tiles

section Recut

variable (h : s.Upholds W chunks H) (hcut : Recut chunks lo hi pre mid post new H H' s t)

include h hcut

theorem free_of_mem_mid (hc : (c, u) ∈ mid) : u.free = true := by
  obtain ⟨v, hv, hfree⟩ := h.held c (hcut.inHand c u hc)
  rw [h.tiles.unique (hcut.spans.mem_iff.2 (.inr (.inl hc))) hv]
  exact hfree

theorem liveIn_recut : liveIn (pre ++ new ++ post) = liveIn chunks :=
  ((hcut.spans.redraw hcut.tiles).liveIn hcut.free).trans
    (hcut.spans.liveIn fun _ _ hc => h.free_of_mem_mid hcut hc).symm

theorem beside (hc : (c, u) ∈ chunks) (hor : (c, u) ∈ liveIn chunks ∨ c ∉ H) :
    (c, u) ∈ pre ∨ (c, u) ∈ post := by
  rcases hcut.spans.mem_iff.1 hc with hpre | hmid | hpost
  · exact .inl hpre
  · rcases hor with hlive | hH
    · have hlive' := (mem_liveIn.1 hlive).2
      rw [h.free_of_mem_mid hcut hmid] at hlive'
      cases hlive'
    · exact absurd (hcut.inHand c u hmid) hH
  · exact .inr hpost

theorem place_beside (hc : (c, u) ∈ pre ∨ (c, u) ∈ post) :
    32 ≤ u.size ∧ (c + u.size ≤ lo ∨ hi ≤ c) := by
  refine ⟨h.tiles.size_pos (hcut.mem_beside hc).1, ?_⟩
  rcases hc with hc | hc
  · exact .inl (hcut.spans.below.end_le hc)
  · exact .inr (hcut.spans.above.ge_of_mem hc)

theorem bytes_beside (hc : (c, u) ∈ pre ∨ (c, u) ∈ post) {i : Nat} (hlo : c ≤ i)
    (hhi : i < c + u.size) : i ∉ Set.Ico lo hi := by
  obtain ⟨-, hside⟩ := h.place_beside hcut hc
  intro hin
  rw [Set.mem_Ico] at hin
  omega

theorem words_recut (hc : (c, u) ∈ pre ∨ (c, u) ∈ post) :
    t.region.natAt c 8 = s.region.natAt c 8 ∧
      t.region.natAt (c + u.size - 8) 8 = s.region.natAt (c + u.size - 8) 8 := by
  apply hcut.changed.tagWords
  intro i hi
  have hsub := tagBytesOf_subset (h.place_beside hcut hc).1 hi
  rw [Set.mem_Ico] at hsub
  exact h.bytes_beside hcut hc hsub.1 hsub.2

theorem links_recut (hc : (c, u) ∈ pre ∨ (c, u) ∈ post) :
    t.targetAt (.next c) = s.targetAt (.next c) ∧ t.referrerAt c = s.referrerAt c := by
  obtain ⟨hpos, -⟩ := h.place_beside hcut hc
  constructor
  · apply targetAt_changed hcut.changed
    exact fun i hlo hhi => h.bytes_beside hcut hc (by omega) (by omega)
  · apply referrerAt_changed hcut.changed
    exact fun i hlo hhi => h.bytes_beside hcut hc (by omega) (by omega)

theorem unheld_recut : unheld (pre ++ new ++ post) H' = unheld chunks H := by
  ext c
  simp only [unheld, Set.mem_ofPred_eq, hcut.hand]
  constructor
  · rintro ⟨⟨u, hu, hfree⟩, hne⟩
    have hside : (c, u) ∈ pre ∨ (c, u) ∈ post := by
      rcases (hcut.spans.redraw hcut.tiles).mem_iff.1 hu with hpre | hin | hpost
      · exact .inl hpre
      · exact absurd (.inr ⟨u, hin⟩) hne
      · exact .inr hpost
    obtain ⟨hpos, hplace⟩ := h.place_beside hcut hside
    refine ⟨⟨u, (hcut.mem_beside hside).1, hfree⟩, fun hH => hne (.inl ⟨hH, ?_⟩)⟩
    omega
  · rintro ⟨⟨u, hu, hfree⟩, hne⟩
    have hside := h.beside hcut hu (.inr hne)
    obtain ⟨hpos, hplace⟩ := h.place_beside hcut hside
    refine ⟨⟨u, (hcut.mem_beside hside).2, hfree⟩, ?_⟩
    rintro (hH | ⟨v, hv⟩)
    · exact hne hH.1
    · have hbounds := hcut.tiles.bounds hv
      omega

theorem held_recut (hc : c ∈ H') : FreeIn (pre ++ new ++ post) c ∧ t.referrerAt c = nilWord := by
  rcases (hcut.hand c).1 hc with ⟨hH, hplace⟩ | ⟨u, hu⟩
  · obtain ⟨u, hu, hfree⟩ := h.held c hH
    have hpos := h.tiles.size_pos hu
    have hside : (c, u) ∈ pre ∨ (c, u) ∈ post := by
      rcases hcut.spans.place hu with ⟨-, hge, hle⟩ | ⟨hside, -⟩
      · omega
      · exact hside
    exact ⟨⟨u, (hcut.mem_beside hside).2, hfree⟩,
      (h.links_recut hcut hside).2.trans (h.woven.hand c hH)⟩
  · have hmem := (hcut.spans.redraw hcut.tiles).mem_iff.2 (.inr (.inl hu))
    exact ⟨⟨u, hmem, hcut.free c u hu⟩, hcut.nil c u hu⟩

theorem woven_recut : t.Woven W.whole (unheld (pre ++ new ++ post) H') H' := by
  have hlisted : ∀ d ∈ unheld chunks H, ∃ u, (d, u) ∈ pre ∨ (d, u) ∈ post := by
    rintro d ⟨⟨u, hu, -⟩, hne⟩
    exact ⟨u, h.beside hcut hu (.inr hne)⟩
  rw [h.unheld_recut hcut]
  apply h.woven.redrawn hcut.heads hcut.changed.len
  · intro d hd
    obtain ⟨u, hu⟩ := hlisted d hd
    exact (h.links_recut hcut hu).1
  · intro d hd
    obtain ⟨u, hu⟩ := hlisted d hd
    exact (h.links_recut hcut hu).2
  · exact hcut.fades
  · intro d hd
    obtain ⟨⟨u, hu, -⟩, -⟩ := h.held_recut hcut hd
    have htiles := hcut.tiles_all
    have hend := htiles.end_le hu
    have hpos := htiles.size_pos hu
    exact ⟨htiles.mod_of_mem rfl hu, by omega⟩
  · intro d hd hd'
    rw [← h.unheld_recut hcut] at hd
    exact hd.2 hd'
  · exact fun d hd => (h.held_recut hcut hd).2

theorem section_vacant : Set.Ico lo hi ⊆ vacant W.chunks := by
  rw [h.vacant_eq]
  intro i hi c u hc
  obtain ⟨hmem, hlive⟩ := mem_liveIn.1 hc
  rw [Set.mem_Ico] at hi
  obtain ⟨-, hside⟩ := h.place_beside hcut (h.beside hcut hmem (.inl hc))
  omega

theorem recut : t.Upholds W (pre ++ new ++ post) H' := by
  constructor
  case bounded =>
    rw [hcut.changed.len]
    exact h.bounded
  case tiles => exact hcut.tiles_all
  case live => exact (h.liveIn_recut hcut).trans h.live
  case marred =>
    intro c hc
    obtain ⟨v, hv, hdefaced⟩ := h.marred c hc
    have hside := h.beside hcut (mem_liveIn.1 hv).1 (.inl hv)
    rw [h.liveIn_recut hcut]
    exact ⟨v, hv, hdefaced.of_words (h.words_recut hcut hside)⟩
  case tags =>
    intro c v hc hm
    have hkeep : (c, v) ∈ pre ∨ (c, v) ∈ post → t.region.HasTag c v := fun hside =>
      (h.tags c v (hcut.mem_beside hside).1 hm).of_words (h.words_recut hcut hside)
    rcases (hcut.spans.redraw hcut.tiles).mem_iff.1 hc with hpre | hin | hpost
    · exact hkeep (.inl hpre)
    · exact hcut.tags c v hin
    · exact hkeep (.inr hpost)
  case held => exact fun c hc => (h.held_recut hcut hc).1
  case woven => exact h.woven_recut hcut
  case changed => exact h.changed.trans (hcut.changed.mono (h.section_vacant hcut))

end Recut

end Store.Upholds

end BoundaryHeap
