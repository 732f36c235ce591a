import BoundaryHeap.Proofs.Cutting
import BoundaryHeap.Proofs.Shape

namespace BoundaryHeap

open Region (Changed linkBytesOf)

def vacant (chunks : List Chunk) : Set Nat :=
  {i | ∀ c t, (c, t) ∈ liveIn chunks → i < c ∨ c + t.size ≤ i}

/-- The bytes of the payloads of live chunks. -/
def payloads (chunks : List Chunk) : Set Nat :=
  {i | ∃ c t, (c, t) ∈ liveIn chunks ∧ c + tagBytes ≤ i ∧ i + tagBytes < c + t.size}

/-- The bytes of the tags of all chunks and of the links of the free ones. -/
def fields (chunks : List Chunk) : Set Nat :=
  {i | ∃ c t, (c, t) ∈ chunks ∧
    (i ∈ Store.tagBytesOf c t.size ∨ (t.free = true ∧ i ∈ linkBytesOf {c}))}

theorem tagBytesOf_fields {chunks : List Chunk} {c : Nat} {t : Tag} (hc : (c, t) ∈ chunks) :
    Store.tagBytesOf c t.size ⊆ fields chunks :=
  fun _ hi => ⟨c, t, hc, .inl hi⟩

theorem Shape.linkBytesOf_fields {A : Shape} {S : Set Nat} (hS : ∀ c ∈ S, A.IsFree c) :
    linkBytesOf S ⊆ fields A.chunks := by
  rintro i ⟨c, hc, hi⟩
  obtain ⟨t, ht, hfree⟩ := hS c hc
  exact ⟨c, t, ht, .inr ⟨hfree, c, rfl, hi⟩⟩

theorem Tiles.subset_vacant {chunks : List Chunk} {lo hi c : Nat} {t : Tag}
    (h : Tiles lo chunks hi) (hc : (c, t) ∈ chunks) (hfree : t.free = true) :
    Set.Ico c (c + t.size) ⊆ vacant chunks := by
  intro i hin d u hd
  obtain ⟨hmem, hlive⟩ := mem_liveIn.1 hd
  rw [Set.mem_Ico] at hin
  rcases h.apart hmem hc with ⟨-, rfl⟩ | he | he
  · rw [hlive] at hfree
    cases hfree
  · omega
  · omega

theorem Tiles.linkBytesOf_vacant {chunks : List Chunk} {lo hi : Nat} (h : Tiles lo chunks hi)
    {S : Set Nat} (hS : ∀ c ∈ S, ∃ t, (c, t) ∈ chunks ∧ t.free = true) :
    linkBytesOf S ⊆ vacant chunks := by
  rintro i ⟨c, hc, hlo, hhi⟩
  obtain ⟨t, ht, hfree⟩ := hS c hc
  have hpos := h.size_pos ht
  exact h.subset_vacant ht hfree (Set.mem_Ico.2 ⟨by omega, by omega⟩)

theorem Shape.Section.subset_vacant {A : Shape} {lo hi : Nat} {mid : List Chunk}
    (h : A.Section lo hi mid) (hmid : ∀ c t, (c, t) ∈ mid → t.free = true) :
    Set.Ico lo hi ⊆ vacant A.chunks := by
  intro i hin c t hc
  obtain ⟨hmem, hlive⟩ := mem_liveIn.1 hc
  rw [Set.mem_Ico] at hin
  have hout : c < lo ∨ hi ≤ c := by
    rcases h.mem_chunks.1 hmem with ⟨-, hlt⟩ | hm | ⟨-, hge⟩
    · exact .inl hlt
    · rw [hmid c t hm] at hlive
      cases hlive
    · exact .inr hge
  rcases h.beside hmem hout with hend | hge
  · omega
  · omega

namespace Store

/-- The bytes and heads of a store spell a shape. -/
structure Represents (s : Store) (A : Shape) : Prop where
  valid : A.Valid
  len : s.region.len = A.len
  tags : ∀ c t, (c, t) ∈ A.chunks → s.region.HasTag c t
  threads : ∀ l, s.Threads (.head l) (A.lists l)
  loose : ∀ c ∈ A.loose, s.referrerAt c = nilWord

variable {s s' : Store} {A B : Shape} {c d lo hi size : Nat} {t : Tag} {mid new : List Chunk}

theorem Represents.tagAt (h : s.Represents A) (hc : (c, t) ∈ A.chunks) :
    s.region.tagAt c = .ok t := by
  apply (h.tags c t hc).tagAt
  · exact h.valid.tiles.mod_of_mem rfl hc
  · exact h.valid.tiles.proper hc
  · rw [h.len]
    exact h.valid.tiles.end_le hc
  · rw [h.len]
    exact h.valid.bounded

theorem Represents.holds (h : s.Represents A) (hc : (c, t) ∈ A.chunks) : s.region.Holds c := by
  have hend := h.valid.tiles.end_le hc
  have hpos := h.valid.tiles.size_pos hc
  refine ⟨h.valid.tiles.mod_of_mem rfl hc, ?_⟩
  rw [h.len]
  omega

theorem Represents.linked (h : s.Represents A) : s.Linked A.lists := by
  refine ⟨h.threads, h.valid.distinct, fun hc => ?_, ?_⟩
  · obtain ⟨t, ht, -⟩ := h.valid.listed hc
    exact h.holds ht
  · have hbound := h.valid.bounded
    rw [h.len]
    simp only [maxRegion, markBytes, granule] at hbound
    omega

theorem Represents.tags_relinked (h : s.Represents A) {S : Set Nat} (hS : ∀ c ∈ S, A.IsFree c)
    (hr : Changed (linkBytesOf S) s.region s'.region) (hc : (c, t) ∈ A.chunks) :
    s'.region.HasTag c t := by
  have hpos := h.valid.tiles.size_pos hc
  apply (h.tags c t hc).changed hr
  · rintro i hlo hhi ⟨d, hd, hdlo, hdhi⟩
    obtain ⟨u, hu, -⟩ := hS d hd
    have hpos' := h.valid.tiles.size_pos hu
    rcases h.valid.tiles.apart hc hu with ⟨rfl, -⟩ | he | he
    · omega
    · omega
    · omega
  · rintro i hlo hhi ⟨d, hd, hdlo, hdhi⟩
    obtain ⟨u, hu, -⟩ := hS d hd
    have hpos' := h.valid.tiles.size_pos hu
    rcases h.valid.tiles.apart hc hu with ⟨rfl, -⟩ | he | he
    · omega
    · omega
    · omega

theorem Represents.referrerAt_relinked (h : s.Represents A) {S : Set Nat}
    (hS : ∀ c ∈ S, A.IsFree c) (hr : Changed (linkBytesOf S) s.region s'.region)
    (hd : A.IsFree d) (hne : d ∉ S) : s'.referrerAt d = s.referrerAt d := by
  obtain ⟨u, hu, -⟩ := hd
  have hgrid := (h.holds hu).1
  apply referrerAt_changed hr
  rintro i hlo hhi ⟨e, he, helo, hehi⟩
  obtain ⟨v, hv, -⟩ := hS e he
  have hgrid' := (h.holds hv).1
  have hde : d = e := by omega
  exact hne (hde ▸ he)

/-- Only the lists change, and only links of free chunks are stored for it. -/
theorem Represents.relink (h : s.Represents A) (hB : B.Valid) (hchunks : B.chunks = A.chunks)
    (hlen : B.len = A.len) (hlinked : s'.Linked B.lists) {S : Set Nat}
    (hS : ∀ c ∈ S, A.IsFree c) (hr : Changed (linkBytesOf S) s.region s'.region)
    (hloose : ∀ d ∈ B.loose, (d ∈ A.loose ∧ d ∉ S) ∨ s'.referrerAt d = nilWord) :
    s'.Represents B := by
  refine ⟨hB, (hr.len.trans h.len).trans hlen.symm, fun c t hc => ?_, hlinked.threads, ?_⟩
  · rw [hchunks] at hc
    exact h.tags_relinked hS hr hc
  · intro d hd
    rcases hloose d hd with ⟨hd', hne⟩ | hnil
    · rw [h.referrerAt_relinked hS hr hd'.1 hne]
      exact h.loose d hd'
    · exact hnil

/-- A section is cut anew: only its bytes are stored to. -/
theorem Represents.redraw (h : s.Represents A) (hsec : A.Section lo hi mid)
    (hnew : Tiles lo new hi) (hheads : s'.heads = s.heads)
    (hr : Changed (Set.Ico lo hi) s.region s'.region)
    (htags : ∀ c t, (c, t) ∈ new → s'.region.HasTag c t)
    (hnil : ∀ c t, (c, t) ∈ new → t.free = true → s'.referrerAt c = nilWord) :
    s'.Represents (A.redraw lo hi new) := by
  have hbeside : ∀ {d u}, (d, u) ∈ A.chunks → (d < lo ∨ hi ≤ d) →
      ∀ i, d ≤ i → i < d + u.size → i ∉ Set.Ico lo hi := by
    intro d u hd hout i hlo hhi hin
    rw [Set.mem_Ico] at hin
    rcases hsec.beside hd hout with he | he
    · omega
    · omega
  have hlinks : ∀ {d}, A.IsFree d → (d < lo ∨ hi ≤ d) →
      s'.targetAt (.next d) = s.targetAt (.next d) ∧ s'.referrerAt d = s.referrerAt d := by
    rintro d ⟨u, hu, -⟩ hout
    have hpos := h.valid.tiles.size_pos hu
    constructor
    · exact targetAt_changed hr fun i hlo hhi => hbeside hu hout i (by omega) (by omega)
    · exact referrerAt_changed hr fun i hlo hhi => hbeside hu hout i (by omega) (by omega)
  refine ⟨h.valid.redraw hsec hnew, hr.len.trans h.len, ?_, ?_, ?_⟩
  · intro c t hc
    rcases Shape.mem_redraw.1 hc with ⟨hmem, hlt⟩ | hin | ⟨hmem, hge⟩
    · have hpos := h.valid.tiles.size_pos hmem
      apply (h.tags c t hmem).changed hr
      · exact fun i hlo hhi => hbeside hmem (.inl hlt) i (by omega) (by omega)
      · exact fun i hlo hhi => hbeside hmem (.inl hlt) i (by omega) (by omega)
    · exact htags c t hin
    · have hpos := h.valid.tiles.size_pos hmem
      apply (h.tags c t hmem).changed hr
      · exact fun i hlo hhi => hbeside hmem (.inr hge) i (by omega) (by omega)
      · exact fun i hlo hhi => hbeside hmem (.inr hge) i (by omega) (by omega)
  · intro l
    have hlisted : ∀ d ∈ A.lists l, A.IsFree d ∧ (d < lo ∨ hi ≤ d) :=
      fun d hd => ⟨h.valid.listed hd, hsec.outside h.valid ⟨l, hd⟩⟩
    apply (h.threads l).congr
    · exact congrArg (·.get l) hheads
    · exact fun d hd => (hlinks (hlisted d hd).1 (hlisted d hd).2).1
    · exact fun d hd => (hlinks (hlisted d hd).1 (hlisted d hd).2).2
  · intro d hd
    rw [Shape.loose_redraw h.valid hsec hnew] at hd
    rcases hd with ⟨hd, hout⟩ | ⟨t, hin, hfree⟩
    · rw [(hlinks hd.1 hout).2]
      exact h.loose d hd
    · exact hnil d t hin hfree

theorem Represents.payload (h : s.Represents A) (hheads : s'.heads = s.heads)
    (hr : Changed (payloads A.chunks) s.region s'.region) : s'.Represents A := by
  have htag : ∀ {c t}, (c, t) ∈ A.chunks → ∀ i, c ≤ i → i < c + 8 ∨ c + t.size ≤ i + 8 →
      i < c + t.size → i ∉ payloads A.chunks := by
    rintro c t hc i hlo hin hhi ⟨d, u, hd, hdlo, hdhi⟩
    simp only [tagBytes] at hdlo hdhi
    rcases h.valid.tiles.apart hc (mem_liveIn.1 hd).1 with ⟨rfl, rfl⟩ | he | he
    · omega
    · omega
    · omega
  have hlinks : ∀ {d}, A.IsFree d → ∀ i, d + 8 ≤ i → i < d + 16 → i ∉ payloads A.chunks := by
    rintro d ⟨u, hu, hfree⟩ i hlo hhi ⟨c, t, hc, hclo, hchi⟩
    simp only [tagBytes] at hclo hchi
    obtain ⟨hmem, hlive⟩ := mem_liveIn.1 hc
    have hpos := h.valid.tiles.size_pos hu
    rcases h.valid.tiles.apart hu hmem with ⟨-, rfl⟩ | he | he
    · rw [hfree] at hlive
      cases hlive
    · omega
    · omega
  have hreferrer : ∀ {d}, A.IsFree d → s'.referrerAt d = s.referrerAt d := by
    intro d hd
    exact referrerAt_changed hr fun i hlo hhi => hlinks hd i (by omega) (by omega)
  refine ⟨h.valid, hr.len.trans h.len, fun c t hc => ?_, fun l => ?_, fun d hd => ?_⟩
  · have hpos := h.valid.tiles.size_pos hc
    apply (h.tags c t hc).changed hr
    · exact fun i hlo hhi => htag hc i hlo (.inl hhi) (by omega)
    · exact fun i hlo hhi => htag hc i (by omega) (.inr (by omega)) (by omega)
  · apply (h.threads l).congr
    · exact congrArg (·.get l) hheads
    · intro d hd
      exact targetAt_changed hr fun i hlo hhi => hlinks (h.valid.listed hd) i hlo (by omega)
    · exact fun d hd => hreferrer (h.valid.listed hd)
  · rw [hreferrer hd.1]
    exact h.loose d hd

end Store

end BoundaryHeap
