import BoundaryHeap.Proofs.Intact

namespace BoundaryHeap

open Region (Changed linkBytesOf)

namespace Region

variable {start : Nat} {bytes : ByteArray}

theorem base_trim (start : Nat) (bytes : ByteArray) :
    (trim start bytes).base = start + min (roundUp start - start) bytes.size :=
  rfl

theorem len_trim (start : Nat) (bytes : ByteArray) :
    (trim start bytes).len =
      (bytes.size - min (roundUp start - start) bytes.size) / granule * granule := by
  rw [len, trim, ByteArray.size_extract]
  simp only [granule]
  omega

theorem trim_aligned (h : minChunk ≤ (trim start bytes).len) :
    (trim start bytes).base % granule = 0 ∧ (trim start bytes).len % granule = 0 := by
  rw [len_trim] at h ⊢
  rw [base_trim]
  simp only [roundUp, granule, minChunk] at h ⊢
  omega

end Region

namespace Shape

/-- One free chunk on no list. -/
def whole (len : Nat) : Shape :=
  ⟨len, [(0, .unowned len)], fun _ => []⟩

/-- One clean chunk. -/
def fresh (len : Nat) : Shape :=
  (whole len).file 0 .clean

variable {len : Nat}

theorem not_listed_whole (c : Nat) : ¬(whole len).Listed c := by
  rintro ⟨l, hc⟩
  cases hc

theorem loose_whole : (whole len).loose = {0} := by
  ext c
  constructor
  · rintro ⟨⟨t, hc, -⟩, -⟩
    cases List.mem_singleton.1 hc
    rfl
  · rintro rfl
    exact ⟨⟨_, List.mem_singleton.2 rfl, rfl⟩, not_listed_whole 0⟩

theorem tiles_whole (hmin : minChunk ≤ len) (hgrain : len % granule = 0) :
    Tiles 0 (whole len).chunks len :=
  ⟨rfl, ⟨hmin, hgrain⟩, Nat.zero_add len⟩

theorem holding_whole (hmin : minChunk ≤ len) (hmax : len ≤ maxRegion)
    (hgrain : len % granule = 0) : (whole len).Holding {0} := by
  refine ⟨⟨hmin, hmax, tiles_whole hmin hgrain, ⟨fun _ => .nil, ?_⟩, ?_, ?_, fun _ _ => .nil, ?_⟩,
    loose_whole, ?_⟩
  · intro l l' c hc
    cases hc
  · intro l c hc
    cases hc
  · intro l c t hc
    cases hc
  · exact Nat.zero_le 1
  · intro c t _ hclean
    exact absurd hclean.listed (not_listed_whole c)

theorem settled_fresh (hmin : minChunk ≤ len) (hmax : len ≤ maxRegion)
    (hgrain : len % granule = 0) : (fresh len).Settled := by
  have hwhole := holding_whole hmin hmax hgrain
  have hfile := hwhole.file (f := .clean) rfl (fun he => by cases he) fun t ht =>
    ⟨fun c u _ _ hclean => not_listed_whole c hclean.listed,
      fun hclean => not_listed_whole _ hclean.listed⟩
  rw [Set.sdiff_self] at hfile
  exact hfile

end Shape

namespace Heap

variable {h : Heap} {start : Nat} {bytes : ByteArray} {journal : List Record}

/-- The bytes of a fresh heap are laid out and filed as one clean chunk. Nothing is stored but its
tags and its links. -/
theorem format_run {r : Region} (hmin : minChunk ≤ r.len) (hmax : r.len ≤ maxRegion)
    (hgrain : r.len % granule = 0) :
    ∃ s', format r.len ⟨r, .empty⟩ = .ok () s' ∧
      s'.Represents (Shape.fresh r.len) ∧
      Changed (fields (Shape.fresh r.len).chunks) r s'.region := by
  obtain ⟨s₁, hrun, hheads, htag, hnil, hr⟩ := Store.layOut_run (s := ⟨r, .empty⟩) (c := 0)
    rfl hmin hgrain (Nat.le_of_eq (Nat.zero_add r.len))
  have hwhole := Shape.holding_whole hmin hmax hgrain
  have hmem : (0, Tag.unowned r.len) ∈ (Shape.whole r.len).chunks := List.mem_singleton.2 rfl
  have hs₁ : s₁.Represents (Shape.whole r.len) := by
    refine ⟨hwhole.valid, hr.len, ?_, fun l => ?_, ?_⟩
    · intro c t hc
      cases List.mem_singleton.1 hc
      exact htag
    · show s₁.heads.get l = none
      rw [hheads]
      exact Heads.get_empty l
    · intro c hc
      rw [hwhole.loose] at hc
      obtain rfl := Set.mem_singleton_iff.1 hc
      exact hnil
  have hsize := hwhole.valid.sizeAt_eq hmem
  have hfile : Store.Relinks (Store.file 1 0 r.len .clean) (Shape.whole r.len) ()
      (Shape.fresh r.len) :=
    .file (hwhole.mem_loose rfl) hsize (Nat.le_refl 1) fun he => by cases he
  obtain ⟨s₂, hrun', hs₂, hr'⟩ := hfile.run s₁ hs₁
  have hlinks {S : Set Nat} (hS : ∀ c ∈ S, (Shape.whole r.len).IsFree c) :
      linkBytesOf S ⊆ fields (Shape.whole r.len).chunks := Shape.linkBytesOf_fields hS
  have hfree : ∀ c ∈ ({0} : Set Nat), (Shape.whole r.len).IsFree c := by
    rintro c rfl
    exact ⟨_, hmem, rfl⟩
  have hlaid := hr.mono (Set.union_subset (tagBytesOf_fields (t := .unowned r.len) hmem)
    (hlinks hfree))
  refine ⟨s₂, (bind_ok hrun).trans hrun', hs₂, ?_⟩
  rw [hfile.chunks]
  exact hlaid.trans (hr'.mono (hlinks fun c hc => hc))

theorem occupy_small {slice : Region} (h : (Region.trim slice.base slice.bytes).len < minChunk) :
    occupy slice = ⟨.error (.error (.regionTooSmall slice.len)), slice, []⟩ :=
  if_pos h

theorem occupy_large {slice : Region} (h : maxRegion < (Region.trim slice.base slice.bytes).len) :
    occupy slice = ⟨.error (.error (.regionTooLarge (Region.trim slice.base slice.bytes).len
      maxRegion)), slice, []⟩ := by
  have hmin : ¬(Region.trim slice.base slice.bytes).len < minChunk := by
    simp only [maxRegion, markBytes, granule, minChunk] at h ⊢
    omega
  exact (if_neg hmin).trans (if_pos h)

theorem occupy_fits {slice : Region} (hmin : minChunk ≤ (Region.trim slice.base slice.bytes).len)
    (hmax : (Region.trim slice.base slice.bytes).len ≤ maxRegion) :
    let r := Region.trim slice.base slice.bytes
    ∃ s', occupy slice = ⟨.ok ⟨s', .empty, 0, .zero⟩, slice.overlay s'.region,
        [.regionTaken r.base r.stop r.len (sizeClass r.len)]⟩ ∧
      s'.Represents (Shape.fresh r.len) ∧ Changed (fields (Shape.fresh r.len).chunks) r s'.region := by
  obtain ⟨s', hrun, hs', hr⟩ := format_run hmin hmax (Region.trim_aligned hmin).2
  refine ⟨s', ?_, hs', hr⟩
  simp only [occupy, if_neg (Nat.not_lt.2 hmin), if_neg (Nat.not_lt.2 hmax), hrun]

theorem occupy_ok_iff (slice : Region) : (∃ h, (occupy slice).result = .ok h) ↔
    minChunk ≤ (Region.trim slice.base slice.bytes).len ∧
      (Region.trim slice.base slice.bytes).len ≤ maxRegion := by
  constructor
  · rintro ⟨h, hok⟩
    refine ⟨Nat.le_of_not_lt fun hsmall => ?_, Nat.le_of_not_lt fun hlarge => ?_⟩
    · rw [occupy_small hsmall] at hok
      cases hok
    · rw [occupy_large hlarge] at hok
      cases hok
  · rintro ⟨hmin, hmax⟩
    obtain ⟨s', ho, -⟩ := occupy_fits hmin hmax
    rw [ho]
    exact ⟨_, rfl⟩

/-- A slice that is refused stays as it is. -/
theorem occupy_error {slice : Region} {f : Fault} (h : (occupy slice).result = .error f) :
    let r := Region.trim slice.base slice.bytes
    f = .error (if r.len < minChunk then .regionTooSmall slice.len
        else .regionTooLarge r.len maxRegion) ∧
      (occupy slice).after = slice ∧ (occupy slice).journal = [] := by
  intro r
  by_cases hmin : r.len < minChunk
  · rw [occupy_small hmin] at h ⊢
    rw [if_pos hmin]
    exact ⟨(Except.error.inj h).symm, rfl, rfl⟩
  · by_cases hmax : maxRegion < r.len
    · rw [occupy_large hmax] at h ⊢
      rw [if_neg hmin]
      exact ⟨(Except.error.inj h).symm, rfl, rfl⟩
    · obtain ⟨h', hok⟩ :=
        (occupy_ok_iff slice).2 ⟨Nat.le_of_not_lt hmin, Nat.le_of_not_lt hmax⟩
      rw [hok] at h
      cases h

theorem takeOver_of_occupy {slice : Region} (h₀ : (occupy slice).result = .ok h) :
    takeOver slice.base slice.bytes = .ok (h, (occupy slice).journal) := by
  show (occupy slice).result.map _ = _
  rw [h₀]
  rfl

theorem occupy_of_takeOver (h₀ : takeOver start bytes = .ok (h, journal)) :
    (occupy ⟨start, bytes⟩).result = .ok h := by
  rw [takeOver] at h₀
  rcases hresult : (occupy ⟨start, bytes⟩).result with f | h'
  · rw [hresult] at h₀
    cases h₀
  · rw [hresult] at h₀
    rw [(Prod.mk.inj (Except.ok.inj h₀)).1]

theorem takeOver_run (h₀ : takeOver start bytes = .ok (h, journal)) :
    minChunk ≤ (Region.trim start bytes).len ∧ (Region.trim start bytes).len ≤ maxRegion ∧
      h.store.Represents (Shape.fresh (Region.trim start bytes).len) ∧
      Changed (fields (Shape.fresh (Region.trim start bytes).len).chunks) (Region.trim start bytes)
        h.region ∧
      h.live = .empty ∧ h.lastSize = 0 ∧ h.counters = .zero := by
  have hok := occupy_of_takeOver h₀
  obtain ⟨hmin, hmax⟩ := (occupy_ok_iff ⟨start, bytes⟩).1 ⟨h, hok⟩
  obtain ⟨s', ho, hs', hr⟩ := @occupy_fits ⟨start, bytes⟩ hmin hmax
  rw [ho] at hok
  obtain rfl := Except.ok.inj hok
  exact ⟨hmin, hmax, hs', hr, rfl, rfl, rfl⟩

theorem intact_takeOver (h₀ : takeOver start bytes = .ok (h, journal)) :
    h.Intact (Shape.fresh h.len) := by
  obtain ⟨hmin, hmax, hs, hr, hlive, -, hcounters⟩ := takeOver_run h₀
  obtain ⟨haligned, hgrain⟩ := Region.trim_aligned hmin
  have hlen : h.len = (Region.trim start bytes).len := hr.len
  rw [hlen]
  refine ⟨hs, Shape.settled_fresh hmin hmax hgrain, fun g => ?_, ?_, ?_⟩
  · rw [hlive, LiveMap.isMarked_empty]
    constructor
    · intro hmarked
      cases hmarked
    · rintro ⟨t, ht⟩
      cases ht
  · rw [hcounters]
    rfl
  · rw [← hr.base] at haligned
    exact haligned

end Heap

end BoundaryHeap
