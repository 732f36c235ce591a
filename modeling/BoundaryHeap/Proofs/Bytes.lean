import BoundaryHeap.Memory.Chunk
import Mathlib.Order.Interval.Set.Basic

namespace BoundaryHeap

/-- A size that a chunk can have. -/
def Tag.Proper (t : Tag) : Prop :=
  minChunk ≤ t.size ∧ t.size % granule = 0

theorem Tag.decode_encode_of_size {t : Tag} (hgrain : t.size % granule = 0)
    (hs : t.size < Tag.ownerUnit) : Tag.decode t.encode = some t := by
  simp only [granule, Tag.ownerUnit] at hgrain hs
  have hsize : t.size % 0x100000000 / 16 * 16 = t.size := by omega
  rw [Tag.decode_encode, hsize]

theorem Tag.Proper.decode_encode {t : Tag} (h : t.Proper) (hs : t.size ≤ maxRegion) :
    Tag.decode t.encode = some t := by
  refine Tag.decode_encode_of_size h.2 ?_
  simp only [maxRegion, markBytes, granule] at hs
  simp only [Tag.ownerUnit]
  omega

theorem linkOfWord_linkWord {n : Option Nat} (h : ∀ c, n = some c → c < 0x80000000) :
    linkOfWord (linkWord n) = n := by
  cases n with
  | none => rfl
  | some c =>
    have hc := h c rfl
    have hword : (UInt32.ofNat c).toNat = c := by
      rw [UInt32.toNat_ofNat']
      omega
    have hne : UInt32.ofNat c ≠ nilWord := by
      intro he
      have hnat := congrArg UInt32.toNat he
      rw [hword] at hnat
      simp only [nilWord, UInt32.reduceToNat] at hnat
      omega
    rw [linkWord, linkOfWord, if_neg hne, hword]

namespace Region

variable {r r' : Region}

/-- `r'` lies where `r` does and has the same bytes, those in `S` excepted. -/
structure Changed (S : Set Nat) (r r' : Region) : Prop where
  base : r'.base = r.base
  len : r'.len = r.len
  same : ∀ i, i ∉ S → r'.byteAt i = r.byteAt i

theorem Changed.refl (S : Set Nat) (r : Region) : Changed S r r :=
  ⟨rfl, rfl, fun _ _ => rfl⟩

theorem Changed.mono {S T : Set Nat} (h : Changed S r r') (hs : S ⊆ T) : Changed T r r' :=
  ⟨h.base, h.len, fun i hi => h.same i fun hm => hi (hs hm)⟩

theorem Changed.trans {S : Set Nat} {r'' : Region} (h : Changed S r r') (h' : Changed S r' r'') :
    Changed S r r'' :=
  ⟨h'.base.trans h.base, h'.len.trans h.len, fun i hi => (h'.same i hi).trans (h.same i hi)⟩

/-- A change in `S`, then a change in `T`. -/
theorem Changed.trans_union {S T : Set Nat} {r'' : Region} (h : Changed S r r')
    (h' : Changed T r' r'') : Changed (S ∪ T) r r'' :=
  (h.mono Set.subset_union_left).trans (h'.mono Set.subset_union_right)

theorem Changed.natAt {S : Set Nat} (h : Changed S r r') {offset width : Nat}
    (hs : ∀ i, offset ≤ i → i < offset + width → i ∉ S) :
    r'.natAt offset width = r.natAt offset width :=
  natAt_congr fun i hi hj => h.same i (hs i hi hj)

theorem changed_setByte (offset : Nat) (b : UInt8) : Changed {offset} r (r.setByte offset b) :=
  ⟨base_setByte .., len_setByte .., fun _ hi => byteAt_setByte_ne hi b⟩

theorem changed_putNat (offset width value : Nat) :
    Changed (Set.Ico offset (offset + width)) r (r.putNat offset width value) := by
  refine ⟨base_putNat .., len_putNat .., fun i hi => byteAt_putNat_outside value ?_⟩
  rw [Set.mem_Ico] at hi
  omega

theorem byteAt_fill_outside {i offset : Nat} (b : UInt8) {count : Nat}
    (h : i < offset ∨ offset + count ≤ i) : (r.fill offset b count).byteAt i = r.byteAt i := by
  induction count generalizing r offset with
  | zero => rfl
  | succ count ih => rw [fill, ih (by omega), byteAt_setByte_ne (by omega)]

theorem changed_fill (offset : Nat) (b : UInt8) (count : Nat) :
    Changed (Set.Ico offset (offset + count)) r (r.fill offset b count) := by
  refine ⟨base_fill .., len_fill .., fun i hi => byteAt_fill_outside b ?_⟩
  rw [Set.mem_Ico] at hi
  omega

def Blank (r : Region) (offset count : Nat) : Prop :=
  ∀ i, offset ≤ i → i < offset + count → r.byteAt i = 0

theorem byteAt_fill_inside {i offset : Nat} (b : UInt8) {count : Nat}
    (hspan : offset + count ≤ r.len) (hlo : offset ≤ i) (hhi : i < offset + count) :
    (r.fill offset b count).byteAt i = b := by
  induction count generalizing r offset with
  | zero => omega
  | succ count ih =>
    rw [fill]
    by_cases he : i = offset
    · subst he
      rw [byteAt_fill_outside b (.inl (Nat.lt_succ_self i)), byteAt_setByte_same (by omega)]
    · exact ih (by rw [len_setByte]; omega) (by omega) (by omega)

theorem blank_fill {offset count : Nat} (hspan : r.Spans offset count) :
    (r.fill offset 0 count).Blank offset count :=
  fun _ hlo hhi => byteAt_fill_inside 0 hspan hlo hhi

/-- Both ends of the chunk at `c` hold the tag `t`. -/
def HasTag (r : Region) (c : Nat) (t : Tag) : Prop :=
  r.natAt c 8 = t.encode.toNat ∧ r.natAt (c + t.size - 8) 8 = t.encode.toNat

theorem HasTag.tagAt_of_decode {c : Nat} {t : Tag} (h : r.HasTag c t) (hc : c % 16 = 0)
    (ht : t.Proper) (hend : c + t.size ≤ r.len) (hdec : Tag.decode t.encode = some t) :
    r.tagAt c = .ok t := by
  rw [tagAt_eq_ok_iff, h.1, h.2, UInt64.ofNat_toNat]
  exact ⟨hc, ht.1, ht.2, hend, hdec, t, hdec, by simp [Tag.sameExtent]⟩

theorem HasTag.tagAt {c : Nat} {t : Tag} (h : r.HasTag c t) (hc : c % 16 = 0) (ht : t.Proper)
    (hend : c + t.size ≤ r.len) (hlen : r.len ≤ maxRegion) : r.tagAt c = .ok t :=
  h.tagAt_of_decode hc ht hend (ht.decode_encode (by omega))

theorem HasTag.changed {S : Set Nat} {c : Nat} {t : Tag} (h : r.HasTag c t) (hr : Changed S r r')
    (hhead : ∀ i, c ≤ i → i < c + 8 → i ∉ S)
    (hfoot : ∀ i, c + t.size - 8 ≤ i → i < c + t.size - 8 + 8 → i ∉ S) : r'.HasTag c t :=
  ⟨(hr.natAt hhead).trans h.1, (hr.natAt hfoot).trans h.2⟩

def nextAt (r : Region) (c : Nat) : Option Nat :=
  linkOfWord (UInt32.ofNat (r.natAt (c + 8) 4))

def referrerAt (r : Region) (c : Nat) : UInt32 :=
  UInt32.ofNat (r.natAt (c + 12) 4)

theorem nextOf_eq {c : Nat} (hc : c % 16 = 0) (hend : c + 16 ≤ r.len) :
    r.nextOf c = .ok (r.nextAt c) := by
  have hadmits : r.Admits (nextField c) 4 := by
    refine ⟨?_, ?_⟩ <;> simp only [nextField, tagBytes, Spans] <;> omega
  simp only [nextOf, read32, if_pos hadmits]
  rfl

theorem referrerWord_eq {c : Nat} (hc : c % 16 = 0) (hend : c + 16 ≤ r.len) :
    r.referrerWord c = .ok (r.referrerAt c) := by
  have hadmits : r.Admits (referrerField c) 4 := by
    refine ⟨?_, ?_⟩ <;> simp only [referrerField, tagBytes, Spans] <;> omega
  simp only [referrerWord, read32, if_pos hadmits]
  rfl

theorem referrerOf_eq {c : Nat} (hc : c % 16 = 0) (hend : c + 16 ≤ r.len) :
    r.referrerOf c = .ok (Referrer.decode (r.referrerAt c)) := by
  rw [referrerOf, referrerWord_eq hc hend]
  rfl

/-- The bytes in which the chunks of `S` keep their links. -/
def linkBytesOf (S : Set Nat) : Set Nat :=
  {i | ∃ c ∈ S, c + 8 ≤ i ∧ i < c + 16}

theorem mem_linkBytesOf {S : Set Nat} {i : Nat} :
    i ∈ linkBytesOf S ↔ ∃ c ∈ S, c + 8 ≤ i ∧ i < c + 16 :=
  Iff.rfl

theorem linkBytesOf_mono {S T : Set Nat} (h : S ⊆ T) : linkBytesOf S ⊆ linkBytesOf T := by
  rintro i ⟨c, hc, hi⟩
  exact ⟨c, h hc, hi⟩

theorem linkBytesOf_left (R S T : Set Nat) : linkBytesOf S ⊆ R ∪ linkBytesOf (S ∪ T) :=
  (linkBytesOf_mono Set.subset_union_left).trans Set.subset_union_right

theorem linkBytesOf_right (R S T : Set Nat) : linkBytesOf T ⊆ R ∪ linkBytesOf (S ∪ T) :=
  (linkBytesOf_mono Set.subset_union_right).trans Set.subset_union_right

theorem linkBytesOf_union (S T : Set Nat) :
    linkBytesOf (S ∪ T) = linkBytesOf S ∪ linkBytesOf T := by
  ext i
  simp only [mem_linkBytesOf, Set.mem_union]
  constructor
  · rintro ⟨c, hc | hc, hi⟩
    · exact .inl ⟨c, hc, hi⟩
    · exact .inr ⟨c, hc, hi⟩
  · rintro (⟨c, hc, hi⟩ | ⟨c, hc, hi⟩)
    · exact ⟨c, .inl hc, hi⟩
    · exact ⟨c, .inr hc, hi⟩

end Region

end BoundaryHeap
