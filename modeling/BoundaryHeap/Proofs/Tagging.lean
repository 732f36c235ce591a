import BoundaryHeap.Proofs.Cutting

namespace BoundaryHeap

open Region (Changed)

namespace Tag

/-- The word has the form of a tag: the magic number on top, and no bit between size and flag. -/
def Formed (word : UInt64) : Prop :=
  word >>> 48 = 0x6B68 ∧ word &&& 0xE = 0

theorem magic_iff (word : UInt64) :
    word >>> 48 = 0x6B68 ↔ word.toNat / 0x1000000000000 = 0x6B68 := by
  rw [← UInt64.toNat_inj, UInt64.toNat_shiftRight, Nat.shiftRight_eq_div_pow]
  rfl

theorem reserved_iff (word : UInt64) : word &&& 0xE = 0 ↔ word.toNat % 16 < 2 := by
  have hlow : word.toNat &&& 0xE = word.toNat % 16 &&& 0xE :=
    calc word.toNat &&& 0xE = word.toNat &&& (0xF &&& 0xE) := rfl
      _ = (word.toNat &&& 0xF) &&& 0xE := (Nat.and_assoc ..).symm
      _ = word.toNat % 16 &&& 0xE := by rw [Nat.and_two_pow_sub_one_eq_mod word.toNat 4]
  have hbits : ∀ m < 16, m &&& 0xE = 0 ↔ m < 2 := by decide
  rw [← UInt64.toNat_inj, UInt64.toNat_and]
  show word.toNat &&& 0xE = 0 ↔ _
  rw [hlow]
  exact hbits _ (Nat.mod_lt _ (by decide))

theorem isSome_decode_iff (word : UInt64) : (decode word).isSome ↔ Formed word := by
  rw [Formed, magic_iff, reserved_iff, Option.isSome_iff_exists]
  simp only [decode_eq_some_iff]
  constructor
  · rintro ⟨t, hmagic, hflags, -⟩
    exact ⟨hmagic, hflags⟩
  · rintro ⟨hmagic, hflags⟩
    exact ⟨_, hmagic, hflags, rfl⟩

end Tag

namespace Store

variable {s s' : Store} {c : Nat} {t : Tag}

structure Stamps (s : Store) (c : Nat) (t : Tag) (s' : Store) : Prop where
  heads : s'.heads = s.heads
  changed : Changed (tagBytesOf c t.size) s.region s'.region
  reads : s'.region.tagAt c = .ok t
  others : ∀ d u, s.region.tagAt d = .ok u → d + u.size ≤ c ∨ c + t.size ≤ d →
    s'.region.tagAt d = .ok u

theorem stamp_stamps (hc : c % granule = 0) (ht : t.Proper) (hsize : t.size < Tag.ownerUnit)
    (hend : c + t.size ≤ s.region.len) : ∃ s', stamp c t s = .ok () s' ∧ s.Stamps c t s' := by
  have hr := changed_stamped (s := s) (c := c) (t := t)
  refine ⟨s.stamped c t, stamp_eq hc ht hend, by rw [stamped], hr, ?_, fun d u hu hapart => ?_⟩
  · apply (hasTag_stamped ht hend).tagAt_of_decode hc ht
    · rw [hr.len]
      exact hend
    · exact Tag.decode_encode_of_size ht.2 hsize
  · obtain ⟨-, hmin, -⟩ := Region.tagAt_eq_ok_iff.1 hu
    apply hr.tagAt hu
    intro i hd hin
    have hout := tagBytesOf_subset hmin hd
    have hin' := tagBytesOf_subset ht.1 hin
    rw [Set.mem_Ico] at hout hin'
    omega

/-- A tag with a size on the grid that is a 32-bit number is read as it was written. A word reads as
a tag exactly if it has the form of one, and then it is what this tag is written as. In the region, a
stamped chunk reads as its tag, and every chunk beside it as before. -/
theorem tags_read_back :
    (∀ t : Tag, t.size % granule = 0 → t.size < Tag.ownerUnit → Tag.decode t.encode = some t) ∧
      (∀ word, (Tag.decode word).isSome ↔ Tag.Formed word) ∧
      (∀ word t, Tag.decode word = some t → t.encode = word) ∧
      ∀ (s : Store) (c : Nat) (t : Tag), c % granule = 0 → t.Proper → t.size < Tag.ownerUnit →
        c + t.size ≤ s.region.len → ∃ s', stamp c t s = .ok () s' ∧ s.Stamps c t s' :=
  ⟨fun _ => Tag.decode_encode_of_size, Tag.isSome_decode_iff, fun _ _ => Tag.encode_decode,
    fun _ _ _ => stamp_stamps⟩

/-- A tag of a task, and the second half of a region that is stamped with it. -/
theorem half_stamped :
    let t := Tag.live 32 ⟨7⟩
    let s : Store := ⟨⟨0x1000, ⟨Array.replicate 64 0⟩⟩, .empty⟩
    Tag.decode t.encode = some t ∧ ∃ s', stamp 32 t s = .ok () s' ∧ s.Stamps 32 t s' :=
  ⟨tags_read_back.1 _ rfl (by decide),
    tags_read_back.2.2.2 _ 32 _ rfl ⟨by decide, rfl⟩ (by decide) (by decide)⟩

end Store

end BoundaryHeap
