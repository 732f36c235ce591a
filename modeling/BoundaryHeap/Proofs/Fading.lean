import BoundaryHeap.Proofs.Cutting
import BoundaryHeap.Proofs.Endings

namespace BoundaryHeap

namespace Region

variable {r r' r'' : Region} {x c offset : Nat}

theorem natAt_mod (r : Region) (offset : Nat) {width more : Nat} (h : width ≤ more) :
    r.natAt offset more % Nat.pow 256 width = r.natAt offset width := by
  induction width generalizing offset more with
  | zero => exact Nat.mod_one _
  | succ width ih =>
    obtain ⟨more, rfl⟩ := Nat.exists_eq_add_one_of_ne_zero (Nat.ne_zero_of_lt h)
    have hrest := ih (offset + 1) (Nat.le_of_succ_le_succ h)
    have hbyte := (r.byteAt offset).toNat_lt
    have hpow : Nat.pow 256 (width + 1) = 256 * Nat.pow 256 width := Nat.mul_comm ..
    have hlow : ((r.byteAt offset).toNat + 256 * r.natAt (offset + 1) more) % 256 =
        (r.byteAt offset).toNat := by omega
    have hhigh : ((r.byteAt offset).toNat + 256 * r.natAt (offset + 1) more) / 256 =
        r.natAt (offset + 1) more := by omega
    rw [natAt, natAt, hpow, Nat.mod_mul, hlow, hhigh, hrest]

/-- At no place on the grid has a link to a chunk come up that was not there. -/
def Fades (r r' : Region) : Prop :=
  ∀ x, x % 16 = 0 → r'.nextAt x = r.nextAt x ∨ ∀ c, r'.nextAt x = some c → c % 16 ≠ 0

theorem Fades.refl (r : Region) : r.Fades r := fun _ _ => .inl rfl

theorem Fades.trans (h : r.Fades r') (h' : r'.Fades r'') : r.Fades r'' := by
  intro x hx
  rcases h' x hx with he | hne
  · rw [he]
    exact h x hx
  · exact .inr hne

theorem nextAt_putNat_ne {width value : Nat} (h : offset + width ≤ x + 8 ∨ x + 12 ≤ offset) :
    (r.putNat offset width value).nextAt x = r.nextAt x := by
  rw [nextAt, nextAt, natAt_putNat_disjoint (by omega)]

/-- The tag of a free chunk reads as an odd number where a link is read. -/
theorem fades_putTag {t : Tag} (hfree : t.free = true) (h : r.Admits offset 8) :
    r.Fades (r.putNat offset 8 t.encode.toNat) := by
  intro x hx
  have hgrid := h.1
  by_cases hat : x + 8 = offset
  · right
    intro c hc
    have hword : (r.putNat offset 8 t.encode.toNat).natAt (x + 8) 4 =
        t.encode.toNat % 0x100000000 := by
      have hlow := natAt_mod (r.putNat offset 8 t.encode.toNat) offset (show 4 ≤ 8 by decide)
      rw [Store.natAt_write64 h.2] at hlow
      rw [hat, ← hlow]
    rw [nextAt, hword, linkOfWord] at hc
    obtain ⟨-, hsome⟩ := Option.ite_none_left_eq_some.1 hc
    obtain rfl := Option.some.inj hsome
    rw [UInt32.toNat_ofNat', Tag.toNat_encode, hfree, Bool.toNat_true]
    omega
  · exact .inl (nextAt_putNat_ne (by omega))

theorem fades_putNil (h : r.Admits offset 4) : r.Fades (r.putNat offset 4 nilWord.toNat) := by
  intro x hx
  have hgrid := h.1
  by_cases hat : x + 8 = offset
  · right
    intro c hc
    have hword : (r.putNat offset 4 nilWord.toNat).natAt (x + 8) 4 = nilWord.toNat := by
      rw [hat, natAt_putNat_same _ h.2]
      rfl
    rw [nextAt, hword] at hc
    cases hc
  · exact .inl (nextAt_putNat_ne (by omega))

end Region

namespace Store

/-- Whatever the program stores, no link to a chunk comes up. -/
def Fading (m : StoreM α) : Prop :=
  ∀ s : Store, Meets m s (fun _ t => s.region.Fades t.region) (fun _ _ => True)

namespace Fading

theorem pure (a : α) : Fading (pure a) := fun s => meets_pure (.refl s.region)

theorem bind {m : StoreM α} {k : α → StoreM β} (hm : Fading m) (hk : ∀ a, Fading (k a)) :
    Fading (m >>= k) := by
  intro s
  apply (hm s).bind
  intro a t ht
  apply (hk a t).mono
  · exact fun _ _ h => ht.trans h
  · exact fun _ _ _ => trivial

theorem reading (f : Region → Except Fault α) : Fading (reading f) :=
  fun s => meets_reading (fun _ _ => .refl s.region) fun _ _ => trivial

theorem check (p : Prop) [Decidable p] (f : Fault) : Fading (check p f) :=
  fun s => meets_check (fun _ => .refl s.region) fun _ => trivial

theorem write64 {t : Tag} (hfree : t.free = true) (offset : Nat) :
    Fading (write64 offset t.encode) := by
  intro s
  unfold Store.write64
  by_cases h : s.region.Admits offset 8
  · simp only [Meets, if_pos h]
    exact Region.fades_putTag hfree h
  · simp only [Meets, if_neg h]

theorem writeNil (offset : Nat) : Fading (write32 offset nilWord) := by
  intro s
  unfold write32
  by_cases h : s.region.Admits offset 4
  · simp only [Meets, if_pos h]
    exact Region.fades_putNil h
  · simp only [Meets, if_neg h]

theorem layOut (offset size : Nat) : Fading (layOut offset size) := by
  have hstamp : Fading (stamp offset (.unowned size)) :=
    (write64 rfl _).bind fun _ => write64 rfl _
  have hclear : Fading (clearLinks offset) := (writeNil _).bind fun _ => writeNil _
  unfold Store.layOut
  apply (check _ _).bind
  intro _
  apply (check _ _).bind
  intro _
  apply (reading _).bind
  intro _
  apply (check _ _).bind
  intro _
  exact hstamp.bind fun _ => hclear

theorem cut (c size : Nat) : Fading (cut c size) := by
  have hsize : Fading (sizeOf c) := (reading _).bind fun _ => pure _
  unfold Store.cut
  apply hsize.bind
  intro total
  apply (check _ _).bind
  intro _
  apply (check _ _).bind
  intro _
  apply (layOut c size).bind
  intro _
  apply (layOut (c + size) (total - size)).bind
  intro _
  apply (reading _).bind
  intro _
  apply (check _ _).bind
  intro _
  apply (reading _).bind
  intro _
  exact (check _ _).bind fun _ => pure _

theorem of_ok {m : StoreM α} {s t : Store} {a : α} (hm : Fading m) (hrun : m s = .ok a t) :
    s.region.Fades t.region := by
  have h := hm s
  rw [Meets, hrun] at h
  exact h

end Fading

end Store

end BoundaryHeap
