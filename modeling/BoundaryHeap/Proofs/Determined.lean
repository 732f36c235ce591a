import BoundaryHeap.Proofs.Represents
import Mathlib.Algebra.Group.Nat.Defs

namespace BoundaryHeap

open Region (Changed linkBytesOf)

theorem eq_of_mem_iff {f : α → Nat} {xs ys : List α} (hxs : xs.Pairwise fun x y => f x < f y)
    (hys : ys.Pairwise fun x y => f x < f y) (hmem : ∀ x, x ∈ xs ↔ x ∈ ys) : xs = ys := by
  have hnodup : ∀ zs : List α, (zs.Pairwise fun x y => f x < f y) → zs.Nodup := by
    intro zs hzs
    apply hzs.imp
    rintro x y hlt rfl
    exact Nat.lt_irrefl _ hlt
  have hperm := (List.perm_ext_iff_of_nodup (hnodup xs hxs) (hnodup ys hys)).2 hmem
  apply hperm.eq_of_pairwise _ hxs hys
  intro x y _ _ hlt hgt
  exact absurd hlt (Nat.lt_asymm hgt)

theorem pairwise_of_length_le_one {R : α → α → Prop} {xs : List α} (h : xs.length ≤ 1) :
    xs.Pairwise R := by
  match xs with
  | [] => exact .nil
  | [x] => exact List.pairwise_singleton R x

theorem linkOfWord_injective {v w : UInt32} (h : linkOfWord v = linkOfWord w) : v = w := by
  unfold linkOfWord at h
  split at h
  next hv =>
    split at h
    next hw => rw [hv, hw]
    next => cases h
  next =>
    split at h
    next => cases h
    next => exact UInt32.toNat_inj.1 (Option.some.inj h)

theorem Heads.eq_of_get {a b : Heads} (h : ∀ l, a.get l = b.get l) : a = b := by
  obtain ⟨as⟩ := a
  obtain ⟨bs⟩ := b
  congr 1
  apply Vector.ext
  intro i hi
  have hbin : i / 2 < binCount := by
    simp only [binCount] at hi ⊢
    omega
  obtain ⟨l, hl⟩ : ∃ l, ListId.ofIndex? i = some l := by
    rw [ListId.ofIndex?, dif_pos hbin]
    exact ⟨_, rfl⟩
  have hget := h l
  simp only [get, ListId.index_of_ofIndex? hl] at hget
  exact hget

namespace Region

variable {r r' : Region}

theorem byteAt_eq_of_natAt {offset width i : Nat}
    (h : r.natAt offset width = r'.natAt offset width) (hlo : offset ≤ i)
    (hhi : i < offset + width) : r.byteAt i = r'.byteAt i := by
  induction width generalizing offset with
  | zero => omega
  | succ width ih =>
    have hfirst := (r.byteAt offset).toNat_lt
    have hfirst' := (r'.byteAt offset).toNat_lt
    rw [natAt, natAt] at h
    rcases Nat.eq_or_lt_of_le hlo with rfl | hlt
    · apply UInt8.toNat_inj.1
      omega
    · have hrest : r.natAt (offset + 1) width = r'.natAt (offset + 1) width := by omega
      exact ih hrest hlt (by omega)

theorem natAt_lt (r : Region) (offset width : Nat) : r.natAt offset width < 256 ^ width := by
  induction width generalizing offset with
  | zero => exact Nat.one_pos
  | succ width ih =>
    have hfirst := (r.byteAt offset).toNat_lt
    have hrest := ih (offset + 1)
    rw [natAt, Nat.pow_succ]
    omega

theorem natAt_eq_of_ofNat {offset : Nat}
    (h : UInt32.ofNat (r.natAt offset 4) = UInt32.ofNat (r'.natAt offset 4)) :
    r.natAt offset 4 = r'.natAt offset 4 := by
  have hlt := r.natAt_lt offset 4
  have hlt' := r'.natAt_lt offset 4
  have hnat := congrArg UInt32.toNat h
  rw [UInt32.toNat_ofNat', UInt32.toNat_ofNat'] at hnat
  omega

theorem eq_of_byteAt (hbase : r.base = r'.base) (hlen : r.len = r'.len)
    (h : ∀ i, r.byteAt i = r'.byteAt i) : r = r' := by
  obtain ⟨base, bytes⟩ := r
  obtain ⟨base', bytes'⟩ := r'
  obtain rfl : base = base' := hbase
  congr 1
  apply ByteArray.ext_getElem
  · exact hlen
  · intro i hi hi'
    have hbyte := h i
    rw [byteAt, byteAt, dif_pos hi, dif_pos hi'] at hbyte
    exact hbyte

end Region

namespace Store

variable {s₁ s₂ : Store} {A : Shape} {L : Lists} {l : ListId} {r : Region} {c i : Nat}

theorem Linked.same_links (h₁ : s₁.Linked L) (h₂ : s₂.Linked L) (hl : c ∈ L l) :
    s₁.region.natAt (c + 8) 4 = s₂.region.natAt (c + 8) 4 ∧
      s₁.region.natAt (c + 12) 4 = s₂.region.natAt (c + 12) 4 := by
  obtain ⟨xs, ys, hsplit⟩ := List.append_of_mem hl
  have hthreads₁ := h₁.threads l
  have hthreads₂ := h₂.threads l
  rw [hsplit] at hthreads₁ hthreads₂
  obtain ⟨-, hword₁, hrest₁⟩ := hthreads₁.drop
  obtain ⟨-, hword₂, hrest₂⟩ := hthreads₂.drop
  constructor
  · have hnext : s₁.region.nextAt c = s₂.region.nextAt c := hrest₁.head.trans hrest₂.head.symm
    exact Region.natAt_eq_of_ofNat (linkOfWord_injective hnext)
  · exact Region.natAt_eq_of_ofNat (hword₁.trans hword₂.symm)

theorem Linked.same_link_byte (h₁ : s₁.Linked L) (h₂ : s₂.Linked L) (hl : c ∈ L l)
    (hlo : c + 8 ≤ i) (hhi : i < c + 16) : s₁.region.byteAt i = s₂.region.byteAt i := by
  obtain ⟨hnext, hreferrer⟩ := h₁.same_links h₂ hl
  rcases Nat.lt_or_ge i (c + 12) with hlt | hge
  · exact Region.byteAt_eq_of_natAt hnext hlo (by omega)
  · exact Region.byteAt_eq_of_natAt hreferrer hge (by omega)

theorem Linked.same_heads (h₁ : s₁.Linked L) (h₂ : s₂.Linked L) : s₁.heads = s₂.heads :=
  Heads.eq_of_get fun l => ((h₁.threads l).head).trans (h₂.threads l).head.symm

theorem Represents.same_byte (h₁ : s₁.Represents A) (h₂ : s₂.Represents A) (hA : A.Settled)
    (hi : i ∈ fields A.chunks) : s₁.region.byteAt i = s₂.region.byteAt i := by
  obtain ⟨c, t, hc, (hhead | hfoot) | ⟨hfree, d, rfl, hlo, hhi⟩⟩ := hi
  · have htag := (h₁.tags c t hc).1.trans (h₂.tags c t hc).1.symm
    exact Region.byteAt_eq_of_natAt htag hhead.1 hhead.2
  · have htag := (h₁.tags c t hc).2.trans (h₂.tags c t hc).2.symm
    exact Region.byteAt_eq_of_natAt htag hfoot.1 hfoot.2
  · have hlisted := hA.listed ⟨t, hc, hfree⟩ (Set.notMem_empty _)
    obtain ⟨l, hl⟩ := hlisted
    exact h₁.linked.same_link_byte h₂.linked hl hlo hhi

theorem Represents.same_heads {B : Shape} (h₁ : s₁.Represents A) (h₂ : s₂.Represents B)
    (hlists : A.lists = B.lists) : s₁.heads = s₂.heads :=
  h₁.linked.same_heads (hlists ▸ h₂.linked)

/-- A shape with every free chunk on a list leaves nothing open but the bytes that are no fields. -/
theorem Represents.determined (h₁ : s₁.Represents A) (h₂ : s₂.Represents A) (hA : A.Settled)
    (hr₁ : Changed (fields A.chunks) r s₁.region) (hr₂ : Changed (fields A.chunks) r s₂.region) :
    s₁ = s₂ := by
  obtain ⟨r₁, heads₁⟩ := s₁
  obtain ⟨r₂, heads₂⟩ := s₂
  have hheads : heads₁ = heads₂ := h₁.same_heads h₂ rfl
  have hregion : r₁ = r₂ := by
    apply Region.eq_of_byteAt (hr₁.base.trans hr₂.base.symm) (hr₁.len.trans hr₂.len.symm)
    intro i
    by_cases hi : i ∈ fields A.chunks
    · exact h₁.same_byte h₂ hA hi
    · exact (hr₁.same i hi).trans (hr₂.same i hi).symm
  rw [hheads, hregion]

end Store

/-- Where nothing is recent, a shape is known by its chunks and by what is on each list. -/
theorem Shape.Valid.eq_of_mem {A B : Shape} (hA : A.Valid) (hB : B.Valid) (hlen : A.len = B.len)
    (hchunks : ∀ x, x ∈ A.chunks ↔ x ∈ B.chunks) (hlists : ∀ l c, c ∈ A.lists l ↔ c ∈ B.lists l)
    (hrecent : A.lists .recent = []) : A = B := by
  have hsame : A.lists = B.lists := by
    funext l
    by_cases hbin : l.bin = 0
    · obtain ⟨bin, kind⟩ := l
      obtain rfl : bin = 0 := hbin
      cases kind with
      | clean =>
        exact eq_of_mem_iff (f := id) (pairwise_of_length_le_one hA.single)
          (pairwise_of_length_le_one hB.single) (hlists _)
      | dirty =>
        have hnone : B.lists .recent = [] := by
          apply List.eq_nil_iff_forall_not_mem.2
          intro c hc
          have hc' := (hlists _ c).2 hc
          rw [hrecent] at hc'
          cases hc'
        exact hrecent.trans hnone.symm
    · exact eq_of_mem_iff (f := id) (hA.sorted l hbin) (hB.sorted l hbin) (hlists l)
  have hsame' := eq_of_mem_iff hA.tiles.sorted hB.tiles.sorted hchunks
  obtain ⟨len, chunks, lists⟩ := A
  obtain ⟨len', chunks', lists'⟩ := B
  obtain rfl : len = len' := hlen
  obtain rfl : chunks = chunks' := hsame'
  obtain rfl : lists = lists' := hsame
  rfl

end BoundaryHeap
