import BoundaryHeap.Proofs.Ownership
import BoundaryHeap.Proofs.Sections

namespace BoundaryHeap

/-- The words at both ends of the chunk at `c` read as tags that agree on its size and state; the
first of them is `t`. -/
def Region.Tagged (r : Region) (c : Nat) (t : Tag) : Prop :=
  Tag.decode (UInt64.ofNat (r.natAt c 8)) = some t ∧
  ∃ footer, Tag.decode (UInt64.ofNat (r.natAt (c + t.size - 8) 8)) = some footer ∧
    footer.size = t.size ∧ footer.free = t.free

/-- What a walk over a region yields: chunks in a row from its first byte on, and at most one
damage, which is where they end. -/
structure Region.Traversal (r : Region) (chunks : List Chunk) (damage : Option Fault) : Prop where
  first : ∀ x ∈ chunks.head?, x.1 = 0
  row : chunks.IsChain fun x y => y.1 = x.1 + x.2.size
  ascending : chunks.Pairwise fun x y => x.1 < y.1
  inside : ∀ c t, (c, t) ∈ chunks →
    c % 16 = 0 ∧ 32 ≤ t.size ∧ t.size % 16 = 0 ∧ c + t.size ≤ r.len
  tagged : ∀ c t, (c, t) ∈ chunks → r.Tagged c t
  total_le : (chunks.map fun x => x.2.size).sum ≤ r.len
  stopped : damage.isSome ↔ (chunks.map fun x => x.2.size).sum ≠ r.len
  reported : ∀ f ∈ damage, ∃ found,
    f = .corrupt (chunks.map fun x => x.2.size).sum found ∧
      r.tagAt (chunks.map fun x => x.2.size).sum = .error f

theorem Tiles.isChain {lo hi : Nat} {xs : List Chunk} (h : Tiles lo xs hi) :
    xs.IsChain fun x y => y.1 = x.1 + x.2.size := by
  induction xs generalizing lo with
  | nil => exact .nil
  | cons x rest ih =>
    obtain ⟨rfl, -, hrest⟩ := h
    cases rest with
    | nil => exact .singleton _
    | cons y rest => exact .cons_cons hrest.1 (ih hrest)

namespace Region

variable {r : Region} {c : Nat} {t : Tag}

theorem tagged_of_tagAt (htag : r.tagAt c = .ok t) : r.Tagged c t := by
  obtain ⟨-, -, -, -, hheader, footer, hfooter, hsame⟩ := tagAt_eq_ok_iff.1 htag
  simp only [Tag.sameExtent, Bool.and_eq_true, beq_iff_eq] at hsame
  exact ⟨hheader, footer, hfooter, hsame.1.symm, hsame.2.symm⟩

theorem walk_traversal (r : Region) : r.Traversal r.walk.1 r.walk.2 := by
  obtain ⟨hi, htiles, hle, htags, hstop, hreport⟩ := walk_tiles r
  have htotal : hi = (r.walk.1.map fun x => x.2.size).sum := by
    rw [← totalOf_eq_sum, htiles.total, Nat.zero_add]
  rw [htotal] at hle hstop hreport
  refine ⟨fun x hx => ?_, htiles.isChain, htiles.sorted, fun c t hc => ?_,
    fun c t hc => tagged_of_tagAt (htags c t hc), hle, hstop, hreport⟩
  · rcases hchunks : r.walk.1 with _ | ⟨y, rest⟩
    · simp [hchunks] at hx
    · rw [hchunks] at htiles hx
      obtain rfl := Option.some.inj hx
      exact htiles.1
  · obtain ⟨hgrid, hmin, hgrain, hend, -⟩ := tagAt_eq_ok_iff.1 (htags c t hc)
    exact ⟨hgrid, hmin, hgrain, hend⟩

end Region

namespace Heap

variable {h : Heap}

theorem ownedBy_does (h : Heap) (owner : Owner) :
    Does (ownedBy owner) h
      ((h.chunks.filter fun x => !x.2.free && x.2.owner = owner).map fun x => x.2.size).sum h := by
  have hsum : bytesOf owner h.chunks =
      ((h.chunks.filter fun x => !x.2.free && x.2.owner = owner).map fun x => x.2.size).sum := by
    rw [bytesOf_eq, totalOf_eq_sum, liveIn, List.filter_filter]
    simp only [Bool.and_comm]
  rw [← hsum]
  exact h.noteDamage_does.bind (.get (fun h => bytesOf owner h.chunks) h)

theorem stats_does (hle : h.counters.inUse ≤ h.len) :
    ∃ stats, Does Heap.stats h stats h ∧
      stats.freeChunks = (h.chunks.filter fun x => x.2.free).length ∧
      stats.largestFree =
        ((h.chunks.filter fun x => x.2.free).map fun x => x.2.size).max?.getD 0 :=
  ⟨_, h.noteDamage_does.bind (.observe (snapshot_eq hle)), rfl, rfl⟩

theorem stats_fails (hlt : h.len < h.counters.inUse) :
    Fails Heap.stats h (.abort .underflow) h := by
  refine h.noteDamage_does.bind_fails (.observe ?_)
  rw [snapshot, freeBytes, if_neg (Nat.not_le.2 hlt)]
  rfl

end Heap

namespace World

/-- The bytes of any heap are overwritten in any way: its walk yields chunks in a row up to the
first damage, and its readings count what lies in front of it. Of the counters, only what is in use
matters: a heap that has been run never counts more than its region. -/
theorem walk_of_any_bytes (heap : Heap) (bytes : ByteArray) :
    let h := heap.overwritten bytes
    h.region.Traversal h.region.walk.1 h.region.walk.2 ∧
    (∀ owner, Heap.Does (Heap.ownedBy owner) h
      ((h.region.walk.1.filter fun x => !x.2.free && x.2.owner = owner).map
        fun x => x.2.size).sum h) ∧
    (h.counters.inUse ≤ h.len → ∃ stats, Heap.Does Heap.stats h stats h ∧
      stats.freeChunks = (h.region.walk.1.filter fun x => x.2.free).length ∧
      stats.largestFree =
        ((h.region.walk.1.filter fun x => x.2.free).map fun x => x.2.size).max?.getD 0) ∧
    (h.len < h.counters.inUse → Heap.Fails Heap.stats h (.abort .underflow) h) ∧
    ∀ w : World, w.Reachable → w.heap = heap → bytes.size = heap.len →
      h.counters.inUse ≤ h.len := by
  intro h
  refine ⟨h.region.walk_traversal, h.ownedBy_does, Heap.stats_does, Heap.stats_fails, ?_⟩
  rintro w hw rfl hsize
  obtain ⟨A, hA⟩ := hw.tracks
  rw [show h.len = w.heap.len from hsize]
  exact hA.intact.inUse_le

/-- The header of the second chunk is no tag: the walk ends behind the first one. -/
example : let h := (sample.after [.allocate 8 .kernel]).heap
    (h.overwritten (h.region.putNat 32 8 0xDEADBEEF).bytes).region.walk =
      ([(0, .live 32 .kernel)], some (.corrupt 32 .badHeader)) := by
  decide +kernel

end World

end BoundaryHeap
