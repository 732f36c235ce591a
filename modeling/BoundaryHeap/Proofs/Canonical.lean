import BoundaryHeap.Proofs.Determined
import BoundaryHeap.Proofs.Runs

namespace BoundaryHeap

theorem Tiles.sorted_liveExtents {lo hi : Nat} {xs : List Chunk} (h : Tiles lo xs hi) :
    (liveExtents xs).Pairwise fun x y => x.1 < y.1 := by
  rw [liveExtents, List.pairwise_map]
  exact h.sorted.filter _

namespace Heap

/-- `h'` is `h` with every gap between the live chunks filled by one free chunk. -/
structure Coalesces (h h' : Heap) : Prop where
  undamaged : h'.region.walk.2 = none
  emptied : ∀ l, l.kind = .dirty → h'.store.heads.get l = none
  live : liveIn h'.chunks = liveIn h.chunks
  bytes : ∀ c t i, (c, t) ∈ liveIn h.chunks → c ≤ i → i < c + t.size →
    h'.region.byteAt i = h.region.byteAt i
  marks : h'.live = h.live
  counters : h'.counters = h.counters
  layout : layoutOf h'.chunks = fillGaps 0 (liveExtents h.chunks) h.len
  apart : Coalesced h'.chunks

variable {h : Heap} {A : Shape}

theorem Intact.coalesces (hi : h.Intact A) :
    (h.run Heap.merge).result = .ok () ∧ h.Coalesces (h.run Heap.merge).after := by
  obtain ⟨s', hrun, hi', hr⟩ := hi.merge
  obtain ⟨hsettled, hlen, hempty⟩ := hi.settled.mergeAll
  have hlive := (Store.Takes.mergeAll hi.settled hi.fuel).live
  have hco := hsettled.coalesced hempty
  have hlayout := hsettled.valid.tiles.layout_eq hco
  refine ⟨hrun.run.1, ?_⟩
  rw [hrun.run.2]
  refine ⟨hi'.undamaged, hi'.store.merged hempty, ?_, fun c t i hc hlo hhi => ?_, rfl, rfl, ?_, ?_⟩
  · rw [hi'.chunks, hi.chunks, hlive]
  · rw [hi.chunks] at hc
    exact hr.same i (World.not_vacant hc hlo hhi)
  · rw [hi'.chunks, hi.chunks, hlayout, liveExtents_congr hlive, hlen, hi.len]
  · rw [hi'.chunks]
    exact hco

end Heap

namespace World

variable {w : World}

theorem Tracks.sorted_liveExtents {A : Shape} (hw : w.Tracks A) :
    (liveExtents w.heap.chunks).Pairwise fun x y => x.1 < y.1 := by
  rw [hw.intact.chunks]
  exact hw.intact.settled.valid.tiles.sorted_liveExtents

/-- Merging always succeeds and is canonical: what it leaves is known from the length of the region
and the places of the live chunks. -/
theorem merge_canonical (hw : w.Reachable) :
    (w.heap.run Heap.merge).result = .ok () ∧
    w.heap.Coalesces (w.heap.run Heap.merge).after ∧
    (∀ w' : World, w'.Reachable → w'.heap.len = w.heap.len →
      (∀ x, x ∈ liveExtents w'.heap.chunks ↔ x ∈ liveExtents w.heap.chunks) →
      layoutOf (w'.heap.run Heap.merge).after.chunks =
        layoutOf (w.heap.run Heap.merge).after.chunks) ∧
    (liveIn w.heap.chunks = [] →
      layoutOf (w.heap.run Heap.merge).after.chunks = [(0, w.heap.len, true)]) := by
  obtain ⟨A, hA⟩ := hw.tracks
  obtain ⟨hresult, hmerged⟩ := hA.intact.coalesces
  refine ⟨hresult, hmerged, fun w' hw' hlen hsame => ?_, fun hnone => ?_⟩
  · obtain ⟨B, hB⟩ := hw'.tracks
    have hmerged' := hB.intact.coalesces.2
    have hextents := eq_of_mem_iff hB.sorted_liveExtents hA.sorted_liveExtents hsame
    rw [hmerged'.layout, hmerged.layout, hextents, hlen]
  · have hroomy := hA.intact.settled.valid.roomy
    rw [← hA.intact.len] at hroomy
    have hpos : 0 < w.heap.len := Nat.lt_of_lt_of_le (by decide) hroomy
    have hextents : liveExtents w.heap.chunks = [] := by
      rw [liveExtents, hnone]
      rfl
    rw [hmerged.layout, hextents]
    exact if_pos hpos

/-- Three pieces that were handed out and given back are one chunk again. -/
theorem pieces_merged :
    let w := sample.after [.allocate 8 .kernel, .allocate 8 .kernel, .release (some 0x1008),
      .release (some 0x1028)]
    layoutOf w.heap.chunks = [(0, 32, true), (32, 32, true), (64, 32, true)] ∧
      w.heap.Coalesces (w.heap.run Heap.merge).after ∧
      layoutOf (w.heap.run Heap.merge).after.chunks = [(0, w.heap.len, true)] := by
  intro w
  obtain ⟨-, hmerged, -, hwhole⟩ := merge_canonical (w := w) (reachable_sample.after _)
  exact ⟨by decide +kernel, hmerged, hwhole (by decide +kernel)⟩

end World

end BoundaryHeap
