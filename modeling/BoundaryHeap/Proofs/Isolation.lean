import BoundaryHeap.Proofs.Runs

namespace BoundaryHeap

/-- The holder of `g` may use `size` bytes, and the tag in front of them names the owner. -/
def Heap.Grants (h : Heap) (g : Grant) (size : Nat) : Prop :=
  h.usableSize g.addr = .ok size ∧
    ∃ t, h.region.tagAt (g.addr - h.base - tagBytes) = .ok t ∧ t.owner = g.owner

namespace World

/-- No release of `g` succeeds in the run. -/
def Keeps (g : Grant) : World → List Action → Prop
  | _, [] => True
  | w, a :: rest =>
    (a = .release (some g.addr) →
      ∃ f, (w.heap.run (Heap.release (some g.addr))).result = .error f) ∧
      Keeps g (w.step a) rest

/-- The `size` bytes from `addr` on lie on the grid, inside the region and beside every tag. -/
structure Placed (h : Heap) (addr size : Nat) : Prop where
  grid : ∃ k, addr = h.base + 16 * k + 8
  inside : h.base ≤ addr ∧ addr + size ≤ h.base + h.len
  header : ∀ c t, (c, t) ∈ h.chunks → addr + size ≤ h.base + c ∨ h.base + c + 8 ≤ addr
  footer : ∀ c t, (c, t) ∈ h.chunks →
    addr + size ≤ h.base + c + t.size - 8 ∨ h.base + c + t.size ≤ addr

structure Isolated (w : World) : Prop where
  granted : ∀ request owner addr,
    (w.heap.run (Heap.allocate request owner)).result = .ok addr →
      (∃ k, addr = w.heap.base + 16 * k + 8) ∧
      ⟨addr, owner⟩ ∈ (w.step (.allocate request owner)).held
  placed : ∀ g ∈ w.held, ∃ size, w.heap.Grants g size ∧ Placed w.heap g.addr size
  apart : w.held.Pairwise fun g g' => ∀ size size', w.heap.usableSize g.addr = .ok size →
    w.heap.usableSize g'.addr = .ok size' → g.addr + size ≤ g'.addr ∨ g'.addr + size' ≤ g.addr
  stable : ∀ g ∈ w.held, ∀ size, w.heap.Grants g size → ∀ actions, Keeps g w actions →
    g ∈ (w.after actions).held ∧ (w.after actions).heap.Grants g size ∧
      ∀ addr, g.addr ≤ addr → addr < g.addr + size →
        (w.after actions).heap.peek addr =
          actions.foldl (Action.overwrite addr) (w.heap.peek addr)

variable {w : World} {A : Shape} {c : Nat} {t : Tag} {actions : List Action}

theorem Tracks.mem_held (hw : w.Tracks A) (hc : (c, t) ∈ liveIn A.chunks) :
    ⟨w.heap.base + (c + tagBytes), t.owner⟩ ∈ w.held :=
  (hw.held _).2 ⟨c, t, hc, rfl⟩

theorem Tracks.grants (hw : w.Tracks A) (hc : (c, t) ∈ liveIn A.chunks) :
    w.heap.Grants ⟨w.heap.base + (c + tagBytes), t.owner⟩ (t.size - overhead) := by
  refine ⟨hw.intact.usableSize hc, t, ?_, rfl⟩
  have hoffset : w.heap.base + (c + tagBytes) - w.heap.base - tagBytes = c := by omega
  simp only [hoffset]
  exact hw.intact.store.tagAt (mem_liveIn.1 hc).1

theorem Tracks.grid (hw : w.Tracks A) (hc : (c, t) ∈ A.chunks) :
    ∃ k, w.heap.base + (c + tagBytes) = w.heap.base + 16 * k + 8 := by
  have hgrid := hw.intact.settled.valid.tiles.mod_of_mem rfl hc
  refine ⟨c / 16, ?_⟩
  simp only [tagBytes]
  omega

theorem Tracks.placed (hw : w.Tracks A) (hc : (c, t) ∈ liveIn A.chunks) :
    Placed w.heap (w.heap.base + (c + tagBytes)) (t.size - overhead) := by
  have htiles := hw.intact.settled.valid.tiles
  have hmem := (mem_liveIn.1 hc).1
  have hpos := htiles.size_pos hmem
  have hend := htiles.end_le hmem
  refine ⟨hw.grid hmem, ?_, ?_, ?_⟩
  · rw [hw.intact.len]
    simp only [tagBytes, overhead]
    omega
  · rw [hw.intact.chunks]
    intro d u hd
    have hpos' := htiles.size_pos hd
    simp only [tagBytes, overhead]
    rcases htiles.apart hmem hd with ⟨rfl, -⟩ | he | he
    · omega
    · omega
    · omega
  · rw [hw.intact.chunks]
    intro d u hd
    have hpos' := htiles.size_pos hd
    simp only [tagBytes, overhead]
    rcases htiles.apart hmem hd with ⟨rfl, rfl⟩ | he | he
    · omega
    · omega
    · omega

theorem Tracks.apart (hw : w.Tracks A) : w.held.Pairwise fun g g' => ∀ size size',
    w.heap.usableSize g.addr = .ok size → w.heap.usableSize g'.addr = .ok size' →
    g.addr + size ≤ g'.addr ∨ g'.addr + size' ≤ g.addr := by
  have hdistinct := List.pairwise_map.1 hw.distinct
  apply hdistinct.imp_of_mem
  intro g g' hg hg' hne size size' hsize hsize'
  obtain ⟨c, t, hc, rfl⟩ := (hw.held g).1 hg
  obtain ⟨d, u, hd, rfl⟩ := (hw.held g').1 hg'
  obtain rfl := Except.ok.inj ((hw.intact.usableSize hc).symm.trans hsize)
  obtain rfl := Except.ok.inj ((hw.intact.usableSize hd).symm.trans hsize')
  have htiles := hw.intact.settled.valid.tiles
  simp only [tagBytes, overhead]
  rcases htiles.apart (mem_liveIn.1 hc).1 (mem_liveIn.1 hd).1 with ⟨rfl, -⟩ | he | he
  · exact absurd rfl hne
  · omega
  · omega

theorem Tracks.not_release (hw : w.Tracks A) (hc : (c, t) ∈ liveIn A.chunks) {a : Action}
    (hkeep : a = .release (some (w.heap.base + (c + tagBytes))) → ∃ f,
      (w.heap.run (Heap.release (some (w.heap.base + (c + tagBytes))))).result = .error f) :
    a ≠ .release (some (w.heap.base + (c + tagBytes))) := by
  intro ha
  obtain ⟨f, hf⟩ := hkeep ha
  obtain ⟨s', hrun, -⟩ := hw.intact.release hc
  rw [hrun.run.1] at hf
  cases hf

/-- A live chunk that no call takes back stays where it is, with the bytes its callers wrote. -/
theorem Tracks.keeps (hw : w.Tracks A) (hc : (c, t) ∈ liveIn A.chunks)
    (hkeep : Keeps ⟨w.heap.base + (c + tagBytes), t.owner⟩ w actions) :
    ∃ B, (w.after actions).Tracks B ∧ (c, t) ∈ liveIn B.chunks ∧
      (w.after actions).heap.base = w.heap.base ∧
      ∀ i, c + tagBytes ≤ i → i + tagBytes < c + t.size →
        (w.after actions).heap.region.byteAt i =
          actions.foldl (Action.overwrite (w.heap.base + i)) (w.heap.region.byteAt i) := by
  induction actions generalizing w A with
  | nil => exact ⟨A, hw, hc, rfl, fun _ _ _ => rfl⟩
  | cons a rest ih =>
    obtain ⟨hfirst, hrest⟩ := hkeep
    obtain ⟨B, hB, hfollows⟩ := hw.step a
    have hcB : (c, t) ∈ liveIn B.chunks := by
      rcases hfollows.kept c t hc with hcB | ha
      · exact hcB
      · exact absurd ha (hw.not_release hc hfirst)
    rw [← hfollows.base] at hrest
    obtain ⟨C, hC, hcC, hbase, hbytes⟩ := ih hB hcB hrest
    refine ⟨C, hC, hcC, hbase.trans hfollows.base, fun i hlo hhi => ?_⟩
    have hbyte := hbytes i hlo hhi
    rw [hfollows.base, hfollows.bytes c t i hc hcB hlo hhi] at hbyte
    exact hbyte

/-- Live allocations are isolated from one another, from the tags, and from every call but their
own release, whatever happened before and whatever happens next. -/
theorem reachable_isolated (hw : w.Reachable) : w.Isolated := by
  obtain ⟨A, hA⟩ := hw.tracks
  refine ⟨fun request owner addr hresult => ?_, fun g hg => ?_, hA.apart, ?_⟩
  · have hheld : ⟨addr, owner⟩ ∈ (w.step (.allocate request owner)).held := by
      rw [step, finish, hresult]
      exact List.mem_cons_self ..
    obtain ⟨B, hB, hfollows⟩ := hA.step (.allocate request owner)
    obtain ⟨c, t, hc, he⟩ := (hB.held _).1 hheld
    obtain ⟨rfl, -⟩ := Grant.mk.inj he
    refine ⟨?_, hheld⟩
    obtain ⟨k, hk⟩ := hB.grid (mem_liveIn.1 hc).1
    rw [hfollows.base] at hk ⊢
    exact ⟨k, hk⟩
  · obtain ⟨c, t, hc, rfl⟩ := (hA.held g).1 hg
    exact ⟨_, hA.grants hc, hA.placed hc⟩
  · intro g hg size hsize actions hkeep
    obtain ⟨c, t, hc, rfl⟩ := (hA.held g).1 hg
    obtain rfl := Except.ok.inj ((hA.intact.usableSize hc).symm.trans hsize.1)
    obtain ⟨B, hB, hcB, hbase, hbytes⟩ := hA.keeps hc hkeep
    have hheld := hB.mem_held hcB
    have hgrants := hB.grants hcB
    rw [hbase] at hheld hgrants
    refine ⟨hheld, hgrants, fun addr hlo hhi => ?_⟩
    simp only [tagBytes, overhead] at hlo hhi
    have hpos := hA.intact.settled.valid.tiles.size_pos (mem_liveIn.1 hc).1
    have hbyte := hbytes (addr - w.heap.base) (by simp only [tagBytes]; omega)
      (by simp only [tagBytes]; omega)
    have haddr : w.heap.base + (addr - w.heap.base) = addr := by omega
    rw [haddr] at hbyte
    rw [Heap.peek, hbase]
    exact hbyte

/-- Two allocations, one of them written to. -/
theorem shared_isolated :
    let w := sample.after [.allocate 8 .kernel, .allocate 8 .nobody, .write 0x1008 7]
    w.held = [⟨0x1028, .nobody⟩, ⟨0x1008, .kernel⟩] ∧ w.Isolated :=
  ⟨by decide +kernel, reachable_isolated (reachable_sample.after _)⟩

end World

end BoundaryHeap
