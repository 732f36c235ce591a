import BoundaryHeap.Heap.Allocate
import BoundaryHeap.Proofs.Finding

namespace BoundaryHeap.Heap

open Region (Changed)

/-- From `h` the program ends in `a` and leaves `h'`. -/
def Does (m : HeapM α) (h : Heap) (a : α) (h' : Heap) : Prop :=
  ∀ j, ∃ j', m ⟨h, j⟩ = .ok a ⟨h', j'⟩

def Fails (m : HeapM α) (h : Heap) (f : Fault) (h' : Heap) : Prop :=
  ∀ j, ∃ j', m ⟨h, j⟩ = .error f ⟨h', j'⟩

section Rules

variable {h h₁ h₂ : Heap} {f : Fault}

theorem Does.pure (a : α) (h : Heap) : Does (pure a) h a h :=
  fun j => ⟨j, rfl⟩

theorem Does.bind {m : HeapM α} {k : α → HeapM β} {a : α} {b : β} (hm : Does m h a h₁)
    (hk : Does (k a) h₁ b h₂) : Does (m >>= k) h b h₂ := by
  intro j
  obtain ⟨j₁, hrun⟩ := hm j
  obtain ⟨j₂, hrun'⟩ := hk j₁
  exact ⟨j₂, (bind_ok hrun).trans hrun'⟩

theorem Does.bind_fails {m : HeapM α} {k : α → HeapM β} {a : α} (hm : Does m h a h₁)
    (hk : Fails (k a) h₁ f h₂) : Fails (m >>= k) h f h₂ := by
  intro j
  obtain ⟨j₁, hrun⟩ := hm j
  obtain ⟨j₂, hrun'⟩ := hk j₁
  exact ⟨j₂, (bind_ok hrun).trans hrun'⟩

theorem Fails.bind {m : HeapM α} {k : α → HeapM β} (hm : Fails m h f h₁) :
    Fails (m >>= k) h f h₁ := by
  intro j
  obtain ⟨j₁, hrun⟩ := hm j
  refine ⟨j₁, ?_⟩
  simp only [Bind.bind, EStateM.bind, hrun]

theorem Fails.throw (f : Fault) (h : Heap) : Fails (throw f : HeapM α) h f h :=
  fun j => ⟨j, rfl⟩

theorem Does.lift {m : StoreM α} {a : α} {s' : Store} (hm : m h.store = .ok a s') :
    Does (liftM m) h a { h with store := s' } := by
  intro j
  obtain ⟨store, live, lastSize, counters⟩ := h
  refine ⟨j, ?_⟩
  have hrun : m store = .ok a s' := hm
  show onStore m _ = _
  simp only [onStore, hrun]

theorem Does.observe {g : Heap → Except Fault α} {a : α} (hg : g h = .ok a) :
    Does (observe g) h a h := by
  intro j
  refine ⟨j, ?_⟩
  simp only [Heap.observe, hg]

theorem Does.get (g : Heap → α) (h : Heap) : Does (Heap.observe fun h => .ok (g h)) h (g h) h :=
  .observe rfl

theorem Fails.observe {g : Heap → Except Fault α} (hg : g h = .error f) :
    Fails (observe g) h f h := by
  intro j
  refine ⟨j, ?_⟩
  simp only [Heap.observe, hg]

theorem Does.check {p : Prop} [Decidable p] (hp : p) (f : Fault) : Does (check p f) h () h :=
  fun j => ⟨j, if_pos hp⟩

theorem Does.note (r : Record) (h : Heap) : Does (note r) h () h :=
  fun j => ⟨j ++ [r], rfl⟩

theorem Does.adjust (g : Heap → Heap) (h : Heap) : Does (adjust g) h () (g h) :=
  fun j => ⟨j, rfl⟩

theorem Does.remark {change : LiveMap → Nat → Option LiveMap} {c : Nat} {live : LiveMap}
    (hchange : change h.live (c / granule) = some live) :
    Does (remark c change) h () { h with live := live } := by
  have hread : (LiveMap.wordFault (c / granule)).orElse (change h.live (c / granule)) = .ok live := by
    rw [hchange]
    rfl
  exact Does.bind (.observe hread) (.adjust _ h)

theorem Does.mark {c : Nat} (hc : c / granule < LiveMap.capacity) (h : Heap) :
    Does (Heap.remark c LiveMap.mark?) h () { h with live := h.live.mark (c / granule) } :=
  .remark (h.live.mark?_of_lt hc)

theorem Does.unmark {c : Nat} (hc : c / granule < LiveMap.capacity) (h : Heap) :
    Does (Heap.remark c LiveMap.unmark?) h () { h with live := h.live.unmark (c / granule) } :=
  .remark (h.live.unmark?_of_lt hc)

theorem Does.run {m : HeapM α} {a : α} (hm : Does m h a h₁) :
    (h.run m).result = .ok a ∧ (h.run m).after = h₁ := by
  obtain ⟨j, hrun⟩ := hm []
  simp only [Heap.run, hrun, and_self]

theorem Fails.run {m : HeapM α} (hm : Fails m h f h₁) :
    (h.run m).result = .error f ∧ (h.run m).after = h₁ := by
  obtain ⟨j, hrun⟩ := hm []
  simp only [Heap.run, hrun, and_self]

end Rules

/-- Run on any heap of the shape `A` that last served the size `last`, the program ends in `a` and
leaves the shape `B`, and nothing but the store changes. -/
structure Takes (m : HeapM α) (last : Nat) (A : Shape) (a : α) (B : Shape) : Prop where
  live : liveIn B.chunks = liveIn A.chunks
  run : ∀ h : Heap, h.lastSize = last → h.store.Represents A →
    ∃ s', Does m h a { h with store := s' } ∧ s'.Represents B ∧
      Changed (vacant A.chunks) h.store.region s'.region

namespace Takes

variable {A B C : Shape} {last size fuel : Nat}

theorem pure (a : α) (last : Nat) (A : Shape) : Takes (pure a) last A a A :=
  ⟨rfl, fun h _ hs => ⟨h.store, .pure a h, hs, .refl ..⟩⟩

theorem bind {m : HeapM α} {k : α → HeapM β} {a : α} {b : β} (hm : Takes m last A a B)
    (hk : Takes (k a) last B b C) : Takes (m >>= k) last A b C := by
  refine ⟨hk.live.trans hm.live, fun h hlast hs => ?_⟩
  obtain ⟨s₁, hrun, hs₁, hr⟩ := hm.run h hlast hs
  obtain ⟨s₂, hrun', hs₂, hr'⟩ := hk.run { h with store := s₁ } hlast hs₁
  refine ⟨s₂, hrun.bind hrun', hs₂, hr.trans ?_⟩
  rw [vacant, ← hm.live]
  exact hr'

theorem lift {m : StoreM α} {a : α} (last : Nat) (hm : Store.Takes m A a B) : Takes (liftM m) last A a B := by
  refine ⟨hm.live, fun h _ hs => ?_⟩
  obtain ⟨s', hrun, hs', hr⟩ := hm.run h.store hs
  exact ⟨s', .lift hrun, hs', hr⟩

theorem note (r : Record) : Takes (note r) last A () A :=
  ⟨rfl, fun h _ hs => ⟨h.store, .note r h, hs, .refl ..⟩⟩

theorem lastSize : Takes (observe fun h => .ok h.lastSize) last A last A := by
  refine ⟨rfl, fun h hlast hs => ⟨h.store, .observe ?_, hs, .refl ..⟩⟩
  rw [hlast]

theorem mergeWithin (last : Nat) (h : A.Settled) (hfuel : A.len / minChunk < fuel) :
    Takes (mergeWithin fuel) last A () A.mergeAll :=
  (lift last (Store.Takes.mergeAll h hfuel)).bind (note ..)

theorem cutFitting (last : Nat) (h : A.Settled) (hmin : minChunk ≤ size) (hgrain : size % granule = 0)
    (hfuel : A.len / minChunk < fuel) {found : HeapM Unit} (hfound : ∀ B, Takes found last B () B) :
    Takes (cutFitting fuel size found) last A (A.cutFitting last size).1
      (A.cutFitting last size).2 := by
  have htake := lift last (Store.Takes.takeFitting h.valid hfuel size)
  unfold Shape.cutFitting
  rcases hfind : A.findFitting size with _ | c
  · rw [hfind] at htake
    exact htake.bind (.pure ..)
  · rw [hfind] at htake
    obtain ⟨hclean, hsize⟩ := Shape.findFitting_some hfind
    have hcut := Store.Takes.cutDown (h.take hclean.listed) hmin hgrain hsize
      (h.next_not_clean hclean) hfuel last
    exact htake.bind ((hfound _).bind (lastSize.bind ((lift last hcut).bind (.pure ..))))

theorem search (last : Nat) (h : A.Settled) (hmin : minChunk ≤ size) (hgrain : size % granule = 0)
    (hfuel : A.len / minChunk < fuel) :
    Takes (search fuel size) last A (A.search last size).1 (A.search last size).2 := by
  have hhead := lift last (Store.Takes.takeRecentHead h.valid size)
  unfold Shape.search
  rcases hfirst : A.recentHead size with _ | c
  · rw [hfirst] at hhead
    apply hhead.bind
    have hdirty := lift last (Store.Takes.takeDirty h.valid hfuel size)
    rcases hsecond : A.exactIn (.dirty (sizeClass size)) size with _ | c
    · rw [hsecond] at hdirty
      apply hdirty.bind
      have hrecent := lift last (Store.Takes.takeRecent h hfuel
        ((h.valid.length_le _).trans_lt hfuel) size)
      rcases hthird : A.takeRecent size with ⟨_ | c, B⟩
      · rw [hthird] at hrecent
        apply hrecent.bind
        have hB := h.takeRecent_none hthird
        have hlenB : B.len = A.len := Shape.len_takeRecent hthird
        have hfit := cutFitting last hB hmin hgrain (hlenB ▸ hfuel)
          fun B => pure () last B
        rcases hfourth : B.cutFitting last size with ⟨_ | c, C⟩
        · simp only [hfourth]
          rw [hfourth] at hfit
          obtain ⟨rfl, -⟩ := Shape.cutFitting_none hfourth
          obtain ⟨hsettled, hlen, -⟩ := hB.mergeAll
          have hmerge := mergeWithin last hB (hlenB ▸ hfuel)
          have hfit' := cutFitting last hsettled hmin hgrain
            (by rw [hlen, hlenB]; exact hfuel) fun B => note (A := B) (.servedAfterMerge size)
          exact hfit.bind (hmerge.bind hfit')
        · simp only [hfourth]
          rw [hfourth] at hfit
          exact hfit.bind (.pure ..)
      · rw [hthird] at hrecent
        exact hrecent.bind ((note ..).bind (.pure ..))
    · rw [hsecond] at hdirty
      exact hdirty.bind ((note ..).bind (.pure ..))
  · rw [hfirst] at hhead
    exact hhead.bind ((note ..).bind (.pure ..))

end Takes

end BoundaryHeap.Heap
