import BoundaryHeap.Proofs.Consistency
import BoundaryHeap.Proofs.Endings
import BoundaryHeap.Proofs.Merging

namespace BoundaryHeap

open Region (Changed)

namespace Region

/-- The step back from `c` stays where the region begins, leads to a chunk that ends at `c`, or
reports damage. -/
structure StepsBack (r : Region) (c : Nat) : Prop where
  reports : FailsIn Fault.Reports (r.below c)
  none_iff : r.below c = .ok none ↔ c = 0
  returns : ∀ p, r.below c = .ok (some p) →
    p < c ∧ ∃ t, r.tagAt p = .ok t ∧ p + t.size = c ∧ r.above p t.size = some c

/-- The walk reads `chunks`, and from each of them both steps lead to those next to it. -/
structure Navigable (r : Region) (chunks : List Chunk) : Prop where
  walk : r.walk = (chunks, none)
  below : ∀ xs c t ys, chunks = xs ++ (c, t) :: ys → r.below c = .ok (xs.getLast?.map Prod.fst)
  above : ∀ xs c t ys, chunks = xs ++ (c, t) :: ys → r.above c t.size = ys.head?.map Prod.fst
  first : ∀ xs c t ys, chunks = xs ++ (c, t) :: ys → (xs = [] ↔ c = 0)
  last : ∀ xs c t ys, chunks = xs ++ (c, t) :: ys → (ys = [] ↔ c + t.size = r.len)

variable {r : Region} {c : Nat}

theorem below_eq_none_iff : r.below c = .ok none ↔ c = 0 := by
  rw [below]
  constructor
  · intro h
    split at h
    next hc => exact hc
    next =>
      simp only [Fault.bind_eq_ok_iff] at h
      obtain ⟨_, -, _, -, _, -, _, -, _, -, he⟩ := h
      cases he
  · intro hc
    rw [if_pos hc]
    rfl

theorem stepsBack (hc : c % granule = 0) (hlen : c < r.len) : r.StepsBack c := by
  refine ⟨failsIn_below hc hlen.le, below_eq_none_iff, fun p hp => ?_⟩
  obtain ⟨t, htag, rfl⟩ := below_eq_some_iff.1 hp
  obtain ⟨-, hmin, -⟩ := tagAt_eq_ok_iff.1 htag
  exact ⟨by omega, t, htag, rfl, if_pos hlen⟩

end Region

namespace Tiles

variable {lo hi c : Nat} {t : Tag} {xs ys : List Chunk}

theorem eq_nil_iff (h : Tiles lo xs hi) : xs = [] ↔ lo = hi := by
  cases xs with
  | nil => exact ⟨fun _ => h, fun _ => rfl⟩
  | cons x rest =>
    have hbounds := h.bounds (List.mem_cons_self ..)
    constructor
    · intro he
      cases he
    · intro he
      omega

theorem around (h : Tiles lo (xs ++ (c, t) :: ys) hi) : Tiles lo xs c ∧ Tiles (c + t.size) ys hi := by
  obtain ⟨_, hx, rfl, -, hy⟩ := append_iff.1 h
  exact ⟨hx, hy⟩

end Tiles

theorem Store.Represents.navigable {s : Store} {A : Shape} (h : s.Represents A) :
    s.region.Navigable A.chunks := by
  have htiles := h.valid.tiles
  refine ⟨h.walk, fun xs c t ys he => ?_, fun xs c t ys he => ?_, fun xs c t ys he => ?_,
    fun xs c t ys he => ?_⟩
  all_goals
    rw [he] at htiles
    obtain ⟨hx, hy⟩ := htiles.around
  · exact h.below_eq he hx
  · exact h.above_eq hy
  · rw [hx.eq_nil_iff, eq_comm]
  · rw [hy.eq_nil_iff, h.len]

namespace World

/-- On any bytes, a step back from an offset on the grid is exact. On every heap in use, with any
bytes in the payloads, the steps lead from chunk to chunk along the walk. -/
theorem neighbours_exact :
    (∀ (r : Region) (c : Nat), c % granule = 0 → c < r.len → r.StepsBack c) ∧
      ∀ (w : World) (r : Region), w.Reachable →
        Changed (payloads w.heap.chunks) w.heap.region r → r.Navigable w.heap.chunks := by
  refine ⟨fun r c => Region.stepsBack, fun w r hw hr => ?_⟩
  obtain ⟨A, hA⟩ := hw.tracks
  rw [hA.intact.chunks] at hr ⊢
  have hs : Store.Represents ⟨r, w.heap.store.heads⟩ A := hA.intact.store.payload rfl hr
  exact hs.navigable

/-- Two chunks are handed out, and the payload of the first is filled. -/
theorem filled_neighbours :
    let w := sample.after [.allocate 8 .kernel, .allocate 8 .kernel]
    let r := w.heap.region.fill 8 0x6B 16
    r.StepsBack 32 ∧ r.Navigable w.heap.chunks := by
  intro w r
  have hlen : w.heap.region.len = 96 := by decide +kernel
  have hlive : (0, Tag.live 32 .kernel) ∈ liveIn w.heap.chunks := by decide +kernel
  have hfill : Set.Ico 8 (8 + 16) ⊆ payloads w.heap.chunks := by
    intro i hi
    rw [Set.mem_Ico] at hi
    exact ⟨0, _, hlive, hi.1, Nat.add_lt_add_right hi.2 8⟩
  refine ⟨neighbours_exact.1 r 32 rfl ?_, neighbours_exact.2 w r ?_ ?_⟩
  · rw [Region.len_fill, hlen]
    decide
  · exact reachable_sample.after _
  · exact (Region.changed_fill 8 0x6B 16).mono hfill

end World

end BoundaryHeap
