import BoundaryHeap.Proofs.Fuel
import BoundaryHeap.Proofs.Refusals
import BoundaryHeap.Proofs.Resilience

namespace BoundaryHeap

/-- Run from `s`, the loop ends as `Q` says after `rounds` rounds at most. The fuel beyond them pays
for the look that ends the loop; any more of it makes no difference. -/
def Ends (rounds : Nat) (loop : Nat → EStateM Fault σ α) (s : σ) (Q : α → σ → Prop) : Prop :=
  ∃ a t, Q a t ∧ ∀ fuel, rounds < fuel → loop fuel s = .ok a t

theorem Ends.imp {rounds : Nat} {loop : Nat → EStateM Fault σ α} {s : σ} {Q Q' : α → σ → Prop}
    (h : Ends rounds loop s Q) (hQ : ∀ a t, Q a t → Q' a t) : Ends rounds loop s Q' := by
  obtain ⟨a, t, ht, hrun⟩ := h
  exact ⟨a, t, hQ a t ht, hrun⟩

namespace Store

/-- Tags and lists are in order, and of the free chunks exactly those of `H` are on no list. -/
def Orderly (s : Store) (H : Set Nat) : Prop :=
  ∃ A, s.Represents A ∧ A.Holding H

/-- Each loop ends on a store that holds the chunks of `H` in hand, after `rounds` rounds at most. -/
structure LoopsEnd (s : Store) (H : Set Nat) (rounds : Nat) : Prop where
  members : ∀ l, ∃ xs, s.members l = .ok xs ∧ xs.length ≤ rounds
  exactIn : ∀ l size, Ends rounds (exactIn · l size) s fun _ t => t = s
  fittingIn : ∀ l size, Ends rounds (fittingIn · l size) s fun _ t => t = s
  bins : ∀ size, (binsFrom size).length ≤ binCount
  findFitting : ∀ size, Ends rounds (findFitting · size) s fun _ t => t = s
  takeRecent : H = ∅ → ∀ size, Ends rounds (fun fuel => takeRecent size fuel fuel) s
    fun found t => t.Orderly {c | found = some c}
  insertOrdered : ∀ c ∈ H, ∀ t, s.region.tagAt c = .ok t →
    (Ends rounds (file · c t.size .clean) s fun _ _ => True) ∧
      Ends rounds (file · c t.size .dirty) s fun _ u => u.Orderly (H \ {c})
  stock : ∀ size count, minChunk ≤ size → size % granule = 0 →
    Ends rounds (stock · size count) s fun _ t => t.Orderly H
  flushRecent : H = ∅ → Ends rounds (fun fuel => flushRecent fuel fuel) s
    fun _ t => t.Orderly ∅ ∧ t.heads.get .recent = none
  absorb : ∀ c, H = {c} → ∀ t, s.region.tagAt c = .ok t →
    Ends rounds (absorbBelow · c t.size) s fun run u =>
      Ends rounds (absorbAbove · run.1 run.2) u fun _ _ => True
  mergeAround : ∀ c, H = {c} → Ends rounds (mergeAround · c) s fun _ t => t.Orderly ∅
  drain : H = ∅ → ∀ bin, Ends rounds (fun fuel => drain fuel (.dirty bin) fuel) s
    fun _ t => t.Orderly ∅ ∧ t.heads.get (.dirty bin) = none

variable {s : Store} {A B : Shape} {H : Set Nat} {c size : Nat}

/-- One amount of fuel with which the loop ends is enough to know what it does with more. -/
theorem Represents.ends {loop : Nat → StoreM α} {a : α} {Q : α → Store → Prop}
    (hs : s.Represents A) (hmore : ∀ {fuel fuel'}, fuel ≤ fuel' → Extends (loop fuel) (loop fuel'))
    (hloop : Takes (loop (A.len / minChunk + 1)) A a B)
    (hQ : ∀ t, t.Represents B → Q a t) : Ends (A.len / minChunk) loop s Q := by
  obtain ⟨t, hrun, ht, -⟩ := hloop.run s hs
  exact ⟨a, t, hQ t ht, fun fuel hfuel => (hmore hfuel).ok hrun⟩

theorem Represents.head_none (hs : s.Represents A) {l : ListId} (hl : A.lists l = []) :
    s.heads.get l = none := by
  have hhead := (hs.threads l).head
  rw [hl] at hhead
  exact hhead

theorem length_binsFrom_le (size : Nat) : (binsFrom size).length ≤ binCount := by
  rw [binsFrom, List.length_drop, List.length_finRange]
  exact Nat.sub_le ..

theorem Idle.exactIn (fuel : Nat) (l : ListId) (size : Nat) : Idle (exactIn fuel l size) :=
  (Idle.head l).bind fun cur => .firstWith _ fuel cur

theorem Represents.ends_idle {loop : Nat → StoreM α} {a : α} (hs : s.Represents A)
    (hmore : ∀ {fuel fuel'}, fuel ≤ fuel' → Extends (loop fuel) (loop fuel'))
    (hidle : Idle (loop (A.len / minChunk + 1)))
    (hloop : Takes (loop (A.len / minChunk + 1)) A a A) :
    Ends (A.len / minChunk) loop s fun _ t => t = s :=
  ⟨a, s, rfl, fun _ hfuel => (hmore hfuel).ok (hidle.stays hloop hs)⟩

theorem Represents.ends_takeRecent (hs : s.Represents A) (hA : A.Settled) (size : Nat) :
    Ends (A.len / minChunk) (fun fuel => takeRecent size fuel fuel) s
      fun found t => t.Orderly {c | found = some c} := by
  have hfuel := Nat.lt_succ_self (A.len / minChunk)
  have htake := Takes.takeRecent hA hfuel ((hA.valid.length_le .recent).trans_lt hfuel) size
  rcases hfound : A.takeRecent size with ⟨found, B⟩
  rw [hfound] at htake
  apply hs.ends (fun h => extends_takeRecent h h size) htake
  intro t ht
  refine ⟨B, ht, ?_⟩
  cases found with
  | none =>
    have hnone : {c : Nat | (none : Option Nat) = some c} = ∅ := by simp
    rw [hnone]
    exact hA.takeRecent_none hfound
  | some c =>
    have hone : {d | some c = some d} = {c} := by
      ext d
      simp [eq_comm]
    rw [hone]
    exact (hA.takeRecent_some hfound).1

theorem Represents.ends_file {t : Tag} (hs : s.Represents A) (hA : A.Holding H) (hc : c ∈ H)
    (htag : s.region.tagAt c = .ok t) {f : Filing} (hf : f ≠ .remainder) :
    Ends (A.len / minChunk) (file · c t.size f) s fun _ u => u.Represents (A.file c f) := by
  obtain ⟨u, hu, -⟩ := (hA.mem_loose hc).1
  obtain rfl : u = t := Except.ok.inj ((hs.tagAt hu).symm.trans htag)
  apply hs.ends (fun h => extends_file h c u.size f)
  · exact Takes.file (hA.mem_loose hc) (hA.valid.sizeAt_eq hu)
      (hA.valid.passed_le (Nat.lt_succ_self _) f _) fun he => absurd he hf
  · exact fun _ ht => ht

theorem Represents.ends_absorb (hs : s.Represents A) (hA : A.Holding {c}) {t : Tag}
    (htag : s.region.tagAt c = .ok t) :
    Ends (A.len / minChunk) (absorbBelow · c t.size) s fun run u =>
      Ends (A.len / minChunk) (absorbAbove · run.1 run.2) u fun _ _ => True := by
  obtain ⟨⟨u, hu, -⟩, -⟩ := hA.mem_loose rfl
  obtain rfl : u = t := Except.ok.inj ((hs.tagAt hu).symm.trans htag)
  obtain ⟨pre, post, har⟩ := hA.valid.around hu
  obtain ⟨hbelow, habove⟩ := Takes.absorb hA har (Nat.lt_succ_self _)
  apply hs.ends (fun h => extends_absorbBelow h c u.size) hbelow
  intro s' hs'
  have hlen : (A.unlistAll (A.freeBelow c)).len = A.len := Shape.len_unlistAll
  rw [← hlen] at habove ⊢
  exact hs'.ends (fun h => extends_absorbAbove h _ _) habove fun _ _ => trivial

theorem Represents.loopsEnd (hs : s.Represents A) (hA : A.Holding H) :
    s.LoopsEnd H (A.len / minChunk) where
  members l := ⟨A.lists l, hs.members l, hA.valid.length_le l⟩
  exactIn l size := hs.ends_idle (fun h => extends_exactIn h l size) (.exactIn _ l size)
    (Takes.exactIn hA.valid (Nat.lt_succ_self _) l size)
  fittingIn l size := hs.ends_idle (fun h => extends_fittingIn h l size) (.fittingIn _ l size)
    (Takes.fittingIn hA.valid (Nat.lt_succ_self _) l size)
  bins := length_binsFrom_le
  findFitting size := hs.ends_idle (fun h => extends_findFitting h size) (.findFitting _ size)
    (Takes.findFitting hA.valid (Nat.lt_succ_self _) size)
  takeRecent := by
    rintro rfl size
    exact hs.ends_takeRecent hA size
  insertOrdered c hc t htag :=
    ⟨(hs.ends_file hA hc htag (f := .clean) (by simp)).imp fun _ _ _ => trivial,
      (hs.ends_file hA hc htag (f := .dirty) (by simp)).imp fun _ _ hu =>
        ⟨_, hu, hA.file_dirty hc fun _ => rfl⟩⟩
  stock size count hmin hgrain := by
    apply hs.ends (fun h => extends_stock h size count)
      (Takes.stock hA hmin hgrain (Nat.lt_succ_self _) count)
    exact fun t ht => ⟨_, ht, (hA.stock hmin hgrain count).1⟩
  flushRecent := by
    rintro rfl
    apply hs.ends (fun h => extends_flushRecent h h)
      (Relinks.flush hA (Nat.lt_succ_self _)).takes
    exact fun t ht => ⟨⟨_, ht, Shape.Settled.flush hA⟩,
      ht.head_none (Shape.Settled.recent_flush hA)⟩
  absorb := by
    rintro c rfl t htag
    exact hs.ends_absorb hA htag
  mergeAround := by
    rintro c rfl
    apply hs.ends (fun h => extends_mergeAround h c) (Takes.mergeAround hA (Nat.lt_succ_self _))
    exact fun t ht => ⟨_, ht, hA.mergeAround⟩
  drain := by
    rintro rfl bin
    have hfuel := Nat.lt_succ_self (A.len / minChunk)
    obtain ⟨hsettled, hempty, -⟩ := Shape.Settled.drain hA bin
    apply hs.ends (fun h => extends_drain h h (.dirty bin))
      (Takes.drain hA hfuel ((hA.valid.length_le _).trans_lt hfuel))
    exact fun t ht => ⟨⟨_, ht, hsettled⟩, ht.head_none hempty⟩

end Store

namespace Heap

/-- With `rounds` units of fuel and one more, no loop of a call runs out of it, and each call does
what it does with all the fuel that there is. -/
structure Terminates (h : Heap) (rounds : Nat) : Prop where
  allocateWithin : ∀ fuel, rounds < fuel → ∀ request owner,
    h.run (allocateWithin fuel request owner) = h.run (allocate request owner)
  mergeWithin : ∀ fuel, rounds < fuel → h.run (mergeWithin fuel) = h.run merge
  allocate : ∀ request owner, (∃ addr, (h.run (allocate request owner)).result = .ok addr) ∨
    (h.run (allocate request owner)).result = .error (.error (.outOfMemory request))
  merge : (h.run merge).result = .ok ()
  release : ∀ addr, (h.run (release addr)).result = .ok () ∨
    ∃ a reason, addr = some a ∧
      (h.run (release addr)).result = .error (.error (.invalidFree a reason))
  orderly : h.store.Orderly ∅
  loops : ∀ (s : Store) (H : Set Nat), s.Orderly H → s.region.len = h.len → s.LoopsEnd H rounds

variable {h : Heap} {A : Shape} {fuel size : Nat}

/-- Enough fuel and all the fuel that there is lead to the same. -/
theorem Intact.same_fuel {loop : Nat → HeapM α} (hi : h.Intact A)
    (hmore : ∀ {fuel fuel'}, fuel ≤ fuel' → Extends (loop fuel) (loop fuel')) {last : Nat} {a : α}
    {B : Shape} (hloop : Takes (loop (A.len / minChunk + 1)) last A a B) (hlast : h.lastSize = last)
    (hfuel : A.len / minChunk < fuel) (j : List Record) :
    loop fuel ⟨h, j⟩ = loop h.fuel ⟨h, j⟩ := by
  obtain ⟨s', hdoes, -⟩ := hloop.run h hlast hi.store
  obtain ⟨j', hrun⟩ := hdoes j
  exact ((hmore hfuel).ok hrun).trans ((hmore hi.fuel).ok hrun).symm

theorem Intact.same_search (hi : h.Intact A) (hmin : minChunk ≤ size)
    (hgrain : size % granule = 0) (hfuel : A.len / minChunk < fuel) (j : List Record) :
    search fuel size ⟨h, j⟩ = search h.fuel size ⟨h, j⟩ :=
  hi.same_fuel (fun h => extends_search h size)
    (Takes.search h.lastSize hi.settled hmin hgrain (Nat.lt_succ_self _)) rfl hfuel j

theorem Intact.same_allocate (hi : h.Intact A) (hfuel : A.len / minChunk < fuel) (request : Nat)
    (owner : Owner) (j : List Record) :
    allocateWithin fuel request owner ⟨h, j⟩ = Heap.allocate request owner ⟨h, j⟩ := by
  have hall : observe (fun h => .ok h.fuel) ⟨h, j⟩ = .ok h.fuel ⟨h, j⟩ := rfl
  have hlen : observe (fun h => .ok h.len) ⟨h, j⟩ = .ok h.len ⟨h, j⟩ := rfl
  rw [Heap.allocate, bind_ok hall, allocateWithin, allocateWithin, bind_ok hlen, bind_ok hlen]
  rcases hsize : chunkSize? request with _ | size
  · rfl
  · obtain ⟨hmin, hgrain, -⟩ := chunkSize?_spec hsize
    by_cases hlarge : h.len < size
    · simp only [if_pos hlarge]
    · simp only [if_neg hlarge, bind, EStateM.bind, hi.same_search hmin hgrain hfuel j]

theorem Intact.terminates (hi : h.Intact A) : h.Terminates (h.len / minChunk) where
  allocateWithin fuel hfuel request owner := by
    rw [hi.len] at hfuel
    rw [run, run, hi.same_allocate hfuel]
  mergeWithin fuel hfuel := by
    rw [hi.len] at hfuel
    have hsame := hi.same_fuel extends_mergeWithin
      (Takes.mergeWithin h.lastSize hi.settled (Nat.lt_succ_self _)) rfl hfuel []
    rw [run, run, hsame]
    rfl
  allocate := hi.faultless.allocate
  merge := hi.faultless.merge
  release addr := by
    cases addr with
    | none => exact .inl hi.faultless.releaseNone
    | some a =>
      rcases hi.faultless.release a with hok | ⟨reason, hrefused⟩
      · exact .inl hok
      · exact .inr ⟨a, reason, rfl, hrefused⟩
  orderly := ⟨A, hi.store, hi.settled⟩
  loops := by
    rintro s H ⟨B, hs, hB⟩ hlen
    rw [← hlen, hs.len]
    exact hs.loopsEnd hB

end Heap

namespace World

/-- In every heap that has been run, the loops of all calls end, each after no more rounds than the
region has room for chunks. -/
theorem loops_end {w : World} (hw : w.Reachable) : w.heap.Terminates (w.heap.len / minChunk) := by
  obtain ⟨A, hA⟩ := hw.tracks
  exact hA.intact.terminates

theorem tended_loops_end :
    tended.Reachable ∧ tended.heap.Terminates (tended.heap.len / minChunk) :=
  ⟨reachable_tended, loops_end reachable_tended⟩

end World

end BoundaryHeap
