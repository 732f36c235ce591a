import BoundaryHeap.Heap.Allocate

namespace BoundaryHeap

/-- Wherever `m` does not run out of fuel, `m'` does the same. -/
def Extends (m m' : EStateM Fault σ α) : Prop :=
  ∀ s, (∃ t, m s = .error .endless t) ∨ m' s = m s

section Rules

variable {σ : Type} {m m' : EStateM Fault σ α} {s t : σ}

theorem Extends.refl (m : EStateM Fault σ α) : Extends m m :=
  fun _ => .inr rfl

theorem Extends.endless (m' : EStateM Fault σ α) : Extends (throw .endless) m' :=
  fun s => .inl ⟨s, rfl⟩

theorem Extends.bind {k k' : α → EStateM Fault σ β} (h : Extends m m')
    (hk : ∀ a, Extends (k a) (k' a)) : Extends (m >>= k) (m' >>= k') := by
  intro s
  simp only [Bind.bind, EStateM.bind]
  rcases h s with ⟨t, hout⟩ | hsame
  · rw [hout]
    exact .inl ⟨t, rfl⟩
  · rw [hsame]
    cases m s with
    | ok a t => exact hk a t
    | error f t => exact .inr rfl

theorem Extends.next {k k' : α → EStateM Fault σ β} (hk : ∀ a, Extends (k a) (k' a)) :
    Extends (m >>= k) (m >>= k') :=
  (Extends.refl m).bind hk

theorem Extends.ite {p : Prop} [Decidable p] {n n' : EStateM Fault σ α} (h : Extends m m')
    (h' : Extends n n') : Extends (if p then m else n) (if p then m' else n') := by
  split
  · exact h
  · exact h'

theorem Extends.ok {a : α} (h : Extends m m') (hm : m s = .ok a t) : m' s = .ok a t := by
  rcases h s with ⟨u, hout⟩ | hsame
  · rw [hm] at hout
    cases hout
  · exact hsame.trans hm

end Rules

namespace Store

variable {fuel fuel' walk walk' : Nat}

theorem succ_of_succ_le (h : fuel + 1 ≤ fuel') : ∃ rest, fuel' = rest + 1 ∧ fuel ≤ rest :=
  ⟨fuel' - 1, by omega, by omega⟩

theorem extends_placeOf (h : fuel ≤ fuel') (c : Nat) (f : Referrer) (cur : Option Nat) :
    Extends (placeOf c fuel f cur) (placeOf c fuel' f cur) := by
  induction fuel generalizing fuel' f cur with
  | zero => exact .endless _
  | succ fuel ih =>
    obtain ⟨fuel', rfl, hle⟩ := succ_of_succ_le h
    cases cur with
    | none => exact .refl _
    | some d => exact .ite (.refl _) (.next fun next => ih hle _ next)

theorem extends_insertOrdered (h : fuel ≤ fuel') (l : ListId) (c : Nat) :
    Extends (insertOrdered fuel l c) (insertOrdered fuel' l c) :=
  .next fun first => (extends_placeOf h c _ first).bind fun _ => .refl _

theorem extends_file (h : fuel ≤ fuel') (c size : Nat) (f : Filing) :
    Extends (file fuel c size f) (file fuel' c size f) := by
  refine .next fun _ => .next fun _ => ?_
  cases f with
  | dirty => exact extends_insertOrdered h _ c
  | clean => exact extends_insertOrdered h _ c
  | recent => exact .refl _
  | remainder => exact .refl _

theorem extends_firstWith (h : fuel ≤ fuel') (accepts : Nat → Bool) (cur : Option Nat) :
    Extends (firstWith accepts fuel cur) (firstWith accepts fuel' cur) := by
  induction fuel generalizing fuel' cur with
  | zero => exact .endless _
  | succ fuel ih =>
    obtain ⟨fuel', rfl, hle⟩ := succ_of_succ_le h
    cases cur with
    | none => exact .refl _
    | some c => exact .next fun _ => .ite (.refl _) (.next fun next => ih hle next)

theorem extends_exactIn (h : fuel ≤ fuel') (l : ListId) (size : Nat) :
    Extends (exactIn fuel l size) (exactIn fuel' l size) :=
  .next fun cur => extends_firstWith h _ cur

theorem extends_fittingIn (h : fuel ≤ fuel') (l : ListId) (size : Nat) :
    Extends (fittingIn fuel l size) (fittingIn fuel' l size) :=
  .next fun cur => extends_firstWith h _ cur

theorem extends_takeDirty (h : fuel ≤ fuel') (size : Nat) :
    Extends (takeDirty fuel size) (takeDirty fuel' size) :=
  (extends_exactIn h _ size).bind fun _ => .refl _

theorem extends_takeRecent (hwalk : walk ≤ walk') (h : fuel ≤ fuel') (size : Nat) :
    Extends (takeRecent size walk fuel) (takeRecent size walk' fuel') := by
  induction fuel generalizing fuel' with
  | zero => exact .endless _
  | succ fuel ih =>
    obtain ⟨fuel', rfl, hle⟩ := succ_of_succ_le h
    refine .next fun first => ?_
    cases first with
    | none => exact .refl _
    | some c =>
      exact .next fun found => .ite (.refl _)
        ((extends_file hwalk c found .dirty).bind fun _ => ih hle)

theorem extends_fittingInBins (h : fuel ≤ fuel') (size : Nat) (bins : List (Fin binCount)) :
    Extends (fittingInBins fuel size bins) (fittingInBins fuel' size bins) := by
  induction bins with
  | nil => exact .refl _
  | cons bin bins ih =>
    refine (extends_fittingIn h _ size).bind fun found => ?_
    cases found with
    | none => exact ih
    | some c => exact .refl _

theorem extends_findFitting (h : fuel ≤ fuel') (size : Nat) :
    Extends (findFitting fuel size) (findFitting fuel' size) := by
  refine (extends_fittingIn h _ size).bind fun found => ?_
  cases found with
  | none => exact extends_fittingInBins h size _
  | some c => exact .refl _

theorem extends_takeFitting (h : fuel ≤ fuel') (size : Nat) :
    Extends (takeFitting fuel size) (takeFitting fuel' size) :=
  (extends_findFitting h size).bind fun _ => .refl _

theorem extends_dropRemainder (h : fuel ≤ fuel') :
    Extends (dropRemainder fuel) (dropRemainder fuel') := by
  refine .next fun old => ?_
  cases old with
  | none => exact .refl _
  | some c => exact .next fun size => extends_file h c size .clean

theorem extends_keepRemainder (h : fuel ≤ fuel') (rest size : Nat) :
    Extends (keepRemainder fuel rest size) (keepRemainder fuel' rest size) :=
  (extends_dropRemainder h).bind fun _ => extends_file h rest size .remainder

theorem extends_stock (h : fuel ≤ fuel') (size count : Nat) :
    Extends (stock fuel size count) (stock fuel' size count) := by
  induction count with
  | zero => exact .refl _
  | succ count ih =>
    refine .next fun cur => ?_
    cases cur with
    | none => exact .refl _
    | some c =>
      refine .next fun total => .ite (.refl _) (.next fun _ => .next fun rest => ?_)
      exact (extends_file h c size .recent).bind fun _ =>
        (extends_file h rest (total - size) .remainder).bind fun _ => ih

theorem extends_cutDown (h : fuel ≤ fuel') (last c size : Nat) :
    Extends (cutDown fuel last c size) (cutDown fuel' last c size) := by
  refine .next fun total => .next fun _ => .ite (.refl _) (.next fun rest => ?_)
  exact (extends_keepRemainder h rest (total - size)).bind fun _ =>
    .ite (extends_stock h size stockCount) (.refl _)

theorem extends_flushRecent (hwalk : walk ≤ walk') (h : fuel ≤ fuel') :
    Extends (flushRecent walk fuel) (flushRecent walk' fuel') := by
  induction fuel generalizing fuel' with
  | zero => exact .endless _
  | succ fuel ih =>
    obtain ⟨fuel', rfl, hle⟩ := succ_of_succ_le h
    refine .next fun first => ?_
    cases first with
    | none => exact .refl _
    | some c =>
      exact .next fun size => (extends_file hwalk c size .dirty).bind fun _ =>
        (ih hle).bind fun _ => .refl _

theorem extends_absorbBelow (h : fuel ≤ fuel') (start size : Nat) :
    Extends (absorbBelow fuel start size) (absorbBelow fuel' start size) := by
  induction fuel generalizing fuel' start size with
  | zero => exact .endless _
  | succ fuel ih =>
    obtain ⟨fuel', rfl, hle⟩ := succ_of_succ_le h
    refine .next fun pred => ?_
    cases pred with
    | none => exact .refl _
    | some d => exact .next fun _ => .ite (.next fun _ => ih hle d _) (.refl _)

theorem extends_absorbAbove (h : fuel ≤ fuel') (start size : Nat) :
    Extends (absorbAbove fuel start size) (absorbAbove fuel' start size) := by
  induction fuel generalizing fuel' size with
  | zero => exact .endless _
  | succ fuel ih =>
    obtain ⟨fuel', rfl, hle⟩ := succ_of_succ_le h
    refine .next fun succ => ?_
    cases succ with
    | none => exact .refl _
    | some d => exact .next fun _ => .ite (.next fun _ => ih hle _) (.refl _)

theorem extends_mergeAround (h : fuel ≤ fuel') (c : Nat) :
    Extends (mergeAround fuel c) (mergeAround fuel' c) := by
  refine .next fun t => .next fun _ => (extends_absorbBelow h c t.size).bind fun run => ?_
  refine (extends_absorbAbove h run.1 run.2).bind fun size => .next fun _ => ?_
  exact extends_file h run.1 size .clean

theorem extends_drain (hwalk : walk ≤ walk') (h : fuel ≤ fuel') (l : ListId) :
    Extends (drain walk l fuel) (drain walk' l fuel') := by
  induction fuel generalizing fuel' with
  | zero => exact .endless _
  | succ fuel ih =>
    obtain ⟨fuel', rfl, hle⟩ := succ_of_succ_le h
    refine .next fun first => ?_
    cases first with
    | none => exact .refl _
    | some c =>
      exact (extends_mergeAround hwalk c).bind fun _ => (ih hle).bind fun _ => .refl _

theorem extends_drainAll (h : fuel ≤ fuel') (bins : List (Fin binCount)) :
    Extends (drainAll fuel bins) (drainAll fuel' bins) := by
  induction bins with
  | nil => exact .refl _
  | cons bin bins ih =>
    exact (extends_drain h h (.dirty bin)).bind fun _ => ih.bind fun _ => .refl _

theorem extends_mergeAll (h : fuel ≤ fuel') : Extends (mergeAll fuel) (mergeAll fuel') :=
  (extends_flushRecent h h).bind fun _ => (extends_drainAll h _).bind fun _ => .refl _

end Store

namespace Heap

variable {fuel fuel' size : Nat}

theorem extends_lift {m m' : StoreM α} (h : Extends m m') :
    Extends (liftM m : HeapM α) (liftM m') := by
  rintro ⟨⟨store, live, lastSize, counters⟩, journal⟩
  show (∃ t, onStore m _ = _) ∨ onStore m' _ = onStore m _
  simp only [onStore]
  rcases h store with ⟨t, hout⟩ | hsame
  · rw [hout]
    exact .inl ⟨_, rfl⟩
  · rw [hsame]
    exact .inr rfl

theorem extends_mergeWithin (h : fuel ≤ fuel') : Extends (mergeWithin fuel) (mergeWithin fuel') :=
  (extends_lift (Store.extends_mergeAll h)).bind fun _ => .refl _

theorem extends_cutFitting (h : fuel ≤ fuel') (size : Nat) (found : HeapM Unit) :
    Extends (cutFitting fuel size found) (cutFitting fuel' size found) := by
  refine (extends_lift (Store.extends_takeFitting h size)).bind fun taken => ?_
  cases taken with
  | none => exact .refl _
  | some c =>
    exact .next fun _ => .next fun last =>
      (extends_lift (Store.extends_cutDown h last c size)).bind fun _ => .refl _

theorem extends_search (h : fuel ≤ fuel') (size : Nat) :
    Extends (search fuel size) (search fuel' size) := by
  refine .next fun first => ?_
  cases first with
  | some c => exact .refl _
  | none =>
  refine (extends_lift (Store.extends_takeDirty h size)).bind fun dirty => ?_
  cases dirty with
  | some c => exact .refl _
  | none =>
  refine (extends_lift (Store.extends_takeRecent h h size)).bind fun recent => ?_
  cases recent with
  | some c => exact .refl _
  | none =>
  refine (extends_cutFitting h size _).bind fun cut => ?_
  cases cut with
  | some c => exact .refl _
  | none => exact (extends_mergeWithin h).bind fun _ => extends_cutFitting h size _

end Heap

end BoundaryHeap
