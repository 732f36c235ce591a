import BoundaryHeap.Heap.Allocate
import BoundaryHeap.Proofs.Links

namespace BoundaryHeap

def FailsIn (S : Fault → Prop) (x : Except Fault α) : Prop :=
  ∀ f, x = .error f → S f

section FailsIn

variable {S T : Fault → Prop}

theorem failsIn_ok (a : α) : FailsIn S (.ok a : Except Fault α) := by
  intro f hf
  cases hf

theorem failsIn_error {f : Fault} (hf : S f) : FailsIn S (.error f : Except Fault α) := by
  intro f' hf'
  cases hf'
  exact hf

theorem FailsIn.mono {x : Except Fault α} (h : FailsIn S x) (hST : ∀ f, S f → T f) :
    FailsIn T x :=
  fun f hf => hST f (h f hf)

theorem FailsIn.bind {x : Except Fault α} {k : α → Except Fault β} (hx : FailsIn S x)
    (hk : ∀ a, x = .ok a → FailsIn S (k a)) : FailsIn S (x >>= k) := by
  cases x with
  | ok a => exact hk a rfl
  | error f => exact failsIn_error (hx f rfl)

theorem failsIn_require {p : Prop} [Decidable p] {f : Fault} (hf : S f) :
    FailsIn S (Fault.require p f) := by
  unfold Fault.require
  split
  · exact failsIn_ok ()
  · exact failsIn_error hf

theorem failsIn_orElse {f : Fault} (hf : S f) (o : Option α) : FailsIn S (f.orElse o) := by
  cases o with
  | none => exact failsIn_error hf
  | some a => exact failsIn_ok a

theorem failsIn_foldlM {step : β → α → Except Fault β} (hstep : ∀ b a, FailsIn S (step b a))
    (b : β) (l : List α) : FailsIn S (l.foldlM step b) := by
  induction l generalizing b with
  | nil => exact failsIn_ok b
  | cons a rest ih => exact (hstep b a).bind fun b' _ => ih b'

end FailsIn

def Fault.Reports (f : Fault) : Prop := ∃ offset damage, f = .corrupt offset damage

theorem Fault.reports_corrupt (offset : Nat) (damage : Damage) :
    (Fault.corrupt offset damage).Reports :=
  ⟨offset, damage, rfl⟩

namespace Region

variable {r : Region} {c d offset fuel hops : Nat} {t : Tag}

theorem read32_of_admits (h : r.Admits offset 4) : ∃ w, r.read32 offset = .ok w :=
  ⟨_, if_pos h⟩

theorem read64_of_admits (h : r.Admits offset 8) : ∃ w, r.read64 offset = .ok w :=
  ⟨_, if_pos h⟩

theorem failsIn_tagAt_here (r : Region) (c : Nat) :
    FailsIn (fun f => ∃ damage, f = .corrupt c damage) (r.tagAt c) := by
  unfold tagAt
  refine (failsIn_require ⟨_, rfl⟩).bind fun _ hplace => ?_
  obtain ⟨hgrid, hroom⟩ := Fault.require_eq_ok_iff.1 hplace
  simp only [granule, minChunk] at hgrid hroom
  have hhead : r.Admits c 8 := ⟨by omega, show c + 8 ≤ r.len by omega⟩
  obtain ⟨w, hw⟩ := read64_of_admits hhead
  rw [Fault.bind_ok hw]
  refine (failsIn_orElse ⟨_, rfl⟩ _).bind fun header _ => ?_
  refine (failsIn_require ⟨_, rfl⟩).bind fun _ hsize => ?_
  obtain ⟨hmin, hgrain, hend⟩ := Fault.require_eq_ok_iff.1 hsize
  simp only [granule, minChunk] at hmin hgrain
  have hfoot : r.Admits (c + header.size - tagBytes) 8 := by
    simp only [tagBytes]
    exact ⟨by omega, show c + header.size - 8 + 8 ≤ r.len by omega⟩
  obtain ⟨w, hw⟩ := read64_of_admits hfoot
  rw [Fault.bind_ok hw]
  refine (failsIn_orElse ⟨_, rfl⟩ _).bind fun footer _ => ?_
  exact (failsIn_require ⟨_, rfl⟩).bind fun _ _ => failsIn_ok header

theorem failsIn_tagAt (r : Region) (c : Nat) : FailsIn Fault.Reports (r.tagAt c) :=
  (failsIn_tagAt_here r c).mono fun _ hf => ⟨c, hf⟩

theorem failsIn_below (hc : c % 16 = 0) (hlen : c ≤ r.len) :
    FailsIn Fault.Reports (r.below c) := by
  unfold below
  split
  · exact failsIn_ok none
  · have hfoot : r.Admits (c - tagBytes) 8 := by
      refine ⟨by simp only [tagBytes]; omega, ?_⟩
      show c - tagBytes + 8 ≤ r.len
      simp only [tagBytes]
      omega
    obtain ⟨w, hw⟩ := read64_of_admits hfoot
    rw [Fault.bind_ok hw]
    apply (failsIn_orElse (Fault.reports_corrupt _ _) _).bind
    intro footer _
    apply (failsIn_require (Fault.reports_corrupt _ _)).bind
    intro _ _
    apply (failsIn_tagAt r _).bind
    intro header _
    exact (failsIn_require (Fault.reports_corrupt _ _)).bind fun _ _ => failsIn_ok _

end Region

/-- Run from `s`, the program ends in a value as `Q` says or in a fault as `E` says. -/
def Meets (m : EStateM Fault σ α) (s : σ) (Q : α → σ → Prop) (E : Fault → σ → Prop) : Prop :=
  match m s with
  | .ok a t => Q a t
  | .error f t => E f t

section Meets

variable {σ : Type} {s t : σ} {Q Q' : α → σ → Prop} {R : β → σ → Prop} {E E' : Fault → σ → Prop}
  {m : EStateM Fault σ α}

theorem meets_of_ok {a : α} (hm : m s = .ok a t) (h : Q a t) : Meets m s Q E := by
  rw [Meets, hm]
  exact h

theorem meets_of_error {f : Fault} (hm : m s = .error f t) (h : E f t) : Meets m s Q E := by
  rw [Meets, hm]
  exact h

theorem meets_pure {a : α} (h : Q a s) : Meets (pure a) s Q E := h

theorem meets_throw {f : Fault} (h : E f s) : Meets (throw f : EStateM Fault σ α) s Q E := h

theorem Meets.mono (h : Meets m s Q E) (hQ : ∀ a t, Q a t → Q' a t)
    (hE : ∀ f t, E f t → E' f t) : Meets m s Q' E' := by
  unfold Meets at *
  split at h
  next a t hm => exact hQ a t h
  next f t hm => exact hE f t h

theorem Meets.imp (h : Meets m s Q E) (hQ : ∀ a t, Q a t → Q' a t) : Meets m s Q' E :=
  h.mono hQ fun _ _ he => he

theorem Meets.and (h : Meets m s Q E) (h' : Meets m s Q' E') :
    Meets m s (fun a t => Q a t ∧ Q' a t) fun f t => E f t ∧ E' f t := by
  unfold Meets at *
  cases hm : m s with
  | ok a t =>
    rw [hm] at h h'
    exact ⟨h, h'⟩
  | error f t =>
    rw [hm] at h h'
    exact ⟨h, h'⟩

theorem meets_after {k : α → EStateM Fault σ β} {a : α} (hm : m s = .ok a t)
    (hk : Meets (k a) t R E) : Meets (m >>= k) s R E := by
  rw [Meets, bind_ok hm]
  exact hk

theorem Meets.bind {k : α → EStateM Fault σ β} (h : Meets m s Q E)
    (hk : ∀ a t, Q a t → Meets (k a) t R E) : Meets (m >>= k) s R E := by
  unfold Meets at h
  split at h
  next a t hm => exact meets_after hm (hk a t h)
  next f t hm =>
    refine meets_of_error (f := f) (t := t) ?_ h
    simp only [Bind.bind, EStateM.bind, hm]

end Meets

namespace Store

variable {s : Store} {R : α → Store → Prop} {E : Fault → Store → Prop}

theorem meets_reading {f : Region → Except Fault α} (hok : ∀ a, f s.region = .ok a → R a s)
    (herror : ∀ e, f s.region = .error e → E e s) : Meets (reading f) s R E := by
  cases hf : f s.region with
  | ok a => exact meets_of_ok (reading_eq hf) (hok a hf)
  | error e =>
    refine meets_of_error (f := e) (t := s) ?_ (herror e hf)
    simp only [reading, hf]

theorem meets_check {p : Prop} [Decidable p] {f : Fault} {R : Unit → Store → Prop}
    (hok : p → R () s) (herror : ¬p → E f s) : Meets (check p f) s R E := by
  by_cases hp : p
  · exact meets_of_ok (check_eq hp f) (hok hp)
  · exact meets_of_error (if_neg hp) (herror hp)

end Store

namespace Heap

variable {σ : Session} {Q : α → Store → Prop} {E : Fault → Store → Prop}

def OfStore (Q : α → Store → Prop) : α → Session → Prop := fun a σ => Q a σ.heap.store

theorem meets_lift {m : StoreM α} (h : Meets m σ.heap.store Q E) :
    Meets (liftM m : HeapM α) σ (OfStore Q) (OfStore E) := by
  obtain ⟨⟨store, live, lastSize, counters⟩, journal⟩ := σ
  show Meets (onStore m) _ _ _
  unfold Meets at *
  simp only at h
  cases hm : m store with
  | ok a t =>
    rw [hm] at h
    simp only [onStore, hm]
    exact h
  | error f t =>
    rw [hm] at h
    simp only [onStore, hm]
    exact h

end Heap

end BoundaryHeap
