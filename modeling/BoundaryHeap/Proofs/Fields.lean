import BoundaryHeap.Proofs.Bytes
import BoundaryHeap.Store.Lists

namespace BoundaryHeap

open Region (Changed linkBytesOf)

theorem bind_ok {x : EStateM ε σ α} {k : α → EStateM ε σ β} {s t : σ} {a : α}
    (h : x s = .ok a t) : (x >>= k) s = k a t := by
  simp only [bind, EStateM.bind, h]

/-- The chunk at `c` is on the grid and its links are inside the region. -/
def Region.Holds (r : Region) (c : Nat) : Prop :=
  c % 16 = 0 ∧ c + 16 ≤ r.len

theorem Region.Holds.of_len {r r' : Region} {c : Nat} (h : r.Holds c) (hr : r'.len = r.len) :
    r'.Holds c :=
  ⟨h.1, hr ▸ h.2⟩

def Linkable (n : Option Nat) : Prop :=
  ∀ c, n = some c → c < 0x80000000

theorem linkable_some {c : Nat} (h : c < 0x80000000) : Linkable (some c) := by
  intro d hd
  cases hd
  exact h

namespace Referrer

/-- The field is a head, or it belongs to a chunk that the region holds. -/
def Inside (r : Region) : Referrer → Prop
  | .head _ => True
  | .next c => r.Holds c

def Below (limit : Nat) : Referrer → Prop
  | .head _ => True
  | .next c => c < limit

theorem Below.mono {f : Referrer} {m n : Nat} (h : f.Below m) (hle : m ≤ n) : f.Below n := by
  cases f with
  | head l => trivial
  | next c => exact Nat.lt_of_lt_of_le h hle

theorem Inside.below {r : Region} {f : Referrer} (h : f.Inside r) : f.Below r.len := by
  cases f with
  | head l => trivial
  | next c =>
    have hend : c + 16 ≤ r.len := h.2
    show c < r.len
    omega

theorem Below.decode_encode {f : Referrer} (h : f.Below headFlag) : decode f.encode = some f := by
  cases f with
  | head l => exact decode_encode_head l
  | next c => exact decode_encode_next h

theorem decode_encode {r : Region} {f : Referrer} (h : f.Inside r) (hlen : r.len ≤ headFlag) :
    decode f.encode = some f :=
  (h.below.mono hlen).decode_encode

/-- The field behind the chunks `xs`, when `f` refers to the first of them. -/
def along (f : Referrer) (xs : List Nat) : Referrer :=
  match xs.getLast? with
  | none => f
  | some c => .next c

@[simp] theorem along_cons (f : Referrer) (c : Nat) (xs : List Nat) :
    f.along (c :: xs) = (next c).along xs := by
  cases xs with
  | nil => rfl
  | cons d rest => simp only [along, List.getLast?_cons, Option.getD_some]

theorem along_eq (f : Referrer) (xs : List Nat) :
    (xs = [] ∧ f.along xs = f) ∨ ∃ c, xs.getLast? = some c ∧ c ∈ xs ∧ f.along xs = .next c := by
  rcases h : xs.getLast? with _ | c
  · exact .inl ⟨List.getLast?_eq_none_iff.1 h, by simp only [along, h]⟩
  · exact .inr ⟨c, rfl, List.mem_of_getLast? h, by simp only [along, h]⟩

theorem getLast?_of_along_eq {l : ListId} {xs : List Nat} {c : Nat}
    (h : (head l).along xs = next c) : xs.getLast? = some c := by
  rcases (head l).along_eq xs with ⟨-, he⟩ | ⟨d, hd, -, he⟩
  · rw [he] at h
    cases h
  · rw [he] at h
    cases h
    exact hd

theorem head_of_along_eq {l l' : ListId} {xs : List Nat} (h : (head l).along xs = head l') :
    l' = l := by
  rcases (head l).along_eq xs with ⟨-, he⟩ | ⟨d, -, -, he⟩
  · rw [he] at h
    cases h
    rfl
  · rw [he] at h
    cases h

def bytes : Referrer → Set Nat
  | .head _ => ∅
  | .next c => linkBytesOf {c}

theorem bytes_along (l : ListId) (xs : List Nat) :
    ((head l).along xs).bytes = linkBytesOf {d | xs.getLast? = some d} := by
  rcases (head l).along_eq xs with ⟨rfl, he⟩ | ⟨d, hd, -, he⟩
  · rw [he]
    ext i
    simp [bytes, Region.mem_linkBytesOf]
  · rw [he, hd]
    ext i
    simp [bytes, Region.mem_linkBytesOf]

end Referrer

namespace Store

variable {s t : Store}

def targetAt (s : Store) : Referrer → Option Nat
  | .head l => s.heads.get l
  | .next c => s.region.nextAt c

def referrerAt (s : Store) (c : Nat) : UInt32 :=
  s.region.referrerAt c

def putTarget (s : Store) : Referrer → Option Nat → Store
  | .head l, n => { s with heads := s.heads.set l n }
  | .next c, n => { s with region := s.region.putNat (c + 8) 4 (linkWord n).toNat }

def putReferrer (s : Store) (c : Nat) (w : UInt32) : Store :=
  { s with region := s.region.putNat (c + 12) 4 w.toNat }

/-- The store in which the chunk, if there is one, names the field `f`. -/
def tell (s : Store) (f : Referrer) : Option Nat → Store
  | some c => s.putReferrer c f.encode
  | none => s

theorem target_eq {f : Referrer} (h : f.Inside s.region) : target f s = .ok (s.targetAt f) s := by
  cases f with
  | head l => rfl
  | next c => simp only [target, reading, Region.nextOf_eq h.1 h.2, targetAt]

theorem setNext_eq {c : Nat} (h : s.region.Holds c) (n : Option Nat) :
    setNext c n s = .ok () (s.putTarget (.next c) n) := by
  have hadmits : s.region.Admits (c + 8) 4 := by
    obtain ⟨hgrid, hend⟩ := h
    refine ⟨by omega, ?_⟩
    show c + 8 + 4 ≤ s.region.len
    omega
  exact if_pos hadmits

theorem setTarget_eq {f : Referrer} (h : f.Inside s.region) (n : Option Nat) :
    setTarget f n s = .ok () (s.putTarget f n) := by
  cases f with
  | head l => rfl
  | next c => exact setNext_eq h n

theorem setReferrerWord_eq {c : Nat} (h : s.region.Holds c) (w : UInt32) :
    setReferrerWord c w s = .ok () (s.putReferrer c w) := by
  have hadmits : s.region.Admits (c + 12) 4 := by
    obtain ⟨hgrid, hend⟩ := h
    refine ⟨by omega, ?_⟩
    show c + 12 + 4 ≤ s.region.len
    omega
  exact if_pos hadmits

theorem setReferrer_eq {n : Option Nat} (h : ∀ c, n = some c → s.region.Holds c) (f : Referrer) :
    setReferrer f n s = .ok () (s.tell f n) := by
  cases n with
  | none => rfl
  | some c => exact setReferrerWord_eq (h c rfl) _

theorem targetAt_changed {S : Set Nat} {c : Nat} (hr : Changed S s.region t.region)
    (hS : ∀ i, c + 8 ≤ i → i < c + 8 + 4 → i ∉ S) : t.targetAt (.next c) = s.targetAt (.next c) := by
  rw [targetAt, targetAt, Region.nextAt, Region.nextAt, hr.natAt hS]

theorem referrerAt_changed {S : Set Nat} {c : Nat} (hr : Changed S s.region t.region)
    (hS : ∀ i, c + 12 ≤ i → i < c + 12 + 4 → i ∉ S) : t.referrerAt c = s.referrerAt c := by
  rw [referrerAt, referrerAt, Region.referrerAt, Region.referrerAt, hr.natAt hS]

@[simp] theorem len_putTarget (f : Referrer) (n : Option Nat) :
    (s.putTarget f n).region.len = s.region.len := by
  cases f with
  | head l => rfl
  | next c => simp only [putTarget, Region.len_putNat]

@[simp] theorem len_putReferrer (c : Nat) (w : UInt32) :
    (s.putReferrer c w).region.len = s.region.len := by
  simp only [putReferrer, Region.len_putNat]

@[simp] theorem len_tell (f : Referrer) (n : Option Nat) :
    (s.tell f n).region.len = s.region.len := by
  cases n with
  | none => rfl
  | some c => exact len_putReferrer ..

theorem changed_putTarget (f : Referrer) (n : Option Nat) :
    Changed f.bytes s.region (s.putTarget f n).region := by
  cases f with
  | head l => exact .refl ..
  | next c =>
    simp only [putTarget]
    refine (Region.changed_putNat (c + 8) 4 _).mono fun i hi => ?_
    rw [Set.mem_Ico] at hi
    exact Region.mem_linkBytesOf.2 ⟨c, rfl, by omega, by omega⟩

theorem changed_putReferrer (c : Nat) (w : UInt32) :
    Changed (linkBytesOf {c}) s.region (s.putReferrer c w).region := by
  simp only [putReferrer]
  refine (Region.changed_putNat (c + 12) 4 _).mono fun i hi => ?_
  rw [Set.mem_Ico] at hi
  exact Region.mem_linkBytesOf.2 ⟨c, rfl, by omega, by omega⟩

theorem changed_tell (f : Referrer) (n : Option Nat) :
    Changed (linkBytesOf {c | n = some c}) s.region (s.tell f n).region := by
  cases n with
  | none => exact .refl ..
  | some c =>
    refine (changed_putReferrer c f.encode).mono (Region.linkBytesOf_mono ?_)
    rintro d rfl
    rfl

theorem targetAt_putTarget_same {f : Referrer} (h : f.Inside s.region) {n : Option Nat}
    (hn : Linkable n) : (s.putTarget f n).targetAt f = n := by
  cases f with
  | head l => simp [putTarget, targetAt, Heads.get_set]
  | next c =>
    have hspan : s.region.Spans (c + 8) 4 := by
      have hend := h.2
      show c + 8 + 4 ≤ s.region.len
      omega
    have hword := (linkWord n).toNat_lt
    have hmod : (linkWord n).toNat % Nat.pow 256 4 = (linkWord n).toNat :=
      Nat.mod_eq_of_lt (by simpa using hword)
    simp only [putTarget, targetAt, Region.nextAt, Region.natAt_putNat_same _ hspan, hmod,
      UInt32.ofNat_toNat]
    exact linkOfWord_linkWord hn

theorem targetAt_putTarget_ne {r q : Region} {f g : Referrer} (hf : f.Inside r) (hg : g.Inside q)
    (h : f ≠ g) (n : Option Nat) : (s.putTarget g n).targetAt f = s.targetAt f := by
  cases g with
  | head l =>
    cases f with
    | head l' =>
      have hl : l' ≠ l := fun he => h (congrArg Referrer.head he)
      simp [putTarget, targetAt, Heads.get_set, hl]
    | next c => simp only [putTarget, targetAt]
  | next d =>
    cases f with
    | head l => simp only [putTarget, targetAt]
    | next c =>
      have hne : c ≠ d := fun he => h (congrArg Referrer.next he)
      have hc := hf.1
      have hd := hg.1
      simp only [putTarget, targetAt, Region.nextAt]
      rw [Region.natAt_putNat_disjoint (by omega)]

theorem referrerAt_putTarget {r q : Region} {f : Referrer} (hf : f.Inside r) {c : Nat}
    (hc : q.Holds c) (n : Option Nat) : (s.putTarget f n).referrerAt c = s.referrerAt c := by
  cases f with
  | head l => rfl
  | next d =>
    have hgrid := hc.1
    have hd := hf.1
    simp only [putTarget, referrerAt, Region.referrerAt]
    rw [Region.natAt_putNat_disjoint (by omega)]

theorem targetAt_putReferrer {r q : Region} {f : Referrer} (hf : f.Inside r) {c : Nat}
    (hc : q.Holds c) (w : UInt32) : (s.putReferrer c w).targetAt f = s.targetAt f := by
  cases f with
  | head l => simp only [putReferrer, targetAt]
  | next d =>
    have hgrid := hc.1
    have hd := hf.1
    simp only [putReferrer, targetAt, Region.nextAt]
    rw [Region.natAt_putNat_disjoint (by omega)]

theorem referrerAt_putReferrer_same {c : Nat} (h : s.region.Holds c) (w : UInt32) :
    (s.putReferrer c w).referrerAt c = w := by
  have hspan : s.region.Spans (c + 12) 4 := by
    have hend := h.2
    show c + 12 + 4 ≤ s.region.len
    omega
  have hmod : w.toNat % Nat.pow 256 4 = w.toNat := Nat.mod_eq_of_lt (by simpa using w.toNat_lt)
  simp only [putReferrer, referrerAt, Region.referrerAt, Region.natAt_putNat_same _ hspan, hmod,
    UInt32.ofNat_toNat]

theorem referrerAt_putReferrer_ne {r q : Region} {c d : Nat} (hc : r.Holds c) (hd : q.Holds d)
    (h : d ≠ c) (w : UInt32) : (s.putReferrer c w).referrerAt d = s.referrerAt d := by
  have hgrid := hc.1
  have hgrid' := hd.1
  simp only [putReferrer, referrerAt, Region.referrerAt]
  rw [Region.natAt_putNat_disjoint (by omega)]

theorem targetAt_tell {r q : Region} {f g : Referrer} (hf : f.Inside r) {n : Option Nat}
    (hn : ∀ c, n = some c → q.Holds c) : (s.tell g n).targetAt f = s.targetAt f := by
  cases n with
  | none => rfl
  | some c => exact targetAt_putReferrer hf (hn c rfl) _

theorem referrerAt_tell_same {c : Nat} (h : s.region.Holds c) (f : Referrer) :
    (s.tell f (some c)).referrerAt c = f.encode :=
  referrerAt_putReferrer_same h _

theorem referrerAt_tell_ne {r q : Region} {f : Referrer} {n : Option Nat}
    (hn : ∀ c, n = some c → q.Holds c) {d : Nat} (hd : r.Holds d) (h : n ≠ some d) :
    (s.tell f n).referrerAt d = s.referrerAt d := by
  cases n with
  | none => rfl
  | some c => exact referrerAt_putReferrer_ne (hn c rfl) hd (fun he => h (congrArg some he.symm)) _

end Store

end BoundaryHeap
