import BoundaryHeap.Proofs.Accounting
import BoundaryHeap.Proofs.Partition
import BoundaryHeap.Proofs.Refinement
import BoundaryHeap.Proofs.Refusals

namespace BoundaryHeap

namespace Shape

variable {A B : Shape} {c size : Nat} {owner : Owner}

/-- A search in `A` cuts the chunk at `c` in `B`, where nothing is recent. -/
structure CutsIn (A : Shape) (size c : Nat) (B : Shape) : Prop where
  settled : B.Settled
  len : B.len = A.len
  recent : B.lists .recent = []
  fits : B.Clean c ∧ size ≤ B.sizeAt c
  search : ∀ last, A.search last size = (some c, (B.unlist c).cutDown last c size)

theorem Settled.takeRecent_eq_none_iff (h : A.Settled) :
    (A.takeRecent size).1 = none ↔ A.Lacks .recent (· = size) := by
  constructor
  · intro hnone
    rw [← exactIn_eq_none_iff]
    by_contra hsome
    obtain ⟨c, hc⟩ := Option.ne_none_iff_exists'.1 hsome
    obtain ⟨hsize, misses, rest, hl, hmisses⟩ := List.find?_eq_some_iff_append.1 hc
    have htake := h.takeRecent_eq hl (fun d hd => by simpa using hmisses d hd) (by simpa using hsize)
    rw [htake] at hnone
    cases hnone
  · intro hmiss
    rw [h.takeRecent_flush hmiss]

theorem len_flush : A.flush.len = A.len :=
  len_demoteAll _

theorem Settled.cutsIn_flush (h : A.Settled) (hexact : A.Exhausted size)
    (hfind : A.flush.findFitting size = some c) : A.CutsIn size c A.flush := by
  refine ⟨h.flush, len_flush, h.recent_flush, findFitting_some hfind, fun last => ?_⟩
  rw [h.search_exhausted hexact, cutFitting_of_some hfind]

theorem Settled.cutsIn_mergeAll (h : A.Settled) (hexact : A.Exhausted size)
    (hnone : A.flush.findFitting size = none)
    (hfind : A.flush.mergeAll.findFitting size = some c) : A.CutsIn size c A.flush.mergeAll := by
  obtain ⟨hmerged, hlen, hempty⟩ := h.flush.mergeAll
  refine ⟨hmerged, hlen.trans len_flush, hempty _ rfl, findFitting_some hfind, fun last => ?_⟩
  rw [h.search_exhausted hexact, cutFitting_of_none hnone]
  exact cutFitting_of_some hfind

end Shape

namespace Heap

open Store (takeRecentHead takeDirty takeRecent findFitting)

variable {h : Heap} {A : Shape} {c size : Nat} {s : Store}

/-- The search finds no chunk in the caches and on the dirty lists, and goes on in the store `s`. -/
def PassesCaches (h : Heap) (size : Nat) (s : Store) : Prop :=
  ∃ s₁ s₂, takeRecentHead size h.store = .ok none s₁ ∧ takeDirty h.fuel size s₁ = .ok none s₂ ∧
    takeRecent size h.fuel h.fuel s₂ = .ok none s

/-- The search finds the remainder or a clean chunk, at once or after a merge. It begins at `c`, and
`s` is the store in which it is cut. -/
inductive ReachesCut (h : Heap) (size c : Nat) : Store → Prop
  | atOnce {s : Store} (hpass : h.PassesCaches size s)
      (hfind : findFitting h.fuel size s = .ok (some c) s) : ReachesCut h size c s
  | merged {s₀ s : Store} {counts : Nat × Nat} (hpass : h.PassesCaches size s₀)
      (hnone : findFitting h.fuel size s₀ = .ok none s₀)
      (hmerge : Store.mergeAll h.fuel s₀ = .ok counts s)
      (hfind : findFitting h.fuel size s = .ok (some c) s) : ReachesCut h size c s

theorem Intact.of_passesCaches (hi : h.Intact A) (hpass : h.PassesCaches size s) :
    A.Exhausted size ∧ s.Represents A.flush := by
  obtain ⟨s₁, s₂, hhead, hdirty, hrecent⟩ := hpass
  have hA := hi.settled
  obtain ⟨hmiss, hs₁⟩ := (Store.Takes.takeRecentHead hA.valid size).of_ok hi.store hhead
  rw [← hmiss] at hs₁
  obtain ⟨hmiss', hs₂⟩ := (Store.Takes.takeDirty hA.valid hi.fuel size).of_ok hs₁ hdirty
  rw [← hmiss'] at hs₂
  have hlength := (hA.valid.length_le .recent).trans_lt hi.fuel
  obtain ⟨hnone, hs⟩ := (Store.Takes.takeRecent hA hi.fuel hlength size).of_ok hs₂ hrecent
  have hlacks := hA.takeRecent_eq_none_iff.1 hnone.symm
  rw [hA.takeRecent_flush hlacks] at hs
  exact ⟨⟨Shape.recentHead_eq_none_iff.1 hmiss.symm, Shape.exactIn_eq_none_iff.1 hmiss'.symm, hlacks⟩,
    hs⟩

theorem Intact.of_reachesCut (hi : h.Intact A) (hcut : h.ReachesCut size c s) :
    ∃ B, s.Represents B ∧ A.CutsIn size c B := by
  have hA := hi.settled
  have hfuel : A.flush.len / minChunk < h.fuel := by
    rw [Shape.len_flush]
    exact hi.fuel
  cases hcut with
  | atOnce hpass hfind =>
    obtain ⟨hexact, hs⟩ := hi.of_passesCaches hpass
    obtain ⟨hfound, -⟩ := (Store.Takes.findFitting hA.flush.valid hfuel size).of_ok hs hfind
    exact ⟨_, hs, hA.cutsIn_flush hexact hfound.symm⟩
  | merged hpass hnone hmerge hfind =>
    obtain ⟨hexact, hs₀⟩ := hi.of_passesCaches hpass
    obtain ⟨hmissed, -⟩ := (Store.Takes.findFitting hA.flush.valid hfuel size).of_ok hs₀ hnone
    obtain ⟨hmerged, hlen, -⟩ := hA.flush.mergeAll
    obtain ⟨-, hs⟩ := (Store.Takes.mergeAll hA.flush hfuel).of_ok hs₀ hmerge
    obtain ⟨hfound, -⟩ := (Store.Takes.findFitting hmerged.valid (hlen ▸ hfuel) size).of_ok hs hfind
    exact ⟨_, hs, hA.cutsIn_mergeAll hexact hmissed.symm hfound.symm⟩

theorem Intact.passesCaches (hi : h.Intact A) (hexact : A.Exhausted size) :
    ∃ s, h.PassesCaches size s ∧ s.Represents A.flush := by
  have hA := hi.settled
  have hhead := Store.Takes.takeRecentHead hA.valid size
  have hdirty := Store.Takes.takeDirty hA.valid hi.fuel size
  have hrecent := Store.Takes.takeRecent hA hi.fuel
    ((hA.valid.length_le .recent).trans_lt hi.fuel) size
  rw [Shape.recentHead_eq_none_iff.2 hexact.head] at hhead
  rw [Shape.exactIn_eq_none_iff.2 hexact.dirty] at hdirty
  rw [hA.takeRecent_flush hexact.recent] at hrecent
  obtain ⟨s₁, hrun₁, hs₁, -⟩ := hhead.run h.store hi.store
  obtain ⟨s₂, hrun₂, hs₂, -⟩ := hdirty.run s₁ hs₁
  obtain ⟨s₃, hrun₃, hs₃, -⟩ := hrecent.run s₂ hs₂
  exact ⟨s₃, ⟨s₁, s₂, hrun₁, hrun₂, hrun₃⟩, hs₃⟩

/-- A search that finds nothing to hand out as it is comes to the cut of what it finds then. -/
theorem Intact.reachesCut (hi : h.Intact A) (hexact : A.Exhausted size)
    (hfind : A.flush.findFitting size = some c ∨
      (A.flush.findFitting size = none ∧ A.flush.mergeAll.findFitting size = some c)) :
    ∃ s, h.ReachesCut size c s := by
  obtain ⟨s, hpass, hs⟩ := hi.passesCaches hexact
  have hA := hi.settled.flush
  have hfuel : A.flush.len / minChunk < h.fuel := by
    rw [Shape.len_flush]
    exact hi.fuel
  have hfirst := Store.Takes.findFitting hA.valid hfuel size
  rcases hfind with hfind | ⟨hnone, hfind⟩
  · rw [hfind] at hfirst
    exact ⟨s, .atOnce hpass ((Store.Idle.findFitting h.fuel size).stays hfirst hs)⟩
  · obtain ⟨hmerged, hlen, -⟩ := hA.mergeAll
    obtain ⟨t, hmerge, ht, -⟩ := (Store.Takes.mergeAll hA hfuel).run s hs
    have hsecond := Store.Takes.findFitting hmerged.valid (hlen ▸ hfuel) size
    rw [hnone] at hfirst
    rw [hfind] at hsecond
    exact ⟨t, .merged hpass ((Store.Idle.findFitting h.fuel size).stays hfirst hs) hmerge
      ((Store.Idle.findFitting h.fuel size).stays hsecond ht)⟩

end Heap

namespace World

open Heap (ReachesCut)

variable {w : World} {A B C : Shape} {a : Action} {actions : List Action}
  {base c k request size : Nat} {last : Option Nat} {owner : Owner} {s : Store}

/-- The chunk size that the action is served with, if it is a request and is served. -/
def servedSize (w : World) (a : Action) : Option Nat :=
  match a with
  | .allocate request _ => if w.serves a then chunkSize? request else none
  | _ => none

def lastServed : World → List Action → Option Nat
  | _, [] => none
  | w, a :: rest => (lastServed (w.step a) rest).or (w.servedSize a)

theorem Tracks.lastSize_allocate (hw : w.Tracks A) (request : Nat) (owner : Owner) :
    (w.step (.allocate request owner)).heap.lastSize =
      (w.servedSize (.allocate request owner)).getD w.heap.lastSize := by
  have hi := hw.intact
  rw [heap_step_allocate, servedSize, serves, answer, isOk_map]
  rcases hi.fits_or_large request with ⟨size, hreq, hfit⟩ | hlarge
  · rcases hsearch : A.search w.heap.lastSize size with ⟨_ | c, B⟩
    · obtain ⟨s', hrun, -⟩ := hi.allocate_refused hreq hfit hsearch owner
      rw [hrun.run.1, hrun.run.2]
      rfl
    · obtain ⟨s', hrun, -⟩ := hi.allocate_served hreq hfit hsearch owner
      rw [hrun.run.1, hrun.run.2, hreq]
      rfl
  · have hrun := Heap.Fails.allocate_large hlarge owner
    rw [hrun.run.1, hrun.run.2]
    rfl

theorem Tracks.lastSize_step (hw : w.Tracks A) (a : Action) :
    (w.step a).heap.lastSize = (w.servedSize a).getD w.heap.lastSize := by
  cases a with
  | allocate request owner => exact hw.lastSize_allocate request owner
  | release addr =>
    rw [heap_step_release]
    cases addr with
    | none =>
      rw [(Heap.Does.release_none _).run.2]
      rfl
    | some addr =>
      rcases hw.intact.release_ends addr with ⟨reason, hrun⟩ | ⟨s', c, t, -, hrun, -⟩
      · rw [hrun.run.2]
        rfl
      · rw [hrun.run.2]
        rfl
  | merge =>
    obtain ⟨s', hrun, -⟩ := hw.intact.merge
    rw [heap_step_merge, hrun.run.2]
    rfl
  | usableSize addr => exact congrArg Heap.lastSize (heap_step_reading rfl)
  | ownedBy owner => exact congrArg Heap.lastSize (heap_step_reading rfl)
  | stats => exact congrArg Heap.lastSize (heap_step_reading rfl)
  | audit => exact congrArg Heap.lastSize (heap_step_reading rfl)
  | dump limit => exact congrArg Heap.lastSize (heap_step_reading rfl)
  | write addr b =>
    rw [World.step]
    split
    · rfl
    · rfl

theorem Tracks.lastSize_after (hw : w.Tracks A) (actions : List Action) :
    (w.after actions).heap.lastSize = (w.lastServed actions).getD w.heap.lastSize := by
  induction actions generalizing w A with
  | nil => rfl
  | cons a rest ih =>
    obtain ⟨B, hB, -⟩ := hw.step a
    have hrest : (w.after (a :: rest)).heap.lastSize = _ := ih hB
    rw [hrest, hw.lastSize_step, lastServed, Option.getD_or]

/-- The calls of the run are requests for chunks of `size` bytes and nothing else. Callers may write
to what they hold. -/
def Burst (size : Nat) (actions : List Action) : Prop :=
  ∀ a ∈ actions, a.isCall = true → ∃ request owner, a = .allocate request owner ∧
    chunkSize? request = some size

def outcomes : World → List Action → List (Except Fault Nat)
  | _, [] => []
  | w, .allocate request owner :: rest =>
    (w.heap.run (Heap.allocate request owner)).result ::
      outcomes (w.step (.allocate request owner)) rest
  | w, a :: rest => outcomes (w.step a) rest

end World

namespace Shape

variable {A B C : Shape} {c d n : Nat} {u : Tag} {rest : List Nat} {owner : Owner}

/-- `B` is `A` after its `n` latest recent chunks were handed out. -/
structure Spent (A : Shape) (n : Nat) (B : Shape) : Prop where
  recent : B.lists .recent = (A.lists .recent).drop n
  others : ∀ l, l ≠ .recent → B.lists l = A.lists l
  chunks : ∀ d u, (d, u) ∈ A.chunks → d ∉ (A.lists .recent).take n → (d, u) ∈ B.chunks

theorem Spent.zero (A : Shape) : A.Spent 0 A :=
  ⟨rfl, fun _ _ => rfl, fun _ _ hd _ => hd⟩

theorem Settled.mem_grant_head (h : A.Settled) (hl : A.lists .recent = c :: rest)
    (hd : (d, u) ∈ A.chunks) (hne : d ≠ c) : (d, u) ∈ ((A.unlist c).grant c owner).chunks := by
  obtain ⟨t, ht, -⟩ := h.valid.listed (l := .recent) (c := c) (by simp [hl])
  have hsize : (Tag.live ((A.unlist c).sizeAt c) owner).size = t.size := h.valid.sizeAt_eq ht
  exact ((h.valid.unlist c).mem_retag ht hsize).2 (.inl ⟨hd, hne⟩)

theorem Settled.recent_grant_head (h : A.Settled) (hl : A.lists .recent = c :: rest)
    (owner : Owner) : ((A.unlist c).grant c owner).lists .recent = rest :=
  h.valid.lists_unlist_head hl

theorem Settled.sizeAt_grant_head (h : A.Settled) (hl : A.lists .recent = c :: rest)
    (hd : d ∈ rest) : ((A.unlist c).grant c owner).sizeAt d = A.sizeAt d := by
  have hnodup := h.valid.distinct.nodup .recent
  rw [hl, List.nodup_cons] at hnodup
  have hne : d ≠ c := ne_of_mem_of_not_mem hd hnodup.1
  obtain ⟨u, hu, -⟩ := h.valid.listed (l := .recent) (c := d) (by simp [hl, hd])
  have hlisted : A.Listed c := ⟨.recent, by simp [hl]⟩
  have hgranted := ((h.take hlisted).grant owner).valid
  rw [hgranted.sizeAt_eq (h.mem_grant_head hl hu hne), h.valid.sizeAt_eq hu]

theorem Spent.succ (hA : A.Settled) (hl : A.lists .recent = c :: rest)
    (h : ((A.unlist c).grant c owner).Spent n B) : A.Spent (n + 1) B := by
  have hmem : c ∈ A.lists .recent := by simp [hl]
  have hrecent := hA.recent_grant_head hl owner
  refine ⟨?_, fun l hne => ?_, fun d u hd hnot => ?_⟩
  · rw [h.recent, hrecent, hl]
    rfl
  · rw [h.others l hne]
    exact hA.valid.distinct.without_ne hmem hne
  · rw [hl, List.take_succ_cons, List.mem_cons, not_or] at hnot
    apply h.chunks d u (hA.mem_grant_head hl hd hnot.1)
    rw [hrecent]
    exact hnot.2

end Shape

namespace World

variable {w : World} {A : Shape} {actions : List Action} {c request size : Nat} {owner : Owner}
  {rest : List Nat}

theorem Tracks.grant_recent (hw : w.Tracks A) (hl : A.lists .recent = c :: rest)
    (hsize : A.sizeAt c = size) (hreq : chunkSize? request = some size) (owner : Owner) :
    let a := Action.allocate request owner
    (w.heap.run (Heap.allocate request owner)).result = .ok (w.heap.base + (c + tagBytes)) ∧
      (w.step a).Tracks ((A.unlist c).grant c owner) ∧ (w.step a).heap.base = w.heap.base := by
  intro a
  have hA := hw.intact.settled
  obtain ⟨t, ht, -⟩ := hA.valid.listed (l := .recent) (c := c) (by simp [hl])
  have hfit : size ≤ A.len := by
    have hend := hA.valid.tiles.end_le ht
    rw [← hsize, hA.valid.sizeAt_eq ht]
    omega
  have hhead : A.recentHead size = some c := by
    apply Shape.recentHead_cons hl
    rw [hsize]
    exact ⟨Nat.le_refl _, Nat.lt_add_of_pos_right (by decide)⟩
  have hsearch : A.search w.heap.lastSize size = (some c, A.unlist c) := by
    rw [Shape.search, hhead]
  obtain ⟨h', hserved⟩ := hw.intact.served hreq hfit hsearch owner
  obtain ⟨htracks, hfollows⟩ := hw.granted (a := a) hserved.holding hserved.live
    (finish_ok hserved.run.run) hserved.intact hserved.changed fun _ _ => rfl
  exact ⟨hserved.run.run.1, htracks, hfollows.base⟩

theorem eq_write_of_not_isCall {a : Action} (ha : ¬a.isCall = true) :
    ∃ addr b, a = .write addr b := by
  cases a with
  | write addr b => exact ⟨addr, b, rfl⟩
  | allocate | release | merge | usableSize | ownedBy | stats | audit | dump => exact absurd rfl ha

/-- A burst takes recent chunks of its size one after the other, the latest first. -/
theorem Tracks.burst (hw : w.Tracks A) (hburst : Burst size actions)
    (hsizes : ∀ d ∈ A.lists .recent, A.sizeAt d = size)
    (hcount : actions.countP Action.isCall ≤ (A.lists .recent).length) :
    w.outcomes actions = ((A.lists .recent).take (actions.countP Action.isCall)).map
        (fun d => .ok (w.heap.base + (d + tagBytes))) ∧
      ∃ B, (w.after actions).Tracks B ∧ A.Spent (actions.countP Action.isCall) B := by
  induction actions generalizing w A with
  | nil => exact ⟨rfl, A, hw, .zero A⟩
  | cons a tail ih =>
    have htail : Burst size tail := fun b hb => hburst b (List.mem_cons_of_mem _ hb)
    by_cases hcall : a.isCall = true
    · obtain ⟨request, owner, rfl, hreq⟩ := hburst a (List.mem_cons_self ..) hcall
      have hA := hw.intact.settled
      rw [List.countP_cons_of_pos hcall] at hcount ⊢
      obtain ⟨c, rest, hl⟩ := List.exists_cons_of_length_pos (Nat.zero_lt_of_lt hcount)
      obtain ⟨hresult, htracks, hbase⟩ :=
        hw.grant_recent hl (hsizes c (by simp [hl])) hreq owner
      have hrecent := hA.recent_grant_head hl owner
      have hsizes' : ∀ d ∈ ((A.unlist c).grant c owner).lists .recent,
          ((A.unlist c).grant c owner).sizeAt d = size := by
        rw [hrecent]
        intro d hd
        rw [hA.sizeAt_grant_head hl hd]
        exact hsizes d (by simp [hl, hd])
      rw [hl, List.length_cons] at hcount
      obtain ⟨houtcomes, B, hB, hspent⟩ :=
        ih htracks htail hsizes' (hrecent ▸ Nat.le_of_succ_le_succ hcount)
      refine ⟨?_, B, hB, .succ hA hl hspent⟩
      rw [outcomes, hresult, houtcomes, hrecent, hbase, hl, List.take_succ_cons, List.map_cons]
    · obtain ⟨addr, b, rfl⟩ := eq_write_of_not_isCall hcall
      obtain ⟨htracks, hfollows⟩ := hw.write addr b
      rw [List.countP_cons_of_neg hcall] at hcount ⊢
      obtain ⟨houtcomes, hrest⟩ := ih htracks htail hsizes hcount
      rw [hfollows.base] at houtcomes
      exact ⟨houtcomes, hrest⟩

/-- How many pieces are stocked when a chunk of `total` bytes is cut for `size` bytes, by the size
that was served last. -/
def stockFor (last : Option Nat) (size total : Nat) : Nat :=
  if last = some size then stockable stockCount size (total - size) else 0

/-- The request is served with the chunk that begins at `c` in `B`. If it is cut, the requests that
follow get the pieces, the highest first. -/
structure Carves (w : World) (request : Nat) (owner : Owner) (size c : Nat) (last : Option Nat)
    (B : Shape) : Prop where
  fits : size ≤ B.sizeAt c
  result : (w.heap.run (Heap.allocate request owner)).result = .ok (w.heap.base + (c + tagBytes))
  whole : B.sizeAt c - size < minChunk →
    B.HandsWhole c owner (w.step (.allocate request owner)).heap.view
  parts : minChunk ≤ B.sizeAt c - size → B.Partitions c size (stockFor last size (B.sizeAt c)) owner
    (w.step (.allocate request owner)).heap.view
  burst : minChunk ≤ B.sizeAt c - size → ∀ actions, Burst size actions →
    actions.countP Action.isCall ≤ stockFor last size (B.sizeAt c) →
    let w' := w.step (.allocate request owner)
    w'.outcomes actions =
        ((pieces (c + size) size (stockFor last size (B.sizeAt c))).reverse.take
          (actions.countP Action.isCall)).map (fun x => .ok (w.heap.base + (x.1 + tagBytes))) ∧
      w'.heap.view.Spent (actions.countP Action.isCall) (w'.after actions).heap.view

theorem stockFor_eq (hpos : 0 < size) (hlast : w.heap.lastSize = last.getD 0) (total : Nat) :
    (if size = w.heap.lastSize then stockable stockCount size (total - size) else 0) =
      stockFor last size total := by
  have hiff : size = w.heap.lastSize ↔ last = some size := by
    rw [hlast]
    cases last with
    | none =>
      rw [Option.getD_none]
      exact iff_of_false (Nat.ne_of_gt hpos) (by simp)
    | some n =>
      rw [Option.getD_some, Option.some.injEq]
      exact eq_comm
  rw [stockFor]
  exact if_congr hiff rfl rfl

theorem Tracks.burst_pieces {before after : Shape} (hw : w.Tracks after)
    (hparts : before.Partitions c size k owner after) (hburst : Burst size actions)
    (hcount : actions.countP Action.isCall ≤ k) :
    w.outcomes actions = ((pieces (c + size) size k).reverse.take
        (actions.countP Action.isCall)).map (fun x => .ok (w.heap.base + (x.1 + tagBytes))) ∧
      after.Spent (actions.countP Action.isCall) (w.after actions).heap.view := by
  have hlength : (after.lists .recent).length = k := by
    rw [hparts.recent, List.length_reverse, List.length_map, length_pieces]
  obtain ⟨houtcomes, B, hB, hspent⟩ := hw.burst hburst
    (fun d hd => hparts.sizeAt_recent hw.intact.settled.valid hd) (hlength ▸ hcount)
  rw [hB.intact.view]
  refine ⟨?_, hspent⟩
  rw [houtcomes, hparts.recent, ← List.map_reverse, ← List.map_take, List.map_map]
  rfl

theorem Tracks.carves (hw : w.Tracks A) (hreq : chunkSize? request = some size)
    (hcuts : A.CutsIn size c B) (hlast : w.heap.lastSize = last.getD 0) (owner : Owner) :
    w.Carves request owner size c last B := by
  obtain ⟨hmin, hgrain, -⟩ := chunkSize?_spec hreq
  obtain ⟨hclean, hsize⟩ := hcuts.fits
  obtain ⟨t, ht, -⟩ := hcuts.settled.valid.isFree hclean.listed
  have hfit : size ≤ A.len := by
    have hend := hcuts.settled.valid.tiles.end_le ht
    rw [hcuts.settled.valid.sizeAt_eq ht] at hsize
    rw [← hcuts.len]
    omega
  obtain ⟨h', hserved⟩ := hw.intact.served hreq hfit (hcuts.search w.heap.lastSize) owner
  obtain ⟨htracks, hfollows⟩ := hw.granted (a := .allocate request owner) hserved.holding
    hserved.live (finish_ok hserved.run.run) hserved.intact hserved.changed fun _ _ => rfl
  have hparts : minChunk ≤ B.sizeAt c - size →
      B.Partitions c size (stockFor last size (B.sizeAt c)) owner
        (((B.unlist c).cutDown w.heap.lastSize c size).grant c owner) := by
    intro hlarge
    have hcut : Shape.Cuttable size (B.sizeAt c) :=
      ⟨hmin, hgrain, Nat.add_le_of_le_sub' hsize hlarge⟩
    rw [← stockFor_eq (Nat.lt_of_lt_of_le (by decide) hmin) hlast]
    exact hcuts.settled.partitions hclean hcuts.recent hcut w.heap.lastSize owner
  refine ⟨hsize, hserved.run.run.1, fun hsmall => ?_, fun hlarge => ?_,
    fun hlarge actions hburst hcount => ?_⟩
  · rw [htracks.intact.view]
    exact hcuts.settled.handsWhole hclean.listed hsmall w.heap.lastSize owner
  · rw [htracks.intact.view]
    exact hparts hlarge
  · intro w'
    have hpieces := htracks.burst_pieces (hparts hlarge) hburst hcount
    rw [hfollows.base] at hpieces
    rw [htracks.intact.view]
    exact hpieces

/-- A region is taken over and then called in any way: a request that is served by the remainder or
a clean chunk gets all of it, if the rest would be no chunk, or else partitions it, and a burst of
the same size gets the pieces. -/
theorem run_carves {start : Nat} {bytes : ByteArray} {h : Heap} {journal : List Record}
    (h₀ : Heap.takeOver start bytes = .ok (h, journal)) (actions : List Action)
    (hreq : chunkSize? request = some size)
    (hcut : (World.after ⟨h, []⟩ actions).heap.ReachesCut size c s) (owner : Owner) :
    let w := World.after ⟨h, []⟩ actions
    let B := { w.heap with store := s }.view
    s.Represents B ∧ w.Carves request owner size c (lastServed ⟨h, []⟩ actions) B := by
  intro w B
  obtain ⟨A₀, hA₀⟩ := (Reachable.start h₀).tracks
  obtain ⟨A, hA⟩ := ((Reachable.start h₀).after actions).tracks
  obtain ⟨C, hs, hcuts⟩ := hA.intact.of_reachesCut hcut
  obtain rfl : B = C := Heap.view_of_represents hs
  have hlast := hA₀.lastSize_after actions
  obtain ⟨-, -, hzero, -⟩ := Heap.start_takeOver h₀
  rw [hzero] at hlast
  exact ⟨hs, hA.carves hreq hcuts hlast owner⟩

def spacious : World :=
  match Heap.takeOver 0x1000 ⟨Array.replicate 176 0⟩ with
  | .ok (h, _) => ⟨h, []⟩
  | .error _ => sample

/-- A chunk of 32 bytes is asked for twice. The second request cuts what is left behind the first,
144 bytes, into the chunk that it gets, two pieces and a remainder of 48 bytes. -/
theorem spacious_carves :
    let w := spacious.after [.allocate 16 .kernel]
    (w.step (.allocate 16 .kernel)).heap.view.lists .recent = [96, 64] ∧
      chunkSize? 16 = some 32 ∧ ∃ s, w.heap.ReachesCut 32 32 s ∧
        let B := { w.heap with store := s }.view
        s.Represents B ∧
          w.Carves 16 .kernel 32 32 (spacious.lastServed [.allocate 16 .kernel]) B := by
  intro w
  obtain ⟨hstocked, hrecent, hdirty, hfind⟩ :
      (w.step (.allocate 16 .kernel)).heap.view.lists .recent = [96, 64] ∧
        w.heap.view.lists .recent = [] ∧ w.heap.view.lists (.dirty (sizeClass 32)) = [] ∧
        w.heap.view.flush.findFitting 32 = some 32 := by
    decide +kernel
  refine ⟨hstocked, rfl, ?_⟩
  have hexact : w.heap.view.Exhausted 32 := by
    refine ⟨fun c rest hl => ?_, fun d hd => ?_, fun d hd => ?_⟩
    · rw [hrecent] at hl
      cases hl
    · rw [hdirty] at hd
      cases hd
    · rw [hrecent] at hd
      cases hd
  have hok : (Heap.takeOver 0x1000 ⟨Array.replicate 176 0⟩).isOk = true := by decide +kernel
  revert hexact hfind
  simp only [w]
  unfold spacious
  split
  next h journal h₀ =>
    intro hfind hexact
    obtain ⟨A, hA⟩ := ((Reachable.start h₀).after [.allocate 16 .kernel]).tracks
    rw [hA.intact.view] at hfind hexact
    obtain ⟨s, hs⟩ := hA.intact.reachesCut hexact (.inl hfind)
    exact ⟨s, hs, run_carves h₀ _ rfl hs .kernel⟩
  next f hf =>
    rw [hf] at hok
    cases hok

end World

end BoundaryHeap
