import BoundaryHeap.Proofs.Accounting

namespace BoundaryHeap

open Region (Changed)

namespace Store

variable {s : Store} {A : Shape} {fuel walk size : Nat} {l : ListId}

/-- The program may fail, but it stores nothing. -/
def Idle (m : StoreM α) : Prop :=
  ∀ s, (∃ a, m s = .ok a s) ∨ ∃ f, m s = .error f s

theorem Idle.pure (a : α) : Idle (pure a) :=
  fun _ => .inl ⟨a, rfl⟩

theorem Idle.throw (f : Fault) : Idle (throw f : StoreM α) :=
  fun _ => .inr ⟨f, rfl⟩

theorem Idle.bind {m : StoreM α} {k : α → StoreM β} (hm : Idle m) (hk : ∀ a, Idle (k a)) :
    Idle (m >>= k) := by
  intro s
  rcases hm s with ⟨a, hrun⟩ | ⟨f, hrun⟩
  · rw [bind_ok hrun]
    exact hk a s
  · refine .inr ⟨f, ?_⟩
    simp only [Bind.bind, EStateM.bind, hrun]

theorem Idle.reading (f : Region → Except Fault α) : Idle (reading f) := by
  intro s
  rcases hf : f s.region with e | a
  · refine .inr ⟨e, ?_⟩
    simp only [Store.reading, hf]
  · exact .inl ⟨a, reading_eq hf⟩

theorem Idle.head (l : ListId) : Idle (head l) :=
  fun s => .inl ⟨s.heads.get l, rfl⟩

theorem Idle.sizeOf (c : Nat) : Idle (sizeOf c) :=
  (Idle.reading _).bind fun _ => .pure _

theorem Idle.firstWith (accepts : Nat → Bool) (fuel : Nat) (cur : Option Nat) :
    Idle (firstWith accepts fuel cur) := by
  induction fuel generalizing cur with
  | zero => exact .throw _
  | succ fuel ih =>
    cases cur with
    | none => exact .pure _
    | some c =>
      apply (Idle.sizeOf c).bind
      intro found
      by_cases hfit : accepts found = true
      · rw [if_pos hfit]
        exact .pure _
      · rw [if_neg hfit]
        exact (Idle.reading _).bind ih

theorem Idle.fittingIn (fuel : Nat) (l : ListId) (size : Nat) : Idle (fittingIn fuel l size) :=
  (Idle.head l).bind fun cur => .firstWith _ fuel cur

theorem Idle.fittingInBins (fuel size : Nat) (bins : List (Fin binCount)) :
    Idle (fittingInBins fuel size bins) := by
  induction bins with
  | nil => exact .pure _
  | cons bin bins ih =>
    apply (Idle.fittingIn fuel (.clean bin) size).bind
    intro found
    cases found with
    | none => exact ih
    | some c => exact .pure _

theorem Idle.findFitting (fuel size : Nat) : Idle (findFitting fuel size) := by
  apply (Idle.fittingIn fuel .remainder size).bind
  intro found
  cases found with
  | none => exact .fittingInBins fuel size _
  | some c => exact .pure _

theorem Idle.stays {m : StoreM α} {a : α} {B : Shape} (hm : Idle m) (htakes : Takes m A a B)
    (hs : s.Represents A) : m s = .ok a s := by
  obtain ⟨s', hrun, -⟩ := htakes.run s hs
  rcases hm s with ⟨b, hsame⟩ | ⟨f, hfail⟩
  · obtain ⟨rfl, -⟩ := EStateM.Result.ok.inj (hrun.symm.trans hsame)
    exact hsame
  · cases hrun.symm.trans hfail

theorem takeFirst_none (hl : s.heads.get l = none) : takeFirst l s = .ok none s := by
  have hhead : head l s = .ok none s := by rw [head, hl]
  rw [takeFirst, bind_ok hhead]
  rfl

theorem Merged.takeRecentHead (hs : s.Merged) (size : Nat) :
    takeRecentHead size s = .ok none s := by
  have hhead : head .recent s = .ok none s := by rw [head, hs .recent rfl]
  rw [Store.takeRecentHead, bind_ok hhead]
  rfl

theorem Merged.takeDirty (hs : s.Merged) (hfuel : 0 < fuel) (size : Nat) :
    takeDirty fuel size s = .ok none s := by
  have hhead : head (.dirty (sizeClass size)) s = .ok none s := by rw [head, hs _ rfl]
  have hnone : exactIn fuel (.dirty (sizeClass size)) size s = .ok none s := by
    rw [exactIn, bind_ok hhead]
    cases fuel with
    | zero => exact absurd hfuel (Nat.lt_irrefl 0)
    | succ fuel => rfl
  rw [Store.takeDirty, bind_ok hnone]
  rfl

theorem Merged.takeRecent (hs : s.Merged) (hfuel : 0 < fuel) (size walk : Nat) :
    takeRecent size walk fuel s = .ok none s := by
  cases fuel with
  | zero => exact absurd hfuel (Nat.lt_irrefl 0)
  | succ fuel =>
    rw [Store.takeRecent, bind_ok (takeFirst_none (hs .recent rfl))]
    rfl

theorem Merged.flushRecent (hs : s.Merged) (hfuel : 0 < fuel) (walk : Nat) :
    flushRecent walk fuel s = .ok 0 s := by
  cases fuel with
  | zero => exact absurd hfuel (Nat.lt_irrefl 0)
  | succ fuel =>
    rw [Store.flushRecent, bind_ok (takeFirst_none (hs .recent rfl))]
    rfl

theorem Merged.drain (hs : s.Merged) (hfuel : 0 < fuel) (walk : Nat) (hl : l.kind = .dirty) :
    drain walk l fuel s = .ok 0 s := by
  cases fuel with
  | zero => exact absurd hfuel (Nat.lt_irrefl 0)
  | succ fuel =>
    rw [Store.drain, bind_ok (takeFirst_none (hs l hl))]
    rfl

theorem Merged.drainAll (hs : s.Merged) (hfuel : 0 < fuel) (bins : List (Fin binCount)) :
    drainAll fuel bins s = .ok 0 s := by
  induction bins with
  | nil => rfl
  | cons bin bins ih =>
    rw [Store.drainAll, bind_ok (hs.drain hfuel fuel rfl), bind_ok ih]
    rfl

theorem Merged.mergeAll (hs : s.Merged) (hfuel : 0 < fuel) :
    mergeAll fuel s = .ok (0, 0) s := by
  rw [Store.mergeAll, bind_ok (hs.flushRecent hfuel fuel), bind_ok (hs.drainAll hfuel _)]
  rfl

theorem Represents.takeFitting_none (hs : s.Represents A) (hfuel : A.len / minChunk < fuel)
    (hnone : A.findFitting size = none) : takeFitting fuel size s = .ok none s := by
  have hfind := (Idle.findFitting fuel size).stays (.findFitting hs.valid hfuel size) hs
  rw [hnone] at hfind
  rw [takeFitting, bind_ok hfind]
  rfl

end Store

namespace Heap

variable {h h' : Heap} {A B : Shape} {fuel request size : Nat} {owner : Owner}

theorem Does.search_none (hs : h.store.Represents A) (hmerged : h.store.Merged)
    (hnone : A.findFitting size = none) (hfuel : A.len / minChunk < fuel) :
    Does (search fuel size) h none h := by
  have hpos : 0 < fuel := Nat.zero_lt_of_lt hfuel
  have hcut (found : HeapM Unit) : Does (cutFitting fuel size found) h none h :=
    (Does.lift (hs.takeFitting_none hfuel hnone)).bind (.pure none h)
  apply (Does.lift (hmerged.takeRecentHead size)).bind
  apply (Does.lift (hmerged.takeDirty hpos size)).bind
  apply (Does.lift (hmerged.takeRecent hpos size fuel)).bind
  apply (hcut _).bind
  have hmerge : Does (mergeWithin fuel) h () h :=
    (Does.lift (hmerged.mergeAll hpos)).bind (.note _ h)
  exact hmerge.bind (hcut _)

/-- A request that was refused is refused again, and only counted. -/
theorem Intact.refused_again (hi : h.Intact A) (hmerged : h.store.Merged)
    (hreq : chunkSize? request = some size) (hfit : size ≤ A.len)
    (hnone : A.findFitting size = none) (owner : Owner) :
    Fails (Heap.allocate request owner) h (.error (.outOfMemory request))
      { h with counters := h.counters.refuse } := by
  have hsmall : ¬h.len < size := by
    rw [hi.len]
    exact Nat.not_lt_of_le hfit
  apply (Does.get Heap.fuel h).bind_fails
  apply (Does.get Heap.len h).bind_fails
  simp only [hreq, if_neg hsmall]
  exact (Does.search_none hi.store hmerged hnone hi.fuel).bind_fails (.refuse request h)

/-- From `h` to `h'` only the free space changes, and one more refusal is counted. -/
structure Harmless (h h' : Heap) : Prop where
  counters : h'.counters = h.counters.refuse
  lastSize : h'.lastSize = h.lastSize
  marks : h'.live = h.live
  base : h'.base = h.base
  len : h'.len = h.len
  live : liveIn h'.chunks = liveIn h.chunks
  bytes : ∀ c t i, (c, t) ∈ liveIn h.chunks → c ≤ i → i < c + t.size →
    h'.region.byteAt i = h.region.byteAt i
  free : totalOf (freeIn h'.chunks) = totalOf (freeIn h.chunks)
  freeBytes : h'.freeBytes = h.freeBytes

/-- From `h` to `h'` the request was refused. One that the region is too small for changed nothing
else; any other one merged the free space. Either way it is refused again, without a change. -/
structure Denies (h : Heap) (request : Nat) (h' : Heap) : Prop where
  harmless : h.Harmless h'
  overlong : (∀ size, chunkSize? request = some size → h.len < size) → h'.store = h.store
  merged : ∀ size, chunkSize? request = some size → size ≤ h.len →
    h'.store.Merged ∧ Coalesced h'.chunks
  stable : ∀ owner,
    (h'.run (Heap.allocate request owner)).result = .error (.error (.outOfMemory request)) ∧
      (h'.run (Heap.allocate request owner)).after = { h' with counters := h'.counters.refuse }

theorem Intact.harmless {s' : Store} (hi : h.Intact A)
    (hi' : Intact { h with store := s', counters := h.counters.refuse } B)
    (hlive : liveIn B.chunks = liveIn A.chunks) (hr : Changed (vacant A.chunks) h.region s'.region) :
    h.Harmless { h with store := s', counters := h.counters.refuse } := by
  have hlen : s'.region.len = h.len := hr.len
  constructor
  · rfl
  · rfl
  · rfl
  · exact hr.base
  · exact hlen
  · rw [hi'.chunks, hi.chunks, hlive]
  · intro c t i hc hlo hhi
    rw [hi.chunks] at hc
    exact hr.same i (World.not_vacant hc hlo hhi)
  · have htotal := hi.settled.valid.tiles.total
    have htotal' := hi'.settled.valid.tiles.total
    have hsplit := total_liveIn_freeIn A.chunks
    have hsplit' := total_liveIn_freeIn B.chunks
    have hsame : B.len = A.len := (hi'.len.symm.trans hlen).trans hi.len
    rw [hlive] at hsplit'
    rw [hi'.chunks, hi.chunks]
    omega
  · show (if h.counters.inUse ≤ s'.region.len then Except.ok (s'.region.len - _) else _) = _
    rw [hlen]
    rfl

theorem Intact.denies (hi : h.Intact A)
    (hoom : (h.run (Heap.allocate request owner)).result = .error (.error (.outOfMemory request))) :
    ∃ h', Fails (Heap.allocate request owner) h (.error (.outOfMemory request)) h' ∧
      h.Denies request h' := by
  rcases hi.fits_or_large request with ⟨size, hreq, hfit⟩ | hlarge
  · rcases hsearch : A.search h.lastSize size with ⟨_ | c, B⟩
    · obtain ⟨s', hrun, hi', hlive, hr⟩ := hi.allocate_refused hreq hfit hsearch owner
      obtain ⟨hsettled, hempty, hnone⟩ := hi.settled.search_none hsearch
      have hmerged := hi'.store.merged hempty
      have hlen : B.len = A.len := (hi'.len.symm.trans hr.len).trans hi.len
      refine ⟨_, hrun, hi.harmless hi' hlive hr, fun hlarge => ?_, fun _ _ _ => ⟨hmerged, ?_⟩,
        fun owner => ?_⟩
      · have hlt := hlarge size hreq
        rw [hi.len] at hlt
        exact absurd hfit (Nat.not_le_of_lt hlt)
      · rw [hi'.chunks]
        exact hsettled.coalesced hempty
      · exact (hi'.refused_again hmerged hreq (hlen ▸ hfit) hnone owner).run
    · obtain ⟨s', hrun, -⟩ := hi.allocate_hands hreq hfit hsearch owner
      cases hrun.run.1.symm.trans hoom
  · have hi' : Intact { h with counters := h.counters.refuse } A :=
      hi.work hi.settled rfl hi.store (.refl ..) rfl
    refine ⟨_, .allocate_large hlarge owner, hi.harmless hi' rfl (.refl ..), fun _ => rfl,
      fun size hreq hfit => ?_, fun owner => ?_⟩
    · exact absurd hfit (Nat.not_le_of_lt (hlarge size hreq))
    · exact (Fails.allocate_large (h := { h with counters := h.counters.refuse }) hlarge owner).run

end Heap

namespace World

variable {w : World} {request : Nat} {owner : Owner}

/-- A request that is refused for want of memory harms no live chunk and counts as nothing but a
refusal, and to repeat it changes nothing more. -/
theorem reachable_denies (hw : w.Reachable)
    (hoom : (w.heap.run (Heap.allocate request owner)).result =
      .error (.error (.outOfMemory request))) :
    w.heap.Denies request (w.step (.allocate request owner)).heap := by
  obtain ⟨A, hA⟩ := hw.tracks
  obtain ⟨h', hrun, hdenies⟩ := hA.intact.denies hoom
  rw [heap_step_allocate, hrun.run.2]
  exact hdenies

/-- Enough bytes are free, but a live chunk lies between them. -/
theorem split_denied :
    let w := sample.after [.allocate 8 .kernel, .allocate 8 .nobody, .release (some 0x1008)]
    (w.heap.run (Heap.allocate 40 .kernel)).result = .error (.error (.outOfMemory 40)) ∧
      w.heap.Denies 40 (w.step (.allocate 40 .kernel)).heap := by
  have hoom : ((sample.after [.allocate 8 .kernel, .allocate 8 .nobody,
      .release (some 0x1008)]).heap.run (Heap.allocate 40 .kernel)).result =
      .error (.error (.outOfMemory 40)) := by
    decide +kernel
  exact ⟨hoom, reachable_denies (reachable_sample.after _) hoom⟩

end World

end BoundaryHeap
