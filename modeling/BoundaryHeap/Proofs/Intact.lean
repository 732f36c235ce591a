import BoundaryHeap.Proofs.Handing
import BoundaryHeap.Proofs.Working

namespace BoundaryHeap

open Region (Changed)

theorem chunkSize?_spec {request size : Nat} (h : chunkSize? request = some size) :
    minChunk ≤ size ∧ size % granule = 0 ∧ request + overhead ≤ size := by
  unfold chunkSize? at h
  split at h
  next =>
    have hsize := (Option.ite_none_right_eq_some.1 h).2
    obtain rfl := Option.some.inj hsize
    simp only [roundUp, overhead, tagBytes, granule, minChunk]
    omega
  next => cases h

def Shape.HasRoom (A : Shape) (request : Nat) : Prop :=
  ∃ size, chunkSize? request = some size ∧ Room (liveExtents A.chunks) A.len size

theorem LiveMap.lt_capacity {c len : Nat} (hc : c < len) (hlen : len ≤ maxRegion) :
    c / granule < capacity := by
  simp only [granule, capacity, markWords, markBytes, maxRegion] at hlen ⊢
  omega

theorem LiveMap.div_le_capacity {len : Nat} (hlen : len ≤ maxRegion) :
    len / granule ≤ capacity := by
  simp only [granule, capacity, markWords, markBytes, maxRegion] at hlen ⊢
  omega

theorem Shape.Valid.mark_lt {A : Shape} {c : Nat} {t : Tag} (h : A.Valid)
    (hc : (c, t) ∈ A.chunks) : c / granule < LiveMap.capacity :=
  LiveMap.lt_capacity (h.tiles.bounds hc).2 h.bounded

theorem Shape.Valid.sizeAt_le {A : Shape} {c : Nat} {t : Tag} (h : A.Valid)
    (hc : (c, t) ∈ A.chunks) : A.sizeAt c ≤ A.len := by
  have hend := h.tiles.end_le hc
  rw [h.sizeAt_eq hc]
  omega

theorem Shape.Valid.granule_eq_iff {A : Shape} {c g : Nat} {t : Tag} (h : A.Valid)
    (hc : (c, t) ∈ A.chunks) : g = c / granule ↔ g * granule = c := by
  have hgrid := h.tiles.mod_of_mem rfl hc
  simp only [granule]
  omega

namespace Heap

/-- The heap has the shape `A`. -/
structure Intact (h : Heap) (A : Shape) : Prop where
  store : h.store.Represents A
  settled : A.Settled
  marks : ∀ g, h.live.isMarked g = true ↔ ∃ t, (g * granule, t) ∈ liveIn A.chunks
  inUse : h.counters.inUse = totalOf (liveIn A.chunks)
  aligned : h.base % granule = 0

variable {h : Heap} {A B : Shape} {c addr request size : Nat} {t : Tag} {owner : Owner}

theorem Intact.len (hi : h.Intact A) : h.len = A.len :=
  hi.store.len

theorem Intact.fuel (hi : h.Intact A) : A.len / minChunk < h.fuel := by
  have hroomy := hi.settled.valid.roomy
  rw [Heap.fuel, hi.len]
  simp only [minChunk] at hroomy ⊢
  omega

theorem Intact.inUse_le (hi : h.Intact A) : h.counters.inUse ≤ h.len := by
  have htotal := hi.settled.valid.tiles.total
  have hle := totalOf_liveIn_le A.chunks
  rw [hi.inUse, hi.len]
  omega

theorem Intact.bounded (hi : h.Intact A) : h.len ≤ maxRegion := by
  rw [hi.len]
  exact hi.settled.valid.bounded

theorem Intact.inUse_bounded (hi : h.Intact A) : h.counters.inUse ≤ maxRegion :=
  hi.inUse_le.trans hi.bounded

theorem Intact.aligned_after (hi : h.Intact A) {S : Set Nat} {r : Region}
    (hr : Changed S h.region r) : r.base % granule = 0 := by
  rw [hr.base]
  exact hi.aligned

theorem Intact.work {s' : Store} {counters : Counters} (hi : h.Intact A) (hB : B.Settled)
    (hlive : liveIn B.chunks = liveIn A.chunks) (hs : s'.Represents B)
    (hr : Changed (vacant A.chunks) h.region s'.region)
    (hcounters : counters.inUse = h.counters.inUse) :
    Intact { h with store := s', counters := counters } B where
  store := hs
  settled := hB
  marks := by
    rw [hlive]
    exact hi.marks
  inUse := by
    rw [hlive, ← hi.inUse]
    exact hcounters
  aligned := hi.aligned_after hr

theorem Intact.merge (hi : h.Intact A) :
    ∃ s', Does merge h () { h with store := s' } ∧ Intact { h with store := s' } A.mergeAll ∧
      Changed (vacant A.chunks) h.region s'.region := by
  have htakes := Takes.mergeWithin h.lastSize hi.settled hi.fuel
  obtain ⟨s', hrun, hs', hr⟩ := htakes.run h rfl hi.store
  exact ⟨s', (Does.get Heap.fuel h).bind hrun, hi.work hi.settled.mergeAll.1 htakes.live hs' hr rfl, hr⟩

theorem Fails.refuse (request : Nat) (h : Heap) :
    Fails (refuse request : HeapM α) h (.error (.outOfMemory request))
      { h with counters := h.counters.refuse } := by
  have hadjust : Does (adjust fun h => { h with counters := h.counters.refuse }) h () _ :=
    .adjust _ h
  apply hadjust.bind_fails
  apply (Does.get (fun h => (h.counters.inUse, h.len)) _).bind_fails
  exact (Does.note _ _).bind_fails (.throw _ _)

theorem Fails.allocate_large (hlarge : ∀ size, chunkSize? request = some size → h.len < size)
    (owner : Owner) :
    Fails (allocate request owner) h (.error (.outOfMemory request))
      { h with counters := h.counters.refuse } := by
  apply (Does.get Heap.fuel h).bind_fails
  apply (Does.get Heap.len h).bind_fails
  rcases hreq : chunkSize? request with _ | size
  · exact .refuse request h
  · simp only [if_pos (hlarge size hreq)]
    exact .refuse request h

theorem Intact.allocate_refused (hi : h.Intact A) (hreq : chunkSize? request = some size)
    (hfit : size ≤ A.len) (hmiss : A.search h.lastSize size = (none, B)) (owner : Owner) :
    ∃ s', Fails (allocate request owner) h (.error (.outOfMemory request))
        { h with store := s', counters := h.counters.refuse } ∧
      Intact { h with store := s', counters := h.counters.refuse } B ∧
      liveIn B.chunks = liveIn A.chunks ∧ Changed (vacant A.chunks) h.region s'.region := by
  obtain ⟨hmin, hgrain, -⟩ := chunkSize?_spec hreq
  have htakes := Takes.search h.lastSize hi.settled hmin hgrain hi.fuel
  rw [hmiss] at htakes
  obtain ⟨s', hrun, hs', hr⟩ := htakes.run h rfl hi.store
  refine ⟨s', ?_, hi.work (hi.settled.search_none hmiss).1 htakes.live hs' hr rfl, htakes.live, hr⟩
  have hsmall : ¬h.len < size := by
    rw [hi.len]
    exact Nat.not_lt_of_le hfit
  apply (Does.get Heap.fuel h).bind_fails
  apply (Does.get Heap.len h).bind_fails
  simp only [hreq, if_neg hsmall]
  exact Does.bind_fails (a := none) hrun (.refuse request _)

theorem handOut_does (hs : h.store.Represents B) (hheld : B.Holding {c})
    (huse : h.counters.inUse + B.sizeAt c < addressLimit) (size : Nat) (owner : Owner) :
    ∃ s', Does (handOut c size owner) h (h.base + (c + tagBytes))
        ⟨s', h.live.mark (c / granule), size, h.counters.grant (B.sizeAt c)⟩ ∧
      s'.Represents (B.grant c owner) ∧
      Changed (Set.Ico c (c + B.sizeAt c)) h.region s'.region ∧
      s'.region.Blank (c + tagBytes) (B.sizeAt c - overhead) := by
  obtain ⟨⟨t, ht, hfree⟩, hunlisted⟩ := hheld.mem_loose rfl
  obtain ⟨s₁, s₂, hstamp, hzero, hs₂, hr⟩ := hs.grant ht hunlisted owner
  have hsize := hheld.valid.sizeAt_eq ht
  refine ⟨s₂, ?_, hs₂, ?_, ?_⟩
  · have hsizeOf : Store.sizeOf c h.store = .ok t.size h.store := by
      rw [Store.sizeOf, bind_ok (Store.reading_eq (hs.tagAt ht))]
      rfl
    have hend := hheld.valid.tiles.end_le ht
    have hpos := hheld.valid.tiles.size_pos ht
    have hinside : c + tagBytes < s₂.region.len := by
      rw [hr.len, hs.len]
      simp only [tagBytes]
      omega
    have hbase : s₂.region.base = h.base := hr.base
    rw [hsize] at huse
    rw [hsize, ← hbase]
    apply (Does.lift hsizeOf).bind
    apply (Does.lift hstamp).bind
    apply (Does.lift hzero).bind
    apply (Does.mark (hheld.valid.mark_lt ht) _).bind
    apply (Does.get (fun h => h.counters.inUse) _).bind
    apply (Does.check huse _).bind
    apply (Does.adjust _ _).bind
    apply (Does.get (fun h => (h.base, h.len)) _).bind
    exact (Does.check hinside _).bind (.pure _ _)
  · rw [hsize]
    exact hr
  · rw [hsize]
    exact Store.blank_of_zero hzero

theorem Intact.grant (hi : h.Intact A) (hfound : B.Found c size)
    (hlive : liveIn B.chunks = liveIn A.chunks) {s' : Store}
    (hs' : s'.Represents (B.grant c owner))
    (hr : Changed (vacant A.chunks) h.region s'.region) :
    Intact ⟨s', h.live.mark (c / granule), size, h.counters.grant (B.sizeAt c)⟩
      (B.grant c owner) := by
  have hheld := hfound.holding
  obtain ⟨⟨t, ht, hfree⟩, -⟩ := hheld.mem_loose rfl
  refine ⟨hs', hheld.grant owner, fun g => ?_, ?_, ?_⟩
  · have hword := hheld.valid.mark_lt ht
    have hplace := hheld.valid.granule_eq_iff ht (g := g)
    simp only [LiveMap.isMarked_mark _ (LiveMap.div_lt_markWords.2 hword), Bool.or_eq_true, decide_eq_true_eq, hi.marks,
      hheld.mem_liveIn_grant, hlive, hplace]
    constructor
    · rintro (he | ⟨u, hu⟩)
      · exact ⟨_, .inr ⟨he, rfl⟩⟩
      · exact ⟨u, .inl hu⟩
    · rintro ⟨u, hu | ⟨he, -⟩⟩
      · exact .inr ⟨u, hu⟩
      · exact .inl he
  · rw [hheld.total_grant, hlive, ← hi.inUse]
    rfl
  · exact hi.aligned_after hr

theorem add_lt_addressLimit {m n : Nat} (hm : m ≤ maxRegion) (hn : n ≤ maxRegion) :
    m + n < addressLimit := by
  simp only [maxRegion, markBytes, granule] at hm hn
  simp only [addressLimit]
  omega

theorem Intact.allocate_found {s₁ : Store} (hi : h.Intact A)
    (hreq : chunkSize? request = some size) (hfit : size ≤ A.len)
    (hsearch : Does (search h.fuel size) h (some c) { h with store := s₁ })
    (hs₁ : s₁.Represents B) (hB : B.Found c size) (hlive : liveIn B.chunks = liveIn A.chunks)
    (hr₁ : Changed (vacant A.chunks) h.region s₁.region) (owner : Owner) :
    ∃ s', Does (allocate request owner) h (h.base + (c + tagBytes))
        ⟨s', h.live.mark (c / granule), size, h.counters.grant (B.sizeAt c)⟩ ∧
      Intact ⟨s', h.live.mark (c / granule), size, h.counters.grant (B.sizeAt c)⟩
        (B.grant c owner) ∧
      Changed (Set.Ico c (c + B.sizeAt c)) s₁.region s'.region ∧
      Changed (vacant A.chunks) h.region s'.region ∧
      s'.region.Blank (c + tagBytes) (B.sizeAt c - overhead) := by
  obtain ⟨⟨t, ht, hfree⟩, -⟩ := hB.holding.mem_loose rfl
  have huse : h.counters.inUse + B.sizeAt c < addressLimit :=
    add_lt_addressLimit hi.inUse_bounded
      ((hB.holding.valid.sizeAt_le ht).trans hB.holding.valid.bounded)
  obtain ⟨s₂, hrun, hs₂, hr₂, hblank⟩ :=
    handOut_does (h := { h with store := s₁ }) hs₁ hB.holding huse size owner
  have hvacant := hB.holding.valid.tiles.subset_vacant ht hfree
  rw [← hB.holding.valid.sizeAt_eq ht, vacant, hlive] at hvacant
  have hr : Changed (vacant A.chunks) h.region s₂.region := Changed.trans hr₁ (hr₂.mono hvacant)
  have hbase : s₁.region.base = h.base := hr₁.base
  refine ⟨s₂, ?_, hi.grant hB hlive hs₂ hr, hr₂, hr, hblank⟩
  have hsmall : ¬h.len < size := by
    rw [hi.len]
    exact Nat.not_lt_of_le hfit
  apply (Does.get Heap.fuel h).bind
  apply (Does.get Heap.len h).bind
  simp only [hreq, if_neg hsmall]
  rw [← hbase]
  exact Does.bind (a := some c) hsearch hrun

/-- A search that succeeds serves the request with the chunk it found, whose payload is zeroed. -/
theorem Intact.allocate_hands (hi : h.Intact A) (hreq : chunkSize? request = some size)
    (hfit : size ≤ A.len) (hfound : A.search h.lastSize size = (some c, B)) (owner : Owner) :
    ∃ s', Does (allocate request owner) h (h.base + (c + tagBytes))
        ⟨s', h.live.mark (c / granule), size, h.counters.grant (B.sizeAt c)⟩ ∧
      Intact ⟨s', h.live.mark (c / granule), size, h.counters.grant (B.sizeAt c)⟩
        (B.grant c owner) ∧
      (liveIn B.chunks = liveIn A.chunks ∧ Changed (vacant A.chunks) h.region s'.region) ∧
      s'.region.Blank (c + tagBytes) (B.sizeAt c - overhead) := by
  obtain ⟨hmin, hgrain, -⟩ := chunkSize?_spec hreq
  have htakes := Takes.search h.lastSize hi.settled hmin hgrain hi.fuel
  rw [hfound] at htakes
  obtain ⟨s₁, hrun, hs₁, hr₁⟩ := htakes.run h rfl hi.store
  have hB := hi.settled.search_some hmin hgrain hfound
  obtain ⟨s₂, hrun', hi', -, hr, hblank⟩ :=
    hi.allocate_found hreq hfit hrun hs₁ hB htakes.live hr₁ owner
  exact ⟨s₂, hrun', hi', ⟨htakes.live, hr⟩, hblank⟩

theorem Intact.allocate_served (hi : h.Intact A) (hreq : chunkSize? request = some size)
    (hfit : size ≤ A.len) (hfound : A.search h.lastSize size = (some c, B)) (owner : Owner) :
    ∃ s', Does (allocate request owner) h (h.base + (c + tagBytes))
        ⟨s', h.live.mark (c / granule), size, h.counters.grant (B.sizeAt c)⟩ ∧
      Intact ⟨s', h.live.mark (c / granule), size, h.counters.grant (B.sizeAt c)⟩
        (B.grant c owner) ∧
      liveIn B.chunks = liveIn A.chunks ∧ Changed (vacant A.chunks) h.region s'.region := by
  obtain ⟨s', hrun, hB, hkept, -⟩ := hi.allocate_hands hreq hfit hfound owner
  exact ⟨s', hrun, hB, hkept⟩

/-- The request is refused, which changes nothing but the free space. -/
structure Refused (h : Heap) (A : Shape) (request : Nat) (owner : Owner) (h' : Heap)
    (B : Shape) : Prop where
  run : Fails (allocate request owner) h (.error (.outOfMemory request)) h'
  intact : h'.Intact B
  live : liveIn B.chunks = liveIn A.chunks
  changed : Changed (vacant A.chunks) h.region h'.region
  full : ¬A.HasRoom request

/-- The request is served with the chunk at `c`, which was in hand in the shape `B`. -/
structure Served (h : Heap) (A : Shape) (request : Nat) (owner : Owner) (h' : Heap) (c : Nat)
    (B : Shape) : Prop where
  run : Does (allocate request owner) h (h.base + (c + tagBytes)) h'
  holding : B.Holding {c}
  intact : h'.Intact (B.grant c owner)
  live : liveIn B.chunks = liveIn A.chunks
  changed : Changed (vacant A.chunks) h.region h'.region
  room : A.HasRoom request
  fits : ∃ size, chunkSize? request = some size ∧ size ≤ B.sizeAt c
  blank : h'.region.Blank (c + tagBytes) (B.sizeAt c - overhead)

theorem Intact.refused (hi : h.Intact A) (hreq : chunkSize? request = some size)
    (hfit : size ≤ A.len) (hmiss : A.search h.lastSize size = (none, B)) (owner : Owner) :
    ∃ h', Refused h A request owner h' B := by
  obtain ⟨s', hrun, hB, hlive, hr⟩ := hi.allocate_refused hreq hfit hmiss owner
  refine ⟨_, hrun, hB, hlive, hr, ?_⟩
  rintro ⟨size', hreq', hroom⟩
  obtain rfl := Option.some.inj (hreq.symm.trans hreq')
  have hpos : 0 < size := Nat.lt_of_lt_of_le (by decide) (chunkSize?_spec hreq).1
  have hlen : B.len = A.len := (hB.len.symm.trans hr.len).trans hi.len
  rw [← hlen, ← liveExtents_congr hlive] at hroom
  exact hi.settled.no_room hpos hmiss hroom

theorem Intact.served (hi : h.Intact A) (hreq : chunkSize? request = some size)
    (hfit : size ≤ A.len) (hfound : A.search h.lastSize size = (some c, B)) (owner : Owner) :
    ∃ h', Served h A request owner h' c B := by
  obtain ⟨hmin, hgrain, -⟩ := chunkSize?_spec hreq
  obtain ⟨s', hrun, hB, ⟨hlive, hr⟩, hblank⟩ := hi.allocate_hands hreq hfit hfound owner
  have hgot := hi.settled.search_some hmin hgrain hfound
  refine ⟨_, hrun, hgot.holding, hB, hlive, hr, ⟨size, hreq, ?_⟩, ⟨size, hreq, ?_⟩, hblank⟩
  · have hlen : B.len = A.len := (hB.len.symm.trans hr.len).trans hi.len
    rw [← hlen, ← liveExtents_congr hlive]
    exact hgot.room
  · obtain ⟨t, ht, hlow, -⟩ := hgot.fits
    rw [hgot.holding.valid.sizeAt_eq ht]
    exact hlow

theorem Intact.fits_or_large (hi : h.Intact A) (request : Nat) :
    (∃ size, chunkSize? request = some size ∧ size ≤ A.len) ∨
      ∀ size, chunkSize? request = some size → h.len < size := by
  rw [or_iff_not_imp_left, hi.len]
  intro hnone size hreq
  by_contra hfit
  exact hnone ⟨size, hreq, Nat.le_of_not_lt hfit⟩

/-- A request is served where there is room, and refused for want of memory where there is none. -/
theorem Intact.allocate (hi : h.Intact A) (request : Nat) (owner : Owner) :
    (∃ h' B, Refused h A request owner h' B) ∨ ∃ h' c B, Served h A request owner h' c B := by
  rcases hi.fits_or_large request with ⟨size, hreq, hfit⟩ | hlarge
  · rcases hsearch : A.search h.lastSize size with ⟨_ | c, B⟩
    · obtain ⟨h', hrefused⟩ := hi.refused hreq hfit hsearch owner
      exact .inl ⟨h', B, hrefused⟩
    · obtain ⟨h', hserved⟩ := hi.served hreq hfit hsearch owner
      exact .inr ⟨h', c, B, hserved⟩
  · refine .inl ⟨_, A, .allocate_large hlarge owner,
      hi.work hi.settled rfl hi.store (.refl ..) rfl, rfl, .refl .., ?_⟩
    rintro ⟨size, hreq, a, hend, -⟩
    have hlt := hlarge size hreq
    rw [hi.len] at hlt
    omega

/-- How a request ends: it is refused and at most free space was merged for it, or a chunk that was
found is granted. -/
theorem Intact.allocate_ends (hi : h.Intact A) (request : Nat) (owner : Owner) :
    (∃ s' B, Fails (Heap.allocate request owner) h (.error (.outOfMemory request))
        { h with store := s', counters := h.counters.refuse } ∧
      Intact { h with store := s', counters := h.counters.refuse } B ∧
      liveIn B.chunks = liveIn A.chunks ∧ Changed (vacant A.chunks) h.region s'.region) ∨
    ∃ s' size c, ∃ B : Shape, size ≤ A.len ∧ B.Holding {c} ∧
      Does (Heap.allocate request owner) h (h.base + (c + tagBytes))
        ⟨s', h.live.mark (c / granule), size, h.counters.grant (B.sizeAt c)⟩ ∧
      Intact ⟨s', h.live.mark (c / granule), size, h.counters.grant (B.sizeAt c)⟩
        (B.grant c owner) ∧
      liveIn B.chunks = liveIn A.chunks ∧ Changed (vacant A.chunks) h.region s'.region := by
  rcases hi.fits_or_large request with ⟨size, hreq, hfit⟩ | hlarge
  · rcases hsearch : A.search h.lastSize size with ⟨_ | c, B⟩
    · obtain ⟨s', hrefused⟩ := hi.allocate_refused hreq hfit hsearch owner
      exact .inl ⟨s', B, hrefused⟩
    · obtain ⟨hmin, hgrain, -⟩ := chunkSize?_spec hreq
      have hheld := (hi.settled.search_some hmin hgrain hsearch).holding
      obtain ⟨s', hserved⟩ := hi.allocate_served hreq hfit hsearch owner
      exact .inr ⟨s', size, c, B, hfit, hheld, hserved⟩
  · exact .inl ⟨h.store, A, .allocate_large hlarge owner,
      hi.work hi.settled rfl hi.store (.refl ..) rfl, rfl, .refl ..⟩

theorem Intact.isMarked (hi : h.Intact A) (hc : (c, t) ∈ liveIn A.chunks) :
    h.live.isMarked (c / granule) = true := by
  have hplace := (hi.settled.valid.granule_eq_iff (mem_liveIn.1 hc).1).1 rfl
  rw [hi.marks, hplace]
  exact ⟨t, hc⟩

theorem Intact.liveChunk (hi : h.Intact A) (hc : (c, t) ∈ liveIn A.chunks) :
    h.liveChunk (h.base + (c + tagBytes)) = .ok (c, t) := by
  obtain ⟨hmem, hlive⟩ := mem_liveIn.1 hc
  have haligned := hi.aligned
  have hgrid := hi.settled.valid.tiles.mod_of_mem rfl hmem
  have hend := hi.settled.valid.tiles.end_le hmem
  have hpos := hi.settled.valid.tiles.size_pos hmem
  have hstop : h.base + (c + tagBytes) < h.region.stop := by
    have hlen : h.region.len = A.len := hi.len
    rw [Region.stop, hlen]
    show h.base + (c + 8) < h.base + A.len
    omega
  have hinside : h.region.base ≤ h.base + (c + tagBytes) ∧
      h.base + (c + tagBytes) < h.region.stop := ⟨Nat.le_add_right .., hstop⟩
  have hoffset : h.base + (c + tagBytes) - h.region.base = c + tagBytes :=
    Nat.add_sub_cancel_left ..
  have hback : c + tagBytes - tagBytes = c := Nat.add_sub_cancel ..
  simp only [Heap.liveChunk, Fault.bind_eq_ok_iff, Fault.require_eq_ok_iff,
    Fault.orElse_eq_ok_iff, Option.filter_eq_some_iff, Region.offsetOf?, decide_eq_true_eq]
  refine ⟨(), ?_, c + tagBytes, ⟨?_, Nat.le_add_left ..⟩, (), ?_, true, ?_, (), rfl, t, ?_, (),
    hlive, ?_⟩
  · simp only [alignment, tagBytes, granule] at haligned ⊢
    omega
  · rw [if_pos hinside, hoffset]
  · rw [hback]
    exact hgrid
  · rw [hback]
    exact LiveMap.isMarked?_of_isMarked (hi.isMarked hc)
  · rw [hback]
    exact hi.store.tagAt hmem
  · rw [hback]
    rfl

/-- An accepted pointer is the payload address of a live chunk. -/
theorem Intact.of_liveChunk (hi : h.Intact A) (hok : h.liveChunk addr = .ok (c, t)) :
    (c, t) ∈ liveIn A.chunks ∧ addr = h.base + (c + tagBytes) := by
  simp only [Heap.liveChunk, Fault.bind_eq_ok_iff, Fault.require_eq_ok_iff,
    Fault.orElse_eq_ok_iff, Option.filter_eq_some_iff, Region.offsetOf?, decide_eq_true_eq] at hok
  obtain ⟨-, -, payload, ⟨hpayload, hlow⟩, -, hgrid, _, hread, -, rfl, u, hu, -, -, he⟩ := hok
  have hmarked := (LiveMap.isMarked?_eq_some_iff.1 hread).2
  cases Except.ok.inj he
  obtain ⟨⟨hstart, -⟩, hoffset⟩ := Option.ite_none_right_eq_some.1 hpayload
  have hdiff := Option.some.inj hoffset
  have hplace : (payload - tagBytes) / granule * granule = payload - tagBytes := by
    simp only [granule] at hgrid ⊢
    omega
  rw [hi.marks, hplace] at hmarked
  obtain ⟨v, hv⟩ := hmarked
  have hread := hi.store.tagAt (mem_liveIn.1 hv).1
  obtain rfl : v = t := Except.ok.inj (hread.symm.trans hu)
  constructor
  · exact hv
  · rw [Heap.base, Nat.sub_add_cancel hlow]
    omega

theorem Intact.usableSize (hi : h.Intact A) (hc : (c, t) ∈ liveIn A.chunks) :
    h.usableSize (h.base + (c + tagBytes)) = .ok (t.size - overhead) := by
  rw [Heap.usableSize, hi.liveChunk hc]
  rfl

theorem Fails.release {f : Fault} (hbad : h.liveChunk addr = .error f) :
    Fails (release (some addr)) h f h :=
  Fails.bind (.observe hbad)

theorem Does.release_none (h : Heap) : Does (release none) h () h :=
  .pure () h

theorem Intact.release (hi : h.Intact A) (hc : (c, t) ∈ liveIn A.chunks) :
    ∃ s', Does (release (some (h.base + (c + tagBytes)))) h ()
        ⟨s', h.live.unmark (c / granule), h.lastSize, h.counters.giveBack t.size⟩ ∧
      Intact ⟨s', h.live.unmark (c / granule), h.lastSize, h.counters.giveBack t.size⟩
        (A.giveBack c t) ∧
      Changed (vacant (A.giveBack c t).chunks ∩ fields (A.giveBack c t).chunks) h.region
        s'.region := by
  obtain ⟨hmem, hlive⟩ := mem_liveIn.1 hc
  have hA := hi.settled
  obtain ⟨s₁, s₂, s₃, hstamp, hclear, hfile, hs₃, hr⟩ := hi.store.giveBack hA hmem hlive
  have htotal := hA.total_giveBack hc
  refine ⟨s₃, ?_, ⟨hs₃, hA.giveBack hmem hlive, fun g => ?_, ?_, ?_⟩, hr⟩
  · have henough : t.size ≤ h.counters.inUse := by
      rw [hi.inUse]
      omega
    apply Does.bind (.observe (hi.liveChunk hc))
    apply (Does.lift hstamp).bind
    apply (Does.lift hclear).bind
    apply (Does.unmark (hA.valid.mark_lt hmem) _).bind
    apply (Does.lift hfile).bind
    apply (Does.get (fun h => h.counters.inUse) _).bind
    exact (Does.check henough _).bind (.adjust _ _)
  · have hword := hA.valid.mark_lt hmem
    have hplace := hA.valid.granule_eq_iff hmem (g := g)
    simp only [LiveMap.isMarked_unmark _ (LiveMap.div_lt_markWords.2 hword), Bool.and_eq_true, Bool.not_eq_true',
      decide_eq_false_iff_not, hi.marks, hA.mem_liveIn_giveBack hmem, hplace]
    constructor
    · rintro ⟨hne, u, hu⟩
      exact ⟨u, hu, hne⟩
    · rintro ⟨u, hu, hne⟩
      exact ⟨hne, u, hu⟩
  · show h.counters.inUse - t.size = _
    rw [hi.inUse]
    omega
  · exact hi.aligned_after hr

end Heap

end BoundaryHeap
