import BoundaryHeap.Proofs.Passing
import BoundaryHeap.Proofs.Runs

namespace BoundaryHeap

namespace Report

theorem fault_append {a b : Report} (ha : a.fault = none) (hb : b.fault = none) :
    (a.append b).fault = none := by
  simp only [append, ha, hb]

theorem fault_foldl {rs : List Report} {a : Report} (ha : a.fault = none)
    (hrs : ∀ r ∈ rs, r.fault = none) : (rs.foldl append a).fault = none := by
  induction rs generalizing a with
  | nil => exact ha
  | cons r rest ih =>
    exact ih (fault_append ha (hrs r (List.mem_cons_self ..)))
      fun r' hr' => hrs r' (List.mem_cons_of_mem _ hr')

theorem write_ok {r : Report} (hr : r.fault = none) (limit : Option Nat) :
    ∃ written, r.write limit = .ok written := by
  cases limit with
  | none =>
    rw [write, hr]
    exact ⟨_, rfl⟩
  | some limit =>
    rw [write, hr]
    split
    · exact ⟨_, rfl⟩
    · exact ⟨_, rfl⟩

end Report

namespace Heap

variable {h : Heap} {A B : Shape} {addr calls request size : Nat}

theorem Intact.snapshot (hi : h.Intact A) : ∃ stats, h.snapshot = .ok stats := by
  obtain ⟨stats, hstats, -⟩ := snapshot_of_le hi.inUse_le
  exact ⟨stats, hstats⟩

theorem marksReport_eq (hlen : h.len ≤ maxRegion) :
    h.marksReport = ⟨"bitmap:" :: markRows (h.live.wordsFor (h.len / granule)).length h.base
      (h.live.wordsFor (h.len / granule)), none⟩ := by
  rw [marksReport, LiveMap.wordsFor?_eq, if_pos (LiveMap.div_le_capacity hlen)]

theorem Intact.fault_report (hi : h.Intact A) : h.report.fault = none := by
  obtain ⟨stats, hstats⟩ := hi.snapshot
  have hbounds : h.boundsReport.fault = none := by
    rw [boundsReport, hstats]
  have hchunks : h.chunksReport.fault = none := by
    have hwalk : h.region.walk = (A.chunks, none) := hi.store.walk
    rw [chunksReport, hwalk]
  have hlists : h.listsReport.fault = none := by
    apply Report.fault_foldl rfl
    intro r hr
    obtain ⟨l, -, rfl⟩ := List.mem_map.1 hr
    rw [listReport, hi.store.members l]
    split
    next hmembers => cases hmembers
    next => rfl
    next => rfl
  have hmarks : h.marksReport.fault = none := by
    rw [marksReport_eq hi.bounded]
  exact Report.fault_append hbounds (Report.fault_append hchunks (Report.fault_append hlists hmarks))

theorem Intact.noteDamage (hi : h.Intact A) : Does noteDamage h () h := by
  have hwalk : Does (observe fun h => .ok h.region.walk.2) h none h := .observe (by rw [hi.undamaged])
  exact hwalk.bind (.pure () h)

theorem Intact.stats_does (hi : h.Intact A) :
    ∃ stats, h.snapshot = .ok stats ∧ Does Heap.stats h stats h := by
  obtain ⟨stats, hstats⟩ := hi.snapshot
  exact ⟨stats, hstats, hi.noteDamage.bind (.observe hstats)⟩

theorem Intact.stats (hi : h.Intact A) : (h.run stats).result = h.snapshot := by
  obtain ⟨stats, hstats, hrun⟩ := hi.stats_does
  rw [hrun.run.1, hstats]

theorem Intact.ownedBy_does (hi : h.Intact A) (owner : Owner) :
    Does (ownedBy owner) h (bytesOf owner h.chunks) h :=
  hi.noteDamage.bind (.get (fun h => bytesOf owner h.chunks) h)

/-- The chunk whose payload begins at `addr`, as far as the marks tell. -/
def locate (h : Heap) (addr : Nat) : Except PointerFault Nat :=
  if addr % alignment = 0 then
    match (h.region.offsetOf? addr).filter (tagBytes ≤ ·) with
    | none => .error .outOfRegion
    | some payload =>
      if (payload - tagBytes) % granule = 0 then
        if h.live.isMarked ((payload - tagBytes) / granule) then .ok (payload - tagBytes)
        else .error .notAllocated
      else .error .misaligned
  else .error .misaligned

theorem lt_len_of_place {payload : Nat}
    (hplace : (h.region.offsetOf? addr).filter (tagBytes ≤ ·) = some payload) :
    payload - tagBytes < h.len := by
  have hoffset := (Option.filter_eq_some_iff.1 hplace).1
  obtain ⟨⟨hstart, hstop⟩, hdiff⟩ := Option.ite_none_right_eq_some.1 hoffset
  obtain rfl := Option.some.inj hdiff
  rw [Region.stop] at hstop
  show addr - h.region.base - tagBytes < h.region.len
  omega

theorem of_locate {c : Nat} (hc : h.locate addr = .ok c) :
    addr % alignment = 0 ∧ (h.region.offsetOf? addr).filter (tagBytes ≤ ·) = some (c + tagBytes) ∧
      c % granule = 0 ∧ h.live.isMarked (c / granule) = true := by
  unfold locate at hc
  split at hc
  next haligned =>
    split at hc
    next => cases hc
    next payload hplace =>
      split at hc
      next hgrid =>
        split at hc
        next hmarked =>
          obtain rfl := Except.ok.inj hc
          have hlow := (Option.filter_eq_some_iff.1 hplace).2
          rw [Nat.sub_add_cancel (of_decide_eq_true hlow)]
          exact ⟨haligned, hplace, hgrid, hmarked⟩
        next => cases hc
      next => cases hc
  next => cases hc

theorem liveChunk_of_locate {c : Nat} {t : Tag} (hc : h.locate addr = .ok c)
    (ht : h.region.tagAt c = .ok t) (hlive : t.free = false) : h.liveChunk addr = .ok (c, t) := by
  obtain ⟨haligned, hplace, hgrid, hmarked⟩ := of_locate hc
  have hback : c + tagBytes - tagBytes = c := Nat.add_sub_cancel ..
  simp only [Heap.liveChunk, Fault.bind_eq_ok_iff, Fault.require_eq_ok_iff, Fault.orElse_eq_ok_iff]
  refine ⟨(), haligned, _, hplace, (), ?_, true, ?_, (), rfl, t, ?_, (), hlive, ?_⟩
  · rw [hback]
    exact hgrid
  · rw [hback]
    exact LiveMap.isMarked?_of_isMarked hmarked
  · rw [hback]
    exact ht
  · rw [hback]
    rfl

/-- In a region that is not too large a refusal is found before a mark that is not there. -/
theorem liveChunk_of_locate_error {reason : PointerFault} (hlen : h.len ≤ maxRegion)
    (hbad : h.locate addr = .error reason) :
    h.liveChunk addr = .error (.error (.invalidFree addr reason)) := by
  rw [Heap.liveChunk]
  unfold locate at hbad
  split at hbad
  next haligned =>
    rw [Fault.bind_ok (Fault.require_ok haligned _)]
    rcases hplace : (h.region.offsetOf? addr).filter (tagBytes ≤ ·) with _ | payload
    · rw [hplace] at hbad
      obtain rfl := Except.error.inj hbad
      rfl
    · have hpayload : (Fault.error (.invalidFree addr .outOfRegion)).orElse (some payload) =
          .ok payload := rfl
      rw [hplace] at hbad
      rw [Fault.bind_ok hpayload]
      simp only at hbad
      split at hbad
      next hgrid =>
        simp only [Fault.bind_ok (Fault.require_ok hgrid _)]
        split at hbad
        next => cases hbad
        next hmarked =>
          obtain rfl := Except.error.inj hbad
          have hword : (payload - tagBytes) / granule < LiveMap.capacity :=
            LiveMap.lt_capacity (lt_len_of_place hplace) hlen
          rw [LiveMap.isMarked?_eq, if_pos hword, Fault.bind_ok (Fault.orElse_some _ _),
            Fault.require_error hmarked]
          rfl
      next hgrid =>
        obtain rfl := Except.error.inj hbad
        simp only [Fault.require_error hgrid]
        rfl
  next haligned =>
    obtain rfl := Except.error.inj hbad
    rw [Fault.require_error haligned]
    rfl

theorem Intact.live_of_locate (hi : h.Intact A) {c : Nat} (hc : h.locate addr = .ok c) :
    ∃ t, (c, t) ∈ liveIn A.chunks ∧ h.liveChunk addr = .ok (c, t) := by
  obtain ⟨-, -, hgrid, hmarked⟩ := of_locate hc
  have hgranule : c / granule * granule = c := by
    simp only [granule] at hgrid ⊢
    omega
  obtain ⟨t, ht⟩ := (hi.marks _).1 hmarked
  rw [hgranule] at ht
  obtain ⟨hmem, hlive⟩ := mem_liveIn.1 ht
  exact ⟨t, ht, liveChunk_of_locate hc (hi.store.tagAt hmem) hlive⟩

/-- How the release of a pointer ends: it is refused, or the live chunk that it belongs to is given
back. -/
theorem Intact.release_ends (hi : h.Intact A) (addr : Nat) :
    (∃ reason, Fails (Heap.release (some addr)) h (.error (.invalidFree addr reason)) h) ∨
    ∃ s' c t, (c, t) ∈ liveIn A.chunks ∧
      Does (Heap.release (some addr)) h ()
        ⟨s', h.live.unmark (c / granule), h.lastSize, h.counters.giveBack t.size⟩ ∧
      Intact ⟨s', h.live.unmark (c / granule), h.lastSize, h.counters.giveBack t.size⟩
        (A.giveBack c t) ∧ s'.region.len = h.region.len := by
  rcases hplace : h.locate addr with reason | c
  · exact .inl ⟨reason, .release (liveChunk_of_locate_error hi.bounded hplace)⟩
  · obtain ⟨t, hc, hok⟩ := hi.live_of_locate hplace
    obtain ⟨-, rfl⟩ := hi.of_liveChunk hok
    obtain ⟨s', hrun, hi', hr⟩ := hi.release hc
    exact .inr ⟨s', c, t, hc, hrun, hi', hr.len⟩

/-- No call ends in a failed check, without an end or with the finding that the heap is damaged:
requests may be refused for want of memory, and pointers that were not handed out are refused. -/
structure Faultless (h : Heap) : Prop where
  allocate : ∀ request owner, (∃ addr, (h.run (allocate request owner)).result = .ok addr) ∨
    (h.run (Heap.allocate request owner)).result = .error (.error (.outOfMemory request))
  releaseNone : (h.run (release none)).result = .ok ()
  release : ∀ addr, (h.run (release (some addr))).result = .ok () ∨
    ∃ reason, (h.run (release (some addr))).result = .error (.error (.invalidFree addr reason))
  usableSize : ∀ addr, (∃ size, h.usableSize addr = .ok size) ∨
    ∃ reason, h.usableSize addr = .error (.error (.invalidFree addr reason))
  merge : (h.run merge).result = .ok ()
  ownedBy : ∀ owner, ∃ bytes, (h.run (ownedBy owner)).result = .ok bytes
  stats : ∃ snapshot, (h.run stats).result = .ok snapshot
  dump : ∀ limit, ∃ written, (h.run (dump limit)).result = .ok written
  audit : h.audit = .ok ()

theorem Intact.faultless (hi : h.Intact A) : h.Faultless where
  allocate request owner := by
    rcases hi.allocate_ends request owner with ⟨s', B, hrun, -⟩ | ⟨s', size, c, B, -, -, hrun, -⟩
    · exact .inr hrun.run.1
    · exact .inl ⟨_, hrun.run.1⟩
  releaseNone := (Does.release_none h).run.1
  release addr := by
    rcases hi.release_ends addr with ⟨reason, hrun⟩ | ⟨s', c, t, -, hrun, -⟩
    · exact .inr ⟨reason, hrun.run.1⟩
    · exact .inl hrun.run.1
  usableSize addr := by
    rw [Heap.usableSize]
    rcases hplace : h.locate addr with reason | c
    · rw [liveChunk_of_locate_error hi.bounded hplace]
      exact .inr ⟨reason, rfl⟩
    · obtain ⟨t, -, hok⟩ := hi.live_of_locate hplace
      rw [hok]
      exact .inl ⟨_, rfl⟩
  merge := by
    obtain ⟨s', hrun, -, -⟩ := hi.merge
    exact hrun.run.1
  ownedBy owner := ⟨_, (hi.ownedBy_does owner).run.1⟩
  stats := by
    obtain ⟨stats, -, hrun⟩ := hi.stats_does
    exact ⟨stats, hrun.run.1⟩
  dump limit := by
    obtain ⟨written, hwritten⟩ := Report.write_ok hi.fault_report limit
    exact ⟨written, (hi.noteDamage.bind (.observe hwritten)).run.1⟩
  audit := hi.audit

/-- What the heap has counted in so many calls, and the size it served last. -/
structure Keeps (h : Heap) (calls : Nat) : Prop where
  highWater : h.counters.highWater ≤ h.len
  lastSize : h.lastSize ≤ h.len
  counts : h.counters.allocations + h.counters.frees + h.counters.failed ≤ calls

theorem Keeps.more {more : Nat} (hk : h.Keeps calls) (hle : calls ≤ more) : h.Keeps more :=
  ⟨hk.highWater, hk.lastSize, hk.counts.trans hle⟩

theorem Keeps.store {s' : Store} (hk : h.Keeps calls) (hlen : s'.region.len = h.len) :
    Keeps { h with store := s' } calls :=
  ⟨hk.highWater.trans (Nat.le_of_eq hlen.symm), hk.lastSize.trans (Nat.le_of_eq hlen.symm),
    hk.counts⟩

theorem Keeps.refuse (hk : h.Keeps calls) :
    Keeps { h with counters := h.counters.refuse } (calls + 1) :=
  ⟨hk.highWater, hk.lastSize, Nat.succ_le_succ hk.counts⟩

theorem Keeps.giveBack {live : LiveMap} (hk : h.Keeps calls) (size : Nat) :
    Keeps { h with live := live, counters := h.counters.giveBack size } (calls + 1) := by
  refine ⟨hk.highWater, hk.lastSize, ?_⟩
  have hcounts := hk.counts
  simp only [Counters.giveBack]
  omega

theorem Intact.keeps_allocate (hi : h.Intact A) (hk : h.Keeps calls) (request : Nat)
    (owner : Owner) : (h.run (Heap.allocate request owner)).after.Keeps (calls + 1) := by
  rcases hi.allocate_ends request owner with ⟨s', B, hrun, -, -, hr⟩ |
    ⟨s', size, c, B, hfit, -, hrun, hi', -, hr⟩
  · have hlen : s'.region.len = h.len := hr.len
    rw [hrun.run.2]
    exact hk.refuse.store hlen
  · have hlen : s'.region.len = h.len := hr.len
    have huse : h.counters.inUse + B.sizeAt c ≤ s'.region.len := hi'.inUse_le
    rw [hrun.run.2]
    refine ⟨Nat.max_le.2 ⟨?_, huse⟩, ?_, ?_⟩
    · exact hk.highWater.trans (Nat.le_of_eq hlen.symm)
    · rw [← hi.len, ← hlen] at hfit
      exact hfit
    · have hcounts := hk.counts
      simp only [Counters.grant]
      omega

theorem Intact.keeps_release (hi : h.Intact A) (hk : h.Keeps calls) (addr : Option Nat) :
    (h.run (Heap.release addr)).after.Keeps (calls + 1) := by
  cases addr with
  | none =>
    rw [(Does.release_none h).run.2]
    exact hk.more (Nat.le_succ _)
  | some addr =>
    rcases hi.release_ends addr with ⟨reason, hrun⟩ | ⟨s', c, t, -, hrun, -, hlen⟩
    · rw [hrun.run.2]
      exact hk.more (Nat.le_succ _)
    · rw [hrun.run.2]
      exact (hk.giveBack t.size).store hlen

theorem Intact.keeps_merge (hi : h.Intact A) (hk : h.Keeps calls) :
    (h.run Heap.merge).after.Keeps calls := by
  obtain ⟨s', hrun, -, hr⟩ := hi.merge
  have hlen : s'.region.len = h.len := hr.len
  rw [hrun.run.2]
  exact hk.store hlen

theorem Quiet.after {m : HeapM α} (hm : Quiet m) (h : Heap) : (h.run m).after = h := by
  rcases hm h with ⟨a, hrun⟩ | ⟨f, hrun⟩
  · exact hrun.run.2
  · exact hrun.run.2

theorem bytesOf_eq (owner : Owner) (chunks : List Chunk) :
    bytesOf owner chunks = totalOf ((liveIn chunks).filter fun x => x.2.owner = owner) := by
  rw [totalOf_eq_sum, List.sum_eq_foldl_nat, List.foldl_map, liveIn, List.filter_filter,
    List.foldl_filter]
  simp only [bytesOf, beq_eq_decide, Bool.and_comm]

theorem largestFree_le {n : Nat} {chunks : List Chunk} (hn : ∀ c t, (c, t) ∈ chunks → t.size ≤ n) :
    largestFree chunks ≤ n := by
  have hfold (m : Nat) (hm : m ≤ n) :
      chunks.foldl (fun size x => if x.2.free then max size x.2.size else size) m ≤ n := by
    induction chunks generalizing m with
    | nil => exact hm
    | cons x rest ih =>
      refine ih (fun c t hc => hn c t (List.mem_cons_of_mem _ hc)) _ ?_
      show (if x.2.free then max m x.2.size else m) ≤ n
      split
      · exact Nat.max_le.2 ⟨hm, hn x.1 x.2 (List.mem_cons_self ..)⟩
      · exact hm
  exact hfold 0 (Nat.zero_le n)

/-- The numbers that the heap keeps and returns fit the words that hold them: an offset a link, a
size a tag, and everything else 64 bits. All addresses are below `stop`, and a search adds at most
`minChunk` to the size that it is made for. Sums of sizes that are compared with the length, as
those of neighbours that are merged, need no bound of their own: the comparison would fail. -/
structure Fits (h : Heap) : Prop where
  stop : h.region.stop < addressLimit
  chunks : ∀ c t, (c, t) ∈ h.chunks → c + t.size ≤ h.len
  /-- Two tags can be taken off every size that is read. -/
  read : ∀ c t, h.region.tagAt c = .ok t → minChunk ≤ t.size ∧ c + t.size ≤ h.len
  inUse : h.counters.inUse ≤ h.len
  highWater : h.counters.highWater ≤ h.len
  lastSize : h.lastSize ≤ h.len
  counts : h.counters.allocations + h.counters.frees + h.counters.failed < addressLimit
  sizes : ∀ request size, chunkSize? request = some size → size ≤ h.len →
    size + minChunk < addressLimit
  heads : ∀ l c, h.store.heads.get l = some c → c < h.len
  links : ∀ c, c < h.len → linkOfWord (linkWord (some c)) = some c
  referrers : ∀ c, c < h.len → Referrer.decode (Referrer.next c).encode = some (.next c)
  tags : ∀ t : Tag, t.size ≤ h.len → t.size % granule = 0 → Tag.decode t.encode = some t
  address : ∀ request owner addr, (h.run (allocate request owner)).result = .ok addr →
    addr < h.region.stop
  usableSize : ∀ addr size, h.usableSize addr = .ok size → size ≤ h.len
  ownedBy : ∀ owner bytes, (h.run (ownedBy owner)).result = .ok bytes → bytes ≤ h.len
  stats : ∀ s, (h.run stats).result = .ok s →
    s.freeBytes ≤ h.len ∧ s.freeChunks ≤ h.len ∧ s.largestFree ≤ h.len
  /-- Where the granules begin whose marks a dump shows. -/
  rows : ∀ k < (h.live.wordsFor (h.len / granule)).length,
    h.base + 64 * k * granule < h.region.stop

theorem Intact.address_lt (hi : h.Intact A) {owner : Owner}
    (hok : (h.run (Heap.allocate request owner)).result = .ok addr) : addr < h.region.stop := by
  rcases hi.allocate_ends request owner with ⟨s', B, hrun, -⟩ |
    ⟨s', size, c, B, -, hheld, hrun, hi', -, hr⟩
  · rw [hrun.run.1] at hok
    cases hok
  · rw [hrun.run.1] at hok
    obtain rfl := Except.ok.inj hok
    obtain ⟨⟨t, ht, -⟩, -⟩ := hheld.mem_loose rfl
    have hend := hheld.valid.tiles.end_le ht
    have hpos := hheld.valid.tiles.size_pos ht
    have hlen : B.len = h.region.len := hi'.len.symm.trans hr.len
    rw [hlen] at hend
    rw [Region.stop]
    show h.region.base + (c + 8) < h.region.base + h.region.len
    omega

theorem Intact.usableSize_le (hi : h.Intact A) (hok : h.usableSize addr = .ok size) :
    size ≤ h.len := by
  rw [Heap.usableSize, Fault.bind_eq_ok_iff] at hok
  obtain ⟨⟨c, t⟩, hc, hsize⟩ := hok
  have hend := hi.settled.valid.tiles.end_le (mem_liveIn.1 (hi.of_liveChunk hc).1).1
  obtain rfl := Except.ok.inj hsize
  rw [hi.len]
  show t.size - overhead ≤ A.len
  omega

theorem Intact.ownedBy_le (hi : h.Intact A) {owner : Owner} {bytes : Nat}
    (hok : (h.run (Heap.ownedBy owner)).result = .ok bytes) : bytes ≤ h.len := by
  rw [(hi.ownedBy_does owner).run.1] at hok
  have htotal := hi.settled.valid.tiles.total
  have hlive := totalOf_liveIn_le A.chunks
  have howner := totalOf_filter_le (fun x => x.2.owner = owner) (liveIn A.chunks)
  rw [← Except.ok.inj hok, bytesOf_eq, hi.chunks, hi.len]
  omega

theorem Intact.stats_le (hi : h.Intact A) {s : Stats} (hok : (h.run Heap.stats).result = .ok s) :
    s.freeBytes ≤ h.len ∧ s.freeChunks ≤ h.len ∧ s.largestFree ≤ h.len := by
  rw [hi.stats, Heap.snapshot, freeBytes, if_pos hi.inUse_le] at hok
  obtain rfl := Except.ok.inj hok
  refine ⟨Nat.sub_le .., ?_, largestFree_le fun c t hc => ?_⟩
  · have hlength := hi.settled.valid.tiles.length_le
    have hcount : freeChunks A.chunks ≤ A.chunks.length := List.countP_le_length
    show freeChunks h.chunks ≤ h.len
    rw [hi.chunks, hi.len]
    exact hcount.trans (by omega)
  · rw [hi.chunks] at hc
    have hend := hi.settled.valid.tiles.end_le hc
    rw [hi.len]
    omega

theorem Intact.fits (hi : h.Intact A) (hk : h.Keeps calls) (hcalls : calls < addressLimit)
    (hstop : h.region.stop < addressLimit) : h.Fits where
  stop := hstop
  chunks := by
    rw [hi.chunks, hi.len]
    exact fun c t hc => hi.settled.valid.tiles.end_le hc
  read c t ht := by
    obtain ⟨-, hmin, -, hend, -⟩ := Region.tagAt_eq_ok_iff.1 ht
    exact ⟨hmin, hend⟩
  inUse := hi.inUse_le
  highWater := hk.highWater
  lastSize := hk.lastSize
  counts := hk.counts.trans_lt hcalls
  sizes request size _ hsize :=
    add_lt_addressLimit (hsize.trans hi.bounded) (by decide)
  heads l c hhead := by
    have hfirst := (hi.store.threads l).head.symm.trans hhead
    obtain ⟨t, ht, -⟩ := hi.settled.valid.listed (List.mem_of_head? hfirst)
    rw [hi.len]
    exact (hi.settled.valid.tiles.bounds ht).2
  links c hc := linkOfWord_linkWord (linkable_some ((hc.trans_le hi.bounded).trans (by decide)))
  referrers c hc := Referrer.decode_encode_next ((hc.trans_le hi.bounded).trans (by decide))
  tags t ht hgrain := by
    have hbounded := ht.trans hi.bounded
    have hsize : t.size % 0x100000000 / 16 * 16 = t.size := by
      simp only [granule, maxRegion, markBytes] at hgrain hbounded
      omega
    rw [Tag.decode_encode, hsize]
  address _ _ _ := hi.address_lt
  usableSize _ _ := hi.usableSize_le
  ownedBy _ _ := hi.ownedBy_le
  stats _ := hi.stats_le
  rows k hk := by
    have hstops : h.region.stop = h.base + h.len := rfl
    rw [LiveMap.wordsFor, List.length_map, List.length_range] at hk
    simp only [granule] at hk ⊢
    omega

end Heap

def Action.isCall : Action → Bool
  | .write _ _ => false
  | _ => true

def Action.isReading : Action → Bool
  | .usableSize _ | .ownedBy _ | .stats | .audit | .dump _ => true
  | _ => false

namespace World

variable {w : World} {A : Shape} {a : Action} {calls : Nat}

theorem heap_finish (w : World) (o : Outcome Heap α) (held : α → List Grant) :
    (w.finish o held).heap = o.after := by
  unfold finish
  split
  · rfl
  · rfl

@[simp] theorem heap_step_allocate (w : World) (request : Nat) (owner : Owner) :
    (w.step (.allocate request owner)).heap = (w.heap.run (Heap.allocate request owner)).after :=
  heap_finish ..

@[simp] theorem heap_step_release (w : World) (addr : Option Nat) :
    (w.step (.release addr)).heap = (w.heap.run (Heap.release addr)).after :=
  heap_finish ..

@[simp] theorem heap_step_merge (w : World) :
    (w.step .merge).heap = (w.heap.run Heap.merge).after :=
  heap_finish ..

theorem heap_finish_quiet {m : HeapM α} (hm : Heap.Quiet m) (w : World) (held : α → List Grant) :
    (w.finish (w.heap.run m) held).heap = w.heap := by
  rw [heap_finish, hm.after]

theorem heap_step_reading (ha : a.isReading = true) : (w.step a).heap = w.heap := by
  cases a with
  | usableSize addr => exact heap_finish_quiet (.observe _) ..
  | ownedBy owner => exact heap_finish_quiet (Heap.quiet_ownedBy owner) ..
  | stats => exact heap_finish_quiet Heap.quiet_stats ..
  | audit => exact heap_finish_quiet (.observe _) ..
  | dump limit => exact heap_finish_quiet (Heap.quiet_dump limit) ..
  | allocate request owner => cases ha
  | release addr => cases ha
  | merge => cases ha
  | write addr b => cases ha

theorem Tracks.keeps_step (hw : w.Tracks A) (hk : w.heap.Keeps calls) (a : Action) :
    (w.step a).heap.Keeps (calls + if a.isCall then 1 else 0) := by
  have hread : a.isReading = true → (w.step a).heap.Keeps (calls + 1) := by
    intro ha
    rw [heap_step_reading ha]
    exact hk.more (Nat.le_succ _)
  cases a with
  | allocate request owner =>
    rw [heap_step_allocate]
    exact hw.intact.keeps_allocate hk request owner
  | release addr =>
    rw [heap_step_release]
    exact hw.intact.keeps_release hk addr
  | merge =>
    rw [heap_step_merge]
    exact (hw.intact.keeps_merge hk).more (Nat.le_succ _)
  | usableSize addr => exact hread rfl
  | ownedBy owner => exact hread rfl
  | stats => exact hread rfl
  | audit => exact hread rfl
  | dump limit => exact hread rfl
  | write addr b =>
    rw [World.step]
    split
    · exact hk.store (Region.len_setByte ..)
    · exact hk

theorem Tracks.keeps_after (hw : w.Tracks A) (hk : w.heap.Keeps calls) (actions : List Action) :
    ∃ B, (w.after actions).Tracks B ∧
      (w.after actions).heap.Keeps (calls + actions.countP Action.isCall) ∧
      (w.after actions).heap.region.stop = w.heap.region.stop := by
  induction actions generalizing w A calls with
  | nil => exact ⟨A, hw, hk, rfl⟩
  | cons a rest ih =>
    obtain ⟨B, hB, hfollows⟩ := hw.step a
    obtain ⟨C, hC, hkeeps, hstop⟩ := ih hB (hw.keeps_step hk a)
    refine ⟨C, hC, ?_, hstop.trans ?_⟩
    · rw [List.countP_cons, Nat.add_comm (List.countP _ rest), ← Nat.add_assoc]
      exact hkeeps
    · have hbase : (w.step a).heap.region.base = w.heap.region.base := hfollows.base
      have hlen : (w.step a).heap.region.len = w.heap.region.len := hfollows.len
      rw [Region.stop, hbase, hlen, Region.stop]

end World

theorem Heap.start_takeOver {start : Nat} {bytes : ByteArray} {h : Heap} {journal : List Record}
    (h₀ : takeOver start bytes = .ok (h, journal)) :
    h.region.stop = (Region.trim start bytes).stop ∧ h.live = .empty ∧ h.lastSize = 0 ∧
      h.counters = .zero := by
  obtain ⟨-, -, -, hr, hlive, hlast, hcounters⟩ := takeOver_run h₀
  refine ⟨?_, hlive, hlast, hcounters⟩
  rw [Region.stop, hr.base, hr.len, Region.stop]

theorem Heap.keeps_takeOver {start : Nat} {bytes : ByteArray} {h : Heap} {journal : List Record}
    (h₀ : takeOver start bytes = .ok (h, journal)) : h.Keeps 0 := by
  obtain ⟨-, -, hlast, hcounters⟩ := Heap.start_takeOver h₀
  refine ⟨?_, ?_, ?_⟩
  · rw [hcounters]
    exact Nat.zero_le _
  · rw [hlast]
    exact Nat.zero_le _
  · rw [hcounters]
    exact Nat.le_refl 0

namespace World

end World

end BoundaryHeap
