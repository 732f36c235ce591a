import BoundaryHeap.Heap.Audit
import BoundaryHeap.Proofs.Counting

namespace BoundaryHeap

/-- A walk that no damage stops has read a tiling. -/
theorem Region.tiles_of_walkFrom {r : Region} {fuel lo : Nat} {chunks : List Chunk}
    (hlo : lo ≤ r.len) (h : r.walkFrom fuel lo = (chunks, none)) :
    Tiles lo chunks r.len ∧ ∀ c t, (c, t) ∈ chunks → r.tagAt c = .ok t := by
  induction fuel generalizing lo chunks with
  | zero => cases h
  | succ fuel ih =>
    rw [walkFrom] at h
    split at h
    next hlt =>
      rcases htag : r.tagAt lo with f | t
      · rw [htag] at h
        cases h
      · rw [htag] at h
        obtain ⟨rfl, hend⟩ := Prod.mk.inj h
        obtain ⟨-, hmin, hgrain, hstop, -⟩ := tagAt_eq_ok_iff.1 htag
        obtain ⟨htiles, htags⟩ := ih hstop (Prod.ext rfl hend)
        refine ⟨⟨rfl, ⟨hmin, hgrain⟩, htiles⟩, fun d u hd => ?_⟩
        rcases List.mem_cons.1 hd with he | hd
        · cases he
          exact htag
        · exact htags d u hd
    next hge =>
      obtain ⟨rfl, -⟩ := Prod.mk.inj h
      exact ⟨Nat.le_antisymm hlo (Nat.le_of_not_lt hge), fun c t hc => by cases hc⟩

namespace Heap

variable {h : Heap} {c budget n : Nat} {t : Tag} {l : ListId} {f : Referrer}
  {last cur : Option Nat}

def ChunkSums.add (sums : ChunkSums) (t : Tag) : ChunkSums :=
  if t.free then
    { sums with covered := sums.covered + t.size, freeChunks := sums.freeChunks + 1 }
  else
    { sums with
      covered := sums.covered + t.size
      liveChunks := sums.liveChunks + 1
      liveBytes := sums.liveBytes + t.size }

structure ChunkSums.Fits (sums : ChunkSums) : Prop where
  covered : sums.covered < addressLimit
  freeChunks : sums.freeChunks < addressLimit
  liveChunks : sums.liveChunks < addressLimit
  liveBytes : sums.liveBytes < addressLimit

/-- A chunk with a mark is checked for its place and its mark only, as long as the sums fit. -/
theorem auditChunk_eq {sums : ChunkSums} (hword : c / granule < LiveMap.capacity)
    (hfits : (sums.add t).Fits) :
    h.auditChunk sums (c, t) = (do
      Fault.require (c = sums.covered) (.corrupt sums.covered .walkGap)
      Fault.require (h.live.isMarked (c / granule) = !t.free)
        (.corrupt c (if t.free then .freeMarkedLive else .liveUnmarked))
      return sums.add t) := by
  obtain ⟨hcovered, hfree, hcount, hbytes⟩ := hfits
  rw [auditChunk, LiveMap.isMarked?_eq, if_pos hword]
  rcases hstate : t.free with _ | _
  · simp only [ChunkSums.add, hstate, Bool.false_eq_true, if_false] at hcovered hcount hbytes ⊢
    rw [Fault.sum_ok hcovered, Fault.sum_ok hcount, Fault.sum_ok hbytes]
    rfl
  · simp only [ChunkSums.add, hstate, if_true] at hcovered hfree ⊢
    rw [Fault.sum_ok hcovered, Fault.sum_ok hfree]
    rfl

theorem of_auditChunk {sums sums' : ChunkSums} (hok : h.auditChunk sums (c, t) = .ok sums') :
    c = sums.covered ∧ h.live.isMarked (c / granule) = !t.free ∧ sums.add t = sums' := by
  simp only [auditChunk, Fault.bind_eq_ok_iff, Fault.require_eq_ok_iff, Fault.sum_eq_ok_iff,
    Fault.orElse_eq_ok_iff, LiveMap.isMarked?_eq_some_iff] at hok
  obtain ⟨-, hplace, _, ⟨-, rfl⟩, marked, ⟨-, hmarked⟩, hrest⟩ := hok
  rw [ChunkSums.add]
  rcases hstate : t.free with _ | _
  · simp only [hstate, Bool.false_eq_true, if_false, Fault.bind_eq_ok_iff, Fault.require_eq_ok_iff,
      Fault.sum_eq_ok_iff] at hrest
    obtain ⟨-, hmark, _, ⟨-, rfl⟩, _, ⟨-, rfl⟩, hsums⟩ := hrest
    exact ⟨hplace, hmarked.trans hmark, Except.ok.inj hsums⟩
  · simp only [hstate, if_true, Fault.bind_eq_ok_iff, Fault.require_eq_ok_iff,
      Fault.sum_eq_ok_iff] at hrest
    obtain ⟨-, hmark, _, ⟨-, rfl⟩, hsums⟩ := hrest
    exact ⟨hplace, hmarked.trans hmark, Except.ok.inj hsums⟩

/-- The sums over the chunks of a tiling that ends at `stop`. -/
def ChunkSums.addAll (sums : ChunkSums) (chunks : List Chunk) (stop : Nat) : ChunkSums where
  covered := stop
  freeChunks := sums.freeChunks + chunks.countP fun x => x.2.free
  liveChunks := sums.liveChunks + (liveIn chunks).length
  liveBytes := sums.liveBytes + totalOf (liveIn chunks)

theorem ChunkSums.addAll_cons (sums : ChunkSums) (x : Chunk) (rest : List Chunk) (stop : Nat) :
    sums.addAll (x :: rest) stop = (sums.add x.2).addAll rest stop := by
  rcases hstate : x.2.free with _ | _
  · have hlive : liveIn (x :: rest) = x :: liveIn rest :=
      List.filter_cons_of_pos (by simp [hstate])
    simp only [addAll, add, hstate, hlive, totalOf, List.length_cons, mk.injEq, true_and,
      Bool.false_eq_true, if_false]
    rw [List.countP_cons_of_neg (by simp [hstate])]
    omega
  · have hlive : liveIn (x :: rest) = liveIn rest :=
      List.filter_cons_of_neg (by simp [hstate])
    simp only [addAll, add, hstate, hlive, mk.injEq, and_true, true_and, if_true]
    rw [List.countP_cons_of_pos (by simp [hstate])]
    omega

theorem ChunkSums.covered_add (sums : ChunkSums) (t : Tag) :
    (sums.add t).covered = sums.covered + t.size := by
  unfold add
  split <;> rfl

theorem ChunkSums.Fits.of_addAll {sums : ChunkSums} {chunks : List Chunk} {stop : Nat}
    (hfits : (sums.addAll chunks stop).Fits) (hle : sums.covered ≤ stop) : sums.Fits where
  covered := hle.trans_lt hfits.covered
  freeChunks := (Nat.le_add_right ..).trans_lt hfits.freeChunks
  liveChunks := (Nat.le_add_right ..).trans_lt hfits.liveChunks
  liveBytes := (Nat.le_add_right ..).trans_lt hfits.liveBytes

theorem of_foldlM_auditChunk {sums sums' : ChunkSums} {chunks : List Chunk} {stop : Nat}
    (htiles : Tiles sums.covered chunks stop) (hok : chunks.foldlM h.auditChunk sums = .ok sums') :
    (∀ c t, (c, t) ∈ chunks → h.live.isMarked (c / granule) = !t.free) ∧
      sums.addAll chunks stop = sums' := by
  induction chunks generalizing sums with
  | nil =>
    obtain rfl : sums.covered = stop := htiles
    obtain rfl := Except.ok.inj hok
    exact ⟨fun c t hc => (List.not_mem_nil hc).elim, rfl⟩
  | cons x rest ih =>
    obtain ⟨c, t⟩ := x
    obtain ⟨rfl, -, hrest⟩ := htiles
    rw [← sums.covered_add] at hrest
    rw [List.foldlM_cons, Fault.bind_eq_ok_iff] at hok
    obtain ⟨_, hchunk, hfold⟩ := hok
    obtain ⟨-, hmark, rfl⟩ := of_auditChunk hchunk
    obtain ⟨hmarks, hsums⟩ := ih hrest hfold
    rw [ChunkSums.addAll_cons]
    refine ⟨fun d u hd => ?_, hsums⟩
    rcases List.mem_cons.1 hd with he | hd
    · cases he
      exact hmark
    · exact hmarks d u hd

theorem foldlM_auditChunk_ok {sums : ChunkSums} {chunks : List Chunk} {stop : Nat}
    (htiles : Tiles sums.covered chunks stop) (hstop : stop ≤ maxRegion)
    (hfits : (sums.addAll chunks stop).Fits)
    (hmarks : ∀ c t, (c, t) ∈ chunks → h.live.isMarked (c / granule) = !t.free) :
    chunks.foldlM h.auditChunk sums = .ok (sums.addAll chunks stop) := by
  induction chunks generalizing sums with
  | nil =>
    obtain rfl : sums.covered = stop := htiles
    rfl
  | cons x rest ih =>
    obtain ⟨c, t⟩ := x
    have hmem : (c, t) ∈ (c, t) :: rest := List.mem_cons_self ..
    have hword : c / granule < LiveMap.capacity :=
      LiveMap.lt_capacity (htiles.bounds hmem).2 hstop
    obtain ⟨rfl, -, hrest⟩ := htiles
    rw [← sums.covered_add] at hrest
    rw [ChunkSums.addAll_cons] at hfits ⊢
    have hchunk : h.auditChunk sums (sums.covered, t) = .ok (sums.add t) := by
      rw [auditChunk_eq hword (hfits.of_addAll hrest.le), Fault.require_ok rfl,
        Fault.require_ok (hmarks _ _ hmem)]
      rfl
    rw [List.foldlM_cons, Fault.bind_ok hchunk]
    exact ih hrest hfits fun d u hd => hmarks d u (List.mem_cons_of_mem _ hd)

/-- The chunk `c` with the tag `t` passes as a member of `l` behind `last`, to which `f` refers. -/
structure PassesAs (h : Heap) (l : ListId) (f : Referrer) (last : Option Nat) (c : Nat)
    (t : Tag) : Prop where
  tag : h.region.tagAt c = .ok t
  free : t.free = true
  referrer : h.region.referrerOf c = .ok (some f)
  binned : l.bin.val = 0 ∨ sizeClass t.size = l.bin
  ordered : l = .recent ∨ last.all (· < c) = true
  maximal : isCleanBin l = true → h.auditMaximal c t.size = .ok ()

theorem auditMember_eq_ok_iff {u : Unit} :
    h.auditMember l f last c = .ok u ↔ ∃ t, h.PassesAs l f last c t := by
  simp only [auditMember, Fault.bind_eq_ok_iff, Fault.require_eq_ok_iff]
  constructor
  · rintro ⟨t, htag, -, hfree, _, hreferrer, -, rfl, -, hbinned, -, hordered, hmaximal⟩
    refine ⟨t, htag, hfree, hreferrer, hbinned, hordered, fun hclean => ?_⟩
    rw [if_pos hclean] at hmaximal
    exact hmaximal
  · rintro ⟨t, hpass⟩
    refine ⟨t, hpass.tag, (), hpass.free, _, hpass.referrer, (), rfl, (), hpass.binned, (),
      hpass.ordered, ?_⟩
    split
    next hclean => exact hpass.maximal hclean
    next => rfl

/-- From the field `f` on, which refers to `cur`, the links lead along the chunks `xs`, and each of
them passes as a member of `l`. -/
def Passes (h : Heap) (l : ListId) : Referrer → Option Nat → Option Nat → List Nat → Prop
  | _, _, cur, [] => cur = none
  | f, last, cur, c :: rest =>
    cur = some c ∧ (∃ t, h.PassesAs l f last c t) ∧
      ∃ next, h.region.nextOf c = .ok next ∧ h.Passes l (.next c) (some c) next rest

theorem Passes.unique {xs ys : List Nat} (hxs : h.Passes l f last cur xs)
    (hys : h.Passes l f last cur ys) : xs = ys := by
  induction xs generalizing f last cur ys with
  | nil =>
    obtain rfl : cur = none := hxs
    cases ys with
    | nil => rfl
    | cons c rest => cases hys.1
  | cons c rest ih =>
    obtain ⟨rfl, -, next, hnext, hrest⟩ := hxs
    cases ys with
    | nil => cases hys
    | cons d rest' =>
      obtain ⟨he, -, next', hnext', hrest'⟩ := hys
      obtain rfl := Option.some.inj he
      obtain rfl := Except.ok.inj (hnext.symm.trans hnext')
      rw [ih hrest hrest']

theorem auditList_eq_ok_iff :
    h.auditList l budget f last cur = .ok n ↔
      ∃ xs, h.Passes l f last cur xs ∧ xs.length ≤ budget ∧ xs.length = n := by
  induction budget generalizing f last cur n with
  | zero =>
    cases cur with
    | none =>
      constructor
      · intro hok
        exact ⟨[], rfl, Nat.le_refl _, Except.ok.inj hok⟩
      · rintro ⟨xs, -, hle, rfl⟩
        rw [Nat.le_zero.1 hle]
        rfl
    | some c =>
      constructor
      · intro hok
        cases hok
      · rintro ⟨xs, hpass, hle, -⟩
        rw [List.length_eq_zero_iff.1 (Nat.le_zero.1 hle)] at hpass
        cases hpass
  | succ budget ih =>
    cases cur with
    | none =>
      constructor
      · intro hok
        exact ⟨[], rfl, Nat.zero_le _, Except.ok.inj hok⟩
      · rintro ⟨xs, hpass, -, rfl⟩
        cases xs with
        | nil => rfl
        | cons c rest => cases hpass.1
    | some c =>
      rw [auditList]
      simp only [Fault.bind_eq_ok_iff, auditMember_eq_ok_iff, ih]
      constructor
      · rintro ⟨-, hmember, next, hnext, _, ⟨rest, hrest, hle, rfl⟩, hcount⟩
        obtain rfl := Except.ok.inj hcount
        exact ⟨c :: rest, ⟨rfl, hmember, next, hnext, hrest⟩, Nat.succ_le_succ hle, rfl⟩
      · rintro ⟨xs, hpass, hle, rfl⟩
        cases xs with
        | nil => cases hpass
        | cons d rest =>
          obtain ⟨he, hmember, next, hnext, hrest⟩ := hpass
          obtain rfl := Option.some.inj he
          exact ⟨(), hmember, next, hnext, _, ⟨rest, hrest, Nat.le_of_succ_le_succ hle, rfl⟩, rfl⟩

abbrev PassesList (h : Heap) (l : ListId) (xs : List Nat) : Prop :=
  h.Passes l (.head l) none (h.store.heads.get l) xs

def ListSums.add (sums : ListSums) (l : ListId) (count : Nat) : ListSums where
  chunks := sums.chunks + count
  remainders := if l = .remainder then sums.remainders + count else sums.remainders

theorem auditNext_eq_ok_iff {sums sums' : ListSums} :
    h.auditNext sums l = .ok sums' ↔ ∃ xs, h.PassesList l xs ∧
      xs.length ≤ h.len / minChunk - sums.chunks ∧ sums.add l xs.length = sums' := by
  simp only [auditNext, Fault.bind_eq_ok_iff, auditList_eq_ok_iff]
  constructor
  · rintro ⟨_, ⟨xs, hpass, hle, rfl⟩, hsums⟩
    exact ⟨xs, hpass, hle, Except.ok.inj hsums⟩
  · rintro ⟨xs, hpass, hle, rfl⟩
    exact ⟨_, ⟨xs, hpass, hle, rfl⟩, rfl⟩

def ListSums.addAll (sums : ListSums) (L : Lists) (ls : List ListId) : ListSums where
  chunks := sums.chunks + (ls.flatMap L).length
  remainders := sums.remainders + ((ls.filter (· = .remainder)).flatMap L).length

theorem ListSums.addAll_cons (sums : ListSums) (L : Lists) (l : ListId) (ls : List ListId) :
    sums.addAll L (l :: ls) = (sums.add l (L l).length).addAll L ls := by
  by_cases hl : l = .remainder
  · subst hl
    simp [addAll, add, Nat.add_assoc]
  · simp [addAll, add, hl, Nat.add_assoc]

theorem foldlM_auditNext_eq_ok_iff {sums sums' : ListSums} {L : Lists} {ls : List ListId}
    (hL : ∀ l ∈ ls, h.PassesList l (L l)) :
    ls.foldlM h.auditNext sums = .ok sums' ↔
      (ls.flatMap L).length ≤ h.len / minChunk - sums.chunks ∧ sums.addAll L ls = sums' := by
  induction ls generalizing sums with
  | nil => simp [ListSums.addAll, pure, Except.pure]
  | cons l ls ih =>
    have hfirst := hL l (List.mem_cons_self ..)
    have hrest : ∀ sums : ListSums, ls.foldlM h.auditNext sums = .ok sums' ↔
        (ls.flatMap L).length ≤ h.len / minChunk - sums.chunks ∧ sums.addAll L ls = sums' :=
      fun _ => ih fun l' hl' => hL l' (List.mem_cons_of_mem _ hl')
    simp only [List.foldlM_cons, Fault.bind_eq_ok_iff, auditNext_eq_ok_iff, hrest,
      ListSums.addAll_cons, List.flatMap_cons, List.length_append]
    constructor
    · rintro ⟨_, ⟨xs, hpass, hle, rfl⟩, hle', hsums⟩
      obtain rfl := hfirst.unique hpass
      simp only [ListSums.add] at hle'
      exact ⟨by omega, hsums⟩
    · rintro ⟨hle, hsums⟩
      refine ⟨_, ⟨_, hfirst, by omega, rfl⟩, ?_, hsums⟩
      simp only [ListSums.add]
      omega

theorem exists_passesList {sums sums' : ListSums} {ls : List ListId}
    (hok : ls.foldlM h.auditNext sums = .ok sums') (hl : l ∈ ls) : ∃ xs, h.PassesList l xs := by
  induction ls generalizing sums with
  | nil => cases hl
  | cons l' ls ih =>
    simp only [List.foldlM_cons, Fault.bind_eq_ok_iff, auditNext_eq_ok_iff] at hok
    obtain ⟨_, ⟨xs, hpass, -, -⟩, hrest⟩ := hok
    rcases List.mem_cons.1 hl with rfl | hl
    · exact ⟨xs, hpass⟩
    · exact ih hrest hl

/-- The walk reads `chunks`, which are marked where they are live; the links lead along `L`, whose
members pass; and the counts agree. -/
structure Audited (h : Heap) (chunks : List Chunk) (L : Lists) : Prop where
  walk : h.region.walk = (chunks, none)
  marks : ∀ c t, (c, t) ∈ chunks → h.live.isMarked (c / granule) = !t.free
  lists : ∀ l, h.PassesList l (L l)
  complete : (ListId.all.flatMap L).length = chunks.countP fun x => x.2.free
  single : (L .remainder).length ≤ 1
  marked : h.live.countMarked (h.len / granule) = (liveIn chunks).length
  inUse : h.counters.inUse = totalOf (liveIn chunks)

variable {chunks : List Chunk} {L : Lists}

theorem tiles_of_walk (hwalk : h.region.walk = (chunks, none)) :
    Tiles 0 chunks h.len ∧ ∀ c t, (c, t) ∈ chunks → h.region.tagAt c = .ok t :=
  Region.tiles_of_walkFrom (Nat.zero_le _) hwalk

def ChunkSums.ofChunks (chunks : List Chunk) (stop : Nat) : ChunkSums where
  covered := stop
  freeChunks := chunks.countP fun x => x.2.free
  liveChunks := (liveIn chunks).length
  liveBytes := totalOf (liveIn chunks)

theorem ChunkSums.addAll_zero (chunks : List Chunk) (stop : Nat) :
    ChunkSums.addAll ⟨0, 0, 0, 0⟩ chunks stop = .ofChunks chunks stop := by
  simp only [addAll, ofChunks, Nat.zero_add]

theorem ChunkSums.fits_ofChunks {stop : Nat} (htiles : Tiles 0 chunks stop)
    (hstop : stop ≤ maxRegion) : (ofChunks chunks stop).Fits := by
  have hlength := htiles.length_le
  have hfree := List.countP_le_length (p := fun x : Chunk => x.2.free) (l := chunks)
  have hlive : (liveIn chunks).length ≤ chunks.length := List.length_filter_le ..
  have htotal := htiles.total
  have hbytes := totalOf_liveIn_le chunks
  simp only [maxRegion, markBytes, granule] at hstop
  constructor <;> simp only [ofChunks, addressLimit] <;> omega

theorem of_auditChunks {sums : ChunkSums} (hok : h.auditChunks = .ok sums) :
    ∃ chunks, h.region.walk = (chunks, none) ∧
      (∀ c t, (c, t) ∈ chunks → h.live.isMarked (c / granule) = !t.free) ∧
      .ofChunks chunks h.len = sums := by
  rw [auditChunks] at hok
  rcases hwalk : h.region.walk with ⟨chunks, _ | f⟩
  · rw [hwalk] at hok
    have htiles : Tiles (ChunkSums.mk 0 0 0 0).covered chunks h.len := (tiles_of_walk hwalk).1
    simp only [Fault.bind_eq_ok_iff, Fault.require_eq_ok_iff] at hok
    obtain ⟨_, hfold, -, -, hsums⟩ := hok
    obtain ⟨hmarks, rfl⟩ := of_foldlM_auditChunk htiles hfold
    rw [ChunkSums.addAll_zero] at hsums
    exact ⟨chunks, rfl, hmarks, Except.ok.inj hsums⟩
  · rw [hwalk] at hok
    simp only [Fault.bind_eq_ok_iff] at hok
    obtain ⟨_, -, hfault⟩ := hok
    cases hfault

theorem auditChunks_ok (hwalk : h.region.walk = (chunks, none)) (hlen : h.len ≤ maxRegion)
    (hmarks : ∀ c t, (c, t) ∈ chunks → h.live.isMarked (c / granule) = !t.free) :
    h.auditChunks = .ok (.ofChunks chunks h.len) := by
  have htiles : Tiles (ChunkSums.mk 0 0 0 0).covered chunks h.len := (tiles_of_walk hwalk).1
  have hfits := ChunkSums.fits_ofChunks htiles hlen
  rw [← ChunkSums.addAll_zero] at hfits ⊢
  rw [auditChunks, hwalk]
  simp only [Fault.bind_ok (foldlM_auditChunk_ok htiles hlen hfits hmarks)]
  have hcovered : (ChunkSums.addAll ⟨0, 0, 0, 0⟩ chunks h.len).covered = h.len := rfl
  rw [Fault.bind_ok (Fault.require_ok hcovered _)]
  rfl

theorem ListSums.addAll_all (L : Lists) : ListSums.addAll ⟨0, 0⟩ L ListId.all =
    ⟨(ListId.all.flatMap L).length, (L .remainder).length⟩ := by
  have hremainder : ListId.all.filter (· = .remainder) = [.remainder] := by decide +kernel
  rw [addAll, hremainder, List.flatMap_singleton, Nat.zero_add, Nat.zero_add]

theorem auditLists_eq_ok_iff {sums : ListSums} :
    h.auditLists = .ok sums ↔ ∃ L : Lists, (∀ l, h.PassesList l (L l)) ∧
      (ListId.all.flatMap L).length ≤ h.len / minChunk ∧
      ⟨(ListId.all.flatMap L).length, (L .remainder).length⟩ = sums := by
  constructor
  · intro hok
    choose L hL using fun l => exists_passesList hok (ListId.mem_all l)
    obtain ⟨hle, hsums⟩ := (foldlM_auditNext_eq_ok_iff fun l _ => hL l).1 hok
    rw [ListSums.addAll_all] at hsums
    exact ⟨L, hL, hle, hsums⟩
  · rintro ⟨L, hL, hle, rfl⟩
    rw [← ListSums.addAll_all]
    exact (foldlM_auditNext_eq_ok_iff fun l _ => hL l).2 ⟨hle, rfl⟩

theorem snapshot_of_le (hle : h.counters.inUse ≤ h.len) :
    ∃ stats, h.snapshot = .ok stats ∧ stats.inUse = h.counters.inUse := by
  rw [snapshot, freeBytes, if_pos hle]
  exact ⟨_, rfl, rfl⟩

theorem inUse_of_snapshot {stats : Stats} (hok : h.snapshot = .ok stats) :
    stats.inUse = h.counters.inUse := by
  simp only [snapshot, Fault.bind_eq_ok_iff] at hok
  obtain ⟨_, -, hstats⟩ := hok
  rw [← Except.ok.inj hstats]

theorem audited_of_audit {u : Unit} (hok : h.audit = .ok u) : ∃ chunks L, h.Audited chunks L := by
  simp only [audit, Fault.bind_eq_ok_iff, Fault.require_eq_ok_iff, Fault.orElse_eq_ok_iff,
    auditLists_eq_ok_iff] at hok
  obtain ⟨_, hchunks, _, ⟨L, hL, -, rfl⟩, -, hcomplete, -, hsingle, _, hcount, -, hmarked, stats,
    hstats, husage⟩ := hok
  obtain ⟨chunks, hwalk, hmarks, rfl⟩ := of_auditChunks hchunks
  rw [LiveMap.countMarked?_eq] at hcount
  obtain ⟨-, hcount⟩ := Option.ite_none_right_eq_some.1 hcount
  rw [← Option.some.inj hcount] at hmarked
  rw [inUse_of_snapshot hstats] at husage
  exact ⟨chunks, L, hwalk, hmarks, hL, hcomplete, hsingle, hmarked, husage⟩

theorem Audited.audit (hok : h.Audited chunks L) (hlen : h.len ≤ maxRegion) :
    h.audit = .ok () := by
  have htiles := (tiles_of_walk hok.walk).1
  have hlists : (ListId.all.flatMap L).length ≤ h.len / minChunk := by
    have hlength := htiles.length_le
    have hle := List.countP_le_length (p := fun x : Chunk => x.2.free) (l := chunks)
    rw [hok.complete]
    simp only [minChunk]
    omega
  have husage : h.counters.inUse ≤ h.len := by
    have htotal := htiles.total
    have hle := totalOf_liveIn_le chunks
    rw [hok.inUse]
    omega
  have hcount : h.len / granule ≤ LiveMap.capacity := LiveMap.div_le_capacity hlen
  obtain ⟨stats, hstats, hinUse⟩ := snapshot_of_le husage
  have hmarked : h.live.countMarked? (h.len / granule) = some (liveIn chunks).length := by
    rw [LiveMap.countMarked?_eq, if_pos hcount, hok.marked]
  simp only [Heap.audit, Fault.bind_eq_ok_iff, Fault.require_eq_ok_iff, Fault.orElse_eq_ok_iff,
    auditLists_eq_ok_iff]
  exact ⟨_, auditChunks_ok hok.walk hlen hok.marks, _, ⟨L, hok.lists, hlists, rfl⟩, (),
    hok.complete, (), hok.single, _, hmarked, (), rfl, stats, hstats, hinUse.trans hok.inUse⟩

end Heap

end BoundaryHeap
