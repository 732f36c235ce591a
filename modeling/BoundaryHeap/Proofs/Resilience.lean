import BoundaryHeap.Proofs.Endings
import BoundaryHeap.Proofs.Faultless
import BoundaryHeap.Proofs.Matching
import Mathlib.Logic.Relation

namespace BoundaryHeap

namespace Region

variable {r : Region} {c d lo fuel hops : Nat} {t : Tag} {chunks : List Chunk}
  {damage : Option Fault}

/-- A chunk whose tag can be read has room for both links. -/
theorem admits_links (htag : r.tagAt c = .ok t) :
    r.Admits (nextField c) 4 ∧ r.Admits (referrerField c) 4 := by
  obtain ⟨hgrid, hmin, -, hend, -⟩ := tagAt_eq_ok_iff.1 htag
  simp only [nextField, referrerField, tagBytes, Admits, Spans]
  omega

theorem nextOf_of_tagAt (htag : r.tagAt c = .ok t) : ∃ next, r.nextOf c = .ok next := by
  obtain ⟨w, hw⟩ := read32_of_admits (admits_links htag).1
  exact ⟨_, by rw [nextOf, hw]; rfl⟩

theorem referrerOf_of_admits (h : r.Admits (referrerField c) 4) :
    ∃ f, r.referrerOf c = .ok f := by
  obtain ⟨w, hw⟩ := read32_of_admits h
  exact ⟨_, by rw [referrerOf, referrerWord, hw]; rfl⟩

theorem referrerOf_of_not_admits (h : ¬r.Admits (referrerField c) 4) :
    r.referrerOf c = .error (r.accessFault (referrerField c) 4) := by
  rw [referrerOf, referrerWord, read32, if_neg h]
  rfl

/-- The induction is on the fuel, and what is left of the region pays for it: each chunk that is
passed has at least 32 bytes. -/
theorem walkFrom_tiles (hlo : lo ≤ r.len) (hfuel : r.len < lo + 32 * fuel)
    (hwalk : r.walkFrom fuel lo = (chunks, damage)) :
    ∃ hi, Tiles lo chunks hi ∧ hi ≤ r.len ∧ (∀ c t, (c, t) ∈ chunks → r.tagAt c = .ok t) ∧
      (damage.isSome ↔ hi ≠ r.len) ∧
      ∀ f ∈ damage, ∃ found, f = .corrupt hi found ∧ r.tagAt hi = .error f := by
  induction fuel generalizing lo chunks with
  | zero => omega
  | succ fuel ih =>
    rw [walkFrom] at hwalk
    split at hwalk
    next hlt =>
      cases htag : r.tagAt lo with
      | error f =>
        rw [htag] at hwalk
        cases hwalk
        refine ⟨lo, rfl, hlo, by simp, by simp [Nat.ne_of_lt hlt], fun g hg => ?_⟩
        obtain rfl := Option.some.inj hg
        obtain ⟨found, rfl⟩ := failsIn_tagAt_here r lo f htag
        exact ⟨found, rfl, htag⟩
      | ok t =>
        rw [htag] at hwalk
        obtain ⟨-, hmin, hgrain, hend, -⟩ := tagAt_eq_ok_iff.1 htag
        rcases hrest : r.walkFrom fuel (lo + t.size) with ⟨rest, stop⟩
        simp only [hrest] at hwalk
        cases hwalk
        obtain ⟨hi, htiles, hle, htags, hstop, hreport⟩ := ih hend (by omega) hrest
        refine ⟨hi, ⟨rfl, ⟨hmin, hgrain⟩, htiles⟩, hle, fun c u hc => ?_, hstop, hreport⟩
        rcases List.mem_cons.1 hc with he | hc
        · cases he
          exact htag
        · exact htags c u hc
    next hge =>
      cases hwalk
      exact ⟨lo, rfl, hlo, by simp, by simp; omega, by simp⟩

theorem walk_tiles (r : Region) :
    ∃ hi, Tiles 0 r.walk.1 hi ∧ hi ≤ r.len ∧ (∀ c t, (c, t) ∈ r.walk.1 → r.tagAt c = .ok t) ∧
      (r.walk.2.isSome ↔ hi ≠ r.len) ∧
      ∀ f ∈ r.walk.2, ∃ found, f = .corrupt hi found ∧ r.tagAt hi = .error f :=
  walkFrom_tiles (Nat.zero_le _) (by simp only [minChunk]; omega) rfl

theorem reports_walk {f : Fault} (hf : r.walk.2 = some f) : f.Reports := by
  obtain ⟨hi, -, -, -, -, hreport⟩ := walk_tiles r
  obtain ⟨found, rfl, -⟩ := hreport f hf
  exact Fault.reports_corrupt hi found

/-- The chunk at `c` names the link of the chunk at `d` as the field that refers to it. -/
def Behind (r : Region) (c d : Nat) : Prop := r.referrerOf c = .ok (some (.next d))

/-- From the chunk behind a free chunk, itself free, the back-references lead to a place at which
no back-reference can be read. -/
inductive Strays (r : Region) : Fault → Prop where
  | intro {c d : Nat} {t u : Tag} (htag : r.tagAt c = .ok t) (hfree : t.free = true)
      (hsucc : r.tagAt (c + t.size) = .ok u) (hsuccFree : u.free = true)
      (hback : Relation.ReflTransGen r.Behind (c + t.size) d)
      (hout : ¬r.Admits (referrerField d) 4) : r.Strays (r.accessFault (referrerField d) 4)

/-- No word that names a field leads to a place without one. -/
def Traceable (r : Region) : Prop := ∀ c d, r.Behind c d → r.Admits (referrerField d) 4

theorem Traceable.not_strays (h : r.Traceable) {f : Fault} : ¬r.Strays f := by
  rintro ⟨-, -, hsucc, -, hback, hout⟩
  cases hback with
  | refl => exact hout (admits_links hsucc).2
  | tail _ hstep => exact hout (h _ _ hstep)

theorem leadsToClean_error {f : Option Referrer} {e : Fault}
    (hstart : r.referrerOf c = .ok f) (he : Heap.leadsToClean r hops f = .error e) :
    ∃ d, Relation.ReflTransGen r.Behind c d ∧ ¬r.Admits (referrerField d) 4 ∧
      e = r.accessFault (referrerField d) 4 := by
  induction hops generalizing c f with
  | zero => rcases f with _ | _ | _ <;> cases he
  | succ hops ih =>
    rcases f with _ | l | d
    · cases he
    · cases he
    · have hstep : r.Behind c d := hstart
      by_cases hd : r.Admits (referrerField d) 4
      · obtain ⟨f', hf'⟩ := referrerOf_of_admits hd
        rw [Heap.leadsToClean, Fault.bind_ok hf'] at he
        obtain ⟨d', hback, hout, he⟩ := ih hf' he
        exact ⟨d', .head hstep hback, hout, he⟩
      · rw [Heap.leadsToClean, referrerOf_of_not_admits hd] at he
        cases he
        exact ⟨d, .single hstep, hd, rfl⟩

end Region

namespace Heap

variable {h : Heap} {c : Nat} {t : Tag} {l : ListId}

/-- What an audit may end in: a report of damage, or a back-reference that strays. -/
def Ending (h : Heap) (f : Fault) : Prop := f.Reports ∨ h.region.Strays f

theorem ending_corrupt (h : Heap) (offset : Nat) (damage : Damage) :
    h.Ending (.corrupt offset damage) :=
  .inl (Fault.reports_corrupt offset damage)

theorem failsIn_auditChunk {sums : ChunkSums} (hword : c / granule < LiveMap.capacity)
    (hfits : (sums.add t).Fits) : FailsIn h.Ending (h.auditChunk sums (c, t)) := by
  rw [auditChunk_eq hword hfits]
  refine (failsIn_require (ending_corrupt _ _ _)).bind fun _ _ => ?_
  exact (failsIn_require (ending_corrupt _ _ _)).bind fun _ _ => failsIn_ok _

/-- Where the walk has come to bounds all the sums. -/
theorem failsIn_foldlM_auditChunk {sums : ChunkSums} {chunks : List Chunk} {stop : Nat}
    (htiles : Tiles sums.covered chunks stop) (hstop : stop ≤ maxRegion)
    (hfits : (sums.addAll chunks stop).Fits) :
    FailsIn h.Ending (chunks.foldlM h.auditChunk sums) := by
  induction chunks generalizing sums with
  | nil => exact failsIn_ok sums
  | cons x rest ih =>
    obtain ⟨c, t⟩ := x
    have hword : c / granule < LiveMap.capacity :=
      LiveMap.lt_capacity (htiles.bounds (List.mem_cons_self ..)).2 hstop
    obtain ⟨rfl, -, hrest⟩ := htiles
    rw [← sums.covered_add] at hrest
    rw [ChunkSums.addAll_cons] at hfits
    rw [List.foldlM_cons]
    refine (failsIn_auditChunk hword (hfits.of_addAll hrest.le)).bind fun sums' hok => ?_
    obtain ⟨-, -, rfl⟩ := of_auditChunk hok
    exact ih hrest hfits

theorem failsIn_auditChunks (hlen : h.len ≤ maxRegion) : FailsIn h.Ending h.auditChunks := by
  obtain ⟨hi, htiles, hle, -⟩ := h.region.walk_tiles
  unfold auditChunks
  rcases hwalk : h.region.walk with ⟨chunks, damage⟩
  rw [hwalk] at htiles
  have hstop : hi ≤ maxRegion := hle.trans hlen
  have hstart : Tiles (ChunkSums.mk 0 0 0 0).covered chunks hi := htiles
  have hfits := ChunkSums.fits_ofChunks htiles hstop
  rw [← ChunkSums.addAll_zero] at hfits
  refine (failsIn_foldlM_auditChunk hstart hstop hfits).bind fun sums _ => ?_
  cases damage with
  | none => exact (failsIn_require (ending_corrupt _ _ _)).bind fun _ _ => failsIn_ok _
  | some f => exact failsIn_error (.inl (Region.reports_walk (by rw [hwalk])))

theorem failsIn_auditMaximal (htag : h.region.tagAt c = .ok t) (hfree : t.free = true) :
    FailsIn h.Ending (h.auditMaximal c t.size) := by
  unfold auditMaximal Region.above
  split
  next => exact failsIn_ok ()
  next succ habove =>
    obtain ⟨-, hsome⟩ := Option.ite_none_right_eq_some.1 habove
    obtain rfl := Option.some.inj hsome
    refine ((Region.failsIn_tagAt _ _).mono fun _ => .inl).bind fun u hsucc => ?_
    split
    next hsuccFree =>
      obtain ⟨f, hf⟩ := Region.referrerOf_of_admits (Region.admits_links hsucc).2
      rw [Fault.bind_ok hf]
      refine FailsIn.bind (fun e he => ?_) fun _ _ => failsIn_require (ending_corrupt _ _ _)
      obtain ⟨d, hback, hout, rfl⟩ := Region.leadsToClean_error hf he
      exact .inr (.intro htag hfree hsucc hsuccFree hback hout)
    next => exact failsIn_ok ()

theorem failsIn_auditMember (h : Heap) (l : ListId) (expected : Referrer) (last : Option Nat)
    (c : Nat) : FailsIn h.Ending (h.auditMember l expected last c) := by
  unfold auditMember
  refine ((Region.failsIn_tagAt _ _).mono fun _ => .inl).bind fun t htag => ?_
  refine (failsIn_require (ending_corrupt _ _ _)).bind fun _ hfree => ?_
  obtain ⟨f, hf⟩ := Region.referrerOf_of_admits (Region.admits_links htag).2
  rw [Fault.bind_ok hf]
  refine (failsIn_require (ending_corrupt _ _ _)).bind fun _ _ => ?_
  refine (failsIn_require (ending_corrupt _ _ _)).bind fun _ _ => ?_
  refine (failsIn_require (ending_corrupt _ _ _)).bind fun _ _ => ?_
  split
  · exact failsIn_auditMaximal htag (Fault.require_eq_ok_iff.1 hfree)
  · exact failsIn_ok ()

/-- The tag of a member has been read before its link is followed. -/
theorem failsIn_auditList (h : Heap) (l : ListId) (budget : Nat) (expected : Referrer)
    (last cur : Option Nat) : FailsIn h.Ending (h.auditList l budget expected last cur) := by
  induction budget generalizing expected last cur with
  | zero =>
    cases cur with
    | none => exact failsIn_ok 0
    | some c => exact failsIn_error (ending_corrupt _ _ _)
  | succ budget ih =>
    cases cur with
    | none => exact failsIn_ok 0
    | some c =>
      rw [auditList]
      refine (h.failsIn_auditMember l expected last c).bind fun _ hmember => ?_
      obtain ⟨t, hpass⟩ := auditMember_eq_ok_iff.1 hmember
      obtain ⟨next, hnext⟩ := Region.nextOf_of_tagAt hpass.tag
      rw [Fault.bind_ok hnext]
      exact (ih (.next c) (some c) next).bind fun _ _ => failsIn_ok _

theorem failsIn_auditLists (h : Heap) : FailsIn h.Ending h.auditLists := by
  refine failsIn_foldlM (fun sums l => ?_) _ _
  exact (h.failsIn_auditList l _ _ _ _).bind fun _ _ => failsIn_ok _

theorem failsIn_audit (hle : h.counters.inUse ≤ h.len) (hlen : h.len ≤ maxRegion) :
    FailsIn h.Ending h.audit := by
  have hcount : h.len / granule ≤ LiveMap.capacity := LiveMap.div_le_capacity hlen
  unfold audit
  refine (failsIn_auditChunks hlen).bind fun chunks _ => h.failsIn_auditLists.bind fun lists _ => ?_
  refine (failsIn_require (ending_corrupt _ _ _)).bind fun _ _ => ?_
  refine (failsIn_require (ending_corrupt _ _ _)).bind fun _ _ => ?_
  rw [LiveMap.countMarked?_eq, if_pos hcount, Fault.bind_ok (Fault.orElse_some _ _)]
  refine (failsIn_require (ending_corrupt _ _ _)).bind fun _ _ => ?_
  obtain ⟨stats, hstats, -⟩ := snapshot_of_le hle
  rw [Fault.bind_ok hstats]
  exact failsIn_require (ending_corrupt _ _ _)

end Heap

namespace World

variable {w : World}

/-- The audit of a heap that has been run, its bytes overwritten, passes or reports damage, unless
back-references stray. -/
theorem audit_ends (hw : w.Reachable) (bytes : ByteArray) (hsize : bytes.size = w.heap.len) :
    let h := w.heap.overwritten bytes
    (h.audit = .ok () ∨ (∃ offset damage, h.audit = .error (.corrupt offset damage)) ∨
      ∃ f, h.audit = .error f ∧ h.region.Strays f) ∧
    (h.region.Traceable → h.audit = .ok () ∨
      ∃ offset damage, h.audit = .error (.corrupt offset damage)) := by
  intro h
  obtain ⟨A, hA⟩ := hw.tracks
  have hlen : h.len = w.heap.len := hsize
  have hle : h.counters.inUse ≤ h.len := by
    rw [hlen]
    exact hA.intact.inUse_le
  have hbounded : h.len ≤ maxRegion := by
    rw [hlen]
    exact hA.intact.bounded
  cases haudit : h.audit with
  | ok u => exact ⟨.inl rfl, fun _ => .inl rfl⟩
  | error f =>
    rcases Heap.failsIn_audit hle hbounded f haudit with ⟨offset, damage, rfl⟩ | hstrays
    · exact ⟨.inr (.inl ⟨offset, damage, rfl⟩), fun _ => .inr ⟨offset, damage, rfl⟩⟩
    · exact ⟨.inr (.inr ⟨f, rfl, hstrays⟩), fun htraceable => absurd hstrays htraceable.not_strays⟩

/-- A clean chunk at 112, behind it a chunk of the dirty list of the same bin. -/
def tended : World :=
  match Heap.takeOver 0x40100000 ⟨Array.replicate 176 0⟩ with
  | .ok (h, _) => World.after ⟨h, []⟩ [.allocate 64 .kernel, .allocate 16 .kernel,
      .allocate 16 .kernel, .allocate 16 .kernel, .release (some 0x40100078), .merge,
      .release (some 0x40100008), .release (some 0x40100098), .allocate 64 .kernel]
  | .error _ => sample

theorem reachable_tended : tended.Reachable := by
  unfold tended
  split
  next h journal h₀ => exact (Reachable.start h₀).after _
  next => exact reachable_sample

/-- The back-reference of the second of these chunks leads far out of the region. -/
def mislaidBytes : ByteArray :=
  (tended.heap.region.putNat (Region.referrerField 144) 4 0x7FFFFFF0).bytes

theorem mislaid_strays : mislaidBytes.size = tended.heap.len ∧
    (tended.heap.overwritten mislaidBytes).audit =
      .error (.abort (.access 4 0x7FFFFFFC 176)) := by
  decide +kernel

theorem tended_ends :
    (tended.Reachable ∧ mislaidBytes.size = tended.heap.len) ∧
      let h := tended.heap.overwritten mislaidBytes
      (h.audit = .ok () ∨ (∃ offset damage, h.audit = .error (.corrupt offset damage)) ∨
        ∃ f, h.audit = .error f ∧ h.region.Strays f) ∧
      (h.region.Traceable → h.audit = .ok () ∨
        ∃ offset damage, h.audit = .error (.corrupt offset damage)) :=
  ⟨⟨reachable_tended, mislaid_strays.1⟩, audit_ends reachable_tended mislaidBytes mislaid_strays.1⟩

/-- One overwritten back-reference makes the audit reach out of the region. -/
theorem audit_strays :
    ¬∀ (w : World) (bytes : ByteArray), w.Reachable → bytes.size = w.heap.len →
      (w.heap.overwritten bytes).audit = .ok () ∨
        ∃ offset damage, (w.heap.overwritten bytes).audit = .error (.corrupt offset damage) := by
  intro hreports
  obtain ⟨hsize, haudit⟩ := mislaid_strays
  rcases hreports tended mislaidBytes reachable_tended hsize with hok | ⟨offset, damage, hcorrupt⟩
  · rw [haudit] at hok
    cases hok
  · rw [haudit] at hcorrupt
    cases hcorrupt

end World

end BoundaryHeap
