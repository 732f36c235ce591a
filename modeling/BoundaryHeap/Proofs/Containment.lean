import BoundaryHeap.Proofs.Damaged
import BoundaryHeap.Proofs.Matching

namespace BoundaryHeap

open Region (Changed linkBytesOf)

/-- How the links of the free chunk at `d` are found in `r'`: behind it is what was there in `r` or
nothing, and if it names the link of a chunk, then that of a free chunk or one that does not lead
back to it. -/
structure Region.Tame (chunks : List Chunk) (r r' : Region) (d : Nat) : Prop where
  next : r'.nextAt d = none ∨ r'.nextAt d = r.nextAt d
  prev : ∀ x, Referrer.decode (r'.referrerAt d) = some (.next x) →
    r'.Holds x ∧ (FreeIn chunks x ∨ r'.nextAt x ≠ some d)

namespace Store

variable {s t : Store} {N : Set Nat} {A : Shape} {d : Nat} {u : Tag}

/-- The links of one chunk are overwritten: no field refers to another chunk than before. -/
theorem Woven.loosened (h : s.Woven True N ∅) (hd : d ∈ N) (hheads : t.heads = s.heads)
    (hlen : t.region.len = s.region.len)
    (hnext : ∀ c ∈ N, c ≠ d → t.targetAt (.next c) = s.targetAt (.next c))
    (hreferrer : ∀ c ∈ N, c ≠ d → t.referrerAt c = s.referrerAt c)
    (hself : t.targetAt (.next d) = none ∨ t.targetAt (.next d) = s.targetAt (.next d))
    (hprev : ∀ x, Referrer.decode (t.referrerAt d) = some (.next x) →
      t.region.Holds x ∧ (x ∈ N ∨ t.targetAt (.next x) ≠ some d)) :
    t.Woven False N ∅ := by
  have htarget : ∀ f, FieldOf N f → ∀ c, t.targetAt f = some c → s.targetAt f = some c := by
    intro f hf c hc
    cases f with
    | head l => exact (congrArg (·.get l) hheads).symm.trans hc
    | next e =>
      by_cases hed : e = d
      · subst hed
        rcases hself with he | he
        · rw [he] at hc
          cases hc
        · exact he.symm.trans hc
      · exact (hnext e hf hed).symm.trans hc
  constructor
  case short =>
    rw [hlen]
    exact h.short
  case holds => exact fun c hc => (h.holds c hc).of_len hlen
  case apart => exact h.apart
  case leads => exact fun f hf c hc => h.leads f hf c (htarget f hf c hc)
  case once =>
    exact fun f g hf hg c hc hc' => h.once f g hf hg c (htarget f hf c hc) (htarget g hg c hc')
  case names =>
    intro c hc f hf
    by_cases hcd : c = d
    · subst hcd
      cases f with
      | head l => exact ⟨trivial, .inl trivial⟩
      | next x => exact hprev x hf
    · rw [hreferrer c hc hcd] at hf
      obtain ⟨g, hg, -, hgword⟩ := h.named trivial hc
      obtain rfl := Option.some.inj (hgword.symm.trans hf)
      exact ⟨(h.inside hg).of_len hlen, .inl hg⟩
  case hand => exact fun c hc => absurd hc (Set.notMem_empty c)
  case last =>
    intro r hr
    have hr' := htarget (.head .remainder) trivial r hr
    have hrN : r ∈ N := h.leads (.head .remainder) trivial r hr'
    have hlast := h.last r hr'
    by_cases hrd : r = d
    · subst hrd
      rcases hself with he | he
      · exact he
      · exact he.trans hlast
    · exact (hnext r hrN hrd).trans hlast
  case exact => exact fun hwhole => hwhole.elim
  case reached => exact fun hwhole => hwhole.elim

theorem Represents.upholds_tame (h : s.Represents A) (hA : A.Settled) (hd : (d, u) ∈ A.chunks)
    (hfree : u.free = true) (hheads : t.heads = s.heads)
    (hr : Changed (linkBytesOf {d}) s.region t.region)
    (htame : Region.Tame A.chunks s.region t.region d) :
    t.Upholds ⟨t.region, A.chunks, ∅, False⟩ A.chunks ∅ := by
  have hgrid := h.valid.tiles.mod_of_mem rfl hd
  have hfreeAt : ∀ e ∈ ({d} : Set Nat), A.IsFree e := by
    rintro e rfl
    exact ⟨u, hd, hfree⟩
  apply h.upholds hr.len
  · exact fun c hc => absurd hc (Set.notMem_empty c)
  · exact fun c v hc _ => h.tags_relinked hfreeAt hr hc
  · have hlisted : d ∈ unheld A.chunks ∅ := ⟨⟨u, hd, hfree⟩, Set.notMem_empty d⟩
    apply (h.linked.woven_settled hA).loosened hlisted hheads hr.len
    · rintro c ⟨⟨v, hv, -⟩, -⟩ hne
      have hgrid' := h.valid.tiles.mod_of_mem rfl hv
      apply targetAt_changed hr
      rintro i hlo hhi ⟨e, rfl, helo, hehi⟩
      exact hne (by omega)
    · intro c hc hne
      exact h.referrerAt_relinked hfreeAt hr hc.1 hne
    · exact htame.next
    · intro x hx
      obtain ⟨hholds, hor⟩ := htame.prev x hx
      refine ⟨hholds, ?_⟩
      rcases hor with hfreeIn | hne
      · exact .inl ⟨hfreeIn, Set.notMem_empty x⟩
      · exact .inr hne

end Store

def Heap.linkedBytes (h : Heap) (d : Nat) (next prev : UInt32) : ByteArray :=
  ((h.region.putNat (d + 8) 4 next.toNat).putNat (d + 12) 4 prev.toNat).bytes

theorem Heap.region_overwritten {h : Heap} {r : Region} (hbase : r.base = h.base) :
    (h.overwritten r.bytes).region = r := by
  obtain ⟨base, bytes⟩ := r
  obtain rfl : base = h.base := hbase
  rfl

theorem Heap.changed_linkedBytes (h : Heap) (d : Nat) (next prev : UInt32) :
    Changed (linkBytesOf {d}) h.region (h.overwritten (h.linkedBytes d next prev)).region := by
  have hbase : ((h.region.putNat (d + 8) 4 next.toNat).putNat (d + 12) 4 prev.toNat).base =
      h.base := by
    rw [Region.base_putNat, Region.base_putNat, Heap.base, Heap.region]
  have hsub : ∀ lo, d + 8 ≤ lo → lo + 4 ≤ d + 16 → Set.Ico lo (lo + 4) ⊆ linkBytesOf {d} := by
    intro lo hlo hhi i hi
    rw [Set.mem_Ico] at hi
    exact Region.mem_linkBytesOf.2 ⟨d, rfl, by omega, by omega⟩
  rw [linkedBytes, Heap.region_overwritten hbase]
  apply ((Region.changed_putNat (d + 8) 4 _).mono (hsub _ (by omega) (by omega))).trans
  exact (Region.changed_putNat (d + 12) 4 _).mono (hsub _ (by omega) (by omega))

def Heap.SameLive (chunks : List Chunk) (h h' : Heap) : Prop :=
  ∀ c t, (c, t) ∈ chunks → t.free = false → ∀ i, c ≤ i → i < c + t.size →
    h'.region.byteAt i = h.region.byteAt i

theorem Heap.sameLive_of_spares {W : Wreck} {h h' : Heap} (hspares : Heap.Spares W h'.store)
    (hregion : W.region = h.region) : Heap.SameLive W.chunks h h' := by
  intro c t hc hlive i hlo hhi
  have hsame := hspares.same i ?_
  · rw [hregion] at hsame
    exact hsame
  · intro hi
    have hside := hi c t (mem_liveIn.2 ⟨hc, hlive⟩)
    omega

/-- Where a program on a damaged heap stops, it reports damage, unless a walk has no end. -/
theorem Wreck.Fails.cases {W : Wreck} {f : Fault} {s : Store} (h : W.Fails f s)
    (hends : f ≠ .endless) : (∃ offset damage, f = .corrupt offset damage) ∧ Heap.Spares W s := by
  rcases h with he | ⟨hreports, chunks, H, hs, -⟩
  · exact absurd he hends
  · exact ⟨hreports, hs.changed⟩

namespace World

variable {w : World} {d : Nat} {t : Tag}

/-- The links of one free chunk are overwritten, but do not lead astray: a call that comes to its
end is served or reports the damage, and no byte of a live chunk changes. -/
theorem links_contained (hw : w.Reachable) (hd : (d, t) ∈ w.heap.chunks) (hfree : t.free = true)
    (bytes : ByteArray)
    (hlinks : Changed (linkBytesOf {d}) w.heap.region (w.heap.overwritten bytes).region)
    (htame : Region.Tame w.heap.chunks w.heap.region (w.heap.overwritten bytes).region d) :
    let h := w.heap.overwritten bytes
    (∀ request owner, (h.run (Heap.allocate request owner)).result ≠ .error .endless →
      ((∃ addr, (h.run (Heap.allocate request owner)).result = .ok addr) ∨
        (h.run (Heap.allocate request owner)).result = .error (.error (.outOfMemory request)) ∨
        ∃ offset damage,
          (h.run (Heap.allocate request owner)).result = .error (.corrupt offset damage)) ∧
      Heap.SameLive w.heap.chunks h (h.run (Heap.allocate request owner)).after) ∧
    ((h.run Heap.merge).result ≠ .error .endless →
      ((h.run Heap.merge).result = .ok () ∨
        ∃ offset damage, (h.run Heap.merge).result = .error (.corrupt offset damage)) ∧
      Heap.SameLive w.heap.chunks h (h.run Heap.merge).after) := by
  intro h
  obtain ⟨A, hA⟩ := hw.tracks
  have huse : h.counters.inUse ≤ maxRegion := hA.intact.inUse_bounded
  have hchunks := hA.intact.chunks
  rw [hchunks] at hd htame ⊢
  have hupholds : h.store.Upholds ⟨h.region, A.chunks, ∅, False⟩ A.chunks ∅ :=
    hA.intact.store.upholds_tame (t := h.store) hA.intact.settled hd hfree rfl hlinks htame
  constructor
  · intro request owner hends
    have hmeets := Heap.meets_allocate (σ := ⟨h, []⟩) hupholds huse request owner
    rcases Heap.run_of_meets hmeets with ⟨addr, hrun, hspares⟩ | ⟨f, hrun, ⟨rfl, hspares⟩ | hfails⟩
    · exact ⟨.inl ⟨addr, hrun⟩, Heap.sameLive_of_spares hspares rfl⟩
    · exact ⟨.inr (.inl hrun), Heap.sameLive_of_spares hspares rfl⟩
    · have hne : f ≠ .endless := fun he => hends (he ▸ hrun)
      obtain ⟨⟨offset, damage, rfl⟩, hspares⟩ := hfails.cases hne
      exact ⟨.inr (.inr ⟨offset, damage, hrun⟩), Heap.sameLive_of_spares hspares rfl⟩
  · intro hends
    have hmeets := Heap.meets_merge (σ := ⟨h, []⟩) hupholds
    rcases Heap.run_of_meets hmeets with ⟨_, hrun, _, hafter⟩ | ⟨f, hrun, hfails⟩
    · exact ⟨.inl hrun, Heap.sameLive_of_spares hafter.changed rfl⟩
    · have hne : f ≠ .endless := fun he => hends (he ▸ hrun)
      obtain ⟨⟨offset, damage, rfl⟩, hspares⟩ := hfails.cases hne
      exact ⟨.inr ⟨offset, damage, hrun⟩, Heap.sameLive_of_spares hspares rfl⟩

/-- Three chunks fill the region; the first two were released, the second one last. -/
def relinked : World :=
  sample.after [.allocate 8 .kernel, .allocate 8 .kernel, .allocate 8 .kernel,
    .release (some 0x1008), .release (some 0x1028)]

theorem reachable_relinked : relinked.Reachable := reachable_sample.after _

theorem relinked_chunk : (32, ⟨32, true, .kernel⟩) ∈ relinked.heap.chunks := by decide +kernel

/-- This heap with other words in the links of the chunk released last. -/
def misled (next prev : UInt32) : Heap :=
  relinked.heap.overwritten (relinked.heap.linkedBytes 32 next prev)

/-- The chunk names no field and nothing behind it: the heap reports it. -/
theorem cleared_contained :
    (relinked.Reachable ∧ (32, ⟨32, true, .kernel⟩) ∈ relinked.heap.chunks ∧
      Changed (linkBytesOf {32}) relinked.heap.region (misled nilWord nilWord).region ∧
      Region.Tame relinked.heap.chunks relinked.heap.region (misled nilWord nilWord).region 32) ∧
    let o := (misled nilWord nilWord).run (Heap.allocate 8 .kernel)
    let m := (misled nilWord nilWord).run Heap.merge
    (o.result ≠ .error .endless ∧ m.result ≠ .error .endless) ∧
      (((∃ addr, o.result = .ok addr) ∨ o.result = .error (.error (.outOfMemory 8)) ∨
        ∃ offset damage, o.result = .error (.corrupt offset damage)) ∧
        Heap.SameLive relinked.heap.chunks (misled nilWord nilWord) o.after) ∧
      (m.result = .ok () ∨ ∃ offset damage, m.result = .error (.corrupt offset damage)) ∧
        Heap.SameLive relinked.heap.chunks (misled nilWord nilWord) m.after := by
  have hwords : (misled nilWord nilWord).region.nextAt 32 = none ∧
      (misled nilWord nilWord).region.referrerAt 32 = nilWord ∧
      ((misled nilWord nilWord).run (Heap.allocate 8 .kernel)).result ≠ .error .endless ∧
      ((misled nilWord nilWord).run Heap.merge).result ≠ .error .endless := by
    decide +kernel
  obtain ⟨hnext, hprev, hallocate, hmerge⟩ := hwords
  have hlinks : Changed (linkBytesOf {32}) relinked.heap.region (misled nilWord nilWord).region :=
    relinked.heap.changed_linkedBytes 32 nilWord nilWord
  have htame : Region.Tame relinked.heap.chunks relinked.heap.region
      (misled nilWord nilWord).region 32 := by
    refine ⟨.inl hnext, ?_⟩
    intro x hx
    rw [hprev, Referrer.decode_nilWord] at hx
    cases hx
  obtain ⟨hallocates, hmerges⟩ :=
    links_contained reachable_relinked relinked_chunk rfl _ hlinks htame
  exact ⟨⟨reachable_relinked, relinked_chunk, hlinks, htame⟩, ⟨hallocate, hmerge⟩,
    hallocates 8 .kernel hallocate, hmerges hmerge⟩

theorem astray_links :
    ((misled 64 0x80000001).run (Heap.allocate 8 .kernel)).result = .ok 0x1028 ∧
    ((misled 64 0x80000001).region.byteAt 76 = 0 ∧
      ((misled 64 0x80000001).run (Heap.allocate 8 .kernel)).after.region.byteAt 76 = 1) ∧
    ((misled 0x100000 0x80000001).run (Heap.allocate 8 .kernel)).result =
      .error (.abort (.access 4 0x10000C 96)) := by
  decide +kernel

/-- A request is served and a byte of a live chunk changes, because a link was followed. -/
theorem links_followed_astray :
    ¬∀ (w : World) (d : Nat) (t : Tag) (bytes : ByteArray), w.Reachable →
      (d, t) ∈ w.heap.chunks → t.free = true →
      Changed (linkBytesOf {d}) w.heap.region (w.heap.overwritten bytes).region →
      ∀ request owner,
        ((w.heap.overwritten bytes).run (Heap.allocate request owner)).result ≠ .error .endless →
        Heap.SameLive w.heap.chunks (w.heap.overwritten bytes)
          ((w.heap.overwritten bytes).run (Heap.allocate request owner)).after := by
  intro hcontained
  obtain ⟨hserved, ⟨hbefore, hafter⟩, -⟩ := astray_links
  have hlive : (64, ⟨32, false, .kernel⟩) ∈ relinked.heap.chunks := by decide +kernel
  have hlinks : Changed (linkBytesOf {32}) relinked.heap.region (misled 64 0x80000001).region :=
    relinked.heap.changed_linkedBytes 32 64 0x80000001
  have hends : ((misled 64 0x80000001).run (Heap.allocate 8 .kernel)).result ≠
      .error .endless := by
    rw [hserved]
    exact fun he => by cases he
  have hsame : ((misled 64 0x80000001).run (Heap.allocate 8 .kernel)).after.region.byteAt 76 =
      (misled 64 0x80000001).region.byteAt 76 :=
    hcontained relinked 32 _ _ reachable_relinked relinked_chunk rfl hlinks 8 .kernel hends 64 _
      hlive rfl 76 (by decide) (by decide)
  rw [hbefore, hafter] at hsame
  cases hsame

end World

end BoundaryHeap
