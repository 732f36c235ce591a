import BoundaryHeap.Proofs.Passing

namespace BoundaryHeap

namespace Heap

/-- The audit passes and judges the lists `L` rightly: its budget is large enough for them in the
order in which it takes them, its walks back find out which chunks are clean, and the chunks, marks
and counters that it compares agree. -/
structure Quiescent (h : Heap) (L : Lists) : Prop where
  audit : h.audit = .ok ()
  members : ∀ l, h.store.members l = .ok (L l)
  budget : ∀ done l rest, ListId.all = done ++ l :: rest →
    h.auditList l (h.len / minChunk - (done.flatMap L).length) (.head l) none
      (h.store.heads.get l) = .ok (L l).length
  hops : ∀ l c, c ∈ L l → ∃ f, h.region.referrerOf c = .ok f ∧
    leadsToClean h.region (h.len / minChunk) f = .ok (isCleanBin l)
  maximal : ∀ l c t, isCleanBin l = true → c ∈ L l → (c, t) ∈ h.chunks →
    h.auditMaximal c t.size = .ok ()
  complete : (ListId.all.flatMap L).length = freeChunks h.chunks
  inUse : h.counters.inUse = totalOf (liveIn h.chunks)
  marked : h.live.countMarked (h.len / granule) = (liveIn h.chunks).length

/-- Of two free neighbours on the lists `L` one is recent or dirty. The remainder counts as
clean. -/
structure Separated (h : Heap) (L : Lists) : Prop where
  members : ∀ l, h.store.members l = .ok (L l)
  apart : ∀ c t l l', (c, t) ∈ h.chunks → l.kind = .clean → l'.kind = .clean → c ∈ L l →
    c + t.size ∉ L l'
  unmerged : ∀ c t u, (c, t) ∈ h.chunks → (c + t.size, u) ∈ h.chunks → t.free = true →
    u.free = true → ∃ l, l.kind = .dirty ∧ (c ∈ L l ∨ c + t.size ∈ L l)

variable {h : Heap} {A : Shape} {c : Nat} {l : ListId} {done rest : List ListId}

theorem Intact.length_listed_le (hi : h.Intact A) :
    (ListId.all.flatMap A.lists).length ≤ h.len / minChunk := by
  have hlength := hi.settled.valid.tiles.length_le
  have hle := List.countP_le_length (p := fun x : Chunk => x.2.free) (l := A.chunks)
  rw [hi.settled.length_listed, hi.len]
  simp only [minChunk]
  omega

/-- What the lists before it have used leaves enough of the budget for the next list. -/
theorem Intact.auditList (hi : h.Intact A) (hall : ListId.all = done ++ l :: rest) :
    h.auditList l (h.len / minChunk - (done.flatMap A.lists).length) (.head l) none
      (h.store.heads.get l) = .ok (A.lists l).length := by
  have htotal := hi.length_listed_le
  rw [hall, List.flatMap_append, List.flatMap_cons, List.length_append, List.length_append]
    at htotal
  exact auditList_eq_ok_iff.2 ⟨A.lists l, hi.audited.lists l, by omega, rfl⟩

/-- The walk back from any listed chunk reaches the head of its list. -/
theorem Intact.leadsToClean (hi : h.Intact A) (hc : c ∈ A.lists l) :
    ∃ f, h.region.referrerOf c = .ok f ∧
      leadsToClean h.region (h.len / minChunk) f = .ok (isCleanBin l) := by
  obtain ⟨xs, ys, hsplit⟩ := List.append_of_mem hc
  have hlength := hi.settled.valid.length_le l
  rw [hsplit, List.length_append, ← hi.len] at hlength
  have hreferrer : h.region.referrerOf c = _ := (hi.store.linked.referrer hsplit).1
  have hhops : xs.length ≤ h.len / minChunk := by omega
  exact ⟨_, hreferrer, hi.store.linked.leadsToClean hsplit hhops⟩

theorem Intact.quiescent (hi : h.Intact A) : h.Quiescent A.lists where
  audit := hi.audit
  members := hi.store.members
  budget _ _ _ hall := hi.auditList hall
  hops _ _ hc := hi.leadsToClean hc
  maximal l c t hl hc ht := by
    rw [hi.chunks] at ht
    exact hi.auditMaximal ht ⟨l, clean_of_isCleanBin hl, hc⟩
  complete := by
    rw [hi.chunks]
    exact hi.settled.length_listed
  inUse := by
    rw [hi.chunks]
    exact hi.inUse
  marked := by
    rw [hi.chunks]
    exact hi.countMarked

theorem Intact.separated (hi : h.Intact A) : h.Separated A.lists where
  members := hi.store.members
  apart c t l l' hc hl hl' hmem hnext := by
    rw [hi.chunks] at hc
    exact hi.settled.apart c t hc ⟨l, hl, hmem⟩ ⟨l', hl', hnext⟩
  unmerged c t u hc hd hfree hfree' := by
    rw [hi.chunks] at hc hd
    obtain ⟨l, hl⟩ := hi.settled.listed ⟨t, hc, hfree⟩ (Set.notMem_empty _)
    obtain ⟨l', hl'⟩ := hi.settled.listed ⟨u, hd, hfree'⟩ (Set.notMem_empty _)
    cases hkind : l.kind with
    | dirty => exact ⟨l, hkind, .inl hl⟩
    | clean =>
      cases hkind' : l'.kind with
      | dirty => exact ⟨l', hkind', .inr hl'⟩
      | clean => exact absurd ⟨l', hkind', hl'⟩ (hi.settled.apart c t hc ⟨l, hkind, hl⟩)

end Heap

namespace World

variable {w : World}

/-- No run, whatever its calls are and however they end, makes the audit report damage. -/
theorem reachable_quiescent (hw : w.Reachable) : ∃ L, w.heap.Quiescent L := by
  obtain ⟨A, hA⟩ := hw.tracks
  exact ⟨A.lists, hA.intact.quiescent⟩

/-- Three smallest chunks, all of them free, use up the whole budget. -/
theorem crowded_quiescent :
    let w := sample.after [.allocate 8 .kernel, .allocate 8 .kernel, .release (some 0x1008),
      .release (some 0x1028)]
    Heap.freeChunks w.heap.chunks = w.heap.len / minChunk ∧ ∃ L, w.heap.Quiescent L := by
  exact ⟨by decide +kernel, reachable_quiescent (reachable_sample.after _)⟩

/-- No run leaves two clean chunks side by side: merging the dirty ones merges all free space. -/
theorem reachable_separated (hw : w.Reachable) : ∃ L, w.heap.Separated L := by
  obtain ⟨A, hA⟩ := hw.tracks
  exact ⟨A.lists, hA.intact.separated⟩

/-- The chunk in front of the remainder is free, and it is recent. -/
theorem neighbours_separated :
    let w := sample.after [.allocate 8 .kernel, .release (some 0x1008)]
    layoutOf w.heap.chunks = [(0, 32, true), (32, 64, true)] ∧ ∃ L, w.heap.Separated L := by
  exact ⟨by decide +kernel, reachable_separated (reachable_sample.after _)⟩

end World

end BoundaryHeap
