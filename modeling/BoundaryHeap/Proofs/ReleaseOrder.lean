import BoundaryHeap.Proofs.Counting
import BoundaryHeap.Proofs.Determined
import BoundaryHeap.Proofs.Faultless

namespace BoundaryHeap

open Region (Changed linkBytesOf)

namespace Shape

variable {A B C : Shape} {c d : Nat} {t : Tag} {l : ListId} {xs ys : List Chunk}

theorem mem_lists_demote : d ∈ (A.demote c).lists l ↔
    (d ∈ A.lists l ∧ d ≠ c) ∨ (d = c ∧ l = .dirty (sizeClass (A.sizeAt c))) := by
  rw [Shape.demote, lists_file, Lists.mem_filed]
  simp only [Shape.unlist, Lists.mem_without]
  rfl

theorem mem_lists_demoteAll (cs : List Nat) : d ∈ (cs.foldl demote A).lists l ↔
    (d ∈ A.lists l ∧ d ∉ cs) ∨ (d ∈ cs ∧ l = .dirty (sizeClass (A.sizeAt d))) := by
  induction cs generalizing A with
  | nil => simp
  | cons c rest ih =>
    have hsize : (A.demote c).sizeAt d = A.sizeAt d := rfl
    rw [List.foldl_cons, ih, mem_lists_demote, hsize, List.mem_cons]
    by_cases hdc : d = c
    · subst hdc
      simp only [ne_eq, not_true_eq_false, and_false, false_or, true_and, true_or]
      tauto
    · simp only [hdc, ne_eq, not_false_eq_true, and_true, false_and, or_false, false_or]

theorem mem_lists_flush : d ∈ A.flush.lists l ↔ (d ∈ A.lists l ∧ d ∉ A.lists .recent) ∨
    (d ∈ A.lists .recent ∧ l = .dirty (sizeClass (A.sizeAt d))) :=
  mem_lists_demoteAll _

theorem chunks_flush : A.flush.chunks = A.chunks :=
  chunks_demoteAll _

theorem mem_lists_giveBack :
    d ∈ (A.giveBack c t).lists l ↔ d ∈ A.lists l ∨ (d = c ∧ l = .recent) := by
  rw [Shape.giveBack, lists_file, Lists.mem_filed]
  rfl

/-- `B` is `A` after its live chunks `xs` were given back. -/
structure Returned (A : Shape) (xs : List Chunk) (B : Shape) : Prop where
  live : ∀ x ∈ xs, x ∈ liveIn A.chunks
  settled : B.Settled
  len : B.len = A.len
  chunks : ∀ d u, (d, u) ∈ B.chunks ↔
    ((d, u) ∈ A.chunks ∧ ∀ t, (d, t) ∉ xs) ∨ ∃ t, (d, t) ∈ xs ∧ u = { t with free := true }
  lists : ∀ l d, d ∈ B.lists l ↔ d ∈ A.lists l ∨ (l = .recent ∧ ∃ t, (d, t) ∈ xs)

theorem Returned.nil (h : A.Settled) : A.Returned [] A := by
  refine ⟨?_, h, rfl, ?_, ?_⟩
  · simp
  · simp
  · simp

theorem Settled.live_giveBack (h : A.Settled) (hlive : ∀ x ∈ (c, t) :: xs, x ∈ liveIn A.chunks)
    (hfresh : ∀ u, (c, u) ∉ xs) : ∀ x ∈ xs, x ∈ liveIn (A.giveBack c t).chunks := by
  rintro ⟨d, u⟩ hd
  have hc := (mem_liveIn.1 (hlive _ (List.mem_cons_self ..))).1
  refine (h.mem_liveIn_giveBack hc).2 ⟨hlive _ (List.mem_cons_of_mem _ hd), ?_⟩
  rintro rfl
  exact hfresh u hd

theorem Returned.cons (h : A.Settled) (hlive : ∀ x ∈ (c, t) :: xs, x ∈ liveIn A.chunks)
    (hfresh : ∀ u, (c, u) ∉ xs) (hrest : (A.giveBack c t).Returned xs B) :
    A.Returned ((c, t) :: xs) B := by
  have hc := (mem_liveIn.1 (hlive _ (List.mem_cons_self ..))).1
  have hsize : ({ t with free := true } : Tag).size = t.size := rfl
  refine ⟨hlive, hrest.settled, hrest.len, fun d u => ?_, fun l d => ?_⟩
  · rw [hrest.chunks, Shape.giveBack, chunks_file, h.valid.mem_retag hc hsize]
    simp only [List.mem_cons, Prod.mk.injEq]
    by_cases hdc : d = c
    · subst hdc
      simp [hfresh]
    · simp [hdc]
  · rw [hrest.lists, mem_lists_giveBack]
    simp only [List.mem_cons, Prod.mk.injEq]
    by_cases hdc : d = c
    · subst hdc
      simp [hfresh]
    · simp [hdc]

theorem Returned.fields_subset (h : A.Returned xs B) (hA : A.Valid) :
    fields A.chunks ⊆ fields B.chunks := by
  rintro i ⟨c, t, hc, hi⟩
  by_cases hback : ∃ u, (c, u) ∈ xs
  · obtain ⟨u, hu⟩ := hback
    obtain rfl := hA.tiles.unique hc (mem_liveIn.1 (h.live _ hu)).1
    refine ⟨c, { t with free := true }, (h.chunks _ _).2 (.inr ⟨t, hu, rfl⟩), ?_⟩
    exact hi.imp_right fun hlink => ⟨rfl, hlink.2⟩
  · exact ⟨c, t, (h.chunks _ _).2 (.inl ⟨hc, fun u hu => hback ⟨u, hu⟩⟩), hi⟩

theorem Returned.chunks_eq (hB : A.Returned xs B) (hC : A.Returned ys C) (hperm : xs.Perm ys) :
    B.chunks = C.chunks := by
  apply eq_of_mem_iff hB.settled.valid.tiles.sorted hC.settled.valid.tiles.sorted
  rintro ⟨d, u⟩
  simp only [hB.chunks, hC.chunks, hperm.mem_iff]

/-- Once the recent cache is flushed, the order in which the chunks came back is forgotten. -/
theorem Returned.flush_eq (hB : A.Returned xs B) (hC : A.Returned ys C) (hperm : xs.Perm ys) :
    B.flush = C.flush := by
  have hchunks := hB.chunks_eq hC hperm
  have hlists : ∀ l d, d ∈ B.lists l ↔ d ∈ C.lists l := by
    intro l d
    simp only [hB.lists, hC.lists, hperm.mem_iff]
  apply hB.settled.flush.valid.eq_of_mem hC.settled.flush.valid
  · rw [Shape.flush, Shape.flush, len_demoteAll, len_demoteAll, hB.len, hC.len]
  · rw [chunks_flush, chunks_flush, hchunks]
    exact fun _ => .rfl
  · intro l d
    rw [mem_lists_flush, mem_lists_flush, hlists l, hlists .recent, sizeAt, hchunks, sizeAt]
  · exact hB.settled.recent_flush

end Shape

namespace Heap

variable {h h₁ h₂ : Heap} {A B C : Shape} {c : Nat} {t : Tag} {xs ys : List Chunk}

/-- `h'` is `h` after its live chunks `xs` were given back. -/
structure Regained (h : Heap) (A : Shape) (xs : List Chunk) (h' : Heap) (B : Shape) : Prop where
  intact : h'.Intact B
  shape : A.Returned xs B
  changed : Changed (fields B.chunks) h.region h'.region
  lastSize : h'.lastSize = h.lastSize
  counters : h'.counters = { h.counters with
    inUse := h'.counters.inUse
    frees := h.counters.frees + xs.length }

theorem Regained.nil (hi : h.Intact A) : h.Regained A [] h A :=
  ⟨hi, .nil hi.settled, .refl .., rfl, rfl⟩

/-- After the recent cache is flushed, a merge goes on from a store of the flushed shape. -/
theorem Intact.merge_flushed (hi : h.Intact A) :
    ∃ t : Store, t.Represents A.flush ∧ Changed (fields A.chunks) h.region t.region ∧
      ∀ n s', Store.drainAll h.fuel ListId.bins t = .ok n s' →
        (h.run Heap.merge).after = { h with store := s' } := by
  obtain ⟨t, hrun, ht, hr⟩ := (Store.Relinks.flush hi.settled hi.fuel).run h.store hi.store
  refine ⟨t, ht, hr.mono (Shape.linkBytesOf_fields fun c hc => hc), fun n s' hdrain => ?_⟩
  have hmerge : Store.mergeAll h.fuel h.store = .ok ((A.lists .recent).length, n) s' := by
    rw [Store.mergeAll, bind_ok hrun, bind_ok hdrain]
    rfl
  have hdoes : Does Heap.merge h () { h with store := s' } :=
    (Does.get Heap.fuel h).bind ((Does.lift hmerge).bind (.note _ _))
  exact hdoes.run.2

theorem Intact.live_eq (hB : h₁.Intact B) (hC : h₂.Intact C) (hchunks : B.chunks = C.chunks) :
    h₁.live = h₂.live := by
  apply LiveMap.eq_of_isMarked
  intro g
  rw [Bool.eq_iff_iff, hB.marks, hC.marks, hchunks]

theorem Intact.inUse_eq (hB : h₁.Intact B) (hC : h₂.Intact C) (hchunks : B.chunks = C.chunks) :
    h₁.counters.inUse = h₂.counters.inUse := by
  rw [hB.inUse, hC.inUse, hchunks]

theorem Regained.live_eq (hB : h.Regained A xs h₁ B) (hC : h.Regained A ys h₂ C)
    (hperm : xs.Perm ys) : h₁.live = h₂.live :=
  hB.intact.live_eq hC.intact (hB.shape.chunks_eq hC.shape hperm)

theorem Regained.counters_eq (hB : h.Regained A xs h₁ B) (hC : h.Regained A ys h₂ C)
    (hperm : xs.Perm ys) : h₁.counters = h₂.counters := by
  have hinUse := hB.intact.inUse_eq hC.intact (hB.shape.chunks_eq hC.shape hperm)
  rw [hB.counters, hC.counters, hinUse, hperm.length_eq]

/-- Whatever the order in which the chunks came back, a merge makes the same heap of it. -/
theorem Regained.merge_eq (hB : h.Regained A xs h₁ B) (hC : h.Regained A ys h₂ C)
    (hperm : xs.Perm ys) : (h₁.run Heap.merge).after = (h₂.run Heap.merge).after := by
  have hflush := hB.shape.flush_eq hC.shape hperm
  have hsettled := hB.shape.settled.flush
  obtain ⟨t₁, ht₁, hr₁, hmerge₁⟩ := hB.intact.merge_flushed
  obtain ⟨t₂, ht₂, hr₂, hmerge₂⟩ := hC.intact.merge_flushed
  -- both flushed stores have one shape, and both differ from the store of `h` in its fields alone
  have hchanged₁ : Changed (fields B.flush.chunks) h.region t₁.region := by
    rw [Shape.chunks_flush]
    exact hB.changed.trans hr₁
  have hchanged₂ : Changed (fields B.flush.chunks) h.region t₂.region := by
    rw [hflush, Shape.chunks_flush]
    exact hC.changed.trans hr₂
  rw [← hflush] at ht₂
  obtain rfl := ht₁.determined ht₂ hsettled hchanged₁ hchanged₂
  have hlen : B.flush.len = B.len := Shape.len_demoteAll _
  have hdrain := Store.Takes.drainAll hsettled (hlen ▸ hB.intact.fuel) ListId.bins
  obtain ⟨s', hrun, -⟩ := hdrain.run t₁ ht₁
  have hfuel : h₁.fuel = h₂.fuel := hB.changed.len.trans hC.changed.len.symm
  rw [hmerge₁ _ _ hrun, hmerge₂ _ _ (hfuel ▸ hrun), hB.live_eq hC hperm, hB.lastSize, hC.lastSize,
    hB.counters_eq hC hperm]

theorem Regained.cons (hi : h.Intact A) (hlive : ∀ x ∈ (c, t) :: xs, x ∈ liveIn A.chunks)
    (hfresh : ∀ u, (c, u) ∉ xs)
    (hchanged : Changed (fields (A.giveBack c t).chunks) h.region h₁.region)
    (hlast : h₁.lastSize = h.lastSize) (hcounters : h₁.counters = h.counters.giveBack t.size)
    (hrest : h₁.Regained (A.giveBack c t) xs h₂ B) : h.Regained A ((c, t) :: xs) h₂ B := by
  obtain ⟨hc, hbusy⟩ := mem_liveIn.1 (hlive _ (List.mem_cons_self ..))
  have hvalid := (hi.settled.giveBack hc hbusy).valid
  refine ⟨hrest.intact, .cons hi.settled hlive hfresh hrest.shape, ?_, ?_, ?_⟩
  · exact (hchanged.mono (hrest.shape.fields_subset hvalid)).trans hrest.changed
  · exact hrest.lastSize.trans hlast
  · rw [hrest.counters, hcounters, Counters.giveBack, List.length_cons, Nat.add_right_comm,
      Nat.add_assoc]

end Heap

def releasesOf (addrs : List Nat) : List Action :=
  addrs.map fun addr => .release (some addr)

namespace World

variable {w : World} {A : Shape} {xs : List Chunk} {base : Nat}

def Succeeds : World → List Action → Prop
  | _, [] => True
  | w, a :: rest => w.answer a = .ok () ∧ Succeeds (w.step a) rest

theorem succeeds_append {w : World} {as bs : List Action} :
    w.Succeeds (as ++ bs) ↔ w.Succeeds as ∧ (w.after as).Succeeds bs := by
  induction as generalizing w with
  | nil => exact (and_iff_right trivial).symm
  | cons a rest ih =>
    rw [List.cons_append, Succeeds, Succeeds, ih, and_assoc]
    rfl

theorem Tracks.releases (hw : w.Tracks A) (hbase : w.heap.base = base)
    (hlive : ∀ x ∈ xs, x ∈ liveIn A.chunks) (hnodup : (xs.map Prod.fst).Nodup) :
    let actions := releasesOf (xs.map fun x => base + (x.1 + tagBytes))
    w.Succeeds actions ∧ ∃ B, w.heap.Regained A xs (w.after actions).heap B := by
  induction xs generalizing w A with
  | nil => exact ⟨trivial, A, .nil hw.intact⟩
  | cons x rest ih =>
    obtain ⟨c, t⟩ := x
    obtain ⟨hnotin, hnodup'⟩ := List.nodup_cons.1 hnodup
    have hfresh : ∀ u, (c, u) ∉ rest := fun u hu => hnotin (List.mem_map.2 ⟨(c, u), hu, rfl⟩)
    have hc := hlive _ (List.mem_cons_self ..)
    obtain ⟨s', hrun, -, hr⟩ := hw.intact.release hc
    obtain ⟨htracks, hfollows⟩ := hw.returned hc
    rw [hbase] at hrun htracks hfollows
    have hheap := (heap_step_release w (some (base + (c + tagBytes)))).trans hrun.run.2
    obtain ⟨hsucceeds, B, hregained⟩ := ih htracks (hfollows.base.trans hbase)
      (hw.intact.settled.live_giveBack hlive hfresh) hnodup'
    refine ⟨⟨hrun.run.1, hsucceeds⟩, B, ?_⟩
    apply Heap.Regained.cons hw.intact hlive hfresh _ _ _ hregained
    · rw [hheap]
      exact hr.mono Set.inter_subset_right
    · rw [hheap]
    · rw [hheap]

theorem Tracks.exists_chunks (hw : w.Tracks A) {addrs : List Nat}
    (hheld : ∀ addr ∈ addrs, addr ∈ w.held.map Grant.addr) : ∃ f : Nat → Chunk, ∀ addr ∈ addrs,
      f addr ∈ liveIn A.chunks ∧ w.heap.base + ((f addr).1 + tagBytes) = addr := by
  have hchunk : ∀ addr ∈ addrs, ∃ x : Chunk,
      x ∈ liveIn A.chunks ∧ w.heap.base + (x.1 + tagBytes) = addr := by
    intro addr haddr
    obtain ⟨g, hg, rfl⟩ := List.mem_map.1 (hheld addr haddr)
    obtain ⟨c, t, hc, rfl⟩ := (hw.held g).1 hg
    exact ⟨(c, t), hc, rfl⟩
  have hany : Nonempty Chunk := ⟨0, .unowned 0⟩
  choose! f hf using hchunk
  exact ⟨f, hf⟩

theorem Tracks.releases_addrs (hw : w.Tracks A) {addrs : List Nat} {f : Nat → Chunk}
    (hf : ∀ addr ∈ addrs, f addr ∈ liveIn A.chunks ∧ w.heap.base + ((f addr).1 + tagBytes) = addr)
    (hnodup : addrs.Nodup) : w.Succeeds (releasesOf addrs) ∧
      ∃ B, w.heap.Regained A (addrs.map f) (w.after (releasesOf addrs)).heap B := by
  have hback : (addrs.map f).map (fun x => w.heap.base + (x.1 + tagBytes)) = addrs := by
    rw [List.map_map]
    exact (List.map_congr_left fun addr haddr => (hf addr haddr).2).trans (List.map_id _)
  have hlive : ∀ x ∈ addrs.map f, x ∈ liveIn A.chunks := by
    intro x hx
    obtain ⟨addr, haddr, rfl⟩ := List.mem_map.1 hx
    exact (hf addr haddr).1
  have hstarts : ((addrs.map f).map Prod.fst).Nodup := by
    apply List.Nodup.of_map fun c => w.heap.base + (c + tagBytes)
    rw [List.map_map]
    exact hback.symm ▸ hnodup
  have hreleases := hw.releases rfl hlive hstarts
  rw [hback] at hreleases
  exact hreleases

/-- Pointers that are held may be released in any order: once the free space is merged, nothing is
left of the order, in no byte of the region and in no number that the heap keeps. -/
theorem release_order_forgotten (hw : w.Reachable) {addrs addrs' : List Nat}
    (hheld : ∀ addr ∈ addrs, addr ∈ w.held.map Grant.addr) (hnodup : addrs.Nodup)
    (hperm : addrs.Perm addrs') :
    w.Succeeds (releasesOf addrs ++ [.merge]) ∧ w.Succeeds (releasesOf addrs' ++ [.merge]) ∧
      (w.after (releasesOf addrs ++ [.merge])).heap =
        (w.after (releasesOf addrs' ++ [.merge])).heap := by
  obtain ⟨A, hA⟩ := hw.tracks
  obtain ⟨f, hf⟩ := hA.exists_chunks hheld
  have hf' : ∀ addr ∈ addrs', f addr ∈ liveIn A.chunks ∧
      w.heap.base + ((f addr).1 + tagBytes) = addr :=
    fun addr haddr => hf addr (hperm.mem_iff.2 haddr)
  obtain ⟨hsucceeds, B, hB⟩ := hA.releases_addrs hf hnodup
  obtain ⟨hsucceeds', C, hC⟩ := hA.releases_addrs hf' (hperm.nodup_iff.1 hnodup)
  refine ⟨?_, ?_, ?_⟩
  · exact succeeds_append.2 ⟨hsucceeds, hB.intact.faultless.merge, trivial⟩
  · exact succeeds_append.2 ⟨hsucceeds', hC.intact.faultless.merge, trivial⟩
  · rw [World.after, World.after, List.foldl_concat, List.foldl_concat, heap_step_merge,
      heap_step_merge]
    exact hB.merge_eq hC (hperm.map f)

/-- Three neighbours of 32 bytes come back in two orders, which the recent cache shows until a merge
makes one chunk of them. -/
theorem shuffled_forgotten :
    let w := sample.after [.allocate 8 .kernel, .allocate 8 .kernel, .allocate 8 .kernel]
    let addrs := [0x1008, 0x1028, 0x1048]
    let addrs' := [0x1028, 0x1048, 0x1008]
    (w.after (releasesOf addrs)).heap.store.members .recent = .ok [64, 32, 0] ∧
      (w.after (releasesOf addrs')).heap.store.members .recent = .ok [0, 64, 32] ∧
      w.Succeeds (releasesOf addrs ++ [.merge]) ∧ w.Succeeds (releasesOf addrs' ++ [.merge]) ∧
      (w.after (releasesOf addrs ++ [.merge])).heap =
        (w.after (releasesOf addrs' ++ [.merge])).heap := by
  intro w addrs addrs'
  have hruns : (∀ addr ∈ addrs, addr ∈ w.held.map Grant.addr) ∧
      (w.after (releasesOf addrs)).heap.store.members .recent = .ok [64, 32, 0] ∧
      (w.after (releasesOf addrs')).heap.store.members .recent = .ok [0, 64, 32] := by
    decide +kernel
  obtain ⟨hheld, hrecent, hrecent'⟩ := hruns
  exact ⟨hrecent, hrecent', release_order_forgotten (w := w) (reachable_sample.after _) hheld
    (by decide) (by decide)⟩

end World

end BoundaryHeap
