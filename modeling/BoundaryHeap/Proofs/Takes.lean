import BoundaryHeap.Proofs.Represents

namespace BoundaryHeap.Store

open Region (Changed linkBytesOf)

/-- Run on any store of the shape `A`, the program ends in `a` and leaves the shape `B`. -/
structure Takes (m : StoreM α) (A : Shape) (a : α) (B : Shape) : Prop where
  live : liveIn B.chunks = liveIn A.chunks
  run : ∀ s : Store, s.Represents A → ∃ s', m s = .ok a s' ∧ s'.Represents B ∧
    Changed (vacant A.chunks) s.region s'.region

/-- Run on any store of the shape `A`, the program ends in `a` and leaves the shape `B`, which has
the same chunks. It stores links of free chunks only. -/
structure Relinks (m : StoreM α) (A : Shape) (a : α) (B : Shape) : Prop where
  chunks : B.chunks = A.chunks
  run : ∀ s : Store, s.Represents A → ∃ s', m s = .ok a s' ∧ s'.Represents B ∧
    Changed (linkBytesOf {c | A.IsFree c}) s.region s'.region

namespace Relinks

variable {A B C : Shape} {c size fuel : Nat} {t : Tag} {l : ListId}

theorem takes {m : StoreM α} {a : α} (h : Relinks m A a B) : Takes m A a B := by
  refine ⟨by rw [h.chunks], fun s hs => ?_⟩
  obtain ⟨s', hrun, hs', hr⟩ := h.run s hs
  exact ⟨s', hrun, hs', hr.mono (hs.valid.tiles.linkBytesOf_vacant fun d hd => hd)⟩

theorem pure (a : α) (A : Shape) : Relinks (pure a) A a A :=
  ⟨rfl, fun s h => ⟨s, rfl, h, .refl ..⟩⟩

theorem bind {m : StoreM α} {k : α → StoreM β} {a : α} {b : β} (h : Relinks m A a B)
    (h' : Relinks (k a) B b C) : Relinks (m >>= k) A b C := by
  refine ⟨h'.chunks.trans h.chunks, fun s hs => ?_⟩
  obtain ⟨s₁, hrun, hs₁, hr⟩ := h.run s hs
  obtain ⟨s₂, hrun', hs₂, hr'⟩ := h'.run s₁ hs₁
  refine ⟨s₂, ?_, hs₂, hr.trans ?_⟩
  · rw [bind_ok hrun]
    exact hrun'
  · simp only [Shape.IsFree, h.chunks] at hr'
    exact hr'

theorem reading {f : Region → Except Fault α} {a : α}
    (h : ∀ s : Store, s.Represents A → f s.region = .ok a) : Relinks (reading f) A a A :=
  ⟨rfl, fun s hs => ⟨s, reading_eq (h s hs), hs, .refl ..⟩⟩

theorem head (l : ListId) : Relinks (head l) A (A.lists l).head? A :=
  ⟨rfl, fun s hs => ⟨s, hs.linked.head l, hs, .refl ..⟩⟩

theorem tagAt (hc : (c, t) ∈ A.chunks) : Relinks (Store.reading (·.tagAt c)) A t A :=
  .reading fun _ hs => hs.tagAt hc

theorem sizeOf (hc : (c, t) ∈ A.chunks) : Relinks (sizeOf c) A t.size A :=
  (tagAt hc).bind (.pure ..)

theorem detach (hc : A.Listed c) : Relinks (detach c) A () (A.unlist c) := by
  refine ⟨rfl, fun s hs => ?_⟩
  obtain ⟨l, hl⟩ := hc
  obtain ⟨xs, ys, he⟩ := List.append_of_mem hl
  obtain ⟨s', hrun, hlinked, hnil, hr⟩ := hs.linked.detach he
  have hS : ∀ d ∈ ({c} ∪ {d | xs.getLast? = some d ∨ ys.head? = some d} : Set Nat),
      d ∈ A.lists l := by
    rw [he]
    rintro d (rfl | hd | hd)
    · simp
    · simp [List.mem_of_getLast? hd]
    · simp [List.mem_of_head? hd]
  refine ⟨s', hrun, ?_, hr.mono (Region.linkBytesOf_mono fun d hd => hs.valid.listed (hS d hd))⟩
  apply hs.relink (hs.valid.unlist c) rfl rfl hlinked (fun d hd => hs.valid.listed (hS d hd)) hr
  intro d hd
  rw [Shape.loose_unlist hs.valid ⟨l, hl⟩] at hd
  rcases hd with rfl | hd
  · exact .inr hnil
  · exact .inl ⟨hd, fun hmem => hd.2 ⟨l, hS d hmem⟩⟩

theorem takeFirst_nil (hl : A.lists l = []) : Relinks (takeFirst l) A none A := by
  have hhead := head (A := A) l
  rw [hl] at hhead
  exact hhead.bind (.pure ..)

theorem takeFirst_cons {rest : List Nat} (hl : A.lists l = c :: rest) :
    Relinks (takeFirst l) A (some c) (A.unlist c) := by
  have hhead := head (A := A) l
  rw [hl] at hhead
  have hlisted : A.Listed c := ⟨l, by simp [hl]⟩
  exact hhead.bind ((detach hlisted).bind (.pure ..))

theorem file (hc : c ∈ A.loose) (hsize : A.sizeAt c = size) {f : Filing}
    (hfuel : f.passed (A.lists (f.list size)) ≤ fuel)
    (hempty : f = .remainder → A.lists .remainder = []) :
    Relinks (file fuel c size f) A () (A.file c f) := by
  subst hsize
  refine ⟨rfl, fun s hs => ?_⟩
  obtain ⟨⟨t, ht, hfree⟩, hunlisted⟩ := hc
  have hloose : c ∈ A.loose := ⟨⟨t, ht, hfree⟩, hunlisted⟩
  have hfresh : ∀ l, c ∉ A.lists l := fun l hl => hunlisted ⟨l, hl⟩
  obtain ⟨s', hrun, hlinked, xs, ys, he, -, hr⟩ :=
    hs.linked.file (hs.holds ht) hfresh (hs.loose c hloose) hfuel hempty
  have hS : ∀ d ∈ ({c} ∪ {d | xs.getLast? = some d ∨ ys.head? = some d} : Set Nat),
      d = c ∨ d ∈ A.lists (f.list (A.sizeAt c)) := by
    rw [he]
    rintro d (rfl | hd | hd)
    · exact .inl rfl
    · exact .inr (by simp [List.mem_of_getLast? hd])
    · exact .inr (by simp [List.mem_of_head? hd])
  have hfreeS : ∀ d ∈ ({c} ∪ {d | xs.getLast? = some d ∨ ys.head? = some d} : Set Nat),
      A.IsFree d := by
    intro d hd
    rcases hS d hd with rfl | hd
    · exact ⟨t, ht, hfree⟩
    · exact hs.valid.listed hd
  refine ⟨s', hrun, ?_, hr.mono (Region.linkBytesOf_mono hfreeS)⟩
  apply hs.relink (hs.valid.file hloose hempty) rfl rfl hlinked hfreeS hr
  intro d hd
  rw [Shape.loose_file] at hd
  refine .inl ⟨hd.1, fun hmem => ?_⟩
  rcases hS d hmem with he | hl
  · exact hd.2 he
  · exact hd.1.2 ⟨_, hl⟩

end Relinks

namespace Takes

variable {A B C : Shape} {c size fuel lo hi : Nat} {t : Tag} {l : ListId} {mid : List Chunk}

theorem pure (a : α) (A : Shape) : Takes (pure a) A a A :=
  (Relinks.pure a A).takes

theorem bind {m : StoreM α} {k : α → StoreM β} {a : α} {b : β} (h : Takes m A a B)
    (h' : Takes (k a) B b C) : Takes (m >>= k) A b C := by
  refine ⟨h'.live.trans h.live, fun s hs => ?_⟩
  obtain ⟨s₁, hrun, hs₁, hr⟩ := h.run s hs
  obtain ⟨s₂, hrun', hs₂, hr'⟩ := h'.run s₁ hs₁
  refine ⟨s₂, ?_, hs₂, hr.trans ?_⟩
  · rw [bind_ok hrun]
    exact hrun'
  · rw [vacant, ← h.live]
    exact hr'

theorem of_ok {m : StoreM α} {a a' : α} {s s' : Store} (h : Takes m A a B) (hs : s.Represents A)
    (hrun : m s = .ok a' s') : a' = a ∧ s'.Represents B := by
  obtain ⟨t, hrun', ht, -⟩ := h.run s hs
  cases hrun.symm.trans hrun'
  exact ⟨rfl, ht⟩

theorem reading {f : Region → Except Fault α} {a : α}
    (h : ∀ s : Store, s.Represents A → f s.region = .ok a) : Takes (reading f) A a A :=
  (Relinks.reading h).takes

theorem check {p : Prop} [Decidable p] (h : p) (f : Fault) : Takes (check p f) A () A :=
  ⟨rfl, fun s hs => ⟨s, check_eq h f, hs, .refl ..⟩⟩

theorem head (l : ListId) : Takes (head l) A (A.lists l).head? A :=
  (Relinks.head l).takes

theorem tagAt (hc : (c, t) ∈ A.chunks) : Takes (Store.reading (·.tagAt c)) A t A :=
  (Relinks.tagAt hc).takes

theorem sizeOf (hc : (c, t) ∈ A.chunks) : Takes (sizeOf c) A t.size A :=
  (Relinks.sizeOf hc).takes

theorem nextOf {xs ys : List Nat} (hl : A.lists l = xs ++ c :: ys) :
    Takes (Store.reading (·.nextOf c)) A ys.head? A := by
  apply Takes.reading
  intro s hs
  have hmem : c ∈ A.lists l := by simp [hl]
  have hheld := hs.linked.holds hmem
  have hthreads := hs.threads l
  rw [hl] at hthreads
  rw [Region.nextOf_eq hheld.1 hheld.2]
  exact congrArg Except.ok hthreads.drop.2.2.head

theorem detach (hc : A.Listed c) : Takes (detach c) A () (A.unlist c) :=
  (Relinks.detach hc).takes

theorem takeFirst_nil (hl : A.lists l = []) : Takes (takeFirst l) A none A :=
  (Relinks.takeFirst_nil hl).takes

theorem takeFirst_cons {rest : List Nat} (hl : A.lists l = c :: rest) :
    Takes (takeFirst l) A (some c) (A.unlist c) :=
  (Relinks.takeFirst_cons hl).takes

theorem file (hc : c ∈ A.loose) (hsize : A.sizeAt c = size) {f : Filing}
    (hfuel : f.passed (A.lists (f.list size)) ≤ fuel)
    (hempty : f = .remainder → A.lists .remainder = []) :
    Takes (file fuel c size f) A () (A.file c f) :=
  (Relinks.file hc hsize hfuel hempty).takes

theorem layOut (hsec : A.Section lo hi mid) (hmid : ∀ c t, (c, t) ∈ mid → t.free = true)
    (hmin : minChunk ≤ size) (hgrain : size % granule = 0) (hsize : lo + size = hi) :
    Takes (layOut lo size) A () (A.join lo hi) := by
  have hdiff : hi - lo = size := by omega
  have hnew : Tiles lo [(lo, .unowned size)] hi := by
    refine ⟨rfl, ⟨hmin, hgrain⟩, hsize⟩
  have hfree : ∀ c t, (c, t) ∈ [(lo, Tag.unowned size)] → t.free = true := by
    intro c t hc
    cases List.mem_singleton.1 hc
    rfl
  rw [Shape.join, hdiff]
  refine ⟨Shape.liveIn_redraw hsec hmid hfree, fun s hs => ?_⟩
  have hend : lo + size ≤ s.region.len := by
    rw [hs.len, hsize]
    exact hsec.end_le
  obtain ⟨s', hrun, hheads, htag, hnil, hr⟩ := layOut_run hsec.mod_start hmin hgrain hend
  replace hr := hr.mono (laidBytes_subset hmin)
  rw [hsize] at hr
  refine ⟨s', hrun, ?_, hr.mono (hsec.subset_vacant hmid)⟩
  apply hs.redraw hsec hnew hheads hr
  · intro c t hc
    cases List.mem_singleton.1 hc
    exact htag
  · intro c t hc _
    cases List.mem_singleton.1 hc
    exact hnil

theorem cut (hA : A.Valid) (hc : (c, t) ∈ A.chunks) (hloose : c ∈ A.loose)
    (hmin : minChunk ≤ size) (hgrain : size % granule = 0) (hrest : size + minChunk ≤ t.size) :
    Takes (cut c size) A (c + size) (A.cut c size) := by
  have ht := hA.tiles.proper hc
  have hsec := hA.section_of_mem hc hloose.2
  have hfree : t.free = true := by
    obtain ⟨u, hu, hfree⟩ := hloose.1
    rw [hA.tiles.unique hc hu]
    exact hfree
  have hmid : ∀ d u, (d, u) ∈ [(c, t)] → u.free = true := by
    intro d u hd
    cases List.mem_singleton.1 hd
    exact hfree
  have hnew := Shape.tiles_halves (c := c) hmin hgrain hrest ht.2
  have hnewfree : ∀ d u, (d, u) ∈ Shape.halves c size t.size → u.free = true :=
    Shape.forall_halves rfl rfl
  rw [Shape.cut, hA.sizeAt_eq hc]
  refine ⟨Shape.liveIn_redraw hsec hmid hnewfree, fun s hs => ?_⟩
  have hend : c + t.size ≤ s.region.len := by
    rw [hs.len]
    exact hsec.end_le
  have hlen : s.region.len ≤ maxRegion := hs.len ▸ hA.bounded
  obtain ⟨s', hrun, hheads, htag, hnil, htag', hnil', hr⟩ :=
    cut_run hsec.mod_start (hs.tagAt hc) hmin hgrain ht hrest hend hlen
  refine ⟨s', hrun, ?_, hr.mono (hsec.subset_vacant hmid)⟩
  apply hs.redraw hsec hnew hheads hr
  · exact Shape.forall_halves htag htag'
  · exact Shape.forall_halves (fun _ => hnil) fun _ => hnil'

end Takes

end BoundaryHeap.Store
