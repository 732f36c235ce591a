import BoundaryHeap.Proofs.FreeRun
import BoundaryHeap.Proofs.Takes
import BoundaryHeap.Store.Merge

namespace BoundaryHeap

namespace Store

variable {A : Shape} {c d size fuel start stop : Nat} {t : Tag}

theorem Represents.below {s : Store} (h : s.Represents A) (hc : (c, t) ∈ A.chunks) :
    s.region.below (c + t.size) = .ok (some c) :=
  Region.below_eq_some_iff.2 ⟨t, h.tagAt hc, rfl⟩

theorem Represents.below_eq {s : Store} {pre suf : List Chunk} (h : s.Represents A)
    (hchunks : A.chunks = pre ++ suf) (hpre : Tiles 0 pre c) :
    s.region.below c = .ok (pre.getLast?.map Prod.fst) := by
  rcases hlast : pre.getLast? with _ | ⟨d, u⟩
  · rw [List.getLast?_eq_none_iff] at hlast
    subst hlast
    obtain rfl : 0 = c := hpre
    rfl
  · have hmem : (d, u) ∈ A.chunks := by
      rw [hchunks]
      exact List.mem_append_left _ (List.mem_of_getLast? hlast)
    have hend : d + u.size = c := hpre.end_of_getLast? hlast
    rw [← hend]
    exact h.below hmem

theorem Represents.above_eq {s : Store} {post : List Chunk} (h : s.Represents A)
    (hpost : Tiles (c + size) post A.len) :
    s.region.above c size = post.head?.map Prod.fst := by
  rw [Region.above, h.len]
  cases post with
  | nil =>
    have hend : c + size = A.len := hpost
    rw [if_neg (by omega)]
    rfl
  | cons x rest =>
    have hle := hpost.end_le (List.mem_cons_self ..)
    have hpos := hpost.size_pos (List.mem_cons_self ..)
    have hstart : x.1 = c + size := hpost.1
    rw [if_pos (by omega), ← hstart]
    rfl

theorem Takes.below {pre suf : List Chunk} (hchunks : A.chunks = pre ++ suf)
    (hpre : Tiles 0 pre c) :
    Takes (Store.reading (·.below c)) A (pre.getLast?.map Prod.fst) A :=
  .reading fun _ hs => hs.below_eq hchunks hpre

theorem Takes.above {post : List Chunk} (hpost : Tiles (c + size) post A.len) :
    Takes (Store.reading fun r => .ok (r.above c size)) A (post.head?.map Prod.fst) A :=
  .reading fun _ hs => congrArg Except.ok (hs.above_eq hpost)

theorem Takes.absorbBelow_stop {o : Option Chunk}
    (hbelow : Takes (Store.reading (·.below c)) A (o.map Prod.fst) A)
    (hlive : ∀ x, o = some x → x ∈ A.chunks ∧ x.2.free = false) :
    Takes (absorbBelow (fuel + 1) c size) A (c, size) A := by
  apply hbelow.bind
  cases o with
  | none => exact .pure ..
  | some x =>
    obtain ⟨hx, hfree⟩ := hlive x rfl
    apply (Takes.tagAt hx).bind
    simp only [hfree]
    exact .pure ..

theorem Takes.absorbBelow_step {B : Shape} {x : Nat × Nat}
    (hbelow : Takes (Store.reading (·.below c)) A (some d) A) (hd : (d, t) ∈ A.chunks)
    (hfree : t.free = true) (hlisted : A.Listed d)
    (hloop : Takes (absorbBelow fuel d (size + t.size)) (A.unlist d) x B) :
    Takes (absorbBelow (fuel + 1) c size) A x B := by
  apply hbelow.bind
  apply (Takes.tagAt hd).bind
  simp only [hfree, if_true]
  exact (Takes.detach hlisted).bind hloop

theorem Takes.absorbAbove_stop {o : Option Chunk}
    (habove : Takes (Store.reading fun r => .ok (r.above c size)) A (o.map Prod.fst) A)
    (hlive : ∀ x, o = some x → x ∈ A.chunks ∧ x.2.free = false) :
    Takes (absorbAbove (fuel + 1) c size) A size A := by
  apply habove.bind
  cases o with
  | none => exact .pure ..
  | some x =>
    obtain ⟨hx, hfree⟩ := hlive x rfl
    apply (Takes.tagAt hx).bind
    simp only [hfree]
    exact .pure ..

theorem Takes.absorbAbove_step {B : Shape} {n : Nat}
    (habove : Takes (Store.reading fun r => .ok (r.above c size)) A (some d) A)
    (hd : (d, t) ∈ A.chunks) (hfree : t.free = true) (hlisted : A.Listed d)
    (hloop : Takes (absorbAbove fuel c (size + t.size)) (A.unlist d) n B) :
    Takes (absorbAbove (fuel + 1) c size) A n B := by
  apply habove.bind
  apply (Takes.tagAt hd).bind
  simp only [hfree, if_true]
  exact (Takes.detach hlisted).bind hloop

/-- The walk down from `c` takes the chunks `low` off their lists and stops in front of them. -/
theorem Takes.absorbBelow {pre low suf : List Chunk}
    (hchunks : A.chunks = pre ++ low.reverse ++ suf) (hpre : Tiles 0 pre start)
    (hlow : Tiles start low.reverse c) (hfree : ∀ x ∈ low, x.2.free = true)
    (hlive : ∀ x, pre.getLast? = some x → x.2.free = false)
    (hlisted : ∀ x ∈ low, A.Listed x.1) (hfuel : low.length < fuel) :
    Takes (absorbBelow fuel c size) A (start, size + (c - start)) (A.unlistAll low) := by
  induction low generalizing A c size fuel suf with
  | nil =>
    obtain rfl : start = c := hlow
    obtain ⟨fuel, rfl⟩ := Nat.exists_eq_succ_of_ne_zero (Nat.ne_zero_of_lt hfuel)
    rw [List.reverse_nil, List.append_nil] at hchunks
    rw [Nat.sub_self, Nat.add_zero]
    apply Takes.absorbBelow_stop (Takes.below hchunks hpre)
    intro x hx
    refine ⟨?_, hlive x hx⟩
    rw [hchunks]
    exact List.mem_append_left _ (List.mem_of_getLast? hx)
  | cons x rest ih =>
    obtain ⟨d, u⟩ := x
    obtain ⟨fuel, rfl⟩ := Nat.exists_eq_succ_of_ne_zero (Nat.ne_zero_of_lt hfuel)
    have hbelow := Takes.below hchunks (Tiles.append_iff.2 ⟨start, hpre, hlow⟩)
    rw [List.reverse_cons] at hchunks hlow
    rw [List.reverse_cons, ← List.append_assoc, List.getLast?_append, List.getLast?_singleton]
      at hbelow
    obtain ⟨mid, hrest, rfl, hu, hend⟩ := Tiles.append_iff.1 hlow
    obtain rfl : d + u.size = c := hend
    have hle := hrest.le
    have hd : (d, u) ∈ A.chunks := by
      rw [hchunks]
      simp
    have hchunks' : (A.unlist d).chunks = pre ++ rest.reverse ++ ((d, u) :: suf) := by
      rw [Shape.chunks_unlist, hchunks]
      simp only [List.append_assoc, List.cons_append, List.nil_append]
    have hlisted' : ∀ x ∈ rest, (A.unlist d).Listed x.1 := by
      intro x hx
      have hbounds := hrest.bounds (List.mem_reverse.2 hx)
      exact Shape.listed_unlist.2 ⟨hlisted x (List.mem_cons_of_mem _ hx), by omega⟩
    have hloop : Takes (Store.absorbBelow fuel d (size + u.size)) (A.unlist d)
        (start, size + u.size + (d - start)) ((A.unlist d).unlistAll rest) := by
      apply ih hchunks' hrest
      · exact fun x hx => hfree x (List.mem_cons_of_mem _ hx)
      · exact hlisted'
      · exact Nat.lt_of_succ_lt_succ hfuel
    have hsum : size + u.size + (d - start) = size + (d + u.size - start) := by omega
    rw [hsum] at hloop
    apply Takes.absorbBelow_step hbelow hd (hfree (d, u) (List.mem_cons_self ..)) _ hloop
    exact hlisted (d, u) (List.mem_cons_self ..)

theorem Takes.absorbAbove {pre high post : List Chunk} (hchunks : A.chunks = pre ++ high ++ post)
    (hhigh : Tiles (start + size) high stop) (hpost : Tiles stop post A.len)
    (hfree : ∀ x ∈ high, x.2.free = true)
    (hlive : ∀ x, post.head? = some x → x.2.free = false)
    (hlisted : ∀ x ∈ high, A.Listed x.1) (hfuel : high.length < fuel) :
    Takes (absorbAbove fuel start size) A (stop - start) (A.unlistAll high) := by
  induction high generalizing A pre size fuel with
  | nil =>
    obtain rfl : start + size = stop := hhigh
    obtain ⟨fuel, rfl⟩ := Nat.exists_eq_succ_of_ne_zero (Nat.ne_zero_of_lt hfuel)
    rw [Nat.add_sub_cancel_left]
    apply Takes.absorbAbove_stop (Takes.above hpost)
    intro x hx
    refine ⟨?_, hlive x hx⟩
    rw [hchunks]
    exact List.mem_append_right _ (List.mem_of_head? hx)
  | cons x rest ih =>
    obtain ⟨fuel, rfl⟩ := Nat.exists_eq_succ_of_ne_zero (Nat.ne_zero_of_lt hfuel)
    have habove := Takes.above (Tiles.append_iff.2 ⟨stop, hhigh, hpost⟩)
    obtain ⟨d, u⟩ := x
    obtain ⟨rfl, hu, hrest⟩ := hhigh
    have hpos := hu.1
    simp only [minChunk] at hpos
    have hd : (start + size, u) ∈ A.chunks := by
      rw [hchunks]
      simp
    have hchunks' : (A.unlist (start + size)).chunks =
        (pre ++ [(start + size, u)]) ++ rest ++ post := by
      rw [Shape.chunks_unlist, hchunks]
      simp only [List.append_assoc, List.cons_append, List.nil_append]
    have hlisted' : ∀ x ∈ rest, (A.unlist (start + size)).Listed x.1 := by
      intro x hx
      have hbounds := hrest.bounds hx
      exact Shape.listed_unlist.2 ⟨hlisted x (List.mem_cons_of_mem _ hx), by omega⟩
    rw [Nat.add_assoc] at hrest
    have hloop : Takes (Store.absorbAbove fuel start (size + u.size)) (A.unlist (start + size))
        (stop - start) ((A.unlist (start + size)).unlistAll rest) := by
      apply ih hchunks' hrest hpost
      · exact fun x hx => hfree x (List.mem_cons_of_mem _ hx)
      · exact hlisted'
      · exact Nat.lt_of_succ_lt_succ hfuel
    apply Takes.absorbAbove_step habove hd (hfree _ (List.mem_cons_self ..)) _ hloop
    exact hlisted _ (List.mem_cons_self ..)

/-- The two walks and the new tags make one chunk of the run around `c`. -/
theorem Takes.absorb {pre post : List Chunk} (h : A.Holding {c}) (har : A.Around c t pre post)
    (hfuel : A.len / minChunk < fuel) :
    Takes (Store.absorbBelow fuel c t.size) A (A.runStart c, t.size + (c - A.runStart c))
      (A.unlistAll (A.freeBelow c)) ∧
    Takes (Store.absorbAbove fuel (A.runStart c) (t.size + (c - A.runStart c)))
      (A.unlistAll (A.freeBelow c)) (A.runStop c - A.runStart c)
      ((A.unlistAll (A.freeBelow c)).unlistAll (A.freeAbove c)) := by
  obtain ⟨hlow, hhigh⟩ := har.length_lt hfuel
  constructor
  · exact Takes.absorbBelow har.chunks har.start har.low
      (fun x hx => Shape.free_of_mem_freeBelow hx) har.liveBelow (har.listed_below h) hlow
  · have hle := har.start_le
    have hsize : A.runStart c + (t.size + (c - A.runStart c)) = c + t.size := by omega
    have hchunks : (A.unlistAll (A.freeBelow c)).chunks =
        pre ++ (A.freeBelow c).reverse ++ [(c, t)] ++ A.freeAbove c ++ post := by
      rw [Shape.chunks_unlistAll, har.chunks]
      simp only [List.append_assoc, List.cons_append, List.nil_append]
    apply Takes.absorbAbove hchunks
    · rw [hsize]
      exact har.high
    · rw [Shape.len_unlistAll]
      exact har.stop
    · exact fun x hx => Shape.free_of_mem_freeAbove hx
    · exact har.liveAbove
    · exact har.listed_above h
    · exact hhigh

theorem Takes.mergeAround (h : A.Holding {c}) (hfuel : A.len / minChunk < fuel) :
    Takes (mergeAround fuel c) A () (A.mergeAround c) := by
  obtain ⟨⟨t, ht, hfree⟩, hunlisted⟩ := h.mem_loose rfl
  obtain ⟨pre, post, har⟩ := h.valid.around ht
  obtain ⟨hbelow, habove⟩ := Takes.absorb h har hfuel
  have hjoin := h.joinAround
  have hproper := har.tiles_join.proper (List.mem_cons_self ..)
  have hend : A.runStart c + (A.runStop c - A.runStart c) = A.runStop c :=
    Nat.add_sub_cancel' har.tiles.le
  have hlay : Takes (Store.layOut (A.runStart c) (A.runStop c - A.runStart c))
      ((A.unlistAll (A.freeBelow c)).unlistAll (A.freeAbove c)) () (A.joinAround c) :=
    Takes.layOut (har.isSection hunlisted)
      (fun _ _ hd => Shape.free_of_mem_runAround hfree hd) hproper.1 hproper.2 hend
  have hfile : Takes (Store.file fuel (A.runStart c) (A.runStop c - A.runStart c) .clean)
      (A.joinAround c) () (A.mergeAround c) := by
    apply Takes.file (hjoin.mem_loose rfl) (hjoin.valid.sizeAt_eq Shape.mem_joinAround)
    · apply hjoin.valid.passed_le
      rw [Shape.len_joinAround]
      exact hfuel
    · intro he
      cases he
  apply (Takes.tagAt ht).bind
  apply (Takes.check hfree _).bind
  apply hbelow.bind
  exact habove.bind (hlay.bind hfile)

end Store

end BoundaryHeap
