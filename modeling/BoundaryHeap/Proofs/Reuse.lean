import BoundaryHeap.Proofs.Granting
import BoundaryHeap.Proofs.Prescription
import BoundaryHeap.Proofs.ReleaseOrder

namespace BoundaryHeap

open Region (Changed linkBytesOf)

namespace Shape

variable {A : Shape} {c size : Nat} {t : Tag}

theorem recent_giveBack : (A.giveBack c t).lists .recent = c :: A.lists .recent :=
  Lists.filed_recent

theorem Settled.mem_giveBack (h : A.Settled) (hc : (c, t) ∈ liveIn A.chunks) {d : Nat} {u : Tag} :
    (d, u) ∈ (A.giveBack c t).chunks ↔
      ((d, u) ∈ A.chunks ∧ d ≠ c) ∨ (d = c ∧ u = { t with free := true }) := by
  rw [Shape.giveBack, chunks_file]
  exact h.valid.mem_retag (mem_liveIn.1 hc).1 rfl

theorem Settled.settled_giveBack (h : A.Settled) (hc : (c, t) ∈ liveIn A.chunks) :
    (A.giveBack c t).Settled :=
  h.giveBack (mem_liveIn.1 hc).1 (mem_liveIn.1 hc).2

theorem Settled.sizeAt_giveBack (h : A.Settled) (hc : (c, t) ∈ liveIn A.chunks) :
    (A.giveBack c t).sizeAt c = t.size := by
  have hin : (c, { t with free := true }) ∈ (A.giveBack c t).chunks :=
    (h.mem_giveBack hc).2 (.inr ⟨rfl, rfl⟩)
  rw [(h.settled_giveBack hc).valid.sizeAt_eq hin]

/-- Taking back the chunk that just came back, for the same owner, undoes the release. -/
theorem Settled.regrant (h : A.Settled) (hc : (c, t) ∈ liveIn A.chunks) :
    ((A.giveBack c t).unlist c).grant c t.owner = A := by
  obtain ⟨hmem, hlive⟩ := mem_liveIn.1 hc
  have hB := h.settled_giveBack hc
  have hheld := hB.take ⟨.recent, recent_giveBack ▸ List.mem_cons_self ..⟩
  have hin : (c, { t with free := true }) ∈ (A.giveBack c t).chunks :=
    (h.mem_giveBack hc).2 (.inr ⟨rfl, rfl⟩)
  have htag : Tag.live (((A.giveBack c t).unlist c).sizeAt c) t.owner = t := by
    rw [sizeAt_unlist, h.sizeAt_giveBack hc, Tag.live, ← hlive]
  have hchunks : (((A.giveBack c t).unlist c).grant c t.owner).chunks = A.chunks := by
    apply eq_of_mem_iff (hheld.grant t.owner).valid.tiles.sorted h.valid.tiles.sorted
    rintro ⟨d, u⟩
    rw [Shape.grant, htag, hheld.valid.mem_retag (u := t) hin rfl, chunks_unlist, h.mem_giveBack hc]
    by_cases hdc : d = c
    · subst hdc
      simp only [ne_eq, not_true_eq_false, and_false, false_or, true_and]
      constructor
      · rintro rfl
        exact hmem
      · exact fun hu => h.valid.tiles.unique hu hmem
    · simp only [hdc, ne_eq, not_false_eq_true, and_true, false_and, or_false]
  have hlists : (((A.giveBack c t).unlist c).grant c t.owner).lists = A.lists :=
    Lists.without_filed (fun l hl => h.valid.not_listed hmem hlive ⟨l, hl⟩) .recent
  show (⟨A.len, _, _⟩ : Shape) = ⟨A.len, A.chunks, A.lists⟩
  rw [← hchunks, ← hlists]
  rfl

theorem Settled.fields_giveBack (h : A.Settled) (hc : (c, t) ∈ liveIn A.chunks) :
    fields (A.giveBack c t).chunks ⊆ fields A.chunks ∪ Set.Ico c (c + t.size) := by
  rintro i ⟨d, u, hd, hi⟩
  have hmin := (h.valid.tiles.proper (mem_liveIn.1 hc).1).1
  rcases (h.mem_giveBack hc).1 hd with ⟨hd, -⟩ | ⟨rfl, rfl⟩
  · exact .inl ⟨d, u, hd, hi⟩
  · rcases hi with htag | ⟨-, hlink⟩
    · exact .inr (Store.tagBytesOf_subset hmin htag)
    · exact .inr (Store.linkBytesOf_subset hmin hlink)

theorem Ico_subset (hc : (c, t) ∈ A.chunks) : Set.Ico c (c + t.size) ⊆
    fields A.chunks ∪ {i | c + tagBytes ≤ i ∧ i + tagBytes < c + t.size} := by
  intro i hin
  rw [Set.mem_Ico] at hin
  by_cases hpayload : c + tagBytes ≤ i ∧ i + tagBytes < c + t.size
  · exact .inr hpayload
  · refine .inl (tagBytesOf_fields hc ?_)
    simp only [tagBytes] at hpayload
    simp only [Store.tagBytesOf, Set.mem_union, Set.mem_Ico]
    omega

end Shape

namespace Heap

variable {h h' : Heap} {A B : Shape} {addr c fuel request size : Nat} {t : Tag} {g : Grant}

/-- The head of the recent cache is taken, and only links of free chunks are stored to. -/
theorem Intact.search_recentHead (hi : h.Intact A) (hhead : A.recentHead size = some c) :
    ∃ s', Does (search fuel size) h (some c) { h with store := s' } ∧
      s'.Represents (A.unlist c) ∧ Changed (linkBytesOf {d | A.IsFree d}) h.region s'.region := by
  have htake := Store.Relinks.takeRecentHead hi.settled.valid size
  rw [hhead] at htake
  obtain ⟨s', hrun, hs', hr⟩ := htake.run h.store hi.store
  exact ⟨s', (Does.lift hrun).bind ((Does.note _ _).bind (.pure _ _)), hs', hr⟩

/-- The chunk that came back last is handed out again to its owner, and the shape is what it was
before. -/
theorem Intact.regrant (hA : A.Settled) (hc : (c, t) ∈ liveIn A.chunks)
    (hi : h.Intact (A.giveBack c t)) (hreq : chunkSize? request = some size)
    (hlow : size ≤ t.size) (hhigh : t.size < size + minChunk) :
    ∃ h', Does (Heap.allocate request t.owner) h (h.base + (c + tagBytes)) h' ∧ h'.Intact A ∧
      Changed (vacant (A.giveBack c t).chunks) h.region h'.region ∧
      Changed (fields A.chunks ∪ Set.Ico c (c + t.size)) h.region h'.region ∧
      h'.region.Blank (c + tagBytes) (t.size - overhead) := by
  have hB := hA.settled_giveBack hc
  have hsize := hA.sizeAt_giveBack hc
  have hhead : (A.giveBack c t).recentHead size = some c := by
    apply Shape.recentHead_cons Shape.recent_giveBack
    rw [hsize]
    exact ⟨hlow, hhigh⟩
  obtain ⟨s₁, hsearch, hs₁, hr₁⟩ := hi.search_recentHead hhead
  have hmem : c ∈ (A.giveBack c t).lists .recent := Shape.recent_giveBack ▸ List.mem_cons_self ..
  have hfound : ((A.giveBack c t).unlist c).Found c size := by
    apply hB.found hmem
    · rw [hsize]
      exact hlow
    · rw [hsize]
      exact hhigh
  have hfit : size ≤ (A.giveBack c t).len := by
    have hend := hA.valid.tiles.end_le (mem_liveIn.1 hc).1
    show size ≤ A.len
    omega
  have hfree : linkBytesOf {d | (A.giveBack c t).IsFree d} ⊆ vacant (A.giveBack c t).chunks :=
    hB.valid.tiles.linkBytesOf_vacant fun d hd => hd
  have hfields : linkBytesOf {d | (A.giveBack c t).IsFree d} ⊆
      fields A.chunks ∪ Set.Ico c (c + t.size) :=
    (Shape.linkBytesOf_fields fun d hd => hd).trans (hA.fields_giveBack hc)
  obtain ⟨s₂, hrun, hi', hr₂, hr, hblank⟩ :=
    hi.allocate_found hreq hfit hsearch hs₁ hfound rfl (hr₁.mono hfree) t.owner
  rw [hA.regrant hc] at hi'
  rw [Shape.sizeAt_unlist, hsize] at hr₂ hblank
  exact ⟨_, hrun, hi', hr, (hr₁.mono hfields).trans (hr₂.mono Set.subset_union_right), hblank⟩

def payloadOf (h : Heap) (addr : Nat) : Set Nat :=
  {i | ∃ size, h.usableSize addr = .ok size ∧ addr ≤ h.base + i ∧ h.base + i < addr + size}

theorem Intact.payloadOf (hi : h.Intact A) (hc : (c, t) ∈ liveIn A.chunks) :
    h.payloadOf (h.base + (c + tagBytes)) = {i | c + tagBytes ≤ i ∧ i + tagBytes < c + t.size} := by
  have hpos := hi.settled.valid.tiles.size_pos (mem_liveIn.1 hc).1
  ext i
  constructor
  · rintro ⟨size, hsize, hlo, hhi⟩
    obtain rfl := Except.ok.inj ((hi.usableSize hc).symm.trans hsize)
    simp only [tagBytes, overhead] at hlo hhi
    simp only [Set.mem_ofPred_eq, tagBytes]
    omega
  · rintro ⟨hlo, hhi⟩
    refine ⟨_, hi.usableSize hc, ?_, ?_⟩
    · omega
    · simp only [tagBytes, overhead] at hlo hhi ⊢
      omega

theorem payloadOf_congr (hbase : h'.base = h.base)
    (husable : h'.usableSize addr = h.usableSize addr) : h'.payloadOf addr = h.payloadOf addr := by
  rw [Heap.payloadOf, Heap.payloadOf, hbase, husable]

end Heap

/-- A pointer to be released, and the request that is to get it back. -/
structure Loan where
  grant : Grant
  request : Nat

namespace Loan

/-- The request gets the chunk of the pointer if that is the head of the recent cache. -/
def Suits (l : Loan) (h : Heap) : Prop :=
  ∃ size usable, chunkSize? l.request = some size ∧ h.usableSize l.grant.addr = .ok usable ∧
    size ≤ usable + overhead ∧ usable + overhead < size + minChunk

theorem Suits.congr {l : Loan} {h h' : Heap} (hl : l.Suits h)
    (husable : h'.usableSize l.grant.addr = h.usableSize l.grant.addr) : l.Suits h' := by
  rw [Suits, husable]
  exact hl

def releases (loans : List Loan) : List Action :=
  releasesOf (loans.map fun l => l.grant.addr)

def ask (l : Loan) : Action :=
  .allocate l.request l.grant.owner

end Loan

namespace World

variable {w : World} {A : Shape} {c request size : Nat} {t : Tag} {l : Loan} {loans : List Loan}

def replies : World → List Loan → List (Except Fault Nat)
  | _, [] => []
  | w, l :: rest =>
    (w.heap.run (Heap.allocate l.request l.grant.owner)).result :: replies (w.step l.ask) rest

theorem replies_append (w : World) (loans more : List Loan) : w.replies (loans ++ more) =
    w.replies loans ++ (w.after (loans.map Loan.ask)).replies more := by
  induction loans generalizing w with
  | nil => rfl
  | cons l rest ih => exact congrArg _ (ih (w.step l.ask))

def lent (w : World) (loans : List Loan) : Set Nat :=
  {i | ∃ l ∈ loans, i ∈ w.heap.payloadOf l.grant.addr}

theorem Tracks.kept_returned (hw : w.Tracks A) (hc : (c, t) ∈ liveIn A.chunks) {g : Grant}
    (hg : g ∈ w.held) (hne : g.addr ≠ w.heap.base + (c + tagBytes)) :
    let w' := w.step (.release (some (w.heap.base + (c + tagBytes))))
    g ∈ w'.held ∧ w'.heap.usableSize g.addr = w.heap.usableSize g.addr := by
  obtain ⟨htracks, hfollows⟩ := hw.returned hc
  obtain ⟨d, u, hd, rfl⟩ := (hw.held g).1 hg
  have hdc : d ≠ c := by
    rintro rfl
    exact hne rfl
  have hd' := (hw.intact.settled.mem_liveIn_giveBack (mem_liveIn.1 hc).1).2 ⟨hd, hdc⟩
  have hheld := htracks.mem_held hd'
  have husable := htracks.intact.usableSize hd'
  rw [hfollows.base] at hheld husable
  exact ⟨hheld, husable.trans (hw.intact.usableSize hd).symm⟩

theorem Tracks.lent_not_vacant (hw : w.Tracks A) (hheld : ∀ l ∈ loans, l.grant ∈ w.held) {i : Nat}
    (hi : i ∈ w.lent loans) : i ∉ vacant A.chunks := by
  obtain ⟨l, hl, hin⟩ := hi
  obtain ⟨c, t, hc, hg⟩ := (hw.held _).1 (hheld l hl)
  rw [hg, hw.intact.payloadOf hc] at hin
  obtain ⟨hlo, hhi⟩ := hin
  simp only [tagBytes] at hlo hhi
  exact not_vacant hc (by omega) (by omega)

theorem Tracks.lent_returned (hw : w.Tracks A) (hc : (c, t) ∈ liveIn A.chunks)
    (hheld : ∀ l ∈ loans, l.grant ∈ w.held ∧ l.grant.addr ≠ w.heap.base + (c + tagBytes)) :
    (w.step (.release (some (w.heap.base + (c + tagBytes))))).lent loans = w.lent loans := by
  ext i
  apply exists_congr
  intro l
  apply and_congr_right
  intro hl
  have husable := (hw.kept_returned hc (hheld l hl).1 (hheld l hl).2).2
  rw [Heap.payloadOf_congr (hw.returned hc).2.base husable]

theorem Tracks.changed_returned (hw : w.Tracks A) (hc : (c, t) ∈ liveIn A.chunks) :
    Changed (fields (A.giveBack c t).chunks) w.heap.region
      (w.step (.release (some (w.heap.base + (c + tagBytes))))).heap.region := by
  obtain ⟨s', hrun, -, hr⟩ := hw.intact.release hc
  rw [heap_step_release, hrun.run.2]
  exact hr.mono Set.inter_subset_right

theorem Tracks.Ico_subset_lent (hw : w.Tracks A) (hc : (c, t) ∈ liveIn A.chunks)
    (hl : l ∈ loans) (haddr : l.grant.addr = w.heap.base + (c + tagBytes)) :
    Set.Ico c (c + t.size) ⊆ fields A.chunks ∪ w.lent loans := by
  intro i hi
  rcases Shape.Ico_subset (mem_liveIn.1 hc).1 hi with hi | hi
  · exact .inl hi
  · rw [← hw.intact.payloadOf hc, ← haddr] at hi
    exact .inr ⟨l, hl, hi⟩

theorem lent_subset_cons (w : World) (l : Loan) (loans : List Loan) :
    w.lent loans ⊆ w.lent (l :: loans) := by
  rintro i ⟨l', hl', hi⟩
  exact ⟨l', List.mem_cons_of_mem _ hl', hi⟩

/-- The request of a loan is for no other chunk size than that of its pointer, give or take what is
not worth cutting off. -/
theorem Tracks.chunk_of_suits (hw : w.Tracks A) (hc : (c, t) ∈ liveIn A.chunks)
    (haddr : l.grant.addr = w.heap.base + (c + tagBytes)) (hsuits : l.Suits w.heap) :
    ∃ size, chunkSize? l.request = some size ∧ size ≤ t.size ∧ t.size < size + minChunk := by
  obtain ⟨size, usable, hreq, husable, hlow, hhigh⟩ := hsuits
  rw [haddr, hw.intact.usableSize hc] at husable
  obtain rfl := Except.ok.inj husable
  have hmin := (hw.intact.settled.valid.tiles.proper (mem_liveIn.1 hc).1).1
  simp only [minChunk] at hmin
  have hsize : t.size - overhead + overhead = t.size := by
    simp only [overhead, tagBytes]
    omega
  rw [hsize] at hlow hhigh
  exact ⟨size, hreq, hlow, hhigh⟩

/-- The loans are released, and then requested in the reverse order. -/
def relent (w : World) (loans : List Loan) : World :=
  (w.after (Loan.releases loans)).after (loans.reverse.map Loan.ask)

theorem relent_cons (w : World) (l : Loan) (rest : List Loan) : w.relent (l :: rest) =
    ((w.step (.release (some l.grant.addr))).relent rest).step l.ask := by
  rw [relent, List.reverse_cons, List.map_append, after, after, List.foldl_append]
  rfl

structure Relends (w : World) (A : Shape) (loans : List Loan) : Prop where
  succeeds : w.Succeeds (Loan.releases loans)
  replies : (w.after (Loan.releases loans)).replies loans.reverse =
    loans.reverse.map fun l => .ok l.grant.addr
  tracks : (w.relent loans).Tracks A
  changed : Changed (fields A.chunks ∪ w.lent loans) w.heap.region (w.relent loans).heap.region
  blank : ∀ i ∈ w.lent loans, (w.relent loans).heap.region.byteAt i = 0

theorem Tracks.relends_nil (hw : w.Tracks A) : w.Relends A [] where
  succeeds := trivial
  replies := rfl
  tracks := hw
  changed := .refl ..
  blank i hi := by
    obtain ⟨l, hl, -⟩ := hi
    cases hl

theorem Tracks.regranted (hA : A.Settled) (hc : (c, t) ∈ liveIn A.chunks)
    (hw : w.Tracks (A.giveBack c t)) (hreq : chunkSize? request = some size)
    (hlow : size ≤ t.size) (hhigh : t.size < size + minChunk) :
    let w' := w.step (.allocate request t.owner)
    (w.heap.run (Heap.allocate request t.owner)).result = .ok (w.heap.base + (c + tagBytes)) ∧
      w'.Tracks A ∧ Changed (vacant (A.giveBack c t).chunks) w.heap.region w'.heap.region ∧
      Changed (fields A.chunks ∪ Set.Ico c (c + t.size)) w.heap.region w'.heap.region ∧
      w'.heap.region.Blank (c + tagBytes) (t.size - overhead) := by
  intro w'
  obtain ⟨h', hrun, hi, hr, hr', hblank⟩ := hw.intact.regrant hA hc hreq hlow hhigh
  have hstep : w' = ⟨h', ⟨w.heap.base + (c + tagBytes), t.owner⟩ :: w.held⟩ := finish_ok hrun.run
  have hheld := (hA.settled_giveBack hc).take ⟨.recent, Shape.recent_giveBack ▸ List.mem_cons_self ..⟩
  rw [← hA.regrant hc] at hi
  have htracks := (hw.granted hheld rfl hstep hi hr fun _ _ => rfl).1
  rw [hA.regrant hc] at htracks
  refine ⟨hrun.run.1, htracks, ?_⟩
  rw [hstep]
  exact ⟨hr, hr', hblank⟩

/-- One more chunk comes back before all others and is requested after them. -/
theorem Tracks.relends_cons (hw : w.Tracks A) (hc : (c, t) ∈ liveIn A.chunks)
    (hgrant : l.grant = ⟨w.heap.base + (c + tagBytes), t.owner⟩) (hsuits : l.Suits w.heap)
    (hheld : ∀ l' ∈ loans, l'.grant ∈ w.held ∧ l'.grant.addr ≠ w.heap.base + (c + tagBytes))
    (hrest : (w.step (.release (some l.grant.addr))).Relends (A.giveBack c t) loans) :
    w.Relends A (l :: loans) := by
  have haddr : l.grant.addr = w.heap.base + (c + tagBytes) := congrArg Grant.addr hgrant
  have howner : l.grant.owner = t.owner := congrArg Grant.owner hgrant
  have hA := hw.intact.settled
  obtain ⟨size, hreq, hlow, hhigh⟩ := hw.chunk_of_suits hc haddr hsuits
  -- the release comes first
  obtain ⟨htracks₁, hfollows⟩ := hw.returned hc
  have hheld₁ := fun l' hl' => (hw.kept_returned hc (hheld l' hl').1 (hheld l' hl').2).1
  have hlent := hw.lent_returned hc hheld
  have hchanged₁ := hw.changed_returned hc
  rw [← haddr] at htracks₁ hfollows hheld₁ hlent hchanged₁
  have hchanged₂ := hrest.changed
  rw [hlent] at hchanged₂
  have hbase : ((w.step (.release (some l.grant.addr))).relent loans).heap.base = w.heap.base :=
    hchanged₂.base.trans hfollows.base
  -- the request comes last
  obtain ⟨hresult, htracks, hr, hchanged₃, hblank⟩ :=
    Tracks.regranted hA hc hrest.tracks hreq hlow hhigh
  rw [← howner, hbase, ← haddr] at hresult
  rw [← howner] at htracks hr hchanged₃ hblank
  have hown := hw.Ico_subset_lent hc (List.mem_cons_self (l := loans)) haddr
  have hfields := (hA.fields_giveBack hc).trans (Set.union_subset Set.subset_union_left hown)
  have hothers : w.lent loans ⊆ fields A.chunks ∪ w.lent (l :: loans) :=
    (lent_subset_cons w l loans).trans Set.subset_union_right
  constructor
  · exact ⟨hw.accepts ⟨l.grant, hgrant ▸ hw.mem_held hc, rfl⟩, hrest.succeeds⟩
  · have hlast : ((w.step (.release (some l.grant.addr))).relent loans).replies [l] =
        [.ok l.grant.addr] := congrArg (fun x => [x]) hresult
    rw [List.reverse_cons, replies_append, List.map_append]
    exact congrArg₂ (· ++ ·) hrest.replies hlast
  · rw [relent_cons]
    exact htracks
  · rw [relent_cons]
    exact ((hchanged₁.mono hfields).trans
      (hchanged₂.mono (Set.union_subset hfields hothers))).trans
      (hchanged₃.mono (Set.union_subset Set.subset_union_left hown))
  · rw [relent_cons]
    rintro i ⟨l', hl', hi⟩
    rcases List.mem_cons.1 hl' with rfl | hl'
    · rw [haddr, hw.intact.payloadOf hc] at hi
      obtain ⟨hlo, hhi⟩ := hi
      apply hblank i hlo
      simp only [tagBytes, overhead] at hlo hhi ⊢
      omega
    · have hin : i ∈ (w.step (.release (some l.grant.addr))).lent loans := by
        rw [hlent]
        exact ⟨l', hl', hi⟩
      exact (hr.same i (htracks₁.lent_not_vacant hheld₁ hin)).trans (hrest.blank i hin)

theorem Tracks.relends (hw : w.Tracks A) (hheld : ∀ l ∈ loans, l.grant ∈ w.held)
    (hsuits : ∀ l ∈ loans, l.Suits w.heap) (hnodup : (loans.map fun l => l.grant.addr).Nodup) :
    w.Relends A loans := by
  induction loans generalizing w A with
  | nil => exact hw.relends_nil
  | cons l rest ih =>
    obtain ⟨hnot, hnodup'⟩ := List.nodup_cons.1 hnodup
    obtain ⟨c, t, hc, hgrant⟩ := (hw.held _).1 (hheld l (List.mem_cons_self ..))
    have haddr : l.grant.addr = w.heap.base + (c + tagBytes) := congrArg Grant.addr hgrant
    have hothers : ∀ l' ∈ rest, l'.grant ∈ w.held ∧
        l'.grant.addr ≠ w.heap.base + (c + tagBytes) := by
      intro l' hl'
      refine ⟨hheld l' (List.mem_cons_of_mem _ hl'), fun he => hnot ?_⟩
      exact List.mem_map.2 ⟨l', hl', he.trans haddr.symm⟩
    have hkept := fun l' hl' => hw.kept_returned hc (hothers l' hl').1 (hothers l' hl').2
    apply hw.relends_cons hc hgrant (hsuits l (List.mem_cons_self ..)) hothers
    rw [haddr]
    apply ih (hw.returned hc).1 _ _ hnodup'
    · exact fun l' hl' => (hkept l' hl').1
    · exact fun l' hl' => (hsuits l' (List.mem_cons_of_mem _ hl')).congr (hkept l' hl').2

/-- From `w` to `w'` nothing is new but what the payloads of the loans hold, and the numbers that
count calls. -/
structure Restores (w : World) (loans : List Loan) (w' : World) : Prop where
  usable : ∀ l ∈ loans, w'.heap.usableSize l.grant.addr = w.heap.usableSize l.grant.addr
  heads : w'.heap.store.heads = w.heap.store.heads
  marks : w'.heap.live = w.heap.live
  inUse : w'.heap.counters.inUse = w.heap.counters.inUse
  base : w'.heap.base = w.heap.base
  len : w'.heap.len = w.heap.len
  bytes : ∀ i, i ∉ w.lent loans → w'.heap.region.byteAt i = w.heap.region.byteAt i
  blank : ∀ i ∈ w.lent loans, w'.heap.region.byteAt i = 0

theorem Tracks.restores (hw : w.Tracks A) (hheld : ∀ l ∈ loans, l.grant ∈ w.held)
    (hrelends : w.Relends A loans) : w.Restores loans (w.relent loans) := by
  have hi := hw.intact
  have hi' := hrelends.tracks.intact
  have hbase : (w.relent loans).heap.base = w.heap.base := hrelends.changed.base
  refine ⟨fun l hl => ?_, hi'.store.same_heads hi.store rfl, hi'.live_eq hi rfl, hi'.inUse_eq hi rfl,
    hbase, hrelends.changed.len, fun i hout => ?_, hrelends.blank⟩
  · obtain ⟨c, t, hc, hgrant⟩ := (hw.held _).1 (hheld l hl)
    have husable := hi'.usableSize hc
    rw [hbase] at husable
    rw [hgrant]
    exact husable.trans (hi.usableSize hc).symm
  · by_cases hin : i ∈ fields A.chunks
    · exact hi'.store.same_byte hi.store hi.settled hin
    · exact hrelends.changed.same i (not_or_intro hin hout)

/-- Pointers that are released one after the other and requested again in the reverse order, for
their owners and near their sizes, come back in this order, and what the heap was is restored. -/
theorem reachable_relends (hw : w.Reachable) (hheld : ∀ l ∈ loans, l.grant ∈ w.held)
    (hnodup : (loans.map fun l => l.grant.addr).Nodup) (hsuits : ∀ l ∈ loans, l.Suits w.heap) :
    w.Succeeds (Loan.releases loans) ∧
      (w.after (Loan.releases loans)).replies loans.reverse =
        loans.reverse.map (fun l => .ok l.grant.addr) ∧
      w.Restores loans (w.relent loans) := by
  obtain ⟨A, hA⟩ := hw.tracks
  have hrelends := hA.relends hheld hsuits hnodup
  exact ⟨hrelends.succeeds, hrelends.replies, hA.restores hheld hrelends⟩

/-- Two chunks come back where a third one is recent already, and are requested again. -/
theorem lifo_restored :
    let w := sample.after [.allocate 8 .kernel, .allocate 8 .nobody, .allocate 8 .kernel,
      .release (some 0x1048)]
    let loans : List Loan := [⟨⟨0x1008, .kernel⟩, 1⟩, ⟨⟨0x1028, .nobody⟩, 16⟩]
    w.Succeeds (Loan.releases loans) ∧
      (w.after (Loan.releases loans)).replies loans.reverse = [.ok 0x1028, .ok 0x1008] ∧
      w.Restores loans (w.relent loans) := by
  intro w loans
  have hruns : w.held = [⟨0x1028, .nobody⟩, ⟨0x1008, .kernel⟩] ∧
      w.heap.usableSize 0x1008 = .ok 16 ∧ w.heap.usableSize 0x1028 = .ok 16 := by
    decide +kernel
  obtain ⟨hheld, hfirst, hsecond⟩ := hruns
  have hin : ∀ l ∈ loans, l.grant ∈ w.held := by
    rw [hheld]
    decide
  have hsuits : ∀ l ∈ loans, l.Suits w.heap := by
    intro l hl
    rcases List.mem_cons.1 hl with rfl | hl
    · exact ⟨32, 16, by decide, hfirst, by decide, by decide⟩
    · obtain rfl := List.mem_singleton.1 hl
      exact ⟨32, 16, by decide, hsecond, by decide, by decide⟩
  exact reachable_relends (w := w) (reachable_sample.after _) hin (by decide) hsuits

end World

end BoundaryHeap
