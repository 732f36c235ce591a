import BoundaryHeap.Proofs.Passing

namespace BoundaryHeap

theorem nodup_of_place_unique {l : List α}
    (h : ∀ c xs ys xs' ys', l = xs ++ c :: ys → l = xs' ++ c :: ys' → xs = xs') : l.Nodup := by
  induction l with
  | nil => exact .nil
  | cons a rest ih =>
    refine List.nodup_cons.2 ⟨fun ha => ?_, ih fun c xs ys xs' ys' hl hl' => ?_⟩
    · obtain ⟨xs, ys, rfl⟩ := List.append_of_mem ha
      cases h a [] _ (a :: xs) ys rfl rfl
    · have hcons := h c (a :: xs) ys (a :: xs') ys' (by rw [hl]; rfl) (by rw [hl']; rfl)
      exact (List.cons.inj hcons).2

namespace Heap

variable {h : Heap} {chunks : List Chunk} {L : Lists} {l l' : ListId} {f : Referrer}
  {last cur : Option Nat} {budget c : Nat} {xs ys xs' ys' : List Nat}

/-- The chunks of the walk and the lists agree: each free chunk is on one list, once, and what is on
a list is a free chunk. -/
structure Accounts (h : Heap) (L : Lists) : Prop where
  nodup : ∀ l, (L l).Nodup
  listed : ∀ c t, (c, t) ∈ h.chunks → t.free = true → ∃! l, c ∈ L l
  free : ∀ l c, c ∈ L l → ∃ t, (c, t) ∈ h.chunks ∧ t.free = true

theorem Passes.chain (hpass : h.Passes l f last cur xs) (hbudget : xs.length ≤ budget) :
    h.region.chain budget cur = .ok xs := by
  induction xs generalizing f last cur budget with
  | nil =>
    obtain rfl : cur = none := hpass
    cases budget with
    | zero => rfl
    | succ budget => rfl
  | cons c rest ih =>
    obtain ⟨rfl, -, next, hnext, hrest⟩ := hpass
    cases budget with
    | zero => cases hbudget
    | succ budget =>
      rw [Region.chain, Fault.bind_ok hnext,
        Fault.bind_ok (ih hrest (Nat.le_of_succ_le_succ hbudget))]
      rfl

theorem Passes.member (hpass : h.Passes l f last cur (xs ++ c :: ys)) :
    (∃ t, h.region.tagAt c = .ok t ∧ t.free = true) ∧
      h.region.referrerOf c = .ok (some (f.along xs)) := by
  induction xs generalizing f last cur with
  | nil =>
    obtain ⟨-, ⟨t, hmember⟩, -⟩ := hpass
    exact ⟨⟨t, hmember.tag, hmember.free⟩, hmember.referrer⟩
  | cons d rest ih =>
    obtain ⟨-, -, next, -, hrest⟩ := hpass
    rw [Referrer.along_cons]
    exact ih hrest

theorem Audited.member (hok : h.Audited chunks L) (hl : L l = xs ++ c :: ys) :
    (∃ t, h.region.tagAt c = .ok t ∧ t.free = true) ∧
      h.region.referrerOf c = .ok (some ((Referrer.head l).along xs)) := by
  have hpass := hok.lists l
  rw [PassesList, hl] at hpass
  exact hpass.member

/-- Whatever lists a chunk is found on, the field in front of it is the one that it names. -/
theorem Audited.same_field (hok : h.Audited chunks L) (hl : L l = xs ++ c :: ys)
    (hl' : L l' = xs' ++ c :: ys') :
    (Referrer.head l).along xs = (Referrer.head l').along xs' := by
  have hnamed := (hok.member hl).2
  rw [(hok.member hl').2] at hnamed
  exact (Option.some.inj (Except.ok.inj hnamed)).symm

/-- A chunk names one field only, so it has one place on the lists. -/
theorem Audited.place_unique (hok : h.Audited chunks L) (hl : L l = xs ++ c :: ys)
    (hl' : L l' = xs' ++ c :: ys') : l = l' ∧ xs = xs' := by
  -- from the chunk back to the head, along the fields that the chunks name
  induction xs using List.reverseRecOn generalizing c ys xs' ys' with
  | nil =>
    have hhead : (Referrer.head l').along xs' = .head l := (hok.same_field hl hl').symm
    obtain rfl := Referrer.head_of_along_eq hhead
    rcases (Referrer.head l).along_eq xs' with ⟨rfl, -⟩ | ⟨d, -, -, he⟩
    · exact ⟨rfl, rfl⟩
    · rw [hhead] at he
      cases he
  | append_singleton rest d ih =>
    have hfield := hok.same_field hl hl'
    rw [Referrer.along_concat] at hfield
    obtain ⟨rest', rfl⟩ := List.getLast?_eq_some_iff.1 (Referrer.getLast?_of_along_eq hfield.symm)
    rw [List.append_assoc] at hl hl'
    obtain ⟨rfl, rfl⟩ := ih hl hl'
    exact ⟨rfl, rfl⟩

theorem Audited.distinct (hok : h.Audited chunks L) : L.Distinct := by
  constructor
  · intro l
    apply nodup_of_place_unique
    intro c xs ys xs' ys' hl hl'
    exact (hok.place_unique hl hl').2
  · intro l l' c hc hc'
    obtain ⟨xs, ys, hl⟩ := List.append_of_mem hc
    obtain ⟨xs', ys', hl'⟩ := List.append_of_mem hc'
    exact (hok.place_unique hl hl').1

theorem Audited.chunks_eq (hok : h.Audited chunks L) : h.chunks = chunks := by
  rw [Heap.chunks, hok.walk]

theorem Audited.members (hok : h.Audited chunks L) (l : ListId) : h.store.members l = .ok (L l) := by
  apply (hok.lists l).chain
  have htiles := (tiles_of_walk hok.walk).1
  have hlength := htiles.length_le
  have hfree := List.countP_le_length (p := fun x : Chunk => x.2.free) (l := chunks)
  have hpart : (L l).length ≤ (ListId.all.flatMap L).length :=
    (hok.distinct.nodup l).length_le_of_subset fun c hc => mem_listed.2 ⟨l, hc⟩
  have hcomplete := hok.complete
  have hlen : h.store.region.len = h.len := rfl
  simp only [minChunk]
  omega

theorem Audited.free (hok : h.Audited chunks L) (hc : c ∈ L l) :
    ∃ t, h.region.tagAt c = .ok t ∧ t.free = true := by
  obtain ⟨xs, ys, hl⟩ := List.append_of_mem hc
  exact (hok.member hl).1

/-- The counts agree, so either inclusion makes the listed chunks the free ones. -/
theorem Audited.accounts_of_perm (hok : h.Audited chunks L)
    (hperm : (ListId.all.flatMap L).Perm (freeStarts chunks)) : h.Accounts L := by
  refine ⟨hok.distinct.nodup, fun c t hc hfree => ?_, fun l c hc => ?_⟩
  · rw [hok.chunks_eq] at hc
    obtain ⟨l, hl⟩ := mem_listed.1 (hperm.mem_iff.2 (mem_freeStarts.2 ⟨t, hc, hfree⟩))
    exact ⟨l, hl, fun l' hl' => hok.distinct.only hl' hl⟩
  · rw [hok.chunks_eq]
    exact mem_freeStarts.1 (hperm.mem_iff.1 (mem_listed.2 ⟨l, hc⟩))

theorem Audited.accounts_iff_starts (hok : h.Audited chunks L) :
    h.Accounts L ↔ ∀ l c, c ∈ L l → ∃ t, (c, t) ∈ h.chunks := by
  constructor
  · intro haccounts l c hc
    obtain ⟨t, ht, -⟩ := haccounts.free l c hc
    exact ⟨t, ht⟩
  · intro hstarts
    have htags := (tiles_of_walk hok.walk).2
    have hsub : ListId.all.flatMap L ⊆ freeStarts chunks := by
      intro c hc
      obtain ⟨l, hl⟩ := mem_listed.1 hc
      obtain ⟨t, ht⟩ := hstarts l c hl
      obtain ⟨u, hu, hfree⟩ := hok.free hl
      rw [hok.chunks_eq] at ht
      obtain rfl := Except.ok.inj ((htags c t ht).symm.trans hu)
      exact mem_freeStarts.2 ⟨t, ht, hfree⟩
    have hlength : (freeStarts chunks).length ≤ (ListId.all.flatMap L).length := by
      rw [length_freeStarts, hok.complete]
    exact hok.accounts_of_perm
      ((List.subperm_of_subset hok.distinct.nodup_all hsub).perm_of_length_le hlength)

theorem Audited.accounts_iff_listed (hok : h.Audited chunks L) :
    h.Accounts L ↔ ∀ c t, (c, t) ∈ h.chunks → t.free = true → ∃ l, c ∈ L l := by
  constructor
  · intro haccounts c t hc hfree
    obtain ⟨l, hl, -⟩ := haccounts.listed c t hc hfree
    exact ⟨l, hl⟩
  · intro hlisted
    have htiles := (tiles_of_walk hok.walk).1
    have hsub : freeStarts chunks ⊆ ListId.all.flatMap L := by
      intro c hc
      obtain ⟨t, ht, hfree⟩ := mem_freeStarts.1 hc
      rw [← hok.chunks_eq] at ht
      exact mem_listed.2 (hlisted c t ht hfree)
    have hlength : (ListId.all.flatMap L).length ≤ (freeStarts chunks).length := by
      rw [length_freeStarts, hok.complete]
    exact hok.accounts_of_perm
      ((List.subperm_of_subset htiles.nodup_freeStarts hsub).perm_of_length_le hlength).symm

/-- What a passed audit says about the lists `L`: they are what the links spell, their chunks are
distinct, read as free and are as many as the free chunks of the walk. They are these chunks as soon
as each of them begins where a chunk of the walk begins, or each free chunk is on a list. -/
structure Vetted (h : Heap) (L : Lists) : Prop where
  members : ∀ l, h.store.members l = .ok (L l)
  distinct : L.Distinct
  free : ∀ l c, c ∈ L l → ∃ t, h.region.tagAt c = .ok t ∧ t.free = true
  count : (ListId.all.flatMap L).length = freeChunks h.chunks
  starts : h.Accounts L ↔ ∀ l c, c ∈ L l → ∃ t, (c, t) ∈ h.chunks
  listed : h.Accounts L ↔ ∀ c t, (c, t) ∈ h.chunks → t.free = true → ∃ l, c ∈ L l

theorem Audited.vetted (hok : h.Audited chunks L) : h.Vetted L where
  members := hok.members
  distinct := hok.distinct
  free _ _ hc := hok.free hc
  count := by
    rw [hok.complete, hok.chunks_eq]
    rfl
  starts := hok.accounts_iff_starts
  listed := hok.accounts_iff_listed

/-- Whatever the bytes of the region are, an audit that passes vets the lists. -/
theorem vetted_of_audit (hok : h.audit = .ok ()) : ∃ L, h.Vetted L := by
  obtain ⟨chunks, L, haudited⟩ := audited_of_audit hok
  exact ⟨L, haudited.vetted⟩

theorem sample_vetted : World.sample.heap.audit = .ok () ∧ ∃ L, World.sample.heap.Vetted L := by
  have hok : World.sample.heap.audit = .ok () := by decide +kernel
  exact ⟨hok, vetted_of_audit hok⟩

/-- The heap with other bytes in its region. -/
def overwritten (h : Heap) (bytes : ByteArray) : Heap :=
  { h with store.region := ⟨h.base, bytes⟩ }

end Heap

def Region.forge (r : Region) (c : Nat) (t : Tag) : Region :=
  (r.putNat c 8 t.encode.toNat).putNat (c + t.size - 8) 8 t.encode.toNat

namespace World

def filled : World :=
  match Heap.takeOver 0x40100000 ⟨Array.replicate 160 0⟩ with
  | .ok (h, _) => World.after ⟨h, []⟩ [.allocate 64 .kernel, .allocate 16 .kernel]
  | .error _ => sample

theorem reachable_filled : filled.Reachable := by
  unfold filled
  split
  next h journal h₀ => exact (Reachable.start h₀).after _
  next => exact reachable_sample

/-- The tail of the first live chunk is free now, and the second one is longer by as much and holds
the remainder inside. -/
def forgedBytes : ByteArray :=
  ((((filled.heap.region.forge 0 (.live 32 .kernel)).forge 32 (.unowned 48)).forge 80
    (.live 80 .kernel)).forge 112 (.unowned 32)).bytes

def forged : Heap :=
  filled.heap.overwritten forgedBytes

theorem forged_passes : forgedBytes.size = filled.heap.len ∧ forged.audit = .ok () ∧
    forged.store.members .remainder = .ok [112] ∧
    layoutOf forged.chunks =
      [(0, 32, false), (32, 48, true), (80, 80, false)] ∧
    (forged.run (Heap.allocate 16 .kernel)).result = .ok (0x40100000 + 120) := by
  decide +kernel

/-- The audit does not see that a listed chunk lies inside a live one while a free chunk is on no
list. -/
theorem audit_overlooks_stray :
    ¬∀ (w : World) (bytes : ByteArray), w.Reachable → bytes.size = w.heap.len →
      (w.heap.overwritten bytes).audit = .ok () →
      ∃ L : Lists, (∀ l, (w.heap.overwritten bytes).store.members l = .ok (L l)) ∧
        (w.heap.overwritten bytes).Accounts L := by
  intro hsound
  obtain ⟨hsize, hok, hremainder, hchunks, -⟩ := forged_passes
  obtain ⟨L, hmembers, haccounts⟩ : ∃ L : Lists, (∀ l, forged.store.members l = .ok (L l)) ∧
      forged.Accounts L := hsound filled forgedBytes reachable_filled hsize hok
  have hL : L .remainder = [112] := Except.ok.inj ((hmembers .remainder).symm.trans hremainder)
  obtain ⟨t, ht, -⟩ := haccounts.free .remainder 112 (by simp [hL])
  have hmem : (112, t.size, t.free) ∈ layoutOf forged.chunks :=
    List.mem_map_of_mem (f := fun x : Chunk => (x.1, x.2.size, x.2.free)) ht
  rw [hchunks] at hmem
  simp at hmem

end World

end BoundaryHeap
