import BoundaryHeap.Proofs.Auditing
import BoundaryHeap.Proofs.Consistency
import Mathlib.Data.List.Induction

namespace BoundaryHeap

theorem Referrer.along_concat (f : Referrer) (xs : List Nat) (c : Nat) :
    f.along (xs ++ [c]) = .next c := by
  simp only [along, List.getLast?_append, List.getLast?_singleton, Option.some_or]

namespace Store

variable {s : Store} {L : Lists} {l : ListId} {xs ys : List Nat} {hops : Nat}

/-- From any member the fields lead back to the head of its list. -/
theorem Linked.leadsToClean (h : s.Linked L) (hl : L l = xs ++ ys) (hhops : xs.length ≤ hops) :
    Heap.leadsToClean s.region hops (some ((Referrer.head l).along xs)) =
      .ok (Heap.isCleanBin l) := by
  induction xs using List.reverseRecOn generalizing ys hops with
  | nil =>
    cases hops with
    | zero => rfl
    | succ hops => rfl
  | append_singleton xs c ih =>
    rw [List.length_append, List.length_singleton] at hhops
    obtain ⟨hops, rfl⟩ : ∃ n, hops = n + 1 := ⟨hops - 1, by omega⟩
    have hl' : L l = xs ++ c :: ys := by
      rw [hl, List.append_assoc]
      rfl
    rw [Referrer.along_concat, Heap.leadsToClean, (h.referrer hl').1]
    exact ih hl' (Nat.le_of_succ_le_succ hhops)

end Store

namespace Heap

variable {h : Heap} {A : Shape} {c : Nat} {t : Tag} {l : ListId} {xs ys : List Nat}

theorem Intact.isMarked_eq (hi : h.Intact A) (hc : (c, t) ∈ A.chunks) :
    h.live.isMarked (c / granule) = !t.free := by
  have hplace := (hi.settled.valid.granule_eq_iff hc).1 rfl
  rcases hstate : t.free with _ | _
  · exact hi.isMarked (mem_liveIn.2 ⟨hc, hstate⟩)
  · rw [Bool.not_true, ← Bool.not_eq_true, hi.marks, hplace]
    rintro ⟨u, hu⟩
    obtain ⟨hmem, hlive⟩ := mem_liveIn.1 hu
    rw [hi.settled.valid.tiles.unique hmem hc, hstate] at hlive
    cases hlive

theorem clean_of_isCleanBin (hl : isCleanBin l = true) : l.kind = .clean := by
  simp only [isCleanBin, Bool.and_eq_true, beq_iff_eq] at hl
  exact hl.2

theorem Intact.auditMaximal (hi : h.Intact A) (hc : (c, t) ∈ A.chunks) (hclean : A.Clean c) :
    h.auditMaximal c t.size = .ok () := by
  have hlen : h.region.len = A.len := hi.len
  rw [Heap.auditMaximal, Region.above, hlen]
  by_cases hend : c + t.size < A.len
  · obtain ⟨u, hu⟩ := hi.settled.valid.tiles.above hc hend
    have htag : h.region.tagAt (c + t.size) = .ok u := hi.store.tagAt hu
    rw [if_pos hend]
    simp only [htag]
    rcases hfree : u.free with _ | _
    · rw [Fault.bind_ok rfl, hfree]
      rfl
    · obtain ⟨l, hl⟩ := hi.settled.listed ⟨u, hu, hfree⟩ (Set.notMem_empty _)
      obtain ⟨xs, ys, hsplit⟩ := List.append_of_mem hl
      have hreferrer : h.region.referrerOf (c + t.size) = _ := (hi.store.linked.referrer hsplit).1
      have hhops : xs.length ≤ A.len / minChunk := by
        have hle := hi.settled.valid.length_le l
        rw [hsplit, List.length_append] at hle
        omega
      have hdirty : isCleanBin l = false := by
        rw [← Bool.not_eq_true]
        intro hcleanBin
        exact hi.settled.apart c t hc hclean ⟨l, clean_of_isCleanBin hcleanBin, hl⟩
      have hleads : leadsToClean h.region _ _ = _ :=
        hi.store.linked.leadsToClean hsplit hhops
      rw [hdirty, ← hi.len] at hleads
      rw [Fault.bind_ok rfl, hfree, if_pos rfl, Fault.bind_ok hreferrer, Fault.bind_ok hleads,
        Fault.require_ok rfl]
  · rw [if_neg hend]
    rfl

/-- A member passes behind the members in front of it. -/
theorem Intact.passesAs (hi : h.Intact A) (hl : A.lists l = xs ++ c :: ys) :
    ∃ t, h.PassesAs l ((Referrer.head l).along xs) xs.getLast? c t := by
  have hmem : c ∈ A.lists l := by simp [hl]
  obtain ⟨t, ht, hfree⟩ := hi.settled.valid.listed hmem
  refine ⟨t, hi.store.tagAt ht, hfree, (hi.store.linked.referrer hl).1, ?_, ?_, ?_⟩
  · by_cases hbin : l.bin = 0
    · exact .inl (congrArg Fin.val hbin)
    · exact .inr (hi.settled.valid.binned hmem hbin ht)
  · by_cases hbin : l.bin = 0
    · obtain ⟨bin, kind⟩ := l
      obtain rfl : bin = 0 := hbin
      cases kind with
      | dirty => exact .inl rfl
      | clean =>
        have hsingle := hi.settled.valid.single
        have hremainder : A.lists .remainder = xs ++ c :: ys := hl
        rw [hremainder, List.length_append, List.length_cons] at hsingle
        obtain rfl : xs = [] := List.length_eq_zero_iff.1 (by omega)
        exact .inr rfl
    · right
      have hsorted := hi.settled.valid.sorted l hbin
      rw [hl, List.pairwise_append] at hsorted
      rw [Option.all_eq_true]
      intro d hd
      exact decide_eq_true (hsorted.2.2 d (List.mem_of_getLast? hd) c (List.mem_cons_self ..))
  · exact fun hcleanBin =>
      hi.auditMaximal ht ⟨l, clean_of_isCleanBin hcleanBin, hmem⟩

theorem Intact.passes (hi : h.Intact A) (hl : A.lists l = xs ++ ys) :
    h.Passes l ((Referrer.head l).along xs) xs.getLast? ys.head? ys := by
  induction ys generalizing xs with
  | nil => rfl
  | cons c rest ih =>
    have hl' : A.lists l = (xs ++ [c]) ++ rest := by
      rw [hl, List.append_assoc]
      rfl
    have hrest := ih hl'
    rw [Referrer.along_concat, List.getLast?_concat] at hrest
    exact ⟨rfl, hi.passesAs hl, _, hi.store.linked.next hl, hrest⟩

theorem Intact.audited (hi : h.Intact A) : h.Audited A.chunks A.lists where
  walk := hi.store.walk
  marks := fun _ _ hc => hi.isMarked_eq hc
  lists l := by
    have hhead : h.store.heads.get l = (A.lists l).head? := (hi.store.threads l).head
    have hall : A.lists l = [] ++ A.lists l := rfl
    rw [PassesList, hhead]
    exact hi.passes hall
  complete := hi.settled.length_listed
  single := hi.settled.valid.single
  marked := hi.countMarked
  inUse := hi.inUse

theorem Intact.audit (hi : h.Intact A) : h.audit = .ok () :=
  hi.audited.audit hi.bounded

end Heap

end BoundaryHeap
