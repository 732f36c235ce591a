import BoundaryHeap.Proofs.Gaps
import BoundaryHeap.Proofs.Handing

namespace BoundaryHeap

def Tag.anon (t : Tag) : Tag :=
  { t with owner := .nobody }

def anonIn (chunks : List Chunk) : List Chunk :=
  chunks.map fun x => (x.1, x.2.anon)

section Chunks

variable {xs ys : List Chunk} {c lo hi : Nat} {t : Tag}

theorem mem_anonIn (hc : (c, t) ∈ xs) : (c, t.anon) ∈ anonIn xs :=
  List.mem_map_of_mem (f := fun x : Chunk => (x.1, x.2.anon)) hc

theorem of_mem_anonIn (hc : (c, t) ∈ anonIn xs) : ∃ u, (c, u) ∈ xs ∧ u.anon = t := by
  obtain ⟨⟨d, u⟩, hu, he⟩ := List.mem_map.1 hc
  cases he
  exact ⟨u, hu, rfl⟩

theorem layoutOf_anonIn (xs : List Chunk) : layoutOf (anonIn xs) = layoutOf xs := by
  rw [layoutOf, anonIn, List.map_map]
  rfl

theorem totalOf_anonIn (xs : List Chunk) : totalOf (anonIn xs) = totalOf xs := by
  induction xs with
  | nil => rfl
  | cons x rest ih =>
    show x.2.size + totalOf (anonIn rest) = _
    rw [ih, totalOf]

theorem sizeIn_anonIn (xs : List Chunk) (c : Nat) : sizeIn (anonIn xs) c = sizeIn xs c := by
  rw [sizeIn, anonIn, List.find?_map, Option.map_map]
  rfl

theorem filter_anonIn (p : Chunk → Bool) (hp : ∀ c t, p (c, t.anon) = p (c, t)) (xs : List Chunk) :
    (anonIn xs).filter p = anonIn (xs.filter p) := by
  have hsame : p ∘ (fun x : Chunk => (x.1, x.2.anon)) = p := funext fun x => hp x.1 x.2
  rw [anonIn, List.filter_map, hsame, anonIn]

theorem takeWhile_anonIn (xs : List Chunk) : (anonIn xs).takeWhile (fun x => x.2.free) =
    anonIn (xs.takeWhile fun x => x.2.free) := by
  rw [anonIn, List.takeWhile_map, anonIn]
  rfl

theorem splice_anonIn (xs new : List Chunk) (lo hi : Nat) :
    splice (anonIn xs) lo hi (anonIn new) = anonIn (splice xs lo hi new) := by
  rw [splice, filter_anonIn _ fun _ _ => rfl, filter_anonIn _ fun _ _ => rfl, splice]
  simp only [anonIn, List.map_append]

end Chunks

namespace Shape

/-- The shape without owners. -/
def anon (A : Shape) : Shape :=
  { A with chunks := anonIn A.chunks }

variable {A B : Shape} {c d last lo hi size : Nat} {t : Tag} {l : ListId} {f : Filing}

@[simp] theorem len_anon : A.anon.len = A.len := rfl

@[simp] theorem lists_anon : A.anon.lists = A.lists := rfl

@[simp] theorem sizeAt_anon : A.anon.sizeAt c = A.sizeAt c :=
  sizeIn_anonIn A.chunks c

@[simp] theorem anon_unlist : (A.unlist c).anon = A.anon.unlist c := rfl

@[simp] theorem anon_file : (A.file c f).anon = A.anon.file c f := by
  rw [file, file, sizeAt_anon]
  rfl

theorem anon_redraw (new : List Chunk) :
    (A.redraw lo hi new).anon = A.anon.redraw lo hi (anonIn new) := by
  show Shape.mk A.len (anonIn (splice A.chunks lo hi new)) A.lists = _
  rw [← splice_anonIn]
  rfl

@[simp] theorem anon_join : (A.join lo hi).anon = A.anon.join lo hi :=
  anon_redraw _

@[simp] theorem anon_cut : (A.cut c size).anon = A.anon.cut c size := by
  rw [cut, cut, sizeAt_anon]
  exact anon_redraw _

theorem anon_grant (owner : Owner) : (A.grant c owner).anon = A.anon.grant c .nobody := by
  rw [grant, grant, sizeAt_anon]
  exact anon_redraw _

theorem anon_giveBack : (A.giveBack c t).anon = A.anon.giveBack c t.anon := by
  rw [giveBack, anon_file]
  exact congrArg (file · c .recent) (anon_redraw _)

theorem freeBelow_anon : A.anon.freeBelow c = anonIn (A.freeBelow c) := by
  show ((anonIn A.chunks).filter _).reverse.takeWhile _ = _
  rw [filter_anonIn _ fun _ _ => rfl, anonIn, ← List.map_reverse, ← anonIn, takeWhile_anonIn,
    freeBelow]

theorem freeAbove_anon : A.anon.freeAbove c = anonIn (A.freeAbove c) := by
  show ((anonIn A.chunks).filter fun x => c + A.anon.sizeAt c ≤ x.1).takeWhile _ = _
  rw [filter_anonIn _ fun _ _ => rfl, takeWhile_anonIn, sizeAt_anon, freeAbove]

@[simp] theorem runStart_anon : A.anon.runStart c = A.runStart c := by
  rw [runStart, freeBelow_anon, totalOf_anonIn, runStart]

@[simp] theorem runStop_anon : A.anon.runStop c = A.runStop c := by
  rw [runStop, freeAbove_anon, totalOf_anonIn, sizeAt_anon, runStop]

theorem anon_unlistAll (xs : List Chunk) :
    (A.unlistAll xs).anon = A.anon.unlistAll (anonIn xs) := by
  induction xs generalizing A with
  | nil => rfl
  | cons x rest ih => exact ih (A := A.unlist x.1)

@[simp] theorem anon_mergeAround : (A.mergeAround c).anon = A.anon.mergeAround c := by
  rw [mergeAround, anon_file, joinAround, anon_join, anon_unlistAll, anon_unlistAll, mergeAround,
    joinAround, freeBelow_anon, freeAbove_anon, runStart_anon, runStop_anon]

@[simp] theorem anon_demote : (A.demote c).anon = A.anon.demote c := by
  rw [demote, anon_file, anon_unlist, demote]

theorem anon_demoteAll (xs : List Nat) : (xs.foldl demote A).anon = xs.foldl demote A.anon := by
  induction xs generalizing A with
  | nil => rfl
  | cons c rest ih =>
    rw [List.foldl_cons, ih, anon_demote]
    rfl

@[simp] theorem anon_flush : A.flush.anon = A.anon.flush := by
  rw [flush, anon_demoteAll, flush, lists_anon]

@[simp] theorem anon_drain (bin : Fin binCount) : (A.drain bin).2.anon = (A.anon.drain bin).2 := by
  induction hn : (A.lists (.dirty bin)).length using Nat.strong_induction_on generalizing A with
  | _ n ih =>
    rcases hl : A.lists (.dirty bin) with _ | ⟨c, rest⟩
    · have hl' : A.anon.lists (.dirty bin) = [] := hl
      rw [drain_nil hl, drain_nil hl']
    · have hl' : A.anon.lists (.dirty bin) = c :: rest := hl
      have hlt := length_merge_head hl rfl
      rw [hn] at hlt
      rw [drain_cons hl, drain_cons hl', ih _ hlt rfl, anon_mergeAround, anon_unlist]

theorem anon_drainAll (bins : List (Fin binCount)) :
    (A.drainAll bins).2.anon = (A.anon.drainAll bins).2 := by
  induction bins generalizing A with
  | nil => rfl
  | cons bin bins ih => rw [drainAll, ih, anon_drain, drainAll]

@[simp] theorem anon_mergeAll : A.mergeAll.anon = A.anon.mergeAll := by
  rw [mergeAll, anon_drainAll, anon_flush, mergeAll]

@[simp] theorem anon_dropRemainder : A.dropRemainder.anon = A.anon.dropRemainder := by
  rcases hl : A.lists .remainder with _ | ⟨old, rest⟩
  · simp only [dropRemainder, lists_anon, hl]
  · simp only [dropRemainder, lists_anon, hl, anon_file, anon_unlist]

@[simp] theorem anon_keepRemainder : (A.keepRemainder c).anon = A.anon.keepRemainder c := by
  rw [keepRemainder, anon_file, anon_dropRemainder, keepRemainder]

@[simp] theorem anon_stockOne : (A.stockOne c size).anon = A.anon.stockOne c size := by
  simp only [stockOne, anon_file, anon_cut, anon_unlist]

@[simp] theorem anon_stock (count : Nat) : (A.stock size count).anon = A.anon.stock size count := by
  induction count generalizing A with
  | zero => rfl
  | succ count ih =>
    rcases hl : A.lists .remainder with _ | ⟨c, rest⟩
    · simp only [stock, lists_anon, hl]
    · simp only [stock, lists_anon, hl, sizeAt_anon]
      split
      · rfl
      · rw [ih, anon_stockOne]

@[simp] theorem anon_cutDown : (A.cutDown last c size).anon = A.anon.cutDown last c size := by
  simp only [cutDown, sizeAt_anon]
  split
  · rfl
  · split
    · rw [anon_stock, anon_keepRemainder, anon_cut]
    · rw [anon_keepRemainder, anon_cut]

@[simp] theorem recentHead_anon : A.anon.recentHead size = A.recentHead size := by
  simp only [recentHead, lists_anon, sizeAt_anon]

@[simp] theorem exactIn_anon : A.anon.exactIn l size = A.exactIn l size := by
  simp only [exactIn, lists_anon, sizeAt_anon]

@[simp] theorem fittingIn_anon : A.anon.fittingIn l size = A.fittingIn l size := by
  simp only [fittingIn, lists_anon, sizeAt_anon]

@[simp] theorem findFitting_anon : A.anon.findFitting size = A.findFitting size := by
  simp only [findFitting, fittingIn_anon]

@[simp] theorem anon_demoteMisses : (A.demoteMisses size).anon = A.anon.demoteMisses size := by
  simp only [demoteMisses, anon_demoteAll, lists_anon, sizeAt_anon]

theorem takeRecent_anon :
    A.anon.takeRecent size = ((A.takeRecent size).1, (A.takeRecent size).2.anon) := by
  have hlists : (A.anon.demoteMisses size).lists = (A.demoteMisses size).lists := by
    rw [← anon_demoteMisses, lists_anon]
  simp only [takeRecent, hlists]
  split
  · rw [anon_demoteMisses]
  · rw [anon_unlist, anon_demoteMisses]

theorem cutFitting_anon :
    A.anon.cutFitting last size = ((A.cutFitting last size).1, (A.cutFitting last size).2.anon) := by
  simp only [cutFitting, findFitting_anon]
  split
  · rfl
  · rw [anon_cutDown, anon_unlist]

theorem search_anon :
    A.anon.search last size = ((A.search last size).1, (A.search last size).2.anon) := by
  simp only [search, recentHead_anon, exactIn_anon]
  split
  · rw [anon_unlist]
  split
  · rw [anon_unlist]
  rw [takeRecent_anon]
  rcases A.takeRecent size with ⟨_ | c, B⟩
  · simp only [cutFitting_anon]
    rcases hcut : B.cutFitting last size with ⟨_ | d, C⟩
    · simp only [← anon_mergeAll, cutFitting_anon]
    · rfl
  · rfl

theorem search_of_anon (hA : A.anon = B.anon) :
    (A.search last size).1 = (B.search last size).1 ∧
      (A.search last size).2.anon = (B.search last size).2.anon := by
  have hsearch : A.anon.search last size = _ := search_anon
  rw [hA, search_anon] at hsearch
  exact Prod.mk.inj hsearch.symm

theorem len_of_anon (hA : A.anon = B.anon) : A.len = B.len := by
  rw [← A.len_anon, hA, len_anon]

theorem sizeAt_of_anon (hA : A.anon = B.anon) (c : Nat) : A.sizeAt c = B.sizeAt c := by
  rw [← A.sizeAt_anon, hA, sizeAt_anon]

end Shape

end BoundaryHeap
