import BoundaryHeap.Layout
import BoundaryHeap.Text.Numeral

namespace BoundaryHeap

open Text (hex)

/-- Why a pointer is not the start of a live allocation. -/
inductive PointerFault where
  | misaligned
  | outOfRegion
  | notAllocated
  deriving DecidableEq, Repr

def PointerFault.message : PointerFault → String
  | .misaligned => "misaligned pointer"
  | .outOfRegion => "pointer outside heap region"
  | .notAllocated => "not a live allocation"

/-- What was found wrong with the structure of the heap. -/
inductive Damage where
  /-- A chunk offset off the granule grid or too close to the end of the region. -/
  | offGrid
  | badHeader
  | headerSize
  | badFooter
  | tagMismatch
  /-- The word in front of a chunk is no tag. -/
  | badFooterBelow
  | footerSize
  | notAdjacent
  | unlisted
  /-- The field named by a back-reference refers to another chunk. -/
  | strayReferrer
  | freeChunkLive
  | allocatedOnList
  | missingFromLists
  | severalRemainders
  | markCount
  | usageDrift
  | walkGap
  | freeMarkedLive
  | liveUnmarked
  | uncovered
  | listCycle
  | staleReferrer
  | wrongBin
  | listOrder
  | adjacentClean
  /-- A finding of a client of the library, in its own words. -/
  | described (text : String)
  deriving DecidableEq, Repr

def Damage.message : Damage → String
  | .offGrid => "chunk offset off the grid"
  | .badHeader => "bad header tag"
  | .headerSize => "header size out of range"
  | .badFooter => "bad footer tag"
  | .tagMismatch => "header/footer mismatch"
  | .badFooterBelow => "bad footer below chunk"
  | .footerSize => "footer size out of range"
  | .notAdjacent => "predecessor not adjacent"
  | .unlisted => "free chunk not on any list"
  | .strayReferrer => "back-reference does not point here"
  | .freeChunkLive => "bitmap marks a free chunk live"
  | .allocatedOnList => "allocated chunk on a free list"
  | .missingFromLists => "free chunk missing from every list"
  | .severalRemainders => "remainder cache holds several chunks"
  | .markCount => "bitmap count disagrees with live chunks"
  | .usageDrift => "usage counter drifted"
  | .walkGap => "gap in physical walk"
  | .freeMarkedLive => "free chunk marked live"
  | .liveUnmarked => "live chunk not marked"
  | .uncovered => "chunks do not cover the region"
  | .listCycle => "free list cycle"
  | .staleReferrer => "stale back-reference"
  | .wrongBin => "chunk filed in the wrong bin"
  | .listOrder => "list out of address order"
  | .adjacentClean => "adjacent clean chunks"
  | .described text => text

/-- An error that the heap returns to its caller. -/
inductive HeapError where
  | outOfMemory (requested : Nat)
  | invalidFree (addr : Nat) (reason : PointerFault)
  | corruptState (offset : Nat) (damage : Damage)
  | regionTooSmall (size : Nat)
  | regionTooLarge (size max : Nat)
  | alreadyInitialized
  | lockContended
  deriving DecidableEq, Repr

namespace HeapError

def message : HeapError → String
  | outOfMemory requested => s!"Out of heap memory (requested: {requested} bytes)"
  | invalidFree addr reason => s!"Invalid free of {hex addr}: {reason.message}"
  | corruptState offset damage => s!"Heap corrupted at offset {hex offset}: {damage.message}"
  | regionTooSmall size => s!"Heap region too small ({size} bytes)"
  | regionTooLarge size max =>
    s!"Heap region of {size} bytes exceeds bitmap coverage ({max} bytes)"
  | alreadyInitialized => "Kernel heap already initialized"
  | lockContended => "Kernel heap lock held; privileged caller did not wait"

/-- The errors that show a bad pointer or a damaged heap. -/
def isFatal : HeapError → Bool
  | invalidFree _ _ | corruptState _ _ => true
  | _ => false

end HeapError

/-- A failed check inside the heap. It ends the program that called. -/
inductive Abort where
  /-- A load or store that is misaligned or leaves the region. -/
  | access (width offset len : Nat)
  | zeroing (count offset : Nat)
  | pointer (offset : Nat)
  | chunkUnaligned (offset size : Nat)
  | chunkTooSmall (size : Nat)
  | chunkPastEnd (offset size : Nat)
  | cutTooLarge (size total : Nat)
  | cutUnaligned (size : Nat)
  | cutHead
  | cutRest
  | stillLinked (offset : Nat)
  | remainderOccupied
  /-- One word of a table that does not have so many. -/
  | word (index len : Nat)
  /-- The first words of a table that does not have so many. -/
  | words (count len : Nat)
  /-- A sum that does not fit a word. -/
  | overflow
  /-- A difference of sizes below zero. -/
  | underflow
  /-- A fatal error under the halting policy. -/
  | halted (error : HeapError)
  deriving DecidableEq, Repr

def Abort.message : Abort → String
  | .access width offset len =>
    s!"arena access of {width} bytes at {hex offset} (len {hex len})"
  | .zeroing count offset => s!"arena zero of {count} bytes at {hex offset} out of range"
  | .pointer offset => s!"arena offset {hex offset} out of range"
  | .chunkUnaligned offset size => s!"init_chunk: {hex offset}+{hex size} not granule aligned"
  | .chunkTooSmall size => s!"init_chunk: size {size} below minimum"
  | .chunkPastEnd offset size => s!"init_chunk: {hex offset}+{hex size} past end of region"
  | .cutTooLarge size total => s!"split_chunk: {size} bytes requested from a {total}-byte chunk"
  | .cutUnaligned size => s!"split_chunk: size {size} not granule aligned"
  | .cutHead => "split_chunk: head tags disagree"
  | .cutRest => "split_chunk: rest tags disagree"
  | .stillLinked offset => s!"bin_chunk: chunk {hex offset} is still linked"
  | .remainderOccupied => "bin_chunk: remainder cache already occupied"
  | .word index len => s!"index out of bounds: the len is {len} but the index is {index}"
  | .words count len => s!"range end index {count} out of range for slice of length {len}"
  | .overflow => "attempt to add with overflow"
  | .underflow => "attempt to subtract with overflow"
  | .halted error => s!"kernel heap fault: {error.message}"

/-- How an operation can end other than by its result. -/
inductive Fault where
  | error (e : HeapError)
  | abort (a : Abort)
  /-- The fuel of a walk ran out, or a lock is never released. -/
  | endless
  deriving DecidableEq, Repr

def Fault.corrupt (offset : Nat) (damage : Damage) : Fault :=
  .error (.corruptState offset damage)

namespace Fault

def require (p : Prop) [Decidable p] (f : Fault) : Except Fault Unit :=
  if p then .ok () else .error f

def orElse (f : Fault) : Option α → Except Fault α
  | some a => .ok a
  | none => .error f

def sum (a b : Nat) : Except Fault Nat :=
  if a + b < addressLimit then .ok (a + b) else .error (.abort .overflow)

theorem require_ok {p : Prop} [Decidable p] (h : p) (f : Fault) : Fault.require p f = .ok () :=
  if_pos h

theorem require_error {p : Prop} [Decidable p] (h : ¬p) (f : Fault) :
    Fault.require p f = .error f :=
  if_neg h

theorem require_eq_ok_iff {p : Prop} [Decidable p] {f : Fault} {u : Unit} :
    Fault.require p f = .ok u ↔ p := by
  unfold Fault.require
  split <;> simp [*]

theorem orElse_eq_ok_iff {f : Fault} {o : Option α} {a : α} :
    f.orElse o = .ok a ↔ o = some a := by
  cases o <;> simp [Fault.orElse]

theorem orElse_some (f : Fault) (a : α) : f.orElse (some a) = .ok a :=
  rfl

theorem sum_ok {a b : Nat} (h : a + b < addressLimit) : sum a b = .ok (a + b) :=
  if_pos h

theorem sum_eq_ok_iff {a b c : Nat} : sum a b = .ok c ↔ a + b < addressLimit ∧ a + b = c := by
  unfold sum
  split <;> simp [*]

theorem bind_ok {x : Except Fault α} {k : α → Except Fault β} {a : α} (h : x = .ok a) :
    x >>= k = k a := by
  rw [h]
  rfl

theorem bind_eq_ok_iff {x : Except Fault α} {k : α → Except Fault β} {b : β} :
    x >>= k = .ok b ↔ ∃ a, x = .ok a ∧ k a = .ok b := by
  cases x with
  | error f => simp [bind, Except.bind]
  | ok a => simp [bind, Except.bind]

end Fault

end BoundaryHeap
