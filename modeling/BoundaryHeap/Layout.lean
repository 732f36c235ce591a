namespace BoundaryHeap

/-- The grid of the heap: every chunk begins and ends on a multiple of it. -/
@[simp] abbrev granule : Nat := 16

/-- What callers may rely on for the addresses they get. -/
@[simp] abbrev alignment : Nat := 8

@[simp] abbrev tagBytes : Nat := 8

/-- Bytes of a chunk that no caller may use. -/
@[simp] abbrev overhead : Nat := 2 * tagBytes

@[simp] abbrev linkBytes : Nat := 8

/-- No chunk is smaller: tags and links must fit, and the size must be on the grid. -/
@[simp] abbrev minChunk : Nat := 32

@[simp] abbrev markBytes : Nat := 16 * 1024

/-- The largest region whose granules all have a mark. -/
@[simp] abbrev maxRegion : Nat := markBytes * 8 * granule

/-- How many pairs of lists there are. The pair of bin 0 serves as two caches. -/
@[simp] abbrev binCount : Nat := 128

/-- From this size on, chunks of different sizes share a bin. -/
@[simp] abbrev fastLimit : Nat := 1024

/-- From this size on, all chunks are in one bin. -/
@[simp] abbrev rangeLimit : Nat := 64 * 1024

/-- The most chunks that a repeated request may cut for the next ones. -/
@[simp] abbrev stockCount : Nat := 4

/-- Sizes and addresses are below this: they have 64 bits. -/
@[simp] abbrev addressLimit : Nat := 0x10000000000000000

@[simp] abbrev boardBase : Nat := 0x40100000

@[simp] abbrev boardSize : Nat := 1024 * 1024

/-- The least multiple of the granule that is not below `n`. -/
def roundUp (n : Nat) : Nat :=
  (n + (granule - 1)) / granule * granule

/-- Size of the chunk that serves a request of `request` payload bytes, if it has an address. -/
def chunkSize? (request : Nat) : Option Nat :=
  if request + overhead < addressLimit then
    let size := roundUp (max (request + overhead) minChunk)
    if size < addressLimit then some size else none
  else none

end BoundaryHeap
