import BoundaryHeap.Layout

namespace BoundaryHeap

/-- Bins of the small sizes, the two that no chunk size reaches included. -/
@[simp] abbrev fastBins : Nat := fastLimit / granule

@[simp] abbrev rangeBins : Nat := binCount - 1 - fastBins

/-- The bin of the chunks of `size` bytes. It is never bin 0. -/
def sizeClass (size : Nat) : Fin binCount :=
  if _ : size < fastLimit then
    ⟨max (size / granule) 1, by simp only [fastLimit, granule, binCount] at *; omega⟩
  else if _ : size < rangeLimit then
    ⟨fastBins + (size - fastLimit) * rangeBins / (rangeLimit - fastLimit), by
      simp only [fastBins, rangeBins, fastLimit, rangeLimit, granule, binCount] at *; omega⟩
  else
    ⟨binCount - 1, by simp⟩

theorem val_sizeClass (size : Nat) :
    (sizeClass size).val =
      if size < 1024 then max (size / 16) 1
      else if size < 65536 then 64 + (size - 1024) * 63 / 64512
      else 127 := by
  unfold sizeClass
  split
  · rfl
  · split <;> rfl

theorem sizeClass_pos (size : Nat) : 0 < (sizeClass size).val := by
  rw [val_sizeClass]
  split
  · omega
  · split <;> omega

theorem sizeClass_mono {a b : Nat} (h : a ≤ b) : sizeClass a ≤ sizeClass b := by
  rw [Fin.le_def, val_sizeClass, val_sizeClass]
  repeat' split
  all_goals omega

end BoundaryHeap
