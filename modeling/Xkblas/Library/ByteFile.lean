import Mathlib.Data.List.Basic

/-!
# Files as lists

What a write at an offset leaves in a file: it replaces what was there, and makes the file longer
when it ends behind it. A write behind the end of the file leaves a hole, which reads as zeros.
-/

namespace Xkblas.Library

variable {β : Type*}

/-- The file after the write of some bytes at an offset. -/
def writeAt (zero : β) (file : List β) (offset : ℕ) (bytes : List β) : List β :=
  let file := file ++ List.replicate (offset - file.length) zero
  file.take offset ++ bytes ++ file.drop (offset + bytes.length)

/-- A write at the end appends. -/
theorem writeAt_length (zero : β) (file bytes : List β) :
    writeAt zero file file.length bytes = file ++ bytes := by
  have hdrop : file.drop (file.length + bytes.length) = [] :=
    List.drop_eq_nil_of_le (Nat.le_add_right _ _)
  unfold writeAt
  dsimp only
  rw [Nat.sub_self, List.replicate_zero, List.append_nil, List.take_length, hdrop, List.append_nil]

/-- A write at the start replaces as many bytes. -/
theorem writeAt_zero (zero : β) {first bytes : List β} (rest : List β)
    (hlength : bytes.length = first.length) :
    writeAt zero (first ++ rest) 0 bytes = bytes ++ rest := by
  unfold writeAt
  dsimp only
  rw [Nat.zero_sub, List.replicate_zero, List.append_nil, List.take_zero, List.nil_append,
    Nat.zero_add, hlength, List.drop_left]

end Xkblas.Library
