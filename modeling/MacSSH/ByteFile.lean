import Mathlib.Data.List.Basic

/-!
# Files as arrays

What writing at a mark, and moving the end of file, do to the contents of a file that is an
array of elements.
-/

namespace ByteFile

variable {α : Type*}

/-- The contents after `new` is written from position `pos` on. -/
def overwrite (bs : List α) (pos : Nat) (new : List α) : List α :=
  bs.take pos ++ new ++ bs.drop (pos + new.length)

/-- The contents once the end of file is at `n`: cut, or extended by whatever `fill` says. -/
def resize (fill : Nat → α) (bs : List α) (n : Nat) : List α :=
  bs.take n ++ (List.range (n - bs.length)).map (fun i => fill (bs.length + i))

/-- A file that reads `s` up to the mark, and the old contents after it, reads `s ++ new` up to
the mark after the write. -/
theorem overwrite_at_mark (s old new : List α) :
    overwrite (s ++ old.drop s.length) s.length new = (s ++ new) ++ old.drop (s ++ new).length := by
  have htake : (s ++ old.drop s.length).take s.length = s := List.take_left
  have hdrop : (s ++ old.drop s.length).drop (s.length + new.length)
      = old.drop (s ++ new).length := by
    rw [← List.drop_drop, List.drop_left, List.drop_drop, List.length_append]
  rw [overwrite, htake, hdrop]

theorem overwrite_nil (bs : List α) (pos : Nat) : overwrite bs pos [] = bs := by
  simp [overwrite]

theorem length_resize (fill : Nat → α) (bs : List α) (n : Nat) :
    (resize fill bs n).length = n := by
  simp only [resize, List.length_append, List.length_take, List.length_map, List.length_range]
  omega

/-- Moving the end of file back cuts. -/
theorem resize_of_le (fill : Nat → α) {bs : List α} {n : Nat} (h : n ≤ bs.length) :
    resize fill bs n = bs.take n := by
  have hzero : n - bs.length = 0 := by omega
  rw [resize, hzero, List.range_zero, List.map_nil, List.append_nil]

/-- The end of file moved to a place inside what was written leaves the front of it. -/
theorem resize_written (fill : Nat → α) {s rest : List α} {n : Nat} (h : n ≤ s.length) :
    resize fill (s ++ rest) n = s.take n := by
  rw [resize_of_le fill (by rw [List.length_append]; omega), List.take_append_of_le_length h]

end ByteFile
