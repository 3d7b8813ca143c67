import Mathlib.Tactic.SplitIfs

/-! The 16-bit integers that the program keeps most of its counts in. -/
namespace VS

/-- The value of a C `short` that is given `i`. -/
def short (i : Int) : Int := Int.bmod i 65536

theorem short_eq {i : Int} (hl : -32768 ≤ i) (hu : i ≤ 32767) : short i = i := by
  rw [short, Int.bmod_def]
  split_ifs <;> omega

theorem short_range (i : Int) : -32768 ≤ short i ∧ short i ≤ 32767 := by
  rw [short, Int.bmod_def]
  split_ifs <;> omega

end VS
