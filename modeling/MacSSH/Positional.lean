import Mathlib.Algebra.Order.Ring.Nat
import Mathlib.Data.Nat.Basic
import Mathlib.Tactic.Common
import Mathlib.Tactic.Ring

/-! Numbers by their digits, the most significant first. -/
namespace Positional

variable {B m n : ℕ} {s t : ℕ → ℕ}

/-- The number that the first `n` digits make to the base `B`. -/
def number (B : ℕ) (s : ℕ → ℕ) : ℕ → ℕ
  | 0 => 0
  | n+1 => number B s n * B + s n

theorem number_congr (h : ∀ i < n, s i = t i) : number B s n = number B t n := by
  induction n with
  | zero => rfl
  | succ n ih =>
    rw [number, number, ih fun i hi => h i (Nat.lt_succ_of_lt hi), h n (Nat.lt_succ_self n)]

theorem number_lt (h : ∀ i < n, s i < B) : number B s n < B^n := by
  induction n with
  | zero => exact Nat.one_pos
  | succ n ih =>
    have hfront := ih fun i hi => h i (Nat.lt_succ_of_lt hi)
    have hlast := h n (Nat.lt_succ_self n)
    calc number B s n * B + s n < number B s n * B + B := Nat.add_lt_add_left hlast _
      _ = (number B s n + 1) * B := (Nat.succ_mul _ _).symm
      _ ≤ B^n * B := Nat.mul_le_mul_right B hfront
      _ = B^(n+1) := (Nat.pow_succ ..).symm

/-- Cutting off the last digits leaves the number of the first. -/
theorem number_div (h : ∀ i, s i < B) (k : ℕ) :
    number B s (n+k) / B^k = number B s n := by
  induction k with
  | zero => rw [Nat.pow_zero, Nat.div_one, Nat.add_zero]
  | succ k ih =>
    have hB : 0 < B := Nat.lt_of_le_of_lt (Nat.zero_le _) (h 0)
    have hcut : number B s (n+k+1) / B = number B s (n+k) := by
      rw [number, Nat.mul_comm, Nat.mul_add_div hB, Nat.div_eq_of_lt (h (n+k)), Nat.add_zero]
    rw [← Nat.add_assoc, Nat.pow_succ', ← Nat.div_div_eq_div_mul, hcut, ih]

/-- The digits of a number make it again, up to what they cannot hold. -/
theorem number_digits (n : ℕ) : ∀ W, number B (fun i => W / B^(n-1-i) % B) n = W % B^n := by
  induction n with
  | zero => exact fun W => (Nat.mod_one W).symm
  | succ n ih =>
    intro W
    have hfront : ∀ i < n, W / B^(n+1-1-i) % B = W / B / B^(n-1-i) % B := by
      intro i hi
      have hexp : n+1-1-i = n-1-i+1 := by omega
      rw [hexp, Nat.pow_succ', Nat.div_div_eq_div_mul]
    rw [number, number_congr hfront, ih, Nat.add_sub_cancel, Nat.sub_self, Nat.pow_zero,
      Nat.div_one, Nat.pow_succ', Nat.mod_mul, Nat.mul_comm, Nat.add_comm]

theorem number_inj (hs : ∀ i < n, s i < B) (ht : ∀ i < n, t i < B)
    (h : number B s n = number B t n) : ∀ i < n, s i = t i := by
  induction n with
  | zero => exact fun i hi => absurd hi (Nat.not_lt_zero i)
  | succ n ih =>
    have hsn := hs n (Nat.lt_succ_self n)
    have htn := ht n (Nat.lt_succ_self n)
    have hlast : s n = t n := by
      have hmod := congrArg (· % B) h
      simpa only [number, Nat.mul_add_mod_self_right, Nat.mod_eq_of_lt hsn,
        Nat.mod_eq_of_lt htn] using hmod
    have hfront : number B s n = number B t n := by
      rw [number, number, hlast] at h
      exact Nat.eq_of_mul_eq_mul_right (by omega) (Nat.add_right_cancel h)
    intro i hi
    rcases Nat.lt_succ_iff_lt_or_eq.mp hi with hi | rfl
    · exact ih (fun i hi => hs i (Nat.lt_succ_of_lt hi)) (fun i hi => ht i (Nat.lt_succ_of_lt hi))
        hfront i hi
    · exact hlast

/-- The first `e` bits of a number with `b` bits in each digit do not depend on how many
digits are read behind them. -/
theorem first_bits {b e : ℕ} (h : ∀ i, s i < 2^b) (hm : e ≤ b*m) (hn : e ≤ b*n) :
    number (2^b) s m / 2^(b*m-e) = number (2^b) s n / 2^(b*n-e) := by
  have hle : ∀ m n, m ≤ n → e ≤ b*m →
      number (2^b) s m / 2^(b*m-e) = number (2^b) s n / 2^(b*n-e) := by
    intro m n hmn hm
    obtain ⟨k, rfl⟩ := Nat.exists_eq_add_of_le hmn
    have hexp : b*(m+k)-e = b*k + (b*m-e) := by
      rw [Nat.mul_add]
      omega
    rw [hexp, Nat.pow_add, ← Nat.div_div_eq_div_mul, Nat.pow_mul, number_div h k]
  rcases Nat.le_total m n with hmn | hnm
  · exact hle m n hmn hm
  · exact (hle n m hnm hn).symm

end Positional
