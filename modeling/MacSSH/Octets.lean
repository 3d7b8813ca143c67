import Mathlib.Data.List.Basic
import Mathlib.Tactic

/-! Numbers as byte strings, the most significant byte first. The strings of one length are
the numbers below a power of 256, and in two's complement those around zero. -/
namespace Octets

def value : List UInt8 → ℕ
  | [] => 0
  | b :: x => b.toNat*256^x.length+value x

/-- The last `k` bytes of a number. -/
def octets : ℕ → ℕ → List UInt8
  | 0, _ => []
  | k+1, n => octets k (n/256) ++ [UInt8.ofNat n]

theorem value_lt (x : List UInt8) : value x < 256^x.length := by
  induction x with
  | nil => exact Nat.one_pos
  | cons b x ih =>
    have hb := b.toNat_lt
    calc value (b :: x) < b.toNat*256^x.length+256^x.length := Nat.add_lt_add_left ih _
      _ = (b.toNat+1)*256^x.length := by ring
      _ ≤ 256*256^x.length := Nat.mul_le_mul_right _ (by omega)
      _ = 256^(b :: x).length := by rw [List.length_cons, pow_succ, Nat.mul_comm]

theorem value_append (x y : List UInt8) : value (x ++ y) = value x*256^y.length+value y := by
  induction x with
  | nil => rw [List.nil_append, value, Nat.zero_mul, Nat.zero_add]
  | cons b x ih =>
    rw [List.cons_append, value, ih, List.length_append, value, pow_add]
    ring

theorem length_octets : ∀ (k n : ℕ), (octets k n).length = k := by
  intro k
  induction k with
  | zero => intro n; rfl
  | succ k ih =>
    intro n
    rw [octets, List.length_append, ih]
    rfl

theorem value_octets : ∀ (k n : ℕ), value (octets k n) = n%256^k := by
  intro k
  induction k with
  | zero =>
    intro n
    rw [pow_zero, Nat.mod_one]
    rfl
  | succ k ih =>
    intro n
    have hbyte : value [UInt8.ofNat n] = n%256 := by
      rw [value, value, List.length_nil, pow_zero, UInt8.toNat_ofNat']
      omega
    rw [octets, value_append, ih, hbyte, List.length_singleton, pow_one, pow_succ',
      Nat.mod_mul, Nat.mul_comm]
    omega

theorem octets_value (x : List UInt8) : octets x.length (value x) = x := by
  induction x using List.reverseRecOn with
  | nil => rfl
  | append_singleton x b ih =>
    have hb := b.toNat_lt
    have hvalue : value (x ++ [b]) = value x*256+b.toNat := by
      rw [value_append]
      simp only [value, List.length_nil, List.length_singleton, pow_zero, pow_one]
      omega
    have hlast : UInt8.ofNat (value (x ++ [b])) = b := by
      apply UInt8.toNat_inj.mp
      rw [UInt8.toNat_ofNat', hvalue]
      omega
    rw [List.length_append, List.length_singleton, octets, hlast, hvalue]
    have hdiv : (value x*256+b.toNat)/256 = value x := by omega
    rw [hdiv, ih]

theorem value_inj {x y : List UInt8} (hlen : x.length = y.length) (h : value x = value y) :
    x = y := by
  rw [← octets_value x, ← octets_value y, hlen, h]

theorem octets_add (i j n : ℕ) : octets (i+j) n = octets i (n/256^j) ++ octets j n := by
  have hlen : (octets (i+j) n).length = (octets i (n/256^j) ++ octets j n).length := by
    rw [List.length_append, length_octets, length_octets, length_octets]
  apply value_inj hlen
  rw [value_append, value_octets, value_octets, value_octets, length_octets, Nat.add_comm i j,
    pow_add, Nat.mod_mul, Nat.mul_comm, Nat.add_comm]

theorem octets_congr {k m n : ℕ} (h : m%256^k = n%256^k) : octets k m = octets k n := by
  apply value_inj
  · rw [length_octets, length_octets]
  · rw [value_octets, value_octets, h]

/-! ### Complements -/

theorem value_complement (x : List UInt8) :
    value (x.map (~~~·))+value x+1 = 256^x.length := by
  induction x with
  | nil => rfl
  | cons b x ih =>
    have hb := b.toNat_lt
    have hnot : (~~~b).toNat = 255-b.toNat := by
      rw [UInt8.toNat_not, show UInt8.size = 256 from rfl]
    have hsplit : 256^(b :: x).length = 255*256^x.length+256^x.length := by
      rw [List.length_cons, pow_succ]
      ring
    have hdigit : (255-b.toNat)*256^x.length+b.toNat*256^x.length = 255*256^x.length := by
      rw [← Nat.add_mul]
      congr 1
      omega
    rw [List.map_cons, value, value, List.length_map, hnot, hsplit]
    omega

theorem octets_complement {k n : ℕ} (hn : n < 256^k) :
    (octets k n).map (~~~·) = octets k (256^k-1-n) := by
  apply value_inj
  · rw [List.length_map, length_octets, length_octets]
  · have h := value_complement (octets k n)
    rw [length_octets, value_octets, Nat.mod_eq_of_lt hn] at h
    rw [value_octets, Nat.mod_eq_of_lt (by omega)]
    omega

/-! ### Two's complement -/

/-- The number of a string whose first bit is the sign. -/
def signed (x : List UInt8) : ℤ :=
  if 128 ≤ (x.headD 0).toNat then (value x : ℤ)-256^x.length else value x

/-- The first bit tells the upper half of the numbers from the lower. -/
theorem sign_iff {x : List UInt8} (hx : x ≠ []) :
    128 ≤ (x.headD 0).toNat ↔ 256^x.length ≤ 2*value x := by
  obtain ⟨b, x, rfl⟩ := List.exists_cons_of_ne_nil hx
  have hlt := value_lt x
  rw [List.headD_cons, value, List.length_cons, pow_succ]
  constructor
  · intro h
    have := Nat.mul_le_mul_right (256^x.length) h
    omega
  · intro h
    by_contra hlow
    have := Nat.mul_le_mul_right (256^x.length) (by omega : b.toNat ≤ 127)
    omega

theorem signed_bounds {x : List UInt8} (hx : x ≠ []) :
    -(256^x.length : ℤ) ≤ 2*signed x ∧ 2*signed x < 256^x.length := by
  have hlt : (value x : ℤ) < 256^x.length := by exact_mod_cast value_lt x
  unfold signed
  split_ifs with h
  · have h : (256^x.length : ℤ) ≤ 2*value x := by exact_mod_cast (sign_iff hx).mp h
    constructor <;> linarith
  · have h : 2*(value x : ℤ) < 256^x.length := by
      exact_mod_cast Nat.lt_of_not_le fun hle => h ((sign_iff hx).mpr hle)
    have hpos : (0 : ℤ) ≤ value x := by positivity
    constructor <;> linarith

theorem signed_inj {x y : List UInt8} (hlen : x.length = y.length) (h : signed x = signed y) :
    x = y := by
  apply value_inj hlen
  have hx : (value x : ℤ) < 256^x.length := by exact_mod_cast value_lt x
  have hy : (value y : ℤ) < 256^y.length := by exact_mod_cast value_lt y
  have hx0 : (0 : ℤ) ≤ value x := by positivity
  have hy0 : (0 : ℤ) ≤ value y := by positivity
  rw [hlen] at hx
  unfold signed at h
  rw [hlen] at h
  have hvalues : (value x : ℤ) = value y := by
    split_ifs at h <;> linarith
  exact_mod_cast hvalues

theorem signed_octets {k n : ℕ} (hk : k ≠ 0) (hn : 2*n < 256^k) : signed (octets k n) = n := by
  have hne : octets k n ≠ [] := by
    intro h
    have := congrArg List.length h
    rw [length_octets] at this
    exact hk this
  have hlow : ¬ 128 ≤ ((octets k n).headD 0).toNat := by
    rw [sign_iff hne, length_octets, value_octets, Nat.mod_eq_of_lt (by omega)]
    omega
  rw [signed, if_neg hlow, value_octets, Nat.mod_eq_of_lt (by omega)]

theorem signed_octets_neg {k n : ℕ} (hk : k ≠ 0) (hn : 2*n < 256^k) :
    signed (octets k (256^k-1-n)) = -n-1 := by
  have hne : octets k (256^k-1-n) ≠ [] := by
    intro h
    have := congrArg List.length h
    rw [length_octets] at this
    exact hk this
  have hhigh : 128 ≤ ((octets k (256^k-1-n)).headD 0).toNat := by
    rw [sign_iff hne, length_octets, value_octets, Nat.mod_eq_of_lt (by omega)]
    have heven : 2 ∣ 256^k := dvd_pow (by norm_num) hk
    omega
  rw [signed, if_pos hhigh, value_octets, length_octets, Nat.mod_eq_of_lt (by omega)]
  have hcast : ((256^k-1-n : ℕ) : ℤ) = 256^k-1-n := by
    rw [Nat.cast_sub (by omega), Nat.cast_sub (Nat.one_le_iff_ne_zero.mpr (by positivity))]
    push_cast
    rfl
  rw [hcast]
  ring

end Octets
