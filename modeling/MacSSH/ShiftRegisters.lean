import Mathlib

/-! Shift registers over GF(2): strings of bits and words as polynomials, and a register
that is shifted with feedback as the remainder of what has been fed into it. -/
namespace ShiftRegister

open Polynomial

variable {n w : ℕ}

def coeffBit (b : Bool) : ZMod 2 := if b then 1 else 0

/-- The polynomial of a string of bits, the highest power first. -/
noncomputable def ofBits (l : List Bool) : (ZMod 2)[X] :=
  l.foldl (fun p b => X*p + C (coeffBit b)) 0

/-- The bits of a word, the most significant first. -/
def bits (x : BitVec n) : List Bool := (List.range n).map fun i => x.getMsbD i

noncomputable def poly (x : BitVec n) : (ZMod 2)[X] := ofBits (bits x)

/-- One shift: the bit that leaves at the top comes back as `g`. -/
def shift (g x : BitVec n) : BitVec n := if x.msb then x <<< 1 ^^^ g else x <<< 1

/-- A word comes in at the top, and is shifted through. -/
def feed (g x : BitVec n) (c : BitVec w) : BitVec n :=
  (shift g)^[w] (x ^^^ c.setWidth n <<< (n-w))

/-- What the register divides by. -/
noncomputable def generator (g : BitVec n) : (ZMod 2)[X] := X^n + poly g

section Polynomials

theorem coeffBit_injective : Function.Injective coeffBit := by
  intro a b h
  cases a <;> cases b <;> simp_all [coeffBit]

theorem coeffBit_xor (a b : Bool) : coeffBit (a ^^ b) = coeffBit a + coeffBit b := by
  cases a <;> cases b <;> decide

theorem ofBits_concat (l : List Bool) (b : Bool) :
    ofBits (l ++ [b]) = X*ofBits l + C (coeffBit b) := by
  rw [ofBits, List.foldl_append]
  rfl

theorem coeff_ofBits (l : List Bool) (i : ℕ) :
    (ofBits l).coeff i = coeffBit (l.reverse.getD i false) := by
  induction l using List.reverseRecOn generalizing i with
  | nil => simp [ofBits, coeffBit]
  | append_singleton l b ih =>
    rw [ofBits_concat, List.reverse_append]
    cases i with
    | zero => simp
    | succ i => simp [ih]

/-- A string of bits behind another moves it up by its length. -/
theorem ofBits_append (l l' : List Bool) :
    ofBits (l ++ l') = X^l'.length*ofBits l + ofBits l' := by
  induction l' using List.reverseRecOn with
  | nil => simp [ofBits]
  | append_singleton l' b ih =>
    rw [← List.append_assoc, ofBits_concat, ofBits_concat, ih, List.length_append,
      List.length_singleton]
    ring

theorem length_bits (x : BitVec n) : (bits x).length = n := by simp [bits]

theorem bits_append (x : BitVec n) (y : BitVec w) : bits (x ++ y) = bits x ++ bits y := by
  rw [bits, List.range_add, List.map_append, List.map_map]
  congr 1
  · apply List.map_congr_left
    intro i hi
    rw [BitVec.getMsbD_append, if_neg (Nat.not_le.mpr (List.mem_range.mp hi))]
  · apply List.map_congr_left
    intro i _
    simp

theorem coeff_poly (x : BitVec n) (i : ℕ) : (poly x).coeff i = coeffBit (x.getLsbD i) := by
  rw [poly, coeff_ofBits]
  congr 1
  rw [BitVec.getLsbD_eq_getMsbD, List.getD_eq_getElem?_getD]
  -- beyond the word there are no coefficients and no bits
  by_cases hi : i < n
  · rw [List.getElem?_reverse (by rwa [length_bits]), length_bits]
    simp [bits, hi, show n-1-i < n by omega]
  · have hout : (bits x).reverse.length ≤ i := by
      rw [List.length_reverse, length_bits]
      omega
    simp [List.getElem?_eq_none hout, hi]

theorem poly_injective : Function.Injective (poly : BitVec n → (ZMod 2)[X]) := by
  intro x y h
  apply BitVec.eq_of_getLsbD_eq
  intro i _
  apply coeffBit_injective
  rw [← coeff_poly, ← coeff_poly, h]

theorem poly_zero : poly (0 : BitVec n) = 0 := by
  ext i
  simp [coeff_poly, coeffBit]

theorem poly_xor (x y : BitVec n) : poly (x ^^^ y) = poly x + poly y := by
  ext i
  rw [coeff_add, coeff_poly, coeff_poly, coeff_poly, BitVec.getLsbD_xor, coeffBit_xor]

theorem degree_poly (x : BitVec n) : (poly x).degree < n := by
  rw [degree_lt_iff_coeff_zero]
  intro i hi
  rw [coeff_poly, BitVec.getLsbD_of_ge x i hi]
  rfl

/-- A shift by one place multiplies by X, but for the bit that leaves at the top. -/
theorem poly_shiftLeft_one (x : BitVec n) :
    poly (x <<< 1) + C (coeffBit x.msb)*X^n = X*poly x := by
  ext i
  rw [coeff_add, coeff_poly, coeff_C_mul, coeff_X_pow, BitVec.getLsbD_shiftLeft]
  cases i with
  | zero =>
    cases n with
    | zero => simp [coeffBit, BitVec.msb_eq_getLsbD_last]
    | succ n => simp [coeffBit]
  | succ i =>
    rw [coeff_X_mul, coeff_poly]
    -- the coefficient at `n` is the bit that has left
    by_cases hi : i+1 < n
    · simp [hi, show i+1 ≠ n by omega]
    · by_cases htop : i+1 = n
      · subst htop
        simp [BitVec.msb_eq_getLsbD_last, coeffBit]
      · simp [hi, htop, coeffBit, BitVec.getLsbD_of_ge x i (by omega)]

/-- A narrow word at the top of a wide one. -/
theorem poly_top (h : w ≤ n) (c : BitVec w) :
    poly (c.setWidth n <<< (n-w)) = X^(n-w)*poly c := by
  ext i
  rw [coeff_poly, coeff_X_pow_mul', BitVec.getLsbD_shiftLeft, BitVec.getLsbD_setWidth]
  by_cases hi : n-w ≤ i
  · rw [if_pos hi, coeff_poly]
    by_cases htop : i < n
    · simp [htop, show i-(n-w) < n by omega, show ¬i < n-w by omega]
    · simp [htop, BitVec.getLsbD_of_ge c (i-(n-w)) (by omega)]
  · rw [if_neg hi]
    simp [show i < n-w by omega, coeffBit]

end Polynomials

section Division
variable {g : BitVec n}

theorem generator_monic (g : BitVec n) : (generator g).Monic := monic_X_pow_add (degree_poly g)

theorem degree_generator (g : BitVec n) : (generator g).degree = n := by
  rw [generator, degree_add_eq_left_of_degree_lt, degree_X_pow]
  rw [degree_X_pow]
  exact degree_poly g

/-- A word is what is left of a polynomial as soon as the two agree up to the generator. -/
theorem poly_eq_modByMonic {x : BitVec n} {p : (ZMod 2)[X]}
    (h : AdjoinRoot.mk (generator g) (poly x) = AdjoinRoot.mk (generator g) p) :
    poly x = p %ₘ generator g := by
  have hmonic := generator_monic g
  -- the word has fewer bits than the degree of the generator
  have hsmall : poly x %ₘ generator g = poly x := by
    rw [modByMonic_eq_self_iff hmonic, degree_generator]
    exact degree_poly x
  rw [← hsmall]
  exact modByMonic_eq_of_dvd_sub hmonic (AdjoinRoot.mk_eq_mk.mp h)

/-- One shift: the register is multiplied by X. -/
theorem mk_shift (g x : BitVec n) :
    AdjoinRoot.mk (generator g) (poly (shift g x)) =
      AdjoinRoot.mk (generator g) (X*poly x) := by
  rw [AdjoinRoot.mk_eq_mk, ← poly_shiftLeft_one, shift]
  split
  · case _ hmsb =>
    -- the bit that leaves takes one generator away
    refine ⟨-1, ?_⟩
    rw [poly_xor, hmsb, coeffBit, if_pos rfl, C_1, generator]
    have htwo : poly g + poly g = 0 := CharTwo.add_self_eq_zero _
    linear_combination htwo
  · case _ hmsb =>
    rw [Bool.not_eq_true] at hmsb
    simp [hmsb, coeffBit]

theorem mk_iterate_shift (g x : BitVec n) (k : ℕ) :
    AdjoinRoot.mk (generator g) (poly ((shift g)^[k] x)) =
      AdjoinRoot.mk (generator g) (X^k*poly x) := by
  induction k with
  | zero => simp
  | succ k ih =>
    rw [Function.iterate_succ_apply', mk_shift, map_mul, ih, ← map_mul]
    apply congrArg
    ring

/-- One word: it stands behind what the register has taken before. -/
theorem mk_feed (h : w ≤ n) (g x : BitVec n) (c : BitVec w) :
    AdjoinRoot.mk (generator g) (poly (feed g x c)) =
      AdjoinRoot.mk (generator g) (X^w*poly x + X^n*poly c) := by
  rw [feed, mk_iterate_shift, poly_xor, poly_top h, mul_add, ← mul_assoc, ← pow_add,
    Nat.add_sub_cancel' h]

/-- A string of words, from any register. -/
theorem mk_foldl_feed (h : w ≤ n) (g x : BitVec n) (cs : List (BitVec w)) :
    AdjoinRoot.mk (generator g) (poly (cs.foldl (feed g) x)) =
      AdjoinRoot.mk (generator g)
        (X^(cs.flatMap bits).length*poly x + X^n*ofBits (cs.flatMap bits)) := by
  induction cs using List.reverseRecOn with
  | nil => simp [ofBits]
  | append_singleton cs c ih =>
    rw [List.foldl_append, List.foldl_cons, List.foldl_nil, mk_feed h, map_add, map_mul, ih,
      ← map_mul, ← map_add, List.flatMap_append, List.flatMap_singleton, ofBits_append,
      List.length_append, length_bits, ← poly]
    apply congrArg
    rw [pow_add]
    ring

/-- From zero, the register holds the remainder of what was fed into it. -/
theorem poly_foldl_feed (h : w ≤ n) (g : BitVec n) (cs : List (BitVec w)) :
    poly (cs.foldl (feed g) 0) = (ofBits (cs.flatMap bits)*X^n) %ₘ generator g := by
  apply poly_eq_modByMonic
  rw [mk_foldl_feed h, poly_zero]
  apply congrArg
  ring

/-- A register that is fed with its own bits is cleared. -/
theorem foldl_feed_own (h : w ≤ n) (g x : BitVec n) {cs : List (BitVec w)}
    (hown : cs.flatMap bits = bits x) : cs.foldl (feed g) x = 0 := by
  apply poly_injective
  -- the register and its own bits cancel, characteristic two
  rw [poly_eq_modByMonic (mk_foldl_feed h g x cs), hown, length_bits, ← poly,
    CharTwo.add_self_eq_zero, zero_modByMonic, poly_zero]

end Division

end ShiftRegister
