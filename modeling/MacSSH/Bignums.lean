import MacSSH.Octets
import Mathlib.Data.Nat.Digits.Defs
import Mathlib.Data.Nat.Size

/-! Large numbers in messages. Signed numbers are written in two's complement and unsigned
ones as they are, each in as few octets as there can be; the octets are taken from the limbs
that the arithmetic library keeps. -/
namespace Bignums
open Octets

/-- The limbs of a number, from the least significant; a limb has `w` octets. -/
def limbs (w n : ℕ) : List ℕ :=
  Nat.digits (256^w) n

/-- The octets of a limb, from the last one, while there is room for `length` of them. -/
def limb_octets : ℕ → ℕ → ℕ → List UInt8
  | 0, _, _ => []
  | i+1, word, length =>
    if length = 0 then [] else limb_octets i (word/256) (length-1) ++ [UInt8.ofNat word]

/-- Fill `length` octets from the end; what the limbs leave is padded. -/
def limbs_to_octets (w : ℕ) : List ℕ → ℕ → UInt8 → List UInt8
  | [], length, pad => List.replicate length pad
  | word :: l, length, pad =>
    limbs_to_octets w l (length-w) pad ++ limb_octets w word length

/-- The library takes zero to have one bit. -/
def mpz_sizeinbase (n : ℕ) : ℕ :=
  if n = 0 then 1 else n.size

/-- One's complement. -/
def mpz_com (n : ℤ) : ℤ := -n-1

def bignum_format_s_length (n : ℤ) : ℕ :=
  if n = 0 then 0
  else if 0 < n then mpz_sizeinbase n.toNat/8+1
  else mpz_sizeinbase (mpz_com n).toNat/8+1

def bignum_format_s (w : ℕ) (n : ℤ) : List UInt8 :=
  if n = 0 then []
  else if 0 < n then
    limbs_to_octets w (limbs w n.toNat) (mpz_sizeinbase n.toNat/8+1) 0
  else
    let complement := (mpz_com n).toNat
    let length := mpz_sizeinbase complement/8+1
    limbs_to_octets w ((limbs w complement).map fun limb => 256^w-1-limb) length 0xff

/-- Or the octets in, each at its place. -/
def bignum_parse_u (data : List UInt8) : ℕ :=
  (data.zipIdx.foldl fun n digit =>
    n ||| digit.1.toNat*2^((data.length-digit.2-1)*8)) 0

def bignum_parse_s (data : List UInt8) : ℤ :=
  let negative := data.length ≠ 0 ∧ data.headD 0 &&& 0x80 ≠ 0
  if negative then (bignum_parse_u data : ℤ)-2^(data.length*8) else bignum_parse_u data

/-- `none` for a negative number. -/
def bignum_format_u_length (n : ℤ) : Option ℕ :=
  if n = 0 then some 0
  else if 0 < n then some ((mpz_sizeinbase n.toNat+7)/8)
  else none

def bignum_format_u (w : ℕ) (n : ℤ) : Option (List UInt8) :=
  if n = 0 then some []
  else if 0 < n then
    some (limbs_to_octets w (limbs w n.toNat) ((mpz_sizeinbase n.toNat+7)/8) 0)
  else none

/-! ### Octets of limbs -/

theorem limb_octets_eq : ∀ (i word length : ℕ),
    limb_octets i word length = octets (min i length) word := by
  intro i
  induction i with
  | zero =>
    intro word length
    rw [Nat.zero_min]
    rfl
  | succ i ih =>
    intro word length
    rw [limb_octets]
    cases length with
    | zero =>
      rw [if_pos rfl, Nat.min_zero]
      rfl
    | succ length =>
      rw [if_neg (Nat.succ_ne_zero _), ih, Nat.add_sub_cancel, Nat.succ_min_succ, octets]

theorem limbs_to_octets_eq (w : ℕ) : ∀ (l : List ℕ) (length : ℕ), (∀ word ∈ l, word < 256^w) →
    limbs_to_octets w l length 0 = octets length (Nat.ofDigits (256^w) l) := by
  intro l
  induction l with
  | nil =>
    intro length _
    rw [limbs_to_octets, Nat.ofDigits_nil]
    induction length with
    | zero => rfl
    | succ length ih => rw [List.replicate_succ', ih]; rfl
  | cons word l ih =>
    intro length hl
    have hword := hl word List.mem_cons_self
    rw [limbs_to_octets, ih _ fun a ha => hl a (List.mem_cons_of_mem _ ha), limb_octets_eq,
      Nat.ofDigits_cons]
    rcases le_total w length with hle | hle
    · obtain ⟨k, rfl⟩ := Nat.exists_eq_add_of_le' hle
      have hdiv : (word+256^w*Nat.ofDigits (256^w) l)/256^w = Nat.ofDigits (256^w) l := by
        rw [Nat.add_mul_div_left _ _ (by positivity), Nat.div_eq_of_lt hword, Nat.zero_add]
      have hmod : word%256^w = (word+256^w*Nat.ofDigits (256^w) l)%256^w :=
        (Nat.add_mul_mod_self_left _ _ _).symm
      rw [octets_add, Nat.add_sub_cancel, hdiv, Nat.min_eq_left hle, octets_congr hmod]
    · have hmod : word%256^length = (word+256^w*Nat.ofDigits (256^w) l)%256^length := by
        obtain ⟨k, rfl⟩ := Nat.exists_eq_add_of_le hle
        rw [pow_add, Nat.mul_assoc, Nat.add_mul_mod_self_left]
      rw [Nat.sub_eq_zero_of_le hle, Nat.min_eq_right hle, octets_congr hmod]
      rfl

/-- Inverting the limbs inverts the octets. -/
theorem limbs_to_octets_inverted (w : ℕ) : ∀ (l : List ℕ) (length : ℕ),
    (∀ word ∈ l, word < 256^w) →
    limbs_to_octets w (l.map fun word => 256^w-1-word) length 0xff =
      (limbs_to_octets w l length 0).map (~~~·) := by
  intro l
  induction l with
  | nil =>
    intro length _
    rw [List.map_nil, limbs_to_octets, limbs_to_octets, List.map_replicate]
    rfl
  | cons word l ih =>
    intro length hl
    have hword := hl word List.mem_cons_self
    rw [List.map_cons, limbs_to_octets, limbs_to_octets,
      ih _ fun a ha => hl a (List.mem_cons_of_mem _ ha), List.map_append, limb_octets_eq,
      limb_octets_eq]
    congr 1
    obtain ⟨k, hk⟩ : ∃ k, k = min w length := ⟨_, rfl⟩
    have hle : k ≤ w := hk ▸ Nat.min_le_left w length
    rw [← hk]
    -- the octets of the limb are those of its last `k` octets
    have hlow : octets k word = octets k (word%256^k) := octets_congr (Nat.mod_mod _ _).symm
    rw [hlow, octets_complement (Nat.mod_lt _ (by positivity))]
    apply octets_congr
    obtain ⟨j, rfl⟩ := Nat.exists_eq_add_of_le hle
    rw [pow_add] at hword ⊢
    have hdiv := Nat.div_add_mod word (256^k)
    have hmod := Nat.mod_lt word (by positivity : 0 < 256^k)
    have hquot : word/256^k < 256^j := Nat.div_lt_of_lt_mul hword
    have hsplit : 256^k*256^j-1-word =
        256^k-1-word%256^k+256^k*(256^j-1-word/256^k) := by
      obtain ⟨q, hq⟩ := Nat.exists_eq_add_of_lt hquot
      have hrest : 256^j-1-word/256^k = q := by omega
      have hall : 256^k*256^j = 256^k*(word/256^k)+256^k*q+256^k := by
        rw [hq]
        ring
      rw [hrest, hall]
      omega
    rw [hsplit, Nat.add_mul_mod_self_left]

/-! ### Reading -/

theorem fold_digits (data : List UInt8) : ∀ (x y : List UInt8), data = x ++ y →
    (y.zipIdx x.length).foldl (fun n digit =>
      n ||| digit.1.toNat*2^((data.length-digit.2-1)*8)) (value x*256^y.length) =
        value data := by
  intro x y
  induction y generalizing x with
  | nil =>
    intro hdata
    rw [hdata, List.append_nil, List.length_nil, pow_zero, Nat.mul_one]
    rfl
  | cons b y ih =>
    intro hdata
    have hplace : data.length-x.length-1 = y.length := by
      rw [hdata, List.length_append, List.length_cons]
      omega
    have hbyte : b.toNat*256^y.length < 2^((y.length+1)*8) := by
      have hb := b.toNat_lt
      rw [Nat.add_mul, pow_add, Nat.mul_comm y.length, pow_mul, Nat.mul_comm]
      exact Nat.mul_lt_mul_of_pos_left hb (by positivity)
    have hpow : 256^(b :: y).length = 2^((y.length+1)*8) := by
      rw [List.length_cons, Nat.mul_comm, pow_mul]
      norm_num
    have hshift : 2^(y.length*8) = 256^y.length := by
      rw [Nat.mul_comm, pow_mul]
      norm_num
    have hvalue : value (x ++ [b])*256^y.length =
        2^((y.length+1)*8)*value x+b.toNat*256^y.length := by
      rw [← hpow, value_append]
      simp only [value, List.length_cons, List.length_nil, pow_succ, pow_zero]
      ring
    have hor : value x*256^(b :: y).length ||| b.toNat*2^(y.length*8) =
        value (x ++ [b])*256^y.length := by
      rw [hvalue, hpow, hshift, Nat.mul_comm, Nat.two_pow_add_eq_or_of_lt hbyte]
    have hrest := ih (x ++ [b]) (by rw [hdata, List.append_assoc]; rfl)
    rw [List.length_append, List.length_singleton] at hrest
    rw [List.zipIdx_cons, List.foldl_cons, hplace, hor]
    exact hrest

theorem bignum_parse_u_eq (data : List UInt8) : bignum_parse_u data = value data := by
  have h := fold_digits data [] data rfl
  rw [value, Nat.zero_mul] at h
  exact h

theorem sign_bit : ∀ n < 256, (UInt8.ofNat n &&& 0x80 ≠ 0 ↔ 128 ≤ n) := by
  decide +kernel

theorem bignum_parse_s_eq (data : List UInt8) : bignum_parse_s data = signed data := by
  have hpow : (2 : ℤ)^(data.length*8) = 256^data.length := by
    rw [Nat.mul_comm, pow_mul]
    norm_num
  have hbit : data.headD 0 &&& 0x80 ≠ 0 ↔ 128 ≤ (data.headD 0).toNat := by
    have h := sign_bit _ (data.headD 0).toNat_lt
    rwa [UInt8.ofNat_toNat] at h
  have hnegative : (data.length ≠ 0 ∧ data.headD 0 &&& 0x80 ≠ 0) ↔
      128 ≤ (data.headD 0).toNat := by
    rw [hbit, and_iff_right_iff_imp]
    intro h hlen
    rw [List.length_eq_zero_iff.mp hlen] at h
    exact absurd h (by decide)
  rw [bignum_parse_s, signed, bignum_parse_u_eq, hpow]
  simp only [hnegative]

/-! ### Writing -/

theorem limbs_small {w : ℕ} (hw : 0 < w) (n : ℕ) : ∀ word ∈ limbs w n, word < 256^w := by
  intro word hword
  exact Nat.digits_lt_base (Nat.one_lt_pow hw.ne' (by norm_num)) hword

theorem written {w : ℕ} (hw : 0 < w) (n length : ℕ) :
    limbs_to_octets w (limbs w n) length 0 = octets length n := by
  rw [limbs_to_octets_eq w _ _ (limbs_small hw n), limbs, Nat.ofDigits_digits]

theorem lt_sizeinbase (n : ℕ) : n < 2^mpz_sizeinbase n := by
  unfold mpz_sizeinbase
  split_ifs with h
  · rw [h]
    norm_num
  · exact Nat.lt_size_self n

theorem sizeinbase_le {n : ℕ} (hn : n ≠ 0) : 2^mpz_sizeinbase n ≤ 2*n := by
  rw [mpz_sizeinbase, if_neg hn]
  have hpos : 0 < n.size := Nat.size_pos.mpr (Nat.pos_of_ne_zero hn)
  obtain ⟨s, hs⟩ := Nat.exists_eq_add_of_lt hpos
  rw [Nat.zero_add] at hs
  have hle : 2^s ≤ n := Nat.lt_size.mp (by omega)
  rw [hs, pow_succ']
  omega

theorem pow_octets (k : ℕ) : 256^k = 2^(8*k) := by
  rw [pow_mul]
  norm_num

/-- The sign has room in the octets that are written. -/
theorem fits_signed (n : ℕ) : 2*n < 256^(mpz_sizeinbase n/8+1) := by
  have h := lt_sizeinbase n
  have hle : 2^(mpz_sizeinbase n+1) ≤ 2^(8*(mpz_sizeinbase n/8+1)) :=
    Nat.pow_le_pow_right (by norm_num) (by omega)
  rw [pow_octets]
  rw [pow_succ'] at hle
  omega

theorem fits_unsigned (n : ℕ) : n < 256^((mpz_sizeinbase n+7)/8) := by
  have h := lt_sizeinbase n
  have hle : 2^mpz_sizeinbase n ≤ 2^(8*((mpz_sizeinbase n+7)/8)) :=
    Nat.pow_le_pow_right (by norm_num) (by omega)
  rw [pow_octets]
  omega

/-- One octet less has no room for the sign. -/
theorem needs_signed {n k : ℕ} (hn : n ≠ 0) (hk : k < mpz_sizeinbase n/8+1) :
    256^k ≤ 2*n := by
  have h := sizeinbase_le hn
  have hle : 2^(8*k) ≤ 2^mpz_sizeinbase n := Nat.pow_le_pow_right (by norm_num) (by omega)
  rw [pow_octets]
  omega

theorem needs_unsigned {n k : ℕ} (hn : n ≠ 0) (hk : k < (mpz_sizeinbase n+7)/8) :
    256^k ≤ n := by
  have h := sizeinbase_le hn
  have hle : 2^(8*k+1) ≤ 2^mpz_sizeinbase n := Nat.pow_le_pow_right (by norm_num) (by omega)
  rw [pow_octets]
  rw [pow_succ'] at hle
  omega

theorem bignum_format_s_pos {w : ℕ} (hw : 0 < w) {m : ℕ} (hm : m ≠ 0) :
    bignum_format_s w m = octets (mpz_sizeinbase m/8+1) m := by
  have hpos : (0 : ℤ) < m := by exact_mod_cast Nat.pos_of_ne_zero hm
  rw [bignum_format_s, if_neg hpos.ne', if_pos hpos, Int.toNat_natCast, written hw]

theorem bignum_format_s_neg {w : ℕ} (hw : 0 < w) (m : ℕ) :
    bignum_format_s w (-m-1) = octets (mpz_sizeinbase m/8+1) (256^(mpz_sizeinbase m/8+1)-1-m) := by
  have hcom : (mpz_com (-m-1)).toNat = m := by
    unfold mpz_com
    omega
  have hfits := fits_signed m
  rw [bignum_format_s, if_neg (by omega), if_neg (by omega), hcom]
  rw [limbs_to_octets_inverted w _ _ (limbs_small hw m), written hw,
    octets_complement (by omega)]

/-- A number is zero, positive, or the complement of a natural number. -/
theorem int_cases (n : ℤ) : n = 0 ∨ (∃ m : ℕ, m ≠ 0 ∧ n = m) ∨ ∃ m : ℕ, n = -m-1 := by
  rcases lt_trichotomy n 0 with h | h | h
  · exact Or.inr (Or.inr ⟨(-n-1).toNat, by omega⟩)
  · exact Or.inl h
  · exact Or.inr (Or.inl ⟨n.toNat, by omega, by omega⟩)

theorem parse_format_s {w : ℕ} (hw : 0 < w) (n : ℤ) :
    bignum_parse_s (bignum_format_s w n) = n := by
  rw [bignum_parse_s_eq]
  rcases int_cases n with rfl | ⟨m, hm, rfl⟩ | ⟨m, rfl⟩
  · rfl
  · rw [bignum_format_s_pos hw hm, signed_octets (Nat.succ_ne_zero _) (fits_signed m)]
  · rw [bignum_format_s_neg hw m, signed_octets_neg (Nat.succ_ne_zero _) (fits_signed m)]

theorem length_format_s {w : ℕ} (hw : 0 < w) (n : ℤ) :
    (bignum_format_s w n).length = bignum_format_s_length n := by
  rcases int_cases n with rfl | ⟨m, hm, rfl⟩ | ⟨m, rfl⟩
  · rfl
  · have hpos : (0 : ℤ) < m := by exact_mod_cast Nat.pos_of_ne_zero hm
    rw [bignum_format_s_pos hw hm, length_octets, bignum_format_s_length, if_neg hpos.ne',
      if_pos hpos, Int.toNat_natCast]
  · have hcom : (mpz_com (-m-1)).toNat = m := by
      unfold mpz_com
      omega
    rw [bignum_format_s_neg hw m, length_octets, bignum_format_s_length, if_neg (by omega),
      if_neg (by omega), hcom]

/-- No string that is read as a number is shorter than the one that is written. -/
theorem format_s_length_le (data : List UInt8) :
    bignum_format_s_length (bignum_parse_s data) ≤ data.length := by
  rw [bignum_parse_s_eq]
  by_contra hshort
  by_cases hdata : data = []
  · subst hdata
    exact hshort (Nat.le_refl 0)
  have hlen : 0 < data.length := List.length_pos_iff.mpr hdata
  obtain ⟨hlow, hhigh⟩ := signed_bounds hdata
  rcases int_cases (signed data) with h | ⟨m, hm, h⟩ | ⟨m, h⟩
  · rw [h] at hshort
    exact hshort (Nat.zero_le _)
  · have hpos : (0 : ℤ) < m := by exact_mod_cast Nat.pos_of_ne_zero hm
    rw [h, bignum_format_s_length, if_neg hpos.ne', if_pos hpos, Int.toNat_natCast] at hshort
    have hneeds := needs_signed hm (Nat.lt_of_not_le hshort)
    rw [h] at hhigh
    have hneeds : (256 : ℤ)^data.length ≤ 2*m := by exact_mod_cast hneeds
    linarith
  · have hcom : (mpz_com (-m-1)).toNat = m := by
      unfold mpz_com
      omega
    rw [h, bignum_format_s_length, if_neg (by omega), if_neg (by omega), hcom] at hshort
    have hm : m ≠ 0 := by
      rintro rfl
      have hone : mpz_sizeinbase 0/8+1 = 1 := rfl
      omega
    have hneeds := needs_signed hm (Nat.lt_of_not_le hshort)
    rw [h] at hlow
    have hneeds : (256 : ℤ)^data.length ≤ 2*m := by exact_mod_cast hneeds
    linarith

theorem bignum_format_u_eq {w : ℕ} (hw : 0 < w) (n : ℕ) :
    ∃ length, bignum_format_u w n = some (octets length n) ∧
      bignum_format_u_length n = some length ∧ n < 256^length ∧
        ∀ k < length, 256^k ≤ n := by
  by_cases hn : n = 0
  · subst hn
    refine ⟨0, rfl, rfl, Nat.one_pos, ?_⟩
    intro k hk
    exact absurd hk (Nat.not_lt_zero k)
  · have hpos : (0 : ℤ) < n := by exact_mod_cast Nat.pos_of_ne_zero hn
    refine ⟨(mpz_sizeinbase n+7)/8, ?_, ?_, fits_unsigned n, fun k => needs_unsigned hn⟩
    · rw [bignum_format_u, if_neg hpos.ne', if_pos hpos, Int.toNat_natCast, written hw]
    · rw [bignum_format_u_length, if_neg hpos.ne', if_pos hpos, Int.toNat_natCast]

/-- Both passes refuse a negative number. -/
theorem bignum_format_u_length_eq {w : ℕ} (hw : 0 < w) (n : ℤ) :
    bignum_format_u_length n = (bignum_format_u w n).map List.length := by
  rcases lt_or_ge n 0 with hn | hn
  · rw [bignum_format_u_length, bignum_format_u, if_neg hn.ne, if_neg hn.not_gt, if_neg hn.ne,
      if_neg hn.not_gt]
    rfl
  · obtain ⟨m, rfl⟩ := Int.eq_ofNat_of_zero_le hn
    obtain ⟨length, hformat, hlength, -⟩ := bignum_format_u_eq hw m
    rw [hformat, hlength, Option.map_some, length_octets]

/-- A number is written as the one shortest string that is read as that number, and its
length is what has been computed before. That is so for numbers with a sign, and for those
without one when they are not negative. -/
theorem written_shortest {w : ℕ} (hw : 0 < w) (n : ℤ) :
    bignum_parse_s (bignum_format_s w n) = n ∧
      (bignum_format_s w n).length = bignum_format_s_length n ∧
      (∀ data, bignum_parse_s data = n → (bignum_format_s w n).length ≤ data.length ∧
        (data.length = (bignum_format_s w n).length → data = bignum_format_s w n)) ∧
      (0 ≤ n → ∃ u, bignum_format_u w n = some u ∧ bignum_parse_u u = n ∧
        bignum_format_u_length n = some u.length ∧
        ∀ data, (bignum_parse_u data : ℤ) = n → u.length ≤ data.length ∧
          (data.length = u.length → data = u)) := by
  refine ⟨parse_format_s hw n, length_format_s hw n, ?_, ?_⟩
  · intro data hdata
    constructor
    · rw [length_format_s hw, ← hdata]
      exact format_s_length_le data
    · intro hlen
      apply signed_inj hlen
      rw [← bignum_parse_s_eq, ← bignum_parse_s_eq, parse_format_s hw, hdata]
  · intro hn
    obtain ⟨m, rfl⟩ := Int.eq_ofNat_of_zero_le hn
    obtain ⟨length, hformat, hlength, hfits, hneeds⟩ := bignum_format_u_eq hw m
    have hread : bignum_parse_u (octets length m) = m := by
      rw [bignum_parse_u_eq, value_octets, Nat.mod_eq_of_lt hfits]
    refine ⟨octets length m, hformat, by rw [hread], by rw [length_octets]; exact hlength, ?_⟩
    intro data hdata
    have hdata : value data = m := by
      rw [← bignum_parse_u_eq]
      exact_mod_cast hdata
    constructor
    · rw [length_octets]
      by_contra hshort
      have := hneeds data.length (Nat.lt_of_not_le hshort)
      have := value_lt data
      omega
    · intro hlen
      apply value_inj hlen
      rw [hdata, value_octets, Nat.mod_eq_of_lt hfits]

theorem written_shortest_minus_129 :
    bignum_parse_s (bignum_format_s 4 (-129)) = -129 ∧
      (bignum_format_s 4 (-129)).length = bignum_format_s_length (-129) := by
  have h := written_shortest (by norm_num : 0 < 4) (-129)
  exact ⟨h.1, h.2.1⟩

end Bignums
