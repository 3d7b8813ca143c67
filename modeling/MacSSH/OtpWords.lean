import MacSSH.Positional
import Mathlib.Algebra.BigOperators.Group.List.Basic
import Mathlib.Algebra.GroupWithZero.Nat
import Mathlib.Logic.Function.Basic

/-! Six words for the 64 bits of a one-time password: each stands for eleven bits, and the
last two are the parity. -/
namespace Otp

open Positional

/-- The `length` bits of a string from the bit `start` on. -/
def otpextract (s : ℕ → UInt8) (start length : ℕ) : ℕ :=
  let cl := (s (start/8)).toNat
  let cc := (s (start/8+1)).toNat
  let cr := (s (start/8+2)).toNat
  let x := (cl <<< 8 ||| cc) <<< 8 ||| cr
  let x := x >>> (24-(length+start%8))
  x &&& (0xffff >>> (16-length))

def memcpy (dest source : ℕ → UInt8) (n : ℕ) (i : ℕ) : UInt8 :=
  if i < n then source i else dest i

/-- The sum of the pairs of bits that are read at 0, 2, 4 up to 62. -/
def paritySum (cp : ℕ → UInt8) : ℕ :=
  (List.range' 0 32 2).foldl (fun p i => p + otpextract cp i 2) 0

/-- The array `cp`, when the parity has been put behind the key. `stack` is what the memory
had there, and behind it. -/
def withParity (c stack : ℕ → UInt8) : ℕ → UInt8 :=
  let cp := memcpy stack c 8
  Function.update cp 8 (UInt8.ofNat (paritySum cp <<< 6))

/-- The six words for the key `c`, from the table `otpenglish`. -/
def otpbtoe (otpenglish : ℕ → List UInt8) (c stack : ℕ → UInt8) : List UInt8 :=
  let cp := withParity c stack
  let engout := (otpenglish (otpextract cp 0 11)).take 4
  let engout := engout ++ [32] ++ (otpenglish (otpextract cp 11 11)).take 4
  let engout := engout ++ [32] ++ (otpenglish (otpextract cp 22 11)).take 4
  let engout := engout ++ [32] ++ (otpenglish (otpextract cp 33 11)).take 4
  let engout := engout ++ [32] ++ (otpenglish (otpextract cp 44 11)).take 4
  engout ++ [32] ++ (otpenglish (otpextract cp 55 11)).take 4

def starts : List ℕ := [0, 11, 22, 33, 44, 55]

/-- The places of the six words in the table. -/
def indices (c stack : ℕ → UInt8) : List ℕ :=
  starts.map fun start => otpextract (withParity c stack) start 11

/-- The bytes of a string as digits. -/
def bytes (s : ℕ → UInt8) (i : ℕ) : ℕ := (s i).toNat

/-- The 64 bits of a key. -/
def key (c : ℕ → UInt8) : ℕ := number (2^8) (bytes c) 8

/-- The sum of the 32 groups of two bits, from the first on. -/
def groups (k : ℕ) : ℕ := ((List.range 32).map fun j => k / 4^(31-j) % 4).sum

/-- Numbers of eleven bits, read as one. -/
def together (l : List ℕ) : ℕ := number (2^11) (fun i => l.getD i 0) l.length

/-- The key that six indices stand for, where the parity is right. -/
def decode (l : List ℕ) : Option ℕ :=
  if together l % 4 = groups (together l / 4) % 4 then some (together l / 4) else none

/-- The six words of a key. -/
structure SixWords (c stack : ℕ → UInt8) : Prop where
  words : ∀ otpenglish, otpbtoe otpenglish c stack =
    [32].intercalate ((indices c stack).map fun i => (otpenglish i).take 4)
  bits : together (indices c stack) = key c * 4 + groups (key c) % 4
  below : ∀ i ∈ indices c stack, i < 2048
  injective : ∀ c' stack', indices c' stack' = indices c stack → ∀ i < 8, c' i = c i
  decoded : decode (indices c stack) = some (key c)
  parity_calls : ∀ cp, (∀ i < 8, cp i = c i) → ∀ j < 32,
    otpextract cp (2*j) 2 = otpextract (memcpy stack c 8) (2*j) 2
  word_calls : ∀ cp, (∀ i < 8, cp i = c i) → cp 8 = withParity c stack 8 → ∀ start ∈ starts,
    otpextract cp start 11 = otpextract (withParity c stack) start 11

section Extraction
variable {s c stack : ℕ → UInt8} {start length n : ℕ}

theorem bytes_lt (s : ℕ → UInt8) (i : ℕ) : bytes s i < 2^8 := (s i).toNat_lt

theorem mask_eq : ∀ length ≤ 16, 0xffff >>> (16-length) = 2^length-1 := by
  decide

theorem three_bytes (q : ℕ) : (bytes s q <<< 8 ||| bytes s (q+1)) <<< 8 ||| bytes s (q+2) =
    bytes s q * 2^16 + bytes s (q+1) * 2^8 + bytes s (q+2) := by
  rw [← Nat.shiftLeft_add_eq_or_of_lt (bytes_lt s (q+2)),
    ← Nat.shiftLeft_add_eq_or_of_lt (bytes_lt s (q+1)), Nat.shiftLeft_eq, Nat.shiftLeft_eq]
  ring

/-- The bits that are extracted are those of the whole string. -/
theorem otpextract_eq (hlen : length ≤ 16) (hfit : length+start%8 ≤ 24)
    (hn : start+length ≤ 8*n) : otpextract s start length =
      number (2^8) (bytes s) n / 2^(8*n-(start+length)) % 2^length := by
  have hstart := Nat.div_add_mod start 8
  have hextract : otpextract s start length =
      (bytes s (start/8) * 2^16 + bytes s (start/8+1) * 2^8 + bytes s (start/8+2)) /
        2^(24-(length+start%8)) % 2^length := by
    change ((bytes s (start/8) <<< 8 ||| bytes s (start/8+1)) <<< 8 ||| bytes s (start/8+2)) >>>
      (24-(length+start%8)) &&& (0xffff >>> (16-length)) = _
    rw [mask_eq length hlen, Nat.and_two_pow_sub_one_eq_mod, Nat.shiftRight_eq_div_pow,
      three_bytes]
  rw [hextract, ← @first_bits (start/8+3) n _ 8 _ (bytes_lt s) (by omega) hn]
  generalize start/8 = q at hstart
  generalize start%8 = r at hstart hfit
  have hshift : 8*(q+3)-(start+length) = 24-(length+r) := by omega
  have hpow : (2 : ℕ)^24 = 2^(24-(length+r)) * (2^r * 2^length) := by
    rw [← Nat.pow_add, ← Nat.pow_add]
    congr 1
    omega
  have hnumber : number (2^8) (bytes s) (q+3) = number (2^8) (bytes s) q * 2^24 +
      (bytes s q * 2^16 + bytes s (q+1) * 2^8 + bytes s (q+2)) := by
    simp only [number]
    ring
  rw [hshift, hnumber, hpow, Nat.mul_left_comm,
    Nat.mul_add_div (Nat.two_pow_pos _), ← Nat.mul_assoc, Nat.mul_add_mod_self_right]

/-- The pairs of bits of a key. -/
theorem otpextract_group {j : ℕ} (hj : j < 32) :
    otpextract s (2*j) 2 = key s / 4^(31-j) % 4 := by
  have hexp : 8*8-(2*j+2) = 2*(31-j) := by omega
  rw [@otpextract_eq s (2*j) 2 8 (by decide) (by omega) (by omega), hexp, Nat.pow_mul]
  rfl

theorem foldl_add (f : ℕ → ℕ) (l : List ℕ) (p : ℕ) :
    l.foldl (fun p i => p + f i) p = p + (l.map f).sum := by
  induction l generalizing p with
  | nil => rfl
  | cons i l ih =>
    rw [List.foldl_cons, ih, List.map_cons, List.sum_cons, Nat.add_assoc]

theorem key_congr (h : ∀ i < 8, s i = c i) : key s = key c :=
  number_congr fun i hi => congrArg UInt8.toNat (h i hi)

theorem paritySum_eq (s : ℕ → UInt8) : paritySum s = groups (key s) := by
  have hrange : List.range' 0 32 2 = (List.range 32).map (2 * ·) := by decide
  rw [paritySum, foldl_add, Nat.zero_add, hrange, List.map_map, groups]
  congr 1
  apply List.map_congr_left
  intro j hj
  exact otpextract_group (List.mem_range.mp hj)

end Extraction

section Words
variable {c stack : ℕ → UInt8}

theorem memcpy_key (c stack : ℕ → UInt8) (i : ℕ) (hi : i < 8) : memcpy stack c 8 i = c i :=
  if_pos hi

theorem withParity_key (c stack : ℕ → UInt8) (i : ℕ) (hi : i < 8) :
    withParity c stack i = c i := by
  rw [withParity, Function.update_of_ne (by omega), memcpy_key c stack i hi]

/-- The ninth byte begins with the two bits of the parity. -/
theorem withParity_last (c stack : ℕ → UInt8) :
    bytes (withParity c stack) 8 = groups (key c) % 4 * 2^6 := by
  have hsum : paritySum (memcpy stack c 8) = groups (key c) := by
    rw [paritySum_eq, key_congr (memcpy_key c stack)]
  rw [bytes, withParity, Function.update_self, hsum, UInt8.toNat_ofNat', Nat.shiftLeft_eq]
  generalize groups (key c) = g
  have hpow : (2 : ℕ)^8 = 4 * 2^6 := rfl
  rw [hpow, Nat.mul_mod_mul_right]

/-- The key and the parity, as one number of 66 bits. -/
theorem withParity_number (c stack : ℕ → UInt8) :
    number (2^8) (bytes (withParity c stack)) 9 = (key c * 4 + groups (key c) % 4) * 2^6 := by
  have hfront : number (2^8) (bytes (withParity c stack)) 8 = key c :=
    key_congr (withParity_key c stack)
  rw [number, hfront, withParity_last]
  ring

theorem key_lt (c : ℕ → UInt8) : key c < 2^64 := number_lt fun i _ => bytes_lt c i

/-- Each index has eleven bits of the number. -/
theorem otpextract_index {j : ℕ} (hj : j < 6) :
    otpextract (withParity c stack) (11*j) 11 =
      (key c * 4 + groups (key c) % 4) / (2^11)^(5-j) % 2^11 := by
  have hfit : 11+11*j%8 ≤ 24 := by omega
  have hexp : 8*9-(11*j+11) = 6 + 11*(5-j) := by omega
  rw [@otpextract_eq _ (11*j) 11 9 (by decide) hfit (by omega), withParity_number, hexp,
    Nat.pow_add, ← Nat.div_div_eq_div_mul, Nat.mul_div_cancel _ (by decide), Nat.pow_mul]

theorem indices_eq (c stack : ℕ → UInt8) : indices c stack = (List.range 6).map fun j =>
    (key c * 4 + groups (key c) % 4) / (2^11)^(5-j) % 2^11 := by
  have hstarts : starts = (List.range 6).map (11 * ·) := by decide
  rw [indices, hstarts, List.map_map]
  apply List.map_congr_left
  intro j hj
  exact otpextract_index (List.mem_range.mp hj)

theorem together_indices (c stack : ℕ → UInt8) :
    together (indices c stack) = key c * 4 + groups (key c) % 4 := by
  have hlt : key c * 4 + groups (key c) % 4 < (2^11)^6 := by
    have hpow : (2^11)^6 = 2^64 * 4 := rfl
    have hkey := key_lt c
    omega
  rw [together, indices_eq, List.length_map, List.length_range]
  generalize key c * 4 + groups (key c) % 4 = W at hlt
  have hdigits : ∀ i < 6, ((List.range 6).map fun j => W / (2^11)^(5-j) % 2^11).getD i 0 =
      W / (2^11)^(6-1-i) % 2^11 := by
    intro i hi
    rw [List.getD_eq_getElem?_getD, List.getElem?_map, List.getElem?_range hi]
    rfl
  rw [number_congr hdigits, number_digits, Nat.mod_eq_of_lt hlt]

theorem otpbtoe_words (otpenglish : ℕ → List UInt8) (c stack : ℕ → UInt8) :
    otpbtoe otpenglish c stack =
      [32].intercalate ((indices c stack).map fun i => (otpenglish i).take 4) := by
  unfold otpbtoe indices
  generalize withParity c stack = cp
  simp only [starts, List.map_cons, List.map_nil, List.intercalate, List.intersperse_cons_cons,
    List.intersperse_singleton, List.flatten_cons, List.flatten_nil, List.append_nil,
    List.append_assoc]

theorem starts_fit : ∀ start ∈ starts, 11+start%8 ≤ 24 ∧ start+11 ≤ 8*9 := by
  decide

/-- The six words of a key are its 64 bits and two bits of parity, whatever the memory
behind it had. -/
theorem six_words (c stack : ℕ → UInt8) : SixWords c stack := by
  have htogether := together_indices c stack
  have hdiv : (key c * 4 + groups (key c) % 4) / 4 = key c := by omega
  have hmod : (key c * 4 + groups (key c) % 4) % 4 = groups (key c) % 4 := by omega
  refine ⟨fun otpenglish => ?_, htogether, fun i hi => ?_, fun c' stack' h => ?_, ?_,
    fun cp hcp j hj => ?_, fun cp hcp hparity start hstart => ?_⟩
  · exact otpbtoe_words otpenglish c stack
  · rw [indices_eq] at hi
    obtain ⟨j, _, rfl⟩ := List.mem_map.mp hi
    exact Nat.mod_lt _ (by decide)
  · have hkeys : key c' = key c := by
      have h' := together_indices c' stack'
      rw [h, htogether] at h'
      omega
    intro i hi
    apply UInt8.toNat_inj.mp
    exact number_inj (fun i _ => bytes_lt c' i) (fun i _ => bytes_lt c i) hkeys i hi
  · rw [decode, htogether, hdiv, hmod, if_pos rfl]
  · rw [otpextract_group hj, otpextract_group hj, key_congr hcp,
      key_congr (memcpy_key c stack)]
  · have hnine : number (2^8) (bytes cp) 9 = number (2^8) (bytes (withParity c stack)) 9 := by
      apply number_congr
      intro i hi
      rcases Nat.lt_succ_iff_lt_or_eq.mp hi with hi | rfl
      · rw [bytes, bytes, hcp i hi, withParity_key c stack i hi]
      · rw [bytes, bytes, hparity]
    have hfit := starts_fit start hstart
    rw [@otpextract_eq _ start 11 9 (by decide) hfit.1 hfit.2,
      @otpextract_eq _ start 11 9 (by decide) hfit.1 hfit.2, hnine]

end Words

end Otp
