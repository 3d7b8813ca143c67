import MacSSH.FTPServer
import Mathlib.Tactic.Common

/-! Stored passwords: what `Sencompass` writes when a user is set up, and what `Scompass`
accepts against it. The arithmetic of the source is in `short` and in `int`, on signed
characters; what is kept of it are the low bits, as the model computes them in a byte. -/
namespace FTPServer

section Arithmetic

/-- No encrypted character ends the string. -/
theorem encryptChar_ne_zero (p c : UInt8) : encryptChar p c ≠ 0 := by
  intro h
  -- `| 32` sets bit 5 for good
  have hbit : (encryptChar p c).toBitVec.getLsbD 5 = true := by
    change ((((p.toBitVec ^^^ c.toBitVec) ||| 32#8) &&& 127#8).getLsbD 5) = true
    simp
  rw [h] at hbit
  exact absurd hbit (by decide)

end Arithmetic

section Loops

theorem length_sencompassLoop (n : ℕ) (ps : List UInt8) (c : UInt8) :
    (sencompassLoop n ps c).length = n := by
  fun_induction sencompassLoop n ps c with
  | case1 => rfl
  | case2 n c ih => rw [List.length_cons, ih]
  | case3 n p ps c ih => rw [List.length_cons, ih]

theorem sencompassLoop_ne_zero (n : ℕ) (ps : List UInt8) (c : UInt8) :
    ∀ e ∈ sencompassLoop n ps c, e ≠ 0 := by
  fun_induction sencompassLoop n ps c with
  | case1 => exact List.forall_mem_nil _
  | case2 n c ih => exact List.forall_mem_cons.mpr ⟨encryptChar_ne_zero 0 c, ih⟩
  | case3 n p ps c ih => exact List.forall_mem_cons.mpr ⟨encryptChar_ne_zero p c, ih⟩

/-- The two loops stay in step: the second accepts what the first writes in as many rounds. -/
theorem scompassLoop_iff (en ps : List UInt8) (c : UInt8) :
    scompassLoop en ps c = true ↔ sencompassLoop en.length ps c = en := by
  fun_induction scompassLoop en ps c with
  | case1 => simp [sencompassLoop]
  | case2 e en c hne => simp [sencompassLoop, hne]
  | case3 e en c heq ih =>
    rw [not_not] at heq
    simp [sencompassLoop, heq, ih]
  | case4 e en p ps c hne => simp [sencompassLoop, hne]
  | case5 e en p ps c heq ih =>
    rw [not_not] at heq
    simp [sencompassLoop, heq, ih]

/-- What lies behind the ten characters and their end is not read. -/
theorem takeWhile_sencompass (p behind : List UInt8) :
    (sencompass p ++ 0 :: behind).takeWhile (· ≠ 0) = sencompass p := by
  rw [List.takeWhile_append_of_pos, List.takeWhile_cons_of_neg (by decide), List.append_nil]
  intro e he
  exact decide_eq_true (sencompassLoop_ne_zero 10 p (checksum p) e he)

theorem scompass_iff (p q : List UInt8) :
    scompass q (sencompass p) = true ↔ sencompass q = sencompass p := by
  rw [scompass, scompassLoop_iff]
  have hlength : (sencompass p).length = 10 := length_sencompassLoop 10 p (checksum p)
  rw [hlength]
  rfl

end Loops

/-- A password is accepted against a stored form if and only if it has that form itself. -/
theorem scompass_agrees (p q behind : List UInt8) :
    (scompass q ((sencompass p ++ 0 :: behind).takeWhile (· ≠ 0)) = true ↔
      sencompass q = sencompass p) ∧
    scompass p ((sencompass p ++ 0 :: behind).takeWhile (· ≠ 0)) = true := by
  rw [takeWhile_sencompass]
  exact ⟨scompass_iff p q, (scompass_iff p p).mpr rfl⟩

end FTPServer
