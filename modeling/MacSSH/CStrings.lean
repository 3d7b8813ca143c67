import Mathlib.Data.List.Basic
import Mathlib.Logic.Function.Basic
import Mathlib.Tactic.Common

/-! Lists and strings that lie in a memory, and loops that move a pointer along it. -/
namespace CStrings

variable {α : Type*} {m m' : Int → α} {p q : Int} {l l' : List α} {c : α}

/-- The list lies in the memory from `p` on. -/
def At (m : Int → α) : Int → List α → Prop
  | _, [] => True
  | p, c :: l => m p = c ∧ At m (p+1) l

instance decidableAt [DecidableEq α] (m : Int → α) : ∀ p l, Decidable (At m p l)
  | _, [] => inferInstanceAs (Decidable True)
  | p, c :: l =>
    have := decidableAt m (p+1) l
    inferInstanceAs (Decidable (m p = c ∧ At m (p+1) l))

theorem at_append (l l' : List α) : At m p (l ++ l') ↔ At m p l ∧ At m (p+l.length) l' := by
  induction l generalizing p with
  | nil => simp [At]
  | cons c l ih =>
    have hplace : p+1+(l.length : Int) = p+((c :: l).length : Int) := by
      rw [List.length_cons]
      omega
    rw [List.cons_append, At, At, ih, hplace, and_assoc]

theorem At.congr (h : At m p l) (hm : ∀ i, p ≤ i → i < p+l.length → m' i = m i) :
    At m' p l := by
  induction l generalizing p with
  | nil => trivial
  | cons c l ih =>
    rw [List.length_cons] at hm
    refine ⟨(hm p (Int.le_refl p) (by omega)).trans h.1, ih h.2 fun i hi hlt => ?_⟩
    exact hm i (by omega) (by omega)

/-- A byte that is written outside of the list leaves it as it is. -/
theorem At.update (h : At m p l) (hq : q < p ∨ p+l.length ≤ q) (c : α) :
    At (Function.update m q c) p l := by
  apply h.congr
  intro i hle hlt
  exact Function.update_of_ne (by omega) ..

theorem At.get (h : At m p l) {i : ℕ} (hi : i < l.length) : m (p+i) = l[i] := by
  induction l generalizing p i with
  | nil => exact absurd hi (Nat.not_lt_zero i)
  | cons c l ih =>
    cases i with
    | zero =>
      rw [Int.natCast_zero, Int.add_zero]
      exact h.1
    | succ i =>
      have hplace : p+((i+1 : ℕ) : Int) = p+1+(i : Int) := by omega
      rw [hplace, ih h.2 (Nat.lt_of_succ_lt_succ hi)]
      rfl

/-- The memory when the list has been written to it. -/
def store (m : Int → α) (p : Int) : List α → Int → α
  | [] => m
  | c :: l => Function.update (store m (p+1) l) p c

theorem store_at (m : Int → α) (p : Int) (l : List α) : At (store m p l) p l := by
  induction l generalizing p with
  | nil => trivial
  | cons c l ih => exact ⟨Function.update_self .., (ih (p+1)).update (.inl (by omega)) c⟩

/-- The string at `p`: it ends before the first zero. -/
structure IsString [Zero α] (m : Int → α) (p : Int) (s : List α) : Prop where
  holds : At m p s
  ends : m (p+s.length) = 0
  no_zero : 0 ∉ s

theorem IsString.unique [Zero α] (h : IsString m p l) (h' : IsString m p l') : l = l' := by
  induction l generalizing p l' with
  | nil =>
    cases l' with
    | nil => rfl
    | cons c' l' =>
      have hzero : m p = 0 := by simpa using h.ends
      have hc : c' = 0 := h'.holds.1.symm.trans hzero
      exact absurd (hc ▸ List.mem_cons_self) h'.no_zero
  | cons c l ih =>
    cases l' with
    | nil =>
      have hzero : m p = 0 := by simpa using h'.ends
      have hc : c = 0 := h.holds.1.symm.trans hzero
      exact absurd (hc ▸ List.mem_cons_self) h.no_zero
    | cons c' l' =>
      have htail : ∀ {d : α} {s : List α}, IsString m p (d :: s) → IsString m (p+1) s := by
        intro d s hs
        refine ⟨hs.holds.2, ?_, fun hmem => hs.no_zero (List.mem_cons_of_mem d hmem)⟩
        have hplace : p+1+(s.length : Int) = p+((d :: s).length : Int) := by
          rw [List.length_cons]
          omega
        rw [hplace, hs.ends]
      rw [← h.holds.1, ← h'.holds.1, ih (htail h) (htail h')]

/-- A string ends where there is a zero. -/
theorem IsString.before_zero [Zero α] (h : IsString m p l) (hle : p ≤ q) (hzero : m q = 0) :
    p+l.length ≤ q := by
  by_contra hlt
  have hin : (q-p).toNat < l.length := by omega
  have hplace : p+((q-p).toNat : Int) = q := by omega
  have hget := h.holds.get hin
  rw [hplace, hzero] at hget
  exact h.no_zero (hget ▸ List.getElem_mem hin)

/-- Where a pointer comes that is moved over at most `n` bytes, until one stops it. -/
def scan (m : Int → α) (stop : α → Bool) : ℕ → Int → Int
  | 0, p => p
  | n+1, p => if stop (m p) then p else scan m stop n (p+1)

/-- The place where the loop stops: nothing stops it before. -/
structure StopsAt (m : Int → α) (stop : α → Bool) (n : ℕ) (p : Int) (k : ℕ) : Prop where
  le : k ≤ n
  before : ∀ i < k, stop (m (p+(i : ℕ))) = false
  here : k = n ∨ stop (m (p+k)) = true

theorem scan_eq {stop : α → Bool} {n k : ℕ} (h : StopsAt m stop n p k) :
    scan m stop n p = p+k := by
  induction n generalizing p k with
  | zero =>
    rw [scan, Nat.le_zero.mp h.le]
    exact (Int.add_zero p).symm
  | succ n ih =>
    rw [scan]
    cases k with
    | zero =>
      have hstop : stop (m p) = true := by
        have hhere := h.here.resolve_left (Nat.succ_ne_zero n).symm
        rwa [Int.natCast_zero, Int.add_zero] at hhere
      rw [if_pos hstop, Int.natCast_zero, Int.add_zero]
    | succ k =>
      have hgo : ¬ stop (m p) = true := by
        have hbefore := h.before 0 (Nat.succ_pos k)
        rw [Int.natCast_zero, Int.add_zero] at hbefore
        rw [hbefore]
        exact Bool.false_ne_true
      have hplace : ∀ i : ℕ, p+1+(i : Int) = p+((i+1 : ℕ) : Int) := fun i => by omega
      have hlater : StopsAt m stop n (p+1) k := by
        refine ⟨Nat.le_of_succ_le_succ h.le, fun i hi => ?_, ?_⟩
        · rw [hplace]
          exact h.before (i+1) (Nat.succ_lt_succ hi)
        · rw [hplace]
          exact h.here.imp Nat.succ.inj id
      rw [if_neg hgo, ih hlater, hplace]

/-- A list without bytes that stop the loop is passed over. -/
theorem scan_over {stop : α → Bool} {n : ℕ} {d : α} (h : At m p (l ++ d :: l'))
    (hl : ∀ c ∈ l, stop c = false) (hd : stop d = true) (hn : l.length ≤ n) :
    scan m stop n p = p+l.length := by
  obtain ⟨hfront, hback⟩ := (at_append l (d :: l')).mp h
  refine scan_eq ⟨hn, fun i hi => ?_, .inr (hback.1 ▸ hd)⟩
  rw [hfront.get hi]
  exact hl _ (List.getElem_mem hi)

theorem scan_stops (m : Int → α) (stop : α → Bool) (n : ℕ) (p : Int) :
    ∃ k, scan m stop n p = p+(k : ℕ) ∧ StopsAt m stop n p k := by
  induction n generalizing p with
  | zero =>
    exact ⟨0, (Int.add_zero p).symm, Nat.le_refl 0, fun i hi => absurd hi (Nat.not_lt_zero i),
      .inl rfl⟩
  | succ n ih =>
    rw [scan]
    by_cases hstop : stop (m p) = true
    · rw [if_pos hstop]
      refine ⟨0, (Int.add_zero p).symm, Nat.zero_le _, fun i hi => absurd hi (Nat.not_lt_zero i),
        .inr ?_⟩
      rwa [Int.natCast_zero, Int.add_zero]
    · rw [if_neg hstop]
      obtain ⟨k, heq, hk⟩ := ih (p+1)
      have hplace : ∀ i : ℕ, p+1+(i : Int) = p+((i+1 : ℕ) : Int) := fun i => by omega
      refine ⟨k+1, by rw [heq, hplace], Nat.succ_le_succ hk.le, fun i hi => ?_, ?_⟩
      · cases i with
        | zero =>
          rw [Int.natCast_zero, Int.add_zero]
          exact Bool.eq_false_iff.mpr hstop
        | succ i =>
          rw [← hplace]
          exact hk.before i (Nat.lt_of_succ_lt_succ hi)
      · rw [← hplace]
        exact hk.here.imp (congrArg Nat.succ) id

end CStrings
