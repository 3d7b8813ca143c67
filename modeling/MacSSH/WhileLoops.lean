import Mathlib.Data.List.Perm.Subperm
import Mathlib.Data.List.Nodup
import Mathlib.Data.Nat.Find
import Mathlib.Order.Basic
import Mathlib.Logic.Function.Iterate
import Mathlib.Tactic.Common

/-! Loops that try one candidate after another. A loop whose candidates are told apart by
keys, while each that is refused has its key in a list, ends before the list is used up. -/
namespace WhileLoop

variable {α κ : Type*}

/-- `while (test) body`, in at most `n` rounds: the states that were tested, the last of which
is left. `none` stands for a loop that has not ended, and for a test that fails. -/
def tested (test : α → Option Bool) (body : α → α) : ℕ → α → Option (List α)
  | 0, a => if test a = some false then some [a] else none
  | n+1, a =>
    match test a with
    | none => none
    | some false => some [a]
    | some true => (tested test body n (body a)).map (a :: ·)

/-- The states from `a` on, `k` rounds long. -/
def states (body : α → α) (k : ℕ) (a : α) : List α := (List.range (k+1)).map fun i => body^[i] a

variable {test : α → Option Bool} {body : α → α} {n k : ℕ} {a : α}

theorem states_succ (body : α → α) (k : ℕ) (a : α) :
    states body (k+1) a = a :: states body k (body a) := by
  rw [states, List.range_succ_eq_map, List.map_cons, List.map_map]
  rfl

/-- The loop ends with the first state whose test is false. -/
theorem tested_of_first (hk : k ≤ n) (hon : ∀ i < k, test (body^[i] a) = some true)
    (hend : test (body^[k] a) = some false) :
    tested test body n a = some (states body k a) := by
  induction k generalizing n a with
  | zero =>
    have hfalse : test a = some false := hend
    cases n with
    | zero =>
      rw [tested, if_pos hfalse]
      rfl
    | succ n =>
      rw [tested, hfalse]
      rfl
  | succ k ih =>
    obtain ⟨n, rfl⟩ := Nat.exists_eq_add_one_of_ne_zero (Nat.ne_of_gt (Nat.zero_lt_of_lt hk))
    have htrue : test a = some true := hon 0 (Nat.succ_pos k)
    have hrest := ih (n := n) (a := body a) (Nat.le_of_succ_le_succ hk)
      (fun i hi => hon (i+1) (Nat.succ_lt_succ hi)) hend
    rw [tested, htrue, states_succ]
    simp only [hrest, Option.map_some]

/-- There is such a state when the keys do not repeat and the refused ones are in a list. -/
theorem exists_first (key : α → κ) (taken : List κ) (hlen : taken.length ≤ n)
    (hdefined : ∀ i ≤ n, test (body^[i] a) ≠ none)
    (htaken : ∀ i ≤ n, test (body^[i] a) = some true → key (body^[i] a) ∈ taken)
    (hkeys : ((states body n a).map key).Nodup) :
    ∃ k ≤ n, (∀ i < k, test (body^[i] a) = some true) ∧ test (body^[k] a) = some false := by
  -- were all of them refused, their keys would be one more than the list has
  have hends : ∃ k, k ≤ n ∧ test (body^[k] a) = some false := by
    by_contra hnever
    have hall : (states body n a).map key ⊆ taken := by
      intro x hx
      obtain ⟨_, hmem, rfl⟩ := List.mem_map.mp hx
      obtain ⟨i, hi, rfl⟩ := List.mem_map.mp hmem
      have hin : i ≤ n := Nat.le_of_lt_succ (List.mem_range.mp hi)
      apply htaken i hin
      cases htest : test (body^[i] a) with
      | none => exact absurd htest (hdefined i hin)
      | some b =>
        cases b with
        | true => rfl
        | false => exact absurd ⟨i, hin, htest⟩ hnever
    have hcount := (hkeys.subperm hall).length_le
    rw [List.length_map, states, List.length_map, List.length_range] at hcount
    omega
  classical
  -- of the states that end the loop, the first
  obtain ⟨hk, hend⟩ := Nat.find_spec hends
  refine ⟨Nat.find hends, hk, ?_, hend⟩
  intro i hi
  have hin : i ≤ n := by omega
  cases htest : test (body^[i] a) with
  | none => exact absurd htest (hdefined i hin)
  | some b =>
    cases b with
    | true => rfl
    | false => exact absurd ⟨hin, htest⟩ (Nat.find_min hends hi)

/-- A relation that every round goes along, and that is transitive, orders the states. -/
theorem pairwise_states {r : α → α → Prop} (htrans : ∀ a b c, r a b → r b c → r a c)
    (hround : ∀ i < n, r (body^[i] a) (body^[i+1] a)) : (states body n a).Pairwise r := by
  have hlater : ∀ i j, i < j → j ≤ n → r (body^[i] a) (body^[j] a) := by
    intro i j hij hj
    induction j, hij using Nat.le_induction with
    | base => exact hround i hj
    | succ j _ ih => exact htrans _ _ _ (ih (by omega)) (hround j hj)
  rw [states, List.pairwise_map]
  apply List.pairwise_lt_range.imp_of_mem
  intro i j _ hj hij
  exact hlater i j hij (Nat.le_of_lt_succ (List.mem_range.mp hj))

end WhileLoop
