import Mathlib.Tactic.Common

/-! Strings packed one behind another, each closed by a terminator, and the places where
they start. -/
namespace PackedStrings

variable {α : Type*} (z : α)

/-- The strings one behind another, each with its terminator. -/
def packed (strings : List (List α)) : List α := strings.flatMap (· ++ [z])

/-- Where a string starts. -/
def start (strings : List (List α)) (i : ℕ) : ℕ := (packed z (strings.take i)).length

theorem packed_cons (s : List α) (strings : List (List α)) :
    packed z (s :: strings) = s ++ z :: packed z strings := by
  rw [packed, List.flatMap_cons, List.append_assoc]
  rfl

theorem packed_append (front rest : List (List α)) :
    packed z (front ++ rest) = packed z front ++ packed z rest :=
  List.flatMap_append

/-- A packed list around one of its strings. -/
theorem packed_split {strings : List (List α)} {n : ℕ} (h : n < strings.length) :
    packed z strings =
      packed z (strings.take n) ++ (strings[n] ++ z :: packed z (strings.drop (n+1))) := by
  calc packed z strings
      = packed z (strings.take n ++ strings.drop n) := by rw [List.take_append_drop]
    _ = packed z (strings.take n) ++ packed z (strings.drop n) := packed_append z _ _
    _ = _ := by rw [List.drop_eq_getElem_cons h, packed_cons]

/-- Setting a string leaves what is packed around it. -/
theorem packed_set {strings : List (List α)} {n : ℕ} (h : n < strings.length) (s : List α) :
    packed z (strings.set n s) =
      packed z (strings.take n) ++ (s ++ z :: packed z (strings.drop (n+1))) := by
  have hset : n < (strings.set n s).length := by rw [List.length_set]; exact h
  have htake : (strings.set n s).take n = strings.take n := by
    rw [List.take_set, List.set_eq_of_length_le (by rw [List.length_take]; omega)]
  have hdrop : (strings.set n s).drop (n+1) = strings.drop (n+1) := by
    rw [List.drop_set_of_lt (by omega)]
  rw [packed_split z hset, List.getElem_set_self, htake, hdrop]

theorem length_packed_set {strings : List (List α)} {n : ℕ} (h : n < strings.length)
    (s : List α) : (packed z (strings.set n s)).length+strings[n].length =
      (packed z strings).length+s.length := by
  rw [packed_set z h, packed_split z h]
  simp only [List.length_append, List.length_cons]
  omega

/-- The last string ends the packed list with its terminator. -/
theorem getLast_packed {strings : List (List α)} (h : strings ≠ []) :
    (packed z strings).getLast? = some z := by
  rw [← List.dropLast_concat_getLast h, packed_append, packed_cons, List.getLast?_append]
  have hend : (strings.getLast h ++ z :: packed z []).getLast? = some z := List.getLast?_concat
  rw [hend]
  rfl

@[simp] theorem start_zero (strings : List (List α)) : start z strings 0 = 0 := by
  rw [start, List.take_zero]
  rfl

theorem start_cons_succ (s : List α) (strings : List (List α)) (i : ℕ) :
    start z (s :: strings) (i+1) = s.length+1+start z strings i := by
  rw [start, List.take_succ_cons, packed_cons, List.length_append, List.length_cons, start]
  omega

theorem start_succ {strings : List (List α)} {n : ℕ} (h : n < strings.length) :
    start z strings (n+1) = start z strings n+strings[n].length+1 := by
  rw [start, List.take_succ_eq_append_getElem h, packed_append, List.length_append, packed_cons,
    List.length_append, List.length_cons, start]
  rfl

theorem start_mono {strings : List (List α)} {i j : ℕ} (h : i ≤ j) :
    start z strings i ≤ start z strings j := by
  have hsplit : strings.take j = strings.take i ++ (strings.take j).drop i := by
    calc strings.take j
        = (strings.take j).take i ++ (strings.take j).drop i := (List.take_append_drop ..).symm
      _ = _ := by rw [List.take_take, Nat.min_eq_left h]
  rw [start, start, hsplit, packed_append, List.length_append]
  exact Nat.le_add_right _ _

theorem start_append_left {front : List (List α)} {i : ℕ} (h : i ≤ front.length)
    (rest : List (List α)) : start z (front ++ rest) i = start z front i := by
  rw [start, List.take_append_of_le_length h, start]

theorem start_append_right (front rest : List (List α)) (i : ℕ) :
    start z (front ++ rest) (front.length+i) = (packed z front).length+start z rest i := by
  rw [start, List.take_length_add_append, packed_append, List.length_append, start]

/-- A string starts inside the packed list, and its characters and terminator end there. -/
theorem start_add_lt {strings : List (List α)} {n : ℕ} (h : n < strings.length) :
    start z strings n+strings[n].length < (packed z strings).length := by
  rw [packed_split z h, start]
  simp only [List.length_append, List.length_cons]
  omega

theorem start_le {strings : List (List α)} {n : ℕ} (h : n < strings.length) :
    start z strings n ≤ (packed z strings).length := by
  have := start_add_lt z h
  omega

/-- Every string before takes at least its terminator. -/
theorem le_start {strings : List (List α)} : ∀ {n : ℕ}, n ≤ strings.length →
    n ≤ start z strings n := by
  induction strings with
  | nil =>
    intro n h
    rw [List.length_nil] at h
    omega
  | cons s strings ih =>
    intro n h
    cases n with
    | zero => exact Nat.zero_le _
    | succ n =>
      rw [List.length_cons] at h
      have := @ih n (by omega)
      rw [start_cons_succ]
      omega

theorem length_le_packed (strings : List (List α)) :
    strings.length ≤ (packed z strings).length := by
  have h := le_start z (Nat.le_refl strings.length)
  rwa [start, List.take_length] at h

theorem length_packed_le {strings : List (List α)} {c : ℕ} (h : ∀ s ∈ strings, s.length ≤ c) :
    (packed z strings).length ≤ (c+1)*strings.length := by
  induction strings with
  | nil => exact Nat.zero_le _
  | cons s strings ih =>
    have hs := h s List.mem_cons_self
    have hrest := ih fun t ht => h t (List.mem_cons_of_mem s ht)
    rw [packed_cons, List.length_append, List.length_cons, List.length_cons, Nat.mul_succ]
    omega

/-- Setting a string does not move those before it. -/
theorem start_set_of_le {strings : List (List α)} {n i : ℕ} (h : i ≤ n) (s : List α) :
    start z (strings.set n s) i = start z strings i := by
  rw [start, List.take_set, List.set_eq_of_length_le (by rw [List.length_take]; omega), start]

/-- It moves those behind it by the difference of the lengths. -/
theorem start_set_of_lt {strings : List (List α)} {n i : ℕ} (h : n < i)
    (hn : n < strings.length) (s : List α) :
    start z (strings.set n s) i+strings[n].length = start z strings i+s.length := by
  have htake : n < (strings.take i).length := by rw [List.length_take]; omega
  have hlen := length_packed_set z htake s
  rw [List.getElem_take] at hlen
  rw [start, List.take_set, hlen, start]

end PackedStrings
