import Mathlib.Data.List.GetD
import Mathlib.Logic.Function.Basic
import Mathlib.Tactic.SplitIfs

/-! A queue kept at the front of an array: elements are written behind the last
one, and taking some from the front moves the others down. -/

/-- An array with the number of elements in use. -/
structure ShiftBuffer (α : Type) where
  data : ℕ → α
  len : Int

namespace ShiftBuffer

variable {α : Type}

/-- The elements in use, in order. -/
def contents (b : ShiftBuffer α) : List α := (List.range b.len.toNat).map b.data

/-- Write an element behind the last one. -/
def put (b : ShiftBuffer α) (c : α) : ShiftBuffer α :=
  { data := Function.update b.data b.len.toNat c, len := b.len+1 }

/-- Move a block behind the last element. -/
def append (b : ShiftBuffer α) (l : List α) : ShiftBuffer α :=
  { data := fun i => if i < b.len.toNat then b.data i else l.getD (i-b.len.toNat) (b.data i)
    len := b.len+l.length }

/-- Take `k` elements from the front and move the others down. -/
def removeFront (b : ShiftBuffer α) (k : Int) : ShiftBuffer α :=
  { data := fun i => if (i : Int) < b.len-k then b.data (i+k.toNat) else b.data i
    len := b.len-k }

theorem length_contents (b : ShiftBuffer α) : b.contents.length = b.len.toNat := by
  rw [contents, List.length_map, List.length_range]

/-- Elements copied from the front. -/
theorem map_data (b : ShiftBuffer α) {k : ℕ} (hk : k ≤ b.len.toNat) :
    (List.range k).map b.data = b.contents.take k := by
  rw [contents, ← List.map_take, List.take_range, Nat.min_eq_left hk]

theorem contents_put (b : ShiftBuffer α) (c : α) (h : 0 ≤ b.len) :
    (b.put c).contents = b.contents ++ [c] := by
  have hlen : (b.len+1).toNat = b.len.toNat+1 := by omega
  simp only [contents, put, hlen, List.range_succ, List.map_append, List.map_singleton,
    Function.update_self]
  congr 1
  apply List.map_congr_left
  intro i hi
  exact Function.update_of_ne (Nat.ne_of_lt (List.mem_range.mp hi)) c b.data

theorem contents_append (b : ShiftBuffer α) (l : List α) (h : 0 ≤ b.len) :
    (b.append l).contents = b.contents ++ l := by
  have hlen : (b.len+l.length).toNat = b.len.toNat+l.length := by omega
  apply List.ext_getElem
  · simp only [contents, append, hlen, List.length_append, List.length_map, List.length_range]
  · intro i h1 h2
    simp only [contents, append, List.getElem_map, List.getElem_range, List.getElem_append,
      List.length_map, List.length_range]
    simp only [length_contents, append, hlen] at h1
    split_ifs with hi
    · rfl
    · have hlt : i-b.len.toNat < l.length := by omega
      rw [List.getD_eq_getElem _ _ hlt]

theorem contents_removeFront (b : ShiftBuffer α) {k : Int} (h : 0 ≤ k) :
    (b.removeFront k).contents = b.contents.drop k.toNat := by
  have hlen : (b.len-k).toNat = b.len.toNat-k.toNat := by omega
  apply List.ext_getElem
  · simp only [contents, removeFront, hlen, List.length_drop, List.length_map, List.length_range]
  · intro i h1 h2
    simp only [length_contents, removeFront, hlen] at h1
    have hi : (i : Int) < b.len-k := by omega
    simp only [contents, removeFront, List.getElem_map, List.getElem_range, List.getElem_drop,
      if_pos hi, Nat.add_comm]

end ShiftBuffer
