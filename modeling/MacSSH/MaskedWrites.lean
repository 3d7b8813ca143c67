import Mathlib.Data.List.Induction
import Mathlib.Tactic.SplitIfs
import Mathlib.Tactic.Cases

/-! Writes through masks to the bits of a word, and which write of a run stands. -/
namespace Masked

section Standing
variable {α β : Type}

/-- What stands after the writes of `l`, if `b` stood before them. -/
def standing (f : α → Option β) (b : β) (l : List α) : β := l.foldl (fun b x => (f x).getD b) b

theorem standing_append (f : α → Option β) (b : β) (l l' : List α) :
    standing f b (l ++ l') = standing f (standing f b l) l' := List.foldl_append ..

theorem standing_concat (f : α → Option β) (b : β) (l : List α) (x : α) :
    standing f b (l ++ [x]) = (f x).getD (standing f b l) := standing_append f b l [x]

/-- Nothing is written. -/
theorem standing_of_none {f : α → Option β} {l : List α} (h : ∀ x ∈ l, f x = none) (b : β) :
    standing f b l = b := by
  induction l with
  | nil => rfl
  | cons x l ih =>
    change standing f ((f x).getD b) l = b
    rw [h x List.mem_cons_self]
    exact ih fun y hy => h y (List.mem_cons_of_mem x hy)

theorem standing_congr {f g : α → Option β} {l : List α} (h : ∀ x ∈ l, f x = g x) (b : β) :
    standing f b l = standing g b l := by
  induction l generalizing b with
  | nil => rfl
  | cons x l ih =>
    change standing f ((f x).getD b) l = standing g ((g x).getD b) l
    rw [h x List.mem_cons_self]
    exact ih (fun y hy => h y (List.mem_cons_of_mem x hy)) _

/-- Only the writes of some elements. -/
theorem standing_filter (f : α → Option β) (p : α → Bool) (b : β) (l : List α) :
    standing f b (l.filter p) = standing (fun x => if p x then f x else none) b l := by
  induction l generalizing b with
  | nil => rfl
  | cons x l ih =>
    change _ = standing _ ((if p x then f x else none).getD b) l
    by_cases hp : p x = true
    · rw [List.filter_cons_of_pos hp, if_pos hp]
      exact ih _
    · rw [List.filter_cons_of_neg hp, if_neg hp]
      exact ih b

/-- Clears that only one of two runs makes show if and only if one of them meets a set bit, and
nothing behind it is written in the other run. -/
theorem standing_eq_iff {u v : α → Option Bool}
    (huv : ∀ x, v x = u x ∨ u x = none ∧ v x = some false) (b : Bool) (l : List α) :
    standing u b l = standing v b l ↔ ¬∃ pre x post, l = pre ++ x :: post ∧ u x = none ∧
      v x = some false ∧ (∀ y ∈ post, u y = none) ∧ standing u b pre = true := by
  induction l using List.reverseRecOn with
  | nil =>
    refine ⟨fun _ => ?_, fun _ => rfl⟩
    rintro ⟨pre, x, post, hsplit, -⟩
    simp at hsplit
  | append_singleton l y ih =>
    rw [standing_concat, standing_concat]
    rcases huv y with hsame | ⟨hu, hv⟩
    · cases hy : u y with
      | some c =>
        rw [hsame, hy]
        simp only [Option.getD_some, true_iff]
        rintro ⟨pre, x, post, hsplit, hx, -, hpost, -⟩
        -- the last element is written, so that it is neither the clear nor behind it
        rcases List.eq_nil_or_concat post with rfl | ⟨post', z, rfl⟩
        · have hyx := (List.append_inj' hsplit rfl).2
          rw [List.cons.inj hyx |>.1, hx] at hy
          cases hy
        · have hsplit' : l ++ [y] = (pre ++ x :: post') ++ [z] := by simpa using hsplit
          have hyz := (List.append_inj' hsplit' rfl).2
          have hz := hpost z (by simp)
          rw [List.cons.inj hyz |>.1, hz] at hy
          cases hy
      | none =>
        rw [hsame, hy]
        simp only [Option.getD_none]
        rw [ih, not_iff_not]
        constructor
        · rintro ⟨pre, x, post, rfl, hx, hvx, hpost, hpre⟩
          refine ⟨pre, x, post ++ [y], by simp, hx, hvx, ?_, hpre⟩
          intro z hz
          rcases List.mem_append.mp hz with hz | hz
          · exact hpost z hz
          · rw [List.mem_singleton.mp hz]
            exact hy
        · rintro ⟨pre, x, post, hsplit, hx, hvx, hpost, hpre⟩
          rcases List.eq_nil_or_concat post with rfl | ⟨post', z, rfl⟩
          · have hyx := (List.append_inj' hsplit rfl).2
            rw [← List.cons.inj hyx |>.1, hsame, hy] at hvx
            cases hvx
          · have hsplit' : l ++ [y] = (pre ++ x :: post') ++ [z] := by simpa using hsplit
            exact ⟨pre, x, post', (List.append_inj' hsplit' rfl).1, hx, hvx,
              fun w hw => hpost w (by simp [hw]), hpre⟩
    · rw [hu, hv]
      simp only [Option.getD_none, Option.getD_some]
      constructor
      · rintro hfalse ⟨pre, x, post, hsplit, hx, -, hpost, hpre⟩
        rcases List.eq_nil_or_concat post with rfl | ⟨post', z, rfl⟩
        · rw [(List.append_inj' hsplit rfl).1, hpre] at hfalse
          cases hfalse
        · have hsplit' : l ++ [y] = (pre ++ x :: post') ++ [z] := by simpa using hsplit
          have hl := (List.append_inj' hsplit' rfl).1
          have hnone : ∀ w ∈ x :: post', u w = none := by
            intro w hw
            rcases List.mem_cons.mp hw with rfl | hw
            · exact hx
            · exact hpost w (by simp [hw])
          rw [hl, standing_append, standing_of_none hnone, hpre] at hfalse
          cases hfalse
      · intro h
        rcases hstand : standing u b l with _ | _
        · rfl
        · exact absurd ⟨l, y, [], rfl, hu, hv, by simp, hstand⟩ h

end Standing

section Words
variable {n : ℕ}

/-- A write that keeps the bits of `keep` and sets those of `put`. -/
structure Write (n : ℕ) where
  keep : BitVec n
  put : BitVec n

def Write.apply (w : Write n) (a : BitVec n) : BitVec n := (a &&& w.keep) ||| w.put

/-- What the write makes of bit `i`, if it does not keep it. -/
def Write.bit (w : Write n) (i : ℕ) : Option Bool :=
  if w.put.getLsbD i then some true else if w.keep.getLsbD i then none else some false

theorem getLsbD_apply (w : Write n) (a : BitVec n) (i : ℕ) :
    (w.apply a).getLsbD i = (w.bit i).getD (a.getLsbD i) := by
  rw [Write.apply, Write.bit, BitVec.getLsbD_or, BitVec.getLsbD_and]
  cases w.put.getLsbD i <;> cases w.keep.getLsbD i <;> simp

/-- Bit by bit, the last write stands. -/
theorem getLsbD_foldl {α : Type} (w : α → Write n) (a : BitVec n) (l : List α) (i : ℕ) :
    (l.foldl (fun a x => (w x).apply a) a).getLsbD i =
      standing (fun x => (w x).bit i) (a.getLsbD i) l := by
  induction l generalizing a with
  | nil => rfl
  | cons x l ih =>
    rw [List.foldl_cons, ih, getLsbD_apply]
    rfl

/-- Two words agree on a mask if they do so bit by bit. -/
theorem and_eq_iff (a b mask : BitVec n) :
    a &&& mask = b &&& mask ↔ ∀ i, mask.getLsbD i = true → a.getLsbD i = b.getLsbD i := by
  constructor
  · intro h i hi
    have hbit := congrArg (·.getLsbD i) h
    simpa [BitVec.getLsbD_and, hi] using hbit
  · intro h
    apply BitVec.eq_of_getLsbD_eq
    intro i _
    rw [BitVec.getLsbD_and, BitVec.getLsbD_and]
    cases hi : mask.getLsbD i with
    | true => rw [h i hi]
    | false => simp

end Words

end Masked
