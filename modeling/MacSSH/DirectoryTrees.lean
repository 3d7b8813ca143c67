import Mathlib.Data.List.Basic

/-! Directory trees and relative paths. A path is taken step by step, a step down
to a named directory or up to the parent; up from the root stays there. -/
namespace DirectoryTrees

/-- What a name in a directory stands for. -/
inductive Entry (ι : Type*) where
  | folder (d : ι)
  | file (f : ι)

/-- A tree of directories over identifiers `ι`, with names `α`. -/
structure Tree (ι α : Type*) where
  root : ι
  child : ι → α → Option (Entry ι)
  parent : ι → Option ι
  parent_child : ∀ {d n e}, child d n = some (.folder e) → parent e = some d
  root_top : ∀ {d n e}, child d n = some (.folder e) → e ≠ root

inductive PathStep (α : Type*) where
  | up
  | name (n : α)
  deriving DecidableEq

namespace Tree
variable {ι α : Type*} (t : Tree ι α)

/-- The directories below the root. -/
inductive Directory : ι → Prop where
  | root : Directory t.root
  | child {d e : ι} {n : α} (hd : Directory d) (h : t.child d n = some (.folder e)) : Directory e

/-- The entry a descending path leads to. -/
def lookup (d : ι) : List α → Option (Entry ι)
  | [] => some (.folder d)
  | n :: ns =>
    match t.child d n with
    | some (.folder e) => lookup e ns
    | some (.file f) => if ns.isEmpty then some (.file f) else none
    | none => none

variable [DecidableEq ι]

def step (d : ι) : PathStep α → Option ι
  | .up => if d = t.root then some d else t.parent d
  | .name n =>
    match t.child d n with
    | some (.folder e) => some e
    | _ => none

/-- The directory a path leads to, taken from left to right. -/
def follow (d : ι) : List (PathStep α) → Option ι
  | [] => some d
  | s :: path => (t.step d s).bind fun d => follow d path

variable {t} {d : ι}

theorem follow_append (p q : List (PathStep α)) :
    t.follow d (p ++ q) = (t.follow d p).bind fun d => t.follow d q := by
  induction p generalizing d with
  | nil => rfl
  | cons s p ih =>
    simp only [List.cons_append, follow]
    cases t.step d s with
    | none => rfl
    | some e => exact ih

omit [DecidableEq ι] in
theorem Directory.up (h : t.Directory d) (hd : d ≠ t.root) :
    ∃ e, t.parent d = some e ∧ t.Directory e := by
  cases h with
  | root => exact absurd rfl hd
  | child he hc => exact ⟨_, t.parent_child hc, he⟩

/-- Steps up never fail from a directory. -/
theorem Directory.follow_ups (h : t.Directory d) (k : ℕ) :
    ∃ e, t.follow d (List.replicate k .up) = some e ∧ t.Directory e := by
  induction k generalizing d with
  | zero => exact ⟨d, rfl, h⟩
  | succ k ih =>
    rw [List.replicate_succ, follow, step]
    by_cases hd : d = t.root
    · rw [if_pos hd]
      exact ih h
    · obtain ⟨e, he, hdir⟩ := h.up hd
      rw [if_neg hd, he]
      exact ih hdir

theorem follow_ups_root (k : ℕ) : t.follow t.root (List.replicate k .up) = some t.root := by
  induction k with
  | zero => rfl
  | succ k ih =>
    rw [List.replicate_succ, follow, step, if_pos rfl]
    exact ih

/-- A descending path leads to a directory where it is looked up as one. -/
theorem follow_names (ns : List α) (d : ι) :
    t.follow d (ns.map .name) =
      match t.lookup d ns with
      | some (.folder e) => some e
      | _ => none := by
  induction ns generalizing d with
  | nil => rfl
  | cons n ns ih =>
    simp only [List.map_cons, follow, step, lookup]
    cases t.child d n with
    | none => rfl
    | some entry =>
      cases entry with
      | folder e => exact ih e
      | file f =>
        cases ns with
        | nil => rfl
        | cons m ns => rfl

end Tree

end DirectoryTrees
