import Mathlib.Data.List.Basic

/-! Templates over an alphabet with two special letters: `star` stands for any
string, `one` for any one letter, and every other letter for itself. -/
namespace Wildcard
variable {α : Type*}

/-- The template in the first list matches the whole of the second. -/
inductive Matches (star one : α) : List α → List α → Prop where
  | nil : Matches star one [] []
  | star {t l : List α} (u : List α) (h : Matches star one t l) :
      Matches star one (star :: t) (u ++ l)
  | letter {p c : α} {t l : List α} (hp : p ≠ star) (hc : p = one ∨ p = c)
      (h : Matches star one t l) : Matches star one (p :: t) (c :: l)

section Matches
variable {star one p : α} {t r l s : List α}

theorem matches_nil_iff : Matches star one [] l ↔ l = [] := by
  constructor
  · intro h
    cases h
    rfl
  · rintro rfl
    exact .nil

theorem matches_star_iff :
    Matches star one (star :: t) l ↔ ∃ s, s <:+ l ∧ Matches star one t s := by
  constructor
  · intro h
    cases h with
    | star u h => exact ⟨_, List.suffix_append .., h⟩
    | letter hp => exact absurd rfl hp
  · rintro ⟨s, ⟨u, rfl⟩, h⟩
    exact .star u h

theorem matches_letter_iff (hp : p ≠ star) :
    Matches star one (p :: t) l ↔
      ∃ c s, l = c :: s ∧ (p = one ∨ p = c) ∧ Matches star one t s := by
  constructor
  · intro h
    cases h with
    | star => exact absurd rfl hp
    | letter _ hc h => exact ⟨_, _, rfl, hc, h⟩
  · rintro ⟨c, s, rfl, hc, h⟩
    exact .letter hp hc h

/-- The parts of a template match parts of the string. -/
theorem matches_append_iff :
    Matches star one (t ++ r) l ↔
      ∃ a b, l = a ++ b ∧ Matches star one t a ∧ Matches star one r b := by
  induction t generalizing l with
  | nil =>
    simp only [List.nil_append, matches_nil_iff]
    constructor
    · exact fun h => ⟨[], l, rfl, rfl, h⟩
    · rintro ⟨a, b, rfl, rfl, h⟩
      exact h
  | cons p t ih =>
    rw [List.cons_append]
    by_cases hp : p = star
    · subst hp
      simp only [matches_star_iff, ih]
      constructor
      · rintro ⟨s, ⟨u, rfl⟩, a, b, rfl, ha, hb⟩
        exact ⟨u ++ a, b, by rw [List.append_assoc], ⟨a, List.suffix_append .., ha⟩, hb⟩
      · rintro ⟨a, b, rfl, ⟨s, ⟨u, rfl⟩, hs⟩, hb⟩
        exact ⟨s ++ b, ⟨u, by rw [List.append_assoc]⟩, s, b, rfl, hs, hb⟩
    · simp only [matches_letter_iff hp, ih]
      constructor
      · rintro ⟨c, s, rfl, hc, a, b, rfl, ha, hb⟩
        exact ⟨c :: a, b, rfl, ⟨c, a, rfl, hc, ha⟩, hb⟩
      · rintro ⟨a, b, rfl, ⟨c, s, rfl, hc, hs⟩, hb⟩
        exact ⟨c, s ++ b, rfl, hc, s, b, rfl, hs, hb⟩

/-- A template without a star matches strings of its own length. -/
theorem Matches.length_eq (h : Matches star one t l) (hs : star ∉ t) : l.length = t.length := by
  induction h with
  | nil => rfl
  | star u _ _ => exact absurd List.mem_cons_self hs
  | letter hp hc h ih =>
    simp only [List.length_cons, ih fun hm => hs (List.mem_cons_of_mem _ hm)]

/-- A template with a letter that is no star matches no empty string. -/
theorem Matches.ne_nil (h : Matches star one t l) (hp : p ∈ t) (hs : p ≠ star) : l ≠ [] := by
  induction h with
  | nil => cases hp
  | star u _ ih =>
    have hmem := (List.mem_cons.mp hp).resolve_left hs
    intro hnil
    exact ih hmem (List.append_eq_nil_iff.mp hnil).2
  | letter => exact List.cons_ne_nil _ _

/-- A longer string that begins like the template is matched too: the first star
takes what is more. -/
theorem Matches.absorb {w : List α} {r' x : List α} (hw : star ∉ w)
    (h : Matches star one (w ++ star :: r) s)
    (hx : Matches star one (w ++ star :: r') (x ++ s)) :
    Matches star one (w ++ star :: r) (x ++ s) := by
  obtain ⟨a, b, rfl, ha, hb⟩ := matches_append_iff.mp h
  obtain ⟨a', b', hl, ha', -⟩ := matches_append_iff.mp hx
  obtain ⟨e, he, hr⟩ := matches_star_iff.mp hb
  have hlen : a'.length = a.length := (ha'.length_eq hw).trans (ha.length_eq hw).symm
  -- what the star took of the shorter string ends the longer one as well
  have hsuffix : e <:+ b' := by
    have hall : e <:+ a' ++ b' := by
      rw [← hl, ← List.append_assoc]
      exact he.trans (List.suffix_append ..)
    apply List.suffix_of_suffix_length_le hall (List.suffix_append ..)
    have hb' := congrArg List.length hl
    simp only [List.length_append] at hb'
    have := he.length_le
    omega
  rw [hl]
  exact matches_append_iff.mpr ⟨a', b', rfl, ha', matches_star_iff.mpr ⟨e, hsuffix, hr⟩⟩

end Matches

end Wildcard
