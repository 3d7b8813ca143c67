import MacSSH.Wildcards

/-! `wccheck`, the wildcard matching of file listings. It steps over a `?` without
looking whether the name has ended, and gives up at the end of the name while it
tries what stands behind a `*`. -/
namespace MacUtil
open Wildcard

/-- The inner loop at a `*`: step on until the rest of the template is accepted,
and go on from there. -/
def skipStar (check : Option (List UInt8) → Option Bool) : List UInt8 → Option Bool
  | [] => some false
  | c :: file =>
    match check (some (c :: file)) with
    | none => none
    | some true => check (some (c :: file))
    | some false => skipStar check file

/-- `wccheck` on the rest of a file name, which is `none` behind its terminator.
The result is `none` when a character behind the terminator is looked at. -/
def wccheck (file : Option (List UInt8)) (template : List UInt8) : Option Bool :=
  match template with
  | [] => file.map List.isEmpty
  | p :: template =>
    if p = 42 then
      if template = [] then some true
      else
        match file with
        | none => none
        | some file => skipStar (fun file => wccheck file template) file
    else if p = 63 then
      match file with
      | some (_ :: file) => wccheck (some file) template
      | _ => wccheck none template
    else
      match file with
      | none => none
      | some [] => some false
      | some (c :: file) => if p ≠ c then some false else wccheck (some file) template

/-- The template matches the name. -/
abbrev TemplateMatches (template file : List UInt8) : Prop := Matches 42 63 template file

/-- The result is right, and nothing behind the terminator is looked at. -/
def Checked (file template : List UInt8) : Prop :=
  ∃ b, wccheck (some file) template = some b ∧ (b = true ↔ TemplateMatches template file)

/-- What stands before some `?`, and does not end in a star, matches the name. -/
def Overrun (template file : List UInt8) : Prop :=
  ∃ u v, template = u ++ 63 :: v ∧ u.getLast? ≠ some 42 ∧ TemplateMatches u file

/-- The template ends in two stars that have to stand for nothing. -/
def StarsEmpty (template file : List UInt8) : Prop :=
  ∃ u, template = u ++ [42, 42] ∧ ¬ TemplateMatches (u ++ [63, 42]) file

section Skip
variable {check : Option (List UInt8) → Option Bool} {file s : List UInt8}

/-- The loop stops at a place where the rest is not refused. -/
theorem skipStar_stops {r : Option Bool} (h : skipStar check file = r) (hr : r ≠ some false) :
    ∃ s, s <:+ file ∧ s ≠ [] ∧ check (some s) = r := by
  induction file with
  | nil =>
    rw [skipStar] at h
    exact absurd h.symm hr
  | cons c file ih =>
    rw [skipStar] at h
    split at h
    · exact ⟨c :: file, List.suffix_refl _, List.cons_ne_nil _ _, by simp_all⟩
    · exact ⟨c :: file, List.suffix_refl _, List.cons_ne_nil _ _, h⟩
    · obtain ⟨s, hs, hne, hcheck⟩ := ih h
      exact ⟨s, hs.trans (List.suffix_cons ..), hne, hcheck⟩

/-- The loop refuses only what it refuses everywhere before the end. -/
theorem skipStar_refuses (h : skipStar check file = some false) (hs : s <:+ file) (hne : s ≠ []) :
    check (some s) = some false := by
  induction file with
  | nil => exact absurd (List.suffix_nil.mp hs) hne
  | cons c file ih =>
    rw [skipStar] at h
    split at h
    · cases h
    · rename_i htrue
      rw [htrue] at h
      cases h
    · rename_i hfalse
      rcases List.suffix_cons_iff.mp hs with rfl | hs
      · exact hfalse
      · exact ih h hs

/-- The loop accepts at a place where the rest is accepted, if it does not look
behind the terminator at a place before. -/
theorem skipStar_accepts {x : List UInt8} (hne : s ≠ []) (hs : check (some s) = some true)
    (hx : ∀ y, y ≠ [] → y <:+ x → check (some (y ++ s)) ≠ none) :
    skipStar check (x ++ s) = some true := by
  induction x with
  | nil =>
    cases s with
    | nil => exact absurd rfl hne
    | cons c s => simp only [List.nil_append, skipStar, hs]
  | cons c x ih =>
    have hrest := ih fun y hy hyx => hx y hy (hyx.trans (List.suffix_cons ..))
    have hhere := hx (c :: x) (List.cons_ne_nil _ _) (List.suffix_refl _)
    rw [List.cons_append] at hhere ⊢
    rw [skipStar]
    split
    · contradiction
    · assumption
    · exact hrest

end Skip

section Template
variable {template file s : List UInt8} {p : UInt8}

/-- What a letter that is no star does at the start of a template. -/
theorem wccheck_letter (hp : p ≠ 42) (c : UInt8) (file : List UInt8) :
    wccheck (some (c :: file)) (p :: template) =
      if p = 63 ∨ p = c then wccheck (some file) template else some false := by
  rw [wccheck, if_neg hp]
  by_cases h63 : p = 63
  · simp only [h63, true_or, if_true]
  · simp only [h63, if_false, false_or, ne_eq, ite_not]

theorem wccheck_star (ht : template ≠ []) (file : List UInt8) :
    wccheck (some file) (42 :: template) =
      skipStar (fun file => wccheck file template) file := by
  rw [wccheck, if_pos rfl, if_neg ht]

/-- Behind the terminator nothing is refused. -/
theorem wccheck_behind (template : List UInt8) : wccheck none template ≠ some false := by
  induction template with
  | nil => simp [wccheck]
  | cons p template ih =>
    rw [wccheck]
    split_ifs
    · simp
    · simp
    · exact ih
    · simp

/-- Behind the terminator only question marks and one last star are accepted. -/
theorem wccheck_behind_stars (u : List UInt8) : wccheck none (u ++ [42, 42]) = none := by
  induction u with
  | nil => rfl
  | cons p u ih =>
    have hne : u ++ [42, 42] ≠ [] := by simp
    rw [List.cons_append, wccheck, if_neg hne]
    split_ifs
    · rfl
    · exact ih
    · rfl

theorem not_overrun_nil : ¬ Overrun [] file := by
  rintro ⟨u, v, hu, -⟩
  simp at hu

/-- Behind a star a name is overrun from some place before its end. -/
theorem overrun_star_iff :
    Overrun (42 :: template) file ↔ ∃ s, s <:+ file ∧ s ≠ [] ∧ Overrun template s := by
  constructor
  · rintro ⟨u, v, htemplate, hlast, hu⟩
    cases u with
    | nil => simp at htemplate
    | cons q u =>
      obtain ⟨rfl, rfl⟩ := List.cons.inj htemplate
      -- behind the star stands a letter, so it cannot stand for all of the name
      have hlast' : u.getLast? ≠ some 42 ∧ u ≠ [] := by
        cases u with
        | nil => simp at hlast
        | cons q u => simpa using hlast
      obtain ⟨s, hs, hm⟩ := matches_star_iff.mp hu
      refine ⟨s, hs, ?_, u, v, rfl, hlast'.1, hm⟩
      apply hm.ne_nil (List.getLast_mem hlast'.2)
      intro h42
      exact hlast'.1 (h42 ▸ List.getLast?_eq_some_getLast hlast'.2)
  · rintro ⟨s, hs, hne, u, v, rfl, hlast, hu⟩
    refine ⟨42 :: u, v, rfl, ?_, matches_star_iff.mpr ⟨s, hs, hu⟩⟩
    cases u with
    | nil => exact absurd (matches_nil_iff.mp hu) hne
    | cons q u => simpa using hlast

/-- At a letter a name is overrun if it has ended before a `?`, or later. -/
theorem overrun_letter_iff (hp : p ≠ 42) :
    Overrun (p :: template) file ↔
      p = 63 ∧ file = [] ∨ ∃ c s, file = c :: s ∧ (p = 63 ∨ p = c) ∧ Overrun template s := by
  constructor
  · rintro ⟨u, v, htemplate, hlast, hu⟩
    cases u with
    | nil => exact .inl ⟨(List.cons.inj htemplate).1, matches_nil_iff.mp hu⟩
    | cons q u =>
      obtain ⟨rfl, rfl⟩ := List.cons.inj htemplate
      obtain ⟨c, s, rfl, hc, hm⟩ := (matches_letter_iff hp).mp hu
      refine .inr ⟨c, s, rfl, hc, u, v, rfl, ?_, hm⟩
      cases u with
      | nil => simp
      | cons q u => simpa using hlast
  · rintro (⟨rfl, rfl⟩ | ⟨c, s, rfl, hc, u, v, rfl, hlast, hu⟩)
    · exact ⟨[], template, rfl, by simp, .nil⟩
    · refine ⟨p :: u, v, rfl, ?_, .letter hp hc hu⟩
      cases u with
      | nil => simpa using hp
      | cons q u => simpa using hlast

/-- What is not refused is accepted and matched, or the name was overrun. -/
theorem not_refused (template file : List UInt8)
    (h : wccheck (some file) template ≠ some false) :
    wccheck (some file) template = some true ∧ TemplateMatches template file ∨
      Overrun template file := by
  induction template generalizing file with
  | nil =>
    left
    cases file with
    | nil => exact ⟨rfl, .nil⟩
    | cons c file => simp [wccheck] at h
  | cons p template ih =>
    by_cases hp : p = 42
    · subst hp
      by_cases ht : template = []
      · subst ht
        exact .inl ⟨by simp [wccheck], matches_star_iff.mpr ⟨[], List.nil_suffix, .nil⟩⟩
      · -- the loop stopped at some place before the end of the name
        rw [wccheck_star ht] at h ⊢
        obtain ⟨s, hs, hne, hcheck⟩ := skipStar_stops rfl h
        rcases ih s (hcheck ▸ h) with ⟨htrue, hm⟩ | hover
        · exact .inl ⟨hcheck ▸ htrue, matches_star_iff.mpr ⟨s, hs, hm⟩⟩
        · exact .inr (overrun_star_iff.mpr ⟨s, hs, hne, hover⟩)
    · cases file with
      | nil =>
        by_cases h63 : p = 63
        · exact .inr ((overrun_letter_iff hp).mpr (.inl ⟨h63, rfl⟩))
        · rw [wccheck, if_neg hp, if_neg h63] at h
          exact absurd rfl h
      | cons c file =>
        rw [wccheck_letter hp] at h ⊢
        by_cases hc : p = 63 ∨ p = c
        case neg =>
          rw [if_neg hc] at h
          exact absurd rfl h
        rw [if_pos hc] at h ⊢
        rcases ih file h with ⟨htrue, hm⟩ | hover
        · exact .inl ⟨htrue, .letter hp hc hm⟩
        · exact .inr ((overrun_letter_iff hp).mpr (.inr ⟨c, file, rfl, hc, hover⟩))

/-- A name that is overrun is not refused. -/
theorem overrun_not_refused (template file : List UInt8) (h : Overrun template file) :
    wccheck (some file) template ≠ some false := by
  induction template generalizing file with
  | nil => exact absurd h not_overrun_nil
  | cons p template ih =>
    by_cases hp : p = 42
    · subst hp
      obtain ⟨s, hs, hne, hover⟩ := overrun_star_iff.mp h
      have ht : template ≠ [] := by
        rintro rfl
        exact not_overrun_nil hover
      rw [wccheck_star ht]
      intro hfalse
      exact ih s hover (skipStar_refuses hfalse hs hne)
    · rcases (overrun_letter_iff hp).mp h with ⟨rfl, rfl⟩ | ⟨c, s, rfl, hc, hover⟩
      · exact wccheck_behind template
      · rw [wccheck_letter hp, if_pos hc]
        exact ih s hover

/-- Two stars at the end of an accepted template stand for at least one character. -/
theorem accepted_stars (u file : List UInt8)
    (h : wccheck (some file) (u ++ [42, 42]) = some true) :
    TemplateMatches (u ++ [63, 42]) file := by
  induction u generalizing file with
  | nil =>
    rw [List.nil_append, wccheck_star (by simp)] at h
    obtain ⟨s, hs, hne, -⟩ := skipStar_stops h (by simp)
    -- the loop has stopped, so the name is not at its end
    cases file with
    | nil => exact absurd (List.suffix_nil.mp hs) hne
    | cons c file =>
      have hrest : TemplateMatches [42] file := matches_star_iff.mpr ⟨[], List.nil_suffix, .nil⟩
      exact .letter (by decide) (.inl rfl) hrest
  | cons p u ih =>
    by_cases hp : p = 42
    · subst hp
      rw [List.cons_append, wccheck_star (by simp)] at h
      obtain ⟨s, hs, -, hcheck⟩ := skipStar_stops h (by simp)
      exact matches_star_iff.mpr ⟨s, hs, ih s hcheck⟩
    · cases file with
      | nil =>
        rw [List.cons_append, wccheck, if_neg hp] at h
        split at h
        · rw [wccheck_behind_stars] at h
          cases h
        · cases h
      | cons c file =>
        rw [List.cons_append, wccheck_letter hp] at h
        by_cases hc : p = 63 ∨ p = c
        · rw [if_pos hc] at h
          exact .letter hp hc (ih file h)
        · rw [if_neg hc] at h
          cases h

/-- A match in which two stars at the end are not both needed to be empty. -/
structure PlainMatch (template file : List UInt8) : Prop where
  matched : TemplateMatches template file
  stars : ∀ u, template = u ++ [42, 42] → TemplateMatches (u ++ [63, 42]) file

/-- Only a template of stars matches the empty name. -/
theorem stars_of_nil (h : TemplateMatches template []) : ∀ q ∈ template, q = 42 := by
  intro q hq
  by_contra hne
  exact h.ne_nil hq hne rfl

theorem nil_not_one (u : List UInt8) : ¬ TemplateMatches (u ++ [63, 42]) [] := fun h =>
  h.ne_nil (p := 63) (by simp) (by decide) rfl

/-- Stars that do not end in two are one star. -/
theorem one_star (hall : ∀ q ∈ template, q = 42) (ht : template ≠ [])
    (hend : ¬ ∃ u, template = u ++ [42, 42]) : template = [42] := by
  rcases template with _ | ⟨q, _ | ⟨r, l⟩⟩
  · exact absurd rfl ht
  · rw [hall q List.mem_cons_self]
  · exfalso
    apply hend
    refine ⟨List.replicate l.length 42, ?_⟩
    rw [List.eq_replicate_of_mem hall]
    simp [List.replicate_succ']

/-- Two stars stand for what a `?` and a star stand for. -/
theorem matches_stars {u : List UInt8} (h : TemplateMatches (u ++ [63, 42]) s) :
    TemplateMatches (u ++ [42, 42]) s := by
  obtain ⟨a, b, rfl, ha, hb⟩ := matches_append_iff.mp h
  obtain ⟨c, s, rfl, -, hb⟩ := (matches_letter_iff (by decide)).mp hb
  exact matches_append_iff.mpr ⟨a, c :: s, rfl, ha,
    matches_star_iff.mpr ⟨s, List.suffix_cons .., hb⟩⟩

/-- A plain match behind a star is one at a place before the end of the name. -/
theorem PlainMatch.behind_star (h : PlainMatch (42 :: template) file) (ht : template ≠ []) :
    ∃ s, s <:+ file ∧ s ≠ [] ∧ PlainMatch template s := by
  by_cases hend : ∃ u, template = u ++ [42, 42]
  · obtain ⟨u, rfl⟩ := hend
    obtain ⟨s, hs, hm⟩ := matches_star_iff.mp (h.stars (42 :: u) rfl)
    refine ⟨s, hs, ?_, matches_stars hm, fun u' hu' => ?_⟩
    · rintro rfl
      exact nil_not_one u hm
    · obtain rfl := List.append_cancel_right hu'
      exact hm
  · obtain ⟨s, hs, hm⟩ := matches_star_iff.mp h.matched
    by_cases hne : s = []
    · -- only one star is left of the template, and the name is not at its end
      subst hne
      obtain rfl := one_star (stars_of_nil hm) ht hend
      have hmore := h.stars [] rfl
      obtain ⟨c, s, rfl, -, -⟩ := (matches_letter_iff (by decide)).mp hmore
      refine ⟨c :: s, List.suffix_refl _, List.cons_ne_nil _ _, ?_, fun u hu => ?_⟩
      · exact matches_star_iff.mpr ⟨[], List.nil_suffix, .nil⟩
      · exact absurd ⟨u, hu⟩ hend
    · exact ⟨s, hs, hne, hm, fun u hu => absurd ⟨u, hu⟩ hend⟩

/-- Where a longer part of the name was overrun, it is matched as well: the part
of the template that matched it has a star, which takes what is more. -/
theorem PlainMatch.longer {x s : List UInt8} (h : PlainMatch template s) (hx : x ≠ [])
    (ho : Overrun template (x ++ s)) : PlainMatch template (x ++ s) := by
  obtain ⟨u, v, rfl, -, hu⟩ := ho
  have hstar : 42 ∈ u := by
    by_contra hno
    have hlong := hu.length_eq hno
    obtain ⟨a, b, rfl, ha, hb⟩ := matches_append_iff.mp h.matched
    obtain ⟨c, e, rfl, -, -⟩ := (matches_letter_iff (by decide)).mp hb
    have hshort := ha.length_eq hno
    have hpos := List.length_pos_iff.mpr hx
    simp only [List.length_append, List.length_cons] at hlong
    omega
  obtain ⟨w, r, rfl, hw⟩ := List.eq_append_cons_of_mem hstar
  refine ⟨?_, fun u' hu' => ?_⟩
  · have hm := h.matched
    rw [List.append_assoc, List.cons_append] at hm ⊢
    exact hm.absorb hw hu
  · -- the `?` stands before the two stars at the end
    obtain ⟨a, rfl⟩ : ∃ a, u' = (w ++ 42 :: r) ++ 63 :: a := by
      rcases List.append_eq_append_iff.mp hu' with ⟨a, ha, hv⟩ | ⟨a, ha, hv⟩
      · cases a with
        | nil => simp at hv
        | cons q a =>
          obtain ⟨rfl, -⟩ := List.cons.inj hv
          exact ⟨a, ha⟩
      · have hmem : (63 : UInt8) ∈ [42, 42] := hv ▸ List.mem_append_right _ List.mem_cons_self
        simp at hmem
    have hm := h.stars _ hu'
    rw [List.append_assoc, List.append_assoc, List.cons_append] at hm ⊢
    exact hm.absorb hw hu

/-- A plain match is accepted. -/
theorem PlainMatch.accepted (h : PlainMatch template file) :
    wccheck (some file) template = some true := by
  induction template generalizing file with
  | nil =>
    obtain rfl := matches_nil_iff.mp h.matched
    rfl
  | cons p template ih =>
    by_cases hp : p = 42
    · subst hp
      by_cases ht : template = []
      · subst ht
        simp [wccheck]
      rw [wccheck_star ht]
      obtain ⟨s, ⟨x, rfl⟩, hne, hm⟩ := h.behind_star ht
      apply skipStar_accepts hne (ih hm)
      intro y hy _ hnone
      -- a place where the name is overrun before is a plain match too
      have hover : Overrun template (y ++ s) := by
        rcases not_refused template (y ++ s) (by simp [hnone]) with ⟨htrue, -⟩ | ho
        · rw [hnone] at htrue
          cases htrue
        · exact ho
      have haccepted := ih (hm.longer hy hover)
      rw [hnone] at haccepted
      cases haccepted
    · obtain ⟨c, s, rfl, hc, hm⟩ := (matches_letter_iff hp).mp h.matched
      rw [wccheck_letter hp, if_pos hc]
      refine ih ⟨hm, fun u hu => ?_⟩
      have hmore := h.stars (p :: u) (by rw [hu]; rfl)
      rw [List.cons_append] at hmore
      obtain ⟨c', s', hcs, -, hm'⟩ := (matches_letter_iff hp).mp hmore
      obtain ⟨rfl, rfl⟩ := List.cons.inj hcs
      exact hm'

end Template

/-- `wccheck` is right and stays inside the name exactly when no beginning of an
unfit template that stands before a `?`, and does not end in a star, matches the
whole name already, and two stars at the end of a fit one need not be empty. -/
theorem wccheck_iff (file template : List UInt8) :
    Checked file template ↔
      (TemplateMatches template file → ¬ StarsEmpty template file) ∧
      (¬ TemplateMatches template file → ¬ Overrun template file) := by
  by_cases hm : TemplateMatches template file
  · constructor
    · rintro ⟨b, hb, hiff⟩
      refine ⟨fun _ => ?_, fun hno => absurd hm hno⟩
      rintro ⟨u, rfl, hno⟩
      rw [hiff.mpr hm] at hb
      exact hno (accepted_stars u file hb)
    · rintro ⟨hstars, -⟩
      have hplain : PlainMatch template file := by
        refine ⟨hm, fun u hu => ?_⟩
        by_contra hno
        exact hstars hm ⟨u, hu, hno⟩
      exact ⟨true, hplain.accepted, by simp [hm]⟩
  · constructor
    · rintro ⟨b, hb, hiff⟩
      refine ⟨fun h => absurd h hm, fun _ hover => ?_⟩
      have hfalse : b = false := by
        rw [← Bool.not_eq_true, hiff]
        exact hm
      exact overrun_not_refused template file hover (hfalse ▸ hb)
    · rintro ⟨-, hover⟩
      refine ⟨false, ?_, by simp [hm]⟩
      by_contra hnot
      rcases not_refused template file hnot with ⟨-, hmatch⟩ | ho
      · exact hm hmatch
      · exact hover hm ho

/-- The empty name is read past its end for `?`, and `a` is refused for `a**`. -/
theorem wccheck_end_of_name :
    ¬ Checked [] [63] ∧ TemplateMatches [97, 42, 42] [97] ∧ ¬ Checked [97] [97, 42, 42] := by
  have hm : TemplateMatches [97, 42, 42] [97] :=
    .letter (by decide) (.inr rfl) (.star [] (.star [] .nil))
  have hpast : wccheck (some []) [63] = none := rfl
  have hrefused : wccheck (some [97]) [97, 42, 42] = some false := rfl
  refine ⟨?_, hm, ?_⟩
  · rintro ⟨b, hb, -⟩
    rw [hpast] at hb
    cases hb
  · rintro ⟨b, hb, hiff⟩
    rw [hrefused] at hb
    have hfalse : b = false := (Option.some.inj hb).symm
    rw [hfalse] at hiff
    exact absurd (hiff.mpr hm) (by decide)

end MacUtil
