import MacSSH.ScreenLines
import Mathlib.Logic.Function.Basic

/-! The table of virtual screens. The screen routines work on a current screen
that `VSvalids` sets: its number `VSIwn` and its structure `VSIw` are kept beside
the table, and a call for the number that is already set is not checked again. -/
namespace ScreenTable

open VS

/-- A slot of the table; it is in use when `stat` is 1. -/
structure VSscrndata where
  loc : Ptr
  stat : Int
  captureRN : Int
  deriving DecidableEq, Repr

/-- The globals of the table. `VSscreens` is the memory from the table's address
on: only the slots from 0 below `VSmax` belong to it. -/
structure Screens where
  VSmax : Int
  VSinuse : Int
  VSscreens : Int → VSscrndata
  VSIwn : Int
  VSIw : Ptr

/-- Make room for `max` screens. -/
def VSinit (s : Screens) (max : Int) : Screens :=
  { s with
    VSmax := max
    VSIwn := 0
    VSscreens := fun i =>
      if 0 ≤ i ∧ i < max then { s.VSscreens i with loc := NULL, stat := 0 } else s.VSscreens i }

/-- Check a screen number and make it the current screen. -/
def VSvalids (s : Screens) (w : Int) : Int × Screens :=
  if s.VSinuse = 0 then (-5, s)
  else if s.VSIwn = w then (0, s)
  else if w > s.VSmax ∨ w < 0 then (-6, s)
  else
    let s := { s with VSIwn := w }
    if (s.VSscreens w).stat ≠ 1 then (-3, s)
    else
      let s := { s with VSIw := (s.VSscreens w).loc }
      if s.VSIw = NULL then (-3, s) else (0, s)

/-- The first slot from `i` on that is not in use, or `VSmax`. -/
def firstUnused (s : Screens) : ℕ → Int → Int
  | 0, i => i
  | fuel+1, i => if i < s.VSmax ∧ (s.VSscreens i).stat = 1 then firstUnused s fuel (i+1) else i

def setSlot (s : Screens) (i : Int) (d : VSscrndata) : Screens :=
  { s with VSscreens := Function.update s.VSscreens i d }

/-- The pointers asked for after the screen structure: the row array, the attribute
array of an old scrollback, the tabs, the lines, and the attribute lines. -/
def requests (oldScrollback : Bool) : ℕ := if oldScrollback then 5 else 3

/-- Create a screen in an unused slot. `granted` are the pointers that the memory
requests get, the structure's first. -/
def VSnewscreen (s : Screens) (oldScrollback : Bool) (granted : List Ptr) : Int × Screens :=
  if s.VSinuse ≥ s.VSmax then (-1, s)
  else
    let n := firstUnused s s.VSmax.toNat 0
    let s := { s with VSIwn := n }
    if n ≥ s.VSmax then (-1, s)
    else
      let loc := granted.headD NULL
      let s := { setSlot s n { s.VSscreens n with loc := loc } with VSIw := loc }
      if loc = NULL then (-2, s)
      else if ∃ i < requests oldScrollback, granted.getD (i+1) NULL = NULL then
        (-2, { setSlot s n { s.VSscreens n with loc := NULL } with VSIw := NULL })
      else
        (n, { setSlot s n { s.VSscreens n with captureRN := 0, stat := 1 } with
          VSinuse := short (s.VSinuse+1) })

/-- Give up a screen. -/
def VSdestroy (s : Screens) (w : Int) : Int × Screens :=
  let r := VSvalids s w
  if r.1 ≠ 0 then (-3, r.2)
  else
    let s := r.2
    (0, { setSlot s w { s.VSscreens w with stat := 0 } with
      VSIwn := -1, VSinuse := short (s.VSinuse-1) })

inductive TableOp where
  | newscreen (oldScrollback : Bool) (granted : List Ptr)
  | destroy (w : Int)
  | valids (w : Int)

def TableOp.apply (s : Screens) : TableOp → Screens
  | newscreen oldScrollback granted => (VSnewscreen s oldScrollback granted).2
  | destroy w => (VSdestroy s w).2
  | valids w => (VSvalids s w).2

/-- Slot `w` is in the table and in use. -/
def InUse (s : Screens) (w : Int) : Prop := 0 ≤ w ∧ w < s.VSmax ∧ (s.VSscreens w).stat = 1

/-- The number `w` is refused before the current screen is touched, or names a
screen: there is no screen at all, or `w` is outside of the table and not the
current number, or slot `w` is in use. -/
def Names (s : Screens) (w : Int) : Prop :=
  s.VSinuse = 0 ∨ (w ≠ s.VSIwn ∧ (w < 0 ∨ s.VSmax < w)) ∨ InUse s w

/-- The table after any calls. -/
inductive Run : Screens → Prop
  | start (s : Screens) (max : Int) : s.VSinuse = 0 → Run (VSinit s max)
  | call {s : Screens} (op : TableOp) : Run s → Run (op.apply s)

/-- What a call of `VSvalids` promises: on success the slot is in use and holds
the current screen, and an error leaves the current screen as it was. -/
structure Coherent (s : Screens) (w : Int) : Prop where
  valid : (VSvalids s w).1 = 0 → InUse (VSvalids s w).2 w ∧
    (VSvalids s w).2.VSIw = ((VSvalids s w).2.VSscreens w).loc
  error : (VSvalids s w).1 ≠ 0 →
    (VSvalids s w).2.VSIwn = s.VSIwn ∧ (VSvalids s w).2.VSIw = s.VSIw

/-- The current number, when it is in use, has the current structure, and slots
in use have a structure. -/
structure Current (s : Screens) : Prop where
  structure_eq : InUse s s.VSIwn → s.VSIw = (s.VSscreens s.VSIwn).loc
  allocated : ∀ i, InUse s i → (s.VSscreens i).loc ≠ NULL

section Calls
variable {s : Screens} {w : Int}

/-- The ways a call of `VSvalids` ends. -/
theorem VSvalids_cases (s : Screens) (w : Int) :
    (s.VSinuse = 0 ∧ VSvalids s w = (-5, s)) ∨
      (s.VSinuse ≠ 0 ∧ s.VSIwn = w ∧ VSvalids s w = (0, s)) ∨
      (s.VSIwn ≠ w ∧ (w > s.VSmax ∨ w < 0) ∧ VSvalids s w = (-6, s)) ∨
      (s.VSIwn ≠ w ∧ s.VSinuse ≠ 0 ∧ 0 ≤ w ∧ w ≤ s.VSmax ∧ (s.VSscreens w).stat ≠ 1 ∧
        VSvalids s w = (-3, { s with VSIwn := w })) ∨
      (s.VSIwn ≠ w ∧ s.VSinuse ≠ 0 ∧ 0 ≤ w ∧ w ≤ s.VSmax ∧ (s.VSscreens w).stat = 1 ∧
        VSvalids s w = (if (s.VSscreens w).loc = NULL then -3 else 0,
          { s with VSIwn := w, VSIw := (s.VSscreens w).loc })) := by
  by_cases h0 : s.VSinuse = 0
  · exact Or.inl ⟨h0, by rw [VSvalids, if_pos h0]⟩
  by_cases h1 : s.VSIwn = w
  · exact Or.inr (Or.inl ⟨h0, h1, by rw [VSvalids, if_neg h0, if_pos h1]⟩)
  by_cases h2 : w > s.VSmax ∨ w < 0
  · exact Or.inr (Or.inr (Or.inl ⟨h1, h2, by rw [VSvalids, if_neg h0, if_neg h1, if_pos h2]⟩))
  have hlow : 0 ≤ w := by omega
  have hhigh : w ≤ s.VSmax := by omega
  by_cases h3 : (s.VSscreens w).stat ≠ 1
  · refine Or.inr (Or.inr (Or.inr (Or.inl ⟨h1, h0, hlow, hhigh, h3, ?_⟩)))
    simp only [VSvalids, if_neg h0, if_neg h1, if_neg h2, if_pos h3]
  · refine Or.inr (Or.inr (Or.inr (Or.inr ⟨h1, h0, hlow, hhigh, not_not.mp h3, ?_⟩)))
    simp only [VSvalids, if_neg h0, if_neg h1, if_neg h2, if_neg h3]
    split_ifs <;> rfl

theorem coherent_of_refused {e : Int} (he : e ≠ 0) (hr : VSvalids s w = (e, s)) :
    Coherent s w := by
  refine ⟨fun hz => ?_, fun _ => ?_⟩ <;> rw [hr] at *
  · exact absurd hz he
  · exact ⟨rfl, rfl⟩

theorem not_coherent_of_changed {e : Int} {t : Screens} (he : e ≠ 0) (ht : t.VSIwn ≠ s.VSIwn)
    (hr : VSvalids s w = (e, t)) : ¬Coherent s w := by
  intro hc
  have herr := hc.error (by rw [hr]; exact he)
  rw [hr] at herr
  exact ht herr.1

/-- A state that differs from a right one in slot `n` alone. -/
theorem Current.of_slot {t : Screens} (h : Current s) (n : Int) (hmax : t.VSmax = s.VSmax)
    (hother : ∀ i ≠ n, t.VSscreens i = s.VSscreens i)
    (hcur : t.VSIwn = n ∨ ¬InUse t t.VSIwn)
    (hn : InUse t n → t.VSIw = (t.VSscreens n).loc ∧ (t.VSscreens n).loc ≠ NULL) :
    Current t := by
  refine ⟨?_, ?_⟩
  · intro hi
    have he := hcur.resolve_right (not_not.mpr hi)
    rw [he] at hi ⊢
    exact (hn hi).1
  · intro i hi
    by_cases hin : i = n
    · rw [hin] at hi ⊢
      exact (hn hi).2
    · have hi' : InUse s i := by
        obtain ⟨h0, h1, h2⟩ := hi
        rw [hmax] at h1
        rw [hother i hin] at h2
        exact ⟨h0, h1, h2⟩
      rw [hother i hin]
      exact h.allocated i hi'

theorem VSvalids_current (h : Current s) (w : Int) : Current (VSvalids s w).2 := by
  rcases VSvalids_cases s w with ⟨-, hr⟩ | ⟨-, -, hr⟩ | ⟨-, -, hr⟩ | ⟨-, -, -, -, hst, hr⟩ |
    ⟨-, -, -, -, -, hr⟩ <;> rw [hr]
  · exact h
  · exact h
  · exact h
  · -- the number is set although its slot is not in use
    exact ⟨fun hi => absurd hi.2.2 hst, h.allocated⟩
  · exact ⟨fun _ => rfl, h.allocated⟩

theorem VSdestroy_current (h : Current s) (w : Int) : Current (VSdestroy s w).2 := by
  have hv := VSvalids_current h w
  simp only [VSdestroy]
  generalize VSvalids s w = r at hv
  split_ifs
  · exact hv
  · apply hv.of_slot w
    · rfl
    · intro i hi
      exact Function.update_of_ne hi _ _
    · refine Or.inr (fun hi => ?_)
      have hneg : (0 : Int) ≤ -1 := hi.1
      omega
    · intro hi
      have hst := hi.2.2
      simp [setSlot] at hst

theorem firstUnused_unused (s : Screens) (fuel : ℕ) (i : Int) (hi : 0 ≤ i)
    (hf : s.VSmax ≤ i+fuel) :
    s.VSmax ≤ firstUnused s fuel i ∨
      (0 ≤ firstUnused s fuel i ∧ (s.VSscreens (firstUnused s fuel i)).stat ≠ 1) := by
  induction fuel generalizing i with
  | zero => exact Or.inl (by rw [firstUnused]; omega)
  | succ fuel ih =>
    rw [firstUnused]
    split_ifs with hu
    · exact ih (i+1) (by omega) (by omega)
    · by_cases hlt : i < s.VSmax
      · exact Or.inr ⟨hi, fun hst => hu ⟨hlt, hst⟩⟩
      · exact Or.inl (by omega)

theorem VSnewscreen_current (h : Current s) (oldScrollback : Bool) (granted : List Ptr) :
    Current (VSnewscreen s oldScrollback granted).2 := by
  have hfree := firstUnused_unused s s.VSmax.toNat 0 le_rfl (by omega)
  simp only [VSnewscreen]
  generalize firstUnused s s.VSmax.toNat 0 = n at hfree
  split_ifs with hfull hmax hloc hreq
  · exact h
  · exact ⟨fun hi => absurd hi.2.1 (by simp only; omega), h.allocated⟩
  all_goals
    have hst : (s.VSscreens n).stat ≠ 1 := (hfree.resolve_left (by omega)).2
    refine h.of_slot n rfl ?_ (Or.inl rfl) ?_
  -- in each case no other slot is touched
  · intro i hi
    exact Function.update_of_ne hi _ _
  · intro hi
    have hst' := hi.2.2
    simp only [setSlot, Function.update_self] at hst'
    exact absurd hst' hst
  · intro i hi
    simp only [setSlot, Function.update_of_ne hi]
  · intro hi
    have hst' := hi.2.2
    simp only [setSlot, Function.update_self] at hst'
    exact absurd hst' hst
  · intro i hi
    simp only [setSlot, Function.update_of_ne hi]
  · intro hi
    simp only [setSlot, Function.update_self]
    exact ⟨trivial, hloc⟩

end Calls

theorem current_run {s : Screens} (h : Run s) : Current s := by
  induction h with
  | start s max _ =>
    have hnone (i : Int) : ¬InUse (VSinit s max) i := by
      intro hi
      obtain ⟨h0, h1, h2⟩ := hi
      simp only [VSinit] at h1 h2
      rw [if_pos ⟨h0, h1⟩] at h2
      exact zero_ne_one h2
    exact ⟨fun hi => absurd hi (hnone _), fun i hi => absurd hi (hnone i)⟩
  | call op _ ih =>
    cases op with
    | newscreen oldScrollback granted => exact VSnewscreen_current ih oldScrollback granted
    | destroy w => exact VSdestroy_current ih w
    | valids w => exact VSvalids_current ih w

/-- After any calls, a call of `VSvalids` keeps its promise for exactly the numbers
that are refused at once or name a screen. For others it reports success, or an
error after having changed the current number. -/
theorem screen_calls_coherent_iff (s : Screens) (h : Run s) (w : Int) :
    Coherent s w ↔ Names s w := by
  have hc := current_run h
  rcases VSvalids_cases s w with ⟨h0, hr⟩ | ⟨h0, hw, hr⟩ | ⟨hw, hout, hr⟩ |
    ⟨hw, h0, hlow, hhigh, hst, hr⟩ | ⟨hw, h0, hlow, hhigh, hst, hr⟩
  · exact iff_of_true (coherent_of_refused (by decide) hr) (Or.inl h0)
  · -- the number is current: nothing is checked
    constructor
    · intro hco
      have hv := hco.valid (by rw [hr])
      rw [hr] at hv
      exact Or.inr (Or.inr hv.1)
    · intro hn
      have hin : InUse s w := (hn.resolve_left h0).resolve_left (fun hne => hne.1 hw.symm)
      refine ⟨?_, ?_⟩ <;> rw [hr]
      · intro _
        rw [← hw] at hin ⊢
        exact ⟨hin, hc.structure_eq hin⟩
      · intro hne
        exact absurd rfl hne
  · exact iff_of_true (coherent_of_refused (by decide) hr)
      (Or.inr (Or.inl ⟨Ne.symm hw, hout.symm⟩))
  · refine iff_of_false (not_coherent_of_changed (by decide) (Ne.symm hw) hr) ?_
    rintro (hz | ⟨-, hout⟩ | hin)
    · exact h0 hz
    · omega
    · exact hst hin.2.2
  · by_cases hmax : w < s.VSmax
    · have hin : InUse s w := ⟨hlow, hmax, hst⟩
      have hloc := hc.allocated w hin
      rw [if_neg hloc] at hr
      refine iff_of_true ⟨?_, ?_⟩ (Or.inr (Or.inr hin)) <;> rw [hr]
      · exact fun _ => ⟨hin, rfl⟩
      · intro hne
        exact absurd rfl hne
    · -- the slot behind the table is read
      refine iff_of_false ?_ ?_
      · by_cases hloc : (s.VSscreens w).loc = NULL
        · rw [if_pos hloc] at hr
          exact not_coherent_of_changed (by decide) (Ne.symm hw) hr
        · intro hco
          have hv := (hco.valid (by rw [hr, if_neg hloc])).1
          rw [hr] at hv
          exact hmax hv.2.1
      · rintro (hz | ⟨-, hout⟩ | hin)
        · exact h0 hz
        · omega
        · exact hmax hin.2.1

/-- A table of two slots with a screen in the first. -/
def oneScreen : Screens :=
  (VSnewscreen (VSinit ⟨0, 0, fun _ => ⟨0, 0, 0⟩, 0, 0⟩ 2) false [8, 16, 24, 32]).2

theorem oneScreen_run : Run oneScreen :=
  Run.call (.newscreen false [8, 16, 24, 32]) (Run.start ⟨0, 0, fun _ => ⟨0, 0, 0⟩, 0, 0⟩ 2 rfl)

/-- The screen that was created is found, and the unused slot is not. -/
theorem screen_calls_coherent_one_screen : Coherent oneScreen 0 ∧ ¬Coherent oneScreen 1 := by
  refine ⟨(screen_calls_coherent_iff _ oneScreen_run 0).mpr ?_,
    fun hc => absurd ((screen_calls_coherent_iff _ oneScreen_run 1).mp hc) ?_⟩
  · exact Or.inr (Or.inr ⟨by decide, by decide, by decide⟩)
  · rintro (h | ⟨-, h⟩ | ⟨-, -, h⟩) <;> revert h <;> decide

/-- A call for an unused slot changes the current number, and the same call made
again reports success. -/
theorem unused_slot_becomes_valid :
    Run oneScreen ∧ ¬Coherent oneScreen 1 ∧ ¬Coherent (VSvalids oneScreen 1).2 1 := by
  refine ⟨oneScreen_run, fun h => ?_, fun h => ?_⟩
  · exact absurd (h.error (by decide)).1 (by decide)
  · exact absurd (h.valid (by decide)).1.2.2 (by decide)

end ScreenTable
