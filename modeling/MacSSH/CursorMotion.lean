import MacSSH.ScrollRegion

/-! Relative motions of the cursor against their counts in unbounded arithmetic. -/
namespace VS

open Linked

variable {τ : Type}

/-- The count that the digits of a parameter ask for; missing and zero are one. -/
def askedCount (ds : List UInt8) : ℕ := if decimal ds = 0 then 1 else decimal ds

/-- The count that the code reads. -/
def readCount (ds : List UInt8) : Int := lineCount (numeral ds)

/-- The cursor is on a screen of legal margins, in 16 bits. -/
structure CursorOnScreen (e : Emulation τ) : Prop where
  margins : LegalMargins e
  lines : e.buf.lines ≤ 32767
  row : 0 ≤ e.y ∧ e.y ≤ e.buf.lines
  column : 0 ≤ e.x ∧ e.x ≤ 32767
  width : 0 ≤ e.maxwidth ∧ e.maxwidth ≤ 32767

/-- Rows and columns that a motion by `n` leads to. -/
def upRow (e : Emulation τ) (n : Int) : Int :=
  if e.top ≤ e.y then max e.top (e.y-n) else max 0 (e.y-n)

def downRow (e : Emulation τ) (n : Int) : Int :=
  if e.y ≤ e.bottom then min e.bottom (e.y+n) else min e.buf.lines (e.y+n)

def rightColumn (e : Emulation τ) (n : Int) : Int := min e.lastColumn (e.x+n)

def leftColumn (e : Emulation τ) (n : Int) : Int := max 0 (e.x-n)

/-- The four motions with this parameter lead where they should; right and left without
autowrap. -/
structure MovesCursor (before : UInt8) (e : Emulation τ) (ds : List UInt8) : Prop where
  up : ∃ e', Emulation.VSem before e (csiText [ds] 0x41) = some e' ∧ e'.y = upRow e (askedCount ds)
  down : ∃ e', Emulation.VSem before e (csiText [ds] 0x42) = some e' ∧
    e'.y = downRow e (askedCount ds)
  right : e.DECAWM = false → ∃ e', Emulation.VSem before e (csiText [ds] 0x43) = some e' ∧
    e'.x = rightColumn e (askedCount ds)
  left : e.DECAWM = false → ∃ e', Emulation.VSem before e (csiText [ds] 0x44) = some e' ∧
    e'.x = leftColumn e (askedCount ds)

/-- Up and down, the cursor is on the inner side of the margin that it moves to. A count
beyond 16 bits must still be read as one that leads to the margin or the edge, and none may
lead beyond 16 bits. -/
structure MotionsFit (e : Emulation τ) (ds : List UInt8) : Prop where
  up : e.top ≤ e.y ∧ (askedCount ds ≤ 32767 ∨ e.y-readCount ds ≤ e.top)
  down : e.y ≤ e.bottom ∧ e.y+readCount ds ≤ 32767 ∧
    (askedCount ds ≤ 32767 ∨ e.bottom ≤ e.y+readCount ds)
  right : e.DECAWM = false → e.lastColumn ≤ 0 ∨ e.x+readCount ds ≤ 32767 ∧
    (askedCount ds ≤ 32767 ∨ e.lastColumn ≤ e.x+readCount ds)
  left : e.DECAWM = false → 0 ≤ e.lastColumn ∧
    (askedCount ds ≤ 32767 ∧ e.x-askedCount ds ≤ e.lastColumn ∨
      32767 < askedCount ds ∧ (e.x ≤ readCount ds ∨ e.lastColumn = 0))

section Counts
variable {ds : List UInt8}

theorem askedCount_pos (ds : List UInt8) : 1 ≤ askedCount ds := by
  rw [askedCount]
  split_ifs <;> omega

theorem readCount_range (ds : List UInt8) : 1 ≤ readCount ds ∧ readCount ds ≤ 32767 := by
  have hrange := numeral_range ds
  rw [readCount, lineCount]
  split_ifs <;> omega

theorem readCount_eq (hds : ∀ c ∈ ds, IsDigit c) (h : askedCount ds ≤ 32767) :
    readCount ds = askedCount ds := by
  rw [askedCount] at h ⊢
  rw [readCount, lineCount]
  by_cases hzero : decimal ds = 0
  · rw [if_pos (numeral_of_zero hds hzero), if_pos hzero]
    rfl
  · rw [if_neg hzero] at h
    have hread := numeral_eq hds (nonempty_of_decimal hzero) h
    rw [if_neg (by omega), if_neg hzero, hread]

end Counts

section Motions
variable (e : Emulation τ)

theorem lastColumn_range (hwidth : 0 ≤ e.maxwidth ∧ e.maxwidth ≤ 32767) :
    -1 ≤ e.lastColumn ∧ e.lastColumn ≤ 32767 := by
  rw [VSscrn.lastColumn]
  simp only [Int.shiftRight_eq_div_pow]
  split_ifs <;> omega

theorem VSIrange_y (hlines : 0 ≤ e.buf.lines) :
    e.VSIrange.y = min e.buf.lines (max 0 e.y) := by
  simp only [Emulation.VSIrange]
  split_ifs <;> omega

theorem VSIrange_x (hawm : e.DECAWM = false) (hmw : -1 ≤ e.lastColumn ∧ e.lastColumn ≤ 32767) :
    e.VSIrange.x = min e.lastColumn (max 0 e.x) := by
  have hshort : short (e.lastColumn+0) = e.lastColumn := by
    rw [Int.add_zero]
    exact short_eq (by omega) (by omega)
  simp only [Emulation.VSIrange, hawm, Bool.false_eq_true, if_false, hshort]
  split_ifs <;> omega

theorem cursorUp_y (hlines : 0 ≤ e.buf.lines) : e.cursorUp.y =
    min e.buf.lines (max 0 (max e.top (max 0 (short (e.y-lineCount (e.parms 0)))))) := by
  have hclamp (y : Int) : (if (if y < 0 then 0 else y) < e.top then e.top
      else if y < 0 then 0 else y) = max e.top (max 0 y) := by
    split_ifs <;> omega
  rw [← hclamp]
  exact VSIrange_y { e with y := _ } hlines

theorem cursorDown_y (hlines : 0 ≤ e.buf.lines) : e.cursorDown.y =
    min e.buf.lines (max 0 (min e.bottom (short (e.y+lineCount (e.parms 0))))) := by
  have hclamp (y : Int) : (if y > e.bottom then e.bottom else y) = min e.bottom y := by
    split_ifs <;> omega
  rw [← hclamp]
  exact VSIrange_y { e with y := _ } hlines

theorem cursorRight_x (hawm : e.DECAWM = false)
    (hmw : -1 ≤ e.lastColumn ∧ e.lastColumn ≤ 32767) : (e.cursorRight e.lastColumn).x =
      min e.lastColumn (max 0 (short (e.x+lineCount (e.parms 0)))) := by
  have hnowrap : ¬(e.DECAWM = true ∧ e.x ≥ e.lastColumn) := by
    rw [hawm]
    simp
  have hclamp (x : Int) (hx : x ≤ e.lastColumn) : (if x > e.lastColumn then e.lastColumn else x) =
      x := if_neg (by omega)
  have hx := VSIrange_x { e with x := short (e.x+lineCount (e.parms 0)) } hawm hmw
  rw [Emulation.cursorRight, if_neg hnowrap]
  refine (hclamp _ ?_).trans hx
  exact le_of_eq_of_le hx (min_le_left _ _)

theorem cursorLeft_x (hawm : e.DECAWM = false)
    (hmw : -1 ≤ e.lastColumn ∧ e.lastColumn ≤ 32767) : (e.cursorLeft e.lastColumn).x =
      min e.lastColumn (max 0 (short (e.x-lineCount (e.parms 0)))) := by
  have hnowrap : ¬(e.DECAWM = true ∧ e.x ≤ 0) := by
    rw [hawm]
    simp
  rw [Emulation.cursorLeft, if_neg hnowrap]
  exact VSIrange_x { e with x := short (e.x-lineCount (e.parms 0)) } hawm hmw

end Motions

section Counted
variable {before : UInt8} {e : Emulation τ} {ds : List UInt8}

/-- A motion in a chunk of its own. -/
theorem VSem_motion (before : UInt8) (hground : e.Ground) (hds : ∀ c ∈ ds, IsDigit c)
    {final : UInt8} (move : Emulation τ → Emulation τ) (P : Int → Int → Prop)
    (hfinal : (e.withParms [numeral ds]).csi repeated e.lastColumn 0 final =
      .shortCut (move (e.withParms [numeral ds]))) :
    (∃ e', Emulation.VSem before e (csiText [ds] final) = some e' ∧ P e'.x e'.y) ↔
      P (move (e.withParms [numeral ds])).x (move (e.withParms [numeral ds])).y := by
  have hne : [ds] ≠ [] := List.cons_ne_nil _ _
  have hrun := VSem_csiText before hground hne (by simp) (by simpa using hds) hfinal
  obtain ⟨force, hended⟩ := ended_form (move (e.withParms [numeral ds])) final
  rw [hrun, hended]
  constructor
  · rintro ⟨e', he, h⟩
    rw [← Option.some.inj he] at h
    exact h
  · intro h
    exact ⟨_, rfl, h⟩

theorem withParms_count (e : Emulation τ) (ds : List UInt8) :
    lineCount ((e.withParms [numeral ds]).parms 0) = readCount ds := rfl

theorem up_iff (hground : e.Ground) (he : CursorOnScreen e) (hds : ∀ c ∈ ds, IsDigit c) :
    (∃ e', Emulation.VSem before e (csiText [ds] 0x41) = some e' ∧
        e'.y = upRow e (askedCount ds)) ↔
      e.top ≤ e.y ∧ (askedCount ds ≤ 32767 ∨ e.y-readCount ds ≤ e.top) := by
  obtain ⟨⟨htop, horder, hbottom⟩, hlines, ⟨hy0, hy⟩, -, -⟩ := he
  obtain ⟨hc0, hc⟩ := readCount_range ds
  have hn := askedCount_pos ds
  have hend := cursorUp_y (e.withParms [numeral ds]) (by change 0 ≤ e.buf.lines; omega)
  rw [withParms_count] at hend
  change _ = min e.buf.lines (max 0 (max e.top (max 0 (short (e.y-readCount ds))))) at hend
  rw [short_eq (by omega) (by omega)] at hend
  rw [VSem_motion before hground hds Emulation.cursorUp
      (fun _ y => y = upRow e (askedCount ds)) rfl, hend, upRow]
  rcases Nat.lt_or_ge 32767 (askedCount ds) with hbig | hsmall
  · split_ifs <;> omega
  · rw [readCount_eq hds hsmall]
    split_ifs <;> omega

theorem down_iff (hground : e.Ground) (he : CursorOnScreen e) (hds : ∀ c ∈ ds, IsDigit c) :
    (∃ e', Emulation.VSem before e (csiText [ds] 0x42) = some e' ∧
        e'.y = downRow e (askedCount ds)) ↔
      e.y ≤ e.bottom ∧ e.y+readCount ds ≤ 32767 ∧
        (askedCount ds ≤ 32767 ∨ e.bottom ≤ e.y+readCount ds) := by
  obtain ⟨⟨htop, horder, hbottom⟩, hlines, ⟨hy0, hy⟩, -, -⟩ := he
  obtain ⟨hc0, hc⟩ := readCount_range ds
  have hn := askedCount_pos ds
  have hend := cursorDown_y (e.withParms [numeral ds]) (by change 0 ≤ e.buf.lines; omega)
  rw [withParms_count] at hend
  change _ = min e.buf.lines (max 0 (min e.bottom (short (e.y+readCount ds)))) at hend
  rw [VSem_motion before hground hds Emulation.cursorDown
      (fun _ y => y = downRow e (askedCount ds)) rfl,
    hend, downRow]
  have hshort : short (e.y+readCount ds) =
      if e.y+readCount ds ≤ 32767 then e.y+readCount ds else e.y+readCount ds-65536 := by
    rw [short, Int.bmod_def]
    split_ifs <;> omega
  rw [hshort]
  rcases Nat.lt_or_ge 32767 (askedCount ds) with hbig | hsmall
  · split_ifs <;> omega
  · rw [readCount_eq hds hsmall]
    split_ifs <;> omega

theorem right_iff (hground : e.Ground) (he : CursorOnScreen e) (hawm : e.DECAWM = false)
    (hds : ∀ c ∈ ds, IsDigit c) :
    (∃ e', Emulation.VSem before e (csiText [ds] 0x43) = some e' ∧
        e'.x = rightColumn e (askedCount ds)) ↔
      e.lastColumn ≤ 0 ∨ e.x+readCount ds ≤ 32767 ∧
        (askedCount ds ≤ 32767 ∨ e.lastColumn ≤ e.x+readCount ds) := by
  obtain ⟨-, -, -, ⟨hx0, hx⟩, hwidth⟩ := he
  obtain ⟨hc0, hc⟩ := readCount_range ds
  have hn := askedCount_pos ds
  have hmw := lastColumn_range e hwidth
  have hend := cursorRight_x (e.withParms [numeral ds]) hawm hmw
  rw [withParms_count] at hend
  change ((e.withParms [numeral ds]).cursorRight e.lastColumn).x =
    min e.lastColumn (max 0 (short (e.x+readCount ds))) at hend
  rw [VSem_motion before hground hds (·.cursorRight e.lastColumn)
    (fun x _ => x = rightColumn e (askedCount ds)) rfl, hend, rightColumn]
  have hshort : short (e.x+readCount ds) =
      if e.x+readCount ds ≤ 32767 then e.x+readCount ds else e.x+readCount ds-65536 := by
    rw [short, Int.bmod_def]
    split_ifs <;> omega
  rw [hshort]
  rcases Nat.lt_or_ge 32767 (askedCount ds) with hbig | hsmall
  · split_ifs <;> omega
  · rw [readCount_eq hds hsmall]
    split_ifs <;> omega

theorem left_iff (hground : e.Ground) (he : CursorOnScreen e) (hawm : e.DECAWM = false)
    (hds : ∀ c ∈ ds, IsDigit c) :
    (∃ e', Emulation.VSem before e (csiText [ds] 0x44) = some e' ∧
        e'.x = leftColumn e (askedCount ds)) ↔
      0 ≤ e.lastColumn ∧
        (askedCount ds ≤ 32767 ∧ e.x-askedCount ds ≤ e.lastColumn ∨
          32767 < askedCount ds ∧ (e.x ≤ readCount ds ∨ e.lastColumn = 0)) := by
  obtain ⟨-, -, -, ⟨hx0, hx⟩, hwidth⟩ := he
  obtain ⟨hc0, hc⟩ := readCount_range ds
  have hn := askedCount_pos ds
  have hmw := lastColumn_range e hwidth
  have hend := cursorLeft_x (e.withParms [numeral ds]) hawm hmw
  rw [withParms_count] at hend
  change ((e.withParms [numeral ds]).cursorLeft e.lastColumn).x =
    min e.lastColumn (max 0 (short (e.x-readCount ds))) at hend
  rw [short_eq (by omega) (by omega)] at hend
  rw [VSem_motion before hground hds (·.cursorLeft e.lastColumn)
    (fun x _ => x = leftColumn e (askedCount ds)) rfl, hend, leftColumn]
  rcases Nat.lt_or_ge 32767 (askedCount ds) with hbig | hsmall
  · simp only [min_def, max_def]
    split_ifs <;> omega
  · rw [readCount_eq hds hsmall]
    simp only [min_def, max_def]
    split_ifs <;> omega

end Counted

/-- The four relative motions lead where unbounded arithmetic says, if and only if the cursor
is on the inner side of the margins and the count fits. -/
theorem relative_motion_iff (before : UInt8) (e : Emulation τ) (hground : e.Ground)
    (he : CursorOnScreen e) (ds : List UInt8) (hds : ∀ c ∈ ds, IsDigit c) :
    MovesCursor before e ds ↔ MotionsFit e ds := by
  constructor
  · intro h
    exact ⟨(up_iff hground he hds).mp h.up, (down_iff hground he hds).mp h.down,
      fun hawm => (right_iff hground he hawm hds).mp (h.right hawm),
      fun hawm => (left_iff hground he hawm hds).mp (h.left hawm)⟩
  · intro h
    exact ⟨(up_iff hground he hds).mpr h.up, (down_iff hground he hds).mpr h.down,
      fun hawm => (right_iff hground he hawm hds).mpr (h.right hawm),
      fun hawm => (left_iff hground he hawm hds).mpr (h.left hawm)⟩

theorem threeRows_onScreen : CursorOnScreen (threeRowsEmulation 4) :=
  ⟨⟨by decide, by decide, by decide⟩, by decide, by decide, by decide, by decide⟩

/-- Motions by two, from the fifth column of the first row. -/
theorem move_by_two : MovesCursor 0 (threeRowsEmulation 4) [0x32] :=
  (relative_motion_iff 0 (threeRowsEmulation 4) (newEmulation_ground _ _)
    threeRows_onScreen [0x32] (digits_of_all (by decide))).mpr
    ⟨by decide, by decide, by decide, by decide⟩

/-- Above the scrolling region, the cursor does not go up: it goes down to the margin. -/
theorem cursor_up_goes_down :
    (Emulation.VSem 0 { threeRowsEmulation 0 with top := 1 } (csiText [[]] 0x41)).map (·.y) =
        some 1 ∧
      ¬MovesCursor 0 { threeRowsEmulation 0 with top := 1 } [] := by
  have hrun : (Emulation.VSem 0 { threeRowsEmulation 0 with top := 1 }
      (csiText [[]] 0x41)).map (·.y) = some 1 := by decide
  refine ⟨hrun, ?_⟩
  intro h
  obtain ⟨e', he, hy⟩ := h.up
  rw [he] at hrun
  have hrow : e'.y = 1 := Option.some.inj hrun
  rw [hy] at hrow
  exact absurd hrow (by decide)

end VS
