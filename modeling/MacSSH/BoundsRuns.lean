import MacSSH.BoundsSteps

/-! The bounds of the cursor and of the margins in every run of the emulation. -/
namespace VS

open Linked Traces

variable {τ : Type}

namespace Emulation
variable {e e' : Emulation τ} {lines allwidth mw : Int}

section Motions

theorem cursorUp_contained (h : e.Contained lines allwidth) :
    e.cursorUp.Contained lines allwidth := VSIrange_contained h e.x _

theorem cursorDown_contained (h : e.Contained lines allwidth) :
    e.cursorDown.Contained lines allwidth := VSIrange_contained h e.x _

/-- To the right, the cursor goes no further than to the last column. -/
theorem goRight_contained (h : e.Contained lines allwidth) (hmw : 0 ≤ mw) (x y n : Int) :
    (goRight { e with x := x, y := y } mw n).Contained lines allwidth := by
  have hrange := VSIrange_contained h (short (x+n)) y
  have hx := hrange.1.column_range
  apply hrange.move _ hrange.1.row_range
  change 0 ≤ (if (VSIrange { e with x := short (x+n), y := y }).x > mw then mw
      else (VSIrange { e with x := short (x+n), y := y }).x) ∧
    (if (VSIrange { e with x := short (x+n), y := y }).x > mw then mw
      else (VSIrange { e with x := short (x+n), y := y }).x) ≤ allwidth
  split_ifs <;> omega

theorem cursorRight_contained (h : e.Contained lines allwidth) (hmw : 0 ≤ mw) :
    (e.cursorRight mw).Contained lines allwidth := by
  rw [Emulation.cursorRight]
  split_ifs
  -- autowrap in the last row does nothing, and elsewhere goes to the next one
  · exact h
  · exact goRight_contained h hmw _ _ _
  · exact goRight_contained h hmw _ _ _
  · exact goRight_contained h hmw e.x e.y _

theorem cursorLeft_contained (h : e.Contained lines allwidth) (mw : Int) :
    (e.cursorLeft mw).Contained lines allwidth := by
  rw [Emulation.cursorLeft]
  split_ifs
  · exact h
  · exact VSIrange_contained h _ _
  · exact VSIrange_contained h _ e.y

theorem cursorRow_contained (h : e.Contained lines allwidth) (mw : Int) :
    (e.cursorRow mw).Contained lines allwidth := by
  have hx := h.1.column_range
  have hrows := h.1.rows
  have hlines := h.1.lines_eq
  apply h.move
  · split_ifs <;> omega
  · generalize short (e.parms 0-1) = y
    split_ifs <;> omega

theorem goColumn_contained (h : e.Contained lines allwidth) (hmw : 0 ≤ mw ∧ mw ≤ allwidth)
    {y : Int} (hy : 0 ≤ y ∧ y ≤ lines) :
    (goColumn { e with y := y } mw).Contained lines allwidth := by
  apply h.move _ hy
  change 0 ≤ (if (if short (e.parms 0-1) < 0 then 0 else short (e.parms 0-1)) > mw then mw
      else if short (e.parms 0-1) < 0 then 0 else short (e.parms 0-1)) ∧
    (if (if short (e.parms 0-1) < 0 then 0 else short (e.parms 0-1)) > mw then mw
      else if short (e.parms 0-1) < 0 then 0 else short (e.parms 0-1)) ≤ allwidth
  generalize short (e.parms 0-1) = x
  split_ifs <;> omega

theorem cursorColumn_contained (h : e.Contained lines allwidth) (hmw : 0 ≤ mw ∧ mw ≤ allwidth) :
    (e.cursorColumn mw).Contained lines allwidth := by
  have hy := h.1.row_range
  have hrows := h.1.rows
  have hlines := h.1.lines_eq
  rw [Emulation.cursorColumn]
  split_ifs with _ hlast
  · exact h
  · apply goColumn_contained h hmw
    rw [hlines] at hlast
    rw [short_eq (by omega) (by omega)]
    omega
  · exact goColumn_contained h hmw hy

theorem cursorPosition_contained (h : e.Contained lines allwidth)
    (hmw : 0 ≤ mw ∧ mw ≤ allwidth) : (e.cursorPosition mw).Contained lines allwidth := by
  have hrows := h.1.rows
  have hlines := h.1.lines_eq
  apply h.move
  · generalize short (e.parms 1-1) = x
    split_ifs <;> omega
  · generalize short (if e.DECORG = true then e.parms 0-1+e.top else e.parms 0-1) = y
    split_ifs <;> omega

theorem setMargins_contained (h : e.Contained lines allwidth) :
    e.setMargins.Contained lines allwidth := by
  have hrows := h.1.rows
  have hlines := h.1.lines_eq
  by_cases hnew : e.parms 0-1 = e.top ∧ e.parms 1-1 = e.bottom
  -- the margins that there are, or repaired ones and the cursor at home
  · rw [setMargins_current e hnew]
    exact h
  · obtain ⟨top, hform, htop, hlt, -⟩ := setMargins_new e (by omega) hnew
    have hbottom := (repairedBottom_range (v := e.parms 1) (by omega : 1 ≤ e.buf.lines)).2
    have hhome := h.1.move (x := 0) (y := if e.DECORG then top else 0)
      ⟨le_rfl, h.1.column_range.1.trans h.1.column_range.2⟩ (by split_ifs <;> omega)
    rw [hform]
    exact ⟨⟨⟨hhome.row, hhome.column, ⟨htop, hlt, hbottom⟩⟩, hlines, h.1.allwidth_eq, hrows,
      h.1.width, h.1.last⟩, h.2⟩

/-- A new width may be less than the column of the cursor, but not beyond what is allocated. -/
theorem newWidth_contained (h : e.Contained lines allwidth) {width : Int} (hpos : 1 ≤ width)
    (hless : width < e.buf.allwidth) : Contained lines allwidth { e with maxwidth := width } := by
  have hall := h.1.allwidth_eq
  have hwidth := h.1.width
  have hlast : 0 ≤ VSscrn.lastColumn { e.toVSscrn with maxwidth := width } := by
    apply lastColumn_nonneg
    · change 0 ≤ width
      omega
    · change width ≠ 0
      omega
  have hnew : 0 ≤ width ∧ width < allwidth ∧ allwidth ≤ 32767 := by omega
  exact ⟨⟨⟨h.1.row, h.1.column, h.1.margins⟩, h.1.lines_eq, hall, h.1.rows, hnew, hlast⟩, h.2⟩

theorem VSIsetoption_contained (h : e.Contained lines allwidth) (toggle : Bool)
    (hc : e.parms 0 = -2 → e.parms 1 = 3 → (if toggle then 131 else 79) < e.buf.allwidth) :
    (e.VSIsetoption toggle).Contained lines allwidth := by
  -- both widths leave two columns to a line of double size
  have hpos : (1 : Int) ≤ if toggle then 131 else 79 := by split_ifs <;> decide
  rw [Emulation.VSIsetoption]
  by_cases hprivate : e.parms 0 = -2
  · rw [if_pos hprivate]
    by_cases hkeys : e.parms 1 = 1
    · rw [if_pos hkeys]
      exact h
    · rw [if_neg hkeys]
      by_cases hcolumns : e.parms 1 = 3
      · rw [if_pos hcolumns]
        exact newWidth_contained h hpos (hc hprivate hcolumns)
      · rw [if_neg hcolumns]
        split_ifs
        · exact h
        · exact h
        · exact ⟨h.1.aside _ _ _, h.2⟩
        · exact h
  · rw [if_neg hprivate]
    split_ifs
    · exact h
    · exact h

end Motions

section Erasure

theorem VSIeeol_contained (h : e.Contained lines allwidth) :
    e.VSIeeol.Contained lines allwidth := by
  simp only [Emulation.VSIeeol]
  split_ifs
  · have hsaved : Contained lines allwidth
        ({ e with possibleForce := false }.onScreen VSscrn.forceSave) :=
      ⟨VSscrn.forceSave_bounded h.1, h.2⟩
    exact wrapping_contained hsaved (VSscrn.eraseToEnd_bounded hsaved.1)
  · exact wrapping_contained h (VSscrn.eraseToEnd_bounded h.1)

theorem VSIeeos_contained (h : e.Contained lines allwidth) :
    e.VSIeeos.Contained lines allwidth := by
  -- wrap the cursor, save the screen at home, erase the line and then the rows below it
  have hwrapped := wrapping_contained h (VSscrn.VSIwrapnow_bounded h.1)
  simp only [Emulation.VSIeeos]
  generalize e.wrapping VSscrn.VSIwrapnow = e₁ at *
  have hsaved : Contained lines allwidth (if e₁.ESscroll = true ∧ e₁.y = 0 ∧ e₁.x = 0 then
      e₁.onScreen VSscrn.VSIscroff else e₁) := by
    split_ifs
    · exact ⟨VSscrn.VSIscroff_bounded hwrapped.1, hwrapped.2⟩
    · exact hwrapped
  generalize (if e₁.ESscroll = true ∧ e₁.y = 0 ∧ e₁.x = 0 then
      e₁.onScreen VSscrn.VSIscroff else e₁) = e₂ at *
  have hline := VSIeeol_contained (e := { e₂ with possibleForce := false }) hsaved
  exact ⟨VSscrn.eraseRows_bounded hline.1 _ _, hline.2⟩

theorem eraseDisplay_contained (h : e.Contained lines allwidth) :
    e.eraseDisplay.Contained lines allwidth := by
  rw [Emulation.eraseDisplay]
  split_ifs
  · exact VSIeeos_contained h
  · exact wrapping_contained h (VSscrn.VSIebos_bounded h.1)
  · exact ⟨VSscrn.VSIes_bounded h.1 e.ESscroll, h.2⟩
  · exact h

theorem eraseLine_contained (h : e.Contained lines allwidth) :
    e.eraseLine.Contained lines allwidth := by
  rw [Emulation.eraseLine]
  split_ifs
  · exact VSIeeol_contained h
  · exact wrapping_contained h (VSscrn.VSIebol_bounded h.1)
  · exact wrapping_contained h (VSscrn.VSIel_bounded h.1)
  · exact h

theorem leastOne_contained (h : e.Contained lines allwidth) :
    e.leastOne.Contained lines allwidth := by
  rw [Emulation.leastOne]
  split_ifs
  · exact h
  · exact h

theorem attributes_contained (h : e.Contained lines allwidth) :
    e.attributes.Contained lines allwidth := by
  rw [Emulation.attributes]
  split_ifs
  · exact h
  · exact ⟨h.1.aside _ _ _, h.2⟩
  · exact ⟨h.1.aside _ _ _, h.2⟩

end Erasure

theorem csi_contained (h : e.ContainedTo lines allwidth mw) (escflags : ℕ) {c : UInt8}
    (hc : (CsiChar.of c).KeepsBounds e) (herase : CsiChar.of c ≠ .erase)
    (hrepeat : CsiChar.of c ≠ .repeated)
    (inner : Emulation τ → List UInt8 → Option (Emulation τ)) :
    (e.csi inner mw escflags c).Contained lines allwidth mw := by
  have hout := h.contained
  have hone := leastOne_contained hout
  have hread := h.1.read
  have hlast := VS.lastColumn_le h.1.width.1
  have hwidth := h.1.width
  -- the motions are limited by the last column that the main loop has read
  have hmw : 0 ≤ mw ∧ mw ≤ allwidth := by omega
  rw [Emulation.csi]
  generalize CsiChar.of c = ch at *
  cases ch with
  | backspace => exact backspace_containedTo h
  | digit d => exact h
  | question => exact h
  | semicolon => exact h
  | quote => exact h
  | up => exact cursorUp_contained hout
  | erase => exact absurd rfl herase
  | repeated => exact absurd rfl hrepeat
  | down => exact cursorDown_contained hout
  | right => exact cursorRight_contained hout hmw.1
  | row => exact cursorRow_contained hout mw
  | left => exact cursorLeft_contained hout mw
  | column => exact cursorColumn_contained hout hmw
  | tabClear =>
    simp only
    split_ifs <;> exact hout
  | option on => exact VSIsetoption_contained hout on hc
  | position => exact cursorPosition_contained hout hmw
  | media =>
    change ContainedTo lines allwidth mw (if _ then _ else _)
    split_ifs <;> exact h
  | eraseDisplay => exact eraseDisplay_contained hout
  | eraseLine => exact eraseLine_contained hout
  | insertLines => exact ⟨hone.1.of_buf (VSIinslines_extent _ _ _ _), hone.2⟩
  | deleteLines => exact ⟨hone.1.of_buf (VSIdellines_extent _ _ _ _), hone.2⟩
  | attributes => exact attributes_contained hout
  | deleteChars => exact wrapping_contained hone (VSscrn.VSIdelchars_bounded hone.1 _)
  | margins => exact setMargins_contained hout
  | greater => exact h
  | insertChars =>
    simp only [Emulation.VSIinschar]
    cases hins : e.leastOne.toVSscrn.VSIinschar (e.leastOne.parms 0) true with
    | none => trivial
    | some s =>
      obtain ⟨m, rfl⟩ := VSscrn.VSIinschar_form hins
      exact ⟨(VSscrn.VSIwrapnow_bounded hone.1).of_buf ⟨rfl, rfl⟩,
        wrapTranslation_translates hone.2⟩
  | decPrivate => exact h
  | other => exact hout

end Emulation

/-- Steps that keep their condition keep the cursor and the margins within the bounds. -/
theorem bounds_keep (lines allwidth : Int) : StepsKeep (τ := τ) (fun e s => s.KeepsBounds e)
    (fun e => e.Contained lines allwidth) (fun mw e => e.ContainedTo lines allwidth mw)
    (fun mw r e => e.ContainedAt lines allwidth mw r) where
  width h := h.containedTo
  forget h := h.contained
  aside h _ _ _ _ := h
  control h _ := Emulation.control_containedTo h _
  c1 h hc escflags cs := Emulation.c1_contained h hc.1 escflags cs
  start h _ := Emulation.startRun_containedAt h
  char h _ := Emulation.typed_contained h _
  leave h := h.1
  octet hst h hc := by
    simp only [escSteps, List.mem_cons, List.not_mem_nil, or_false, Prod.mk.injEq] at hst
    rcases hst with ⟨rfl, rfl⟩ | ⟨rfl, rfl⟩ | ⟨rfl, rfl⟩ | ⟨rfl, rfl⟩ | ⟨rfl, rfl⟩ | ⟨rfl, rfl⟩ |
      ⟨rfl, rfl⟩ | ⟨rfl, rfl⟩ | ⟨rfl, rfl⟩ | ⟨rfl, rfl⟩
    · exact Emulation.basic_contained h _ hc
    · exact Emulation.decl_contained h _ hc
    · exact Emulation.descl_contained h _ _
    · exact Emulation.G0set_contained h _ _
    · exact Emulation.G1set_contained h _ _
    · exact Emulation.G2set_contained h _ _ _
    · exact Emulation.G2set_contained h _ _ _
    · exact Emulation.G0jset_contained h _ _
    · exact Emulation.G2jset_contained h _ _
    · exact Emulation.url_contained h _ _
  csi h hc herase hrepeat inner := Emulation.csi_contained h _ hc herase hrepeat inner
  parm h _ := h
  erasing h := by
    rw [Emulation.erasing]
    split_ifs <;> exact ⟨h.1.aside _ _ _, h.2⟩
  -- the erased characters are on the screen that the cursor was on before
  putBack h h' _ _ _ :=
    ⟨(h'.1.move h.1.column_range h.1.row_range).aside _ _ _, h'.2⟩
  command h _ before := Emulation.osc_contained h before

/-- The state that a step starts from: what it reads and writes at the cursor is in range. -/
structure StepInBounds (e : Emulation τ) (s : Step) : Prop where
  cursor : e.InBounds
  tab : s.SetsTab e → e.x < tabsSize
  width : ∀ mw ∈ s.width, 0 ≤ mw ∧ mw ≤ e.buf.allwidth

theorem KeepsBounds.tab {e : Emulation τ} {s : Step} (h : s.KeepsBounds e) (hs : s.SetsTab e) :
    e.x < tabsSize := by
  unfold Step.SetsTab at hs
  unfold Step.KeepsBounds at h
  split at hs
  · exact h.2 hs
  · simp only [hs] at h
    exact h
  · simp only [hs.1] at h
    exact h hs.2
  · exact hs.elim

/-- In every run whose steps keep their conditions, the cursor and the margins are within the
bounds in every state. -/
theorem cursor_in_bounds (e : Emulation τ) {lines allwidth : Int}
    (h : e.Contained lines allwidth) (chunks : List (UInt8 × List UInt8))
    (hkeeps : ∀ m ∈ VSemRunSteps e chunks, m.2.KeepsBounds m.1) :
    (∀ m ∈ VSemRunSteps e chunks, StepInBounds m.1 m.2) ∧
      ∀ e', VSemRun e chunks = some e' → e'.InBounds := by
  obtain ⟨hsteps, hend⟩ := (bounds_keep lines allwidth).run h chunks hkeeps
  refine ⟨?_, ?_⟩
  · intro m hm
    obtain ⟨hin, hwidth⟩ := hsteps m hm
    refine ⟨hin.1.toInBounds, KeepsBounds.tab (hkeeps m hm), ?_⟩
    intro mw hmw
    have hread := (hwidth mw hmw).1.read
    have hlast := lastColumn_le hin.1.width.1
    have hall := hin.1.allwidth_eq
    have hless := hin.1.width.2.1
    omega
  · intro e' he'
    exact (hend e' he').1.toInBounds

section Examples

instance (s : VSscrn) : Decidable s.ReverseInRows := inferInstanceAs (Decidable (_ → _))

instance (e : Emulation τ) : (ch : BasicChar) → Decidable (ch.KeepsBounds e)
  | .reverse => inferInstanceAs (Decidable (VSscrn.ReverseInRows _))
  | .setTab => inferInstanceAs (Decidable (_ < _))
  | .backspace | .csi | .save | .restore | .reset | .index | .nextLine | .DECPAM _ | .state _
  | .osc | .url | .other => isTrue trivial

instance (e : Emulation τ) : (ch : CsiChar) → Decidable (ch.KeepsBounds e)
  | .option _ => inferInstanceAs (Decidable (_ → _ → _))
  | .tabClear => inferInstanceAs (Decidable (_ → _))
  | .backspace | .digit _ | .question | .semicolon | .quote | .up | .erase | .repeated | .down
  | .right | .row | .left | .column | .position | .media | .eraseDisplay | .eraseLine
  | .insertLines | .deleteLines | .attributes | .deleteChars | .margins | .greater
  | .insertChars | .decPrivate | .other => isTrue trivial

instance (e : Emulation τ) : (s : Step) → Decidable (s.KeepsBounds e)
  | .c1 _ => inferInstanceAs (Decidable (_ ∧ _))
  | .octet .esc_basic _ _ c => inferInstanceAs (Decidable ((BasicChar.of c).KeepsBounds e))
  | .octet .esc_csi _ _ c => inferInstanceAs (Decidable ((CsiChar.of c).KeepsBounds e))
  | .octet .esc_decl _ _ _ => inferInstanceAs (Decidable (_ → _))
  | .octet .esc_root _ _ _ | .octet .esc_descl _ _ _ | .octet .esc_G0 _ _ _
  | .octet .esc_G1 _ _ _ | .octet .esc_G2 _ _ _ | .octet .esc_G3 _ _ _ | .octet .esc_G0j _ _ _
  | .octet .esc_G2j _ _ _ | .octet .esc_XTerm _ _ _ | .octet .esc_url _ _ _ => isTrue trivial
  | .control _ | .start _ | .char _ _ _ _ | .command _ _ | .putBack _ _ => isTrue trivial

theorem threeRowsEmulation_contained : (threeRowsEmulation 0).Contained 2 255 := by
  have hin : (threeRowsEmulation 0).InBounds := ⟨by decide, by decide, by decide⟩
  refine ⟨⟨hin, by decide, by decide, by decide, by decide, by decide⟩, ?_, rfl, rfl⟩
  intro w hw
  cases hw

/-- A region of two rows, text in the last of them, a line feed, and back up to the margin. -/
theorem region_scrolled_in_bounds :
    (∀ m ∈ VSemRunSteps (threeRowsEmulation 0) [(0, csiText [[0x32], [0x33]] 0x72 ++
        csiText [[0x33], [0x37, 0x30]] 0x48), (0, [0x41, 0x0a, 0x1b, 0x4d, 0x1b, 0x4d])],
        StepInBounds m.1 m.2) ∧
      ∀ e', VSemRun (threeRowsEmulation 0) [(0, csiText [[0x32], [0x33]] 0x72 ++
        csiText [[0x33], [0x37, 0x30]] 0x48), (0, [0x41, 0x0a, 0x1b, 0x4d, 0x1b, 0x4d])] =
        some e' → e'.InBounds :=
  cursor_in_bounds (threeRowsEmulation 0) threeRowsEmulation_contained _ (by decide)

/-- Above the region, a reverse index in the first row leads out of the screen. -/
theorem reverse_index_above_screen :
    ((VSemRun (threeRowsEmulation 0)
        [(0, csiText [[0x32], [0x33]] 0x72 ++ [0x1b, 0x4d])]).map fun e => (e.top, e.y)) =
        some (1, -1) ∧
      ¬∀ chunks e', VSemRun (threeRowsEmulation 0) chunks = some e' → e'.InBounds := by
  have hrun : ((VSemRun (threeRowsEmulation 0)
      [(0, csiText [[0x32], [0x33]] 0x72 ++ [0x1b, 0x4d])]).map fun e => (e.top, e.y)) =
      some (1, -1) := by decide
  refine ⟨hrun, ?_⟩
  intro h
  obtain ⟨e', he, hstate⟩ := Option.map_eq_some_iff.mp hrun
  have hrow := (h _ e' he).row.1
  have hy : e'.y = -1 := congrArg Prod.snd hstate
  omega

end Examples

end VS
