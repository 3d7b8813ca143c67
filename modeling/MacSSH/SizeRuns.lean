import MacSSH.ScrollRegion
import MacSSH.SizeSteps

/-! The size of the cursor line in every run of the emulation. -/
namespace VS

open Linked Traces

variable {τ : Type}

/-- What an octet behind `ESC` needs for the size of the cursor line to be tracked. -/
def BasicChar.KeepsSize (e : Emulation τ) : BasicChar → Prop
  | .restore => e.SameSize e.VSIrestore.y
  | .reset => e.buf.rowSize e.y = 0 ∧ 0 ≤ e.buf.lines
  | .index => e.IndexKeeps
  | .nextLine => e.IndexKeeps
  | .reverse => e.ReverseKeeps
  | _ => True

/-- The same for an erasure from the cursor to the end of its line. -/
def Emulation.EndKeeps (e : Emulation τ) : Prop :=
  if e.x = 0 ∧ e.y = 0 ∧ e.possibleForce = true then e.OnRows ∧ 0 ≤ e.lastColumn
  else e.WrapKeeps

/-- The same for the end of a control sequence. A motion leads to a row of the size of the
one that it leaves. -/
def CsiChar.KeepsSize (e : Emulation τ) (mw : Int) : CsiChar → Prop
  | .up => e.SameSize e.cursorUp.y
  | .down => e.SameSize e.cursorDown.y
  | .right => e.SameSize (e.cursorRight mw).y
  | .left => e.SameSize (e.cursorLeft mw).y
  | .row => e.SameSize (e.cursorRow mw).y
  | .column => e.SameSize (e.cursorColumn mw).y
  | .position => e.SameSize (e.cursorPosition mw).y
  | .margins => e.SameSize e.setMargins.y
  | .eraseDisplay =>
    if e.parms 0 = -1 ∨ e.parms 0 = 0 then e.BelowKeeps e.ESscroll
    else if e.parms 0 = 1 then e.AboveKeeps
    else if e.parms 0 = 2 then e.OnSingle
    else True
  | .eraseLine =>
    if e.parms 0 = -1 ∨ e.parms 0 = 0 then e.EndKeeps
    else if e.parms 0 = 1 ∨ e.parms 0 = 2 then e.WrapKeeps
    else True
  | .insertLines =>
    e.Sound ∧ e.y ≤ e.bottom ∧ e.insertedSize (e.leastOne.parms 0) = e.buf.rowSize e.y
  | .deleteLines =>
    e.Sound ∧ e.y ≤ e.bottom ∧ e.deletedSize (e.leastOne.parms 0) = e.buf.rowSize e.y
  | .deleteChars => e.WrapKeeps
  | .insertChars => e.WrapKeeps
  | _ => True

/-- The same for a step. -/
def Step.KeepsSize (e : Emulation τ) : Step → Prop
  | .control c => c = 0x0a ∨ c = 0x0b ∨ c = 0x0c → e.FeedKeeps
  | .c1 c => (c = 0x84 ∨ c = 0x85 → e.IndexKeeps) ∧ (c = 0x8d → e.ReverseKeeps)
  | .start mw => e.x > mw → e.DECAWM = true → e.FeedKeeps
  | .char _ mw _ c => ∀ x ∈ e.roomColumn mw c, e.RoomKeeps x
  | .octet .esc_basic _ _ c => (BasicChar.of c).KeepsSize e
  | .octet .esc_csi mw _ c => (CsiChar.of c).KeepsSize e mw
  | .octet .esc_decl _ _ c => c = 0x38 → e.OnSingle
  | .putBack _ y => e.SameSize y
  | _ => True

/-- A step on a screen without lines of double size, or one that tracks the size. -/
def KeepsSize (e : Emulation τ) (s : Step) : Prop := AllSingle e.buf ∨ s.KeepsSize e

namespace Emulation
variable {e e' : Emulation τ} {mw : Int}

section Basic

theorem VSIrestore_moves (e : Emulation τ) : e.Moves e.VSIrestore.toVSscrn := by
  rw [Emulation.VSIrestore]
  split_ifs <;> exact ⟨rfl, rfl, rfl⟩

theorem VSIreset_agree (h : e.SizesAgree)
    (hc : AllSingle e.buf ∨ e.buf.rowSize e.y = 0 ∧ 0 ≤ e.buf.lines) : e.VSIreset.SizesAgree := by
  -- the cursor goes to the first row, which is erased
  let s := { e.toVSscrn with
    top := 0, bottom := e.buf.lines, DECCM := true, attrib := 0, x := 0, y := 0 }
  change (s.VSIes e.ESscroll).SizesAgree
  apply h.either hc
  · intro hplain
    exact VSscrn.VSIes_plain (s := s) hplain e.ESscroll
  · rintro ⟨hsingle, hlines⟩
    have hfirst := VSIes_rowSize s.region e.ESscroll s.buf le_rfl hlines
    exact hfirst.trans (hsingle.symm.trans h)

theorem basic_tracks (h : e.Tracks mw) (escflags : ℕ) {c : UInt8}
    (hc : AllSingle e.buf ∨ (BasicChar.of c).KeepsSize e) : (e.basic escflags c).Tracks mw := by
  rw [Emulation.basic]
  generalize BasicChar.of c = ch at *
  cases ch with
  | backspace => exact (backspace_rests e).tracks h
  | csi => exact h
  | save => exact h.agree
  | restore => exact (VSIrestore_moves e).either h.agree hc
  | reset => exact VSIreset_agree h.agree hc
  | index => exact lineFeed_agree h.agree hc
  | nextLine =>
    apply lineFeed_agree (e := { e with x := 0 }) h.agree
    exact hc.imp_right fun hindex => hindex.of_x 0
  | reverse => exact reverse_agree h.agree hc
  | DECPAM on => exact h.agree
  | state st => exact h
  | setTab => exact h.agree
  | osc =>
    simp only
    split_ifs
    · exact h
    · exact h.agree
  | url => exact h
  | other => exact h.agree

theorem lineSize_agree (e : Emulation τ) (lattrib : BitVec 16) :
    (e.lineSize lattrib).SizesAgree := by
  have hrow : (e.lineSize lattrib).buf.mem.lattr (e.buf.row e.y) = (e.lineSize lattrib).lattrib :=
    Function.update_self _ _ _
  rw [VSscrn.SizesAgree, VSbuf.rowSize]
  exact congrArg (· &&& sizeBits) hrow

theorem decl_tracks (h : e.Tracks mw) (escflags : ℕ) {c : UInt8}
    (hc : AllSingle e.buf ∨ (c = 0x38 → e.OnSingle)) : (e.decl escflags c).Tracks mw := by
  rw [Emulation.decl]
  split_ifs with _ _ _ _ _ halign
  · exact (backspace_rests e).tracks h
  · exact lineSize_agree e _
  · exact lineSize_agree e _
  · exact lineSize_agree e _
  · exact lineSize_agree e _
  · apply h.agree.either hc
    · intro hplain
      exact VSscrn.VTalign_plain hplain e.ESscroll
    · intro hsingle
      exact VSscrn.VTalign_agree h.agree (hsingle halign).1 (hsingle halign).2 e.ESscroll
  · exact h.agree

end Basic

section Csi

/-- An erasure from the cursor to the end of its line, at any other place than home. -/
theorem VSIeeol_screen (h : e.possibleForce = false) :
    e.VSIeeol.toVSscrn = e.toVSscrn.eraseToEnd := by
  have hhome : ¬(e.x = 0 ∧ e.y = 0 ∧ e.possibleForce = true) := by
    rw [h]
    simp
  simp only [Emulation.VSIeeol]
  rw [if_neg hhome]
  exact wrapping_screen e _

theorem VSIeeol_agree (h : e.SizesAgree) (hc : AllSingle e.buf ∨ e.EndKeeps) :
    e.VSIeeol.SizesAgree := by
  simp only [Emulation.VSIeeol]
  rw [Emulation.EndKeeps] at hc
  split_ifs at hc ⊢ with hhome
  · rw [wrapping_screen]
    apply h.either hc
    · intro hplain
      have hsaved := VSscrn.VSIwrapnow_plain (VSscrn.forceSave_plain hplain)
      exact (VSscrn.eraseToEnd_stays _).plain hsaved
    · rintro ⟨hrows, hcolumn⟩
      have hidle : e.forceSave.VSIwrapnow = e.forceSave := by
        apply VSscrn.VSIwrapnow_idle
        change e.x ≤ e.lastColumn
        rw [hhome.1]
        exact hcolumn
      have hstays := VSscrn.eraseToEnd_stays e.forceSave
      rw [hidle] at hstays
      exact hstays.agree (VSscrn.forceSave_agree h hrows)
  · rw [wrapping_screen]
    exact (VSscrn.eraseToEnd_stays e.toVSscrn).agree (VSscrn.VSIwrapnow_either h hc)

theorem wrapping_ESscroll (e : Emulation τ) (f : VSscrn → VSscrn) :
    (e.wrapping f).ESscroll = e.ESscroll := by
  have htext := wrapTranslation_text e
  rw [Emulation.wrapping]
  generalize e.wrapTranslation = e₁ at *
  obtain ⟨_, _, _, _, _, _, _, _, _, rfl⟩ := htext
  rfl

/-- The screen before an erasure from the cursor to its end: it may have been saved. -/
def beforeBelow (e : Emulation τ) : VSscrn :=
  if e.ESscroll = true ∧ e.toVSscrn.VSIwrapnow.y = 0 ∧ e.toVSscrn.VSIwrapnow.x = 0 then
    e.toVSscrn.VSIwrapnow.VSIscroff
  else e.toVSscrn.VSIwrapnow

theorem VSIeeos_screen (e : Emulation τ) : e.VSIeeos.toVSscrn =
    e.beforeBelow.eraseToEnd.eraseRows (short (e.toVSscrn.VSIwrapnow.y+1))
      e.beforeBelow.eraseToEnd.buf.lines := by
  have hwrap := wrapping_screen e VSscrn.VSIwrapnow
  have hflag := wrapping_ESscroll e VSscrn.VSIwrapnow
  simp only [Emulation.VSIeeos]
  generalize e.wrapping VSscrn.VSIwrapnow = e₁ at *
  have hbefore : (if e₁.ESscroll = true ∧ e₁.y = 0 ∧ e₁.x = 0 then e₁.onScreen VSscrn.VSIscroff
      else e₁).toVSscrn = e.beforeBelow := by
    rw [beforeBelow, ← hwrap, ← hflag]
    split_ifs <;> rfl
  have hend := VSIeeol_screen (e := { (if e₁.ESscroll = true ∧ e₁.y = 0 ∧ e₁.x = 0 then
    e₁.onScreen VSscrn.VSIscroff else e₁) with possibleForce := false }) rfl
  rw [hbefore] at hend
  change (VSscrn.eraseRows (Emulation.VSIeeol _).toVSscrn _ _) = _
  rw [hend, ← hwrap]

theorem VSIeeos_agree (h : e.SizesAgree) (hc : AllSingle e.buf ∨ e.BelowKeeps e.ESscroll) :
    e.VSIeeos.SizesAgree := by
  rw [VSIeeos_screen]
  apply h.either hc
  · intro hplain
    have hwrapped := VSscrn.VSIwrapnow_plain hplain
    have hbefore : e.beforeBelow.Plain := by
      rw [beforeBelow]
      split_ifs
      · exact VSscrn.VSIscroff_plain hwrapped
      · exact hwrapped
    apply VSscrn.eraseRows_plain
    exact (VSscrn.eraseToEnd_stays _).plain (VSscrn.VSIwrapnow_plain hbefore)
  · intro hbelow
    exact VSscrn.below_agree h hbelow rfl

theorem eraseDisplay_agree (h : e.SizesAgree)
    (hc : AllSingle e.buf ∨ CsiChar.KeepsSize e mw .eraseDisplay) : e.eraseDisplay.SizesAgree := by
  simp only [CsiChar.KeepsSize] at hc
  rw [Emulation.eraseDisplay]
  split_ifs at hc ⊢
  · exact VSIeeos_agree h hc
  · rw [wrapping_screen]
    exact h.either hc VSscrn.VSIebos_plain (VSscrn.VSIebos_agree h)
  · apply h.either hc
    · intro hplain
      exact VSscrn.VSIes_plain hplain e.ESscroll
    · intro hsingle
      exact VSscrn.VSIes_agree h hsingle.1 hsingle.2 e.ESscroll
  · exact h

theorem eraseLine_agree (h : e.SizesAgree)
    (hc : AllSingle e.buf ∨ CsiChar.KeepsSize e mw .eraseLine) : e.eraseLine.SizesAgree := by
  simp only [CsiChar.KeepsSize] at hc
  rw [Emulation.eraseLine]
  by_cases hend : e.parms 0 = -1 ∨ e.parms 0 = 0
  · rw [if_pos hend] at hc ⊢
    exact VSIeeol_agree h hc
  · rw [if_neg hend] at hc ⊢
    have hwrapped (hpart : e.parms 0 = 1 ∨ e.parms 0 = 2) : e.toVSscrn.VSIwrapnow.SizesAgree := by
      rw [if_pos hpart] at hc
      exact VSscrn.VSIwrapnow_either h hc
    split_ifs with hleft hwhole
    · rw [wrapping_screen]
      exact (VSscrn.VSIebol_stays _).agree (hwrapped (Or.inl hleft))
    · rw [wrapping_screen]
      exact (VSscrn.VSIel_stays _).agree (hwrapped (Or.inr hwhole))
    · exact h

theorem leastOne_form (e : Emulation τ) :
    e.leastOne.toVSscrn = e.toVSscrn ∧ 1 ≤ e.leastOne.parms 0 := by
  rw [Emulation.leastOne]
  split_ifs with hmissing
  · exact ⟨rfl, (Function.update_self (0 : Int) (1 : Int) e.parms).ge⟩
  · exact ⟨rfl, by omega⟩

theorem insertLines_either (h : e.SizesAgree)
    (hc : AllSingle e.buf ∨ CsiChar.KeepsSize e mw .insertLines) :
    VSscrn.SizesAgree { e.toVSscrn with
      buf := VSIinslines e.toVSscrn.region e.buf (e.leastOne.parms 0) (-1) } := by
  apply h.either hc
  · intro hplain
    exact hplain.of_buf (VSIinslines_lattr _ _ _ _)
  · rintro ⟨hsound, hle, hsize⟩
    exact VSscrn.insertLines_agree h hsound hle (leastOne_form e).2 hsize

theorem deleteLines_either (h : e.SizesAgree)
    (hc : AllSingle e.buf ∨ CsiChar.KeepsSize e mw .deleteLines) :
    VSscrn.SizesAgree { e.toVSscrn with
      buf := VSIdellines e.toVSscrn.region e.buf (e.leastOne.parms 0) (-1) } := by
  apply h.either hc
  · intro hplain
    exact hplain.of_buf (VSIdellines_lattr _ _ _ _)
  · rintro ⟨hsound, hle, hsize⟩
    exact VSscrn.deleteLines_agree h hsound hle (leastOne_form e).2 hsize

theorem VSIsetoption_moves (e : Emulation τ) (toggle : Bool) :
    e.Stays (e.VSIsetoption toggle).toVSscrn := by
  rw [Emulation.VSIsetoption]
  split_ifs <;> exact ⟨⟨rfl, rfl, rfl⟩, rfl⟩

theorem cursorRight_moves (e : Emulation τ) (mw : Int) : e.Moves (e.cursorRight mw).toVSscrn := by
  rw [Emulation.cursorRight]
  split_ifs <;> exact ⟨rfl, rfl, rfl⟩

theorem cursorLeft_moves (e : Emulation τ) (mw : Int) : e.Moves (e.cursorLeft mw).toVSscrn := by
  rw [Emulation.cursorLeft]
  split_ifs <;> exact ⟨rfl, rfl, rfl⟩

theorem cursorColumn_moves (e : Emulation τ) (mw : Int) :
    e.Moves (e.cursorColumn mw).toVSscrn := by
  rw [Emulation.cursorColumn]
  split_ifs <;> exact ⟨rfl, rfl, rfl⟩

theorem setMargins_moves (e : Emulation τ) : e.Moves e.setMargins.toVSscrn := by
  rw [Emulation.setMargins]
  split_ifs <;> exact ⟨rfl, rfl, rfl⟩

theorem attributes_rests (e : Emulation τ) : e.Rests e.attributes.toVSscrn := by
  rw [Emulation.attributes]
  split_ifs <;> exact ⟨⟨⟨rfl, rfl, rfl⟩, rfl⟩, rfl⟩

theorem csi_tracks (h : e.Tracks mw) (escflags : ℕ) {c : UInt8}
    (hc : AllSingle e.buf ∨ (CsiChar.of c).KeepsSize e mw) (herase : CsiChar.of c ≠ .erase)
    (hrepeat : CsiChar.of c ≠ .repeated)
    (inner : Emulation τ → List UInt8 → Option (Emulation τ)) :
    (e.csi inner mw escflags c).Tracks mw := by
  rw [Emulation.csi]
  generalize CsiChar.of c = ch at *
  cases ch with
  | backspace => exact (backspace_rests e).tracks h
  | digit d => exact h
  | question => exact h
  | semicolon => exact h
  | quote => exact h
  | up => exact VSscrn.Moves.either h.agree ⟨rfl, rfl, rfl⟩ hc
  | erase => exact absurd rfl herase
  | repeated => exact absurd rfl hrepeat
  | down => exact VSscrn.Moves.either h.agree ⟨rfl, rfl, rfl⟩ hc
  | right => exact (cursorRight_moves e mw).either h.agree hc
  | row => exact VSscrn.Moves.either h.agree ⟨rfl, rfl, rfl⟩ hc
  | left => exact (cursorLeft_moves e mw).either h.agree hc
  | column => exact (cursorColumn_moves e mw).either h.agree hc
  | tabClear =>
    simp only
    split_ifs <;> exact h.agree
  | option on => exact (VSIsetoption_moves e on).agree h.agree
  | position => exact VSscrn.Moves.either h.agree ⟨rfl, rfl, rfl⟩ hc
  | media =>
    change VSscrn.Tracks (if _ then _ else _ : Emulation τ).toVSscrn mw
    split_ifs <;> exact h
  | eraseDisplay => exact eraseDisplay_agree h.agree hc
  | eraseLine => exact eraseLine_agree h.agree hc
  | insertLines =>
    have hedit := insertLines_either h.agree hc
    rw [← (leastOne_form e).1] at hedit
    exact hedit
  | deleteLines =>
    have hedit := deleteLines_either h.agree hc
    rw [← (leastOne_form e).1] at hedit
    exact hedit
  | attributes => exact ((attributes_rests e).tracks h).agree
  | deleteChars =>
    change (e.leastOne.wrapping _).toVSscrn.SizesAgree
    rw [wrapping_screen, (leastOne_form e).1]
    exact (VSscrn.VSIdelchars_stays _ _).agree (VSscrn.VSIwrapnow_either h.agree hc)
  | margins => exact (setMargins_moves e).either h.agree hc
  | greater => exact h
  | insertChars =>
    simp only [Emulation.VSIinschar]
    cases hins : e.leastOne.toVSscrn.VSIinschar (e.leastOne.parms 0) true with
    | none => trivial
    | some s =>
      rw [(leastOne_form e).1] at hins
      exact (VSscrn.VSIinschar_stays hins).agree (VSscrn.VSIwrapnow_either h.agree hc)
  | decPrivate => exact h
  | other => exact h.agree

end Csi

end Emulation

/-- Steps that keep their condition keep the size of the cursor line tracked. -/
theorem sizes_keep : StepsKeep (τ := τ) KeepsSize (fun e => e.SizesAgree)
    (fun mw e => e.toVSscrn.Tracks mw) (fun mw _ e => e.toVSscrn.Tracks mw) where
  width h := ⟨h, rfl⟩
  forget h := h.agree
  aside h _ _ _ _ := h
  control h hc := Emulation.control_tracks h hc
  c1 h hc escflags cs := Emulation.c1_tracks h hc escflags cs
  start h hc := Emulation.startRun_tracks h hc
  char h hc := Emulation.typed_tracks h hc
  leave h := h
  octet hst h hc := by
    simp only [escSteps, List.mem_cons, List.not_mem_nil, or_false, Prod.mk.injEq] at hst
    rcases hst with ⟨rfl, rfl⟩ | ⟨rfl, rfl⟩ | ⟨rfl, rfl⟩ | ⟨rfl, rfl⟩ | ⟨rfl, rfl⟩ | ⟨rfl, rfl⟩ |
      ⟨rfl, rfl⟩ | ⟨rfl, rfl⟩ | ⟨rfl, rfl⟩ | ⟨rfl, rfl⟩
    · exact Emulation.basic_tracks h _ hc
    · exact Emulation.decl_tracks h _ hc
    · exact (Emulation.descl_rests _ _ _).tracks h
    · exact (Emulation.G0set_rests _ _ _).tracks h
    · exact (Emulation.G1set_rests _ _ _).tracks h
    · exact (Emulation.G2set_rests _ _ _ _).tracks h
    · exact (Emulation.G2set_rests _ _ _ _).tracks h
    · exact (Emulation.G0jset_rests _ _ _).tracks h
    · exact (Emulation.G2jset_rests _ _ _).tracks h
    · exact (Emulation.url_rests _ _ _).tracks h
  csi h hc herase hrepeat inner := Emulation.csi_tracks h _ hc herase hrepeat inner
  parm h _ := h
  erasing {e} h := by
    change e.SizesAgree at h
    rw [Emulation.erasing]
    split_ifs <;> exact h
  putBack _ h' hc _ _ := VSscrn.Moves.either h' ⟨rfl, rfl, rfl⟩ hc
  command h _ before := Emulation.osc_tracks h before _ _

instance (s : VSscrn) : Decidable s.SizesAgree := inferInstanceAs (Decidable (_ = _))

/-- The sizes agree, and the last column is the one of the stored attributes. -/
def SizeTracked (e : Emulation τ) : Prop := e.SizesAgree ∧ e.lastColumn = e.rowWidth

instance (e : Emulation τ) : Decidable (SizeTracked e) :=
  inferInstanceAs (Decidable (_ = _ ∧ _ = _))

/-- In every run whose steps keep their conditions, the size of the cursor line is tracked in
every state, and the last columns that the steps work with are those of the cursor row. -/
theorem line_size_tracked (e : Emulation τ) (h : e.SizesAgree)
    (chunks : List (UInt8 × List UInt8))
    (hkeeps : ∀ m ∈ VSemRunSteps e chunks, KeepsSize m.1 m.2) :
    (∀ m ∈ VSemRunSteps e chunks,
        SizeTracked m.1 ∧ ∀ mw ∈ m.2.width, mw = m.1.rowWidth) ∧
      ∀ e', VSemRun e chunks = some e' → SizeTracked e' := by
  obtain ⟨hsteps, hend⟩ := sizes_keep.run h chunks hkeeps
  refine ⟨?_, ?_⟩
  · intro m hm
    obtain ⟨hagree, hwidth⟩ := hsteps m hm
    refine ⟨⟨hagree, hagree.lastColumn_eq⟩, ?_⟩
    intro mw hmw
    rw [(hwidth mw hmw).width]
    exact hagree.lastColumn_eq
  · intro e' he'
    exact ⟨hend e' he', (hend e' he').lastColumn_eq⟩

section Examples

/-- Steps whose condition can be computed: they stay on rows of one size. -/
def Step.inRow (e : Emulation τ) : Step → Bool
  | .control c => c ≠ 0x0a ∧ c ≠ 0x0b ∧ c ≠ 0x0c
  | .start mw => e.x ≤ mw
  | .char _ _ _ _ => !e.IRM
  | .octet .esc_basic _ _ c =>
    match BasicChar.of c with
    | .csi => true
    | .state _ => true
    | _ => false
  | .octet .esc_csi mw _ c =>
    match CsiChar.of c with
    | .digit _ => true
    | .semicolon => true
    | .position => e.buf.rowSize (e.cursorPosition mw).y = e.buf.rowSize e.y
    | .eraseLine => e.x ≤ e.lastColumn ∧ e.possibleForce = false
    | _ => false
  | .octet .esc_decl _ _ c => c ≠ 0x38
  | _ => false

theorem keepsSize_inRow {e : Emulation τ} {s : Step} (h : s.inRow e = true) : KeepsSize e s := by
  apply Or.inr
  unfold Step.inRow at h
  split at h
  · simp only [decide_eq_true_eq] at h
    rintro (hc | hc | hc)
    · exact absurd hc h.1
    · exact absurd hc h.2.1
    · exact absurd hc h.2.2
  · simp only [decide_eq_true_eq] at h
    intro hx
    omega
  · intro x _ hirm
    rw [hirm] at h
    cases h
  · rename_i c
    simp only [Step.KeepsSize]
    generalize BasicChar.of c = ch at *
    cases ch with
    | csi => trivial
    | state st => trivial
    | _ => cases h
  · rename_i mw _ c
    simp only [Step.KeepsSize]
    generalize CsiChar.of c = ch at *
    cases ch with
    | digit d => trivial
    | semicolon => trivial
    | position =>
      simp only [decide_eq_true_eq] at h
      exact h
    | eraseLine =>
      simp only [decide_eq_true_eq] at h
      have hwrap : e.WrapKeeps := fun hx => absurd hx (not_lt.mpr h.1)
      simp only [CsiChar.KeepsSize, Emulation.EndKeeps, h.2]
      split_ifs <;> first
        | exact hwrap
        | trivial
        | simp_all
    | _ => cases h
  · intro hc
    simp [hc] at h
  · cases h

/-- A line of double height, with text, a motion and an erasure in it. -/
theorem double_height_tracked :
    (∀ m ∈ VSemRunSteps (threeRowsEmulation 0) [(0, [0x1b, 0x23, 0x33, 0x41, 0x42, 0x0d] ++
        csiText [[0x31], [0x35]] 0x48 ++ [0x43] ++ csiText [[]] 0x4b)],
        SizeTracked m.1 ∧ ∀ mw ∈ m.2.width, mw = m.1.rowWidth) ∧
      ∀ e', VSemRun (threeRowsEmulation 0) [(0, [0x1b, 0x23, 0x33, 0x41, 0x42, 0x0d] ++
        csiText [[0x31], [0x35]] 0x48 ++ [0x43] ++ csiText [[]] 0x4b)] = some e' →
        SizeTracked e' := by
  have hinRow : ∀ m ∈ VSemRunSteps (threeRowsEmulation 0)
      [(0, [0x1b, 0x23, 0x33, 0x41, 0x42, 0x0d] ++ csiText [[0x31], [0x35]] 0x48 ++ [0x43] ++
        csiText [[]] 0x4b)], m.2.inRow m.1 = true := by decide
  exact line_size_tracked (threeRowsEmulation 0) (by decide) _ fun m hm =>
    keepsSize_inRow (hinRow m hm)

/-- The cursor leaves a line of double height by a motion, and the size is still that of the
line; a reset keeps it, too. A line feed clears it, but the text behind it is still written
with the last column of the line before. -/
theorem size_of_the_row_before :
    ((VSemRun (threeRowsEmulation 0) [(0, [0x1b, 0x23, 0x33, 0x1b, 0x5b, 0x42])]).map fun e =>
        (e.y, e.buf.rowSize e.y, e.lattrib, e.lastColumn, e.rowWidth)) =
        some (1, 0, 1, 39, 79) ∧
      ((VSemRun (threeRowsEmulation 0) [(0, [0x1b, 0x23, 0x33, 0x1b, 0x63])]).map fun e =>
        (e.y, e.buf.rowSize e.y, e.lattrib)) = some (0, 0, 1) ∧
      ((VSemRunSteps (threeRowsEmulation 0) [(0, [0x1b, 0x23, 0x33, 0x0a, 0x41])]).flatMap
        fun m => m.2.width.toList.map fun mw => (m.1.y, mw, m.1.rowWidth)) =
        [(0, 79, 79), (0, 79, 79), (1, 39, 79), (1, 39, 79)] ∧
      ¬∀ chunks, ∀ e', VSemRun (threeRowsEmulation 0) chunks = some e' → SizeTracked e' := by
  have hdown : ((VSemRun (threeRowsEmulation 0)
      [(0, [0x1b, 0x23, 0x33, 0x1b, 0x5b, 0x42])]).map fun e =>
        (e.y, e.buf.rowSize e.y, e.lattrib, e.lastColumn, e.rowWidth)) =
        some (1, 0, 1, 39, 79) := by decide
  refine ⟨hdown, by decide, by decide, ?_⟩
  intro h
  obtain ⟨e', he, hstate⟩ := Option.map_eq_some_iff.mp hdown
  simp only [Prod.mk.injEq] at hstate
  have hwidth := (h _ e' he).2
  rw [hstate.2.2.2.1, hstate.2.2.2.2] at hwidth
  exact absurd hwidth (by decide)

end Examples

end VS
