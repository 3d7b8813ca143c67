import MacSSH.CursorBounds
import MacSSH.SizeRuns

/-! What the steps of the emulation make of the bounds of the cursor and of the margins. -/
namespace VS

open Linked Traces

variable {τ : Type}

/-- The translation makes one character of every octet. -/
def WindRec.OneToOne (tw : WindRec τ) : Prop :=
  ∀ tr c, ∃ tr' c', tw.trbuf_nat_mac tr [c] = (tr', .done 1 [c'])

/-- No octets are pending, and none will be. -/
def Translating (tw : Option (WindRec τ)) (trinbuf : List UInt8) (trinx : Int) : Prop :=
  (∀ w, tw = some w → w.OneToOne) ∧ trinbuf = [] ∧ trinx = 0

/-- The size of the array of tab stops. -/
def tabsSize : Int := 255

namespace Emulation

/-- The screen is within its bounds, and every octet of text makes a character. -/
def Contained (lines allwidth : Int) (e : Emulation τ) : Prop :=
  e.toVSscrn.Bounded lines allwidth ∧ Translating e.tw e.trinbuf e.trinx

/-- The same within the main loop, which has read `mw` as the last column. -/
def ContainedTo (lines allwidth mw : Int) (e : Emulation τ) : Prop :=
  e.toVSscrn.Within lines allwidth mw ∧ Translating e.tw e.trinbuf e.trinx

/-- The same in a run of text, which writes where the cursor is. -/
def ContainedAt (lines allwidth mw : Int) (r : Run) (e : Emulation τ) : Prop :=
  e.ContainedTo lines allwidth mw ∧ e.x ≤ mw ∧ r.cur = e.x

end Emulation

/-- What an octet behind `ESC` needs for the cursor to stay within the bounds. -/
def BasicChar.KeepsBounds (e : Emulation τ) : BasicChar → Prop
  | .reverse => e.ReverseInRows
  | .setTab => e.x < tabsSize
  | _ => True

/-- The same for the end of a control sequence: a new width must be less than the one that is
allocated. -/
def CsiChar.KeepsBounds (e : Emulation τ) : CsiChar → Prop
  | .option on => e.parms 0 = -2 → e.parms 1 = 3 → (if on then 131 else 79) < e.buf.allwidth
  | .tabClear => e.parms 0 ≤ 0 → e.x < tabsSize
  | _ => True

/-- The same for a step. -/
def Step.KeepsBounds (e : Emulation τ) : Step → Prop
  | .c1 c => (c = 0x8d → e.ReverseInRows) ∧ (c = 0x88 → e.x < tabsSize)
  | .octet .esc_basic _ _ c => (BasicChar.of c).KeepsBounds e
  | .octet .esc_csi _ _ c => (CsiChar.of c).KeepsBounds e
  | .octet .esc_decl _ _ c => c = 0x33 ∨ c = 0x34 → e.maxwidth ≠ 0
  | _ => True

/-- The step sets or clears the tab stop of the column that the cursor is in. -/
def Step.SetsTab (e : Emulation τ) : Step → Prop
  | .c1 c => c = 0x88
  | .octet .esc_basic _ _ c => BasicChar.of c = .setTab
  | .octet .esc_csi _ _ c => CsiChar.of c = .tabClear ∧ e.parms 0 ≤ 0
  | _ => False

section Sequences
variable (lines allwidth mw : Int)

/-- The bounds hold in a sequence, and behind its end. -/
abbrev Esc.Contained (r : Esc τ) : Prop :=
  r.Leads (fun e => e.ContainedTo lines allwidth mw) fun e => e.Contained lines allwidth

abbrev Flow.Contained (f : Flow τ) : Prop :=
  f.Leads (fun e => e.ContainedTo lines allwidth mw) fun e => e.Contained lines allwidth

end Sequences

namespace Emulation
variable {e e' : Emulation τ} {lines allwidth mw : Int}

section Parts

theorem ContainedTo.contained (h : e.ContainedTo lines allwidth mw) :
    e.Contained lines allwidth := ⟨h.1.toBounded, h.2⟩

theorem Contained.containedTo (h : e.Contained lines allwidth) :
    e.ContainedTo lines allwidth e.lastColumn := ⟨h.1.within, h.2⟩

/-- A motion within the screen. -/
theorem ContainedTo.move (h : e.ContainedTo lines allwidth mw) {x y : Int}
    (hx : 0 ≤ x ∧ x ≤ allwidth) (hy : 0 ≤ y ∧ y ≤ lines) :
    ContainedTo lines allwidth mw { e with x := x, y := y } := ⟨h.1.move hx hy, h.2⟩

theorem switchin_translates (h : Translating e.tw e.trinbuf e.trinx) (k : InTranslation) :
    Translating (e.switchin k).tw (e.switchin k).trinbuf (e.switchin k).trinx := by
  unfold Emulation.switchin
  split
  · exact h
  · simp only
    split_ifs
    · exact ⟨h.1, rfl, rfl⟩
    · exact h

theorem switchin_containedTo (h : e.ContainedTo lines allwidth mw) (k : InTranslation) :
    (e.switchin k).ContainedTo lines allwidth mw := by
  refine ⟨?_, switchin_translates h.2 k⟩
  rw [switchin_screen]
  exact h.1

theorem trflush_containedTo (h : e.ContainedTo lines allwidth mw) :
    e.trflush.ContainedTo lines allwidth mw := by
  unfold Emulation.trflush
  split
  · exact h
  · exact ⟨h.1, h.2.1, rfl, rfl⟩

theorem wrapTranslation_translates (h : Translating e.tw e.trinbuf e.trinx) :
    Translating e.wrapTranslation.tw e.wrapTranslation.trinbuf e.wrapTranslation.trinx := by
  rw [Emulation.wrapTranslation]
  split_ifs
  · exact switchin_translates h .outgoing
  · exact h

/-- A routine that wraps the cursor first. -/
theorem wrapping_contained (h : e.Contained lines allwidth) {f : VSscrn → VSscrn}
    (hf : (f e.toVSscrn).Bounded lines allwidth) : (e.wrapping f).Contained lines allwidth := by
  refine ⟨?_, wrapTranslation_translates h.2⟩
  rw [wrapping_screen]
  exact hf

theorem VSIindex_containedTo (h : e.ContainedTo lines allwidth mw) :
    e.VSIindex.ContainedTo lines allwidth mw :=
  switchin_containedTo (e := e.onScreen VSscrn.VSIindex) ⟨VSscrn.VSIindex_within h.1, h.2⟩ _

theorem lineFeed_containedTo (h : e.ContainedTo lines allwidth mw) :
    e.lineFeed.ContainedTo lines allwidth mw :=
  VSIindex_containedTo (e := e.onScreen (·.setWrap false)) ⟨VSscrn.setWrap_within h.1 false, h.2⟩

theorem backspace_containedTo (h : e.ContainedTo lines allwidth mw) :
    e.backspace.ContainedTo lines allwidth mw := by
  have hx := h.1.column_range
  rw [Emulation.backspace]
  split_ifs with hpos
  · exact h.move (by omega) h.1.row_range
  · exact h

theorem nextTab_range (e : Emulation τ) (fuel : ℕ) (current : Int) (h : current ≤ e.maxwidth) :
    current ≤ e.nextTab fuel current ∧ e.nextTab fuel current ≤ e.maxwidth := by
  -- the search moves to the right and stops at `maxwidth`
  induction fuel generalizing current with
  | zero => exact ⟨le_rfl, h⟩
  | succ fuel ih =>
    rw [Emulation.nextTab]
    split_ifs with hstop
    · have hnext := ih (current+1) (by omega)
      omega
    · exact ⟨le_rfl, h⟩

theorem VSItab_containedTo (h : e.ContainedTo lines allwidth mw) :
    e.VSItab.ContainedTo lines allwidth mw := by
  have hx := h.1.column_range
  have hwidth := h.1.width
  apply h.move _ h.1.row_range
  rw [Emulation.VSIgetNextTabDistance]
  split_ifs with hend
  · rw [short_eq (by omega) (by omega)]
    omega
  · have htab := nextTab_range e (e.maxwidth-e.x).toNat (e.x+1) (by omega)
    rw [short_eq (by omega) (by omega)]
    omega

theorem control_containedTo (h : e.ContainedTo lines allwidth mw) (c : UInt8) :
    (e.control c).ContainedTo lines allwidth mw := by
  rw [Emulation.control]
  split_ifs
  · exact ⟨h.1.aside _ _ _, h.2⟩
  · exact ⟨h.1.aside _ _ _, h.2⟩
  · exact ⟨h.1.aside _ _ _, h.2⟩
  · exact ⟨h.1.aside _ _ _, h.2⟩
  · exact trflush_containedTo (backspace_containedTo h)
  · exact VSItab_containedTo h
  · exact lineFeed_containedTo h
  · exact trflush_containedTo
      (h.move ⟨le_rfl, h.1.column_range.1.trans h.1.column_range.2⟩ h.1.row_range)
  · exact h

end Parts

section Text
variable {attrib : BitVec 32} {r : Run}

theorem startRun_containedAt (h : e.ContainedTo lines allwidth mw) :
    (e.startRun mw).1.ContainedAt lines allwidth mw (e.startRun mw).2 := by
  have hx := h.1.column_range
  have hread := h.1.read
  have hlast := VS.lastColumn_le h.1.width.1
  have hwidth := h.1.width
  rw [Emulation.startRun]
  simp only
  split_ifs with hbeyond hwrap
  · -- with autowrap the run starts in the first column of the next line
    have hhome := h.move ⟨le_rfl, hx.1.trans hx.2⟩ h.1.row_range
    have hmarked : ContainedTo lines allwidth mw
        ({ e with x := 0 }.onScreen (·.setWrap true)) :=
      ⟨VSscrn.setWrap_within hhome.1 true, hhome.2⟩
    refine ⟨VSIindex_containedTo hmarked, ?_, rfl⟩
    have hzero (s : VSscrn) : s.VSIindex.x = s.x := by
      rw [VSscrn.VSIindex]
      split_ifs <;> rfl
    rw [VSIindex_screen, hzero]
    exact hread.1
  · -- without it, it writes over the last column
    exact ⟨h.move ⟨hread.1, by omega⟩ h.1.row_range, le_rfl, rfl⟩
  · exact ⟨h, not_lt.mp hbeyond, rfl⟩

/-- Where the cursor is not beyond the last column, insert mode makes room in its line. -/
theorem makeRoom_containedAt {clear : Bool} (h : e.ContainedAt lines allwidth mw r)
    (hroom : e.makeRoom clear = some e') : e'.ContainedAt lines allwidth mw r := by
  have hle : e.x ≤ e.lastColumn := h.2.1.trans h.1.1.read.2
  rw [Emulation.makeRoom] at hroom
  split_ifs at hroom
  · obtain ⟨s, hs, rfl⟩ := Option.map_eq_some_iff.mp hroom
    obtain ⟨m, rfl⟩ := VSscrn.VSIinschar_form hs
    -- the insertion wraps only a cursor beyond the last column
    have hidle := VSscrn.VSIwrapnow_idle hle
    rw [hidle]
    exact ⟨⟨h.1.1.of_buf ⟨rfl, rfl⟩, wrapTranslation_translates h.1.2⟩, h.2⟩
  · rw [← Option.some.inj hroom]
    exact h

theorem putCell_containedAt (h : e.ContainedAt lines allwidth mw r) (r' : Run) (k : Int) (c : UInt8)
    (a : BitVec 32) : (e.putCell r' k c a).ContainedAt lines allwidth mw r :=
  ⟨⟨h.1.1.of_buf ⟨rfl, rfl⟩, h.1.2⟩, h.2⟩

theorem putCells_containedAt (h : e.ContainedAt lines allwidth mw r) (r' : Run) (k : Int)
    (a : BitVec 32) (cs : List UInt8) :
    (e.putCells r' k a cs).ContainedAt lines allwidth mw r := by
  induction cs generalizing e k with
  | nil => exact h
  | cons c cs ih => exact ih (putCell_containedAt h r' k c a) (k+1)

theorem tagLast_containedAt (h : e.ContainedAt lines allwidth mw r) (attrib : BitVec 32)
    (r' : Run) (out : List UInt8) : (e.tagLast attrib r' out).ContainedAt lines allwidth mw r := by
  rw [Emulation.tagLast]
  split_ifs
  · exact h
  · exact putCell_containedAt h r' _ _ _

/-- Behind a character the cursor is in the next column, or stays in the last one. -/
theorem advance_contained (h : e.ContainedAt lines allwidth mw r) (sx : Int) :
    (e.advance mw { r with sx := sx }).Holds (fun r => ContainedAt lines allwidth mw r)
      (fun e => e.ContainedTo lines allwidth mw) := by
  obtain ⟨hin, hle, hcur⟩ := h
  have hx := hin.1.column_range
  have hread := hin.1.read
  have hlast := VS.lastColumn_le hin.1.width.1
  have hwidth := hin.1.width
  have hnext : short (e.x+1) = e.x+1 := short_eq (by omega) (by omega)
  rw [Emulation.advance]
  split_ifs with hroom hwrap
  -- the next column of the line
  · refine ⟨hin.move (by omega) hin.1.row_range, ?_, ?_⟩
    · change short (e.x+1) ≤ mw
      omega
    · change r.cur+1 = short (e.x+1)
      omega
  -- one column beyond the last one, where the next character wraps
  · exact hin.move (by omega) hin.1.row_range
  -- the last column again
  · have hend : mw = e.x := by omega
    exact ⟨hin.move (by omega) hin.1.row_range, le_rfl, hcur.trans hend.symm⟩

/-- One character takes the place of the octet that it was. -/
theorem putTranslated_contained (h : e.ContainedAt lines allwidth mw r) (c : UInt8)
    (trattr : BitVec 32) : (e.putTranslated attrib mw r [c] trattr).Holds
      (fun r => ContainedAt lines allwidth mw r) (fun e => e.ContainedTo lines allwidth mw) := by
  rw [Emulation.putTranslated]
  cases hroom : e.makeRoom true with
  | none => trivial
  | some e₁ =>
    have hmade := makeRoom_containedAt h hroom
    -- nothing was pending, so the character goes where the octet was to go
    have hcur : r.cur-e₁.trinx+([c] : List UInt8).length-1 = r.cur := by
      rw [hmade.1.2.2.2, List.length_singleton]
      omega
    simp only
    rw [hcur]
    have hput := putCells_containedAt hmade r (r.cur-e₁.trinx) trattr [c]
    generalize e₁.putCells r (r.cur-e₁.trinx) trattr [c] = e₂ at *
    have htag := tagLast_containedAt (e := { e₂ with lastchar := [c].getLastD 0 }) hput attrib r
      [c]
    split_ifs
    · have huntag := putCell_containedAt htag r r.cur ([c].getLastD 0) attrib
      apply advance_contained (r := r)
      exact ⟨⟨huntag.1.1, huntag.1.2.1, rfl, rfl⟩, huntag.2⟩
    · apply advance_contained (r := r) _ r.sx
      exact ⟨⟨htag.1.1, htag.1.2.1, rfl, rfl⟩, htag.2⟩

theorem typed_contained (h : e.ContainedAt lines allwidth mw r) (c : UInt8) :
    (e.typed attrib mw r c).Holds (fun r => ContainedAt lines allwidth mw r)
      (fun e => e.ContainedTo lines allwidth mw) := by
  unfold Emulation.typed
  split
  · split
    · trivial
    · rename_i e₁ hmade
      have hroom := makeRoom_containedAt (e := { e with lastchar := c }) h hmade
      exact advance_contained (putCell_containedAt hroom r r.cur c attrib) r.sx
  · rename_i tw htw
    obtain ⟨hsingle, hpending, hinx⟩ := h.1.2
    -- the octet alone is translated
    obtain ⟨tr', c', htr⟩ := hsingle tw htw e.tr c
    simp only [hpending, List.nil_append, htr]
    rw [if_neg (List.cons_ne_nil _ _)]
    apply putTranslated_contained
    exact ⟨⟨h.1.1, hsingle, rfl, hinx⟩, h.2⟩

end Text

section Sequence

theorem shortCut_contained (h : e.Contained lines allwidth) (c : UInt8) (rest : List UInt8) :
    (e.shortCut c rest).e.Contained lines allwidth := by
  rw [Emulation.shortCut]
  split_ifs
  · exact h
  · exact h

theorem reverse_contained (h : e.Contained lines allwidth) (hrows : e.ReverseInRows) :
    (e.onScreen VSscrn.VSIrindex).Contained lines allwidth :=
  ⟨VSscrn.VSIrindex_bounded h.1 hrows, h.2⟩

theorem nextLine_containedTo (h : e.ContainedTo lines allwidth mw) :
    (lineFeed { e with x := 0 }).ContainedTo lines allwidth mw :=
  lineFeed_containedTo (h.move ⟨le_rfl, h.1.column_range.1.trans h.1.column_range.2⟩ h.1.row_range)

theorem c1_contained (h : e.ContainedTo lines allwidth mw) {c : UInt8}
    (hrows : c = 0x8d → e.ReverseInRows) (escflags : ℕ) (cs : List UInt8) :
    (c1 ⟨e, .esc_root, escflags, c :: cs⟩).Contained lines allwidth mw := by
  simp only [Emulation.c1]
  split_ifs with _ _ _ _ hreverse
  · exact shortCut_contained (lineFeed_containedTo h).contained c cs
  · exact shortCut_contained (nextLine_containedTo h).contained c cs
  · exact shortCut_contained (e := e.setTab true) h.contained c cs
  · exact shortCut_contained (reverse_contained h.contained (hrows hreverse)) c cs
  · exact h
  · exact h
  · exact shortCut_contained h.contained c cs
  · exact h

theorem Contained.move (h : e.Contained lines allwidth) {x y : Int} (hx : 0 ≤ x ∧ x ≤ allwidth)
    (hy : 0 ≤ y ∧ y ≤ lines) : Contained lines allwidth { e with x := x, y := y } :=
  ⟨h.1.move hx hy, h.2⟩

/-- Any cursor is constrained to the screen. -/
theorem VSIrange_contained (h : e.Contained lines allwidth) (x y : Int) :
    (VSIrange { e with x := x, y := y }).Contained lines allwidth := by
  have hlast := h.1.last
  have hle := VS.lastColumn_le h.1.width.1
  have hwidth := h.1.width
  have hrows := h.1.rows
  have hlines := h.1.lines_eq
  -- with autowrap one column beyond the last one is allowed, which is still allocated
  have hwrap : (0 : Int) ≤ (if e.DECAWM then 1 else 0) ∧ (if e.DECAWM then 1 else 0 : Int) ≤ 1 := by
    split_ifs <;> decide
  apply h.move
  · change 0 ≤ (if (if x < 0 then 0 else x) > e.lastColumn+(if e.DECAWM then 1 else 0) then
        short (e.lastColumn+(if e.DECAWM then 1 else 0)) else if x < 0 then 0 else x) ∧
      (if (if x < 0 then 0 else x) > e.lastColumn+(if e.DECAWM then 1 else 0) then
        short (e.lastColumn+(if e.DECAWM then 1 else 0)) else if x < 0 then 0 else x) ≤ allwidth
    generalize (if e.DECAWM then 1 else 0 : Int) = wrap at *
    rw [short_eq (by omega) (by omega)]
    split_ifs <;> omega
  · change 0 ≤ (if (if y < 0 then 0 else y) > e.buf.lines then e.buf.lines
        else if y < 0 then 0 else y) ∧
      (if (if y < 0 then 0 else y) > e.buf.lines then e.buf.lines
        else if y < 0 then 0 else y) ≤ lines
    split_ifs <;> omega

theorem VSIrestore_contained (h : e.Contained lines allwidth) :
    e.VSIrestore.Contained lines allwidth := by
  rw [Emulation.VSIrestore]
  split_ifs
  · exact h
  · have hback := VSIrange_contained h e.Px e.Py
    exact ⟨hback.1.aside _ _ _, hback.2⟩

theorem VSIreset_contained (h : e.Contained lines allwidth) :
    e.VSIreset.Contained lines allwidth := by
  have hrows := h.1.rows
  have hlines := h.1.lines_eq
  have hhome := (h.1.move ⟨le_rfl, h.1.column_range.1.trans h.1.column_range.2⟩
    ⟨le_rfl, h.1.row_range.1.trans h.1.row_range.2⟩).aside e.vtemulation 0 true
  -- the region becomes the whole screen, which has two rows at least
  have hregion : VSscrn.Bounded lines allwidth { e.toVSscrn with
      top := 0, bottom := e.buf.lines, DECCM := true, attrib := 0, x := 0, y := 0 } :=
    ⟨⟨hhome.row, hhome.column, ⟨le_rfl, (show (0 : Int) < e.buf.lines by omega), le_rfl⟩⟩,
      hlines, h.1.allwidth_eq, hrows, h.1.width, h.1.last⟩
  exact ⟨VSscrn.VSIes_bounded hregion e.ESscroll, h.2.1, rfl, rfl⟩

theorem basic_contained (h : e.ContainedTo lines allwidth mw) (escflags : ℕ) {c : UInt8}
    (hc : (BasicChar.of c).KeepsBounds e) : (e.basic escflags c).Contained lines allwidth mw := by
  rw [Emulation.basic]
  generalize BasicChar.of c = ch at *
  cases ch with
  | backspace => exact backspace_containedTo h
  | csi => exact h
  | save => exact h.contained
  | restore => exact VSIrestore_contained h.contained
  | reset => exact VSIreset_contained h.contained
  | index => exact (lineFeed_containedTo h).contained
  | nextLine => exact (nextLine_containedTo h).contained
  | reverse => exact reverse_contained h.contained hc
  | DECPAM on => exact h.contained
  | state st => exact h
  | setTab => exact h.contained
  | osc =>
    simp only
    split_ifs
    · exact h
    · exact h.contained
  | url => exact h
  | other => exact h.contained

/-- A new size of the line halves its columns, of which there must be two. -/
theorem lineSize_contained (h : e.Contained lines allwidth) (lattrib : BitVec 16)
    (hlast : 0 ≤ (e.lineSize lattrib).lastColumn) :
    (e.lineSize lattrib).Contained lines allwidth :=
  ⟨⟨⟨h.1.row, h.1.column, h.1.margins⟩, h.1.lines_eq, h.1.allwidth_eq, h.1.rows, h.1.width, hlast⟩,
    h.2⟩

/-- A line of single height has all its columns. -/
theorem lineSize_single (e : Emulation τ) {k : BitVec 16}
    (hk : k = 0 ∨ k = kVSdecdhlt ||| kVSdecdhlb) : (e.lineSize k).lastColumn = e.maxwidth := by
  -- neither bit, or both: the size that halves the columns has one of them
  have hfull : VSisdecdwh ((e.lattrib &&& ~~~(kVSdecdhlt ||| kVSdecdhlb)) ||| k) = false := by
    have hmask : (e.lattrib &&& ~~~(kVSdecdhlt ||| kVSdecdhlb) ||| k) &&&
        (kVSdecdhlt ||| kVSdecdhlb) = k &&& (kVSdecdhlt ||| kVSdecdhlb) := by
      rw [BitVec.and_or_distrib_right, BitVec.and_assoc]
      have hnone : ~~~(kVSdecdhlt ||| kVSdecdhlb) &&& (kVSdecdhlt ||| kVSdecdhlb) = 0 := by decide
      rw [hnone]
      exact (congrArg (· ||| _) BitVec.and_zero).trans BitVec.zero_or
    simp only [VSisdecdwh, VSisdecdwl, hmask]
    rcases hk with rfl | rfl <;> decide
  change (if VSisdecdwh ((e.lattrib &&& ~~~(kVSdecdhlt ||| kVSdecdhlb)) ||| k) then _
    else e.maxwidth) = _
  rw [hfull]
  rfl

theorem lastColumn_nonneg {s : VSscrn} (h : 0 ≤ s.maxwidth) (hne : s.maxwidth ≠ 0) :
    0 ≤ s.lastColumn := by
  simp only [VSscrn.lastColumn, Int.shiftRight_eq_div_pow]
  split_ifs <;> omega

theorem decl_contained (h : e.ContainedTo lines allwidth mw) (escflags : ℕ) {c : UInt8}
    (hc : c = 0x33 ∨ c = 0x34 → e.maxwidth ≠ 0) :
    (e.decl escflags c).Contained lines allwidth mw := by
  have hwidth := h.1.width.1
  have hhalf (k : BitVec 16) (hne : e.maxwidth ≠ 0) :
      (e.lineSize k).Contained lines allwidth :=
    lineSize_contained h.contained k (lastColumn_nonneg (s := (e.lineSize k).toVSscrn) hwidth hne)
  have hwhole {k : BitVec 16} (hk : k = 0 ∨ k = kVSdecdhlt ||| kVSdecdhlb) :
      (e.lineSize k).Contained lines allwidth := by
    apply lineSize_contained h.contained
    rw [lineSize_single e hk]
    exact hwidth
  rw [Emulation.decl]
  split_ifs with _ htop hbottom
  · exact backspace_containedTo h
  · exact hhalf _ (hc (Or.inl htop))
  · exact hhalf _ (hc (Or.inr hbottom))
  · exact hwhole (Or.inl rfl)
  · exact hwhole (Or.inr rfl)
  · exact ⟨VSscrn.VTalign_bounded h.1.toBounded e.ESscroll, h.2⟩
  · exact h.contained

theorem descl_contained (h : e.ContainedTo lines allwidth mw) (escflags : ℕ) (c : UInt8) :
    (e.descl escflags c).Contained lines allwidth mw := by
  have hout := h.contained
  rw [Emulation.descl]
  split_ifs <;> first
    | exact backspace_containedTo h
    | exact ⟨hout.1.aside _ _ _, hout.2⟩

theorem setG0_contained (h : e.Contained lines allwidth) (graphics : Bool) :
    (e.setG0 graphics).Contained lines allwidth := by
  simp only [Emulation.setG0]
  split_ifs <;> exact ⟨h.1.aside _ _ _, h.2⟩

theorem setG1_contained (h : e.Contained lines allwidth) (graphics : Bool) :
    (e.setG1 graphics).Contained lines allwidth := by
  simp only [Emulation.setG1]
  split_ifs <;> exact ⟨h.1.aside _ _ _, h.2⟩

theorem switchMultibyte_contained (h : e.Contained lines allwidth) (k : InTranslation) :
    (e.switchMultibyte k).Contained lines allwidth := by
  rw [Emulation.switchMultibyte]
  split_ifs
  · exact (switchin_containedTo h.containedTo k).contained
  · exact h

theorem G0set_contained (h : e.ContainedTo lines allwidth mw) (escflags : ℕ) (c : UInt8) :
    (e.G0set escflags c).Contained lines allwidth mw := by
  have hout := h.contained
  rw [Emulation.G0set]
  split_ifs
  · exact backspace_containedTo h
  · exact switchMultibyte_contained (setG0_contained hout false) _
  · exact setG0_contained hout true
  · exact switchMultibyte_contained hout _
  · exact switchMultibyte_contained hout _
  · exact hout

theorem G1set_contained (h : e.ContainedTo lines allwidth mw) (escflags : ℕ) (c : UInt8) :
    (e.G1set escflags c).Contained lines allwidth mw := by
  have hout := h.contained
  rw [Emulation.G1set]
  split_ifs
  · exact backspace_containedTo h
  · exact setG1_contained hout false
  · exact setG1_contained hout true
  · exact hout

theorem G2set_contained (h : e.ContainedTo lines allwidth mw) (st : EscState) (escflags : ℕ)
    (c : UInt8) : (e.G2set st escflags c).Contained lines allwidth mw := by
  rw [Emulation.G2set]
  split_ifs
  · exact backspace_containedTo h
  · exact h.contained

theorem G0jset_contained (h : e.ContainedTo lines allwidth mw) (escflags : ℕ) (c : UInt8) :
    (e.G0jset escflags c).Contained lines allwidth mw := by
  have hout := h.contained
  have htext := setG0_contained hout false
  rw [Emulation.G0jset]
  split_ifs <;> first
    | exact backspace_containedTo h
    | exact switchMultibyte_contained htext _
    | exact htext
    | exact hout
    | exact h

theorem G2jset_contained (h : e.ContainedTo lines allwidth mw) (escflags : ℕ) (c : UInt8) :
    (e.G2jset escflags c).Contained lines allwidth mw := by
  have hout := h.contained
  rw [Emulation.G2jset]
  split_ifs
  · exact backspace_containedTo h
  · exact ⟨hout.1.aside _ _ _, hout.2⟩
  · exact hout
  · exact hout

theorem url_contained (h : e.ContainedTo lines allwidth mw) (escflags : ℕ) (c : UInt8) :
    (e.url escflags c).Contained lines allwidth mw := by
  rw [Emulation.url]
  split_ifs <;> first
    | exact h
    | exact h.contained

end Sequence

section Command

theorem title_containedTo (h : e.ContainedTo lines allwidth mw) (before : UInt8)
    (cs : List UInt8) : (e.title before cs).1.ContainedTo lines allwidth mw := by
  induction cs generalizing e before with
  | nil => exact h
  | cons c cs ih =>
    rw [Emulation.title]
    split_ifs
    · exact h
    · exact ih (e := { e with tempstr := e.tempstr ++ [c] }) h c
    · exact ih h c

theorem endTitle_contained {p : Pass τ} (h : p.e.ContainedTo lines allwidth mw) (before : UInt8) :
    (endTitle p before).Contained lines allwidth mw := by
  have htitle := title_containedTo h before p.rest
  rw [Emulation.endTitle]
  split
  · rename_i e last hread
    rw [hread] at htitle
    exact htitle
  · rename_i e last c cs hread
    rw [hread] at htitle
    simp only
    split_ifs
    · exact shortCut_contained (e := { e with wname := e.tempstr }) htitle.contained _ _
    · exact shortCut_contained (e := { e with wname := e.tempstr }) htitle.contained _ _

theorem paletteDigit_contained {p : Pass τ} (h : p.e.ContainedTo lines allwidth mw) :
    (paletteDigit p).Contained lines allwidth mw := by
  rw [Emulation.paletteDigit]
  split
  · exact h
  · simp only
    split_ifs
    · apply shortCut_contained
      rw [Emulation.RSsetcolors]
      split_ifs
      · exact h.contained
      · exact h.contained
    · exact h
    · exact shortCut_contained h.contained _ _

theorem oscCommand_contained {p : Pass τ} (h : p.e.ContainedTo lines allwidth mw)
    (before : UInt8) : (oscCommand before p).Contained lines allwidth mw := by
  rw [Emulation.oscCommand]
  split_ifs
  · split
    · exact h
    · split_ifs
      · apply endTitle_contained
        exact h
      · exact h
  · exact endTitle_contained h before
  · exact paletteDigit_contained h
  · exact h

theorem osc_contained {p : Pass τ} (h : p.e.ContainedTo lines allwidth mw) (before : UInt8) :
    (osc before p).Contained lines allwidth mw := by
  rw [Emulation.osc]
  split
  · exact h
  · split_ifs
    · apply oscCommand_contained
      exact h
    · apply oscCommand_contained
      exact h
    · exact shortCut_contained (e := p.e.RSresetcolors) h.contained _ _
    · exact shortCut_contained h.contained _ _
    · exact oscCommand_contained h before
    · exact h

end Command

end Emulation

end VS
