import MacSSH.EmulationSteps
import MacSSH.SizeTracking

/-! What the steps of the emulation make of the size of the cursor line. -/
namespace VS

open Linked

variable {τ : Type}

namespace VSscrn

/-- The last column as the attributes say that are stored for the cursor row. -/
def rowWidth (s : VSscrn) : Int :=
  { s with lattrib := s.buf.mem.lattr (s.buf.row s.y) }.lastColumn

/-- The size is the one of the cursor row, and `mw` the last column that it makes. -/
structure Tracks (s : VSscrn) (mw : Int) : Prop where
  agree : s.SizesAgree
  width : mw = s.lastColumn

/-- The cursor stays in its row, and the row keeps its last column. -/
structure Rests (s s' : VSscrn) : Prop extends Stays s s' where
  maxwidth : s'.maxwidth = s.maxwidth

/-- Moving on to the next line within the main loop. The last column is not read again, so
that the line which the cursor leaves must have all its columns. -/
def FeedKeeps (s : VSscrn) : Prop := s.IndexKeeps ∧ VSisdecdwh (s.buf.rowSize s.y) = false

/-- The row `y` has the size of the cursor row. -/
def SameSize (s : VSscrn) (y : Int) : Prop := s.buf.rowSize y = s.buf.rowSize s.y

/-- The cursor is in a row of single size. -/
def OnSingle (s : VSscrn) : Prop := s.buf.rowSize s.y = 0 ∧ 0 ≤ s.y ∧ s.y ≤ s.buf.lines

section Width
variable {s s' s'' : VSscrn} {mw : Int}

theorem lastColumn_congr (hl : s'.lattrib &&& sizeBits = s.lattrib &&& sizeBits)
    (hw : s'.maxwidth = s.maxwidth) : s'.lastColumn = s.lastColumn := by
  have hdwh : VSisdecdwh s'.lattrib = VSisdecdwh s.lattrib := by
    unfold sizeBits at hl
    simp only [VSisdecdwh, VSisdecdwl, hl]
  rw [lastColumn, lastColumn, hdwh, hw]

theorem VSisdecdwh_size (l : BitVec 16) : VSisdecdwh (l &&& sizeBits) = VSisdecdwh l := by
  have hmask : l &&& sizeBits &&& (kVSdecdhlt ||| kVSdecdhlb) =
      l &&& (kVSdecdhlt ||| kVSdecdhlb) := by
    rw [sizeBits, BitVec.and_assoc, BitVec.and_self]
  simp only [VSisdecdwh, VSisdecdwl, hmask]

theorem SizesAgree.lastColumn_eq (h : s.SizesAgree) : s.lastColumn = s.rowWidth :=
  @lastColumn_congr { s with lattrib := s.buf.mem.lattr (s.buf.row s.y) } s h.symm rfl

theorem Rests.refl (s : VSscrn) : s.Rests s := ⟨⟨Moves.refl s, rfl⟩, rfl⟩

theorem Rests.trans (h : s.Rests s') (h' : s'.Rests s'') : s.Rests s'' :=
  ⟨h.toStays.trans h'.toStays, h'.maxwidth.trans h.maxwidth⟩

theorem Rests.tracks (h : s.Rests s') (hs : s.Tracks mw) : s'.Tracks mw where
  agree := h.toStays.agree hs.agree
  width := hs.width.trans (lastColumn_congr (by rw [h.lattrib]) h.maxwidth).symm

/-- A screen without lines of double size, or a condition under which the sizes agree. -/
theorem SizesAgree.either {P : Prop} (h : s.SizesAgree) (hc : AllSingle s.buf ∨ P)
    (hplain : s.Plain → s'.Plain) (hagree : P → s'.SizesAgree) : s'.SizesAgree := by
  rcases hc with hall | hp
  · exact (hplain (h.plain hall)).agree
  · exact hagree hp

theorem Moves.either (h : s.SizesAgree) (hm : s.Moves s') (hc : AllSingle s.buf ∨ s.SameSize s'.y) :
    s'.SizesAgree := h.either hc hm.plain (hm.agree h)

theorem VSIindex_maxwidth (s : VSscrn) : s.VSIindex.maxwidth = s.maxwidth := by
  rw [VSIindex]
  split_ifs <;> rfl

theorem VSIindex_lattrib (s : VSscrn) : s.VSIindex.lattrib = 0 := by
  rw [VSIindex]

theorem VSIindex_either (h : s.SizesAgree) (hc : AllSingle s.buf ∨ s.IndexKeeps) :
    s.VSIindex.SizesAgree := h.either hc VSIindex_plain VSIindex_agree

/-- A line that has all its columns makes room for one that has, too. -/
theorem VSIindex_lastColumn (h : VSisdecdwh s.lattrib = false) :
    s.VSIindex.lastColumn = s.lastColumn := by
  rw [lastColumn, lastColumn, VSIindex_lattrib, VSIindex_maxwidth, h]
  rfl

theorem VSIindex_tracks (h : s.Tracks mw) (hc : AllSingle s.buf ∨ s.FeedKeeps) :
    s.VSIindex.Tracks mw := by
  have hfull : VSisdecdwh (s.buf.rowSize s.y) = false := by
    rcases hc with hall | hfeed
    · rw [VSbuf.rowSize, hall]
      decide
    · exact hfeed.2
  rw [h.agree, VSisdecdwh_size] at hfull
  refine ⟨VSIindex_either h.agree (hc.imp_right And.left), ?_⟩
  rw [VSIindex_lastColumn hfull]
  exact h.width

theorem setWrap_size (s : VSscrn) (wraps : Bool) (y : Int) :
    (s.setWrap wraps).buf.rowSize y = s.buf.rowSize y := setWrap_rowSize s wraps _

theorem setWrap_agree (h : s.SizesAgree) (wraps : Bool) : (s.setWrap wraps).SizesAgree :=
  (setWrap_size s wraps s.y).trans h

theorem setWrap_tracks (h : s.Tracks mw) (wraps : Bool) : (s.setWrap wraps).Tracks mw :=
  ⟨setWrap_agree h.agree wraps, h.width⟩

theorem setWrap_single (h : AllSingle s.buf) (wraps : Bool) : AllSingle (s.setWrap wraps).buf :=
  fun p => (setWrap_rowSize s wraps p).trans (h p)

theorem setWrap_feedKeeps (h : s.FeedKeeps) (wraps : Bool) : (s.setWrap wraps).FeedKeeps := by
  refine ⟨setWrap_indexKeeps h.1 wraps, ?_⟩
  change VSisdecdwh ((s.setWrap wraps).buf.rowSize s.y) = false
  rw [setWrap_size]
  exact h.2

theorem VSIwrapnow_tracks (h : s.Tracks mw)
    (hc : AllSingle s.buf ∨ (s.x > s.lastColumn → s.FeedKeeps)) : s.VSIwrapnow.Tracks mw := by
  rw [VSIwrapnow]
  split_ifs with hx
  · apply VSIindex_tracks (s := { s with x := 0 }) ⟨h.agree, h.width⟩
    rcases hc with hall | hfeed
    · exact Or.inl hall
    · obtain ⟨hindex, hfull⟩ := hfeed hx
      exact Or.inr ⟨hindex.of_x 0, hfull⟩
  · exact h

theorem VSIwrapnow_either (h : s.SizesAgree) (hc : AllSingle s.buf ∨ s.WrapKeeps) :
    s.VSIwrapnow.SizesAgree := h.either hc VSIwrapnow_plain (VSIwrapnow_agree h)

theorem VSIinschar_rests {n : Int} {clear : Bool} (h : s.VSIinschar n clear = some s') :
    s.VSIwrapnow.Rests s' := by
  refine ⟨VSIinschar_stays h, ?_⟩
  rw [VSIinschar] at h
  simp only at h
  split_ifs at h
  · rw [← Option.some.inj h]
  · rw [← Option.some.inj h]

end Width

end VSscrn

namespace Emulation
variable {e e' : Emulation τ} {mw : Int}

section Rest
variable (e : Emulation τ)

theorem switchin_screen (k : InTranslation) : (e.switchin k).toVSscrn = e.toVSscrn := by
  unfold Emulation.switchin
  split
  · rfl
  · simp only
    split_ifs <;> rfl

theorem trflush_screen : e.trflush.toVSscrn = e.toVSscrn := by
  unfold Emulation.trflush
  split <;> rfl

theorem wrapTranslation_screen : e.wrapTranslation.toVSscrn = e.toVSscrn := by
  rw [Emulation.wrapTranslation]
  split_ifs
  · exact switchin_screen e .outgoing
  · rfl

theorem wrapping_screen (f : VSscrn → VSscrn) : (e.wrapping f).toVSscrn = f e.toVSscrn :=
  congrArg f (wrapTranslation_screen e)

theorem VSIindex_screen : e.VSIindex.toVSscrn = e.toVSscrn.VSIindex := switchin_screen _ _

theorem lineFeed_screen : e.lineFeed.toVSscrn = (e.toVSscrn.setWrap false).VSIindex :=
  VSIindex_screen _

theorem switchMultibyte_screen (k : InTranslation) :
    (e.switchMultibyte k).toVSscrn = e.toVSscrn := by
  rw [Emulation.switchMultibyte]
  split_ifs
  · exact switchin_screen e k
  · rfl

theorem backspace_rests : e.Rests e.backspace.toVSscrn := by
  rw [Emulation.backspace]
  split_ifs <;> exact ⟨⟨⟨rfl, rfl, rfl⟩, rfl⟩, rfl⟩

theorem setG0_rests (graphics : Bool) : e.Rests (e.setG0 graphics).toVSscrn := by
  simp only [Emulation.setG0]
  split_ifs <;> exact ⟨⟨⟨rfl, rfl, rfl⟩, rfl⟩, rfl⟩

theorem setG1_rests (graphics : Bool) : e.Rests (e.setG1 graphics).toVSscrn := by
  simp only [Emulation.setG1]
  split_ifs <;> exact ⟨⟨⟨rfl, rfl, rfl⟩, rfl⟩, rfl⟩

theorem setG0_switch_rests (graphics : Bool) (k : InTranslation) :
    e.Rests ((e.setG0 graphics).switchMultibyte k).toVSscrn := by
  rw [switchMultibyte_screen]
  exact setG0_rests e graphics

end Rest

theorem lineFeed_tracks (h : e.Tracks mw) (hc : AllSingle e.buf ∨ e.FeedKeeps) :
    e.lineFeed.Tracks mw := by
  rw [lineFeed_screen]
  apply VSscrn.VSIindex_tracks (VSscrn.setWrap_tracks h false)
  rcases hc with hall | hfeed
  · exact Or.inl (VSscrn.setWrap_single hall false)
  · exact Or.inr (VSscrn.setWrap_feedKeeps hfeed false)

theorem lineFeed_agree (h : e.SizesAgree) (hc : AllSingle e.buf ∨ e.IndexKeeps) :
    e.lineFeed.SizesAgree := by
  rw [lineFeed_screen]
  apply VSscrn.VSIindex_either (VSscrn.setWrap_agree h false)
  rcases hc with hall | hindex
  · exact Or.inl (VSscrn.setWrap_single hall false)
  · exact Or.inr (VSscrn.setWrap_indexKeeps hindex false)

/-- The column at which insert mode makes room for a character. -/
def roomColumn (e : Emulation τ) (mw : Int) (c : UInt8) : Option Int :=
  match e.tw with
  | none => some e.x
  | some tw =>
    match (tw.trbuf_nat_mac e.tr (e.trinbuf ++ [c])).2 with
    | .failed => if e.x > mw then none else some e.x
    | .done inlen out =>
      if out = [] ∧ ((e.trinbuf ++ [c]).drop inlen).length < 4 then some (short (e.x+1))
      else some e.x

/-- Making room for a character in column `x` does not go on to the next line, or keeps the
last column. -/
def RoomKeeps (e : Emulation τ) (x : Int) : Prop :=
  e.IRM = true → x > e.lastColumn → e.FeedKeeps

section Text
variable {attrib : BitVec 32} {r : Run} {c : UInt8}

theorem startRun_tracks (h : e.Tracks mw)
    (hc : AllSingle e.buf ∨ (e.x > mw → e.DECAWM = true → e.FeedKeeps)) :
    (e.startRun mw).1.Tracks mw := by
  rw [Emulation.startRun]
  simp only
  split_ifs with hx hwrap
  · rw [VSIindex_screen]
    have hx₀ : VSscrn.Tracks { e.toVSscrn with x := 0 } mw := ⟨h.agree, h.width⟩
    apply VSscrn.VSIindex_tracks (VSscrn.setWrap_tracks hx₀ true)
    rcases hc with hall | hfeed
    · exact Or.inl (VSscrn.setWrap_single (s := { e.toVSscrn with x := 0 }) hall true)
    · obtain ⟨hindex, hfull⟩ := hfeed hx hwrap
      have hfeed₀ : VSscrn.FeedKeeps { e.toVSscrn with x := 0 } := ⟨hindex.of_x 0, hfull⟩
      exact Or.inr (VSscrn.setWrap_feedKeeps hfeed₀ true)
  · exact ⟨h.agree, h.width⟩
  · exact h

theorem makeRoom_tracks {clear : Bool} (h : e.Tracks mw) (hc : AllSingle e.buf ∨ e.RoomKeeps e.x)
    (hroom : e.makeRoom clear = some e') : e'.Tracks mw := by
  rw [Emulation.makeRoom] at hroom
  split_ifs at hroom with hirm
  · obtain ⟨s, hs, rfl⟩ := Option.map_eq_some_iff.mp hroom
    apply (VSscrn.VSIinschar_rests hs).tracks
    apply VSscrn.VSIwrapnow_tracks h
    exact hc.imp_right fun hkeeps => hkeeps hirm
  · rw [← Option.some.inj hroom]
    exact h

theorem putCell_rests (e : Emulation τ) (r : Run) (k : Int) (c : UInt8) (a : BitVec 32) :
    e.Rests (e.putCell r k c a).toVSscrn := ⟨⟨⟨rfl, rfl, rfl⟩, rfl⟩, rfl⟩

theorem putCells_rests (e : Emulation τ) (r : Run) (k : Int) (a : BitVec 32) (cs : List UInt8) :
    e.Rests (e.putCells r k a cs).toVSscrn := by
  induction cs generalizing e k with
  | nil => exact VSscrn.Rests.refl _
  | cons c cs ih => exact (putCell_rests e r k c a).trans (ih _ _)

theorem tagLast_rests (e : Emulation τ) (attrib : BitVec 32) (r : Run) (out : List UInt8) :
    e.Rests (e.tagLast attrib r out).toVSscrn := by
  rw [Emulation.tagLast]
  split_ifs
  · exact VSscrn.Rests.refl _
  · exact putCell_rests e r _ _ _

theorem advance_tracks (h : e.Tracks mw) (mw' : Int) (r : Run) :
    (e.advance mw' r).Holds (fun _ e' => e'.Tracks mw) (fun e' => e'.Tracks mw) := by
  rw [Emulation.advance]
  split_ifs <;> exact ⟨h.agree, h.width⟩

theorem putTranslated_tracks {trattr : BitVec 32} {out : List UInt8} (h : e.Tracks mw)
    (hc : AllSingle e.buf ∨ e.RoomKeeps e.x) :
    (e.putTranslated attrib mw r out trattr).Holds (fun _ e' => e'.Tracks mw)
      (fun e' => e'.Tracks mw) := by
  rw [Emulation.putTranslated]
  cases hroom : e.makeRoom true with
  | none => trivial
  | some e₁ =>
    simp only
    generalize ({ r with cur := r.cur-e₁.trinx+out.length-1 } : Run) = r'
    have hput := (putCells_rests e₁ r' (r.cur-e₁.trinx) trattr out).tracks
      (makeRoom_tracks h hc hroom)
    generalize e₁.putCells r' (r.cur-e₁.trinx) trattr out = e₂ at *
    have htag := (tagLast_rests { e₂ with lastchar := out.getLastD 0 } attrib r' out).tracks hput
    split_ifs
    · apply advance_tracks
      exact (putCell_rests _ r' _ _ _).tracks htag
    · apply advance_tracks
      exact htag

theorem typed_tracks (h : e.Tracks mw)
    (hc : AllSingle e.buf ∨ ∀ x ∈ e.roomColumn mw c, e.RoomKeeps x) :
    (e.typed attrib mw r c).Holds (fun _ e' => e'.Tracks mw) (fun e' => e'.Tracks mw) := by
  have hroom (x : Int) (hx : e.roomColumn mw c = some x) : AllSingle e.buf ∨ e.RoomKeeps x :=
    hc.imp_right fun hkeeps => hkeeps x hx
  unfold roomColumn at hroom
  unfold Emulation.typed
  split
  · rename_i htw
    simp only [htw] at hroom
    split
    · trivial
    · rename_i e₁ hmade
      have hmade' := makeRoom_tracks (e := { e with lastchar := c }) h (hroom e.x rfl) hmade
      exact advance_tracks ((putCell_rests e₁ r _ _ _).tracks hmade') mw r
  · rename_i tw htw
    simp only [htw] at hroom
    simp only
    split
    · rename_i tr ht
      simp only [ht] at hroom
      split_ifs with hx
      · exact ⟨h.agree, h.width⟩
      · exact ⟨h.agree, h.width⟩
      · have hkeeps := hroom e.x (if_neg hx)
        exact putTranslated_tracks (e := { e with tr := tr, trinbuf := e.trinbuf ++ [c] }) h hkeeps
    · rename_i tr inlen out ht
      simp only [ht] at hroom
      generalize (e.trinbuf ++ [c]).drop inlen = pending at *
      split_ifs with hout hlen
      · have hkeeps := hroom (short (e.x+1)) (if_pos ⟨hout, hlen⟩)
        split
        · trivial
        · rename_i e₁ hmade
          have hmoved : VSscrn.Tracks { e.toVSscrn with x := short (e.x+1) } mw :=
            ⟨h.agree, h.width⟩
          apply makeRoom_tracks _ _ hmade
          · exact hmoved
          · rcases hkeeps with hall | hkeeps
            · exact Or.inl hall
            · apply Or.inr
              intro hirm hx
              obtain ⟨hindex, hfull⟩ := hkeeps hirm hx
              exact ⟨hindex.of_x _, hfull⟩
      · have hkeeps := hroom e.x (if_neg fun h => hlen h.2)
        exact putTranslated_tracks (e := { e with tr := tr, trinbuf := pending }) h hkeeps
      · have hkeeps := hroom e.x (if_neg fun h => hout h.1)
        exact putTranslated_tracks (e := { e with tr := tr, trinbuf := pending }) h hkeeps

end Text

end Emulation

section Sequences
variable {e : Emulation τ} {mw : Int}

/-- The size is tracked in a sequence, and behind its end. -/
abbrev Esc.Tracks (r : Esc τ) (mw : Int) : Prop :=
  r.Leads (fun e => e.toVSscrn.Tracks mw) fun e => e.SizesAgree

abbrev Flow.Tracks (f : Flow τ) (mw : Int) : Prop :=
  f.Leads (fun e => e.toVSscrn.Tracks mw) fun e => e.SizesAgree

/-- A sequence that does not move the cursor. -/
def Esc.Rests (r : Esc τ) (e : Emulation τ) : Prop := r.Holds fun e' => e.Rests e'.toVSscrn

theorem Esc.Rests.tracks {r : Esc τ} (hr : r.Rests e) (h : e.Tracks mw) : r.Tracks mw := by
  cases r with
  | next e' _ _ => exact VSscrn.Rests.tracks hr h
  | shortCut e' => exact (VSscrn.Rests.tracks hr h).agree
  | hang => trivial

theorem shortCut_screen (e : Emulation τ) (c : UInt8) (rest : List UInt8) :
    (e.shortCut c rest).e.toVSscrn = e.toVSscrn := by
  rw [Emulation.shortCut]
  split_ifs <;> rfl

namespace Emulation

theorem descl_rests (e : Emulation τ) (escflags : ℕ) (c : UInt8) :
    (e.descl escflags c).Rests e := by
  rw [Emulation.descl]
  split_ifs <;> first
    | exact backspace_rests e
    | exact ⟨⟨⟨rfl, rfl, rfl⟩, rfl⟩, rfl⟩

theorem G0set_rests (e : Emulation τ) (escflags : ℕ) (c : UInt8) :
    (e.G0set escflags c).Rests e := by
  have hswitch (k : InTranslation) : e.Rests (e.switchMultibyte k).toVSscrn := by
    rw [switchMultibyte_screen]
    exact VSscrn.Rests.refl _
  rw [Emulation.G0set]
  split_ifs
  · exact backspace_rests e
  · exact setG0_switch_rests e _ _
  · exact setG0_rests e _
  · exact hswitch _
  · exact hswitch _
  · exact VSscrn.Rests.refl _

theorem G1set_rests (e : Emulation τ) (escflags : ℕ) (c : UInt8) :
    (e.G1set escflags c).Rests e := by
  rw [Emulation.G1set]
  split_ifs
  · exact backspace_rests e
  · exact setG1_rests e _
  · exact setG1_rests e _
  · exact VSscrn.Rests.refl _

theorem G2set_rests (st : EscState) (e : Emulation τ) (escflags : ℕ) (c : UInt8) :
    (e.G2set st escflags c).Rests e := by
  rw [Emulation.G2set]
  split_ifs
  · exact backspace_rests e
  · exact VSscrn.Rests.refl _

theorem G0jset_rests (e : Emulation τ) (escflags : ℕ) (c : UInt8) :
    (e.G0jset escflags c).Rests e := by
  rw [Emulation.G0jset]
  split_ifs <;> first
    | exact backspace_rests e
    | exact setG0_switch_rests e _ _
    | exact setG0_rests e _
    | exact VSscrn.Rests.refl _

theorem G2jset_rests (e : Emulation τ) (escflags : ℕ) (c : UInt8) :
    (e.G2jset escflags c).Rests e := by
  rw [Emulation.G2jset]
  split_ifs
  · exact backspace_rests e
  · exact ⟨⟨⟨rfl, rfl, rfl⟩, rfl⟩, rfl⟩
  · exact VSscrn.Rests.refl _
  · exact VSscrn.Rests.refl _

theorem url_rests (e : Emulation τ) (escflags : ℕ) (c : UInt8) :
    (e.url escflags c).Rests e := by
  rw [Emulation.url]
  split_ifs <;> exact ⟨⟨⟨rfl, rfl, rfl⟩, rfl⟩, rfl⟩

theorem title_screen (e : Emulation τ) (before : UInt8) (cs : List UInt8) :
    (e.title before cs).1.toVSscrn = e.toVSscrn := by
  induction cs generalizing e before with
  | nil => rfl
  | cons c cs ih =>
    rw [Emulation.title]
    split_ifs
    · rfl
    · rw [ih]
    · exact ih e c

/-- A command to an XTerm leaves the screen as it is. -/
def CommandRests (f : Flow τ) (e : Emulation τ) : Prop :=
  f.Holds fun e' => e'.toVSscrn = e.toVSscrn

theorem endTitle_screen (p : Pass τ) (before : UInt8) : CommandRests (endTitle p before) p.e := by
  have htitle := title_screen p.e before p.rest
  rw [Emulation.endTitle]
  split
  · rename_i e last h
    rw [h] at htitle
    exact htitle
  · rename_i e last c cs h
    rw [h] at htitle
    simp only
    split_ifs
    · exact (shortCut_screen _ _ _).trans htitle
    · exact (shortCut_screen _ _ _).trans htitle

theorem paletteDigit_screen (p : Pass τ) : CommandRests (paletteDigit p) p.e := by
  rw [Emulation.paletteDigit]
  split
  · rfl
  · simp only
    split_ifs
    · refine (shortCut_screen _ _ _).trans ?_
      rw [Emulation.RSsetcolors]
      split_ifs <;> rfl
    · rfl
    · exact shortCut_screen _ _ _

theorem oscCommand_screen (before : UInt8) (p : Pass τ) :
    CommandRests (oscCommand before p) p.e := by
  rw [Emulation.oscCommand]
  split_ifs
  · split
    · rfl
    · split_ifs
      · exact endTitle_screen _ _
      · rfl
  · exact endTitle_screen _ _
  · exact paletteDigit_screen _
  · rfl

theorem osc_screen (before : UInt8) (p : Pass τ) : CommandRests (osc before p) p.e := by
  rw [Emulation.osc]
  split
  · rfl
  · split_ifs
    · exact oscCommand_screen _ _
    · exact oscCommand_screen _ _
    · exact shortCut_screen _ _ _
    · exact shortCut_screen _ _ _
    · exact oscCommand_screen _ _
    · rfl

theorem osc_tracks (h : e.Tracks mw) (before : UInt8) (escflags : ℕ) (rest : List UInt8) :
    (osc before ⟨e, .esc_XTerm, escflags, rest⟩).Tracks mw := by
  have hscreen := osc_screen before ⟨e, .esc_XTerm, escflags, rest⟩
  cases hflow : osc before ⟨e, .esc_XTerm, escflags, rest⟩ with
  | fall p =>
    rw [hflow] at hscreen
    change p.e.toVSscrn = e.toVSscrn at hscreen
    change p.e.toVSscrn.Tracks mw
    rw [hscreen]
    exact h
  | again p =>
    rw [hflow] at hscreen
    change p.e.toVSscrn = e.toVSscrn at hscreen
    change p.e.toVSscrn.SizesAgree
    rw [hscreen]
    exact h.agree
  | hang => trivial

theorem control_tracks {c : UInt8} (h : e.Tracks mw)
    (hc : AllSingle e.buf ∨ (c = 0x0a ∨ c = 0x0b ∨ c = 0x0c → e.FeedKeeps)) :
    (e.control c).Tracks mw := by
  rw [Emulation.control]
  split_ifs with _ _ _ _ _ _ hfeed
  · exact ⟨h.agree, h.width⟩
  · exact ⟨h.agree, h.width⟩
  · exact ⟨h.agree, h.width⟩
  · exact ⟨h.agree, h.width⟩
  · rw [trflush_screen]
    exact (backspace_rests e).tracks h
  · exact ⟨h.agree, h.width⟩
  · exact lineFeed_tracks h (hc.imp_right fun hkeeps => hkeeps hfeed)
  · rw [trflush_screen]
    exact ⟨h.agree, h.width⟩
  · exact h

theorem reverse_agree (h : e.SizesAgree) (hc : AllSingle e.buf ∨ e.ReverseKeeps) :
    e.VSIrindex.SizesAgree := h.either hc VSscrn.VSIrindex_plain (VSscrn.VSIrindex_agree h)

theorem c1_tracks {c : UInt8} (h : e.Tracks mw)
    (hc : AllSingle e.buf ∨
      (c = 0x84 ∨ c = 0x85 → e.IndexKeeps) ∧ (c = 0x8d → e.ReverseKeeps))
    (escflags : ℕ) (cs : List UInt8) :
    (c1 ⟨e, .esc_root, escflags, c :: cs⟩).Tracks mw := by
  have hshort (e' : Emulation τ) (h' : e'.SizesAgree) :
      (e'.shortCut c cs).e.SizesAgree := by
    rw [shortCut_screen]
    exact h'
  simp only [Emulation.c1]
  split_ifs with _ hindex hnext _ hreverse
  · apply hshort
    exact lineFeed_agree h.agree (hc.imp_right fun hkeeps => hkeeps.1 (Or.inl hindex))
  · apply hshort
    apply lineFeed_agree (e := { e with x := 0 }) h.agree
    exact hc.imp_right fun hkeeps => (hkeeps.1 (Or.inr hnext)).of_x 0
  · exact hshort _ h.agree
  · apply hshort
    exact reverse_agree h.agree (hc.imp_right fun hkeeps => hkeeps.2 hreverse)
  · exact h
  · exact h
  · exact hshort e h.agree
  · exact h

end Emulation

end Sequences

end VS
