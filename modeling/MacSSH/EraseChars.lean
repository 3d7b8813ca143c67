import MacSSH.CursorMotion

/-! Erasing characters: the blanks are emulated as text. -/
namespace VS

open Linked

variable {τ : Type}

/-- The cells of a line from column `first` to `last` become blanks. -/
def LineMem.blanked (m : LineMem) (p pa : Ptr) (a : BitVec 32) (first last : Int) : LineMem :=
  { m with
    text := Function.update m.text p fun j => if first ≤ j ∧ j ≤ last then 0x20 else m.text p j
    attr := Function.update m.attr pa fun j => if first ≤ j ∧ j ≤ last then a else m.attr pa j }

/-- The screen with blanks in the cursor line, from the cursor up to column `last`. -/
def VSscrn.blankedTo (s : VSscrn) (last : Int) : VSbuf :=
  { s.buf with
    mem := s.buf.mem.blanked (s.buf.row s.y) (s.buf.cellRow s.y) s.region.blankAttrib s.x last }

/-- The last column that the erasure of `n` characters touches. -/
def VSscrn.eraseEnd (s : VSscrn) (n : Int) : Int := min (s.x+n-1) s.lastColumn

/-- The characters that the parameter asks for become blanks; nothing else changes on the
screen or in the scrollback, and the cursor stays. -/
def Erases (before : UInt8) (e : Emulation τ) (ds : List UInt8) : Prop :=
  ∃ e', Emulation.VSem before e (csiText [ds] 0x58) = some e' ∧ e'.x = e.x ∧ e'.y = e.y ∧
    e'.buf = e.blankedTo (e.eraseEnd (askedCount ds))

/-- The input translation has nothing pending, and a blank is a blank to it. -/
def PassesBlanks (e : Emulation τ) : Prop :=
  ∀ tw, e.tw = some tw → e.trinbuf = [] ∧ e.trinx = 0 ∧
    ∀ k, (tw.trbuf_nat_mac ((fun tr => (tw.trbuf_nat_mac tr [0x20]).1)^[k] e.tr) [0x20]).2 =
      .done 1 [0x20]

/-- `n` blanks of text stay where they are typed: they are not inserted, and autowrap does
not take them to the next line. -/
structure BlanksStay (e : Emulation τ) (n : Int) : Prop where
  overwrites : e.IRM = false
  column : e.x ≤ e.lastColumn
  fits : e.DECAWM = true → e.x+n ≤ e.lastColumn+1
  passes : PassesBlanks e

/-- The column of the cursor behind `k` blanks; without autowrap it stays on the line. -/
def columnBehind (e : Emulation τ) (mw k : Int) : Int :=
  if e.DECAWM then short (e.x+k) else min (e.x+k) mw

/-- The count of characters that the code reads: no parameter is a negative one. -/
def eraseCount (ds : List UInt8) : Int := if numeral ds = 0 then 1 else numeral ds

/-- The cells that should be erased behind those that are, are blank already. -/
def RestBlank (e : Emulation τ) (ds : List UInt8) : Prop :=
  ∀ j, e.x+max 0 (eraseCount ds) ≤ j → j ≤ e.eraseEnd (askedCount ds) → e.cell j = e.blankCell

section Blanks
variable {e e₁ e₂ : Emulation τ} {a : BitVec 32} {mw : Int} {r : Emulation.Run}

theorem blanked_blanked (m : LineMem) (p pa : Ptr) (a : BitVec 32) {first last first' : Int}
    (last' : Int) (h : first ≤ first') (hglue : first' ≤ last+1) :
    (m.blanked p pa a first last).blanked p pa a first' last' =
      m.blanked p pa a first (max last last') := by
  have hiff (j : Int) : first' ≤ j ∧ j ≤ last' ∨ first ≤ j ∧ j ≤ last ↔
      first ≤ j ∧ j ≤ max last last' := by omega
  simp only [LineMem.blanked, Function.update_self, Function.update_idem, ← ite_or, hiff]

theorem blanked_empty (m : LineMem) (p pa : Ptr) (a : BitVec 32) {first last : Int}
    (h : last < first) : m.blanked p pa a first last = m := by
  have hnone (j : Int) : ¬(first ≤ j ∧ j ≤ last) := by omega
  simp only [LineMem.blanked, hnone, if_false]
  rw [Function.update_eq_self, Function.update_eq_self]

theorem putCell_eq_blanked (e : Emulation τ) (r : Emulation.Run) (k : Int) (a : BitVec 32) :
    e.putCell r k 0x20 a =
      { e with buf.mem := e.buf.mem.blanked r.line r.aline a k k } := by
  have hcell {α : Type} (f : Int → α) (v : α) :
      Function.update f k v = fun j => if k ≤ j ∧ j ≤ k then v else f j := by
    funext j
    rcases eq_or_ne j k with rfl | hj
    · rw [Function.update_self, if_pos ⟨le_rfl, le_rfl⟩]
    · rw [Function.update_of_ne hj, if_neg (by omega)]
  rw [Emulation.putCell, LineMem.blanked, hcell, hcell]

theorem putCell_putCell (e : Emulation τ) (r : Emulation.Run) (k : Int) (c c' : UInt8)
    (a a' : BitVec 32) : (e.putCell r k c a).putCell r k c' a' = e.putCell r k c' a' := by
  simp only [Emulation.putCell, Function.update_self, Function.update_idem]

/-- From `e`, blanks with the attribute `a` are typed up to column `last` of the line that
starts at `r`, and the cursor is in column `x`. -/
def Blanked (r : Emulation.Run) (a : BitVec 32) (last x : Int) (e e' : Emulation τ) : Prop :=
  (∃ tr trinbuf trinx trintag parms escflg escflags, e' = { e with
    buf.mem := e.buf.mem.blanked r.line r.aline a e.x last, x := x, tr := tr
    trinbuf := trinbuf, trinx := trinx, trintag := trintag, parms := parms
    escflg := escflg, escflags := escflags }) ∧ PassesBlanks e'

theorem Blanked.trans {last x last' x' : Int} (h : Blanked r a last x e e₁)
    (h' : Blanked r a last' x' e₁ e₂) (hx : e.x ≤ x) (hglue : x ≤ last+1) :
    Blanked r a (max last last') x' e e₂ := by
  obtain ⟨⟨tr, trinbuf, trinx, trintag, parms, escflg, escflags, rfl⟩, -⟩ := h
  obtain ⟨⟨tr', trinbuf', trinx', trintag', parms', escflg', escflags', rfl⟩, hp⟩ := h'
  refine ⟨⟨tr', trinbuf', trinx', trintag', parms', escflg', escflags', ?_⟩, hp⟩
  simp only [blanked_blanked e.buf.mem r.line r.aline a last' hx hglue]

theorem Blanked.refl (h : PassesBlanks e) {last x : Int} (hlast : last < e.x) (hx : x = e.x) :
    Blanked r a last x e e := by
  refine ⟨⟨e.tr, e.trinbuf, e.trinx, e.trintag, e.parms, e.escflg, e.escflags, ?_⟩, h⟩
  rw [blanked_empty _ _ _ _ hlast, hx]

theorem makeRoom_overwrite (hirm : e.IRM = false) (clear : Bool) :
    e.makeRoom clear = some e := by
  rw [Emulation.makeRoom, hirm]
  rfl

/-- The translation of a blank is written where the blank is typed. -/
theorem putTranslated_blank (hirm : e.IRM = false) (hinx : e.trinx = 0) (trattr : BitVec 32) :
    ∃ sx, e.putTranslated a mw r [0x20] trattr =
      ({ e.putCell r r.cur 0x20 a with
        lastchar := 0x20, trintag := false, trinx := 0, trinbuf := [] }).advance mw
          { r with sx := sx } := by
  have hcol : r.cur-e.trinx+([0x20] : List UInt8).length-1 = r.cur := by
    rw [hinx, List.length_singleton]
    omega
  have hcells : e.putCells { r with cur := r.cur } (r.cur-e.trinx) trattr [0x20] =
      e.putCell r r.cur 0x20 trattr := by
    rw [hinx, Int.sub_zero]
    rfl
  have htag : ({ e.putCell r r.cur 0x20 trattr with lastchar := 0x20 } : Emulation τ).tagLast a r
      [0x20] = { e.putCell r r.cur 0x20 a with lastchar := 0x20, trintag := false } := by
    rw [Emulation.tagLast, if_neg fun h => absurd h.2.1 (by decide)]
    exact congrArg (fun e : Emulation τ => { e with lastchar := 0x20, trintag := false })
      (putCell_putCell e r r.cur 0x20 0x20 trattr a)
  have huntag : ({ e.putCell r r.cur 0x20 a with lastchar := 0x20, trintag := false } :
      Emulation τ).untag a r [0x20] =
        { e.putCell r r.cur 0x20 a with lastchar := 0x20, trintag := false } :=
    congrArg (fun e : Emulation τ => { e with lastchar := 0x20, trintag := false })
      (putCell_putCell e r r.cur 0x20 0x20 a a)
  rw [Emulation.putTranslated, makeRoom_overwrite hirm]
  simp only [hcol]
  rw [hcells]
  change ∃ sx, (if (({ e.putCell r r.cur 0x20 trattr with lastchar := 0x20 } :
    Emulation τ).tagLast a r [0x20]).behindTag r then _ else _) = _
  split_ifs
  · refine ⟨r.sx-1, ?_⟩
    exact congrArg (fun e : Emulation τ => ({ e with trinx := 0, trinbuf := [] }).advance mw
      { r with sx := r.sx-1 }) ((congrArg (Emulation.untag · a r [0x20]) htag).trans huntag)
  · refine ⟨r.sx, ?_⟩
    exact congrArg (fun e : Emulation τ => ({ e with trinx := 0, trinbuf := [] }).advance mw r) htag

/-- The last character and the translation are known to a blank that is typed. -/
theorem typed_blank (mw : Int) (hirm : e.IRM = false) (hchar : e.lastchar = 0x20)
    (hp : PassesBlanks e) (hcur : r.cur = e.x) :
    ∃ e' sx, Blanked r a e.x e.x e e' ∧
      e.typed a mw r 0x20 = e'.advance mw { r with sx := sx } := by
  unfold Emulation.typed
  split
  · rename_i htw
    refine ⟨e.putCell r e.x 0x20 a, r.sx, ⟨?_, ?_⟩, ?_⟩
    · rw [putCell_eq_blanked]
      exact ⟨_, _, _, _, _, _, _, rfl⟩
    · intro tw htw'
      change e.tw = some tw at htw'
      rw [htw] at htw'
      cases htw'
    · have hsame : { e with lastchar := 0x20 } = e := by rw [← hchar]
      rw [hsame, makeRoom_overwrite hirm, ← hcur]
  · rename_i tw htw
    obtain ⟨hbuf, hinx, hblank⟩ := hp tw htw
    obtain ⟨tr, hfirst⟩ : ∃ tr, tw.trbuf_nat_mac e.tr [0x20] = (tr, .done 1 [0x20]) :=
      ⟨_, Prod.ext rfl (hblank 0)⟩
    simp only [hbuf, List.nil_append, hfirst, List.drop_succ_cons, List.drop_zero,
      List.cons_ne_nil, if_false]
    obtain ⟨sx, hput⟩ := @putTranslated_blank τ { e with tr := tr, trinbuf := [] } a mw r hirm
      hinx (a ||| kVSansi2b)
    refine ⟨_, sx, ⟨?_, ?_⟩, hput⟩
    · refine ⟨tr, [], 0, false, e.parms, e.escflg, e.escflags, ?_⟩
      rw [putCell_eq_blanked, hcur, ← hchar]
    · intro tw' htw'
      change e.tw = some tw' at htw'
      obtain rfl := Option.some.inj (htw.symm.trans htw')
      refine ⟨rfl, rfl, fun k => ?_⟩
      have hlater := hblank (k+1)
      rw [Function.iterate_succ_apply, hfirst] at hlater
      exact hlater

/-- What typing blanks leaves alone. -/
theorem Blanked.keeps {last x : Int} (h : Blanked r a last x e e₁) :
    e₁.x = x ∧ e₁.DECAWM = e.DECAWM ∧ e₁.IRM = e.IRM ∧ e₁.lastchar = e.lastchar ∧
      PassesBlanks e₁ := by
  obtain ⟨⟨tr, trinbuf, trinx, trintag, parms, escflg, escflags, rfl⟩, hp⟩ := h
  exact ⟨rfl, rfl, rfl, rfl, hp⟩

theorem Blanked.move {last x : Int} (h : Blanked r a last x e e₁) (x' : Int) :
    Blanked r a last x' e { e₁ with x := x' } := by
  obtain ⟨⟨tr, trinbuf, trinx, trintag, parms, escflg, escflags, rfl⟩, hp⟩ := h
  exact ⟨⟨_, _, _, _, _, _, _, rfl⟩, hp⟩

/-- The cursor line, as a run of text on it starts. -/
def cursorRun (e : Emulation τ) : Emulation.Run := ⟨e.buf.row e.y, e.buf.cellRow e.y, e.x, e.x⟩

/-- Typing blanks does not take the cursor to another line. -/
theorem Blanked.line {last x : Int} (h : Blanked r a last x e e₁) :
    (cursorRun e₁).line = (cursorRun e).line ∧ (cursorRun e₁).aline = (cursorRun e).aline ∧
      e₁.lastColumn = e.lastColumn ∧ e₁.attrib = e.attrib := by
  obtain ⟨⟨tr, trinbuf, trinx, trintag, parms, escflg, escflags, rfl⟩, -⟩ := h
  exact ⟨rfl, rfl, rfl, rfl⟩

theorem columnBehind_zero (hx : -32768 ≤ e.x ∧ e.x ≤ 32767)
    (hstay : e.DECAWM = false → e.x ≤ mw) : columnBehind e mw 0 = e.x := by
  rw [columnBehind]
  split_ifs with hawm
  · rw [Int.add_zero, short_eq hx.1 hx.2]
  · have := hstay (by simpa using hawm)
    omega

theorem isText_blank (e : Emulation τ) : e.isText false 0x20 = true := by
  have hlow : ¬(0x20 : UInt8) ≥ 0x80 := by decide
  simp [Emulation.isText, Emulation.isC1, hlow]

/-- A run of blanks that stay where they are typed. -/
theorem runLoop_blanks (k : ℕ) (hirm : e.IRM = false) (hchar : e.lastchar = 0x20)
    (hp : PassesBlanks e) (hcur : r.cur = e.x) (hx : -32768 ≤ e.x ∧ e.x ≤ 32767)
    (hmw : mw ≤ 32767) (hauto : e.DECAWM = true → e.x+k ≤ mw+1)
    (hstay : e.DECAWM = false → e.x ≤ mw) :
    ∃ e', Emulation.runLoop a mw false e r (List.replicate k 0x20) = some (e', []) ∧
      Blanked r a (min (e.x+k-1) mw) (columnBehind e mw k) e e' := by
  induction k generalizing e r with
  | zero =>
    exact ⟨e, rfl, Blanked.refl hp (by omega) (columnBehind_zero hx hstay)⟩
  | succ k ih =>
    obtain ⟨e₁, sx, hblank, htyped⟩ := typed_blank mw hirm hchar hp hcur
    obtain ⟨hx₁, hawm₁, hirm₁, hchar₁, hp₁⟩ := hblank.keeps
    rw [List.replicate_succ, Emulation.runLoop, if_pos (isText_blank e), htyped]
    push_cast at hauto
    by_cases hlt : e.x < mw
    · have hadv : e₁.advance mw { r with sx := sx } =
          .on { e₁ with x := e.x+1 } { r with cur := r.cur+1, sx := sx } := by
        rw [Emulation.advance, hx₁, if_pos hlt, short_eq (by omega) (by omega)]
      obtain ⟨e', hrun, hlater⟩ := @ih { e₁ with x := e.x+1 }
        { r with cur := r.cur+1, sx := sx } (hirm₁.trans hirm) (hchar₁.trans hchar) hp₁
        (congrArg (·+1) hcur) ⟨by simp only; omega, by simp only; omega⟩
        (fun h => by have := hauto (hawm₁ ▸ h); simp only; omega) (fun _ => by simp only; omega)
      rw [hadv]
      refine ⟨e', hrun, ?_⟩
      have hcolumn : columnBehind { e₁ with x := e.x+1 } mw k = columnBehind e mw (k+1 : ℕ) := by
        simp only [columnBehind, hawm₁]
        push_cast
        rw [add_assoc, add_comm 1 (k : Int)]
      have hend : max e.x (min (e.x+1+k-1) mw) = min (e.x+(k+1 : ℕ)-1) mw := by
        push_cast
        omega
      rw [← hcolumn, ← hend]
      exact (hblank.move (e.x+1)).trans hlater (by omega) le_rfl
    · cases hawm : e.DECAWM with
      | false =>
        have hat : e.x = mw := by have := hstay hawm; omega
        have hadv : e₁.advance mw { r with sx := sx } =
            .on { e₁ with x := mw } { r with sx := sx } := by
          rw [Emulation.advance, hx₁, if_neg hlt, hawm₁, hawm, if_neg Bool.false_ne_true]
        obtain ⟨e', hrun, hlater⟩ := @ih { e₁ with x := mw } { r with sx := sx }
          (hirm₁.trans hirm) (hchar₁.trans hchar) hp₁ (hcur.trans hat)
          ⟨by simp only; omega, by simp only; omega⟩
          (fun h => by simp [hawm₁, hawm] at h) (fun _ => le_rfl)
        rw [hadv]
        refine ⟨e', hrun, ?_⟩
        have hcolumn : columnBehind { e₁ with x := mw } mw k =
            columnBehind e mw (k+1 : ℕ) := by
          simp only [columnBehind, hawm₁, hawm, Bool.false_eq_true, if_false]
          push_cast
          omega
        have hend : max e.x (min (mw+k-1) mw) = min (e.x+(k+1 : ℕ)-1) mw := by
          push_cast
          omega
        rw [← hcolumn, ← hend]
        exact (hblank.move mw).trans hlater (by omega) (by omega)
      | true =>
        have hlast := hauto hawm
        have hk : k = 0 := by omega
        subst hk
        have hadv : e₁.advance mw { r with sx := sx } =
            .off { e₁ with x := short (e.x+1) } true := by
          rw [Emulation.advance, hx₁, if_neg hlt, hawm₁, hawm, if_pos rfl]
        rw [hadv]
        refine ⟨{ e₁ with x := short (e.x+1) }, rfl, ?_⟩
        have hcolumn : columnBehind e mw (0+1 : ℕ) = short (e.x+1) := by
          rw [columnBehind, hawm, if_pos rfl]
          rfl
        have hend : min (e.x+(0+1 : ℕ)-1) mw = e.x := by
          push_cast
          omega
        rw [hcolumn, hend]
        exact hblank.move _

/-- The text part of a pass takes a chunk of blanks whole. -/
theorem text_blanks {n : ℕ} (hin : e.x ≤ e.lastColumn)
    (hrun : Emulation.runLoop e.attrib e.lastColumn false e (cursorRun e)
      (List.replicate (n+1) 0x20) = some (e₁, [])) (flags : ℕ) :
    Emulation.text e.lastColumn false ⟨e, .esc_root, flags, 0x20 :: List.replicate n 0x20⟩ =
      .fall ⟨e₁, .esc_root, flags, []⟩ := by
  have hstart : e.startRun e.lastColumn = (e, cursorRun e) := by
    simp only [Emulation.startRun, if_neg (not_lt.mpr hin)]
    rfl
  have htext (fuel : ℕ) : Emulation.textLoop e.lastColumn false (fuel+1) e
      (0x20 :: List.replicate n 0x20) = some (e₁, []) := by
    rw [List.replicate_succ] at hrun
    rw [Emulation.textLoop, if_pos (isText_blank e)]
    simp only [hstart, hrun]
    cases fuel <;> rfl
  rw [Emulation.text, if_pos rfl, htext]

theorem mainLoop_blanks {n : ℕ} (hground : e.Ground) (hin : e.x ≤ e.lastColumn)
    (hrun : Emulation.runLoop e.attrib e.lastColumn false e (cursorRun e)
      (List.replicate (n+1) 0x20) = some (e₁, [])) (flags : ℕ) :
    Emulation.mainLoop (fun e _ => some e) 0 ⟨e, .esc_root, flags, 0x20 :: List.replicate n 0x20⟩ =
      .fall ⟨e₁, .esc_root, flags, []⟩ := by
  have hplain : IsPlain 0x20 := ⟨by decide, by decide⟩
  rw [mainLoop_text _ 0 hground.screen flags hplain, text_blanks hin hrun, Flow.andThen]
  exact rootParts_idle (fun e _ => some e) 0 ⟨e₁, .esc_root, flags, []⟩ rfl e.lastColumn

/-- A chunk of blanks. -/
theorem repeated_blanks {k : ℕ} (hk : 0 < k) (hground : e.Ground) (hirm : e.IRM = false)
    (hchar : e.lastchar = 0x20) (hp : PassesBlanks e) (hx : -32768 ≤ e.x ∧ e.x ≤ 32767)
    (hmw : e.lastColumn ≤ 32767) (hauto : e.DECAWM = true → e.x+k ≤ e.lastColumn+1)
    (hstay : e.DECAWM = false → e.x ≤ e.lastColumn) :
    ∃ e', repeated e (List.replicate k 0x20) = some e' ∧ e'.Ground ∧ e'.parms = e.parms ∧
      Blanked (cursorRun e) e.attrib (min (e.x+k-1) e.lastColumn)
        (columnBehind e e.lastColumn k) e e' := by
  obtain ⟨n, rfl⟩ : ∃ n, k = n+1 := ⟨k-1, by omega⟩
  obtain ⟨e₁, hrun, hblank⟩ := runLoop_blanks (r := cursorRun e) (a := e.attrib) (n+1) hirm hchar
    hp rfl hx hmw hauto hstay
  have hin : e.x ≤ e.lastColumn := by
    cases hawm : e.DECAWM with
    | false => exact hstay hawm
    | true =>
      have := hauto hawm
      push_cast at this
      omega
  have hloop := mainLoop_blanks hground hin hrun e.escflags
  refine ⟨{ e₁ with escflg := .esc_root, escflags := e.escflags }, ?_, ?_, ?_, ?_⟩
  · rw [repeated, emulate_eq, hground.root, List.replicate_succ,
      drain_step _ 0 (List.cons_ne_nil _ _), hloop]
    exact congrArg (Option.map Pass.final) (drain_nil _ 0 rfl)
  · obtain ⟨_, _, _, _, _, _, _, _, _, rfl⟩ := (runLoop_text hrun).1
    exact ⟨rfl, hground.screen⟩
  · obtain ⟨_, _, _, _, _, _, _, _, _, rfl⟩ := (runLoop_text hrun).1
    rfl
  · obtain ⟨⟨tr, trinbuf, trinx, trintag, parms, escflg, escflags, rfl⟩, hp₁⟩ := hblank
    exact ⟨⟨_, _, _, _, _, _, _, rfl⟩, hp₁⟩

theorem repeatLoop_step {fuel len : ℕ} (hpos : e.parms 0 > 0)
    (hlen : (if e.parms 0 > 256 then 256 else e.parms 0) = (len : Int))
    (inner : Emulation τ → List UInt8 → Option (Emulation τ)) :
    Emulation.repeatLoop inner (fuel+1) e =
      (inner { e.parm 0 (e.parms 0-len) with escflg := .esc_root }
        (List.replicate len e.lastchar)).bind (Emulation.repeatLoop inner fuel) := by
  rw [Emulation.repeatLoop, if_pos hpos]
  simp only [hlen, Int.toNat_natCast]
  split
  · rename_i hnone
    exact (congrArg (Option.bind · _) hnone).symm
  · rename_i e₁ hsome
    exact (congrArg (Option.bind · _) hsome).symm

/-- Where there are more blanks to come, the cursor is still on the line behind some of them. -/
theorem columnBehind_within {k n : Int} (hx : -32768 ≤ e.x ∧ e.x ≤ 32767) (hmw : mw ≤ 32767)
    (hk : 0 < k) (hkn : k < n) (hauto : e.DECAWM = true → e.x+n ≤ mw+1)
    (hstay : e.DECAWM = false → e.x ≤ mw) :
    columnBehind e mw k = (if e.DECAWM then e.x+k else min (e.x+k) mw) ∧
      e.x ≤ columnBehind e mw k ∧ columnBehind e mw k ≤ min (e.x+k-1) mw+1 ∧
      columnBehind e mw k ≤ mw := by
  rw [columnBehind]
  cases hawm : e.DECAWM with
  | false =>
    have hline := hstay hawm
    rw [if_neg Bool.false_ne_true]
    exact ⟨rfl, by omega, by omega, by omega⟩
  | true =>
    have hline := hauto hawm
    rw [if_pos rfl, if_pos rfl, short_eq (by omega) (by omega)]
    exact ⟨rfl, by omega, by omega, by omega⟩

/-- The rest is typed from there. -/
theorem columnBehind_rest {k n : Int} (hkn : k < n)
    (hcol : columnBehind e mw k = if e.DECAWM then e.x+k else min (e.x+k) mw)
    (hx₁ : e₁.x = columnBehind e mw k) (hawm₁ : e₁.DECAWM = e.DECAWM) :
    columnBehind e₁ mw (n-k) = columnBehind e mw n ∧
      max (min (e.x+k-1) mw) (min (e₁.x+(n-k)-1) mw) = min (e.x+n-1) mw := by
  rw [hcol] at hx₁
  constructor
  · have hsum : e.x+k+(n-k) = e.x+n := by omega
    rw [columnBehind, columnBehind, hawm₁, hx₁]
    split_ifs
    · rw [hsum]
    · omega
  · rw [hx₁]
    split_ifs <;> omega

/-- Blanks typed from `e₁` on, which is on the line of `e`. -/
theorem Blanked.from_line {last x last' x' : Int} (h : Blanked r a last x e e₁)
    (h' : Blanked (cursorRun e₁) e₁.attrib last' x' e₁ e₂) :
    Blanked (cursorRun e) e.attrib last' x' e₁ e₂ := by
  obtain ⟨hline, haline, -, hattrib⟩ := h.line
  rw [← hattrib]
  obtain ⟨⟨tr, trinbuf, trinx, trintag, parms, escflg, escflags, rfl⟩, hp⟩ := h'
  rw [hline, haline]
  exact ⟨⟨_, _, _, _, _, _, _, rfl⟩, hp⟩

/-- The first chunk of a repetition. -/
theorem repeat_chunk (hground : e.Ground) (hirm : e.IRM = false) (hchar : e.lastchar = 0x20)
    (hp : PassesBlanks e) (hx : -32768 ≤ e.x ∧ e.x ≤ 32767) (hmw : e.lastColumn ≤ 32767)
    (hauto : e.DECAWM = true → e.x+e.parms 0 ≤ e.lastColumn+1)
    (hstay : e.DECAWM = false → e.x ≤ e.lastColumn) (hpos : e.parms 0 > 0) :
    ∃ (len : ℕ) (e₁ : Emulation τ), 0 < len ∧ len ≤ e.parms 0 ∧
      (∀ fuel, Emulation.repeatLoop repeated (fuel+1) e =
        Emulation.repeatLoop repeated fuel e₁) ∧
      e₁.Ground ∧ e₁.parms 0 = e.parms 0-len ∧
      Blanked (cursorRun e) e.attrib (min (e.x+len-1) e.lastColumn)
        (columnBehind e e.lastColumn len) e e₁ := by
  obtain ⟨len, hlen⟩ : ∃ len : ℕ, (if e.parms 0 > 256 then 256 else e.parms 0) = (len : Int) :=
    ⟨(if e.parms 0 > 256 then 256 else e.parms 0).toNat, by split_ifs <;> omega⟩
  have hlen' : 0 < len ∧ len ≤ e.parms 0 := by
    split_ifs at hlen <;> omega
  have hauto' : e.DECAWM = true → e.x+len ≤ e.lastColumn+1 := by
    intro hawm
    have hroom := hauto hawm
    omega
  obtain ⟨e₁, hrun, hground₁, hparms, hblank⟩ := @repeated_blanks τ
    { e.parm 0 (e.parms 0-len) with escflg := .esc_root } len hlen'.1 ⟨rfl, hground.screen⟩
    hirm hchar hp hx hmw hauto' hstay
  refine ⟨len, e₁, hlen'.1, hlen'.2, ?_, hground₁, ?_, ?_⟩
  · intro fuel
    rw [repeatLoop_step hpos hlen, hchar, hrun, Option.bind_some]
  · rw [hparms]
    simp only [Emulation.parm, Function.update_self]
  · obtain ⟨⟨tr, trinbuf, trinx, trintag, parms, escflg, escflags, rfl⟩, hp₁⟩ := hblank
    exact ⟨⟨_, _, _, _, _, _, _, rfl⟩, hp₁⟩

theorem repeatLoop_done {fuel : ℕ} {inner : Emulation τ → List UInt8 → Option (Emulation τ)}
    (h : ¬e.parms 0 > 0) : Emulation.repeatLoop inner fuel e = some e := by
  cases fuel with
  | zero => rfl
  | succ fuel => rw [Emulation.repeatLoop, if_neg h]

/-- The repetition of a blank, in chunks of 256. -/
theorem repeatLoop_blanks {fuel : ℕ} (hground : e.Ground) (hirm : e.IRM = false)
    (hchar : e.lastchar = 0x20) (hp : PassesBlanks e) (hx : -32768 ≤ e.x ∧ e.x ≤ 32767)
    (hmw : e.lastColumn ≤ 32767) (hcount : 0 ≤ e.parms 0) (hfuel : e.parms 0 ≤ fuel)
    (hauto : e.DECAWM = true → e.x+e.parms 0 ≤ e.lastColumn+1)
    (hstay : e.DECAWM = false → e.x ≤ e.lastColumn) :
    ∃ e', Emulation.repeatLoop repeated fuel e = some e' ∧
      Blanked (cursorRun e) e.attrib (min (e.x+e.parms 0-1) e.lastColumn)
        (columnBehind e e.lastColumn (e.parms 0)) e e' := by
  by_cases hpos : e.parms 0 > 0
  · induction fuel generalizing e with
    | zero => omega
    | succ fuel ih =>
      obtain ⟨len, e₁, hlen, hle, hloop, hground₁, hparms, hblank⟩ :=
        repeat_chunk hground hirm hchar hp hx hmw hauto hstay hpos
      rw [hloop]
      by_cases hdone : e.parms 0 = len
      · rw [repeatLoop_done (by omega), hdone]
        exact ⟨e₁, rfl, hblank⟩
      · -- as there are more of them, the cursor is still on the line
        have hmore : (len : Int) < e.parms 0 := by omega
        obtain ⟨hx₁, hawm₁, hirm₁, hchar₁, hp₁⟩ := hblank.keeps
        obtain ⟨-, -, hmw₁, -⟩ := hblank.line
        obtain ⟨hcol, hleft, hright, hin⟩ :=
          columnBehind_within hx hmw (Int.natCast_pos.mpr hlen) hmore hauto hstay
        obtain ⟨hcolumn, hend⟩ := columnBehind_rest hmore hcol hx₁ hawm₁
        have hauto₁ : e₁.DECAWM = true → e₁.x+e₁.parms 0 ≤ e₁.lastColumn+1 := by
          intro hawm
          have hroom := hauto (hawm₁ ▸ hawm)
          rw [hx₁, hcol, if_pos (hawm₁ ▸ hawm), hparms, hmw₁]
          omega
        have hstay₁ : e₁.DECAWM = false → e₁.x ≤ e₁.lastColumn := fun _ => by omega
        obtain ⟨e₂, hrun₂, hblank₂⟩ := ih hground₁ (hirm₁.trans hirm) (hchar₁.trans hchar) hp₁
          ⟨by omega, by omega⟩ (by omega) (by omega) (by push_cast at hfuel; omega) hauto₁ hstay₁
          (by omega)
        have hlater := hblank.from_line hblank₂
        rw [hmw₁, hparms, hcolumn] at hlater
        rw [← hx₁] at hblank hleft hright
        refine ⟨e₂, hrun₂, ?_⟩
        rw [← hend]
        exact hblank.trans hlater hleft hright
  · have hzero : e.parms 0 = 0 := by omega
    rw [repeatLoop_done hpos, hzero]
    exact ⟨e, rfl, Blanked.refl hp (by omega) (columnBehind_zero hx hstay)⟩

end Blanks

section Erasure
variable (e : Emulation τ)

/-- The digits of the count that the code reads. -/
theorem eraseCount_le {ds : List UInt8} (hds : ∀ c ∈ ds, IsDigit c) :
    eraseCount ds ≤ askedCount ds := by
  have hpos := askedCount_pos ds
  have hrange := numeral_range ds
  rcases Nat.lt_or_ge 32767 (askedCount ds) with hbig | hsmall
  · rw [eraseCount]
    split_ifs <;> omega
  · have hread := readCount_eq hds hsmall
    rw [readCount, lineCount] at hread
    rw [eraseCount]
    split_ifs at hread ⊢ <;> omega

theorem blankedTo_empty {last : Int} (h : last < e.x) : e.blankedTo last = e.buf := by
  rw [VSscrn.blankedTo, blanked_empty _ _ _ _ h]

/-- Two erasures from the cursor differ by the cells of the longer one. -/
theorem blankedTo_eq_iff {k n : Int} (hk : 0 ≤ k) (hkn : k ≤ n) :
    e.blankedTo (e.eraseEnd k) = e.blankedTo (e.eraseEnd n) ↔
      ∀ j, e.x+k ≤ j → j ≤ e.eraseEnd n → e.cell j = e.blankCell := by
  simp only [VSscrn.eraseEnd]
  constructor
  · intro h j hj hend
    have htext := congrFun (congrFun (congrArg (fun b : VSbuf => b.mem.text) h) (e.buf.row e.y)) j
    have hattr := congrFun (congrFun (congrArg (fun b : VSbuf => b.mem.attr) h)
      (e.buf.cellRow e.y)) j
    simp only [VSscrn.blankedTo, LineMem.blanked, Function.update_self] at htext hattr
    rw [if_neg (by omega), if_pos (by omega)] at htext hattr
    exact Prod.ext htext hattr
  · intro h
    have hcell {α : Type} (f : Int → α) (v : α)
        (hf : ∀ j, e.x+k ≤ j → j ≤ min (e.x+n-1) e.lastColumn → f j = v) :
        (fun j => if e.x ≤ j ∧ j ≤ min (e.x+k-1) e.lastColumn then v else f j) =
          fun j => if e.x ≤ j ∧ j ≤ min (e.x+n-1) e.lastColumn then v else f j := by
      funext j
      by_cases hshort : e.x ≤ j ∧ j ≤ min (e.x+k-1) e.lastColumn
      · rw [if_pos hshort, if_pos (by omega)]
      · rw [if_neg hshort]
        split_ifs with hlong
        · exact hf j (by omega) hlong.2
        · rfl
    have htext := hcell (e.buf.mem.text (e.buf.row e.y)) 0x20
      fun j hj hend => congrArg Prod.fst (h j hj hend)
    have hattr := hcell (e.buf.mem.attr (e.buf.cellRow e.y)) e.region.blankAttrib
      fun j hj hend => congrArg Prod.snd (h j hj hend)
    rw [VSscrn.blankedTo, VSscrn.blankedTo, LineMem.blanked, LineMem.blanked, htext, hattr]

/-- The state that the blanks are typed in. -/
def blankTyping (parms : Int → Int) : Emulation τ :=
  { e.withParms [-1] with parms := parms, lastchar := 0x20, attrib := e.region.blankAttrib }

/-- The cursor, the last character and the attribute are put back. -/
theorem eraseChars_eq (ds : List UInt8) :
    ∃ parms attrib, parms 0 = eraseCount ds ∧
      (e.withParms [numeral ds]).eraseChars repeated =
        (Emulation.repeatLoop repeated (eraseCount ds).toNat (blankTyping e parms)).map fun e' =>
          { e' with x := e.x, y := e.y, lastchar := e.lastchar, attrib := attrib } := by
  have hread : (e.withParms [numeral ds]).parms 0 = numeral ds :=
    withParms_parms e (i := 0) (by decide)
  by_cases hzero : numeral ds = 0
  · refine ⟨Function.update (e.withParms [numeral ds]).parms 0 1, e.attrib, ?_, ?_⟩
    · rw [Function.update_self, eraseCount, if_pos hzero]
    · simp only [Emulation.eraseChars, Emulation.repeatLast, hzero]
      rw [eraseCount, if_pos hzero]
      rfl
  · refine ⟨(e.withParms [numeral ds]).parms, e.attrib, ?_, ?_⟩
    · rw [hread, eraseCount, if_neg hzero]
    · simp only [Emulation.eraseChars, Emulation.repeatLast, hread, hzero, if_false]
      rw [eraseCount, if_neg hzero]
      rfl

/-- What the sequence erases when the blanks stay where they are typed. -/
theorem VSem_erase (before : UInt8) (hground : e.Ground) (hx : -32768 ≤ e.x ∧ e.x ≤ 32767)
    (hwidth : 0 ≤ e.maxwidth ∧ e.maxwidth ≤ 32767) {ds : List UInt8} (hds : ∀ c ∈ ds, IsDigit c)
    (hstay : numeral ds < 0 ∨ BlanksStay e (eraseCount ds)) :
    ∃ e', Emulation.VSem before e (csiText [ds] 0x58) = some e' ∧ e'.x = e.x ∧ e'.y = e.y ∧
      e'.buf = e.blankedTo (e.eraseEnd (max 0 (eraseCount ds))) := by
  obtain ⟨parms, attrib, hparms, heq⟩ := eraseChars_eq e ds
  -- the emulation of the blanks, and what it leaves
  have htyped : ∃ e₁, Emulation.repeatLoop repeated (eraseCount ds).toNat (blankTyping e parms) =
      some e₁ ∧ e₁.buf = e.blankedTo (e.eraseEnd (max 0 (eraseCount ds))) := by
    by_cases hneg : numeral ds < 0
    · have hcount : eraseCount ds = numeral ds := if_neg (by omega)
      refine ⟨blankTyping e parms, ?_, ?_⟩
      · rw [hcount, Int.toNat_of_nonpos (by omega)]
        rfl
      · rw [hcount, blankedTo_empty e (by rw [VSscrn.eraseEnd]; omega)]
        rfl
    · have hpos : 0 < eraseCount ds := by
        rw [eraseCount]
        split_ifs <;> omega
      obtain ⟨hirm, hcol, hfits, hp⟩ := hstay.resolve_left hneg
      have hmw : e.lastColumn ≤ 32767 := (lastColumn_range e hwidth).2
      obtain ⟨e₁, hrun, hblank⟩ := @repeatLoop_blanks τ (blankTyping e parms)
        (eraseCount ds).toNat ⟨hground.root, hground.screen⟩ hirm rfl hp hx hmw
        (by change 0 ≤ parms 0; omega) (by change parms 0 ≤ _; omega)
        (fun h => by have := hfits h; change e.x+parms 0 ≤ e.lastColumn+1; omega) (fun _ => hcol)
      refine ⟨e₁, hrun, ?_⟩
      obtain ⟨⟨tr, trinbuf, trinx, trintag, parms', escflg, escflags, rfl⟩, -⟩ := hblank
      rw [max_eq_right hpos.le, ← hparms]
      rfl
  obtain ⟨e₁, hrun, hbuf⟩ := htyped
  have hfinal : (e.withParms ([ds].map numeral)).csi repeated e.lastColumn 0 0x58 =
      .shortCut { e₁ with x := e.x, y := e.y, lastchar := e.lastchar, attrib := attrib } := by
    change Emulation.ends ((e.withParms [numeral ds]).eraseChars repeated) = _
    rw [heq, hrun]
    rfl
  refine ⟨_, VSem_csiText before hground (List.cons_ne_nil _ _) (by simp)
    (by simpa using hds) hfinal, ?_⟩
  obtain ⟨force, hend⟩ := ended_form
    { e₁ with x := e.x, y := e.y, lastchar := e.lastchar, attrib := attrib } 0x58
  rw [hend]
  exact ⟨rfl, rfl, hbuf⟩

/-- As long as the blanks stay where they are typed, or none are typed, characters are
erased as they should be exactly when those that the code leaves out are blank already. -/
theorem erase_chars_iff (before : UInt8) (e : Emulation τ) (hground : e.Ground)
    (hx : -32768 ≤ e.x ∧ e.x ≤ 32767) (hwidth : 0 ≤ e.maxwidth ∧ e.maxwidth ≤ 32767)
    (ds : List UInt8) (hds : ∀ c ∈ ds, IsDigit c)
    (hstay : numeral ds < 0 ∨ BlanksStay e (eraseCount ds)) :
    Erases before e ds ↔ RestBlank e ds := by
  obtain ⟨e', hrun, hx', hy', hbuf⟩ := VSem_erase e before hground hx hwidth hds hstay
  have hcount := eraseCount_le hds
  have hpos := askedCount_pos ds
  rw [RestBlank, ← blankedTo_eq_iff e (le_max_left 0 _) (max_le (by omega) hcount), ← hbuf]
  constructor
  · rintro ⟨e'', hrun', -, -, h⟩
    rw [hrun] at hrun'
    rw [Option.some.inj hrun']
    exact h
  · intro h
    exact ⟨e', hrun, hx', hy', h⟩

end Erasure

/-- Three rows full of the letter A, with the cursor in column `x` of the first one. -/
def letteredEmulation (x : Int) : Emulation Unit := newEmulation none (letteredScreen x)

theorem erase_two_chars : Erases 0 (letteredEmulation 4) [0x32] := by
  have hstay : BlanksStay (letteredEmulation 4) (eraseCount [0x32]) :=
    ⟨rfl, by decide, by decide, fun tw h => by cases h⟩
  apply (erase_chars_iff 0 (letteredEmulation 4) (newEmulation_ground _ _) (by decide) (by decide)
    [0x32] (digits_of_all (by decide)) (Or.inr hstay)).mpr
  intro j hj hend
  have hfirst : (letteredEmulation 4).x+max 0 (eraseCount [0x32]) = 6 := by decide
  have hlast : (letteredEmulation 4).eraseEnd (askedCount [0x32]) = 5 := by decide
  omega

/-- Without a parameter nothing is erased; and with autowrap, a count beyond the rest of
the line erases the start of the next one. -/
theorem erase_without_count :
    (Emulation.VSem 0 (letteredEmulation 4) (csiText [[]] 0x58)).map
        (fun e => e.buf.mem.text (e.buf.row 0) 4) = some 0x41 ∧
      (Emulation.VSem 0 { letteredEmulation 78 with DECAWM := true } (csiText [[0x33]] 0x58)).map
        (fun e => e.buf.mem.text (e.buf.row 1) 0) = some 0x20 ∧
      ¬Erases 0 (letteredEmulation 4) [] ∧
      ¬Erases 0 { letteredEmulation 78 with DECAWM := true } [0x33] := by
  have hmissing : (Emulation.VSem 0 (letteredEmulation 4) (csiText [[]] 0x58)).map
      (fun e => e.buf.mem.text (e.buf.row 0) 4) = some 0x41 := by decide
  have hwrapped : (Emulation.VSem 0 { letteredEmulation 78 with DECAWM := true }
      (csiText [[0x33]] 0x58)).map (fun e => e.buf.mem.text (e.buf.row 1) 0) = some 0x20 := by
    decide
  refine ⟨hmissing, hwrapped, ?_, ?_⟩
  · rintro ⟨e', he, -, -, hbuf⟩
    rw [he, Option.map_some, hbuf] at hmissing
    exact absurd hmissing (by decide)
  · rintro ⟨e', he, -, -, hbuf⟩
    rw [he, Option.map_some, hbuf] at hwrapped
    exact absurd hwrapped (by decide)

end VS
