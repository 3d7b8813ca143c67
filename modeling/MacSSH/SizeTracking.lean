import MacSSH.RowSizes

/-! The size of the cursor line, which the screen keeps beside the line attributes. -/
namespace VS

open Linked

namespace VSscrn

/-- The size that the screen works with is the one of the cursor row. -/
def SizesAgree (s : VSscrn) : Prop := s.buf.rowSize s.y = s.lattrib &&& sizeBits

/-- No line has characters of double size, and the screen works with single ones. -/
def Plain (s : VSscrn) : Prop := AllSingle s.buf ∧ s.lattrib &&& sizeBits = 0

/-- The rows are linked as they should be, and the cursor is in one of them. -/
structure OnRows (s : VSscrn) : Prop where
  chained : Chained s.buf
  lines_lt : s.buf.lines < 32767
  cursor : 0 ≤ s.y ∧ s.y ≤ s.buf.lines

/-- The margins are rows too. -/
structure Sound (s : VSscrn) : Prop extends OnRows s where
  margins : 0 ≤ s.top ∧ s.top ≤ s.bottom ∧ s.bottom ≤ s.buf.lines

/-- Moving on to the next line: the region is scrolled on a sound screen, or the row that
the cursor goes to is a single one. -/
def IndexKeeps (s : VSscrn) : Prop :=
  (s.y = s.bottom → s.Sound) ∧
    (s.y ≠ s.bottom → s.buf.rowSize (if s.y < s.buf.lines then short (s.y+1) else s.y) = 0)

def WrapKeeps (s : VSscrn) : Prop := s.x > s.lastColumn → s.IndexKeeps

/-- The size of the cursor row when `n` lines are inserted: the linked scrollback leaves
the lines that it blanks their sizes. -/
def insertedSize (s : VSscrn) (n : Int) : BitVec 16 :=
  if s.buf.oldScrollback then 0 else s.buf.rowSize (max s.y (s.bottom+1-n))

/-- The size of the cursor row when `n` lines are deleted. -/
def deletedSize (s : VSscrn) (n : Int) : BitVec 16 :=
  if s.y+n ≤ s.bottom then s.buf.rowSize (s.y+n) else 0

/-- Moving back to the line above. -/
def ReverseKeeps (s : VSscrn) : Prop :=
  (s.y = s.top → s.Sound ∧ s.insertedSize 1 = s.buf.rowSize s.y) ∧
    (s.y ≠ s.top → s.buf.rowSize (short (s.y-1)) = s.buf.rowSize s.y)

/-- Neither the lines nor the size that the screen works with change. -/
structure Moves (s s' : VSscrn) : Prop where
  lattr : s'.buf.mem.lattr = s.buf.mem.lattr
  linest : s'.buf.linest = s.buf.linest
  lattrib : s'.lattrib = s.lattrib

/-- The cursor stays in its row, too. -/
structure Stays (s s' : VSscrn) : Prop extends Moves s s' where
  y : s'.y = s.y

/-- The screen without the rows above the cursor: they are other lines than its row. -/
def AboveKeeps (s : VSscrn) : Prop := s.WrapKeeps ∧ 0 ≤ s.maxwidth ∧ s.VSIwrapnow.OnRows

/-- The same for the rows below. At the home position the screen may be saved before. -/
def BelowKeeps (s : VSscrn) (ESscroll : Bool) : Prop :=
  s.AboveKeeps ∧ (ESscroll = true → s.VSIwrapnow.y = 0 → s.VSIwrapnow.x = 0 →
    SavesScreen s.VSIwrapnow.region s.VSIwrapnow.buf →
    sizeBelow s.VSIwrapnow.buf = s.VSIwrapnow.buf.rowSize 0)

section Sizes
variable {s s' s'' : VSscrn}

theorem Moves.refl (s : VSscrn) : s.Moves s := ⟨rfl, rfl, rfl⟩

theorem Moves.trans (h : s.Moves s') (h' : s'.Moves s'') : s.Moves s'' :=
  ⟨h'.lattr.trans h.lattr, h'.linest.trans h.linest, h'.lattrib.trans h.lattrib⟩

theorem Moves.rowSize (h : s.Moves s') (y : Int) : s'.buf.rowSize y = s.buf.rowSize y := by
  rw [VSbuf.rowSize, VSbuf.rowSize, VSbuf.row, VSbuf.row, h.lattr, h.linest]

theorem Moves.agree (h : s.Moves s') (hs : s.SizesAgree)
    (hrow : s.buf.rowSize s'.y = s.buf.rowSize s.y) : s'.SizesAgree := by
  rw [SizesAgree, h.rowSize, h.lattrib, hrow]
  exact hs

theorem Moves.plain (h : s.Moves s') (hs : s.Plain) : s'.Plain := by
  refine ⟨?_, ?_⟩
  · intro p
    rw [h.lattr]
    exact hs.1 p
  · rw [h.lattrib]
    exact hs.2

theorem Plain.agree (h : s.Plain) : s.SizesAgree := (h.1 _).trans h.2.symm

/-- A plain screen is one without lines of double size. -/
theorem SizesAgree.plain (h : s.SizesAgree) (hall : AllSingle s.buf) : s.Plain :=
  ⟨hall, h.symm.trans (hall _)⟩

theorem Plain.of_buf {b : VSbuf} (h : s.Plain) (hb : FromLattr s.buf.mem b.mem) :
    Plain { s with buf := b } := ⟨hb.single h.1, h.2⟩

theorem kVSwrap_size (l : BitVec 16) (wraps : Bool) :
    (if wraps then l ||| kVSwrap else l &&& ~~~kVSwrap) &&& sizeBits = l &&& sizeBits := by
  have hor : kVSwrap &&& sizeBits = 0 := by decide
  have hand : ~~~kVSwrap &&& sizeBits = sizeBits := by decide
  cases wraps with
  | true =>
    simp only [if_true]
    rw [BitVec.and_or_distrib_right, hor]
    exact BitVec.or_zero
  | false =>
    simp only [Bool.false_eq_true, if_false]
    rw [BitVec.and_assoc, hand]

/-- The mark of a line that goes on in the next one is no size. -/
theorem setWrap_rowSize (s : VSscrn) (wraps : Bool) (p : Ptr) :
    (s.setWrap wraps).buf.mem.lattr p &&& sizeBits = s.buf.mem.lattr p &&& sizeBits := by
  change Function.update s.buf.mem.lattr _ _ p &&& sizeBits = _
  rcases eq_or_ne p (s.buf.row s.y) with rfl | hp
  · rw [Function.update_self]
    exact kVSwrap_size _ wraps
  · rw [Function.update_of_ne hp]

theorem Chained.of_lattr {b : VSbuf} (h : Chained b) (lattr : Ptr → BitVec 16) :
    Chained { b with mem.lattr := lattr } := by
  obtain ⟨e, pre, post, hth, hanch, hattrs⟩ := h
  refine ⟨e, pre, post, ⟨hth.strand, hth.length, hth.lines_nonneg, hth.top, hth.live,
    hth.live_before⟩, hanch, ?_⟩
  intro hold
  obtain ⟨ht, ha, hapart⟩ := hattrs hold
  exact ⟨⟨ht.strand, ht.length, ht.lines_nonneg, ht.top, ht.live, ht.live_before⟩,
    ⟨ha.strand, ha.length, ha.lines_nonneg, ha.top, ha.live, ha.live_before⟩, hapart⟩

theorem setWrap_indexKeeps (h : s.IndexKeeps) (wraps : Bool) : (s.setWrap wraps).IndexKeeps := by
  refine ⟨?_, ?_⟩
  · intro hy
    obtain ⟨⟨hchained, hlines, hcursor⟩, hmargins⟩ := h.1 hy
    exact ⟨⟨Chained.of_lattr hchained _, hlines, hcursor⟩, hmargins⟩
  · intro hy
    exact (setWrap_rowSize s wraps _).trans (h.2 hy)

theorem VSIindex_agree (h : s.IndexKeeps) : s.VSIindex.SizesAgree := by
  have hzero : (0 : BitVec 16) = 0 &&& sizeBits := by decide
  by_cases hy : s.y = s.bottom
  · obtain ⟨⟨hchained, hlines, hcursor⟩, hmargins⟩ := h.1 hy
    have hsize := @VSIscroll_rowSize s.region s.buf hchained hcursor.2 hlines hmargins
    have hindex : s.VSIindex = { s with buf := VSIscroll s.region s.buf, lattrib := 0 } := by
      rw [VSIindex, if_pos hy]
    rw [hindex, SizesAgree, ← hzero]
    change (VSIscroll s.region s.buf).rowSize s.y = 0
    rw [hy]
    exact hsize
  · have hsize := h.2 hy
    have hindex : s.VSIindex = { s with
        y := if s.y < s.buf.lines then short (s.y+1) else s.y
        lattrib := 0 } := by
      rw [VSIindex, if_neg hy]
      split_ifs <;> rfl
    rw [hindex, SizesAgree, ← hzero]
    exact hsize

theorem VSIindex_plain (h : s.Plain) : s.VSIindex.Plain := by
  have hzero : (0 : BitVec 16) &&& sizeBits = 0 := by decide
  rw [VSIindex]
  split_ifs
  · exact ⟨(VSIscroll_lattr _ _).single h.1, hzero⟩
  · exact ⟨h.1, hzero⟩
  · exact ⟨h.1, hzero⟩

theorem IndexKeeps.of_x (h : s.IndexKeeps) (x : Int) : IndexKeeps { s with x := x } := by
  refine ⟨?_, h.2⟩
  intro hy
  obtain ⟨⟨hchained, hlines, hcursor⟩, hmargins⟩ := h.1 hy
  exact ⟨⟨hchained, hlines, hcursor⟩, hmargins⟩

theorem VSIwrapnow_agree (h : s.SizesAgree) (hw : s.WrapKeeps) : s.VSIwrapnow.SizesAgree := by
  rw [VSIwrapnow]
  split_ifs with hx
  · exact VSIindex_agree ((hw hx).of_x 0)
  · exact h

theorem VSIwrapnow_plain (h : s.Plain) : s.VSIwrapnow.Plain := by
  rw [VSIwrapnow]
  split_ifs
  · exact VSIindex_plain (s := { s with x := 0 }) h
  · exact h

theorem VSIwrapnow_idle (h : s.x ≤ s.lastColumn) : s.VSIwrapnow = s := by
  rw [VSIwrapnow, if_neg (not_lt.mpr h)]

theorem Stays.agree (h : s.Stays s') (hs : s.SizesAgree) : s'.SizesAgree :=
  h.toMoves.agree hs (by rw [h.y])

theorem Stays.trans (h : s.Stays s') (h' : s'.Stays s'') : s.Stays s'' :=
  ⟨h.toMoves.trans h'.toMoves, h'.y.trans h.y⟩

theorem stays_of_mem {m : LineMem} (hm : m.lattr = s.buf.mem.lattr) :
    s.Stays { s with buf.mem := m } := ⟨⟨hm, rfl, rfl⟩, rfl⟩

theorem copied_lattr (p pa : Ptr) (f g : Int → Int) (is : List Int) (m : LineMem) :
    (is.foldl (fun m i => m.copyCell p pa (f i) (g i)) m).lattr = m.lattr := by
  induction is generalizing m with
  | nil => rfl
  | cons i is ih => exact ih (m.copyCell p pa (f i) (g i))

theorem blanked_columns_lattr (p pa : Ptr) (a : BitVec 32) (is : List Int) (m : LineMem) :
    (is.foldl (fun m i => m.blankCell p pa a i) m).lattr = m.lattr := by
  induction is generalizing m with
  | nil => rfl
  | cons i is ih => exact ih (m.blankCell p pa a i)

theorem blankColumns_stays (s : VSscrn) (is : List Int) : s.Stays (s.blankColumns is) :=
  stays_of_mem (blanked_columns_lattr _ _ _ is _)

theorem VSIdelchars_stays (s : VSscrn) (n : Int) : s.VSIwrapnow.Stays (s.VSIdelchars n) :=
  stays_of_mem ((blanked_columns_lattr _ _ _ _ _).trans (copied_lattr _ _ _ _ _ _))

theorem VSIinschar_stays {n : Int} {clear : Bool} (h : s.VSIinschar n clear = some s') :
    s.VSIwrapnow.Stays s' := by
  rw [VSIinschar] at h
  simp only at h
  split_ifs at h
  · rw [← Option.some.inj h]
    exact stays_of_mem (copied_lattr _ _ _ _ _ _)
  · rw [← Option.some.inj h]
    exact stays_of_mem ((blanked_columns_lattr _ _ _ _ _).trans (copied_lattr _ _ _ _ _ _))

theorem startRow_cursor (s : VSscrn) : startRow s.region (-1) = s.y := if_pos (by decide)

/-- The rows from the cursor to the bottom margin are rows of the screen. -/
theorem Sound.onScreen (hs : s.Sound) : OnScreen s.region s.buf (-1) where
  row_nonneg := by
    rw [startRow_cursor]
    exact hs.cursor.1
  row_le := by
    rw [startRow_cursor]
    exact hs.cursor.2
  bottom_nonneg := hs.margins.1.trans hs.margins.2.1
  bottom_le := hs.margins.2.2
  lines_lt := hs.lines_lt

theorem insertLines_agree {n : Int} (h : s.SizesAgree) (hs : s.Sound) (hle : s.y ≤ s.bottom)
    (hn : 1 ≤ n) (hsize : s.insertedSize n = s.buf.rowSize s.y) :
    SizesAgree { s with buf := VSIinslines s.region s.buf n (-1) } := by
  have hinsert := VSIinslines_rowSize hs.chained hs.onScreen hn (by rw [startRow_cursor]; exact hle)
  rw [startRow_cursor] at hinsert
  rw [SizesAgree, hinsert]
  exact hsize.trans h

theorem deleteLines_agree {n : Int} (h : s.SizesAgree) (hs : s.Sound) (hle : s.y ≤ s.bottom)
    (hn : 1 ≤ n) (hsize : s.deletedSize n = s.buf.rowSize s.y) :
    SizesAgree { s with buf := VSIdellines s.region s.buf n (-1) } := by
  have hdelete := VSIdellines_rowSize hs.chained hs.onScreen hn (startRow_cursor s).le hle
  rw [SizesAgree, hdelete]
  exact hsize.trans h

theorem VSIrindex_agree (h : s.SizesAgree) (hk : s.ReverseKeeps) : s.VSIrindex.SizesAgree := by
  rw [VSIrindex]
  split_ifs with hy
  · obtain ⟨hs, hsize⟩ := hk.1 hy
    have hle : s.y ≤ s.bottom := by
      rw [hy]
      exact hs.margins.2.1
    have hinsert := insertLines_agree h hs hle le_rfl hsize
    have hstart : VSIinslines s.region s.buf 1 s.top = VSIinslines s.region s.buf 1 (-1) := by
      have hrow : startRow s.region s.top = startRow s.region (-1) := by
        rw [startRow_nonneg _ hs.margins.1, ← hy]
        rfl
      simp only [VSIinslines, VSOinslines, hrow]
    rw [hstart]
    exact hinsert
  · exact (Moves.mk rfl rfl rfl : s.Moves { s with y := short (s.y-1) }).agree h (hk.2 hy)

theorem VSIrindex_plain (h : s.Plain) : s.VSIrindex.Plain := by
  rw [VSIrindex]
  split_ifs
  · exact h.of_buf (VSIinslines_lattr _ _ _ _)
  · exact h

/-- A wrapped cursor is not beyond the last column. -/
theorem VSIwrapnow_column (h : 0 ≤ s.maxwidth) : s.VSIwrapnow.x ≤ s.VSIwrapnow.lastColumn := by
  rw [VSIwrapnow]
  split_ifs with hx
  · have hindex (s : VSscrn) : s.VSIindex.x = s.x ∧ s.VSIindex.lattrib = 0 ∧
        s.VSIindex.maxwidth = s.maxwidth := by
      rw [VSIindex]
      split_ifs <;> exact ⟨rfl, rfl, rfl⟩
    obtain ⟨hx', hl, hw⟩ := hindex { s with x := 0 }
    rw [hx', lastColumn, hl, if_neg (by decide), hw]
    exact h
  · exact not_lt.mp hx

theorem OnRows.row_ne (h : s.OnRows) {i : Int} (h0 : 0 ≤ i) (hi : i ≤ s.buf.lines) (hne : i ≠ s.y) :
    s.buf.row i ≠ s.buf.row s.y := by
  obtain ⟨e, pre, post, hth, -⟩ := h.chained
  have hcursor := h.cursor
  rcases lt_or_gt_of_ne hne with hlt | hlt
  · exact hth.row_ne h0 hlt hcursor.2
  · exact (hth.row_ne hcursor.1 hlt hi).symm

theorem VSIebos_agree (h : s.SizesAgree) (hk : s.AboveKeeps) : s.VSIebos.SizesAgree := by
  obtain ⟨hw, hwidth, hrows⟩ := hk
  have hwrapped := VSIwrapnow_agree h hw
  have hcolumn := VSIwrapnow_column hwidth
  have hidle := VSIwrapnow_idle hcolumn
  have hebos : s.VSIebos =
      (s.VSIwrapnow.blankColumns (loopRange 0 s.VSIwrapnow.x)).eraseRows 0
        (short (s.VSIwrapnow.y-1)) := by
    simp only [VSIebos, VSIebol, hidle]
  generalize s.VSIwrapnow = s₁ at hebos hwrapped hrows
  have hcursor := hrows.cursor
  have hlines := hrows.lines_lt
  have hstays := blankColumns_stays s₁ (loopRange 0 s₁.x)
  have hsize := @eraseRows_rowSize (s₁.blankColumns (loopRange 0 s₁.x)) 0 (short (s₁.y-1)) s₁.y
    le_rfl fun i h0 hi => by
      rw [short_eq (by omega) (by omega)] at hi
      exact hrows.row_ne h0 (by omega) (by omega)
  rw [hebos, SizesAgree]
  change ((s₁.blankColumns (loopRange 0 s₁.x)).eraseRows 0 (short (s₁.y-1))).buf.rowSize s₁.y = _
  rw [hsize, hstays.rowSize]
  exact hwrapped

theorem VSIebol_stays (s : VSscrn) : s.VSIwrapnow.Stays s.VSIebol := blankColumns_stays _ _

theorem VSIel_stays (s : VSscrn) : s.VSIwrapnow.Stays s.VSIel := blankColumns_stays _ _

theorem eraseToEnd_stays (s : VSscrn) : s.VSIwrapnow.Stays s.eraseToEnd := blankColumns_stays _ _

theorem eraseRows_plain (h : s.Plain) (first last : Int) : (s.eraseRows first last).Plain :=
  h.of_buf (FromLattr.foldl (fun b i => VSIelo_lattr s.region b i) s.buf _)

theorem VSIebos_plain (h : s.Plain) : s.VSIebos.Plain := by
  have hebol := (VSIebol_stays s.VSIwrapnow).plain (VSIwrapnow_plain (VSIwrapnow_plain h))
  exact eraseRows_plain hebol 0 (short (s.VSIwrapnow.y-1))

theorem VSIes_agree (h : s.SizesAgree) (hsingle : s.buf.rowSize s.y = 0)
    (hy : 0 ≤ s.y ∧ s.y ≤ s.buf.lines) (ESscroll : Bool) : (s.VSIes ESscroll).SizesAgree := by
  rw [SizesAgree]
  change (VS.VSIes s.region ESscroll s.buf).rowSize s.y = _
  rw [VSIes_rowSize s.region ESscroll s.buf hy.1 hy.2, ← hsingle]
  exact h

theorem VSIes_plain (h : s.Plain) (ESscroll : Bool) : (s.VSIes ESscroll).Plain :=
  h.of_buf (VSIes_lattr _ _ _)

theorem VTalign_agree (h : s.SizesAgree) (hsingle : s.buf.rowSize s.y = 0)
    (hy : 0 ≤ s.y ∧ s.y ≤ s.buf.lines) (ESscroll : Bool) : (s.VTalign ESscroll).SizesAgree := by
  rw [SizesAgree]
  change (s.VTalign ESscroll).buf.rowSize s.y = _
  rw [VTalign_rowSize s ESscroll hy.1 hy.2, ← hsingle]
  exact h

theorem VTalign_plain (h : s.Plain) (ESscroll : Bool) : (s.VTalign ESscroll).Plain :=
  (VSIes_plain h ESscroll).of_buf
    (FromLattr.foldl (fun b i => FromLattr.setLattr b.mem (b.row i)) _ _)

theorem forceSave_agree (h : s.SizesAgree) (hs : s.OnRows) : s.forceSave.SizesAgree := by
  rw [SizesAgree]
  change s.forceSave.buf.rowSize s.y = _
  rw [forceSave_rowSize s hs.chained hs.lines_lt hs.cursor]
  exact h

theorem restoreRow_single {old b : VSbuf} (hold : AllSingle old) (hb : AllSingle b) (i : Int) :
    AllSingle (restoreRow old b i) := by
  intro p
  change Function.update b.mem.lattr (b.row i) (old.mem.lattr (old.row i)) p &&& sizeBits = 0
  rcases eq_or_ne p (b.row i) with rfl | hp
  · rw [Function.update_self]
    exact hold _
  · rw [Function.update_of_ne hp]
    exact hb p

theorem forceSave_plain (h : s.Plain) : s.forceSave.Plain := by
  have hrestored (l : List Int) (b : VSbuf) (hb : AllSingle b) :
      AllSingle (l.foldl (restoreRow s.buf) b) := by
    induction l generalizing b with
    | nil => exact hb
    | cons i l ih => exact ih _ (restoreRow_single h.1 hb i)
  exact ⟨hrestored _ _ ((VSIscroff_lattr s.region s.buf).single h.1), h.2⟩

theorem VSIscroff_plain (h : s.Plain) : s.VSIscroff.Plain := h.of_buf (VSIscroff_lattr _ _)

/-- Erasing from the cursor on, after the screen may have been saved. -/
theorem below_agree {ESscroll : Bool} (h : s.SizesAgree) (hk : s.BelowKeeps ESscroll)
    (hs' : s' = if ESscroll = true ∧ s.VSIwrapnow.y = 0 ∧ s.VSIwrapnow.x = 0
      then s.VSIwrapnow.VSIscroff else s.VSIwrapnow) :
    (s'.eraseToEnd.eraseRows (short (s.VSIwrapnow.y+1)) s'.eraseToEnd.buf.lines).SizesAgree := by
  obtain ⟨⟨hw, hwidth, hrows⟩, hsaved⟩ := hk
  have hwrapped := VSIwrapnow_agree h hw
  have hcolumn := VSIwrapnow_column hwidth
  generalize s.VSIwrapnow = s₁ at *
  obtain ⟨hchained, hlines, hcursor⟩ := hrows
  have hkept : s'.y = s₁.y ∧ s'.lattrib = s₁.lattrib ∧ s'.buf.lines = s₁.buf.lines ∧
      s'.VSIwrapnow = s' ∧ s'.buf.rowSize s₁.y = s₁.buf.rowSize s₁.y ∧ s'.buf.linest.Nodup ∧
      (s'.buf.linest.length : Int) = s₁.buf.lines+1 := by
    rw [hs']
    split_ifs with hhome
    · obtain ⟨hnd, hlen⟩ := VSIscroff_rows hchained hlines s₁.region
      refine ⟨rfl, rfl, (VSIscroff_extent _ _).lines, VSIwrapnow_idle hcolumn, ?_, hnd, hlen⟩
      change (VS.VSIscroff s₁.region s₁.buf).rowSize s₁.y = _
      by_cases hsave : SavesScreen s₁.region s₁.buf
      · rw [hhome.2.1, VSIscroff_first hchained hlines hsave]
        exact hsaved hhome.1 hhome.2.1 hhome.2.2 hsave
      · rw [VSIscroff_idle hsave]
    · obtain ⟨e, pre, post, hth, -⟩ := hchained
      exact ⟨rfl, rfl, rfl, VSIwrapnow_idle hcolumn, rfl, hth.rowsAgree.distinct, hth.length⟩
  obtain ⟨hy, hlattrib, hl, hidle, hsize, hnd, hlen⟩ := hkept
  have hstays := eraseToEnd_stays s'
  rw [hidle] at hstays
  have hother := @eraseRows_rowSize s'.eraseToEnd (short (s₁.y+1)) s'.eraseToEnd.buf.lines s₁.y
    (by rw [short_eq (by omega) (by omega)]; omega) fun i h0 hi he => by
      rw [short_eq (by omega) (by omega)] at h0
      change i ≤ s'.VSIwrapnow.buf.lines at hi
      rw [hidle] at hi
      rw [VSbuf.row, VSbuf.row, hstays.linest] at he
      have hsame := row_injective hnd hlen (by omega) hcursor he
      omega
  rw [SizesAgree]
  change (s'.eraseToEnd.eraseRows _ _).buf.rowSize s'.eraseToEnd.y =
    s'.eraseToEnd.lattrib &&& sizeBits
  rw [hstays.y, hy, hother, hstays.rowSize, hsize, hstays.lattrib, hlattrib]
  exact hwrapped

end Sizes

end VSscrn

end VS
