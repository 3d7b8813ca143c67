import MacSSH.LineSizes

/-! The bounds of the cursor and of the margins on a screen. -/
namespace VS

open Linked

section Erasure
variable (r : VSregion)

theorem VSIelo_extent (b : VSbuf) (s : Int) : SameExtent b (VSIelo r b s) := ⟨rfl, rfl⟩

theorem VSIes_extent (ESscroll : Bool) (b : VSbuf) : SameExtent b (VSIes r ESscroll b) := by
  have hsaved : SameExtent b (if ESscroll then VSIscroff r b else b) :=
    SameExtent.ite (VSIscroff_extent r b) (SameExtent.refl b)
  have hrows := hsaved.trans (SameExtent.foldl (fun b (i : ℕ) => VSIelo_extent r b i)
    (List.range ((if ESscroll then VSIscroff r b else b).lines+1).toNat) _)
  exact ⟨hrows.lines, hrows.allwidth⟩

end Erasure

namespace VSscrn

/-- The cursor is on the screen, and the margins are rows of it. -/
structure InBounds (s : VSscrn) : Prop where
  row : 0 ≤ s.y ∧ s.y ≤ s.buf.lines
  column : 0 ≤ s.x ∧ s.x ≤ s.buf.allwidth
  margins : 0 ≤ s.top ∧ s.top < s.bottom ∧ s.bottom ≤ s.buf.lines

/-- The cursor is in the bounds of a screen with the last row `lines`, which shows fewer
columns than the `allwidth` that are allocated. -/
structure Bounded (lines allwidth : Int) (s : VSscrn) : Prop extends InBounds s where
  lines_eq : s.buf.lines = lines
  allwidth_eq : s.buf.allwidth = allwidth
  rows : 1 ≤ lines ∧ lines ≤ 32767
  width : 0 ≤ s.maxwidth ∧ s.maxwidth < allwidth ∧ allwidth ≤ 32767
  last : 0 ≤ s.lastColumn

/-- The last column that the main loop has read is no more than that of the line. -/
structure Within (lines allwidth mw : Int) (s : VSscrn) : Prop
    extends Bounded lines allwidth s where
  read : 0 ≤ mw ∧ mw ≤ s.lastColumn

section Bounds
variable {s : VSscrn} {lines allwidth mw : Int}

theorem Bounded.within (h : s.Bounded lines allwidth) : s.Within lines allwidth s.lastColumn :=
  ⟨h, h.last, le_rfl⟩

/-- A motion within the screen. -/
theorem Bounded.move (h : s.Bounded lines allwidth) {x y : Int} (hx : 0 ≤ x ∧ x ≤ allwidth)
    (hy : 0 ≤ y ∧ y ≤ lines) : Bounded lines allwidth { s with x := x, y := y } where
  row := by
    rw [← h.lines_eq] at hy
    exact hy
  column := by
    rw [← h.allwidth_eq] at hx
    exact hx
  margins := h.margins
  lines_eq := h.lines_eq
  allwidth_eq := h.allwidth_eq
  rows := h.rows
  width := h.width
  last := h.last

theorem Within.move (h : s.Within lines allwidth mw) {x y : Int} (hx : 0 ≤ x ∧ x ≤ allwidth)
    (hy : 0 ≤ y ∧ y ≤ lines) : Within lines allwidth mw { s with x := x, y := y } :=
  ⟨h.toBounded.move hx hy, h.read⟩

/-- What works on the lines only. -/
theorem Bounded.of_buf (h : s.Bounded lines allwidth) {b : VSbuf} (hb : SameExtent s.buf b) :
    Bounded lines allwidth { s with buf := b } := by
  obtain ⟨⟨hrow, hcolumn, hmargins⟩, hlines, hwidth, hrows, hmax, hlast⟩ := h
  rw [← hb.lines] at hrow hmargins hlines
  rw [← hb.allwidth] at hcolumn hwidth
  exact ⟨⟨hrow, hcolumn, hmargins⟩, hlines, hwidth, hrows, hmax, hlast⟩

theorem Within.of_buf (h : s.Within lines allwidth mw) {b : VSbuf} (hb : SameExtent s.buf b) :
    Within lines allwidth mw { s with buf := b } := ⟨h.toBounded.of_buf hb, h.read⟩

/-- What is neither a row nor a column. -/
theorem Bounded.aside (h : s.Bounded lines allwidth) (vtemulation : VTEmulation)
    (attrib : BitVec 32) (DECCM : Bool) : Bounded lines allwidth { s with
      vtemulation := vtemulation, attrib := attrib, DECCM := DECCM } :=
  ⟨⟨h.row, h.column, h.margins⟩, h.lines_eq, h.allwidth_eq, h.rows, h.width, h.last⟩

theorem Within.aside (h : s.Within lines allwidth mw) (vtemulation : VTEmulation)
    (attrib : BitVec 32) (DECCM : Bool) : Within lines allwidth mw { s with
      vtemulation := vtemulation, attrib := attrib, DECCM := DECCM } :=
  ⟨h.toBounded.aside vtemulation attrib DECCM, h.read⟩

theorem Bounded.row_range (h : s.Bounded lines allwidth) : 0 ≤ s.y ∧ s.y ≤ lines := by
  rw [← h.lines_eq]
  exact h.row

theorem Bounded.column_range (h : s.Bounded lines allwidth) : 0 ≤ s.x ∧ s.x ≤ allwidth := by
  rw [← h.allwidth_eq]
  exact h.column

/-- A line of single size has all the columns. -/
theorem Within.single (h : s.Within lines allwidth mw) :
    Within lines allwidth mw { s with lattrib := 0 } := by
  obtain ⟨⟨hin, hlines, hwidth, hrows, hmax, hlast⟩, hread⟩ := h
  have hle := lastColumn_le hmax.1
  have hsingle : lastColumn { s with lattrib := 0 } = s.maxwidth :=
    if_neg (show ¬VSisdecdwh 0 = true by decide)
  refine ⟨⟨⟨hin.row, hin.column, hin.margins⟩, hlines, hwidth, hrows, hmax, ?_⟩, hread.1, ?_⟩
  · rw [hsingle]
    exact hmax.1
  · rw [hsingle]
    exact hread.2.trans hle

theorem VSIindex_within (h : s.Within lines allwidth mw) : s.VSIindex.Within lines allwidth mw := by
  have hy := h.row_range
  have hrows := h.rows
  have hlines := h.lines_eq
  rw [VSIindex]
  apply Within.single
  split_ifs with hbottom hrow
  -- a scroll at the bottom margin, a step down above the last row, or nothing
  · exact h.of_buf (VSIscroll_extent s.region s.buf)
  · rw [hlines] at hrow
    apply h.move h.column_range
    rw [short_eq (by omega) (by omega)]
    omega
  · exact h

theorem VSIwrapnow_within (h : s.Within lines allwidth mw) :
    s.VSIwrapnow.Within lines allwidth mw := by
  rw [VSIwrapnow]
  split_ifs
  · apply VSIindex_within
    exact h.move ⟨le_rfl, h.column_range.1.trans h.column_range.2⟩ h.row_range
  · exact h

theorem VSIwrapnow_bounded (h : s.Bounded lines allwidth) : s.VSIwrapnow.Bounded lines allwidth :=
  (VSIwrapnow_within h.within).toBounded

theorem setWrap_within (h : s.Within lines allwidth mw) (wraps : Bool) :
    (s.setWrap wraps).Within lines allwidth mw := h.of_buf ⟨rfl, rfl⟩

theorem eraseRows_extent (s : VSscrn) (first last : Int) :
    SameExtent s.buf (s.eraseRows first last).buf :=
  SameExtent.foldl (fun b i => VSIelo_extent s.region b i) (loopRange first last) s.buf

theorem eraseRows_bounded (h : s.Bounded lines allwidth) (first last : Int) :
    (s.eraseRows first last).Bounded lines allwidth := h.of_buf (eraseRows_extent s first last)

theorem eraseToEnd_bounded (h : s.Bounded lines allwidth) : s.eraseToEnd.Bounded lines allwidth :=
  (VSIwrapnow_bounded h).of_buf ⟨rfl, rfl⟩

theorem VSIel_bounded (h : s.Bounded lines allwidth) : s.VSIel.Bounded lines allwidth :=
  (VSIwrapnow_bounded h).of_buf ⟨rfl, rfl⟩

theorem VSIebol_bounded (h : s.Bounded lines allwidth) : s.VSIebol.Bounded lines allwidth :=
  (VSIwrapnow_bounded h).of_buf ⟨rfl, rfl⟩

theorem VSIebos_bounded (h : s.Bounded lines allwidth) : s.VSIebos.Bounded lines allwidth :=
  eraseRows_bounded (VSIebol_bounded (VSIwrapnow_bounded h)) _ _

theorem VSIdelchars_bounded (h : s.Bounded lines allwidth) (n : Int) :
    (s.VSIdelchars n).Bounded lines allwidth := (VSIwrapnow_bounded h).of_buf ⟨rfl, rfl⟩

/-- Room is made in the line that the cursor has been wrapped to. -/
theorem VSIinschar_form {s' : VSscrn} {n : Int} {clear : Bool}
    (h : s.VSIinschar n clear = some s') :
    ∃ m, s' = { s.VSIwrapnow with buf.mem := m } := by
  rw [VSIinschar] at h
  simp only at h
  split_ifs at h
  · exact ⟨_, (Option.some.inj h).symm⟩
  · exact ⟨_, (Option.some.inj h).symm⟩

theorem VSIes_bounded (h : s.Bounded lines allwidth) (ESscroll : Bool) :
    (s.VSIes ESscroll).Bounded lines allwidth := h.of_buf (VSIes_extent s.region ESscroll s.buf)

theorem VSIscroff_bounded (h : s.Bounded lines allwidth) : s.VSIscroff.Bounded lines allwidth :=
  h.of_buf (VSIscroff_extent s.region s.buf)

theorem VTalign_bounded (h : s.Bounded lines allwidth) (ESscroll : Bool) :
    (s.VTalign ESscroll).Bounded lines allwidth :=
  (VSIes_bounded h ESscroll).of_buf
    (SameExtent.foldl (f := (s.VSIes ESscroll).alignRow) (fun _ _ => ⟨rfl, rfl⟩) _ _)

theorem forceSave_bounded (h : s.Bounded lines allwidth) : s.forceSave.Bounded lines allwidth :=
  h.of_buf ((VSIscroff_extent s.region s.buf).trans
    (SameExtent.foldl (f := restoreRow s.buf) (fun _ _ => ⟨rfl, rfl⟩) _ _))

/-- The reverse index looks for the top margin only: above it, the first row has nothing to
stop the cursor. -/
def ReverseInRows (s : VSscrn) : Prop := s.y = 0 → s.top = 0

theorem VSIrindex_bounded (h : s.Bounded lines allwidth) (hrows : s.ReverseInRows) :
    s.VSIrindex.Bounded lines allwidth := by
  have hy := h.row_range
  have hlines := h.rows
  rw [VSIrindex]
  split_ifs with htop
  · exact h.of_buf (VSIinslines_extent s.region s.buf 1 s.top)
  · -- in the first row the margin is there, and lines are inserted
    have hpos : s.y ≠ 0 := fun hzero => htop (hzero.trans (hrows hzero).symm)
    apply h.move h.column_range
    rw [short_eq (by omega) (by omega)]
    omega

/-- That is the only way for it to leave the screen. -/
theorem VSIrindex_inBounds_iff (h : s.Bounded lines allwidth) :
    s.VSIrindex.InBounds ↔ s.ReverseInRows := by
  constructor
  · intro hin hy
    by_contra htop
    have habove := hin.row.1
    rw [VSIrindex, if_neg (fun he => htop (he.symm.trans hy))] at habove
    change 0 ≤ short (s.y-1) at habove
    rw [hy, short_eq (by decide) (by decide)] at habove
    exact absurd habove (by decide)
  · intro hrows
    exact (VSIrindex_bounded h hrows).toInBounds

end Bounds

end VSscrn

end VS
