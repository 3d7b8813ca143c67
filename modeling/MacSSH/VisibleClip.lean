import MacSSH.ScreenLines
import Mathlib

/-! What clipping to the visible region leaves of a rectangle, or of a text on a line. -/
namespace VS

/-- The cells of a rectangle, given by its corners. -/
noncomputable def cells (left top right bottom : Int) : Finset (Int × Int) :=
  Finset.Icc left right ×ˢ Finset.Icc top bottom

theorem cells_inter (left top right bottom left' top' right' bottom' : Int) :
    cells left top right bottom ∩ cells left' top' right' bottom' =
      cells (max left left') (max top top') (min right right') (min bottom bottom') := by
  ext ⟨x, y⟩
  rw [cells, cells, cells, Finset.mem_inter, Finset.mem_product, Finset.mem_product,
    Finset.mem_product]
  dsimp only
  repeat rw [Finset.mem_Icc]
  omega

theorem cells_eq_empty (left top right bottom : Int) :
    cells left top right bottom = ∅ ↔ right < left ∨ bottom < top := by
  rw [cells, Finset.product_eq_empty, Finset.Icc_eq_empty_iff, Finset.Icc_eq_empty_iff, not_le,
    not_le]

/-- The numbers of an interval that are in another one too. -/
theorem columns_inside (x1 right low high : Int) :
    ((Finset.Icc x1 right).filter fun x => low ≤ x ∧ x ≤ high) =
      Finset.Icc (max x1 low) (min right high) := by
  ext x
  rw [Finset.mem_filter, Finset.mem_Icc, Finset.mem_Icc]
  omega

theorem columns_before {right low : Int} (h : low ≤ right+1) (x1 : Int) :
    ((Finset.Icc x1 right).filter fun x => x < low) = Finset.Icc x1 (low-1) := by
  ext x
  rw [Finset.mem_filter, Finset.mem_Icc, Finset.mem_Icc]
  omega

/-- The cells of the visible region. -/
noncomputable def VSbuf.region (b : VSbuf) : Finset (Int × Int) :=
  cells b.Rleft b.Rtop b.Rright b.Rbottom

/-- The last column and the last line of a text of `n` characters, or of a rectangle. -/
def endColumn (x1 x2 n : Int) : Int := if n ≥ 0 then x1+n-1 else x2

def endLine (y1 y2 n : Int) : Int := if n ≥ 0 then y1 else y2

/-- What is to be drawn, and the part of it that is visible. -/
noncomputable def drawnCells (x1 y1 x2 y2 n : Int) : Finset (Int × Int) :=
  cells x1 y1 (endColumn x1 x2 n) (endLine y1 y2 n)

noncomputable def VSbuf.visibleCells (b : VSbuf) (x1 y1 x2 y2 n : Int) : Finset (Int × Int) :=
  drawnCells x1 y1 x2 y2 n ∩ b.region

def InShort (i : Int) : Prop := -32768 ≤ i ∧ i ≤ 32767

instance (i : Int) : Decidable (InShort i) := inferInstanceAs (Decidable (_ ∧ _))

theorem InShort.short_eq {i : Int} (h : InShort i) : short i = i := VS.short_eq h.1 h.2

/-- No result of the arithmetic of `VSIclip` is beyond 16 bits. What is only computed when the
text or the rectangle is not right of the region or above it is only asked for then. -/
structure ClipFits (b : VSbuf) (x1 y1 x2 y2 n : Int) : Prop where
  last : 0 ≤ n → InShort (x1+n-1)
  left : x1 ≤ b.Rright → b.Rtop ≤ endLine y1 y2 n → InShort (x1-b.Rleft)
  skipped : x1 ≤ b.Rright → b.Rtop ≤ endLine y1 y2 n → InShort (-(x1-b.Rleft))
  right : x1 ≤ b.Rright → b.Rtop ≤ endLine y1 y2 n →
    InShort (min (endColumn x1 x2 n) b.Rright-b.Rleft)
  top : x1 ≤ b.Rright → b.Rtop ≤ endLine y1 y2 n → InShort (y1-b.Rtop)
  bottom : x1 ≤ b.Rright → b.Rtop ≤ endLine y1 y2 n →
    InShort (min (endLine y1 y2 n) b.Rbottom-b.Rtop)
  width : x1 ≤ b.Rright → b.Rtop ≤ endLine y1 y2 n →
    InShort (min (endColumn x1 x2 n) b.Rright-b.Rleft-max 0 (x1-b.Rleft)+1)

section Clips
variable {b : VSbuf} {x1 y1 x2 y2 n : Int}

/-- Without overflow, clipping is done with integers. -/
theorem VSIclip_eq (h : ClipFits b x1 y1 x2 y2 n) :
    VSIclip b x1 y1 x2 y2 n =
      if x1 > b.Rright ∨ endLine y1 y2 n < b.Rtop then none
      else
        let left := max 0 (x1-b.Rleft)
        let top := max 0 (y1-b.Rtop)
        let right := min (endColumn x1 x2 n) b.Rright-b.Rleft
        let bottom := min (endLine y1 y2 n) b.Rbottom-b.Rtop
        if right < left ∨ bottom < top then none
        else some ⟨left, top, right, bottom, right-left+1, max 0 (-(x1-b.Rleft))⟩ := by
  have hcolumn : (if n ≥ 0 then short (x1+n-1) else x2) = endColumn x1 x2 n := by
    rw [endColumn]
    split_ifs with hn
    · exact (h.last hn).short_eq
    · rfl
  have hline : (if n ≥ 0 then y1 else y2) = endLine y1 y2 n := rfl
  have hpos (i : Int) : (if i < 0 then 0 else i) = max 0 i := by
    split_ifs <;> omega
  have hcut (i j : Int) : (if i > j then j else i) = min i j := by
    split_ifs <;> omega
  rw [VSIclip]
  simp only [hcolumn, hline]
  by_cases hout : x1 > b.Rright ∨ endLine y1 y2 n < b.Rtop
  · rw [if_pos hout, if_pos hout]
  · have hx : x1 ≤ b.Rright := by omega
    have hy : b.Rtop ≤ endLine y1 y2 n := by omega
    rw [if_neg hout, if_neg hout]
    simp only [hcut, (h.left hx hy).short_eq, (h.skipped hx hy).short_eq, (h.right hx hy).short_eq,
      (h.top hx hy).short_eq, (h.bottom hx hy).short_eq, hpos, (h.width hx hy).short_eq]
    apply if_congr _ rfl rfl
    omega

/-- Clipping says that nothing is visible exactly when nothing is, and otherwise gives the
visible part relative to the corner of the region, the number of its columns, and the number
of columns that are cut off on the left. -/
theorem VSIclip_exact (h : ClipFits b x1 y1 x2 y2 n) :
    (VSIclip b x1 y1 x2 y2 n = none ↔ b.visibleCells x1 y1 x2 y2 n = ∅) ∧
      ∀ r, VSIclip b x1 y1 x2 y2 n = some r →
        b.visibleCells x1 y1 x2 y2 n =
            cells (b.Rleft+r.x1) (b.Rtop+r.y1) (b.Rleft+r.x2) (b.Rtop+r.y2) ∧
          (r.x1 ≤ r.x2 ∧ r.y1 ≤ r.y2) ∧
          r.n = ((Finset.Icc x1 (endColumn x1 x2 n)).filter
            fun x => b.Rleft ≤ x ∧ x ≤ b.Rright).card ∧
          r.offset = ((Finset.Icc x1 (endColumn x1 x2 n)).filter fun x => x < b.Rleft).card := by
  have hvisible : b.visibleCells x1 y1 x2 y2 n =
      cells (max x1 b.Rleft) (max y1 b.Rtop) (min (endColumn x1 x2 n) b.Rright)
        (min (endLine y1 y2 n) b.Rbottom) := cells_inter ..
  rw [VSIclip_eq h, hvisible, cells_eq_empty]
  generalize endColumn x1 x2 n = right
  generalize endLine y1 y2 n = bottom
  by_cases hout : x1 > b.Rright ∨ bottom < b.Rtop
  · rw [if_pos hout]
    refine ⟨iff_of_true rfl (by omega), ?_⟩
    rintro r hr
    cases hr
  rw [if_neg hout]
  dsimp only
  by_cases hempty : min right b.Rright-b.Rleft < max 0 (x1-b.Rleft) ∨
      min bottom b.Rbottom-b.Rtop < max 0 (y1-b.Rtop)
  · rw [if_pos hempty]
    refine ⟨iff_of_true rfl (by omega), ?_⟩
    rintro r hr
    cases hr
  · rw [if_neg hempty]
    refine ⟨iff_of_false (Option.some_ne_none _) (by omega), ?_⟩
    rintro r hr
    obtain rfl := Option.some.inj hr
    dsimp only
    refine ⟨?_, by omega, ?_, ?_⟩
    · congr 1 <;> omega
    · rw [columns_inside, Int.card_Icc]
      omega
    · -- something is visible, so the text goes on where the region begins
      rw [columns_before (by omega), Int.card_Icc]
      omega

end Clips

/-- A view that starts at the sixth column. -/
def shiftedView : VSbuf where
  mem := ⟨⟨id, id⟩, fun _ _ => 0, fun _ _ => 0, fun _ => 0, 0, []⟩
  scrntop := NULL
  buftop := NULL
  vistop := NULL
  linest := []
  attrst := []
  lines := 23
  maxlines := 0
  numlines := 0
  allwidth := 131
  savelines := false
  oldScrollback := false
  Rtop := 0
  Rbottom := 23
  Rleft := 5
  Rright := 79

/-- Two of the ten characters of a text are cut off on the left. -/
theorem text_cut_on_left :
    VSIclip shiftedView 3 2 0 0 10 = some ⟨0, 2, 7, 2, 8, 2⟩ ∧
      shiftedView.visibleCells 3 2 0 0 10 = cells 5 2 12 2 := by
  have hfits : ClipFits shiftedView 3 2 0 0 10 :=
    ⟨fun _ => by decide, fun _ _ => by decide, fun _ _ => by decide, fun _ _ => by decide,
      fun _ _ => by decide, fun _ _ => by decide, fun _ _ => by decide⟩
  have hclip : VSIclip shiftedView 3 2 0 0 10 = some ⟨0, 2, 7, 2, 8, 2⟩ := by decide
  exact ⟨hclip, ((VSIclip_exact hfits).2 _ hclip).1⟩

end VS
