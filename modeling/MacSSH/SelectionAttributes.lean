import MacSSH.SelectionText

/-! The attributes of a selection. Lengths are counted in cells and in bytes, and `VSgetattr`
takes the ones for the others. -/
namespace VS

open Linked

/-- A cell of a line. -/
structure Cell where
  line : Ptr
  column : Int
  deriving DecidableEq, Repr

/-- `n` cells of a line from column `x` on. -/
def cellsFrom (p : Ptr) (x n : Int) : List Cell := (List.range n.toNat).map fun i : ℕ => ⟨p, x+i⟩

/-- `sizeof(VSAttrib)` -/
def sizeofVSAttrib : Int := 4

/-- The value of a 32-bit integer where it is compared with a `sizeof`. -/
def unsigned (i : Int) : Int := i%4294967296

namespace VSscrn

/-- The loop over the rows from `y1` to `ly`, of which `ypt` is the line: the cells whose
attributes are copied. -/
def getattrLoop (s : VSscrn) (lx ly : Int) : ℕ → Int → Int → Ptr → Int → List Cell
  | 0, _, _, _, _ => []
  | turns+1, y1, x1, ypt, max =>
    if y1 ≤ ly ∧ unsigned max ≥ sizeofVSAttrib then
      -- get text from on-screen buffer
      let ypt := if y1 = 0 then s.buf.row 0 else ypt
      let x2 := if y1 = ly then lx else s.maxwidth
      -- a length in bytes, but cut to the room in cells and copied as one in cells
      let outlen := short ((x2-x1+1)*sizeofVSAttrib)
      let outlen := if unsigned outlen > unsigned max/sizeofVSAttrib then
        short (unsigned max/sizeofVSAttrib) else outlen
      cellsFrom ypt x1 outlen ++
        getattrLoop s lx ly turns (y1+1) 0 (s.buf.next ypt) (max-outlen*sizeofVSAttrib)
    else []

/-- The cells whose attributes `VSgetattr` copies, in this order. -/
def attrCells (s : VSscrn) (x1 y1 x2 y2 max : Int) : List Cell :=
  if s.buf.oldScrollback then []
  else
    let d := s.bounds x1 y1 x2 y2
    s.getattrLoop d.lx d.ly (d.ly-d.uy+1).toNat d.uy (d.ux+1) (VSIGetLineStart s.buf d.uy) max

def VSgetattr (s : VSscrn) (x1 y1 x2 y2 max : Int) : List (BitVec 32) :=
  (s.attrCells x1 y1 x2 y2 max).map fun c => s.buf.mem.attr c.line c.column

/-- The selected cells of row `y`. -/
def selectedRow (s : VSscrn) (d : Bounds) (y : Int) : List Cell :=
  let (first, last) := d.columnsOf s.maxwidth y
  cellsFrom (s.buf.viewLine y) first (last-first+1)

/-- The selected cells, row by row. -/
def selectedRows (s : VSscrn) (d : Bounds) : List (List Cell) :=
  (loopRange d.uy d.ly).map (s.selectedRow d)

end VSscrn

/-- These are the cells that `VSgettext` copies. -/
theorem part_selectedRow (s : VSscrn) (d : Bounds) (y : Int) :
    (s.part d y).cells = (s.selectedRow d y).map fun c => s.buf.mem.text c.line c.column := by
  simp only [VSscrn.selectedRow, cellsFrom, List.map_map]
  rfl

/-- What `VSgetattr` is to do: copy the attributes of the selected cells in order, as many as
there is room for, and read no cell beside a line. -/
structure CopiesAttributes (s : VSscrn) (x1 y1 x2 y2 max : Int) : Prop where
  cells : s.attrCells x1 y1 x2 y2 max =
    (s.selectedRows (s.bounds x1 y1 x2 y2)).flatten.take (max/sizeofVSAttrib).toNat
  inside : ∀ c ∈ s.attrCells x1 y1 x2 y2 max, 0 ≤ c.column ∧ c.column ≤ s.buf.allwidth
  within : (s.VSgetattr x1 y1 x2 y2 max).length*sizeofVSAttrib ≤ max

/-- There is no room for more attributes than the first row with selected cells has. -/
def RoomForFirst (rows : List (List Cell)) (room : ℕ) : Prop :=
  ∀ row ∈ rows.find? (· ≠ []), room ≤ row.length

instance (rows : List (List Cell)) (room : ℕ) : Decidable (RoomForFirst rows room) :=
  inferInstanceAs (Decidable (∀ row ∈ rows.find? (· ≠ []), room ≤ row.length))

/-- Cells of one line. -/
structure Span where
  line : Ptr
  first : Int
  count : ℕ

/-- `n` cells from the start of a span on, which may reach beyond its end. -/
def Span.cells (p : Span) (n : ℕ) : List Cell := (List.range n).map fun i : ℕ => ⟨p.line, p.first+i⟩

/-- The loop over the rows, on what is selected of them, with room for `room` attributes. -/
def readSpans : List Span → ℕ → List Cell
  | [], _ => []
  | p :: ps, room =>
    if room = 0 then []
    else p.cells (min (4*p.count) room) ++ readSpans ps (room-4*p.count)

section Spans
variable {p : Span} {ps : List Span}

@[simp] theorem Span.cells_length (p : Span) (n : ℕ) : (p.cells n).length = n := by
  rw [Span.cells, List.length_map, List.length_range]

@[simp] theorem Span.cells_zero (p : Span) : p.cells 0 = [] := rfl

theorem Span.cells_take (p : Span) (n room : ℕ) : (p.cells n).take room = p.cells (min room n) := by
  rw [Span.cells, ← List.map_take, List.take_range]
  rfl

theorem Span.cells_eq_nil {n : ℕ} : p.cells n = [] ↔ n = 0 := by
  rw [← List.length_eq_zero_iff, Span.cells_length]

theorem readSpans_zero (ps : List Span) : readSpans ps 0 = [] := by
  cases ps with
  | nil => rfl
  | cons p ps => exact if_pos rfl

/-- The selected cells of the spans. -/
def selectedOf (ps : List Span) : List (List Cell) := ps.map fun p => p.cells p.count

theorem selectedOf_cons (p : Span) (ps : List Span) :
    selectedOf (p :: ps) = p.cells p.count :: selectedOf ps := rfl

theorem roomForFirst_empty (hempty : p.count = 0) (room : ℕ) :
    RoomForFirst (selectedOf (p :: ps)) room ↔ RoomForFirst (selectedOf ps) room := by
  rw [RoomForFirst, selectedOf_cons, hempty, Span.cells_zero, List.find?_cons_of_neg (by simp)]
  exact Iff.rfl

theorem roomForFirst_cells (hcells : p.count ≠ 0) (room : ℕ) :
    RoomForFirst (selectedOf (p :: ps)) room ↔ room ≤ p.count := by
  have hne : p.cells p.count ≠ [] := fun hnil => hcells (Span.cells_eq_nil.mp hnil)
  rw [RoomForFirst, selectedOf_cons, List.find?_cons_of_pos (by simpa using hne)]
  constructor
  · intro h
    have hrow := h _ rfl
    rwa [Span.cells_length] at hrow
  · intro h row hrow
    rw [← Option.some.inj hrow, Span.cells_length]
    exact h

theorem readSpans_empty (hempty : p.count = 0) (room : ℕ) :
    readSpans (p :: ps) room = readSpans ps room := by
  rw [readSpans, hempty, Nat.mul_zero, Nat.zero_min, Span.cells_zero, List.nil_append, Nat.sub_zero]
  split_ifs with hroom
  · rw [hroom, readSpans_zero]
  · rfl

/-- With no more room than the first row with selected cells needs, just these are read. -/
theorem readSpans_first (room : ℕ) (h : RoomForFirst (selectedOf ps) room) :
    readSpans ps room = (selectedOf ps).flatten.take room := by
  induction ps with
  | nil => exact List.take_nil.symm
  | cons p ps ih =>
    rw [selectedOf_cons, List.flatten_cons]
    by_cases hempty : p.count = 0
    · -- nothing of this row is selected, and nothing of it is read
      rw [roomForFirst_empty hempty] at h
      rw [readSpans_empty hempty, hempty, Span.cells_zero, List.nil_append, ih h]
    · have hroom : room ≤ p.count := (roomForFirst_cells hempty room).mp h
      rw [List.take_append_of_le_length (by rwa [Span.cells_length]), Span.cells_take,
        min_eq_left hroom, readSpans, Nat.min_eq_right (by omega), Nat.sub_eq_zero_of_le (by omega),
        readSpans_zero, List.append_nil]
      split_ifs with hzero
      · rw [hzero, Span.cells_zero]
      · rfl

theorem readSpans_beyond (room : ℕ) (hlines : (ps.map Span.line).Nodup)
    (h : readSpans ps room = (selectedOf ps).flatten.take room) :
    RoomForFirst (selectedOf ps) room := by
  induction ps with
  | nil =>
    intro row hrow
    cases hrow
  | cons p ps ih =>
    rw [List.map_cons, List.nodup_cons] at hlines
    obtain ⟨hother, hlines⟩ := hlines
    rw [selectedOf_cons, List.flatten_cons] at h
    by_cases hempty : p.count = 0
    · rw [readSpans_empty hempty, hempty, Span.cells_zero, List.nil_append] at h
      rw [roomForFirst_empty hempty]
      exact ih hlines h
    · rw [roomForFirst_cells hempty]
      by_contra hmore
      have hroom : p.count < room := not_le.mp hmore
      -- the cell behind the selected ones of this row is read
      have hread : (readSpans (p :: ps) room)[p.count]? = some ⟨p.line, p.first+p.count⟩ := by
        rw [readSpans, if_neg (by omega), List.getElem?_append_left (by
          rw [Span.cells_length]
          omega), Span.cells, List.getElem?_map, List.getElem?_range (by omega)]
        rfl
      -- but the selected cell at this place is one of a row below, if there is one
      rw [h, List.getElem?_take_of_lt hroom,
        List.getElem?_append_right (Span.cells_length p p.count).le] at hread
      have hmem := List.mem_of_getElem? hread
      rw [List.mem_flatten] at hmem
      obtain ⟨row', hrow', hcell⟩ := hmem
      obtain ⟨p', hp', rfl⟩ := List.mem_map.mp hrow'
      obtain ⟨i, -, heq⟩ := List.mem_map.mp hcell
      have hsame : p'.line = p.line := congrArg Cell.line heq
      apply hother
      rw [← hsame]
      exact List.mem_map_of_mem hp'

/-- The attributes read are those of the selected cells if and only if there is no room for more
than the first row with selected cells has. -/
theorem readSpans_iff (room : ℕ) (hlines : (ps.map Span.line).Nodup) :
    readSpans ps room = (selectedOf ps).flatten.take room ↔ RoomForFirst (selectedOf ps) room :=
  ⟨readSpans_beyond room hlines, readSpans_first room⟩

end Spans

section Rows
variable {s : VSscrn} {d : Bounds}

/-- The selected cells of row `y` as a span. -/
def VSscrn.spanOf (s : VSscrn) (d : Bounds) (y : Int) : Span :=
  ⟨s.buf.viewLine y, (d.columnsOf s.maxwidth y).1,
    ((d.columnsOf s.maxwidth y).2-(d.columnsOf s.maxwidth y).1+1).toNat⟩

theorem selectedRows_spans (s : VSscrn) (d : Bounds) :
    s.selectedRows d = selectedOf ((loopRange d.uy d.ly).map (s.spanOf d)) := by
  rw [selectedOf, List.map_map]
  rfl

theorem spans_lines (h : Selectable s) (hd : d.Inside s) :
    (((loopRange d.uy d.ly).map (s.spanOf d)).map Span.line).Nodup := by
  rw [List.map_map]
  have huy := hd.uy
  have hly := hd.ly
  apply List.Nodup.map_on
  · intro y hy y' hy' hsame
    rw [mem_loopRange] at hy hy'
    rcases lt_trichotomy y y' with hlt | heq | hlt
    · exact absurd hsame (h.followed.viewLine_inj (by omega) hlt (by omega))
    · exact heq
    · exact absurd hsame.symm (h.followed.viewLine_inj (by omega) hlt (by omega))
  · apply List.Nodup.map
    · intro i j hij
      dsimp only at hij
      omega
    · exact List.nodup_range

/-- The length that is copied, when the number of cells in bytes is a 16-bit number. -/
theorem attrLength {n max : Int} (hn : 0 ≤ n) (hn' : n*4 ≤ 32767) (hmax : 0 ≤ max)
    (hmax' : max < 2147483648) :
    (if unsigned (short (n*sizeofVSAttrib)) > unsigned max/sizeofVSAttrib then
      short (unsigned max/sizeofVSAttrib) else short (n*sizeofVSAttrib)) =
      (min (4*n.toNat) (max/4).toNat : ℕ) := by
  have hlow : -32768 ≤ n*4 := by omega
  have hlen : short (n*sizeofVSAttrib) = n*4 := short_eq hlow hn'
  have hlen' : unsigned (n*4) = n*4 := by
    rw [unsigned]
    omega
  have hroom : unsigned max = max := by
    rw [unsigned]
    omega
  rw [hlen, hlen', hroom, sizeofVSAttrib]
  split_ifs with hbig
  · rw [short_eq (by omega) (by omega)]
    omega
  · omega

/-- The lines that the loop walks along are those of the rows. -/
theorem getattrLoop_spans (h : Selectable s) (hd : d.Inside s) (hwidth : s.maxwidth ≤ 255) (n : ℕ)
    {y : Int} (hn : n = (d.ly-y+1).toNat) (hy : d.uy ≤ y) {max : Int} (hmax : 0 ≤ max)
    (hmax' : max < 2147483648) {ypt : Ptr} (hypt : y ≤ d.ly → ypt = s.buf.viewLine y) :
    s.getattrLoop d.lx d.ly n y (d.columnsOf s.maxwidth y).1 ypt max =
      readSpans ((loopRange y d.ly).map (s.spanOf d)) (max/4).toNat := by
  induction n generalizing y max ypt with
  | zero =>
    rw [loopRange_nil (by omega)]
    rfl
  | succ n ih =>
    have hle : y ≤ d.ly := by omega
    have hn' : n = (d.ly-(y+1)+1).toNat := by omega
    have hy' : d.uy ≤ y+1 := by omega
    have hly := hd.ly
    have huy := hd.uy
    obtain ⟨hcol, hcol', hcol''⟩ := columnsOf_range h hd y
    have hline : (if y = 0 then s.buf.row 0 else ypt) = s.buf.viewLine y := by
      split_ifs with hzero
      · rw [hzero, h.followed.viewLine_zero]
      · exact hypt hle
    have hlast : (if y = d.ly then d.lx else s.maxwidth) = (d.columnsOf s.maxwidth y).2 := rfl
    have hlength := @attrLength ((d.columnsOf s.maxwidth y).2-(d.columnsOf s.maxwidth y).1+1) max
      (by omega) (by omega) hmax hmax'
    have hunsigned : unsigned max = max := by
      rw [unsigned]
      omega
    rw [loopRange_cons hle, List.map_cons, VSscrn.getattrLoop, readSpans]
    simp only [hline, hlast, hlength]
    by_cases hroom : unsigned max ≥ sizeofVSAttrib
    · have hpos : (max/4).toNat ≠ 0 := by
        rw [hunsigned, sizeofVSAttrib] at hroom
        omega
      have hline' : y+1 ≤ d.ly → s.buf.next (s.buf.viewLine y) = s.buf.viewLine (y+1) :=
        fun hlt => (h.followed.next_viewLine (by omega) (by omega)).1
      have hnext : (d.columnsOf s.maxwidth (y+1)).1 = 0 := by
        simp only [Bounds.columnsOf]
        rw [if_neg (by omega)]
      rw [if_pos ⟨hle, hroom⟩, if_neg hpos]
      -- the room that is left, in bytes and in attributes
      have hcount : (s.spanOf d y).count =
          ((d.columnsOf s.maxwidth y).2-(d.columnsOf s.maxwidth y).1+1).toNat := rfl
      rw [← hcount]
      generalize (s.spanOf d y).count = count
      have hleft : 0 ≤ max-(min (4*count) (max/4).toNat : ℕ)*sizeofVSAttrib := by
        rw [sizeofVSAttrib]
        omega
      have hleft' : ((max-(min (4*count) (max/4).toNat : ℕ)*sizeofVSAttrib)/4).toNat =
          (max/4).toNat-4*count := by
        rw [sizeofVSAttrib]
        omega
      have hused : 0 ≤ ((min (4*count) (max/4).toNat : ℕ) : Int)*sizeofVSAttrib :=
        Int.mul_nonneg (Int.natCast_nonneg _) (by decide)
      have hsmall := Int.lt_of_le_of_lt (Int.sub_le_self max hused) hmax'
      have hrest := ih hn' hy' hleft hsmall hline'
      rw [hnext, hleft'] at hrest
      rw [hrest]
      rfl
    · rw [if_neg (fun hboth => hroom hboth.2), if_pos]
      rw [hunsigned, sizeofVSAttrib] at hroom
      omega

/-- A copy of attributes from a screen is one of the spans of its rows. -/
theorem attrCells_spans (h : Selectable s) (hwidth : s.maxwidth ≤ 255) (x1 y1 x2 y2 : Int)
    {max : Int} (hmax : 0 ≤ max) (hmax' : max < 2147483648) :
    s.attrCells x1 y1 x2 y2 max =
      readSpans ((loopRange (s.bounds x1 y1 x2 y2).uy (s.bounds x1 y1 x2 y2).ly).map
        (s.spanOf (s.bounds x1 y1 x2 y2))) (max/4).toNat := by
  have hd := bounds_inside h x1 y1 x2 y2
  have hlinked : ¬s.buf.oldScrollback = true := by
    rw [h.followed.linked]
    exact Bool.false_ne_true
  rw [VSscrn.attrCells, if_neg hlinked]
  generalize s.bounds x1 y1 x2 y2 = d at hd ⊢
  have hrows := hd.rows
  have hly := hd.ly
  have hloop := @getattrLoop_spans s d h hd hwidth (d.ly-d.uy+1).toNat d.uy rfl le_rfl max hmax
    hmax' (VSIGetLineStart s.buf d.uy)
    (fun _ => h.followed.lineStart h.counted hd.uy (by omega))
  have hfirst : (d.columnsOf s.maxwidth d.uy).1 = d.ux+1 := if_pos rfl
  rw [hfirst] at hloop
  exact hloop

theorem selected_inside (h : Selectable s) (hd : d.Inside s) {c : Cell}
    (hc : c ∈ (s.selectedRows d).flatten) : 0 ≤ c.column ∧ c.column ≤ s.maxwidth := by
  obtain ⟨row, hrow, hc⟩ := List.mem_flatten.mp hc
  obtain ⟨y, -, rfl⟩ := List.mem_map.mp hrow
  obtain ⟨i, hi, rfl⟩ := List.mem_map.mp hc
  obtain ⟨hcol, hcol', hcol''⟩ := columnsOf_range h hd y
  have hlt : i < ((d.columnsOf s.maxwidth y).2-(d.columnsOf s.maxwidth y).1+1).toNat :=
    List.mem_range.mp hi
  change 0 ≤ (d.columnsOf s.maxwidth y).1+i ∧ (d.columnsOf s.maxwidth y).1+i ≤ s.maxwidth
  omega

end Rows

/-- The attributes of a selection are right if and only if there is no room for more of them than
the first row with selected cells has. -/
theorem selection_attributes_iff (s : VSscrn) (x1 y1 x2 y2 max : Int) (h : Selectable s)
    (hwidth : s.maxwidth ≤ s.buf.allwidth) (hall : s.buf.allwidth ≤ 255)
    (hmax : max < 2147483648) :
    CopiesAttributes s x1 y1 x2 y2 max ↔
      0 ≤ max ∧ RoomForFirst (s.selectedRows (s.bounds x1 y1 x2 y2)) (max/4).toNat := by
  have hd := bounds_inside h x1 y1 x2 y2
  have hread {max : Int} (hpos : 0 ≤ max) (hmax : max < 2147483648) :=
    attrCells_spans h (hwidth.trans hall) x1 y1 x2 y2 hpos hmax
  have hlines := spans_lines h hd
  constructor
  · rintro ⟨hcells, -, hwithin⟩
    have hpos : 0 ≤ max := by
      apply le_trans _ hwithin
      rw [sizeofVSAttrib]
      omega
    apply And.intro hpos
    rw [hread hpos hmax, selectedRows_spans] at hcells
    rw [selectedRows_spans]
    exact (readSpans_iff _ hlines).mp hcells
  · rintro ⟨hpos, hroom⟩
    rw [selectedRows_spans] at hroom
    have hcells : s.attrCells x1 y1 x2 y2 max =
        (s.selectedRows (s.bounds x1 y1 x2 y2)).flatten.take (max/sizeofVSAttrib).toNat := by
      rw [hread hpos hmax, (readSpans_iff _ hlines).mpr hroom, selectedRows_spans]
      rfl
    refine ⟨hcells, ?_, ?_⟩
    · intro c hc
      rw [hcells] at hc
      obtain ⟨hleft, hright⟩ := selected_inside h hd (List.mem_of_mem_take hc)
      exact ⟨hleft, hright.trans hwidth⟩
    · have hlen : (s.VSgetattr x1 y1 x2 y2 max).length ≤ (max/sizeofVSAttrib).toNat := by
        rw [VSscrn.VSgetattr, List.length_map, hcells]
        exact List.length_take_le _ _
      rw [sizeofVSAttrib] at hlen ⊢
      omega

theorem one_attribute_copied : CopiesAttributes abcScreen (-1) 0 0 0 4 :=
  (selection_attributes_iff abcScreen (-1) 0 0 0 4 abcScreen_selectable (by decide) (by decide)
    (by decide)).mpr (by decide)

/-- With room for two attributes, the cell behind the selected one is read too. -/
theorem cell_behind_selection_read :
    abcScreen.attrCells (-1) 0 0 0 8 = [⟨1, 0⟩, ⟨1, 1⟩] ∧
      (abcScreen.VSgetattr (-1) 0 0 0 8).length = 2 ∧
      (abcScreen.selectedRows (abcScreen.bounds (-1) 0 0 0)).flatten = [⟨1, 0⟩] ∧
      ¬CopiesAttributes abcScreen (-1) 0 0 0 8 := by
  have hread : abcScreen.attrCells (-1) 0 0 0 8 = [⟨1, 0⟩, ⟨1, 1⟩] := by decide
  have hselected : (abcScreen.selectedRows (abcScreen.bounds (-1) 0 0 0)).flatten = [⟨1, 0⟩] := by
    decide
  refine ⟨hread, by decide, hselected, ?_⟩
  rintro ⟨hcells, -, -⟩
  rw [hread, hselected] at hcells
  exact absurd hcells (by decide)

end VS
