import MacSSH.EditMargins
import MacSSH.ScrollSaves
import MacSSH.ScreenState

/-! The cursor line: wrapping the cursor to the next line, and deleting characters. -/
namespace VS

open Linked

def kVSdecdhlt : BitVec 16 := 1

def kVSdecdhlb : BitVec 16 := 2

def VSisdecdwl (x : BitVec 16) : Bool :=
  x &&& (kVSdecdhlt ||| kVSdecdhlb) = kVSdecdhlt ||| kVSdecdhlb

/-- Whether the characters of a line are twice as wide and twice as high. -/
def VSisdecdwh (x : BitVec 16) : Bool :=
  x &&& (kVSdecdhlt ||| kVSdecdhlb) ≠ 0 && !VSisdecdwl x

/-- Column `j` of the line with the text in `p` and the attributes in `pa`. -/
def LineMem.cell (m : LineMem) (p pa : Ptr) (j : Int) : UInt8 × BitVec 32 :=
  (m.text p j, m.attr pa j)

/-- Cell `i` of a line gets what is in cell `k`. -/
def LineMem.copyCell (m : LineMem) (p pa : Ptr) (i k : Int) : LineMem :=
  { m with
    text := Function.update m.text p (Function.update (m.text p) i (m.text p k))
    attr := Function.update m.attr pa (Function.update (m.attr pa) i (m.attr pa k)) }

/-- Cell `i` of a line gets a blank with the attribute `a`. -/
def LineMem.blankCell (m : LineMem) (p pa : Ptr) (a : BitVec 32) (i : Int) : LineMem :=
  { m with
    text := Function.update m.text p (Function.update (m.text p) i 32)
    attr := Function.update m.attr pa (Function.update (m.attr pa) i a) }

/-- The numbers that `for (i = first; i <= last; i++)` runs over. -/
def loopRange (first last : Int) : List Int :=
  (List.range (last-first+1).toNat).map fun k : ℕ => first+k

namespace VSscrn

/-- The screen as the line routines see it. -/
def region (s : VSscrn) : VSregion where
  vtemulation := s.vtemulation
  y := s.y
  top := s.top
  bottom := s.bottom
  maxwidth := s.maxwidth
  attrib := s.attrib

/-- Move the cursor down one line, or scroll at the bottom of the scrolling region. -/
def VSIindex (s : VSscrn) : VSscrn :=
  let s :=
    if s.y = s.bottom then { s with buf := VSIscroll s.region s.buf }
    else if s.y < s.buf.lines then { s with y := short (s.y+1) }
    else s
  { s with lattrib := 0 }

/-- The last column of the cursor line: a double-size line has half of the columns. -/
def lastColumn (s : VSscrn) : Int :=
  if VSisdecdwh s.lattrib then
    let mw := s.maxwidth >>> (1 : ℕ)
    if s.maxwidth % 2 = 0 then mw-1 else mw
  else s.maxwidth

/-- Move a cursor beyond the last column to the start of the next line. -/
def VSIwrapnow (s : VSscrn) : VSscrn :=
  if s.x > s.lastColumn then { s with x := 0 }.VSIindex else s

/-- Delete `x` characters from the cursor on: the rest of the line moves to the left and
blanks follow it. -/
def VSIdelchars (s : VSscrn) (x : Int) : VSscrn :=
  let s := s.VSIwrapnow
  let x := if x > s.maxwidth then s.maxwidth else x
  let temp := s.buf.row s.y
  let tempa := s.buf.cellRow s.y
  let moved := (loopRange s.x (s.maxwidth-x)).foldl
    (fun m i => m.copyCell temp tempa i (x+i)) s.buf.mem
  let cleared := (loopRange (s.maxwidth-x+1) s.buf.allwidth).foldl
    (fun m i => m.blankCell temp tempa s.region.blankAttrib i) moved
  { s with buf.mem := cleared }

/-- The host deletes characters. -/
def VSemP (s : VSscrn) (parm : Int) : VSscrn := s.VSIdelchars (lineCount parm)

/-- The text and the attribute in column `j` of the cursor line. -/
def cell (s : VSscrn) (j : Int) : UInt8 × BitVec 32 :=
  s.buf.mem.cell (s.buf.row s.y) (s.buf.cellRow s.y) j

def blankCell (s : VSscrn) : UInt8 × BitVec 32 := (32, s.region.blankAttrib)

end VSscrn

/-- From `s` to `s'`, `n` characters are deleted at the cursor, and nothing else changes. -/
def DeletesChars (s s' : VSscrn) (n : Int) : Prop :=
  ∀ j, 0 ≤ j → j ≤ s.maxwidth → s'.cell j =
    if j < s.x then s.cell j else if j+n ≤ s.maxwidth then s.cell (j+n) else s.blankCell

/-- What a count beyond the rest of the line touches is blank already: the cells left of
the cursor that the blanks reach and, for a count beyond the line at its first column, the
last cell. -/
structure NothingToLose (s : VSscrn) (n : Int) : Prop where
  left : ∀ j, s.maxwidth-n < j → 0 < j → j < s.x → s.cell j = s.blankCell
  last : s.x = 0 → s.maxwidth < n → s.cell s.maxwidth = s.blankCell

section Loops
variable {m : LineMem} {p pa : Ptr}

theorem mem_loopRange {first last i : Int} : i ∈ loopRange first last ↔ first ≤ i ∧ i ≤ last := by
  rw [loopRange, List.mem_map]
  constructor
  · rintro ⟨k, hk, rfl⟩
    have := List.mem_range.mp hk
    omega
  · rintro ⟨hf, hl⟩
    exact ⟨(i-first).toNat, List.mem_range.mpr (by omega), by omega⟩

theorem copyCell_cell (m : LineMem) (p pa : Ptr) (i k j : Int) :
    (m.copyCell p pa i k).cell p pa j = if j = i then m.cell p pa k else m.cell p pa j := by
  simp only [LineMem.cell, LineMem.copyCell, Function.update_self, Function.update_apply]
  split_ifs <;> rfl

theorem blankCell_cell (m : LineMem) (p pa : Ptr) (a : BitVec 32) (i j : Int) :
    (m.blankCell p pa a i).cell p pa j = if j = i then (32, a) else m.cell p pa j := by
  simp only [LineMem.cell, LineMem.blankCell, Function.update_self, Function.update_apply]
  split_ifs <;> rfl

/-- Moving cells to the left, the leftmost first: every cell gets the old cell `d` to its
right. -/
theorem moveLeft_cell (m : LineMem) (p pa : Ptr) {d : Int} (hd : 0 ≤ d) (first last j : Int) :
    ((loopRange first last).foldl (fun m i => m.copyCell p pa i (d+i)) m).cell p pa j =
      if first ≤ j ∧ j ≤ last then m.cell p pa (d+j) else m.cell p pa j := by
  have hloop (n : ℕ) : ∀ j, (((List.range n).map fun k : ℕ => first+k).foldl
      (fun m i => m.copyCell p pa i (d+i)) m).cell p pa j =
        if first ≤ j ∧ j < first+n then m.cell p pa (d+j) else m.cell p pa j := by
    induction n with
    | zero =>
      intro j
      rw [if_neg (by omega)]
      rfl
    | succ n ih =>
      intro j
      rw [List.range_succ, List.map_append, List.foldl_append]
      simp only [List.map_cons, List.map_nil, List.foldl_cons, List.foldl_nil]
      -- the cell that is read has not been written yet
      have hread : ¬(first ≤ d+(first+n) ∧ d+(first+n) < first+n) := by omega
      rw [copyCell_cell, ih (d+(first+n)), ih j, if_neg hread]
      by_cases hj : j = first+n
      · rw [if_pos hj, if_pos (by omega), hj]
      · rw [if_neg hj]
        exact if_congr (by omega) rfl rfl
  rw [loopRange, hloop]
  exact if_congr (by omega) rfl rfl

theorem blankLoop_cell (m : LineMem) (p pa : Ptr) (a : BitVec 32) (is : List Int) (j : Int) :
    (is.foldl (fun m i => m.blankCell p pa a i) m).cell p pa j =
      if j ∈ is then (32, a) else m.cell p pa j := by
  induction is generalizing m with
  | nil => rfl
  | cons i is ih =>
    rw [List.foldl_cons, ih, blankCell_cell]
    by_cases hi : j = i
    · rw [if_pos hi, if_pos (List.mem_cons.mpr (Or.inl hi)), ite_self]
    · rw [if_neg hi]
      exact if_congr (by rw [List.mem_cons, or_iff_right hi]) rfl rfl

end Loops

section Wrap
variable {s : VSscrn}

theorem VSIwrapnow_of_le (h : s.x ≤ s.lastColumn) : s.VSIwrapnow = s := if_neg (not_lt.mpr h)

theorem VSIwrapnow_maxwidth : s.VSIwrapnow.maxwidth = s.maxwidth := by
  simp only [VSscrn.VSIwrapnow, VSscrn.VSIindex]
  split_ifs <;> rfl

theorem VSIwrapnow_allwidth : s.VSIwrapnow.buf.allwidth = s.buf.allwidth := by
  simp only [VSscrn.VSIwrapnow, VSscrn.VSIindex]
  split_ifs
  · exact (VSIscroll_extent _ _).allwidth
  · rfl
  · rfl
  · rfl

theorem lastColumn_le (h : 0 ≤ s.maxwidth) : s.lastColumn ≤ s.maxwidth := by
  simp only [VSscrn.lastColumn, Int.shiftRight_eq_div_pow]
  split_ifs <;> omega

/-- The cursor stands inside the line after it has been wrapped. -/
theorem VSIwrapnow_x (hx : 0 ≤ s.x) (hw : 0 ≤ s.maxwidth) :
    0 ≤ s.VSIwrapnow.x ∧ s.VSIwrapnow.x ≤ s.maxwidth := by
  by_cases hwrap : s.x > s.lastColumn
  · have hzero : s.VSIwrapnow.x = 0 := by
      rw [VSscrn.VSIwrapnow, if_pos hwrap]
      simp only [VSscrn.VSIindex]
      split_ifs <;> rfl
    omega
  · have := lastColumn_le hw
    rw [VSIwrapnow_of_le (by omega)]
    omega

end Wrap

section Deletion
variable {s : VSscrn}

/-- The count after it has been limited to the width of the screen. -/
def limited (s : VSscrn) (n : Int) : Int := if n > s.maxwidth then s.maxwidth else n

/-- What deleting characters makes of the cells of the cursor line. -/
theorem VSIdelchars_cell {n : Int} (hn : 0 ≤ n) (hw : 0 ≤ s.maxwidth)
    (hall : s.maxwidth ≤ s.buf.allwidth) (j : Int) (hj : j ≤ s.maxwidth) :
    (s.VSIdelchars n).cell j =
      if s.maxwidth-limited s n < j then s.VSIwrapnow.blankCell
      else if s.VSIwrapnow.x ≤ j then s.VSIwrapnow.cell (limited s n+j)
      else s.VSIwrapnow.cell j := by
  have hmax : s.VSIwrapnow.maxwidth = s.maxwidth := VSIwrapnow_maxwidth
  rw [← VSIwrapnow_allwidth] at hall
  have hd : 0 ≤ limited s n := by
    rw [limited]
    split_ifs <;> omega
  simp only [VSscrn.VSIdelchars, VSscrn.cell, hmax]
  rw [← limited]
  change LineMem.cell _ (s.VSIwrapnow.buf.row s.VSIwrapnow.y)
    (s.VSIwrapnow.buf.cellRow s.VSIwrapnow.y) j = _
  rw [blankLoop_cell, moveLeft_cell _ _ _ hd]
  by_cases hright : s.maxwidth-limited s n < j
  · rw [if_pos (mem_loopRange.mpr (by omega)), if_pos hright]
    rfl
  · rw [if_neg (fun h => hright (by have := mem_loopRange.mp h; omega)), if_neg hright]
    exact if_congr (by omega) rfl rfl

/-- Deleting characters shifts the rest of the cursor line to the left and fills it with
blanks exactly when the cells that a count beyond the line touches are blank already. A
cursor beyond the last column is wrapped to the next line first. -/
theorem delete_chars_iff (s : VSscrn) (n : Int) (hn : 1 ≤ n) (hx : 0 ≤ s.x)
    (hw : 0 ≤ s.maxwidth) (hall : s.maxwidth ≤ s.buf.allwidth) :
    (s.x ≤ s.lastColumn → s.VSIwrapnow = s) ∧ s.VSemP n = s.VSIdelchars n ∧
      (DeletesChars s.VSIwrapnow (s.VSIdelchars n) n ↔ NothingToLose s.VSIwrapnow n) := by
  refine ⟨VSIwrapnow_of_le, by rw [VSscrn.VSemP, lineCount, if_neg (by omega)], ?_⟩
  obtain ⟨hx0, hxw⟩ := VSIwrapnow_x hx hw
  have hmax : s.VSIwrapnow.maxwidth = s.maxwidth := VSIwrapnow_maxwidth
  have hcell := VSIdelchars_cell (s := s) (by omega : 0 ≤ n) hw hall
  have hlim : limited s n = if n > s.maxwidth then s.maxwidth else n := rfl
  generalize limited s n = d at hcell hlim
  generalize s.VSIwrapnow = w at *
  constructor
  · intro hdel
    constructor
    · -- a cell left of the cursor is where the blanks begin too early
      intro j hj hpos hjx
      have hnew := hcell j (by omega)
      rw [if_pos (by split_ifs at hlim <;> omega)] at hnew
      rw [← hnew, hdel j (by omega) (by omega), if_pos hjx]
    · -- the first cell gets the last one instead of a blank
      intro hzero hwide
      have hnew := hcell 0 (by omega)
      rw [if_pos (by omega)] at hlim
      rw [if_neg (by omega), if_pos (by omega), hlim, Int.add_zero,
        hdel 0 le_rfl (by omega), if_neg (by omega), if_neg (by omega)] at hnew
      rw [hmax]
      exact hnew.symm
  · intro hlose j hj hjw
    rw [hcell j (by omega), hmax]
    by_cases hleft : j < w.x
    · rw [if_pos hleft]
      by_cases hblank : s.maxwidth-d < j
      · rw [if_pos hblank]
        have hpos : 0 < j := by split_ifs at hlim <;> omega
        have hfar : s.maxwidth-n < j := by split_ifs at hlim <;> omega
        exact (hlose.left j (by omega) hpos hleft).symm
      · rw [if_neg hblank, if_neg (by omega)]
    · rw [if_neg hleft]
      by_cases hwide : n > s.maxwidth
      · rw [if_pos hwide] at hlim
        rw [if_neg (show ¬j+n ≤ s.maxwidth by omega)]
        by_cases hzero : j = 0
        · rw [if_neg (by omega), if_pos (by omega), hlim, hzero, Int.add_zero]
          exact hmax ▸ hlose.last (by omega) (hmax ▸ hwide)
        · rw [if_pos (by omega)]
      · rw [if_neg hwide] at hlim
        subst hlim
        by_cases hend : j+d ≤ s.maxwidth
        · rw [if_neg (by omega), if_pos (by omega), if_pos hend, Int.add_comm]
        · rw [if_pos (by omega), if_neg hend]

end Deletion

/-- Three rows full of the letter A, with the cursor in column `x` of the first one. -/
def letteredScreen (x : Int) : VSscrn :=
  { threeRowsFull x with buf.mem.text := fun _ _ => 65 }

theorem delete_one_char :
    DeletesChars (letteredScreen 4).VSIwrapnow ((letteredScreen 4).VSIdelchars 1) 1 := by
  apply (delete_chars_iff (letteredScreen 4) 1 (by decide) (by decide) (by decide)
    (by decide)).2.2.mpr
  constructor
  · intro j hfar _ hleft
    have hx : (letteredScreen 4).VSIwrapnow.x = 4 := by decide
    have hw : (letteredScreen 4).VSIwrapnow.maxwidth = 79 := by decide
    omega
  · intro hx
    exact absurd hx (by decide)

/-- A count of 79 at column 4 of a line of 80 characters blanks three of the four
characters left of the cursor. -/
theorem delete_chars_left_of_cursor :
    ¬DeletesChars (letteredScreen 4) ((letteredScreen 4).VSIdelchars 79) 79 := by
  intro hdel
  have hnew := VSIdelchars_cell (s := letteredScreen 4) (n := 79) (by decide) (by decide)
    (by decide) 1 (by decide)
  rw [if_pos (by decide), hdel 1 (by decide) (by decide), if_pos (by decide)] at hnew
  exact absurd hnew (by decide)

end VS
