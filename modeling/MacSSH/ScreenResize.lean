import MacSSH.ScreenScroll

/-! Creating a virtual screen, changing its number of rows, and moving the view
of it. -/
namespace VS

open Linked

/-- Move the view `n` lines up, no further than the scrollback goes. -/
def VSscrolback (b : VSbuf) (n : Int) : VSbuf :=
  let n := if b.numlines < n-b.Rtop then short (b.Rtop+b.numlines) else n
  if n ≤ 0 then b
  else { b with
    Rtop := short (b.Rtop-n)
    Rbottom := short (b.Rbottom-n)
    vistop := b.prev^[n.toNat] b.vistop }

/-- Move the view `n` lines down, no further than the screen goes. -/
def VSscrolforward (b : VSbuf) (n : Int) : VSbuf :=
  let n := if n > b.lines-b.Rbottom then short (b.lines-b.Rbottom) else n
  if n ≤ 0 then b
  else { b with
    Rtop := short (n+b.Rtop)
    Rbottom := short (n+b.Rbottom)
    vistop := b.next^[n.toNat] b.vistop }

/-- How far the columns of a region are shifted left to avoid showing columns
beyond the width of the screen. -/
def columnShift (maxwidth x1 x2 : Int) : Int :=
  if x2 > maxwidth then
    let n := short (x2-maxwidth)
    if n > x1 then x1 else n
  else 0

/-- Set the visible region. -/
def VSsetrgn (b : VSbuf) (maxwidth x1 y1 x2 y2 : Int) : VSbuf :=
  let n := columnShift maxwidth x1 x2
  let b := { b with
    Rbottom := short (b.Rtop+(y2-y1))
    Rleft := short (x1-n)
    Rright := short (x2-n) }
  let n := if b.Rbottom > b.lines then short (b.Rbottom-b.lines) else short (b.Rtop-y1)
  if n > 0 then VSscrolback b n
  else if n < 0 then VSscrolforward b (short (-n))
  else b

/-- The row of a position after it has been clipped to the visible region. A
position beyond the right edge or above the region is left as it is. -/
def clippedRow (b : VSbuf) (x y : Int) : Int :=
  if x > b.Rright ∨ y < b.Rtop then y
  else
    let y := short (y-b.Rtop)
    if y < 0 then 0 else y

/-- Show the cursor at a position; when it is not visible there, move the view
to it. -/
def VSIcursonMoving (b : VSbuf) (maxwidth x y : Int) : VSbuf :=
  if (VSIclip b x y 0 0 1).isSome then b
  else
    let x2 := short (b.Rbottom-b.Rtop)
    if x2 ≥ b.lines then VSsetrgn b maxwidth b.Rleft (b.lines-x2) b.Rright b.lines
    else
      let y := clippedRow b x y
      if y > 0 then VSscrolforward b y else VSscrolback b (-y)

/-- Blank all rows of the screen, with no attributes; `lattr` says whether the
line attributes are cleared too. -/
def blankRows (b : VSbuf) (lattr : Bool) : VSbuf :=
  let blankRow (m : LineMem) (i : ℕ) : LineMem :=
    let p := b.linest.getD i NULL
    let pa := if b.oldScrollback then b.attrst.getD i NULL else p
    let m := if lattr then m.setLattr p 0 else m
    m.blank b.allwidth p pa 0
  { b with mem := (List.range (b.lines+1).toNat).foldl blankRow b.mem }

/-- The answers to `n` allocations that are not of lines: whether all of them
succeeded. -/
def LineMem.grantAll (m : LineMem) : ℕ → Bool × LineMem
  | 0 => (true, m)
  | n+1 =>
    let (ok, m) := m.grant
    if ok then m.grantAll n else (false, m)

/-- The lines of a new screen with the linked scrollback, or `none` when memory
is short. The record, the array of rows and the tabs are allocated first. -/
def VSnewscreen (m : LineMem) (maxlines : Int) (screensave : Bool) (numLines maxwid : Int) :
    Option VSbuf :=
  let maxlines := if maxlines < VSDEFLINES then VSDEFLINES else maxlines
  let lines := short (numLines-1)
  let (ok, m) := m.grantAll 3
  if ok then
    let (buftop, m) :=
      VSInewlines m (if screensave then short (lines+1+VSDEFLINES) else short (lines+1))
    if buftop = NULL then none
    else
      let b : VSbuf :=
        { mem := m, scrntop := buftop, buftop := buftop, vistop := buftop, linest := [buftop],
          attrst := [], lines := lines, maxlines := maxlines, numlines := 0, allwidth := 255,
          savelines := screensave, oldScrollback := false,
          Rtop := 0, Rbottom := lines, Rleft := 0, Rright := short (maxwid-1) }
      let b := VSIlistndx b b.scrntop
      let b := if screensave then b
        else (b.setPrev (b.row 0) b.lastRow).setNext b.lastRow (b.row 0)
      some (blankRows b true)
  else none

/-- Make the new rows, which start at `new`, the screen, and the old ones, which
end at `old`, the latest part of the scrollback. -/
def pushScreen (b : VSbuf) (old : Ptr) (oldlines : Int) (new : Ptr) : VSbuf :=
  let line := b.next old
  let b := b.setNext old new
  let b := b.setNext b.lastRow line
  let b := b.setPrev new old
  let b := if line ≠ NULL then b.setPrev line b.lastRow else b
  { b with numlines := short (b.numlines+oldlines) }

/-- The end of a successful resize: the new rows are shown from the top, blank. -/
def showScreen (b : VSbuf) (new : Ptr) : VSbuf :=
  let b := VSIlistndx { b with scrntop := new, vistop := new } new
  let b := if b.savelines then b
    else (b.setNext b.lastRow (b.row 0)).setPrev (b.row 0) b.lastRow
  let b := blankRows b false
  { b with Rtop := 0, Rbottom := b.lines }

/-- Memory is short: the scrollback and the old rows are given up for the new
rows, or for as many rows as before. -/
def emergencyScreen (b : VSbuf) (lines oldlines : Int) : Int × VSbuf :=
  let (new, m) := VSInewlines b.mem (lines+1)
  let b := { b with mem := m }
  if new ≠ NULL then
    let b := { b with lines := lines, buftop := new, numlines := 0 }
    (lines, showScreen b new)
  else
    let (new, m) := VSInewlines b.mem (oldlines+1)
    let b := { b with mem := m }
    if new ≠ NULL then
      let b := { b with lines := oldlines, buftop := new, numlines := 0 }
      (oldlines, showScreen b new)
    else (-4000, { b with lines := lines, linest := [NULL] })

/-- The view before a resize: the cursor is home and visible, and the view starts
with the screen. `cursor` says whether the cursor is shown. -/
def homeView (b : VSbuf) (cursor : Bool) (maxwidth : Int) : VSbuf :=
  let b := if cursor then VSIcursonMoving b maxwidth 0 0 else b
  { b with vistop := b.scrntop }

/-- Give the screen new rows, the last of which has index `lines`. -/
def resizeRows (b : VSbuf) (lines : Int) : Int × VSbuf :=
  let old := b.lastRow
  let oldlines := b.lines
  let new := VSInewlines b.mem (short (lines+1))
  let b := { b with mem := new.2 }
  if new.1 ≠ NULL then
    let b := VSIlistndx { b with lines := lines } new.1
    let b := if b.savelines then pushScreen b old oldlines new.1 else b
    (lines, showScreen b new.1)
  else emergencyScreen b lines oldlines

/-- Allocate an array of pointers to lines. Only its success matters, and no array
has a negative size. -/
def VSInewlinearray (m : LineMem) (nrlines : Int) : Bool × LineMem :=
  if nrlines < 0 then (false, m) else m.grant

/-- Change the number of rows of a screen with the linked scrollback. Returns an
error or the index of the last row, or 0 when nothing changes. -/
def VSsetlines (b : VSbuf) (cursor : Bool) (maxwidth nlines : Int) : Int × VSbuf :=
  let lines := short (nlines-1)
  if lines = b.lines then (0, b)
  else
    let b := homeView b cursor maxwidth
    let array := VSInewlinearray b.mem (short (lines+1))
    if array.1 then resizeRows { b with mem := array.2 } lines
    else (-2000, { b with mem := array.2 })

theorem VSInewlinearray_of_nonneg (m : LineMem) {n : Int} (h : 0 ≤ n) :
    VSInewlinearray m n = m.grant :=
  if_neg (not_lt.mpr h)

end VS
