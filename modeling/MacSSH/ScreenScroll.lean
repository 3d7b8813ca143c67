import MacSSH.ScreenLines

/-! Scrolling, line insertion and line deletion on a virtual screen, with the
linked scrollback and with the old one that keeps attributes apart. -/
namespace VS

open Linked

/-- The row that a line operation starts at: a negative one means the cursor's. -/
def startRow (r : VSregion) (s : Int) : Int := if s < 0 then r.y else s

/-- The number of lines an operation at row `s` works on: no more than the
scrolling region holds. -/
def clipCount (r : VSregion) (n s : Int) : Int :=
  if s+n-1 > r.bottom then short (r.bottom-s+1) else n

/-- Move lines unless they are already where they are to go. -/
def moveUnlessAdjacent (b : VSbuf) (TD BD TI BI : Ptr) : VSbuf :=
  if TD ≠ BI ∧ TI ≠ BD then VSIlistmove b TD BD TI BI else b

/-- Keep the visible region on the rows it showed. -/
def syncVisible (b : VSbuf) : VSbuf :=
  if b.Rtop ≥ 0 then { b with vistop := b.row b.Rtop } else b

/-- Delete `n` lines at row `s`, with the attributes in lines of their own. -/
def VSOdellines (r : VSregion) (b : VSbuf) (n s : Int) : VSbuf :=
  let s := startRow r s
  let n := clipCount r n s
  let wipe := s = 0 ∧ n ≤ r.bottom
  let ts := if wipe then b.row n else b.row 0
  let as := if wipe then b.attrRow n else b.attrRow 0
  let TD := b.row s
  let BD := b.row (s+n-1)
  let TI := b.row r.bottom
  let aTD := b.attrRow s
  let aBD := b.attrRow (s+n-1)
  let aTI := b.attrRow r.bottom
  let b := moveUnlessAdjacent b TD BD TI (b.next TI)
  let b := moveUnlessAdjacent b aTD aBD aTI (b.next aTI)
  let b := { b with mem := blankLinePairs b.allwidth r.blankAttrib n.toNat TD aTD b.mem }
  syncVisible (VSOlistndx { b with scrntop := ts } ts as)

/-- Delete `n` lines at row `s`: the lines below in the scrolling region move up
and the deleted lines come back, blank, at its bottom. -/
def VSIdellines (r : VSregion) (b : VSbuf) (n s : Int) : VSbuf :=
  if b.oldScrollback then VSOdellines r b n s
  else
    let s := startRow r s
    let n := clipCount r n s
    let ts := if s = 0 ∧ n ≤ r.bottom then b.row n else b.row 0
    let TD := b.row s
    let BD := b.row (s+n-1)
    let TI := b.row r.bottom
    let b := moveUnlessAdjacent b TD BD TI (b.next TI)
    let b := { b with mem := blankLines b.allwidth r.blankAttrib true n.toNat TD b.mem }
    syncVisible (VSIlistndx { b with scrntop := ts } ts)

/-- Insert `n` lines at row `s`, with the attributes in lines of their own. -/
def VSOinslines (r : VSregion) (b : VSbuf) (n s : Int) : VSbuf :=
  let s := startRow r s
  let n := clipCount r n s
  let wipe := s = 0 ∧ n ≤ b.lines
  let ts := if wipe then b.row (r.bottom-n+1) else b.row 0
  let as := if wipe then b.attrRow (r.bottom-n+1) else b.attrRow 0
  let BI := b.row s
  let TD := b.row (r.bottom-n+1)
  let BD := b.row r.bottom
  let aBI := b.attrRow s
  let aTD := b.attrRow (r.bottom-n+1)
  let aBD := b.attrRow r.bottom
  let b := moveUnlessAdjacent b TD BD (b.prev BI) BI
  let b := moveUnlessAdjacent b aTD aBD (b.prev aBI) aBI
  let b := { b with mem := blankLinePairs b.allwidth r.blankAttrib n.toNat TD aTD b.mem }
  syncVisible (VSOlistndx { b with scrntop := ts } ts as)

/-- Insert `n` lines at row `s`: the last lines of the scrolling region are taken
out and come back, blank, before row `s`. -/
def VSIinslines (r : VSregion) (b : VSbuf) (n s : Int) : VSbuf :=
  if b.oldScrollback then VSOinslines r b n s
  else
    let s := startRow r s
    let n := clipCount r n s
    let ts := if s = 0 ∧ n ≤ b.lines then b.row (r.bottom-n+1) else b.row 0
    let BI := b.row s
    let TD := b.row (r.bottom-n+1)
    let BD := b.row r.bottom
    let b := moveUnlessAdjacent b TD BD (b.prev BI) BI
    let b := { b with mem := blankLines b.allwidth r.blankAttrib false n.toNat TD b.mem }
    syncVisible (VSIlistndx { b with scrntop := ts } ts)

/-- Link the list that starts with `p` behind the line `last`. -/
def linkBehind (b : VSbuf) (last p : Ptr) : VSbuf := (b.setNext last p).setPrev p last

/-- Close the list into a ring: the oldest line follows `last`. -/
def makeCircular (b : VSbuf) (last : Ptr) : VSbuf :=
  (b.setNext last b.buftop).setPrev b.buftop last

/-- Reuse the oldest line of the scrollback. -/
def reuseOldest (b : VSbuf) : VSbuf := { b with buftop := b.next b.buftop }

/-- Count one more line in the scrollback. -/
def countLine (b : VSbuf) : VSbuf := { b with numlines := short (b.numlines+1) }

/-- Allocate lines for the linked or for the old scrollback. -/
def newlines (b : VSbuf) (n : Int) : Ptr × VSbuf :=
  let (p, m) := if b.oldScrollback then VSOnewlines b.mem n else VSInewlines b.mem n
  (p, { b with mem := m })

/-- The number of lines to allocate at once when `i` more may be allocated. -/
def atOnce (i : Int) : Int := if i > ScrollbackQuantum then ScrollbackQuantum else i

/-- Make sure a line follows the last row, and account for it: it is new, still
unused, or the oldest one of the scrollback. -/
def advanceBuffer (b : VSbuf) : VSbuf :=
  let last := b.lastRow
  let i := atOnce (short (b.maxlines-b.numlines))
  if b.next last = NULL then
    if i > 0 then
      let new := newlines b i
      if new.1 ≠ NULL then countLine (linkBehind new.2 last new.1)
      else reuseOldest (makeCircular new.2 last)
    else reuseOldest (makeCircular b last)
  else if b.next last = b.buftop then reuseOldest b
  else countLine b

/-- Let the visible region follow a scroll by one line. -/
def scrollVisible (r : VSregion) (b : VSbuf) : VSbuf :=
  if VSIcdellines b r.maxwidth b.Rtop r.bottom then
    if b.Rtop > -b.numlines then
      { b with Rtop := short (b.Rtop-1), Rbottom := short (b.Rbottom-1) }
    else { b with vistop := b.next b.vistop }
  else { b with vistop := b.next b.vistop }

/-- Take the last row out of the list and link it again before the row
`bottom`. -/
def rotateBelow (b : VSbuf) (bottom : Int) : VSbuf :=
  let tmp := b.next b.lastRow
  let tmp2 := b.lastRow
  let tmp3 := b.row bottom
  let tmp4 := b.prev b.lastRow
  let b := b.setNext (b.prev tmp3) tmp2
  let b := b.setPrev tmp2 (b.prev tmp3)
  let b := b.setNext tmp2 tmp3
  let b := b.setPrev tmp3 tmp2
  let b := b.setNext tmp4 tmp
  let b := if b.next tmp4 ≠ NULL then b.setPrev (b.next tmp4) tmp4 else b
  if b.scrntop = tmp3 then { b with scrntop := tmp2 } else b

/-- Move the last attribute line to before the one of the row `bottom`. -/
def rotateAttrs (b : VSbuf) (bottom : Int) : VSbuf :=
  let last := b.attrRow b.lines
  let at_bottom := b.attrRow bottom
  let b := b.setPrev (b.next last) (b.prev last)
  let b := b.setNext (b.prev last) (b.next last)
  let b := b.setNext (b.prev at_bottom) last
  let b := b.setPrev last (b.prev at_bottom)
  let b := b.setNext last at_bottom
  b.setPrev at_bottom last

/-- Scroll the scrolling region up one line, with the old scrollback. -/
def VSOscroll (r : VSregion) (b : VSbuf) : VSbuf :=
  if r.y > b.lines then b
  else if b.savelines = false ∨ r.top ≠ 0 then VSOdellines r b 1 r.top
  else
    let b := advanceBuffer b
    let b := { b with scrntop := b.next b.scrntop }
    let b := VSOlistndx b b.scrntop (b.attrRow 1)
    let b := scrollVisible r b
    let b := { b with
      mem := (b.mem.setLattr b.lastRow 0).blank b.allwidth b.lastRow (b.attrRow b.lines) 0 }
    if r.bottom ≠ b.lines then
      let b := rotateAttrs (rotateBelow b r.bottom) r.bottom
      VSOlistndx b b.scrntop (b.attrRow 0)
    else b

/-- Scroll the scrolling region up one line. A line that leaves the top row of
the screen goes to the scrollback. -/
def VSIscroll (r : VSregion) (b : VSbuf) : VSbuf :=
  if r.y > b.lines then b
  else if b.oldScrollback then VSOscroll r b
  else if b.savelines = false ∨ r.top ≠ 0 then VSIdellines r b 1 r.top
  else
    let b := advanceBuffer b
    let b := { b with scrntop := b.next b.scrntop }
    let b := VSIlistndx b b.scrntop
    let b := scrollVisible r b
    let b := { b with
      mem := (b.mem.setLattr b.lastRow 0).blank b.allwidth b.lastRow b.lastRow 0 }
    if r.bottom ≠ b.lines then
      let b := rotateBelow b r.bottom
      VSIlistndx b b.scrntop
    else b

/-- Count the lines below the screen from `tmp` on; where the list ends before a
screenful, extend it or close it into a ring. `i` lines have been counted and at
most `fuel` more are. -/
def reserveScreen (b : VSbuf) : ℕ → ℕ → Ptr → VSbuf
  | 0, _, _ => b
  | fuel+1, i, tmp =>
    if b.next tmp = NULL then
      let j := atOnce (short (b.maxlines-b.numlines-i))
      if j ≤ 0 then makeCircular b tmp
      else
        let new := newlines b (if j < b.lines-i+1 then short (b.lines-i+1) else j)
        if new.1 ≠ NULL then linkBehind new.2 tmp new.1 else makeCircular new.2 tmp
    else reserveScreen b fuel (i+1) (b.next tmp)

/-- Push one row of the screen into the scrollback. -/
def pushRow (b : VSbuf) : VSbuf :=
  let b := if b.next b.lastRow = b.buftop then reuseOldest b else countLine b
  let b := { b with scrntop := b.next b.scrntop }
  if b.oldScrollback then VSOlistndx b b.scrntop (b.attrRow 1) else VSIlistndx b b.scrntop

/-- Save the screen in the scrollback, when lines are saved and the scrolling
region is the whole screen. The old scrollback differs only in what `newlines`
allocates and `pushRow` indexes. -/
def VSIscroff (r : VSregion) (b : VSbuf) : VSbuf :=
  if b.savelines = false ∨ r.top ≠ 0 ∨ r.bottom ≠ b.lines then b
  else
    let rows := (b.lines+1).toNat
    let b := reserveScreen b rows 0 b.lastRow
    let b := pushRow^[rows] b
    { b with vistop := b.scrntop, Rbottom := short (b.Rbottom-b.Rtop), Rtop := 0 }

end VS
