import MacSSH.LinkedSegments
import MacSSH.Shorts
import Mathlib.Data.List.Iterate

/-! The lines of a virtual screen: the line records and their links, the array of
screen rows, the scrollback before it, and the routines that allocate, index and
blank lines. -/
namespace VS

open Linked

/-- The address of a line record. -/
abbrev Ptr := ℕ

/-- The null pointer. -/
@[simp] abbrev NULL : Ptr := 0

/-- Scrollback lines are allocated at most this many at a time. -/
@[simp] abbrev ScrollbackQuantum : Int := 100

/-- Scrollback lines that a new screen starts with. -/
@[simp] abbrev VSDEFLINES : Int := 48

/-- Character attributes that survive an erase. -/
@[simp] abbrev kVSgrph : BitVec 32 := 0x80
@[simp] abbrev kVSansi2b : BitVec 32 := 0x40000

/-- What the screen emulates. -/
inductive VTEmulation where
  | vt100 | vt220 | ansi | linux
  deriving DecidableEq, Repr

/-- The line records of a screen. The records up to `brk` are in use; `grants`
says which of the coming allocations succeed. An attribute line of the old
scrollback is a record too: its attributes are in `attr`. -/
structure LineMem where
  links : Links Ptr
  text : Ptr → Int → UInt8
  attr : Ptr → Int → BitVec 32
  lattr : Ptr → BitVec 16
  brk : Ptr
  grants : List Bool

/-- The rows of a screen, its scrollback and its visible region. -/
structure VSbuf where
  mem : LineMem
  scrntop : Ptr
  buftop : Ptr
  vistop : Ptr
  linest : List Ptr
  attrst : List Ptr
  lines : Int
  maxlines : Int
  numlines : Int
  allwidth : Int
  savelines : Bool
  oldScrollback : Bool
  Rtop : Int
  Rbottom : Int
  Rleft : Int
  Rright : Int

/-- The part of a screen that the line routines read: the emulation, the cursor
row, the scrolling region, the width and the writing attribute. -/
structure VSregion where
  vtemulation : VTEmulation
  y : Int
  top : Int
  bottom : Int
  maxwidth : Int
  attrib : BitVec 32

/-- The line in row `i` of the screen. -/
def VSbuf.row (b : VSbuf) (i : Int) : Ptr := b.linest.getD i.toNat NULL

/-- The attribute line in row `i` of the screen. -/
def VSbuf.attrRow (b : VSbuf) (i : Int) : Ptr := b.attrst.getD i.toNat NULL

/-- The `next` field of a line. -/
def VSbuf.next (b : VSbuf) (p : Ptr) : Ptr := b.mem.links.next p

/-- The `prev` field of a line. -/
def VSbuf.prev (b : VSbuf) (p : Ptr) : Ptr := b.mem.links.prev p

/-- Write the `next` field of a line. -/
def VSbuf.setNext (b : VSbuf) (p v : Ptr) : VSbuf :=
  { b with mem := { b.mem with links := b.mem.links.setNext p v } }

/-- Write the `prev` field of a line. -/
def VSbuf.setPrev (b : VSbuf) (p v : Ptr) : VSbuf :=
  { b with mem := { b.mem with links := b.mem.links.setPrev p v } }

/-- The last row of the screen. -/
def VSbuf.lastRow (b : VSbuf) : Ptr := b.row b.lines

/-- Take the answer to the next allocation. -/
def LineMem.grant (m : LineMem) : Bool × LineMem :=
  (m.grants.headD false, { m with grants := m.grants.tail })

/-- The links of `n` new records from `base` on: a list that `NULL` ends on
both sides. -/
def chainLinks (links : Links Ptr) (base n : ℕ) : Links Ptr where
  next a := if base ≤ a ∧ a < base+n then (if a+1 < base+n then a+1 else NULL) else links.next a
  prev a := if base ≤ a ∧ a < base+n then (if base < a then a-1 else NULL) else links.prev a

/-- Allocate a list of `nlines` lines and return its head, or `NULL`. -/
def VSInewlines (m : LineMem) (nlines : Int) : Ptr × LineMem :=
  let (ok, m) := m.grant
  let n := nlines.toNat
  if ok then
    (m.brk, { m with
      links := chainLinks m.links m.brk n
      lattr := fun a => if m.brk ≤ a ∧ a < m.brk+n then 0 else m.lattr a
      brk := m.brk+n })
  else (NULL, m)

/-- Allocation of the old scrollback: the contents and the records are two
blocks. The memory comes cleared, so that the first record, which is not given a line
attribute, has none either. -/
def VSOnewlines (m : LineMem) (nlines : Int) : Ptr × LineMem :=
  let (contents, m) := m.grant
  let n := nlines.toNat
  if contents then
    let (records, m) := m.grant
    if records then
      (m.brk, { m with
        links := chainLinks m.links m.brk n
        lattr := fun a => if m.brk ≤ a ∧ a < m.brk+n then 0 else m.lattr a
        brk := m.brk+n })
    else (NULL, m)
  else (NULL, m)

/-- Point the screen rows at the list that starts with `ts`. -/
def VSIlistndx (b : VSbuf) (ts : Ptr) : VSbuf :=
  { b with linest := List.iterate b.mem.links.next ts (b.lines+1).toNat }

/-- Point the screen rows and their attribute lines at the given lists. -/
def VSOlistndx (b : VSbuf) (ts as : Ptr) : VSbuf :=
  { b with
    linest := List.iterate b.mem.links.next ts (b.lines+1).toNat
    attrst := List.iterate b.mem.links.next as (b.lines+1).toNat }

/-- Move the lines from `TD` to `BD` to between `TI` and `BI`. -/
def VSIlistmove (b : VSbuf) (TD BD TI BI : Ptr) : VSbuf :=
  { b with mem := { b.mem with links := moveBlock NULL b.mem.links TD BD TI BI } }

/-- The attribute that erased characters get. -/
def VSregion.blankAttrib (r : VSregion) : BitVec 32 :=
  if r.vtemulation = .linux then r.attrib else r.attrib &&& (kVSansi2b ||| kVSgrph)

/-- Fill the text of a line with one character. -/
def LineMem.fillText (m : LineMem) (width : Int) (p : Ptr) (c : UInt8) : LineMem :=
  { m with
    text := Function.update m.text p fun j => if 0 ≤ j ∧ j ≤ width then c else m.text p j }

/-- Fill the attributes of a line with one attribute. -/
def LineMem.fillAttr (m : LineMem) (width : Int) (p : Ptr) (a : BitVec 32) : LineMem :=
  { m with
    attr := Function.update m.attr p fun j => if 0 ≤ j ∧ j ≤ width then a else m.attr p j }

/-- Write the line attribute of a line. -/
def LineMem.setLattr (m : LineMem) (p : Ptr) (l : BitVec 16) : LineMem :=
  { m with lattr := Function.update m.lattr p l }

/-- Blank the text of the line `p` and set its attributes, kept in the record
`pa`, to `a`. -/
def LineMem.blank (m : LineMem) (width : Int) (p pa : Ptr) (a : BitVec 32) : LineMem :=
  (m.fillText width p 32).fillAttr width pa a

/-- Blank `n` lines from `p` on; `lattr` says whether their line attributes are
cleared too. -/
def blankLines (width : Int) (a : BitVec 32) (lattr : Bool) : ℕ → Ptr → LineMem → LineMem
  | 0, _, m => m
  | n+1, p, m =>
    let m := if lattr then m.setLattr p 0 else m
    let m := m.blank width p p a
    blankLines width a lattr n (m.links.next p) m

/-- Blank `n` lines from `p` on whose attributes are in the lines from `pa` on. -/
def blankLinePairs (width : Int) (a : BitVec 32) : ℕ → Ptr → Ptr → LineMem → LineMem
  | 0, _, _, m => m
  | n+1, p, pa, m =>
    let m := (m.setLattr p 0).blank width p pa a
    blankLinePairs width a n (m.links.next p) (m.links.next pa) m

/-- What is left of a rectangle or a string inside the visible region, relative
to its corner. -/
structure Clipped where
  x1 : Int
  y1 : Int
  x2 : Int
  y2 : Int
  n : Int
  offset : Int
  deriving DecidableEq, Repr

/-- Clip a string (`n ≥ 0`) or a rectangle (`n < 0`) to the visible region;
`none` when nothing of it is visible. -/
def VSIclip (b : VSbuf) (x1 y1 x2 y2 n : Int) : Option Clipped :=
  let x2 := if n ≥ 0 then short (x1+n-1) else x2
  let y2 := if n ≥ 0 then y1 else y2
  if x1 > b.Rright ∨ y2 < b.Rtop then none
  else
    let x2 := if x2 > b.Rright then b.Rright else x2
    let y2 := if y2 > b.Rbottom then b.Rbottom else y2
    let x1 := short (x1-b.Rleft)
    let x2 := short (x2-b.Rleft)
    let y1 := short (y1-b.Rtop)
    let y2 := short (y2-b.Rtop)
    let offset := short (-x1)
    let offset := if offset < 0 then 0 else offset
    let x1 := if x1 < 0 then 0 else x1
    let y1 := if y1 < 0 then 0 else y1
    let n := short (x2-x1+1)
    if n ≤ 0 ∨ y2-y1 < 0 then none else some ⟨x1, y1, x2, y2, n, offset⟩

/-- Whether scrolling the rows from `top` to `bottom` changes nothing visible. -/
def VSIcdellines (b : VSbuf) (maxwidth top bottom : Int) : Bool :=
  (VSIclip b 0 top maxwidth bottom (-1)).isNone

end VS
