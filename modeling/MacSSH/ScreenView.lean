import MacSSH.ScrollbackBound

/-! The view of a screen: the line it starts with, kept as a line and as a row
number, and what moves the two. -/
namespace VS

open Linked

/-- The line in row `k` of the screen, or `-k` lines above it. -/
def VSbuf.viewLine (b : VSbuf) (k : Int) : Ptr :=
  if k < 0 then b.prev^[(-k).toNat] b.scrntop else b.next^[k.toNat] b.scrntop

/-- `if (ptr->next) ptr = ptr->next;` -/
def LineMem.advance (m : LineMem) (p : Ptr) : Ptr :=
  if m.links.next p ≠ NULL then m.links.next p else p

/-- `if (ptr->prev) ptr = ptr->prev;` -/
def LineMem.retreat (m : LineMem) (p : Ptr) : Ptr :=
  if m.links.prev p ≠ NULL then m.links.prev p else p

/-- The line of row `y1`; a negative row is in the scrollback, which is counted from the line
that the view starts with. -/
def VSIGetLineStart (b : VSbuf) (y1 : Int) : Ptr :=
  if y1 ≥ 0 then b.row y1
  else
    let n := short (y1-b.Rtop)
    if n > 0 then b.mem.advance^[n.toNat] b.vistop else b.mem.retreat^[(-n).toNat] b.vistop

/-- `vistop` is the line that `Rtop` gives, and `Rtop` is within the saved lines
and the rows. -/
structure InView (b : VSbuf) : Prop where
  vistop : b.vistop = b.viewLine b.Rtop
  above : -b.numlines ≤ b.Rtop
  below : b.Rtop ≤ b.lines

/-- Erase row `s` of the screen; a negative one means the cursor's. -/
def VSIelo (r : VSregion) (b : VSbuf) (s : Int) : VSbuf :=
  let s := startRow r s
  let pa := if b.oldScrollback then b.attrRow s else b.row s
  { b with mem := (b.mem.setLattr (b.row s) 0).blank b.allwidth (b.row s) pa r.blankAttrib }

/-- Erase the screen, and save it before when `ESscroll` says so. The view goes
back to the screen. -/
def VSIes (r : VSregion) (ESscroll : Bool) (b : VSbuf) : VSbuf :=
  let b := if ESscroll then VSIscroff r b else b
  let b := (List.range (b.lines+1).toNat).foldl (fun b (i : ℕ) => VSIelo r b i) b
  { b with vistop := b.scrntop, Rtop := 0, Rbottom := b.lines }

/-- What changes the lines of a screen or moves its view. -/
inductive ViewOp where
  | line (op : LineOp)
  | es (r : VSregion) (ESscroll : Bool)
  | scrolback (n : Int)
  | scrolforward (n : Int)
  | setrgn (maxwidth x1 y1 x2 y2 : Int)
  | curson (maxwidth x y : Int)

/-- The screen after an operation. -/
def ViewOp.apply : ViewOp → VSbuf → VSbuf
  | line op, b => op.apply b
  | es r ESscroll, b => VSIes r ESscroll b
  | scrolback n, b => VSscrolback b n
  | scrolforward n, b => VSscrolforward b n
  | setrgn maxwidth x1 y1 x2 y2, b => VSsetrgn b maxwidth x1 y1 x2 y2
  | curson maxwidth x y, b => VSIcursonMoving b maxwidth x y

/-- The operations a screen can be given: those on its lines as before, except that
a resize may fail. -/
def ViewOp.Allowed : ViewOp → VSbuf → Prop
  | line (.setlines _ _ nlines), _ => 1 ≤ nlines ∧ nlines ≤ 32767
  | line op, b => op.Allowed b
  | _, _ => True

/-- Only texts, attributes and the columns of the view may differ, and what later
allocations will do. -/
structure SameView (b b' : VSbuf) : Prop extends SameLines b b' where
  vistop : b'.vistop = b.vistop
  Rtop : b'.Rtop = b.Rtop
  Rbottom : b'.Rbottom = b.Rbottom

/-- The states of a screen with the linked scrollback, saving its lines or not,
when every operation meets `P`. A screen that a resize has left without rows gets
no further operation: its caller gives it up. -/
inductive ViewRun (P : ViewOp → VSbuf → Prop) : VSbuf → Prop
  | new {m : LineMem} {maxlines numLines maxwid : Int} {screensave : Bool} {b : VSbuf}
      (hm : 0 < m.brk) (h1 : 1 ≤ numLines) (h2 : numLines+VSDEFLINES ≤ 32767)
      (hb : VSnewscreen m maxlines screensave numLines maxwid = some b) : ViewRun P b
  | op {b : VSbuf} (op : ViewOp) (h : ViewRun P b) (hrows : b.row 0 ≠ NULL) (hop : op.Allowed b)
      (hP : P op b) : ViewRun P (op.apply b)
  | other {b b' : VSbuf} (h : ViewRun P b) (hb : SameView b b') : ViewRun P b'

/-- Whether a scroll saves the top row. -/
def Saves (r : VSregion) (b : VSbuf) : Prop :=
  r.y ≤ b.lines ∧ b.savelines = true ∧ r.top = 0

/-- When a saving scroll keeps the view: the count of the scrollback has room, the
scrollback starts its list if the list is now closed, and the rows that turn
below the region are not those the view starts with. -/
def ScrollInStep (r : VSregion) (b : VSbuf) : Prop :=
  b.numlines < 32767 ∧ (ClosesBehind b → b.prev b.buftop = NULL) ∧
    (r.bottom = b.lines ∨ b.Rtop < r.bottom ∨
      (b.Rtop = r.bottom ∧ VSIcdellines b r.maxwidth b.Rtop r.bottom = true))

/-- When saving the screen keeps the view: the count has room for the rows, and the
scrollback starts its list if the list is now closed. -/
def ScroffInStep (r : VSregion) (b : VSbuf) : Prop :=
  b.savelines = true → r.top = 0 → r.bottom = b.lines → b.numlines+b.lines+1 ≤ 32767 ∧
    (ClosesBelow b (b.lines+1).toNat 0 b.lastRow → b.prev b.buftop = NULL)

/-- When an insertion or deletion keeps the view: in a closed list of a screen that
saves its lines it leaves the first line where it is. -/
def EditInStep (r : VSregion) (b : VSbuf) (n s : Int) : Prop :=
  b.savelines = true → (∀ k, b.next^[k] b.scrntop ≠ NULL) → KeepsFirst r b n s

/-- There is memory for a resize: for the array of rows, and for the new rows, be it
after the old ones are given up, or for as many as before. -/
def GetsRows (m : LineMem) : Prop :=
  m.grants.getD 0 false = true ∧
    (m.grants.getD 1 false = true ∨ m.grants.getD 2 false = true ∨ m.grants.getD 3 false = true)

/-- The row the view starts with once the cursor has been brought home. -/
def homeTop (b : VSbuf) (cursor : Bool) (maxwidth : Int) : Int :=
  if cursor then (VSIcursonMoving b maxwidth 0 0).Rtop else b.Rtop

/-- When an operation keeps the view in step. A resize that fails for want of memory
must find the view at the top of the screen, and a region must not be empty. -/
def ViewOp.InStep : ViewOp → VSbuf → Prop
  | line (.scroll r), b => Saves r b → ScrollInStep r b
  | line (.scroff r), b => ScroffInStep r b
  | line (.insert r n s), b | line (.delete r n s), b => EditInStep r b n s
  | line (.setlines cursor maxwidth nlines), b =>
    nlines-1 = b.lines ∨
      (b.numlines+b.lines ≤ 32767 ∧ (GetsRows b.mem ∨ homeTop b cursor maxwidth = 0))
  | es r ESscroll, b => ESscroll = true → ScroffInStep r b
  | setrgn _ _ y1 _ y2, b => 0 ≤ y2-y1 ∧ y2-y1 ≤ 32767 ∧ b.Rtop+(y2-y1) ≤ 32767
  | _, _ => True

section Position
variable {b : VSbuf} {e : Option Ptr} {pre post : List Ptr}

/-- The line `k` below the first of `rows`, or `-k` above it, where `pre` are the
lines above the rows. -/
def lineAt (pre rows : List Ptr) (k : Int) : Ptr := (pre ++ rows).getD (pre.length+k).toNat NULL

theorem lineAt_row {k : Int} (hk : 0 ≤ k) : lineAt pre b.linest k = b.row k := by
  have hi : (pre.length+k).toNat = pre.length+k.toNat := by omega
  rw [lineAt, hi, List.getD_append_right _ _ _ _ (Nat.le_add_right _ _), Nat.add_sub_cancel_left,
    VSbuf.row]

theorem lineAt_above {rows rows' : List Ptr} {k : Int} (hk : k < 0)
    (hpre : -(pre.length : Int) ≤ k) :
    lineAt pre rows' k = lineAt pre rows k := by
  have hi : (pre.length+k).toNat < pre.length := by omega
  rw [lineAt, lineAt, List.getD_append _ _ _ _ hi, List.getD_append _ _ _ _ hi]

theorem Threaded.lineAt_next (h : Threaded b e pre post) {k : Int} {n : ℕ}
    (hk : -(pre.length : Int) ≤ k) (hn : k+n ≤ b.lines) :
    b.next^[n] (lineAt pre b.linest k) = lineAt pre b.linest (k+n) := by
  have hlen := h.length
  have hi : (pre.length+(k+n)).toNat = (pre.length+k).toNat+n := by omega
  have hseg := ((seg_append _ _ _ (pre ++ b.linest) post).mp h.strand.seg).1
  rw [lineAt, lineAt, hi]
  apply seg_next_iterate hseg
  rw [List.length_append]
  omega

theorem Threaded.lineAt_prev (h : Threaded b e pre post) {k : Int} {n : ℕ}
    (hk : -(pre.length : Int) ≤ k-n) (hn : k ≤ b.lines) :
    b.prev^[n] (lineAt pre b.linest k) = lineAt pre b.linest (k-n) := by
  have hlen := h.length
  have hi : (pre.length+k).toNat = (pre.length+(k-n)).toNat+n := by omega
  have hseg := ((seg_append _ _ _ (pre ++ b.linest) post).mp h.strand.seg).1
  rw [lineAt, lineAt, hi]
  apply seg_prev_iterate hseg
  rw [List.length_append]
  omega

theorem Threaded.lineAt_zero (h : Threaded b e pre post) : lineAt pre b.linest 0 = b.scrntop := by
  rw [lineAt_row le_rfl, row_zero, h.top]

/-- Walking from the top of the screen finds the lines of the list. -/
theorem Threaded.viewLine (h : Threaded b e pre post) {k : Int} (hk : -(pre.length : Int) ≤ k)
    (hk' : k ≤ b.lines) : b.viewLine k = lineAt pre b.linest k := by
  have h0 := h.lines_nonneg
  rw [VSbuf.viewLine, ← h.lineAt_zero]
  split_ifs with hneg
  · rw [h.lineAt_prev (by omega) h0]
    congr 1
    omega
  · rw [h.lineAt_next (by omega) (by omega)]
    congr 1
    omega

end Position

end VS
