import MacSSH.SelectionAttributes

/-! The redraw of a part of the view: which line each row is drawn from, and how a row is split
into runs of one attribute. -/
namespace VS

open Linked

/-- What `RSdraw` is told: where a run of characters goes, its length, the attributes of its line
and of its characters, and the cell that it starts with. -/
structure Draw where
  x : Int
  y : Int
  n : Int
  lattr : BitVec 16
  attr : BitVec 32
  start : Cell
  deriving DecidableEq, Repr

namespace VSscrn

/-- The run of row `y` from column `lastx` up to `x`, with `ypt` as its line. -/
def runOf (s : VSscrn) (ypt : Ptr) (y lastx x : Int) (lasta : BitVec 32) : Draw :=
  ⟨lastx, y, x-lastx, s.buf.mem.lattr ypt, lasta, ⟨ypt, s.buf.Rleft+lastx⟩⟩

/-- The attribute in column `x` of the view, without the multi-byte tag. -/
def viewAttr (s : VSscrn) (ypt : Ptr) (x : Int) : BitVec 32 :=
  s.buf.mem.attr ypt (s.buf.Rleft+x) &&& ~~~kVSansi2b

/-- Whether the cell in column `x` of the view is the first of a multi-byte character. -/
def isansi2b (s : VSscrn) (ypt : Ptr) (x : Int) : Bool :=
  s.buf.mem.attr ypt (s.buf.Rleft+x) &&& kVSansi2b != 0

/-- The loop over the columns up to `tx2`: a run ends where the attribute changes. -/
def redrawRuns (s : VSscrn) (ypt : Ptr) (y tx2 : Int) : List Int → Int → BitVec 32 → List Draw
  | [], lastx, lasta => if lastx ≤ tx2 then [s.runOf ypt y lastx (tx2+1) lasta] else []
  | x :: xs, lastx, lasta =>
    if s.viewAttr ypt x ≠ lasta then
      s.runOf ypt y lastx x lasta :: redrawRuns s ypt y tx2 xs x (s.viewAttr ypt x)
    else redrawRuns s ypt y tx2 xs lastx lasta

/-- Draw one row from its line. -/
def redrawRow (s : VSscrn) (ypt : Ptr) (y tx1 tx2 : Int) : List Draw :=
  -- if double size, we must shift width
  let wide := VSisdecdwh (s.buf.mem.lattr ypt)
  let tx1 := if wide then tx1/2 else tx1
  let tx2 := if wide then tx2/2 else tx2
  -- multi-byte
  let tx1 := if tx1 > 0 ∧ s.isansi2b ypt (tx1-1) then tx1-1 else tx1
  let tx2 := if tx2 < s.maxwidth ∧ s.isansi2b ypt tx2 then tx2+1 else tx2
  s.redrawRuns ypt y tx2 (loopRange (tx1+1) tx2) tx1 (s.viewAttr ypt tx1)

/-- The loop over the rows, of which `ypt` is the line. -/
def redrawRows (s : VSscrn) (tx1 tx2 : Int) : List Int → Ptr → List Draw
  | [], _ => []
  | y :: ys, ypt =>
    -- on-screen buffer
    let ypt := if s.buf.Rtop+y = 0 then s.buf.row 0 else ypt
    s.redrawRow ypt y tx1 tx2 ++ redrawRows s tx1 tx2 ys (s.buf.next ypt)

/-- A column of the view as one of the buffer. -/
def globalColumn (s : VSscrn) (x : Int) : Int :=
  let x := short (x+s.buf.Rleft)
  if x < 0 then 0 else if x > s.maxwidth then s.maxwidth else x

/-- A row of the view as one of the buffer, limited to amount of scrollback. -/
def globalRow (s : VSscrn) (y : Int) : Int :=
  let y := short (y+s.buf.Rtop)
  if y < -s.buf.numlines then -s.buf.numlines else if y > s.buf.lines then s.buf.lines else y

/-- Redisplay the specified portion of a virtual screen, with the linked scrollback. -/
def VSredraw (s : VSscrn) (x1 y1 x2 y2 : Int) : List Draw :=
  match VSIclip s.buf (s.globalColumn x1) (s.globalRow y1) (s.globalColumn x2) (s.globalRow y2)
    (-1) with
  | none => []
  | some c => s.redrawRows c.x1 c.x2 (loopRange c.y1 c.y2) (VSIGetLineStart s.buf (s.globalRow y1))

end VSscrn

/-- A rectangle, its last column and row included. -/
structure Rect where
  left : Int
  top : Int
  right : Int
  bottom : Int
  deriving DecidableEq, Repr

/-- There is a cell in it. -/
def Rect.Shows (d : Rect) : Prop := d.left ≤ d.right ∧ d.top ≤ d.bottom

instance (d : Rect) : Decidable d.Shows :=
  inferInstanceAs (Decidable (d.left ≤ d.right ∧ d.top ≤ d.bottom))

/-- The part of a rectangle that lies in the view, in its coordinates. -/
def VSscrn.visible (s : VSscrn) (x1 y1 x2 y2 : Int) : Rect :=
  ⟨max 0 (s.globalColumn x1-s.buf.Rleft), max 0 (s.globalRow y1-s.buf.Rtop),
    min (s.globalColumn x2) s.buf.Rright-s.buf.Rleft,
    min (s.globalRow y2) s.buf.Rbottom-s.buf.Rtop⟩

/-- The runs follow one another from column `left` to column `right`. -/
def Covers : List Draw → Int → Int → Prop
  | [], left, right => left = right+1
  | d :: ds, left, right => d.x = left ∧ 0 < d.n ∧ Covers ds (left+d.n) right

/-- A run of row `y` is drawn from line `p`, with the attribute of all its cells. -/
structure RunFrom (s : VSscrn) (p : Ptr) (y : Int) (d : Draw) : Prop where
  y : d.y = y
  start : d.start = ⟨p, s.buf.Rleft+d.x⟩
  lattr : d.lattr = s.buf.mem.lattr p
  attr : ∀ i : Int, 0 ≤ i → i < d.n → s.buf.mem.attr p (s.buf.Rleft+d.x+i) = d.attr

/-- Row `y` is drawn from line `p`, each of the columns once. -/
structure RowFrom (s : VSscrn) (p : Ptr) (y left right : Int) (ds : List Draw) : Prop where
  covers : Covers ds left right
  runs : ∀ d ∈ ds, RunFrom s p y d

/-- What `VSredraw` is to do: draw each row of the visible part from its line. -/
def DrawsVisible (s : VSscrn) (x1 y1 x2 y2 : Int) : Prop :=
  let v := s.visible x1 y1 x2 y2
  if v.Shows then
    ∃ rows : List (List Draw), s.VSredraw x1 y1 x2 y2 = rows.flatten ∧
      List.Forall₂ (fun y ds => RowFrom s (s.buf.viewLine (s.buf.Rtop+y)) y v.left v.right ds)
        (loopRange v.top v.bottom) rows
  else s.VSredraw x1 y1 x2 y2 = []

/-- The rectangle does not start above the view, or the view starts with the first row of the
screen, or nothing is visible. -/
def RedrawInStep (s : VSscrn) (x1 y1 x2 y2 : Int) : Prop :=
  (s.visible x1 y1 x2 y2).Shows → s.buf.Rtop ≤ s.globalRow y1 ∨ s.buf.Rtop = 0

/-- A screen whose view is in step, with lines of single width and no multi-byte characters;
rows and columns are counted in 16 bits. -/
structure Redrawable (s : VSscrn) : Prop where
  followed : Followed s.buf
  rows : s.buf.numlines+s.buf.lines ≤ 32767
  width : 0 ≤ s.maxwidth ∧ s.maxwidth ≤ 32766
  columns : s.maxwidth-32766 ≤ s.buf.Rleft ∧ s.buf.Rleft ≤ 32767
  single : ∀ y, -s.buf.numlines ≤ y → y ≤ s.buf.lines →
    VSisdecdwh (s.buf.mem.lattr (s.buf.viewLine y)) = false
  untagged : ∀ y, -s.buf.numlines ≤ y → y ≤ s.buf.lines →
    ∀ x, s.buf.mem.attr (s.buf.viewLine y) x &&& kVSansi2b = 0

section Row
variable {s : VSscrn} {p : Ptr} {y left right : Int}

/-- Without the tag an attribute is as it is. -/
theorem and_not_tag {a : BitVec 32} (h : a &&& kVSansi2b = 0) : a &&& ~~~kVSansi2b = a := by
  apply BitVec.eq_of_getLsbD_eq
  intro i hi
  have hbit : (a &&& kVSansi2b).getLsbD i = false := by
    rw [h]
    exact BitVec.getLsbD_zero
  rw [BitVec.getLsbD_and] at hbit
  rw [BitVec.getLsbD_and, BitVec.getLsbD_not, decide_eq_true hi, Bool.true_and]
  cases ha : a.getLsbD i with
  | false => rfl
  | true =>
    rw [ha, Bool.true_and] at hbit
    rw [hbit]
    rfl

/-- A run whose cells have all the same attribute. -/
theorem runOf_from {lastx x : Int} {lasta : BitVec 32}
    (h : ∀ j, lastx ≤ j → j < x → s.buf.mem.attr p (s.buf.Rleft+j) = lasta) :
    RunFrom s p y (s.runOf p y lastx x lasta) where
  y := rfl
  start := rfl
  lattr := rfl
  attr := by
    intro i hi hi'
    change i < x-lastx at hi'
    change s.buf.mem.attr p (s.buf.Rleft+lastx+i) = lasta
    rw [Int.add_assoc]
    exact h (lastx+i) (by omega) (by omega)

theorem redrawRuns_from (hplain : ∀ x, s.buf.mem.attr p x &&& kVSansi2b = 0) (n : ℕ) {x : Int}
    (hn : n = (right-x+1).toNat) (hx : x ≤ right+1) {lastx : Int} (hlast : lastx < x)
    {lasta : BitVec 32}
    (hrun : ∀ j, lastx ≤ j → j < x → s.buf.mem.attr p (s.buf.Rleft+j) = lasta) :
    RowFrom s p y lastx right (s.redrawRuns p y right (loopRange x right) lastx lasta) := by
  -- by the columns that are left; all cells from `lastx` to `x` have the attribute `lasta`
  induction n generalizing x lastx lasta with
  | zero =>
    have hend : x = right+1 := by omega
    rw [loopRange_nil (by omega), VSscrn.redrawRuns, if_pos (by omega), ← hend]
    refine ⟨⟨rfl, ?_, ?_⟩, ?_⟩
    · change 0 < x-lastx
      omega
    · change lastx+(x-lastx) = right+1
      omega
    · intro d hd
      rw [List.mem_singleton.mp hd]
      exact runOf_from hrun
  | succ n ih =>
    have hattr : s.viewAttr p x = s.buf.mem.attr p (s.buf.Rleft+x) := and_not_tag (hplain _)
    rw [loopRange_cons (by omega), VSscrn.redrawRuns, hattr]
    split_ifs with hchange
    · -- the run ends, and one of the new attribute starts
      have hrest := @ih (x+1) (by omega) (by omega) x (by omega)
        (s.buf.mem.attr p (s.buf.Rleft+x)) (by
          intro j hj hj'
          rw [show j = x by omega])
      refine ⟨⟨rfl, ?_, ?_⟩, ?_⟩
      · change 0 < x-lastx
        omega
      · change Covers _ (lastx+(x-lastx)) right
        rw [show lastx+(x-lastx) = x by omega]
        exact hrest.covers
      · intro d hd
        rcases List.mem_cons.mp hd with rfl | hd
        · exact runOf_from hrun
        · exact hrest.runs d hd
    · -- the run goes on
      have hsame : s.buf.mem.attr p (s.buf.Rleft+x) = lasta := not_not.mp hchange
      apply ih (by omega) (by omega) (by omega)
      intro j hj hj'
      by_cases hnew : j = x
      · rw [hnew, hsame]
      · exact hrun j hj (by omega)

theorem redrawRow_from (hsingle : VSisdecdwh (s.buf.mem.lattr p) = false)
    (hplain : ∀ x, s.buf.mem.attr p x &&& kVSansi2b = 0) (hcols : left ≤ right) :
    RowFrom s p y left right (s.redrawRow p y left right) := by
  have huntagged (x : Int) : s.isansi2b p x = false := by
    rw [VSscrn.isansi2b, hplain]
    rfl
  simp only [VSscrn.redrawRow, hsingle, huntagged, Bool.false_eq_true, and_false, if_false]
  apply redrawRuns_from hplain _ rfl (by omega) (by omega)
  intro j hj hj'
  rw [show j = left by omega, VSscrn.viewAttr, and_not_tag (hplain _)]

/-- A row with columns has a first run, and it starts with a cell of the line. -/
theorem RowFrom.head {ds : List Draw} (h : RowFrom s p y left right ds) (hcols : left ≤ right) :
    ∃ d rest, ds = d :: rest ∧ d.start.line = p := by
  cases ds with
  | nil =>
    have hnone : left = right+1 := h.covers
    omega
  | cons d rest =>
    have hstart := (h.runs d List.mem_cons_self).start
    exact ⟨d, rest, rfl, congrArg Cell.line hstart⟩

end Row

section View
variable {s : VSscrn}

theorem globalColumn_range (hw : 0 ≤ s.maxwidth) (x : Int) :
    0 ≤ s.globalColumn x ∧ s.globalColumn x ≤ s.maxwidth := by
  simp only [VSscrn.globalColumn]
  split_ifs <;> omega

theorem globalRow_range (hn : 0 ≤ s.buf.numlines) (hl : 0 ≤ s.buf.lines) (y : Int) :
    -s.buf.numlines ≤ s.globalRow y ∧ s.globalRow y ≤ s.buf.lines := by
  simp only [VSscrn.globalRow]
  split_ifs <;> omega

/-- The view lies in the buffer, and its rows are counted in 16 bits. -/
theorem Followed.view {b : VSbuf} (hf : Followed b) :
    -b.numlines ≤ b.Rtop ∧ b.Rtop ≤ b.lines ∧ b.Rtop ≤ b.Rbottom ∧ b.Rbottom-b.Rtop ≤ 32767 := by
  obtain ⟨e, pre, post, -, -, -, hv⟩ := hf.list
  exact ⟨hv.above, hv.below, hv.height_nonneg, hv.height⟩

/-- Clipping leaves the part of the rectangle that lies in the view. -/
theorem clip_visible (h : Redrawable s) (x1 y1 x2 y2 : Int) :
    (∃ n offset, VSIclip s.buf (s.globalColumn x1) (s.globalRow y1) (s.globalColumn x2)
        (s.globalRow y2) (-1) =
      some ⟨(s.visible x1 y1 x2 y2).left, (s.visible x1 y1 x2 y2).top,
        (s.visible x1 y1 x2 y2).right, (s.visible x1 y1 x2 y2).bottom, n, offset⟩ ∧
        (s.visible x1 y1 x2 y2).Shows) ∨
      VSIclip s.buf (s.globalColumn x1) (s.globalRow y1) (s.globalColumn x2)
        (s.globalRow y2) (-1) = none ∧ ¬(s.visible x1 y1 x2 y2).Shows := by
  obtain ⟨hn, hl⟩ := h.followed.counts
  obtain ⟨hx1, hx1'⟩ := globalColumn_range h.width.1 x1
  obtain ⟨hx2, hx2'⟩ := globalColumn_range h.width.1 x2
  obtain ⟨hy1, hy1'⟩ := globalRow_range hn hl y1
  obtain ⟨hy2, hy2'⟩ := globalRow_range hn hl y2
  obtain ⟨habove, hbelow, hheight, hbits⟩ := h.followed.view
  obtain ⟨hleft, hleft'⟩ := h.columns
  have hrows := h.rows
  have hwidth := h.width
  simp only [VSscrn.visible, Rect.Shows]
  generalize s.globalColumn x1 = a at hx1 hx1' ⊢
  generalize s.globalColumn x2 = c at hx2 hx2' ⊢
  generalize s.globalRow y1 = t at hy1 hy1' ⊢
  generalize s.globalRow y2 = u at hy2 hy2' ⊢
  by_cases hout : a > s.buf.Rright ∨ u < s.buf.Rtop
  · -- beyond the right column or above the first row of the view
    apply Or.inr
    constructor
    · simp only [VSIclip, if_neg (show ¬(-1 : Int) ≥ 0 by decide), if_pos hout]
    · omega
  · -- no difference is beyond 16 bits, so that the clipping is that of integers
    have hcut : (if c > s.buf.Rright then s.buf.Rright else c) = min c s.buf.Rright := by
      split_ifs <;> omega
    have hcut' : (if u > s.buf.Rbottom then s.buf.Rbottom else u) = min u s.buf.Rbottom := by
      split_ifs <;> omega
    have ha : short (a-s.buf.Rleft) = a-s.buf.Rleft := short_eq (by omega) (by omega)
    have ht : short (t-s.buf.Rtop) = t-s.buf.Rtop := short_eq (by omega) (by omega)
    have hc : short (min c s.buf.Rright-s.buf.Rleft) = min c s.buf.Rright-s.buf.Rleft :=
      short_eq (by omega) (by omega)
    have hu : short (min u s.buf.Rbottom-s.buf.Rtop) = min u s.buf.Rbottom-s.buf.Rtop :=
      short_eq (by omega) (by omega)
    have hpos (i : Int) : (if i < 0 then 0 else i) = max 0 i := by
      split_ifs <;> omega
    have hlen : short (min c s.buf.Rright-s.buf.Rleft-max 0 (a-s.buf.Rleft)+1) =
        min c s.buf.Rright-s.buf.Rleft-max 0 (a-s.buf.Rleft)+1 := short_eq (by omega) (by omega)
    simp only [VSIclip, if_neg (show ¬(-1 : Int) ≥ 0 by decide), if_neg hout, hcut, hcut', ha, ht,
      hc, hu, hpos, hlen]
    by_cases hempty : min c s.buf.Rright-s.buf.Rleft-max 0 (a-s.buf.Rleft)+1 ≤ 0 ∨
        min u s.buf.Rbottom-s.buf.Rtop-max 0 (t-s.buf.Rtop) < 0
    · apply Or.inr
      rw [if_pos hempty]
      exact ⟨rfl, by omega⟩
    · apply Or.inl
      rw [if_neg hempty]
      exact ⟨_, _, rfl, by omega, by omega⟩

/-- The rows are drawn from their lines when the walk starts with the line of the first one. -/
theorem redrawRows_from (h : Redrawable s) {left right bottom : Int} (hcols : left ≤ right)
    (hbottom : s.buf.Rtop+bottom ≤ s.buf.lines) (n : ℕ) {y : Int} (hn : n = (bottom-y+1).toNat)
    (hy : 0 ≤ y) {ypt : Ptr}
    (hypt : y ≤ bottom →
      (if s.buf.Rtop+y = 0 then s.buf.row 0 else ypt) = s.buf.viewLine (s.buf.Rtop+y)) :
    ∃ rows : List (List Draw),
      s.redrawRows left right (loopRange y bottom) ypt = rows.flatten ∧
      List.Forall₂ (fun y ds => RowFrom s (s.buf.viewLine (s.buf.Rtop+y)) y left right ds)
        (loopRange y bottom) rows := by
  obtain ⟨habove, -, -, -⟩ := h.followed.view
  induction n generalizing y ypt with
  | zero =>
    rw [loopRange_nil (by omega)]
    exact ⟨[], rfl, List.Forall₂.nil⟩
  | succ n ih =>
    have hle : y ≤ bottom := by omega
    have hline : y+1 ≤ bottom →
        (if s.buf.Rtop+(y+1) = 0 then s.buf.row 0
          else s.buf.next (s.buf.viewLine (s.buf.Rtop+y))) =
        s.buf.viewLine (s.buf.Rtop+(y+1)) := by
      intro hnext
      split_ifs with hzero
      · rw [hzero, h.followed.viewLine_zero]
      · rw [(h.followed.next_viewLine (by omega) (by omega)).1, Int.add_assoc]
    obtain ⟨rows, hrest, hforall⟩ := ih (by omega) (by omega) hline
    have hrow := @redrawRow_from s (s.buf.viewLine (s.buf.Rtop+y)) y left right
      (h.single _ (by omega) (by omega)) (h.untagged _ (by omega) (by omega)) hcols
    rw [loopRange_cons hle, VSscrn.redrawRows]
    simp only [hypt hle]
    refine ⟨_ :: rows, ?_, List.Forall₂.cons hrow hforall⟩
    rw [List.flatten_cons, hrest]

end View

section Walk
variable {s : VSscrn} {x1 y1 x2 y2 : Int}

theorem VSredraw_clipped {c : Clipped} (h : VSIclip s.buf (s.globalColumn x1) (s.globalRow y1)
    (s.globalColumn x2) (s.globalRow y2) (-1) = some c) :
    s.VSredraw x1 y1 x2 y2 = s.redrawRows c.x1 c.x2 (loopRange c.y1 c.y2)
      (VSIGetLineStart s.buf (s.globalRow y1)) := by
  delta VSscrn.VSredraw
  rw [h]

theorem VSredraw_nothing (h : VSIclip s.buf (s.globalColumn x1) (s.globalRow y1)
    (s.globalColumn x2) (s.globalRow y2) (-1) = none) : s.VSredraw x1 y1 x2 y2 = [] := by
  delta VSscrn.VSredraw
  rw [h]

end Walk

/-- A redraw is right if and only if the rectangle does not start above the view, or the view
starts with the first row of the screen, or nothing is visible. -/
theorem redraw_exact_iff (s : VSscrn) (x1 y1 x2 y2 : Int) (h : Redrawable s) :
    DrawsVisible s x1 y1 x2 y2 ↔ RedrawInStep s x1 y1 x2 y2 := by
  obtain ⟨hn, hl⟩ := h.followed.counts
  obtain ⟨hy1, hy1'⟩ := globalRow_range hn hl y1
  obtain ⟨hy2, hy2'⟩ := globalRow_range hn hl y2
  obtain ⟨habove, hbelow, -, -⟩ := h.followed.view
  have hrows := h.rows
  have hstart := h.followed.lineStart (by omega) hy1 hy1'
  have htop : (s.visible x1 y1 x2 y2).top = max 0 (s.globalRow y1-s.buf.Rtop) := rfl
  have hbottom : (s.visible x1 y1 x2 y2).bottom =
      min (s.globalRow y2) s.buf.Rbottom-s.buf.Rtop := rfl
  simp only [DrawsVisible, RedrawInStep]
  rcases clip_visible h x1 y1 x2 y2 with ⟨n, offset, hclip, hshows⟩ | ⟨hclip, hnone⟩
  · rw [VSredraw_clipped hclip, if_pos hshows]
    dsimp only
    rw [hstart]
    generalize s.visible x1 y1 x2 y2 = v at hshows htop hbottom ⊢
    obtain ⟨hcols, hv⟩ := id hshows
    constructor
    · -- above the view, the first row is drawn from the line of the rectangle's first row
      intro ⟨rows, hdraws, hforall⟩ _
      by_contra hstep
      obtain ⟨hlow, hzero⟩ := not_or.mp hstep
      have htop0 : v.top = 0 := by omega
      rw [htop0] at hdraws hforall hv
      rw [loopRange_cons hv] at hdraws hforall
      cases hforall with
      | @cons _ ds _ rows hfirst hforall =>
        obtain ⟨d, rest, rfl, hd⟩ := hfirst.head hcols
        have hrow := @redrawRow_from s (s.buf.viewLine (s.globalRow y1)) 0 v.left v.right
          (h.single _ hy1 hy1') (h.untagged _ hy1 hy1') hcols
        obtain ⟨d', rest', hrow', hd'⟩ := hrow.head hcols
        rw [VSscrn.redrawRows] at hdraws
        simp only [if_neg (show ¬s.buf.Rtop+0 = 0 by omega)] at hdraws
        rw [hrow', List.flatten_cons, List.cons_append, List.cons_append] at hdraws
        have hsame : d' = d := (List.cons_eq_cons.mp hdraws).1
        rw [hsame, hd, Int.add_zero] at hd'
        exact h.followed.viewLine_inj hy1 (not_le.mp hlow) hbelow hd'.symm
    · intro hstep
      apply redrawRows_from h hcols (by omega) _ rfl (by omega)
      intro hle
      by_cases hin : s.buf.Rtop ≤ s.globalRow y1
      · -- nothing is cut off above, so the walk starts with the first visible row
        have hsame : s.buf.Rtop+v.top = s.globalRow y1 := by omega
        rw [hsame]
        split_ifs with hfirst
        · rw [hfirst, h.followed.viewLine_zero]
        · rfl
      · -- the first visible row is that of the screen, where the line is looked up
        have hzero := (hstep hshows).resolve_left hin
        have hfirst : s.buf.Rtop+v.top = 0 := by omega
        rw [if_pos hfirst, hfirst, h.followed.viewLine_zero]
  · rw [VSredraw_nothing hclip, if_neg hnone]
    exact ⟨fun _ hshows => absurd hshows hnone, fun _ => rfl⟩

/-- The screen of three rows, seen from the second one on. -/
def abcBelow : VSscrn :=
  { abcScreen with
    buf := { letteredRows with vistop := 2, Rtop := 1, Rright := 3 } }

theorem abcBelow_redrawable : Redrawable abcBelow where
  followed :=
    { list := by
        obtain ⟨e, pre, post, he, hth, ht, -⟩ := letteredRows_followed.list
        refine ⟨e, pre, post, he, { hth with }, { ht with }, ?_⟩
        constructor
        · exact (lineAt_row (b := letteredRows) (show (0 : Int) ≤ 1 by decide)).symm
        all_goals decide
      linked := rfl
      lines_lt := by decide }
  rows := by decide
  width := by decide
  columns := by decide
  single := fun _ _ _ => by
    change VSisdecdwh 0 = false
    decide
  untagged := fun _ _ _ _ => BitVec.zero_and

theorem whole_view_redrawn : DrawsVisible abcBelow 0 0 3 1 :=
  (redraw_exact_iff abcBelow 0 0 3 1 abcBelow_redrawable).mpr fun _ => Or.inl (by decide)

/-- In a view that starts with the second row, a rectangle from the first row of the screen on is
drawn from the lines above. -/
theorem rows_above_view_drawn :
    abcBelow.VSredraw 0 (-1) 3 1 = [⟨0, 0, 4, 0, 0, ⟨1, 0⟩⟩, ⟨0, 1, 4, 0, 0, ⟨2, 0⟩⟩] ∧
      abcBelow.VSredraw 0 0 3 1 = [⟨0, 0, 4, 0, 0, ⟨2, 0⟩⟩, ⟨0, 1, 4, 0, 0, ⟨3, 0⟩⟩] ∧
      ¬DrawsVisible abcBelow 0 (-1) 3 1 := by
  have hdraws : abcBelow.VSredraw 0 (-1) 3 1 =
      [⟨0, 0, 4, 0, 0, ⟨1, 0⟩⟩, ⟨0, 1, 4, 0, 0, ⟨2, 0⟩⟩] := by decide
  refine ⟨hdraws, by decide, ?_⟩
  intro hvisible
  obtain ⟨rows, hrows, hforall⟩ := hvisible
  have hall : loopRange (abcBelow.visible 0 (-1) 3 1).top (abcBelow.visible 0 (-1) 3 1).bottom =
      [0, 1] := by decide
  rw [hall] at hforall
  cases hforall with
  | @cons _ ds _ rows hfirst hforall =>
    obtain ⟨d, rest, rfl, hd⟩ := hfirst.head (by decide)
    rw [hdraws, List.flatten_cons, List.cons_append] at hrows
    rw [← (List.cons_eq_cons.mp hrows).1] at hd
    exact absurd hd (by decide)

end VS
