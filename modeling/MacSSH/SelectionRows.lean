import MacSSH.ScreenViewed
import MacSSH.ScreenState
import MacSSH.DeleteChars

/-! A selection on a screen: its end points, put in order and limited to the lines there are,
and the walk along the lines of its rows. -/
namespace VS

open Linked

/-- The ends of a selection in order: it starts behind column `ux` of row `uy` and ends with
column `lx` of row `ly`. -/
structure Bounds where
  ux : Int
  uy : Int
  lx : Int
  ly : Int
  deriving DecidableEq, Repr

namespace VSscrn

/-- An end point outside the buffer is moved to its start or to its end. -/
def limitEnd (s : VSscrn) (x y : Int) : Int × Int :=
  let x := if x < -1 then -1 else if x > s.maxwidth then s.maxwidth else x
  if y < -s.buf.numlines then (-1, -s.buf.numlines)
  else if y > s.buf.lines then (s.maxwidth, s.buf.lines)
  else (x, y)

/-- Order the lower and upper bounds. -/
def orderEnds (p q : Int × Int) : Bounds :=
  if p.2 = q.2 then
    if p.1 > q.1 then ⟨q.1, p.2, p.1, q.2⟩ else ⟨p.1, p.2, q.1, q.2⟩
  else if p.2 > q.2 then ⟨q.1, q.2, p.1, p.2⟩
  else ⟨p.1, p.2, q.1, q.2⟩

/-- What is selected from `(x1, y1)` to `(x2, y2)`. -/
def bounds (s : VSscrn) (x1 y1 x2 y2 : Int) : Bounds :=
  orderEnds (s.limitEnd x1 y1) (s.limitEnd x2 y2)

end VSscrn

/-- A screen on which text can be selected: the view is in step, rows are counted in 16 bits,
and there are columns. -/
structure Selectable (s : VSscrn) : Prop where
  followed : Followed s.buf
  counted : s.buf.numlines+s.buf.lines ≤ 32768
  width : 0 ≤ s.maxwidth ∧ s.maxwidth < 32767

/-- Ordered bounds inside the buffer. -/
structure Bounds.Inside (d : Bounds) (s : VSscrn) : Prop where
  ux : -1 ≤ d.ux ∧ d.ux ≤ s.maxwidth
  lx : -1 ≤ d.lx ∧ d.lx ≤ s.maxwidth
  uy : -s.buf.numlines ≤ d.uy
  ly : d.ly ≤ s.buf.lines
  rows : d.uy ≤ d.ly
  columns : d.uy = d.ly → d.ux ≤ d.lx

section Bounds
variable {s : VSscrn}

theorem orderEnds_swap (p q : Int × Int) : VSscrn.orderEnds p q = VSscrn.orderEnds q p := by
  obtain ⟨x1, y1⟩ := p
  obtain ⟨x2, y2⟩ := q
  simp only [VSscrn.orderEnds]
  rcases lt_trichotomy y1 y2 with hy | rfl | hy
  · rw [if_neg hy.ne, if_neg (not_lt.mpr hy.le), if_neg hy.ne', if_pos hy]
  · rw [if_pos rfl, if_pos rfl]
    rcases lt_trichotomy x1 x2 with hx | rfl | hx
    · rw [if_neg (not_lt.mpr hx.le), if_pos hx]
    · rfl
    · rw [if_pos hx, if_neg (not_lt.mpr hx.le)]
  · rw [if_neg hy.ne', if_pos hy, if_neg hy.ne, if_neg (not_lt.mpr hy.le)]

/-- The order of the end points does not matter. -/
theorem bounds_swap (s : VSscrn) (x1 y1 x2 y2 : Int) :
    s.bounds x2 y2 x1 y1 = s.bounds x1 y1 x2 y2 := orderEnds_swap _ _

theorem limitEnd_inside (hw : 0 ≤ s.maxwidth) (hn : 0 ≤ s.buf.numlines) (hl : 0 ≤ s.buf.lines)
    (x y : Int) :
    (-1 ≤ (s.limitEnd x y).1 ∧ (s.limitEnd x y).1 ≤ s.maxwidth) ∧
      -s.buf.numlines ≤ (s.limitEnd x y).2 ∧ (s.limitEnd x y).2 ≤ s.buf.lines := by
  simp only [VSscrn.limitEnd]
  split_ifs <;> refine ⟨⟨?_, ?_⟩, ?_, ?_⟩ <;> simp only <;> omega

theorem Followed.counts (hf : Followed s.buf) : 0 ≤ s.buf.numlines ∧ 0 ≤ s.buf.lines := by
  obtain ⟨e, pre, post, -, hth, ht, -⟩ := hf.list
  exact ⟨ht.numlines_nonneg, hth.lines_nonneg⟩

theorem bounds_inside (h : Selectable s) (x1 y1 x2 y2 : Int) :
    (s.bounds x1 y1 x2 y2).Inside s := by
  obtain ⟨hn, hl⟩ := h.followed.counts
  obtain ⟨hp, hpl, hpu⟩ := limitEnd_inside h.width.1 hn hl x1 y1
  obtain ⟨hq, hql, hqu⟩ := limitEnd_inside h.width.1 hn hl x2 y2
  rw [VSscrn.bounds, VSscrn.orderEnds]
  split_ifs with hy hx hy'
  · exact ⟨hq, hp, hpl, hqu, hy.le, fun _ => hx.le⟩
  · exact ⟨hp, hq, hpl, hqu, hy.le, fun _ => not_lt.mp hx⟩
  · exact ⟨hq, hp, hql, hpu, hy'.le, fun heq => absurd heq hy'.ne⟩
  · exact ⟨hp, hq, hpl, hqu, not_lt.mp hy', fun heq => absurd heq hy⟩

end Bounds

section Walks
variable {b : VSbuf} {e : Option Ptr} {pre post : List Ptr}

theorem Threaded.lineAt_mem (h : Threaded b e pre post) {k : Int} (hk : -(pre.length : Int) ≤ k)
    (hk' : k ≤ b.lines) : lineAt pre b.linest k ∈ pre ++ b.linest := by
  have hlen := h.length
  have hlt : (pre.length+k).toNat < (pre ++ b.linest).length := by
    rw [List.length_append]
    omega
  rw [lineAt, List.getD_eq_getElem _ _ hlt]
  exact List.getElem_mem hlt

theorem Threaded.lineAt_ne_null (h : Threaded b e pre post) {k : Int}
    (hk : -(pre.length : Int) ≤ k) (hk' : k ≤ b.lines) : lineAt pre b.linest k ≠ NULL := by
  intro hnull
  apply h.strand.null_mem
  rw [← hnull]
  exact List.mem_append_left _ (h.lineAt_mem hk hk')

theorem Threaded.advance_lineAt (h : Threaded b e pre post) {k : Int}
    (hk : -(pre.length : Int) ≤ k) (n : ℕ) (hn : k+n ≤ b.lines) :
    b.mem.advance^[n] (lineAt pre b.linest k) = lineAt pre b.linest (k+n) := by
  induction n with
  | zero => rw [Function.iterate_zero_apply, Int.natCast_zero, Int.add_zero]
  | succ n ih =>
    have hnext : b.mem.links.next (lineAt pre b.linest (k+n)) =
        lineAt pre b.linest (k+n+(1 : ℕ)) :=
      @Threaded.lineAt_next b e pre post h (k+n) 1 (by omega) (by omega)
    rw [Function.iterate_succ_apply', ih (by omega), LineMem.advance, hnext,
      if_pos (h.lineAt_ne_null (by omega) (by omega))]
    congr 1
    omega

theorem Threaded.retreat_lineAt (h : Threaded b e pre post) {k : Int} (hk : k ≤ b.lines) (n : ℕ)
    (hn : -(pre.length : Int) ≤ k-n) :
    b.mem.retreat^[n] (lineAt pre b.linest k) = lineAt pre b.linest (k-n) := by
  induction n with
  | zero => rw [Function.iterate_zero_apply, Int.natCast_zero, Int.sub_zero]
  | succ n ih =>
    have hprev : b.mem.links.prev (lineAt pre b.linest (k-n)) =
        lineAt pre b.linest (k-n-(1 : ℕ)) :=
      @Threaded.lineAt_prev b e pre post h (k-n) 1 (by omega) (by omega)
    rw [Function.iterate_succ_apply', ih (by omega), LineMem.retreat, hprev,
      if_pos (h.lineAt_ne_null (by omega) (by omega))]
    congr 1
    omega

/-- The walk from the start of the view finds every line of the buffer. -/
theorem Followed.lineStart (hf : Followed b) (hbits : b.numlines+b.lines ≤ 32768) {y : Int}
    (hy : -b.numlines ≤ y) (hy' : y ≤ b.lines) : VSIGetLineStart b y = b.viewLine y := by
  obtain ⟨e, pre, post, -, hth, ht, hv⟩ := hf.list
  obtain ⟨hvistop, habove, hbelow, -⟩ := hv
  have hnum := ht.numlines_nonneg
  have hnum' := ht.numlines_le
  have henough := ht.enough
  rw [hth.viewLine (by omega) hy', VSIGetLineStart]
  by_cases hrow : y ≥ 0
  · rw [if_pos hrow, lineAt_row hrow]
  · have hshort : short (y-b.Rtop) = y-b.Rtop := short_eq (by omega) (by omega)
    simp only [if_neg hrow, hshort]
    rw [hvistop]
    split_ifs with hn
    · rw [hth.advance_lineAt (by omega) _ (by omega)]
      congr 1
      omega
    · rw [hth.retreat_lineAt (by omega) _ (by omega)]
      congr 1
      omega

/-- The line after a row is that of the next row. -/
theorem Followed.next_viewLine (hf : Followed b) {y : Int} (hy : -b.numlines ≤ y)
    (hy' : y < b.lines) :
    b.next (b.viewLine y) = b.viewLine (y+1) ∧ b.mem.advance (b.viewLine y) = b.viewLine (y+1) := by
  obtain ⟨e, pre, post, -, hth, ht, -⟩ := hf.list
  have henough := ht.enough
  rw [hth.viewLine (by omega) (by omega), hth.viewLine (by omega) (by omega)]
  exact ⟨@Threaded.lineAt_next b e pre post hth y 1 (by omega) (by omega),
    hth.advance_lineAt (by omega) 1 (by omega)⟩

theorem Followed.viewLine_zero (hf : Followed b) : b.viewLine 0 = b.row 0 := by
  obtain ⟨e, pre, post, -, hth, -⟩ := hf.list
  have hl := hth.lines_nonneg
  rw [hth.viewLine (by omega) hl, lineAt_row le_rfl]

/-- The lines of the rows are different ones. -/
theorem Followed.viewLine_inj (hf : Followed b) {y y' : Int} (hy : -b.numlines ≤ y)
    (hyy : y < y') (hy' : y' ≤ b.lines) : b.viewLine y ≠ b.viewLine y' := by
  obtain ⟨e, pre, post, -, hth, ht, -⟩ := hf.list
  have henough := ht.enough
  have hlen := hth.length
  rw [hth.viewLine (by omega) (by omega), hth.viewLine (by omega) hy', lineAt, lineAt]
  have hnodup : (pre ++ b.linest).Nodup := hth.strand.nodup.of_append_left
  have hi : (pre.length+y).toNat < (pre ++ b.linest).length := by
    rw [List.length_append]
    omega
  have hj : (pre.length+y').toNat < (pre ++ b.linest).length := by
    rw [List.length_append]
    omega
  rw [List.getD_eq_getElem _ _ hi, List.getD_eq_getElem _ _ hj]
  intro heq
  have hsame := hnodup.getElem_inj_iff.mp heq
  omega

end Walks

end VS
