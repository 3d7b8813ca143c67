import MacSSH.ScreenContents
import MacSSH.ScreenViewed

/-! Inserting and deleting lines: which rows move, which are blank afterwards, and what
stays as it is. -/
namespace VS

open Linked

section Linked
variable {r : VSregion} {b b' : VSbuf} {e : Option Ptr} {post : List Ptr} {n s : Int}

/-- The first line of the list: the oldest saved line, or the first row. -/
def VSbuf.firstLine (b : VSbuf) : Ptr := if b.numlines = 0 then b.scrntop else b.buftop

/-- What stays when rows of the screen change places and some of them are erased: the
saved lines and their contents, and the lines of the whole list up to their order. -/
structure OnlyPermutes (b b' : VSbuf) : Prop where
  saved : b'.saved = b.saved
  savedContents : b'.saved.map b'.contents = b.saved.map b.contents
  rows : b'.linest.Perm b.linest
  list : ∀ k, NullEnded b k ∨ Circular b k →
    (List.iterate b'.next b'.firstLine k).Perm (List.iterate b.next b.buftop k)

/-- The saved lines are found again behind the same oldest line. -/
theorem Threaded.saved_eq (h : Threaded b' e b.saved post) (hc : SameCount b b') :
    b'.saved = b.saved := by
  rcases Nat.eq_zero_or_pos b.numlines.toNat with hz | hz
  · rw [VSbuf.saved, VSbuf.saved, hc.numlines, hz]
    rfl
  · have hs : Strand NULL b'.mem.links e ([] ++ b.saved ++ (b'.linest ++ post)) := by
      rw [List.nil_append, ← List.append_assoc]
      exact h.strand
    have hne : b.saved ≠ [] := by
      rw [VSbuf.saved, Ne, List.iterate_eq_nil]
      omega
    have hwalk := hs.walk hne
    rw [VSbuf.saved, headD_iterate hz, List.length_iterate] at hwalk
    rw [VSbuf.saved, hc.buftop, hc.numlines]
    exact hwalk

/-- The whole list is found again behind its first line. -/
theorem Threaded.list_eq (h : Threaded b' e b.saved post) (hc : SameCount b b')
    (hnum : 0 ≤ b.numlines) :
    List.iterate b'.next b'.firstLine (b.saved ++ b'.linest ++ post).length =
      b.saved ++ b'.linest ++ post := by
  have hs : Strand NULL b'.mem.links e ([] ++ (b.saved ++ b'.linest ++ post) ++ []) := by
    rw [List.nil_append, List.append_nil]
    exact h.strand
  have hfirst : b'.firstLine = (b.saved ++ b'.linest ++ post).headD NULL := by
    rw [VSbuf.firstLine, hc.numlines, hc.buftop, h.top]
    split_ifs with hz
    · have hnil : b.saved = [] := by
        rw [VSbuf.saved, hz]
        rfl
      rw [hnil, List.nil_append, headD_append_of_ne_nil NULL h.linest_ne_nil]
    · have hpos : 0 < b.numlines.toNat := by omega
      have hne : b.saved ≠ [] := by
        rw [VSbuf.saved, Ne, List.iterate_eq_nil]
        omega
      rw [List.append_assoc, headD_append_of_ne_nil NULL hne, VSbuf.saved, headD_iterate hpos]
  rw [hfirst]
  exact hs.walk h.list_ne_nil

/-- Blanking some rows and changing their places leaves the rest as it is. -/
theorem LinkedScreen.onlyPermutes (h : LinkedScreen b)
    (hth : ∀ e post, Threaded b e b.saved post → Threaded b' e b.saved post)
    (hc : SameCount b b') (hrows : b'.linest.Perm b.linest) {a : BitVec 32} {l : Bool}
    {X : List Ptr} (hX : X ⊆ b'.linest) (hb : Blanks b b' a l X X) : OnlyPermutes b b' := by
  obtain ⟨k, hk⟩ := h.list
  obtain ⟨e, post, hb₀, -⟩ := h.threaded hk
  have hb₁ := hth e post hb₀
  have hsaved := hb₁.saved_eq hc
  refine ⟨hsaved, ?_, hrows, ?_⟩
  · rw [hsaved]
    refine List.map_congr_left fun q hq => ?_
    -- a saved line is not a row, so it is not blanked
    have hdis := List.disjoint_of_nodup_append hb₁.strand.nodup.of_append_left
    rw [hb.contents, if_neg (fun hx => hdis hq (hX hx))]
  · intro k hk
    obtain ⟨e, post, hth₀, hlist, -⟩ := h.threaded hk
    have hlist' := (hth e post hth₀).list_eq hc h.numlines_nonneg
    have hperm : (b.saved ++ b'.linest ++ post).Perm (b.saved ++ b.linest ++ post) :=
      (hrows.append_left b.saved).append_right post
    have hlen : (b.saved ++ b'.linest ++ post).length = k := by
      rw [hperm.length_eq, hlist, List.length_iterate]
    rw [hlen] at hlist'
    rw [hlist', ← hlist]
    exact hperm

theorem slice_subset {α : Type} (i j : ℕ) (l : List α) : slice i j l ⊆ l :=
  fun _ h => List.mem_of_mem_take (List.mem_of_mem_drop h)

end Linked

/-- The rows from `y` to `bottom` move up by `m` places, with blank rows behind them, and
nothing else changes but the order of the lines in the list. -/
def MovesUp (b b' : VSbuf) (a : BitVec 32) (y m bottom : ℕ) : Prop :=
  b'.shown = b.shown.take y ++ slice (y+m) (bottom+1) b.shown ++
      List.replicate m (blankRow b.allwidth a 0) ++ b.shown.drop (bottom+1) ∧
    OnlyPermutes b b'

/-- The rows from `y` to `bottom` move down by `m` places, with blank rows before them, and
nothing else changes but the order of the lines in the list. -/
def MovesDown (b b' : VSbuf) (a : BitVec 32) (y m bottom : ℕ) : Prop :=
  b'.shown = b.shown.take y ++ List.replicate m (blankRow b.allwidth a 0) ++
      slice y (bottom+1-m) b.shown ++ b.shown.drop (bottom+1) ∧
    OnlyPermutes b b'

/-- The rows that an insertion pushes off the scrolling region. -/
def VSbuf.dropped (b : VSbuf) (m bottom : ℕ) : List Row := slice (bottom+1-m) (bottom+1) b.shown

section Shift
variable {b : VSbuf} {r : VSregion} {n s : Int} {y m bottom : ℕ}

theorem VSIdellines_movesUp (h : LinkedScreen b) (hregion : 0 ≤ r.top ∧ r.bottom ≤ b.lines)
    (hrow : r.top ≤ startRow r s ∧ startRow r s ≤ r.bottom) (hn : 1 ≤ n) (hy : startRow r s = y)
    (hm : min n (r.bottom-startRow r s+1) = m) (hbottom : r.bottom = bottom) :
    MovesUp b (VSIdellines r b n s) r.blankAttrib y m bottom := by
  obtain ⟨k, hk⟩ := h.list
  obtain ⟨e, post, hth, -⟩ := h.threaded hk
  have hon : OnScreen r b s := ⟨by omega, by omega, by omega, hregion.2, h.lines_lt⟩
  have hlen := hth.length
  have hm1 : 1 ≤ m ∧ y+m ≤ bottom+1 := by omega
  have hnd : b.linest.Nodup := hth.strand.nodup.of_append_left.of_append_right
  obtain ⟨hrows, hblanks⟩ := VSIdellines_blanks hth h.linked hon hn hy hrow.2 hm
  have hend : (r.bottom+1).toNat = bottom+1 := by omega
  rw [hend] at hrows
  have hperm : (VSIdellines r b n s).linest.Perm b.linest := by
    rw [(VSIdellines_rows hth h.linked hon hn).1]
    exact deletedRows_perm _ hon.row_nonneg hn
  constructor
  · -- the deleted lines come back at the bottom, their attributes cleared
    have hblank : (slice y (y+m) b.linest).map (fun _ => blankRow b.allwidth r.blankAttrib 0) =
        List.replicate m (blankRow b.allwidth r.blankAttrib 0) := by
      rw [List.map_const', length_slice _ (by omega), Nat.add_sub_cancel_left]
    rw [hblanks.shown hrows (hperm.nodup_iff.mpr hnd), List.map_append, VSbuf.shown, List.map_take,
      map_slice, List.map_drop, ← hblank]
    rfl
  · apply h.onlyPermutes (fun e post ht => (VSIdellines_rows ht h.linked hon hn).2)
      (VSIdellines_frame r n s h.linked).2 hperm _ hblanks
    intro q hq
    rw [hperm.mem_iff]
    exact slice_subset _ _ _ hq

/-- The lines of the rows that are pushed off come back erased, but with the line attributes
they had. -/
theorem VSIinslines_shifted (h : LinkedScreen b) (hregion : 0 ≤ r.top ∧ r.bottom ≤ b.lines)
    (hrow : r.top ≤ startRow r s ∧ startRow r s ≤ r.bottom) (hn : 1 ≤ n) (hy : startRow r s = y)
    (hm : min n (r.bottom-startRow r s+1) = m) (hbottom : r.bottom = bottom) :
    (VSIinslines r b n s).shown =
        b.shown.take y ++ (b.dropped m bottom).map (Row.erased b.allwidth r.blankAttrib) ++
          slice y (bottom+1-m) b.shown ++ b.shown.drop (bottom+1) ∧
      OnlyPermutes b (VSIinslines r b n s) := by
  obtain ⟨k, hk⟩ := h.list
  obtain ⟨e, post, hth, -⟩ := h.threaded hk
  have hon : OnScreen r b s := ⟨by omega, by omega, by omega, hregion.2, h.lines_lt⟩
  have hlen := hth.length
  have hm1 : 1 ≤ m ∧ y+m ≤ bottom+1 := by omega
  have hnd : b.linest.Nodup := hth.strand.nodup.of_append_left.of_append_right
  obtain ⟨hrows, hblanks⟩ := VSIinslines_blanks hth h.linked hon hn hy hrow.2 hm
    (by omega : r.bottom+1 = ((bottom+1-m : ℕ) : Int)+m)
  have hend : (r.bottom+1).toNat = bottom+1 := by omega
  rw [hend] at hrows hblanks
  have hperm : (VSIinslines r b n s).linest.Perm b.linest := by
    rw [(VSIinslines_rows hth h.linked hon hn).1]
    exact insertedRows_perm _ hon.row_nonneg hn
  constructor
  · -- the lines come in at the top with the attributes that the pushed-off rows had
    have herase : (slice (bottom+1-m) (bottom+1) (b.linest.map b.contents)).map
        (Row.erased b.allwidth r.blankAttrib) = (slice (bottom+1-m) (bottom+1) b.linest).map
          (fun q => blankRow b.allwidth r.blankAttrib (b.mem.lattr q)) := by
      rw [← map_slice, List.map_map]
      rfl
    rw [hblanks.shown hrows (hperm.nodup_iff.mpr hnd), List.map_append, VSbuf.dropped, VSbuf.shown,
      List.map_take, map_slice b.contents, List.map_drop, herase, List.append_assoc (_ ++ _)]
    rfl
  · apply h.onlyPermutes (fun e post ht => (VSIinslines_rows ht h.linked hon hn).2)
      (VSIinslines_frame r n s h.linked).2 hperm _ hblanks
    intro q hq
    rw [hperm.mem_iff]
    exact slice_subset _ _ _ hq

/-- Erased rows are blank rows, if and only if their lines had no attributes. -/
theorem erased_eq_replicate_iff (width : Int) (a : BitVec 32) (rows : List Row) :
    rows.map (Row.erased width a) = List.replicate rows.length (blankRow width a 0) ↔
      ∀ row ∈ rows, row.lattr = 0 := by
  rw [← List.map_const', List.map_inj_left]
  refine forall₂_congr fun row _ => ⟨fun h => congrArg Row.lattr h, fun h => ?_⟩
  rw [Row.erased, h]

theorem VSIinslines_movesDown_iff (h : LinkedScreen b)
    (hregion : 0 ≤ r.top ∧ r.bottom ≤ b.lines)
    (hrow : r.top ≤ startRow r s ∧ startRow r s ≤ r.bottom) (hn : 1 ≤ n) (hy : startRow r s = y)
    (hm : min n (r.bottom-startRow r s+1) = m) (hbottom : r.bottom = bottom) :
    MovesDown b (VSIinslines r b n s) r.blankAttrib y m bottom ↔
      ∀ row ∈ b.dropped m bottom, row.lattr = 0 := by
  obtain ⟨hshown, hperm⟩ := VSIinslines_shifted h hregion hrow hn hy hm hbottom
  obtain ⟨k, hk⟩ := h.list
  obtain ⟨e, post, hth, -⟩ := h.threaded hk
  have hlength : (b.dropped m bottom).length = m := by
    have hrows := hth.length
    rw [VSbuf.dropped, length_slice _ (by rw [VSbuf.shown, List.length_map]; omega)]
    omega
  have hblank := erased_eq_replicate_iff b.allwidth r.blankAttrib (b.dropped m bottom)
  rw [hlength] at hblank
  -- what stays is the same on both sides, so that the rows that come in decide
  rw [← hblank, MovesDown, hshown, and_iff_left hperm, List.append_left_inj, List.append_left_inj,
    List.append_right_inj]

end Shift

/-- On a well-formed screen with the linked scrollback, deleting `n` lines at a row of the
scrolling region moves the rows behind them up, with blank rows at the bottom. Inserting `n`
lines moves the rows down, and the rows that come in are blank if and only if the lines of the
rows that are pushed off had no line attributes: the code uses these lines again. -/
theorem edits_shift_rows_iff (b : VSbuf) (r : VSregion) (n s : Int) (h : LinkedScreen b)
    (hregion : 0 ≤ r.top ∧ r.bottom ≤ b.lines)
    (hrow : r.top ≤ startRow r s ∧ startRow r s ≤ r.bottom) (hn : 1 ≤ n) (y m bottom : ℕ)
    (hy : startRow r s = y) (hm : min n (r.bottom-startRow r s+1) = m)
    (hbottom : r.bottom = bottom) :
    MovesUp b (VSIdellines r b n s) r.blankAttrib y m bottom ∧
      OnlyPermutes b (VSIinslines r b n s) ∧
      (MovesDown b (VSIinslines r b n s) r.blankAttrib y m bottom ↔
        ∀ row ∈ b.dropped m bottom, row.lattr = 0) :=
  ⟨VSIdellines_movesUp h hregion hrow hn hy hm hbottom,
    (VSIinslines_shifted h hregion hrow hn hy hm hbottom).2,
    VSIinslines_movesDown_iff h hregion hrow hn hy hm hbottom⟩

theorem twoRows_linked : LinkedScreen twoRows where
  toWellFormed := twoRows_wellFormed
  scrollback := ⟨by decide, by decide, fun i hi => absurd hi (Nat.not_lt_zero i), by decide⟩
  linked := rfl

/-- Deleting and inserting one line at the first of two rows. -/
theorem edits_shift_two_rows :
    MovesUp twoRows (VSIdellines twoRowsRegion twoRows 1 0) 0 0 1 1 ∧
      MovesDown twoRows (VSIinslines twoRowsRegion twoRows 1 0) 0 0 1 1 := by
  obtain ⟨hdelete, -, hinsert⟩ := edits_shift_rows_iff twoRows twoRowsRegion 1 0 twoRows_linked
    (by decide) (by decide) le_rfl 0 1 1 rfl rfl rfl
  refine ⟨hdelete, hinsert.mpr fun row hlost => ?_⟩
  obtain ⟨p, -, rfl⟩ := List.mem_map.mp (slice_subset _ _ _ hlost)
  rfl

/-- The screen of two rows, with the second one of double width (`ESC # 6`). -/
def twoRowsWide : VSbuf := { twoRows with mem := twoRows.mem.setLattr 2 3 }

theorem twoRowsWide_linked : LinkedScreen twoRowsWide := by
  obtain ⟨⟨h1, h2, h3, h4, h5, h6, h7, h8, -, h10, h11⟩, ⟨h12, h13, h14, h15⟩, h16⟩ :=
    twoRows_linked
  have hlist : NullEnded twoRowsWide 3 := by
    refine ⟨⟨by decide, by decide, ?_⟩, by decide, by decide, by decide, by decide⟩
    intro i hi
    have hi' : i = 0 ∨ i = 1 := by omega
    rcases hi' with rfl | rfl <;> decide
  exact ⟨⟨h1, h2, h3, h4, h5, h6, h7, h8, ⟨3, Or.inl hlist⟩, h10, h11⟩, ⟨h12, h13, h14, h15⟩, h16⟩

/-- A line inserted at the first row pushes the wide row off, and is of double width itself. -/
theorem insert_keeps_width :
    (VSIinslines twoRowsRegion twoRowsWide 1 0).shown.map Row.lattr = [3, 0] ∧
      ¬∀ (b : VSbuf) (r : VSregion) (n s : Int), LinkedScreen b →
        0 ≤ r.top ∧ r.bottom ≤ b.lines → r.top ≤ startRow r s ∧ startRow r s ≤ r.bottom → 1 ≤ n →
        ∀ y m bottom : ℕ, startRow r s = y → min n (r.bottom-startRow r s+1) = m →
        r.bottom = bottom → MovesDown b (VSIinslines r b n s) r.blankAttrib y m bottom := by
  refine ⟨by decide, fun hall => ?_⟩
  have hmoves := hall twoRowsWide twoRowsRegion 1 0 twoRowsWide_linked (by decide) (by decide)
    le_rfl 0 1 1 rfl rfl rfl
  have hlost := (VSIinslines_movesDown_iff twoRowsWide_linked (by decide) (by decide) le_rfl rfl rfl
    rfl).mp hmoves
  have hrow : twoRowsWide.contents 2 ∈ twoRowsWide.dropped 1 1 := List.mem_singleton.mpr rfl
  exact absurd (hlost _ hrow) (by decide)

end VS
