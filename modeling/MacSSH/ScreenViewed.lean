import MacSSH.ScreenView

/-! The line and the row number that the view starts with stay in step over whole
runs, as long as every operation meets its condition. -/
namespace VS

open Linked

/-- The account the view needs: no more lines are counted than are above the rows,
the scrollback starts in the list, and a ring starts with it. A screen that does
not save its lines is a ring. -/
structure Tally (b : VSbuf) (e : Option Ptr) (pre : List Ptr) : Prop where
  numlines_nonneg : 0 ≤ b.numlines
  numlines_le : b.numlines ≤ 32767
  enough : b.numlines ≤ pre.length
  member : b.savelines = true → b.buftop ∈ pre ++ b.linest
  first : b.savelines = true → e = none → b.buftop = (pre ++ b.linest).headD NULL
  unsaved : b.savelines = false → b.numlines = 0 ∧ e = none

/-- The view starts with a line of the list and ends within 16 bits. -/
structure Viewed (b : VSbuf) (pre : List Ptr) : Prop where
  vistop : b.vistop = lineAt pre b.linest b.Rtop
  above : -b.numlines ≤ b.Rtop
  below : b.Rtop ≤ b.lines
  height_nonneg : b.Rtop ≤ b.Rbottom
  height : b.Rbottom-b.Rtop ≤ 32767
  bits : b.Rbottom ≤ 32767

/-- What holds along a run while the screen has rows. -/
structure Followed (b : VSbuf) : Prop where
  list : ∃ e pre post, (e = some NULL ∨ e = none) ∧ Threaded b e pre post ∧ Tally b e pre ∧
    Viewed b pre
  linked : b.oldScrollback = false
  lines_lt : b.lines < 32767

section Frame
variable {b b' : VSbuf} {e : Option Ptr} {pre post : List Ptr}

theorem Followed.inView (hf : Followed b) : InView b := by
  obtain ⟨e, pre, post, -, hth, ht, hv⟩ := hf.list
  have henough := ht.enough
  have habove := hv.above
  exact ⟨hv.vistop.trans (hth.viewLine (by omega) hv.below).symm, habove, hv.below⟩

theorem Tally.of_rows (ht : Tally b e pre) (hb : SameRows b b') (hc : SameCount b b') :
    Tally b' e pre := by
  obtain ⟨h1, h2, h3, h4, h5, h6⟩ := ht
  constructor
  · rwa [hc.numlines]
  · rwa [hc.numlines]
  · rwa [hc.numlines]
  · rwa [hb.savelines, hc.buftop, hb.linest]
  · rwa [hb.savelines, hc.buftop, hb.linest]
  · rwa [hb.savelines, hc.numlines]

/-- The account while the rows are put in another order, in a ring without lines
above them as long as the first one stays. -/
theorem Tally.of_perm (ht : Tally b e pre) (hsize : SameSize b b') (hc : SameCount b b')
    (hperm : b'.linest.Perm b.linest)
    (hfirst : b.savelines = true → e = none →
      pre ≠ [] ∨ b'.linest.headD NULL = b.linest.headD NULL) : Tally b' e pre := by
  obtain ⟨h1, h2, h3, h4, h5, h6⟩ := ht
  constructor
  · rwa [hc.numlines]
  · rwa [hc.numlines]
  · rwa [hc.numlines]
  · intro hs
    rw [hsize.savelines] at hs
    rw [hc.buftop]
    simpa only [List.mem_append, hperm.mem_iff] using h4 hs
  · intro hs he
    rw [hsize.savelines] at hs
    rw [hc.buftop, h5 hs he]
    rcases eq_or_ne pre [] with rfl | hpre
    · exact ((hfirst hs he).resolve_left (fun hn => hn rfl)).symm
    · rw [headD_append_of_ne_nil NULL hpre, headD_append_of_ne_nil NULL hpre]
  · rwa [hsize.savelines, hc.numlines]

/-- A view that starts with the screen. -/
theorem Viewed.of_top (h : Threaded b e pre post) (ht : Tally b e pre) (hv : b.vistop = b.scrntop)
    (hr : b.Rtop = 0) (h0 : 0 ≤ b.Rbottom) (hlt : b.Rbottom ≤ 32767) : Viewed b pre := by
  have hn := ht.numlines_nonneg
  have hl := h.lines_nonneg
  refine ⟨?_, by omega, by omega, by omega, by omega, hlt⟩
  rw [hr, h.lineAt_zero, hv]

/-- Moving the view keeps the list. -/
theorem followed_viewOnly (hf : Followed b) (hb : ViewOnly b b')
    (hv : ∀ e pre post, Threaded b e pre post → Tally b e pre → Viewed b pre → Viewed b' pre) :
    Followed b' := by
  obtain ⟨e, pre, post, he, hth, ht, hview⟩ := hf.list
  refine ⟨⟨e, pre, post, he, ?_, ht.of_rows hb.toSameRows hb.toSameCount,
    hv e pre post hth ht hview⟩,
    hb.oldScrollback.trans hf.linked, ?_⟩
  · apply hth.of_links hb.toSameRows
    · rw [hb.mem]
    · rw [hb.mem]
  · rw [hb.lines]
    exact hf.lines_lt

theorem followed_other (hf : Followed b) (hb : SameView b b') : Followed b' := by
  obtain ⟨e, pre, post, he, hth, ht, ⟨h1, h2, h3, h4, h5, h6⟩⟩ := hf.list
  refine ⟨⟨e, pre, post, he, hth.of_links hb.toSameRows hb.links hb.brk,
    ht.of_rows hb.toSameRows hb.toSameCount, ?_⟩, hb.oldScrollback.trans hf.linked, ?_⟩
  · constructor
    · rw [hb.vistop, hb.linest, hb.Rtop]
      exact h1
    · rwa [hb.numlines, hb.Rtop]
    · rwa [hb.lines, hb.Rtop]
    · rwa [hb.Rbottom, hb.Rtop]
    · rwa [hb.Rbottom, hb.Rtop]
    · rwa [hb.Rbottom]
  · rw [hb.lines]
    exact hf.lines_lt

end Frame

section Moving
variable {b : VSbuf} {e : Option Ptr} {pre post : List Ptr}

theorem VSscrolback_viewed (h : Threaded b e pre post) (ht : Tally b e pre) (hv : Viewed b pre)
    (n : Int) : Viewed (VSscrolback b n) pre := by
  obtain ⟨h1, h2, h3, h4, h5, h6⟩ := hv
  have hn := ht.numlines_le
  have henough := ht.enough
  rw [VSscrolback]
  generalize hm : (if b.numlines < n-b.Rtop then short (b.Rtop+b.numlines) else n) = m
  -- the view moves by no more lines than are counted above it
  have hle : m ≤ b.Rtop+b.numlines := by
    have hs := short_range (b.Rtop+b.numlines)
    rw [← hm]
    split_ifs with hc
    · by_cases hbig : b.Rtop+b.numlines ≤ 32767
      · rw [short_eq (by omega) hbig]
      · omega
    · omega
  split_ifs with h0
  · exact ⟨h1, h2, h3, h4, h5, h6⟩
  · have ht' : short (b.Rtop-m) = b.Rtop-m := short_eq (by omega) (by omega)
    have hb' : short (b.Rbottom-m) = b.Rbottom-m := short_eq (by omega) (by omega)
    refine ⟨?_, ?_, ?_, ?_, ?_, ?_⟩
    · simp only [ht']
      have hcast : b.Rtop-m = b.Rtop-(m.toNat : Int) := by omega
      rw [h1, hcast]
      exact h.lineAt_prev (by omega) h3
    all_goals
      simp only [ht', hb']
      omega

theorem VSscrolforward_viewed (h : Threaded b e pre post) (ht : Tally b e pre) (hv : Viewed b pre)
    (hlt : b.lines < 32767) (n : Int) : Viewed (VSscrolforward b n) pre := by
  obtain ⟨h1, h2, h3, h4, h5, h6⟩ := hv
  have hn := ht.numlines_le
  have henough := ht.enough
  rw [VSscrolforward]
  generalize hm : (if n > b.lines-b.Rbottom then short (b.lines-b.Rbottom) else n) = m
  -- the view moves no further than to the last row
  have hle : m ≤ 0 ∨ m ≤ b.lines-b.Rbottom := by
    have hs := short_range (b.lines-b.Rbottom)
    rw [← hm]
    split_ifs with hc
    · by_cases hbig : b.lines-b.Rbottom ≤ 32767
      · right
        rw [short_eq (by omega) hbig]
      · left
        rw [short, Int.bmod_def]
        split_ifs <;> omega
    · right
      omega
  split_ifs with h0
  · exact ⟨h1, h2, h3, h4, h5, h6⟩
  · have ht' : short (m+b.Rtop) = m+b.Rtop := short_eq (by omega) (by omega)
    have hb' : short (m+b.Rbottom) = m+b.Rbottom := short_eq (by omega) (by omega)
    refine ⟨?_, ?_, ?_, ?_, ?_, ?_⟩
    · simp only [ht']
      have hcast : m+b.Rtop = b.Rtop+(m.toNat : Int) := by omega
      rw [h1, hcast]
      exact h.lineAt_next (by omega) (by omega)
    all_goals
      simp only [ht', hb']
      omega

/-- Setting a region that is not empty. -/
theorem VSsetrgn_viewed (h : Threaded b e pre post) (ht : Tally b e pre) (hv : Viewed b pre)
    (hlt : b.lines < 32767) (maxwidth x1 x2 : Int) {y1 y2 : Int} (h0 : 0 ≤ y2-y1)
    (hheight : y2-y1 ≤ 32767) (hbot : b.Rtop+(y2-y1) ≤ 32767) :
    Viewed (VSsetrgn b maxwidth x1 y1 x2 y2) pre := by
  obtain ⟨h1, h2, h3, h4, h5, h6⟩ := hv
  have hn := ht.numlines_le
  have hshort : short (b.Rtop+(y2-y1)) = b.Rtop+(y2-y1) := short_eq (by omega) hbot
  simp only [VSsetrgn, hshort]
  generalize hb' : ({ b with
    Rbottom := b.Rtop+(y2-y1)
    Rleft := short (x1-columnShift maxwidth x1 x2)
    Rright := short (x2-columnShift maxwidth x1 x2) } : VSbuf) = b'
  have hth' : Threaded b' e pre post := by
    rw [← hb']
    exact h.of_links ⟨rfl, rfl, rfl, rfl, rfl, rfl⟩ rfl rfl
  have ht' : Tally b' e pre := by
    rw [← hb']
    exact ht.of_rows ⟨rfl, rfl, rfl, rfl, rfl, rfl⟩ ⟨rfl, rfl⟩
  have hv' : Viewed b' pre := by
    rw [← hb']
    constructor
    · exact h1
    · exact h2
    · exact h3
    all_goals
      simp only
      omega
  have hlt' : b'.lines < 32767 := by
    rw [← hb']
    exact hlt
  split_ifs
  · exact VSscrolback_viewed hth' ht' hv' _
  · exact VSscrolforward_viewed hth' ht' hv' hlt' _
  · exact hv'
  · exact VSscrolback_viewed hth' ht' hv' _
  · exact VSscrolforward_viewed hth' ht' hv' hlt' _
  · exact hv'

/-- Bringing the cursor into view. -/
theorem VSIcursonMoving_viewed (h : Threaded b e pre post) (ht : Tally b e pre) (hv : Viewed b pre)
    (hlt : b.lines < 32767) (maxwidth x y : Int) : Viewed (VSIcursonMoving b maxwidth x y) pre := by
  have h4 := hv.height_nonneg
  have h5 := hv.height
  have h6 := hv.bits
  have hshort : short (b.Rbottom-b.Rtop) = b.Rbottom-b.Rtop := short_eq (by omega) h5
  simp only [VSIcursonMoving, hshort]
  split_ifs
  · exact hv
  · apply VSsetrgn_viewed h ht hv hlt
    all_goals omega
  · exact VSscrolforward_viewed h ht hv hlt _
  · exact VSscrolback_viewed h ht hv _

end Moving

section Shift
variable {b b₁ : VSbuf} {e : Option Ptr} {pre post : List Ptr}

/-- In the list that goes on with the line after the last row, every line links to
the next one. -/
theorem Threaded.next_getD (h : Threaded b e pre post) {i : ℕ}
    (hi : i < (pre ++ b.linest).length) :
    b.next ((pre ++ b.linest ++ [b.next b.lastRow]).getD i NULL) =
      (pre ++ b.linest ++ [b.next b.lastRow]).getD (i+1) NULL := by
  have hseg := ((seg_append _ _ _ (pre ++ b.linest) post).mp h.strand.seg).1
  rw [List.getD_append _ _ _ _ hi]
  by_cases hlast : i+1 < (pre ++ b.linest).length
  · rw [List.getD_append _ _ _ _ hlast]
    exact seg_next_iterate hseg NULL i 1 hlast
  · have hlen : i+1 = (pre ++ b.linest).length := by omega
    rw [List.getD_append_right _ _ _ _ hlen.ge, hlen, Nat.sub_self, h.lastRow_eq]
    have hi' : i = (pre ++ b.linest).length-1 := by omega
    rw [hi', List.getD_eq_getElem?_getD, ← List.getLast?_eq_getElem?, ← List.getLastD_eq_getLast?,
      getLastD_append_of_ne_nil NULL h.linest_ne_nil]
    rfl

/-- Where the lines are after the rows have moved on by one: each is found one row
higher, and in its place the one that followed it. -/
theorem Threaded.shift_lineAt {pre' post' : List Ptr} (h : Threaded b e pre post)
    (hrows : (shiftUp b).linest = b.linest.tail ++ [b.next b.lastRow])
    (hcase : (post = b.next b.lastRow :: post' ∧ pre' = pre ++ [b.scrntop]) ∨
      (e = none ∧ post = [] ∧ post' = [] ∧ pre' = (pre ++ [b.scrntop]).tail))
    {k : Int} (hk : -(pre.length : Int) ≤ k) (hk' : k ≤ b.lines) :
    lineAt pre' (shiftUp b).linest k = b.next (lineAt pre b.linest k) ∧
      (-(pre'.length : Int) ≤ k-1 →
        lineAt pre' (shiftUp b).linest (k-1) = lineAt pre b.linest k) := by
  obtain ⟨s, rs, hcons⟩ := List.exists_cons_of_ne_nil h.linest_ne_nil
  have htop : b.scrntop = s := by rw [h.top, hcons, List.headD_cons]
  have hlen := h.length
  generalize hM : pre ++ b.linest ++ [b.next b.lastRow] = M
  -- both cases are `M`, with or without its first line
  have hall : pre ++ [s] ++ (rs ++ [b.next b.lastRow]) = M := by
    rw [← hM, hcons]
    simp
  have hfind : ∀ j : Int, -(pre'.length : Int) ≤ j → -(pre.length : Int) ≤ j+1 →
      lineAt pre' (shiftUp b).linest j = M.getD (pre.length+(j+1)).toNat NULL := by
    intro j hj hj'
    rw [lineAt, hrows, hcons, List.tail_cons]
    rcases hcase with ⟨-, hpre⟩ | ⟨-, -, -, hpre⟩
    · have hi : (pre'.length+j).toNat = (pre.length+(j+1)).toNat := by
        rw [hpre, List.length_append, List.length_singleton]
        omega
      rw [hi, hpre, htop, hall]
    · have htail : pre' ++ (rs ++ [b.next b.lastRow]) = M.tail := by
        rw [hpre, htop, ← hall]
        cases pre <;> rfl
      have hlen' : pre'.length = pre.length := by
        rw [hpre, List.length_tail, List.length_append, List.length_singleton, Nat.add_sub_cancel]
      have hi : (pre.length+(j+1)).toNat = (pre'.length+j).toNat+1 := by omega
      rw [htail, hi, List.getD_eq_getElem?_getD, List.getD_eq_getElem?_getD, List.getElem?_tail]
  have hlt : (pre.length+k).toNat < (pre ++ b.linest).length := by
    rw [List.length_append]
    omega
  have hold : lineAt pre b.linest k = M.getD (pre.length+k).toNat NULL := by
    rw [lineAt, ← hM, List.getD_append _ _ _ _ hlt]
  have hpre' : pre.length ≤ pre'.length := by
    rcases hcase with ⟨-, hpre⟩ | ⟨-, -, -, hpre⟩ <;> rw [hpre] <;> simp
  constructor
  · have hi : (pre.length+(k+1)).toNat = (pre.length+k).toNat+1 := by omega
    rw [hfind k (by omega) (by omega), hold, hi, ← hM, h.next_getD hlt]
  · intro hk1
    rw [hfind (k-1) hk1 (by omega), hold, Int.sub_add_cancel]

/-- A line that has been accounted for comes up: the account stays, and every line
of the view is found one row higher. -/
theorem Tally.shift (ht : Tally b e pre) (hsave : b.savelines = true) (hlt : b.numlines < 32767)
    (h : Threaded b₁ e pre post) (hb : SameRows b b₁) (hone : Accounted b b₁)
    (hgo : e = none ∨ post ≠ []) :
    ∃ pre' post', Threaded (shiftUp b₁) e pre' post' ∧ (post'.length+1 = post.length ∨ e = none) ∧
      Tally (shiftUp b₁) e pre' ∧ (shiftUp b₁).numlines ≤ b.numlines+1 ∧
      b.numlines ≤ (shiftUp b₁).numlines ∧
      ∀ k, -(pre.length : Int) ≤ k → k ≤ b.lines →
        lineAt pre' (shiftUp b₁).linest k = b₁.next (lineAt pre b.linest k) ∧
        (-(pre'.length : Int) ≤ k-1 →
          lineAt pre' (shiftUp b₁).linest (k-1) = lineAt pre b.linest k) := by
  obtain ⟨pre', post', hrows, hth, hcase⟩ := h.shift hgo
  have hsave₁ : (shiftUp b₁).savelines = true := hb.savelines.trans hsave
  have hmem := ht.member hsave
  have h0 := ht.numlines_nonneg
  have henough := ht.enough
  have hpos : ∀ k, -(pre.length : Int) ≤ k → k ≤ b.lines →
      lineAt pre' (shiftUp b₁).linest k = b₁.next (lineAt pre b.linest k) ∧
      (-(pre'.length : Int) ≤ k-1 →
        lineAt pre' (shiftUp b₁).linest (k-1) = lineAt pre b.linest k) := by
    intro k hk hk'
    rw [← hb.linest]
    exact h.shift_lineAt hrows hcase hk (hb.lines ▸ hk')
  rcases hcase with ⟨hpost, hpre⟩ | ⟨he, hpost, hpost', hpre⟩
  · have hne : pre ++ b₁.linest ≠ [] := List.append_ne_nil_of_right_ne_nil pre h.linest_ne_nil
    have hjoin := headD_append_tail pre (shiftUp b₁).linest h.linest_ne_nil
    rw [← h.top, hb.linest] at hjoin
    have hall : pre' ++ (shiftUp b₁).linest = pre ++ b.linest ++ [b₁.next b₁.lastRow] := by
      obtain ⟨s, rs, hcons⟩ := List.exists_cons_of_ne_nil h.linest_ne_nil
      rw [hpre, hrows, ← hb.linest, h.top, hcons]
      simp
    -- a line from below the screen is not the first one of the scrollback
    have hnew : b₁.next b₁.lastRow ≠ b.buftop := by
      intro he
      have hnd := h.strand.nodup
      rw [hb.linest] at hnd
      apply List.disjoint_of_nodup_append hnd hmem
      rw [hpost, he]
      exact List.mem_cons_self
    rcases hone with ⟨-, hbuf, hnum⟩ | ⟨he, -⟩
    · have hn : (shiftUp b₁).numlines = b.numlines+1 := hnum.trans (short_eq (by omega) (by omega))
      have hbuf' : (shiftUp b₁).buftop = b.buftop := hbuf
      refine ⟨pre', post', hth, Or.inl (by rw [hpost, List.length_cons]), ?_, hn.le, by omega, hpos⟩
      constructor
      · omega
      · omega
      · rw [hpre, List.length_append, List.length_singleton]
        push_cast
        omega
      · intro _
        rw [hall, hbuf']
        exact List.mem_append_left _ hmem
      · intro _ he
        rw [hpre, hjoin, hbuf']
        exact ht.first hsave he
      · intro hc
        exact absurd (hsave₁.symm.trans hc) Bool.false_ne_true.symm
    · exact absurd he hnew
  · subst he hpost
    have hacc : Account b (pre.length-b.numlines.toNat) pre :=
      ⟨ht.first hsave rfl, h0, by omega⟩
    obtain ⟨⟨hbuf, hnn, hnum⟩, hn⟩ := hacc.of_ring h hb hone hrows
    have hlen : ((pre ++ [b₁.scrntop]).tail.length : Int) = pre.length := by
      rw [List.length_tail, List.length_append, List.length_singleton, Nat.add_sub_cancel]
    refine ⟨pre', post', hth, Or.inr rfl, ?_, by omega, by omega, hpos⟩
    subst hpre
    constructor
    · omega
    · omega
    · omega
    · intro _
      rw [hbuf]
      exact headD_mem NULL (List.append_ne_nil_of_right_ne_nil _ hth.linest_ne_nil)
    · exact fun _ _ => hbuf
    · intro hc
      exact absurd (hsave₁.symm.trans hc) Bool.false_ne_true.symm

end Shift

section Scroll
variable {b : VSbuf} {e : Option Ptr} {pre post : List Ptr} {r : VSregion}

/-- What a step leaves of the view. -/
structure SamePlace (b b' : VSbuf) : Prop where
  vistop : b'.vistop = b.vistop
  Rtop : b'.Rtop = b.Rtop
  Rbottom : b'.Rbottom = b.Rbottom
  Rleft : b'.Rleft = b.Rleft
  Rright : b'.Rright = b.Rright

theorem advanceBuffer_samePlace (b : VSbuf) : SamePlace b (shiftUp (advanceBuffer b)) := by
  simp only [advanceBuffer]
  split_ifs <;> exact ⟨rfl, rfl, rfl, rfl, rfl⟩

theorem VSIcdellines_congr {b' : VSbuf} (hb : SamePlace b b') (maxwidth top bottom : Int) :
    VSIcdellines b' maxwidth top bottom = VSIcdellines b maxwidth top bottom := by
  simp only [VSIcdellines, VSIclip, hb.Rtop, hb.Rbottom, hb.Rleft, hb.Rright]

/-- The account in a list that was closed where the scrollback starts it. -/
theorem Tally.of_closed {e' : Option Ptr} (ht : Tally b e pre) (hsave : b.savelines = true)
    (hkind : e' = e ∨ Anchored b e pre) : Tally b e' pre := by
  rcases hkind with rfl | hanch
  · exact ht
  · refine ⟨ht.numlines_nonneg, ht.numlines_le, ht.enough, ht.member, ?_, ?_⟩
    · intro hs _
      by_cases he : e = none
      · exact ht.first hs he
      · exact hanch he
    · intro hc
      exact absurd (hsave.symm.trans hc) Bool.false_ne_true.symm

/-- The first line of an open list is the one no line is before. -/
theorem Threaded.anchored (h : Threaded b (some NULL) pre post) (hmem : b.buftop ∈ pre ++ b.linest)
    (hprev : b.prev b.buftop = NULL) : Anchored b (some NULL) pre := by
  intro _
  obtain ⟨A, B, hAB⟩ := List.append_of_mem hmem
  rcases List.eq_nil_or_concat A with rfl | ⟨A, a, rfl⟩
  · rw [hAB]
    rfl
  · -- otherwise the line before it is in the list
    have hlist : pre ++ b.linest ++ post = (A ++ [a]) ++ [b.buftop] ++ (B ++ post) := by
      rw [hAB]
      simp
    have hstr := h.strand
    rw [hlist] at hstr
    have hp : b.prev b.buftop = a := by
      have := hstr.middle.1
      rwa [getLastD_append_of_ne_nil _ (List.cons_ne_nil a [])] at this
    exfalso
    apply hstr.null_mem
    rw [← hprev, hp]
    simp

theorem Tally.anchored (ht : Tally b e pre) (he : e = some NULL ∨ e = none)
    (h : Threaded b e pre post) (hsave : b.savelines = true) (hprev : b.prev b.buftop = NULL) :
    Anchored b e pre := by
  rcases he with rfl | rfl
  · exact h.anchored (ht.member hsave) hprev
  · exact nofun

/-- The view after a scroll has moved the rows on by one: it stays on its line, one
row higher, or moves on to the next line. -/
theorem scrollVisible_viewed {b₁ : VSbuf} {pre' : List Ptr} (hv : Viewed b pre)
    (hle : b.numlines ≤ b₁.numlines) (ht : Tally b₁ e pre') (hplace : SamePlace b b₁)
    (hlines : b₁.lines = b.lines)
    (hnext : lineAt pre' b₁.linest b.Rtop = b₁.next (lineAt pre b.linest b.Rtop))
    (hrow : -(pre'.length : Int) ≤ b.Rtop-1 →
      lineAt pre' b₁.linest (b.Rtop-1) = lineAt pre b.linest b.Rtop) :
    Viewed (scrollVisible r b₁) pre' ∧ (scrollVisible r b₁).Rtop ≤ b.Rtop ∧
      (VSIcdellines b r.maxwidth b.Rtop r.bottom = true → 0 < b.Rtop →
        (scrollVisible r b₁).Rtop < b.Rtop) := by
  obtain ⟨h1, h2, h3, h4, h5, h6⟩ := hv
  have hn := ht.numlines_le
  have henough := ht.enough
  have h0 := ht.numlines_nonneg
  have hcong : VSIcdellines b₁ r.maxwidth b₁.Rtop r.bottom =
      VSIcdellines b r.maxwidth b.Rtop r.bottom := by
    rw [VSIcdellines_congr hplace, hplace.Rtop]
  rw [scrollVisible, hcong]
  -- the view moves on to the line that is now in its row
  have hmoved : Viewed { b₁ with vistop := b₁.next b₁.vistop } pre' := by
    constructor
    · change b₁.next b₁.vistop = lineAt pre' b₁.linest b₁.Rtop
      rw [hplace.vistop, hplace.Rtop, h1, hnext]
    · change -b₁.numlines ≤ b₁.Rtop
      rw [hplace.Rtop]
      omega
    · change b₁.Rtop ≤ b₁.lines
      rw [hplace.Rtop, hlines]
      exact h3
    · change b₁.Rtop ≤ b₁.Rbottom
      rwa [hplace.Rtop, hplace.Rbottom]
    · change b₁.Rbottom-b₁.Rtop ≤ 32767
      rwa [hplace.Rtop, hplace.Rbottom]
    · change b₁.Rbottom ≤ 32767
      rwa [hplace.Rbottom]
  by_cases hc : VSIcdellines b r.maxwidth b.Rtop r.bottom = true
  · rw [if_pos hc]
    by_cases hup : b₁.Rtop > -b₁.numlines
    · rw [if_pos hup]
      rw [hplace.Rtop] at hup
      have ht' : short (b₁.Rtop-1) = b.Rtop-1 := by
        rw [hplace.Rtop]
        exact short_eq (by omega) (by omega)
      have hb' : short (b₁.Rbottom-1) = b.Rbottom-1 := by
        rw [hplace.Rbottom]
        exact short_eq (by omega) (by omega)
      refine ⟨?_, ?_, ?_⟩
      · constructor
        · simp only [ht']
          rw [hplace.vistop, h1, hrow (by omega)]
        · simp only [ht']
          omega
        · simp only [ht', hlines]
          omega
        · simp only [ht', hb']
          omega
        · simp only [ht', hb']
          omega
        · simp only [hb']
          omega
      · simp only [ht']
        omega
      · intro _ _
        simp only [ht']
        omega
    · rw [if_neg hup]
      rw [hplace.Rtop] at hup
      refine ⟨hmoved, hplace.Rtop.le, ?_⟩
      intro _ hpos
      omega
  · rw [if_neg hc]
    exact ⟨hmoved, hplace.Rtop.le, fun hc' => absurd hc' hc⟩

theorem exchangeRows_getD (rows : List Ptr) {i j k l : ℕ} (hl : l < i) (hi : i ≤ rows.length) :
    (exchangeRows i j k rows).getD l NULL = rows.getD l NULL := by
  have hlt : l < (rows.take i).length := by
    rw [List.length_take]
    omega
  rw [exchangeRows, List.append_assoc, List.getD_append _ _ _ _ hlt, List.getD_eq_getElem?_getD,
    List.getElem?_take_of_lt hl, List.getD_eq_getElem?_getD]

/-- Exchanging blocks of rows below the row that the view starts with keeps it. -/
theorem lineAt_exchange {rows : List Ptr} {i : ℕ} (j k : ℕ) {n : Int} (hn : -(pre.length : Int) ≤ n)
    (hlt : n < i) (hi : i ≤ rows.length) :
    lineAt pre (exchangeRows i j k rows) n = lineAt pre rows n := by
  by_cases hneg : n < 0
  · exact lineAt_above hneg hn
  · have hidx : (pre.length+n).toNat = pre.length+n.toNat := by omega
    rw [lineAt, lineAt, hidx, List.getD_append_right _ _ _ _ (Nat.le_add_right _ _),
      List.getD_append_right _ _ _ _ (Nat.le_add_right _ _), Nat.add_sub_cancel_left,
      exchangeRows_getD rows (by omega) hi]

theorem rotateBelow_samePlace (b : VSbuf) (bottom : Int) :
    SamePlace b (VSIlistndx (rotateBelow b bottom) (rotateBelow b bottom).scrntop) := by
  simp only [rotateBelow]
  split_ifs <;> exact ⟨rfl, rfl, rfl, rfl, rfl⟩

theorem scrolledUp_samePlace (r : VSregion) (b : VSbuf) :
    SamePlace (scrollVisible r (shiftUp b)) (scrolledUp r b) := ⟨rfl, rfl, rfl, rfl, rfl⟩

theorem Viewed.of_place {b' : VSbuf} (hv : Viewed b pre) (hp : SamePlace b b')
    (hrow : lineAt pre b'.linest b.Rtop = lineAt pre b.linest b.Rtop)
    (hn : b'.numlines = b.numlines) (hl : b'.lines = b.lines) : Viewed b' pre := by
  obtain ⟨h1, h2, h3, h4, h5, h6⟩ := hv
  constructor
  · rw [hp.vistop, hp.Rtop, hrow]
    exact h1
  · rwa [hn, hp.Rtop]
  · rwa [hl, hp.Rtop]
  · rwa [hp.Rbottom, hp.Rtop]
  · rwa [hp.Rbottom, hp.Rtop]
  · rwa [hp.Rbottom]

/-- A scroll that saves the top row keeps the view in step. -/
theorem followed_scroll_saving (hf : Followed b) (hr : Legal r b) (hsaves : Saves r b)
    (hP : ScrollInStep r b) : Followed (VSIscroll r b) := by
  obtain ⟨e, pre, post, he, hth, ht, hv⟩ := hf.list
  obtain ⟨hy, hsave, htop⟩ := hsaves
  obtain ⟨hcount, hcloses, hrows⟩ := hP
  have hns : ¬(b.savelines = false ∨ r.top ≠ 0) := by
    rw [hsave, htop]
    simp
  rw [VSIscroll_saving (not_lt.mpr hy) hf.linked hns]
  obtain ⟨hsame, hone, e', post₁, hext, hclosed⟩ := advanceBuffer_spec hth hf.linked
    (fun _ => ht.member hsave) (fun hc => ht.anchored he hth hsave (hcloses hc))
  have he' := kind_trans he hext.kind
  have ht' : Tally b e' pre := ht.of_closed hsave hclosed
  obtain ⟨pre', post', hth₁, -, ht₁, -, hle, hpos⟩ :=
    ht'.shift hsave hcount hext.threaded hsame hone hext.nonempty
  have habove := hv.above
  have henough := ht.enough
  obtain ⟨hnext, hup⟩ := hpos b.Rtop (by omega) hv.below
  have hplace := advanceBuffer_samePlace b
  have hlines : (shiftUp (advanceBuffer b)).lines = b.lines := hsame.lines
  obtain ⟨hview, htop', hless⟩ := scrollVisible_viewed (r := r) hv hle ht₁ hplace hlines hnext hup
  obtain ⟨hrows₂, hcount₂, hlinks₂, hbrk₂⟩ := scrolledUp_frame r (advanceBuffer b)
  obtain ⟨hvrows, hvcount, -⟩ := scrollVisible_frame r (shiftUp (advanceBuffer b))
  have hth₂ := hth₁.of_links hrows₂ hlinks₂ hbrk₂
  have ht₂ := ht₁.of_rows hrows₂ hcount₂
  have hp₂ := scrolledUp_samePlace r (advanceBuffer b)
  have hv₂ : Viewed (scrolledUp r (advanceBuffer b)) pre' := by
    apply hview.of_place hp₂
    · rw [hrows₂.linest, hvrows.linest]
    · rw [hcount₂.numlines, hvcount.numlines]
    · rw [hrows₂.lines, hvrows.lines]
  have hlines₂ : (scrolledUp r (advanceBuffer b)).lines = b.lines := hrows₂.lines.trans hlines
  have hold₂ : (scrolledUp r (advanceBuffer b)).oldScrollback = false :=
    hrows₂.oldScrollback.trans (hsame.oldScrollback.trans hf.linked)
  rw [← hp₂.Rtop] at htop' hless
  generalize scrolledUp r (advanceBuffer b) = b₂ at hth₂ ht₂ hv₂ hlines₂ hold₂ htop' hless
  have hlt₂ : b₂.lines < 32767 := hlines₂ ▸ hf.lines_lt
  by_cases hbot : r.bottom = b₂.lines
  · rw [if_neg (not_not.mpr hbot)]
    exact ⟨⟨e', pre', post', he', hth₂, ht₂, hv₂⟩, hold₂, hlt₂⟩
  · rw [if_pos hbot]
    have hpos₂ := hr.bottom_pos
    have hle₂ := hr.bottom_le
    have hlen₂ := hth₂.length
    -- the view starts above the rows that turn
    have hlow : b₂.Rtop < r.bottom := by
      rcases hrows with hl | hl | ⟨hl, hc⟩
      · omega
      · omega
      · have := hless hc (by omega)
        omega
    have hpos₃ : 0 < r.bottom := by omega
    have hlt₃ : r.bottom < b₂.lines := by omega
    obtain ⟨hrot, hth₃⟩ := rotateBelow_rows hth₂ hpos₃.le hlt₃ (Or.inl hpos₃)
    obtain ⟨hsz, hct, -⟩ := rotateBelow_frame b₂ r.bottom
    have hp₃ := rotateBelow_samePlace b₂ r.bottom
    have hperm := exchangeRows_perm b₂.linest (i := r.bottom.toNat) (j := b₂.lines.toNat)
      (k := (b₂.lines+1).toNat) (by omega) (by omega)
    have habove₂ := hv₂.above
    have henough₂ := ht₂.enough
    have hv₃ : Viewed (VSIlistndx (rotateBelow b₂ r.bottom) (rotateBelow b₂ r.bottom).scrntop)
        pre' := by
      apply hv₂.of_place hp₃
      · rw [hrot]
        exact lineAt_exchange _ _ (by omega) (by omega) (by omega)
      · exact hct.numlines
      · exact hsz.lines
    have ht₃ : Tally (VSIlistndx (rotateBelow b₂ r.bottom) (rotateBelow b₂ r.bottom).scrntop)
        e' pre' := by
      have hsz₃ : SameSize b₂ (VSIlistndx (rotateBelow b₂ r.bottom)
          (rotateBelow b₂ r.bottom).scrntop) :=
        ⟨hsz.lines, hsz.maxlines, hsz.savelines, hsz.oldScrollback⟩
      apply ht₂.of_perm hsz₃ ⟨hct.buftop, hct.numlines⟩
      · rw [hrot]
        exact hperm
      · intro _ _
        rw [hrot, exchangeRows_headD _ _ _ (by omega)]
        exact Or.inr rfl
    refine ⟨⟨e', pre', post', he', hth₃, ht₃, hv₃⟩, ?_, ?_⟩
    · exact hsz.oldScrollback.trans hold₂
    · exact hsz.lines.symm ▸ hlt₂

end Scroll

section Edit
variable {b : VSbuf} {e : Option Ptr} {pre post : List Ptr} {r : VSregion} {n s : Int}

/-- The view after an operation that keeps the visible rows in place. -/
structure Synced (b b' : VSbuf) : Prop where
  vistop : b'.vistop = if b.Rtop ≥ 0 then b'.row b.Rtop else b.vistop
  Rtop : b'.Rtop = b.Rtop
  Rbottom : b'.Rbottom = b.Rbottom

theorem syncVisible_synced {b b₁ : VSbuf} (hb : SamePlace b b₁) : Synced b (syncVisible b₁) := by
  have hr := hb.Rtop
  rw [syncVisible]
  split_ifs with hc
  · refine ⟨?_, hr, hb.Rbottom⟩
    rw [if_pos (hr ▸ hc), ← hr]
    rfl
  · refine ⟨?_, hr, hb.Rbottom⟩
    rw [if_neg (hr ▸ hc)]
    exact hb.vistop

theorem moveUnlessAdjacent_samePlace (b : VSbuf) (TD BD TI BI : Ptr) :
    SamePlace b (moveUnlessAdjacent b TD BD TI BI) := by
  rw [moveUnlessAdjacent]
  split_ifs <;> exact ⟨rfl, rfl, rfl, rfl, rfl⟩

theorem VSIdellines_synced (r : VSregion) (n s : Int) (hold : b.oldScrollback = false) :
    Synced b (VSIdellines r b n s) := by
  rw [VSIdellines, if_neg (by rw [hold]; exact Bool.false_ne_true)]
  apply syncVisible_synced
  obtain ⟨h1, h2, h3, h4, h5⟩ := moveUnlessAdjacent_samePlace b (b.row (startRow r s))
    (b.row (startRow r s+clipCount r n (startRow r s)-1)) (b.row r.bottom)
    (b.next (b.row r.bottom))
  exact ⟨h1, h2, h3, h4, h5⟩

theorem VSIinslines_synced (r : VSregion) (n s : Int) (hold : b.oldScrollback = false) :
    Synced b (VSIinslines r b n s) := by
  rw [VSIinslines, if_neg (by rw [hold]; exact Bool.false_ne_true)]
  apply syncVisible_synced
  obtain ⟨h1, h2, h3, h4, h5⟩ := moveUnlessAdjacent_samePlace b
    (b.row (r.bottom-clipCount r n (startRow r s)+1)) (b.row r.bottom)
    (b.prev (b.row (startRow r s))) (b.row (startRow r s))
  exact ⟨h1, h2, h3, h4, h5⟩

theorem deletedRows_perm {bottom : Int} (rows : List Ptr) (h0 : 0 ≤ s) (hn : 1 ≤ n) :
    (deletedRows bottom n s rows).Perm rows := by
  rw [deletedRows]
  split_ifs with hle
  · exact exchangeRows_perm rows (by omega) (by omega)
  · exact List.Perm.refl _

theorem insertedRows_perm {bottom : Int} (rows : List Ptr) (h0 : 0 ≤ s) (hn : 1 ≤ n) :
    (insertedRows bottom n s rows).Perm rows := by
  rw [insertedRows]
  split_ifs with hle
  · exact exchangeRows_perm rows (by omega) (by omega)
  · exact List.Perm.refl _

/-- A change of the order of the rows keeps the view in step. -/
theorem followed_edit {b' : VSbuf} (he : e = some NULL ∨ e = none) (hth : Threaded b' e pre post)
    (ht : Tally b' e pre) (hv : Viewed b pre) (hsize : SameSize b b') (hc : SameCount b b')
    (hs : Synced b b') (hf : Followed b) : Followed b' := by
  obtain ⟨h1, h2, h3, h4, h5, h6⟩ := hv
  have henough := ht.enough
  have hn := hc.numlines
  refine ⟨⟨e, pre, post, he, hth, ht, ?_⟩, hsize.oldScrollback.trans hf.linked, ?_⟩
  · constructor
    · rw [hs.vistop, hs.Rtop]
      split_ifs with h0
      · exact (lineAt_row h0).symm
      · rw [h1]
        exact lineAt_above (by omega) (by omega)
    · rwa [hn, hs.Rtop]
    · rwa [hsize.lines, hs.Rtop]
    · rwa [hs.Rbottom, hs.Rtop]
    · rwa [hs.Rbottom, hs.Rtop]
    · rwa [hs.Rbottom]
  · rw [hsize.lines]
    exact hf.lines_lt

/-- No walk along a ring ends. -/
theorem Threaded.walk_ne_null (h : Threaded b none pre post) (k : ℕ) :
    b.next^[k] b.scrntop ≠ NULL := by
  have hmem : b.next^[k] b.scrntop ∈ pre ++ b.linest ++ post := by
    induction k with
    | zero =>
      rw [Function.iterate_zero_apply, h.top]
      exact List.mem_append_left _ (List.mem_append_right _ (headD_mem NULL h.linest_ne_nil))
    | succ k ih =>
      rw [Function.iterate_succ_apply']
      exact h.strand.next_mem ih
  exact fun hn => h.strand.null_mem (hn ▸ hmem)

/-- In a ring the first row stays, or lines are above it. -/
theorem EditInStep.cases (hP : EditInStep r b n s) (h : Threaded b e pre post) (ht : Tally b e pre)
    (hsave : b.savelines = true) (he : e = none) :
    pre ≠ [] ∨ startRow r s ≠ 0 ∨ r.bottom < n := by
  subst he
  refine (hP hsave h.walk_ne_null).imp_left (fun hne hpre => hne ?_)
  rw [ht.first hsave rfl, h.top, hpre, List.nil_append]

theorem followed_delete (hf : Followed b) (hon : OnScreen r b s) (hn : 1 ≤ n)
    (hP : EditInStep r b n s) : Followed (VSIdellines r b n s) := by
  obtain ⟨e, pre, post, he, hth, ht, hv⟩ := hf.list
  obtain ⟨hrows, hth'⟩ := VSIdellines_rows hth hf.linked hon hn
  obtain ⟨hsize, hcount⟩ := VSIdellines_frame r n s hf.linked
  have ht' : Tally (VSIdellines r b n s) e pre := by
    apply ht.of_perm hsize hcount
    · rw [hrows]
      exact deletedRows_perm _ hon.row_nonneg hn
    · intro hs hnone
      refine (hP.cases hth ht hs hnone).imp_right (fun hk => ?_)
      rw [hrows, deletedRows_headD _ hon.row_nonneg hk]
  exact followed_edit he hth' ht' hv hsize hcount (VSIdellines_synced r n s hf.linked) hf

theorem followed_insert (hf : Followed b) (hon : OnScreen r b s) (hn : 1 ≤ n)
    (hP : EditInStep r b n s) : Followed (VSIinslines r b n s) := by
  obtain ⟨e, pre, post, he, hth, ht, hv⟩ := hf.list
  obtain ⟨hrows, hth'⟩ := VSIinslines_rows hth hf.linked hon hn
  obtain ⟨hsize, hcount⟩ := VSIinslines_frame r n s hf.linked
  have ht' : Tally (VSIinslines r b n s) e pre := by
    apply ht.of_perm hsize hcount
    · rw [hrows]
      exact insertedRows_perm _ hon.row_nonneg hn
    · intro hs hnone
      refine (hP.cases hth ht hs hnone).imp_right (fun hk => ?_)
      rw [hrows, insertedRows_headD _ hon.row_nonneg hk]
  exact followed_edit he hth' ht' hv hsize hcount (VSIinslines_synced r n s hf.linked) hf

/-- A scroll keeps the view in step. Where it saves no line it is a deletion of the
first row of a region that does not start the screen, or of a screen that saves
none. -/
theorem followed_scroll (hf : Followed b) (hr : Legal r b) (hP : Saves r b → ScrollInStep r b) :
    Followed (VSIscroll r b) := by
  by_cases hy : r.y > b.lines
  · rw [VSIscroll, if_pos hy]
    exact hf
  by_cases hsave : b.savelines = false ∨ r.top ≠ 0
  · rw [VSIscroll, if_neg hy, if_neg (by rw [hf.linked]; exact Bool.false_ne_true), if_pos hsave]
    have hrow : startRow r r.top = r.top := if_neg (not_lt.mpr hr.top_nonneg)
    have hon : OnScreen r b r.top := by
      apply hr.onScreen
      · rw [hrow]
        exact hr.top_nonneg
      · rw [hrow]
        exact hr.top_le.trans hr.bottom_le
    apply followed_delete hf hon le_rfl
    intro hs _
    have htop : r.top ≠ 0 := hsave.resolve_left (fun hc => Bool.false_ne_true (hc.symm.trans hs))
    exact Or.inr (Or.inl (hrow.symm ▸ htop))
  · push Not at hsave
    have hsaves : Saves r b := ⟨not_lt.mp hy, Bool.eq_true_of_not_eq_false hsave.1, hsave.2⟩
    exact followed_scroll_saving hf hr hsaves (hP hsaves)

end Edit

section Save
variable {b : VSbuf} {e : Option Ptr} {pre post : List Ptr} {r : VSregion}

/-- Pushing one row into the scrollback keeps the account. -/
theorem pushRow_tally (h : Threaded b e pre post) (hold : b.oldScrollback = false)
    (hsave : b.savelines = true) (ht : Tally b e pre) (hlt : b.numlines < 32767)
    (hgo : e = none ∨ post ≠ []) :
    ∃ pre' post', Threaded (pushRow b) e pre' post' ∧ Tally (pushRow b) e pre' ∧
      (post'.length+1 = post.length ∨ e = none) ∧ (pushRow b).numlines ≤ b.numlines+1 ∧
      SameSize b (pushRow b) ∧ SamePlace b (pushRow b) := by
  rw [pushRow_eq hold]
  have hone : ∃ b₁, (if b.next b.lastRow = b.buftop then reuseOldest b else countLine b) = b₁ ∧
      SameRows b b₁ ∧ Accounted b b₁ ∧ Threaded b₁ e pre post ∧ SamePlace b b₁ := by
    refine ⟨_, rfl, ?_⟩
    split_ifs with hc
    · exact ⟨reuseOldest_sameRows b, Or.inr ⟨hc, rfl, rfl⟩, reuseOldest_threaded h,
        ⟨rfl, rfl, rfl, rfl, rfl⟩⟩
    · exact ⟨countLine_sameRows b, Or.inl ⟨hc, rfl, rfl⟩, countLine_threaded h,
        ⟨rfl, rfl, rfl, rfl, rfl⟩⟩
  obtain ⟨b₁, hb₁, hsame, hacc, hth, hp⟩ := hone
  rw [hb₁]
  obtain ⟨pre', post', hth', hpost, ht', hnum, -⟩ := ht.shift hsave hlt hth hsame hacc hgo
  exact ⟨pre', post', hth', ht', hpost, hnum,
    ⟨hsame.lines, hsame.maxlines, hsame.savelines, hsame.oldScrollback⟩,
    ⟨hp.vistop, hp.Rtop, hp.Rbottom, hp.Rleft, hp.Rright⟩⟩

theorem SamePlace.trans {b b' b'' : VSbuf} (h : SamePlace b b') (h' : SamePlace b' b'') :
    SamePlace b b'' :=
  ⟨h'.vistop.trans h.vistop, h'.Rtop.trans h.Rtop, h'.Rbottom.trans h.Rbottom,
    h'.Rleft.trans h.Rleft, h'.Rright.trans h.Rright⟩

theorem pushRow_iterate_tally (k : ℕ) {b : VSbuf} {pre post : List Ptr}
    (h : Threaded b e pre post) (hold : b.oldScrollback = false) (hsave : b.savelines = true)
    (ht : Tally b e pre) (hroom : b.numlines+k ≤ 32767) (hgo : e = none ∨ k ≤ post.length) :
    ∃ pre' post', Threaded (pushRow^[k] b) e pre' post' ∧ Tally (pushRow^[k] b) e pre' ∧
      SameSize b (pushRow^[k] b) ∧ SamePlace b (pushRow^[k] b) := by
  induction k generalizing b pre post with
  | zero => exact ⟨pre, post, h, ht, SameSize.refl b, ⟨rfl, rfl, rfl, rfl, rfl⟩⟩
  | succ k ih =>
    have hne : e = none ∨ post ≠ [] := by
      refine hgo.imp_right (fun hk => ?_)
      apply List.ne_nil_of_length_pos
      omega
    obtain ⟨pre', post', hth, ht', hpost, hnum, hsize, hplace⟩ :=
      pushRow_tally h hold hsave ht (by omega) hne
    have hgo' : e = none ∨ k ≤ post'.length := by
      rcases hgo with he | hk
      · exact Or.inl he
      · rcases hpost with hp | he
        · right
          omega
        · exact Or.inl he
    obtain ⟨pre'', post'', hth'', ht'', hsize', hplace'⟩ :=
      ih hth (hsize.oldScrollback.trans hold) (hsize.savelines.trans hsave) ht' (by omega) hgo'
    rw [Function.iterate_succ_apply]
    exact ⟨pre'', post'', hth'', ht'', hsize.trans hsize', hplace.trans hplace'⟩

theorem reserveScreen_samePlace (b : VSbuf) (fuel i : ℕ) (tmp : Ptr) :
    SamePlace b (reserveScreen b fuel i tmp) := by
  induction fuel generalizing i tmp with
  | zero => exact ⟨rfl, rfl, rfl, rfl, rfl⟩
  | succ fuel ih =>
    by_cases hend : b.next tmp = NULL
    · simp only [reserveScreen, if_pos hend]
      split_ifs <;> exact ⟨rfl, rfl, rfl, rfl, rfl⟩
    · simp only [reserveScreen, if_neg hend]
      exact ih _ _

/-- Saving the screen brings the view back to it. -/
theorem followed_scroff (hf : Followed b) (hP : ScroffInStep r b) : Followed (VSIscroff r b) := by
  by_cases hc : b.savelines = false ∨ r.top ≠ 0 ∨ r.bottom ≠ b.lines
  · rw [VSIscroff, if_pos hc]
    exact hf
  simp only [VSIscroff, if_neg hc]
  push Not at hc
  obtain ⟨hs, htop, hbot⟩ := hc
  have hsave : b.savelines = true := Bool.eq_true_of_not_eq_false hs
  obtain ⟨hroom, hcloses⟩ := hP hsave htop hbot
  obtain ⟨e, pre, post, he, hth, ht, hv⟩ := hf.list
  have h0 := hth.lines_nonneg
  obtain ⟨e', post', hres, hclosed⟩ := reserveScreen_spec hth hf.linked hf.lines_lt
    (fun hcl => ht.anchored he hth hsave (hcloses hcl))
  have hplace := reserveScreen_samePlace b (b.lines+1).toNat 0 b.lastRow
  have ht' : Tally (reserveScreen b (b.lines+1).toNat 0 b.lastRow) e' pre :=
    (ht.of_closed hsave hclosed).of_rows hres.same hres.count
  have henough : e' = none ∨ (b.lines+1).toNat ≤ post'.length := by
    refine hres.enough.imp_right (fun hl => ?_)
    omega
  have hth' := hres.threaded
  have hsize' := hres.same.size
  have hnum := hres.count.numlines
  have hkind := kind_trans he hres.kind
  generalize reserveScreen b (b.lines+1).toNat 0 b.lastRow = b₁ at hth' hsize' hnum ht' hplace ⊢
  obtain ⟨pre', post'', hth'', ht'', hsize'', hplace'⟩ := pushRow_iterate_tally (b.lines+1).toNat
    hth' (hsize'.oldScrollback.trans hf.linked) (hsize'.savelines.trans hsave) ht'
    (by rw [hnum]; omega) henough
  generalize pushRow^[(b.lines+1).toNat] b₁ = b₂ at hth'' hsize'' ht'' hplace' ⊢
  have hp := hplace.trans hplace'
  have h4 := hv.height_nonneg
  have h5 := hv.height
  let b₃ : VSbuf :=
    { b₂ with vistop := b₂.scrntop, Rbottom := short (b₂.Rbottom-b₂.Rtop), Rtop := 0 }
  have hheight : b₃.Rbottom = b.Rbottom-b.Rtop := by
    change short (b₂.Rbottom-b₂.Rtop) = _
    rw [hp.Rbottom, hp.Rtop]
    exact short_eq (by omega) h5
  have hrows : SameRows b₂ b₃ := ⟨rfl, rfl, rfl, rfl, rfl, rfl⟩
  have hth₃ : Threaded b₃ e' pre' post'' := hth''.of_links hrows rfl rfl
  have ht₃ : Tally b₃ e' pre' := ht''.of_rows hrows ⟨rfl, rfl⟩
  refine ⟨⟨e', pre', post'', hkind, hth₃, ht₃, ?_⟩,
    hsize''.oldScrollback.trans (hsize'.oldScrollback.trans hf.linked), ?_⟩
  · apply Viewed.of_top hth₃ ht₃ rfl rfl
    · rw [hheight]
      omega
    · rw [hheight]
      exact h5
  · rw [hsize''.lines, hsize'.lines]
    exact hf.lines_lt

end Save

end VS
