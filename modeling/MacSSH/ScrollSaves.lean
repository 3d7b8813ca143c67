import MacSSH.LineEdits
import MacSSH.ScrollbackBound

/-! What a scroll, and saving the screen, make of the rows and of the saved lines. -/
namespace VS

open Linked

/-- What the saved lines hold, the oldest first. -/
def VSbuf.history (b : VSbuf) : List Row := b.saved.map b.contents

/-- When a row goes to the scrollback, the oldest saved line goes: it follows the last
row, or the list ends there and nothing is allocated. -/
def DropsOldest (b : VSbuf) : Prop := b.next b.lastRow = b.buftop ∨ ClosesBehind b

instance (b : VSbuf) : Decidable (ClosesBehind b) := inferInstanceAs (Decidable (_ ∧ _))

instance (b : VSbuf) : Decidable (DropsOldest b) := inferInstanceAs (Decidable (_ ∨ _))

section Rows
variable {b b' : VSbuf} {e : Option Ptr} {pre post : List Ptr}

/-- The saved lines are the lines above the rows. -/
theorem Account.saved_eq (hacc : Account b 0 pre) (h : Threaded b e pre post) : b.saved = pre := by
  have hnum := hacc.numlines
  have h0 := hacc.numlines_nonneg
  have hlen : b.numlines.toNat = pre.length := by omega
  rcases eq_or_ne pre [] with rfl | hpre
  · rw [VSbuf.saved, hlen]
    rfl
  · have hs : Strand NULL b.mem.links e ([] ++ pre ++ (b.linest ++ post)) := by
      rw [List.nil_append, ← List.append_assoc]
      exact h.strand
    have hwalk := hs.walk hpre
    have hbuf : b.buftop = pre.headD NULL := by
      rw [hacc.buftop, headD_append_of_ne_nil NULL hpre]
    rw [← hbuf, ← hlen] at hwalk
    exact hwalk

/-- The links of a ring of rows after the last one has been taken to before the first. -/
theorem rotateBelow_ring_next (h : Threaded b none [] []) (hl : 0 < b.lines) :
    (rotateBelow b 0).mem.links.next b.lastRow = b.row 0 ∧
      ∀ i, 0 ≤ i → i+1 < b.lines → (rotateBelow b 0).mem.links.next (b.row i) = b.row (i+1) := by
  have hagree := h.rowsAgree.links
  have hnext : b.next b.lastRow = b.row 0 := by
    rw [h.next_lastRow_ring, List.nil_append, row_zero]
  have hprev : b.prev b.lastRow = b.row (b.lines-1) := by
    have hlink := (hagree (b.lines-1) (by omega) (by omega)).2
    rw [Int.sub_add_cancel] at hlink
    exact hlink
  have hval : ∀ a, (rotateBelow b 0).mem.links.next a =
      if a = b.prev b.lastRow then b.next b.lastRow else if a = b.lastRow then b.row 0
      else if a = b.prev (b.row 0) then b.lastRow else b.next a := by
    intro a
    rw [rotateBelow_links b 0 _ rfl]
    split_ifs <;> simp_all [VSbuf.next]
  refine ⟨?_, ?_⟩
  · rw [hval, hnext, if_pos rfl, ite_self]
  · intro i h0 hi
    have h1 : b.row i ≠ b.row (b.lines-1) := h.row_ne h0 (by omega) (by omega)
    have h2 : b.row i ≠ b.lastRow := h.row_ne h0 (by omega) le_rfl
    have h3 : b.prev (b.row 0) = b.lastRow := by
      have hs := h.strand.seg
      rw [before_none, after_none, List.nil_append, List.append_nil] at hs
      have hp := seg_prev_headD hs h.linest_ne_nil
      have hfirst : b.linest.headD (b.linest.headD NULL) = b.row 0 := by
        rw [row_zero]
        exact (headD_default NULL _ h.linest_ne_nil).symm
      rw [hfirst, ← h.lastRow_eq] at hp
      exact hp
    rw [hval, hprev, h3, if_neg h1, if_neg h2, if_neg h2]
    exact (hagree i h0 (by omega)).1

/-- The rows of a ring without other lines turn by one. The links that this leaves do
not agree, but the rows do. -/
theorem rotateBelow_ring (h : Threaded b none [] []) (hl : 0 < b.lines) :
    (VSIlistndx (rotateBelow b 0) (rotateBelow b 0).scrntop).linest =
      exchangeRows 0 b.lines.toNat (b.lines+1).toNat b.linest := by
  obtain ⟨hlast, hrest⟩ := rotateBelow_ring_next h hl
  have hlen := h.length
  have hn : (b.lines+1).toNat = b.lines.toNat+1 := by omega
  have htop : (rotateBelow b 0).scrntop = b.lastRow := by
    rw [rotateBelow_scrntop, h.top, ← row_zero, if_pos rfl]
  have hwalk : List.iterate (rotateBelow b 0).mem.links.next (b.row 0) b.lines.toNat =
      b.linest.take b.lines.toNat := by
    have hrow : ∀ i : ℕ, i < b.lines →
        (rotateBelow b 0).mem.links.next^[i] (b.row 0) = b.row i := by
      intro i hi
      induction i with
      | zero => rfl
      | succ i ih =>
        rw [Function.iterate_succ_apply', ih (by omega), hrest i (by omega) (by omega)]
        rfl
    apply List.ext_getElem
    · rw [List.length_iterate, List.length_take]
      omega
    · intro i hi hi'
      rw [List.length_iterate] at hi
      rw [List.getElem_iterate, hrow i (by omega), List.getElem_take, VSbuf.row,
        Int.toNat_natCast, List.getD_eq_getElem]
  have hslice : slice b.lines.toNat (b.lines+1).toNat b.linest = [b.lastRow] := by
    have hone := length_slice b.linest (i := b.lines.toNat) (j := (b.lines+1).toNat) (by omega)
    have hhead := slice_headD b.linest NULL (i := b.lines.toNat) (j := (b.lines+1).toNat)
      (by omega)
    obtain ⟨a, ha⟩ := List.length_eq_one_iff.mp (hone.trans (by omega))
    rw [ha, List.headD_cons] at hhead
    rw [ha, hhead]
    rfl
  have hdrop : b.linest.drop (b.lines+1).toNat = [] := List.drop_eq_nil_of_le (by omega)
  have hlines : (rotateBelow b 0).lines = b.lines := (rotateBelow_frame b 0).1.lines
  rw [VSIlistndx, exchangeRows, hslice, hdrop, List.append_nil, List.take_zero, List.nil_append]
  change List.iterate (rotateBelow b 0).mem.links.next (rotateBelow b 0).scrntop
    ((rotateBelow b 0).lines+1).toNat = _
  rw [htop, hlines, hn, List.iterate, hlast, hwalk, slice, List.drop_zero]
  rfl

/-- Lines in use hold what they held before an allocation. -/
theorem newlines_contents (hold : b.oldScrollback = false) (n : Int) {q : Ptr}
    (hq : q < b.mem.brk) :
    (newlines b n).2.contents q = b.contents q := by
  have hout : ¬(b.mem.brk ≤ q ∧ q < b.mem.brk+n.toNat) := fun hc => absurd hq (Nat.not_lt.mpr hc.1)
  rw [newlines_eq hold]
  cases hg : b.mem.grants.headD false with
  | false =>
    simp only [VSInewlines, LineMem.grant, hg, if_neg Bool.false_ne_true]
    rfl
  | true =>
    simp only [VSInewlines, LineMem.grant, hg, if_pos, VSbuf.contents, LineMem.contents,
      if_neg hout]

theorem advanceBuffer_contents (hold : b.oldScrollback = false) {q : Ptr} (hq : q < b.mem.brk) :
    (advanceBuffer b).contents q = b.contents q := by
  simp only [advanceBuffer]
  split_ifs
  · exact newlines_contents hold _ hq
  · exact newlines_contents hold _ hq
  · rfl
  · rfl
  · rfl

theorem makeCircular_next (b : VSbuf) (last : Ptr) :
    (makeCircular b last).next last = b.buftop := by
  change (if last = last then b.buftop else b.next last) = b.buftop
  exact if_pos rfl

theorem linkBehind_next (b : VSbuf) (last p : Ptr) : (linkBehind b last p).next last = p := by
  change (if last = last then p else b.next last) = p
  exact if_pos rfl

/-- The oldest line follows the last row, once a line is made available there, exactly
when it is to be dropped. -/
theorem advanceBuffer_drops (hold : b.oldScrollback = false) (hbuf : b.buftop < b.mem.brk)
    (hnull : b.buftop ≠ NULL) :
    (advanceBuffer b).next (advanceBuffer b).lastRow = b.buftop ↔ DropsOldest b := by
  rw [DropsOldest, ClosesBehind]
  by_cases hend : b.next b.lastRow = NULL
  · generalize hi : atOnce (short (b.maxlines-b.numlines)) = i
    simp only [advanceBuffer, if_pos hend, hi]
    rw [hend, eq_false hnull.symm, false_or, eq_self, true_and]
    split_ifs with hpos hok
    · -- a new line follows the last row
      have hptr : (newlines b i).1 = b.mem.brk := by
        rw [newlines_eq hold] at hok ⊢
        cases hg : b.mem.grants.headD false with
        | false =>
          exact absurd
            (by simp only [VSInewlines, LineMem.grant, hg, if_neg Bool.false_ne_true]) hok
        | true => simp only [VSInewlines, LineMem.grant, hg, if_pos]
      refine iff_of_false ?_ (not_or.mpr ⟨not_le.mpr hpos, hok⟩)
      change (linkBehind (newlines b i).2 b.lastRow (newlines b i).1).next b.lastRow ≠ b.buftop
      rw [linkBehind_next, hptr]
      exact hbuf.ne'
    · refine iff_of_true ?_ (Or.inr (not_not.mp hok))
      exact makeCircular_next (newlines b i).2 b.lastRow
    · exact iff_of_true (makeCircular_next b b.lastRow) (Or.inl (not_lt.mp hpos))
  · simp only [advanceBuffer, if_neg hend]
    rw [eq_false hend, false_and, or_false]
    split_ifs <;> exact Iff.rfl

/-- The scrollback of a well-formed screen starts its list. -/
theorem LinkedScreen.account (h : LinkedScreen b) : Account b 0 b.saved := by
  have h0 := h.numlines_nonneg
  refine ⟨?_, h0, ?_⟩
  · rcases Nat.eq_zero_or_pos b.numlines.toNat with hz | hz
    · have hscr := h.scrntop
      rw [hz] at hscr
      rw [VSbuf.saved, hz]
      change b.buftop = b.linest.headD NULL
      rw [← row_zero, h.top, ← hscr]
      rfl
    · have hne : b.saved ≠ [] := by
        rw [VSbuf.saved, Ne, List.iterate_eq_nil]
        omega
      rw [headD_append_of_ne_nil NULL hne, VSbuf.saved, headD_iterate hz]
  · rw [VSbuf.saved, List.length_iterate]
    omega

/-- The screen after its rows have moved on by one line and before those below the region
turn: what the rows and the saved lines are, and what they hold. -/
structure MovedOn (b b' : VSbuf) (pre' : List Ptr) : Prop where
  linest : b'.linest = b.linest.tail ++ [b'.lastRow]
  saved : b'.saved = pre'
  lines : pre' = if DropsOldest b then (b.saved ++ [b.row 0]).tail else b.saved ++ [b.row 0]
  fresh : b'.lastRow ∉ pre' ∧ b'.lastRow ∉ b.linest.tail
  blank : b'.contents b'.lastRow = blankRow b.allwidth 0 0
  kept : ∀ q ∈ b.saved ++ b.linest, q ≠ b'.lastRow → b'.contents q = b.contents q

theorem scrolledUp_allwidth (r : VSregion) (b : VSbuf) :
    (scrolledUp r b).allwidth = b.allwidth := by
  simp only [scrolledUp, scrollVisible]
  split_ifs <;> rfl

/-- Blanking the last row after the rows have moved on. -/
theorem scrolledUp_contents (r : VSregion) (b : VSbuf) (q : Ptr) : (scrolledUp r b).contents q =
    if q = (scrolledUp r b).lastRow then blankRow b.allwidth 0 0 else b.contents q := by
  let b₁ : VSbuf := scrollVisible r (shiftUp b)
  have hmem : b₁.mem = b.mem := (scrollVisible_frame r (shiftUp b)).2.2
  have hwidth : b₁.allwidth = b.allwidth := scrolledUp_allwidth r b
  have hblank : (scrolledUp r b).mem =
      ([b₁.lastRow].zip [b₁.lastRow]).foldl (blankOne b₁.allwidth 0 true) b₁.mem := rfl
  change (scrolledUp r b).mem.contents b₁.allwidth q q =
    if q = b₁.lastRow then blankRow b.allwidth 0 0 else b.contents q
  rw [hblank, blanked_contents rfl Iff.rfl, hwidth, hmem]
  simp only [List.mem_singleton, if_pos]
  rfl

/-- The rows have moved on by one line, and the line that left at the top is saved. -/
theorem scrolledUp_movedOn (r : VSregion) (h : LinkedScreen b) (hnum : b.numlines < 32767) :
    ∃ e' pre' post', Threaded (scrolledUp r (advanceBuffer b)) e' pre' post' ∧
      Account (scrolledUp r (advanceBuffer b)) 0 pre' ∧
      MovedOn b (scrolledUp r (advanceBuffer b)) pre' := by
  obtain ⟨k, hk⟩ := h.list
  obtain ⟨e, post, hth, -⟩ := h.threaded hk
  have hacc := h.account
  have hanch : Anchored b e b.saved := fun _ => hacc.buftop
  obtain ⟨hsame, hone, e', post₁, hext, -⟩ :=
    advanceBuffer_spec hth h.linked (hanch.mem hth) (fun _ => hanch)
  have hbuf := (ListFrom.of_list hk).live 0 (ListFrom.of_list hk).pos
  have hdrop := advanceBuffer_drops h.linked hbuf.2 hbuf.1
  have htop : (advanceBuffer b).scrntop = b.row 0 := hsame.scrntop.trans h.top.symm
  obtain ⟨hrows, hcount, hlinks, hbrk⟩ := scrolledUp_frame r (advanceBuffer b)
  obtain ⟨pre', post', hlin, hth', hcase⟩ := hext.threaded.shift hext.nonempty
  have hfin := hth'.of_links hrows hlinks hbrk
  have hlin' : (scrolledUp r (advanceBuffer b)).linest =
      b.linest.tail ++ [(advanceBuffer b).next (advanceBuffer b).lastRow] := by
    rw [hrows.linest, hlin, hsame.linest]
  have hlast : (scrolledUp r (advanceBuffer b)).lastRow =
      (advanceBuffer b).next (advanceBuffer b).lastRow := by
    rw [hfin.lastRow_eq, hlin', getLastD_append_of_ne_nil NULL (List.cons_ne_nil _ [])]
    rfl
  -- the row that came up is neither saved nor one of the others
  have hfresh : (scrolledUp r (advanceBuffer b)).lastRow ∉ pre' ∧
      (scrolledUp r (advanceBuffer b)).lastRow ∉ b.linest.tail := by
    have hnd := hfin.strand.nodup.of_append_left
    rw [hlin', ← hlast, ← List.append_assoc] at hnd
    have hd := List.disjoint_of_nodup_append hnd
    exact ⟨fun hm => hd (List.mem_append_left _ hm) List.mem_cons_self,
      fun hm => hd (List.mem_append_right _ hm) List.mem_cons_self⟩
  have hblank : (scrolledUp r (advanceBuffer b)).contents
      (scrolledUp r (advanceBuffer b)).lastRow = blankRow b.allwidth 0 0 := by
    rw [scrolledUp_contents, if_pos rfl, (advanceBuffer_extent _).allwidth]
  have hkept : ∀ q ∈ b.saved ++ b.linest, q ≠ (scrolledUp r (advanceBuffer b)).lastRow →
      (scrolledUp r (advanceBuffer b)).contents q = b.contents q := by
    intro q hq hne
    rw [scrolledUp_contents, if_neg hne,
      advanceBuffer_contents h.linked (hth.live q (List.mem_append_left post hq))]
  have hlines : Account (shiftUp (advanceBuffer b)) 0 pre' ∧
      pre' = if DropsOldest b then (b.saved ++ [b.row 0]).tail else b.saved ++ [b.row 0] := by
    rcases hcase with ⟨hpost, rfl⟩ | ⟨rfl, hpost, hpost', rfl⟩
    · -- a line from below the screen came up
      have hkeep : ¬DropsOldest b := by
        rw [← hdrop, hacc.buftop, ← hsame.linest]
        intro he
        apply List.disjoint_of_nodup_append hext.threaded.strand.nodup (headD_mem NULL
          (List.append_ne_nil_of_right_ne_nil b.saved hext.threaded.linest_ne_nil))
        rw [← he, hpost]
        exact List.mem_cons_self
      rw [if_neg hkeep, ← htop]
      exact ⟨(hacc.of_below hext.threaded hsame hone hpost hnum).1, rfl⟩
    · -- the oldest line of a ring was reused
      rw [hpost] at hext
      have hdrops : DropsOldest b := by
        rw [← hdrop, hext.threaded.next_lastRow_ring, hsame.linest, hacc.buftop]
      rw [if_pos hdrops, ← htop]
      exact ⟨(hacc.of_ring hext.threaded hsame hone hlin).1, rfl⟩
  obtain ⟨⟨hb, h0, hn⟩, hpre⟩ := hlines
  have hacc' : Account (scrolledUp r (advanceBuffer b)) 0 pre' := by
    refine ⟨?_, ?_, ?_⟩
    · rw [hcount.buftop, hrows.linest]
      exact hb
    · rw [hcount.numlines]
      exact h0
    · rw [hcount.numlines]
      exact hn
  refine ⟨e', pre', post', hfin, hacc', ?_, hacc'.saved_eq hfin, hpre, hfresh, hblank, hkept⟩
  rw [hlast]
  exact hlin'

/-- The last row taken to before the row `m`. -/
theorem exchangeRows_last (T : List Ptr) (x : Ptr) {m : ℕ} (hm : m ≤ T.length) :
    exchangeRows m T.length (T.length+1) (T ++ [x]) = T.take m ++ [x] ++ T.drop m := by
  have hlen : (T ++ [x]).length = T.length+1 := by
    rw [List.length_append, List.length_singleton]
  have hlast : slice T.length (T.length+1) (T ++ [x]) = [x] := by
    rw [slice, List.take_of_length_le hlen.le]
    exact List.drop_left' rfl
  have hrest : slice m T.length (T ++ [x]) = T.drop m := by
    rw [slice, List.take_left' rfl]
  rw [exchangeRows, hlast, hrest, List.take_append_of_le_length hm,
    List.drop_eq_nil_of_le hlen.le, List.append_nil, List.append_assoc]

/-- The rows after those below the region have turned. -/
theorem turned_linest {pre' : List Ptr} {e' : Option Ptr} {post' : List Ptr} {bottom : ℕ}
    (h : Threaded b e' pre' post') (hlt : (bottom : Int) < b.lines) :
    (VSIlistndx (rotateBelow b bottom) (rotateBelow b bottom).scrntop).linest =
      exchangeRows bottom b.lines.toNat (b.lines+1).toNat b.linest := by
  by_cases hpart : 0 < (bottom : Int) ∨ e' ≠ none ∨ pre' ++ post' ≠ []
  · exact (rotateBelow_rows h (Int.natCast_nonneg bottom) hlt hpart).1
  · -- the rows are the whole ring
    push Not at hpart
    obtain ⟨hb, he, hnil⟩ := hpart
    obtain ⟨hpre, hpost⟩ := List.append_eq_nil_iff.mp hnil
    have hz : bottom = 0 := by omega
    subst he hpre hpost hz
    exact rotateBelow_ring h (by omega)

/-- The rows, and the saved lines, after the rows below the region have turned. -/
theorem turned_rows {pre' : List Ptr} {e' : Option Ptr} {post' : List Ptr} {bottom : ℕ}
    (h : Threaded b e' pre' post') (hsaved : b.saved = pre') (hlt : (bottom : Int) < b.lines) :
    (VSIlistndx (rotateBelow b bottom) (rotateBelow b bottom).scrntop).linest =
        exchangeRows bottom b.lines.toNat (b.lines+1).toNat b.linest ∧
      (VSIlistndx (rotateBelow b bottom) (rotateBelow b bottom).scrntop).saved = pre' := by
  refine ⟨turned_linest h hlt, ?_⟩
  have hcount : SameCount b (VSIlistndx (rotateBelow b bottom) (rotateBelow b bottom).scrntop) := by
    obtain ⟨-, hc, -⟩ := rotateBelow_frame b bottom
    exact ⟨hc.buftop, hc.numlines⟩
  by_cases hpart : 0 < (bottom : Int) ∨ e' ≠ none ∨ pre' ++ post' ≠ []
  · have hth := (rotateBelow_rows h (Int.natCast_nonneg bottom) hlt hpart).2
    rw [← hsaved] at hth ⊢
    exact hth.saved_eq hcount
  · -- the rows are the whole ring, and no line is saved
    push Not at hpart
    obtain ⟨-, -, hnil⟩ := hpart
    obtain ⟨hpre, -⟩ := List.append_eq_nil_iff.mp hnil
    have hnum : b.numlines.toNat = 0 := by
      rw [hpre, VSbuf.saved, List.iterate_eq_nil] at hsaved
      exact hsaved
    rw [VSbuf.saved, hcount.numlines, hnum, hpre]
    rfl

theorem rotateBelow_contents (b : VSbuf) (bottom : Int) (q : Ptr) :
    (VSIlistndx (rotateBelow b bottom) (rotateBelow b bottom).scrntop).contents q =
    b.contents q := by
  simp only [rotateBelow]
  split_ifs <;> rfl

/-- A scroll of a well-formed screen: the lines in the rows afterwards, the saved lines,
and what they hold. -/
theorem VSIscroll_movedOn (r : VSregion) (h : LinkedScreen b) (hnum : b.numlines < 32767)
    (hsave : b.savelines = true) (htop : r.top = 0) (hy : r.y ≤ b.lines) {bottom : ℕ}
    (hbottom : r.bottom = bottom) (hle : r.bottom ≤ b.lines) :
    ∃ x pre', (VSIscroll r b).linest =
        b.linest.tail.take bottom ++ [x] ++ b.linest.tail.drop bottom ∧
      (VSIscroll r b).saved = pre' ∧
      pre' = (if DropsOldest b then (b.saved ++ [b.row 0]).tail else b.saved ++ [b.row 0]) ∧
      (x ∉ pre' ∧ x ∉ b.linest.tail) ∧ (VSIscroll r b).contents x = blankRow b.allwidth 0 0 ∧
      ∀ q ∈ b.saved ++ b.linest, q ≠ x → (VSIscroll r b).contents q = b.contents q := by
  obtain ⟨e', pre', post', hth, -, hmoved⟩ := scrolledUp_movedOn r h hnum
  have hno : ¬(b.savelines = false ∨ r.top ≠ 0) := by
    rw [hsave, htop]
    decide
  have hlines : (scrolledUp r (advanceBuffer b)).lines = b.lines := by
    rw [(scrolledUp_frame r (advanceBuffer b)).1.lines]
    exact (advanceBuffer_extent b).lines
  have htail : (b.linest.tail.length : Int) = b.lines := by
    rw [List.length_tail]
    have := h.length
    omega
  rw [VSIscroll_saving (not_lt.mpr hy) h.linked hno]
  generalize scrolledUp r (advanceBuffer b) = b₂ at hth hmoved hlines ⊢
  refine ⟨b₂.lastRow, pre', ?_⟩
  by_cases hall : r.bottom = b₂.lines
  · have hb : b.linest.tail.length ≤ bottom := by omega
    rw [if_neg (not_not.mpr hall)]
    refine ⟨?_, hmoved.saved, hmoved.lines, hmoved.fresh, hmoved.blank, hmoved.kept⟩
    rw [hmoved.linest, List.take_of_length_le hb, List.drop_eq_nil_of_le hb, List.append_nil]
  · have hlt : (bottom : Int) < b₂.lines := by omega
    obtain ⟨hrows, hsaved⟩ := turned_rows hth hmoved.saved hlt
    rw [if_pos hall, hbottom]
    refine ⟨?_, hsaved, hmoved.lines, hmoved.fresh, ?_, ?_⟩
    · have hl : b₂.lines.toNat = b.linest.tail.length := by omega
      have hl' : (b₂.lines+1).toNat = b.linest.tail.length+1 := by omega
      rw [hrows, hmoved.linest, hl, hl', exchangeRows_last _ _ (by omega)]
    · rw [rotateBelow_contents]
      exact hmoved.blank
    · intro q hq hne
      rw [rotateBelow_contents]
      exact hmoved.kept q hq hne

theorem reserveScreen_contents (hold : b.oldScrollback = false) (fuel i : ℕ) (tmp : Ptr) {q : Ptr}
    (hq : q < b.mem.brk) : (reserveScreen b fuel i tmp).contents q = b.contents q := by
  induction fuel generalizing i tmp with
  | zero => rfl
  | succ fuel ih =>
    rw [reserveScreen]
    split_ifs
    · simp only
      split_ifs
      · rfl
      · exact newlines_contents hold _ hq
      · exact newlines_contents hold _ hq
      · exact newlines_contents hold _ hq
      · exact newlines_contents hold _ hq
    · exact ih (i+1) (b.next tmp)

/-- One row goes to the scrollback: the lines above the rows are one more, or the oldest
of them has gone. -/
theorem pushRow_moves (h : Threaded b e pre post) (hold : b.oldScrollback = false)
    (hacc : Account b 0 pre) (hnum : b.numlines < 32767) (hgo : e = none ∨ post ≠ []) :
    ∃ pre' post' x, Threaded (pushRow b) e pre' post' ∧ Account (pushRow b) 0 pre' ∧
      (pushRow b).linest = b.linest.tail ++ [x] ∧ (pushRow b).mem = b.mem ∧
      (pushRow b).allwidth = b.allwidth ∧ (pushRow b).numlines ≤ b.numlines+1 ∧
      ((post.length = post'.length+1 ∧ pre' = pre ++ [b.row 0]) ∨
        (e = none ∧ post = [] ∧ post' = [] ∧ pre' = (pre ++ [b.row 0]).tail)) := by
  rw [pushRow_eq hold, row_zero, ← h.top]
  have hone : ∃ b₁, (if b.next b.lastRow = b.buftop then reuseOldest b else countLine b) = b₁ ∧
      SameRows b b₁ ∧ Accounted b b₁ ∧ Threaded b₁ e pre post ∧ b₁.mem = b.mem ∧
      b₁.allwidth = b.allwidth := by
    refine ⟨_, rfl, ?_⟩
    split_ifs with hc
    · exact ⟨reuseOldest_sameRows b, Or.inr ⟨hc, rfl, rfl⟩, reuseOldest_threaded h, rfl, rfl⟩
    · exact ⟨countLine_sameRows b, Or.inl ⟨hc, rfl, rfl⟩, countLine_threaded h, rfl, rfl⟩
  obtain ⟨b₁, hb₁, hsame, haccd, hth, hmem, hwidth⟩ := hone
  rw [hb₁, ← hsame.scrntop, ← hsame.linest]
  obtain ⟨pre', post', hlin, hth', hcase⟩ := hth.shift hgo
  have hmem' : (shiftUp b₁).mem = b.mem := hmem
  rcases hcase with ⟨hpost, rfl⟩ | ⟨rfl, rfl, rfl, rfl⟩
  · obtain ⟨hacc', hn⟩ := hacc.of_below hth hsame haccd hpost hnum
    refine ⟨_, post', _, hth', hacc', hlin, hmem', hwidth, hn.le, Or.inl ⟨?_, rfl⟩⟩
    rw [hpost, List.length_cons]
  · obtain ⟨hacc', hn⟩ := hacc.of_ring hth hsame haccd hlin
    exact ⟨_, [], _, hth', hacc', hlin, hmem', hwidth, by omega, Or.inr ⟨rfl, rfl, rfl, rfl⟩⟩

/-- The first rows `D` go to the scrollback, one after the other: the lines above the rows
are then the last of those above and these. -/
theorem pushRow_iterate_saved (D : List Ptr) {b : VSbuf} {pre post X : List Ptr}
    (h : Threaded b e pre post) (hold : b.oldScrollback = false) (hacc : Account b 0 pre)
    (hnum : b.numlines+D.length ≤ 32767) (hrows : b.linest = D ++ X)
    (hgo : e = none ∨ D.length ≤ post.length) :
    (pushRow^[D.length] b).saved = (pre ++ D).drop (D.length-post.length) ∧
      (pushRow^[D.length] b).mem = b.mem ∧ (pushRow^[D.length] b).allwidth = b.allwidth := by
  induction D generalizing b pre post X with
  | nil =>
    have hz : ([] : List Ptr).length-post.length = 0 := Nat.zero_sub _
    rw [hz, List.append_nil, List.drop_zero]
    exact ⟨hacc.saved_eq h, rfl, rfl⟩
  | cons d D ih =>
    rw [List.length_cons] at hnum hgo
    have hne : e = none ∨ post ≠ [] := by
      rcases hgo with he | hlen
      · exact Or.inl he
      · right
        rintro rfl
        rw [List.length_nil] at hlen
        omega
    have hrow : b.row 0 = d := by
      rw [row_zero, hrows]
      rfl
    obtain ⟨pre', post', x, hth, hacc', hlin, hmem, hwidth, hn, hcase⟩ :=
      pushRow_moves h hold hacc (by push_cast at hnum; omega) hne
    rw [hrow] at hcase
    rw [hrows, List.cons_append, List.tail_cons, List.append_assoc] at hlin
    have hold' : (pushRow b).oldScrollback = false := by
      obtain ⟨_, _, hkeep, -⟩ := pushRow_spec h hold hne
      exact hkeep.size.oldScrollback.trans hold
    have hgo' : e = none ∨ D.length ≤ post'.length := by
      rcases hcase with ⟨hlen, -⟩ | ⟨he, -⟩
      · exact hgo.imp_right (fun hle => by omega)
      · exact Or.inl he
    obtain ⟨hs, hm, hw⟩ := ih hth hold' hacc' (by push_cast at hnum; omega) hlin hgo'
    rw [List.length_cons, Function.iterate_succ_apply]
    refine ⟨?_, hm.trans hmem, hw.trans hwidth⟩
    rw [hs]
    rcases hcase with ⟨hlen, rfl⟩ | ⟨-, rfl, rfl, rfl⟩
    · rw [hlen, Nat.add_sub_add_right, List.append_assoc, List.singleton_append]
    · -- the ring has no unused line left, so the oldest one goes
      obtain ⟨c, l, hcl⟩ := List.exists_cons_of_ne_nil
        (List.append_ne_nil_of_right_ne_nil pre (List.cons_ne_nil d []))
      have hall : pre ++ d :: D = c :: (l ++ D) := by
        rw [← List.cons_append, ← hcl, List.append_assoc]
        rfl
      rw [hall, hcl]
      rfl

end Rows


/-- On a well-formed screen that saves its lines, a scroll of a region that starts at the
top row moves the rows of the region up, leaves a blank row at its bottom and the rows
below as they are, and saves the top row; the oldest saved line goes when it follows the
last row, or when the list ends there and nothing is allocated. -/
theorem scroll_moves_rows (b : VSbuf) (r : VSregion) (h : LinkedScreen b)
    (hsave : b.savelines = true) (htop : r.top = 0) (hy : r.y ≤ b.lines) (bottom : ℕ)
    (hbottom : r.bottom = bottom) (hle : r.bottom ≤ b.lines) (hnum : b.numlines < 32767) :
    (VSIscroll r b).shown = slice 1 (bottom+1) b.shown ++ [blankRow b.allwidth 0 0] ++
        b.shown.drop (bottom+1) ∧
      (VSIscroll r b).history =
        if DropsOldest b then (b.history ++ b.shown.take 1).tail
        else b.history ++ b.shown.take 1 := by
  obtain ⟨x, pre', hrows, hsaved, hpre, ⟨hx, hx'⟩, hblank, hkept⟩ :=
    VSIscroll_movedOn r h hnum hsave htop hy hbottom hle
  have hlen := h.length
  obtain ⟨r₀, T, hT⟩ := List.exists_cons_of_ne_nil (l := b.linest) (by
    intro hn
    have h0 := h.lines_nonneg
    rw [hn, List.length_nil] at hlen
    omega)
  have hrow : b.row 0 = r₀ := by
    rw [row_zero, hT, List.headD_cons]
  rw [hT, List.tail_cons] at hrows hx'
  -- no line of the region or below it, and no saved line, is the blank one
  have hmapT : ∀ L, L ⊆ T → L.map (VSIscroll r b).contents = L.map b.contents := by
    intro L hL
    refine List.map_congr_left fun q hq => hkept q ?_ (fun he => hx' (he ▸ hL hq))
    rw [hT]
    exact List.mem_append_right _ (List.mem_cons_of_mem r₀ (hL hq))
  have hmapS : pre'.map (VSIscroll r b).contents = pre'.map b.contents := by
    refine List.map_congr_left fun q hq => hkept q ?_ (fun he => hx (he ▸ hq))
    have hq' : q ∈ b.saved ++ [b.row 0] := by
      rw [hpre] at hq
      split_ifs at hq
      · exact List.mem_of_mem_tail hq
      · exact hq
    rw [hrow] at hq'
    rw [hT]
    rcases List.mem_append.mp hq' with hq' | hq'
    · exact List.mem_append_left _ hq'
    · exact List.mem_append_right _ (List.mem_singleton.mp hq' ▸ List.mem_cons_self)
  constructor
  · rw [VSbuf.shown, hrows, List.map_append, List.map_append, hmapT _ (List.take_subset _ _),
      hmapT _ (List.drop_subset _ _), List.map_singleton, hblank, VSbuf.shown, hT, slice]
    simp only [List.map_cons, List.take_succ_cons, List.drop_succ_cons, List.drop_zero,
      List.map_take, List.map_drop]
  · have hhist : b.history ++ b.shown.take 1 = (b.saved ++ [b.row 0]).map b.contents := by
      rw [VSbuf.history, VSbuf.shown, hT, hrow, List.map_append]
      rfl
    rw [VSbuf.history, hsaved, hmapS, hpre, hhist, ← List.map_tail]
    split_ifs <;> rfl

/-- The list of lines is closed, or ends below the screen before a screenful of lines and
nothing is allocated there. -/
def CannotExtend (b : VSbuf) : Prop :=
  (∃ k, Circular b k) ∨ ClosesBelow b (b.lines+1).toNat 0 b.lastRow

/-- How many of the oldest saved lines go when the screen is saved and the list cannot be
extended: as many as the unused lines are short of a screenful. -/
def shortOfScreen (b : VSbuf) : ℕ := (b.lines+1).toNat-linesBelow b b.mem.brk b.lastRow

theorem Circular.walk_ne_null {b : VSbuf} {k : ℕ} (h : Circular b k) (j : ℕ) :
    b.next^[j] b.buftop ≠ NULL := by
  have hper : Function.IsPeriodicPt b.next k b.buftop := h.closed
  rw [← hper.iterate_mod_apply]
  exact (h.live _ (Nat.mod_lt _ h.pos)).1

/-- On a well-formed screen that saves its lines, saving a screen whose region is all its
rows appends the rows to the saved lines, in order; the oldest ones go only when the list
cannot be extended. -/
theorem save_appends_screen (b : VSbuf) (r : VSregion) (h : LinkedScreen b)
    (hsave : b.savelines = true) (htop : r.top = 0) (hbottom : r.bottom = b.lines)
    (hnum : b.numlines+b.lines+1 ≤ 32767) :
    (CannotExtend b → (VSIscroff r b).history = (b.history ++ b.shown).drop (shortOfScreen b)) ∧
      (¬CannotExtend b → (VSIscroff r b).history = b.history ++ b.shown) := by
  obtain ⟨k, hk⟩ := h.list
  obtain ⟨e, post, hth, -, hkind⟩ := h.threaded hk
  have hacc := h.account
  have hlen := h.length
  have h0 := h.lines_nonneg
  obtain ⟨e', post', hres, hclosing⟩ :=
    reserveScreen_closing hth h.linked h.lines_lt (fun _ _ => hacc.buftop)
  have hacc' : Account (reserveScreen b (b.lines+1).toNat 0 b.lastRow) 0 b.saved := by
    refine ⟨?_, ?_, ?_⟩
    · rw [hres.count.buftop, hres.same.linest]
      exact hacc.buftop
    · rw [hres.count.numlines]
      exact hacc.numlines_nonneg
    · rw [hres.count.numlines]
      exact hacc.numlines
  have hlinest := hres.same.linest
  generalize hb₁ : reserveScreen b (b.lines+1).toNat 0 b.lastRow = b₁ at hres hacc' hlinest
  have hwidth₁ : b₁.allwidth = b.allwidth := by
    rw [← hb₁]
    exact (reserveScreen_extent ..).allwidth
  obtain ⟨hsaved, hmem, hwidth⟩ := pushRow_iterate_saved b.linest hres.threaded
    (hres.same.oldScrollback.trans h.linked) hacc' (by rw [hres.count.numlines]; omega)
    (hlinest.trans (List.append_nil _).symm) (hres.enough.imp_right (fun hle => by omega))
  have hn : (b.lines+1).toNat = b.linest.length := by omega
  have hno : ¬(b.savelines = false ∨ r.top ≠ 0 ∨ r.bottom ≠ b.lines) := by
    rw [hsave, htop, hbottom]
    simp
  have heq : VSIscroff r b =
      { pushRow^[b.linest.length] b₁ with
        vistop := (pushRow^[b.linest.length] b₁).scrntop
        Rbottom := short ((pushRow^[b.linest.length] b₁).Rbottom-
          (pushRow^[b.linest.length] b₁).Rtop)
        Rtop := 0 } := by
    rw [VSIscroff, if_neg hno, ← hb₁, ← hn]
  -- the saved lines and the rows hold what they held
  have hkept : ∀ q ∈ b.saved ++ b.linest, (VSIscroff r b).contents q = b.contents q := by
    intro q hq
    have hq' := hth.live q (List.mem_append_left post hq)
    have hsame := reserveScreen_contents h.linked (b.lines+1).toNat 0 b.lastRow hq'
    rw [hb₁] at hsame
    rw [heq, ← hsame]
    change (pushRow^[b.linest.length] b₁).mem.contents
      (pushRow^[b.linest.length] b₁).allwidth q q = _
    rw [hmem, hwidth]
    rfl
  have hhist : (VSIscroff r b).history =
      (b.history ++ b.shown).drop (b.linest.length-post'.length) := by
    have hlines : (VSIscroff r b).saved =
        (b.saved ++ b.linest).drop (b.linest.length-post'.length) := by
      rw [← hsaved, heq]
      rfl
    rw [VSbuf.history, hlines, VSbuf.history, VSbuf.shown, ← List.map_append, ← List.map_drop]
    exact List.map_congr_left fun q hq => hkept q (List.mem_of_mem_drop hq)
  rw [hhist, shortOfScreen, linesBelow_eq hth hacc.buftop, hn]
  constructor
  · intro hcannot
    have hpost : post' = post := by
      rcases hclosing with ⟨hnot, -, hring⟩ | ⟨-, -, hpost⟩
      · obtain ⟨j, hj⟩ := hcannot.resolve_right hnot
        rcases hkind with ⟨he, -⟩ | ⟨-, hend⟩
        · exact hring he
        · exact absurd hend.last (hj.walk_ne_null k)
      · exact hpost
    rw [hpost]
  · intro hcan
    have henough : b.lines+1 ≤ post'.length := by
      apply hres.enough.resolve_left
      rintro rfl
      rcases hclosing with ⟨-, he, -⟩ | ⟨hcloses, -⟩
      · rcases hkind with ⟨-, hring⟩ | ⟨hne, -⟩
        · exact hcan (Or.inl ⟨k, hring⟩)
        · exact hne he.symm
      · exact hcan (Or.inr hcloses)
    have hz : b.linest.length-post'.length = 0 := by omega
    rw [hz, List.drop_zero]

/-- What a scroll and saving the screen make of the rows and of the saved lines, on a
well-formed screen that saves its lines and with a region that starts at the top row. -/
theorem scrolls_save_rows (b : VSbuf) (r : VSregion) (h : LinkedScreen b)
    (hsave : b.savelines = true) (htop : r.top = 0) (hy : r.y ≤ b.lines) (bottom : ℕ)
    (hbottom : r.bottom = bottom) (hle : r.bottom ≤ b.lines) (hnum : b.numlines < 32767) :
    ((VSIscroll r b).shown = slice 1 (bottom+1) b.shown ++ [blankRow b.allwidth 0 0] ++
        b.shown.drop (bottom+1) ∧
      (VSIscroll r b).history = if DropsOldest b then (b.history ++ b.shown.take 1).tail
        else b.history ++ b.shown.take 1) ∧
    (r.bottom = b.lines → b.numlines+b.lines+1 ≤ 32767 →
      (CannotExtend b → (VSIscroff r b).history = (b.history ++ b.shown).drop (shortOfScreen b)) ∧
      (¬CannotExtend b → (VSIscroff r b).history = b.history ++ b.shown)) :=
  ⟨scroll_moves_rows b r h hsave htop hy bottom hbottom hle hnum,
    fun hall hroom => save_appends_screen b r h hsave htop hall hroom⟩

/-- A scroll of the screen of two rows. -/
theorem scroll_saves_two_rows :
    (VSIscroll twoRowsRegion twoRows).shown = slice 1 2 twoRows.shown ++ [blankRow 255 0 0] ++
      twoRows.shown.drop 2 :=
  (scrolls_save_rows twoRows twoRowsRegion twoRows_linked rfl rfl (by decide) 1 rfl (by decide)
    (by decide)).1.1

/-- The screen of two rows with one unused line, when there is no memory left. -/
def twoRowsFull : VSbuf := { twoRows with mem := { twoRows.mem with grants := [] } }

theorem twoRowsFull_linked : LinkedScreen twoRowsFull := by
  obtain ⟨⟨h1, h2, h3, h4, h5, h6, h7, h8, -, h10, h11⟩, ⟨h12, h13, h14, h15⟩, h16⟩ :=
    twoRows_linked
  have hlist : NullEnded twoRowsFull 3 := by
    refine ⟨⟨by decide, by decide, ?_⟩, by decide, by decide, by decide, by decide⟩
    intro i hi
    have hi' : i = 0 ∨ i = 1 := by omega
    rcases hi' with rfl | rfl <;> decide
  exact ⟨⟨h1, h2, h3, h4, h5, h6, h7, h8, ⟨3, Or.inl hlist⟩, h10, h11⟩, ⟨h12, h13, h14, h15⟩, h16⟩

/-- No line can be allocated, and still a scroll drops no line: an unused one is left. -/
theorem scroll_without_memory : LinkedScreen twoRowsFull ∧
    (∀ n, (newlines twoRowsFull n).1 = NULL) ∧
    (VSIscroll twoRowsRegion twoRowsFull).history ≠
      (twoRowsFull.history ++ twoRowsFull.shown.take 1).tail := by
  refine ⟨twoRowsFull_linked, fun n => rfl, fun h => ?_⟩
  have hlen := congrArg List.length h
  exact absurd hlen (by decide)

end VS
