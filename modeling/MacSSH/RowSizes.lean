import MacSSH.LineSizes
import MacSSH.OldText

/-! The sizes of the rows after lines have moved. -/
namespace VS

open Linked

/-- The rows are lines of one list, and the attribute lines of the old scrollback are a
ring apart from it. -/
def Chained (b : VSbuf) : Prop :=
  ∃ e pre post, Threaded b e pre post ∧ Anchored b e pre ∧
    (b.oldScrollback = true → OldThreaded b e pre post)

section Blocks
variable {r : VSregion} {b b' : VSbuf} {e : Option Ptr} {pre post : List Ptr} {n s : Int}

/-- The rows between the ends of two blocks that have been exchanged. -/
theorem exchangeRows_getD_inside (rows : List Ptr) {i j k t : ℕ} (hij : i ≤ j) (hjk : j ≤ k)
    (hk : k ≤ rows.length) (hi : i ≤ t) (ht : t < k) :
    (exchangeRows i j k rows).getD t NULL =
      if t+(j-i) < k then rows.getD (t+(j-i)) NULL else rows.getD (t+j-k) NULL := by
  have hfirst : (rows.take i).length = i := by
    rw [List.length_take]
    omega
  have hlower := length_slice rows (i := j) (j := k) hk
  have hupper := length_slice rows (i := i) (j := j) (by omega)
  rw [exchangeRows, List.getD_eq_getElem?_getD, List.getElem?_append_left
    (by rw [List.length_append, List.length_append, hfirst, hlower, hupper]; omega),
    List.getElem?_append_right (by omega), hfirst]
  split_ifs with hlt
  · rw [List.getElem?_append_left (by omega), slice, List.getElem?_drop, List.getElem?_take,
      if_pos (by omega), List.getD_eq_getElem?_getD]
    congr 2
    omega
  · rw [List.getElem?_append_right (by omega), hlower, slice, List.getElem?_drop,
      List.getElem?_take, if_pos (by omega), List.getD_eq_getElem?_getD]
    congr 2
    omega

theorem Blanks.lattr {a : BitVec 32} {l : Bool} {X Y : List Ptr} (h : Blanks b b' a l X Y)
    (q : Ptr) : b'.mem.lattr q = if l = true ∧ q ∈ X then 0 else b.mem.lattr q := by
  obtain ⟨links, hmem⟩ := h.mem
  rw [hmem, blanked_lattr, List.map_fst_zip h.length.le]

/-- Blanking the lines of a block of the rows, as they are afterwards. -/
theorem Threaded.blanked_pairs (h : Threaded b' e pre post) {A X B : List Ptr}
    (hl : b'.linest = A ++ X ++ B) (hX : X ≠ []) {a : BitVec 32} {p pa : Ptr} {k : ℕ}
    {links : Links Ptr}
    (hmem : b'.mem = blankLinePairs b.allwidth a k p pa { b.mem with links := links })
    (hp : p = X.headD NULL) (hk : k = X.length) (q : Ptr) :
    b'.mem.lattr q = if q ∈ X then 0 else b.mem.lattr q := by
  have hlinks : b'.mem.links = links := by
    rw [hmem, blankLinePairs_links]
  have hwalk : List.iterate links.next p k = X := by
    rw [hp, hk, ← hlinks]
    exact h.walk_block hl hX
  rw [hmem, blankLinePairs_eq_foldl, blanked_lattr,
    List.map_fst_zip (by rw [List.length_iterate, List.length_iterate])]
  simp only [hwalk, true_and]

/-- The first rows of a deletion, and the lines that it blanks. -/
theorem Chained.deleted (h : Chained b) (hs : OnScreen r b s) (hn : 1 ≤ n) {S m : ℕ}
    (hS : startRow r s = S) (hle : startRow r s ≤ r.bottom)
    (hm : blanked r.bottom n (startRow r s) = m) :
    (VSIdellines r b n s).linest = exchangeRows S (S+m) (r.bottom+1).toNat b.linest ∧
      ∀ q, (VSIdellines r b n s).mem.lattr q =
        if q ∈ slice S (S+m) b.linest then 0 else b.mem.lattr q := by
  obtain ⟨e, pre, post, hth, -, hattrs⟩ := h
  have hlen := hth.length
  have hbot := hs.bottom_le
  have hblank := hm
  rw [blanked, hS] at hblank
  have hSm : (startRow r s+blanked r.bottom n (startRow r s)).toNat = S+m := by omega
  cases hold : b.oldScrollback with
  | false =>
    obtain ⟨hrows, hb⟩ := VSIdellines_blanks hth hold hs hn hS hle hm
    refine ⟨?_, ?_⟩
    · rw [hrows, exchangeRows, ← List.append_assoc]
    · intro q
      rw [hb.lattr]
      simp only [true_and]
  | true =>
    obtain ⟨hrows, -, hth'⟩ := VSOdellines_rows (hattrs hold) hs hn
    obtain ⟨-, -, links, hmem⟩ := VSOdellines_mem (r := r) (b := b) (n := n) (s := s)
    rw [VSIdellines, if_pos hold]
    rw [deletedRows_eq _ hs.row_nonneg hle, hSm, hS, Int.toNat_natCast] at hrows
    refine ⟨hrows, hth'.text.blanked_pairs (by rw [hrows, ← List.append_assoc])
      (slice_ne_nil (by omega) (by omega)) hmem ?_ ?_⟩
    · rw [slice_headD _ _ (by omega), hS]
      rfl
    · rw [length_slice _ (by omega), hs.clipCount_eq, hm]
      omega

theorem Chained.inserted (h : Chained b) (hs : OnScreen r b s) (hn : 1 ≤ n) {S T m : ℕ}
    (hS : startRow r s = S) (hle : startRow r s ≤ r.bottom)
    (hm : blanked r.bottom n (startRow r s) = m) (hT : r.bottom+1 = T+m) :
    (VSIinslines r b n s).linest = exchangeRows S T (r.bottom+1).toNat b.linest ∧
      ∀ q, (VSIinslines r b n s).mem.lattr q =
        if b.oldScrollback = true ∧ q ∈ slice T (r.bottom+1).toNat b.linest then 0
        else b.mem.lattr q := by
  obtain ⟨e, pre, post, hth, -, hattrs⟩ := h
  have hlen := hth.length
  have hbot := hs.bottom_le
  have hblank := hm
  rw [blanked, hS] at hblank
  have hTm : (r.bottom-blanked r.bottom n (startRow r s)+1).toNat = T := by omega
  cases hold : b.oldScrollback with
  | false =>
    obtain ⟨hrows, hb⟩ := VSIinslines_blanks hth hold hs hn hS hle hm hT
    refine ⟨?_, ?_⟩
    · rw [hrows, exchangeRows]
      simp only [List.append_assoc]
    · intro q
      rw [hb.lattr]
  | true =>
    obtain ⟨hrows, -, hth'⟩ := VSOinslines_rows (hattrs hold) hs hn
    obtain ⟨-, -, links, hmem⟩ := VSOinslines_mem (r := r) (b := b) (n := n) (s := s)
    rw [VSIinslines, if_pos hold]
    rw [insertedRows_eq _ hs.row_nonneg hle, hTm, hS, Int.toNat_natCast] at hrows
    have hblocks : (VSOinslines r b n s).linest = b.linest.take S ++
        slice T (r.bottom+1).toNat b.linest ++ (slice S T b.linest ++
          b.linest.drop (r.bottom+1).toNat) := by
      rw [hrows]
      simp only [List.append_assoc]
    refine ⟨hrows, ?_⟩
    intro q
    rw [hth'.text.blanked_pairs hblocks (slice_ne_nil (by omega) (by omega)) hmem]
    · simp only [true_and]
    · rw [slice_headD _ _ (by omega), hs.clipCount_eq]
      exact row_toNat b hTm
    · rw [length_slice _ (by omega), hs.clipCount_eq, hm]
      omega

/-- A row is one of the rows of a block, or its line is none of them. -/
theorem Threaded.row_mem_slice (h : Threaded b e pre post) {i j : ℕ} {t : Int} (h0 : 0 ≤ t)
    (ht : t ≤ b.lines) (hj : (j : Int) ≤ b.lines+1) :
    b.row t ∈ slice i j b.linest ↔ i ≤ t ∧ t < j := by
  have hlen := h.length
  constructor
  · intro hmem
    obtain ⟨k, hik, hkj, -, hk⟩ := mem_slice hmem
    have hsame : (k : Int) = t := by
      by_contra hne
      rcases lt_or_gt_of_ne hne with hlt | hlt
      · exact h.row_ne (Int.natCast_nonneg k) hlt ht (hk.symm.trans rfl)
      · exact h.row_ne h0 hlt (by omega) hk
    omega
  · rintro ⟨hi, hj'⟩
    rw [VSbuf.row, List.getD_eq_getElem _ _ (by omega), slice]
    rw [List.mem_iff_getElem]
    refine ⟨t.toNat-i, by rw [List.length_drop, List.length_take]; omega, ?_⟩
    rw [List.getElem_drop, List.getElem_take]
    congr 1
    omega

/-- The rows of the region behind a deletion are those below, and single ones. -/
theorem VSIdellines_rowSize (h : Chained b) (hs : OnScreen r b s) (hn : 1 ≤ n) {t : Int}
    (ht : startRow r s ≤ t) (ht' : t ≤ r.bottom) : (VSIdellines r b n s).rowSize t =
      if t+n ≤ r.bottom then b.rowSize (t+n) else 0 := by
  have h0 := hs.row_nonneg
  have hbot := hs.bottom_le
  obtain ⟨m, hm⟩ : ∃ m : ℕ, blanked r.bottom n (startRow r s) = m :=
    ⟨_, (Int.toNat_of_nonneg (by rw [blanked]; omega)).symm⟩
  obtain ⟨hrows, hlattr⟩ := h.deleted hs hn (Int.toNat_of_nonneg h0).symm (by omega) hm
  obtain ⟨e, pre, post, hth, -, -⟩ := h
  have hlen := hth.length
  rw [blanked] at hm
  have hrow : (VSIdellines r b n s).row t = if t+n ≤ r.bottom then b.row (t+n)
      else b.row (t+(startRow r s+m)-(r.bottom+1)) := by
    rw [VSbuf.row, hrows, exchangeRows_getD_inside _ (by omega) (by omega) (by omega) (by omega)
      (by omega)]
    split_ifs
    · rw [VSbuf.row]
      congr 1
      omega
    · omega
    · omega
    · rw [VSbuf.row]
      congr 1
      omega
  rw [VSbuf.rowSize, hrow, hlattr]
  by_cases hleft : t+n ≤ r.bottom
  · have hout : b.row (t+n) ∉ slice (startRow r s).toNat ((startRow r s).toNat+m) b.linest := by
      rw [hth.row_mem_slice (by omega) (by omega) (by omega)]
      omega
    rw [if_pos hleft, if_neg hout, if_pos hleft]
    rfl
  · have hin : b.row (t+(startRow r s+m)-(r.bottom+1)) ∈
        slice (startRow r s).toNat ((startRow r s).toNat+m) b.linest := by
      rw [hth.row_mem_slice (by omega) (by omega) (by omega)]
      omega
    rw [if_neg hleft, if_pos hin, if_neg hleft]
    decide

/-- The line that an insertion brings to its first row keeps its size in the linked
scrollback. -/
theorem VSIinslines_rowSize (h : Chained b) (hs : OnScreen r b s) (hn : 1 ≤ n)
    (hle : startRow r s ≤ r.bottom) : (VSIinslines r b n s).rowSize (startRow r s) =
      if b.oldScrollback then 0 else b.rowSize (max (startRow r s) (r.bottom+1-n)) := by
  have h0 := hs.row_nonneg
  have hbot := hs.bottom_le
  obtain ⟨m, hm⟩ : ∃ m : ℕ, blanked r.bottom n (startRow r s) = m :=
    ⟨_, (Int.toNat_of_nonneg (by rw [blanked]; omega)).symm⟩
  have hT : r.bottom+1 = (r.bottom+1-m).toNat+m := by
    rw [blanked] at hm
    omega
  obtain ⟨hrows, hlattr⟩ := h.inserted hs hn (Int.toNat_of_nonneg h0).symm hle hm hT
  obtain ⟨e, pre, post, hth, -, -⟩ := h
  have hlen := hth.length
  rw [blanked] at hm
  have hrow : (VSIinslines r b n s).row (startRow r s) =
      b.row (max (startRow r s) (r.bottom+1-n)) := by
    rw [VSbuf.row, hrows, exchangeRows_getD_inside _ (by omega) (by omega) (by omega) (by omega)
      (by omega), if_pos (by omega), VSbuf.row]
    congr 1
    omega
  have hin : b.row (max (startRow r s) (r.bottom+1-n)) ∈
      slice (r.bottom+1-m).toNat (r.bottom+1).toNat b.linest := by
    rw [hth.row_mem_slice (by omega) (by omega) (by omega)]
    omega
  rw [VSbuf.rowSize, hrow, hlattr]
  by_cases hold : b.oldScrollback = true
  · rw [if_pos ⟨hold, hin⟩, if_pos hold]
    decide
  · rw [if_neg (fun hc => hold hc.1), if_neg hold]
    rfl

end Blocks

section Scrolls
variable {r : VSregion} {b : VSbuf} {e : Option Ptr} {pre post : List Ptr}

/-- The rows of the linked scrollback have moved on. -/
theorem Threaded.scrolledUp (h : Threaded b e pre post) (hold : b.oldScrollback = false)
    (hanch : Anchored b e pre) (r : VSregion) :
    ∃ e' pre' post', Threaded (scrolledUp r (advanceBuffer b)) e' pre' post' := by
  obtain ⟨-, -, e', post₁, hext, -⟩ := advanceBuffer_spec h hold (hanch.mem h) (fun _ => hanch)
  obtain ⟨hrows, -, hlinks, hbrk⟩ := scrolledUp_frame r (advanceBuffer b)
  obtain ⟨pre', post', -, hth', -⟩ := hext.threaded.shift hext.nonempty
  exact ⟨e', pre', post', hth'.of_links hrows hlinks hbrk⟩

theorem scrolledUp_last (r : VSregion) (b : VSbuf) :
    (scrolledUp r b).mem.lattr (scrolledUp r b).lastRow = 0 := by
  change Function.update (scrollVisible r (shiftUp b)).mem.lattr _ 0 _ = 0
  exact Function.update_self _ _ _

theorem oldScrolledUp_last (r : VSregion) (b : VSbuf) :
    (oldScrolledUp r b).mem.lattr (oldScrolledUp r b).lastRow = 0 := by
  change Function.update (scrollVisible r _).mem.lattr _ 0 _ = 0
  exact Function.update_self _ _ _

/-- The last row has come to before the row `bottom`. -/
theorem turned_row {b b' : VSbuf} {bottom : ℕ} (hlen : (b.linest.length : Int) = b.lines+1)
    (hlt : (bottom : Int) < b.lines)
    (hrows : b'.linest = exchangeRows bottom b.lines.toNat (b.lines+1).toNat b.linest) :
    b'.row bottom = b.lastRow := by
  rw [VSbuf.row, hrows, Int.toNat_natCast,
    exchangeRows_getD_first _ (by omega) (by omega) (by omega)]
  rfl

/-- A scroll leaves a single row at the bottom of the region. -/
theorem VSIscroll_rowSize (h : Chained b) (hy : r.y ≤ b.lines) (hlines : b.lines < 32767)
    (hregion : 0 ≤ r.top ∧ r.top ≤ r.bottom ∧ r.bottom ≤ b.lines) :
    (VSIscroll r b).rowSize r.bottom = 0 := by
  obtain ⟨bottom, hbottom⟩ : ∃ k : ℕ, r.bottom = k := ⟨_, (Int.toNat_of_nonneg (by omega)).symm⟩
  have hy' : ¬r.y > b.lines := not_lt.mpr hy
  by_cases hdel : b.savelines = false ∨ r.top ≠ 0
  · have hdelete : VSIscroll r b = VSIdellines r b 1 r.top := by
      rw [VSIscroll, if_neg hy']
      split_ifs with hold
      · rw [VSOscroll, if_neg hy', if_pos hdel, VSIdellines, if_pos hold]
      · rfl
    have hstart : startRow r r.top = r.top := startRow_nonneg r hregion.1
    rw [hdelete, VSIdellines_rowSize h ⟨by omega, by omega, by omega, by omega, hlines⟩ le_rfl
      (by omega) le_rfl, if_neg (by omega)]
  · obtain ⟨e, pre, post, hth, hanch, hattrs⟩ := h
    cases hold : b.oldScrollback with
    | false =>
      obtain ⟨e', pre', post', hup⟩ := hth.scrolledUp hold hanch r
      have hlast := scrolledUp_last r (advanceBuffer b)
      have hlines' : (scrolledUp r (advanceBuffer b)).lines = b.lines := by
        rw [(scrolledUp_frame r (advanceBuffer b)).1.lines]
        exact (advanceBuffer_extent b).lines
      rw [VSIscroll_saving hy' hold hdel]
      generalize scrolledUp r (advanceBuffer b) = b₂ at hup hlast hlines'
      by_cases hall : r.bottom ≠ b₂.lines
      · rw [if_pos hall, hbottom]
        apply rowSize_of_zero
        rw [turned_row hup.length (by omega) (turned_linest hup (by omega))]
        exact (congrFun (rotateBelow_lattr b₂ bottom) _).trans hlast
      · rw [if_neg hall]
        apply rowSize_of_zero
        rw [not_not.mp hall]
        exact hlast
    | true =>
      have hlast := oldScrolledUp_last r (advanceBuffer b)
      have hlines' : (oldScrolledUp r (advanceBuffer b)).lines = b.lines := by
        rw [oldScrolledUp_lines, (advanceBuffer_extent b).lines]
      rw [VSIscroll, if_neg hy', if_pos hold, VSOscroll_saving hy' hdel]
      by_cases hall : r.bottom ≠ (oldScrolledUp r (advanceBuffer b)).lines
      · have hlt : (bottom : Int) < b.lines := by omega
        obtain ⟨e', pre', post', hup, -⟩ := (hattrs hold).scrolledUp hanch hold (by omega) r
        have hrows := oldTurned_linest (hattrs hold) hanch hold r hlt
        rw [if_pos hall, hbottom]
        generalize oldScrolledUp r (advanceBuffer b) = b₂ at hup hlast hlines' hrows
        rw [← hlines'] at hrows
        apply rowSize_of_zero
        rw [turned_row hup.length (by omega) hrows]
        exact (congrFun (rotateBelow_lattr b₂ bottom) _).trans hlast
      · rw [if_neg hall]
        apply rowSize_of_zero
        rw [not_not.mp hall]
        exact hlast

end Scrolls

section Saves
variable {r : VSregion} {b : VSbuf} {e : Option Ptr} {pre post : List Ptr}

/-- The screen once a screenful of lines follows its last row. -/
def VSbuf.reserved (b : VSbuf) : VSbuf := reserveScreen b (b.lines+1).toNat 0 b.lastRow

/-- The size of the line that follows the last row then. -/
def sizeBelow (b : VSbuf) : BitVec 16 :=
  b.reserved.mem.lattr (b.reserved.next b.reserved.lastRow) &&& sizeBits

/-- The screen is saved: lines are, and the scrolling region is the whole screen. -/
def SavesScreen (r : VSregion) (b : VSbuf) : Prop :=
  b.savelines = true ∧ r.top = 0 ∧ r.bottom = b.lines

instance (r : VSregion) (b : VSbuf) : Decidable (SavesScreen r b) :=
  inferInstanceAs (Decidable (_ ∧ _))

theorem VSIscroff_eq (h : SavesScreen r b) : VSIscroff r b =
    { pushRow^[(b.lines+1).toNat] b.reserved with
      vistop := (pushRow^[(b.lines+1).toNat] b.reserved).scrntop
      Rbottom := short ((pushRow^[(b.lines+1).toNat] b.reserved).Rbottom-
        (pushRow^[(b.lines+1).toNat] b.reserved).Rtop)
      Rtop := 0 } := by
  have hno : ¬(b.savelines = false ∨ r.top ≠ 0 ∨ r.bottom ≠ b.lines) := by
    rw [h.1, h.2.1, h.2.2]
    simp
  rw [VSIscroff, if_neg hno]
  rfl

theorem VSIscroff_idle (h : ¬SavesScreen r b) : VSIscroff r b = b := by
  rw [VSIscroff, if_pos]
  by_contra hno
  push Not at hno
  exact h ⟨by simpa using hno.1, hno.2⟩

theorem pushRows_walk (k : ℕ) (b : VSbuf) : (pushRow^[k] b).mem = b.mem ∧
    (pushRow^[k] b).scrntop = b.mem.links.next^[k] b.scrntop ∧
    (0 < k → (pushRow^[k] b).linest = List.iterate b.mem.links.next
      (b.mem.links.next^[k] b.scrntop) (b.lines+1).toNat) ∧ (pushRow^[k] b).lines = b.lines := by
  have hone (b : VSbuf) : (pushRow b).mem = b.mem ∧ (pushRow b).scrntop = b.next b.scrntop ∧
      (pushRow b).linest = List.iterate b.mem.links.next (b.next b.scrntop) (b.lines+1).toNat ∧
      (pushRow b).lines = b.lines := by
    simp only [pushRow]
    split_ifs <;> exact ⟨rfl, rfl, rfl, rfl⟩
  induction k with
  | zero => exact ⟨rfl, rfl, fun h => absurd h (lt_irrefl 0), rfl⟩
  | succ k ih =>
    obtain ⟨hmem, hscr, -, hlines⟩ := ih
    obtain ⟨hmem', hscr', hlinest', hlines'⟩ := hone (pushRow^[k] b)
    rw [VSbuf.next, hmem, hscr] at hscr' hlinest'
    rw [hlines] at hlinest' hlines'
    rw [Function.iterate_succ_apply', Function.iterate_succ_apply']
    exact ⟨hmem'.trans hmem, hscr', fun _ => hlinest', hlines'⟩

/-- Reserving a screenful keeps the rows. -/
theorem Chained.reserved (h : Chained b) (hlines : b.lines < 32767) :
    (∃ e post pre, Threaded b.reserved e pre post) ∧ b.reserved.linest = b.linest ∧
      b.reserved.lines = b.lines := by
  obtain ⟨e, pre, post, hth, hanch, -⟩ := h
  cases hold : b.oldScrollback with
  | false =>
    obtain ⟨e', post', hres, -⟩ := reserveScreen_spec hth hold hlines (fun _ => hanch)
    exact ⟨⟨e', post', pre, hres.threaded⟩, hres.same.linest, hres.same.lines⟩
  | true =>
    obtain ⟨g, hlike⟩ := (TextAlike.textSide hold).reserveScreen (b.lines+1).toNat 0 b.lastRow
    have hth' : Threaded (b.textSide.granted g) e pre post :=
      ⟨hth.strand, hth.length, hth.lines_nonneg, hth.top, hth.live, hth.live_before⟩
    have hanch' : Anchored (b.textSide.granted g) e pre := hanch
    obtain ⟨e', post', hres, -⟩ := reserveScreen_spec hth' rfl hlines (fun _ => hanch')
    exact ⟨⟨e', post', pre, hlike.threaded hres.threaded⟩,
      hlike.linest.symm.trans hres.same.linest, hlike.lines.symm.trans hres.same.lines⟩

theorem Threaded.row_walk (h : Threaded b e pre post) (i : ℕ) (hi : (i : Int) ≤ b.lines) :
    b.mem.links.next^[i] b.scrntop = b.row i := by
  induction i with
  | zero =>
    rw [h.top, ← row_zero]
    rfl
  | succ i ih =>
    rw [Function.iterate_succ_apply', ih (by omega)]
    exact (h.rowsAgree.links i (Int.natCast_nonneg i) (by omega)).1

/-- After the screen is saved its first row is the line below the last one. -/
theorem VSIscroff_first (h : Chained b) (hlines : b.lines < 32767) (hsave : SavesScreen r b) :
    (VSIscroff r b).rowSize 0 = sizeBelow b := by
  obtain ⟨⟨e, post, pre, hth⟩, -, hlines'⟩ := h.reserved hlines
  have h0 := hth.lines_nonneg
  obtain ⟨hmem, -, hlinest, -⟩ := pushRows_walk (b.lines+1).toNat b.reserved
  have hrow : (VSIscroff r b).row 0 = b.reserved.next b.reserved.lastRow := by
    have hbehind : b.reserved.mem.links.next^[b.lines.toNat+1] b.reserved.scrntop =
        b.reserved.next b.reserved.lastRow := by
      rw [Function.iterate_succ_apply', hth.row_walk _ (by omega), VSbuf.next, VSbuf.lastRow,
        hlines', Int.toNat_of_nonneg (by omega)]
    have hn : (b.lines+1).toNat = b.lines.toNat+1 := by omega
    have hrows := hlinest (by omega)
    rw [hlines', hn, hbehind] at hrows
    rw [VSIscroff_eq hsave, row_zero, hn]
    change (pushRow^[b.lines.toNat+1] b.reserved).linest.headD NULL = _
    rw [hrows, headD_iterate (Nat.succ_pos _)]
  rw [VSbuf.rowSize, hrow, sizeBelow, VSIscroff_eq hsave]
  exact congrArg (fun m : LineMem => m.lattr _ &&& sizeBits) hmem

theorem VSIscroff_rows (h : Chained b) (hlines : b.lines < 32767) (r : VSregion) :
    (VSIscroff r b).linest.Nodup ∧ ((VSIscroff r b).linest.length : Int) = b.lines+1 := by
  obtain ⟨e, pre, post, hth, hanch, -⟩ := h
  cases hold : b.oldScrollback with
  | false =>
    obtain ⟨e', pre', post', hkeep⟩ := VSIscroff_spec r hth hold hanch hlines
    refine ⟨hkeep.threaded.strand.nodup.of_append_left.of_append_right, ?_⟩
    rw [hkeep.threaded.length, hkeep.size.lines]
  | true =>
    obtain ⟨g, hlike⟩ := (TextAlike.textSide hold).VSIscroff r
    have hth' : Threaded (b.textSide.granted g) e pre post :=
      ⟨hth.strand, hth.length, hth.lines_nonneg, hth.top, hth.live, hth.live_before⟩
    have hanch' : Anchored (b.textSide.granted g) e pre := hanch
    obtain ⟨e', pre', post', hkeep⟩ := VSIscroff_spec r hth' rfl hanch' hlines
    rw [← hlike.linest]
    refine ⟨hkeep.threaded.strand.nodup.of_append_left.of_append_right, ?_⟩
    rw [hkeep.threaded.length, hkeep.size.lines]
    rfl

/-- Rows that are different lines. -/
theorem row_injective {rows : List Ptr} (hnd : rows.Nodup) {lines i j : Int}
    (hlen : (rows.length : Int) = lines+1) (hi : 0 ≤ i ∧ i ≤ lines) (hj : 0 ≤ j ∧ j ≤ lines)
    (h : rows.getD i.toNat NULL = rows.getD j.toNat NULL) : i = j := by
  rw [List.getD_eq_getElem _ _ (by omega), List.getD_eq_getElem _ _ (by omega)] at h
  have hsame := hnd.getElem_inj_iff.mp h
  omega

/-- The rows that have been given back what was in them. -/
theorem restored_lattr (old : VSbuf) {rows : List Ptr} (hnd : rows.Nodup) {lines : Int}
    (hlen : (rows.length : Int) = lines+1) (l : List Int) (hl : ∀ i ∈ l, 0 ≤ i ∧ i ≤ lines)
    (b : VSbuf) (hb : b.linest = rows) :
    (l.foldl (VSscrn.restoreRow old) b).linest = rows ∧ ∀ t, 0 ≤ t → t ≤ lines →
      (l.foldl (VSscrn.restoreRow old) b).mem.lattr (rows.getD t.toNat NULL) =
        if t ∈ l then old.mem.lattr (old.row t) else b.mem.lattr (rows.getD t.toNat NULL) := by
  induction l generalizing b with
  | nil => exact ⟨hb, fun t _ _ => rfl⟩
  | cons i l ih =>
    obtain ⟨hrows, hlattr⟩ := ih (fun i hi => hl i (List.mem_cons_of_mem _ hi))
      (VSscrn.restoreRow old b i) hb
    refine ⟨hrows, ?_⟩
    intro t h0 ht
    have hstep : (VSscrn.restoreRow old b i).mem.lattr (rows.getD t.toNat NULL) =
        if t = i then old.mem.lattr (old.row i) else b.mem.lattr (rows.getD t.toNat NULL) := by
      change Function.update b.mem.lattr (b.row i) (old.mem.lattr (old.row i)) _ = _
      rw [VSbuf.row, hb]
      by_cases hti : t = i
      · rw [if_pos hti, hti, Function.update_self]
      · have hne : rows.getD t.toNat NULL ≠ rows.getD i.toNat NULL := fun he =>
          hti (row_injective hnd hlen ⟨h0, ht⟩ (hl i List.mem_cons_self) he)
        rw [if_neg hti, Function.update_of_ne hne]
    rw [List.foldl_cons, hlattr t h0 ht, hstep]
    by_cases hin : t ∈ l
    · rw [if_pos hin, if_pos (List.mem_cons_of_mem i hin)]
    · rw [if_neg hin]
      by_cases hti : t = i
      · rw [if_pos hti, if_pos (by rw [hti]; exact List.mem_cons_self), hti]
      · rw [if_neg hti, if_neg (by rw [List.mem_cons]; exact not_or_intro hti hin)]

/-- Saving the screen and giving the rows back leaves their sizes as they are. -/
theorem forceSave_rowSize (s : VSscrn) (h : Chained s.buf) (hlines : s.buf.lines < 32767) {y : Int}
    (hy : 0 ≤ y ∧ y ≤ s.buf.lines) : s.forceSave.buf.rowSize y = s.buf.rowSize y := by
  obtain ⟨hnd, hlen⟩ := VSIscroff_rows h hlines s.region
  obtain ⟨hrows, hlattr⟩ := restored_lattr s.buf hnd hlen (loopRange 0 s.buf.lines)
    (fun i hi => mem_loopRange.mp hi) (VSIscroff s.region s.buf) rfl
  change ((loopRange 0 s.buf.lines).foldl (VSscrn.restoreRow s.buf)
    (VSIscroff s.region s.buf)).rowSize y = _
  rw [VSbuf.rowSize, VSbuf.row, hrows, hlattr y hy.1 hy.2, if_pos (mem_loopRange.mpr hy)]
  rfl

end Saves

end VS
