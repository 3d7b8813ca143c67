import MacSSH.OldScrollback

/-! Line insertion and deletion as a host asks for them, and the margins. -/
namespace VS

open Linked

/-- The count that a host gives; a count below one means one. -/
def lineCount (parm : Int) : Int := if parm < 1 then 1 else parm

/-- The host inserts lines at the cursor row. -/
def VSemL (r : VSregion) (b : VSbuf) (parm : Int) : VSbuf := VSIinslines r b (lineCount parm) (-1)

/-- The host deletes lines at the cursor row. -/
def VSemM (r : VSregion) (b : VSbuf) (parm : Int) : VSbuf := VSIdellines r b (lineCount parm) (-1)

/-- No row outside the margins changes, and nothing changes when the cursor is outside
them. -/
structure RespectsMargins (r : VSregion) (b b' : VSbuf) : Prop where
  outside : ∀ i, 0 ≤ i → i ≤ b.lines → i < r.top ∨ r.bottom < i →
    b'.rowContents i = b.rowContents i
  nothing : r.y < r.top ∨ r.bottom < r.y → b' = b

/-- An edit of `n` lines leaves no row from the cursor to the bottom margin, and these
rows are what it would make of them; `l` says whether it clears line attributes. -/
def AlreadyBlank (r : VSregion) (b : VSbuf) (l : Bool) (n : Int) : Prop :=
  r.bottom < r.y+n ∧ ∀ i, r.y ≤ i → i ≤ r.bottom →
    b.rowContents i = blankRow b.allwidth r.blankAttrib (if l then 0 else (b.rowContents i).lattr)

theorem lineCount_pos (parm : Int) : 1 ≤ lineCount parm := by
  rw [lineCount]
  split_ifs <;> omega

/-- The line that keeps the attributes of row `i`. -/
def VSbuf.cellRow (b : VSbuf) (i : Int) : Ptr := if b.oldScrollback then b.attrRow i else b.row i

section Cells
variable {m : LineMem} {w : Int} {a : BitVec 32} {l : Bool}

theorem map_range_eq {α : Type} (f : Int → α) (c : α) :
    (List.range (w+1).toNat).map (fun j : ℕ => f j) = List.replicate (w+1).toNat c ↔
      ∀ j, 0 ≤ j → j ≤ w → f j = c := by
  rw [List.eq_replicate_iff, List.length_map, List.length_range]
  constructor
  · rintro ⟨-, h⟩ j h0 hj
    apply h
    refine List.mem_map.mpr ⟨j.toNat, List.mem_range.mpr (by omega), ?_⟩
    rw [Int.toNat_of_nonneg h0]
  · refine fun h => ⟨rfl, fun c' hc => ?_⟩
    obtain ⟨j, hj, rfl⟩ := List.mem_map.mp hc
    have hj' := List.mem_range.mp hj
    exact h j (by omega) (by omega)

/-- A row is blank when its cells are. -/
theorem contents_eq_blankRow {p pa : Ptr} {v : BitVec 16} :
    m.contents w p pa = blankRow w a v ↔ (∀ j, 0 ≤ j → j ≤ w → m.text p j = 32) ∧
      (∀ j, 0 ≤ j → j ≤ w → m.attr pa j = a) ∧ m.lattr p = v := by
  rw [LineMem.contents, blankRow, Row.mk.injEq, map_range_eq, map_range_eq]

theorem blanked_rest (L : List (Ptr × Ptr)) : (L.foldl (blankOne w a l) m).links = m.links ∧
    (L.foldl (blankOne w a l) m).brk = m.brk ∧ (L.foldl (blankOne w a l) m).grants = m.grants := by
  induction L generalizing m with
  | nil => exact ⟨rfl, rfl, rfl⟩
  | cons q L ih =>
    obtain ⟨h1, h2, h3⟩ := ih (m := blankOne w a l m q)
    rw [List.foldl_cons, h1, h2, h3]
    cases l <;> exact ⟨rfl, rfl, rfl⟩

theorem LineMem.eq_iff (m m' : LineMem) : m' = m ↔ m'.links = m.links ∧ m'.text = m.text ∧
    m'.attr = m.attr ∧ m'.lattr = m.lattr ∧ m'.brk = m.brk ∧ m'.grants = m.grants := by
  cases m
  cases m'
  rw [LineMem.mk.injEq]

/-- Blanking lines changes nothing exactly when they are blank. -/
theorem blanked_eq_self {X Y : List Ptr} (hlen : X.length = Y.length) :
    (X.zip Y).foldl (blankOne w a l) m = m ↔
      (∀ q ∈ X, ∀ j, 0 ≤ j → j ≤ w → m.text q j = 32) ∧
        (∀ q ∈ Y, ∀ j, 0 ≤ j → j ≤ w → m.attr q j = a) ∧ (l = true → ∀ q ∈ X, m.lattr q = 0) := by
  have hX : (X.zip Y).map Prod.fst = X := List.map_fst_zip hlen.le
  have hY : (X.zip Y).map Prod.snd = Y := List.map_snd_zip hlen.ge
  obtain ⟨h1, h2, h3⟩ := blanked_rest (m := m) (w := w) (a := a) (l := l) (X.zip Y)
  rw [LineMem.eq_iff]
  simp only [h1, h2, h3, funext_iff (f := LineMem.lattr _), true_and, and_true]
  refine and_congr ?_ (and_congr ?_ ?_)
  · rw [funext_iff]
    refine forall_congr' fun q => ?_
    rw [blanked_text, hX, ← filled_eq_self, ite_eq_right_iff]
  · rw [funext_iff]
    refine forall_congr' fun q => ?_
    rw [blanked_attr, hY, ← filled_eq_self, ite_eq_right_iff]
  · constructor
    · intro h hl q hq
      rw [← h q, blanked_lattr, hX, if_pos ⟨hl, hq⟩]
    · intro h q
      rw [blanked_lattr, hX, ite_eq_right_iff]
      exact fun hc => (h hc.1 q hc.2).symm

end Cells

section Rows
variable {r : VSregion} {b : VSbuf} {n s : Int}

theorem WellFormed.next_row (h : WellFormed b) {S : Int} (h0 : 0 ≤ S) (i : ℕ)
    (hi : S+i ≤ b.lines) : b.next^[i] (b.row S) = b.row (S+i) := by
  induction i with
  | zero => rw [Function.iterate_zero_apply, Int.natCast_zero, Int.add_zero]
  | succ i ih =>
    rw [Function.iterate_succ_apply', ih (by omega), ← h.next _ (by omega) (by omega)]
    congr 1
    push_cast
    omega

/-- The lines that blanking from row `S` on walks over are the rows from `S` on. -/
theorem WellFormed.mem_walk (h : WellFormed b) {S : Int} (h0 : 0 ≤ S) {k : ℕ}
    (hk : S+k ≤ b.lines+1) {q : Ptr} :
    q ∈ List.iterate b.next (b.row S) k ↔ ∃ i, S ≤ i ∧ i < S+k ∧ q = b.row i := by
  rw [List.mem_iterate]
  constructor
  · rintro ⟨i, hi, rfl⟩
    exact ⟨S+i, by omega, by omega, h.next_row h0 i (by omega)⟩
  · rintro ⟨i, hSi, hi, rfl⟩
    refine ⟨(i-S).toNat, by omega, ?_⟩
    rw [h.next_row h0 _ (by omega)]
    congr 1
    omega

/-- The rows as they are afterwards when nothing has been relinked. -/
theorem AnyScreen.resettle (h : AnyScreen b) {m : LineMem} (hm : m.links = b.mem.links) :
    syncVisible (VSIlistndx { b with mem := m, scrntop := b.row 0 } (b.row 0)) =
      { b with mem := m } := by
  have hwalk : List.iterate m.links.next (b.row 0) (b.lines+1).toNat = b.linest := by
    rw [hm, h.linest_eq, h.top]
    rfl
  have hndx :
      VSIlistndx { b with mem := m, scrntop := b.row 0 } (b.row 0) = { b with mem := m } := by
    rw [VSIlistndx]
    change ({ b with mem := m, scrntop := b.row 0, linest := _ } : VSbuf) = _
    rw [hwalk, h.top]
  rw [hndx, syncVisible]
  split_ifs with hR
  · change ({ b with mem := m, vistop := b.row b.Rtop } : VSbuf) = _
    rw [← h.visible hR]
  · rfl

theorem AnyScreen.resettle_old (h : AnyScreen b) (hold : b.oldScrollback = true) {m : LineMem}
    (hm : m.links = b.mem.links) :
    syncVisible (VSOlistndx { b with mem := m, scrntop := b.row 0 } (b.row 0) (b.attrRow 0)) =
      { b with mem := m } := by
  have hwalk : List.iterate m.links.next (b.row 0) (b.lines+1).toNat = b.linest := by
    rw [hm, h.linest_eq, h.top]
    rfl
  have hawalk : List.iterate m.links.next (b.attrRow 0) (b.lines+1).toNat = b.attrst := by
    rw [hm]
    exact (h.attrRows hold).linest_eq.symm
  have hndx : VSOlistndx { b with mem := m, scrntop := b.row 0 } (b.row 0) (b.attrRow 0) =
      { b with mem := m } := by
    rw [VSOlistndx]
    change ({ b with mem := m, scrntop := b.row 0, linest := _, attrst := _ } : VSbuf) = _
    rw [hwalk, hawalk, h.top]
  rw [hndx, syncVisible]
  split_ifs with hR
  · change ({ b with mem := m, vistop := b.row b.Rtop } : VSbuf) = _
    rw [← h.visible hR]
  · rfl

/-- The lines after an edit that leaves none of the rows from row `s` to the bottom
margin: these rows are blank. -/
def wiped (r : VSregion) (b : VSbuf) (l : Bool) (S : Int) : VSbuf :=
  { b with
    mem := ((List.iterate b.next (b.row S) (r.bottom-S+1).toNat).zip
      (List.iterate b.next (b.cellRow S) (r.bottom-S+1).toNat)).foldl
        (blankOne b.allwidth r.blankAttrib l) b.mem }

theorem blankAll_links (w : Int) (a : BitVec 32) (l : Bool) (L : List (Ptr × Ptr)) (m : LineMem) :
    (L.foldl (blankOne w a l) m).links = m.links := (blanked_rest L).1

/-- Deleting all rows from the cursor to the bottom margin only blanks them. -/
theorem VSIdellines_wiped (h : AnyScreen b) (hs : OnScreen r b s)
    (hn : r.bottom < startRow r s+n) :
    VSIdellines r b n s = wiped r b true (startRow r s) := by
  have hclip : clipCount r n (startRow r s) = r.bottom-startRow r s+1 := by
    rcases hs.clipCount_cases (n := n) with ⟨hle, -⟩ | ⟨-, hclip⟩
    · omega
    · exact hclip
  have hbot := hs.bottom_nonneg
  have htop : ¬(startRow r s = 0 ∧ r.bottom-startRow r s+1 ≤ r.bottom) := by omega
  have hBD : startRow r s+(r.bottom-startRow r s+1)-1 = r.bottom := by omega
  cases hold : b.oldScrollback with
  | false =>
    rw [VSIdellines, if_neg (by rw [hold]; exact Bool.false_ne_true)]
    simp only [hclip, hBD, if_neg htop, moveUnlessAdjacent_of_eq (Or.inr rfl)]
    rw [wiped, VSbuf.cellRow, if_neg (by rw [hold]; exact Bool.false_ne_true), blankLines_eq_foldl]
    exact h.resettle (blankAll_links ..)
  | true =>
    rw [VSIdellines, if_pos hold, VSOdellines]
    simp only [hclip, hBD, if_neg htop, moveUnlessAdjacent_of_eq (Or.inr rfl)]
    rw [wiped, VSbuf.cellRow, if_pos hold, blankLinePairs_eq_foldl]
    exact h.resettle_old hold (blankAll_links ..)

/-- Inserting as many rows as there are from the cursor to the bottom margin only
blanks them. -/
theorem VSIinslines_wiped (h : AnyScreen b) (hs : OnScreen r b s)
    (hn : r.bottom < startRow r s+n) :
    VSIinslines r b n s = wiped r b b.oldScrollback (startRow r s) := by
  have hclip : clipCount r n (startRow r s) = r.bottom-startRow r s+1 := by
    rcases hs.clipCount_cases (n := n) with ⟨hle, -⟩ | ⟨-, hclip⟩
    · omega
    · exact hclip
  have hTD : r.bottom-(r.bottom-startRow r s+1)+1 = startRow r s := by omega
  have htop : (if startRow r s = 0 ∧ r.bottom-startRow r s+1 ≤ b.lines
      then b.row (startRow r s) else b.row 0) = b.row 0 := by
    split_ifs with hz
    · rw [hz.1]
    · rfl
  have hatop : (if startRow r s = 0 ∧ r.bottom-startRow r s+1 ≤ b.lines
      then b.attrRow (startRow r s) else b.attrRow 0) = b.attrRow 0 := by
    split_ifs with hz
    · rw [hz.1]
    · rfl
  cases hold : b.oldScrollback with
  | false =>
    rw [VSIinslines, if_neg (by rw [hold]; exact Bool.false_ne_true)]
    simp only [hclip, hTD, htop, moveUnlessAdjacent_of_eq (Or.inl rfl)]
    rw [wiped, VSbuf.cellRow, if_neg (by rw [hold]; exact Bool.false_ne_true), blankLines_eq_foldl]
    exact h.resettle (blankAll_links ..)
  | true =>
    rw [VSIinslines, if_pos hold, VSOinslines]
    simp only [hclip, hTD, htop, hatop, moveUnlessAdjacent_of_eq (Or.inl rfl)]
    rw [wiped, VSbuf.cellRow, if_pos hold, blankLinePairs_eq_foldl]
    exact h.resettle_old hold (blankAll_links ..)

theorem AnyScreen.mem_cellWalk (h : AnyScreen b) {S : Int} (h0 : 0 ≤ S) {k : ℕ}
    (hk : S+k ≤ b.lines+1) {q : Ptr} :
    q ∈ List.iterate b.next (b.cellRow S) k ↔ ∃ i, S ≤ i ∧ i < S+k ∧ q = b.cellRow i := by
  cases hold : b.oldScrollback with
  | false =>
    simp only [VSbuf.cellRow, hold, if_neg Bool.false_ne_true]
    exact h.mem_walk h0 hk
  | true =>
    simp only [VSbuf.cellRow, hold, if_pos]
    exact (h.attrRows hold).mem_walk h0 hk

theorem AnyScreen.cellRow_ne (h : AnyScreen b) {i j : Int} (hi : 0 ≤ i) (hij : i < j)
    (hj : j ≤ b.lines) : b.cellRow i ≠ b.cellRow j := by
  cases hold : b.oldScrollback with
  | false =>
    simp only [VSbuf.cellRow, hold, if_neg Bool.false_ne_true]
    exact h.distinct i j hi hij hj
  | true =>
    simp only [VSbuf.cellRow, hold, if_pos]
    exact (h.attrRows hold).distinct i j hi hij hj

theorem rowContents_eq (b : VSbuf) (i : Int) :
    b.rowContents i = b.mem.contents b.allwidth (b.row i) (b.cellRow i) := rfl

/-- Blanking the rows down to the bottom margin changes nothing exactly when they are
blank. -/
theorem wiped_eq_self (h : AnyScreen b) {l : Bool} {S : Int} (h0 : 0 ≤ S)
    (hbot : r.bottom ≤ b.lines) (hS : S ≤ r.bottom+1) : wiped r b l S = b ↔
      ∀ i, S ≤ i → i ≤ r.bottom → b.rowContents i =
        blankRow b.allwidth r.blankAttrib (if l then 0 else (b.rowContents i).lattr) := by
  have hmem : wiped r b l S = b ↔ (wiped r b l S).mem = b.mem := by
    constructor
    · exact congrArg VSbuf.mem
    · intro hm
      change ({ b with mem := (wiped r b l S).mem } : VSbuf) = b
      rw [hm]
  have hk : S+((r.bottom-S+1).toNat : ℕ) = r.bottom+1 := by omega
  have hk' : S+((r.bottom-S+1).toNat : ℕ) ≤ b.lines+1 := by omega
  have hlen : (List.iterate b.next (b.row S) (r.bottom-S+1).toNat).length =
      (List.iterate b.next (b.cellRow S) (r.bottom-S+1).toNat).length := by
    rw [List.length_iterate, List.length_iterate]
  rw [hmem, wiped, blanked_eq_self hlen]
  simp only [h.mem_walk h0 hk', h.mem_cellWalk h0 hk', rowContents_eq,
    contents_eq_blankRow, hk]
  constructor
  · rintro ⟨ht, ha, hl⟩ i hi hi'
    refine ⟨ht _ ⟨i, hi, by omega, rfl⟩, ha _ ⟨i, hi, by omega, rfl⟩, ?_⟩
    split_ifs with hc
    · exact hl hc _ ⟨i, hi, by omega, rfl⟩
    · rfl
  · intro hall
    refine ⟨?_, ?_, ?_⟩
    · rintro q ⟨i, hi, hi', rfl⟩
      exact (hall i hi (by omega)).1
    · rintro q ⟨i, hi, hi', rfl⟩
      exact (hall i hi (by omega)).2.1
    · rintro hc q ⟨i, hi, hi', rfl⟩
      have hlat := (hall i hi (by omega)).2.2
      rw [if_pos hc] at hlat
      exact hlat

/-- Blanking the rows down to the bottom margin leaves the other rows. -/
theorem wiped_outside (h : AnyScreen b) {l : Bool} {S i : Int} (h0 : 0 ≤ S)
    (hbot : r.bottom ≤ b.lines) (hi : 0 ≤ i) (hi' : i ≤ b.lines) (hout : i < S ∨ r.bottom < i) :
    (wiped r b l S).rowContents i = b.rowContents i := by
  rcases le_or_gt S (r.bottom+1) with hS | hS
  · have hX : b.row i ∉ List.iterate b.next (b.row S) (r.bottom-S+1).toNat := by
      rw [h.mem_walk h0 (by omega)]
      rintro ⟨j, hSj, hj, he⟩
      rcases lt_trichotomy i j with hij | rfl | hij
      · exact h.distinct i j hi hij (by omega) he
      · omega
      · exact h.distinct j i (by omega) hij hi' he.symm
    have hY : b.cellRow i ∉ List.iterate b.next (b.cellRow S) (r.bottom-S+1).toNat := by
      rw [h.mem_cellWalk h0 (by omega)]
      rintro ⟨j, hSj, hj, he⟩
      rcases lt_trichotomy i j with hij | rfl | hij
      · exact h.cellRow_ne hi hij (by omega) he
      · omega
      · exact h.cellRow_ne (by omega) hij hi' he.symm
    rw [rowContents_eq, rowContents_eq]
    change (wiped r b l S).mem.contents b.allwidth (b.row i) (b.cellRow i) = _
    rw [wiped, blanked_contents (by rw [List.length_iterate, List.length_iterate])
      (iff_of_false hX hY), if_neg hX]
  · have hz : (r.bottom-S+1).toNat = 0 := by omega
    rw [wiped, hz]
    rfl

/-- The lines that keep the attributes of the rows. -/
def VSbuf.cellst (b : VSbuf) : List Ptr := if b.oldScrollback then b.attrst else b.linest

theorem cellRow_eq (b : VSbuf) (i : Int) : b.cellRow i = b.cellst.getD i.toNat NULL := by
  rw [VSbuf.cellRow, VSbuf.cellst]
  split_ifs <;> rfl

/-- An edit that leaves some rows of the region: two blocks of rows have been exchanged,
and one of them is blank. -/
structure Exchanged (b b' : VSbuf) (i j k : ℕ) : Prop where
  rows : b'.linest = exchangeRows i j k b.linest
  cells : b'.cellst = exchangeRows i j k b.cellst
  blanks : ∃ a l X Y, Blanks b b' a l X Y ∧ X ⊆ slice i k b.linest ∧ Y ⊆ slice i k b.cellst

theorem slice_subset_left {α : Type} (l : List α) {i j k : ℕ} (hjk : j ≤ k) :
    slice i j l ⊆ slice i k l := by
  intro q hq
  rw [slice, List.drop_take] at hq ⊢
  exact List.take_subset_take_left _ (Nat.sub_le_sub_right hjk i) hq

theorem slice_subset_right {α : Type} (l : List α) {i j k : ℕ} (hij : i ≤ j) :
    slice j k l ⊆ slice i k l := by
  intro q hq
  rw [slice] at hq ⊢
  exact List.drop_subset_drop_left _ hij hq

/-- A deletion that leaves some rows. -/
theorem VSIdellines_exchanged (h : AnyScreen b) (hs : OnScreen r b s) (hn : 1 ≤ n)
    (hle : startRow r s+n ≤ r.bottom) : Exchanged b (VSIdellines r b n s) (startRow r s).toNat
      (startRow r s+n).toNat (r.bottom+1).toNat := by
  have h0 := hs.row_nonneg
  have hbot := hs.bottom_le
  have hblank : blanked r.bottom n (startRow r s) = (n.toNat : ℕ) := by
    rw [blanked]
    omega
  have hS : startRow r s = ((startRow r s).toNat : ℕ) := by omega
  have hj : (startRow r s).toNat+n.toNat = (startRow r s+n).toNat := by omega
  have hjk : (startRow r s+n).toNat ≤ (r.bottom+1).toNat := by omega
  cases hold : b.oldScrollback with
  | false =>
    obtain ⟨e, pre, post, hth, -⟩ := h.toWellFormed.threaded
    have hrows := (VSIdellines_rows hth hold hs hn).1
    obtain ⟨-, hb⟩ := VSIdellines_blanks hth hold hs hn hS (by omega) hblank
    have hold' := hb.oldScrollback.trans hold
    rw [deletedRows, if_pos hle] at hrows
    rw [hj] at hb
    have hsub := slice_subset_left b.linest (i := (startRow r s).toNat) hjk
    refine ⟨hrows, ?_, _, _, _, _, hb, hsub, ?_⟩
    · simp only [VSbuf.cellst, hold, hold', if_neg Bool.false_ne_true]
      exact hrows
    · simp only [VSbuf.cellst, hold, if_neg Bool.false_ne_true]
      exact hsub
  | true =>
    obtain ⟨e, pre, post, hth⟩ := h.oldThreaded hold
    obtain ⟨hrows, hattrs, hth'⟩ := VSOdellines_rows hth hs hn
    have hmem := VSOdellines_mem (r := r) (b := b) (n := n) (s := s)
    have hlen := hth.text.length
    have halen : (b.attrst.length : Int) = b.lines+1 := hth.attrs.length
    rw [deletedRows, if_pos hle] at hrows hattrs
    rw [VSIdellines, if_pos hold]
    have hold' := hmem.2.1.trans hold
    have hcells : (VSOdellines r b n s).cellst = exchangeRows (startRow r s).toNat
        (startRow r s+n).toNat (r.bottom+1).toNat b.cellst := by
      simp only [VSbuf.cellst, hold, hold', if_pos]
      exact hattrs
    have hcellst : b.cellst = b.attrst := if_pos hold
    refine ⟨hrows, hcells, r.blankAttrib, true, slice (startRow r s).toNat (startRow r s+n).toNat
      b.linest, slice (startRow r s).toNat (startRow r s+n).toNat b.attrst, ?_,
      slice_subset_left _ hjk, hcellst ▸ slice_subset_left _ hjk⟩
    rw [exchangeRows, ← List.append_assoc] at hrows hattrs
    have hclip : clipCount r n (startRow r s) = n := by rw [hs.clipCount_eq, hblank]; omega
    apply hth'.blanks hrows hattrs (slice_ne_nil (by omega) (by omega))
      (slice_ne_nil (by omega) (by omega)) hmem
    · rw [slice_headD _ _ (by omega)]
      rfl
    · rw [slice_headD _ _ (by omega)]
      rfl
    · rw [length_slice _ (by omega), hclip]
      omega
    · rw [length_slice _ (by omega), hclip]
      omega

/-- An insertion that leaves some rows. -/
theorem VSIinslines_exchanged (h : AnyScreen b) (hs : OnScreen r b s) (hn : 1 ≤ n)
    (hle : startRow r s+n ≤ r.bottom) : Exchanged b (VSIinslines r b n s) (startRow r s).toNat
      (r.bottom-n+1).toNat (r.bottom+1).toNat := by
  have h0 := hs.row_nonneg
  have hbot := hs.bottom_le
  have hblank : blanked r.bottom n (startRow r s) = (n.toNat : ℕ) := by
    rw [blanked]
    omega
  have hS : startRow r s = ((startRow r s).toNat : ℕ) := by omega
  have hj : r.bottom+1 = ((r.bottom-n+1).toNat : ℕ)+(n.toNat : ℕ) := by omega
  have hij : (startRow r s).toNat ≤ (r.bottom-n+1).toNat := by omega
  cases hold : b.oldScrollback with
  | false =>
    obtain ⟨e, pre, post, hth, -⟩ := h.toWellFormed.threaded
    have hrows := (VSIinslines_rows hth hold hs hn).1
    obtain ⟨-, hb⟩ := VSIinslines_blanks hth hold hs hn hS (by omega) hblank hj
    have hold' := hb.oldScrollback.trans hold
    rw [insertedRows, if_pos hle] at hrows
    have hsub := slice_subset_right b.linest (k := (r.bottom+1).toNat) hij
    refine ⟨hrows, ?_, _, _, _, _, hb, hsub, ?_⟩
    · simp only [VSbuf.cellst, hold, hold', if_neg Bool.false_ne_true]
      exact hrows
    · simp only [VSbuf.cellst, hold, if_neg Bool.false_ne_true]
      exact hsub
  | true =>
    obtain ⟨e, pre, post, hth⟩ := h.oldThreaded hold
    obtain ⟨hrows, hattrs, hth'⟩ := VSOinslines_rows hth hs hn
    have hmem := VSOinslines_mem (r := r) (b := b) (n := n) (s := s)
    have hlen := hth.text.length
    have halen : (b.attrst.length : Int) = b.lines+1 := hth.attrs.length
    rw [insertedRows, if_pos hle] at hrows hattrs
    rw [VSIinslines, if_pos hold]
    have hold' := hmem.2.1.trans hold
    have hcells : (VSOinslines r b n s).cellst = exchangeRows (startRow r s).toNat
        (r.bottom-n+1).toNat (r.bottom+1).toNat b.cellst := by
      simp only [VSbuf.cellst, hold, hold', if_pos]
      exact hattrs
    have hcellst : b.cellst = b.attrst := if_pos hold
    refine ⟨hrows, hcells, r.blankAttrib, true, slice (r.bottom-n+1).toNat (r.bottom+1).toNat
      b.linest, slice (r.bottom-n+1).toNat (r.bottom+1).toNat b.attrst, ?_,
      slice_subset_right _ hij, hcellst ▸ slice_subset_right _ hij⟩
    rw [exchangeRows, ← List.append_assoc, List.append_assoc (_ ++ _)] at hrows hattrs
    have hclip : clipCount r n (startRow r s) = n := by rw [hs.clipCount_eq, hblank]; omega
    have hn' : r.bottom-clipCount r n (startRow r s)+1 = r.bottom-n+1 := by rw [hclip]
    rw [hn'] at hmem
    apply hth'.blanks hrows hattrs (slice_ne_nil (by omega) (by omega))
      (slice_ne_nil (by omega) (by omega)) hmem
    · rw [slice_headD _ _ (by omega)]
      rfl
    · rw [slice_headD _ _ (by omega)]
      rfl
    · rw [length_slice _ (by omega), hclip]
      omega
    · rw [length_slice _ (by omega), hclip]
      omega

/-- An exchange of blocks keeps what lies behind them. -/
theorem exchangeRows_getD_behind (rows : List Ptr) {i j k t : ℕ} (hij : i ≤ j) (hjk : j ≤ k)
    (hk : k ≤ rows.length) (ht : k ≤ t) :
    (exchangeRows i j k rows).getD t NULL = rows.getD t NULL := by
  have hlen : (rows.take i ++ (slice j k rows ++ slice i j rows)).length = k := by
    rw [List.length_append, List.length_append, List.length_take, length_slice rows hk,
      length_slice rows (hjk.trans hk)]
    omega
  rw [exchangeRows, List.getD_append_right _ _ _ _ (by omega), hlen, List.getD_eq_getElem?_getD,
    List.getElem?_drop, List.getD_eq_getElem?_getD]
  congr 2
  omega

/-- The second block comes to where the first one started. -/
theorem exchangeRows_getD_first (rows : List Ptr) {i j k : ℕ} (hij : i ≤ j) (hjk : j < k)
    (hk : k ≤ rows.length) : (exchangeRows i j k rows).getD i NULL = rows.getD j NULL := by
  have hlen : (rows.take i).length = i := by
    rw [List.length_take]
    omega
  have hne := slice_ne_nil hjk hk
  rw [exchangeRows, List.append_assoc, List.getD_append_right _ _ _ _ (by omega), hlen,
    Nat.sub_self, ← slice_headD rows NULL hjk]
  obtain ⟨a, l, hl⟩ := List.exists_cons_of_ne_nil hne
  rw [hl]
  rfl

theorem mem_slice {rows : List Ptr} {i k : ℕ} {q : Ptr} (hq : q ∈ slice i k rows) :
    ∃ t, i ≤ t ∧ t < k ∧ t < rows.length ∧ q = rows.getD t NULL := by
  rw [slice] at hq
  obtain ⟨t, ht, rfl⟩ := List.getElem_of_mem hq
  rw [List.length_drop, List.length_take] at ht
  refine ⟨i+t, by omega, by omega, by omega, ?_⟩
  rw [List.getElem_drop, List.getElem_take, List.getD_eq_getElem]

section Exchanged
variable {b' : VSbuf} {i j k : ℕ}

theorem Exchanged.outside (hx : Exchanged b b' i j k) (h : AnyScreen b) (hij : i ≤ j) (hjk : j ≤ k)
    (hk : (k : Int) ≤ b.lines+1) {t : Int} (h0 : 0 ≤ t) (ht : t ≤ b.lines)
    (hout : t < i ∨ k ≤ t) : b'.rowContents t = b.rowContents t := by
  have hlen := h.length
  have hclen : (b.cellst.length : Int) = b.lines+1 := by
    rw [VSbuf.cellst]
    split_ifs with hold
    · exact (h.attrRows hold).length
    · exact hlen
  obtain ⟨a, l, X, Y, hb, hX, hY⟩ := hx.blanks
  obtain ⟨links, hmem⟩ := hb.mem
  have hkeep : ∀ rows : List Ptr, (rows.length : Int) = b.lines+1 →
      (exchangeRows i j k rows).getD t.toNat NULL = rows.getD t.toNat NULL := by
    intro rows hrows
    rcases hout with hlt | hge
    · exact exchangeRows_getD rows (by omega) (by omega)
    · exact exchangeRows_getD_behind rows hij hjk (by omega) (by omega)
  have hrow : b'.row t = b.row t := by
    rw [VSbuf.row, hx.rows, hkeep _ hlen, VSbuf.row]
  have hcell : b'.cellRow t = b.cellRow t := by
    rw [cellRow_eq, hx.cells, hkeep _ hclen, cellRow_eq]
  -- neither list of the row is among the blank ones
  have hrow' : b.row t ∉ X := by
    intro hm
    obtain ⟨u, hiu, huk, hul, he⟩ := mem_slice (hX hm)
    rcases lt_trichotomy t u with htu | rfl | htu
    · exact h.distinct t u h0 htu (by omega) (he.trans (row_toNat b (Int.toNat_natCast u)).symm)
    · omega
    · exact h.distinct u t (by omega) htu ht
        (he.trans (row_toNat b (Int.toNat_natCast u)).symm).symm
  have hcell' : b.cellRow t ∉ Y := by
    intro hm
    obtain ⟨u, hiu, huk, hul, he⟩ := mem_slice (hY hm)
    have he' : b.cellRow t = b.cellRow u := by
      rw [he, cellRow_eq, Int.toNat_natCast]
    rcases lt_trichotomy t u with htu | rfl | htu
    · exact h.cellRow_ne h0 htu (by omega) he'
    · omega
    · exact h.cellRow_ne (by omega) htu ht he'.symm
  rw [rowContents_eq, rowContents_eq, hrow, hcell, hb.allwidth, hmem,
    blanked_contents hb.length (iff_of_false hrow' hcell'), if_neg hrow']
  rfl

/-- An exchange of blocks of rows is a change. -/
theorem Exchanged.ne (hx : Exchanged b b' i j k) (h : AnyScreen b) (hij : i < j) (hjk : j < k)
    (hk : (k : Int) ≤ b.lines+1) : b' ≠ b := by
  have hlen := h.length
  intro he
  have hrow : b'.row i = b.row j := by
    rw [VSbuf.row, hx.rows, Int.toNat_natCast, exchangeRows_getD_first _ hij.le hjk (by omega),
      VSbuf.row, Int.toNat_natCast]
  rw [he] at hrow
  exact h.distinct i j (by omega) (by omega) (by omega) hrow

end Exchanged

/-- An edit of `n` lines at the cursor, once it is known what it does when it leaves no
row of the region and when it leaves some. -/
theorem respectsMargins_iff (h : AnyScreen b) (hregion : r.top ≤ r.bottom ∧ r.bottom ≤ b.lines)
    (hy : 0 ≤ r.y) (hn : 1 ≤ n) {b' : VSbuf} {l : Bool} {j : ℕ}
    (hwiped : r.bottom < r.y+n → b' = wiped r b l r.y)
    (hleft : r.y+n ≤ r.bottom → Exchanged b b' r.y.toNat j (r.bottom+1).toNat ∧ r.y.toNat < j ∧
      j < (r.bottom+1).toNat) :
    RespectsMargins r b b' ↔ r.top ≤ r.y ∨ AlreadyBlank r b l n := by
  obtain ⟨htop, hbot⟩ := hregion
  -- below the bottom margin there is nothing to blank
  have hbelow : r.bottom < r.y → wiped r b l r.y = b := by
    intro hlt
    have hz : (r.bottom-r.y+1).toNat = 0 := by omega
    rw [wiped, hz]
    rfl
  constructor
  · intro hr
    by_contra hc
    push Not at hc
    obtain ⟨hlt, hblank⟩ := hc
    have hsame := hr.nothing (Or.inl hlt)
    by_cases hle : r.y+n ≤ r.bottom
    · obtain ⟨hx, hij, hjk⟩ := hleft hle
      exact hx.ne h hij hjk (by omega) hsame
    · rw [hwiped (by omega)] at hsame
      exact hblank ⟨by omega, (wiped_eq_self h hy hbot (by omega)).mp hsame⟩
  · rintro (hle | ⟨hlt, hblank⟩)
    · by_cases hleave : r.y+n ≤ r.bottom
      · obtain ⟨hx, hij, hjk⟩ := hleft hleave
        exact ⟨fun i h0 hi hout => hx.outside h hij.le hjk.le (by omega) h0 hi (by omega),
          fun hout => by omega⟩
      · rw [hwiped (by omega)]
        exact ⟨fun i h0 hi hout => wiped_outside h hy hbot h0 hi (by omega),
          fun hout => hbelow (by omega)⟩
    · have hsame : b' = b := by
        rw [hwiped hlt]
        by_cases hb : r.bottom < r.y
        · exact hbelow hb
        · exact (wiped_eq_self h hy hbot (by omega)).mpr hblank
      rw [hsame]
      exact ⟨fun _ _ _ _ => rfl, fun _ => rfl⟩

end Rows

/-- On a well-formed screen of either scrollback, with any margins and the cursor in any
row, the host's deletion and insertion of any number of lines respect the margins
exactly when the cursor is not above the top margin, or all rows from it to the bottom
margin go and are blank already. -/
theorem edits_respect_margins (b : VSbuf) (r : VSregion) (parm : Int) (h : AnyScreen b)
    (hregion : r.top ≤ r.bottom ∧ 0 ≤ r.bottom ∧ r.bottom ≤ b.lines)
    (hcursor : 0 ≤ r.y ∧ r.y ≤ b.lines) :
    (RespectsMargins r b (VSemM r b parm) ↔
        r.top ≤ r.y ∨ AlreadyBlank r b true (lineCount parm)) ∧
      (RespectsMargins r b (VSemL r b parm) ↔
        r.top ≤ r.y ∨ AlreadyBlank r b b.oldScrollback (lineCount parm)) := by
  have hn := lineCount_pos parm
  have hrow : startRow r (-1) = r.y := if_pos (by decide)
  have hon : OnScreen r b (-1) := by
    refine ⟨?_, ?_, hregion.2.1, hregion.2.2, h.lines_lt⟩
    · rw [hrow]
      exact hcursor.1
    · rw [hrow]
      exact hcursor.2
  have hr : r.top ≤ r.bottom ∧ r.bottom ≤ b.lines := ⟨hregion.1, hregion.2.2⟩
  constructor
  · have hwiped := VSIdellines_wiped (n := lineCount parm) h hon
    have hleft := VSIdellines_exchanged h hon hn
    rw [hrow] at hwiped hleft
    exact respectsMargins_iff h hr hcursor.1 hn hwiped
      (fun hle => ⟨hleft hle, by omega, by omega⟩)
  · have hwiped := VSIinslines_wiped (n := lineCount parm) h hon
    have hleft := VSIinslines_exchanged h hon hn
    rw [hrow] at hwiped hleft
    exact respectsMargins_iff h hr hcursor.1 hn hwiped
      (fun hle => ⟨hleft hle, by omega, by omega⟩)

/-- A screen of three rows with a letter each. -/
def letteredRows : VSbuf where
  mem := { links := chainLinks ⟨fun _ => 0, fun _ => 0⟩ 1 3,
           text := fun p j => if j = 0 then UInt8.ofNat (64+p) else 32,
           attr := fun _ _ => 0, lattr := fun _ => 0, brk := 4, grants := [true] }
  scrntop := 1
  buftop := 1
  vistop := 1
  linest := [1, 2, 3]
  attrst := []
  lines := 2
  maxlines := 48
  numlines := 0
  allwidth := 79
  savelines := true
  oldScrollback := false
  Rtop := 0
  Rbottom := 2
  Rleft := 0
  Rright := 79

/-- The lower two rows as the scrolling region, with the cursor above it. -/
def lowerRowsRegion : VSregion where
  vtemulation := .vt100
  y := 0
  top := 1
  bottom := 2
  maxwidth := 79
  attrib := 0

theorem letteredRows_wellFormed : WellFormed letteredRows := by
  have hlines : letteredRows.lines = 2 := rfl
  have hrow : ∀ i : Int, 0 ≤ i → i < letteredRows.lines → i = 0 ∨ i = 1 := by
    intro i h0 h1
    omega
  refine ⟨by decide, by decide, by decide, by decide, ?_, ?_, ?_, ?_, ⟨3, Or.inl ?_⟩, by decide,
    by decide⟩
  · intro i h0 h1
    rcases hrow i h0 h1 with rfl | rfl <;> decide
  · intro i h0 h1
    rcases hrow i h0 h1 with rfl | rfl <;> decide
  · intro i j h0 hij hj
    have hij' : (i = 0 ∧ j = 1) ∨ (i = 0 ∧ j = 2) ∨ (i = 1 ∧ j = 2) := by omega
    rcases hij' with ⟨rfl, rfl⟩ | ⟨rfl, rfl⟩ | ⟨rfl, rfl⟩ <;> decide
  · intro i h0 h1
    have hi : i = 0 ∨ i = 1 ∨ i = 2 := by omega
    rcases hi with rfl | rfl | rfl <;> decide
  · refine ⟨⟨by decide, by decide, ?_⟩, by decide, by decide, by decide, by decide⟩
    intro i hi
    have hi' : i = 0 ∨ i = 1 := by omega
    rcases hi' with rfl | rfl <;> decide

theorem letteredRows_any : AnyScreen letteredRows where
  toWellFormed := letteredRows_wellFormed
  visible := fun _ => by decide
  attrRows := nofun
  attrRing := nofun
  apart := nofun

/-- With the whole screen as the region, the cursor in its first row is inside it. -/
theorem edit_respects_whole_screen :
    RespectsMargins threeRowsRegion letteredRows (VSemM threeRowsRegion letteredRows 1) :=
  ((edits_respect_margins letteredRows threeRowsRegion 1 letteredRows_any (by decide)
    (by decide)).1).mpr (Or.inl le_rfl)

/-- Deleting a line with the cursor above the region moves the rows above it. -/
theorem delete_above_margin : AnyScreen letteredRows ∧
    ¬RespectsMargins lowerRowsRegion letteredRows (VSemM lowerRowsRegion letteredRows 1) := by
  refine ⟨letteredRows_any, fun h => ?_⟩
  have hrow := h.outside 0 le_rfl (by decide) (Or.inl (by decide))
  exact absurd hrow (by decide +kernel)

end VS
