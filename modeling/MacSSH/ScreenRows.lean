import MacSSH.LinkedStrands
import MacSSH.ScreenExtent
import Mathlib.Tactic.Push

/-! What the line routines do to the rows of a screen: the rows stay one part of
one linked list, and insertion and deletion exchange two blocks of them. -/
namespace VS

open Linked

/-- The rows of the screen lie in one list, behind the lines `pre` and before the
lines `post`; the list is a ring or an open list behind the line that `e` gives. -/
structure Threaded (b : VSbuf) (e : Option Ptr) (pre post : List Ptr) : Prop where
  strand : Strand NULL b.mem.links e (pre ++ b.linest ++ post)
  length : (b.linest.length : Int) = b.lines+1
  lines_nonneg : 0 ≤ b.lines
  top : b.scrntop = b.linest.headD NULL
  live : ∀ a ∈ pre ++ b.linest ++ post, a < b.mem.brk
  live_before : ∀ p ∈ e, p < b.mem.brk

section Rows
variable {b : VSbuf} {e : Option Ptr} {pre post : List Ptr}

theorem Threaded.linest_ne_nil (h : Threaded b e pre post) : b.linest ≠ [] := by
  intro hn
  have hl := h.length
  have h0 := h.lines_nonneg
  rw [hn, List.length_nil] at hl
  omega

theorem Threaded.lastRow_eq (h : Threaded b e pre post) :
    b.lastRow = b.linest.getLastD NULL := by
  have hl := h.length
  have h0 := h.lines_nonneg
  have hi : b.lines.toNat = b.linest.length-1 := by omega
  rw [VSbuf.lastRow, VSbuf.row, hi, List.getLastD_eq_getLast?, List.getLast?_eq_getElem?,
    List.getD_eq_getElem?_getD]

/-- Indexing the rows again from the first of a new sequence of rows. -/
theorem listndx_threaded {rows : List Ptr} {ts : Ptr}
    (hs : Strand NULL b.mem.links e (pre ++ rows ++ post))
    (hlen : (rows.length : Int) = b.lines+1) (h0 : 0 ≤ b.lines) (hts : ts = rows.headD NULL)
    (hlive : ∀ a ∈ pre ++ rows ++ post, a < b.mem.brk) (he : ∀ p ∈ e, p < b.mem.brk) :
    (VSIlistndx { b with scrntop := ts } ts).linest = rows ∧
      Threaded (VSIlistndx { b with scrntop := ts } ts) e pre post := by
  have hne : rows ≠ [] := by
    intro hn
    rw [hn, List.length_nil] at hlen
    omega
  have hn : (b.lines+1).toNat = rows.length := by omega
  have hrows : (VSIlistndx { b with scrntop := ts } ts).linest = rows := by
    have hwalk := hs.walk hne
    rw [← hts, ← hn] at hwalk
    exact hwalk
  exact ⟨hrows, ⟨by rw [hrows]; exact hs, by rw [hrows]; exact hlen, h0, by rw [hrows]; exact hts,
    by rw [hrows]; exact hlive, he⟩⟩

@[simp] theorem blankLines_links (w : Int) (a : BitVec 32) (l : Bool) (n : ℕ) (p : Ptr)
    (m : LineMem) : (blankLines w a l n p m).links = m.links := by
  induction n generalizing p m with
  | zero => rfl
  | succ n ih =>
    rw [blankLines, ih]
    cases l <;> rfl

@[simp] theorem blankLines_brk (w : Int) (a : BitVec 32) (l : Bool) (n : ℕ) (p : Ptr)
    (m : LineMem) : (blankLines w a l n p m).brk = m.brk := by
  induction n generalizing p m with
  | zero => rfl
  | succ n ih =>
    rw [blankLines, ih]
    cases l <;> rfl

/-- The list around the rows, cut at two blocks of rows. -/
theorem Threaded.cut (h : Threaded b e pre post) {A X Y B : List Ptr}
    (hl : b.linest = A ++ (X ++ Y) ++ B) :
    Strand NULL b.mem.links e ((pre ++ A) ++ (X ++ Y) ++ (B ++ post)) := by
  have hs := h.strand
  rw [hl] at hs
  simpa only [List.append_assoc] using hs

/-- When the rows are a whole ring, exchanging two blocks is reading it from
another row. -/
theorem Threaded.cut_ring (h : Threaded b e pre post) {A X Y B : List Ptr}
    (hl : b.linest = A ++ (X ++ Y) ++ B) (hX : X ≠ []) (hY : Y ≠ [])
    (hne : ¬(e ≠ none ∨ (pre ++ A) ++ (B ++ post) ≠ [])) :
    b.next (Y.getLastD NULL) = X.headD NULL ∧ b.prev (X.headD NULL) = Y.getLastD NULL ∧
      Strand NULL b.mem.links e (pre ++ (A ++ (Y ++ X) ++ B) ++ post) := by
  push Not at hne
  obtain ⟨he, hall⟩ := hne
  have hs := h.cut hl
  simp only [List.append_eq_nil_iff] at hall
  obtain ⟨⟨hpre, hA⟩, hB, hpost⟩ := hall
  subst he hpre hA hB hpost
  simp only [List.nil_append, List.append_nil] at hs ⊢
  have hr := (ring_append hX hY).mp hs.seg
  refine ⟨?_, ?_, hs.rotate⟩
  · rw [getLastD_default NULL (X.getLastD NULL) hY]
    exact seg_next_getLastD hr.2 hY
  · rw [headD_default NULL (Y.headD NULL) hX]
    exact seg_prev_headD hr.1 hX

/-- Moving the first of two blocks of rows behind the second one. -/
theorem Threaded.move_down (h : Threaded b e pre post) {A X Y B : List Ptr}
    (hl : b.linest = A ++ (X ++ Y) ++ B) (hX : X ≠ []) (hY : Y ≠ []) :
    Strand NULL (moveUnlessAdjacent b (X.headD NULL) (X.getLastD NULL) (Y.getLastD NULL)
      (b.next (Y.getLastD NULL))).mem.links e (pre ++ (A ++ (Y ++ X) ++ B) ++ post) := by
  by_cases hne : e ≠ none ∨ (pre ++ A) ++ (B ++ post) ≠ []
  · have hends := (h.cut hl).neighbours hX hY hne
    rw [moveUnlessAdjacent, if_pos ⟨hends.right.1.symm, hends.last.symm⟩]
    have hex := (h.cut hl).exchange hX hY hne (moveBlock_right hends)
    simpa only [VSIlistmove, VSbuf.next, List.append_assoc] using hex
  · obtain ⟨hnext, -, hs⟩ := h.cut_ring hl hX hY hne
    rw [moveUnlessAdjacent, hnext, if_neg (fun hc => hc.1 rfl)]
    exact hs

/-- Moving the second of two blocks of rows before the first one. -/
theorem Threaded.move_up (h : Threaded b e pre post) {A X Y B : List Ptr}
    (hl : b.linest = A ++ (X ++ Y) ++ B) (hX : X ≠ []) (hY : Y ≠ []) :
    Strand NULL (moveUnlessAdjacent b (Y.headD NULL) (Y.getLastD NULL) (b.prev (X.headD NULL))
      (X.headD NULL)).mem.links e (pre ++ (A ++ (Y ++ X) ++ B) ++ post) := by
  by_cases hne : e ≠ none ∨ (pre ++ A) ++ (B ++ post) ≠ []
  · have hends := (h.cut hl).neighbours hX hY hne
    rw [moveUnlessAdjacent, if_pos ⟨hends.first.symm, hends.left.2⟩]
    have hex := (h.cut hl).exchange hX hY hne (moveBlock_left hends)
    simpa only [VSIlistmove, VSbuf.prev, List.append_assoc] using hex
  · obtain ⟨-, hprev, hs⟩ := h.cut_ring hl hX hY hne
    rw [moveUnlessAdjacent, hprev, if_neg (fun hc => hc.2 rfl)]
    exact hs

/-- The rows with the block from `i` to `j` and the block from `j` to `k`
exchanged. -/
def exchangeRows (i j k : ℕ) (rows : List Ptr) : List Ptr :=
  rows.take i ++ (slice j k rows ++ slice i j rows) ++ rows.drop k

theorem exchangeRows_perm (rows : List Ptr) {i j k : ℕ} (hij : i ≤ j) (hjk : j ≤ k) :
    (exchangeRows i j k rows).Perm rows := by
  have hp := exchange_perm (rows.take i) (slice i j rows) (slice j k rows) (rows.drop k)
  rw [slice_split rows hij hjk] at hp
  exact hp

/-- The first row stays when the blocks start below it. -/
theorem exchangeRows_headD (rows : List Ptr) {i : ℕ} (j k : ℕ) (hi : 0 < i) :
    (exchangeRows i j k rows).headD NULL = rows.headD NULL := by
  cases rows with
  | nil => simp [exchangeRows, slice]
  | cons a l =>
    obtain ⟨i, rfl⟩ := Nat.exists_eq_succ_of_ne_zero hi.ne'
    rfl

/-- The first row of the second block comes first when the first block starts at
the first row. -/
theorem exchangeRows_headD_zero (rows : List Ptr) {j k : ℕ} (hjk : j < k)
    (hk : k ≤ rows.length) : (exchangeRows 0 j k rows).headD NULL = rows.getD j NULL := by
  have hne := slice_ne_nil hjk hk
  rw [exchangeRows, List.take_zero, List.nil_append, List.append_assoc,
    headD_append_of_ne_nil _ hne, slice_headD rows NULL hjk]

theorem row_zero (b : VSbuf) : b.row 0 = b.linest.headD NULL := by
  rw [VSbuf.row, Int.toNat_zero, List.getD_eq_getElem?_getD, List.headD_eq_head?_getD,
    List.head?_eq_getElem?]

theorem syncVisible_linest (b : VSbuf) : (syncVisible b).linest = b.linest := by
  rw [syncVisible]
  split_ifs <;> rfl

theorem syncVisible_threaded (h : Threaded b e pre post) :
    Threaded (syncVisible b) e pre post := by
  rw [syncVisible]
  split_ifs
  · exact ⟨h.strand, h.length, h.lines_nonneg, h.top, h.live, h.live_before⟩
  · exact h

/-- The end that insertion and deletion share: blank some lines and index the
rows again. -/
theorem settle_threaded (h : Threaded b e pre post) {b' : VSbuf} {rows : List Ptr} {ts : Ptr}
    (hp : rows.Perm b.linest) (hs : Strand NULL b'.mem.links e (pre ++ rows ++ post))
    (hts : ts = rows.headD NULL) (hlines : b'.lines = b.lines) (hbrk : b'.mem.brk = b.mem.brk)
    (w : Int) (a : BitVec 32) (l : Bool) (k : ℕ) (p : Ptr) :
    (syncVisible (VSIlistndx
      { b' with mem := blankLines w a l k p b'.mem, scrntop := ts } ts)).linest = rows ∧
    Threaded (syncVisible (VSIlistndx
      { b' with mem := blankLines w a l k p b'.mem, scrntop := ts } ts)) e pre post := by
  let b₁ : VSbuf := { b' with mem := blankLines w a l k p b'.mem }
  have hlinks : b₁.mem.links = b'.mem.links := blankLines_links w a l k p b'.mem
  have hbrk₁ : b₁.mem.brk = b.mem.brk := (blankLines_brk w a l k p b'.mem).trans hbrk
  have hlen : (rows.length : Int) = b₁.lines+1 := by
    rw [hp.length_eq, h.length]
    exact congrArg (·+1) hlines.symm
  have hmem : ∀ c ∈ pre ++ rows ++ post, c ∈ pre ++ b.linest ++ post := by
    intro c hc
    simpa only [List.mem_append, hp.mem_iff] using hc
  have hs₁ : Strand NULL b₁.mem.links e (pre ++ rows ++ post) := by
    rw [hlinks]
    exact hs
  have hndx := listndx_threaded hs₁ hlen (hlines ▸ h.lines_nonneg) hts
    (fun c hc => hbrk₁ ▸ h.live c (hmem c hc)) (fun c hc => hbrk₁ ▸ h.live_before c hc)
  exact ⟨(syncVisible_linest _).trans hndx.1, syncVisible_threaded hndx.2⟩

theorem moveUnlessAdjacent_brk (b : VSbuf) (TD BD TI BI : Ptr) :
    (moveUnlessAdjacent b TD BD TI BI).mem.brk = b.mem.brk := by
  rw [moveUnlessAdjacent]
  split_ifs <;> rfl

end Rows

/-- A line operation at row `s` works on rows of the screen, and the scrolling
region ends on the screen. -/
structure OnScreen (r : VSregion) (b : VSbuf) (s : Int) : Prop where
  row_nonneg : 0 ≤ startRow r s
  row_le : startRow r s ≤ b.lines
  bottom_nonneg : 0 ≤ r.bottom
  bottom_le : r.bottom ≤ b.lines
  lines_lt : b.lines < 32767

section Edit
variable {r : VSregion} {b : VSbuf} {e : Option Ptr} {pre post : List Ptr} {n s : Int}

/-- The operation reaches at most to the bottom of the scrolling region. -/
theorem OnScreen.clipCount_cases (hs : OnScreen r b s) :
    (startRow r s+n ≤ r.bottom ∧ clipCount r n (startRow r s) = n) ∨
      (r.bottom < startRow r s+n ∧
        clipCount r n (startRow r s) = r.bottom-startRow r s+1) := by
  obtain ⟨h0, h1, h2, h3, h4⟩ := hs
  rw [clipCount]
  split_ifs with hc
  · right
    exact ⟨by omega, short_eq (by omega) (by omega)⟩
  · by_cases hle : startRow r s+n ≤ r.bottom
    · exact Or.inl ⟨hle, rfl⟩
    · right
      exact ⟨by omega, by omega⟩

/-- The rows after a deletion of `n` rows at row `s`: the block of deleted rows
comes behind the rest of the scrolling region. -/
def deletedRows (bottom n s : Int) (rows : List Ptr) : List Ptr :=
  if s+n ≤ bottom then exchangeRows s.toNat (s+n).toNat (bottom+1).toNat rows else rows

/-- The rows after an insertion of `n` rows at row `s`: the last block of the
scrolling region comes before the rest of it. -/
def insertedRows (bottom n s : Int) (rows : List Ptr) : List Ptr :=
  if s+n ≤ bottom then exchangeRows s.toNat (bottom-n+1).toNat (bottom+1).toNat rows else rows

theorem row_toNat (b : VSbuf) {i : Int} {j : ℕ} (hij : i.toNat = j) :
    b.row i = b.linest.getD j NULL := by
  rw [VSbuf.row, hij]

/-- A deletion is done once the moved lines are the rows in their new order. -/
theorem VSIdellines_settle (h : Threaded b e pre post) (hold : b.oldScrollback = false)
    {S N : Int} (hS : startRow r s = S) (hN : clipCount r n S = N) {rows : List Ptr}
    (hp : rows.Perm b.linest)
    (hstr : Strand NULL (moveUnlessAdjacent b (b.row S) (b.row (S+N-1)) (b.row r.bottom)
      (b.next (b.row r.bottom))).mem.links e (pre ++ rows ++ post))
    (hts : (if S = 0 ∧ N ≤ r.bottom then b.row N else b.row 0) = rows.headD NULL) :
    (VSIdellines r b n s).linest = rows ∧ Threaded (VSIdellines r b n s) e pre post := by
  subst hS hN
  rw [VSIdellines, if_neg (by rw [hold]; exact Bool.false_ne_true)]
  exact settle_threaded h hp hstr hts (moveUnlessAdjacent_extent ..).lines
    (moveUnlessAdjacent_brk ..)
    _ _ _ _ _

/-- An insertion is done once the moved lines are the rows in their new order. -/
theorem VSIinslines_settle (h : Threaded b e pre post) (hold : b.oldScrollback = false)
    {S N : Int} (hS : startRow r s = S) (hN : clipCount r n S = N) {rows : List Ptr}
    (hp : rows.Perm b.linest)
    (hstr : Strand NULL (moveUnlessAdjacent b (b.row (r.bottom-N+1)) (b.row r.bottom)
      (b.prev (b.row S)) (b.row S)).mem.links e (pre ++ rows ++ post))
    (hts : (if S = 0 ∧ N ≤ b.lines then b.row (r.bottom-N+1) else b.row 0) = rows.headD NULL) :
    (VSIinslines r b n s).linest = rows ∧ Threaded (VSIinslines r b n s) e pre post := by
  subst hS hN
  rw [VSIinslines, if_neg (by rw [hold]; exact Bool.false_ne_true)]
  exact settle_threaded h hp hstr hts (moveUnlessAdjacent_extent ..).lines
    (moveUnlessAdjacent_brk ..)
    _ _ _ _ _

theorem moveUnlessAdjacent_of_eq {TD BD TI BI : Ptr} (hc : TD = BI ∨ TI = BD) :
    moveUnlessAdjacent b TD BD TI BI = b := by
  rw [moveUnlessAdjacent, if_neg]
  rintro ⟨h1, h2⟩
  exact hc.elim h1 h2

/-- Deleting lines exchanges two blocks of the rows. -/
theorem VSIdellines_rows (h : Threaded b e pre post) (hold : b.oldScrollback = false)
    (hs : OnScreen r b s) (hn : 1 ≤ n) :
    (VSIdellines r b n s).linest = deletedRows r.bottom n (startRow r s) b.linest ∧
      Threaded (VSIdellines r b n s) e pre post := by
  have hlen := h.length
  have h0 := hs.row_nonneg
  have h1 := hs.bottom_le
  rcases hs.clipCount_cases with ⟨hle, hclip⟩ | ⟨hlt, hclip⟩
  · rw [deletedRows, if_pos hle]
    have hij : (startRow r s).toNat < (startRow r s+n).toNat := by omega
    have hjk : (startRow r s+n).toNat < (r.bottom+1).toNat := by omega
    have hk : (r.bottom+1).toNat ≤ b.linest.length := by omega
    have hl := (slice_split b.linest hij.le hjk.le).symm
    apply VSIdellines_settle h hold rfl hclip (exchangeRows_perm b.linest hij.le hjk.le)
    · have hmove := h.move_down hl (slice_ne_nil hij (hjk.le.trans hk)) (slice_ne_nil hjk hk)
      rw [slice_headD _ _ hij, slice_getLastD _ _ hij (hjk.le.trans hk),
        slice_getLastD _ _ hjk hk] at hmove
      rw [row_toNat b (rfl : _ = (startRow r s).toNat),
        row_toNat b (by omega : (startRow r s+n-1).toNat = (startRow r s+n).toNat-1),
        row_toNat b (by omega : r.bottom.toNat = (r.bottom+1).toNat-1)]
      exact hmove
    · by_cases hz : startRow r s = 0
      · rw [if_pos ⟨hz, by omega⟩, hz, Int.toNat_zero, Int.zero_add,
          exchangeRows_headD_zero _ (by omega) hk, VSbuf.row]
      · rw [if_neg (fun hc => hz hc.1), exchangeRows_headD _ _ _ (by omega), row_zero]
  · rw [deletedRows, if_neg (by omega)]
    apply VSIdellines_settle h hold rfl hclip (List.Perm.refl _)
    · have hBD : startRow r s+(r.bottom-startRow r s+1)-1 = r.bottom := by omega
      rw [hBD, moveUnlessAdjacent_of_eq (Or.inr rfl)]
      exact h.strand
    · have hz : ¬(startRow r s = 0 ∧ r.bottom-startRow r s+1 ≤ r.bottom) := by omega
      rw [if_neg hz, row_zero]

/-- Inserting lines exchanges two blocks of the rows. -/
theorem VSIinslines_rows (h : Threaded b e pre post) (hold : b.oldScrollback = false)
    (hs : OnScreen r b s) (hn : 1 ≤ n) :
    (VSIinslines r b n s).linest = insertedRows r.bottom n (startRow r s) b.linest ∧
      Threaded (VSIinslines r b n s) e pre post := by
  have hlen := h.length
  have h0 := hs.row_nonneg
  have h1 := hs.bottom_le
  rcases hs.clipCount_cases with ⟨hle, hclip⟩ | ⟨hlt, hclip⟩
  · rw [insertedRows, if_pos hle]
    have hij : (startRow r s).toNat < (r.bottom-n+1).toNat := by omega
    have hjk : (r.bottom-n+1).toNat < (r.bottom+1).toNat := by omega
    have hk : (r.bottom+1).toNat ≤ b.linest.length := by omega
    have hl := (slice_split b.linest hij.le hjk.le).symm
    apply VSIinslines_settle h hold rfl hclip (exchangeRows_perm b.linest hij.le hjk.le)
    · have hmove := h.move_up hl (slice_ne_nil hij (hjk.le.trans hk)) (slice_ne_nil hjk hk)
      rw [slice_headD _ _ hij, slice_headD _ _ hjk,
        slice_getLastD _ _ hjk hk] at hmove
      rw [row_toNat b (rfl : _ = (startRow r s).toNat),
        row_toNat b (rfl : _ = (r.bottom-n+1).toNat),
        row_toNat b (by omega : r.bottom.toNat = (r.bottom+1).toNat-1)]
      exact hmove
    · by_cases hz : startRow r s = 0
      · rw [if_pos ⟨hz, by omega⟩, hz, Int.toNat_zero,
          exchangeRows_headD_zero _ (by omega) hk, VSbuf.row]
      · rw [if_neg (fun hc => hz hc.1), exchangeRows_headD _ _ _ (by omega), row_zero]
  · rw [insertedRows, if_neg (by omega)]
    have hTD : r.bottom-(r.bottom-startRow r s+1)+1 = startRow r s := by omega
    apply VSIinslines_settle h hold rfl hclip (List.Perm.refl _)
    · rw [hTD, moveUnlessAdjacent_of_eq (Or.inl rfl)]
      exact h.strand
    · rw [hTD]
      split_ifs with hz
      · rw [hz.1, row_zero]
      · rw [row_zero]

end Edit

end VS
