import MacSSH.ScreenContents
import MacSSH.ScreenViewed

/-! Screens that keep their attributes apart, in lines of their own: a line operation
moves the lines of both lists alike. -/
namespace VS

open Linked

section Frame
variable {m : Links Ptr} {e : Option Ptr} {l : List Ptr} {p : Ptr}

/-- A link from a line of a list stays in the list, or is the one that ends it. -/
theorem next_inside (h : Strand NULL m e l) (hp : p ∈ l) : m.next p ∈ l ∨ m.next p = NULL := by
  obtain ⟨A, B, rfl⟩ := List.append_of_mem hp
  have h' : Strand NULL m e (A ++ [p] ++ B) := by simpa using h
  have hn : m.next p = B.headD (after NULL e (A ++ [p] ++ B)) := h'.middle.2.1
  rcases eq_or_ne B [] with rfl | hB
  · cases e with
    | some q => exact Or.inr hn
    | none =>
      left
      rw [hn, List.headD_nil, after_none]
      simpa using headD_mem NULL (by simp : A ++ [p] ++ [] ≠ [])
  · left
    rw [hn]
    exact List.mem_append_right A (List.mem_cons_of_mem p (headD_mem _ hB))

theorem prev_inside (h : Strand NULL m e l) (hp : p ∈ l) : m.prev p ∈ l ∨ e = some (m.prev p) := by
  obtain ⟨A, B, rfl⟩ := List.append_of_mem hp
  have h' : Strand NULL m e (A ++ [p] ++ B) := by simpa using h
  have hn : m.prev p = A.getLastD (before NULL e (A ++ [p] ++ B)) := h'.middle.1
  rcases eq_or_ne A [] with rfl | hA
  · cases e with
    | some q =>
      right
      rw [hn]
      rfl
    | none =>
      left
      rw [hn, List.getLastD_nil, before_none]
      simpa using getLastD_mem NULL (by simp : [] ++ [p] ++ B ≠ [])
  · left
    rw [hn]
    exact List.mem_append_left _ (getLastD_mem _ hA)

/-- A line that a list does not touch. -/
structure Apart (e : Option Ptr) (l : List Ptr) (a : Ptr) : Prop where
  not_mem : a ∉ l
  not_before : e ≠ some a
  ne_null : a ≠ NULL

theorem Apart.of_perm {l' : List Ptr} {a : Ptr} (h : Apart e l a) (hp : l'.Perm l) :
    Apart e l' a :=
  ⟨fun hm => h.not_mem (hp.mem_iff.mp hm), h.not_before, h.ne_null⟩

/-- Moving lines of a list leaves the lines apart from it as they are. -/
theorem moveBlock_frame (h : Strand NULL m e l) {td bd ti bi a : Ptr} (htd : td ∈ l) (hbd : bd ∈ l)
    (hti : ti ∈ l ∨ e = some ti) (hbi : bi ∈ l ∨ bi = NULL) (ha : Apart e l a) :
    (moveBlock NULL m td bd ti bi).next a = m.next a ∧
      (moveBlock NULL m td bd ti bi).prev a = m.prev a := by
  have hne : ∀ q, q ∈ l ∨ q = NULL → a ≠ q := by
    rintro q (hq | rfl) rfl
    · exact ha.not_mem hq
    · exact ha.ne_null rfl
  have hne' : ∀ q, q ∈ l ∨ e = some q → a ≠ q := by
    rintro q (hq | hq) rfl
    · exact ha.not_mem hq
    · exact ha.not_before hq
  have h1 := hne td (Or.inl htd)
  have h2 := hne bd (Or.inl hbd)
  have h3 := hne bi hbi
  have h4 := hne' ti hti
  have h5 := hne _ (next_inside h hbd)
  have h6 := hne' _ (prev_inside h htd)
  simp only [moveBlock]
  split_ifs <;> simp [h1, h2, h3, h4, h5, h6]

/-- The links after a move of lines unless they are where they are to go. -/
def relinked (m : Links Ptr) (TD BD TI BI : Ptr) : Links Ptr :=
  if TD ≠ BI ∧ TI ≠ BD then moveBlock NULL m TD BD TI BI else m

theorem relinked_frame (h : Strand NULL m e l) {TD BD TI BI a : Ptr} (hTD : TD ∈ l) (hBD : BD ∈ l)
    (hTI : TI ∈ l ∨ e = some TI) (hBI : BI ∈ l ∨ BI = NULL) (ha : Apart e l a) :
    (relinked m TD BD TI BI).next a = m.next a ∧ (relinked m TD BD TI BI).prev a = m.prev a := by
  rw [relinked]
  split_ifs
  · exact moveBlock_frame h hTD hBD hTI hBI ha
  · exact ⟨rfl, rfl⟩

theorem moveUnlessAdjacent_eq (b : VSbuf) (TD BD TI BI : Ptr) :
    moveUnlessAdjacent b TD BD TI BI =
      { b with mem := { b.mem with links := relinked b.mem.links TD BD TI BI } } := by
  rw [moveUnlessAdjacent, relinked]
  split_ifs <;> rfl

end Frame

/-- The text lines of a screen, as a screen of the linked scrollback. -/
def VSbuf.textSide (b : VSbuf) : VSbuf := { b with oldScrollback := false }

/-- The attribute lines of a screen, as the rows of a screen of the linked scrollback
that has saved none. -/
def VSbuf.attrSide (b : VSbuf) : VSbuf :=
  { b with
    linest := b.attrst
    scrntop := b.attrRow 0
    buftop := b.attrRow 0
    numlines := 0
    oldScrollback := false }

/-- The rows of a screen with the old scrollback: the text lines are in one list and
the attribute lines form a ring apart from it. -/
structure OldThreaded (b : VSbuf) (e : Option Ptr) (pre post : List Ptr) : Prop where
  text : Threaded b e pre post
  attrs : Threaded b.attrSide none [] []
  apart : ∀ a ∈ b.attrst, Apart e (pre ++ b.linest ++ post) a

section Sides
variable {r : VSregion} {b b' : VSbuf} {e : Option Ptr} {pre post : List Ptr} {n s : Int}

theorem Threaded.textSide (h : Threaded b e pre post) : Threaded b.textSide e pre post :=
  ⟨h.strand, h.length, h.lines_nonneg, h.top, h.live, h.live_before⟩

theorem Threaded.row_mem (h : Threaded b e pre post) {i : Int} (h0 : 0 ≤ i) (hi : i ≤ b.lines) :
    b.row i ∈ pre ++ b.linest ++ post := by
  have hlen := h.length
  have hlt : i.toNat < b.linest.length := by omega
  apply List.mem_append_left
  apply List.mem_append_right
  rw [VSbuf.row, List.getD_eq_getElem _ _ hlt]
  exact List.getElem_mem hlt

/-- The links and the first row of a screen after a deletion. -/
theorem VSIdellines_links (hold : b.oldScrollback = false) {S N : Int} (hS : startRow r s = S)
    (hN : clipCount r n S = N) :
    (VSIdellines r b n s).mem.links = relinked b.mem.links (b.row S) (b.row (S+N-1))
        (b.row r.bottom) (b.next (b.row r.bottom)) ∧
      (VSIdellines r b n s).scrntop = if S = 0 ∧ N ≤ r.bottom then b.row N else b.row 0 := by
  subst hS hN
  rw [VSIdellines, if_neg (by rw [hold]; exact Bool.false_ne_true), syncVisible_mem]
  simp only [moveUnlessAdjacent_eq]
  refine ⟨blankLines_links .., ?_⟩
  rw [syncVisible]
  split_ifs <;> rfl

/-- The links and the first row of a screen after an insertion. -/
theorem VSIinslines_links (hold : b.oldScrollback = false) {S N : Int} (hS : startRow r s = S)
    (hN : clipCount r n S = N) :
    (VSIinslines r b n s).mem.links = relinked b.mem.links (b.row (r.bottom-N+1))
        (b.row r.bottom) (b.prev (b.row S)) (b.row S) ∧
      (VSIinslines r b n s).scrntop =
        if S = 0 ∧ N ≤ b.lines then b.row (r.bottom-N+1) else b.row 0 := by
  subst hS hN
  rw [VSIinslines, if_neg (by rw [hold]; exact Bool.false_ne_true), syncVisible_mem]
  simp only [moveUnlessAdjacent_eq]
  refine ⟨blankLines_links .., ?_⟩
  rw [syncVisible]
  split_ifs <;> rfl

theorem blankLinePairs_links (w : Int) (a : BitVec 32) (k : ℕ) (p pa : Ptr) (m : LineMem) :
    (blankLinePairs w a k p pa m).links = m.links := by
  induction k generalizing p pa m with
  | zero => rfl
  | succ k ih =>
    rw [blankLinePairs, ih]
    rfl

theorem blankLinePairs_brk (w : Int) (a : BitVec 32) (k : ℕ) (p pa : Ptr) (m : LineMem) :
    (blankLinePairs w a k p pa m).brk = m.brk := by
  induction k generalizing p pa m with
  | zero => rfl
  | succ k ih =>
    rw [blankLinePairs, ih]
    rfl

/-- Rows in a new order: their lines are linked so, and `ts` is the first. -/
structure Reordered (b : VSbuf) (links : Links Ptr) (e : Option Ptr) (pre post rows : List Ptr)
    (ts : Ptr) : Prop where
  strand : Strand NULL links e (pre ++ rows ++ post)
  perm : rows.Perm b.linest
  first : ts = rows.headD NULL

/-- A deletion reorders the rows. -/
theorem VSIdellines_reordered (h : Threaded b e pre post) (hold : b.oldScrollback = false)
    (hs : OnScreen r b s) (hn : 1 ≤ n) {S N : Int} (hS : startRow r s = S)
    (hN : clipCount r n S = N) :
    Reordered b (relinked b.mem.links (b.row S) (b.row (S+N-1)) (b.row r.bottom)
      (b.next (b.row r.bottom))) e pre post (deletedRows r.bottom n S b.linest)
      (if S = 0 ∧ N ≤ r.bottom then b.row N else b.row 0) := by
  obtain ⟨hrows, hth⟩ := VSIdellines_rows h hold hs hn
  obtain ⟨hlinks, htop⟩ := VSIdellines_links (n := n) (s := s) hold hS hN
  have hstr := hth.strand
  rw [hlinks, hrows, hS] at hstr
  refine ⟨hstr, deletedRows_perm _ (hS ▸ hs.row_nonneg) hn, ?_⟩
  rw [← htop, hth.top, hrows, hS]

/-- An insertion reorders the rows. -/
theorem VSIinslines_reordered (h : Threaded b e pre post) (hold : b.oldScrollback = false)
    (hs : OnScreen r b s) (hn : 1 ≤ n) {S N : Int} (hS : startRow r s = S)
    (hN : clipCount r n S = N) :
    Reordered b (relinked b.mem.links (b.row (r.bottom-N+1)) (b.row r.bottom)
      (b.prev (b.row S)) (b.row S)) e pre post (insertedRows r.bottom n S b.linest)
      (if S = 0 ∧ N ≤ b.lines then b.row (r.bottom-N+1) else b.row 0) := by
  obtain ⟨hrows, hth⟩ := VSIinslines_rows h hold hs hn
  obtain ⟨hlinks, htop⟩ := VSIinslines_links (n := n) (s := s) hold hS hN
  have hstr := hth.strand
  rw [hlinks, hrows, hS] at hstr
  refine ⟨hstr, insertedRows_perm _ (hS ▸ hs.row_nonneg) hn, ?_⟩
  rw [← htop, hth.top, hrows, hS]

/-- The end of an operation that has reordered text lines and attribute lines alike. -/
theorem old_settle (h : OldThreaded b e pre post) {m : LineMem} {rows arows : List Ptr}
    {ts as : Ptr} (hrows : Reordered b m.links e pre post rows ts)
    (harows : Reordered b.attrSide m.links none [] [] arows as) (hbrk : m.brk = b.mem.brk)
    (w : Int) (a : BitVec 32) (k : ℕ) (p pa : Ptr) :
    (syncVisible (VSOlistndx
        { b with mem := blankLinePairs w a k p pa m, scrntop := ts } ts as)).linest = rows ∧
      (syncVisible (VSOlistndx
        { b with mem := blankLinePairs w a k p pa m, scrntop := ts } ts as)).attrst = arows ∧
      OldThreaded (syncVisible (VSOlistndx
        { b with mem := blankLinePairs w a k p pa m, scrntop := ts } ts as)) e pre post := by
  let b₁ : VSbuf := { b with mem := blankLinePairs w a k p pa m }
  have hlinks : b₁.mem.links = m.links := blankLinePairs_links w a k p pa m
  have hbrk₁ : b₁.mem.brk = b.mem.brk := (blankLinePairs_brk w a k p pa m).trans hbrk
  have hperm : (pre ++ rows ++ post).Perm (pre ++ b.linest ++ post) :=
    (hrows.perm.append_left pre).append_right post
  have htext := listndx_threaded (b := b₁) (hlinks ▸ hrows.strand)
    (hrows.perm.length_eq ▸ h.text.length) h.text.lines_nonneg hrows.first
    (fun c hc => hbrk₁ ▸ h.text.live c (hperm.mem_iff.mp hc))
    (fun c hc => hbrk₁ ▸ h.text.live_before c hc)
  have haperm : ([] ++ arows ++ []).Perm ([] ++ b.attrst ++ []) := by
    rw [List.nil_append, List.append_nil, List.nil_append, List.append_nil]
    exact harows.perm
  have hattr := listndx_threaded (b := b₁.attrSide) (hlinks ▸ harows.strand)
    (harows.perm.length_eq ▸ h.attrs.length) h.attrs.lines_nonneg harows.first
    (fun c hc => hbrk₁ ▸ h.attrs.live c (haperm.mem_iff.mp hc))
    (fun c hc => absurd hc (Option.not_mem_none c))
  let b₂ : VSbuf := VSOlistndx { b₁ with scrntop := ts } ts as
  have hlines : b₂.linest = rows := htext.1
  have hattrs : b₂.attrst = arows := hattr.1
  have hold : OldThreaded b₂ e pre post := by
    refine ⟨?_, ?_, ?_⟩
    · obtain ⟨h1, h2, h3, h4, h5, h6⟩ := htext.2
      exact ⟨h1, h2, h3, h4, h5, h6⟩
    · obtain ⟨h1, h2, h3, -, h5, h6⟩ := hattr.2
      exact ⟨h1, h2, h3, row_zero b₂.attrSide, h5, h6⟩
    · intro c hc
      rw [hattrs] at hc
      rw [hlines]
      exact (h.apart c (harows.perm.mem_iff.mp hc)).of_perm hperm
  have hsync : (syncVisible b₂).attrst = b₂.attrst ∧ OldThreaded (syncVisible b₂) e pre post := by
    rw [syncVisible]
    split_ifs
    · refine ⟨rfl, ?_, ?_, hold.apart⟩
      · obtain ⟨h1, h2, h3, h4, h5, h6⟩ := hold.text
        exact ⟨h1, h2, h3, h4, h5, h6⟩
      · obtain ⟨h1, h2, h3, h4, h5, h6⟩ := hold.attrs
        exact ⟨h1, h2, h3, h4, h5, h6⟩
    · exact ⟨rfl, hold⟩
  exact ⟨(syncVisible_linest b₂).trans hlines, hsync.1.trans hattrs, hsync.2⟩

/-- Moving text lines leaves the attribute lines as they are. -/
theorem OldThreaded.move_text (h : OldThreaded b e pre post) {TD BD TI BI : Ptr}
    (hTD : TD ∈ pre ++ b.linest ++ post) (hBD : BD ∈ pre ++ b.linest ++ post)
    (hTI : TI ∈ pre ++ b.linest ++ post ∨ e = some TI)
    (hBI : BI ∈ pre ++ b.linest ++ post ∨ BI = NULL) :
    Threaded (moveUnlessAdjacent b TD BD TI BI).attrSide none [] [] := by
  rw [moveUnlessAdjacent_eq]
  obtain ⟨hstr, h2, h3, h4, h5, -⟩ := h.attrs
  refine ⟨hstr.congr fun a ha => ?_, h2, h3, h4, h5, fun a ha => absurd ha (Option.not_mem_none a)⟩
  apply relinked_frame h.text.strand hTD hBD hTI hBI
  exact h.apart a (by simpa [VSbuf.attrSide] using ha)

/-- Moving attribute lines leaves the text lines in the order they have got. -/
theorem OldThreaded.move_attrs (h : OldThreaded b e pre post) {m : Links Ptr}
    (ha : Strand NULL m none b.attrst) {rows : List Ptr} {ts TD BD TI BI : Ptr}
    (hrows : Reordered b m e pre post rows ts) (hTD : TD ∈ b.attrst) (hBD : BD ∈ b.attrst)
    (hTI : TI ∈ b.attrst) (hBI : BI ∈ b.attrst) :
    Reordered b (relinked m TD BD TI BI) e pre post rows ts := by
  have hperm : (pre ++ rows ++ post).Perm (pre ++ b.linest ++ post) :=
    (hrows.perm.append_left pre).append_right post
  refine ⟨hrows.strand.congr fun q hq => ?_, hrows.perm, hrows.first⟩
  apply relinked_frame ha hTD hBD (Or.inl hTI) (Or.inl hBI)
  -- a text line is not an attribute line
  refine ⟨fun hmem => ?_, nofun, fun hnull => hrows.strand.null_mem (hnull ▸ hq)⟩
  exact (h.apart q hmem).not_mem (hperm.mem_iff.mp hq)

theorem OldThreaded.attrRow_mem (h : OldThreaded b e pre post) {i : Int} (h0 : 0 ≤ i)
    (hi : i ≤ b.lines) : b.attrRow i ∈ b.attrst := by
  have hmem := h.attrs.row_mem h0 hi
  rw [List.nil_append, List.append_nil] at hmem
  exact hmem

theorem OldThreaded.attrs_strand (h : OldThreaded b e pre post) :
    Strand NULL b.mem.links none b.attrst := by
  have hs := h.attrs.strand
  simpa [VSbuf.attrSide] using hs

/-- The rows that an operation at row `s` works on are on the screen. -/
theorem OnScreen.rows_le {S N : Int} (hs : OnScreen r b s) (hn : 1 ≤ n) (hS : startRow r s = S)
    (hN : clipCount r n S = N) : 0 ≤ S ∧ S ≤ b.lines ∧ 0 ≤ S+N-1 ∧ S+N-1 ≤ b.lines ∧
      0 ≤ r.bottom ∧ r.bottom ≤ b.lines ∧ 0 ≤ r.bottom-N+1 ∧ r.bottom-N+1 ≤ b.lines := by
  obtain ⟨h0, h1, h2, h3, -⟩ := id hs
  subst hS hN
  rcases hs.clipCount_cases (n := n) with ⟨hle, hclip⟩ | ⟨hlt, hclip⟩ <;> omega

/-- Deleting lines exchanges two blocks of the rows, in both lists. -/
theorem VSOdellines_rows (h : OldThreaded b e pre post) (hs : OnScreen r b s) (hn : 1 ≤ n) :
    (VSOdellines r b n s).linest = deletedRows r.bottom n (startRow r s) b.linest ∧
      (VSOdellines r b n s).attrst = deletedRows r.bottom n (startRow r s) b.attrst ∧
      OldThreaded (VSOdellines r b n s) e pre post := by
  generalize hS : startRow r s = S
  generalize hN : clipCount r n S = N
  obtain ⟨h0, h1, h2, h3, h4, h5, -⟩ := hs.rows_le hn hS hN
  have hTI := h.text.row_mem h4 h5
  have hmove := VSIdellines_reordered h.text.textSide rfl ⟨hs.1, hs.2, hs.3, hs.4, hs.5⟩ hn hS hN
  have hattr := h.move_text (h.text.row_mem h0 h1) (h.text.row_mem h2 h3) (Or.inl hTI)
    (next_inside h.text.strand hTI)
  rw [moveUnlessAdjacent_eq] at hattr
  have harows := VSIdellines_reordered hattr rfl ⟨hs.1, hs.2, hs.3, hs.4, hs.5⟩ hn hS hN
  have haTI := h.attrRow_mem h4 h5
  have hstr := hattr.strand
  rw [List.nil_append, List.append_nil] at hstr
  have hrows := h.move_attrs hstr ⟨hmove.strand, hmove.perm, hmove.first⟩ (h.attrRow_mem h0 h1)
    (h.attrRow_mem h2 h3) haTI (hstr.next_mem haTI)
  subst hS hN
  rw [VSOdellines]
  simp only [moveUnlessAdjacent_eq]
  exact old_settle h (m := { b.mem with links := _ }) hrows
    ⟨harows.strand, harows.perm, harows.first⟩ rfl _ _ _ _ _

/-- Inserting lines exchanges two blocks of the rows, in both lists. -/
theorem VSOinslines_rows (h : OldThreaded b e pre post) (hs : OnScreen r b s) (hn : 1 ≤ n) :
    (VSOinslines r b n s).linest = insertedRows r.bottom n (startRow r s) b.linest ∧
      (VSOinslines r b n s).attrst = insertedRows r.bottom n (startRow r s) b.attrst ∧
      OldThreaded (VSOinslines r b n s) e pre post := by
  generalize hS : startRow r s = S
  generalize hN : clipCount r n S = N
  obtain ⟨h0, h1, -, -, h4, h5, h6, h7⟩ := hs.rows_le hn hS hN
  have hBI := h.text.row_mem h0 h1
  have hmove := VSIinslines_reordered h.text.textSide rfl ⟨hs.1, hs.2, hs.3, hs.4, hs.5⟩ hn hS hN
  have hattr := h.move_text (h.text.row_mem h6 h7) (h.text.row_mem h4 h5)
    (prev_inside h.text.strand hBI) (Or.inl hBI)
  rw [moveUnlessAdjacent_eq] at hattr
  have harows := VSIinslines_reordered hattr rfl ⟨hs.1, hs.2, hs.3, hs.4, hs.5⟩ hn hS hN
  have haBI := h.attrRow_mem h0 h1
  have hstr := hattr.strand
  rw [List.nil_append, List.append_nil] at hstr
  have hrows := h.move_attrs hstr ⟨hmove.strand, hmove.perm, hmove.first⟩ (h.attrRow_mem h6 h7)
    (h.attrRow_mem h4 h5) ((prev_inside hstr haBI).resolve_right nofun) haBI
  subst hS hN
  rw [VSOinslines]
  simp only [moveUnlessAdjacent_eq]
  exact old_settle h (m := { b.mem with links := _ }) hrows
    ⟨harows.strand, harows.perm, harows.first⟩ rfl _ _ _ _ _

theorem VSOdellines_mem : (VSOdellines r b n s).allwidth = b.allwidth ∧
    (VSOdellines r b n s).oldScrollback = b.oldScrollback ∧
    ∃ links, (VSOdellines r b n s).mem =
      blankLinePairs b.allwidth r.blankAttrib (clipCount r n (startRow r s)).toNat
        (b.row (startRow r s)) (b.attrRow (startRow r s)) { b.mem with links := links } := by
  rw [VSOdellines]
  simp only [moveUnlessAdjacent_eq]
  exact ⟨(syncVisible_extent _).allwidth, syncVisible_oldScrollback _, _, syncVisible_mem _⟩

theorem VSOinslines_mem : (VSOinslines r b n s).allwidth = b.allwidth ∧
    (VSOinslines r b n s).oldScrollback = b.oldScrollback ∧
    ∃ links, (VSOinslines r b n s).mem =
      blankLinePairs b.allwidth r.blankAttrib (clipCount r n (startRow r s)).toNat
        (b.row (r.bottom-clipCount r n (startRow r s)+1))
        (b.attrRow (r.bottom-clipCount r n (startRow r s)+1)) { b.mem with links := links } := by
  rw [VSOinslines]
  simp only [moveUnlessAdjacent_eq]
  exact ⟨(syncVisible_extent _).allwidth, syncVisible_oldScrollback _, _, syncVisible_mem _⟩

/-- Lines that are blanked along a block of the rows and one of the attribute rows. -/
theorem OldThreaded.blanks (h : OldThreaded b' e pre post) {A X B A' Y B' : List Ptr}
    (hl : b'.linest = A ++ X ++ B) (hal : b'.attrst = A' ++ Y ++ B') (hX : X ≠ []) (hY : Y ≠ [])
    {a : BitVec 32} {p pa : Ptr} {k : ℕ} (hmem : b'.allwidth = b.allwidth ∧
      b'.oldScrollback = b.oldScrollback ∧ ∃ links, b'.mem =
        blankLinePairs b.allwidth a k p pa { b.mem with links := links })
    (hp : p = X.headD NULL) (hpa : pa = Y.headD NULL) (hk : k = X.length) (hk' : k = Y.length) :
    Blanks b b' a true X Y := by
  obtain ⟨hwidth, hold, links, hmem⟩ := hmem
  have hlinks : b'.mem.links = links := by
    rw [hmem, blankLinePairs_links]
  have hwalk : List.iterate links.next p k = X := by
    rw [hp, hk, ← hlinks]
    exact h.text.walk_block hl hX
  have hwalk' : List.iterate links.next pa k = Y := by
    rw [hpa, hk', ← hlinks]
    exact h.attrs.walk_block hal hY
  refine ⟨hwidth, hold, hk.symm.trans hk', links, ?_⟩
  rw [hmem, blankLinePairs_eq_foldl, hwalk, hwalk']

end Sides

/-- The rows of a screen, of either scrollback. The attribute lines of the old one are
well-formed rows too, in a ring of just these lines, which are none of the text lines. -/
structure AnyScreen (b : VSbuf) : Prop extends WellFormed b where
  visible : 0 ≤ b.Rtop → b.vistop = b.row b.Rtop
  attrRows : b.oldScrollback = true → WellFormed b.attrSide
  attrRing : b.oldScrollback = true → Circular b.attrSide (b.lines+1).toNat
  apart : b.oldScrollback = true → ∀ a ∈ b.attrst, ∀ k, a ≠ b.next^[k] b.buftop

section Any
variable {b : VSbuf} {e : Option Ptr} {pre post : List Ptr}

/-- Every line of a list comes after its first one. -/
theorem strand_reach {m : Links Ptr} {l : List Ptr} {p : Ptr} (h : Strand NULL m e l)
    (hp : p ∈ l) : ∃ k, p = m.next^[k] (l.headD NULL) := by
  have hs : Strand NULL m e ([] ++ l ++ []) := by simpa using h
  have hwalk := hs.walk (List.ne_nil_of_mem hp)
  rw [← hwalk] at hp
  obtain ⟨k, -, hk⟩ := List.mem_iterate.mp hp
  exact ⟨k, hk⟩

theorem WellFormed.reach (h : WellFormed b) (hth : Threaded b e pre post) (ha : Anchored b e pre)
    {p : Ptr} (hp : p ∈ pre ++ b.linest ++ post) : ∃ k, p = b.next^[k] b.buftop := by
  cases e with
  | some q =>
    have hfirst : b.buftop = (pre ++ b.linest ++ post).headD NULL := by
      rw [ha (Option.some_ne_none q),
        headD_append_of_ne_nil NULL (List.append_ne_nil_of_right_ne_nil pre hth.linest_ne_nil)]
    rw [hfirst]
    exact strand_reach hth.strand hp
  | none =>
    -- in a ring, every line comes after the first row
    have hs := hth.strand
    rw [List.append_assoc] at hs
    have hp' : p ∈ b.linest ++ post ++ pre := by
      rw [List.append_assoc] at hp
      rcases List.mem_append.mp hp with hp | hp
      · exact List.mem_append_right _ hp
      · exact List.mem_append_left _ hp
    obtain ⟨k, hk⟩ := strand_reach hs.rotate hp'
    rw [List.append_assoc, headD_append_of_ne_nil NULL hth.linest_ne_nil, ← hth.top,
      ← h.scrntop] at hk
    exact ⟨k+b.numlines.toNat, by rw [Function.iterate_add_apply]; exact hk⟩

theorem AnyScreen.oldThreaded (h : AnyScreen b) (hold : b.oldScrollback = true) :
    ∃ e pre post, OldThreaded b e pre post := by
  obtain ⟨e, pre, post, hth, hanch⟩ := h.toWellFormed.threaded
  have hring := h.attrRing hold
  have hrows := h.attrRows hold
  have h0 := h.lines_nonneg
  have hattrst : List.iterate b.attrSide.next b.attrSide.buftop (b.lines+1).toNat = b.attrst :=
    hrows.linest_eq.symm
  have hstr := hring.strand
  rw [hattrst] at hstr
  refine ⟨e, pre, post, hth, ?_, ?_⟩
  · have hlen := hrows.length
    have hstr' : Strand NULL b.attrSide.mem.links none ([] ++ b.attrSide.linest ++ []) := by
      rw [List.nil_append, List.append_nil]
      exact hstr
    refine ⟨hstr', hlen, h0, ?_, ?_, nofun⟩
    · rw [← hrows.top, row_zero]
    · intro a ha
      have ha' : a ∈ List.iterate b.attrSide.next b.attrSide.buftop (b.lines+1).toNat := by
        rw [List.nil_append, List.append_nil] at ha
        rw [hattrst]
        exact ha
      exact (hring.mem ha').2
  · intro a ha
    have ha' := h.apart hold a ha
    refine ⟨?_, ?_, ?_⟩
    · intro hmem
      obtain ⟨k, hk⟩ := h.toWellFormed.reach hth hanch hmem
      exact ha' k hk
    · rintro rfl
      -- the line before the list would be an attribute line, and so would be the next one
      have hprev : b.prev b.buftop = a := by
        have hfirst := hanch (Option.some_ne_none a)
        have hseg := seg_prev_headD hth.strand.seg hth.list_ne_nil
        rw [after_some, headD_append_of_ne_nil NULL
          (List.append_ne_nil_of_right_ne_nil pre hth.linest_ne_nil), ← hfirst] at hseg
        exact hseg
      obtain ⟨k, hk | hk⟩ := h.list
      · rcases hk.back with hnull | hnext
        · exact hstr.null_mem (hnull ▸ hprev ▸ ha)
        · rw [hprev] at hnext
          exact h.apart hold _ (hstr.next_mem ha) 0 hnext
      · exact ha' (k-1) (hprev.symm.trans hk.back)
    · rintro rfl
      exact hstr.null_mem ha

end Any

end VS
