import MacSSH.ScreenWellFormed
import MacSSH.ScrollbackRuns

/-! What the lines of a screen hold, and what blanking, inserting and deleting lines
makes of it. -/
namespace VS

open Linked

/-- What a line holds: its characters, their attributes and the line attribute. -/
structure Row where
  text : List UInt8
  attr : List (BitVec 32)
  lattr : BitVec 16
  deriving DecidableEq, Repr

/-- The contents of the line `p` whose attributes are kept in the line `pa`. -/
def LineMem.contents (m : LineMem) (width : Int) (p pa : Ptr) : Row where
  text := (List.range (width+1).toNat).map fun j : ℕ => m.text p j
  attr := (List.range (width+1).toNat).map fun j : ℕ => m.attr pa j
  lattr := m.lattr p

/-- A row of blanks with the attribute `a`. -/
def blankRow (width : Int) (a : BitVec 32) (lattr : BitVec 16) : Row where
  text := List.replicate (width+1).toNat 32
  attr := List.replicate (width+1).toNat a
  lattr := lattr

/-- A row erased with the attribute `a`; its line attribute stays. -/
def Row.erased (width : Int) (a : BitVec 32) (row : Row) : Row := blankRow width a row.lattr

/-- The contents of a line of the linked scrollback. -/
def VSbuf.contents (b : VSbuf) (p : Ptr) : Row := b.mem.contents b.allwidth p p

/-- The contents of the rows of a screen with the linked scrollback. -/
def VSbuf.shown (b : VSbuf) : List Row := b.linest.map b.contents

/-- The contents of row `i` of a screen. -/
def VSbuf.rowContents (b : VSbuf) (i : Int) : Row :=
  b.mem.contents b.allwidth (b.row i) (if b.oldScrollback then b.attrRow i else b.row i)

/-- Cells of which those up to `width` are filled with `c`. -/
def filled {α : Type} (width : Int) (c : α) (f : Int → α) : Int → α :=
  fun j => if 0 ≤ j ∧ j ≤ width then c else f j

section Filled
variable {α : Type} (width : Int) (c : α) (f : Int → α)

theorem filled_filled : filled width c (filled width c f) = filled width c f := by
  funext j
  simp only [filled]
  split_ifs <;> rfl

theorem map_filled : (List.range (width+1).toNat).map (fun j : ℕ => filled width c f j) =
    List.replicate (width+1).toNat c := by
  rw [List.eq_replicate_iff, List.length_map, List.length_range]
  refine ⟨rfl, ?_⟩
  intro d hd
  obtain ⟨j, hj, rfl⟩ := List.mem_map.mp hd
  have hj' := List.mem_range.mp hj
  exact if_pos (by omega)

/-- Filling changes nothing exactly where the cells are filled already. -/
theorem filled_eq_self : filled width c f = f ↔ ∀ j, 0 ≤ j → j ≤ width → f j = c := by
  constructor
  · intro h j h0 hj
    rw [← h, filled, if_pos ⟨h0, hj⟩]
  · intro h
    funext j
    rw [filled]
    split_ifs with hj
    · exact (h j hj.1 hj.2).symm
    · rfl

end Filled

section Blanked
variable {w : Int} {a : BitVec 32} {l : Bool} {n : ℕ} {m : LineMem} {p pa : Ptr}

/-- Blank one line of a screen. -/
def blankOne (w : Int) (a : BitVec 32) (l : Bool) (m : LineMem) (q : Ptr × Ptr) : LineMem :=
  (if l then m.setLattr q.1 0 else m).blank w q.1 q.2 a

theorem blankOne_links (q : Ptr × Ptr) : (blankOne w a l m q).links = m.links := by
  cases l <;> rfl

theorem blankOne_text (q : Ptr × Ptr) : (blankOne w a l m q).text =
    Function.update m.text q.1 (filled w 32 (m.text q.1)) := by
  cases l <;> rfl

theorem blankOne_attr (q : Ptr × Ptr) : (blankOne w a l m q).attr =
    Function.update m.attr q.2 (filled w a (m.attr q.2)) := by
  cases l <;> rfl

theorem blankOne_lattr (q : Ptr × Ptr) : (blankOne w a l m q).lattr =
    if l then Function.update m.lattr q.1 0 else m.lattr := by
  cases l <;> rfl

/-- The blanking loop visits the lines of two walks, side by side. -/
theorem blankLines_eq_foldl : blankLines w a l n p m =
    ((List.iterate m.links.next p n).zip (List.iterate m.links.next p n)).foldl
      (blankOne w a l) m := by
  induction n generalizing p m with
  | zero => rfl
  | succ n ih =>
    rw [blankLines]
    change blankLines w a l n ((blankOne w a l m (p, p)).links.next p) (blankOne w a l m (p, p)) = _
    rw [ih, blankOne_links]
    rfl

theorem blankLinePairs_eq_foldl : blankLinePairs w a n p pa m =
    ((List.iterate m.links.next p n).zip (List.iterate m.links.next pa n)).foldl
      (blankOne w a true) m := by
  induction n generalizing p pa m with
  | zero => rfl
  | succ n ih =>
    rw [blankLinePairs]
    change blankLinePairs w a n ((blankOne w a true m (p, pa)).links.next p)
      ((blankOne w a true m (p, pa)).links.next pa) (blankOne w a true m (p, pa)) = _
    rw [ih, blankOne_links]
    rfl

/-- Updating some places of a function by a `g` that does nothing the second time. -/
theorem foldl_update {ι β : Type} [DecidableEq ι] (g : β → β) (hg : ∀ y, g (g y) = g y)
    (L : List ι) (f : ι → β) (q : ι) :
    L.foldl (fun f i => Function.update f i (g (f i))) f q = if q ∈ L then g (f q) else f q := by
  induction L generalizing f with
  | nil => rfl
  | cons i L ih =>
    rw [List.foldl_cons, ih]
    by_cases hq : q = i
    · subst hq
      rw [Function.update_self, hg, ite_self, if_pos List.mem_cons_self]
    · rw [Function.update_of_ne hq]
      simp only [List.mem_cons, hq, false_or]

/-- Reading off one component of a loop. -/
theorem foldl_component {σ τ ι κ : Type} (step : σ → ι → σ) (get : σ → τ) (key : ι → κ)
    (upd : τ → κ → τ) (h : ∀ s i, get (step s i) = upd (get s) (key i)) (L : List ι) (s : σ) :
    get (L.foldl step s) = (L.map key).foldl upd (get s) := by
  induction L generalizing s with
  | nil => rfl
  | cons i L ih => rw [List.foldl_cons, ih, List.map_cons, List.foldl_cons, h]

theorem blanked_text (L : List (Ptr × Ptr)) (q : Ptr) :
    (L.foldl (blankOne w a l) m).text q =
      if q ∈ L.map Prod.fst then filled w 32 (m.text q) else m.text q := by
  rw [foldl_component _ LineMem.text Prod.fst
    (fun f i => Function.update f i (filled w 32 (f i))) (fun _ _ => blankOne_text _)]
  exact foldl_update (filled w 32) (filled_filled w 32) _ _ q

theorem blanked_attr (L : List (Ptr × Ptr)) (q : Ptr) :
    (L.foldl (blankOne w a l) m).attr q =
      if q ∈ L.map Prod.snd then filled w a (m.attr q) else m.attr q := by
  rw [foldl_component _ LineMem.attr Prod.snd
    (fun f i => Function.update f i (filled w a (f i))) (fun _ _ => blankOne_attr _)]
  exact foldl_update (filled w a) (filled_filled w a) _ _ q

theorem blanked_lattr (L : List (Ptr × Ptr)) (q : Ptr) :
    (L.foldl (blankOne w a l) m).lattr q =
      if l = true ∧ q ∈ L.map Prod.fst then 0 else m.lattr q := by
  cases l with
  | false =>
    rw [foldl_component _ LineMem.lattr Prod.fst (fun f _ => f) (fun _ _ => blankOne_lattr _),
      if_neg (fun hc => Bool.false_ne_true hc.1)]
    generalize L.map Prod.fst = K
    induction K with
    | nil => rfl
    | cons _ _ ih => exact ih
  | true =>
    rw [foldl_component _ LineMem.lattr Prod.fst
      (fun f i => Function.update f i 0) (fun _ _ => blankOne_lattr _)]
    have hzero := foldl_update (fun _ => (0 : BitVec 16)) (fun _ => rfl) (L.map Prod.fst) m.lattr q
    simpa only [true_and] using hzero

/-- What the lines hold after a blanking loop. -/
theorem blanked_contents {X Y : List Ptr} (hlen : X.length = Y.length) {q qa : Ptr}
    (hq : q ∈ X ↔ qa ∈ Y) :
    ((X.zip Y).foldl (blankOne w a l) m).contents w q qa =
      if q ∈ X then blankRow w a (if l then 0 else m.lattr q) else m.contents w q qa := by
  have hX : (X.zip Y).map Prod.fst = X := List.map_fst_zip hlen.le
  have hY : (X.zip Y).map Prod.snd = Y := List.map_snd_zip hlen.ge
  simp only [LineMem.contents, blanked_text, blanked_attr, blanked_lattr, hX, hY, ← hq]
  by_cases hmem : q ∈ X
  · simp only [hmem, if_true, map_filled, and_true, blankRow]
  · simp only [hmem, and_false, if_false]

end Blanked

section Slices
variable {α β : Type}

theorem map_slice (f : α → β) (i j : ℕ) (l : List α) :
    (slice i j l).map f = slice i j (l.map f) := by
  rw [slice, slice, List.map_drop, List.map_take]

theorem slice_self (i : ℕ) (l : List α) : slice i i l = [] := by
  rw [slice, List.drop_eq_nil_iff, List.length_take]
  exact min_le_left i _

end Slices

/-- The saved lines, the oldest first. -/
def VSbuf.saved (b : VSbuf) : List Ptr := List.iterate b.next b.buftop b.numlines.toNat

/-- A well-formed screen with the linked scrollback: its rows and its list of lines
agree, and the saved lines and the rows are different lines. -/
structure LinkedScreen (b : VSbuf) : Prop extends WellFormed b where
  scrollback : ScrollbackList b
  linked : b.oldScrollback = false

section Linked
variable {b : VSbuf} {k : ℕ}

theorem WellFormed.strand (hk : NullEnded b k ∨ Circular b k) :
    ∃ e, Strand NULL b.mem.links e (List.iterate b.next b.buftop k) ∧
      (∀ p ∈ e, p < b.mem.brk) ∧ (e = none ∧ Circular b k ∨ e ≠ none ∧ NullEnded b k) := by
  rcases hk with hk | hk
  · exact ⟨_, hk.strand, fun p hp => Option.some.inj hp ▸ hk.before,
      Or.inr ⟨Option.some_ne_none _, hk⟩⟩
  · exact ⟨none, hk.strand, nofun, Or.inl ⟨rfl, hk⟩⟩

theorem ListFrom.of_list (hk : NullEnded b k ∨ Circular b k) : ListFrom b k :=
  hk.elim NullEnded.toListFrom Circular.toListFrom

/-- The saved lines and the rows are the first lines of the list. -/
theorem LinkedScreen.reaches_rows (h : LinkedScreen b) (hk : NullEnded b k ∨ Circular b k) :
    b.numlines.toNat+(b.lines+1).toNat ≤ k := by
  have h0 := h.lines_nonneg
  have hnum := h.numlines_nonneg
  by_contra hlt
  rcases hk with hk | hk
  · -- a row would be `NULL`
    have hreach := hk.reached
    have hrow := h.row_iterate (k-b.numlines.toNat) (by omega)
    have hN : k-b.numlines.toNat+b.numlines.toNat = k := by omega
    rw [← h.scrntop, ← Function.iterate_add_apply, hN, hk.last] at hrow
    exact h.node _ (by omega) (by omega) hrow
  · -- the walk along the saved lines and the rows would come back to the oldest line
    have hpos := hk.pos
    have hnd := h.scrollback.distinct
    rw [List.nodup_iff_getElem?_ne_getElem?] at hnd
    apply hnd 0 k hpos
    · rw [List.length_iterate]
      omega
    · rw [List.getElem?_iterate _ _ _ _ (by omega), List.getElem?_iterate _ _ _ _ (by omega),
        hk.closed]
      rfl

/-- The list of a well-formed screen: the saved lines, the rows and the lines below
the screen. -/
theorem LinkedScreen.threaded (h : LinkedScreen b) (hk : NullEnded b k ∨ Circular b k) :
    ∃ e post, Threaded b e b.saved post ∧
      b.saved ++ b.linest ++ post = List.iterate b.next b.buftop k ∧
      (e = none ∧ Circular b k ∨ e ≠ none ∧ NullEnded b k) := by
  have h0 := h.lines_nonneg
  have hle := h.reaches_rows hk
  obtain ⟨e, hstr, he, hkind⟩ := WellFormed.strand hk
  have hN : b.numlines.toNat+(k-b.numlines.toNat) = k := by omega
  have hsplit : List.iterate b.next b.buftop k =
      b.saved ++ List.iterate b.next b.scrntop (k-b.numlines.toNat) := by
    rw [VSbuf.saved, ← h.scrntop, ← List.iterate_add, hN]
  have hlen : b.lines+1 ≤ (List.iterate b.next b.scrntop (k-b.numlines.toNat)).length := by
    rw [List.length_iterate]
    omega
  have hlive : ∀ p ∈ b.saved ++ List.iterate b.next b.scrntop (k-b.numlines.toNat),
      p < b.mem.brk := by
    rw [← hsplit]
    exact fun p hp => ((ListFrom.of_list hk).mem hp).2
  rw [hsplit] at hstr ⊢
  have hth := h.threaded_of hstr (headD_iterate (by omega)).symm hlen hlive he
  refine ⟨e, _, hth, ?_, hkind⟩
  -- the rows are the first lines from `scrntop` on
  have hrest : k-b.numlines.toNat = (b.lines+1).toNat+(k-b.numlines.toNat-(b.lines+1).toNat) := by
    omega
  have hdrop : (List.iterate b.next b.scrntop (k-b.numlines.toNat)).take (b.lines+1).toNat =
      b.linest := by
    rw [h.linest_eq, hrest, List.iterate_add, List.take_left' (List.length_iterate ..)]
  rw [List.append_assoc, ← hdrop, List.take_append_drop]

end Linked

/-- The number of lines that an insertion or deletion of `n` lines at row `s` blanks. -/
def blanked (bottom n s : Int) : Int := min n (bottom-s+1)

section Edited
variable {r : VSregion} {b : VSbuf} {e : Option Ptr} {pre post : List Ptr} {n s : Int}

theorem OnScreen.clipCount_eq (hs : OnScreen r b s) :
    clipCount r n (startRow r s) = blanked r.bottom n (startRow r s) := by
  rw [blanked]
  rcases hs.clipCount_cases (n := n) with ⟨hle, hclip⟩ | ⟨hlt, hclip⟩ <;> omega

/-- Deletion exchanges the deleted rows with the rest of the scrolling region, if any
is left. -/
theorem deletedRows_eq {bottom S : Int} (rows : List Ptr) (h0 : 0 ≤ S) (hS : S ≤ bottom) :
    deletedRows bottom n S rows =
      rows.take S.toNat ++ (slice (S+blanked bottom n S).toNat (bottom+1).toNat rows ++
        slice S.toNat (S+blanked bottom n S).toNat rows) ++ rows.drop (bottom+1).toNat := by
  rw [deletedRows, blanked]
  split_ifs with hle
  · rw [min_eq_left (by omega)]
    rfl
  · have hall : S+min n (bottom-S+1) = bottom+1 := by omega
    have hij : S.toNat ≤ (bottom+1).toNat := by omega
    rw [hall, slice_self, List.nil_append]
    have hsplit := slice_split rows hij le_rfl
    rw [slice_self, List.append_nil] at hsplit
    exact hsplit.symm

/-- Insertion exchanges the last rows of the scrolling region with those before, if any
are left. -/
theorem insertedRows_eq {bottom S : Int} (rows : List Ptr) (h0 : 0 ≤ S) (hS : S ≤ bottom) :
    insertedRows bottom n S rows =
      rows.take S.toNat ++ (slice (bottom-blanked bottom n S+1).toNat (bottom+1).toNat rows ++
        slice S.toNat (bottom-blanked bottom n S+1).toNat rows) ++
      rows.drop (bottom+1).toNat := by
  rw [insertedRows, blanked]
  split_ifs with hle
  · rw [min_eq_left (by omega)]
    rfl
  · have hall : bottom-min n (bottom-S+1)+1 = S := by omega
    have hij : S.toNat ≤ (bottom+1).toNat := by omega
    rw [hall, slice_self, List.append_nil]
    have hsplit := slice_split rows hij le_rfl
    rw [slice_self, List.append_nil] at hsplit
    exact hsplit.symm

theorem syncVisible_mem (b : VSbuf) : (syncVisible b).mem = b.mem := by
  rw [syncVisible]
  split_ifs <;> rfl

/-- Moving lines changes links only. -/
theorem moveUnlessAdjacent_cells (b : VSbuf) (TD BD TI BI : Ptr) :
    (moveUnlessAdjacent b TD BD TI BI).allwidth = b.allwidth ∧
      ∃ links, (moveUnlessAdjacent b TD BD TI BI).mem = { b.mem with links := links } := by
  rw [moveUnlessAdjacent]
  split_ifs <;> exact ⟨rfl, _, rfl⟩

/-- What an operation that relinks lines and blanks the lines `X`, whose attributes are in
the lines `Y`, leaves in the lines. -/
structure Blanks (b b' : VSbuf) (a : BitVec 32) (l : Bool) (X Y : List Ptr) : Prop where
  allwidth : b'.allwidth = b.allwidth
  oldScrollback : b'.oldScrollback = b.oldScrollback
  length : X.length = Y.length
  mem : ∃ links, b'.mem =
    (X.zip Y).foldl (blankOne b.allwidth a l) { b.mem with links := links }

/-- The contents of the lines when attributes are kept with the text. -/
theorem Blanks.contents {b' : VSbuf} {a : BitVec 32} {l : Bool} {X : List Ptr}
    (h : Blanks b b' a l X X) (q : Ptr) : b'.contents q =
      if q ∈ X then blankRow b.allwidth a (if l then 0 else b.mem.lattr q) else b.contents q := by
  obtain ⟨links, hmem⟩ := h.mem
  rw [VSbuf.contents, h.allwidth, hmem, blanked_contents rfl Iff.rfl]
  rfl

theorem syncVisible_oldScrollback (b : VSbuf) :
    (syncVisible b).oldScrollback = b.oldScrollback := by
  rw [syncVisible]
  split_ifs <;> rfl

theorem VSIdellines_mem (hold : b.oldScrollback = false) :
    (VSIdellines r b n s).allwidth = b.allwidth ∧
      ∃ links, (VSIdellines r b n s).mem =
        blankLines b.allwidth r.blankAttrib true (clipCount r n (startRow r s)).toNat
          (b.row (startRow r s)) { b.mem with links := links } := by
  rw [VSIdellines, if_neg (by rw [hold]; exact Bool.false_ne_true)]
  obtain ⟨hwidth, links, hmem⟩ := moveUnlessAdjacent_cells b (b.row (startRow r s))
    (b.row (startRow r s+clipCount r n (startRow r s)-1)) (b.row r.bottom) (b.next (b.row r.bottom))
  refine ⟨(syncVisible_extent _).allwidth.trans hwidth, links, (syncVisible_mem _).trans ?_⟩
  change blankLines (moveUnlessAdjacent ..).allwidth _ _ _ _ (moveUnlessAdjacent ..).mem = _
  rw [hwidth, hmem]

theorem VSIinslines_mem (hold : b.oldScrollback = false) :
    (VSIinslines r b n s).allwidth = b.allwidth ∧
      ∃ links, (VSIinslines r b n s).mem =
        blankLines b.allwidth r.blankAttrib false (clipCount r n (startRow r s)).toNat
          (b.row (r.bottom-clipCount r n (startRow r s)+1)) { b.mem with links := links } := by
  rw [VSIinslines, if_neg (by rw [hold]; exact Bool.false_ne_true)]
  obtain ⟨hwidth, links, hmem⟩ := moveUnlessAdjacent_cells b
    (b.row (r.bottom-clipCount r n (startRow r s)+1)) (b.row r.bottom)
    (b.prev (b.row (startRow r s))) (b.row (startRow r s))
  refine ⟨(syncVisible_extent _).allwidth.trans hwidth, links, (syncVisible_mem _).trans ?_⟩
  change blankLines (moveUnlessAdjacent ..).allwidth _ _ _ _ (moveUnlessAdjacent ..).mem = _
  rw [hwidth, hmem]

/-- A walk along a block of the list is the block. -/
theorem Threaded.walk_block (h : Threaded b e pre post) {A X B : List Ptr}
    (hl : b.linest = A ++ X ++ B) (hX : X ≠ []) :
    List.iterate b.mem.links.next (X.headD NULL) X.length = X := by
  have hs := h.strand
  rw [hl] at hs
  have hs' : Strand NULL b.mem.links e ((pre ++ A) ++ X ++ (B ++ post)) := by
    simpa only [List.append_assoc] using hs
  exact hs'.walk hX

/-- Lines that are blanked along a block of the rows as they are afterwards. -/
theorem Threaded.blanks {b' : VSbuf} (h : Threaded b' e pre post) {A X B : List Ptr}
    (hl : b'.linest = A ++ X ++ B) (hX : X ≠ []) {a : BitVec 32} {l : Bool} {p : Ptr} {k : ℕ}
    {links : Links Ptr} (hwidth : b'.allwidth = b.allwidth)
    (hold : b'.oldScrollback = b.oldScrollback)
    (hmem : b'.mem = blankLines b.allwidth a l k p { b.mem with links := links })
    (hp : p = X.headD NULL) (hk : k = X.length) : Blanks b b' a l X X := by
  have hlinks : b'.mem.links = links := by
    rw [hmem, blankLines_links]
  have hwalk : List.iterate links.next p k = X := by
    rw [hp, hk, ← hlinks]
    exact h.walk_block hl hX
  refine ⟨hwidth, hold, rfl, links, ?_⟩
  rw [hmem, blankLines_eq_foldl, hwalk]

/-- The rows of the screen after some of its lines have been blanked. -/
theorem Blanks.shown {b' : VSbuf} {a : BitVec 32} {l : Bool} {A X B : List Ptr}
    (h : Blanks b b' a l X X) (hl : b'.linest = A ++ X ++ B) (hnd : b'.linest.Nodup) :
    b'.shown = A.map b.contents ++
      X.map (fun q => blankRow b.allwidth a (if l then 0 else b.mem.lattr q)) ++
      B.map b.contents := by
  rw [hl] at hnd
  have hAX := List.disjoint_of_nodup_append hnd.of_append_left
  have hXB := List.disjoint_of_nodup_append hnd
  have hA : A.map b'.contents = A.map b.contents :=
    List.map_congr_left fun q hq => by rw [h.contents, if_neg (fun hx => hAX hq hx)]
  have hXm : X.map b'.contents =
      X.map (fun q => blankRow b.allwidth a (if l then 0 else b.mem.lattr q)) :=
    List.map_congr_left fun q hq => by rw [h.contents, if_pos hq]
  have hB : B.map b'.contents = B.map b.contents := by
    refine List.map_congr_left fun q hq => ?_
    rw [h.contents, if_neg (fun hx => hXB (List.mem_append_right A hx) hq)]
  rw [VSbuf.shown, hl, List.map_append, List.map_append, hA, hXm, hB]

/-- A deletion that starts in the scrolling region blanks the rows that it brings to the
bottom of the region. -/
theorem VSIdellines_blanks (h : Threaded b e pre post) (hold : b.oldScrollback = false)
    (hs : OnScreen r b s) (hn : 1 ≤ n) {S m : ℕ} (hS : startRow r s = S)
    (hle : startRow r s ≤ r.bottom) (hm : blanked r.bottom n (startRow r s) = m) :
    (VSIdellines r b n s).linest =
        b.linest.take S ++ slice (S+m) (r.bottom+1).toNat b.linest ++ slice S (S+m) b.linest ++
          b.linest.drop (r.bottom+1).toNat ∧
      Blanks b (VSIdellines r b n s) r.blankAttrib true (slice S (S+m) b.linest)
        (slice S (S+m) b.linest) := by
  have hlen := h.length
  have hbot := hs.bottom_le
  have hblank := hm
  rw [blanked, hS] at hblank
  have hSm : (startRow r s+blanked r.bottom n (startRow r s)).toNat = S+m := by omega
  have hk : S+m ≤ b.linest.length := by omega
  obtain ⟨hrows, hth⟩ := VSIdellines_rows h hold hs hn
  rw [deletedRows_eq _ hs.row_nonneg hle, hSm, hS, Int.toNat_natCast,
    ← List.append_assoc] at hrows
  refine ⟨hrows, ?_⟩
  obtain ⟨hwidth, links, hmem⟩ := VSIdellines_mem (r := r) (n := n) (s := s) hold
  apply hth.blanks hrows (slice_ne_nil (by omega) hk) hwidth
    (VSIdellines_frame r n s hold).1.oldScrollback hmem
  · rw [slice_headD _ _ (by omega)]
    exact row_toNat b (by omega)
  · rw [length_slice _ hk, hs.clipCount_eq, hm]
    omega

/-- An insertion that starts in the scrolling region blanks the rows that it brings to
row `s`; their line attributes stay. -/
theorem VSIinslines_blanks (h : Threaded b e pre post) (hold : b.oldScrollback = false)
    (hs : OnScreen r b s) (hn : 1 ≤ n) {S T m : ℕ} (hS : startRow r s = S)
    (hle : startRow r s ≤ r.bottom) (hm : blanked r.bottom n (startRow r s) = m)
    (hT : r.bottom+1 = T+m) :
    (VSIinslines r b n s).linest =
        b.linest.take S ++ slice T (r.bottom+1).toNat b.linest ++
          (slice S T b.linest ++ b.linest.drop (r.bottom+1).toNat) ∧
      Blanks b (VSIinslines r b n s) r.blankAttrib false
        (slice T (r.bottom+1).toNat b.linest) (slice T (r.bottom+1).toNat b.linest) := by
  have hlen := h.length
  have hbot := hs.bottom_le
  have hblank := hm
  rw [blanked, hS] at hblank
  have hTm : (r.bottom-blanked r.bottom n (startRow r s)+1).toNat = T := by omega
  have hk : (r.bottom+1).toNat ≤ b.linest.length := by omega
  obtain ⟨hrows, hth⟩ := VSIinslines_rows h hold hs hn
  rw [insertedRows_eq _ hs.row_nonneg hle, hTm, hS, Int.toNat_natCast] at hrows
  simp only [← List.append_assoc] at hrows
  rw [List.append_assoc (_ ++ _)] at hrows
  refine ⟨hrows, ?_⟩
  obtain ⟨hwidth, links, hmem⟩ := VSIinslines_mem (r := r) (n := n) (s := s) hold
  apply hth.blanks hrows (slice_ne_nil (by omega) hk) hwidth
    (VSIinslines_frame r n s hold).1.oldScrollback hmem
  · rw [slice_headD _ _ (by omega), hs.clipCount_eq]
    exact row_toNat b hTm
  · rw [length_slice _ hk, hs.clipCount_eq, hm]
    omega

end Edited

end VS
