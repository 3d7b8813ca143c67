import MacSSH.Emulation

/-! The sizes of the lines: what the routines for lines make of the line attributes. -/
namespace VS

open Linked

/-- The bits of a line attribute that are the size of its characters. -/
def sizeBits : BitVec 16 := kVSdecdhlt ||| kVSdecdhlb

/-- The size of row `y`. -/
def VSbuf.rowSize (b : VSbuf) (y : Int) : BitVec 16 := b.mem.lattr (b.row y) &&& sizeBits

/-- No line, on the screen or off it, has characters of double size. -/
def AllSingle (b : VSbuf) : Prop := ∀ p, b.mem.lattr p &&& sizeBits = 0

/-- Line attributes are kept, moved or cleared. -/
def FromLattr (m m' : LineMem) : Prop := ∀ p, m'.lattr p = 0 ∨ ∃ q, m'.lattr p = m.lattr q

namespace FromLattr
variable {m m' m'' : LineMem}

theorem of_eq (h : m'.lattr = m.lattr) : FromLattr m m' := fun p => Or.inr ⟨p, congrFun h p⟩

theorem refl (m : LineMem) : FromLattr m m := of_eq rfl

theorem trans (h : FromLattr m m') (h' : FromLattr m' m'') : FromLattr m m'' := by
  intro p
  rcases h' p with hp | ⟨q, hp⟩
  · exact Or.inl hp
  · rw [hp]
    exact h q

theorem setLattr (m : LineMem) (p : Ptr) : FromLattr m (m.setLattr p 0) := by
  intro q
  simp only [LineMem.setLattr]
  rcases eq_or_ne q p with rfl | hq
  · exact Or.inl (Function.update_self q 0 m.lattr)
  · exact Or.inr ⟨q, Function.update_of_ne hq 0 m.lattr⟩

theorem foldl {α : Type} {f : VSbuf → α → VSbuf} (hf : ∀ b x, FromLattr b.mem (f b x).mem)
    (b : VSbuf) (l : List α) : FromLattr b.mem (l.foldl f b).mem := by
  induction l generalizing b with
  | nil => exact refl _
  | cons x l ih => exact (hf b x).trans (ih (f b x))

theorem ite {P : Prop} [Decidable P] {b b' : VSbuf} (h : FromLattr m b.mem)
    (h' : FromLattr m b'.mem) : FromLattr m (if P then b else b').mem := by
  split_ifs
  · exact h
  · exact h'

theorem single {b b' : VSbuf} (h : FromLattr b.mem b'.mem) (hb : AllSingle b) :
    AllSingle b' := by
  intro p
  rcases h p with hp | ⟨q, hp⟩
  · rw [hp]
    decide
  · rw [hp]
    exact hb q

end FromLattr

section Lines
variable (r : VSregion) (b : VSbuf) (n s : Int)

theorem blankLines_lattr (width : Int) (a : BitVec 32) (lattr : Bool) (n : ℕ) (p : Ptr)
    (m : LineMem) : FromLattr m (blankLines width a lattr n p m) := by
  induction n generalizing p m with
  | zero => exact FromLattr.refl m
  | succ n ih =>
    rw [blankLines]
    apply FromLattr.trans _ (ih _ _)
    cases lattr with
    | false => exact FromLattr.refl m
    | true => exact FromLattr.setLattr m p

theorem blankLinePairs_lattr (width : Int) (a : BitVec 32) (n : ℕ) (p pa : Ptr) (m : LineMem) :
    FromLattr m (blankLinePairs width a n p pa m) := by
  induction n generalizing p pa m with
  | zero => exact FromLattr.refl m
  | succ n ih => exact (FromLattr.setLattr m p).trans (ih _ _ _)

theorem moveUnlessAdjacent_lattr (TD BD TI BI : Ptr) :
    (moveUnlessAdjacent b TD BD TI BI).mem.lattr = b.mem.lattr := by
  rw [moveUnlessAdjacent]
  split_ifs <;> rfl

theorem syncVisible_lattr : (syncVisible b).mem = b.mem := by
  rw [syncVisible]
  split_ifs <;> rfl

theorem VSOdellines_lattr : FromLattr b.mem (VSOdellines r b n s).mem := by
  simp only [VSOdellines, syncVisible_lattr]
  apply FromLattr.trans _ (blankLinePairs_lattr _ _ _ _ _ _)
  exact FromLattr.of_eq ((moveUnlessAdjacent_lattr _ _ _ _ _).trans
    (moveUnlessAdjacent_lattr _ _ _ _ _))

theorem VSIdellines_lattr : FromLattr b.mem (VSIdellines r b n s).mem := by
  rw [VSIdellines]
  split_ifs
  · exact VSOdellines_lattr r b n s
  · simp only [syncVisible_lattr]
    apply FromLattr.trans _ (blankLines_lattr _ _ _ _ _ _)
    exact FromLattr.of_eq (moveUnlessAdjacent_lattr _ _ _ _ _)

theorem VSOinslines_lattr : FromLattr b.mem (VSOinslines r b n s).mem := by
  simp only [VSOinslines, syncVisible_lattr]
  apply FromLattr.trans _ (blankLinePairs_lattr _ _ _ _ _ _)
  exact FromLattr.of_eq ((moveUnlessAdjacent_lattr _ _ _ _ _).trans
    (moveUnlessAdjacent_lattr _ _ _ _ _))

theorem VSIinslines_lattr : FromLattr b.mem (VSIinslines r b n s).mem := by
  rw [VSIinslines]
  split_ifs
  · exact VSOinslines_lattr r b n s
  · simp only [syncVisible_lattr]
    apply FromLattr.trans _ (blankLines_lattr _ _ _ _ _ _)
    exact FromLattr.of_eq (moveUnlessAdjacent_lattr _ _ _ _ _)

theorem cleared_lattr {m m' : LineMem} {P : ℕ → Prop} [DecidablePred P]
    (h : m'.lattr = fun a => if P a then 0 else m.lattr a) : FromLattr m m' := by
  intro p
  rw [h]
  simp only
  split_ifs
  · exact Or.inl rfl
  · exact Or.inr ⟨p, rfl⟩

theorem grant_lattr (m : LineMem) : m.grant.2.lattr = m.lattr := rfl

theorem VSInewlines_lattr (m : LineMem) : FromLattr m (VSInewlines m n).2 := by
  have hgrant := grant_lattr m
  rw [VSInewlines]
  generalize m.grant = g at hgrant ⊢
  obtain ⟨ok, m'⟩ := g
  cases ok with
  | false => exact FromLattr.of_eq hgrant
  | true => exact cleared_lattr (by rw [← hgrant]; rfl)

theorem VSOnewlines_lattr (m : LineMem) : FromLattr m (VSOnewlines m n).2 := by
  have hcontents := grant_lattr m
  rw [VSOnewlines]
  generalize m.grant = g at hcontents ⊢
  obtain ⟨contents, m'⟩ := g
  cases contents with
  | false => exact FromLattr.of_eq hcontents
  | true =>
    have hrecords := grant_lattr m'
    simp only [if_true]
    generalize m'.grant = g at hrecords ⊢
    obtain ⟨records, m''⟩ := g
    have hlattr : m''.lattr = m.lattr := hrecords.trans hcontents
    cases records with
    | false => exact FromLattr.of_eq hlattr
    | true => exact cleared_lattr (by rw [← hlattr]; rfl)

theorem newlines_lattr : FromLattr b.mem (newlines b n).2.mem := by
  simp only [newlines]
  split_ifs
  · exact VSOnewlines_lattr n b.mem
  · exact VSInewlines_lattr n b.mem

theorem advanceBuffer_lattr : FromLattr b.mem (advanceBuffer b).mem := by
  have hnew := newlines_lattr b (atOnce (short (b.maxlines-b.numlines)))
  simp only [advanceBuffer]
  split_ifs
  · exact hnew
  · exact hnew
  · exact FromLattr.refl _
  · exact FromLattr.refl _
  · exact FromLattr.refl _

theorem scrollVisible_lattr : (scrollVisible r b).mem = b.mem := by
  rw [scrollVisible]
  split_ifs <;> rfl

theorem rotateBelow_lattr (bottom : Int) : (rotateBelow b bottom).mem.lattr = b.mem.lattr := by
  simp only [rotateBelow]
  split_ifs <;> rfl

theorem VSOscroll_lattr : FromLattr b.mem (VSOscroll r b).mem := by
  rw [VSOscroll]
  split_ifs with hy hdel
  · exact FromLattr.refl _
  · exact VSOdellines_lattr r b 1 r.top
  · apply (advanceBuffer_lattr b).trans
    simp only
    split_ifs
    · apply FromLattr.trans _ (FromLattr.of_eq (rotateBelow_lattr _ _))
      apply FromLattr.trans _ (FromLattr.setLattr _ _)
      exact FromLattr.of_eq (congrArg LineMem.lattr (scrollVisible_lattr _ _))
    · apply FromLattr.trans _ (FromLattr.setLattr _ _)
      exact FromLattr.of_eq (congrArg LineMem.lattr (scrollVisible_lattr _ _))

theorem VSIscroll_lattr : FromLattr b.mem (VSIscroll r b).mem := by
  rw [VSIscroll]
  split_ifs with hy hold hdel
  · exact FromLattr.refl _
  · exact VSOscroll_lattr r b
  · exact VSIdellines_lattr r b 1 r.top
  · apply (advanceBuffer_lattr b).trans
    simp only
    split_ifs
    · apply FromLattr.trans _ (FromLattr.of_eq (rotateBelow_lattr _ _))
      apply FromLattr.trans _ (FromLattr.setLattr _ _)
      exact FromLattr.of_eq (congrArg LineMem.lattr (scrollVisible_lattr _ _))
    · apply FromLattr.trans _ (FromLattr.setLattr _ _)
      exact FromLattr.of_eq (congrArg LineMem.lattr (scrollVisible_lattr _ _))

theorem reserveScreen_lattr (fuel i : ℕ) (tmp : Ptr) :
    FromLattr b.mem (reserveScreen b fuel i tmp).mem := by
  induction fuel generalizing i tmp with
  | zero => exact FromLattr.refl _
  | succ fuel ih =>
    rw [reserveScreen]
    exact FromLattr.ite (FromLattr.ite (FromLattr.refl _)
      (FromLattr.ite (newlines_lattr b _) (newlines_lattr b _))) (ih _ _)

theorem pushRow_lattr : (pushRow b).mem = b.mem := by
  simp only [pushRow]
  split_ifs <;> rfl

theorem VSIscroff_lattr : FromLattr b.mem (VSIscroff r b).mem := by
  rw [VSIscroff]
  split_ifs
  · exact FromLattr.refl _
  · have hpush (k : ℕ) (b : VSbuf) : (pushRow^[k] b).mem = b.mem := by
      induction k generalizing b with
      | zero => rfl
      | succ k ih => rw [Function.iterate_succ_apply, ih, pushRow_lattr]
    apply (reserveScreen_lattr b (b.lines+1).toNat 0 b.lastRow).trans
    exact FromLattr.of_eq (congrArg LineMem.lattr (hpush _ _))

theorem VSIelo_lattr : FromLattr b.mem (VSIelo r b s).mem := FromLattr.setLattr _ _

theorem VSIes_lattr (ESscroll : Bool) : FromLattr b.mem (VSIes r ESscroll b).mem := by
  have hrows (b : VSbuf) := FromLattr.foldl (fun b (i : ℕ) => VSIelo_lattr r b i) b
  simp only [VSIes]
  apply FromLattr.trans _ (hrows _ _)
  exact FromLattr.ite (VSIscroff_lattr r b) (FromLattr.refl _)

end Lines

section Rows
variable {b : VSbuf}

/-- Rows whose line attributes are cleared one after the other. -/
theorem cleared_rows {α : Type} {f : VSbuf → α → VSbuf} {row : α → Int}
    (hlinest : ∀ b x, (f b x).linest = b.linest)
    (hlattr : ∀ b x, (f b x).mem.lattr = Function.update b.mem.lattr (b.row (row x)) 0)
    (b : VSbuf) (l : List α) :
    (l.foldl f b).linest = b.linest ∧
      (∀ x ∈ l, (l.foldl f b).mem.lattr (b.row (row x)) = 0) ∧
      ∀ p, (∀ x ∈ l, b.row (row x) ≠ p) → (l.foldl f b).mem.lattr p = b.mem.lattr p := by
  induction l generalizing b with
  | nil => simp
  | cons x l ih =>
    obtain ⟨h₁, h₂, h₃⟩ := ih (f b x)
    have hrow (i : Int) : (f b x).row i = b.row i := by rw [VSbuf.row, VSbuf.row, hlinest]
    simp only [hrow, hlattr] at h₂ h₃
    rw [List.foldl_cons]
    refine ⟨h₁.trans (hlinest b x), ?_, ?_⟩
    · intro x' hx'
      rcases List.mem_cons.mp hx' with rfl | hx'
      · by_cases hlater : ∃ x ∈ l, b.row (row x) = b.row (row x')
        · obtain ⟨x, hx, hsame⟩ := hlater
          rw [← hsame]
          exact h₂ x hx
        · rw [h₃ _ fun x hx hsame => hlater ⟨x, hx, hsame⟩, Function.update_self]
      · exact h₂ x' hx'
    · intro p hp
      rw [h₃ p fun x' hx' => hp x' (List.mem_cons_of_mem _ hx'),
        Function.update_of_ne (hp x List.mem_cons_self).symm]

theorem startRow_nonneg (r : VSregion) {i : Int} (hi : 0 ≤ i) : startRow r i = i :=
  if_neg (not_lt.mpr hi)

theorem rowSize_of_zero {y : Int} (h : b.mem.lattr (b.row y) = 0) : b.rowSize y = 0 := by
  rw [VSbuf.rowSize, h]
  decide

/-- The rows that an erasure does not reach keep their sizes. -/
theorem eraseRows_rowSize (s : VSscrn) {first last y : Int} (hfirst : 0 ≤ first)
    (hy : ∀ i, first ≤ i → i ≤ last → s.buf.row i ≠ s.buf.row y) :
    (s.eraseRows first last).buf.rowSize y = s.buf.rowSize y := by
  obtain ⟨hlinest, -, hother⟩ := @cleared_rows Int (VSIelo s.region) (startRow s.region)
    (fun _ _ => rfl) (fun _ _ => rfl) s.buf (loopRange first last)
  have hrow : (s.eraseRows first last).buf.row y = s.buf.row y :=
    congrArg (fun l : List Ptr => l.getD y.toNat NULL) hlinest
  rw [VSbuf.rowSize, hrow, VSbuf.rowSize]
  apply congrArg (· &&& sizeBits)
  apply hother
  intro i hi
  rw [mem_loopRange] at hi
  rw [startRow_nonneg _ (by omega)]
  exact hy i hi.1 hi.2

/-- After the screen is erased its rows are single. -/
theorem VSIes_rowSize (r : VSregion) (ESscroll : Bool) (b : VSbuf) {y : Int} (hy : 0 ≤ y)
    (hy' : y ≤ b.lines) : (VSIes r ESscroll b).rowSize y = 0 := by
  simp only [VSIes]
  have hlines : (if ESscroll then VSIscroff r b else b).lines = b.lines := by
    split_ifs
    · exact (VSIscroff_extent r b).lines
    · rfl
  generalize (if ESscroll then VSIscroff r b else b) = b₁ at hlines
  obtain ⟨hlinest, hcleared, -⟩ := @cleared_rows ℕ (fun b i => VSIelo r b i)
    (fun i => startRow r i) (fun _ _ => rfl) (fun _ _ => rfl) b₁
    (List.range (b₁.lines+1).toNat)
  apply rowSize_of_zero
  have hrow := hcleared y.toNat (by rw [List.mem_range]; omega)
  rw [startRow_nonneg r (Int.natCast_nonneg _), Int.toNat_of_nonneg hy] at hrow
  change ((List.range (b₁.lines+1).toNat).foldl (fun b (i : ℕ) => VSIelo r b i) b₁).mem.lattr
    (((List.range (b₁.lines+1).toNat).foldl (fun b (i : ℕ) => VSIelo r b i) b₁).row y) = 0
  rw [VSbuf.row, hlinest]
  exact hrow

/-- After the alignment display the rows are single. -/
theorem VTalign_rowSize (s : VSscrn) (ESscroll : Bool) {y : Int} (hy : 0 ≤ y)
    (hy' : y ≤ s.buf.lines) : (s.VTalign ESscroll).buf.rowSize y = 0 := by
  have herased := VSIes_rowSize s.region ESscroll s.buf hy hy'
  let s₁ := s.VSIes ESscroll
  obtain ⟨hlinest, hcleared, hother⟩ := @cleared_rows Int s₁.alignRow id (fun _ _ => rfl)
    (fun _ _ => rfl) s₁.buf (loopRange 0 (s₁.buf.lines-1))
  change ((loopRange 0 (s₁.buf.lines-1)).foldl s₁.alignRow s₁.buf).rowSize y = 0
  have hrow : ((loopRange 0 (s₁.buf.lines-1)).foldl s₁.alignRow s₁.buf).row y = s₁.buf.row y :=
    congrArg (fun l : List Ptr => l.getD y.toNat NULL) hlinest
  by_cases hin : ∃ i ∈ loopRange 0 (s₁.buf.lines-1), s₁.buf.row (id i) = s₁.buf.row y
  · obtain ⟨i, hi, hsame⟩ := hin
    apply rowSize_of_zero
    rw [hrow, ← hsame]
    exact hcleared i hi
  · rw [VSbuf.rowSize, hrow, hother _ fun i hi hsame => hin ⟨i, hi, hsame⟩]
    exact herased

end Rows

end VS
