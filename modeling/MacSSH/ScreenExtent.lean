import MacSSH.ScreenScroll

/-! What scrolling and the line operations leave as it is: the number of rows, and the width
that is allocated. -/
namespace VS

open Linked

/-- The rows of a screen and its allocated columns stay as many. -/
structure SameExtent (b b' : VSbuf) : Prop where
  lines : b'.lines = b.lines
  allwidth : b'.allwidth = b.allwidth

section Extent
variable {b b₁ b₂ : VSbuf} (r : VSregion)

theorem SameExtent.refl (b : VSbuf) : SameExtent b b := ⟨rfl, rfl⟩

theorem SameExtent.trans (h : SameExtent b b₁) (h' : SameExtent b₁ b₂) : SameExtent b b₂ :=
  ⟨h'.lines.trans h.lines, h'.allwidth.trans h.allwidth⟩

theorem SameExtent.ite {c : Prop} [Decidable c] (h₁ : SameExtent b b₁) (h₂ : SameExtent b b₂) :
    SameExtent b (if c then b₁ else b₂) := by
  split_ifs
  · exact h₁
  · exact h₂

theorem SameExtent.foldl {ι : Type} {f : VSbuf → ι → VSbuf} (h : ∀ b i, SameExtent b (f b i))
    (is : List ι) (b : VSbuf) : SameExtent b (is.foldl f b) := by
  induction is generalizing b with
  | nil => exact SameExtent.refl b
  | cons i is ih => exact (h b i).trans (ih (f b i))

theorem SameExtent.iterate {f : VSbuf → VSbuf} (h : ∀ b, SameExtent b (f b)) (n : ℕ) (b : VSbuf) :
    SameExtent b (f^[n] b) := by
  induction n generalizing b with
  | zero => exact SameExtent.refl b
  | succ n ih => exact (h b).trans (ih (f b))

theorem moveUnlessAdjacent_extent (b : VSbuf) (TD BD TI BI : Ptr) :
    SameExtent b (moveUnlessAdjacent b TD BD TI BI) := by
  rw [moveUnlessAdjacent]
  split_ifs <;> exact ⟨rfl, rfl⟩

theorem syncVisible_extent (b : VSbuf) : SameExtent b (syncVisible b) := by
  rw [syncVisible]
  split_ifs <;> exact ⟨rfl, rfl⟩

/-- Two lists of lines are moved, the moved lines blanked and the rows indexed. -/
theorem moved_pairs_extent (b : VSbuf) (TD BD TI BI aTD aBD aTI aBI ts as : Ptr) (m : LineMem) :
    SameExtent b (syncVisible (VSOlistndx { moveUnlessAdjacent
      (moveUnlessAdjacent b TD BD TI BI) aTD aBD aTI aBI with
        mem := m, scrntop := ts } ts as)) := by
  have hmoved := (moveUnlessAdjacent_extent b TD BD TI BI).trans
    (moveUnlessAdjacent_extent (moveUnlessAdjacent b TD BD TI BI) aTD aBD aTI aBI)
  apply SameExtent.trans _ (syncVisible_extent _)
  exact ⟨hmoved.lines, hmoved.allwidth⟩

theorem moved_lines_extent (b : VSbuf) (TD BD TI BI ts : Ptr) (m : LineMem) :
    SameExtent b (syncVisible (VSIlistndx { moveUnlessAdjacent b TD BD TI BI with
      mem := m, scrntop := ts } ts)) := by
  have hmoved := moveUnlessAdjacent_extent b TD BD TI BI
  apply SameExtent.trans _ (syncVisible_extent _)
  exact ⟨hmoved.lines, hmoved.allwidth⟩

theorem VSOdellines_extent (b : VSbuf) (n s : Int) : SameExtent b (VSOdellines r b n s) :=
  moved_pairs_extent b _ _ _ _ _ _ _ _ _ _ _

theorem VSOinslines_extent (b : VSbuf) (n s : Int) : SameExtent b (VSOinslines r b n s) :=
  moved_pairs_extent b _ _ _ _ _ _ _ _ _ _ _

theorem VSIdellines_extent (b : VSbuf) (n s : Int) : SameExtent b (VSIdellines r b n s) := by
  rw [VSIdellines]
  split_ifs
  · exact VSOdellines_extent r b n s
  · exact moved_lines_extent b _ _ _ _ _ _

theorem VSIinslines_extent (b : VSbuf) (n s : Int) : SameExtent b (VSIinslines r b n s) := by
  rw [VSIinslines]
  split_ifs
  · exact VSOinslines_extent r b n s
  · exact moved_lines_extent b _ _ _ _ _ _

theorem advanceBuffer_extent (b : VSbuf) : SameExtent b (advanceBuffer b) := by
  simp only [advanceBuffer]
  split_ifs <;> exact ⟨rfl, rfl⟩

theorem scrollVisible_extent (b : VSbuf) : SameExtent b (scrollVisible r b) := by
  rw [scrollVisible]
  split_ifs <;> exact ⟨rfl, rfl⟩

theorem rotateBelow_extent (b : VSbuf) (bottom : Int) : SameExtent b (rotateBelow b bottom) := by
  simp only [rotateBelow]
  split_ifs <;> exact ⟨rfl, rfl⟩

theorem rotateAttrs_extent (b : VSbuf) (bottom : Int) : SameExtent b (rotateAttrs b bottom) :=
  ⟨rfl, rfl⟩

/-- The last row is blanked after the rows have moved on, and taken below the region. -/
theorem movedOn_extent {b c : VSbuf} (h : SameExtent b c) (m : VSbuf → LineMem)
    (turn : VSbuf → VSbuf) (hturn : ∀ b, SameExtent b (turn b)) {p : Prop} [Decidable p] :
    SameExtent b (if p then turn { scrollVisible r c with mem := m (scrollVisible r c) }
      else { scrollVisible r c with mem := m (scrollVisible r c) }) := by
  have hup := h.trans (scrollVisible_extent r c)
  have hblank : SameExtent b { scrollVisible r c with mem := m (scrollVisible r c) } :=
    ⟨hup.lines, hup.allwidth⟩
  exact SameExtent.ite (hblank.trans (hturn _)) hblank

theorem VSOscroll_extent (b : VSbuf) : SameExtent b (VSOscroll r b) := by
  have hnext := advanceBuffer_extent b
  unfold VSOscroll
  apply SameExtent.ite (SameExtent.refl b)
  apply SameExtent.ite (VSOdellines_extent r b _ _)
  apply movedOn_extent r (c := VSOlistndx { advanceBuffer b with
      scrntop := (advanceBuffer b).next (advanceBuffer b).scrntop } _ _)
    ⟨hnext.lines, hnext.allwidth⟩
    (fun b => (b.mem.setLattr b.lastRow 0).blank b.allwidth b.lastRow (b.attrRow b.lines) 0)
    (fun b => VSOlistndx (rotateAttrs (rotateBelow b r.bottom) r.bottom)
      (rotateAttrs (rotateBelow b r.bottom) r.bottom).scrntop
      ((rotateAttrs (rotateBelow b r.bottom) r.bottom).attrRow 0))
  intro b
  have hturn := (rotateBelow_extent b r.bottom).trans (rotateAttrs_extent _ r.bottom)
  exact ⟨hturn.lines, hturn.allwidth⟩

theorem VSIscroll_extent (b : VSbuf) : SameExtent b (VSIscroll r b) := by
  have hnext := advanceBuffer_extent b
  unfold VSIscroll
  apply SameExtent.ite (SameExtent.refl b)
  apply SameExtent.ite (VSOscroll_extent r b)
  apply SameExtent.ite (VSIdellines_extent r b _ _)
  apply movedOn_extent r (c := VSIlistndx { advanceBuffer b with
      scrntop := (advanceBuffer b).next (advanceBuffer b).scrntop } _)
    ⟨hnext.lines, hnext.allwidth⟩
    (fun b => (b.mem.setLattr b.lastRow 0).blank b.allwidth b.lastRow b.lastRow 0)
    (fun b => VSIlistndx (rotateBelow b r.bottom) (rotateBelow b r.bottom).scrntop)
  intro b
  have hturn := rotateBelow_extent b r.bottom
  exact ⟨hturn.lines, hturn.allwidth⟩

theorem reserveScreen_extent (b : VSbuf) (fuel i : ℕ) (tmp : Ptr) :
    SameExtent b (reserveScreen b fuel i tmp) := by
  induction fuel generalizing i tmp with
  | zero => exact SameExtent.refl b
  | succ fuel ih =>
    rw [reserveScreen]
    apply SameExtent.ite
    · simp only
      generalize (if atOnce _ < _ then _ else _) = n
      split_ifs <;> exact ⟨rfl, rfl⟩
    · exact ih (i+1) (b.next tmp)

theorem pushRow_extent (b : VSbuf) : SameExtent b (pushRow b) := by
  simp only [pushRow]
  split_ifs <;> exact ⟨rfl, rfl⟩

theorem VSIscroff_extent (b : VSbuf) : SameExtent b (VSIscroff r b) := by
  rw [VSIscroff]
  split_ifs
  · exact SameExtent.refl b
  · have hrows := (reserveScreen_extent b (b.lines+1).toNat 0 b.lastRow).trans
      (SameExtent.iterate pushRow_extent (b.lines+1).toNat _)
    exact ⟨hrows.lines, hrows.allwidth⟩

end Extent

end VS
