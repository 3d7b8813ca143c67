import MacSSH.DeleteChars

/-! Inserting characters: the rest of the cursor line moves to the right and blanks take
its place. -/
namespace VS

open Linked

/-- The numbers that `for (i = first; i >= last; i--)` runs over. -/
def downRange (first last : Int) : List Int := (loopRange last first).reverse

namespace VSscrn

/-- The attribute of inserted blanks. -/
def insertAttrib (s : VSscrn) : BitVec 32 :=
  if s.vtemulation = .linux then s.attrib &&& (kVSansi2b ||| kVSgrph)
  else
    -- all off, keep multi-byte / graphic
    s.attrib

/-- Insert `x` blanks at the cursor, or only make room for `x` characters. The counter of
the loop that writes the blanks is a short, so that a loop beyond 32767 does not end. -/
def VSIinschar (s : VSscrn) (x : Int) (clear : Bool) : Option VSscrn :=
  let s := s.VSIwrapnow
  let temp := s.buf.row s.y
  let tempa := s.buf.cellRow s.y
  let moved := (downRange (short (s.maxwidth-x)) s.x).foldl
    (fun m i => m.copyCell temp tempa (x+i) i) s.buf.mem
  if !clear then some { s with buf.mem := moved }
  else if s.x+x > 32767 then none
  else
    let blanked := (loopRange s.x (s.x+x-1)).foldl
      (fun m i => m.blankCell temp tempa s.insertAttrib i) moved
    some { s with buf.mem := blanked }

/-- The columns of the cursor line that an insertion writes. -/
def insertColumns (s : VSscrn) (x : Int) : List Int :=
  (downRange (short (s.maxwidth-x)) s.x).map (x + ·) ++ loopRange s.x (s.x+x-1)

end VSscrn

/-- An insertion of `n` blanks with the attribute `a` ends, writes no column outside the
rest of the line, and moves that to the right. -/
def InsertsChars (s : VSscrn) (r : Option VSscrn) (n : Int) (a : BitVec 32) : Prop :=
  ∃ s', r = some s' ∧ (∀ k ∈ s.insertColumns n, s.x ≤ k ∧ k ≤ s.maxwidth) ∧
    ∀ j, s.x ≤ j → j ≤ s.maxwidth → s'.cell j = if s.x ≤ j-n then s.cell (j-n) else (32, a)

/-- Two screens differ at most in the columns `is` of their cursor line. -/
def OnlyColumns (s s' : VSscrn) (is : List Int) : Prop :=
  ∃ m, s' = { s with buf.mem := m } ∧ m.links = s.buf.mem.links ∧ m.lattr = s.buf.mem.lattr ∧
    m.brk = s.buf.mem.brk ∧ m.grants = s.buf.mem.grants ∧
    (∀ q j, q ≠ s.buf.row s.y ∨ j ∉ is → m.text q j = s.buf.mem.text q j) ∧
    ∀ q j, q ≠ s.buf.cellRow s.y ∨ j ∉ is → m.attr q j = s.buf.mem.attr q j

section Loops
variable {m : LineMem} {p pa : Ptr}

theorem loopRange_cons {first last : Int} (h : first ≤ last) :
    loopRange first last = first :: loopRange (first+1) last := by
  have hlen : (last-first+1).toNat = (last-(first+1)+1).toNat+1 := by omega
  rw [loopRange, hlen, List.range_succ_eq_map, List.map_cons, List.map_map]
  congr 1
  · omega
  · apply List.map_congr_left
    intro k _
    simp only [Function.comp_apply]
    push_cast
    omega

theorem mem_downRange {first last i : Int} : i ∈ downRange first last ↔ last ≤ i ∧ i ≤ first := by
  rw [downRange, List.mem_reverse, mem_loopRange]

/-- Moving cells to the right, the rightmost first: every cell gets the old cell `d` to
its left. -/
theorem moveRight_cell (m : LineMem) (p pa : Ptr) {d : Int} (hd : 0 < d) (first last j : Int) :
    ((downRange first last).foldl (fun m i => m.copyCell p pa (d+i) i) m).cell p pa j =
      if last+d ≤ j ∧ j ≤ first+d then m.cell p pa (j-d) else m.cell p pa j := by
  rw [downRange]
  -- the loop ends with the leftmost cell, so the induction is on how far left it goes
  have hloop (n : ℕ) : ∀ last j, (first-last+1).toNat = n →
      ((loopRange last first).reverse.foldl (fun m i => m.copyCell p pa (d+i) i) m).cell p pa j =
        if last+d ≤ j ∧ j ≤ first+d then m.cell p pa (j-d) else m.cell p pa j := by
    induction n with
    | zero =>
      intro last j hn
      rw [loopRange, hn, if_neg (by omega)]
      rfl
    | succ n ih =>
      intro last j hn
      rw [loopRange_cons (by omega), List.reverse_cons, List.foldl_append]
      simp only [List.foldl_cons, List.foldl_nil]
      rw [copyCell_cell, ih (last+1) last (by omega), ih (last+1) j (by omega),
        if_neg (show ¬(last+1+d ≤ last ∧ last ≤ first+d) by omega)]
      by_cases hj : j = d+last
      · have hsub : j-d = last := by omega
        rw [if_pos hj, if_pos (by omega), hsub]
      · rw [if_neg hj]
        exact if_congr (by omega) rfl rfl
  exact hloop _ last j rfl

/-- A cell routine applied to columns `is` of a line. -/
structure WritesOnly (m m' : LineMem) (p pa : Ptr) (is : List Int) : Prop where
  links : m'.links = m.links
  lattr : m'.lattr = m.lattr
  brk : m'.brk = m.brk
  grants : m'.grants = m.grants
  text : ∀ q j, q ≠ p ∨ j ∉ is → m'.text q j = m.text q j
  attr : ∀ q j, q ≠ pa ∨ j ∉ is → m'.attr q j = m.attr q j

theorem WritesOnly.nil (m : LineMem) (p pa : Ptr) : WritesOnly m m p pa [] :=
  ⟨rfl, rfl, rfl, rfl, fun _ _ _ => rfl, fun _ _ _ => rfl⟩

theorem WritesOnly.trans {m' m'' : LineMem} {is ks : List Int} (h : WritesOnly m m' p pa is)
    (h' : WritesOnly m' m'' p pa ks) : WritesOnly m m'' p pa (is ++ ks) := by
  refine ⟨h'.links.trans h.links, h'.lattr.trans h.lattr, h'.brk.trans h.brk,
    h'.grants.trans h.grants, ?_, ?_⟩
  · intro q j hq
    rw [List.mem_append, not_or] at hq
    rw [h'.text q j (hq.imp_right And.right), h.text q j (hq.imp_right And.left)]
  · intro q j hq
    rw [List.mem_append, not_or] at hq
    rw [h'.attr q j (hq.imp_right And.right), h.attr q j (hq.imp_right And.left)]

theorem update_other {α : Type} (f : Ptr → Int → α) (p q : Ptr) (i j : Int) (v : α)
    (h : q ≠ p ∨ j ∉ [i]) : Function.update f p (Function.update (f p) i v) q j = f q j := by
  rw [List.mem_singleton] at h
  by_cases hq : q = p
  · subst hq
    rw [Function.update_self, Function.update_of_ne (h.resolve_left (not_not.mpr rfl))]
  · rw [Function.update_of_ne hq]

theorem copyCell_writes (m : LineMem) (p pa : Ptr) (i k : Int) :
    WritesOnly m (m.copyCell p pa i k) p pa [i] :=
  ⟨rfl, rfl, rfl, rfl, fun q j h => update_other _ p q i j _ h,
    fun q j h => update_other _ pa q i j _ h⟩

theorem blankCell_writes (m : LineMem) (p pa : Ptr) (a : BitVec 32) (i : Int) :
    WritesOnly m (m.blankCell p pa a i) p pa [i] :=
  ⟨rfl, rfl, rfl, rfl, fun q j h => update_other _ p q i j _ h,
    fun q j h => update_other _ pa q i j _ h⟩

/-- A loop writes the columns that its rounds write. -/
theorem loop_writes {step : LineMem → Int → LineMem} {col : Int → Int}
    (h : ∀ m i, WritesOnly m (step m i) p pa [col i]) (m : LineMem) (is : List Int) :
    WritesOnly m (is.foldl step m) p pa (is.map col) := by
  induction is generalizing m with
  | nil => exact WritesOnly.nil m p pa
  | cons i is ih => exact (h m i).trans (ih (step m i))

end Loops

section Insertion
variable {s : VSscrn} {n : Int}

/-- An insertion that ends changes the columns it writes and nothing else. -/
theorem VSIinschar_only {s' : VSscrn} (h : s.VSIinschar n true = some s') :
    OnlyColumns s.VSIwrapnow s' (s.VSIwrapnow.insertColumns n) := by
  simp only [VSscrn.VSIinschar, Bool.not_true, Bool.false_eq_true, if_false] at h
  split_ifs at h
  obtain ⟨hl, ha, hb, hg, ht, hta⟩ := (loop_writes (fun m i => copyCell_writes m _ _ (n+i) i)
    s.VSIwrapnow.buf.mem (downRange (short (s.VSIwrapnow.maxwidth-n)) s.VSIwrapnow.x)).trans
    (loop_writes (fun m i => blankCell_writes m _ _ s.VSIwrapnow.insertAttrib i) _
      (loopRange s.VSIwrapnow.x (s.VSIwrapnow.x+n-1)))
  rw [List.map_id'] at ht hta
  exact ⟨_, (Option.some.inj h).symm, hl, ha, hb, hg, ht, hta⟩

/-- What an insertion that ends makes of the cells of the cursor line. -/
theorem VSIinschar_cell (hn : 1 ≤ n) (hn' : n ≤ 32767) (hw : 0 ≤ s.maxwidth)
    (hw' : s.maxwidth ≤ 32767) (hend : s.VSIwrapnow.x+n ≤ 32767) :
    ∃ s', s.VSIinschar n true = some s' ∧ ∀ j, s'.cell j =
      if s.VSIwrapnow.x ≤ j ∧ j < s.VSIwrapnow.x+n then (32, s.VSIwrapnow.insertAttrib)
      else if s.VSIwrapnow.x+n ≤ j ∧ j ≤ s.maxwidth then s.VSIwrapnow.cell (j-n)
      else s.VSIwrapnow.cell j := by
  have hmax : s.VSIwrapnow.maxwidth = s.maxwidth := VSIwrapnow_maxwidth
  have hshort : short (s.VSIwrapnow.maxwidth-n) = s.maxwidth-n := by
    rw [hmax, short_eq (by omega) (by omega)]
  simp only [VSscrn.VSIinschar, Bool.not_true, Bool.false_eq_true, if_false, hshort,
    if_neg (show ¬s.VSIwrapnow.x+n > 32767 by omega)]
  refine ⟨_, rfl, ?_⟩
  intro j
  simp only [VSscrn.cell]
  change LineMem.cell _ (s.VSIwrapnow.buf.row s.VSIwrapnow.y)
    (s.VSIwrapnow.buf.cellRow s.VSIwrapnow.y) j = _
  rw [blankLoop_cell, moveRight_cell _ _ _ (by omega)]
  exact if_congr (by rw [mem_loopRange]; omega) rfl (if_congr (by omega) rfl rfl)

/-- The blanks fit in the rest of the line when the columns that are written do. -/
theorem insertColumns_inside (hn : 1 ≤ n) (hn' : n ≤ 32767) (hw : 0 ≤ s.maxwidth)
    (hw' : s.maxwidth ≤ 32767) :
    (∀ k ∈ s.insertColumns n, s.x ≤ k ∧ k ≤ s.maxwidth) ↔ s.x+n ≤ s.maxwidth+1 := by
  rw [VSscrn.insertColumns, short_eq (by omega) (by omega)]
  constructor
  · intro h
    have := (h (s.x+n-1) (List.mem_append_right _ (mem_loopRange.mpr (by omega)))).2
    omega
  · intro hfit k hk
    rcases List.mem_append.mp hk with hk | hk
    · obtain ⟨i, hi, rfl⟩ := List.mem_map.mp hk
      have := mem_downRange.mp hi
      omega
    · have := mem_loopRange.mp hk
      omega

/-- The blanks fit in the rest of the cursor line, and the counter of their loop does not
overflow. -/
def Fits (s : VSscrn) (n : Int) : Prop := s.x+n ≤ s.maxwidth+1 ∧ s.x+n ≤ 32767

/-- The insertion with the attribute that the code gives its blanks. -/
theorem inserts_of_fits (hn : 1 ≤ n) (hn' : n ≤ 32767) (hw : 0 ≤ s.maxwidth)
    (hw' : s.maxwidth ≤ 32767) (hfit : Fits s.VSIwrapnow n) :
    InsertsChars s.VSIwrapnow (s.VSIinschar n true) n s.VSIwrapnow.insertAttrib := by
  have hmax : s.VSIwrapnow.maxwidth = s.maxwidth := VSIwrapnow_maxwidth
  obtain ⟨hinside, hend⟩ := hfit
  obtain ⟨s', hs', hcell⟩ := VSIinschar_cell hn hn' hw hw' hend
  refine ⟨s', hs', ?_, ?_⟩
  · apply (insertColumns_inside hn hn' (hmax ▸ hw) (hmax ▸ hw')).mpr
    exact hinside
  · intro j hj hjw
    rw [hmax] at hjw
    rw [hcell j]
    by_cases hblank : j < s.VSIwrapnow.x+n
    · rw [if_pos ⟨hj, hblank⟩, if_neg (by omega)]
    · rw [if_neg (by omega), if_pos (by omega), if_pos (by omega)]

theorem fits_of_inserts (hn : 1 ≤ n) (hn' : n ≤ 32767) (hw : 0 ≤ s.maxwidth)
    (hw' : s.maxwidth ≤ 32767) {a : BitVec 32}
    (h : InsertsChars s.VSIwrapnow (s.VSIinschar n true) n a) : Fits s.VSIwrapnow n := by
  have hmax : s.VSIwrapnow.maxwidth = s.maxwidth := VSIwrapnow_maxwidth
  obtain ⟨s', hs', hinside, -⟩ := h
  constructor
  · exact (insertColumns_inside hn hn' (hmax ▸ hw) (hmax ▸ hw')).mp hinside
  · simp only [VSscrn.VSIinschar, Bool.not_true, Bool.false_eq_true, if_false] at hs'
    split_ifs at hs' with hover
    omega

/-- An insertion writes a blank at the cursor. -/
theorem insertAttrib_unique (hn : 1 ≤ n) (hn' : n ≤ 32767) (hw : 0 ≤ s.maxwidth)
    (hw' : s.maxwidth ≤ 32767) {a : BitVec 32}
    (h : InsertsChars s.VSIwrapnow (s.VSIinschar n true) n a) :
    a = s.VSIwrapnow.insertAttrib := by
  have hfit := fits_of_inserts hn hn' hw hw' h
  have hmax : s.VSIwrapnow.maxwidth = s.maxwidth := VSIwrapnow_maxwidth
  obtain ⟨s', hs', -, hcell⟩ := h
  obtain ⟨s'', hs'', hcell'⟩ := VSIinschar_cell hn hn' hw hw' hfit.2
  obtain rfl := Option.some.inj (hs'.symm.trans hs'')
  obtain ⟨hinside, -⟩ := hfit
  have hat := hcell s.VSIwrapnow.x le_rfl (by omega)
  rw [hcell', if_pos (by omega), if_neg (by omega)] at hat
  exact (Prod.mk.inj hat).2.symm

theorem insertAttrib_eq_blankAttrib (s : VSscrn) : s.region.blankAttrib = s.insertAttrib ↔
    s.attrib = s.attrib &&& (kVSansi2b ||| kVSgrph) := by
  rw [VSregion.blankAttrib, VSscrn.insertAttrib]
  change (if s.vtemulation = .linux then s.attrib else s.attrib &&& (kVSansi2b ||| kVSgrph)) =
    _ ↔ _
  split_ifs
  · exact Iff.rfl
  · exact eq_comm

/-- Inserting characters ends, stays inside the rest of the cursor line and moves that to
the right exactly when the blanks fit there; and the blanks are those of the erasing
routines exactly when, besides, the writing attribute has no style and no colour. A cursor
beyond the last column is wrapped to the next line first. -/
theorem insert_chars_iff (s : VSscrn) (n : Int) (hn : 1 ≤ n) (hn' : n ≤ 32767)
    (hw : 0 ≤ s.maxwidth) (hw' : s.maxwidth ≤ 32767) :
    (s.x ≤ s.lastColumn → s.VSIwrapnow = s) ∧
      ((∃ a, InsertsChars s.VSIwrapnow (s.VSIinschar n true) n a) ↔ Fits s.VSIwrapnow n) ∧
      (InsertsChars s.VSIwrapnow (s.VSIinschar n true) n s.VSIwrapnow.region.blankAttrib ↔
        Fits s.VSIwrapnow n ∧
          s.VSIwrapnow.attrib = s.VSIwrapnow.attrib &&& (kVSansi2b ||| kVSgrph)) ∧
      ∀ s', s.VSIinschar n true = some s' →
        OnlyColumns s.VSIwrapnow s' (s.VSIwrapnow.insertColumns n) := by
  refine ⟨VSIwrapnow_of_le, ?_, ?_, fun s' => VSIinschar_only⟩
  · constructor
    · rintro ⟨a, h⟩
      exact fits_of_inserts hn hn' hw hw' h
    · intro hfit
      exact ⟨_, inserts_of_fits hn hn' hw hw' hfit⟩
  · rw [← insertAttrib_eq_blankAttrib]
    constructor
    · intro h
      exact ⟨fits_of_inserts hn hn' hw hw' h, insertAttrib_unique hn hn' hw hw' h⟩
    · rintro ⟨hfit, ha⟩
      rw [ha]
      exact inserts_of_fits hn hn' hw hw' hfit

end Insertion

theorem insert_two_chars : ∃ a, InsertsChars (letteredScreen 4).VSIwrapnow
    ((letteredScreen 4).VSIinschar 2 true) 2 a :=
  (insert_chars_iff (letteredScreen 4) 2 (by decide) (by decide) (by decide)
    (by decide)).2.1.mpr ⟨by decide, by decide⟩

/-- A count of 77 at column 4 of a line of 80 characters writes the column behind the line,
and a count of 32764 does not end. -/
theorem insert_beyond_line :
    (¬∃ a, InsertsChars (letteredScreen 4) ((letteredScreen 4).VSIinschar 77 true) 77 a) ∧
      (letteredScreen 4).VSIinschar 32764 true = none := by
  have hwrap : (letteredScreen 4).VSIwrapnow = letteredScreen 4 := VSIwrapnow_of_le (by decide)
  constructor
  · rintro ⟨a, s', -, hinside, -⟩
    have hcol : (80 : Int) ∈ (letteredScreen 4).insertColumns 77 := by
      apply List.mem_append_right
      exact mem_loopRange.mpr (by decide)
    have := (hinside 80 hcol).2
    exact absurd this (by decide)
  · simp only [VSscrn.VSIinschar, hwrap]
    rfl

end VS
