import MacSSH.DeleteChars
import MacSSH.OldText

/-! The purge of the scrollback: the rows of the screen are copied out, all lines are given
up, and new ones take the place of the rows. -/
namespace VS

open Linked

/-- `BlockMoveData` of the text of a line. -/
def LineMem.moveText (m : LineMem) (width : Int) (src dst : Ptr) : LineMem :=
  { m with
    text := Function.update m.text dst fun j =>
      if 0 ≤ j ∧ j ≤ width then m.text src j else m.text dst j }

/-- `BlockMoveData` of the attributes of a line. -/
def LineMem.moveAttr (m : LineMem) (width : Int) (src dst : Ptr) : LineMem :=
  { m with
    attr := Function.update m.attr dst fun j =>
      if 0 ≤ j ∧ j ≤ width then m.attr src j else m.attr dst j }

/-- A loop over the rows of the screen that goes along the list of lines from `p` on. -/
def alongRows (lines : Int) (turn : Int → Ptr → LineMem → LineMem) (m : LineMem) (p : Ptr) :
    LineMem :=
  ((loopRange 0 lines).foldl (fun s i => (turn i s.2 s.1, s.1.advance s.2)) (m, p)).1

/-- Show the screen, which starts the list of lines, from its top. -/
def VSbuf.atTop (b : VSbuf) : VSbuf :=
  { b with
    vistop := b.buftop, scrntop := b.buftop, Rbottom := short (b.Rbottom-b.Rtop), Rtop := 0
    numlines := 0 }

/-- Give up the scrollback and keep the screen; `none` where the code uses a null pointer. -/
def VSrealloc (b : VSbuf) : Option VSbuf :=
  let saved := VSInewlines b.mem (short (b.lines+1+VSDEFLINES))
  let savedTextBlock := saved.1
  let b := { b with mem := saved.2 }
  if savedTextBlock = NULL then some b
  else
    let saveText := fun i p (m : LineMem) => m.moveText b.allwidth (b.row i) p
    let saveAttr := fun i p (m : LineMem) =>
      (m.setLattr p (m.lattr (b.row i))).moveAttr b.allwidth (b.cellRow i) p
    let b := { b with mem := alongRows b.lines saveText b.mem savedTextBlock }
    let b := { b with mem := alongRows b.lines saveAttr b.mem savedTextBlock }
    if b.oldScrollback then
      let new := VSOnewlines b.mem (short (b.lines+1+VSDEFLINES))
      if new.1 = NULL then none
      else
        let b := VSOlistndx { b with mem := new.2, buftop := new.1 } new.1 (b.attrRow 0)
        let b := (b.setPrev (b.attrRow 0) (b.attrRow b.lines)).setNext (b.attrRow b.lines)
          (b.attrRow 0)
        -- the line attributes that have been saved are not copied back
        let restoreText := fun i p (m : LineMem) => m.moveText b.allwidth p (b.row i)
        some { b with mem := alongRows b.lines restoreText b.mem savedTextBlock }.atTop
    else
      -- the copies become the rows
      some (VSIlistndx { b with buftop := savedTextBlock } savedTextBlock).atTop

/-- Give up the scrollback of a screen. -/
def VSscrn.VSrealloc (s : VSscrn) : Option VSscrn :=
  (VS.VSrealloc s.buf).map fun b => { s with buf := b }

/-- No line is above the screen, and the view starts with it. -/
structure Emptied (b : VSbuf) : Prop where
  numlines : b.numlines = 0
  buftop : b.buftop = b.scrntop
  vistop : b.vistop = b.scrntop
  Rtop : b.Rtop = 0

/-- There is no scrollback, and the rows are a well-formed list. -/
structure Rebuilt (b b' : VSbuf) : Prop extends Emptied b' where
  attrst : b'.attrst = b.attrst
  wellFormed : WellFormed b'
  others : b' = { b with
    mem := b'.mem, scrntop := b'.scrntop, buftop := b'.buftop, vistop := b'.vistop
    linest := b'.linest, numlines := b'.numlines, Rtop := b'.Rtop, Rbottom := b'.Rbottom }

/-- Besides, the rows hold what they held. -/
structure Purged (b b' : VSbuf) : Prop extends Rebuilt b b' where
  rows : ∀ i, 0 ≤ i → i ≤ b.lines → b'.rowContents i = b.rowContents i

/-- The scrollback is purged, and cursor, margins and modes stay. -/
def PurgeKeeps (s : VSscrn) : Prop :=
  ∃ s', s.VSrealloc = some s' ∧ s' = { s with buf := s'.buf } ∧ Purged s.buf s'.buf

/-- There is memory for the new lines, and with the old scrollback no row has a line
attribute; or there is no memory and no scrollback. -/
def PurgeIsSafe (b : VSbuf) : Prop :=
  if b.mem.grants.getD 0 false then
    b.oldScrollback = true → b.mem.grants.getD 1 false = true ∧ b.mem.grants.getD 2 false = true ∧
      ∀ i, 0 ≤ i → i ≤ b.lines → b.mem.lattr (b.row i) = 0
  else Emptied b

/-- The lines from `base` on are a list of `n` lines. -/
structure Chain (m : Links Ptr) (base n : ℕ) : Prop where
  next : ∀ i, i+1 < n → m.next (base+i) = base+i+1
  prev : ∀ i, i+1 < n → m.prev (base+i+1) = base+i
  last : m.next (base+(n-1)) = NULL
  first : m.prev base = NULL

section Chains
variable {m m' : Links Ptr} {base n : ℕ}

theorem chainLinks_chain (m : Links Ptr) (base : ℕ) (hn : 0 < n) :
    Chain (chainLinks m base n) base n := by
  refine ⟨?_, ?_, ?_, ?_⟩
  · intro i hi
    simp only [chainLinks]
    rw [if_pos (show base ≤ base+i ∧ base+i < base+n by omega),
      if_pos (show base+i+1 < base+n by omega)]
  · intro i hi
    simp only [chainLinks]
    rw [if_pos (show base ≤ base+i+1 ∧ base+i+1 < base+n by omega),
      if_pos (show base < base+i+1 by omega)]
    exact Nat.add_sub_cancel _ _
  · simp only [chainLinks]
    rw [if_pos (show base ≤ base+(n-1) ∧ base+(n-1) < base+n by omega),
      if_neg (show ¬base+(n-1)+1 < base+n by omega)]
  · simp only [chainLinks]
    rw [if_pos (show base ≤ base ∧ base < base+n by omega), if_neg (show ¬base < base by omega)]

theorem Chain.congr (h : Chain m base n) (hn : 0 < n)
    (heq : ∀ a, base ≤ a → a < base+n → m'.next a = m.next a ∧ m'.prev a = m.prev a) :
    Chain m' base n := by
  refine ⟨?_, ?_, ?_, ?_⟩
  · intro i hi
    rw [(heq (base+i) (by omega) (by omega)).1]
    exact h.next i hi
  · intro i hi
    rw [(heq (base+i+1) (by omega) (by omega)).2]
    exact h.prev i hi
  · rw [(heq (base+(n-1)) (by omega) (by omega)).1]
    exact h.last
  · rw [(heq base (by omega) (by omega)).2]
    exact h.first

theorem Chain.walk (h : Chain m base n) (i : ℕ) (hi : i < n) : m.next^[i] base = base+i := by
  induction i with
  | zero => rfl
  | succ i ih =>
    rw [Function.iterate_succ_apply', ih (by omega)]
    exact h.next i hi

theorem Chain.iterate (h : Chain m base n) {k : ℕ} (hk : k ≤ n) :
    List.iterate m.next base k = List.range' base k := by
  apply List.ext_getElem
  · rw [List.length_iterate, List.length_range']
  · intro i hi hi'
    rw [List.length_iterate] at hi
    rw [List.getElem_iterate, List.getElem_range', Nat.one_mul]
    exact h.walk i (by omega)

end Chains

/-- A screen whose rows start a list of new lines is well formed. -/
theorem chain_wellFormed {b : VSbuf} {base n : ℕ} (hc : Chain b.mem.links base n)
    (hbase : 0 < base) (hbrk : base+n ≤ b.mem.brk) (h0 : 0 ≤ b.lines) (hlt : b.lines < 32767)
    (hn : b.lines+1 ≤ n) (hbuf : b.buftop = base) (hscr : b.scrntop = base)
    (hrows : b.linest = List.range' base (b.lines+1).toNat)
    (hnum : b.numlines = 0) :
    WellFormed b ∧ ∀ i, 0 ≤ i → i ≤ b.lines → b.row i = base+i.toNat := by
  have hrow : ∀ i, 0 ≤ i → i ≤ b.lines → b.row i = base+i.toNat := by
    intro i hi hi'
    have hlen : i.toNat < (List.range' base (b.lines+1).toNat).length := by
      rw [List.length_range']
      omega
    rw [VSbuf.row, hrows, List.getD_eq_getElem _ _ hlen, List.getElem_range', Nat.one_mul]
  have hwalk : ∀ i < n, b.next^[i] b.buftop = base+i := by
    intro i hi
    rw [hbuf]
    exact hc.walk i hi
  -- the list is the whole chain, which ends behind the rows
  have hlist : NullEnded b n := by
    refine ⟨⟨by omega, ?_, ?_⟩, ?_, ?_, Or.inl ?_, by omega⟩
    · intro i hi
      rw [hwalk i hi]
      exact ⟨(Nat.add_pos_left hbase i).ne', show base+i < b.mem.brk by omega⟩
    · intro i hi
      rw [hwalk (i+1) hi, hwalk i (by omega)]
      exact hc.prev i hi
    · rw [show n = n-1+1 by omega, Function.iterate_succ_apply', hwalk (n-1) (by omega)]
      exact hc.last
    · rw [VSbuf.prev, hbuf, hc.first]
      exact (Nat.lt_of_lt_of_le hbase (Nat.le_add_right base n)).trans_le hbrk
    · rw [hbuf]
      exact hc.first
  refine ⟨?_, hrow⟩
  constructor
  · exact h0
  · exact hlt
  · rw [hrows, List.length_range']
    omega
  · rw [hrow 0 le_rfl h0, hscr]
    rfl
  · intro i hi hi'
    rw [hrow (i+1) (by omega) (by omega), hrow i hi (by omega), VSbuf.next, hc.next _ (by omega)]
    change base+(i+1).toNat = base+i.toNat+1
    omega
  · intro i hi hi'
    rw [hrow (i+1) (by omega) (by omega), hrow i hi (by omega), VSbuf.prev,
      show base+(i+1).toNat = base+i.toNat+1 by omega, hc.prev _ (by omega)]
  · intro i j hi hij hj
    rw [hrow i hi (by omega), hrow j (by omega) hj]
    change base+i.toNat ≠ base+j.toNat
    omega
  · intro i hi hi'
    rw [hrow i hi hi']
    exact (Nat.add_pos_left hbase _).ne'
  · exact ⟨n, Or.inl hlist⟩
  · exact hnum.ge
  · rw [hnum, hbuf, hscr]
    rfl

section Loops
variable {m : LineMem} {base : ℕ} {lines width : Int}

/-- What every turn of a loop along a list takes one row further holds, at the end, for all
of them. -/
theorem alongRows_rule {turn : Int → Ptr → LineMem → LineMem} {n : ℕ}
    (hc : Chain m.links base n) (hn : lines+1 ≤ n)
    (hlinks : ∀ i p m, (turn i p m).links = m.links) (P : ℕ → LineMem → Prop) (hzero : P 0 m)
    (hstep : ∀ (i : ℕ) (m : LineMem), (i : Int) ≤ lines → P i m → P (i+1) (turn i (base+i) m)) :
    P (lines+1).toNat (alongRows lines turn m base) ∧
      (alongRows lines turn m base).links = m.links := by
  -- after `k` turns the walk has come to the line of turn `k`, unless it was the last one
  have hloop (k : ℕ) (hk : k ≤ (lines+1).toNat) :
      ∃ m' p, (((List.range k).map fun i : ℕ => (0 : Int)+i).foldl
        (fun s i => (turn i s.2 s.1, s.1.advance s.2)) (m, base)) = (m', p) ∧
        P k m' ∧ m'.links = m.links ∧ ((k : Int) ≤ lines → p = base+k) := by
    induction k with
    | zero => exact ⟨m, base, rfl, hzero, rfl, fun _ => rfl⟩
    | succ k ih =>
      obtain ⟨m', p, hrun, hP, hsame, hp⟩ := ih (by omega)
      have hpk := hp (by omega)
      refine ⟨turn k p m', m'.advance p, ?_, ?_, ?_, ?_⟩
      · rw [List.range_succ, List.map_append, List.foldl_append, hrun, List.map_cons,
          List.map_nil, List.foldl_cons, List.foldl_nil, Int.zero_add]
      · rw [hpk]
        exact hstep k m' (by omega) hP
      · rw [hlinks, hsame]
      · intro hk'
        have hnext : m'.links.next p = base+k+1 := by
          rw [hsame, hpk]
          exact hc.next k (by omega)
        rw [LineMem.advance, hnext, if_pos (Nat.succ_ne_zero _)]
        rfl
  obtain ⟨m', p, hrun, hP, hsame, -⟩ := hloop (lines+1).toNat le_rfl
  have hloops : alongRows lines turn m base = m' := by
    rw [alongRows, loopRange, show (lines-0+1).toNat = (lines+1).toNat by omega, hrun]
  rw [hloops]
  exact ⟨hP, hsame⟩

theorem saveText_copies {n : ℕ} (hc : Chain m.links base n) (hn : lines+1 ≤ n) (row : Int → Ptr)
    (hrow : ∀ i, 0 ≤ i → i ≤ lines → row i < base) :
    ∃ text, alongRows lines (fun i p m => m.moveText width (row i) p) m base =
        { m with text := text } ∧
      (∀ i, 0 ≤ i → i ≤ lines → ∀ j, 0 ≤ j → j ≤ width →
        text (base+i.toNat) j = m.text (row i) j) ∧
      ∀ a < base, text a = m.text a := by
  -- the rows lie below `base`, so no copy changes what is still to be copied
  have hrule := @alongRows_rule m base lines (fun i p m => m.moveText width (row i) p) n hc hn
    (fun _ _ _ => rfl)
    (fun k m' => ∃ text, m' = { m with text := text } ∧
      (∀ i < k, ∀ j, 0 ≤ j → j ≤ width → text (base+i) j = m.text (row i) j) ∧
      ∀ a < base, text a = m.text a)
    ⟨m.text, rfl, fun i hi => absurd hi (Nat.not_lt_zero i), fun _ _ => rfl⟩
  have hend := hrule (by
    rintro k m' hk ⟨text, rfl, hcopied, hbelow⟩
    refine ⟨_, rfl, ?_, ?_⟩
    · intro i hi j hj hj'
      simp only
      rcases Nat.lt_succ_iff_lt_or_eq.mp hi with hi | rfl
      · rw [Function.update_of_ne (Nat.ne_of_lt (Nat.add_lt_add_left hi base))]
        exact hcopied i hi j hj hj'
      · rw [Function.update_self, if_pos ⟨hj, hj'⟩, hbelow _ (hrow i (by omega) hk)]
    · intro a ha
      simp only
      rw [Function.update_of_ne (Nat.ne_of_lt (Nat.lt_add_right k ha))]
      exact hbelow a ha)
  obtain ⟨⟨text, hm, hcopied, hbelow⟩, -⟩ := hend
  refine ⟨text, hm, ?_, hbelow⟩
  intro i hi hi' j hj hj'
  rw [hcopied i.toNat (by omega) j hj hj', Int.toNat_of_nonneg hi]

theorem saveAttr_copies {n : ℕ} (hc : Chain m.links base n) (hn : lines+1 ≤ n)
    (row cell : Int → Ptr) (hrow : ∀ i, 0 ≤ i → i ≤ lines → row i < base ∧ cell i < base) :
    ∃ attr lattr, alongRows lines
        (fun i p m => (m.setLattr p (m.lattr (row i))).moveAttr width (cell i) p) m base =
        { m with attr := attr, lattr := lattr } ∧
      (∀ i, 0 ≤ i → i ≤ lines → lattr (base+i.toNat) = m.lattr (row i) ∧
        ∀ j, 0 ≤ j → j ≤ width → attr (base+i.toNat) j = m.attr (cell i) j) ∧
      ∀ a < base, attr a = m.attr a ∧ lattr a = m.lattr a := by
  have hrule := @alongRows_rule m base lines
    (fun i p m => (m.setLattr p (m.lattr (row i))).moveAttr width (cell i) p) n hc hn
    (fun _ _ _ => rfl)
    (fun k m' => ∃ attr lattr, m' = { m with attr := attr, lattr := lattr } ∧
      (∀ i < k, lattr (base+i) = m.lattr (row i) ∧
        ∀ j, 0 ≤ j → j ≤ width → attr (base+i) j = m.attr (cell i) j) ∧
      ∀ a < base, attr a = m.attr a ∧ lattr a = m.lattr a)
    ⟨m.attr, m.lattr, rfl, fun i hi => absurd hi (Nat.not_lt_zero i), fun _ _ => ⟨rfl, rfl⟩⟩
  have hend := hrule (by
    rintro k m' hk ⟨attr, lattr, rfl, hcopied, hbelow⟩
    have hbelow' := hrow k (by omega) hk
    refine ⟨_, _, rfl, ?_, ?_⟩
    · intro i hi
      simp only [LineMem.setLattr]
      rcases Nat.lt_succ_iff_lt_or_eq.mp hi with hi | rfl
      · have hne : base+i ≠ base+k := Nat.ne_of_lt (Nat.add_lt_add_left hi base)
        rw [Function.update_of_ne hne, Function.update_of_ne hne]
        exact hcopied i hi
      · rw [Function.update_self, Function.update_self]
        refine ⟨(hbelow _ hbelow'.1).2, ?_⟩
        intro j hj hj'
        rw [if_pos ⟨hj, hj'⟩, (hbelow _ hbelow'.2).1]
    · intro a ha
      simp only [LineMem.setLattr]
      have hne : a ≠ base+k := Nat.ne_of_lt (Nat.lt_add_right k ha)
      rw [Function.update_of_ne hne, Function.update_of_ne hne]
      exact hbelow a ha)
  obtain ⟨⟨attr, lattr, hm, hcopied, hbelow⟩, -⟩ := hend
  refine ⟨attr, lattr, hm, ?_, hbelow⟩
  intro i hi hi'
  have hboth := hcopied i.toNat (by omega)
  rw [Int.toNat_of_nonneg hi] at hboth
  exact hboth

theorem restoreText_copies {n new : ℕ} (hc : Chain m.links base n) (hn : lines+1 ≤ n)
    (hnew : base+n ≤ new) (row : Int → Ptr)
    (hrow : ∀ i, 0 ≤ i → i ≤ lines → row i = new+i.toNat) :
    ∃ text, alongRows lines (fun i p m => m.moveText width p (row i)) m base =
        { m with text := text } ∧
      ∀ i, 0 ≤ i → i ≤ lines → ∀ j, 0 ≤ j → j ≤ width →
        text (row i) j = m.text (base+i.toNat) j := by
  have hrule := @alongRows_rule m base lines (fun i p m => m.moveText width p (row i)) n hc hn
    (fun _ _ _ => rfl)
    (fun k m' => ∃ text, m' = { m with text := text } ∧
      (∀ i < k, ∀ j, 0 ≤ j → j ≤ width → text (new+i) j = m.text (base+i) j) ∧
      ∀ a < new, text a = m.text a)
    ⟨m.text, rfl, fun i hi => absurd hi (Nat.not_lt_zero i), fun _ _ => rfl⟩
  have hend := hrule (by
    rintro k m' hk ⟨text, rfl, hcopied, hbelow⟩
    have hk' := hrow k (by omega) hk
    refine ⟨_, rfl, ?_, ?_⟩
    · intro i hi j hj hj'
      simp only
      rw [hk', Int.toNat_natCast]
      rcases Nat.lt_succ_iff_lt_or_eq.mp hi with hi | rfl
      · rw [Function.update_of_ne (Nat.ne_of_lt (Nat.add_lt_add_left hi new))]
        exact hcopied i hi j hj hj'
      · rw [Function.update_self, if_pos ⟨hj, hj'⟩, hbelow _ (by omega)]
    · intro a ha
      simp only
      rw [hk', Int.toNat_natCast, Function.update_of_ne (Nat.ne_of_lt (Nat.lt_add_right k ha))]
      exact hbelow a ha)
  obtain ⟨⟨text, hm, hcopied, -⟩, -⟩ := hend
  refine ⟨text, hm, ?_⟩
  intro i hi hi' j hj hj'
  rw [hrow i hi hi']
  exact hcopied i.toNat (by omega) j hj hj'

end Loops

/-- The lines that a purge allocates. -/
def VSbuf.freshLines (b : VSbuf) : ℕ := (b.lines+1+VSDEFLINES).toNat

/-- The memory once the rows have been copied out. -/
def VSbuf.savedScreen (b : VSbuf) : LineMem :=
  alongRows b.lines
    (fun i p m => (m.setLattr p (m.lattr (b.row i))).moveAttr b.allwidth (b.cellRow i) p)
    (alongRows b.lines (fun i p m => m.moveText b.allwidth (b.row i) p)
      (VSInewlines b.mem (short (b.lines+1+VSDEFLINES))).2 b.mem.brk) b.mem.brk

/-- A screen whose rows can be allocated again, with the lines that a new screen has below
them. -/
structure Purgeable (b : VSbuf) : Prop extends AnyScreen b where
  countable : b.lines+1+VSDEFLINES ≤ 32767

/-- The rows of a screen, copied to the lines from `brk` on. -/
structure SavedRows (b : VSbuf) (m : LineMem) : Prop where
  links : m.links = chainLinks b.mem.links b.mem.brk b.freshLines
  brk : m.brk = b.mem.brk+b.freshLines
  grants : m.grants = b.mem.grants.tail
  text : ∀ i, 0 ≤ i → i ≤ b.lines → ∀ j, 0 ≤ j → j ≤ b.allwidth →
    m.text (b.mem.brk+i.toNat) j = b.mem.text (b.row i) j
  attr : ∀ i, 0 ≤ i → i ≤ b.lines → ∀ j, 0 ≤ j → j ≤ b.allwidth →
    m.attr (b.mem.brk+i.toNat) j = b.mem.attr (b.cellRow i) j
  lattr : ∀ i, 0 ≤ i → i ≤ b.lines → m.lattr (b.mem.brk+i.toNat) = b.mem.lattr (b.row i)
  below : ∀ a < b.mem.brk, m.attr a = b.mem.attr a

section Purge
variable {b : VSbuf}

theorem Purgeable.lines_bounds (h : Purgeable b) : 0 ≤ b.lines ∧ b.lines+49 ≤ 32767 := by
  have hcount := h.countable
  simp only [VSDEFLINES] at hcount
  exact ⟨h.lines_nonneg, by omega⟩

theorem Purgeable.freshLines_eq (h : Purgeable b) : (b.freshLines : Int) = b.lines+49 := by
  have hbounds := h.lines_bounds
  simp only [VSbuf.freshLines, VSDEFLINES]
  omega

theorem Purgeable.short_eq (h : Purgeable b) :
    (short (b.lines+1+VSDEFLINES)).toNat = b.freshLines := by
  have hbounds := h.lines_bounds
  simp only [VSbuf.freshLines, VSDEFLINES]
  rw [VS.short_eq (by omega) (by omega)]

/-- The lines of the rows are in use. -/
theorem AnyScreen.rows_live (h : AnyScreen b) {i : Int} (hi : 0 ≤ i) (hi' : i ≤ b.lines) :
    b.row i < b.mem.brk ∧ b.cellRow i < b.mem.brk := by
  obtain ⟨e, pre, post, hth, -⟩ := h.toWellFormed.threaded
  have hrow := hth.live _ (hth.row_mem hi hi')
  cases hold : b.oldScrollback with
  | false =>
    rw [VSbuf.cellRow, hold, if_neg Bool.false_ne_true]
    exact ⟨hrow, hrow⟩
  | true =>
    obtain ⟨e, pre, post, hboth⟩ := h.oldThreaded hold
    rw [VSbuf.cellRow, hold, if_pos rfl]
    refine ⟨hrow, hboth.attrs.live _ ?_⟩
    rw [List.nil_append, List.append_nil]
    exact hboth.attrRow_mem hi hi'

theorem AnyScreen.brk_pos (h : AnyScreen b) : 0 < b.mem.brk :=
  Nat.zero_lt_of_lt (h.rows_live le_rfl h.lines_nonneg).1

theorem VSInewlines_granted {m : LineMem} (hg : m.grants.headD false = true) (n : Int) :
    VSInewlines m n = (m.brk, { m with
      links := chainLinks m.links m.brk n.toNat
      lattr := fun a => if m.brk ≤ a ∧ a < m.brk+n.toNat then 0 else m.lattr a
      brk := m.brk+n.toNat, grants := m.grants.tail }) := by
  simp only [VSInewlines, LineMem.grant, hg, if_true]

/-- The rows are copied out whole. -/
theorem savedScreen_rows (h : Purgeable b) (hg : b.mem.grants.headD false = true) :
    SavedRows b b.savedScreen := by
  have hbounds := h.lines_bounds
  have hfresh := h.freshLines_eq
  have hrows : ∀ i, 0 ≤ i → i ≤ b.lines → b.row i < b.mem.brk ∧ b.cellRow i < b.mem.brk :=
    fun i hi hi' => h.rows_live hi hi'
  rw [VSbuf.savedScreen, VSInewlines_granted hg, h.short_eq]
  generalize hm : ({ b.mem with
    links := chainLinks b.mem.links b.mem.brk b.freshLines
    lattr := fun a => if b.mem.brk ≤ a ∧ a < b.mem.brk+b.freshLines then 0 else b.mem.lattr a
    brk := b.mem.brk+b.freshLines, grants := b.mem.grants.tail } : LineMem) = m
  have hchain : Chain m.links b.mem.brk b.freshLines := by
    rw [← hm]
    exact chainLinks_chain _ _ (by omega)
  have hlattr : ∀ a < b.mem.brk, m.lattr a = b.mem.lattr a := by
    intro a ha
    rw [← hm]
    exact if_neg (fun hin => absurd ha (not_lt.mpr hin.1))
  obtain ⟨text, hsaved, htext, -⟩ := @saveText_copies m b.mem.brk b.lines b.allwidth b.freshLines
    hchain (by omega) b.row (fun i hi hi' => (hrows i hi hi').1)
  obtain ⟨attr, lattr, hsaved', hattr, hbelow⟩ := @saveAttr_copies { m with text := text }
    b.mem.brk b.lines b.allwidth b.freshLines hchain (by omega) b.row b.cellRow hrows
  simp only
  rw [hsaved, hsaved']
  subst hm
  refine ⟨rfl, rfl, rfl, htext, fun i hi hi' => (hattr i hi hi').2, ?_, fun a ha => (hbelow a ha).1⟩
  intro i hi hi'
  exact ((hattr i hi hi').1).trans (hlattr _ (hrows i hi hi').1)

theorem contents_congr {m m' : LineMem} {width : Int} {p pa p' pa' : Ptr}
    (htext : ∀ j, 0 ≤ j → j ≤ width → m'.text p' j = m.text p j)
    (hattr : ∀ j, 0 ≤ j → j ≤ width → m'.attr pa' j = m.attr pa j) :
    m'.contents width p' pa' = { m.contents width p pa with lattr := m'.lattr p' } := by
  simp only [LineMem.contents, Row.mk.injEq, and_true]
  constructor
  · apply List.map_congr_left
    intro j hj
    have hlt := List.mem_range.mp hj
    exact htext j (by omega) (by omega)
  · apply List.map_congr_left
    intro j hj
    have hlt := List.mem_range.mp hj
    exact hattr j (by omega) (by omega)

theorem VSrealloc_linked (hold : b.oldScrollback = false) (hbrk : 0 < b.mem.brk)
    (hg : b.mem.grants.headD false = true) :
    VSrealloc b = some (VSIlistndx { b with mem := b.savedScreen, buftop := b.mem.brk }
      b.mem.brk).atTop := by
  have hptr : (VSInewlines b.mem (short (b.lines+1+VSDEFLINES))).1 = b.mem.brk :=
    congrArg Prod.fst (VSInewlines_granted hg _)
  rw [VSrealloc]
  simp only [hptr]
  rw [if_neg hbrk.ne', if_neg (Bool.eq_false_iff.mp hold)]
  rfl

/-- With the linked scrollback the copies become the rows. -/
theorem realloc_linked (h : Purgeable b) (hold : b.oldScrollback = false)
    (hg : b.mem.grants.headD false = true) : ∃ b', VSrealloc b = some b' ∧ Purged b b' := by
  have hbounds := h.lines_bounds
  have hfresh := h.freshLines_eq
  have hsaved := savedScreen_rows h hg
  have hchain : Chain b.savedScreen.links b.mem.brk b.freshLines := by
    rw [hsaved.links]
    exact chainLinks_chain _ _ (by omega)
  refine ⟨_, VSrealloc_linked hold h.brk_pos hg, ?_⟩
  generalize hb' : (VSIlistndx { b with mem := b.savedScreen, buftop := b.mem.brk }
    b.mem.brk).atTop = b'
  have hlines : b'.lines = b.lines := by rw [← hb']; rfl
  have hmem : b'.mem = b.savedScreen := by rw [← hb']; rfl
  have hrows : b'.linest = List.range' b.mem.brk (b.lines+1).toNat := by
    rw [← hb']
    change List.iterate b.savedScreen.links.next b.mem.brk (b.lines+1).toNat = _
    exact hchain.iterate (by omega)
  have hform := @chain_wellFormed b' b.mem.brk b.freshLines (hmem ▸ hchain) h.brk_pos
    (by rw [hmem, hsaved.brk]) (by omega) (by omega) (by omega) (by rw [← hb']; rfl)
    (by rw [← hb']; rfl) (by rw [hrows, hlines]) (by rw [← hb']; rfl)
  obtain ⟨hwf, hrow⟩ := hform
  refine ⟨⟨⟨?_, ?_, ?_, ?_⟩, ?_, hwf, ?_⟩, ?_⟩
  · rw [← hb']
    rfl
  · rw [← hb']
    rfl
  · rw [← hb']
    rfl
  · rw [← hb']
    rfl
  · rw [← hb']
    rfl
  · rw [← hb']
    rfl
  · intro i hi hi'
    have hold' : b'.oldScrollback = false := by rw [← hb']; exact hold
    have hwidth : b'.allwidth = b.allwidth := by rw [← hb']; rfl
    have hcell : b'.cellRow i = b'.row i := by
      rw [VSbuf.cellRow, hold', if_neg Bool.false_ne_true]
    rw [rowContents_eq, rowContents_eq, hcell, hrow i hi (by omega), hwidth, hmem,
      contents_congr (hsaved.text i hi hi') (hsaved.attr i hi hi'), hsaved.lattr i hi hi']
    rfl

theorem VSOnewlines_granted {m : LineMem} (hg : m.grants.headD false = true)
    (hg' : m.grants.tail.headD false = true) (n : Int) :
    VSOnewlines m n = (m.brk, { m with
      links := chainLinks m.links m.brk n.toNat
      lattr := fun a => if m.brk ≤ a ∧ a < m.brk+n.toNat then 0 else m.lattr a
      brk := m.brk+n.toNat, grants := m.grants.tail.tail }) := by
  simp only [VSOnewlines, LineMem.grant, hg, hg', if_true]

theorem VSOnewlines_refused {m : LineMem}
    (hg : ¬(m.grants.headD false = true ∧ m.grants.tail.headD false = true)) (n : Int) :
    (VSOnewlines m n).1 = NULL := by
  cases hcontents : m.grants.headD false with
  | false => simp only [VSOnewlines, LineMem.grant, hcontents, if_neg Bool.false_ne_true]
  | true =>
    cases hrecords : m.grants.tail.headD false with
    | false =>
      simp only [VSOnewlines, LineMem.grant, hcontents, hrecords, if_true,
        if_neg Bool.false_ne_true]
    | true => exact absurd ⟨hcontents, hrecords⟩ hg

/-- The screen with the old scrollback once its rows have been allocated again. -/
def VSbuf.oldRebuilt (b : VSbuf) : VSbuf :=
  let new := VSOnewlines b.savedScreen (short (b.lines+1+VSDEFLINES))
  let b := VSOlistndx { b with mem := new.2, buftop := new.1 } new.1 (b.attrRow 0)
  (b.setPrev (b.attrRow 0) (b.attrRow b.lines)).setNext (b.attrRow b.lines) (b.attrRow 0)

theorem VSrealloc_old (hold : b.oldScrollback = true) (hbrk : 0 < b.mem.brk)
    (hg : b.mem.grants.headD false = true) :
    VSrealloc b = if (VSOnewlines b.savedScreen (short (b.lines+1+VSDEFLINES))).1 = NULL then none
      else some { b.oldRebuilt with
        mem := alongRows b.lines
          (fun i p m => m.moveText b.allwidth p (b.oldRebuilt.row i)) b.oldRebuilt.mem
          b.mem.brk }.atTop := by
  have hptr : (VSInewlines b.mem (short (b.lines+1+VSDEFLINES))).1 = b.mem.brk :=
    congrArg Prod.fst (VSInewlines_granted hg _)
  rw [VSrealloc]
  simp only [hptr]
  rw [if_neg hbrk.ne', if_pos hold]
  rfl

/-- What the old scrollback has before the texts are copied back: the copies, new rows
behind them, and its attribute lines. -/
structure OldRebuilt (b r : VSbuf) (new : ℕ) : Prop where
  copies : Chain r.mem.links b.mem.brk b.freshLines
  list : Chain r.mem.links new b.freshLines
  above : b.mem.brk+b.freshLines = new
  brk : r.mem.brk = new+b.freshLines
  linest : r.linest = List.range' new (b.lines+1).toNat
  attrst : r.attrst = b.attrst
  buftop : r.buftop = new
  text : r.mem.text = b.savedScreen.text
  attr : ∀ a < b.mem.brk, r.mem.attr a = b.mem.attr a
  lattr : ∀ i : ℕ, i < b.freshLines → r.mem.lattr (new+i) = 0
  others : r = { b with mem := r.mem, buftop := r.buftop, linest := r.linest, attrst := r.attrst }

/-- The attribute lines are a walk along lines in use. -/
theorem AnyScreen.attrst_walk (h : AnyScreen b) (hold : b.oldScrollback = true) :
    b.attrst = List.iterate b.next (b.attrRow 0) (b.lines+1).toNat ∧
      ∀ a ∈ b.attrst, a < b.mem.brk := by
  refine ⟨(h.attrRows hold).linest_eq, ?_⟩
  intro a ha
  obtain ⟨e, pre, post, hboth⟩ := h.oldThreaded hold
  apply hboth.attrs.live
  rw [List.nil_append, List.append_nil]
  exact ha

theorem oldRebuilt_spec (h : Purgeable b) (hold : b.oldScrollback = true)
    (hg : b.mem.grants.headD false = true) (hcontents : b.mem.grants.tail.headD false = true)
    (hrecords : b.mem.grants.tail.tail.headD false = true) :
    OldRebuilt b b.oldRebuilt (b.mem.brk+b.freshLines) := by
  have hbounds := h.lines_bounds
  have hfresh := h.freshLines_eq
  have hsaved := savedScreen_rows h hg
  obtain ⟨hwalk, hlive⟩ := h.attrst_walk hold
  have hattr : ∀ i, 0 ≤ i → i ≤ b.lines → b.attrRow i < b.mem.brk := by
    intro i hi hi'
    have hcell := (h.rows_live hi hi').2
    rwa [VSbuf.cellRow, if_pos hold] at hcell
  have hnew := VSOnewlines_granted (m := b.savedScreen) (by rw [hsaved.grants]; exact hcontents)
    (by rw [hsaved.grants]; exact hrecords) (short (b.lines+1+VSDEFLINES))
  rw [h.short_eq, hsaved.brk, hsaved.links] at hnew
  rw [VSbuf.oldRebuilt, hnew]
  generalize hL : chainLinks (chainLinks b.mem.links b.mem.brk b.freshLines)
    (b.mem.brk+b.freshLines) b.freshLines = L
  -- two chains have been linked above the lines in use, whose links are as before
  have hbelow : ∀ a < b.mem.brk, L.next a = b.mem.links.next a ∧ L.prev a = b.mem.links.prev a := by
    intro a ha
    have hup := chainLinks_of_lt (chainLinks b.mem.links b.mem.brk b.freshLines) b.freshLines
      (Nat.lt_add_right b.freshLines ha)
    have hlow := chainLinks_of_lt b.mem.links b.freshLines ha
    rw [← hL]
    exact ⟨hup.1.trans hlow.1, hup.2.trans hlow.2⟩
  have hlist : Chain L (b.mem.brk+b.freshLines) b.freshLines := by
    rw [← hL]
    exact chainLinks_chain _ _ (by omega)
  have hcopies : Chain L b.mem.brk b.freshLines := by
    apply (chainLinks_chain b.mem.links b.mem.brk (by omega)).congr (by omega)
    intro a ha ha'
    rw [← hL]
    exact chainLinks_of_lt _ _ ha'
  have hattrst : List.iterate L.next (b.attrRow 0) (b.lines+1).toNat = b.attrst := by
    rw [hwalk]
    apply iterate_congr
    intro a ha
    rw [← hwalk] at ha
    exact (hbelow a (hlive a ha)).1
  -- the attribute lines are closed to a ring again, which touches neither chain
  have hring (base : ℕ) (hbase : b.mem.brk ≤ base) (hc : Chain L base b.freshLines) (a a' : Ptr)
      (ha : a < b.mem.brk) (ha' : a' < b.mem.brk) :
      Chain ((L.setPrev a a').setNext a' a) base b.freshLines := by
    apply hc.congr (by omega)
    intro p hp hp'
    have hne : p ≠ a := (lt_of_lt_of_le ha (hbase.trans hp)).ne'
    have hne' : p ≠ a' := (lt_of_lt_of_le ha' (hbase.trans hp)).ne'
    simp only [setNext_next, setPrev_next, setNext_prev, setPrev_prev, if_neg hne, if_neg hne']
    exact ⟨trivial, trivial⟩
  have hfirst := hattr 0 le_rfl h.lines_nonneg
  have hlast := hattr b.lines h.lines_nonneg le_rfl
  simp only [VSOlistndx, VSbuf.setPrev, VSbuf.setNext]
  have hrow : ∀ i : Int, (List.iterate L.next (b.attrRow 0) (b.lines+1).toNat).getD i.toNat NULL =
      b.attrRow i := by
    intro i
    rw [hattrst]
    rfl
  refine ⟨?_, ?_, rfl, rfl, ?_, hattrst, rfl, rfl, ?_, ?_, rfl⟩
  · refine hring b.mem.brk le_rfl hcopies _ _ ?_ ?_
    · exact lt_of_eq_of_lt (hrow 0) hfirst
    · exact lt_of_eq_of_lt (hrow b.lines) hlast
  · refine hring _ (Nat.le_add_right _ _) hlist _ _ ?_ ?_
    · exact lt_of_eq_of_lt (hrow 0) hfirst
    · exact lt_of_eq_of_lt (hrow b.lines) hlast
  · exact hlist.iterate (by omega)
  · exact hsaved.below
  · intro i hi
    exact if_pos ⟨Nat.le_add_right _ _, Nat.add_lt_add_left hi _⟩

/-- With the old scrollback the rows lose their line attributes. -/
theorem realloc_old (h : Purgeable b) (hold : b.oldScrollback = true)
    (hg : b.mem.grants.headD false = true) (hcontents : b.mem.grants.tail.headD false = true)
    (hrecords : b.mem.grants.tail.tail.headD false = true) :
    ∃ b', VSrealloc b = some b' ∧ Rebuilt b b' ∧
      ∀ i, 0 ≤ i → i ≤ b.lines → b'.rowContents i = { b.rowContents i with lattr := 0 } := by
  have hbounds := h.lines_bounds
  have hfresh := h.freshLines_eq
  have hbrk := h.brk_pos
  have hsaved := savedScreen_rows h hg
  have hr := oldRebuilt_spec h hold hg hcontents hrecords
  have hnew := VSOnewlines_granted (m := b.savedScreen) (by rw [hsaved.grants]; exact hcontents)
    (by rw [hsaved.grants]; exact hrecords) (short (b.lines+1+VSDEFLINES))
  have hpos : 0 < b.mem.brk+b.freshLines := Nat.add_pos_left hbrk _
  have hptr : (VSOnewlines b.savedScreen (short (b.lines+1+VSDEFLINES))).1 ≠ NULL := by
    rw [hnew, hsaved.brk]
    exact hpos.ne'
  rw [VSrealloc_old hold hbrk hg, if_neg hptr]
  generalize hnewline : b.mem.brk+b.freshLines = new at hr hpos
  generalize b.oldRebuilt = r at hr
  have hlines : r.lines = b.lines := by rw [hr.others]
  have hrow : ∀ i, 0 ≤ i → i ≤ b.lines → r.row i = new+i.toNat := by
    intro i hi hi'
    have hlen : i.toNat < (List.range' new (b.lines+1).toNat).length := by
      rw [List.length_range']
      omega
    rw [VSbuf.row, hr.linest, List.getD_eq_getElem _ _ hlen, List.getElem_range', Nat.one_mul]
  obtain ⟨text, hmem, htext⟩ := @restoreText_copies r.mem b.mem.brk b.lines b.allwidth b.freshLines
    new hr.copies (by omega) hnewline.le r.row hrow
  rw [hmem]
  refine ⟨_, rfl, ?_⟩
  generalize hb' : ({ r with mem := { r.mem with text := text } } : VSbuf).atTop = b'
  have hlines' : b'.lines = b.lines := by rw [← hb']; exact hlines
  have hform := @chain_wellFormed b' new b.freshLines (by rw [← hb']; exact hr.list)
    hpos (by rw [← hb']; exact hr.brk.ge) (by omega) (by omega) (by omega)
    (by rw [← hb']; exact hr.buftop) (by rw [← hb']; exact hr.buftop)
    (by rw [hlines', ← hb']; exact hr.linest) (by rw [← hb']; rfl)
  obtain ⟨hwf, hrow'⟩ := hform
  refine ⟨⟨⟨?_, ?_, ?_, ?_⟩, ?_, hwf, ?_⟩, ?_⟩
  · rw [← hb']
    rfl
  · rw [← hb']
    rfl
  · rw [← hb']
    rfl
  · rw [← hb']
    rfl
  · rw [← hb']
    exact hr.attrst
  · rw [← hb']
    have hothers := hr.others
    rw [hr.attrst] at hothers
    rw [hothers]
    rfl
  · intro i hi hi'
    have hold' : b'.oldScrollback = true := by rw [← hb', hr.others]; exact hold
    have hwidth : b'.allwidth = b.allwidth := by rw [← hb', hr.others]; rfl
    have hcell : b'.cellRow i = b.cellRow i := by
      rw [VSbuf.cellRow, VSbuf.cellRow, if_pos hold', if_pos hold, VSbuf.attrRow, VSbuf.attrRow,
        ← hb']
      exact congrArg (fun l => l.getD i.toNat NULL) hr.attrst
    have hlattr : b'.mem.lattr (new+i.toNat) = 0 := by
      rw [← hb']
      exact hr.lattr i.toNat (by omega)
    -- the text goes from the row to its copy and back to the new row
    have hcopied : ∀ j, 0 ≤ j → j ≤ b.allwidth →
        b'.mem.text (new+i.toNat) j = b.mem.text (b.row i) j := by
      intro j hj hj'
      calc b'.mem.text (new+i.toNat) j
          = text (r.row i) j := by rw [← hb', hrow i hi hi']; rfl
        _ = r.mem.text (b.mem.brk+i.toNat) j := htext i hi hi' j hj hj'
        _ = b.savedScreen.text (b.mem.brk+i.toNat) j := by rw [hr.text]
        _ = b.mem.text (b.row i) j := hsaved.text i hi hi' j hj hj'
    -- the attribute lines have not been given up
    have hkept : ∀ j, 0 ≤ j → j ≤ b.allwidth →
        b'.mem.attr (b.cellRow i) j = b.mem.attr (b.cellRow i) j := by
      intro j _ _
      rw [← hb']
      exact congrFun (hr.attr _ (h.rows_live hi hi').2) j
    rw [rowContents_eq, rowContents_eq, hcell, hrow' i hi (by omega), hwidth,
      contents_congr hcopied hkept, hlattr]

/-- Only the links and the number of the lines matter for a list. -/
theorem WellFormed.of_mem (h : WellFormed b) {m : LineMem} (hlinks : m.links = b.mem.links)
    (hbrk : m.brk = b.mem.brk) : WellFormed { b with mem := m } := by
  obtain ⟨links, text, attr, lattr, brk, grants⟩ := m
  subst hlinks hbrk
  obtain ⟨k, hk⟩ := h.list
  refine ⟨h.lines_nonneg, h.lines_lt, h.length, h.top, h.next, h.prev, h.distinct, h.node,
    ⟨k, ?_⟩, h.numlines_nonneg, h.scrntop⟩
  rcases hk with hk | hk
  · exact Or.inl ⟨⟨hk.pos, hk.live, hk.prev⟩, hk.last, hk.before, hk.back, hk.reached⟩
  · exact Or.inr ⟨⟨hk.pos, hk.live, hk.prev⟩, hk.closed, hk.back, hk.first⟩

theorem VSrealloc_refused (hg : b.mem.grants.headD false = false) :
    VSrealloc b = some { b with mem.grants := b.mem.grants.tail } := by
  rw [VSrealloc, VSInewlines_refused hg, if_pos rfl]

theorem purged_refused_iff (h : AnyScreen b) (g : List Bool) :
    Purged b { b with mem.grants := g } ↔ Emptied b := by
  constructor
  · rintro ⟨⟨⟨hnum, hbuf, hvis, htop⟩, -⟩, -⟩
    exact ⟨hnum, hbuf, hvis, htop⟩
  · rintro ⟨hnum, hbuf, hvis, htop⟩
    refine ⟨⟨⟨hnum, hbuf, hvis, htop⟩, rfl, ?_, rfl⟩, fun _ _ _ => rfl⟩
    exact h.toWellFormed.of_mem rfl rfl

theorem getD_grants (g : List Bool) : g.getD 0 false = g.headD false ∧
    g.getD 1 false = g.tail.headD false ∧ g.getD 2 false = g.tail.tail.headD false := by
  rcases g with _ | ⟨_, _ | ⟨_, _ | ⟨_, _⟩⟩⟩
  · exact ⟨rfl, rfl, rfl⟩
  · exact ⟨rfl, rfl, rfl⟩
  · exact ⟨rfl, rfl, rfl⟩
  · exact ⟨rfl, rfl, rfl⟩

theorem purgeKeeps_iff {s : VSscrn} {b' : VSbuf} (hb : VSrealloc s.buf = some b') :
    PurgeKeeps s ↔ Purged s.buf b' := by
  have hs : s.VSrealloc = some { s with buf := b' } := by
    rw [VSscrn.VSrealloc, hb]
    rfl
  constructor
  · rintro ⟨s', hs', -, hpurged⟩
    have heq : { s with buf := b' } = s' := Option.some.inj (hs.symm.trans hs')
    rw [← heq] at hpurged
    exact hpurged
  · intro hpurged
    exact ⟨_, hs, rfl, hpurged⟩

end Purge

/-- A purge of the scrollback keeps the screen if and only if there is memory for the new lines
and, with the old scrollback, no row of the screen has a line attribute; without memory, if and
only if there is no scrollback to purge. -/
theorem purge_keeps_screen_iff (s : VSscrn) (h : Purgeable s.buf) :
    PurgeKeeps s ↔ PurgeIsSafe s.buf := by
  obtain ⟨hg0, hg1, hg2⟩ := getD_grants s.buf.mem.grants
  rw [PurgeIsSafe, hg0, hg1, hg2]
  cases hg : s.buf.mem.grants.headD false with
  | false =>
    rw [if_neg Bool.false_ne_true, purgeKeeps_iff (VSrealloc_refused hg)]
    exact purged_refused_iff h.toAnyScreen _
  | true =>
    rw [if_pos rfl]
    cases hold : s.buf.oldScrollback with
    | false =>
      obtain ⟨b', hb', hpurged⟩ := realloc_linked h hold hg
      rw [purgeKeeps_iff hb']
      exact iff_of_true hpurged nofun
    | true =>
      by_cases hmore : s.buf.mem.grants.tail.headD false = true ∧
          s.buf.mem.grants.tail.tail.headD false = true
      · obtain ⟨b', hb', hrebuilt, hrows⟩ := realloc_old h hold hg hmore.1 hmore.2
        rw [purgeKeeps_iff hb']
        constructor
        · -- a row that keeps its contents keeps its line attribute, which is 0 now
          rintro ⟨-, hkept⟩ -
          refine ⟨hmore.1, hmore.2, ?_⟩
          intro i hi hi'
          have hlattr := congrArg Row.lattr ((hrows i hi hi').symm.trans (hkept i hi hi'))
          exact hlattr.symm
        · intro hsafe
          refine ⟨hrebuilt, ?_⟩
          intro i hi hi'
          have hlattr : (s.buf.rowContents i).lattr = 0 := (hsafe rfl).2.2 i hi hi'
          rw [hrows i hi hi', ← hlattr]
      · -- the null pointer of a refused allocation is used
        have hnull : VSrealloc s.buf = none := by
          rw [VSrealloc_old hold h.brk_pos hg, if_pos]
          apply VSOnewlines_refused
          rw [(savedScreen_rows h hg).grants]
          exact hmore
        constructor
        · rintro ⟨s', hs', -⟩
          rw [VSscrn.VSrealloc, hnull] at hs'
          exact absurd hs' (Option.some_ne_none s').symm
        · intro hsafe
          exact absurd ⟨(hsafe rfl).1, (hsafe rfl).2.1⟩ hmore

/-- A screen of two rows with the old scrollback, whose first row has the line attribute `l`. -/
def twoOldRows (l : BitVec 16) : VSbuf :=
  { twoRows with
    mem := { twoRows.mem with
      links := ⟨fun p => if p = 4 then 5 else if p = 5 then 4 else twoRows.mem.links.next p,
        fun p => if p = 4 then 5 else if p = 5 then 4 else twoRows.mem.links.prev p⟩
      lattr := fun p => if p = 1 then l else 0, brk := 6, grants := [true, true, true] }
    attrst := [4, 5], oldScrollback := true }

theorem twoOldRows_plain : Purgeable (twoOldRows 0) := by
  have hrow : ∀ i : Int, 0 ≤ i → i ≤ (twoOldRows 0).lines → i = 0 ∨ i = 1 := by
    intro i h0 h1
    have hl : (twoOldRows 0).lines = 1 := rfl
    omega
  have hfirst : ∀ i : Int, 0 ≤ i → i < (twoOldRows 0).lines → i = 0 := by
    intro i h0 h1
    have hl : (twoOldRows 0).lines = 1 := rfl
    omega
  have hpair : ∀ i j : Int, 0 ≤ i → i < j → j ≤ (twoOldRows 0).lines → i = 0 ∧ j = 1 := by
    intro i j h0 h1 h2
    have hl : (twoOldRows 0).lines = 1 := rfl
    omega
  have htext : WellFormed (twoOldRows 0) := by
    refine ⟨by decide, by decide, by decide, by decide, ?_, ?_, ?_, ?_, ⟨3, Or.inl ?_⟩, by decide,
      by decide⟩
    · intro i h0 h1
      rw [hfirst i h0 h1]
      decide
    · intro i h0 h1
      rw [hfirst i h0 h1]
      decide
    · intro i j h0 hij hj
      obtain ⟨rfl, rfl⟩ := hpair i j h0 hij hj
      decide
    · intro i h0 h1
      rcases hrow i h0 h1 with rfl | rfl <;> decide
    · refine ⟨⟨by decide, by decide, ?_⟩, by decide, by decide, by decide, by decide⟩
      intro i hi
      have hi' : i = 0 ∨ i = 1 := by omega
      rcases hi' with rfl | rfl <;> decide
  have hring : Circular (twoOldRows 0).attrSide 2 := by
    refine ⟨⟨by decide, by decide, ?_⟩, by decide, by decide, ?_⟩
    · intro i hi
      have hi' : i = 0 := by omega
      rw [hi']
      decide
    · intro i h0 hi
      have hi' : i = 1 := by omega
      rw [hi']
      decide
  have hattr : WellFormed (twoOldRows 0).attrSide := by
    refine ⟨by decide, by decide, by decide, by decide, ?_, ?_, ?_, ?_, ⟨2, Or.inr hring⟩,
      by decide,
      by decide⟩
    · intro i h0 h1
      rw [hfirst i h0 h1]
      decide
    · intro i h0 h1
      rw [hfirst i h0 h1]
      decide
    · intro i j h0 hij hj
      obtain ⟨rfl, rfl⟩ := hpair i j h0 hij hj
      decide
    · intro i h0 h1
      rcases hrow i h0 h1 with rfl | rfl <;> decide
  -- the text lines have the addresses below the attribute lines
  have hbelow : ∀ k, (twoOldRows 0).next^[k] (twoOldRows 0).buftop < 4 := by
    intro k
    induction k with
    | zero => decide
    | succ k ih =>
      rw [Function.iterate_succ_apply']
      have hcases : ∀ p < 4, (twoOldRows 0).next p < 4 := by decide
      exact hcases _ ih
  refine ⟨⟨htext, fun _ => rfl, fun _ => hattr, fun _ => hring, ?_⟩, by decide⟩
  rintro - a ha k rfl
  have hk := hbelow k
  have hmem : ∀ a ∈ (twoOldRows 0).attrst, 4 ≤ a := by decide
  exact absurd hk (not_lt.mpr (hmem _ ha))

theorem twoOldRows_purgeable (l : BitVec 16) : Purgeable (twoOldRows l) := by
  obtain ⟨⟨htext, hvisible, hattr, hring, hapart⟩, hcount⟩ := twoOldRows_plain
  refine ⟨⟨htext.of_mem rfl rfl, hvisible, fun hold => (hattr hold).of_mem rfl rfl, ?_, hapart⟩,
    hcount⟩
  intro hold
  have hcircular := hring hold
  exact ⟨⟨hcircular.pos, hcircular.live, hcircular.prev⟩, hcircular.closed, hcircular.back,
    hcircular.first⟩

/-- Without line attributes, a purge with the old scrollback keeps the screen too. -/
theorem purge_keeps_plain_rows : PurgeKeeps { threeRowsFull 0 with buf := twoOldRows 0 } :=
  (purge_keeps_screen_iff { threeRowsFull 0 with buf := twoOldRows 0 } (twoOldRows_purgeable 0)).mpr
    fun _ => ⟨rfl, rfl, fun _ _ _ => ite_self _⟩

/-- A wrapped row is no longer wrapped after a purge with the old scrollback. -/
theorem purge_unwraps_row : Purgeable (twoOldRows 4) ∧
    (VSrealloc (twoOldRows 4)).map (fun b => (b.rowContents 0).lattr) = some 0 ∧
      ((twoOldRows 4).rowContents 0).lattr = 4 ∧
      ¬PurgeKeeps { threeRowsFull 0 with buf := twoOldRows 4 } := by
  have hlost : (VSrealloc (twoOldRows 4)).map (fun b => (b.rowContents 0).lattr) = some 0 := by
    decide +kernel
  refine ⟨twoOldRows_purgeable 4, hlost, by decide, ?_⟩
  rintro ⟨s', hs', -, hpurged⟩
  obtain ⟨b', hb', rfl⟩ := Option.map_eq_some_iff.mp hs'
  have hkept := congrArg Row.lattr (hpurged.rows 0 le_rfl (by decide))
  rw [show VSrealloc (twoOldRows 4) = some b' from hb', Option.map_some, Option.some.injEq] at hlost
  have hfour : (0 : BitVec 16) = 4 := hlost.symm.trans hkept
  exact absurd hfour (by decide)

end VS
