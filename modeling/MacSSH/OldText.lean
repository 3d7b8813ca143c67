import MacSSH.EditMargins
import MacSSH.ScrollSaves

/-! The text lines of the old scrollback: scrolling and saving the screen do with them what
they do with the lines of a linked scrollback. -/
namespace VS

open Linked

/-- The screen with these answers to the coming allocations. -/
def VSbuf.granted (b : VSbuf) (g : List Bool) : VSbuf := { b with mem.grants := g }

/-- The text lines of `b` are those of the screen `b'` with the linked scrollback. -/
structure TextAlike (b b' : VSbuf) : Prop where
  linest : b'.linest = b.linest
  scrntop : b'.scrntop = b.scrntop
  buftop : b'.buftop = b.buftop
  lines : b'.lines = b.lines
  maxlines : b'.maxlines = b.maxlines
  numlines : b'.numlines = b.numlines
  savelines : b'.savelines = b.savelines
  links : b'.mem.links = b.mem.links
  brk : b'.mem.brk = b.mem.brk
  old : b.oldScrollback = true
  linked : b'.oldScrollback = false

/-- The two blocks of an allocation for the old scrollback come to one. -/
theorem VSOnewlines_one {m m' : LineMem} (hlinks : m'.links = m.links) (hbrk : m'.brk = m.brk)
    (n : Int) :
    ∃ g, (VSInewlines { m' with grants := g } n).1 = (VSOnewlines m n).1 ∧
      (VSInewlines { m' with grants := g } n).2.links = (VSOnewlines m n).2.links ∧
      (VSInewlines { m' with grants := g } n).2.brk = (VSOnewlines m n).2.brk := by
  by_cases hcontents : m.grants.headD false = true
  · by_cases hrecords : m.grants.tail.headD false = true
    · refine ⟨[true], ?_⟩
      simp only [VSOnewlines, VSInewlines, LineMem.grant, hcontents, hrecords, List.headD_cons,
        if_true, hlinks, hbrk]
      exact ⟨trivial, trivial, trivial⟩
    · refine ⟨[false], ?_⟩
      simp only [VSOnewlines, VSInewlines, LineMem.grant, hcontents, hrecords, List.headD_cons,
        if_true, if_false, Bool.false_eq_true, hlinks, hbrk]
      exact ⟨trivial, trivial, trivial⟩
  · refine ⟨[false], ?_⟩
    simp only [VSOnewlines, VSInewlines, LineMem.grant, hcontents, List.headD_cons, if_false,
      Bool.false_eq_true, hlinks, hbrk]
    exact ⟨trivial, trivial, trivial⟩

section Alike
variable {b b' : VSbuf}

theorem TextAlike.textSide (hold : b.oldScrollback = true) : TextAlike b b.textSide :=
  ⟨rfl, rfl, rfl, rfl, rfl, rfl, rfl, rfl, rfl, hold, rfl⟩

namespace TextAlike

theorem granted (h : TextAlike b b') (g : List Bool) : TextAlike b (b'.granted g) :=
  ⟨h.linest, h.scrntop, h.buftop, h.lines, h.maxlines, h.numlines, h.savelines, h.links, h.brk,
    h.old, h.linked⟩

theorem next (h : TextAlike b b') (p : Ptr) : b'.next p = b.next p := by
  rw [VSbuf.next, VSbuf.next, h.links]

theorem lastRow (h : TextAlike b b') : b'.lastRow = b.lastRow := by
  rw [VSbuf.lastRow, VSbuf.lastRow, VSbuf.row, VSbuf.row, h.linest, h.lines]

theorem makeCircular (h : TextAlike b b') (last : Ptr) :
    TextAlike (makeCircular b last) (makeCircular b' last) where
  linest := h.linest
  scrntop := h.scrntop
  buftop := h.buftop
  lines := h.lines
  maxlines := h.maxlines
  numlines := h.numlines
  savelines := h.savelines
  links := by
    change (b'.mem.links.setNext last b'.buftop).setPrev b'.buftop last =
      (b.mem.links.setNext last b.buftop).setPrev b.buftop last
    rw [h.links, h.buftop]
  brk := h.brk
  old := h.old
  linked := h.linked

theorem linkBehind (h : TextAlike b b') (last p : Ptr) :
    TextAlike (linkBehind b last p) (linkBehind b' last p) where
  linest := h.linest
  scrntop := h.scrntop
  buftop := h.buftop
  lines := h.lines
  maxlines := h.maxlines
  numlines := h.numlines
  savelines := h.savelines
  links := by
    change (b'.mem.links.setNext last p).setPrev p last =
      (b.mem.links.setNext last p).setPrev p last
    rw [h.links]
  brk := h.brk
  old := h.old
  linked := h.linked

theorem reuseOldest (h : TextAlike b b') : TextAlike (reuseOldest b) (reuseOldest b') where
  linest := h.linest
  scrntop := h.scrntop
  buftop := by
    change b'.next b'.buftop = b.next b.buftop
    rw [h.next, h.buftop]
  lines := h.lines
  maxlines := h.maxlines
  numlines := h.numlines
  savelines := h.savelines
  links := h.links
  brk := h.brk
  old := h.old
  linked := h.linked

theorem countLine (h : TextAlike b b') : TextAlike (countLine b) (countLine b') where
  linest := h.linest
  scrntop := h.scrntop
  buftop := h.buftop
  lines := h.lines
  maxlines := h.maxlines
  numlines := congrArg (fun n => short (n+1)) h.numlines
  savelines := h.savelines
  links := h.links
  brk := h.brk
  old := h.old
  linked := h.linked

theorem newlines (h : TextAlike b b') (n : Int) :
    ∃ g, (newlines (b'.granted g) n).1 = (newlines b n).1 ∧
      TextAlike (newlines b n).2 (newlines (b'.granted g) n).2 := by
  obtain ⟨g, hp, hlinks, hbrk⟩ := VSOnewlines_one h.links h.brk n
  have hnew : VS.newlines b n =
      ((VSOnewlines b.mem n).1, { b with mem := (VSOnewlines b.mem n).2 }) := by
    simp only [VS.newlines, h.old, if_true]
  have hnew' : VS.newlines (b'.granted g) n = ((VSInewlines { b'.mem with grants := g } n).1,
      { b' with mem := (VSInewlines { b'.mem with grants := g } n).2 }) := by
    simp only [VS.newlines, VSbuf.granted, h.linked, Bool.false_eq_true, if_false]
  refine ⟨g, ?_, ?_⟩
  · rw [hnew, hnew']
    exact hp
  · rw [hnew, hnew']
    exact ⟨h.linest, h.scrntop, h.buftop, h.lines, h.maxlines, h.numlines, h.savelines, hlinks,
      hbrk, h.old, h.linked⟩

theorem pushRow (h : TextAlike b b') : TextAlike (pushRow b) (pushRow b') := by
  have hcounted : ∃ b₁ b₁', TextAlike b₁ b₁' ∧
      b₁ = (if b.next b.lastRow = b.buftop then VS.reuseOldest b else VS.countLine b) ∧
      b₁' = (if b'.next b'.lastRow = b'.buftop then VS.reuseOldest b' else VS.countLine b') := by
    refine ⟨_, _, ?_, rfl, rfl⟩
    rw [h.next, h.lastRow, h.buftop]
    split_ifs
    · exact h.reuseOldest
    · exact h.countLine
  obtain ⟨b₁, b₁', h₁, hb₁, hb₁'⟩ := hcounted
  simp only [VS.pushRow, ← hb₁, ← hb₁', h₁.old, h₁.linked, if_true, Bool.false_eq_true, if_false]
  have hnext : b₁'.next b₁'.scrntop = b₁.next b₁.scrntop := by rw [h₁.next, h₁.scrntop]
  refine ⟨?_, hnext, h₁.buftop, h₁.lines, h₁.maxlines, h₁.numlines, h₁.savelines, h₁.links,
    h₁.brk, rfl, rfl⟩
  simp only [VSIlistndx, VSOlistndx]
  rw [hnext, h₁.links, h₁.lines]

theorem pushRows (h : TextAlike b b') (k : ℕ) :
    TextAlike (VS.pushRow^[k] b) (VS.pushRow^[k] b') := by
  induction k generalizing b b' with
  | zero => exact h
  | succ k ih =>
    rw [Function.iterate_succ_apply, Function.iterate_succ_apply]
    exact ih h.pushRow

/-- Only the last line of the list asks for an allocation. -/
theorem reserveScreen (h : TextAlike b b') (fuel i : ℕ) (tmp : Ptr) :
    ∃ g, TextAlike (reserveScreen b fuel i tmp) (reserveScreen (b'.granted g) fuel i tmp) := by
  induction fuel generalizing i tmp with
  | zero => exact ⟨[], h.granted []⟩
  | succ fuel ih =>
    have hnext (g : List Bool) : (b'.granted g).next tmp = b.next tmp := h.next tmp
    have hroom (g : List Bool) :
        atOnce (short ((b'.granted g).maxlines-(b'.granted g).numlines-i)) =
        atOnce (short (b.maxlines-b.numlines-i)) := by
      change atOnce (short (b'.maxlines-b'.numlines-i)) = _
      rw [h.maxlines, h.numlines]
    have hlines (g : List Bool) : (b'.granted g).lines = b.lines := h.lines
    simp only [VS.reserveScreen, hnext, hroom, hlines]
    generalize atOnce (short (b.maxlines-b.numlines-i)) = j
    by_cases hnull : b.next tmp = NULL
    · simp only [hnull, if_true]
      by_cases hj : j ≤ 0
      · simp only [hj, if_true]
        exact ⟨[], (h.granted []).makeCircular tmp⟩
      · simp only [hj, if_false]
        generalize (if j < b.lines-i+1 then short (b.lines-i+1) else j) = n
        obtain ⟨g, hp, hnew⟩ := h.newlines n
        refine ⟨g, ?_⟩
        rw [hp]
        split_ifs
        · exact hnew.linkBehind tmp _
        · exact hnew.makeCircular tmp
    · simp only [hnull, if_false]
      exact ih (i+1) (b.next tmp)

theorem VSIscroff (h : TextAlike b b') (r : VSregion) :
    ∃ g, TextAlike (VSIscroff r b) (VSIscroff r (b'.granted g)) := by
  have hsave (g : List Bool) : (b'.granted g).savelines = b.savelines := h.savelines
  have hlines (g : List Bool) : (b'.granted g).lines = b.lines := h.lines
  have hlast (g : List Bool) : (b'.granted g).lastRow = b.lastRow := h.lastRow
  simp only [VS.VSIscroff, hsave, hlines, hlast]
  by_cases hc : b.savelines = false ∨ r.top ≠ 0 ∨ r.bottom ≠ b.lines
  · simp only [hc, if_true]
    exact ⟨[], h.granted []⟩
  · simp only [hc, if_false]
    obtain ⟨g, hres⟩ := h.reserveScreen (b.lines+1).toNat 0 b.lastRow
    have hpush := hres.pushRows (b.lines+1).toNat
    exact ⟨g, hpush.linest, hpush.scrntop, hpush.buftop, hpush.lines, hpush.maxlines,
      hpush.numlines, hpush.savelines, hpush.links, hpush.brk, hpush.old, hpush.linked⟩

theorem advanceBuffer (h : TextAlike b b') :
    ∃ g, TextAlike (advanceBuffer b) (advanceBuffer (b'.granted g)) := by
  have hnext (g : List Bool) (p : Ptr) : (b'.granted g).next p = b.next p := h.next p
  have hlast (g : List Bool) : (b'.granted g).lastRow = b.lastRow := h.lastRow
  have hbuf (g : List Bool) : (b'.granted g).buftop = b.buftop := h.buftop
  have hroom (g : List Bool) : atOnce (short ((b'.granted g).maxlines-(b'.granted g).numlines)) =
      atOnce (short (b.maxlines-b.numlines)) := by
    change atOnce (short (b'.maxlines-b'.numlines)) = _
    rw [h.maxlines, h.numlines]
  simp only [VS.advanceBuffer, hnext, hlast, hbuf, hroom]
  generalize atOnce (short (b.maxlines-b.numlines)) = i
  by_cases hnull : b.next b.lastRow = NULL
  · simp only [hnull, if_true]
    by_cases hi : i > 0
    · simp only [hi, if_true]
      obtain ⟨g, hp, hnew⟩ := h.newlines i
      refine ⟨g, ?_⟩
      rw [hp]
      split_ifs
      · exact (hnew.linkBehind _ _).countLine
      · exact (hnew.makeCircular _).reuseOldest
    · simp only [hi, if_false]
      exact ⟨[], ((h.granted []).makeCircular _).reuseOldest⟩
  · simp only [hnull, if_false]
    by_cases htop : b.next b.lastRow = b.buftop
    · simp only [htop, if_true]
      exact ⟨[], (h.granted []).reuseOldest⟩
    · simp only [htop, if_false]
      exact ⟨[], (h.granted []).countLine⟩

end TextAlike

end Alike

section Apart
variable {b : VSbuf} {e : Option Ptr} {pre post : List Ptr}

/-- An allocation leaves the links of the lines that there are. -/
theorem VSInewlines_apart (m : LineMem) (n : Int) {a : Ptr} (ha : a < m.brk) :
    (VSInewlines m n).2.links.next a = m.links.next a ∧
      (VSInewlines m n).2.links.prev a = m.links.prev a ∧
      ((VSInewlines m n).1 = NULL ∨ (VSInewlines m n).1 = m.brk) := by
  have hout : ¬(m.brk ≤ a ∧ a < m.brk+n.toNat) := fun hc => absurd ha (Nat.not_lt.mpr hc.1)
  by_cases hok : m.grants.headD false = true
  · simp only [VSInewlines, LineMem.grant, hok, if_true, chainLinks, if_neg hout]
    exact ⟨trivial, trivial, Or.inr trivial⟩
  · simp only [VSInewlines, LineMem.grant, hok, if_false, Bool.false_eq_true]
    exact ⟨trivial, trivial, Or.inl trivial⟩

theorem newlines_apart (b : VSbuf) (n : Int) {a : Ptr} (ha : a < b.mem.brk) :
    (newlines b n).2.next a = b.next a ∧ (newlines b n).2.prev a = b.prev a ∧
      ((newlines b n).1 = NULL ∨ (newlines b n).1 = b.mem.brk) := by
  by_cases hold : b.oldScrollback = true
  · simp only [newlines, hold, if_true]
    obtain ⟨g, hp, hlinks, -⟩ := VSOnewlines_one (m := b.mem) rfl rfl n
    have hnew := VSInewlines_apart { b.mem with grants := g } n ha
    rw [hlinks, hp] at hnew
    exact hnew
  · simp only [newlines, hold, if_false, Bool.false_eq_true]
    exact VSInewlines_apart b.mem n ha

theorem advanceBuffer_apart {a : Ptr} (hlast : a ≠ b.lastRow) (hlive : a < b.mem.brk)
    (htop : b.next b.lastRow = NULL → a ≠ b.buftop) :
    (advanceBuffer b).next a = b.next a ∧ (advanceBuffer b).prev a = b.prev a := by
  simp only [advanceBuffer]
  generalize atOnce (short (b.maxlines-b.numlines)) = i
  obtain ⟨hnext, hprev, hp⟩ := newlines_apart b i hlive
  by_cases hnull : b.next b.lastRow = NULL
  · have htop' := htop hnull
    rw [if_pos hnull]
    split_ifs with hi hnew
    · have hp' : a ≠ (newlines b i).1 := by
        rw [hp.resolve_left hnew]
        exact Nat.ne_of_lt hlive
      constructor
      · rw [← hnext]
        simp [countLine, linkBehind, VSbuf.setNext, VSbuf.setPrev, VSbuf.next, hlast]
      · rw [← hprev]
        simp [countLine, linkBehind, VSbuf.setNext, VSbuf.setPrev, VSbuf.prev, hp']
    · constructor
      · rw [← hnext]
        simp [reuseOldest, makeCircular, VSbuf.setNext, VSbuf.setPrev, VSbuf.next, hlast]
      · rw [← hprev]
        have htop'' : a ≠ (newlines b i).2.buftop := htop'
        simp [reuseOldest, makeCircular, VSbuf.setNext, VSbuf.setPrev, VSbuf.prev, htop'']
    · constructor
      · simp [reuseOldest, makeCircular, VSbuf.setNext, VSbuf.setPrev, VSbuf.next, hlast]
      · simp [reuseOldest, makeCircular, VSbuf.setNext, VSbuf.setPrev, VSbuf.prev, htop']
  · rw [if_neg hnull]
    split_ifs <;> exact ⟨rfl, rfl⟩

/-- Turning the rows below the region leaves the lines apart from the list as they are. -/
theorem rotateBelow_apart (h : Threaded b e pre post) {bottom : Int} (h0 : 0 ≤ bottom)
    (hle : bottom ≤ b.lines) {a : Ptr} (ha : Apart e (pre ++ b.linest ++ post) a) :
    (rotateBelow b bottom).next a = b.next a ∧ (rotateBelow b bottom).prev a = b.prev a := by
  have hrow := h.row_mem h0 hle
  have hlast : b.lastRow ∈ pre ++ b.linest ++ post := h.row_mem h.lines_nonneg le_rfl
  have hne {q : Ptr} (hq : q ∈ pre ++ b.linest ++ post) : a ≠ q := fun he => ha.not_mem (he ▸ hq)
  have hbefore {q : Ptr} (hq : b.prev q ∈ pre ++ b.linest ++ post ∨ e = some (b.prev q)) :
      a ≠ b.prev q := by
    rcases hq with hq | hq
    · exact hne hq
    · exact fun he => ha.not_before (he ▸ hq)
  have h1 := hbefore (prev_inside h.strand hrow)
  have h2 := hbefore (prev_inside h.strand hlast)
  have h3 := hne hrow
  have h4 := hne hlast
  have h5 : b.next b.lastRow ≠ NULL → a ≠ b.next b.lastRow := fun hn =>
    hne ((next_inside h.strand hlast).resolve_right hn)
  have hlinks := rotateBelow_links b bottom _ rfl
  change (rotateBelow b bottom).mem.links.next a = _ ∧ (rotateBelow b bottom).mem.links.prev a = _
  rw [hlinks]
  by_cases hnull : b.next b.lastRow ≠ NULL
  · have h6 := h5 hnull
    rw [if_pos hnull]
    simp only [setPrev_next, setNext_next, setPrev_prev, setNext_prev, h1, h2, h3, h4, h6, if_false]
    exact ⟨rfl, rfl⟩
  · rw [if_neg hnull]
    simp only [setPrev_next, setNext_next, setPrev_prev, setNext_prev, h1, h2, h3, h4, if_false]
    exact ⟨rfl, rfl⟩

/-- Turning the attribute lines leaves the lines apart from them as they are. -/
theorem rotateAttrs_apart {A : Ptr → Prop} (hprev : ∀ a, A a → A (b.prev a)) {bottom : Int}
    (hlast : A (b.attrRow b.lines))
    (hrow : A (b.attrRow bottom)) {p : Ptr} (hp : ¬A p) :
    (rotateAttrs b bottom).next p = b.next p := by
  have hne {a : Ptr} (ha : A a) : p ≠ a := fun he => hp (he ▸ ha)
  let m := b.mem.links
  let last := b.attrRow b.lines
  -- the first two writes leave every attribute line before one of them
  have hback {q : Ptr} (hq : A q) :
      A ((m.setPrev (m.next last) (m.prev last)).prev q) := by
    rw [setPrev_prev]
    split_ifs
    · exact hprev last hlast
    · exact hprev q hq
  have hlinks : (rotateAttrs b bottom).next p =
      if p = last then b.attrRow bottom
      else if p = (m.setPrev (m.next last) (m.prev last)).prev (b.attrRow bottom) then last
      else if p = (m.setPrev (m.next last) (m.prev last)).prev last then m.next last
      else m.next p := by
    simp only [rotateAttrs, VSbuf.next, VSbuf.prev, VSbuf.setNext, VSbuf.setPrev, setPrev_next,
      setNext_next, setNext_prev]
    rfl
  rw [hlinks, if_neg (hne hlast), if_neg (hne (hback hrow)), if_neg (hne (hback hlast))]
  rfl

end Apart

section Scroll
variable {r : VSregion} {b b' : VSbuf} {e : Option Ptr} {pre post : List Ptr}

/-- The rows and attribute lines after the top row has left the screen. -/
def oldScrolledUp (r : VSregion) (b : VSbuf) : VSbuf :=
  let b := scrollVisible r
    (VSOlistndx { b with scrntop := b.next b.scrntop } (b.next b.scrntop) (b.attrRow 1))
  { b with mem := (b.mem.setLattr b.lastRow 0).blank b.allwidth b.lastRow (b.attrRow b.lines) 0 }

/-- The end of a scroll of a region that ends above the last row. -/
def oldTurned (b : VSbuf) (bottom : Int) : VSbuf :=
  let b := rotateAttrs (rotateBelow b bottom) bottom
  VSOlistndx b b.scrntop (b.attrRow 0)

theorem VSOscroll_saving (hy : ¬r.y > b.lines) (hsave : ¬(b.savelines = false ∨ r.top ≠ 0)) :
    VSOscroll r b = if r.bottom ≠ (oldScrolledUp r (advanceBuffer b)).lines
      then oldTurned (oldScrolledUp r (advanceBuffer b)) r.bottom
      else oldScrolledUp r (advanceBuffer b) := by
  rw [VSOscroll, if_neg hy, if_neg hsave]
  rfl

theorem oldScrolledUp_links (r : VSregion) (b : VSbuf) :
    (oldScrolledUp r b).mem.links = b.mem.links := by
  simp only [oldScrolledUp, scrollVisible]
  split_ifs <;> rfl

theorem TextAlike.scrolledUp (h : TextAlike b b') (r r' : VSregion) :
    TextAlike (oldScrolledUp r b) (scrolledUp r' b') := by
  obtain ⟨hrows, hcount, hmem⟩ := scrollVisible_frame r
    (VSOlistndx { b with scrntop := b.next b.scrntop } (b.next b.scrntop) (b.attrRow 1))
  obtain ⟨hrows', hcount', hlinks', hbrk'⟩ := scrolledUp_frame r' b'
  have hnext : b'.next b'.scrntop = b.next b.scrntop := by rw [h.next, h.scrntop]
  have hlinest : (shiftUp b').linest = List.iterate b.mem.links.next (b.next b.scrntop)
      (b.lines+1).toNat := by
    change List.iterate b'.mem.links.next (b'.next b'.scrntop) (b'.lines+1).toNat = _
    rw [h.links, hnext, h.lines]
  have hlinks := oldScrolledUp_links r b
  have hbrk : (oldScrolledUp r b).mem.brk = b.mem.brk := by
    change (scrollVisible r _).mem.brk = _
    rw [hmem]
    rfl
  exact ⟨hrows'.linest.trans (hlinest.trans hrows.linest.symm),
    hrows'.scrntop.trans (hnext.trans hrows.scrntop.symm),
    hcount'.buftop.trans (h.buftop.trans hcount.buftop.symm),
    hrows'.lines.trans (h.lines.trans hrows.lines.symm),
    hrows'.maxlines.trans (h.maxlines.trans hrows.maxlines.symm),
    hcount'.numlines.trans (h.numlines.trans hcount.numlines.symm),
    hrows'.savelines.trans (h.savelines.trans hrows.savelines.symm),
    hlinks'.trans (h.links.trans hlinks.symm), hbrk'.trans (h.brk.trans hbrk.symm),
    hrows.oldScrollback.trans h.old, hrows'.oldScrollback.trans h.linked⟩

theorem oldScrolledUp_attrst (r : VSregion) (b : VSbuf) : (oldScrolledUp r b).attrst =
    List.iterate b.mem.links.next (b.attrRow 1) (b.lines+1).toNat := by
  simp only [oldScrolledUp, scrollVisible]
  split_ifs <;> rfl

theorem oldScrolledUp_lines (r : VSregion) (b : VSbuf) : (oldScrolledUp r b).lines = b.lines := by
  simp only [oldScrolledUp, scrollVisible]
  split_ifs <;> rfl

theorem advanceBuffer_attrst (b : VSbuf) : (advanceBuffer b).attrst = b.attrst := by
  simp only [advanceBuffer]
  split_ifs <;> rfl

theorem rotateBelow_attrst (b : VSbuf) (bottom : Int) :
    (rotateBelow b bottom).attrst = b.attrst := by
  simp only [rotateBelow]
  split_ifs <;> rfl

theorem iterate_congr {f g : Ptr → Ptr} (p : Ptr) (k : ℕ)
    (h : ∀ a ∈ List.iterate f p k, g a = f a) : List.iterate g p k = List.iterate f p k := by
  induction k generalizing p with
  | zero => rfl
  | succ k ih =>
    rw [List.iterate, List.iterate, h p List.mem_cons_self]
    congr 1
    exact ih (f p) fun a ha => h a (List.mem_cons_of_mem p ha)

/-- Links that do not leave the attribute lines, and a list that they are apart from. -/
theorem attrs_apart {m : Links Ptr} {A l : List Ptr} (hA : Strand NULL m none A)
    (hl : Strand NULL m e l) {p : Ptr} (hp : p ∈ l) (hout : p ∉ A) {a : Ptr} (ha : a ∈ A)
    (hbefore : e ≠ some a) : Apart e l a := by
  refine ⟨?_, hbefore, fun he => hA.null_mem (he ▸ ha)⟩
  have hprev (a : Ptr) (ha : a ∈ A) : m.prev a ∈ A := (prev_inside hA ha).resolve_right nofun
  have hnext (a : Ptr) (ha : a ∈ A) : m.next a ∈ A := hA.next_mem ha
  rcases seg_all_or_none hnext hprev hl.seg with hall | hnone
  · exact absurd (hall p hp) hout
  · exact fun hmem => hnone a hmem ha

theorem TextAlike.threaded (h : TextAlike b b') (ht : Threaded b' e pre post) :
    Threaded b e pre post := by
  obtain ⟨hstrand, hlen, h0, htop, hlive, hbefore⟩ := ht
  rw [h.links, h.linest] at hstrand
  rw [h.linest, h.lines] at hlen
  rw [h.lines] at h0
  rw [h.scrntop, h.linest] at htop
  rw [h.linest, h.brk] at hlive
  rw [h.brk] at hbefore
  exact ⟨hstrand, hlen, h0, htop, hlive, hbefore⟩

/-- The rows have moved on, and the attribute lines are still a ring apart from them. -/
theorem OldThreaded.scrolledUp (h : OldThreaded b e pre post) (hanch : Anchored b e pre)
    (hold : b.oldScrollback = true) (hpos : 0 < b.lines) (r : VSregion) :
    ∃ e' pre' post', Threaded (oldScrolledUp r (advanceBuffer b)) e' pre' post' ∧
      Strand NULL (oldScrolledUp r (advanceBuffer b)).mem.links none b.attrst ∧
      ∀ a ∈ b.attrst, Apart e'
        (pre' ++ (oldScrolledUp r (advanceBuffer b)).linest ++ post') a := by
  obtain ⟨g, halike⟩ := (TextAlike.textSide hold).advanceBuffer
  have hth : Threaded (b.textSide.granted g) e pre post :=
    ⟨h.text.strand, h.text.length, h.text.lines_nonneg, h.text.top, h.text.live,
      h.text.live_before⟩
  have hanch' : Anchored (b.textSide.granted g) e pre := hanch
  obtain ⟨hsame, -, e', post₁, hext, -⟩ :=
    advanceBuffer_spec hth rfl (hanch'.mem hth) (fun _ => hanch')
  obtain ⟨hrows, -, hlinks, hbrk⟩ := scrolledUp_frame r (advanceBuffer (b.textSide.granted g))
  obtain ⟨pre', post', hlin, hth', -⟩ := hext.threaded.shift hext.nonempty
  have hup := halike.scrolledUp r r
  have hfin := hup.threaded (hth'.of_links hrows hlinks hbrk)
  -- the links of the attribute lines have stayed
  have hattrs : Strand NULL (oldScrolledUp r (advanceBuffer b)).mem.links none b.attrst := by
    rw [oldScrolledUp_links]
    apply h.attrs_strand.congr
    intro a ha
    have hout := h.apart a ha
    apply advanceBuffer_apart
    · intro he
      exact hout.not_mem (he ▸ h.text.row_mem h.text.lines_nonneg le_rfl)
    · apply h.attrs.live a
      rw [List.nil_append, List.append_nil]
      exact ha
    · intro hnull he
      have hopen := (h.text.next_lastRow_null.mp hnull).1
      exact hout.not_mem (he ▸ List.mem_append_left post (hanch.mem h.text hopen))
  refine ⟨e', pre', post', hfin, hattrs, ?_⟩
  intro a ha
  -- the second row is still on the screen
  have hrow : b.row 1 ∈ b.linest.tail := by
    have hlen := h.text.length
    obtain ⟨r₀, T, hT⟩ := List.exists_cons_of_ne_nil h.text.linest_ne_nil
    rw [hT, List.length_cons] at hlen
    rw [VSbuf.row, hT, List.tail_cons]
    change T.getD 0 NULL ∈ T
    rw [List.getD_eq_getElem _ _ (by omega)]
    exact List.getElem_mem _
  have hin : b.row 1 ∈ pre' ++ (oldScrolledUp r (advanceBuffer b)).linest ++ post' := by
    have hlinest : (oldScrolledUp r (advanceBuffer b)).linest =
        b.linest.tail ++ [(advanceBuffer (b.textSide.granted g)).next
          (advanceBuffer (b.textSide.granted g)).lastRow] := by
      rw [← hup.linest, hrows.linest, hlin, hsame.linest]
      rfl
    rw [hlinest]
    exact List.mem_append_left _ (List.mem_append_right _ (List.mem_append_left _ hrow))
  apply attrs_apart hattrs hfin.strand hin _ ha
  · intro he
    rcases hext.kind with hk | hk
    · exact (h.apart a ha).not_before (hk ▸ he)
    · rw [hk] at he
      cases he
  · intro hmem
    have hlist : b.row 1 ∈ pre ++ b.linest ++ post :=
      List.mem_append_left _ (List.mem_append_right _ (List.mem_of_mem_tail hrow))
    exact (h.apart _ hmem).not_mem hlist

/-- The rows of the old scrollback after a scroll of a region that ends above the last
row. -/
theorem oldTurned_linest (h : OldThreaded b e pre post) (hanch : Anchored b e pre)
    (hold : b.oldScrollback = true) (r : VSregion) {bottom : ℕ} (hlt : (bottom : Int) < b.lines) :
    (oldTurned (oldScrolledUp r (advanceBuffer b)) bottom).linest =
      exchangeRows bottom b.lines.toNat (b.lines+1).toNat
        (oldScrolledUp r (advanceBuffer b)).linest := by
  obtain ⟨e', pre', post', hth, hattrs, hapart⟩ := h.scrolledUp hanch hold (by omega) r
  have hlines : (oldScrolledUp r (advanceBuffer b)).lines = b.lines := by
    rw [oldScrolledUp_lines, (advanceBuffer_extent b).lines]
  have hring := oldScrolledUp_attrst r (advanceBuffer b)
  rw [← oldScrolledUp_links r, (advanceBuffer_extent b).lines, VSbuf.attrRow, advanceBuffer_attrst]
    at hring
  generalize oldScrolledUp r (advanceBuffer b) = b₂ at hth hattrs hapart hlines hring ⊢
  have hwalk (k : ℕ) : b₂.mem.links.next^[k] (b.attrRow 1) ∈ b.attrst := by
    induction k with
    | zero => exact h.attrRow_mem (by omega) (by omega)
    | succ k ih =>
      rw [Function.iterate_succ_apply']
      exact hattrs.next_mem ih
  have hmem (i : Int) (hi : 0 ≤ i) (hi' : i ≤ b₂.lines) : b₂.attrRow i ∈ b.attrst := by
    have hlt : i.toNat < b₂.attrst.length := by
      rw [hring, List.length_iterate]
      omega
    have hin : b₂.attrRow i ∈ b₂.attrst := by
      rw [VSbuf.attrRow, List.getD_eq_getElem _ _ hlt]
      exact List.getElem_mem hlt
    rw [hring] at hin
    obtain ⟨k, -, hk⟩ := List.mem_iterate.mp hin
    rw [hk]
    exact hwalk k
  have hturned : Strand NULL (rotateBelow b₂ bottom).mem.links none b.attrst := by
    apply hattrs.congr
    intro a ha
    exact rotateBelow_apart hth (Int.natCast_nonneg bottom) (by omega) (hapart a ha)
  have hrows := turned_linest hth (by omega : (bottom : Int) < b₂.lines)
  rw [hlines] at hrows
  rw [← hrows]
  have hsize := (rotateBelow_frame b₂ bottom).1.lines
  have hrow (i : Int) : (rotateBelow b₂ bottom).attrRow i = b₂.attrRow i := by
    rw [VSbuf.attrRow, VSbuf.attrRow, rotateBelow_attrst]
  apply iterate_congr
  intro a ha
  have hin : a ∈ b₂.linest := by
    have hperm := exchangeRows_perm b₂.linest (i := bottom) (j := b.lines.toNat)
      (k := (b.lines+1).toNat) (by omega) (by omega)
    rw [← hperm.mem_iff, ← hrows]
    exact ha
  have hprev (q : Ptr) (hq : q ∈ b.attrst) : (rotateBelow b₂ bottom).prev q ∈ b.attrst :=
    (prev_inside hturned hq).resolve_right nofun
  apply rotateAttrs_apart (A := (· ∈ b.attrst)) hprev
  · rw [hrow, hsize]
    exact hmem b₂.lines (by omega) le_rfl
  · rw [hrow]
    exact hmem bottom (by omega) (by omega)
  · intro hq
    exact (hapart a hq).not_mem (List.mem_append_left _ (List.mem_append_right _ hin))

end Scroll

end VS
