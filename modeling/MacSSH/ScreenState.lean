import MacSSH.ScrollbackRuns

/-! The screen with its cursor and margins, and what a resize does to all of it. -/
namespace VS

open Linked

/-- The fields of a screen that the routines here use. -/
@[ext]
structure VSscrn where
  buf : VSbuf
  vtemulation : VTEmulation
  maxwidth : Int
  x : Int
  y : Int
  top : Int
  bottom : Int
  attrib : BitVec 32
  lattrib : BitVec 16
  DECCM : Bool
  disableCursor : Bool

/-- Make new rows, with their attribute lines, the screen, and show it blank from
the top. -/
def showOldScreen (b : VSbuf) (new attrs : Ptr) : VSbuf :=
  let b := VSOlistndx { b with scrntop := new, vistop := new } new attrs
  let b := (b.setPrev (b.attrRow 0) (b.attrRow b.lines)).setNext (b.attrRow b.lines) (b.attrRow 0)
  let b := if b.savelines then b
    else (b.setNext b.lastRow (b.row 0)).setPrev (b.row 0) b.lastRow
  let b := blankRows b true
  { b with Rtop := 0, Rbottom := b.lines }

/-- Lines and attribute lines for rows of the old scrollback. -/
def oldRows (m : LineMem) (nlines : Int) : Ptr × Ptr × LineMem :=
  let text := VSOnewlines m nlines
  let attrs := VSOnewlines text.2 nlines
  (text.1, attrs.1, attrs.2)

/-- Memory is short: the scrollback and the old rows are given up for the new
rows, or for as many rows as before. -/
def emergencyOldScreen (b : VSbuf) (lines oldlines : Int) : Int × VSbuf :=
  let (new, attrs, m) := oldRows b.mem (lines+1)
  let b := { b with mem := m }
  if new ≠ NULL ∧ attrs ≠ NULL then
    (lines, showOldScreen { b with lines := lines, buftop := new, numlines := 0 } new attrs)
  else
    let (new, attrs, m) := oldRows b.mem (oldlines+1)
    let b := { b with mem := m }
    if new ≠ NULL ∧ attrs ≠ NULL then
      (oldlines,
        showOldScreen { b with lines := oldlines, buftop := new, numlines := 0 } new attrs)
    else (-4000, { b with lines := lines, linest := [new], attrst := [attrs] })

/-- Give a screen with the old scrollback new rows, the last of which has index
`lines`. -/
def resizeOldRows (b : VSbuf) (lines : Int) : Int × VSbuf :=
  let old := b.lastRow
  let oldlines := b.lines
  let (new, attrs, m) := oldRows b.mem (short (lines+1))
  let b := { b with mem := m }
  if new ≠ NULL ∧ attrs ≠ NULL then
    let b := VSOlistndx { b with lines := lines } new attrs
    let b := if b.savelines then pushScreen b old oldlines new else b
    (lines, showOldScreen b new attrs)
  else emergencyOldScreen b lines oldlines

namespace VSscrn

def VSIcursorenabled (s : VSscrn) : Bool := s.DECCM && !s.disableCursor

/-- What a resize does first: the cursor goes home, is brought into view when it is
shown, and the view starts with the screen. -/
def goHome (s : VSscrn) : VSscrn :=
  { s with x := 0, y := 0, buf := homeView s.buf s.VSIcursorenabled s.maxwidth }

/-- The end of a resize: new rows have the whole screen as scrolling region. -/
def resized (s : VSscrn) (r : Int × VSbuf) : Int × VSscrn :=
  if r.1 = -4000 then (r.1, { s with buf := r.2 })
  else (r.1, { s with buf := r.2, top := 0, bottom := r.2.lines })

/-- Change the number of rows of a screen with the old scrollback. -/
def VSOsetlines (s : VSscrn) (nlines : Int) : Int × VSscrn :=
  let lines := short (nlines-1)
  if lines = s.buf.lines then (0, s)
  else
    let s := s.goHome
    let linest := VSInewlinearray s.buf.mem (short (lines+1))
    if linest.1 then
      let attrst := VSInewlinearray linest.2 (short (lines+1))
      if attrst.1 then s.resized (resizeOldRows { s.buf with mem := attrst.2 } lines)
      else (-2000, { s with buf.mem := attrst.2 })
    else (-2000, { s with buf.mem := linest.2 })

/-- Change the number of rows of a screen. -/
def VSsetlines (s : VSscrn) (nlines : Int) : Int × VSscrn :=
  if s.buf.oldScrollback then s.VSOsetlines nlines
  else
    let lines := short (nlines-1)
    if lines = s.buf.lines then (0, s)
    else
      let s := s.goHome
      let linest := VSInewlinearray s.buf.mem (short (lines+1))
      if linest.1 then s.resized (resizeRows { s.buf with mem := linest.2 } lines)
      else (-2000, { s with buf.mem := linest.2 })

/-- The screen is as it was. What the memory manager will answer is not part of
the screen. -/
def Same (s s' : VSscrn) : Prop := { s' with buf.mem.grants := s.buf.mem.grants } = s

end VSscrn

/-- Bringing the home position into view does not move the view: it is visible; or
the window is smaller than the screen and the view is at or below the top, ends left of
the screen, or cannot go down; or the window is as large as the screen, no column is
shifted, and the view ends with the screen, or below it with nothing above to show. -/
def HomeStays (b : VSbuf) (maxwidth : Int) : Prop :=
  (VSIclip b 0 0 0 0 1).isSome ∨
    (b.Rbottom-b.Rtop < b.lines ∧ (0 ≤ b.Rtop ∨ b.Rright < 0 ∨ b.lines ≤ b.Rbottom)) ∨
    (b.lines ≤ b.Rbottom-b.Rtop ∧ (b.Rright ≤ maxwidth ∨ b.Rleft = 0) ∧
      (b.Rbottom = b.lines ∨ (b.lines < b.Rbottom ∧ b.numlines+b.Rtop ≤ 0)))

/-- The sizes and the view of a screen are counted in shorts. -/
structure Sized (s : VSscrn) : Prop where
  lines : 0 ≤ s.buf.lines ∧ s.buf.lines ≤ 32767
  numlines : 0 ≤ s.buf.numlines ∧ s.buf.numlines ≤ 32767
  maxwidth : 0 ≤ s.maxwidth ∧ s.maxwidth ≤ 32767
  Rtop : -32768 < s.buf.Rtop ∧ s.buf.Rtop ≤ 32767
  Rbottom : -32768 ≤ s.buf.Rbottom ∧ s.buf.Rbottom ≤ 32767
  height : -32768 ≤ s.buf.Rbottom-s.buf.Rtop ∧ s.buf.Rbottom-s.buf.Rtop ≤ 32767
  Rleft : -32768 ≤ s.buf.Rleft ∧ s.buf.Rleft ≤ 32767
  Rright : -32768 ≤ s.buf.Rright ∧ s.buf.Rright ≤ 32767

/-- Nothing is changed by what a resize does before it asks for memory: the cursor is
home, the view starts with the screen, and a cursor that is shown does not move it. -/
structure AtHome (s : VSscrn) : Prop where
  x : s.x = 0
  y : s.y = 0
  vistop : s.buf.vistop = s.buf.scrntop
  stays : s.VSIcursorenabled → HomeStays s.buf s.maxwidth

section View
variable {b b' : VSbuf} {n : Int}

/-- Two screens differ at most in the view. -/
def MovedView (b b' : VSbuf) : Prop :=
  ∃ top bottom left right vistop, b' = { b with
    Rtop := top, Rbottom := bottom, Rleft := left, Rright := right, vistop := vistop }

/-- The view has the same rows and columns. -/
def SameRegion (b b' : VSbuf) : Prop :=
  b'.Rtop = b.Rtop ∧ b'.Rbottom = b.Rbottom ∧ b'.Rleft = b.Rleft ∧ b'.Rright = b.Rright

theorem MovedView.trans {b'' : VSbuf} (h : MovedView b b') (h' : MovedView b' b'') :
    MovedView b b'' := by
  obtain ⟨top, bottom, left, right, vistop, rfl⟩ := h
  obtain ⟨top', bottom', left', right', vistop', rfl⟩ := h'
  exact ⟨top', bottom', left', right', vistop', rfl⟩

theorem VSscrolback_moved (b : VSbuf) (n : Int) : MovedView b (VSscrolback b n) := by
  simp only [VSscrolback]
  split_ifs <;> exact ⟨_, _, _, _, _, rfl⟩

theorem VSscrolforward_moved (b : VSbuf) (n : Int) : MovedView b (VSscrolforward b n) := by
  simp only [VSscrolforward]
  split_ifs <;> exact ⟨_, _, _, _, _, rfl⟩

theorem VSsetrgn_moved (b : VSbuf) (maxwidth x1 y1 x2 y2 : Int) :
    MovedView b (VSsetrgn b maxwidth x1 y1 x2 y2) := by
  have hscroll (b₁ : VSbuf) (n : Int) (h : MovedView b b₁) :
      MovedView b (if n > 0 then VSscrolback b₁ n
        else if n < 0 then VSscrolforward b₁ (short (-n)) else b₁) := by
    split_ifs
    · exact h.trans (VSscrolback_moved b₁ n)
    · exact h.trans (VSscrolforward_moved b₁ _)
    · exact h
  exact hscroll _ _ ⟨_, _, _, _, _, rfl⟩

theorem VSIcursonMoving_moved (b : VSbuf) (maxwidth x y : Int) :
    MovedView b (VSIcursonMoving b maxwidth x y) := by
  simp only [VSIcursonMoving]
  split_ifs
  · exact ⟨_, _, _, _, _, rfl⟩
  · exact VSsetrgn_moved b _ _ _ _ _
  · exact VSscrolforward_moved b _
  · exact VSscrolback_moved b _

theorem MovedView.eq_iff (h : MovedView b b') (v : Ptr) :
    { b' with vistop := v } = b ↔ SameRegion b b' ∧ b.vistop = v := by
  obtain ⟨top, bottom, left, right, vistop, rfl⟩ := h
  constructor
  · intro heq
    rw [← heq]
    exact ⟨⟨rfl, rfl, rfl, rfl⟩, rfl⟩
  · rintro ⟨⟨rfl, rfl, rfl, rfl⟩, rfl⟩
    rfl

/-- The view stays where it is asked for no line, or has nothing above it. -/
theorem VSscrolback_same (hn : n ≤ 32767) (hnum : 0 ≤ b.numlines)
    (htop : -32768 < b.Rtop ∧ b.Rtop ≤ 32767) :
    SameRegion b (VSscrolback b n) ↔ n ≤ 0 ∨ b.numlines+b.Rtop ≤ 0 := by
  have hshort : b.numlines < n-b.Rtop → short (b.Rtop+b.numlines) = b.Rtop+b.numlines :=
    fun h => short_eq (by omega) (by omega)
  have hmove (k : Int) (hk : 0 < k) (hk' : k ≤ 32767) : short (b.Rtop-k) ≠ b.Rtop := by
    rw [short, Int.bmod_def]
    split_ifs <;> omega
  simp only [VSscrolback]
  split_ifs with hclip hle hle
  · rw [hshort hclip] at hle
    exact iff_of_true ⟨rfl, rfl, rfl, rfl⟩ (Or.inr (by omega))
  · rw [hshort hclip] at hle ⊢
    exact iff_of_false (fun h => hmove _ (by omega) (by omega) h.1) (by omega)
  · exact iff_of_true ⟨rfl, rfl, rfl, rfl⟩ (Or.inl hle)
  · exact iff_of_false (fun h => hmove _ (by omega) hn h.1) (by omega)

/-- The view stays where it is asked for no line, or ends with the screen. -/
theorem VSscrolforward_same (hn : n ≤ 32767) (hlines : 0 ≤ b.lines)
    (hbottom : b.Rbottom ≤ 32767) :
    SameRegion b (VSscrolforward b n) ↔ n ≤ 0 ∨ b.lines ≤ b.Rbottom := by
  have hshort : n > b.lines-b.Rbottom → short (b.lines-b.Rbottom) = b.lines-b.Rbottom :=
    fun h => short_eq (by omega) (by omega)
  have hmove (k : Int) (hk : 0 < k) (hk' : k ≤ 32767) : short (k+b.Rtop) ≠ b.Rtop := by
    rw [short, Int.bmod_def]
    split_ifs <;> omega
  simp only [VSscrolforward]
  split_ifs with hclip hle hle
  · rw [hshort hclip] at hle
    exact iff_of_true ⟨rfl, rfl, rfl, rfl⟩ (Or.inr (by omega))
  · rw [hshort hclip] at hle ⊢
    exact iff_of_false (fun h => hmove _ (by omega) (by omega) h.1) (by omega)
  · exact iff_of_true ⟨rfl, rfl, rfl, rfl⟩ (Or.inl hle)
  · exact iff_of_false (fun h => hmove _ (by omega) hn h.1) (by omega)

end View

section Home
variable {s : VSscrn}

theorem columnShift_eq_zero (h : Sized s) :
    columnShift s.maxwidth s.buf.Rleft s.buf.Rright = 0 ↔
      s.buf.Rright ≤ s.maxwidth ∨ s.buf.Rleft = 0 := by
  obtain ⟨hw, -⟩ := h.maxwidth
  obtain ⟨hr, hr'⟩ := h.Rright
  simp only [columnShift]
  split_ifs with hwide hn
  · rw [short_eq (by omega) (by omega)] at hn
    omega
  · rw [short_eq (by omega) (by omega)] at hn ⊢
    omega
  · omega

theorem columnShift_moves (h : Sized s)
    (hne : columnShift s.maxwidth s.buf.Rleft s.buf.Rright ≠ 0) :
    short (s.buf.Rleft-columnShift s.maxwidth s.buf.Rleft s.buf.Rright) ≠ s.buf.Rleft := by
  obtain ⟨hw, -⟩ := h.maxwidth
  obtain ⟨hr, hr'⟩ := h.Rright
  obtain ⟨hl, hl'⟩ := h.Rleft
  revert hne
  simp only [columnShift]
  split_ifs with hwide hn
  · intro hne heq
    rw [Int.sub_self, short_eq (by omega) (by omega)] at heq
    exact hne heq.symm
  · intro hne heq
    rw [short_eq (i := s.buf.Rright-s.maxwidth) (by omega) (by omega)] at hne heq hn
    rw [short_eq (by omega) (by omega)] at heq
    omega
  · exact fun hne => absurd rfl hne

theorem VSsetrgn_Rleft (b : VSbuf) (maxwidth x1 y1 x2 y2 : Int) :
    (VSsetrgn b maxwidth x1 y1 x2 y2).Rleft = short (x1-columnShift maxwidth x1 x2) := by
  have hscroll (b₁ : VSbuf) (n : Int) : (if n > 0 then VSscrolback b₁ n
      else if n < 0 then VSscrolforward b₁ (short (-n)) else b₁).Rleft = b₁.Rleft := by
    simp only [VSscrolback, VSscrolforward]
    split_ifs <;> rfl
  exact hscroll _ _

/-- In a window that is as large as the screen. -/
theorem VSsetrgn_home (h : Sized s) (htall : s.buf.lines ≤ s.buf.Rbottom-s.buf.Rtop) :
    SameRegion s.buf (VSsetrgn s.buf s.maxwidth s.buf.Rleft
        (s.buf.lines-(s.buf.Rbottom-s.buf.Rtop)) s.buf.Rright s.buf.lines) ↔
      (s.buf.Rright ≤ s.maxwidth ∨ s.buf.Rleft = 0) ∧
        (s.buf.Rbottom = s.buf.lines ∨
          (s.buf.lines < s.buf.Rbottom ∧ s.buf.numlines+s.buf.Rtop ≤ 0)) := by
  obtain ⟨hl, hl'⟩ := h.lines
  obtain ⟨hb, hb'⟩ := h.Rbottom
  obtain ⟨ht, ht'⟩ := h.Rtop
  rw [← columnShift_eq_zero h]
  by_cases hshift : columnShift s.maxwidth s.buf.Rleft s.buf.Rright = 0
  · have hbottom : short (s.buf.Rtop+(s.buf.lines-(s.buf.lines-(s.buf.Rbottom-s.buf.Rtop)))) =
        s.buf.Rbottom := by
      rw [short_eq] <;> omega
    have hleft : short (s.buf.Rleft-0) = s.buf.Rleft := by
      rw [Int.sub_zero, short_eq h.Rleft.1 h.Rleft.2]
    have hright : short (s.buf.Rright-0) = s.buf.Rright := by
      rw [Int.sub_zero, short_eq h.Rright.1 h.Rright.2]
    simp only [VSsetrgn, hshift, hbottom, hleft, hright, true_and]
    by_cases hbelow : s.buf.Rbottom > s.buf.lines
    · rw [if_pos hbelow, short_eq (i := s.buf.Rbottom-s.buf.lines) (by omega) (by omega),
        if_pos (by omega)]
      rw [VSscrolback_same (by omega) h.numlines.1 h.Rtop]
      omega
    · rw [if_neg hbelow, short_eq (i := s.buf.Rtop-_) (by omega) (by omega), if_neg (by omega)]
      by_cases hend : s.buf.Rbottom = s.buf.lines
      · rw [if_neg (by omega)]
        exact iff_of_true ⟨rfl, rfl, rfl, rfl⟩ (Or.inl hend)
      · rw [if_pos (by omega), short_eq (i := -(s.buf.Rtop-_)) (by omega) (by omega),
          VSscrolforward_same (by omega) hl hb']
        omega
  · apply iff_of_false
    · intro hsame
      apply columnShift_moves h hshift
      rw [← VSsetrgn_Rleft]
      exact hsame.2.2.1
    · exact fun hc => hshift hc.1

/-- Bringing the home position into view. -/
theorem VSIcursonMoving_home (h : Sized s) :
    SameRegion s.buf (VSIcursonMoving s.buf s.maxwidth 0 0) ↔ HomeStays s.buf s.maxwidth := by
  obtain ⟨hl, hl'⟩ := h.lines
  obtain ⟨hb, hb'⟩ := h.Rbottom
  obtain ⟨ht, ht'⟩ := h.Rtop
  obtain ⟨hh, hh'⟩ := h.height
  simp only [VSIcursonMoving, HomeStays, short_eq hh hh']
  by_cases hvis : (VSIclip s.buf 0 0 0 0 1).isSome = true
  · rw [if_pos hvis]
    exact iff_of_true ⟨rfl, rfl, rfl, rfl⟩ (Or.inl hvis)
  rw [if_neg hvis]
  by_cases htall : s.buf.Rbottom-s.buf.Rtop ≥ s.buf.lines
  · rw [if_pos htall, VSsetrgn_home h htall]
    simp only [hvis, Bool.false_eq_true, false_or]
    constructor
    · exact fun hc => Or.inr ⟨htall, hc⟩
    · rintro (⟨hlow, -⟩ | ⟨-, hc⟩)
      · omega
      · exact hc
  rw [if_neg htall]
  simp only [hvis, Bool.false_eq_true, false_or]
  by_cases hout : 0 > s.buf.Rright ∨ 0 < s.buf.Rtop
  · have hrow : clippedRow s.buf 0 0 = 0 := if_pos hout
    rw [hrow, if_neg (by omega), VSscrolback_same (by omega) h.numlines.1 h.Rtop]
    omega
  · have hrow : clippedRow s.buf 0 0 = -s.buf.Rtop := by
      simp only [clippedRow, if_neg hout]
      rw [short_eq (by omega) (by omega), if_neg (by omega)]
      omega
    rw [hrow]
    by_cases htop : -s.buf.Rtop > 0
    · rw [if_pos htop, VSscrolforward_same (by omega) hl hb']
      omega
    · rw [if_neg htop, VSscrolback_same (by omega) h.numlines.1 h.Rtop]
      omega

/-- What a resize does before it asks for memory changes nothing. -/
theorem goHome_same (h : Sized s) : s.goHome = s ↔ AtHome s := by
  have hbuf : s.goHome.buf = s.buf ↔
      (s.VSIcursorenabled → HomeStays s.buf s.maxwidth) ∧ s.buf.vistop = s.buf.scrntop := by
    simp only [VSscrn.goHome, homeView]
    cases s.VSIcursorenabled with
    | false =>
      rw [if_neg Bool.false_ne_true]
      rw [(MovedView.eq_iff ⟨_, _, _, _, _, rfl⟩ _)]
      simp [SameRegion]
    | true =>
      rw [if_pos rfl]
      have hmoved := VSIcursonMoving_moved s.buf s.maxwidth 0 0
      have hscrn : (VSIcursonMoving s.buf s.maxwidth 0 0).scrntop = s.buf.scrntop := by
        obtain ⟨_, _, _, _, _, heq⟩ := hmoved
        rw [heq]
      rw [hmoved.eq_iff, hscrn, VSIcursonMoving_home h]
      simp
  constructor
  · intro heq
    obtain ⟨hstays, hvis⟩ := hbuf.mp (congrArg VSscrn.buf heq)
    exact ⟨(congrArg VSscrn.x heq).symm, (congrArg VSscrn.y heq).symm, hvis, hstays⟩
  · rintro ⟨hx, hy, hvis, hstays⟩
    have hb := hbuf.mpr ⟨hstays, hvis⟩
    calc s.goHome = { s with x := 0, y := 0, buf := s.goHome.buf } := rfl
      _ = { s with x := 0, y := 0 } := by rw [hb]
      _ = s := VSscrn.ext rfl rfl rfl hx.symm hy.symm rfl rfl rfl rfl rfl rfl

/-- Giving the screen new rows never ends with the code of a refused array. -/
theorem resizeRows_code {b : VSbuf} {lines : Int} (hb : 0 ≤ b.lines) (hl : -1 ≤ lines) :
    (resizeRows b lines).1 ≠ -2000 := by
  simp only [resizeRows, emergencyScreen]
  split_ifs <;> simp only <;> omega

theorem resizeOldRows_code {b : VSbuf} {lines : Int} (hb : 0 ≤ b.lines) (hl : -1 ≤ lines) :
    (resizeOldRows b lines).1 ≠ -2000 := by
  simp only [resizeOldRows, emergencyOldScreen]
  split_ifs <;> simp only <;> omega

theorem resized_code (s : VSscrn) (r : Int × VSbuf) : (s.resized r).1 = r.1 := by
  simp only [VSscrn.resized]
  split_ifs <;> rfl

/-- An array that is granted has at least one row, or none. -/
theorem VSInewlinearray_granted {m : LineMem} {lines : Int}
    (h : (VSInewlinearray m (short (short lines+1))).1 = true) : -1 ≤ short lines := by
  obtain ⟨hlo, hhi⟩ := short_range lines
  by_contra hneg
  rw [short_eq (i := short lines+1) (by omega) (by omega), VSInewlinearray,
    if_pos (by omega)] at h
  exact Bool.false_ne_true h

theorem VSInewlinearray_mem (m : LineMem) (n : Int) :
    ∃ g, (VSInewlinearray m n).2 = { m with grants := g } := by
  rw [VSInewlinearray]
  split_ifs
  · exact ⟨m.grants, rfl⟩
  · exact ⟨m.grants.tail, rfl⟩

theorem goHome_lines (s : VSscrn) : s.goHome.buf.lines = s.buf.lines :=
  (homeView_viewOnly s.buf s.VSIcursorenabled s.maxwidth).lines

/-- A resize that fails for want of an array has done what it does before, and asked
the memory manager. -/
def Refused (s s' : VSscrn) : Prop := ∃ g, s' = { s.goHome with buf.mem.grants := g }

theorem VSOsetlines_refused (hl : 0 ≤ s.buf.lines) {nlines : Int}
    (hfail : (s.VSOsetlines nlines).1 = -2000) : Refused s (s.VSOsetlines nlines).2 := by
  have hlines := (goHome_lines s).symm ▸ hl
  simp only [VSscrn.VSOsetlines] at hfail ⊢
  split_ifs at hfail ⊢ with hsame htext hattr
  · rw [resized_code] at hfail
    exact absurd hfail (resizeOldRows_code hlines (VSInewlinearray_granted htext))
  · obtain ⟨g, hg⟩ := VSInewlinearray_mem s.goHome.buf.mem (short (short (nlines-1)+1))
    rw [hg] at hattr ⊢
    obtain ⟨g', hg'⟩ := VSInewlinearray_mem { s.goHome.buf.mem with grants := g }
      (short (short (nlines-1)+1))
    exact ⟨g', by rw [hg']⟩
  · obtain ⟨g, hg⟩ := VSInewlinearray_mem s.goHome.buf.mem (short (short (nlines-1)+1))
    exact ⟨g, by rw [hg]⟩

theorem VSsetlines_refused (hl : 0 ≤ s.buf.lines) {nlines : Int}
    (hfail : (s.VSsetlines nlines).1 = -2000) : Refused s (s.VSsetlines nlines).2 := by
  have hlines := (goHome_lines s).symm ▸ hl
  simp only [VSscrn.VSsetlines] at hfail ⊢
  split_ifs at hfail ⊢ with hold hsame htext
  · exact VSOsetlines_refused hl hfail
  · rw [resized_code] at hfail
    exact absurd hfail (resizeRows_code hlines (VSInewlinearray_granted htext))
  · obtain ⟨g, hg⟩ := VSInewlinearray_mem s.goHome.buf.mem (short (short (nlines-1)+1))
    exact ⟨g, by rw [hg]⟩

theorem Refused.same_iff {s' : VSscrn} (hr : Refused s s') (h : Sized s) :
    s.Same s' ↔ AtHome s := by
  obtain ⟨g, rfl⟩ := hr
  rw [← goHome_same h, VSscrn.Same]
  have hmem : s.goHome.buf.mem = s.buf.mem :=
    (homeView_viewOnly s.buf s.VSIcursorenabled s.maxwidth).mem
  have hgrants : s.goHome.buf.mem.grants = s.buf.mem.grants := congrArg LineMem.grants hmem
  simp only [← hgrants]

/-- A resize that fails because the arrays of the new rows are refused leaves the
whole screen as it was exactly when the cursor is home, the view starts with the
screen, and the cursor does not move the view. -/
theorem failed_resize_keeps_screen_iff (s : VSscrn) (nlines : Int) (h : Sized s) :
    ((s.VSsetlines nlines).1 = -2000 → (s.Same (s.VSsetlines nlines).2 ↔ AtHome s)) ∧
      ((s.VSOsetlines nlines).1 = -2000 → (s.Same (s.VSOsetlines nlines).2 ↔ AtHome s)) :=
  ⟨fun hfail => (VSsetlines_refused h.lines.1 hfail).same_iff h,
    fun hfail => (VSOsetlines_refused h.lines.1 hfail).same_iff h⟩

end Home

/-- A new screen of three rows when there is no memory for more, with the cursor in
column `x` of the first row. -/
def threeRowsFull (x : Int) : VSscrn where
  buf := { threeRows with mem.grants := [] }
  vtemulation := .vt100
  maxwidth := 79
  x := x
  y := 0
  top := 0
  bottom := 2
  attrib := 0
  lattrib := 0
  DECCM := true
  disableCursor := false

theorem threeRowsFull_sized : Sized (threeRowsFull 0) := by
  constructor <;> decide

theorem failed_resize_keeps_home_screen :
    (threeRowsFull 0).Same ((threeRowsFull 0).VSsetlines 5).2 :=
  ((failed_resize_keeps_screen_iff (threeRowsFull 0) 5 threeRowsFull_sized).1
    (by decide)).mpr ⟨rfl, rfl, by decide, fun _ => Or.inl (by decide)⟩

/-- A failed resize moves the cursor home. -/
theorem failed_resize_moves_cursor :
    ((threeRowsFull 4).VSsetlines 5).1 = -2000 ∧
      ¬(threeRowsFull 4).Same ((threeRowsFull 4).VSsetlines 5).2 := by
  refine ⟨by decide, fun hsame => ?_⟩
  have hx : ((threeRowsFull 4).VSsetlines 5).2.x = 4 := congrArg VSscrn.x hsame
  exact absurd hx (by decide)

end VS
