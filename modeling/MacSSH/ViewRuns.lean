import MacSSH.ScreenViewed

/-! The view over whole runs of a screen: new screens, erasing, resizing with and
without memory, and the invariant of every state reached. -/
namespace VS

open Linked

section Erase
variable {b : VSbuf} {r : VSregion}

theorem VSIelo_other (r : VSregion) (b : VSbuf) (s : Int) : SameView b (VSIelo r b s) where
  linest := rfl
  scrntop := rfl
  lines := rfl
  maxlines := rfl
  savelines := rfl
  oldScrollback := rfl
  buftop := rfl
  numlines := rfl
  links := rfl
  brk := rfl
  vistop := rfl
  Rtop := rfl
  Rbottom := rfl

/-- Erasing rows keeps the list and the view. -/
theorem followed_erase (hf : Followed b) (is : List ℕ) :
    Followed (is.foldl (fun b (i : ℕ) => VSIelo r b i) b) := by
  induction is generalizing b with
  | nil => exact hf
  | cons i is ih => exact ih (followed_other hf (VSIelo_other r b i))

/-- The view is brought back to the whole screen. -/
theorem followed_home (hf : Followed b) :
    Followed { b with vistop := b.scrntop, Rtop := 0, Rbottom := b.lines } := by
  obtain ⟨e, pre, post, he, hth, ht, -⟩ := hf.list
  let b' : VSbuf := { b with vistop := b.scrntop, Rtop := 0, Rbottom := b.lines }
  have hrows : SameRows b b' := ⟨rfl, rfl, rfl, rfl, rfl, rfl⟩
  have hth' : Threaded b' e pre post := hth.of_links hrows rfl rfl
  have ht' : Tally b' e pre := ht.of_rows hrows ⟨rfl, rfl⟩
  have hlt := hf.lines_lt
  exact ⟨⟨e, pre, post, he, hth', ht', Viewed.of_top hth' ht' rfl rfl hth.lines_nonneg hlt.le⟩,
    hf.linked, hlt⟩

theorem followed_es {ESscroll : Bool} (hf : Followed b)
    (hP : ESscroll = true → ScroffInStep r b) : Followed (VSIes r ESscroll b) := by
  simp only [VSIes]
  apply followed_home
  apply followed_erase
  split_ifs with hs
  · exact followed_scroff hf (hP hs)
  · exact hf

end Erase

section Rows
variable {b : VSbuf}

/-- The rows, when they are the whole list, are closed into a ring. -/
theorem closeRows_threaded {p : Ptr} (h : Threaded b (some p) [] []) :
    Threaded ((b.setNext b.lastRow (b.row 0)).setPrev (b.row 0) b.lastRow) none [] [] := by
  let b' : VSbuf := { b with buftop := b.row 0 }
  have h' : Threaded b' (some p) [] [] := h.of_links ⟨rfl, rfl, rfl, rfl, rfl, rfl⟩ rfl rfl
  have hring := makeCircular_threaded h' (row_zero b)
  rw [List.nil_append, List.append_nil, ← h'.lastRow_eq] at hring
  exact hring.of_links ⟨rfl, rfl, rfl, rfl, rfl, rfl⟩ rfl rfl

/-- What a screen of fresh rows is made of: an open list, or a ring when no lines
are saved. -/
structure FreshRows (b : VSbuf) : Prop where
  list : ∃ post, Threaded b (if b.savelines then some NULL else none) [] post
  buftop : b.savelines = true → b.buftop = b.linest.headD NULL
  numlines : b.numlines = 0
  vistop : b.vistop = b.scrntop
  Rtop : b.Rtop = 0
  Rbottom : b.Rbottom = b.lines

theorem FreshRows.followed (h : FreshRows b) (hold : b.oldScrollback = false)
    (hlt : b.lines < 32767) : Followed b := by
  obtain ⟨⟨post, hth⟩, hbuf, hnum, hvis, htop, hbot⟩ := h
  have h0 := hth.lines_nonneg
  have ht : Tally b (if b.savelines then some NULL else none) [] := by
    constructor
    · omega
    · omega
    · simp only [List.length_nil]
      omega
    · intro hs
      rw [hbuf hs, List.nil_append]
      exact headD_mem NULL hth.linest_ne_nil
    · intro hs he
      rw [if_pos hs] at he
      exact absurd he (Option.some_ne_none NULL)
    · intro hs
      refine ⟨hnum, if_neg ?_⟩
      rw [hs]
      exact Bool.false_ne_true
  refine ⟨⟨_, [], post, ?_, hth, ht, ?_⟩, hold, hlt⟩
  · split_ifs
    · exact Or.inl rfl
    · exact Or.inr rfl
  · exact Viewed.of_top hth ht hvis htop (by omega) (by omega)

/-- New rows that are all there is of the list. -/
theorem showScreen_freshRows {new : Ptr} (hnew : 0 < new) (h0 : 0 ≤ b.lines)
    (hs : Strand NULL b.mem.links (some NULL) (List.range' new (b.lines+1).toNat))
    (hbrk : b.mem.brk = new+(b.lines+1).toNat) (hbuf : b.savelines = true → b.buftop = new)
    (hnum : b.numlines = 0) : FreshRows (showScreen b new) := by
  let b₀ : VSbuf := { b with vistop := new }
  have hlen : b.lines+1 ≤ ((b.lines+1).toNat : Int) := by omega
  have hs₀ : Strand NULL b₀.mem.links (some NULL) (List.range' new (b₀.lines+1).toNat) := hs
  obtain ⟨hlin, hth⟩ := fresh_threaded (b := b₀) hnew h0 hlen hs₀ hbrk
  rw [Nat.sub_self, List.range'_zero] at hth
  let b₁ := VSIlistndx { b₀ with scrntop := new } new
  have hlin₁ : b₁.linest = List.range' new (b.lines+1).toNat := hlin
  have hth₁ : Threaded b₁ (some NULL) [] [] := hth
  cases hsave : b.savelines with
  | true =>
    rw [showScreen_eq hsave]
    have hth' := blankRows_threaded hth₁ false
    refine ⟨⟨[], ?_⟩, ?_, hnum, rfl, rfl, rfl⟩
    · have hif : (if b.savelines then some NULL else none) = some NULL := if_pos hsave
      change Threaded _ (if b.savelines then some NULL else none) [] []
      rw [hif]
      exact hth'.of_links ⟨rfl, rfl, rfl, rfl, rfl, rfl⟩ rfl rfl
    · intro _
      change b.buftop = b₁.linest.headD NULL
      rw [hlin₁, headD_range' (by omega), hbuf hsave]
  | false =>
    have hne : ¬b.savelines = true := by
      rw [hsave]
      exact Bool.false_ne_true
    have hring := closeRows_threaded hth₁
    have heq : showScreen b new =
        { blankRows ((b₁.setNext b₁.lastRow (b₁.row 0)).setPrev (b₁.row 0) b₁.lastRow) false with
          Rtop := 0, Rbottom := b.lines } := by
      have hs₁ : ¬(VSIlistndx { b with scrntop := new, vistop := new } new).savelines = true := hne
      rw [showScreen]
      simp only [if_neg hs₁]
      rfl
    rw [heq]
    have hth' := blankRows_threaded hring false
    refine ⟨⟨[], ?_⟩, ?_, hnum, rfl, rfl, rfl⟩
    · change Threaded _ (if b.savelines then some NULL else none) [] []
      rw [if_neg hne]
      exact hth'.of_links ⟨rfl, rfl, rfl, rfl, rfl, rfl⟩ rfl rfl
    · exact fun hc => absurd hc hne

/-- A new screen, whether it saves its lines or not. -/
theorem VSnewscreen_followed {m : LineMem} {maxlines numLines maxwid : Int} {screensave : Bool}
    (hnew : VSnewscreen m maxlines screensave numLines maxwid = some b) (hm : 0 < m.brk)
    (h1 : 1 ≤ numLines) (h2 : numLines+VSDEFLINES ≤ 32767) : Followed b := by
  have hdef : VSDEFLINES = 48 := rfl
  have hlines : short (numLines-1) = numLines-1 := short_eq (by omega) (by omega)
  obtain ⟨k, hk, hn⟩ : ∃ k : Int, numLines ≤ k ∧
      (if screensave then short (numLines-1+1+VSDEFLINES) else short (numLines-1+1)) = k := by
    refine ⟨_, ?_, rfl⟩
    split_ifs
    · rw [short_eq] <;> omega
    · rw [short_eq] <;> omega
  rw [VSnewscreen, hlines] at hnew
  simp only [hn] at hnew
  have hbrk := grantAll_brk m 3
  generalize m.grantAll 3 = g at hnew hbrk
  generalize (if maxlines < VSDEFLINES then VSDEFLINES else maxlines) = mx at hnew
  obtain ⟨ok, m₁⟩ := g
  simp only at hnew hbrk
  by_cases hok : ok = true
  swap
  · rw [if_neg hok] at hnew
    exact absurd hnew.symm (Option.some_ne_none b)
  rw [if_pos hok] at hnew
  by_cases hnull : (VSInewlines m₁ k).1 = NULL
  · rw [if_pos hnull] at hnew
    exact absurd hnew.symm (Option.some_ne_none b)
  rw [if_neg hnull] at hnew
  obtain ⟨hptr, hbrk', hstr⟩ := VSInewlines_ok hnull (hbrk ▸ hm)
  generalize VSInewlines m₁ k = v at hnew hptr hbrk' hstr
  rw [hbrk] at hptr hbrk' hstr
  let b₀ : VSbuf :=
    { mem := v.2, scrntop := v.1, buftop := v.1, vistop := v.1, linest := [v.1], attrst := [],
      lines := numLines-1, maxlines := mx, numlines := 0, allwidth := 255,
      savelines := screensave, oldScrollback := false, Rtop := 0, Rbottom := numLines-1, Rleft := 0,
      Rright := short (maxwid-1) }
  have hnew' := Option.some.inj hnew
  have hl₀ : b₀.lines = numLines-1 := rfl
  have hs₀ : Strand NULL b₀.mem.links (some NULL) (List.range' v.1 k.toNat) := by
    rw [hptr]
    exact hstr
  have hbrk₀ : b₀.mem.brk = v.1+k.toNat := by
    rw [hptr]
    exact hbrk'
  obtain ⟨hlin, hth⟩ := fresh_threaded (hptr ▸ hm) (by omega) (by omega) hs₀ hbrk₀
  let b₁ : VSbuf := VSIlistndx { b₀ with scrntop := v.1 } v.1
  have hlin₁ : b₁.linest = List.range' v.1 (b₀.lines+1).toNat := hlin
  have hfresh : FreshRows b ∧ b.oldScrollback = false ∧ b.lines = numLines-1 := by
    cases screensave with
    | true =>
      have hb : b = blankRows b₁ true := hnew'.symm
      have hth' := blankRows_threaded hth true
      rw [hb]
      refine ⟨⟨⟨_, hth'⟩, ?_, rfl, rfl, rfl, rfl⟩, rfl, rfl⟩
      intro _
      change v.1 = b₁.linest.headD NULL
      rw [hlin₁, headD_range' (by omega)]
    | false =>
      have hb : b =
          blankRows ((b₁.setPrev (b₁.row 0) b₁.lastRow).setNext b₁.lastRow (b₁.row 0)) true :=
        hnew'.symm
      -- all the lines of the list are rows, and they are closed into a ring
      have hk' : k = numLines := by
        rw [← hn, if_neg Bool.false_ne_true, Int.sub_add_cancel]
        exact short_eq (by omega) (by omega)
      have hnone : k.toNat-(b₀.lines+1).toNat = 0 := by omega
      rw [hnone, List.range'_zero] at hth
      let b₂ : VSbuf := (b₁.setPrev (b₁.row 0) b₁.lastRow).setNext b₁.lastRow (b₁.row 0)
      have hring : Threaded b₂ none [] [] :=
        (closeRows_threaded hth).of_links ⟨rfl, rfl, rfl, rfl, rfl, rfl⟩ rfl rfl
      have hth' := blankRows_threaded hring true
      rw [hb]
      exact ⟨⟨⟨_, hth'⟩, fun hc => absurd hc Bool.false_ne_true, rfl, rfl, rfl, rfl⟩, rfl, rfl⟩
  obtain ⟨hrows, hold, hl⟩ := hfresh
  exact hrows.followed hold (by omega)

end Rows

section Resize
variable {b : VSbuf} {e : Option Ptr} {pre post : List Ptr}

theorem getD_tail (g : List Bool) (n : ℕ) : g.tail.getD n false = g.getD (n+1) false := by
  cases g <;> rfl

/-- A refused allocation of lines takes one answer and nothing else. -/
theorem VSInewlines_refusal {m : LineMem} {n : Int} (hn : (VSInewlines m n).1 = NULL)
    (hb : 0 < m.brk) : m.grants.getD 0 false = false ∧
      (VSInewlines m n).2 = { m with grants := m.grants.tail } := by
  have hhead : m.grants.getD 0 false = m.grants.headD false := by
    cases m.grants <;> rfl
  rw [hhead]
  cases hg : m.grants.headD false with
  | false => exact ⟨rfl, by rw [VSInewlines_refused hg]⟩
  | true =>
    simp only [VSInewlines, LineMem.grant, hg, if_pos] at hn
    exact absurd hn hb.ne'

/-- After an emergency the screen has fresh rows, or memory was refused twice and
it has none. -/
theorem emergencyScreen_cases (lines oldlines : Int) (hbrk : 0 < b.mem.brk) (hl : 0 ≤ lines)
    (hlt : lines < 32767) (hl' : 0 ≤ oldlines) (hlt' : oldlines < 32767)
    (hold : b.oldScrollback = false) :
    Followed (emergencyScreen b lines oldlines).2 ∨
      (b.mem.grants.getD 0 false = false ∧ b.mem.grants.getD 1 false = false ∧
        ∃ m, (emergencyScreen b lines oldlines).2 =
          { b with mem := m, lines := lines, linest := [NULL] }) := by
  -- rows of `n` lines more than the last index, from an allocation that succeeded
  have hshow : ∀ (n : Int) (v : Ptr × LineMem) (m : LineMem), 0 ≤ n → n < 32767 → 0 < m.brk →
      VSInewlines m (n+1) = v → v.1 ≠ NULL →
      Followed
        (showScreen { b with mem := v.2, lines := n, buftop := v.1, numlines := 0 } v.1) := by
    intro n v m hn hnlt hm hv hnull
    obtain ⟨hptr, hbrk', hstr⟩ := VSInewlines_ok (hv ▸ hnull) hm
    rw [hv] at hptr hbrk' hstr
    apply FreshRows.followed
    · apply showScreen_freshRows (hptr ▸ hm) hn
      · rw [hptr]
        exact hstr
      · rw [hptr]
        exact hbrk'
      · exact fun _ => rfl
      · rfl
    · rw [showScreen]
      split_ifs <;> exact hold
    · rw [showScreen]
      split_ifs <;> exact hnlt
  rw [emergencyScreen]
  generalize hv : VSInewlines b.mem (lines+1) = v
  by_cases hnull : v.1 ≠ NULL
  · left
    simp only [if_pos hnull]
    exact hshow lines v b.mem hl hlt hbrk hv hnull
  · obtain ⟨hg, hm⟩ := VSInewlines_refusal (hv ▸ not_not.mp hnull) hbrk
    rw [hv] at hm
    simp only [if_neg hnull]
    generalize hv' : VSInewlines v.2 (oldlines+1) = v'
    have hbrk' : 0 < v.2.brk := by
      rw [hm]
      exact hbrk
    by_cases hnull' : v'.1 ≠ NULL
    · left
      simp only [if_pos hnull']
      exact hshow oldlines v' v.2 hl' hlt' hbrk' hv' hnull'
    · right
      obtain ⟨hg', -⟩ := VSInewlines_refusal (hv' ▸ not_not.mp hnull') hbrk'
      simp only [if_neg hnull']
      rw [hm, getD_tail] at hg'
      exact ⟨hg, hg', v'.2, rfl⟩

/-- New rows for a screen that saves its lines: the old ones are pushed up. -/
theorem followed_pushed {lines : Int} (he : e = some NULL ∨ e = none) (h : Threaded b e pre post)
    (ht : Tally b e pre) (hold : b.oldScrollback = false) (hsave : b.savelines = true)
    (hl : 0 ≤ lines) (hlt : lines < 32767) (hcount : b.numlines+b.lines ≤ 32767)
    (hok : (VSInewlines b.mem (lines+1)).1 ≠ NULL) : Followed (resizeRows b lines).2 := by
  obtain ⟨hth, hsize, hbuf, hnum⟩ := resizeRows_threaded h hold hsave hl hlt hok
  generalize (resizeRows b lines).2 = b' at hth hsize hbuf hnum ⊢
  have hpl : pre ++ b.linest ≠ [] := List.append_ne_nil_of_right_ne_nil pre h.linest_ne_nil
  have hlen := h.length
  have h0 := h.lines_nonneg
  have hn0 := ht.numlines_nonneg
  have henough := ht.enough
  have hnum' : b'.numlines = b.numlines+b.lines := hnum.trans (short_eq (by omega) hcount)
  have hsave' : b'.savelines = true := hsize.savelines.trans hsave
  have ht' : Tally b' e (pre ++ b.linest) := by
    constructor
    · omega
    · omega
    · rw [List.length_append]
      push_cast
      omega
    · intro _
      rw [hbuf]
      exact List.mem_append_left _ (ht.member hsave)
    · intro _ hnone
      rw [hbuf, ht.first hsave hnone, headD_append_of_ne_nil NULL hpl]
    · intro hc
      exact absurd (hsave'.symm.trans hc) Bool.false_ne_true.symm
  refine ⟨⟨e, pre ++ b.linest, post, he, hth, ht', ?_⟩, hsize.oldScrollback.trans hold, ?_⟩
  · apply Viewed.of_top hth ht' hsize.vistop hsize.Rtop
    · rw [hsize.Rbottom]
      exact hl
    · rw [hsize.Rbottom]
      exact hlt.le
  · rw [hsize.lines]
    exact hlt

/-- New rows for a screen that saves no lines: the old ones are given up. -/
theorem followed_replaced {lines : Int} (hold : b.oldScrollback = false)
    (hsave : b.savelines = false) (hnum : b.numlines = 0) (hbrk : 0 < b.mem.brk) (hl : 0 ≤ lines)
    (hlt : lines < 32767) (hok : (VSInewlines b.mem (lines+1)).1 ≠ NULL) :
    Followed (resizeRows b lines).2 := by
  have hshort : short (lines+1) = lines+1 := short_eq (by omega) (by omega)
  obtain ⟨hptr, hbrk', hstr⟩ := VSInewlines_ok hok hbrk
  have hne : ¬b.savelines = true := by
    rw [hsave]
    exact Bool.false_ne_true
  simp only [resizeRows, hshort]
  rw [if_pos hok]
  generalize VSInewlines b.mem (lines+1) = v at hok hptr hbrk' hstr ⊢
  have hs₁ : ¬(VSIlistndx { b with mem := v.2, lines := lines } v.1).savelines = true := hne
  simp only [if_neg hs₁]
  apply FreshRows.followed
  · apply showScreen_freshRows (hptr ▸ hbrk)
    · exact hl
    · rw [hptr]
      exact hstr
    · rw [hptr]
      exact hbrk'
    · exact fun hc => absurd hc hs₁
    · exact hnum
  · rw [showScreen]
    split_ifs <;> exact hold
  · rw [showScreen]
    split_ifs <;> exact hlt

theorem homeView_Rtop (b : VSbuf) (cursor : Bool) (maxwidth : Int) :
    (homeView b cursor maxwidth).Rtop = homeTop b cursor maxwidth := by
  cases cursor <;> rfl

/-- The screen before a resize: the view is where the cursor has brought it, but
starts with the line at the top of the screen. -/
theorem homeView_bounds (hf : Followed b) (cursor : Bool) (maxwidth : Int) :
    (homeView b cursor maxwidth).vistop = (homeView b cursor maxwidth).scrntop ∧
      (homeView b cursor maxwidth).Rtop ≤ (homeView b cursor maxwidth).Rbottom ∧
      (homeView b cursor maxwidth).Rbottom ≤ 32767 := by
  obtain ⟨e, pre, post, -, hth, ht, hv⟩ := hf.list
  refine ⟨rfl, ?_⟩
  cases cursor with
  | true =>
    have hv' := VSIcursonMoving_viewed hth ht hv hf.lines_lt maxwidth 0 0
    exact ⟨hv'.height_nonneg, hv'.bits⟩
  | false => exact ⟨hv.height_nonneg, hv.bits⟩

/-- The memory manager gives its answers in turn. -/
theorem grant_answer (m : LineMem) : m.grant.1 = m.grants.getD 0 false := by
  rw [LineMem.grant]
  cases m.grants <;> rfl

/-- The screen asks for memory, which its lines do not notice. -/
theorem ask_rows {b₁ : VSbuf} (hth : Threaded b e pre post) (ht : Tally b e pre)
    (hview : ViewOnly b b₁) :
    SameRows b { b₁ with mem := b₁.mem.grant.2 } ∧
      Threaded { b₁ with mem := b₁.mem.grant.2 } e pre post ∧
      Tally { b₁ with mem := b₁.mem.grant.2 } e pre := by
  have hrows : SameRows b { b₁ with mem := b₁.mem.grant.2 } :=
    ⟨hview.linest, hview.scrntop, hview.lines, hview.maxlines, hview.savelines, hview.oldScrollback⟩
  refine ⟨hrows, hth.of_links hrows ?_ ?_, ht.of_rows hrows ⟨hview.buftop, hview.numlines⟩⟩
  · rw [← hview.mem]
    rfl
  · rw [← hview.mem]
    rfl

/-- New rows are refused: the emergency ones are in step too, and a screen left
without any has its view at the top when memory was refused three times. -/
theorem followed_emergency {lines : Int} (hbrk : 0 < b.mem.brk) (hl : 0 ≤ lines)
    (hlt : lines < 32767) (hl' : 0 ≤ b.lines) (hlt' : b.lines < 32767)
    (hold : b.oldScrollback = false) (hvis : b.vistop = b.scrntop) (hnum : 0 ≤ b.numlines)
    (htop : (∀ i < 3, b.mem.grants.getD i false = false) → b.Rtop = 0)
    (hok : ¬(VSInewlines b.mem (lines+1)).1 ≠ NULL) :
    Followed (resizeRows b lines).2 ∨
      ((resizeRows b lines).2.row 0 = NULL ∧ InView (resizeRows b lines).2) := by
  obtain ⟨hg, hm⟩ := VSInewlines_refusal (not_not.mp hok) hbrk
  have hs : short (lines+1) = lines+1 := short_eq (by omega) (by omega)
  simp only [resizeRows, hs, if_neg hok, hm]
  let b' : VSbuf := { b with mem := { b.mem with grants := b.mem.grants.tail } }
  have hcases := emergencyScreen_cases (b := b') lines b.lines hbrk hl hlt hl' hlt' hold
  rcases hcases with hfol | ⟨h1, h2, m, hm'⟩
  · exact Or.inl hfol
  · right
    change (emergencyScreen b' lines b.lines).2.row 0 = NULL ∧
      InView (emergencyScreen b' lines b.lines).2
    rw [hm']
    -- the view is at the top of the screen, and nothing else is left of it
    have hRtop : b.Rtop = 0 := by
      apply htop
      rw [getD_tail] at h1 h2
      intro i hi
      obtain rfl | rfl | rfl : i = 0 ∨ i = 1 ∨ i = 2 := by omega
      · exact hg
      · exact h1
      · exact h2
    refine ⟨rfl, ?_, ?_, ?_⟩
    · simp only [VSbuf.viewLine]
      change b.vistop = if b.Rtop < 0 then _ else _
      rw [hRtop, if_neg (lt_irrefl 0)]
      exact hvis
    · change -b.numlines ≤ b.Rtop
      omega
    · change b.Rtop ≤ lines
      omega

/-- A resize keeps the view in step, or leaves the screen without rows and with the
view at its top. -/
theorem followed_setlines {cursor : Bool} {maxwidth nlines : Int} (hf : Followed b)
    (hn : 1 ≤ nlines) (hn' : nlines ≤ 32767)
    (hP : (ViewOp.line (.setlines cursor maxwidth nlines)).InStep b) :
    Followed (VSsetlines b cursor maxwidth nlines).2 ∨
      ((VSsetlines b cursor maxwidth nlines).2.row 0 = NULL ∧
        InView (VSsetlines b cursor maxwidth nlines).2) := by
  have hshort : short (nlines-1) = nlines-1 := short_eq (by omega) (by omega)
  by_cases hsame : short (nlines-1) = b.lines
  · rw [VSsetlines_same hsame]
    exact Or.inl hf
  obtain ⟨hcount, hmem⟩ := hP.resolve_left (fun hc => hsame (hshort.trans hc))
  obtain ⟨e, pre, post, he, hth, ht, -⟩ := hf.list
  have hbrk : 0 < b.mem.brk := Nat.zero_lt_of_lt (hth.live _ (headD_mem NULL hth.list_ne_nil))
  have h0 := hth.lines_nonneg
  have hlt := hf.lines_lt
  obtain ⟨hvis, hle, hbits⟩ := homeView_bounds hf cursor maxwidth
  have hview := homeView_viewOnly b cursor maxwidth
  rw [← homeView_Rtop] at hmem
  rw [hshort] at hsame
  have hsize : 0 ≤ short (nlines-1+1) := by
    rw [short_eq (by omega) (by omega)]
    omega
  simp only [VSsetlines, hshort, if_neg hsame, VSInewlinearray_of_nonneg _ hsize]
  generalize homeView b cursor maxwidth = b₁ at hvis hle hbits hview hmem
  obtain ⟨hrows, hth₂, ht₂⟩ := ask_rows hth ht hview
  let b₂ : VSbuf := { b₁ with mem := b₁.mem.grant.2 }
  have hold₂ : b₂.oldScrollback = false := hrows.oldScrollback.trans hf.linked
  have hlines₂ : b₂.lines = b.lines := hrows.lines
  have hnum₂ : b₂.numlines = b.numlines := hview.numlines
  have hbrk₂ : 0 < b₂.mem.brk := by
    change 0 < b₁.mem.brk
    rw [hview.mem]
    exact hbrk
  by_cases harr : b₁.mem.grant.1 = true
  · rw [if_pos harr]
    change Followed (resizeRows b₂ (nlines-1)).2 ∨
      ((resizeRows b₂ (nlines-1)).2.row 0 = NULL ∧ InView (resizeRows b₂ (nlines-1)).2)
    by_cases hok : (VSInewlines b₂.mem (nlines-1+1)).1 ≠ NULL
    · left
      cases hsave : b₂.savelines with
      | true =>
        apply followed_pushed he hth₂ ht₂ hold₂ hsave (by omega) (by omega) _ hok
        rw [hnum₂, hlines₂]
        exact hcount
      | false =>
        exact followed_replaced hold₂ hsave (ht₂.unsaved hsave).1 hbrk₂ (by omega) (by omega) hok
    · -- no memory beside the old rows
      apply followed_emergency hbrk₂ (by omega) (by omega) (by omega) (by omega) hold₂ hvis
        ht₂.numlines_nonneg _ hok
      intro hrefused
      apply hmem.resolve_left
      rintro ⟨-, hany⟩
      have hgrants : b₂.mem.grants = b.mem.grants.tail := by
        rw [← hview.mem]
        rfl
      rw [hgrants] at hrefused
      have hg0 := hrefused 0 (by omega)
      have hg1 := hrefused 1 (by omega)
      have hg2 := hrefused 2 (by omega)
      rw [getD_tail] at hg0 hg1 hg2
      rw [hg0, hg1, hg2] at hany
      simp at hany
  · rw [if_neg harr]
    left
    have htop : b₁.Rtop = 0 := by
      apply hmem.resolve_left
      rintro ⟨hfirst, -⟩
      apply harr
      rw [grant_answer, hview.mem]
      exact hfirst
    refine ⟨⟨e, pre, post, he, hth₂, ht₂, ?_⟩, hold₂, hrows.lines ▸ hlt⟩
    exact Viewed.of_top hth₂ ht₂ hvis htop (htop ▸ hle) hbits

end Resize

section Runs
variable {b : VSbuf}

/-- Every operation that meets its condition keeps the view in step. -/
theorem inStep_op (op : ViewOp) (hf : Followed b) (ha : op.Allowed b) (hP : op.InStep b) :
    Followed (op.apply b) ∨ ((op.apply b).row 0 = NULL ∧ InView (op.apply b)) := by
  cases op with
  | line op =>
    cases op with
    | scroll r => exact Or.inl (followed_scroll hf (Margins.legal ha hf.lines_lt) hP)
    | scroff r => exact Or.inl (followed_scroff hf hP)
    | insert r n s =>
      exact Or.inl (followed_insert hf ((ha.1.legal hf.lines_lt).onScreen ha.2.2.1 ha.2.2.2) ha.2.1
        hP)
    | delete r n s =>
      exact Or.inl (followed_delete hf ((ha.1.legal hf.lines_lt).onScreen ha.2.2.1 ha.2.2.2) ha.2.1
        hP)
    | setlines cursor maxwidth nlines => exact followed_setlines hf ha.1 ha.2 hP
  | es r ESscroll => exact Or.inl (followed_es hf hP)
  | scrolback n =>
    left
    apply followed_viewOnly hf (VSscrolback_viewOnly b n)
    exact fun e pre post hth ht hv => VSscrolback_viewed hth ht hv n
  | scrolforward n =>
    left
    apply followed_viewOnly hf (VSscrolforward_viewOnly b n)
    exact fun e pre post hth ht hv => VSscrolforward_viewed hth ht hv hf.lines_lt n
  | setrgn maxwidth x1 y1 x2 y2 =>
    left
    apply followed_viewOnly hf (VSsetrgn_viewOnly b maxwidth x1 y1 x2 y2)
    obtain ⟨h0, hheight, hbot⟩ := hP
    exact fun e pre post hth ht hv =>
      VSsetrgn_viewed hth ht hv hf.lines_lt maxwidth x1 x2 h0 hheight hbot
  | curson maxwidth x y =>
    left
    apply followed_viewOnly hf (VSIcursonMoving_viewOnly b maxwidth x y)
    exact fun e pre post hth ht hv => VSIcursonMoving_viewed hth ht hv hf.lines_lt maxwidth x y

theorem InView.other {b' : VSbuf} (h : InView b) (hb : SameView b b') : InView b' := by
  obtain ⟨h1, h2, h3⟩ := h
  constructor
  · rw [hb.vistop, hb.Rtop, h1]
    simp only [VSbuf.viewLine, hb.scrntop]
    have hnext : b'.next = b.next := by
      funext p
      exact congrArg (fun l : Links Ptr => l.next p) hb.links
    have hprev : b'.prev = b.prev := by
      funext p
      exact congrArg (fun l : Links Ptr => l.prev p) hb.links
    rw [hnext, hprev]
  · rwa [hb.numlines, hb.Rtop]
  · rwa [hb.lines, hb.Rtop]

theorem viewRun_followed (h : ViewRun ViewOp.InStep b) :
    Followed b ∨ (b.row 0 = NULL ∧ InView b) := by
  induction h with
  | new hm h1 h2 hb => exact Or.inl (VSnewscreen_followed hb hm h1 h2)
  | op op _ hrows hop hP ih =>
    rcases ih with hf | ⟨hnull, -⟩
    · exact inStep_op op hf hop hP
    · exact absurd hnull hrows
  | other _ hb ih =>
    rcases ih with hf | ⟨hnull, hv⟩
    · exact Or.inl (followed_other hf hb)
    · refine Or.inr ⟨?_, hv.other hb⟩
      rw [VSbuf.row, hb.linest]
      exact hnull

end Runs

/-- In every state of a screen with the linked scrollback whose operations meet
their conditions, `vistop` is the line that `Rtop` links from the top of the screen
lead to, and `Rtop` is within the saved lines and the rows. -/
theorem view_in_step_over_runs (b : VSbuf) (h : ViewRun ViewOp.InStep b) : InView b := by
  rcases viewRun_followed h with hf | ⟨-, hv⟩
  · exact hf.inView
  · exact hv

theorem threeRows_viewRun (P : ViewOp → VSbuf → Prop) : ViewRun P threeRows :=
  ViewRun.new (by decide) (by decide) (by decide) (Option.some_get _).symm

/-- The view is in step after a scroll and a look at the line it has saved. -/
theorem view_in_step_after_look_back :
    InView (VSscrolback (VSIscroll threeRowsRegion threeRows) 1) :=
  view_in_step_over_runs _ (ViewRun.op (.scrolback 1)
    (ViewRun.op (.line (.scroll threeRowsRegion)) (threeRows_viewRun _) (by decide)
      (Or.inl (by decide)) (fun _ => ⟨by decide, fun _ => by decide, Or.inl (by decide)⟩))
    (by decide) trivial trivial)

/-- The first two of three rows as scrolling region. -/
def upperRowsRegion : VSregion := { threeRowsRegion with bottom := 1 }

/-- Three rows of which a window shows the second one. -/
def middleRow : VSbuf := VSsetrgn threeRows 79 0 1 79 1

/-- A screen that shows the line it has saved, and has no memory left. -/
def lookingBack : VSbuf :=
  let b := VSscrolback (VSIscroll threeRowsRegion threeRows) 1
  { b with mem := { b.mem with grants := [] } }

/-- A window that shows the last row of the scrolling region is left on another row
by a scroll, and a resize for which there is no memory leaves the view of the saved
lines on the screen. -/
theorem view_out_of_step :
    (∃ b, ViewRun (fun _ _ => True) b ∧ b = VSIscroll upperRowsRegion middleRow ∧ ¬InView b) ∧
    (∃ b, ViewRun (fun _ _ => True) b ∧ b = (VSsetlines lookingBack true 79 5).2 ∧ ¬InView b) := by
  have hmiddle : ViewRun (fun _ _ => True) middleRow :=
    ViewRun.op (.setrgn 79 0 1 79 1) (threeRows_viewRun _) (by decide) trivial trivial
  have hback : ViewRun (fun _ _ => True) (VSscrolback (VSIscroll threeRowsRegion threeRows) 1) :=
    ViewRun.op (.scrolback 1) (ViewRun.op (.line (.scroll threeRowsRegion)) (threeRows_viewRun _)
      (by decide) (Or.inl (by decide)) trivial) (by decide) trivial trivial
  have hlooking : ViewRun (fun _ _ => True) lookingBack :=
    ViewRun.other hback
      ⟨⟨⟨rfl, rfl, rfl, rfl, rfl, rfl⟩, ⟨rfl, rfl⟩, rfl, rfl⟩, rfl, rfl, rfl⟩
  refine ⟨⟨_, ViewRun.op (.line (.scroll upperRowsRegion)) hmiddle (by decide)
    (Or.inl (by decide)) trivial, rfl, ?_⟩,
    ⟨_, ViewRun.op (.line (.setlines true 79 5)) hlooking (by decide)
      ⟨by decide, by decide⟩ trivial, rfl, ?_⟩⟩
  · intro h
    exact absurd h.vistop (by decide)
  · intro h
    exact absurd h.vistop (by decide)

end VS
