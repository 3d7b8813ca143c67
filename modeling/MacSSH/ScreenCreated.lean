import MacSSH.ScreenResize
import MacSSH.ScreenScrolled

/-! The lists of a new screen and of a screen that has been resized. -/
namespace VS

open Linked

section Create
variable {b : VSbuf}

@[simp] theorem blank_links (m : LineMem) (w : Int) (p pa : Ptr) (a : BitVec 32) :
    (m.blank w p pa a).links = m.links := rfl

@[simp] theorem blank_brk (m : LineMem) (w : Int) (p pa : Ptr) (a : BitVec 32) :
    (m.blank w p pa a).brk = m.brk := rfl

/-- Blanking rows changes no link. -/
theorem blankRows_links (b : VSbuf) (lattr : Bool) :
    (blankRows b lattr).mem.links = b.mem.links ∧ (blankRows b lattr).mem.brk = b.mem.brk := by
  simp only [blankRows]
  generalize List.range (b.lines+1).toNat = is
  generalize hm : b.mem = m
  clear hm
  induction is generalizing m with
  | nil => exact ⟨rfl, rfl⟩
  | cons i is ih =>
    rw [List.foldl_cons]
    cases lattr with
    | true => exact ih _
    | false => exact ih _

theorem blankRows_threaded {e : Option Ptr} {pre post : List Ptr} (h : Threaded b e pre post)
    (lattr : Bool) : Threaded (blankRows b lattr) e pre post := by
  obtain ⟨hl, hk⟩ := blankRows_links b lattr
  exact h.of_links ⟨rfl, rfl, rfl, rfl, rfl, rfl⟩ hl hk

/-- A successful allocation of lines. -/
theorem VSInewlines_ok {m : LineMem} {n : Int} (hn : (VSInewlines m n).1 ≠ NULL)
    (hb : 0 < m.brk) :
    (VSInewlines m n).1 = m.brk ∧ (VSInewlines m n).2.brk = m.brk+n.toNat ∧
      Strand NULL (VSInewlines m n).2.links (some NULL) (List.range' m.brk n.toNat) := by
  cases hg : m.grants.headD false with
  | false =>
    simp only [VSInewlines, LineMem.grant, hg, if_neg Bool.false_ne_true] at hn
    exact absurd rfl hn
  | true =>
    simp only [VSInewlines, LineMem.grant, hg, if_pos]
    exact ⟨trivial, trivial, chainLinks_strand _ hb _⟩

theorem VSInewlines_null {m : LineMem} {n : Int} (hn : (VSInewlines m n).1 = NULL)
    (hb : 0 < m.brk) : (VSInewlines m n).2.brk = m.brk := by
  cases hg : m.grants.headD false with
  | false => simp only [VSInewlines, LineMem.grant, hg, if_neg Bool.false_ne_true]
  | true =>
    simp only [VSInewlines, LineMem.grant, hg, if_pos] at hn
    exact absurd hn hb.ne'

theorem headD_range' {base n : ℕ} (hn : 0 < n) : (List.range' base n).headD NULL = base := by
  obtain ⟨n, rfl⟩ := Nat.exists_eq_succ_of_ne_zero hn.ne'
  rfl

/-- A screen whose rows are the first lines of one new list. -/
theorem fresh_threaded {new : Ptr} {k : ℕ} (hnew : 0 < new) (h0 : 0 ≤ b.lines)
    (hk : b.lines+1 ≤ k) (hs : Strand NULL b.mem.links (some NULL) (List.range' new k))
    (hbrk : b.mem.brk = new+k) :
    (VSIlistndx { b with scrntop := new } new).linest = List.range' new (b.lines+1).toNat ∧
      Threaded (VSIlistndx { b with scrntop := new } new) (some NULL) []
        (List.range' (new+(b.lines+1).toNat) (k-(b.lines+1).toNat)) := by
  have hsplit : List.range' new (b.lines+1).toNat ++
      List.range' (new+(b.lines+1).toNat) (k-(b.lines+1).toNat) = List.range' new k := by
    have hk' : k = (b.lines+1).toNat+(k-(b.lines+1).toNat) := by omega
    conv_rhs => rw [hk']
    exact List.range'_append_1
  have hs' : Strand NULL b.mem.links (some NULL) ([] ++ List.range' new (b.lines+1).toNat ++
      List.range' (new+(b.lines+1).toNat) (k-(b.lines+1).toNat)) := by
    rw [List.nil_append, hsplit]
    exact hs
  apply listndx_threaded hs'
  · rw [List.length_range']
    omega
  · exact h0
  · rw [headD_range' (by omega)]
  · intro a ha
    rw [List.nil_append, hsplit] at ha
    rw [hbrk]
    exact (List.mem_range'_1.mp ha).2
  · intro p hp
    rw [← Option.some.inj hp, hbrk]
    exact Nat.lt_of_lt_of_le hnew (Nat.le_add_right new k)

theorem grantAll_brk (m : LineMem) (n : ℕ) : (m.grantAll n).2.brk = m.brk := by
  induction n generalizing m with
  | zero => rfl
  | succ n ih =>
    rw [LineMem.grantAll]
    simp only
    split_ifs
    · exact ih _
    · rfl

/-- A screen that can be asked for: some rows, and no more lines than a `short`
counts. -/
structure Askable (maxlines numLines : Int) : Prop where
  rows : 1 ≤ numLines
  countable : max maxlines VSDEFLINES+numLines ≤ 32767

/-- What a new screen starts with. -/
structure Fresh (b : VSbuf) : Prop where
  saved : ∃ post, Threaded b (some NULL) [] post ∧ Saved b 0 [] post
  linked : b.oldScrollback = false
  countable : b.maxlines+b.lines < 32767

/-- A new screen has its rows at the start of one list and nothing saved. -/
theorem VSnewscreen_fresh {m : LineMem} {maxlines numLines maxwid : Int}
    (hnew : VSnewscreen m maxlines true numLines maxwid = some b) (hm : 0 < m.brk)
    (ha : Askable maxlines numLines) : Fresh b ∧ b.savelines = true := by
  obtain ⟨hrows, hcount⟩ := ha
  have hmax : (if maxlines < VSDEFLINES then VSDEFLINES else maxlines) =
      max maxlines VSDEFLINES := by
    split_ifs with hlt
    · exact (max_eq_right hlt.le).symm
    · exact (max_eq_left (not_lt.mp hlt)).symm
  have hge := le_max_right maxlines VSDEFLINES
  have hdef : VSDEFLINES = 48 := rfl
  have hlines : short (numLines-1) = numLines-1 := short_eq (by omega) (by omega)
  have hall : short (numLines-1+1+VSDEFLINES) = numLines+48 := by
    rw [Int.sub_add_cancel, hdef]
    exact short_eq (by omega) (by omega)
  rw [VSnewscreen, hmax, hlines] at hnew
  simp only [hall, if_true] at hnew
  -- the three requests of the screen itself take no line numbers
  have hbrk := grantAll_brk m 3
  generalize hg : m.grantAll 3 = g at hnew hbrk
  obtain ⟨ok, m₁⟩ := g
  simp only at hnew hbrk
  split_ifs at hnew with hok hnull
  obtain ⟨hptr, hbrk', hstr⟩ := VSInewlines_ok hnull (hbrk ▸ hm)
  generalize hv : VSInewlines m₁ (numLines+48) = v at hnew hptr hbrk' hstr
  rw [hbrk] at hptr hbrk' hstr
  let b₀ : VSbuf :=
    { mem := v.2, scrntop := v.1, buftop := v.1, vistop := v.1, linest := [v.1], attrst := [],
      lines := numLines-1, maxlines := max maxlines VSDEFLINES, numlines := 0, allwidth := 255,
      savelines := true, oldScrollback := false, Rtop := 0, Rbottom := numLines-1, Rleft := 0,
      Rright := short (maxwid-1) }
  have hb₀ : b = blankRows (VSIlistndx b₀ b₀.scrntop) true := (Option.some.inj hnew).symm
  have hl₀ : b₀.lines = numLines-1 := rfl
  have hs₀ : Strand NULL b₀.mem.links (some NULL) (List.range' v.1 (numLines+48).toNat) := by
    rw [hptr]
    exact hstr
  have hbrk₀ : b₀.mem.brk = v.1+(numLines+48).toNat := by
    rw [hptr]
    exact hbrk'
  obtain ⟨hlin, hth⟩ := fresh_threaded (hptr ▸ hm) (by omega) (by omega) hs₀ hbrk₀
  have hb : Threaded b (some NULL) [] _ := hb₀ ▸ blankRows_threaded hth true
  have hlines_b : b.lines = numLines-1 := by rw [hb₀]; rfl
  have hmax_b : b.maxlines = max maxlines VSDEFLINES := by rw [hb₀]; rfl
  have hfirst : b.buftop = b.linest.headD NULL := by
    have hrows_b : b.linest = List.range' v.1 (b₀.lines+1).toNat := by
      rw [hb₀]
      exact hlin
    rw [hrows_b, headD_range' (by omega), hb₀]
    rfl
  have hnum_b : b.numlines = 0 := by rw [hb₀]; rfl
  refine ⟨⟨⟨_, hb, ⟨hfirst, hnum_b.ge, by rw [hnum_b]; rfl⟩, ?_, ?_, ?_⟩, by rw [hb₀]; rfl, ?_⟩,
    by rw [hb₀]; rfl⟩
  · rw [hmax_b]
    omega
  · rw [hmax_b, hlines_b]
    omega
  · rw [hmax_b, hlines_b, hnum_b, List.length_range']
    omega
  · rw [hmax_b, hlines_b]
    omega

theorem showScreen_eq (hsave : b.savelines = true) (new : Ptr) :
    showScreen b new =
      { blankRows (VSIlistndx { b with scrntop := new, vistop := new } new) false with
        Rtop := 0, Rbottom := b.lines } := by
  rw [showScreen]
  have hs : (VSIlistndx { b with scrntop := new, vistop := new } new).savelines = true := hsave
  simp only [hs, if_true]
  rfl

/-- New rows that are all there is of the list. -/
theorem showScreen_fresh {new : Ptr} (hnew : 0 < new) (h0 : 0 ≤ b.lines)
    (hs : Strand NULL b.mem.links (some NULL) (List.range' new (b.lines+1).toNat))
    (hbrk : b.mem.brk = new+(b.lines+1).toNat) (hbuf : b.buftop = new) (hnum : b.numlines = 0)
    (hsave : b.savelines = true) (hold : b.oldScrollback = false) (hmax : 0 ≤ b.maxlines)
    (hcount : b.maxlines+b.lines < 32767) : Fresh (showScreen b new) := by
  rw [showScreen_eq hsave]
  let b₀ : VSbuf := { b with vistop := new }
  have hlen : b.lines+1 ≤ ((b.lines+1).toNat : Int) := by omega
  obtain ⟨hlin, hth⟩ := fresh_threaded (b := b₀) hnew h0 hlen hs hbrk
  have hth' := blankRows_threaded hth false
  refine ⟨⟨_, hth'.of_links ⟨rfl, rfl, rfl, rfl, rfl, rfl⟩ rfl rfl,
      ⟨?_, hnum.ge, ?_⟩, hmax, hcount.le, ?_⟩, hold, hcount⟩
  · have hl : (blankRows (VSIlistndx { b₀ with scrntop := new } new) false).linest =
        List.range' new (b.lines+1).toNat := hlin
    rw [List.nil_append]
    change b.buftop =
      (blankRows (VSIlistndx { b₀ with scrntop := new } new) false).linest.headD NULL
    rw [hl, headD_range' (by omega), hbuf]
  · change b.numlines+((0 : ℕ) : Int) = _
    rw [hnum]
    rfl
  · rw [List.length_range', Nat.sub_self]
    change b.numlines+((0 : ℕ) : Int) ≤ b.maxlines+b.lines
    omega

/-- After an emergency that was survived, the screen is like a new one. -/
theorem emergencyScreen_fresh {lines oldlines : Int} (hbrk : 0 < b.mem.brk) (hl : 0 ≤ lines)
    (hl' : 0 ≤ oldlines) (hsave : b.savelines = true) (hold : b.oldScrollback = false)
    (hmax : 0 ≤ b.maxlines) (hcount : b.maxlines+lines < 32767)
    (hcount' : b.maxlines+oldlines < 32767) (hok : 0 ≤ (emergencyScreen b lines oldlines).1) :
    Fresh (emergencyScreen b lines oldlines).2 ∧
      (emergencyScreen b lines oldlines).2.savelines = true := by
  rw [emergencyScreen] at hok ⊢
  generalize hv : VSInewlines b.mem (lines+1) = v at hok ⊢
  simp only at hok ⊢
  by_cases hnull : v.1 ≠ NULL
  · rw [if_pos hnull]
    obtain ⟨hptr, hbrk', hstr⟩ := VSInewlines_ok (hv ▸ hnull) hbrk
    rw [hv] at hptr hbrk' hstr
    refine ⟨showScreen_fresh (hptr ▸ hbrk) hl ?_ ?_ rfl rfl hsave hold hmax hcount, ?_⟩
    · rw [hptr]
      exact hstr
    · rw [hptr]
      exact hbrk'
    · rw [showScreen_eq (by exact hsave)]
      exact hsave
  · rw [if_neg hnull] at hok ⊢
    generalize hv' : VSInewlines v.2 (oldlines+1) = v' at hok ⊢
    have hbrk₁ : v.2.brk = b.mem.brk := by
      rw [← hv]
      exact VSInewlines_null (hv ▸ not_not.mp hnull) hbrk
    by_cases hnull' : v'.1 ≠ NULL
    · rw [if_pos hnull']
      obtain ⟨hptr, hbrk', hstr⟩ := VSInewlines_ok (hv' ▸ hnull') (hbrk₁ ▸ hbrk)
      rw [hv'] at hptr hbrk' hstr
      refine ⟨showScreen_fresh (hptr ▸ hbrk₁ ▸ hbrk) hl' ?_ ?_ rfl rfl hsave hold hmax hcount', ?_⟩
      · rw [hptr]
        exact hstr
      · rw [hptr]
        exact hbrk'
      · rw [showScreen_eq (by exact hsave)]
        exact hsave
    · rw [if_neg hnull'] at hok
      have hbad : (0 : Int) ≤ -4000 := hok
      omega

end Create

end VS
