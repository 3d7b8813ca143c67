import MacSSH.ScreenRows

/-! Rows that leave the screen at its top: how the list grows, closes into a ring
and moves on under the screen. -/
namespace VS

open Linked

section Grow
variable {b : VSbuf} {e : Option Ptr} {pre post : List Ptr}

/-- Two buffers with the same rows; their line records and the account of the
scrollback may differ. -/
structure SameRows (b b' : VSbuf) : Prop where
  linest : b'.linest = b.linest
  scrntop : b'.scrntop = b.scrntop
  lines : b'.lines = b.lines
  maxlines : b'.maxlines = b.maxlines
  savelines : b'.savelines = b.savelines
  oldScrollback : b'.oldScrollback = b.oldScrollback

/-- The scrollback starts at the same line and has the same count. -/
structure SameCount (b b' : VSbuf) : Prop where
  buftop : b'.buftop = b.buftop
  numlines : b'.numlines = b.numlines

theorem Threaded.of_strand (h : Threaded b e pre post) {b' : VSbuf} {e' : Option Ptr}
    {pre' post' : List Ptr} (hb : SameRows b b')
    (hs : Strand NULL b'.mem.links e' (pre' ++ b.linest ++ post'))
    (hlive : ∀ a ∈ pre' ++ b.linest ++ post', a < b'.mem.brk)
    (he : ∀ p ∈ e', p < b'.mem.brk) : Threaded b' e' pre' post' := by
  refine ⟨?_, ?_, ?_, ?_, ?_, he⟩
  · rw [hb.linest]
    exact hs
  · rw [hb.linest, hb.lines]
    exact h.length
  · rw [hb.lines]
    exact h.lines_nonneg
  · rw [hb.linest, hb.scrntop]
    exact h.top
  · rw [hb.linest]
    exact hlive

/-- The records of a new allocation form an open list of their own. -/
theorem chainLinks_strand (m : Links Ptr) {base : ℕ} (hb : 0 < base) (n : ℕ) :
    Strand NULL (chainLinks m base n) (some NULL) (List.range' base n) := by
  have hseg : ∀ k i, i+k = n →
      Seg (chainLinks m base n)
        (if i = 0 then NULL else base+i-1) (List.range' (base+i) k) NULL := by
    intro k
    induction k with
    | zero => exact fun _ _ => trivial
    | succ k ih =>
      intro i hi
      have hin : base ≤ base+i ∧ base+i < base+n := by omega
      refine ⟨?_, ?_, ?_⟩
      · simp only [chainLinks]
        rw [if_pos hin]
        rcases Nat.eq_zero_or_pos i with hi0 | hi0
        · rw [if_neg (by omega : ¬base < base+i), if_pos hi0]
        · rw [if_pos (by omega : base < base+i), if_neg hi0.ne']
      · simp only [chainLinks]
        rw [if_pos hin]
        cases k with
        | zero => exact if_neg (by omega : ¬base+i+1 < base+n)
        | succ k => exact if_pos (by omega : base+i+1 < base+n)
      · have htail := ih (i+1) (by omega)
        rw [if_neg (Nat.succ_ne_zero i)] at htail
        exact htail
  refine ⟨?_, List.nodup_range', ?_, ?_⟩
  · exact hseg n 0 (Nat.zero_add n)
  · intro hn
    have hle : base ≤ 0 := (List.mem_range'_1.mp hn).1
    omega
  · intro p hp hn
    have hle : base ≤ p := (List.mem_range'_1.mp hn).1
    rw [← Option.some.inj hp] at hle
    have hle0 : base ≤ 0 := hle
    omega

theorem chainLinks_of_lt (m : Links Ptr) {base a : ℕ} (n : ℕ) (ha : a < base) :
    (chainLinks m base n).next a = m.next a ∧ (chainLinks m base n).prev a = m.prev a := by
  have hout : ¬(base ≤ a ∧ a < base+n) := by omega
  exact ⟨if_neg hout, if_neg hout⟩

/-- An allocation keeps the screen; where it succeeds it gives a list of new
lines. -/
theorem newlines_spec (h : Threaded b e pre post) (hold : b.oldScrollback = false)
    (hbrk : 0 < b.mem.brk) (n : Int) :
    SameRows b (newlines b n).2 ∧ SameCount b (newlines b n).2 ∧
      Threaded (newlines b n).2 e pre post ∧
      ((newlines b n).1 = NULL ∨
        ((newlines b n).1 = b.mem.brk ∧ (newlines b n).2.mem.brk = b.mem.brk+n.toNat ∧
          Strand NULL (newlines b n).2.mem.links (some NULL)
            (List.range' b.mem.brk n.toNat))) := by
  have hsame : SameRows b (newlines b n).2 := ⟨rfl, rfl, rfl, rfl, rfl, rfl⟩
  refine ⟨hsame, ⟨rfl, rfl⟩, ?_⟩
  cases hg : b.mem.grants.headD false with
  | false =>
    have hp : (newlines b n).1 = NULL := by
      simp only [newlines, hold, VSInewlines, LineMem.grant, hg, if_neg Bool.false_ne_true]
    have hlinks : (newlines b n).2.mem.links = b.mem.links := by
      simp only [newlines, hold, VSInewlines, LineMem.grant, hg, if_neg Bool.false_ne_true]
    have hbrk' : (newlines b n).2.mem.brk = b.mem.brk := by
      simp only [newlines, hold, VSInewlines, LineMem.grant, hg, if_neg Bool.false_ne_true]
    refine ⟨h.of_strand hsame ?_ ?_ ?_, Or.inl hp⟩
    · rw [hlinks]
      exact h.strand
    · rw [hbrk']
      exact h.live
    · rw [hbrk']
      exact h.live_before
  | true =>
    have hp : (newlines b n).1 = b.mem.brk := by
      simp only [newlines, hold, VSInewlines, LineMem.grant, hg, if_neg Bool.false_ne_true, if_pos]
    have hlinks : (newlines b n).2.mem.links = chainLinks b.mem.links b.mem.brk n.toNat := by
      simp only [newlines, hold, VSInewlines, LineMem.grant, hg, if_neg Bool.false_ne_true, if_pos]
    have hbrk' : (newlines b n).2.mem.brk = b.mem.brk+n.toNat := by
      simp only [newlines, hold, VSInewlines, LineMem.grant, hg, if_neg Bool.false_ne_true, if_pos]
    refine ⟨h.of_strand hsame ?_ ?_ ?_, Or.inr ⟨hp, hbrk', ?_⟩⟩
    · rw [hlinks]
      exact h.strand.congr (fun a ha => chainLinks_of_lt _ _ (h.live a ha))
    · intro a ha
      rw [hbrk']
      exact Nat.lt_add_right _ (h.live a ha)
    · intro p hp
      rw [hbrk']
      exact Nat.lt_add_right _ (h.live_before p hp)
    · rw [hlinks]
      exact chainLinks_strand _ hbrk _

theorem SameRows.trans {b b' b'' : VSbuf} (h : SameRows b b') (h' : SameRows b' b'') :
    SameRows b b'' :=
  ⟨h'.linest.trans h.linest, h'.scrntop.trans h.scrntop, h'.lines.trans h.lines,
    h'.maxlines.trans h.maxlines, h'.savelines.trans h.savelines,
    h'.oldScrollback.trans h.oldScrollback⟩

theorem linkBehind_sameRows (b : VSbuf) (last p : Ptr) : SameRows b (linkBehind b last p) :=
  ⟨rfl, rfl, rfl, rfl, rfl, rfl⟩

theorem makeCircular_sameRows (b : VSbuf) (last : Ptr) : SameRows b (makeCircular b last) :=
  ⟨rfl, rfl, rfl, rfl, rfl, rfl⟩

theorem Threaded.list_ne_nil (h : Threaded b e pre post) : pre ++ b.linest ++ post ≠ [] := by
  intro hn
  simp only [List.append_eq_nil_iff] at hn
  exact h.linest_ne_nil hn.1.2

/-- Closing the list behind its last line makes it a ring. -/
theorem makeCircular_threaded {p : Ptr} (h : Threaded b (some p) pre post)
    (hbuf : b.buftop = (pre ++ b.linest).headD NULL) :
    Threaded (makeCircular b ((pre ++ b.linest ++ post).getLastD NULL)) none pre post := by
  have hpl : pre ++ b.linest ≠ [] := List.append_ne_nil_of_right_ne_nil pre h.linest_ne_nil
  have hhead : b.buftop = (pre ++ b.linest ++ post).headD NULL := by
    rw [hbuf, headD_append_of_ne_nil NULL hpl]
  apply h.of_strand (makeCircular_sameRows b _)
  · have hclose := h.strand.close h.list_ne_nil
    rw [← hhead] at hclose
    exact hclose
  · exact h.live
  · exact nofun

/-- The lines of a successful allocation, linked behind the last line. -/
theorem newlines_linked {p : Ptr} (h : Threaded b (some p) pre post)
    (hold : b.oldScrollback = false) {n : Int} (hn : 0 < n) (hok : (newlines b n).1 ≠ NULL) :
    ∃ F, F.length = n.toNat ∧
      Threaded (linkBehind (newlines b n).2 ((pre ++ b.linest ++ post).getLastD NULL)
        (newlines b n).1) (some p) pre (post ++ F) := by
  have hbrk : 0 < b.mem.brk := Nat.zero_lt_of_lt (h.live_before p rfl)
  obtain ⟨hsame, -, hth, hnull | ⟨hptr, hbrk', hF⟩⟩ := newlines_spec h hold hbrk n
  · exact absurd hnull hok
  have hlt : ∀ a ∈ List.range' b.mem.brk n.toNat, b.mem.brk ≤ a ∧ a < b.mem.brk+n.toNat :=
    fun a ha => List.mem_range'_1.mp ha
  have hne : List.range' b.mem.brk n.toNat ≠ [] := by
    apply List.ne_nil_of_length_pos
    rw [List.length_range']
    omega
  have hhead : (List.range' b.mem.brk n.toNat).headD NULL = b.mem.brk := by
    obtain ⟨k, hk⟩ : ∃ k, n.toNat = k+1 := ⟨n.toNat-1, by omega⟩
    rw [hk]
    rfl
  have hd : (pre ++ b.linest ++ post).Disjoint (List.range' b.mem.brk n.toNat) :=
    fun a ha hr => absurd (h.live a ha) (Nat.not_lt.mpr (hlt a hr).1)
  have hpF : p ∉ List.range' b.mem.brk n.toNat :=
    fun hr => absurd (h.live_before p rfl) (Nat.not_lt.mpr (hlt p hr).1)
  have hstr := hth.strand
  rw [hsame.linest] at hstr
  have hext := hstr.extend hF h.list_ne_nil hne hd hpF
  rw [hhead] at hext
  rw [hptr]
  refine ⟨List.range' b.mem.brk n.toNat, List.length_range', ?_⟩
  apply h.of_strand (hsame.trans (linkBehind_sameRows _ _ _))
  · rw [← List.append_assoc]
    exact hext
  · intro a ha
    have hbrk'' : (linkBehind (newlines b n).2 ((pre ++ b.linest ++ post).getLastD NULL)
      b.mem.brk).mem.brk = b.mem.brk+n.toNat := hbrk'
    rw [hbrk'']
    rw [← List.append_assoc] at ha
    rcases List.mem_append.mp ha with ha | ha
    · exact Nat.lt_add_right _ (h.live a ha)
    · exact (hlt a ha).2
  · intro q hq
    exact hth.live_before q hq

/-- After a failed or refused allocation the list is closed. -/
theorem newlines_closed {p : Ptr} (h : Threaded b (some p) pre post)
    (hold : b.oldScrollback = false) (hbuf : b.buftop = (pre ++ b.linest).headD NULL) (n : Int) :
    Threaded (makeCircular (newlines b n).2 ((pre ++ b.linest ++ post).getLastD NULL))
      none pre post := by
  have hbrk : 0 < b.mem.brk := Nat.zero_lt_of_lt (h.live_before p rfl)
  obtain ⟨hsame, hcount, hth, -⟩ := newlines_spec h hold hbrk n
  have hc := makeCircular_threaded hth (by rw [hcount.buftop, hsame.linest]; exact hbuf)
  rw [hsame.linest] at hc
  exact hc

/-- The line that follows the last row: the first one below the screen, or in a
ring the first one above it. -/
theorem Threaded.next_lastRow (h : Threaded b e pre post) :
    b.next b.lastRow = post.headD (after NULL e (pre ++ b.linest ++ post)) := by
  rw [h.lastRow_eq, VSbuf.next, getLastD_default NULL _ h.linest_ne_nil]
  exact seg_next_getLastD h.strand.middle h.linest_ne_nil

theorem Threaded.next_lastRow_ring (h : Threaded b none pre []) :
    b.next b.lastRow = (pre ++ b.linest).headD NULL := by
  rw [h.next_lastRow, List.headD_nil, after_none, List.append_nil]

/-- The list ends with the last row exactly when it is open and nothing is below
the screen. -/
theorem Threaded.next_lastRow_null (h : Threaded b e pre post) :
    b.next b.lastRow = NULL ↔ e ≠ none ∧ post = [] := by
  rw [h.next_lastRow]
  cases post with
  | cons a post =>
    have ha : a ≠ NULL := by
      intro hn
      apply h.strand.null_mem
      rw [← hn]
      exact List.mem_append_right _ List.mem_cons_self
    simp [ha]
  | nil =>
    cases e with
    | some p => simp
    | none =>
      have hmem := headD_mem NULL h.list_ne_nil
      have hne : (pre ++ b.linest ++ []).headD NULL ≠ NULL :=
        fun hn => h.strand.null_mem (hn ▸ hmem)
      simpa using hne

/-- The rows after the top one has gone to the scrollback. -/
def shiftUp (b : VSbuf) : VSbuf :=
  VSIlistndx { b with scrntop := b.next b.scrntop } (b.next b.scrntop)

/-- The rows move on by one line in their list: the top row joins the lines
before them and the line after the last row becomes the last row. In a ring with
nothing below the screen that line is the first one of the ring. -/
theorem Threaded.shift (h : Threaded b e pre post) (hgo : e = none ∨ post ≠ []) :
    ∃ pre' post', (shiftUp b).linest = b.linest.tail ++ [b.next b.lastRow] ∧
      Threaded (shiftUp b) e pre' post' ∧
      ((post = b.next b.lastRow :: post' ∧ pre' = pre ++ [b.scrntop]) ∨
        (e = none ∧ post = [] ∧ post' = [] ∧ pre' = (pre ++ [b.scrntop]).tail)) := by
  obtain ⟨r₀, rs, hrows⟩ := List.exists_cons_of_ne_nil h.linest_ne_nil
  have htop : b.scrntop = r₀ := by rw [h.top, hrows, List.headD_cons]
  have hmid := h.strand.middle
  rw [← h.next_lastRow] at hmid
  generalize hnxt : b.next b.lastRow = nxt at hmid ⊢
  rw [hrows] at hmid
  have hts : b.next b.scrntop = (rs ++ [nxt]).headD NULL := by
    rw [htop, headD_append]
    exact hmid.2.1
  have hlen : ((rs ++ [nxt]).length : Int) = b.lines+1 := by
    have hl := h.length
    rw [hrows, List.length_cons] at hl
    rw [List.length_append, List.length_singleton]
    exact hl
  rw [htop]
  have hkey : ∀ pre' post', (pre' ++ (rs ++ [nxt]) ++ post').Perm (pre ++ b.linest ++ post) →
      Strand NULL b.mem.links e (pre' ++ (rs ++ [nxt]) ++ post') →
      (shiftUp b).linest = b.linest.tail ++ [nxt] ∧ Threaded (shiftUp b) e pre' post' := by
    intro pre' post' hperm hstr
    rw [hrows, List.tail_cons]
    exact listndx_threaded hstr hlen h.lines_nonneg hts
      (fun a ha => h.live a (hperm.mem_iff.mp ha)) h.live_before
  cases post with
  | cons a post =>
    have ha : nxt = a := by rw [← hnxt, h.next_lastRow, List.headD_cons]
    subst ha
    have heq : (pre ++ [r₀]) ++ (rs ++ [nxt]) ++ post = pre ++ b.linest ++ nxt :: post := by
      rw [hrows]
      simp
    obtain ⟨hl, ht⟩ := hkey (pre ++ [r₀]) post (by rw [heq]) (heq ▸ h.strand)
    exact ⟨pre ++ [r₀], post, hl, ht, Or.inl ⟨rfl, rfl⟩⟩
  | nil =>
    have he : e = none := hgo.resolve_right (fun hn => hn rfl)
    subst he
    have hring := h.strand
    rw [List.append_nil] at hring
    have hfirst : nxt = (pre ++ b.linest).headD NULL := by rw [← hnxt, h.next_lastRow_ring]
    cases pre with
    | nil =>
      rw [List.nil_append, hrows, List.headD_cons] at hfirst
      subst hfirst
      rw [List.nil_append, hrows] at hring
      have hturn : Strand NULL b.mem.links none ([] ++ (rs ++ [nxt]) ++ []) := by
        have := Strand.turn (A := []) (M := rs) (by simpa using hring)
        simpa using this
      have hperm : ([] ++ (rs ++ [nxt]) ++ []).Perm ([] ++ b.linest ++ []) := by
        rw [hrows]
        simp
      obtain ⟨hl, ht⟩ := hkey [] [] hperm hturn
      exact ⟨[], [], hl, ht, Or.inr ⟨rfl, rfl, rfl, rfl⟩⟩
    | cons c pre =>
      rw [List.cons_append, List.headD_cons] at hfirst
      subst hfirst
      have hturn : Strand NULL b.mem.links none ((pre ++ [r₀]) ++ (rs ++ [nxt]) ++ []) := by
        have := Strand.turn hring
        rw [hrows] at this
        simpa using this
      have hperm : ((pre ++ [r₀]) ++ (rs ++ [nxt]) ++ []).Perm (nxt :: pre ++ b.linest ++ []) := by
        rw [hrows]
        simpa using (List.perm_append_singleton nxt (pre ++ r₀ :: rs))
      obtain ⟨hl, ht⟩ := hkey (pre ++ [r₀]) [] hperm hturn
      exact ⟨pre ++ [r₀], [], hl, ht, Or.inr ⟨rfl, rfl, rfl, rfl⟩⟩

/-- The account of one more line under the screen: it is new and counted, or it
is the oldest line of the scrollback, which starts one line later. -/
def Accounted (b b' : VSbuf) : Prop :=
  (b'.next b'.lastRow ≠ b.buftop ∧ b'.buftop = b.buftop ∧ b'.numlines = short (b.numlines+1)) ∨
    (b'.next b'.lastRow = b.buftop ∧ b'.buftop = b'.next b.buftop ∧ b'.numlines = b.numlines)

/-- The scrollback of an open list starts at its first line. -/
def Anchored (b : VSbuf) (e : Option Ptr) (pre : List Ptr) : Prop :=
  e ≠ none → b.buftop = (pre ++ b.linest).headD NULL

/-- What a step made of the list around the rows: it stays, is extended to at
most `room` lines below them or is closed, and a line follows the last row. -/
structure Extended (b' : VSbuf) (e e' : Option Ptr) (pre post post' : List Ptr) (room : Int) :
    Prop where
  threaded : Threaded b' e' pre post'
  kind : e' = e ∨ e' = none
  grown : post' = post ∨ (post'.length : Int) ≤ room
  nonempty : e' = none ∨ post' ≠ []

theorem countLine_threaded (h : Threaded b e pre post) : Threaded (countLine b) e pre post :=
  ⟨h.strand, h.length, h.lines_nonneg, h.top, h.live, h.live_before⟩

theorem reuseOldest_threaded (h : Threaded b e pre post) : Threaded (reuseOldest b) e pre post :=
  ⟨h.strand, h.length, h.lines_nonneg, h.top, h.live, h.live_before⟩

theorem countLine_sameRows (b : VSbuf) : SameRows b (countLine b) := ⟨rfl, rfl, rfl, rfl, rfl, rfl⟩

theorem reuseOldest_sameRows (b : VSbuf) : SameRows b (reuseOldest b) :=
  ⟨rfl, rfl, rfl, rfl, rfl, rfl⟩

/-- Closing an open list under the screen and reusing its oldest line. -/
theorem closed_spec {b₁ : VSbuf} {p : Ptr} (hb : SameRows b b₁) (hc : SameCount b b₁)
    (hbuf : Anchored b (some p) pre)
    (hcirc : Threaded (makeCircular b₁ b.lastRow) none pre []) :
    SameRows b (reuseOldest (makeCircular b₁ b.lastRow)) ∧
      Accounted b (reuseOldest (makeCircular b₁ b.lastRow)) ∧
      ∃ e' post', Extended (reuseOldest (makeCircular b₁ b.lastRow)) (some p) e' pre [] post'
        (short (b.maxlines-b.numlines)) := by
  have hsame := (hb.trans (makeCircular_sameRows b₁ b.lastRow)).trans
    (reuseOldest_sameRows (makeCircular b₁ b.lastRow))
  have hlast : (makeCircular b₁ b.lastRow).next (makeCircular b₁ b.lastRow).lastRow = b.buftop := by
    rw [hcirc.next_lastRow_ring, hbuf (Option.some_ne_none p)]
    exact congrArg (fun l => (pre ++ l).headD NULL) hb.linest
  refine ⟨hsame, Or.inr ⟨hlast, ?_, hc.numlines⟩, none, [], reuseOldest_threaded hcirc,
    Or.inr rfl, Or.inl rfl, Or.inl rfl⟩
  exact congrArg (makeCircular b₁ b.lastRow).next hc.buftop

/-- New lines linked behind the last row, of which one is counted. -/
theorem grown_spec {p : Ptr} (h : Threaded b (some p) pre []) (hold : b.oldScrollback = false)
    (hmem : b.buftop ∈ pre ++ b.linest) {n : Int} (hn : 0 < n)
    (hroom : n ≤ short (b.maxlines-b.numlines)) (hok : (newlines b n).1 ≠ NULL) :
    SameRows b (countLine (linkBehind (newlines b n).2 b.lastRow (newlines b n).1)) ∧
      Accounted b (countLine (linkBehind (newlines b n).2 b.lastRow (newlines b n).1)) ∧
      ∃ post', Extended (countLine (linkBehind (newlines b n).2 b.lastRow (newlines b n).1))
        (some p) (some p) pre [] post' (short (b.maxlines-b.numlines)) := by
  have hsame : SameRows b (countLine (linkBehind (newlines b n).2 b.lastRow (newlines b n).1)) :=
    ⟨rfl, rfl, rfl, rfl, rfl, rfl⟩
  obtain ⟨F, hF, hth⟩ := newlines_linked h hold hn hok
  have hl : (pre ++ b.linest ++ []).getLastD NULL = b.lastRow := by
    rw [List.append_nil, getLastD_append_of_ne_nil NULL h.linest_ne_nil, h.lastRow_eq]
  rw [hl, List.nil_append] at hth
  have hFne : F ≠ [] := by
    apply List.ne_nil_of_length_pos
    omega
  have hct := countLine_threaded hth
  refine ⟨hsame, Or.inl ⟨?_, rfl, rfl⟩, F, hct, Or.inl rfl, Or.inr ?_, Or.inr hFne⟩
  · -- the new line is not the oldest one, which is in the list before it
    rw [hct.next_lastRow]
    intro he
    apply List.disjoint_of_nodup_append hct.strand.nodup hmem
    exact he ▸ headD_mem _ hFne
  · omega

theorem atOnce_le (i : Int) : atOnce i ≤ i := by
  rw [atOnce]
  split_ifs <;> omega

theorem Anchored.mem (hbuf : Anchored b e pre) (h : Threaded b e pre post) (he : e ≠ none) :
    b.buftop ∈ pre ++ b.linest := by
  rw [hbuf he]
  exact headD_mem NULL (List.append_ne_nil_of_right_ne_nil pre h.linest_ne_nil)

/-- Making a line available behind the last row closes the list: it ends there and
no lines are allocated. -/
def ClosesBehind (b : VSbuf) : Prop :=
  b.next b.lastRow = NULL ∧ (atOnce (short (b.maxlines-b.numlines)) ≤ 0 ∨
    (newlines b (atOnce (short (b.maxlines-b.numlines)))).1 = NULL)

/-- One line is made available behind the last row, and accounted for. The list is
closed only where the scrollback starts it. -/
theorem advanceBuffer_spec (h : Threaded b e pre post) (hold : b.oldScrollback = false)
    (hmem : e ≠ none → b.buftop ∈ pre ++ b.linest) (hbuf : ClosesBehind b → Anchored b e pre) :
    SameRows b (advanceBuffer b) ∧ Accounted b (advanceBuffer b) ∧
      ∃ e' post', Extended (advanceBuffer b) e e' pre post post'
        (short (b.maxlines-b.numlines)) ∧ (e' = e ∨ Anchored b e pre) := by
  by_cases hnull : b.next b.lastRow = NULL
  · obtain ⟨he, rfl⟩ := h.next_lastRow_null.mp hnull
    obtain ⟨p, rfl⟩ := Option.ne_none_iff_exists'.mp he
    have hl : (pre ++ b.linest ++ []).getLastD NULL = b.lastRow := by
      rw [List.append_nil, getLastD_append_of_ne_nil NULL h.linest_ne_nil, h.lastRow_eq]
    have hroom := atOnce_le (short (b.maxlines-b.numlines))
    simp only [ClosesBehind] at hbuf
    generalize hi : atOnce (short (b.maxlines-b.numlines)) = i at hroom hbuf
    simp only [advanceBuffer, hi, if_pos hnull]
    by_cases hpos : i > 0
    · rw [if_pos hpos]
      by_cases hok : (newlines b i).1 ≠ NULL
      · rw [if_pos hok]
        obtain ⟨hsame, hacc, post', hext⟩ := grown_spec h hold (hmem he) hpos hroom hok
        exact ⟨hsame, hacc, some p, post', hext, Or.inl rfl⟩
      · have hbrk : 0 < b.mem.brk := Nat.zero_lt_of_lt (h.live_before p rfl)
        obtain ⟨hsame, hcount, -⟩ := newlines_spec h hold hbrk i
        have hanch := hbuf ⟨hnull, Or.inr (not_not.mp hok)⟩
        have hcirc := newlines_closed h hold (hanch he) i
        rw [hl] at hcirc
        rw [if_neg hok]
        obtain ⟨hsame', hacc, e', post', hext⟩ := closed_spec hsame hcount hanch hcirc
        exact ⟨hsame', hacc, e', post', hext, Or.inr hanch⟩
    · rw [if_neg hpos]
      have hanch := hbuf ⟨hnull, Or.inl (not_lt.mp hpos)⟩
      have hcirc := makeCircular_threaded h (hanch he)
      rw [hl] at hcirc
      obtain ⟨hsame, hacc, e', post', hext⟩ :=
        closed_spec ⟨rfl, rfl, rfl, rfl, rfl, rfl⟩ ⟨rfl, rfl⟩ hanch hcirc
      exact ⟨hsame, hacc, e', post', hext, Or.inr hanch⟩
  · simp only [advanceBuffer, if_neg hnull]
    have hgo : e = none ∨ post ≠ [] := by
      by_contra hc
      push Not at hc
      exact hnull (h.next_lastRow_null.mpr hc)
    by_cases hold' : b.next b.lastRow = b.buftop
    · rw [if_pos hold']
      exact ⟨reuseOldest_sameRows b, Or.inr ⟨hold', rfl, rfl⟩, e, post,
        ⟨reuseOldest_threaded h, Or.inl rfl, Or.inl rfl, hgo⟩, Or.inl rfl⟩
    · rw [if_neg hold']
      exact ⟨countLine_sameRows b, Or.inl ⟨hold', rfl, rfl⟩, e, post,
        ⟨countLine_threaded h, Or.inl rfl, Or.inl rfl, hgo⟩, Or.inl rfl⟩

end Grow

end VS
