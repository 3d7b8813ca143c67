import MacSSH.ScreenAdvance

/-! Scrolling by one line and saving a whole screen keep the rows in one list. -/
namespace VS

open Linked

section Scroll
variable {b : VSbuf} {e : Option Ptr} {pre post : List Ptr}

theorem Threaded.of_links (h : Threaded b e pre post) {b' : VSbuf} (hb : SameRows b b')
    (hl : b'.mem.links = b.mem.links) (hk : b'.mem.brk = b.mem.brk) :
    Threaded b' e pre post := by
  apply h.of_strand hb
  · rw [hl]
    exact h.strand
  · rw [hk]
    exact h.live
  · rw [hk]
    exact h.live_before

/-- Nothing is allocated for a screen when the list is a ring. -/
theorem reserveScreen_ring (h : Threaded b none pre post) (fuel i : ℕ) {tmp : Ptr}
    (ht : tmp ∈ pre ++ b.linest ++ post) : reserveScreen b fuel i tmp = b := by
  induction fuel generalizing i tmp with
  | zero => rfl
  | succ fuel ih =>
    have hmem : b.next tmp ∈ pre ++ b.linest ++ post := h.strand.next_mem ht
    have hne : b.next tmp ≠ NULL := fun hn => h.strand.null_mem (hn ▸ hmem)
    rw [reserveScreen, if_neg hne]
    exact ih (i+1) hmem

/-- What reserving a screenful of lines made of the list: it stays, is extended
or is closed, and a screenful of lines follows the last row. -/
structure Reserved (b b' : VSbuf) (e e' : Option Ptr) (pre post post' : List Ptr) : Prop where
  threaded : Threaded b' e' pre post'
  same : SameRows b b'
  count : SameCount b b'
  kind : e' = e ∨ e' = none
  grown : post' = post ∨ (0 < short (b.maxlines-b.numlines-post.length) ∧
    (post'.length : Int) ≤ max (post.length+short (b.maxlines-b.numlines-post.length)) (b.lines+1))
  enough : e' = none ∨ b.lines+1 ≤ post'.length

/-- Reserving a screenful closes the list: it ends before and no lines are
allocated. -/
def ClosesBelow (b : VSbuf) : ℕ → ℕ → Ptr → Prop
  | 0, _, _ => False
  | fuel+1, i, tmp =>
    if b.next tmp = NULL then
      let j := atOnce (short (b.maxlines-b.numlines-i))
      j ≤ 0 ∨ (newlines b (if j < b.lines-i+1 then short (b.lines-i+1) else j)).1 = NULL
    else ClosesBelow b fuel (i+1) (b.next tmp)

/-- What reserving a screenful did to the end of the list: it closed the list where it
ended, or it did not, and a ring stayed as it was. -/
def Closing (closes : Prop) (e e' : Option Ptr) (post post' : List Ptr) : Prop :=
  (¬closes ∧ e' = e ∧ (e = none → post' = post)) ∨ (closes ∧ e' = none ∧ post' = post)

/-- The list ends with the `i`-th line below the screen: it is extended by what a
screenful still needs, or closed. -/
theorem reserveScreen_end {p : Ptr} (h : Threaded b (some p) pre post)
    (hold : b.oldScrollback = false) (hlines : b.lines < 32767)
    (hlt : (post.length : Int) ≤ b.lines) (fuel : ℕ)
    (hend : b.next ((pre ++ b.linest ++ post).getLastD NULL) = NULL)
    (hbuf : ClosesBelow b (fuel+1) post.length ((pre ++ b.linest ++ post).getLastD NULL) →
      Anchored b (some p) pre) :
    ∃ e' post', Reserved b (reserveScreen b (fuel+1) post.length
      ((pre ++ b.linest ++ post).getLastD NULL)) (some p) e' pre post post' ∧
      Closing (ClosesBelow b (fuel+1) post.length ((pre ++ b.linest ++ post).getLastD NULL))
        (some p) e' post post' := by
  have hsn := Option.some_ne_none p
  have hbrk : 0 < b.mem.brk := Nat.zero_lt_of_lt (h.live_before p rfl)
  have hroom := atOnce_le (short (b.maxlines-b.numlines-post.length))
  simp only [ClosesBelow, if_pos hend] at hbuf ⊢
  generalize hj : atOnce (short (b.maxlines-b.numlines-post.length)) = j at hroom hbuf ⊢
  simp only [reserveScreen, hj, if_pos hend]
  by_cases hpos : j ≤ 0
  · rw [if_pos hpos]
    have hanch := hbuf (Or.inl hpos)
    exact ⟨none, post, ⟨makeCircular_threaded h (hanch hsn), makeCircular_sameRows b _, ⟨rfl, rfl⟩,
      Or.inr rfl, Or.inl rfl, Or.inl rfl⟩, Or.inr ⟨Or.inl hpos, rfl, rfl⟩⟩
  · rw [if_neg hpos]
    have hk : short (b.lines-post.length+1) = b.lines-post.length+1 :=
      short_eq (by omega) (by omega)
    rw [hk] at hbuf ⊢
    generalize hn : (if j < b.lines-post.length+1 then b.lines-post.length+1 else j) = n at hbuf ⊢
    have hn0 : 0 < n ∧ b.lines-post.length+1 ≤ n ∧
        (post.length : Int)+n ≤
          max (post.length+short (b.maxlines-b.numlines-post.length)) (b.lines+1) := by
      rw [← hn]
      split_ifs <;> omega
    obtain ⟨hsame, hcount, -⟩ := newlines_spec h hold hbrk n
    by_cases hok : (newlines b n).1 ≠ NULL
    · rw [if_pos hok]
      obtain ⟨F, hF, hth⟩ := newlines_linked h hold hn0.1 hok
      have hlen : ((post ++ F).length : Int) = post.length+n := by
        rw [List.length_append, hF]
        omega
      refine ⟨some p, post ++ F, ⟨hth, hsame.trans (linkBehind_sameRows _ _ _),
        ⟨hcount.buftop, hcount.numlines⟩, Or.inl rfl, Or.inr ⟨by omega, ?_⟩, Or.inr ?_⟩,
        Or.inl ⟨not_or.mpr ⟨hpos, hok⟩, rfl, fun h => absurd h hsn⟩⟩
      · rw [hlen]
        exact hn0.2.2
      · omega
    · rw [if_neg hok]
      have hanch := hbuf (Or.inr (not_not.mp hok))
      exact ⟨none, post, ⟨newlines_closed h hold (hanch hsn) n,
        hsame.trans (makeCircular_sameRows _ _), ⟨hcount.buftop, hcount.numlines⟩,
        Or.inr rfl, Or.inl rfl, Or.inl rfl⟩, Or.inr ⟨Or.inr (not_not.mp hok), rfl, rfl⟩⟩

/-- A screenful of lines is made available below the screen. -/
theorem reserveScreen_open {p : Ptr} (h : Threaded b (some p) pre post)
    (hold : b.oldScrollback = false) (hlines : b.lines < 32767) (fuel : ℕ) (P Q : List Ptr)
    (hPQ : post = P ++ Q) (hfuel : (P.length : Int)+fuel = b.lines+1)
    (hbuf : ClosesBelow b fuel P.length ((pre ++ b.linest ++ P).getLastD NULL) →
      Anchored b (some p) pre) :
    ∃ e' post', Reserved b (reserveScreen b fuel P.length
      ((pre ++ b.linest ++ P).getLastD NULL)) (some p) e' pre post post' ∧
      Closing (ClosesBelow b fuel P.length ((pre ++ b.linest ++ P).getLastD NULL))
        (some p) e' post post' := by
  induction fuel generalizing P Q with
  | zero =>
    refine ⟨some p, post, ⟨h, ⟨rfl, rfl, rfl, rfl, rfl, rfl⟩, ⟨rfl, rfl⟩, Or.inl rfl, Or.inl rfl,
      Or.inr ?_⟩, Or.inl ⟨id, rfl, nofun⟩⟩
    rw [hPQ, List.length_append]
    omega
  | succ fuel ih =>
    have hseg := h.strand.seg
    rw [hPQ, ← List.append_assoc] at hseg
    have hne : pre ++ b.linest ++ P ≠ [] := by
      intro hn
      exact h.linest_ne_nil (List.append_eq_nil_iff.mp (List.append_eq_nil_iff.mp hn).1).2
    have hnext : b.next ((pre ++ b.linest ++ P).getLastD NULL) = Q.headD NULL := by
      have hs := ((seg_append _ _ _ (pre ++ b.linest ++ P) Q).mp hseg).1
      rw [getLastD_default NULL _ hne]
      exact seg_next_getLastD hs hne
    cases Q with
    | nil =>
      rw [List.append_nil] at hPQ
      subst hPQ
      exact reserveScreen_end h hold hlines (by omega) fuel hnext hbuf
    | cons a Q =>
      have ha : a ≠ NULL := by
        intro hn
        apply h.strand.null_mem
        rw [hPQ, ← hn]
        simp
      rw [ClosesBelow, hnext, List.headD_cons, if_neg ha] at hbuf ⊢
      rw [reserveScreen, hnext, List.headD_cons, if_neg ha]
      have hlast : a = (pre ++ b.linest ++ (P ++ [a])).getLastD NULL := by
        rw [← List.append_assoc, getLastD_append_of_ne_nil NULL (List.cons_ne_nil a [])]
        rfl
      have hlen : (P ++ [a]).length = P.length+1 := by
        rw [List.length_append, List.length_singleton]
      have hrec := ih (P ++ [a]) Q (by rw [hPQ]; simp) (by rw [hlen]; push_cast; omega)
      rw [← hlast, hlen] at hrec
      specialize hrec hbuf
      exact hrec

/-- The scrollback starts at the first line of the list, and its count is `d` less
than the number of lines before the rows. -/
structure Account (b : VSbuf) (d : ℕ) (pre : List Ptr) : Prop where
  buftop : b.buftop = (pre ++ b.linest).headD NULL
  numlines_nonneg : 0 ≤ b.numlines
  numlines : b.numlines+d = pre.length

theorem headD_append_tail {l : List Ptr} (pre : List Ptr) (rest : List Ptr) (hl : l ≠ []) :
    (pre ++ [l.headD NULL] ++ rest).headD NULL = (pre ++ l).headD NULL := by
  cases pre with
  | cons a pre => rfl
  | nil =>
    cases l with
    | nil => exact absurd rfl hl
    | cons a l => rfl

/-- The account stays right when a line that was below the screen comes up. -/
theorem Account.of_below {b₁ : VSbuf} {d : ℕ} (hacc : Account b d pre)
    (h : Threaded b₁ e pre post) (hb : SameRows b b₁) (hone : Accounted b b₁) {post' : List Ptr}
    (hpost : post = b₁.next b₁.lastRow :: post') (hroom : b.numlines < 32767) :
    Account (shiftUp b₁) d (pre ++ [b₁.scrntop]) ∧ (shiftUp b₁).numlines = b.numlines+1 := by
  have hne : pre ++ b₁.linest ≠ [] := List.append_ne_nil_of_right_ne_nil pre h.linest_ne_nil
  -- the line that comes up is not the oldest one, by which the list starts
  have hnew : b₁.next b₁.lastRow ≠ b.buftop := by
    rw [hacc.buftop, ← hb.linest]
    intro he
    apply List.disjoint_of_nodup_append h.strand.nodup (headD_mem NULL hne)
    rw [← he, hpost]
    exact List.mem_cons_self
  rcases hone with ⟨-, hbuf, hnum⟩ | ⟨he, -⟩
  · have h0 := hacc.numlines_nonneg
    have hn : (shiftUp b₁).numlines = b.numlines+1 :=
      hnum.trans (short_eq (by omega) (by omega))
    refine ⟨⟨?_, by omega, ?_⟩, hn⟩
    · have htop := headD_append_tail pre (shiftUp b₁).linest h.linest_ne_nil
      rw [h.top, htop, hb.linest, ← hacc.buftop]
      exact hbuf
    · have hd := hacc.numlines
      rw [hn, List.length_append, List.length_singleton]
      omega
  · exact absurd he hnew

/-- The account stays right when the oldest line of a ring is reused. -/
theorem Account.of_ring {b₁ : VSbuf} {d : ℕ} (hacc : Account b d pre)
    (h : Threaded b₁ none pre []) (hb : SameRows b b₁) (hone : Accounted b b₁)
    (hrows : (shiftUp b₁).linest = b₁.linest.tail ++ [b₁.next b₁.lastRow]) :
    Account (shiftUp b₁) d (pre ++ [b₁.scrntop]).tail ∧ (shiftUp b₁).numlines = b.numlines := by
  have hlast := h.next_lastRow_ring
  rw [hb.linest, ← hacc.buftop] at hlast
  obtain ⟨r₀, rs, hr⟩ := List.exists_cons_of_ne_nil h.linest_ne_nil
  have htop : b₁.scrntop = r₀ := by rw [h.top, hr, List.headD_cons]
  rcases hone with ⟨hne, -⟩ | ⟨-, hbuf, hnum⟩
  · exact absurd hlast hne
  have hfirst := hacc.buftop
  have hseg := h.strand.seg
  rw [← hb.linest, hr] at hfirst
  rw [List.append_nil, after_none, hr] at hseg
  refine ⟨⟨?_, hnum.symm ▸ hacc.numlines_nonneg, ?_⟩, hnum⟩
  · rw [hrows, hlast, hr, htop, List.tail_cons]
    cases pre with
    | nil =>
      rw [List.nil_append, List.headD_cons] at hfirst
      rw [hfirst] at hbuf ⊢
      rw [List.nil_append, List.tail_cons, List.nil_append, headD_append]
      exact hbuf.trans hseg.2.1
    | cons c pre =>
      rw [List.cons_append, List.headD_cons] at hfirst
      rw [hfirst] at hbuf ⊢
      rw [List.cons_append, List.tail_cons, List.append_assoc, headD_append]
      have hn : b₁.next c = (pre ++ r₀ :: rs).headD c := hseg.2.1
      rw [headD_append, List.headD_cons] at hn
      exact hbuf.trans hn
  · have hlen : (pre ++ [b₁.scrntop]).tail.length = pre.length := by
      rw [List.length_tail, List.length_append, List.length_singleton, Nat.add_sub_cancel]
    rw [hlen, ← hacc.numlines]
    exact congrArg (·+(d : Int)) hnum

/-- Two buffers of one size that save lines alike. -/
structure SameSize (b b' : VSbuf) : Prop where
  lines : b'.lines = b.lines
  maxlines : b'.maxlines = b.maxlines
  savelines : b'.savelines = b.savelines
  oldScrollback : b'.oldScrollback = b.oldScrollback

theorem SameSize.refl (b : VSbuf) : SameSize b b := ⟨rfl, rfl, rfl, rfl⟩

theorem SameSize.trans {b b' b'' : VSbuf} (h : SameSize b b') (h' : SameSize b' b'') :
    SameSize b b'' :=
  ⟨h'.lines.trans h.lines, h'.maxlines.trans h.maxlines, h'.savelines.trans h.savelines,
    h'.oldScrollback.trans h.oldScrollback⟩

theorem SameRows.size {b b' : VSbuf} (h : SameRows b b') : SameSize b b' :=
  ⟨h.lines, h.maxlines, h.savelines, h.oldScrollback⟩

/-- At most `n` lines will be counted before more are allocated, within the limit
the user gave plus a screenful, and a `short` counts as many. -/
structure Roomy (b : VSbuf) (n : Int) : Prop where
  maxlines_nonneg : 0 ≤ b.maxlines
  countable : b.maxlines+b.lines ≤ 32767
  bounded : n ≤ b.maxlines+b.lines

theorem Roomy.of_size {b' : VSbuf} {n : Int} (h : Roomy b n) (hb : SameSize b b') : Roomy b' n := by
  refine ⟨?_, ?_, ?_⟩
  · rw [hb.maxlines]
    exact h.maxlines_nonneg
  · rw [hb.maxlines, hb.lines]
    exact h.countable
  · rw [hb.maxlines, hb.lines]
    exact h.bounded

/-- The account of the scrollback is right and stays countable. -/
structure Saved (b : VSbuf) (d : ℕ) (pre post : List Ptr) : Prop where
  account : Account b d pre
  room : Roomy b (b.numlines+post.length)

/-- A step keeps the rows in one list, and keeps the account of the scrollback. -/
structure Keeps (b b' : VSbuf) (e : Option Ptr) (pre post : List Ptr) (e' : Option Ptr)
    (pre' post' : List Ptr) : Prop where
  threaded : Threaded b' e' pre' post'
  kind : e' = e ∨ e' = none
  size : SameSize b b'
  saved : ∀ d, Saved b d pre post → Saved b' d pre' post'

theorem Keeps.trans {b b' b'' : VSbuf} {e e' e'' : Option Ptr}
    {pre post pre' post' pre'' post'' : List Ptr} (h : Keeps b b' e pre post e' pre' post')
    (h' : Keeps b' b'' e' pre' post' e'' pre'' post'') :
    Keeps b b'' e pre post e'' pre'' post'' where
  threaded := h'.threaded
  kind := by
    rcases h'.kind with hk | hk
    · rw [hk]
      exact h.kind
    · exact Or.inr hk
  size := h.size.trans h'.size
  saved := fun d hs => h'.saved d (h.saved d hs)

/-- The rows move up by one line that has been accounted for. -/
theorem shift_saved {b₁ : VSbuf} (h : Threaded b₁ e pre post) (hb : SameRows b b₁)
    (hone : Accounted b b₁) (hgo : e = none ∨ post ≠ []) :
    ∃ pre' post', Threaded (shiftUp b₁) e pre' post' ∧
      (post'.length+1 = post.length ∨ e = none) ∧
      ∀ d, Account b d pre → Roomy b (b.numlines+post.length) →
        Saved (shiftUp b₁) d pre' post' := by
  have hsize : SameSize b (shiftUp b₁) := ⟨hb.lines, hb.maxlines, hb.savelines, hb.oldScrollback⟩
  obtain ⟨pre', post', hrows, hth, ⟨hpost, hpre⟩ | ⟨he, hpost, hpost', hpre⟩⟩ := h.shift hgo
  · have hlen : post'.length+1 = post.length := by rw [hpost, List.length_cons]
    refine ⟨pre', post', hth, Or.inl hlen, ?_⟩
    intro d hacc hroom
    have hc := hroom.countable
    have hr := hroom.bounded
    rw [hpre]
    obtain ⟨hacc', hn⟩ := hacc.of_below h hb hone hpost (by omega)
    refine ⟨hacc', ?_⟩
    have hm : (shiftUp b₁).numlines+post'.length = b.numlines+post.length := by omega
    rw [hm]
    exact hroom.of_size hsize
  · subst he hpost hpost' hpre
    refine ⟨_, _, hth, Or.inr rfl, ?_⟩
    intro d hacc hroom
    obtain ⟨hacc', hn⟩ := hacc.of_ring h hb hone hrows
    refine ⟨hacc', ?_⟩
    rw [hn]
    exact hroom.of_size hsize

theorem pushRow_eq (hold : b.oldScrollback = false) : pushRow b =
    shiftUp (if b.next b.lastRow = b.buftop then reuseOldest b else countLine b) := by
  generalize hb₁ : (if b.next b.lastRow = b.buftop then reuseOldest b else countLine b) = b₁
  have hold₁ : b₁.oldScrollback = false := by
    rw [← hb₁, ← hold]
    split_ifs <;> rfl
  simp only [pushRow, hb₁]
  exact if_neg (fun hc => Bool.false_ne_true (hold₁.symm.trans hc))

/-- Pushing one row into the scrollback. -/
theorem pushRow_spec (h : Threaded b e pre post) (hold : b.oldScrollback = false)
    (hgo : e = none ∨ post ≠ []) :
    ∃ pre' post', Keeps b (pushRow b) e pre post e pre' post' ∧
      (post'.length+1 = post.length ∨ e = none) := by
  rw [pushRow_eq hold]
  have hone : ∃ b₁, (if b.next b.lastRow = b.buftop then reuseOldest b else countLine b) = b₁ ∧
      SameRows b b₁ ∧ Accounted b b₁ ∧ Threaded b₁ e pre post := by
    refine ⟨_, rfl, ?_⟩
    split_ifs with hc
    · exact ⟨reuseOldest_sameRows b, Or.inr ⟨hc, rfl, rfl⟩, reuseOldest_threaded h⟩
    · exact ⟨countLine_sameRows b, Or.inl ⟨hc, rfl, rfl⟩, countLine_threaded h⟩
  obtain ⟨b₁, hb₁, hsame, hacc, hth⟩ := hone
  rw [hb₁]
  obtain ⟨pre', post', hth', hpost, hsaved⟩ := shift_saved hth hsame hacc hgo
  exact ⟨pre', post', ⟨hth', Or.inl rfl,
    ⟨hsame.lines, hsame.maxlines, hsame.savelines, hsame.oldScrollback⟩,
    fun d hs => hsaved d hs.account hs.room⟩, hpost⟩

/-- Pushing `k` rows when as many lines are available below the screen. -/
theorem pushRow_iterate (k : ℕ) {b : VSbuf} {pre post : List Ptr} (h : Threaded b e pre post)
    (hold : b.oldScrollback = false) (hgo : e = none ∨ k ≤ post.length) :
    ∃ pre' post', Keeps b (pushRow^[k] b) e pre post e pre' post' := by
  induction k generalizing b pre post with
  | zero => exact ⟨pre, post, h, Or.inl rfl, SameSize.refl b, fun _ => id⟩
  | succ k ih =>
    have hne : e = none ∨ post ≠ [] := by
      rcases hgo with he | hk
      · exact Or.inl he
      · right
        apply List.ne_nil_of_length_pos
        omega
    obtain ⟨pre', post', hkeep, hpost⟩ := pushRow_spec h hold hne
    have hgo' : e = none ∨ k ≤ post'.length := by
      rcases hgo with he | hk
      · exact Or.inl he
      · rcases hpost with hp | he
        · right
          omega
        · exact Or.inl he
    obtain ⟨pre'', post'', hrest⟩ := ih hkeep.threaded (hkeep.size.oldScrollback.trans hold) hgo'
    rw [Function.iterate_succ_apply]
    exact ⟨pre'', post'', hkeep.trans hrest⟩

/-- Reserving a screenful keeps the account: the list grows by no more than the
user's limit allows, or by a screenful. -/
theorem Reserved.saved {b' : VSbuf} {e' : Option Ptr} {post' : List Ptr} {d : ℕ}
    (hr : Reserved b b' e e' pre post post') (hs : Saved b d pre post) : Saved b' d pre post' := by
  obtain ⟨⟨hbuf, hnn, hnum⟩, hm, hc, hbound⟩ := hs
  refine ⟨⟨?_, ?_, ?_⟩, Roomy.of_size ⟨hm, hc, ?_⟩ hr.same.size⟩
  · rw [hr.count.buftop, hr.same.linest]
    exact hbuf
  · rw [hr.count.numlines]
    exact hnn
  · rw [hr.count.numlines]
    exact hnum
  · rw [hr.count.numlines]
    rcases hr.grown with hp | ⟨hpos, hlen⟩
    · rw [hp]
      exact hbound
    · have h0 : 0 ≤ b.lines := hr.same.lines ▸ hr.threaded.lines_nonneg
      have hshort : short (b.maxlines-b.numlines-post.length) =
          b.maxlines-b.numlines-post.length := short_eq (by omega) (by omega)
      rw [hshort] at hpos hlen
      rcases le_max_iff.mp hlen with hl | hl <;> omega

theorem not_closesBelow_ring (h : Threaded b none pre post) (fuel i : ℕ) {tmp : Ptr}
    (ht : tmp ∈ pre ++ b.linest ++ post) : ¬ClosesBelow b fuel i tmp := by
  induction fuel generalizing i tmp with
  | zero => exact id
  | succ fuel ih =>
    have hmem : b.next tmp ∈ pre ++ b.linest ++ post := h.strand.next_mem ht
    have hne : b.next tmp ≠ NULL := fun hn => h.strand.null_mem (hn ▸ hmem)
    rw [ClosesBelow, if_neg hne]
    exact ih (i+1) hmem

/-- A screenful of lines is made available below the screen, the end of the list
included. -/
theorem reserveScreen_closing (h : Threaded b e pre post) (hold : b.oldScrollback = false)
    (hlines : b.lines < 32767)
    (hbuf : ClosesBelow b (b.lines+1).toNat 0 b.lastRow → Anchored b e pre) :
    ∃ e' post', Reserved b (reserveScreen b (b.lines+1).toNat 0 b.lastRow) e e' pre post post' ∧
      Closing (ClosesBelow b (b.lines+1).toNat 0 b.lastRow) e e' post post' := by
  cases e with
  | none =>
    have hmem : b.lastRow ∈ pre ++ b.linest ++ post := by
      rw [h.lastRow_eq]
      exact List.mem_append_left _ (List.mem_append_right _ (getLastD_mem NULL h.linest_ne_nil))
    rw [reserveScreen_ring h _ _ hmem]
    exact ⟨none, post, ⟨h, ⟨rfl, rfl, rfl, rfl, rfl, rfl⟩, ⟨rfl, rfl⟩, Or.inl rfl, Or.inl rfl,
      Or.inl rfl⟩, Or.inl ⟨not_closesBelow_ring h _ _ hmem, rfl, fun _ => rfl⟩⟩
  | some p =>
    have h0 := h.lines_nonneg
    have hspec := reserveScreen_open h hold hlines (b.lines+1).toNat [] post rfl (by simp; omega)
    rw [List.append_nil, getLastD_append_of_ne_nil NULL h.linest_ne_nil, ← h.lastRow_eq] at hspec
    exact hspec hbuf

theorem reserveScreen_spec (h : Threaded b e pre post) (hold : b.oldScrollback = false)
    (hlines : b.lines < 32767)
    (hbuf : ClosesBelow b (b.lines+1).toNat 0 b.lastRow → Anchored b e pre) :
    ∃ e' post', Reserved b (reserveScreen b (b.lines+1).toNat 0 b.lastRow) e e' pre post post' ∧
      (e' = e ∨ Anchored b e pre) := by
  obtain ⟨e', post', hres, ⟨-, he, -⟩ | ⟨hc, -⟩⟩ := reserveScreen_closing h hold hlines hbuf
  · exact ⟨e', post', hres, Or.inl he⟩
  · exact ⟨e', post', hres, Or.inr (hbuf hc)⟩

/-- Saving the screen keeps the rows in one list. -/
theorem VSIscroff_spec (r : VSregion) (h : Threaded b e pre post) (hold : b.oldScrollback = false)
    (hbuf : Anchored b e pre) (hlines : b.lines < 32767) :
    ∃ e' pre' post', Keeps b (VSIscroff r b) e pre post e' pre' post' := by
  simp only [VSIscroff]
  split_ifs with hc
  · exact ⟨e, pre, post, h, Or.inl rfl, SameSize.refl b, fun _ => id⟩
  · obtain ⟨e', post', hres, -⟩ := reserveScreen_spec h hold hlines (fun _ => hbuf)
    have hkeep : Keeps b (reserveScreen b (b.lines+1).toNat 0 b.lastRow) e pre post e' pre post' :=
      ⟨hres.threaded, hres.kind, hres.same.size, fun _ => hres.saved⟩
    have henough : e' = none ∨ (b.lines+1).toNat ≤ post'.length := by
      rcases hres.enough with he | hl
      · exact Or.inl he
      · right
        omega
    obtain ⟨pre', post'', hpush⟩ := pushRow_iterate (b.lines+1).toNat hres.threaded
      (hres.same.oldScrollback.trans hold) henough
    have hall := hkeep.trans hpush
    refine ⟨e', pre', post'', ?_, hall.kind, ?_, ?_⟩
    · exact hall.threaded.of_links ⟨rfl, rfl, rfl, rfl, rfl, rfl⟩ rfl rfl
    · exact ⟨hall.size.lines, hall.size.maxlines, hall.size.savelines, hall.size.oldScrollback⟩
    · intro d hs
      obtain ⟨⟨hb, hnn, hn⟩, hroom⟩ := hall.saved d hs
      exact ⟨⟨hb, hnn, hn⟩, hroom.of_size ⟨rfl, rfl, rfl, rfl⟩⟩

/-- The links after the last row has been taken to before the row `bottom`. -/
theorem rotateBelow_links (b : VSbuf) (bottom : Int) (m : Links Ptr)
    (hm : m = ((((b.mem.links.setNext (b.prev (b.row bottom)) b.lastRow).setPrev b.lastRow
      (b.prev (b.row bottom))).setNext b.lastRow (b.row bottom)).setPrev (b.row bottom)
      b.lastRow).setNext (b.prev b.lastRow) (b.next b.lastRow)) :
    (rotateBelow b bottom).mem.links =
      if b.next b.lastRow ≠ NULL then m.setPrev (b.next b.lastRow) (b.prev b.lastRow) else m := by
  have hnext : m.next (b.prev b.lastRow) = b.next b.lastRow := by
    rw [hm, setNext_next, if_pos rfl]
  have hlinks : (rotateBelow b bottom).mem.links =
      if m.next (b.prev b.lastRow) ≠ NULL
      then m.setPrev (m.next (b.prev b.lastRow)) (b.prev b.lastRow) else m := by
    rw [hm]
    simp only [rotateBelow, apply_ite VSbuf.mem, apply_ite LineMem.links, ite_self]
    rfl
  rw [hlinks, hnext]

/-- Taking the last row to before the row `bottom` exchanges the rows from
`bottom` on with the last one. -/
theorem rotateBelow_swapped {bottom : Int} (hends : Ends NULL b.mem.links
      (b.prev (b.row bottom)) (b.row bottom) (b.prev b.lastRow) b.lastRow b.lastRow
      (b.next b.lastRow)) :
    Swapped NULL b.mem.links (rotateBelow b bottom).mem.links (b.prev (b.row bottom))
      (b.row bottom) (b.prev b.lastRow) b.lastRow b.lastRow (b.next b.lastRow) := by
  rw [rotateBelow_links b bottom _ rfl]
  generalize b.row bottom = x at hends ⊢
  generalize b.lastRow = y at hends ⊢
  obtain ⟨-, -, -, -, hf, hl, ⟨hp, hp'⟩, ⟨hq, hq'⟩, -, -⟩ := hends
  constructor
  · intro a ha
    split_ifs <;> simp_all
  · intro a ha
    by_cases hnull : b.next y = NULL
    · have haq : a ≠ b.next y := fun he => ha (he.trans hnull)
      rw [if_neg (not_not.mpr hnull), if_neg haq]
      simp only [setPrev_prev, setNext_prev]
    · rw [if_pos hnull, setPrev_prev]
      simp only [setPrev_prev, setNext_prev]
      by_cases haq : a = b.next y
      · rw [if_pos haq, if_neg (fun he => hq (haq.symm.trans he)),
          if_neg (fun he => hq' (haq.symm.trans he)), if_pos haq]
      · rw [if_neg haq, if_neg haq]

theorem rotateBelow_scrntop (b : VSbuf) (bottom : Int) : (rotateBelow b bottom).scrntop =
    if b.scrntop = b.row bottom then b.lastRow else b.scrntop := by
  have hscr : ∀ b₁ : VSbuf, b₁.scrntop = b.scrntop →
      (if b₁.scrntop = b.row bottom then { b₁ with scrntop := b.lastRow } else b₁).scrntop =
        if b.scrntop = b.row bottom then b.lastRow else b.scrntop := by
    intro b₁ hb₁
    rw [hb₁]
    split_ifs
    · rfl
    · exact hb₁
  apply hscr
  split_ifs <;> rfl

theorem rotateBelow_frame (b : VSbuf) (bottom : Int) :
    SameSize b (rotateBelow b bottom) ∧ SameCount b (rotateBelow b bottom) ∧
      (rotateBelow b bottom).mem.brk = b.mem.brk := by
  simp only [rotateBelow]
  split_ifs <;> exact ⟨⟨rfl, rfl, rfl, rfl⟩, ⟨rfl, rfl⟩, rfl⟩

/-- Two rows of the screen are different lines. -/
theorem Threaded.row_ne (h : Threaded b e pre post) {i j : Int} (hi : 0 ≤ i) (hij : i < j)
    (hj : j ≤ b.lines) : b.row i ≠ b.row j := by
  have hlen := h.length
  have hnd : b.linest.Nodup := h.strand.nodup.of_append_left.of_append_right
  have hi' : i.toNat < b.linest.length := by omega
  have hj' : j.toNat < b.linest.length := by omega
  intro he
  rw [VSbuf.row, VSbuf.row, List.getD_eq_getElem?_getD, List.getD_eq_getElem?_getD,
    List.getElem?_eq_getElem hi', List.getElem?_eq_getElem hj', Option.getD_some,
    Option.getD_some] at he
  have heq := (List.Nodup.getElem_inj_iff hnd).mp he
  omega

/-- The rows from the bottom of the scrolling region on turn by one, unless they are the
whole list. -/
theorem rotateBelow_rows (h : Threaded b e pre post) {bottom : Int} (h0 : 0 ≤ bottom)
    (hlt : bottom < b.lines) (hpart : 0 < bottom ∨ e ≠ none ∨ pre ++ post ≠ []) :
    (VSIlistndx (rotateBelow b bottom) (rotateBelow b bottom).scrntop).linest =
        exchangeRows bottom.toNat b.lines.toNat (b.lines+1).toNat b.linest ∧
      Threaded (VSIlistndx (rotateBelow b bottom) (rotateBelow b bottom).scrntop) e pre post := by
  have hlen := h.length
  have hij : bottom.toNat < b.lines.toNat := by omega
  have hjk : b.lines.toNat < (b.lines+1).toNat := by omega
  have hk : (b.lines+1).toNat ≤ b.linest.length := by omega
  have hl := (slice_split b.linest hij.le hjk.le).symm
  have hX := slice_ne_nil hij (hjk.le.trans hk)
  have hY := slice_ne_nil hjk hk
  have hne : e ≠ none ∨ (pre ++ b.linest.take bottom.toNat) ++
      (b.linest.drop (b.lines+1).toNat ++ post) ≠ [] := by
    rcases hpart with hpos | he | hout
    · right
      intro hn
      simp only [List.append_eq_nil_iff, List.take_eq_nil_iff] at hn
      rcases hn.1.2 with hz | hz
      · omega
      · exact h.linest_ne_nil hz
    · exact Or.inl he
    · right
      intro hn
      simp only [List.append_eq_nil_iff] at hn
      exact hout (by rw [hn.1.1, hn.2.2, List.append_nil])
  have hends := (h.cut hl).neighbours hX hY hne
  -- the ends of the two blocks are the lines that the code names
  have hx : (slice bottom.toNat b.lines.toNat b.linest).headD NULL = b.row bottom :=
    slice_headD _ _ hij
  have hy : (slice b.lines.toNat (b.lines+1).toNat b.linest).headD NULL = b.lastRow :=
    slice_headD _ _ hjk
  have hy' : (slice b.lines.toNat (b.lines+1).toNat b.linest).getLastD NULL = b.lastRow := by
    rw [slice_getLastD _ _ hjk hk, VSbuf.lastRow]
    exact (row_toNat b (by omega)).symm
  have hx' : (slice bottom.toNat b.lines.toNat b.linest).getLastD NULL = b.prev b.lastRow := by
    rw [← hends.prev_y, hy]
    rfl
  rw [hx, hx', hy, hy'] at hends
  have hswap := rotateBelow_swapped hends
  have hstr : Strand NULL (rotateBelow b bottom).mem.links e (pre ++
      exchangeRows bottom.toNat b.lines.toNat (b.lines+1).toNat b.linest ++ post) := by
    have hex := (h.cut hl).exchange hX hY hne (by rw [hx, hx', hy, hy']; exact hswap)
    simpa only [exchangeRows, List.append_assoc] using hex
  obtain ⟨hsize, -, hbrk⟩ := rotateBelow_frame b bottom
  have hscr : (rotateBelow b bottom).scrntop =
      (exchangeRows bottom.toNat b.lines.toNat (b.lines+1).toNat b.linest).headD NULL := by
    rcases h0.eq_or_lt with hz | hpos
    · rw [← hz, rotateBelow_scrntop, h.top, ← row_zero, if_pos rfl, Int.toNat_zero,
        exchangeRows_headD_zero _ hjk hk]
      rfl
    · have hne' : b.scrntop ≠ b.row bottom := by
        rw [h.top, ← row_zero]
        exact h.row_ne le_rfl hpos hlt.le
      rw [exchangeRows_headD _ _ _ (by omega), ← h.top, rotateBelow_scrntop, if_neg hne']
  have hperm := exchangeRows_perm b.linest hij.le hjk.le
  have hmem : ∀ a ∈ pre ++ exchangeRows bottom.toNat b.lines.toNat (b.lines+1).toNat b.linest ++
      post, a ∈ pre ++ b.linest ++ post := by
    intro a ha
    simpa only [List.mem_append, hperm.mem_iff] using ha
  generalize rotateBelow b bottom = b₁ at hstr hsize hbrk hscr ⊢
  have hlen₁ := hperm.length_eq ▸ hsize.lines ▸ hlen
  exact listndx_threaded hstr hlen₁ (hsize.lines ▸ h.lines_nonneg) hscr
    (fun a ha => hbrk ▸ h.live a (hmem a ha)) (fun a ha => hbrk ▸ h.live_before a ha)

theorem moveUnlessAdjacent_frame (b : VSbuf) (TD BD TI BI : Ptr) :
    SameSize b (moveUnlessAdjacent b TD BD TI BI) ∧
      SameCount b (moveUnlessAdjacent b TD BD TI BI) := by
  rw [moveUnlessAdjacent]
  split_ifs <;> exact ⟨⟨rfl, rfl, rfl, rfl⟩, ⟨rfl, rfl⟩⟩

theorem syncVisible_frame (b : VSbuf) :
    SameSize b (syncVisible b) ∧ SameCount b (syncVisible b) := by
  rw [syncVisible]
  split_ifs <;> exact ⟨⟨rfl, rfl, rfl, rfl⟩, ⟨rfl, rfl⟩⟩

theorem settle_frame {b' : VSbuf} (hs : SameSize b b') (hc : SameCount b b') (w : Int)
    (a : BitVec 32) (l : Bool) (k : ℕ) (p ts : Ptr) :
    SameSize b (syncVisible (VSIlistndx
      { b' with mem := blankLines w a l k p b'.mem, scrntop := ts } ts)) ∧
    SameCount b (syncVisible (VSIlistndx
      { b' with mem := blankLines w a l k p b'.mem, scrntop := ts } ts)) := by
  obtain ⟨hs', hc'⟩ := syncVisible_frame (VSIlistndx
    { b' with mem := blankLines w a l k p b'.mem, scrntop := ts } ts)
  exact ⟨⟨hs'.lines.trans hs.lines, hs'.maxlines.trans hs.maxlines,
    hs'.savelines.trans hs.savelines, hs'.oldScrollback.trans hs.oldScrollback⟩,
    ⟨hc'.buftop.trans hc.buftop, hc'.numlines.trans hc.numlines⟩⟩

theorem VSIdellines_frame (r : VSregion) (n s : Int) (hold : b.oldScrollback = false) :
    SameSize b (VSIdellines r b n s) ∧ SameCount b (VSIdellines r b n s) := by
  rw [VSIdellines, if_neg (by rw [hold]; exact Bool.false_ne_true)]
  have hmove := moveUnlessAdjacent_frame b (b.row (startRow r s))
    (b.row (startRow r s+clipCount r n (startRow r s)-1)) (b.row r.bottom)
    (b.next (b.row r.bottom))
  exact settle_frame hmove.1 hmove.2 _ _ _ _ _ _

theorem VSIinslines_frame (r : VSregion) (n s : Int) (hold : b.oldScrollback = false) :
    SameSize b (VSIinslines r b n s) ∧ SameCount b (VSIinslines r b n s) := by
  rw [VSIinslines, if_neg (by rw [hold]; exact Bool.false_ne_true)]
  have hmove := moveUnlessAdjacent_frame b
    (b.row (r.bottom-clipCount r n (startRow r s)+1)) (b.row r.bottom)
    (b.prev (b.row (startRow r s))) (b.row (startRow r s))
  exact settle_frame hmove.1 hmove.2 _ _ _ _ _ _

/-- The account stays right while the first row of the screen stays, or lines
are saved above it. -/
theorem Saved.of_frame {b' : VSbuf} {d : ℕ} (h : Saved b d pre post) (hsize : SameSize b b')
    (hcount : SameCount b b')
    (hfirst : pre ≠ [] ∨ b'.linest.headD NULL = b.linest.headD NULL) : Saved b' d pre post := by
  refine ⟨⟨?_, ?_, ?_⟩, ?_⟩
  · rw [hcount.buftop, h.account.buftop]
    rcases eq_or_ne pre [] with rfl | hpre
    · rw [List.nil_append, List.nil_append]
      exact (hfirst.resolve_left (fun hn => hn rfl)).symm
    · rw [headD_append_of_ne_nil NULL hpre, headD_append_of_ne_nil NULL hpre]
  · rw [hcount.numlines]
    exact h.account.numlines_nonneg
  · rw [hcount.numlines]
    exact h.account.numlines
  · rw [hcount.numlines]
    exact h.room.of_size hsize

/-- A deletion or insertion of `n` lines leaves the first row of the screen, or
lines are saved above it. -/
def KeepsFirst (r : VSregion) (b : VSbuf) (n s : Int) : Prop :=
  b.buftop ≠ b.scrntop ∨ startRow r s ≠ 0 ∨ r.bottom < n

/-- The account says whether lines are saved above the rows. -/
theorem Saved.pre_ne_nil {d : ℕ} (hs : Saved b d pre post) (h : Threaded b e pre post)
    (hne : b.buftop ≠ b.scrntop) : pre ≠ [] := by
  intro hn
  apply hne
  rw [hs.account.buftop, h.top, hn, List.nil_append]

theorem KeepsFirst.cases {r : VSregion} {n s : Int} {d : ℕ} (hk : KeepsFirst r b n s)
    (hs : Saved b d pre post) (h : Threaded b e pre post) :
    pre ≠ [] ∨ startRow r s ≠ 0 ∨ r.bottom < n :=
  hk.imp_left (hs.pre_ne_nil h)

theorem deletedRows_headD {bottom n s : Int} (rows : List Ptr) (h0 : 0 ≤ s)
    (hk : s ≠ 0 ∨ bottom < n) :
    (deletedRows bottom n s rows).headD NULL = rows.headD NULL := by
  rw [deletedRows]
  split_ifs with hle
  · exact exchangeRows_headD rows _ _ (by omega)
  · rfl

theorem insertedRows_headD {bottom n s : Int} (rows : List Ptr) (h0 : 0 ≤ s)
    (hk : s ≠ 0 ∨ bottom < n) :
    (insertedRows bottom n s rows).headD NULL = rows.headD NULL := by
  rw [insertedRows]
  split_ifs with hle
  · exact exchangeRows_headD rows _ _ (by omega)
  · rfl

/-- Deleting lines keeps the rows in one list; it keeps the account unless it
takes away the first row while nothing is saved above it. -/
theorem VSIdellines_keeps {r : VSregion} {n s : Int} (h : Threaded b e pre post)
    (hold : b.oldScrollback = false) (hs : OnScreen r b s) (hn : 1 ≤ n) :
    Threaded (VSIdellines r b n s) e pre post ∧ SameSize b (VSIdellines r b n s) ∧
      (KeepsFirst r b n s → ∀ d, Saved b d pre post → Saved (VSIdellines r b n s) d pre post) := by
  obtain ⟨hrows, hth⟩ := VSIdellines_rows h hold hs hn
  obtain ⟨hsize, hcount⟩ := VSIdellines_frame r n s hold
  refine ⟨hth, hsize, ?_⟩
  intro hk d hsaved
  apply hsaved.of_frame hsize hcount
  rcases hk.cases hsaved h with hpre | hrow
  · exact Or.inl hpre
  · right
    rw [hrows, deletedRows_headD _ hs.row_nonneg hrow]

/-- Inserting lines keeps the rows in one list; it keeps the account unless it
puts a line before the first row while nothing is saved above it. -/
theorem VSIinslines_keeps {r : VSregion} {n s : Int} (h : Threaded b e pre post)
    (hold : b.oldScrollback = false) (hs : OnScreen r b s) (hn : 1 ≤ n) :
    Threaded (VSIinslines r b n s) e pre post ∧ SameSize b (VSIinslines r b n s) ∧
      (KeepsFirst r b n s → ∀ d, Saved b d pre post → Saved (VSIinslines r b n s) d pre post) := by
  obtain ⟨hrows, hth⟩ := VSIinslines_rows h hold hs hn
  obtain ⟨hsize, hcount⟩ := VSIinslines_frame r n s hold
  refine ⟨hth, hsize, ?_⟩
  intro hk d hsaved
  apply hsaved.of_frame hsize hcount
  rcases hk.cases hsaved h with hpre | hrow
  · exact Or.inl hpre
  · right
    rw [hrows, insertedRows_headD _ hs.row_nonneg hrow]

/-- The scrolling region is rows of the screen, and not the first one alone
unless that is the screen. -/
structure Legal (r : VSregion) (b : VSbuf) : Prop where
  top_nonneg : 0 ≤ r.top
  top_le : r.top ≤ r.bottom
  bottom_le : r.bottom ≤ b.lines
  bottom_pos : r.bottom = b.lines ∨ 0 < r.bottom
  lines_lt : b.lines < 32767

theorem scrollVisible_frame (r : VSregion) (b : VSbuf) :
    SameRows b (scrollVisible r b) ∧ SameCount b (scrollVisible r b) ∧
      (scrollVisible r b).mem = b.mem := by
  rw [scrollVisible]
  split_ifs <;> exact ⟨⟨rfl, rfl, rfl, rfl, rfl, rfl⟩, ⟨rfl, rfl⟩, rfl⟩

/-- The rows after the top one has left the screen, with the view moved on and
the last row blank. -/
def scrolledUp (r : VSregion) (b : VSbuf) : VSbuf :=
  let b := scrollVisible r (shiftUp b)
  { b with mem := (b.mem.setLattr b.lastRow 0).blank b.allwidth b.lastRow b.lastRow 0 }

theorem scrolledUp_frame (r : VSregion) (b : VSbuf) :
    SameRows (shiftUp b) (scrolledUp r b) ∧ SameCount (shiftUp b) (scrolledUp r b) ∧
      (scrolledUp r b).mem.links = (shiftUp b).mem.links ∧
      (scrolledUp r b).mem.brk = (shiftUp b).mem.brk := by
  obtain ⟨hrows, hcount, hmem⟩ := scrollVisible_frame r (shiftUp b)
  refine ⟨⟨hrows.linest, hrows.scrntop, hrows.lines, hrows.maxlines, hrows.savelines,
    hrows.oldScrollback⟩, ⟨hcount.buftop, hcount.numlines⟩, ?_, ?_⟩
  · rw [← hmem]
    rfl
  · rw [← hmem]
    rfl

/-- A scroll that saves the top row. -/
theorem VSIscroll_saving {r : VSregion} (hy : ¬r.y > b.lines) (hold : b.oldScrollback = false)
    (hsave : ¬(b.savelines = false ∨ r.top ≠ 0)) :
    VSIscroll r b = if r.bottom ≠ (scrolledUp r (advanceBuffer b)).lines
      then VSIlistndx (rotateBelow (scrolledUp r (advanceBuffer b)) r.bottom)
        (rotateBelow (scrolledUp r (advanceBuffer b)) r.bottom).scrntop
      else scrolledUp r (advanceBuffer b) := by
  rw [VSIscroll, if_neg hy, if_neg (by rw [hold]; exact Bool.false_ne_true), if_neg hsave]
  rfl

/-- Scrolling by one line keeps the rows in one list. While lines are saved it
keeps the account too. -/
theorem VSIscroll_keeps {r : VSregion} (h : Threaded b e pre post)
    (hold : b.oldScrollback = false) (hbuf : Anchored b e pre) (hr : Legal r b) :
    ∃ e' pre' post', Threaded (VSIscroll r b) e' pre' post' ∧ (e' = e ∨ e' = none) ∧
      SameSize b (VSIscroll r b) ∧
      (b.savelines = true → ∀ d, Saved b d pre post → Saved (VSIscroll r b) d pre' post') := by
  by_cases hy : r.y > b.lines
  · rw [VSIscroll, if_pos hy]
    exact ⟨e, pre, post, h, Or.inl rfl, SameSize.refl b, fun _ _ => id⟩
  by_cases hsave : b.savelines = false ∨ r.top ≠ 0
  · -- nothing is saved: the top row of the region is deleted
    rw [VSIscroll, if_neg hy, if_neg (by rw [hold]; exact Bool.false_ne_true), if_pos hsave]
    have hrow : startRow r r.top = r.top := if_neg (not_lt.mpr hr.top_nonneg)
    have hon : OnScreen r b r.top := by
      refine ⟨?_, ?_, hr.top_nonneg.trans hr.top_le, hr.bottom_le, hr.lines_lt⟩
      · rw [hrow]
        exact hr.top_nonneg
      · rw [hrow]
        exact hr.top_le.trans hr.bottom_le
    obtain ⟨hth, hsize, hsaved⟩ := VSIdellines_keeps h hold hon le_rfl
    refine ⟨e, pre, post, hth, Or.inl rfl, hsize, fun hs => hsaved ?_⟩
    have htop : r.top ≠ 0 := hsave.resolve_left (fun hf => Bool.false_ne_true (hf.symm.trans hs))
    exact Or.inr (Or.inl (hrow.symm ▸ htop))
  · rw [VSIscroll_saving hy hold hsave]
    obtain ⟨hsame, hacc, e', post₁, hext, -⟩ := advanceBuffer_spec h hold (hbuf.mem h)
      (fun _ => hbuf)
    obtain ⟨pre', post', hth, -, hsaved⟩ := shift_saved hext.threaded hsame hacc hext.nonempty
    obtain ⟨hrows, hcount, hlinks, hbrk⟩ := scrolledUp_frame r (advanceBuffer b)
    have hth' := hth.of_links hrows hlinks hbrk
    have hsize : SameSize b (scrolledUp r (advanceBuffer b)) :=
      hsame.size.trans ⟨hrows.lines, hrows.maxlines, hrows.savelines, hrows.oldScrollback⟩
    have hsaved' : ∀ d, Saved b d pre post →
        Saved (scrolledUp r (advanceBuffer b)) d pre' post' := by
      intro d hs
      refine (hsaved d hs.account ?_).of_frame hrows.size hcount (Or.inr (by rw [hrows.linest]))
      -- the list grows by no more than the limit leaves
      obtain ⟨⟨-, hnn, -⟩, hm, hc, hbound⟩ := hs
      refine ⟨hm, hc, ?_⟩
      rcases hext.grown with hp | hp
      · rw [hp]
        exact hbound
      · have h0 := h.lines_nonneg
        have hshort : short (b.maxlines-b.numlines) = b.maxlines-b.numlines :=
          short_eq (by omega) (by omega)
        rw [hshort] at hp
        omega
    generalize scrolledUp r (advanceBuffer b) = b₁ at hth' hsize hsaved'
    by_cases hbot : r.bottom = b₁.lines
    · rw [if_neg (not_not.mpr hbot)]
      exact ⟨e', pre', post', hth', hext.kind, hsize, fun _ => hsaved'⟩
    · rw [if_pos hbot]
      have h0 : 0 < r.bottom := by
        have := hr.bottom_pos
        have := hsize.lines
        omega
      have hlt : r.bottom < b₁.lines := by
        have := hr.bottom_le
        have := hsize.lines
        omega
      obtain ⟨hrot, hth''⟩ := rotateBelow_rows hth' h0.le hlt (Or.inl h0)
      obtain ⟨hsz, hct, -⟩ := rotateBelow_frame b₁ r.bottom
      refine ⟨e', pre', post', hth'', hext.kind,
        hsize.trans ⟨hsz.lines, hsz.maxlines, hsz.savelines, hsz.oldScrollback⟩, fun _ d hs => ?_⟩
      refine (hsaved' d hs).of_frame ⟨hsz.lines, hsz.maxlines, hsz.savelines, hsz.oldScrollback⟩
        ⟨hct.buftop, hct.numlines⟩ (Or.inr ?_)
      rw [hrot, exchangeRows_headD _ _ _ (by omega)]

end Scroll

end VS
