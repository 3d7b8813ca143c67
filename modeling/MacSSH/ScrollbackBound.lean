import MacSSH.ScrollbackRuns
import Mathlib.Data.List.Perm.Subperm

/-! How many lines the scrollback counts over whole runs. A resize pushes the old
rows up whatever the limit is, so the bound needs room for them. -/
namespace VS

open Linked

/-- The unused lines below the screen: the lines after `p` before the list ends
or comes back to the oldest line. -/
def linesBelow (b : VSbuf) : ℕ → Ptr → ℕ
  | 0, _ => 0
  | fuel+1, p =>
    if b.next p = NULL ∨ b.next p = b.buftop then 0 else linesBelow b fuel (b.next p)+1

/-- When an operation keeps the count of the scrollback within its bound: it does
not insert or delete the first row while nothing is saved above it, and a resize
that pushes the old rows up finds room for them and for the unused lines. -/
def LineOp.KeepsBound : LineOp → VSbuf → Prop
  | insert r n s, b | delete r n s, b => KeepsFirst r b n s
  | setlines _ _ nlines, b =>
    nlines-1 = b.lines ∨ (b.maxlines+nlines ≤ 32767 ∧
      (b.mem.grants.tail.headD false = false ∨
        b.numlines+linesBelow b b.mem.brk b.lastRow+b.lines ≤ b.maxlines+(nlines-1)))
  | _, _ => True

/-- The count of the scrollback is within the limit plus a screenful, and has not
run over the 16 bits it is kept in. -/
structure BoundedCount (b : VSbuf) : Prop where
  limit : b.numlines ≤ b.maxlines+b.lines
  bits : 0 ≤ b.numlines ∧ b.numlines ≤ 32767

section Below
variable {b : VSbuf} {e : Option Ptr} {pre post : List Ptr}

theorem linesBelow_from (h : Threaded b e pre post) (hbuf : b.buftop = (pre ++ b.linest).headD NULL)
    (P Q : List Ptr) (hPQ : post = P ++ Q) (fuel : ℕ) (hfuel : Q.length < fuel) :
    linesBelow b fuel ((pre ++ b.linest ++ P).getLastD NULL) = Q.length := by
  have hpl : pre ++ b.linest ≠ [] := List.append_ne_nil_of_right_ne_nil pre h.linest_ne_nil
  induction fuel generalizing P Q with
  | zero => omega
  | succ fuel ih =>
    have hseg := h.strand.seg
    rw [hPQ, ← List.append_assoc] at hseg
    have hne : pre ++ b.linest ++ P ≠ [] := List.append_ne_nil_of_left_ne_nil hpl P
    have hnext : b.next ((pre ++ b.linest ++ P).getLastD NULL) =
        Q.headD (after NULL e (pre ++ b.linest ++ P ++ Q)) := by
      have hs := ((seg_append _ _ _ (pre ++ b.linest ++ P) Q).mp hseg).1
      rw [getLastD_default NULL _ hne]
      exact seg_next_getLastD hs hne
    rw [linesBelow, hnext]
    cases Q with
    | nil =>
      -- the list ends here, or comes back to its first line
      rw [if_pos]
      · rfl
      cases e with
      | some p => exact Or.inl rfl
      | none =>
        right
        rw [List.headD_nil, after_none, List.append_nil, headD_append_of_ne_nil NULL hpl, hbuf]
    | cons a Q =>
      have hmem : a ∈ post := by
        rw [hPQ]
        simp
      have ha : a ≠ NULL := fun hn => h.strand.null_mem (hn ▸ List.mem_append_right _ hmem)
      have hab : a ≠ b.buftop := by
        rw [hbuf]
        intro hc
        exact List.disjoint_of_nodup_append h.strand.nodup (headD_mem NULL hpl) (hc ▸ hmem)
      rw [List.headD_cons, if_neg (not_or.mpr ⟨ha, hab⟩), List.length_cons]
      have hlast : (pre ++ b.linest ++ (P ++ [a])).getLastD NULL = a := by
        rw [← List.append_assoc, getLastD_append_of_ne_nil NULL (List.cons_ne_nil a [])]
        rfl
      have hrec := ih (P ++ [a]) Q (by rw [hPQ]; simp) (by simpa using hfuel)
      rw [hlast] at hrec
      rw [hrec]

/-- The lines counted below the screen are those of the list. -/
theorem linesBelow_eq (h : Threaded b e pre post)
    (hbuf : b.buftop = (pre ++ b.linest).headD NULL) :
    linesBelow b b.mem.brk b.lastRow = post.length := by
  have hlt : post.length < b.mem.brk := by
    -- distinct lines below `brk`, and `NULL` is none of them
    have hsub : (NULL :: post).Subperm (List.range b.mem.brk) := by
      apply List.subperm_of_subset
      · apply List.nodup_cons.mpr
        exact ⟨fun hn => h.strand.null_mem (List.mem_append_right _ hn),
          h.strand.nodup.of_append_right⟩
      · intro a ha
        rcases List.mem_cons.mp ha with rfl | ha
        · exact List.mem_range.mpr (Nat.zero_lt_of_lt (h.live _ (headD_mem NULL h.list_ne_nil)))
        · exact List.mem_range.mpr (h.live a (List.mem_append_right _ ha))
    have hlen := hsub.length_le
    rw [List.length_range, List.length_cons] at hlen
    omega
  have hcount := linesBelow_from h hbuf [] post rfl b.mem.brk hlt
  rw [List.append_nil, getLastD_append_of_ne_nil NULL h.linest_ne_nil, ← h.lastRow_eq] at hcount
  exact hcount

end Below

section Push
variable {b : VSbuf} {e : Option Ptr} {pre post : List Ptr}

/-- The links after the old rows have been pushed up. -/
theorem pushScreen_spliced (old new : Ptr) (oldlines : Int) (hol : old ≠ b.lastRow)
    (hnew : b.next old ≠ new) :
    Spliced NULL b.mem.links (pushScreen b old oldlines new).mem.links old new b.lastRow
      (b.next old) := by
  let m := ((b.mem.links.setNext old new).setNext b.lastRow (b.next old)).setPrev new old
  have hlinks : (pushScreen b old oldlines new).mem.links =
      if b.next old ≠ NULL then m.setPrev (b.next old) b.lastRow else m := by
    simp only [pushScreen, apply_ite VSbuf.mem, apply_ite LineMem.links]
    rfl
  rw [hlinks]
  constructor
  · intro c hc
    have hm : (if b.next old ≠ NULL then m.setPrev (b.next old) b.lastRow else m).next c =
        m.next c := by
      split_ifs <;> rfl
    rw [hm]
    simp only [m, setPrev_next, setNext_next]
    by_cases hco : c = old
    · rw [if_neg (fun he => hol (hco.symm.trans he)), if_pos hco, if_pos hco]
    · rw [if_neg hco, if_neg hco]
  · intro c hc
    by_cases hnull : b.next old = NULL
    · have hcl : c ≠ b.next old := fun he => hc (he.trans hnull)
      rw [if_neg (not_not.mpr hnull), if_neg hcl]
      simp only [m, setPrev_prev, setNext_prev]
    · rw [if_pos hnull, setPrev_prev]
      simp only [m, setPrev_prev, setNext_prev]
      by_cases hcl : c = b.next old
      · rw [if_pos hcl, if_neg (fun he => hnew (hcl.symm.trans he)), if_pos hcl]
      · rw [if_neg hcl, if_neg hcl]

/-- The line after the last row is none or one of the list. -/
theorem Threaded.follower (h : Threaded b e pre post) :
    b.next b.lastRow = NULL ∨ b.next b.lastRow ∈ pre ++ b.linest ++ post := by
  rw [h.next_lastRow]
  rcases eq_or_ne post [] with rfl | hp
  · cases e with
    | some p => exact Or.inl rfl
    | none => exact Or.inr (headD_mem NULL h.list_ne_nil)
  · exact Or.inr (List.mem_append_right _ (headD_mem _ hp))

theorem newlines_eq (hold : b.oldScrollback = false) (n : Int) :
    newlines b n = ((VSInewlines b.mem n).1, { b with mem := (VSInewlines b.mem n).2 }) := by
  simp only [newlines, hold, if_neg Bool.false_ne_true]

/-- New rows behind the old ones: the list around them, once the old rows are
linked to them. -/
theorem pushed_strand (h : Threaded b e pre post) (hold : b.oldScrollback = false) {lines : Int}
    (hl : 0 ≤ lines) {v : Ptr × LineMem} (hv : VSInewlines b.mem (lines+1) = v)
    (hok : v.1 ≠ NULL) {b₂ : VSbuf}
    (hb₂ : b₂ = VSIlistndx { b with mem := v.2, lines := lines } v.1) :
    b₂.linest = List.range' v.1 (lines+1).toNat ∧ b₂.mem.brk = v.1+(lines+1).toNat ∧
      (∀ a ∈ pre ++ b.linest ++ post, a < v.1) ∧ (∀ p ∈ e, p < v.1) ∧ 0 < v.1 ∧
      Strand NULL (pushScreen b₂ b.lastRow b.lines v.1).mem.links e
        ((pre ++ b.linest) ++ List.range' v.1 (lines+1).toNat ++ post) := by
  have hbrk : 0 < b.mem.brk := Nat.zero_lt_of_lt (h.live _ (headD_mem NULL h.list_ne_nil))
  obtain ⟨-, -, hth, hF⟩ := newlines_spec h hold hbrk (lines+1)
  rw [newlines_eq hold, hv] at hth hF
  obtain ⟨hptr, hbrk', hF⟩ := hF.resolve_left hok
  simp only at hptr hbrk' hF
  have hstr : Strand NULL v.2.links e (pre ++ b.linest ++ post) := hth.strand
  rw [← hptr] at hbrk' hF
  have hn : 0 < (lines+1).toNat := by omega
  have hne : List.range' v.1 (lines+1).toNat ≠ [] := by
    apply List.ne_nil_of_length_pos
    rw [List.length_range']
    exact hn
  have hlive : ∀ a ∈ pre ++ b.linest ++ post, a < v.1 := fun a ha => hptr ▸ h.live a ha
  have hlive_e : ∀ p ∈ e, p < v.1 := fun p hp => hptr ▸ h.live_before p hp
  have hmemF : ∀ a ∈ List.range' v.1 (lines+1).toNat, v.1 ≤ a := fun a ha =>
    (List.mem_range'_1.mp ha).1
  have hd : (pre ++ b.linest ++ post).Disjoint (List.range' v.1 (lines+1).toNat) :=
    fun a ha hr => absurd (hlive a ha) (Nat.not_lt.mpr (hmemF a hr))
  -- the index walks the new rows, so the last of them is the last row
  have hlin : b₂.linest = List.range' v.1 (lines+1).toNat := by
    have hF' : Strand NULL v.2.links (some NULL) ([] ++ List.range' v.1 (lines+1).toNat ++ []) := by
      simpa using hF
    have hwalk := hF'.walk hne
    rw [headD_range' hn, List.length_range'] at hwalk
    rw [hb₂]
    exact hwalk
  have hlast : b₂.lastRow = (List.range' v.1 (lines+1).toNat).getLastD NULL := by
    have hl₂ : b₂.lines = lines := by
      rw [hb₂]
      rfl
    have hi : lines.toNat = (lines+1).toNat-1 := by omega
    rw [VSbuf.lastRow, VSbuf.row, hlin, hl₂, List.getLastD_eq_getLast?, List.getLast?_eq_getElem?,
      List.length_range', List.getD_eq_getElem?_getD, hi]
  have hpl : pre ++ b.linest ≠ [] := List.append_ne_nil_of_right_ne_nil pre h.linest_ne_nil
  have hold_last : b.lastRow = (pre ++ b.linest).getLastD NULL := by
    rw [getLastD_append_of_ne_nil NULL h.linest_ne_nil, h.lastRow_eq]
  have hold_mem : b.lastRow ∈ pre ++ b.linest ++ post := by
    rw [hold_last]
    exact List.mem_append_left _ (getLastD_mem NULL hpl)
  have hnext₂ : b₂.mem.links = v.2.links := by
    rw [hb₂]
    rfl
  refine ⟨hlin, ?_, hlive, hlive_e, hptr ▸ hbrk, ?_⟩
  · rw [hb₂]
    exact hbrk'
  -- two links are written, behind the old last row and behind the new one
  have hsp := pushScreen_spliced (b := b₂) b.lastRow v.1 b.lines ?_ ?_
  · rw [hlast, VSbuf.next, hnext₂, hold_last] at hsp
    have hhead : (List.range' v.1 (lines+1).toNat).headD NULL = v.1 := headD_range' hn
    rw [hold_last]
    refine hstr.splice hpl hF hne hd (fun p hp hr => ?_) ?_
    · exact absurd (hlive_e p hp) (Nat.not_lt.mpr (hmemF p hr))
    · rw [hhead]
      exact hsp
  · rw [hlast]
    intro he
    exact hd hold_mem (he ▸ getLastD_mem NULL hne)
  · -- the follower of the old last row is an old line or none
    rw [VSbuf.next, hnext₂]
    rcases hth.follower with hnull | hmem
    · exact fun he => hok (he.symm.trans hnull)
    · exact fun he => absurd (hlive _ hmem) (not_lt.mpr he.ge)

theorem pushScreen_frame (b : VSbuf) (old new : Ptr) (oldlines : Int) :
    SameSize b (pushScreen b old oldlines new) ∧
      (pushScreen b old oldlines new).buftop = b.buftop ∧
      (pushScreen b old oldlines new).numlines = short (b.numlines+oldlines) ∧
      (pushScreen b old oldlines new).mem.brk = b.mem.brk := by
  simp only [pushScreen]
  split_ifs <;> exact ⟨⟨rfl, rfl, rfl, rfl⟩, rfl, rfl, rfl⟩

/-- A screen of another size that shows its rows from the top. -/
structure Resized (b b' : VSbuf) (n : Int) : Prop where
  lines : b'.lines = n
  maxlines : b'.maxlines = b.maxlines
  savelines : b'.savelines = b.savelines
  oldScrollback : b'.oldScrollback = b.oldScrollback
  vistop : b'.vistop = b'.scrntop
  Rtop : b'.Rtop = 0
  Rbottom : b'.Rbottom = n

/-- The screen after the old rows have been pushed up: they are the lines next
above the new rows. -/
theorem resizeRows_threaded {lines : Int} (h : Threaded b e pre post)
    (hold : b.oldScrollback = false) (hsave : b.savelines = true) (hl : 0 ≤ lines)
    (hlt : lines < 32767) (hok : (VSInewlines b.mem (lines+1)).1 ≠ NULL) :
    Threaded (resizeRows b lines).2 e (pre ++ b.linest) post ∧
      Resized b (resizeRows b lines).2 lines ∧ (resizeRows b lines).2.buftop = b.buftop ∧
      (resizeRows b lines).2.numlines = short (b.numlines+b.lines) := by
  have hshort : short (lines+1) = lines+1 := short_eq (by omega) (by omega)
  generalize hv : VSInewlines b.mem (lines+1) = v at hok
  generalize hb₂ : VSIlistndx { b with mem := v.2, lines := lines } v.1 = b₂
  obtain ⟨-, hbrk, hlive, hlive_e, -, hstr⟩ := pushed_strand h hold hl hv hok hb₂.symm
  have hsave₂ : b₂.savelines = true := hb₂ ▸ hsave
  have hlines₂ : b₂.lines = lines := by rw [← hb₂]; rfl
  have hpush : (resizeRows b lines).2 = showScreen (pushScreen b₂ b.lastRow b.lines v.1) v.1 := by
    simp only [resizeRows, hshort, hv]
    rw [if_pos hok]
    simp only [hb₂, hsave₂, if_true]
  obtain ⟨hsz, hbuf₃, hnum₃, hbrk₃⟩ := pushScreen_frame b₂ b.lastRow v.1 b.lines
  have hbuf₂ : b₂.buftop = b.buftop := by rw [← hb₂]; rfl
  have hnum₂ : b₂.numlines = b.numlines := by rw [← hb₂]; rfl
  have hmax₂ : b₂.maxlines = b.maxlines := by rw [← hb₂]; rfl
  have hold₂ : b₂.oldScrollback = b.oldScrollback := by rw [← hb₂]; rfl
  rw [hpush, showScreen_eq (hsz.savelines.trans hsave₂)]
  generalize pushScreen b₂ b.lastRow b.lines v.1 = b₃ at hstr hsz hbuf₃ hnum₃ hbrk₃ ⊢
  rw [hbuf₂] at hbuf₃
  rw [hnum₂] at hnum₃
  have hl₃ : b₃.lines = lines := hsz.lines.trans hlines₂
  let b₄ : VSbuf := { b₃ with vistop := v.1 }
  have hl₄ : b₄.lines = lines := hl₃
  have hlen₄ : ((List.range' v.1 (lines+1).toNat).length : Int) = b₄.lines+1 := by
    rw [List.length_range']
    omega
  have hhead₄ : v.1 = (List.range' v.1 (lines+1).toNat).headD NULL :=
    (headD_range' (by omega)).symm
  have hbrk₄ : b₄.mem.brk = v.1+(lines+1).toNat := hbrk₃.trans hbrk
  have hlive₄ : ∀ a ∈ (pre ++ b.linest) ++ List.range' v.1 (lines+1).toNat ++ post,
      a < b₄.mem.brk := by
    intro a ha
    rw [hbrk₄]
    simp only [List.mem_append] at ha hlive
    rcases ha with (ha | ha) | ha
    · exact Nat.lt_add_right _ (hlive a (Or.inl ha))
    · exact (List.mem_range'_1.mp ha).2
    · exact Nat.lt_add_right _ (hlive a (Or.inr ha))
  have hlive_e₄ : ∀ p ∈ e, p < b₄.mem.brk := by
    intro p hp
    rw [hbrk₄]
    exact Nat.lt_add_right _ (hlive_e p hp)
  obtain ⟨hlin, hth⟩ := listndx_threaded (b := b₄) hstr hlen₄ (by omega) hhead₄ hlive₄ hlive_e₄
  have hth' := blankRows_threaded hth false
  exact ⟨hth'.of_links ⟨rfl, rfl, rfl, rfl, rfl, rfl⟩ rfl rfl,
    ⟨hl₃, hsz.maxlines.trans hmax₂, hsz.savelines.trans (hsave₂.trans hsave.symm),
      hsz.oldScrollback.trans hold₂, rfl, rfl, hl₃⟩, hbuf₃, hnum₃⟩

/-- Pushing the old rows up keeps the account, with one more line above the rows
that is not counted. -/
theorem resizeRows_pushed {d : ℕ} {lines : Int} (h : Threaded b e pre post)
    (hs : Saved b d pre post)
    (hold : b.oldScrollback = false) (hsave : b.savelines = true) (hl : 0 ≤ lines)
    (hcount : b.maxlines+lines < 32767) (hok : (VSInewlines b.mem (lines+1)).1 ≠ NULL)
    (hroom : b.numlines+post.length+b.lines ≤ b.maxlines+lines) :
    Threaded (resizeRows b lines).2 e (pre ++ b.linest) post ∧
      Saved (resizeRows b lines).2 (d+1) (pre ++ b.linest) post ∧
      Resized b (resizeRows b lines).2 lines := by
  have hm := hs.room.maxlines_nonneg
  have hlen := h.length
  obtain ⟨hth, hsize, hbuf, hnum⟩ := resizeRows_threaded h hold hsave hl (by omega) hok
  generalize (resizeRows b lines).2 = b' at hth hsize hbuf hnum ⊢
  have hpl : pre ++ b.linest ≠ [] := List.append_ne_nil_of_right_ne_nil pre h.linest_ne_nil
  have h0 := h.lines_nonneg
  have h1 := hs.account.numlines_nonneg
  have h2 := hs.account.numlines
  have hnum' : b'.numlines = b.numlines+b.lines := hnum.trans (short_eq (by omega) (by omega))
  refine ⟨hth, ⟨⟨?_, by omega, ?_⟩, ⟨?_, ?_, ?_⟩⟩, hsize⟩
  · rw [hbuf, hs.account.buftop, headD_append_of_ne_nil NULL hpl]
  · rw [hnum', List.length_append]
    omega
  · rw [hsize.maxlines]
    exact hm
  · rw [hsize.maxlines, hsize.lines]
    omega
  · rw [hsize.maxlines, hsize.lines, hnum']
    omega

end Push

section Bounded
variable {b : VSbuf}

/-- A resize whose old rows find room keeps the list, with one line more above
the rows that is not counted. -/
theorem kept_pushed {cursor : Bool} {maxwidth nlines : Int} (hk : Kept (fun _ => True) b)
    (ha : (LineOp.setlines cursor maxwidth nlines).Allowed b) (hne : short (nlines-1) ≠ b.lines)
    (hg : b.mem.grants.tail.headD false = true) (hcount : b.maxlines+nlines ≤ 32767)
    (hroom : b.numlines+linesBelow b b.mem.brk b.lastRow+b.lines ≤ b.maxlines+(nlines-1)) :
    Kept (fun _ => True) (VSsetlines b cursor maxwidth nlines).2 := by
  obtain ⟨hn, hn', hok⟩ := ha
  have hshort : short (nlines-1) = nlines-1 := short_eq (by omega) (by omega)
  obtain ⟨d, e, pre, post, -, he, hth, hs⟩ := hk.list
  rw [linesBelow_eq hth hs.account.buftop] at hroom
  have hview := homeView_viewOnly b cursor maxwidth
  have hc := hk.countable
  rw [hshort] at hne
  have hcount : 0 ≤ short (nlines-1+1) := by
    rw [short_eq (by omega) (by omega)]
    omega
  simp only [VSsetlines, hshort, if_neg hne, VSInewlinearray_of_nonneg _ hcount] at hok ⊢
  generalize homeView b cursor maxwidth = b₁ at hview hok ⊢
  let b₂ : VSbuf := { b₁ with mem := b₁.mem.grant.2 }
  have hlinks : b₂.mem.links = b.mem.links := by rw [← hview.mem]; rfl
  have hbrk : b₂.mem.brk = b.mem.brk := by rw [← hview.mem]; rfl
  have hgrants : b₂.mem.grants.headD false = true := by
    rw [← hg, ← hview.mem]
    rfl
  have hrows : SameRows b b₂ := ⟨hview.linest, hview.scrntop, hview.lines, hview.maxlines,
    hview.savelines, hview.oldScrollback⟩
  have hth₂ := hth.of_links hrows hlinks hbrk
  have hs₂ : Saved b₂ d pre post := hs.of_frame hrows.size ⟨hview.buftop, hview.numlines⟩
    (Or.inr (by rw [hrows.linest]))
  have hnum₂ : b₂.numlines = b.numlines := hview.numlines
  have hnull : (VSInewlines b₂.mem (nlines-1+1)).1 ≠ NULL := by
    simp only [VSInewlines, LineMem.grant, hgrants, if_true]
    have hpos := Nat.zero_lt_of_lt (hth₂.live _ (headD_mem NULL hth₂.list_ne_nil))
    exact hpos.ne'
  split_ifs at hok ⊢ with harr
  · have hpos : 0 ≤ nlines-1 := by omega
    obtain ⟨hth₃, hs₃, hsize⟩ := resizeRows_pushed hth₂ hs₂
      (hrows.oldScrollback.trans hk.linked) (hrows.savelines.trans hk.saving) hpos
      (by rw [hrows.maxlines]; omega) hnull
      (by rw [hnum₂, hrows.lines, hrows.maxlines]; omega)
    refine ⟨⟨d+1, e, _, post, trivial, he, hth₃, hs₃⟩,
      hsize.oldScrollback.trans (hrows.oldScrollback.trans hk.linked),
      hsize.savelines.trans (hrows.savelines.trans hk.saving), ?_⟩
    rw [hsize.lines, hsize.maxlines, hrows.maxlines]
    omega
  · -- without memory for the array of rows the resize fails
    have hbad : (0 : Int) ≤ -2000 := hok
    omega

theorem keepsBound_step (b : VSbuf) (op : LineOp) (hk : Kept (fun _ => True) b)
    (ha : op.Allowed b) (hm : op.KeepsBound b) : Kept (fun _ => True) (op.apply b) := by
  apply kept_line op hk ha
  · intro r n s hop
    rcases hop with rfl | rfl <;> exact hm
  · intro cursor maxwidth nlines hop
    subst hop
    by_cases hsame : short (nlines-1) = b.lines
    · rw [VSsetlines_same hsame]
      exact hk
    rcases hm with hlines | ⟨hcount, hroom⟩
    · obtain ⟨hn, hn', -⟩ := ha
      exact absurd ((short_eq (by omega) (by omega)).trans hlines) hsame
    cases hg : b.mem.grants.tail.headD false with
    | false => exact kept_emergency (D := fun _ => True) trivial hk ha hsame hg hcount
    | true =>
      apply kept_pushed hk ha hsame hg hcount
      exact hroom.resolve_left (by rw [hg]; exact Bool.false_ne_true.symm)

theorem Kept.boundedCount {D : ℕ → Prop} (hk : Kept D b) : BoundedCount b := by
  obtain ⟨d, e, pre, post, -, -, hth, ⟨hacc, hroom⟩⟩ := hk.list
  have h0 := hacc.numlines_nonneg
  have hb := hroom.bounded
  have hc := hroom.countable
  exact ⟨by omega, h0, by omega⟩

end Bounded

/-- In every state of a screen that saves its lines, reached by output, by saving
the screen and by resizes that find room for the rows they push up, the count of
the scrollback is within the limit plus a screenful and has not run over. -/
theorem scrollback_bounded_over_runs (b : VSbuf) (h : Run LineOp.KeepsBound b) :
    BoundedCount b :=
  (kept_run (D := fun _ => True) trivial keepsBound_step h).boundedCount

/-- A new screen of three rows may be resized to fifty. -/
theorem scrollback_bounded_after_resize : BoundedCount (VSsetlines threeRows true 79 50).2 :=
  scrollback_bounded_over_runs _ (Run.line (.setlines true 79 50) (threeRows_run _)
    ⟨by decide, by decide, by decide⟩ (Or.inr ⟨by decide, Or.inr (by decide)⟩))

/-- Two resizes count more lines than the limit and a screenful. -/
theorem resizes_exceed_limit :
    ∃ b, Run (fun _ _ => True) b ∧
      b = (VSsetlines (VSsetlines threeRows true 79 60).2 true 79 3).2 ∧ ¬BoundedCount b := by
  refine ⟨_, Run.line (.setlines true 79 3) (Run.line (.setlines true 79 60) (threeRows_run _)
    ⟨by decide +kernel, by decide +kernel, by decide +kernel⟩ trivial)
    ⟨by decide +kernel, by decide +kernel, by decide +kernel⟩ trivial, rfl, ?_⟩
  exact fun h => absurd h.limit (by decide +kernel)

end VS
