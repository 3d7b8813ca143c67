import MacSSH.ScreenCreated

/-! The scrollback over whole runs of a screen that saves its lines: scrolling,
saving the screen, inserting and deleting lines, and resizing, in any order. -/
namespace VS

open Linked

/-- What changes the lines of a screen. -/
inductive LineOp where
  | scroll (r : VSregion)
  | scroff (r : VSregion)
  | insert (r : VSregion) (n s : Int)
  | delete (r : VSregion) (n s : Int)
  | setlines (cursor : Bool) (maxwidth nlines : Int)

/-- The screen after an operation. -/
def LineOp.apply : LineOp → VSbuf → VSbuf
  | scroll r, b => VSIscroll r b
  | scroff r, b => VSIscroff r b
  | insert r n s, b => VSIinslines r b n s
  | delete r n s, b => VSIdellines r b n s
  | setlines cursor maxwidth nlines, b => (VSsetlines b cursor maxwidth nlines).2

/-- The scrolling region has at least two rows, all on the screen, or is the only
row of the screen. -/
def Margins (r : VSregion) (b : VSbuf) : Prop :=
  (0 ≤ r.top ∧ r.top < r.bottom ∧ r.bottom ≤ b.lines) ∨
    (r.top = 0 ∧ r.bottom = 0 ∧ b.lines = 0)

/-- The operations a screen can be given: lines are inserted and deleted one or
more at a time and at a row of the screen, and resizing is to at least one row
and succeeds. -/
def LineOp.Allowed : LineOp → VSbuf → Prop
  | scroll r, b => Margins r b
  | scroff _, _ => True
  | insert r n s, b | delete r n s, b =>
    Margins r b ∧ 1 ≤ n ∧ 0 ≤ startRow r s ∧ startRow r s ≤ b.lines
  | setlines cursor maxwidth nlines, b =>
    1 ≤ nlines ∧ nlines ≤ 32767 ∧ 0 ≤ (VSsetlines b cursor maxwidth nlines).1

/-- The lines of `b'` are those of `b`: only texts, attributes and the view may
differ, and what later allocations will do. -/
structure SameLines (b b' : VSbuf) : Prop extends SameRows b b', SameCount b b' where
  links : b'.mem.links = b.mem.links
  brk : b'.mem.brk = b.mem.brk

/-- The states of a screen that saves its lines, from its creation on, when every
operation on its lines meets `P`. -/
inductive Run (P : LineOp → VSbuf → Prop) : VSbuf → Prop where
  | new {m : LineMem} {maxlines numLines maxwid : Int} {b : VSbuf} (hm : 0 < m.brk)
      (ha : Askable maxlines numLines)
      (hb : VSnewscreen m maxlines true numLines maxwid = some b) : Run P b
  | line {b : VSbuf} (op : LineOp) (h : Run P b) (hop : op.Allowed b) (hP : P op b) :
      Run P (op.apply b)
  | other {b b' : VSbuf} (h : Run P b) (hb : SameLines b b') : Run P b'

/-- The scrollback list: `numlines` links from `buftop` lead to `scrntop`, `prev`
undoes them, and no line is met twice up to the last row of the screen. -/
structure ScrollbackList (b : VSbuf) : Prop where
  numlines_nonneg : 0 ≤ b.numlines
  reaches : b.next^[b.numlines.toNat] b.buftop = b.scrntop
  inverse : ∀ i < b.numlines.toNat, b.prev (b.next^[i+1] b.buftop) = b.next^[i] b.buftop
  distinct : (List.iterate b.next b.buftop (b.numlines+b.lines+1).toNat).Nodup

/-- When an operation keeps the scrollback list: it does not insert or delete the
first row while nothing is saved above it, and a resize finds the size unchanged
or has no memory for the new rows beside the old ones. -/
def LineOp.KeepsList : LineOp → VSbuf → Prop
  | insert r n s, b | delete r n s, b => KeepsFirst r b n s
  | setlines _ _ nlines, b =>
    nlines-1 = b.lines ∨
      (b.mem.grants.tail.headD false = false ∧ b.maxlines+nlines ≤ 32767)
  | _, _ => True

/-- What holds along a run: the rows are in one list that starts with `buftop`,
and the lines above them are counted, except for a number of them that meets
`D`. -/
structure Kept (D : ℕ → Prop) (b : VSbuf) : Prop where
  list : ∃ d e pre post, D d ∧ (e = some NULL ∨ e = none) ∧ Threaded b e pre post ∧
    Saved b d pre post
  linked : b.oldScrollback = false
  saving : b.savelines = true
  countable : b.maxlines+b.lines < 32767

section Kept
variable {D : ℕ → Prop} {b : VSbuf}

theorem Kept.of_size {b' : VSbuf} (hk : Kept D b) (hs : SameSize b b')
    (hl : ∃ d e pre post, D d ∧ (e = some NULL ∨ e = none) ∧ Threaded b' e pre post ∧
      Saved b' d pre post) : Kept D b' :=
  ⟨hl, hs.oldScrollback.trans hk.linked, hs.savelines.trans hk.saving,
    by rw [hs.maxlines, hs.lines]; exact hk.countable⟩

theorem kind_trans {e e' : Option Ptr} (he : e = some NULL ∨ e = none)
    (hk : e' = e ∨ e' = none) : e' = some NULL ∨ e' = none := by
  rcases hk with rfl | rfl
  · exact he
  · exact Or.inr rfl

theorem Kept.lines_lt (hk : Kept D b) : b.lines < 32767 := by
  obtain ⟨d, e, pre, post, -, -, -, hs⟩ := hk.list
  have hm := hs.room.maxlines_nonneg
  have hc := hk.countable
  omega

theorem Margins.legal {r : VSregion} (hm : Margins r b) (hlt : b.lines < 32767) : Legal r b := by
  rcases hm with ⟨h1, h2, h3⟩ | ⟨h1, h2, h3⟩
  · exact ⟨h1, h2.le, h3, by omega, hlt⟩
  · exact ⟨by omega, by omega, by omega, by omega, hlt⟩

theorem Legal.onScreen {r : VSregion} {s : Int} (hl : Legal r b) (h0 : 0 ≤ startRow r s)
    (h1 : startRow r s ≤ b.lines) : OnScreen r b s :=
  ⟨h0, h1, hl.top_nonneg.trans hl.top_le, hl.bottom_le, hl.lines_lt⟩

theorem Saved.anchored {e : Option Ptr} {d : ℕ} {pre post : List Ptr} (hs : Saved b d pre post) :
    Anchored b e pre := fun _ => hs.account.buftop

theorem kept_scroll {r : VSregion} (hk : Kept D b) (hm : Margins r b) :
    Kept D (VSIscroll r b) := by
  obtain ⟨d, e, pre, post, hd, he, hth, hs⟩ := hk.list
  obtain ⟨e', pre', post', hth', hkind, hsize, hsaved⟩ :=
    VSIscroll_keeps hth hk.linked hs.anchored (hm.legal hk.lines_lt)
  exact hk.of_size hsize
    ⟨d, e', pre', post', hd, kind_trans he hkind, hth', hsaved hk.saving d hs⟩

theorem kept_scroff (r : VSregion) (hk : Kept D b) : Kept D (VSIscroff r b) := by
  obtain ⟨d, e, pre, post, hd, he, hth, hs⟩ := hk.list
  obtain ⟨e', pre', post', hkeep⟩ := VSIscroff_spec r hth hk.linked hs.anchored hk.lines_lt
  exact hk.of_size hkeep.size
    ⟨d, e', pre', post', hd, kind_trans he hkeep.kind, hkeep.threaded, hkeep.saved d hs⟩

theorem kept_insert {r : VSregion} {n s : Int} (hk : Kept D b) (hon : OnScreen r b s) (hn : 1 ≤ n)
    (hfirst : KeepsFirst r b n s) : Kept D (VSIinslines r b n s) := by
  obtain ⟨d, e, pre, post, hd, he, hth, hs⟩ := hk.list
  obtain ⟨hth', hsize, hsaved⟩ := VSIinslines_keeps hth hk.linked hon hn
  exact hk.of_size hsize ⟨d, e, pre, post, hd, he, hth', hsaved hfirst d hs⟩

theorem kept_delete {r : VSregion} {n s : Int} (hk : Kept D b) (hon : OnScreen r b s) (hn : 1 ≤ n)
    (hfirst : KeepsFirst r b n s) : Kept D (VSIdellines r b n s) := by
  obtain ⟨d, e, pre, post, hd, he, hth, hs⟩ := hk.list
  obtain ⟨hth', hsize, hsaved⟩ := VSIdellines_keeps hth hk.linked hon hn
  exact hk.of_size hsize ⟨d, e, pre, post, hd, he, hth', hsaved hfirst d hs⟩

theorem kept_of_fresh (h0 : D 0) (hf : Fresh b) (hs : b.savelines = true) : Kept D b := by
  obtain ⟨⟨post, hth, hsaved⟩, hold, hc⟩ := hf
  exact ⟨⟨0, some NULL, [], post, h0, Or.inl rfl, hth, hsaved⟩, hold, hs, hc⟩

theorem kept_other {b' : VSbuf} (hk : Kept D b) (hb : SameLines b b') : Kept D b' := by
  obtain ⟨d, e, pre, post, hd, he, hth, hs⟩ := hk.list
  refine hk.of_size hb.toSameRows.size
    ⟨d, e, pre, post, hd, he, hth.of_links hb.toSameRows hb.links hb.brk, ?_⟩
  exact hs.of_frame hb.toSameRows.size hb.toSameCount (Or.inr (by rw [hb.linest]))

/-- The operations other than resizing keep the list and the account. -/
theorem kept_line (op : LineOp) (hk : Kept D b) (ha : op.Allowed b)
    (hm : ∀ r n s, op = .insert r n s ∨ op = .delete r n s → KeepsFirst r b n s)
    (hset : ∀ c w n, op = .setlines c w n → Kept D (VSsetlines b c w n).2) :
    Kept D (op.apply b) := by
  cases op with
  | scroll r => exact kept_scroll hk ha
  | scroff r => exact kept_scroff r hk
  | insert r n s =>
    exact kept_insert hk ((ha.1.legal hk.lines_lt).onScreen ha.2.2.1 ha.2.2.2) ha.2.1
      (hm r n s (Or.inl rfl))
  | delete r n s =>
    exact kept_delete hk ((ha.1.legal hk.lines_lt).onScreen ha.2.2.1 ha.2.2.2) ha.2.1
      (hm r n s (Or.inr rfl))
  | setlines cursor maxwidth nlines => exact hset cursor maxwidth nlines rfl

/-- What every operation keeps holds in every state of a run. -/
theorem kept_run {P : LineOp → VSbuf → Prop} (h0 : D 0)
    (hstep : ∀ b op, Kept D b → op.Allowed b → P op b → Kept D (op.apply b)) (h : Run P b) :
    Kept D b := by
  induction h with
  | new hm ha hb =>
    obtain ⟨hf, hs⟩ := VSnewscreen_fresh hb hm ha
    exact kept_of_fresh h0 hf hs
  | line op _ hop hP ih => exact hstep _ op ih hop hP
  | other _ hb ih => exact kept_other ih hb

/-- Moving the view leaves the line records and the rows. -/
structure ViewOnly (b b' : VSbuf) : Prop extends SameRows b b', SameCount b b' where
  mem : b'.mem = b.mem

theorem VSscrolback_viewOnly (b : VSbuf) (n : Int) : ViewOnly b (VSscrolback b n) := by
  simp only [VSscrolback]
  split_ifs <;> exact ⟨⟨rfl, rfl, rfl, rfl, rfl, rfl⟩, ⟨rfl, rfl⟩, rfl⟩

theorem VSscrolforward_viewOnly (b : VSbuf) (n : Int) : ViewOnly b (VSscrolforward b n) := by
  simp only [VSscrolforward]
  split_ifs <;> exact ⟨⟨rfl, rfl, rfl, rfl, rfl, rfl⟩, ⟨rfl, rfl⟩, rfl⟩

theorem ViewOnly.of_region {b' : VSbuf} {Rbottom Rleft Rright : Int}
    (h : ViewOnly { b with Rbottom := Rbottom, Rleft := Rleft, Rright := Rright } b') :
    ViewOnly b b' :=
  ⟨⟨h.linest, h.scrntop, h.lines, h.maxlines, h.savelines, h.oldScrollback⟩,
    ⟨h.buftop, h.numlines⟩, h.mem⟩

theorem VSsetrgn_viewOnly (b : VSbuf) (maxwidth x1 y1 x2 y2 : Int) :
    ViewOnly b (VSsetrgn b maxwidth x1 y1 x2 y2) := by
  simp only [VSsetrgn]
  split_ifs
  · exact ViewOnly.of_region (VSscrolback_viewOnly _ _)
  · exact ViewOnly.of_region (VSscrolforward_viewOnly _ _)
  · exact ⟨⟨rfl, rfl, rfl, rfl, rfl, rfl⟩, ⟨rfl, rfl⟩, rfl⟩
  · exact ViewOnly.of_region (VSscrolback_viewOnly _ _)
  · exact ViewOnly.of_region (VSscrolforward_viewOnly _ _)
  · exact ⟨⟨rfl, rfl, rfl, rfl, rfl, rfl⟩, ⟨rfl, rfl⟩, rfl⟩

theorem VSIcursonMoving_viewOnly (b : VSbuf) (maxwidth x y : Int) :
    ViewOnly b (VSIcursonMoving b maxwidth x y) := by
  simp only [VSIcursonMoving]
  split_ifs
  · exact ⟨⟨rfl, rfl, rfl, rfl, rfl, rfl⟩, ⟨rfl, rfl⟩, rfl⟩
  · exact VSsetrgn_viewOnly b _ _ _ _ _
  · exact VSscrolforward_viewOnly b _
  · exact VSscrolback_viewOnly b _

theorem homeView_viewOnly (b : VSbuf) (cursor : Bool) (maxwidth : Int) :
    ViewOnly b (homeView b cursor maxwidth) := by
  cases cursor with
  | false => exact ⟨⟨rfl, rfl, rfl, rfl, rfl, rfl⟩, ⟨rfl, rfl⟩, rfl⟩
  | true =>
    have h := VSIcursonMoving_viewOnly b maxwidth 0 0
    exact ⟨⟨h.linest, h.scrntop, h.lines, h.maxlines, h.savelines, h.oldScrollback⟩,
      ⟨h.buftop, h.numlines⟩, h.mem⟩

theorem VSInewlines_refused {m : LineMem} (hg : m.grants.headD false = false) (n : Int) :
    VSInewlines m n = (NULL, { m with grants := m.grants.tail }) := by
  simp only [VSInewlines, LineMem.grant, hg, if_neg Bool.false_ne_true]

/-- A resize for whose rows there is no memory beside the old ones. -/
theorem VSsetlines_emergency {cursor : Bool} {maxwidth nlines : Int} (hn : 1 ≤ nlines)
    (hn' : nlines ≤ 32767) (hne : short (nlines-1) ≠ b.lines)
    (hg : b.mem.grants.tail.headD false = false)
    (hok : 0 ≤ (VSsetlines b cursor maxwidth nlines).1) :
    VSsetlines b cursor maxwidth nlines =
      emergencyScreen { homeView b cursor maxwidth with
        mem := { b.mem with grants := b.mem.grants.tail.tail } } (short (nlines-1)) b.lines := by
  have hview := homeView_viewOnly b cursor maxwidth
  have hlines := hview.lines
  have hmem := hview.mem
  have hcount : 0 ≤ short (short (nlines-1)+1) := by
    rw [short_eq (i := nlines-1) (by omega) (by omega), short_eq (by omega) (by omega)]
    omega
  simp only [VSsetlines, if_neg hne, VSInewlinearray_of_nonneg _ hcount] at hok ⊢
  generalize homeView b cursor maxwidth = b₁ at hmem hok hlines ⊢
  split_ifs at hok ⊢ with hc
  · have hnew := VSInewlines_refused (m := b₁.mem.grant.2)
      (by rw [hmem]; exact hg) (short (short (nlines-1)+1))
    simp only [resizeRows, hnew]
    rw [if_neg (not_not.mpr rfl), hlines, hmem]
    rfl
  · have hbad : (0 : Int) ≤ -2000 := hok
    omega

/-- A resize that is survived without memory for the new rows beside the old ones
leaves a screen that is like a new one. -/
theorem kept_emergency (h0 : D 0) {cursor : Bool} {maxwidth nlines : Int} (hk : Kept D b)
    (ha : (LineOp.setlines cursor maxwidth nlines).Allowed b) (hne : short (nlines-1) ≠ b.lines)
    (hg : b.mem.grants.tail.headD false = false) (hcount : b.maxlines+nlines ≤ 32767) :
    Kept D (VSsetlines b cursor maxwidth nlines).2 := by
  obtain ⟨hn, hn', hok⟩ := ha
  have hshort : short (nlines-1) = nlines-1 := short_eq (by omega) (by omega)
  obtain ⟨d, e, pre, post, -, -, hth, hs⟩ := hk.list
  have heq := VSsetlines_emergency hn hn' hne hg hok
  have hview := homeView_viewOnly b cursor maxwidth
  have hc := hk.countable
  have hbrk : 0 < b.mem.brk := Nat.zero_lt_of_lt (hth.live _ (headD_mem NULL hth.list_ne_nil))
  rw [heq] at hok ⊢
  generalize homeView b cursor maxwidth = b₁ at hview hok ⊢
  have hmax := hview.maxlines
  have hm := hs.room.maxlines_nonneg
  obtain ⟨hf, hsv⟩ := emergencyScreen_fresh
    (b := { b₁ with mem := { b.mem with grants := b.mem.grants.tail.tail } })
    hbrk (by omega) hth.lines_nonneg (hview.savelines.trans hk.saving)
    (hview.oldScrollback.trans hk.linked) (hmax ▸ hm) (by simp only [hmax]; omega)
    (by simp only [hmax]; omega) hok
  exact kept_of_fresh h0 hf hsv

theorem VSsetlines_same {cursor : Bool} {maxwidth nlines : Int}
    (hsame : short (nlines-1) = b.lines) : VSsetlines b cursor maxwidth nlines = (0, b) := by
  simp only [VSsetlines, if_pos hsame]

/-- Every operation that meets its condition keeps the list and the account. -/
theorem keepsList_step (b : VSbuf) (op : LineOp) (hk : Kept (· = 0) b) (ha : op.Allowed b)
    (hm : op.KeepsList b) : Kept (· = 0) (op.apply b) := by
  apply kept_line op hk ha
  · intro r n s hop
    rcases hop with rfl | rfl <;> exact hm
  · intro cursor maxwidth nlines hop
    subst hop
    by_cases hsame : short (nlines-1) = b.lines
    · rw [VSsetlines_same hsame]
      exact hk
    rcases hm with hlines | ⟨hg, hcount⟩
    · obtain ⟨hn, hn', -⟩ := ha
      exact absurd ((short_eq (by omega) (by omega)).trans hlines) hsame
    · exact kept_emergency (D := (· = 0)) rfl hk ha hsame hg hcount

/-- The list and the account give the scrollback list of the screen. -/
theorem Kept.scrollbackList (hk : Kept (· = 0) b) : ScrollbackList b := by
  obtain ⟨d, e, pre, post, rfl, -, hth, hs⟩ := hk.list
  have hlen := hth.length
  have h0 := hth.lines_nonneg
  have hnum := hs.account.numlines
  have hne : pre ++ b.linest ≠ [] := List.append_ne_nil_of_right_ne_nil pre hth.linest_ne_nil
  have hstr : Strand NULL b.mem.links e ([] ++ (pre ++ b.linest) ++ post) := by
    rw [List.nil_append]
    exact hth.strand
  have hwalk : List.iterate b.next b.buftop (pre ++ b.linest).length = pre ++ b.linest := by
    rw [hs.account.buftop]
    exact hstr.walk hne
  have hget : ∀ i (hi : i < (pre ++ b.linest).length),
      b.next^[i] b.buftop = (pre ++ b.linest)[i] := by
    intro i hi
    rw [hs.account.buftop, headD_default NULL _ hne]
    exact seg_iterate hstr.middle i hi
  have hpos : pre.length < (pre ++ b.linest).length := by
    have := List.length_pos_of_ne_nil hth.linest_ne_nil
    rw [List.length_append]
    omega
  have hN : b.numlines.toNat = pre.length := by omega
  refine ⟨by omega, ?_, ?_, ?_⟩
  · rw [hN, hget _ hpos, List.getElem_append_right le_rfl, hth.top]
    simp only [Nat.sub_self]
    obtain ⟨a, l, hl⟩ := List.exists_cons_of_ne_nil hth.linest_ne_nil
    simp only [hl, List.getElem_cons_zero, List.headD_cons]
  · intro i hi
    rw [hget i (by omega), hget (i+1) (by omega)]
    exact (seg_links hstr.middle i (by omega)).2
  · have hcount : (b.numlines+b.lines+1).toNat = (pre ++ b.linest).length := by
      rw [List.length_append]
      omega
    rw [hcount, hwalk]
    exact hth.strand.nodup.of_append_left

end Kept

/-- In every state of a screen that saves its lines, reached by scrolling, saving
the screen, inserting and deleting lines and resizing, each as long as it keeps
the list, `numlines` links lead from `buftop` to `scrntop`, `prev` undoes them and
no line is met twice. -/
theorem scrollback_list_over_runs (b : VSbuf) (h : Run LineOp.KeepsList b) : ScrollbackList b :=
  (kept_run (D := (· = 0)) rfl keepsList_step h).scrollbackList

/-- Memory in which nothing has been allocated yet. -/
def emptyMem : LineMem where
  links := ⟨fun _ => NULL, fun _ => NULL⟩
  text := fun _ _ => 0
  attr := fun _ _ => 0
  lattr := fun _ => 0
  brk := 1
  grants := List.replicate 8 true

/-- A new screen of three rows. -/
def threeRows : VSbuf := (VSnewscreen emptyMem 48 true 3 80).get rfl

/-- The whole screen of three rows, with the cursor in the first one. -/
def threeRowsRegion : VSregion where
  vtemulation := .vt100
  y := 0
  top := 0
  bottom := 2
  maxwidth := 79
  attrib := 0

theorem threeRows_run (P : LineOp → VSbuf → Prop) : Run P threeRows :=
  Run.new (by decide) ⟨by decide, by decide⟩ (Option.some_get _).symm

/-- A scroll keeps the scrollback list of a new screen. -/
theorem scrollback_list_after_scroll : ScrollbackList (VSIscroll threeRowsRegion threeRows) :=
  scrollback_list_over_runs _ (Run.line (.scroll threeRowsRegion) (threeRows_run _)
    (Or.inl (by decide)) trivial)

/-- Deleting the first row of a new screen, and resizing it, leave a scrollback
list that does not lead to the screen. -/
theorem first_row_and_resize_break_list :
    (∃ b, Run (fun _ _ => True) b ∧ b = VSIdellines threeRowsRegion threeRows 1 0 ∧
      ¬ScrollbackList b) ∧
    (∃ b, Run (fun _ _ => True) b ∧ b = (VSsetlines threeRows true 79 4).2 ∧
      ¬ScrollbackList b) := by
  refine ⟨⟨_, Run.line (.delete threeRowsRegion 1 0) (threeRows_run _)
    ⟨Or.inl (by decide), by decide⟩ trivial, rfl, fun h => ?_⟩,
    ⟨_, Run.line (.setlines true 79 4) (threeRows_run _)
      ⟨by decide, by decide, by decide⟩ trivial, rfl, fun h => ?_⟩⟩
  · exact absurd h.reaches (by decide)
  · exact absurd h.reaches (by decide)

end VS
