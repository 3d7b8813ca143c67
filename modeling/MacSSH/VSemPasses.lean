import MacSSH.VSem

/-! The main loop of the emulation uses up what it is given, and text changes only what it
is written to. -/
namespace VS

open Linked

variable {τ : Type}

/-- Text may change the screen, the cursor, and the translation of the octets that come
next. -/
def TextOnly (e e' : Emulation τ) : Prop :=
  ∃ buf x y lattrib tr lastchar trinbuf trinx trintag, e' = { e with
    buf := buf, x := x, y := y, lattrib := lattrib, tr := tr, lastchar := lastchar
    trinbuf := trinbuf, trinx := trinx, trintag := trintag }

namespace TextOnly
variable {e e' e'' : Emulation τ}

theorem refl (e : Emulation τ) : TextOnly e e := ⟨_, _, _, _, _, _, _, _, _, rfl⟩

theorem trans (h : TextOnly e e') (h' : TextOnly e' e'') : TextOnly e e'' := by
  obtain ⟨_, _, _, _, _, _, _, _, _, rfl⟩ := h
  obtain ⟨_, _, _, _, _, _, _, _, _, rfl⟩ := h'
  exact ⟨_, _, _, _, _, _, _, _, _, rfl⟩

theorem isText (h : TextOnly e e') (tryit : Bool) (c : UInt8) :
    e'.isText tryit c = e.isText tryit c := by
  obtain ⟨_, _, _, _, _, _, _, _, _, rfl⟩ := h
  rfl

end TextOnly

section Text
variable {e e' : Emulation τ}

theorem VSIindex_form (s : VSscrn) :
    ∃ buf y, s.VSIindex = { s with buf := buf, y := y, lattrib := 0 } := by
  simp only [VSscrn.VSIindex]
  split_ifs <;> exact ⟨_, _, rfl⟩

theorem VSIwrapnow_form (s : VSscrn) :
    ∃ buf x y lattrib,
      s.VSIwrapnow = { s with buf := buf, x := x, y := y, lattrib := lattrib } := by
  rw [VSscrn.VSIwrapnow]
  split_ifs
  · obtain ⟨buf, y, h⟩ := VSIindex_form { s with x := 0 }
    exact ⟨buf, 0, y, 0, h⟩
  · exact ⟨_, _, _, _, rfl⟩

theorem switchin_text (e : Emulation τ) (k : InTranslation) : TextOnly e (e.switchin k) := by
  unfold Emulation.switchin
  split
  · exact TextOnly.refl e
  · simp only
    split_ifs <;> exact ⟨_, _, _, _, _, _, _, _, _, rfl⟩

theorem VSIindex_text (e : Emulation τ) : TextOnly e e.VSIindex := by
  obtain ⟨buf, y, h⟩ := VSIindex_form e.toVSscrn
  apply TextOnly.trans _ (switchin_text _ _)
  rw [Emulation.onScreen, h]
  exact ⟨_, _, _, _, _, _, _, _, _, rfl⟩

theorem wrapTranslation_text (e : Emulation τ) : TextOnly e e.wrapTranslation := by
  rw [Emulation.wrapTranslation]
  split_ifs
  · exact switchin_text e _
  · exact TextOnly.refl e

theorem VSIinschar_text {x : Int} {clear : Bool} (h : e.VSIinschar x clear = some e') :
    TextOnly e e' := by
  obtain ⟨s, hs, rfl⟩ := Option.map_eq_some_iff.mp h
  apply (wrapTranslation_text e).trans
  have hform : ∃ buf x y lattrib,
      s = { e.toVSscrn with buf := buf, x := x, y := y, lattrib := lattrib } := by
    obtain ⟨buf, x', y, lattrib, hw⟩ := VSIwrapnow_form e.toVSscrn
    simp only [VSscrn.VSIinschar, hw] at hs
    split_ifs at hs
    · exact ⟨_, _, _, _, (Option.some.inj hs).symm⟩
    · exact ⟨_, _, _, _, (Option.some.inj hs).symm⟩
  obtain ⟨buf, x', y, lattrib, rfl⟩ := hform
  obtain ⟨_, _, _, _, _, _, _, _, _, hw⟩ := wrapTranslation_text e
  rw [hw]
  exact ⟨_, _, _, _, _, _, _, _, _, rfl⟩

theorem makeRoom_text {clear : Bool} (h : e.makeRoom clear = some e') : TextOnly e e' := by
  rw [Emulation.makeRoom] at h
  split_ifs at h
  · exact VSIinschar_text h
  · rw [← Option.some.inj h]
    exact TextOnly.refl e

theorem startRun_text (e : Emulation τ) (mw : Int) : TextOnly e (e.startRun mw).1 := by
  simp only [Emulation.startRun]
  split_ifs
  · apply TextOnly.trans _ (VSIindex_text _)
    exact ⟨_, _, _, _, _, _, _, _, _, rfl⟩
  · exact ⟨_, _, _, _, _, _, _, _, _, rfl⟩
  · exact TextOnly.refl e

theorem putCell_text (e : Emulation τ) (r : Emulation.Run) (k : Int) (c : UInt8) (a : BitVec 32) :
    TextOnly e (e.putCell r k c a) := ⟨_, _, _, _, _, _, _, _, _, rfl⟩

theorem putCells_text (e : Emulation τ) (r : Emulation.Run) (k : Int) (a : BitVec 32)
    (cs : List UInt8) : TextOnly e (e.putCells r k a cs) := by
  induction cs generalizing e k with
  | nil => exact TextOnly.refl e
  | cons c cs ih => exact (putCell_text e r k c a).trans (ih _ _)

/-- What an octet of text leaves, if it is not the end of everything. -/
def Emulation.Typed.Leaves (t : Emulation.Typed τ) (e : Emulation τ) : Prop :=
  match t with
  | .on e' _ => TextOnly e e'
  | .off e' _ => TextOnly e e'
  | .hang => True

theorem Leaves.of_trans {t : Emulation.Typed τ} (h : TextOnly e e') (ht : t.Leaves e') :
    t.Leaves e := by
  cases t with
  | on e'' r => exact h.trans ht
  | off e'' b => exact h.trans ht
  | hang => trivial

theorem advance_text (e : Emulation τ) (mw : Int) (r : Emulation.Run) :
    (e.advance mw r).Leaves e := by
  rw [Emulation.advance]
  split_ifs <;> exact ⟨_, _, _, _, _, _, _, _, _, rfl⟩

theorem untag_text (e : Emulation τ) (attrib : BitVec 32) (r : Emulation.Run) (out : List UInt8) :
    TextOnly e (e.untag attrib r out) := ⟨_, _, _, _, _, _, _, _, _, rfl⟩

theorem tagLast_text (e : Emulation τ) (attrib : BitVec 32) (r : Emulation.Run)
    (out : List UInt8) : TextOnly e (e.tagLast attrib r out) := by
  rw [Emulation.tagLast]
  split_ifs
  · exact ⟨_, _, _, _, _, _, _, _, _, rfl⟩
  · exact untag_text e attrib r out

theorem translated_text (e : Emulation τ) : TextOnly e { e with trinx := 0, trinbuf := [] } :=
  ⟨_, _, _, _, _, _, _, _, _, rfl⟩

theorem lastchar_text (e : Emulation τ) (c : UInt8) : TextOnly e { e with lastchar := c } :=
  ⟨_, _, _, _, _, _, _, _, _, rfl⟩

theorem putTranslated_text (e : Emulation τ) (attrib : BitVec 32) (mw : Int) (r : Emulation.Run)
    (out : List UInt8) (trattr : BitVec 32) :
    (e.putTranslated attrib mw r out trattr).Leaves e := by
  rw [Emulation.putTranslated]
  cases hroom : e.makeRoom true with
  | none => trivial
  | some e₁ =>
    simp only
    generalize ({ r with cur := r.cur-e₁.trinx+out.length-1 } : Emulation.Run) = r'
    have htag := ((makeRoom_text hroom).trans
      (putCells_text e₁ r' (r.cur-e₁.trinx) trattr out)).trans
      ((lastchar_text _ (out.getLastD 0)).trans (tagLast_text _ attrib r' out))
    split_ifs
    · exact Leaves.of_trans ((htag.trans (untag_text _ attrib r' out)).trans (translated_text _))
        (advance_text _ _ _)
    · exact Leaves.of_trans (htag.trans (translated_text _)) (advance_text _ _ _)

theorem pending_text (e : Emulation τ) (tr : τ) (l : List UInt8) :
    TextOnly e { e with tr := tr, trinbuf := l } := ⟨_, _, _, _, _, _, _, _, _, rfl⟩

theorem typed_text (e : Emulation τ) (attrib : BitVec 32) (mw : Int) (r : Emulation.Run)
    (c : UInt8) : (e.typed attrib mw r c).Leaves e := by
  unfold Emulation.typed
  split
  · split
    · trivial
    · rename_i e₁ hroom
      have hput := ((lastchar_text e c).trans (makeRoom_text hroom)).trans
        (putCell_text e₁ r r.cur c attrib)
      exact Leaves.of_trans hput (advance_text _ _ _)
  · simp only
    split
    · split_ifs
      · exact ⟨_, _, _, _, _, _, _, _, _, rfl⟩
      · exact ⟨_, _, _, _, _, _, _, _, _, rfl⟩
      · exact Leaves.of_trans (pending_text e _ _) (putTranslated_text _ _ _ _ _ _)
    · split_ifs
      · split
        · trivial
        · rename_i e₁ hroom
          apply TextOnly.trans _ (makeRoom_text hroom)
          exact ⟨_, _, _, _, _, _, _, _, _, rfl⟩
      · exact Leaves.of_trans (pending_text e _ _) (putTranslated_text _ _ _ _ _ _)
      · exact Leaves.of_trans (pending_text e _ _) (putTranslated_text _ _ _ _ _ _)

/-- A run leaves the octets behind it. -/
theorem runLoop_text {attrib : BitVec 32} {mw : Int} {tryit : Bool} {e : Emulation τ}
    {r : Emulation.Run} {cs rest : List UInt8}
    (h : Emulation.runLoop attrib mw tryit e r cs = some (e', rest)) :
    TextOnly e e' ∧ rest <:+ cs := by
  induction cs generalizing e r with
  | nil =>
    obtain ⟨rfl, rfl⟩ := Prod.mk.inj (Option.some.inj h)
    exact ⟨TextOnly.refl e, List.suffix_refl _⟩
  | cons c cs ih =>
    rw [Emulation.runLoop] at h
    split_ifs at h
    · have hleaves := typed_text e attrib mw r c
      cases htyped : e.typed attrib mw r c with
      | on e₁ r₁ =>
        rw [htyped] at h hleaves
        obtain ⟨htext, hrest⟩ := ih h
        exact ⟨TextOnly.trans hleaves htext, hrest.trans (List.suffix_cons c cs)⟩
      | off e₁ consumed =>
        rw [htyped] at h hleaves
        obtain ⟨rfl, rfl⟩ := Prod.mk.inj (Option.some.inj h)
        refine ⟨hleaves, ?_⟩
        split_ifs
        · exact List.suffix_cons c cs
        · exact List.suffix_refl _
      | hang =>
        rw [htyped] at h
        cases h
    · obtain ⟨rfl, rfl⟩ := Prod.mk.inj (Option.some.inj h)
      exact ⟨TextOnly.refl e, List.suffix_refl _⟩

/-- Lines of text leave the octets behind them, and use up the first one. -/
theorem textLoop_text {mw : Int} {tryit : Bool} {fuel : ℕ} {e : Emulation τ}
    {cs rest : List UInt8} (h : Emulation.textLoop mw tryit fuel e cs = some (e', rest)) :
    TextOnly e e' ∧ rest <:+ cs ∧ ∀ c ∈ cs.head?, e.isText tryit c → rest.length < cs.length := by
  induction fuel generalizing e cs with
  | zero =>
    cases cs with
    | nil =>
      obtain ⟨rfl, rfl⟩ := Prod.mk.inj (Option.some.inj h)
      exact ⟨TextOnly.refl e, List.suffix_refl _, by simp⟩
    | cons c cs =>
      rw [Emulation.textLoop] at h
      split_ifs at h with htext
      obtain ⟨rfl, rfl⟩ := Prod.mk.inj (Option.some.inj h)
      refine ⟨TextOnly.refl e, List.suffix_refl _, ?_⟩
      intro c' hc' hc
      rw [List.head?_cons, Option.mem_some_iff] at hc'
      subst hc'
      exact absurd hc htext
  | succ fuel ih =>
    cases cs with
    | nil =>
      obtain ⟨rfl, rfl⟩ := Prod.mk.inj (Option.some.inj h)
      exact ⟨TextOnly.refl e, List.suffix_refl _, by simp⟩
    | cons c cs =>
      rw [Emulation.textLoop] at h
      split_ifs at h with htext
      · have hstart := startRun_text e mw
        simp only at h
        cases hrun : Emulation.runLoop (e.startRun mw).1.attrib mw tryit (e.startRun mw).1
            (e.startRun mw).2 (c :: cs) with
        | none =>
          rw [hrun] at h
          cases h
        | some q =>
          obtain ⟨e₁, rest₁⟩ := q
          rw [hrun] at h
          obtain ⟨h1, h2⟩ := runLoop_text hrun
          obtain ⟨h3, h4, h5⟩ := ih h
          have hall := hstart.trans (h1.trans h3)
          refine ⟨hall, h4.trans h2, ?_⟩
          intro c' hc' hc
          rw [List.head?_cons, Option.mem_some_iff] at hc'
          subst hc'
          -- if the run has not used the octet, the next run starts with it
          rcases Nat.lt_or_ge rest₁.length (c :: cs).length with hlt | hge
          · exact lt_of_le_of_lt h4.length_le hlt
          · have hsame : rest₁ = c :: cs := h2.eq_of_length_le hge
            subst hsame
            apply h5 c (by simp)
            rw [(hstart.trans h1).isText]
            exact hc
      · obtain ⟨rfl, rfl⟩ := Prod.mk.inj (Option.some.inj h)
        refine ⟨TextOnly.refl e, List.suffix_refl _, ?_⟩
        intro c' hc' hc
        rw [List.head?_cons, Option.mem_some_iff] at hc'
        subst hc'
        exact absurd hc htext

end Text

section Flow

/-- The number of octets that are left. -/
def Flow.left (f : Flow τ) : ℕ :=
  match f with
  | .fall p => p.rest.length
  | .again p => p.rest.length
  | .hang => 0

theorem andThen_left {f : Flow τ} {part : Pass τ → Flow τ} {n : ℕ} (hf : f.left ≤ n)
    (hp : ∀ p, (part p).left ≤ p.rest.length) : (f.andThen part).left ≤ n := by
  cases f with
  | fall p => exact (hp p).trans hf
  | again p => exact hf
  | hang => exact hf

theorem runParts_left {parts : List (Pass τ → Flow τ)}
    (h : ∀ part ∈ parts, ∀ p, (part p).left ≤ p.rest.length) (p : Pass τ) :
    (Emulation.runParts parts p).left ≤ p.rest.length := by
  induction parts generalizing p with
  | nil => exact le_rfl
  | cons part parts ih =>
    rw [Emulation.runParts]
    exact andThen_left (h part List.mem_cons_self p)
      (ih fun part' hpart' => h part' (List.mem_cons_of_mem _ hpart'))

/-- Parts that have nothing to do. -/
theorem runParts_skip (idle : List (Pass τ → Flow τ)) {later : List (Pass τ → Flow τ)} {p : Pass τ}
    (h : ∀ part ∈ idle, part p = .fall p) :
    Emulation.runParts (idle ++ later) p = Emulation.runParts later p := by
  induction idle with
  | nil => rfl
  | cons part idle ih =>
    rw [List.cons_append, Emulation.runParts, h part List.mem_cons_self]
    exact ih fun part' hpart' => h part' (List.mem_cons_of_mem _ hpart')

/-- One part uses up an octet, the others take none back. -/
theorem runParts_uses {part : Pass τ → Flow τ} {later : List (Pass τ → Flow τ)} {p : Pass τ}
    (hpart : (part p).left < p.rest.length)
    (h : ∀ part ∈ later, ∀ p, (part p).left ≤ p.rest.length) :
    (Emulation.runParts (part :: later) p).left < p.rest.length := by
  rw [Emulation.runParts]
  exact lt_of_le_of_lt (andThen_left le_rfl (runParts_left h)) hpart

theorem escLoop_left (st : EscState) (step : Emulation τ → ℕ → UInt8 → Esc τ) (e : Emulation τ)
    (escflg : EscState) (escflags : ℕ) (cs : List UInt8) :
    (escLoop st step e escflg escflags cs).left ≤ cs.length ∧
      (escflg = st → cs ≠ [] → (escLoop st step e escflg escflags cs).left < cs.length) := by
  induction cs generalizing e escflg escflags with
  | nil => exact ⟨le_rfl, fun _ h => absurd rfl h⟩
  | cons c cs ih =>
    by_cases hst : escflg = st
    · have hlt : (escLoop st step e escflg escflags (c :: cs)).left < (c :: cs).length := by
        rw [escLoop, if_pos hst, List.length_cons]
        split
        · exact Nat.lt_succ_of_le (ih _ _ _).1
        · exact Nat.lt_succ_self _
        · exact Nat.succ_pos _
      exact ⟨hlt.le, fun _ _ => hlt⟩
    · rw [escLoop, if_neg hst]
      exact ⟨le_rfl, fun h _ => absurd h hst⟩

theorem escPart_left (st : EscState) (step : Emulation τ → ℕ → UInt8 → Esc τ) (p : Pass τ) :
    (escPart st step p).left ≤ p.rest.length := (escLoop_left _ _ _ _ _ _).1

theorem escPart_uses {st : EscState} (step : Emulation τ → ℕ → UInt8 → Esc τ) {p : Pass τ}
    (hst : p.escflg = st) (hrest : p.rest ≠ []) :
    (escPart st step p).left < p.rest.length := (escLoop_left _ _ _ _ _ _).2 hst hrest

theorem escPart_skip {st : EscState} {step : Emulation τ → ℕ → UInt8 → Esc τ} {p : Pass τ}
    (h : p.escflg ≠ st) : escPart st step p = .fall p := by
  obtain ⟨e, escflg, escflags, rest⟩ := p
  cases rest with
  | nil => rfl
  | cons c cs => exact if_neg h

theorem c1_skip {p : Pass τ} (h : p.escflg ≠ .esc_root) : Emulation.c1 p = .fall p := by
  obtain ⟨e, escflg, escflags, rest⟩ := p
  cases rest with
  | nil => rfl
  | cons c cs => exact if_neg fun h' => h h'.1

theorem text_skip {mw : Int} {tryit : Bool} {p : Pass τ} (h : p.escflg ≠ .esc_root) :
    Emulation.text mw tryit p = .fall p := if_neg h

theorem osc_skip {before : UInt8} {p : Pass τ} (h : p.escflg ≠ .esc_XTerm) :
    Emulation.osc before p = .fall p := by
  obtain ⟨e, escflg, escflags, rest⟩ := p
  cases rest with
  | nil => rfl
  | cons c cs => exact if_neg h

theorem trailing_left (p : Pass τ) : (Emulation.trailing p).left ≤ p.rest.length := by
  obtain ⟨e, escflg, escflags, rest⟩ := p
  cases rest with
  | nil => exact le_rfl
  | cons c cs =>
    rw [Emulation.trailing]
    split_ifs
    · exact Nat.le_succ _
    · exact le_rfl

/-- An eight-bit control is used up, but for the one that opens a command to an XTerm. -/
theorem c1_cases (p : Pass τ) :
    (Emulation.c1 p = .fall p ∧
        (p.escflg = .esc_root → ∀ c ∈ p.rest.head?, p.e.isC1 c = false)) ∨
      (Emulation.c1 p).left < p.rest.length ∨
      Emulation.c1 p = .fall { p with escflg := .esc_XTerm, escflags := 0 } := by
  obtain ⟨e, escflg, escflags, rest⟩ := p
  cases rest with
  | nil => exact Or.inl ⟨rfl, by simp⟩
  | cons c cs =>
    have huse (e' : Emulation τ) : (Flow.again (e'.shortCut c cs)).left < (c :: cs).length :=
      Nat.lt_succ_self _
    simp only [Emulation.c1]
    split_ifs with h0 h1 h2 h3 h4 h5 h6
    · exact Or.inr (Or.inl (huse _))
    · exact Or.inr (Or.inl (huse _))
    · exact Or.inr (Or.inl (huse _))
    · exact Or.inr (Or.inl (huse _))
    · exact Or.inr (Or.inl (Nat.lt_succ_self _))
    · exact Or.inr (Or.inr rfl)
    · exact Or.inr (Or.inl (huse _))
    · refine Or.inl ⟨rfl, ?_⟩
      intro hroot c' hc'
      rw [List.head?_cons, Option.mem_some_iff] at hc'
      subst hc'
      exact Bool.eq_false_iff.mpr fun h => h0 ⟨hroot, h⟩

theorem c1_left (p : Pass τ) : (Emulation.c1 p).left ≤ p.rest.length := by
  rcases c1_cases p with ⟨h, -⟩ | h | h
  · rw [h]
    exact le_rfl
  · exact h.le
  · rw [h]
    exact le_rfl

theorem text_left (mw : Int) (tryit : Bool) (p : Pass τ) :
    (Emulation.text mw tryit p).left ≤ p.rest.length := by
  rw [Emulation.text]
  split_ifs
  · cases h : Emulation.textLoop mw tryit (2*p.rest.length+2) p.e p.rest with
    | none => exact Nat.zero_le _
    | some q => exact (textLoop_text h).2.1.length_le
  · exact le_rfl

/-- Text is used up. -/
theorem text_uses {mw : Int} {tryit : Bool} {p : Pass τ} {c : UInt8} (hst : p.escflg = .esc_root)
    (hc : p.rest.head? = some c) (htext : p.e.isText tryit c = true) :
    (Emulation.text mw tryit p).left < p.rest.length := by
  have hpos : 0 < p.rest.length := by
    cases hr : p.rest with
    | nil =>
      rw [hr] at hc
      cases hc
    | cons c' cs => exact Nat.succ_pos _
  rw [Emulation.text, if_pos hst]
  cases h : Emulation.textLoop mw tryit (2*p.rest.length+2) p.e p.rest with
  | none => exact hpos
  | some q => exact (textLoop_text h).2.2 c hc htext

theorem title_left (e : Emulation τ) (before : UInt8) (cs : List UInt8) :
    (e.title before cs).2.2.length ≤ cs.length := by
  induction cs generalizing e before with
  | nil => exact le_rfl
  | cons c cs ih =>
    rw [Emulation.title]
    split_ifs
    · exact le_rfl
    · exact (ih _ c).trans (Nat.le_succ _)
    · exact (ih _ c).trans (Nat.le_succ _)

/-- A command to an XTerm goes on, or ends; an escape that ends it is not used up. -/
inductive OscFlow (n : ℕ) (start : Bool) : Flow τ → Prop
  | on {p : Pass τ} (hst : p.escflg = .esc_XTerm) (hrest : p.rest.length ≤ n) :
    OscFlow n start (.fall p)
  | ends {p : Pass τ} (hst : p.escflg = .esc_root) (hrest : p.rest.length ≤ n)
    (hstart : start = true → p.rest.length < n) : OscFlow n start (.again p)

theorem OscFlow.mono {n m : ℕ} {start : Bool} {f : Flow τ} (h : OscFlow n false f) (hnm : n < m) :
    OscFlow m start f := by
  cases h with
  | on hst hrest => exact .on hst (by omega)
  | ends hst hrest _ => exact .ends hst (by omega) fun _ => by omega

theorem endTitle_flow {p : Pass τ} (before : UInt8) (hst : p.escflg = .esc_XTerm) :
    OscFlow p.rest.length false (Emulation.endTitle p before) := by
  have htitle := title_left p.e before p.rest
  rw [Emulation.endTitle]
  split
  · exact .on hst (Nat.zero_le _)
  · rename_i e last c cs h
    rw [h] at htitle
    simp only
    split_ifs
    · exact .ends rfl ((Nat.le_succ _).trans htitle) (by simp)
    · exact .ends rfl htitle (by simp)

theorem paletteDigit_flow {p : Pass τ} (hst : p.escflg = .esc_XTerm) :
    OscFlow p.rest.length false (Emulation.paletteDigit p) := by
  obtain ⟨e, escflg, escflags, rest⟩ := p
  cases rest with
  | nil => exact .on hst le_rfl
  | cons c cs =>
    simp only [Emulation.paletteDigit]
    split_ifs
    · exact .ends rfl (Nat.le_succ _) (by simp)
    · exact .on hst le_rfl
    · exact .ends rfl (Nat.le_succ _) (by simp)

theorem oscCommand_flow {p : Pass τ} (before : UInt8) (hst : p.escflg = .esc_XTerm) :
    OscFlow p.rest.length false (Emulation.oscCommand before p) := by
  obtain ⟨e, escflg, escflags, rest⟩ := p
  rw [Emulation.oscCommand]
  split_ifs
  · cases rest with
    | nil => exact .on hst le_rfl
    | cons c cs =>
      simp only
      split_ifs
      · exact (endTitle_flow (p := ⟨_, escflg, 2, cs⟩) c hst).mono (Nat.lt_succ_self _)
      · exact .on hst le_rfl
  · exact endTitle_flow before hst
  · exact paletteDigit_flow hst
  · exact .on hst le_rfl

theorem osc_flow {p : Pass τ} (before : UInt8) (hst : p.escflg = .esc_XTerm) :
    OscFlow p.rest.length (p.escflags = 0) (Emulation.osc before p) := by
  obtain ⟨e, escflg, escflags, rest⟩ := p
  cases rest with
  | nil => exact .on hst le_rfl
  | cons c cs =>
    simp only at hst
    simp only [Emulation.osc, hst, if_pos]
    split_ifs with h0
    · exact (oscCommand_flow (p := ⟨e, .esc_XTerm, 1, cs⟩) c rfl).mono (Nat.lt_succ_self _)
    · exact (oscCommand_flow (p := ⟨e, .esc_XTerm, 3, cs⟩) c rfl).mono (Nat.lt_succ_self _)
    · exact .ends rfl (Nat.le_succ _) fun _ => Nat.lt_succ_self _
    · exact .ends rfl (Nat.le_succ _) fun _ => Nat.lt_succ_self _
    · have hnot : decide (escflags = 0) = false := decide_eq_false h0
      rw [hnot]
      exact oscCommand_flow (p := ⟨e, .esc_XTerm, escflags, c :: cs⟩) before rfl

theorem osc_left (before : UInt8) (p : Pass τ) :
    (Emulation.osc before p).left ≤ p.rest.length := by
  rcases eq_or_ne p.escflg .esc_XTerm with h | h
  · have hflow := osc_flow before h
    generalize Emulation.osc before p = f at hflow ⊢
    cases hflow with
    | on hst hrest => exact hrest
    | ends hst hrest _ => exact hrest
  · rw [osc_skip h]
    exact le_rfl

/-- Once through the main loop, `p` has got nearer to the end of the chunk: an octet is used
up, or a title has ended. -/
def Flow.Advances (f : Flow τ) (p : Pass τ) : Prop :=
  f.left < p.rest.length ∨ p.escflg ≠ .esc_root ∧
    ∃ q, f = .again q ∧ q.escflg = .esc_root ∧ q.rest.length ≤ p.rest.length

/-- The last parts of the main loop use up an octet of a command to an XTerm, or end it. -/
theorem lastParts_flow {p : Pass τ} (before : UInt8) (hst : p.escflg = .esc_XTerm)
    (hrest : p.rest ≠ []) :
    let f := Emulation.runParts
      [Emulation.osc before, escPart .esc_url Emulation.url, Emulation.trailing] p
    f.left < p.rest.length ∨ p.escflags ≠ 0 ∧
      ∃ q, f = .again q ∧ q.escflg = .esc_root ∧ q.rest.length ≤ p.rest.length := by
  have hlen : 0 < p.rest.length := List.length_pos_iff.mpr hrest
  have hflow := osc_flow before hst
  intro f
  have hf : f = (Emulation.osc before p).andThen
    (Emulation.runParts [escPart .esc_url Emulation.url, Emulation.trailing]) := rfl
  generalize Emulation.osc before p = g at hflow hf
  cases hflow with
  | @on q hq hle =>
    left
    obtain ⟨e, escflg, escflags, rest⟩ := q
    simp only at hq hle
    subst hq
    rw [hf]
    cases rest with
    | nil => exact hlen
    | cons c cs => exact hle
  | @ends q hq hle hstart =>
    rcases Nat.eq_zero_or_pos p.escflags with h0 | h0
    · left
      rw [hf]
      exact hstart (decide_eq_true h0)
    · right
      exact ⟨by omega, q, hf, hq, hle⟩

/-- The control characters end at text, or at an escape. -/
theorem controls_left (e : Emulation τ) (escflags : ℕ) (cs : List UInt8) :
    (e.controls escflags cs).1.rest.length ≤ cs.length ∧
      ((e.controls escflags cs).1.escflg = .esc_root ∧
          (∀ c ∈ (e.controls escflags cs).1.rest.head?,
            c ≥ 32 ∨ (e.controls escflags cs).2 = true) ∨
        (e.controls escflags cs).1.rest.length < cs.length) := by
  induction cs generalizing e with
  | nil => exact ⟨le_rfl, Or.inl ⟨rfl, by simp [Emulation.controls]⟩⟩
  | cons c cs ih =>
    rw [Emulation.controls]
    split_ifs with h32
    · exact ⟨Nat.le_succ _, Or.inr (Nat.lt_succ_self _)⟩
    · exact ⟨le_rfl, Or.inl ⟨rfl, fun _ _ => Or.inr rfl⟩⟩
    · exact ⟨(ih _).1.trans (Nat.le_succ _), Or.inr (Nat.lt_succ_of_le (ih _).1)⟩
    · refine ⟨le_rfl, Or.inl ⟨rfl, ?_⟩⟩
      intro c' hc'
      rw [List.head?_cons, Option.mem_some_iff] at hc'
      rw [← hc']
      exact Or.inl (UInt8.not_lt.mp h32)

theorem PrScan.loop_left (s : PrScan) (cs : List UInt8) : (s.loop cs).2.length ≤ cs.length := by
  induction cs generalizing s with
  | nil => exact le_rfl
  | cons c cs ih =>
    rw [PrScan.loop]
    split_ifs
    · exact Nat.le_succ _
    · exact (ih _).trans (Nat.le_succ _)

/-- What is left behind the control characters is text, or in an escape state. -/
theorem groundPart_left (p : Pass τ) :
    (Emulation.groundPart p).1.rest.length ≤ p.rest.length ∧
      ((Emulation.groundPart p).1.rest.length < p.rest.length ∨
        (Emulation.groundPart p).1.escflg = p.escflg ∧
          (p.escflg = .esc_root → ∀ c ∈ (Emulation.groundPart p).1.rest.head?,
            c ≥ 32 ∨ (Emulation.groundPart p).2 = true)) := by
  rw [Emulation.groundPart]
  have hpr : ((if p.e.printer.prredirect then
      { p with
        e := { p.e with printer := (VSpr p.e.printer p.rest).printer }
        rest := (VSpr p.e.printer p.rest).rest } else p).rest.length ≤ p.rest.length) := by
    split_ifs
    · exact PrScan.loop_left _ _
    · exact le_rfl
  have hst : (if p.e.printer.prredirect then
      { p with
        e := { p.e with printer := (VSpr p.e.printer p.rest).printer }
        rest := (VSpr p.e.printer p.rest).rest } else p).escflg = p.escflg := by
    split_ifs <;> rfl
  simp only
  generalize (if p.e.printer.prredirect then
      { p with
        e := { p.e with printer := (VSpr p.e.printer p.rest).printer }
        rest := (VSpr p.e.printer p.rest).rest } else p) = q at hpr hst
  split_ifs with hroot
  · obtain ⟨hle, hctl⟩ := controls_left q.e q.escflags q.rest
    refine ⟨hle.trans hpr, ?_⟩
    rcases hctl with ⟨hr, hc⟩ | hlt
    · exact Or.inr ⟨by rw [hr, ← hst, hroot], fun _ => hc⟩
    · exact Or.inl (lt_of_lt_of_le hlt hpr)
  · exact ⟨hpr, Or.inr ⟨hst, fun h => absurd (hst.trans h) hroot⟩⟩

variable (inner : Emulation τ → List UInt8 → Option (Emulation τ)) (before : UInt8)

theorem parts_left (mw : Int) (tryit : Bool) :
    ∀ part ∈ Emulation.parts inner before mw tryit, ∀ p, (part p).left ≤ p.rest.length := by
  intro part hpart p
  simp only [Emulation.parts, List.mem_cons, List.not_mem_nil, or_false] at hpart
  rcases hpart with rfl | rfl | rfl | rfl | rfl | rfl | rfl | rfl | rfl | rfl | rfl | rfl | rfl |
    rfl | rfl
  · exact c1_left p
  · exact text_left mw tryit p
  all_goals first
    | exact escPart_left _ _ p
    | exact osc_left before p
    | exact trailing_left p

/-- In an escape sequence, the part for its state uses up an octet. -/
theorem parts_uses (mw : Int) (tryit : Bool) {p : Pass τ} (hroot : p.escflg ≠ .esc_root)
    (hosc : p.escflg ≠ .esc_XTerm) (hrest : p.rest ≠ []) :
    (Emulation.runParts (Emulation.parts inner before mw tryit) p).left < p.rest.length := by
  have hleft := parts_left inner before mw tryit
  have huse (n : ℕ) {st : EscState} {step : Emulation τ → ℕ → UInt8 → Esc τ}
      (hn : Emulation.parts inner before mw tryit =
        (Emulation.parts inner before mw tryit).take n ++
          escPart st step :: (Emulation.parts inner before mw tryit).drop (n+1))
      (hst : p.escflg = st)
      (hidle : ∀ part ∈ (Emulation.parts inner before mw tryit).take n, part p = .fall p) :
      (Emulation.runParts (Emulation.parts inner before mw tryit) p).left < p.rest.length := by
    rw [hn, runParts_skip _ hidle]
    apply runParts_uses (escPart_uses step hst hrest)
    intro part hpart
    exact hleft part (List.mem_of_mem_drop hpart)
  cases hst : p.escflg with
  | esc_root => exact absurd hst hroot
  | esc_XTerm => exact absurd hst hosc
  | esc_basic =>
    apply huse 2 rfl hst
    simp [Emulation.parts, c1_skip, text_skip, hst]
  | esc_csi =>
    apply huse 3 rfl hst
    simp [Emulation.parts, c1_skip, text_skip, escPart_skip, hst]
  | esc_decl =>
    apply huse 4 rfl hst
    simp [Emulation.parts, c1_skip, text_skip, escPart_skip, hst]
  | esc_descl =>
    apply huse 5 rfl hst
    simp [Emulation.parts, c1_skip, text_skip, escPart_skip, hst]
  | esc_G0 =>
    apply huse 6 rfl hst
    simp [Emulation.parts, c1_skip, text_skip, escPart_skip, hst]
  | esc_G1 =>
    apply huse 7 rfl hst
    simp [Emulation.parts, c1_skip, text_skip, escPart_skip, hst]
  | esc_G2 =>
    apply huse 8 rfl hst
    simp [Emulation.parts, c1_skip, text_skip, escPart_skip, hst]
  | esc_G3 =>
    apply huse 9 rfl hst
    simp [Emulation.parts, c1_skip, text_skip, escPart_skip, hst]
  | esc_G0j =>
    apply huse 10 rfl hst
    simp [Emulation.parts, c1_skip, text_skip, escPart_skip, hst]
  | esc_G2j =>
    apply huse 11 rfl hst
    simp [Emulation.parts, c1_skip, text_skip, escPart_skip, hst]
  | esc_url =>
    apply huse 13 rfl hst
    simp [Emulation.parts, c1_skip, text_skip, escPart_skip, osc_skip, hst]

/-- A command to an XTerm is left to the last three parts. -/
theorem xtermParts (mw : Int) (tryit : Bool) {p : Pass τ} (hst : p.escflg = .esc_XTerm) :
    Emulation.runParts ((Emulation.parts inner before mw tryit).drop 1) p =
      Emulation.runParts
        [Emulation.osc before, escPart .esc_url Emulation.url, Emulation.trailing] p := by
  apply runParts_skip (((Emulation.parts inner before mw tryit).drop 1).take 11)
  simp [Emulation.parts, text_skip, escPart_skip, hst]

/-- What is behind the ground state is text, or an eight-bit control. -/
theorem rootParts_uses (mw : Int) {tryit : Bool} {p : Pass τ} (hst : p.escflg = .esc_root)
    (hrest : p.rest ≠ []) (hc : ∀ c ∈ p.rest.head?, c ≥ 32 ∨ tryit = true) :
    (Emulation.runParts (Emulation.parts inner before mw tryit) p).left < p.rest.length := by
  have hleft := parts_left inner before mw tryit
  obtain ⟨c, hhead⟩ : ∃ c, p.rest.head? = some c :=
    Option.isSome_iff_exists.mp (List.isSome_head?.mpr hrest)
  rcases c1_cases p with ⟨hfall, hc1⟩ | huse | hosc
  · -- the octet is text
    have htext : p.e.isText tryit c = true := by
      have h1 := hc1 hst c hhead
      have h2 := hc c hhead
      simp [Emulation.isText, h1, h2]
    rw [Emulation.parts, Emulation.runParts, hfall, Flow.andThen]
    apply runParts_uses (text_uses hst hhead htext)
    intro part hpart
    exact hleft part (List.mem_cons_of_mem _ (List.mem_cons_of_mem _ hpart))
  · apply runParts_uses huse
    intro part hpart
    exact hleft part (List.mem_cons_of_mem _ hpart)
  · have hparts : Emulation.parts inner before mw tryit =
        Emulation.c1 :: (Emulation.parts inner before mw tryit).drop 1 := rfl
    let q : Pass τ := { p with escflg := .esc_XTerm, escflags := 0 }
    rw [hparts, Emulation.runParts, hosc, Flow.andThen, xtermParts inner before mw tryit (p := q)
      rfl]
    rcases lastParts_flow (p := q) before rfl hrest with hlt | ⟨h0, -⟩
    · exact hlt
    · exact absurd rfl h0

/-- Once through the main loop. -/
theorem mainLoop_advances {p : Pass τ} (hrest : p.rest ≠ []) :
    (Emulation.mainLoop inner before p).Advances p := by
  obtain ⟨hle, hground⟩ := groundPart_left p
  have hleft := parts_left inner before p.e.lastColumn (Emulation.groundPart p).2
  have hloop : Emulation.mainLoop inner before p = Emulation.runParts
      (Emulation.parts inner before p.e.lastColumn (Emulation.groundPart p).2)
      (Emulation.groundPart p).1 := rfl
  rw [hloop]
  generalize Emulation.groundPart p = q at hle hground hleft
  obtain ⟨q, tryit⟩ := q
  simp only at hle hground hleft ⊢
  rcases Nat.lt_or_ge q.rest.length p.rest.length with hlt | hge
  · exact Or.inl (lt_of_le_of_lt (runParts_left hleft q) hlt)
  · obtain ⟨hst, hroot⟩ := hground.resolve_left (by omega)
    have hqrest : q.rest ≠ [] := by
      intro h
      rw [h] at hge
      exact hrest (List.length_eq_zero_iff.mp (by simpa using hge))
    by_cases h1 : q.escflg = .esc_root
    · exact Or.inl (lt_of_lt_of_le
        (rootParts_uses inner before _ h1 hqrest (hroot (hst ▸ h1))) hle)
    · by_cases h2 : q.escflg = .esc_XTerm
      · have hskip : Emulation.runParts (Emulation.parts inner before p.e.lastColumn tryit) q =
            Emulation.runParts
              [Emulation.osc before, escPart .esc_url Emulation.url, Emulation.trailing] q := by
          apply runParts_skip ((Emulation.parts inner before p.e.lastColumn tryit).take 12)
          simp [Emulation.parts, c1_skip, text_skip, escPart_skip, h2]
        rw [hskip]
        rcases lastParts_flow before h2 hqrest with hlt | ⟨-, r, hr, hrst, hrle⟩
        · exact Or.inl (lt_of_lt_of_le hlt hle)
        · exact Or.inr ⟨hst ▸ h1, r, hr, hrst, hrle.trans hle⟩
      · exact Or.inl (lt_of_lt_of_le (parts_uses inner before _ _ h1 h2 hqrest) hle)

/-- The passes that the main loop may still need. -/
def Pass.fuel (p : Pass τ) : ℕ := 2*p.rest.length+if p.escflg = .esc_root then 0 else 1

theorem advances_fuel {p q : Pass τ} {f : Flow τ} (h : f.Advances p)
    (hf : f = .fall q ∨ f = .again q) :
    q.fuel < p.fuel := by
  have hq : q.fuel ≤ 2*q.rest.length+1 := by
    rw [Pass.fuel]
    split_ifs <;> omega
  rcases h with hlt | ⟨hne, r, rfl, hst, hle⟩
  · have hleft : f.left = q.rest.length := by rcases hf with rfl | rfl <;> rfl
    rw [Pass.fuel, Pass.fuel] at *
    omega
  · obtain rfl : r = q := by
      rcases hf with h | h
      · cases h
      · exact Flow.again.inj h
    rw [Pass.fuel, Pass.fuel, if_pos hst, if_neg hne]
    omega

/-- The main loop has enough passes. -/
theorem loop_fuel {n m : ℕ} {p : Pass τ} (hn : p.fuel ≤ n) (hm : p.fuel ≤ m) :
    Emulation.loop inner before n p = Emulation.loop inner before m p := by
  induction n generalizing m p with
  | zero =>
    have hrest : p.rest = [] := by
      apply List.length_eq_zero_iff.mp
      rw [Pass.fuel] at hn
      omega
    cases m with
    | zero => rfl
    | succ m => rw [Emulation.loop, Emulation.loop, if_pos hrest, if_pos hrest]
  | succ n ih =>
    by_cases hrest : p.rest = []
    · cases m with
      | zero => rw [Emulation.loop, Emulation.loop, if_pos hrest, if_pos hrest]
      | succ m => rw [Emulation.loop, Emulation.loop, if_pos hrest, if_pos hrest]
    · have hpos : 0 < p.rest.length := List.length_pos_iff.mpr hrest
      cases m with
      | zero =>
        rw [Pass.fuel] at hm
        omega
      | succ m =>
        rw [Emulation.loop, Emulation.loop, if_neg hrest, if_neg hrest]
        have hadv := mainLoop_advances inner before hrest
        generalize Emulation.mainLoop inner before p = f at hadv
        cases f with
        | fall q =>
          have hlt := advances_fuel hadv (Or.inl rfl)
          exact ih (by omega) (by omega)
        | again q =>
          have hlt := advances_fuel hadv (Or.inr rfl)
          exact ih (by omega) (by omega)
        | hang => rfl

/-- The main loop with as many passes as it needs. -/
def drain (p : Pass τ) : Option (Pass τ) := Emulation.loop inner before p.fuel p

theorem drain_nil {p : Pass τ} (h : p.rest = []) : drain inner before p = some p := by
  rw [drain]
  cases p.fuel with
  | zero => exact if_pos h
  | succ n => exact if_pos h

/-- Where the passes go on. -/
def Flow.pass? (f : Flow τ) : Option (Pass τ) :=
  match f with
  | .fall p => some p
  | .again p => some p
  | .hang => none

theorem drain_step {p : Pass τ} (h : p.rest ≠ []) :
    drain inner before p =
      (Emulation.mainLoop inner before p).pass?.bind (drain inner before) := by
  have hpos : 0 < p.rest.length := List.length_pos_iff.mpr h
  obtain ⟨n, hn⟩ : ∃ n, p.fuel = n+1 := ⟨p.fuel-1, by rw [Pass.fuel]; omega⟩
  rw [drain, hn, Emulation.loop, if_neg h]
  have hadv := mainLoop_advances inner before h
  generalize Emulation.mainLoop inner before p = f at hadv
  cases f with
  | fall q =>
    have hlt := advances_fuel hadv (Or.inl rfl)
    exact loop_fuel inner before (by omega) le_rfl
  | again q =>
    have hlt := advances_fuel hadv (Or.inr rfl)
    exact loop_fuel inner before (by omega) le_rfl
  | hang => rfl

/-- The state of the emulation at the end of a chunk. -/
def Pass.final (p : Pass τ) : Emulation τ := { p.e with escflg := p.escflg, escflags := p.escflags }

theorem emulate_eq (e : Emulation τ) (chunk : List UInt8) :
    Emulation.emulate inner before e chunk =
      (drain inner before ⟨e, e.escflg, e.escflags, chunk⟩).map Pass.final := by
  have hfuel : (⟨e, e.escflg, e.escflags, chunk⟩ : Pass τ).fuel ≤ 2*chunk.length+1 := by
    rw [Pass.fuel]
    split_ifs <;> simp
  rw [Emulation.emulate, drain, loop_fuel inner before hfuel le_rfl]
  rfl

/-- The emulation of repeated characters. -/
def repeated (e : Emulation τ) (chunk : List UInt8) : Option (Emulation τ) :=
  Emulation.emulate (fun e _ => some e) 0 e chunk

theorem VSem_eq (e : Emulation τ) (chunk : List UInt8) :
    Emulation.VSem before e chunk =
      (drain repeated before ⟨e, e.escflg, e.escflags, chunk⟩).map Pass.final :=
  emulate_eq repeated before e chunk

end Flow

end VS
