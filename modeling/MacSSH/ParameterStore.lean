import MacSSH.EmulationSteps
import MacSSH.ScrollRegion

/-! The accesses of the emulation to the parameters of a control sequence. -/
namespace VS

open Linked Traces

variable {τ : Type}

/-- The parameter that a step reads or writes at `parmptr`, if it does. A digit of a palette
entry is one, behind the letter that opens the entry or in a chunk of its own. -/
def parmAccess (e : Emulation τ) : Step → Option Int
  | .octet .esc_csi _ _ c =>
    match CsiChar.of c with
    | .digit _ => some e.parmptr
    | .question => some e.parmptr
    | .attributes => if e.parms 0 = -2 then none else some e.parmptr
    | .media => some e.parmptr
    | _ => none
  | .command 0 (c :: d :: _) =>
    if c = 0x50 ∧ Emulation.isHex d then some e.parmptr else none
  | .command 3 (d :: _) => if Emulation.isHex d then some e.parmptr else none
  | _ => none

/-- The step moves `parmptr` on: it is a separator, or a digit of a palette entry. -/
def movesOn : Step → Bool
  | .octet .esc_csi _ _ c =>
    match CsiChar.of c with
    | .semicolon => true
    | .question => true
    | _ => false
  | .command 0 (c :: d :: _) => c = 0x50 && Emulation.isHex d
  | .command 3 (d :: _) => Emulation.isHex d
  | _ => false

/-- `parmptr` is not moved on from the last parameter. -/
def KeepsRoom (e : Emulation τ) (s : Step) : Prop :=
  movesOn s = true → e.parmptr+1 < Emulation.maxparms

instance (e : Emulation τ) (s : Step) : Decidable (KeepsRoom e s) :=
  inferInstanceAs (Decidable (_ → _))

/-- `parmptr` is the index of a parameter. -/
def InParms (e : Emulation τ) : Prop := 0 ≤ e.parmptr ∧ e.parmptr < Emulation.maxparms

instance (e : Emulation τ) : Decidable (InParms e) := inferInstanceAs (Decidable (_ ∧ _))

section Frame
variable {e e' : Emulation τ}

theorem TextOnly.parmptr (h : TextOnly e e') : e'.parmptr = e.parmptr := by
  obtain ⟨_, _, _, _, _, _, _, _, _, rfl⟩ := h
  rfl

theorem shortCut_parmptr (e : Emulation τ) (c : UInt8) (rest : List UInt8) :
    (e.shortCut c rest).e.parmptr = e.parmptr := by
  rw [Emulation.shortCut]
  split_ifs <;> rfl

theorem switchin_parmptr (e : Emulation τ) (k : InTranslation) :
    (e.switchin k).parmptr = e.parmptr := (switchin_text e k).parmptr

theorem lineFeed_parmptr (e : Emulation τ) : e.lineFeed.parmptr = e.parmptr :=
  (VSIindex_text _).parmptr

theorem trflush_parmptr (e : Emulation τ) : e.trflush.parmptr = e.parmptr := by
  unfold Emulation.trflush
  split <;> rfl

theorem backspace_parmptr (e : Emulation τ) : e.backspace.parmptr = e.parmptr := by
  rw [Emulation.backspace]
  split_ifs <;> rfl

theorem wrapping_parmptr (e : Emulation τ) (f : VSscrn → VSscrn) :
    (e.wrapping f).parmptr = e.parmptr := (wrapTranslation_text e).parmptr

theorem VSIeeol_parmptr (e : Emulation τ) : e.VSIeeol.parmptr = e.parmptr := by
  simp only [Emulation.VSIeeol]
  rw [wrapping_parmptr]
  split_ifs <;> rfl

theorem VSIeeos_parmptr (e : Emulation τ) : e.VSIeeos.parmptr = e.parmptr := by
  have hwrap := wrapping_parmptr e VSscrn.VSIwrapnow
  simp only [Emulation.VSIeeos]
  change (Emulation.VSIeeol _).parmptr = _
  rw [VSIeeol_parmptr]
  change (if _ then _ else _ : Emulation τ).parmptr = _
  split_ifs <;> exact hwrap

theorem control_parmptr (e : Emulation τ) (c : UInt8) : (e.control c).parmptr = e.parmptr := by
  rw [Emulation.control]
  split_ifs
  · rfl
  · rfl
  · rfl
  · rfl
  · rw [trflush_parmptr, backspace_parmptr]
  · rfl
  · exact lineFeed_parmptr e
  · rw [trflush_parmptr]
  · rfl

theorem switchMultibyte_parmptr (e : Emulation τ) (k : InTranslation) :
    (e.switchMultibyte k).parmptr = e.parmptr := by
  rw [Emulation.switchMultibyte]
  split_ifs
  · exact switchin_parmptr e k
  · rfl

theorem setG0_parmptr (e : Emulation τ) (graphics : Bool) :
    (e.setG0 graphics).parmptr = e.parmptr := by
  simp only [Emulation.setG0]
  split_ifs <;> rfl

theorem setG1_parmptr (e : Emulation τ) (graphics : Bool) :
    (e.setG1 graphics).parmptr = e.parmptr := by
  simp only [Emulation.setG1]
  split_ifs <;> rfl

/-- The parameters are left as they are, or there are none. -/
def KeepsParms (e e' : Emulation τ) : Prop := e'.parmptr = e.parmptr ∨ e'.parmptr = 0

theorem InParms.of_keeps (h : InParms e) (hkeeps : KeepsParms e e') : InParms e' := by
  rcases hkeeps with he | he
  · rw [InParms, he]
    exact h
  · rw [InParms, he]
    decide

theorem basic_keeps (e : Emulation τ) (escflags : ℕ) (c : UInt8) :
    (e.basic escflags c).Holds (KeepsParms e) := by
  rw [Emulation.basic]
  cases BasicChar.of c with
  | backspace => exact Or.inl (backspace_parmptr e)
  | csi => exact Or.inr rfl
  | restore =>
    apply Or.inl
    rw [Emulation.VSIrestore]
    split_ifs <;> rfl
  | reset => exact Or.inr rfl
  | index => exact Or.inl (lineFeed_parmptr e)
  | nextLine => exact Or.inl (lineFeed_parmptr { e with x := 0 })
  | osc =>
    simp only
    split_ifs <;> exact Or.inl rfl
  | _ => exact Or.inl rfl

theorem descl_keeps (e : Emulation τ) (escflags : ℕ) (c : UInt8) :
    (e.descl escflags c).Holds (KeepsParms e) := by
  rw [Emulation.descl]
  split_ifs <;> first
    | exact Or.inl (backspace_parmptr e)
    | exact Or.inl rfl

theorem decl_keeps (e : Emulation τ) (escflags : ℕ) (c : UInt8) :
    (e.decl escflags c).Holds (KeepsParms e) := by
  rw [Emulation.decl]
  split_ifs <;> first
    | exact Or.inl (backspace_parmptr e)
    | exact Or.inl rfl

theorem G0set_keeps (e : Emulation τ) (escflags : ℕ) (c : UInt8) :
    (e.G0set escflags c).Holds (KeepsParms e) := by
  rw [Emulation.G0set]
  split_ifs
  · exact Or.inl (backspace_parmptr e)
  · exact Or.inl ((switchMultibyte_parmptr _ _).trans (setG0_parmptr e _))
  · exact Or.inl (setG0_parmptr e _)
  · exact Or.inl (switchMultibyte_parmptr e _)
  · exact Or.inl (switchMultibyte_parmptr e _)
  · exact Or.inl rfl

theorem G1set_keeps (e : Emulation τ) (escflags : ℕ) (c : UInt8) :
    (e.G1set escflags c).Holds (KeepsParms e) := by
  rw [Emulation.G1set]
  split_ifs
  · exact Or.inl (backspace_parmptr e)
  · exact Or.inl (setG1_parmptr e _)
  · exact Or.inl (setG1_parmptr e _)
  · exact Or.inl rfl

theorem G2set_keeps (st : EscState) (e : Emulation τ) (escflags : ℕ) (c : UInt8) :
    (e.G2set st escflags c).Holds (KeepsParms e) := by
  rw [Emulation.G2set]
  split_ifs
  · exact Or.inl (backspace_parmptr e)
  · exact Or.inl rfl

theorem G0jset_keeps (e : Emulation τ) (escflags : ℕ) (c : UInt8) :
    (e.G0jset escflags c).Holds (KeepsParms e) := by
  have hset (k : InTranslation) :
      KeepsParms e ((e.setG0 false).switchMultibyte k) :=
    Or.inl ((switchMultibyte_parmptr _ _).trans (setG0_parmptr e _))
  rw [Emulation.G0jset]
  split_ifs <;> first
    | exact Or.inl (backspace_parmptr e)
    | exact hset _
    | exact Or.inl (setG0_parmptr e _)
    | exact Or.inl rfl

theorem G2jset_keeps (e : Emulation τ) (escflags : ℕ) (c : UInt8) :
    (e.G2jset escflags c).Holds (KeepsParms e) := by
  rw [Emulation.G2jset]
  split_ifs
  · exact Or.inl (backspace_parmptr e)
  · exact Or.inl rfl
  · exact Or.inl rfl
  · exact Or.inl rfl

theorem url_keeps (e : Emulation τ) (escflags : ℕ) (c : UInt8) :
    (e.url escflags c).Holds (KeepsParms e) := by
  rw [Emulation.url]
  split_ifs <;> exact Or.inl rfl

theorem Esc.Holds.imp {I J : Emulation τ → Prop} {r : Esc τ} (h : r.Holds I)
    (himp : ∀ e, I e → J e) : r.Holds J := by
  cases r with
  | next e _ _ => exact himp e h
  | shortCut e => exact himp e h
  | hang => trivial

theorem leastOne_parmptr (e : Emulation τ) : e.leastOne.parmptr = e.parmptr := by
  rw [Emulation.leastOne]
  split_ifs <;> rfl

theorem VSIsetoption_parmptr (e : Emulation τ) (toggle : Bool) :
    (e.VSIsetoption toggle).parmptr = e.parmptr := by
  rw [Emulation.VSIsetoption]
  split_ifs <;> rfl

theorem eraseDisplay_parmptr (e : Emulation τ) : e.eraseDisplay.parmptr = e.parmptr := by
  rw [Emulation.eraseDisplay]
  split_ifs
  · exact VSIeeos_parmptr e
  · exact wrapping_parmptr e _
  · rfl
  · rfl

theorem eraseLine_parmptr (e : Emulation τ) : e.eraseLine.parmptr = e.parmptr := by
  rw [Emulation.eraseLine]
  split_ifs
  · exact VSIeeol_parmptr e
  · exact wrapping_parmptr e _
  · exact wrapping_parmptr e _
  · rfl

theorem attributes_parmptr (e : Emulation τ) : e.attributes.parmptr = e.parmptr := by
  rw [Emulation.attributes]
  split_ifs <;> rfl

/-- The functions of the control sequences leave the parameters as they are. -/
theorem csi_keeps (e : Emulation τ) (mw : Int) (escflags : ℕ) {c : UInt8}
    (inner : Emulation τ → List UInt8 → Option (Emulation τ)) (herase : CsiChar.of c ≠ .erase)
    (hrepeat : CsiChar.of c ≠ .repeated) (hon : movesOn (.octet .esc_csi mw escflags c) = false) :
    (e.csi inner mw escflags c).Holds (KeepsParms e) := by
  simp only [movesOn] at hon
  rw [Emulation.csi]
  generalize CsiChar.of c = ch at *
  cases ch with
  | backspace => exact Or.inl (backspace_parmptr e)
  | question => cases hon
  | semicolon => cases hon
  | erase => exact absurd rfl herase
  | repeated => exact absurd rfl hrepeat
  | right =>
    apply Or.inl
    rw [Emulation.cursorRight]
    split_ifs <;> rfl
  | left =>
    apply Or.inl
    rw [Emulation.cursorLeft]
    split_ifs <;> rfl
  | column =>
    apply Or.inl
    rw [Emulation.cursorColumn]
    split_ifs <;> rfl
  | tabClear =>
    simp only
    split_ifs <;> exact Or.inl rfl
  | option on => exact Or.inl (VSIsetoption_parmptr e on)
  | media =>
    apply Or.inl
    split_ifs <;> rfl
  | eraseDisplay => exact Or.inl (eraseDisplay_parmptr e)
  | eraseLine => exact Or.inl (eraseLine_parmptr e)
  | insertLines => exact Or.inl (leastOne_parmptr e)
  | deleteLines => exact Or.inl (leastOne_parmptr e)
  | attributes => exact Or.inl (attributes_parmptr e)
  | deleteChars => exact Or.inl ((wrapping_parmptr _ _).trans (leastOne_parmptr e))
  | margins =>
    apply Or.inl
    rw [Emulation.setMargins]
    split_ifs <;> rfl
  | insertChars =>
    simp only
    cases hins : e.leastOne.VSIinschar (e.leastOne.parms 0) true with
    | none => trivial
    | some e₁ => exact Or.inl ((VSIinschar_text hins).parmptr.trans (leastOne_parmptr e))
  | _ => exact Or.inl rfl

/-- A separator moves on to the next parameter. -/
theorem csi_movesOn (e : Emulation τ) (mw : Int) (escflags : ℕ) {c : UInt8}
    (inner : Emulation τ → List UInt8 → Option (Emulation τ))
    (hon : movesOn (.octet .esc_csi mw escflags c) = true) :
    (e.csi inner mw escflags c).Holds fun e' => e'.parmptr = short (e.parmptr+1) := by
  simp only [movesOn] at hon
  rw [Emulation.csi]
  generalize CsiChar.of c = ch at *
  cases ch with
  | question => rfl
  | semicolon => rfl
  | _ => cases hon

theorem title_parmptr (e : Emulation τ) (before : UInt8) (cs : List UInt8) :
    (e.title before cs).1.parmptr = e.parmptr := by
  induction cs generalizing e before with
  | nil => rfl
  | cons c cs ih =>
    rw [Emulation.title]
    split_ifs
    · rfl
    · rw [ih]
    · exact ih e c

/-- The parameters are left as they are. -/
def SameParms (e e' : Emulation τ) : Prop := e'.parmptr = e.parmptr

theorem endTitle_same (p : Pass τ) (before : UInt8) :
    (Emulation.endTitle p before).Holds (SameParms p.e) := by
  have htitle := title_parmptr p.e before p.rest
  rw [Emulation.endTitle]
  split
  · rename_i e last h
    rw [h] at htitle
    exact htitle
  · rename_i e last c cs h
    rw [h] at htitle
    simp only
    split_ifs
    · exact (shortCut_parmptr _ _ _).trans htitle
    · exact (shortCut_parmptr _ _ _).trans htitle

/-- A digit of a palette entry moves on. -/
theorem paletteDigit_next (e : Emulation τ) (escflg : EscState) (escflags : ℕ) {d : UInt8}
    (hd : Emulation.isHex d = true) (cs : List UInt8) :
    (Emulation.paletteDigit ⟨e, escflg, escflags, d :: cs⟩).Holds
      fun e' => e'.parmptr = short (e.parmptr+1) := by
  simp only [Emulation.paletteDigit]
  rw [if_pos hd]
  split_ifs
  · refine (shortCut_parmptr _ _ _).trans ?_
    rw [Emulation.RSsetcolors]
    split_ifs <;> rfl
  · rfl

theorem paletteDigit_same (e : Emulation τ) (escflg : EscState) (escflags : ℕ)
    {rest : List UInt8} (h : ∀ d ∈ rest.head?, Emulation.isHex d = false) :
    (Emulation.paletteDigit ⟨e, escflg, escflags, rest⟩).Holds (SameParms e) := by
  cases rest with
  | nil => rfl
  | cons d cs =>
    have hd := h d (by simp)
    simp only [Emulation.paletteDigit, hd, Bool.false_eq_true, if_false]
    exact shortCut_parmptr e d cs

/-- A command to an XTerm other than a digit of a palette entry. -/
theorem oscCommand_same {before : UInt8} {p : Pass τ}
    (h : p.escflags = 3 → ∀ d ∈ p.rest.head?, Emulation.isHex d = false) :
    (Emulation.oscCommand before p).Holds (SameParms p.e) := by
  obtain ⟨e, escflg, escflags, rest⟩ := p
  simp only [Emulation.oscCommand]
  split_ifs with h1 h2 h3
  · cases rest with
    | nil => rfl
    | cons c cs =>
      simp only
      split_ifs
      · exact endTitle_same _ _
      · rfl
  · exact endTitle_same _ _
  · exact paletteDigit_same e escflg escflags (h h3)
  · rfl

theorem osc_same {e : Emulation τ} {escflags : ℕ} {rest : List UInt8}
    (hon : movesOn (.command escflags rest) = false) (before : UInt8) :
    (Emulation.osc before ⟨e, .esc_XTerm, escflags, rest⟩).Holds (SameParms e) := by
  cases rest with
  | nil => rfl
  | cons c cs =>
    simp only [Emulation.osc, if_true]
    split_ifs with h0 h1 h2 h3
    · exact oscCommand_same fun h => by cases h
    · subst h0
      apply oscCommand_same
      intro _ d hd
      cases cs with
      | nil => cases hd
      | cons d' cs =>
        rw [List.head?_cons, Option.mem_some_iff] at hd
        subst hd
        simpa [movesOn, h2] using hon
    · exact shortCut_parmptr _ _ _
    · exact shortCut_parmptr _ _ _
    · apply oscCommand_same
      intro h d hd
      simp only at h
      subst h
      rw [List.head?_cons, Option.mem_some_iff] at hd
      subst hd
      simpa [movesOn] using hon

theorem osc_next {e : Emulation τ} {escflags : ℕ} {rest : List UInt8}
    (hon : movesOn (.command escflags rest) = true) (before : UInt8) :
    (Emulation.osc before ⟨e, .esc_XTerm, escflags, rest⟩).Holds
      fun e' => e'.parmptr = short (e.parmptr+1) := by
  unfold movesOn at hon
  split at hon
  · rename_i h
    cases h
  · rename_i c d cs h
    obtain ⟨rfl, rfl⟩ := Step.command.inj h
    simp only [Bool.and_eq_true, decide_eq_true_eq] at hon
    obtain ⟨rfl, hd⟩ := hon
    exact paletteDigit_next e .esc_XTerm 3 hd cs
  · rename_i d cs h
    obtain ⟨rfl, rfl⟩ := Step.command.inj h
    exact paletteDigit_next e .esc_XTerm 3 hon cs
  · cases hon

theorem InParms.next (h : InParms e) (hroom : e.parmptr+1 < Emulation.maxparms)
    (he : e'.parmptr = short (e.parmptr+1)) : InParms e' := by
  simp only [InParms, Emulation.maxparms] at *
  rw [he, short_eq (by omega) (by omega)]
  omega

theorem Flow.Holds.imp {I J : Emulation τ → Prop} {f : Flow τ} (h : f.Holds I)
    (himp : ∀ e, I e → J e) : f.Holds J := by
  cases f with
  | fall p => exact himp p.e h
  | again p => exact himp p.e h
  | hang => trivial

theorem c1_keeps (e : Emulation τ) (escflags : ℕ) (c : UInt8) (cs : List UInt8) :
    (Emulation.c1 ⟨e, .esc_root, escflags, c :: cs⟩).Holds (KeepsParms e) := by
  simp only [Emulation.c1]
  split_ifs
  · exact Or.inl ((shortCut_parmptr _ _ _).trans (lineFeed_parmptr e))
  · exact Or.inl ((shortCut_parmptr _ _ _).trans (lineFeed_parmptr { e with x := 0 }))
  · exact Or.inl (shortCut_parmptr _ _ _)
  · exact Or.inl (shortCut_parmptr _ _ _)
  · exact Or.inr rfl
  · exact Or.inl rfl
  · exact Or.inl (shortCut_parmptr _ _ _)
  · exact Or.inl rfl

theorem typed_inParms (h : InParms e) (attrib : BitVec 32) (mw : Int) (r : Emulation.Run)
    (c : UInt8) : (e.typed attrib mw r c).Holds (fun _ => InParms) InParms := by
  have hleaves := typed_text e attrib mw r c
  cases htyped : e.typed attrib mw r c with
  | on e' r' =>
    rw [htyped] at hleaves
    exact h.of_keeps (Or.inl (TextOnly.parmptr hleaves))
  | off e' consumed =>
    rw [htyped] at hleaves
    exact h.of_keeps (Or.inl (TextOnly.parmptr hleaves))
  | hang => trivial

/-- As long as `parmptr` is not moved on from the last parameter, it is the index of one. -/
theorem inParms_keep : StepsKeep (τ := τ) KeepsRoom InParms (fun _ => InParms)
    (fun _ _ => InParms) where
  width h := h
  forget h := h
  aside h _ _ _ _ := h
  control h _ := h.of_keeps (Or.inl (control_parmptr _ _))
  c1 h _ escflags cs := (c1_keeps _ escflags _ cs).imp fun _ => h.of_keeps
  start h _ := h.of_keeps (Or.inl (startRun_text _ _).parmptr)
  char h _ := typed_inParms h _ _ _ _
  leave h := h
  octet hst h _ := by
    simp only [escSteps, List.mem_cons, List.not_mem_nil, or_false, Prod.mk.injEq] at hst
    rcases hst with ⟨rfl, rfl⟩ | ⟨rfl, rfl⟩ | ⟨rfl, rfl⟩ | ⟨rfl, rfl⟩ | ⟨rfl, rfl⟩ | ⟨rfl, rfl⟩ |
      ⟨rfl, rfl⟩ | ⟨rfl, rfl⟩ | ⟨rfl, rfl⟩ | ⟨rfl, rfl⟩
    · exact (basic_keeps _ _ _).imp fun _ => h.of_keeps
    · exact (decl_keeps _ _ _).imp fun _ => h.of_keeps
    · exact (descl_keeps _ _ _).imp fun _ => h.of_keeps
    · exact (G0set_keeps _ _ _).imp fun _ => h.of_keeps
    · exact (G1set_keeps _ _ _).imp fun _ => h.of_keeps
    · exact (G2set_keeps _ _ _ _).imp fun _ => h.of_keeps
    · exact (G2set_keeps _ _ _ _).imp fun _ => h.of_keeps
    · exact (G0jset_keeps _ _ _).imp fun _ => h.of_keeps
    · exact (G2jset_keeps _ _ _).imp fun _ => h.of_keeps
    · exact (url_keeps _ _ _).imp fun _ => h.of_keeps
  csi {e mw escflags c} h hc herase hrepeat inner := by
    cases hon : movesOn (.octet .esc_csi mw escflags c) with
    | false => exact (csi_keeps e mw escflags inner herase hrepeat hon).imp fun _ => h.of_keeps
    | true => exact (csi_movesOn e mw escflags inner hon).imp fun _ => h.next (hc hon)
  parm h _ := h
  erasing {e} h := by
    apply h.of_keeps (Or.inl _)
    rw [Emulation.erasing]
    split_ifs <;> rfl
  putBack _ h' _ _ _ := h'
  command {e _ escflags rest} h hc before := by
    cases hon : movesOn (.command escflags rest) with
    | false => exact (osc_same hon before).imp fun _ he => h.of_keeps (Or.inl he)
    | true => exact (osc_next hon before).imp fun _ => h.next (hc hon)

end Frame

theorem parmAccess_eq {e : Emulation τ} {s : Step} {i : Int} (h : i ∈ parmAccess e s) :
    i = e.parmptr := by
  unfold parmAccess at h
  split at h
  · split at h
    all_goals first
      | exact (Option.mem_some_iff.mp h).symm
      | cases h
      | skip
    split_ifs at h
    · cases h
    · exact (Option.mem_some_iff.mp h).symm
  · split_ifs at h
    · exact (Option.mem_some_iff.mp h).symm
    · cases h
  · split_ifs at h
    · exact (Option.mem_some_iff.mp h).symm
    · cases h
  · cases h

/-- In every run from a screen whose `parmptr` is in the array, all accesses to the
parameters are, as long as no step moves `parmptr` on from the last of them. -/
theorem parameter_store_safe (e : Emulation τ) (h : InParms e)
    (chunks : List (UInt8 × List UInt8)) (hroom : ∀ m ∈ VSemRunSteps e chunks, KeepsRoom m.1 m.2) :
    ∀ m ∈ VSemRunSteps e chunks, ∀ i ∈ parmAccess m.1 m.2, 0 ≤ i ∧ i < Emulation.maxparms := by
  intro m hm i hi
  rw [parmAccess_eq hi]
  exact ((inParms_keep.run h chunks hroom).1 m hm).1

theorem two_attributes_safe :
    ((VSemRunSteps (threeRowsEmulation 0) [(0, csiText [[0x31], [0x34]] 0x6d)]).all fun m =>
      (parmAccess m.1 m.2).all fun i => decide (0 ≤ i ∧ i < Emulation.maxparms)) = true := by
  have hsafe := parameter_store_safe (threeRowsEmulation 0) (by decide)
    [(0, csiText [[0x31], [0x34]] 0x6d)] (by decide)
  apply List.all_eq_true.mpr
  intro m hm
  cases haccess : parmAccess m.1 m.2 with
  | none => rfl
  | some i => exact decide_eq_true (hsafe m hm i haccess)

set_option maxRecDepth 4000 in
/-- The digit behind 16 separators is written behind the last parameter; and so is the
seventeenth palette digit to an XTerm. -/
theorem seventeenth_parameter :
    (VSemRunSteps (threeRowsEmulation 0)
        [(0, 0x1b :: 0x5b :: List.replicate 16 0x3b ++ [0x31])]).flatMap
          (fun m => (parmAccess m.1 m.2).toList) = [16] ∧
      (VSemRunSteps (newEmulation (some (plainWindow true)) (threeRowsFull 0))
        [(0, (List.replicate 17 [0x1b, 0x5d, 0x50, 0x31]).flatten)]).flatMap
          (fun m => (parmAccess m.1 m.2).toList) = List.map Int.ofNat (List.range 17) ∧
      ¬∀ chunks, ∀ m ∈ VSemRunSteps (threeRowsEmulation 0) chunks, ∀ i ∈ parmAccess m.1 m.2,
        0 ≤ i ∧ i < Emulation.maxparms := by
  have hdigit : (VSemRunSteps (threeRowsEmulation 0)
      [(0, 0x1b :: 0x5b :: List.replicate 16 0x3b ++ [0x31])]).flatMap
        (fun m => (parmAccess m.1 m.2).toList) = [16] := by decide
  refine ⟨hdigit, by decide, ?_⟩
  intro h
  have hmem : (16 : Int) ∈ (VSemRunSteps (threeRowsEmulation 0)
      [(0, 0x1b :: 0x5b :: List.replicate 16 0x3b ++ [0x31])]).flatMap
        (fun m => (parmAccess m.1 m.2).toList) := by
    rw [hdigit]
    exact List.mem_singleton_self _
  obtain ⟨m, hm, hi⟩ := List.mem_flatMap.mp hmem
  have hbad := (h _ m hm 16 (Option.mem_toList.mp hi)).2
  exact absurd hbad (by decide)

end VS
