import MacSSH.ControlSequences
import MacSSH.StepTraces

/-! The single steps of the emulation, and what they keep over every run. -/
namespace VS

open Linked Traces

variable {τ : Type}

/-- One step of the emulation; `mw` is the last column as the main loop has read it. -/
inductive Step where
  | control (c : UInt8)
  | c1 (c : UInt8)
  /-- A run of text starts. -/
  | start (mw : Int)
  /-- A character of a run. -/
  | char (attrib : BitVec 32) (mw : Int) (r : Emulation.Run) (c : UInt8)
  /-- An octet of an escape sequence. -/
  | octet (st : EscState) (mw : Int) (escflags : ℕ) (c : UInt8)
  /-- Octets of a command to an XTerm. -/
  | command (escflags : ℕ) (rest : List UInt8)
  /-- The cursor goes back to where it was before characters were erased. -/
  | putBack (x y : Int)

/-- The last column that a step works with, when it is the one that the main loop has read. -/
def Step.width : Step → Option Int
  | .start mw => some mw
  | .char _ mw _ _ => some mw
  | .octet _ mw _ _ => some mw
  | _ => none

/-- A step, with the state before it. -/
abbrev Moment (τ : Type) := Emulation τ × Step

namespace Emulation

def controlSteps (e : Emulation τ) : List UInt8 → List (Moment τ)
  | [] => []
  | c :: cs =>
    if c < 32 then
      if c = 0x1b then []
      else if c ≥ 0x10 ∧ (e.vtemulation = .ansi ∨ e.vtemulation = .linux) then []
      else (e, .control c) :: controlSteps (e.control c) cs
    else []

def c1Steps (p : Pass τ) : List (Moment τ) :=
  match p.rest with
  | [] => []
  | c :: _ => if p.escflg = .esc_root ∧ p.e.isC1 c then [(p.e, .c1 c)] else []

def runSteps (attrib : BitVec 32) (mw : Int) (tryit : Bool) (e : Emulation τ) (r : Run) :
    List UInt8 → List (Moment τ)
  | [] => []
  | c :: cs =>
    if e.isText tryit c then
      (e, .char attrib mw r c) ::
        match e.typed attrib mw r c with
        | .on e r => runSteps attrib mw tryit e r cs
        | .off _ _ => []
        | .hang => []
    else []

def textLoopSteps (mw : Int) (tryit : Bool) : ℕ → Emulation τ → List UInt8 → List (Moment τ)
  | 0, _, _ => []
  | fuel+1, e, rest =>
    match rest with
    | [] => []
    | c :: cs =>
      if e.isText tryit c then
        let start := e.startRun mw
        (e, .start mw) :: runSteps start.1.attrib mw tryit start.1 start.2 (c :: cs) ++
          match runLoop start.1.attrib mw tryit start.1 start.2 (c :: cs) with
          | none => []
          | some (e, rest) => textLoopSteps mw tryit fuel e rest
      else []

def textSteps (mw : Int) (tryit : Bool) (p : Pass τ) : List (Moment τ) :=
  if p.escflg = .esc_root then textLoopSteps mw tryit (2*p.rest.length+2) p.e p.rest else []

/-- The steps of an escape sequence; those of `inside` come between an octet and the next
one. -/
def escLoopSteps (st : EscState) (mw : Int) (step : Emulation τ → ℕ → UInt8 → Esc τ)
    (inside : Emulation τ → UInt8 → List (Moment τ)) (e : Emulation τ) (escflg : EscState)
    (escflags : ℕ) : List UInt8 → List (Moment τ)
  | [] => []
  | c :: cs =>
    if escflg = st then
      (e, .octet st mw escflags c) :: inside e c ++
        match step e escflags c with
        | .next e escflg escflags => escLoopSteps st mw step inside e escflg escflags cs
        | .shortCut _ => []
        | .hang => []
    else []

def escPartSteps (st : EscState) (mw : Int) (step : Emulation τ → ℕ → UInt8 → Esc τ)
    (inside : Emulation τ → UInt8 → List (Moment τ)) (p : Pass τ) : List (Moment τ) :=
  escLoopSteps st mw step inside p.e p.escflg p.escflags p.rest

def oscSteps (p : Pass τ) : List (Moment τ) :=
  if p.escflg = .esc_XTerm ∧ p.rest ≠ [] then [(p.e, .command p.escflags p.rest)] else []

section Inner
variable (inner : Emulation τ → List UInt8 → Option (Emulation τ))
  (innerSteps : Emulation τ → List UInt8 → List (Moment τ))

def repeatSteps : ℕ → Emulation τ → List (Moment τ)
  | 0, _ => []
  | fuel+1, e =>
    if e.parms 0 > 0 then
      let len := if e.parms 0 > 256 then 256 else e.parms 0
      let e := { e.parm 0 (e.parms 0-len) with escflg := .esc_root }
      innerSteps e (List.replicate len.toNat e.lastchar) ++
        match inner e (List.replicate len.toNat e.lastchar) with
        | none => []
        | some e => repeatSteps fuel e
    else []

/-- The state in which the blanks are emulated that erase characters. -/
def erasing (e : Emulation τ) : Emulation τ :=
  let e := if e.parms 0 = 0 then e.parm 0 1 else e
  let attrib := if e.vtemulation = .linux then e.attrib
    else e.attrib &&& (kVSansi2b ||| kVSgrph)
  { e with lastchar := 0x20, attrib := attrib }

/-- The steps inside of a control sequence that repeats a character. -/
def insideCsi (e : Emulation τ) (c : UInt8) : List (Moment τ) :=
  match CsiChar.of c with
  | .erase =>
    repeatSteps inner innerSteps (e.erasing.parms 0).toNat e.erasing ++
      match repeatLast inner e.erasing with
      | none => []
      | some e' => [(e', .putBack e.x e.y)]
  | .repeated => repeatSteps inner innerSteps (e.parms 0).toNat e
  | _ => []

/-- The parts of the main loop behind the control characters, with their steps. -/
def partsSteps (before : UInt8) (mw : Int) (tryit : Bool) :
    List ((Pass τ → Flow τ) × (Pass τ → List (Moment τ))) :=
  let esc (st : EscState) (step : Emulation τ → ℕ → UInt8 → Esc τ) :=
    (escPart st step, escPartSteps st mw step fun _ _ => [])
  [(c1, c1Steps), (text mw tryit, textSteps mw tryit), esc .esc_basic basic,
    (escPart .esc_csi (csi inner mw),
      escPartSteps .esc_csi mw (csi inner mw) (insideCsi inner innerSteps)),
    esc .esc_decl decl, esc .esc_descl descl, esc .esc_G0 G0set, esc .esc_G1 G1set,
    esc .esc_G2 (G2set .esc_G2), esc .esc_G3 (G2set .esc_G3), esc .esc_G0j G0jset,
    esc .esc_G2j G2jset, (osc before, oscSteps), esc .esc_url url, (trailing, fun _ => [])]

/-- The steps of the parts that are run. -/
def runPartsSteps : List ((Pass τ → Flow τ) × (Pass τ → List (Moment τ))) → Pass τ →
    List (Moment τ)
  | [], _ => []
  | part :: later, p =>
    part.2 p ++
      match part.1 p with
      | .fall q => runPartsSteps later q
      | .again _ => []
      | .hang => []

/-- What the printer takes is no step. -/
def groundSteps (p : Pass τ) : List (Moment τ) :=
  let p :=
    if p.e.printer.prredirect then
      let r := VSpr p.e.printer p.rest
      { p with e := { p.e with printer := r.printer }, rest := r.rest }
    else p
  if p.escflg = .esc_root then controlSteps p.e p.rest else []

def mainLoopSteps (before : UInt8) (p : Pass τ) : List (Moment τ) :=
  groundSteps p ++ runPartsSteps
    (partsSteps inner innerSteps before p.e.lastColumn (groundPart p).2) (groundPart p).1

def loopSteps (before : UInt8) : ℕ → Pass τ → List (Moment τ)
  | 0, _ => []
  | fuel+1, p =>
    if p.rest = [] then []
    else
      mainLoopSteps inner innerSteps before p ++
        match mainLoop inner before p with
        | .fall p | .again p => loopSteps before fuel p
        | .hang => []

def emulateSteps (before : UInt8) (e : Emulation τ) (chunk : List UInt8) : List (Moment τ) :=
  loopSteps inner innerSteps before (2*chunk.length+1) ⟨e, e.escflg, e.escflags, chunk⟩

end Inner

/-- The steps of the emulation of a chunk. -/
def VSemSteps (before : UInt8) (e : Emulation τ) (chunk : List UInt8) : List (Moment τ) :=
  emulateSteps (emulate (fun e _ => some e) 0)
    (emulateSteps (fun e _ => some e) (fun _ _ => []) 0) before e chunk

/-- The parts for which there are steps are those of the main loop. -/
theorem partsSteps_parts (inner : Emulation τ → List UInt8 → Option (Emulation τ))
    (innerSteps : Emulation τ → List UInt8 → List (Moment τ)) (before : UInt8) (mw : Int)
    (tryit : Bool) :
    (partsSteps inner innerSteps before mw tryit).map Prod.fst = parts inner before mw tryit :=
  rfl

end Emulation

/-- `W` holds of what an octet of a sequence leaves, and `I` behind its end. -/
def Esc.Leads (W I : Emulation τ → Prop) : Esc τ → Prop
  | .next e _ _ => W e
  | .shortCut e => I e
  | .hang => True

/-- `W` holds for the next part of the main loop, `I` when it starts again. -/
def Flow.Leads (W I : Emulation τ → Prop) : Flow τ → Prop
  | .fall p => W p.e
  | .again p => I p.e
  | .hang => True

/-- `I` holds of what an octet of a sequence leaves. -/
abbrev Esc.Holds (I : Emulation τ → Prop) (r : Esc τ) : Prop := r.Leads I I

abbrev Flow.Holds (I : Emulation τ → Prop) (f : Flow τ) : Prop := f.Leads I I

theorem Flow.Leads.holds {W I : Emulation τ → Prop} {f : Flow τ} (h : f.Leads W I)
    (hw : ∀ {e}, W e → I e) : f.Holds I := by
  cases f with
  | fall p => exact hw h
  | again p => exact h
  | hang => trivial

/-- In a run `R` holds, behind it `I`. -/
def Emulation.Typed.Holds (R : Emulation.Run → Emulation τ → Prop) (I : Emulation τ → Prop) :
    Emulation.Typed τ → Prop
  | .on e r => R r e
  | .off e _ => I e
  | .hang => True

/-- The sequences other than control sequences. -/
def escSteps : List (EscState × (Emulation τ → ℕ → UInt8 → Esc τ)) :=
  [(.esc_basic, Emulation.basic), (.esc_decl, Emulation.decl), (.esc_descl, Emulation.descl),
    (.esc_G0, Emulation.G0set), (.esc_G1, Emulation.G1set), (.esc_G2, Emulation.G2set .esc_G2),
    (.esc_G3, Emulation.G2set .esc_G3), (.esc_G0j, Emulation.G0jset),
    (.esc_G2j, Emulation.G2jset), (.esc_url, Emulation.url)]

/-- What a step must keep, one field for each kind of step. `I` holds whenever the main loop
starts, `W` within it, of the last column that it has read, and `R` in a run of text. -/
structure StepsKeep (C : Emulation τ → Step → Prop) (I : Emulation τ → Prop)
    (W : Int → Emulation τ → Prop) (R : Int → Emulation.Run → Emulation τ → Prop) : Prop where
  width {e : Emulation τ} (h : I e) : W e.lastColumn e
  forget {e : Emulation τ} {mw : Int} (h : W mw e) : I e
  aside {e : Emulation τ} {mw : Int} (h : W mw e) (printer : Printer) (force : Bool)
    (escflg : EscState) (escflags : ℕ) : W mw { e with
      printer := printer, possibleForce := force, escflg := escflg, escflags := escflags }
  control {e : Emulation τ} {mw : Int} {c : UInt8} (h : W mw e) (hc : C e (.control c)) :
    W mw (e.control c)
  c1 {e : Emulation τ} {mw : Int} {c : UInt8} (h : W mw e) (hc : C e (.c1 c)) (escflags : ℕ)
    (cs : List UInt8) : (Emulation.c1 ⟨e, .esc_root, escflags, c :: cs⟩).Leads (W mw) I
  start {e : Emulation τ} {mw : Int} (h : W mw e) (hc : C e (.start mw)) :
    R mw (e.startRun mw).2 (e.startRun mw).1
  char {e : Emulation τ} {attrib : BitVec 32} {mw : Int} {r : Emulation.Run} {c : UInt8}
    (h : R mw r e) (hc : C e (.char attrib mw r c)) :
    (e.typed attrib mw r c).Holds (R mw) (W mw)
  leave {e : Emulation τ} {mw : Int} {r : Emulation.Run} (h : R mw r e) : W mw e
  octet {e : Emulation τ} {st : EscState} {step : Emulation τ → ℕ → UInt8 → Esc τ} {mw : Int}
    {escflags : ℕ} {c : UInt8} (hst : (st, step) ∈ escSteps) (h : W mw e)
    (hc : C e (.octet st mw escflags c)) : (step e escflags c).Leads (W mw) I
  csi {e : Emulation τ} {mw : Int} {escflags : ℕ} {c : UInt8} (h : W mw e)
    (hc : C e (.octet .esc_csi mw escflags c)) (herase : CsiChar.of c ≠ .erase)
    (hrepeat : CsiChar.of c ≠ .repeated)
    (inner : Emulation τ → List UInt8 → Option (Emulation τ)) :
    (e.csi inner mw escflags c).Leads (W mw) I
  parm {e : Emulation τ} (h : I e) (v : Int) : I (e.parm 0 v)
  erasing {e : Emulation τ} (h : I e) : I e.erasing
  putBack {e e' : Emulation τ} (h : I e) (h' : I e') (hc : C e' (.putBack e.x e.y))
    (lastchar : UInt8) (attrib : BitVec 32) :
    I { e' with x := e.x, y := e.y, lastchar := lastchar, attrib := attrib }
  command {e : Emulation τ} {mw : Int} {escflags : ℕ} {rest : List UInt8} (h : W mw e)
    (hc : C e (.command escflags rest)) (before : UInt8) :
    (Emulation.osc before ⟨e, .esc_XTerm, escflags, rest⟩).Leads (W mw) I

/-- Along the steps `I` holds, and `W` of the last columns that they work with. -/
def Met (I : Emulation τ → Prop) (W : Int → Emulation τ → Prop) (e : Emulation τ) (s : Step) :
    Prop := I e ∧ ∀ mw ∈ s.width, W mw e

namespace StepsKeep
variable {C : Emulation τ → Step → Prop} {I : Emulation τ → Prop} {W : Int → Emulation τ → Prop}
  {R : Int → Emulation.Run → Emulation τ → Prop} {e : Emulation τ} {mw : Int}

theorem met (hk : StepsKeep C I W R) (h : W mw e) {s : Step}
    (hs : s.width = none ∨ s.width = some mw) :
    Met I W e s := by
  refine ⟨hk.forget h, ?_⟩
  intro mw' hmw
  rcases hs with hs | hs
  · rw [hs] at hmw
    cases hmw
  · rw [hs] at hmw
    rw [← Option.some.inj hmw]
    exact h

theorem asideOut (hk : StepsKeep C I W R) (h : I e) (printer : Printer) (force : Bool)
    (escflg : EscState) (escflags : ℕ) : I { e with
      printer := printer, possibleForce := force, escflg := escflg, escflags := escflags } :=
  hk.forget (hk.aside (hk.width h) printer force escflg escflags)

theorem shortCut (hk : StepsKeep C I W R) (h : I e) (c : UInt8) (rest : List UInt8) :
    I (e.shortCut c rest).e := by
  rw [Emulation.shortCut]
  split_ifs
  · exact hk.asideOut h e.printer false e.escflg e.escflags
  · exact h

theorem controls (hk : StepsKeep C I W R) (h : W mw e) (escflags : ℕ) (cs : List UInt8) :
    Along C (Met I W) (e.controlSteps cs) (W mw (e.controls escflags cs).1.e) := by
  induction cs generalizing e with
  | nil => exact Along.nil h
  | cons c cs ih =>
    rw [Emulation.controlSteps, Emulation.controls]
    split_ifs
    · exact Along.nil h
    · exact Along.nil h
    · exact Along.cons (hk.met h (Or.inl rfl)) fun hc => ih (hk.control h hc)
    · exact Along.nil h

theorem runLoop (hk : StepsKeep C I W R) (attrib : BitVec 32) (tryit : Bool) {r : Emulation.Run}
    (h : R mw r e) (cs : List UInt8) :
    Along C (Met I W) (Emulation.runSteps attrib mw tryit e r cs)
      (∀ q, Emulation.runLoop attrib mw tryit e r cs = some q → W mw q.1) := by
  induction cs generalizing e r with
  | nil =>
    apply Along.nil
    intro q hq
    rw [← Option.some.inj hq]
    exact hk.leave h
  | cons c cs ih =>
    rw [Emulation.runSteps, Emulation.runLoop]
    split_ifs
    · apply Along.cons (hk.met (hk.leave h) (Or.inr rfl))
      intro hc
      have hchar := hk.char h hc
      cases htyped : e.typed attrib mw r c with
      | on e' r' =>
        rw [htyped] at hchar
        exact ih hchar
      | off e' consumed =>
        rw [htyped] at hchar
        apply Along.nil
        intro q hq
        rw [← Option.some.inj hq]
        exact hchar
      | hang =>
        apply Along.nil
        intro q hq
        cases hq
    · apply Along.nil
      intro q hq
      rw [← Option.some.inj hq]
      exact hk.leave h

theorem textLoop (hk : StepsKeep C I W R) (tryit : Bool) (h : W mw e) (fuel : ℕ)
    (cs : List UInt8) :
    Along C (Met I W) (Emulation.textLoopSteps mw tryit fuel e cs)
      (∀ q, Emulation.textLoop mw tryit fuel e cs = some q → W mw q.1) := by
  have hend {fuel : ℕ} {e : Emulation τ} {cs : List UInt8} (h : W mw e)
      (hnone : ∀ q, Emulation.textLoop mw tryit fuel e cs = some q → q.1 = e) :
      Along C (Met I W) [] (∀ q, Emulation.textLoop mw tryit fuel e cs = some q → W mw q.1) := by
    apply Along.nil
    intro q hq
    rw [hnone q hq]
    exact h
  induction fuel generalizing e cs with
  | zero =>
    apply hend h
    intro q hq
    cases cs with
    | nil => rw [← Option.some.inj hq]
    | cons c cs =>
      rw [Emulation.textLoop] at hq
      split_ifs at hq
      rw [← Option.some.inj hq]
  | succ fuel ih =>
    cases cs with
    | nil =>
      apply hend h
      intro q hq
      rw [← Option.some.inj hq]
    | cons c cs =>
      rw [Emulation.textLoopSteps, Emulation.textLoop]
      split_ifs
      · simp only
        rw [List.cons_append]
        apply Along.cons (hk.met h (Or.inr rfl))
        intro hc
        apply (hk.runLoop _ tryit (hk.start h hc) (c :: cs)).append
        intro hrun
        cases hloop : Emulation.runLoop (e.startRun mw).1.attrib mw tryit (e.startRun mw).1
            (e.startRun mw).2 (c :: cs) with
        | none =>
          apply Along.nil
          intro q hq
          cases hq
        | some q => exact ih (hrun q hloop) q.2
      · apply Along.nil
        intro q hq
        rw [← Option.some.inj hq]
        exact h

theorem escLoop (hk : StepsKeep C I W R) {st : EscState}
    {step : Emulation τ → ℕ → UInt8 → Esc τ} {inside : Emulation τ → UInt8 → List (Moment τ)}
    (hstep : ∀ e escflags c, W mw e → C e (.octet st mw escflags c) →
      Along C (Met I W) (inside e c) ((step e escflags c).Leads (W mw) I))
    (h : W mw e) (escflg : EscState) (escflags : ℕ) (cs : List UInt8) :
    Along C (Met I W) (Emulation.escLoopSteps st mw step inside e escflg escflags cs)
      ((VS.escLoop st step e escflg escflags cs).Leads (W mw) I) := by
  induction cs generalizing e escflg escflags with
  | nil => exact Along.nil h
  | cons c cs ih =>
    rw [Emulation.escLoopSteps, VS.escLoop]
    split_ifs
    · rw [List.cons_append]
      apply Along.cons (hk.met h (Or.inr rfl))
      intro hc
      apply (hstep e escflags c h hc).append
      intro hholds
      cases hoctet : step e escflags c with
      | next e' escflg' escflags' =>
        rw [hoctet] at hholds
        exact ih hholds escflg' escflags'
      | shortCut e' =>
        rw [hoctet] at hholds
        exact Along.nil (hk.shortCut hholds c cs)
      | hang => exact Along.nil trivial
    · exact Along.nil h

/-- An emulation of chunks that keeps `I`. -/
def KeptBy (C : Emulation τ → Step → Prop) (I : Emulation τ → Prop)
    (W : Int → Emulation τ → Prop) (inner : Emulation τ → List UInt8 → Option (Emulation τ))
    (innerSteps : Emulation τ → List UInt8 → List (Moment τ)) : Prop :=
  ∀ e chunk, I e → Along C (Met I W) (innerSteps e chunk) (∀ e', inner e chunk = some e' → I e')

section Inner
variable {inner : Emulation τ → List UInt8 → Option (Emulation τ)}
  {innerSteps : Emulation τ → List UInt8 → List (Moment τ)}

theorem repeatLoop (hk : StepsKeep C I W R) (hinner : KeptBy C I W inner innerSteps) (h : I e)
    (fuel : ℕ) :
    Along C (Met I W) (Emulation.repeatSteps inner innerSteps fuel e)
      (∀ e', Emulation.repeatLoop inner fuel e = some e' → I e') := by
  have hend {e e' : Emulation τ} (h : I e) (he : some e = some e') : I e' := by
    rw [← Option.some.inj he]
    exact h
  induction fuel generalizing e with
  | zero => exact Along.nil fun e' he => hend h he
  | succ fuel ih =>
    rw [Emulation.repeatSteps, Emulation.repeatLoop]
    by_cases hpos : e.parms 0 > 0
    · rw [if_pos hpos, if_pos hpos]
      generalize (if e.parms 0 > 256 then 256 else e.parms 0) = len
      have hstart : I { e.parm 0 (e.parms 0-len) with escflg := .esc_root } :=
        hk.asideOut (hk.parm h (e.parms 0-len)) e.printer e.possibleForce .esc_root e.escflags
      apply (hinner _ (List.replicate len.toNat e.lastchar) hstart).append
      intro hchunk
      change Along C (Met I W) (match inner { e.parm 0 (e.parms 0-len) with escflg := .esc_root }
        (List.replicate len.toNat e.lastchar) with
          | none => []
          | some e => Emulation.repeatSteps inner innerSteps fuel e)
        (∀ e', (match inner { e.parm 0 (e.parms 0-len) with escflg := .esc_root }
          (List.replicate len.toNat e.lastchar) with
            | none => none
            | some e => Emulation.repeatLoop inner fuel e) = some e' → I e')
      cases hrun : inner { e.parm 0 (e.parms 0-len) with escflg := .esc_root }
          (List.replicate len.toNat e.lastchar) with
      | none =>
        apply Along.nil
        intro e' he
        cases he
      | some e₁ => exact ih (hchunk e₁ hrun)
    · rw [if_neg hpos, if_neg hpos]
      exact Along.nil fun e' he => hend h he

/-- The repetition of a character, and its use for blanks that erase. -/
theorem insideCsi (hk : StepsKeep C I W R) (hinner : KeptBy C I W inner innerSteps)
    (h : W mw e) (escflags : ℕ) {c : UInt8} (hc : C e (.octet .esc_csi mw escflags c)) :
    Along C (Met I W) (e.insideCsi inner innerSteps c)
      ((e.csi inner mw escflags c).Leads (W mw) I) := by
  have hout := hk.forget h
  have hends {o : Option (Emulation τ)} (ho : ∀ e', o = some e' → I e') :
      (Emulation.ends o).Leads (W mw) I := by
    cases o with
    | none => trivial
    | some e' => exact ho e' rfl
  rw [Emulation.insideCsi, Emulation.csi]
  generalize hchar : CsiChar.of c = ch
  have hcsi (herase : ch ≠ .erase) (hrepeat : ch ≠ .repeated) :
      (e.csi inner mw escflags c).Leads (W mw) I :=
    hk.csi h hc (by rwa [hchar]) (by rwa [hchar]) inner
  rw [Emulation.csi, hchar] at hcsi
  cases ch with
  | erase =>
    apply (hk.repeatLoop hinner (hk.erasing hout) _).append
    intro hrun
    have hmap : e.eraseChars inner = (Emulation.repeatLast inner e.erasing).map fun e' =>
        { e' with x := e.x, y := e.y, lastchar := e.lastchar, attrib := e.attrib } := by
      rw [Emulation.eraseChars]
      by_cases hzero : e.parms 0 = 0
      · simp only [Emulation.erasing, hzero, if_true]
        rfl
      · simp only [Emulation.erasing, hzero, if_false]
    change Along C (Met I W) _ ((Emulation.ends (e.eraseChars inner)).Leads (W mw) I)
    rw [hmap, Emulation.repeatLast]
    cases hlast : Emulation.repeatLoop inner (e.erasing.parms 0).toNat e.erasing with
    | none => exact Along.nil trivial
    | some e' =>
      apply Along.single ⟨hrun e' hlast, fun mw' hmw => by cases hmw⟩
      intro hput
      exact hk.putBack hout (hrun e' hlast) hput e.lastchar e.attrib
  | repeated => exact (hk.repeatLoop hinner hout _).mono hends
  | _ => exact Along.nil (hcsi (by simp) (by simp))

/-- A part of the main loop keeps `W`, or leaves the loop with `I`. -/
def PartKeeps (C : Emulation τ → Step → Prop) (I : Emulation τ → Prop)
    (W : Int → Emulation τ → Prop) (mw : Int)
    (part : (Pass τ → Flow τ) × (Pass τ → List (Moment τ))) : Prop :=
  ∀ p : Pass τ, W mw p.e → Along C (Met I W) (part.2 p) ((part.1 p).Leads (W mw) I)

theorem part_c1 (hk : StepsKeep C I W R) :
    PartKeeps C I W mw (Emulation.c1, Emulation.c1Steps) := by
  rintro ⟨e, escflg, escflags, rest⟩ h
  cases rest with
  | nil => exact Along.nil h
  | cons c cs =>
    simp only [Emulation.c1Steps]
    split_ifs with hc1
    · obtain rfl : escflg = .esc_root := hc1.1
      exact Along.single (hk.met h (Or.inl rfl)) fun hc => hk.c1 h hc escflags cs
    · have hidle : Emulation.c1 ⟨e, escflg, escflags, c :: cs⟩ =
          .fall ⟨e, escflg, escflags, c :: cs⟩ := if_neg hc1
      rw [hidle]
      exact Along.nil h

theorem part_text (hk : StepsKeep C I W R) (tryit : Bool) :
    PartKeeps C I W mw (Emulation.text mw tryit, Emulation.textSteps mw tryit) := by
  rintro ⟨e, escflg, escflags, rest⟩ h
  simp only [Emulation.text, Emulation.textSteps]
  split_ifs
  · apply (hk.textLoop tryit h _ rest).mono
    intro htext
    cases hloop : Emulation.textLoop mw tryit (2*rest.length+2) e rest with
    | none => trivial
    | some q => exact htext q hloop
  · exact Along.nil h

theorem part_esc (hk : StepsKeep C I W R) {st : EscState}
    {step : Emulation τ → ℕ → UInt8 → Esc τ} (hst : (st, step) ∈ escSteps) :
    PartKeeps C I W mw (escPart st step, Emulation.escPartSteps st mw step fun _ _ => []) :=
  fun p h => hk.escLoop (fun _ _ _ h hc => Along.nil (hk.octet hst h hc)) h p.escflg p.escflags
    p.rest

theorem part_csi (hk : StepsKeep C I W R) (hinner : KeptBy C I W inner innerSteps) :
    PartKeeps C I W mw (escPart .esc_csi (Emulation.csi inner mw),
      Emulation.escPartSteps .esc_csi mw (Emulation.csi inner mw)
        (Emulation.insideCsi inner innerSteps)) :=
  fun p h => hk.escLoop (fun _ escflags _ h hc => hk.insideCsi hinner h escflags hc) h p.escflg
    p.escflags p.rest

theorem part_osc (hk : StepsKeep C I W R) (before : UInt8) :
    PartKeeps C I W mw (Emulation.osc before, Emulation.oscSteps) := by
  rintro ⟨e, escflg, escflags, rest⟩ h
  simp only [Emulation.oscSteps]
  split_ifs with hosc
  · obtain rfl : escflg = .esc_XTerm := hosc.1
    exact Along.single (hk.met h (Or.inl rfl)) fun hc => hk.command h hc before
  · apply Along.nil
    cases rest with
    | nil => exact h
    | cons c cs =>
      have hst : escflg ≠ .esc_XTerm := fun hst => hosc ⟨hst, List.cons_ne_nil _ _⟩
      rw [osc_skip hst]
      exact h

theorem part_trailing (hk : StepsKeep C I W R) :
    PartKeeps C I W mw (Emulation.trailing, fun _ => []) := by
  rintro ⟨e, escflg, escflags, rest⟩ h
  apply Along.nil
  cases rest with
  | nil => exact h
  | cons c cs =>
    simp only [Emulation.trailing]
    split_ifs
    · exact hk.shortCut (hk.forget h) c cs
    · exact h

theorem part (hk : StepsKeep C I W R) (hinner : KeptBy C I W inner innerSteps)
    (before : UInt8) (tryit : Bool) :
    ∀ part ∈ Emulation.partsSteps inner innerSteps before mw tryit, PartKeeps C I W mw part := by
  intro part hpart
  simp only [Emulation.partsSteps, List.mem_cons, List.not_mem_nil, or_false] at hpart
  rcases hpart with rfl | rfl | rfl | rfl | rfl | rfl | rfl | rfl | rfl | rfl | rfl | rfl | rfl |
    rfl | rfl
  · exact hk.part_c1
  · exact hk.part_text tryit
  · exact hk.part_esc (by simp [escSteps])
  · exact hk.part_csi hinner
  all_goals first
    | exact hk.part_esc (by simp [escSteps])
    | exact hk.part_osc before
    | exact hk.part_trailing

theorem runParts {parts : List ((Pass τ → Flow τ) × (Pass τ → List (Moment τ)))}
    (hparts : ∀ part ∈ parts, PartKeeps C I W mw part) {p : Pass τ} (h : W mw p.e) :
    Along C (Met I W) (Emulation.runPartsSteps parts p)
      ((Emulation.runParts (parts.map Prod.fst) p).Leads (W mw) I) := by
  induction parts generalizing p with
  | nil => exact Along.nil h
  | cons part later ih =>
    rw [Emulation.runPartsSteps, List.map_cons, Emulation.runParts]
    apply (hparts part List.mem_cons_self p h).append
    intro hholds
    cases hflow : part.1 p with
    | fall q =>
      rw [hflow] at hholds
      exact ih (fun part' hpart' => hparts part' (List.mem_cons_of_mem _ hpart')) hholds
    | again q =>
      rw [hflow] at hholds
      exact Along.nil hholds
    | hang => exact Along.nil trivial

theorem ground (hk : StepsKeep C I W R) {p : Pass τ} (h : W mw p.e) :
    Along C (Met I W) (Emulation.groundSteps p) (W mw (Emulation.groundPart p).1.e) := by
  obtain ⟨e, escflg, escflags, rest⟩ := p
  simp only [Emulation.groundSteps, Emulation.groundPart]
  by_cases hprint : e.printer.prredirect
  · have hprinted := hk.aside h (VSpr e.printer rest).printer e.possibleForce e.escflg e.escflags
    simp only [hprint, if_true]
    split_ifs
    · exact hk.controls hprinted escflags (VSpr e.printer rest).rest
    · exact Along.nil hprinted
  · simp only [hprint, Bool.false_eq_true, if_false]
    split_ifs
    · exact hk.controls h escflags rest
    · exact Along.nil h

theorem mainLoop (hk : StepsKeep C I W R) (hinner : KeptBy C I W inner innerSteps)
    (before : UInt8) {p : Pass τ} (h : I p.e) :
    Along C (Met I W) (Emulation.mainLoopSteps inner innerSteps before p)
      ((Emulation.mainLoop inner before p).Holds I) := by
  apply (hk.ground (hk.width h)).append
  intro hground
  have hrun := runParts (hk.part hinner before (Emulation.groundPart p).2) hground
  rw [Emulation.partsSteps_parts] at hrun
  apply hrun.mono
  intro hleads
  exact hleads.holds hk.forget

theorem loop (hk : StepsKeep C I W R) (hinner : KeptBy C I W inner innerSteps) (before : UInt8)
    (fuel : ℕ) {p : Pass τ} (h : I p.e) :
    Along C (Met I W) (Emulation.loopSteps inner innerSteps before fuel p)
      (∀ q, Emulation.loop inner before fuel p = some q → I q.e) := by
  induction fuel generalizing p with
  | zero =>
    apply Along.nil
    intro q hq
    rw [Emulation.loop] at hq
    split_ifs at hq
    rw [← Option.some.inj hq]
    exact h
  | succ fuel ih =>
    rw [Emulation.loopSteps, Emulation.loop]
    split_ifs
    · apply Along.nil
      intro q hq
      rw [← Option.some.inj hq]
      exact h
    · apply (hk.mainLoop hinner before h).append
      intro hloop
      cases hflow : Emulation.mainLoop inner before p with
      | fall q =>
        rw [hflow] at hloop
        exact ih hloop
      | again q =>
        rw [hflow] at hloop
        exact ih hloop
      | hang =>
        apply Along.nil
        intro q hq
        cases hq

theorem emulate (hk : StepsKeep C I W R) (hinner : KeptBy C I W inner innerSteps)
    (before : UInt8) : KeptBy C I W (Emulation.emulate inner before)
      (Emulation.emulateSteps inner innerSteps before) := by
  intro e chunk h
  apply (hk.loop hinner before (2*chunk.length+1) (p := ⟨e, e.escflg, e.escflags, chunk⟩) h).mono
  intro hloop e' he'
  obtain ⟨q, hq, rfl⟩ := Option.map_eq_some_iff.mp he'
  exact hk.asideOut (hloop q hq) q.e.printer q.e.possibleForce q.escflg q.escflags

end Inner

/-- What every step keeps holds throughout the emulation of a chunk and behind it. -/
theorem VSem (hk : StepsKeep C I W R) (before : UInt8) :
    KeptBy C I W (Emulation.VSem before) (Emulation.VSemSteps before) := by
  apply hk.emulate
  apply hk.emulate
  intro e chunk h
  apply Along.nil
  intro e' he
  rw [← Option.some.inj he]
  exact h

end StepsKeep

/-- Chunks that arrive one after the other, each with the octet in memory before it. -/
def VSemRun : Emulation τ → List (UInt8 × List UInt8) → Option (Emulation τ)
  | e, [] => some e
  | e, (before, chunk) :: later => (Emulation.VSem before e chunk).bind fun e => VSemRun e later

/-- The steps of all of them. -/
def VSemRunSteps : Emulation τ → List (UInt8 × List UInt8) → List (Moment τ)
  | _, [] => []
  | e, (before, chunk) :: later =>
    Emulation.VSemSteps before e chunk ++
      match Emulation.VSem before e chunk with
      | none => []
      | some e => VSemRunSteps e later

theorem StepsKeep.run {C : Emulation τ → Step → Prop} {I : Emulation τ → Prop}
    {W : Int → Emulation τ → Prop} {R : Int → Emulation.Run → Emulation τ → Prop}
    (hk : StepsKeep C I W R) {e : Emulation τ}
    (h : I e) (chunks : List (UInt8 × List UInt8)) :
    Along C (Met I W) (VSemRunSteps e chunks) (∀ e', VSemRun e chunks = some e' → I e') := by
  induction chunks generalizing e with
  | nil =>
    apply Along.nil
    intro e' he
    rw [← Option.some.inj he]
    exact h
  | cons chunk later ih =>
    obtain ⟨before, chunk⟩ := chunk
    rw [VSemRunSteps]
    apply (hk.VSem before e chunk h).append
    intro hchunk
    cases hrun : Emulation.VSem before e chunk with
    | none =>
      apply Along.nil
      intro e' he
      rw [VSemRun, hrun] at he
      cases he
    | some e₁ =>
      rw [VSemRun, hrun]
      exact ih (hchunk e₁ hrun)

end VS
