import MacSSH.VSemPasses

/-! Control sequences with decimal parameters, from the ground state. -/
namespace VS

open Linked

variable {τ : Type}

/-- The octets of a chunk are characters and sequences for the screen. -/
structure Emulation.Ground (e : Emulation τ) : Prop where
  root : e.escflg = .esc_root
  screen : e.printer.prredirect = false

/-- The emulation of a new screen, in a window of no translation or in none. -/
def newEmulation (tw : Option (WindRec Unit)) (s : VSscrn) : Emulation Unit where
  toVSscrn := s
  tw := tw
  tr := ()
  vteightbits := true
  forcesave := false
  possibleForce := false
  ESscroll := true
  Px := 0
  Py := 0
  Pattrib := 0xffffffff
  lastchar := 0
  DECAWM := false
  DECCKM := false
  DECPAM := false
  DECORG := false
  G0 := false
  G1 := true
  charset := false
  IRM := false
  escflg := .esc_root
  escflags := 0
  parmptr := 0
  parms := fun _ => 0
  tabs := fun j => j % 8 = 0
  trinbuf := []
  trinx := 0
  trintag := false
  tempstr := []
  canPrint := true
  printer := newPrinter
  wname := []
  pal := fun _ => ⟨0, 0, 0⟩
  savedColors := fun _ => ⟨0, 0, 0⟩

/-- A window for one octet a character, with the colours of the host. -/
def plainWindow (Xterm : Bool) : WindRec Unit where
  Xterm := Xterm
  ANSIgraphics := true
  trbuf_nat_mac := fun tr pending => (tr, .done pending.length pending)
  trflush_nat_mac := fun tr => tr
  switchintranslation := fun tr _ => (tr, false)
  multibyte := fun _ => false

theorem newEmulation_ground (tw : Option (WindRec Unit)) (s : VSscrn) :
    (newEmulation tw s).Ground := ⟨rfl, rfl⟩

def IsDigit (c : UInt8) : Prop := c ≥ 0x30 ∧ c ≤ 0x39

instance (c : UInt8) : Decidable (IsDigit c) := inferInstanceAs (Decidable (_ ∧ _))

/-- Digits are found by a run through the list, not through all bytes. -/
theorem digits_of_all {ds : List UInt8} (h : (ds.all fun c => decide (IsDigit c)) = true) :
    ∀ c ∈ ds, IsDigit c := by
  intro c hc
  exact of_decide_eq_true (List.all_eq_true.mp h c hc)

theorem parms_of_all {ps : List (List UInt8)}
    (h : (ps.all fun ds => ds.all fun c => decide (IsDigit c)) = true) :
    ∀ ds ∈ ps, ∀ c ∈ ds, IsDigit c := by
  intro ds hds
  exact digits_of_all (List.all_eq_true.mp h ds hds)

/-- One more digit of a parameter, in 16 bits. -/
def addDigit (v : Int) (c : UInt8) : Int :=
  short (short ((if v < 0 then 0 else v)*10)+(c.toNat-0x30))

/-- What the digits `ds` come to in 16 bits; no digits are -1. -/
def numeral (ds : List UInt8) : Int := ds.foldl addDigit (-1)

/-- The number that the digits `ds` spell; no digits are zero. -/
def decimal (ds : List UInt8) : ℕ := ds.foldl (fun n c => 10*n+(c.toNat-0x30)) 0

/-- Parameters with separators between them. -/
def parmText : List (List UInt8) → List UInt8
  | [] => []
  | [ds] => ds
  | ds :: ds' :: later => ds ++ 0x3b :: parmText (ds' :: later)

/-- A control sequence with the function `final`. -/
def csiText (parms : List (List UInt8)) (final : UInt8) : List UInt8 :=
  0x1b :: 0x5b :: (parmText parms ++ [final])

/-- The parameters `vs` have been read. -/
def Emulation.withParms (e : Emulation τ) (vs : List Int) : Emulation τ :=
  { e with
    parms := fun i => if 0 ≤ i ∧ i < maxparms then vs.getD i.toNat (-1) else e.parms i
    parmptr := vs.length-1 }

section Numbers

theorem numeral_concat (ds : List UInt8) (c : UInt8) :
    numeral (ds ++ [c]) = addDigit (numeral ds) c := List.foldl_append ..

theorem decimal_concat (ds : List UInt8) (c : UInt8) :
    decimal (ds ++ [c]) = 10*decimal ds+(c.toNat-0x30) := List.foldl_append ..

theorem IsDigit.toNat {c : UInt8} (h : IsDigit c) : 0x30 ≤ c.toNat ∧ c.toNat ≤ 0x39 :=
  ⟨UInt8.le_iff_toNat_le.mp h.1, UInt8.le_iff_toNat_le.mp h.2⟩

/-- A number that fits in 16 bits without a sign is read as it is. -/
theorem numeral_eq_short {ds : List UInt8} (hds : ∀ c ∈ ds, IsDigit c) (hne : ds ≠ [])
    (h : decimal ds ≤ 32768) : numeral ds = short (decimal ds) := by
  induction ds using List.reverseRecOn with
  | nil => exact absurd rfl hne
  | append_singleton ds c ih =>
    have hc := (hds c (List.mem_append_right _ List.mem_cons_self)).toNat
    rw [decimal_concat] at h ⊢
    rw [numeral_concat, addDigit]
    have hold : (if numeral ds < 0 then 0 else numeral ds) = decimal ds := by
      rcases eq_or_ne ds [] with rfl | hds'
      · rfl
      · have hsmall := ih (fun c' hc' => hds c' (List.mem_append_left _ hc')) hds' (by omega)
        rw [short_eq (by omega) (by omega)] at hsmall
        rw [hsmall, if_neg (by omega)]
    have hten : short ((decimal ds : Int)*10) = (decimal ds : Int)*10 :=
      short_eq (by omega) (by omega)
    have hsum :
        (decimal ds : Int)*10+(c.toNat-0x30) = ((10*decimal ds+(c.toNat-0x30) : ℕ) : Int) := by
      omega
    rw [hold, hten, hsum]

theorem numeral_eq {ds : List UInt8} (hds : ∀ c ∈ ds, IsDigit c) (hne : ds ≠ [])
    (h : decimal ds ≤ 32767) : numeral ds = decimal ds := by
  rw [numeral_eq_short hds hne (by omega), short_eq (by omega) (by omega)]

theorem numeral_range (ds : List UInt8) : -32768 ≤ numeral ds ∧ numeral ds ≤ 32767 := by
  induction ds using List.reverseRecOn with
  | nil => decide
  | append_singleton ds c ih =>
    rw [numeral_concat]
    exact short_range _

end Numbers

section Reading
variable (e : Emulation τ)

theorem VSIapclear_parms : e.VSIapclear = e.withParms [-1] := by
  have hparms (i : Int) : ([-1] : List Int).getD i.toNat (-1) = -1 := by
    cases i.toNat with
    | zero => rfl
    | succ n => rfl
  simp only [Emulation.VSIapclear, Emulation.withParms, hparms]
  rfl

theorem withParms_parms {vs : List Int} {i : ℕ} (hi : i < 16) :
    (e.withParms vs).parms i = vs.getD i (-1) := by
  simp only [Emulation.withParms]
  rw [if_pos ⟨by omega, by simp only [Emulation.maxparms]; omega⟩, Int.toNat_natCast]

theorem withParms_numeral (parms : List (List UInt8)) {i : ℕ} (hi : i < 16) :
    (e.withParms (parms.map numeral)).parms i = numeral (parms.getD i []) := by
  rw [withParms_parms e hi, List.getD_eq_getElem?_getD, List.getD_eq_getElem?_getD,
    List.getElem?_map]
  cases parms[i]? <;> rfl

theorem withParms_last (vs : List Int) (v : Int) :
    (e.withParms (vs ++ [v])).parmptr = (vs.length : ℕ) := by
  simp [Emulation.withParms]

/-- The last parameter changes. -/
theorem withParms_parm {vs : List Int} (v w : Int) (hvs : vs.length < 16) :
    (e.withParms (vs ++ [v])).parm (vs.length : ℕ) w = e.withParms (vs ++ [w]) := by
  have hfun : Function.update (e.withParms (vs ++ [v])).parms (vs.length : ℕ) w =
      (e.withParms (vs ++ [w])).parms := by
    funext i
    rcases eq_or_ne i (vs.length : ℕ) with rfl | hi
    · rw [Function.update_self, withParms_parms e hvs]
      simp
    · rw [Function.update_of_ne hi]
      simp only [Emulation.withParms]
      split_ifs with hr
      · have hne : i.toNat ≠ vs.length := by omega
        rcases Nat.lt_or_ge i.toNat vs.length with hlt | hge
        · simp [List.getD_eq_getElem?_getD, List.getElem?_append_left hlt]
        · have hpast (u : Int) : [u][i.toNat-vs.length]? = none := by
            apply List.getElem?_eq_none
            simp only [List.length_singleton]
            omega
          simp [List.getD_eq_getElem?_getD, List.getElem?_append_right hge, hpast]
      · rfl
  rw [Emulation.parm, hfun]
  simp [Emulation.withParms]

theorem withParms_digit {vs : List Int} (v : Int) (c : UInt8) (hvs : vs.length < 16) :
    (e.withParms (vs ++ [v])).digit (c.toNat-0x30) = e.withParms (vs ++ [addDigit v c]) := by
  have hold : (e.withParms (vs ++ [v])).parms (vs.length : ℕ) = v := by
    rw [withParms_parms e hvs]
    simp
  rw [Emulation.digit, withParms_last, hold]
  exact withParms_parm e v (addDigit v c) hvs

theorem withParms_separator {vs : List Int} (hvs : vs.length < 16) :
    ({ e.withParms vs with parmptr := short ((e.withParms vs).parmptr+1) } : Emulation τ) =
      e.withParms (vs ++ [-1]) := by
  have hptr : short ((e.withParms vs).parmptr+1) = (vs ++ [-1]).length-1 := by
    simp only [Emulation.withParms, List.length_append, List.length_singleton]
    rw [short_eq (by omega) (by omega)]
    omega
  have hparms : (e.withParms vs).parms = (e.withParms (vs ++ [-1])).parms := by
    funext i
    simp only [Emulation.withParms]
    split_ifs with hr
    · rcases Nat.lt_or_ge i.toNat vs.length with hlt | hge
      · simp [List.getD_eq_getElem?_getD, List.getElem?_append_left hlt]
      · rw [List.getD_eq_getElem?_getD, List.getD_eq_getElem?_getD, List.getElem?_append_right hge,
          List.getElem?_eq_none hge]
        cases i.toNat-vs.length with
        | zero => rfl
        | succ n => rfl
    · rfl
  exact congrArg₂ (fun p q => ({ e with parms := p, parmptr := q } : Emulation τ)) hparms hptr

variable (inner : Emulation τ → List UInt8 → Option (Emulation τ)) (mw : Int)

theorem CsiChar_digit {c : UInt8} (hc : IsDigit c) : CsiChar.of c = .digit (c.toNat-0x30) := by
  have h8 : c ≠ 0x08 := by
    rintro rfl
    exact absurd hc (by decide)
  rw [CsiChar.of, if_neg h8]
  exact if_pos hc

/-- The digits of one parameter. -/
theorem read_digits {vs : List Int} (hvs : vs.length < 16) (v : Int) {ds : List UInt8}
    (hds : ∀ c ∈ ds, IsDigit c) (flags : ℕ) (rest : List UInt8) :
    escLoop .esc_csi (Emulation.csi inner mw) (e.withParms (vs ++ [v])) .esc_csi flags
        (ds ++ rest) =
      escLoop .esc_csi (Emulation.csi inner mw) (e.withParms (vs ++ [ds.foldl addDigit v]))
        .esc_csi flags rest := by
  induction ds generalizing v with
  | nil => rfl
  | cons c ds ih =>
    have hc := hds c List.mem_cons_self
    have hstep : (e.withParms (vs ++ [v])).csi inner mw flags c =
        .next (e.withParms (vs ++ [addDigit v c])) .esc_csi flags := by
      rw [Emulation.csi, CsiChar_digit hc]
      exact congrArg (Esc.next · .esc_csi flags) (withParms_digit e v c hvs)
    rw [List.cons_append, escLoop, if_pos rfl, hstep]
    exact ih (addDigit v c) fun c' hc' => hds c' (List.mem_cons_of_mem _ hc')

/-- The parameters of a control sequence. -/
theorem read_parms {vs : List Int} {parms : List (List UInt8)} (hparms : parms ≠ [])
    (hlen : vs.length+parms.length ≤ 16) (hds : ∀ ds ∈ parms, ∀ c ∈ ds, IsDigit c) (flags : ℕ)
    (rest : List UInt8) :
    escLoop .esc_csi (Emulation.csi inner mw) (e.withParms (vs ++ [-1])) .esc_csi flags
        (parmText parms ++ rest) =
      escLoop .esc_csi (Emulation.csi inner mw) (e.withParms (vs ++ parms.map numeral))
        .esc_csi flags rest := by
  induction parms generalizing vs with
  | nil => exact absurd rfl hparms
  | cons ds later ih =>
    have hds' := hds ds List.mem_cons_self
    cases later with
    | nil =>
      simp only [List.length_singleton] at hlen
      exact read_digits e inner mw (by omega) (-1) hds' flags rest
    | cons ds' later =>
      simp only [List.length_cons] at hlen
      have hnext := @ih (vs ++ [numeral ds]) (List.cons_ne_nil _ _)
        (by simp only [List.length_append, List.length_cons, List.length_nil]; omega)
        fun p hp => hds p (List.mem_cons_of_mem _ hp)
      have hvs : (vs ++ [numeral ds]).length < 16 := by
        simp only [List.length_append, List.length_cons, List.length_nil]
        omega
      rw [parmText, List.append_assoc, List.cons_append,
        read_digits e inner mw (by omega) (-1) hds', escLoop, if_pos rfl]
      have hstep : (e.withParms (vs ++ [ds.foldl addDigit (-1)])).csi inner mw flags 0x3b =
          .next (e.withParms (vs ++ [numeral ds] ++ [-1])) .esc_csi flags :=
        congrArg (Esc.next · .esc_csi flags) (withParms_separator e hvs)
      rw [hstep]
      simp only
      rw [hnext, List.append_assoc]
      rfl

end Reading

section Sequences
variable {e e' : Emulation τ} (inner : Emulation τ → List UInt8 → Option (Emulation τ))
  (before : UInt8)

/-- An octet that is no control character, in the ground state. -/
theorem mainLoop_c1 (h : e.printer.prredirect = false) (flags : ℕ) {c : UInt8} (hc : 32 ≤ c)
    (rest : List UInt8) :
    Emulation.mainLoop inner before ⟨e, .esc_root, flags, c :: rest⟩ =
      (Emulation.c1 ⟨e, .esc_root, flags, c :: rest⟩).andThen
        (Emulation.runParts ((Emulation.parts inner before e.lastColumn false).drop 1)) := by
  have hground : Emulation.groundPart ⟨e, .esc_root, flags, c :: rest⟩ =
      (⟨e, .esc_root, flags, c :: rest⟩, false) := by
    have hctl : e.controls flags (c :: rest) = (⟨e, .esc_root, flags, c :: rest⟩, false) := by
      rw [Emulation.controls, if_neg (UInt8.not_lt.mpr hc)]
    simp only [Emulation.groundPart, h]
    exact hctl
  rw [Emulation.mainLoop, hground]
  rfl

/-- An escape in the ground state. -/
theorem mainLoop_esc (h : e.printer.prredirect = false) (flags : ℕ) (rest : List UInt8) :
    Emulation.mainLoop inner before ⟨e, .esc_root, flags, 0x1b :: rest⟩ =
      (escPart .esc_basic Emulation.basic ⟨e, .esc_basic, flags, rest⟩).andThen
        (Emulation.runParts ((Emulation.parts inner before e.lastColumn false).drop 3)) := by
  have hground : Emulation.groundPart ⟨e, .esc_root, flags, 0x1b :: rest⟩ =
      (⟨e, .esc_basic, flags, rest⟩, false) := by
    simp only [Emulation.groundPart, h]
    rfl
  rw [Emulation.mainLoop, hground]
  simp only [Emulation.parts, List.drop_succ_cons, List.drop_zero]
  rw [Emulation.runParts, c1_skip (by simp), Flow.andThen, Emulation.runParts,
    text_skip (by simp), Flow.andThen, Emulation.runParts]

/-- An octet of ASCII text. -/
def IsPlain (c : UInt8) : Prop := 32 ≤ c ∧ c < 0x80

/-- The parts of the main loop behind the text have nothing to do in the ground state. -/
theorem rootParts_idle (p : Pass τ) (h : p.escflg = .esc_root) (mw : Int) :
    Emulation.runParts ((Emulation.parts inner before mw false).drop 2) p = .fall p := by
  have hidle : ∀ part ∈ (Emulation.parts inner before mw false).drop 2, part p = .fall p := by
    intro part hpart
    simp only [Emulation.parts, List.drop_succ_cons, List.drop_zero, List.mem_cons,
      List.not_mem_nil, or_false] at hpart
    rcases hpart with rfl | rfl | rfl | rfl | rfl | rfl | rfl | rfl | rfl | rfl | rfl | rfl | rfl
    all_goals first
      | exact escPart_skip (by rw [h]; decide)
      | exact osc_skip (by rw [h]; decide)
      | skip
    obtain ⟨e, escflg, flags, rest⟩ := p
    simp only at h
    subst h
    cases rest <;> rfl
  have hskip := @runParts_skip τ _ [] p hidle
  rw [List.append_nil] at hskip
  exact hskip

/-- Text in the ground state. -/
theorem mainLoop_text (h : e.printer.prredirect = false) (flags : ℕ) {c : UInt8} (hc : IsPlain c)
    (rest : List UInt8) :
    Emulation.mainLoop inner before ⟨e, .esc_root, flags, c :: rest⟩ =
      (Emulation.text e.lastColumn false ⟨e, .esc_root, flags, c :: rest⟩).andThen
        (Emulation.runParts ((Emulation.parts inner before e.lastColumn false).drop 2)) := by
  have hc1 : Emulation.c1 ⟨e, .esc_root, flags, c :: rest⟩ =
      .fall ⟨e, .esc_root, flags, c :: rest⟩ := by
    have hnot : e.isC1 c = false := by
      have hlow : ¬c ≥ 0x80 := UInt8.not_le.mpr hc.2
      simp [Emulation.isC1, hlow]
    simp [Emulation.c1, hnot]
  have hparts : (Emulation.parts inner before e.lastColumn false).drop 1 =
      Emulation.text e.lastColumn false ::
        (Emulation.parts inner before e.lastColumn false).drop 2 := rfl
  rw [mainLoop_c1 inner before h flags hc.1, hc1, Flow.andThen, hparts, Emulation.runParts]

theorem drain_text {n : ℕ} (h : e.printer.prredirect = false) (flags : ℕ) {rest : List UInt8}
    (hlen : rest.length ≤ n) (hplain : ∀ c ∈ rest, IsPlain c) {q : Pass τ}
    (hq : drain inner before ⟨e, .esc_root, flags, rest⟩ = some q) :
    TextOnly e q.e ∧ q.escflg = .esc_root := by
  induction n generalizing e rest with
  | zero =>
    have hnil : rest = [] := List.length_eq_zero_iff.mp (Nat.le_zero.mp hlen)
    rw [drain_nil inner before hnil] at hq
    rw [← Option.some.inj hq]
    exact ⟨TextOnly.refl e, rfl⟩
  | succ n ih =>
    cases rest with
    | nil =>
      rw [drain_nil inner before rfl] at hq
      rw [← Option.some.inj hq]
      exact ⟨TextOnly.refl e, rfl⟩
    | cons c cs =>
      have hloop := mainLoop_text inner before h flags (hplain c List.mem_cons_self) cs
      have hadv := mainLoop_advances inner before (p := ⟨e, .esc_root, flags, c :: cs⟩)
        (List.cons_ne_nil c cs)
      rw [drain_step inner before (List.cons_ne_nil _ _)] at hq
      rw [hloop] at hq hadv
      rw [Emulation.text, if_pos rfl] at hq hadv
      simp only at hq hadv
      cases htext : Emulation.textLoop e.lastColumn false (2*(c :: cs).length+2) e (c :: cs) with
      | none =>
        rw [htext] at hq
        cases hq
      | some r =>
        obtain ⟨e₁, rest₁⟩ := r
        obtain ⟨htextonly, hsuffix, -⟩ := textLoop_text htext
        rw [htext] at hq hadv
        simp only [Flow.andThen] at hq hadv
        rw [rootParts_idle inner before ⟨e₁, .esc_root, flags, rest₁⟩ rfl] at hq hadv
        have hlt := advances_fuel hadv (Or.inl rfl)
        simp only [Pass.fuel, if_pos] at hlt
        have hscreen : e₁.printer.prredirect = false := by
          obtain ⟨_, _, _, _, _, _, _, _, _, rfl⟩ := htextonly
          exact h
        simp only [List.length_cons] at hlen hlt
        obtain ⟨h₁, h₂⟩ := ih hscreen (by omega)
          (fun c' hc' => hplain c' (hsuffix.subset hc')) hq
        exact ⟨htextonly.trans h₁, h₂⟩

/-- A control sequence goes on behind its introducer. -/
theorem mainLoop_csi (h : e.Ground) (flags : ℕ) (cs : List UInt8) :
    Emulation.mainLoop inner before ⟨e, .esc_root, flags, 0x1b :: 0x5b :: cs⟩ =
      Emulation.runParts ((Emulation.parts inner before e.lastColumn false).drop 3)
        ⟨e.VSIapclear, .esc_csi, 0, cs⟩ := by
  have hbasic : escPart .esc_basic Emulation.basic ⟨e, .esc_basic, flags, 0x5b :: cs⟩ =
      .fall ⟨e.VSIapclear, .esc_csi, 0, cs⟩ := by
    cases cs <;> rfl
  rw [mainLoop_esc inner before h.screen, hbasic]
  rfl

/-- What is left of a control sequence behind its parameters. -/
theorem csiText_parts (h : e.Ground) {parms : List (List UInt8)} (hne : parms ≠ [])
    (hlen : parms.length ≤ 16) (hds : ∀ ds ∈ parms, ∀ c ∈ ds, IsDigit c) (flags : ℕ)
    (final : UInt8) :
    Emulation.mainLoop inner before ⟨e, .esc_root, flags, csiText parms final⟩ =
      (escLoop .esc_csi (Emulation.csi inner e.lastColumn) (e.withParms (parms.map numeral))
        .esc_csi 0 [final]).andThen
        (Emulation.runParts ((Emulation.parts inner before e.lastColumn false).drop 4)) := by
  have hread := @read_parms τ e inner e.lastColumn [] parms hne (by simpa using hlen) hds 0 [final]
  rw [csiText, mainLoop_csi inner before h]
  simp only [Emulation.parts, List.drop_succ_cons, List.drop_zero, Emulation.runParts]
  rw [escPart]
  simp only
  rw [VSIapclear_parms, show [(-1 : Int)] = [] ++ [-1] from rfl, hread, List.nil_append]

/-- The state behind a sequence that ends with `c`. -/
def Emulation.ended (e : Emulation τ) (c : UInt8) : Emulation τ := (e.shortCut c []).final

theorem ended_form (e : Emulation τ) (c : UInt8) : ∃ force, e.ended c =
    { e with possibleForce := force, escflg := .esc_root, escflags := 0 } := by
  simp only [Emulation.ended, Emulation.shortCut, Pass.final]
  split_ifs <;> exact ⟨_, rfl⟩

/-- A control sequence in a chunk of its own. -/
theorem VSem_csiText (h : e.Ground) {parms : List (List UInt8)} (hne : parms ≠ [])
    (hlen : parms.length ≤ 16) (hds : ∀ ds ∈ parms, ∀ c ∈ ds, IsDigit c) {final : UInt8}
    (hfinal : (e.withParms (parms.map numeral)).csi repeated e.lastColumn 0 final =
      .shortCut e') :
    Emulation.VSem before e (csiText parms final) = some (e'.ended final) := by
  have hloop : escLoop .esc_csi (Emulation.csi repeated e.lastColumn)
      (e.withParms (parms.map numeral)) .esc_csi 0 [final] = .again (e'.shortCut final []) := by
    rw [escLoop, if_pos rfl, hfinal]
  rw [VSem_eq, h.root, drain_step repeated before (List.cons_ne_nil _ _),
    csiText_parts repeated before h hne hlen hds, hloop]
  exact congrArg (Option.map Pass.final) (drain_nil repeated before rfl)

end Sequences

end VS
