import MacSSH.EightBitControls
import MacSSH.EmulationSteps

/-! The command that sets an entry of a window's palette. -/
namespace VS

open Linked

variable {τ : Type}

/-- The command for the digits `n r r g g b b`. -/
def paletteText (digits : Fin 7 → UInt8) : List UInt8 :=
  0x1b :: 0x5d :: 0x50 :: List.ofFn digits

/-- The colour that the digits spell. -/
def paletteColor (digits : Fin 7 → UInt8) : RGBColor :=
  let v (i : Fin 7) := Emulation.hexValue (digits i)
  ⟨16*v 1+v 2, 16*v 3+v 4, 16*v 5+v 6⟩

/-- The command has set its entry of the palette and nothing else. -/
structure SetsEntry (e : Emulation τ) (digits : Fin 7 → UInt8) (e' : Emulation τ) : Prop where
  pal : e'.pal =
    Function.update e.pal (Emulation.hexValue (digits 0)+Emulation.WINDCOLORSIZE)
      (paletteColor digits)
  cells : e'.buf = e.buf
  cursor : e'.x = e.x ∧ e'.y = e.y
  ground : e'.escflg = .esc_root

/-- The parameters that earlier sequences have left. -/
def withHistory (e : Emulation τ) (parmptr : Int) (parms : Int → Int) : Emulation τ :=
  { e with parmptr := parmptr, parms := parms }

/-- What the first digit does. -/
def firstDigit (e : Emulation τ) (d : UInt8) : Emulation τ :=
  let e := { e.parm e.parmptr (Emulation.hexValue d) with parmptr := short (e.parmptr+1) }
  if e.parmptr = 7 then
    e.RSsetcolors (e.parms 0+4)
      ⟨16*e.parms 1+e.parms 2, 16*e.parms 3+e.parms 4, 16*e.parms 5+e.parms 6⟩
  else e

section Peel
variable {e : Emulation τ} (before : UInt8)

/-- The parts of the main loop that handle a command to an XTerm. -/
def oscParts (before : UInt8) : List (Pass τ → Flow τ) :=
  [Emulation.osc before, escPart .esc_url Emulation.url, Emulation.trailing]

/-- In an escape sequence, the main loop starts with the part for its state. -/
theorem mainLoop_escape (h : e.printer.prredirect = false) {st : EscState}
    (hst : st ≠ .esc_root) (flags : ℕ) (rest : List UInt8) :
    Emulation.mainLoop repeated before ⟨e, st, flags, rest⟩ =
      Emulation.runParts ((Emulation.parts repeated before e.lastColumn false).drop 2)
        ⟨e, st, flags, rest⟩ := by
  have hground : Emulation.groundPart ⟨e, st, flags, rest⟩ = (⟨e, st, flags, rest⟩, false) := by
    simp only [Emulation.groundPart, h]
    exact if_neg hst
  have hidle : ∀ part ∈ [Emulation.c1, Emulation.text e.lastColumn false],
      part ⟨e, st, flags, rest⟩ = .fall ⟨e, st, flags, rest⟩ := by
    simp [c1_skip, text_skip, hst]
  rw [Emulation.mainLoop, hground]
  exact runParts_skip _ hidle

/-- From an XTerm command, only its own parts are left. -/
theorem runParts_osc (n : ℕ) (hn : n ≤ 12) (mw : Int) (flags : ℕ) (rest : List UInt8) :
    Emulation.runParts ((Emulation.parts repeated before mw false).drop n)
        ⟨e, .esc_XTerm, flags, rest⟩ =
      Emulation.runParts (oscParts before) ⟨e, .esc_XTerm, flags, rest⟩ := by
  have hsplit : (Emulation.parts repeated before mw false).drop n =
      ((Emulation.parts repeated before mw false).take 12).drop n ++ oscParts (τ := τ) before := by
    rw [show (Emulation.parts (τ := τ) repeated before mw false) =
      (Emulation.parts repeated before mw false).take 12 ++ oscParts before from rfl,
      List.drop_append_of_le_length (by simpa [Emulation.parts] using hn)]
    rfl
  rw [hsplit]
  apply runParts_skip
  intro part hpart
  have hmem := List.mem_of_mem_drop hpart
  simp only [Emulation.parts, List.take_succ_cons, List.take_zero, List.mem_cons,
    List.not_mem_nil, or_false] at hmem
  rcases hmem with rfl | rfl | rfl | rfl | rfl | rfl | rfl | rfl | rfl | rfl | rfl | rfl
  · exact c1_skip (by simp)
  · exact text_skip (by simp)
  all_goals exact escPart_skip (by simp)

/-- The escape of a sequence. -/
theorem drain_escape (h : e.printer.prredirect = false) (flags : ℕ) (rest : List UInt8) :
    drain repeated before ⟨e, .esc_root, flags, 0x1b :: rest⟩ =
      drain repeated before ⟨e, .esc_basic, flags, rest⟩ := by
  rw [drain_step repeated before (List.cons_ne_nil _ _), mainLoop_esc repeated before h]
  cases rest with
  | nil => exact drain_nil repeated before rfl
  | cons c cs =>
    rw [drain_step repeated before (List.cons_ne_nil _ _),
      mainLoop_escape before h (by decide)]
    rfl

/-- The octet that makes it a command to an XTerm. -/
theorem drain_bracket (h : e.printer.prredirect = false) (hx : e.xterm = true) (flags : ℕ)
    (rest : List UInt8) :
    drain repeated before ⟨e, .esc_basic, flags, 0x5d :: rest⟩ =
      drain repeated before ⟨e, .esc_XTerm, 0, rest⟩ := by
  have hpass : escPart .esc_basic Emulation.basic ⟨e, .esc_basic, flags, 0x5d :: rest⟩ =
      .fall ⟨e, .esc_XTerm, 0, rest⟩ := by
    have hof : BasicChar.of 0x5d = .osc := rfl
    have hbasic : e.basic flags 0x5d = .next e .esc_XTerm 0 := by
      rw [Emulation.basic, hof]
      simp [hx]
    change escLoop .esc_basic Emulation.basic e .esc_basic flags (0x5d :: rest) = _
    rw [escLoop, if_pos rfl, hbasic]
    cases rest <;> rfl
  have hloop : Emulation.mainLoop repeated before ⟨e, .esc_basic, flags, 0x5d :: rest⟩ =
      Emulation.runParts (oscParts before) ⟨e, .esc_XTerm, 0, rest⟩ := by
    rw [mainLoop_escape before h (by decide), ← runParts_osc before 3 (by decide) e.lastColumn]
    simp only [Emulation.parts, List.drop_succ_cons, List.drop_zero]
    rw [Emulation.runParts, hpass]
    rfl
  rw [drain_step repeated before (List.cons_ne_nil _ _), hloop]
  cases rest with
  | nil => exact drain_nil repeated before rfl
  | cons c cs =>
    rw [drain_step repeated before (List.cons_ne_nil _ _), mainLoop_escape before h (by decide),
      runParts_osc before 2 (by decide)]

/-- The octet that makes it a command for the palette. -/
theorem drain_P (h : e.printer.prredirect = false) (rest : List UInt8) :
    drain repeated before ⟨e, .esc_XTerm, 0, 0x50 :: rest⟩ =
      drain repeated before ⟨e, .esc_XTerm, 3, rest⟩ := by
  rw [drain_step repeated before (List.cons_ne_nil _ _), mainLoop_escape before h (by decide),
    runParts_osc before 2 (by decide)]
  cases rest with
  | nil => exact drain_nil repeated before rfl
  | cons c cs =>
    rw [drain_step repeated before (List.cons_ne_nil _ _), mainLoop_escape before h (by decide),
      runParts_osc before 2 (by decide)]
    rfl

/-- The first digit ends the command. -/
theorem drain_digit (h : e.printer.prredirect = false) {d : UInt8} (hd : Emulation.isHex d = true)
    (rest : List UInt8) :
    drain repeated before ⟨e, .esc_XTerm, 3, d :: rest⟩ =
      drain repeated before ((firstDigit e d).shortCut d rest) := by
  have hflow : Emulation.runParts (oscParts before) ⟨e, .esc_XTerm, 3, d :: rest⟩ =
      .again ((firstDigit e d).shortCut d rest) := by
    have hosc : Emulation.osc before ⟨e, .esc_XTerm, 3, d :: rest⟩ =
        Emulation.paletteDigit ⟨e, .esc_XTerm, 3, d :: rest⟩ := rfl
    rw [oscParts, Emulation.runParts, hosc]
    simp only [Emulation.paletteDigit, hd, if_true, firstDigit]
    split_ifs with h7
    · rfl
    · rfl
  rw [drain_step repeated before (List.cons_ne_nil _ _), mainLoop_escape before h (by decide),
    runParts_osc before 2 (by decide), hflow]
  rfl

end Peel

section Run
variable {e₀ e e' : Emulation τ} {d : UInt8} {digits : List UInt8}

/-- What a command reads of the state before it has not changed. -/
structure SameHistory (e₀ e : Emulation τ) : Prop where
  pal : e.pal = e₀.pal
  parms : e.parms = e₀.parms
  parmptr : e.parmptr = e₀.parmptr
  tw : e.tw = e₀.tw
  printer : e.printer = e₀.printer

/-- The command of the digits `d` and `digits` has been read up to `todo`. -/
inductive Midway (e₀ : Emulation τ) (d : UInt8) (digits : List UInt8) :
    Pass τ → List UInt8 → Prop
  | start {e : Emulation τ} {flags : ℕ} {rest later : List UInt8} (h : SameHistory e₀ e)
    (htodo : rest ++ later = 0x1b :: 0x5d :: 0x50 :: d :: digits) :
    Midway e₀ d digits ⟨e, .esc_root, flags, rest⟩ later
  | escape {e : Emulation τ} {flags : ℕ} {rest later : List UInt8} (h : SameHistory e₀ e)
    (htodo : rest ++ later = 0x5d :: 0x50 :: d :: digits) :
    Midway e₀ d digits ⟨e, .esc_basic, flags, rest⟩ later
  | bracket {e : Emulation τ} {rest later : List UInt8} (h : SameHistory e₀ e)
    (htodo : rest ++ later = 0x50 :: d :: digits) :
    Midway e₀ d digits ⟨e, .esc_XTerm, 0, rest⟩ later
  | palette {e : Emulation τ} {rest later : List UInt8} (h : SameHistory e₀ e)
    (htodo : rest ++ later = d :: digits) :
    Midway e₀ d digits ⟨e, .esc_XTerm, 3, rest⟩ later
  | text {e : Emulation τ} {flags : ℕ} {rest later : List UInt8}
    (hpal : e.pal = (firstDigit e₀ d).pal) (hscreen : e.printer.prredirect = false)
    (htodo : rest ++ later <:+ digits) :
    Midway e₀ d digits ⟨e, .esc_root, flags, rest⟩ later

theorem RSsetcolors_pal (e : Emulation τ) (n : Int) (color : RGBColor) :
    (e.RSsetcolors n color).pal =
      if n < 0 ∨ n ≥ Emulation.WINDCOLORSIZE+Emulation.ANSICOLORSIZE then e.pal
      else Function.update e.pal n color := by
  rw [Emulation.RSsetcolors]
  split_ifs <;> rfl

/-- The palette behind the first digit, by what there was before it. -/
def palBehind (pal : Int → RGBColor) (parms : Int → Int) : Int → RGBColor :=
  if parms 0+4 < 0 ∨ parms 0+4 ≥ Emulation.WINDCOLORSIZE+Emulation.ANSICOLORSIZE then pal
  else Function.update pal (parms 0+4)
    ⟨16*parms 1+parms 2, 16*parms 3+parms 4, 16*parms 5+parms 6⟩

theorem firstDigit_pal (e : Emulation τ) (d : UInt8) :
    (firstDigit e d).pal =
      if short (e.parmptr+1) = 7 then
        palBehind e.pal (Function.update e.parms e.parmptr (Emulation.hexValue d))
      else e.pal := by
  simp only [firstDigit]
  split_ifs
  · exact RSsetcolors_pal ..
  · rfl

theorem firstDigit_same (h : SameHistory e₀ e) (d : UInt8) :
    (firstDigit e d).pal = (firstDigit e₀ d).pal ∧ (firstDigit e d).printer = e.printer := by
  refine ⟨?_, ?_⟩
  · rw [firstDigit_pal, firstDigit_pal, h.pal, h.parms, h.parmptr]
  · simp only [firstDigit]
    split_ifs
    · rw [Emulation.RSsetcolors]
      split_ifs <;> rfl
    · rfl

variable (before : UInt8)

/-- The command goes on with the chunks that make up `later`. -/
def GoesOn (e₀ : Emulation τ) (d : UInt8) (digits : List UInt8) (e : Emulation τ)
    (later : List UInt8) : Prop :=
  ∀ chunk later', chunk ++ later' = later →
    Midway e₀ d digits ⟨e, e.escflg, e.escflags, chunk⟩ later'

theorem SameHistory.final {p : Pass τ} (h : SameHistory e₀ p.e) : SameHistory e₀ p.final :=
  ⟨h.pal, h.parms, h.parmptr, h.tw, h.printer⟩

/-- The digits behind the first one are text. -/
theorem text_goesOn (hplain : ∀ c ∈ digits, IsPlain c) {flags : ℕ} {rest later : List UInt8}
    (hpal : e.pal = (firstDigit e₀ d).pal) (hscreen : e.printer.prredirect = false)
    (htodo : rest ++ later <:+ digits) {q : Pass τ}
    (hq : drain repeated before ⟨e, .esc_root, flags, rest⟩ = some q) :
    GoesOn e₀ d digits q.final later := by
  have hrest : ∀ c ∈ rest, IsPlain c :=
    fun c hc => hplain c (htodo.subset (List.mem_append_left _ hc))
  obtain ⟨htext, hst⟩ := drain_text repeated before hscreen flags le_rfl hrest hq
  obtain ⟨_, _, _, _, _, _, _, _, _, hform⟩ := htext
  intro chunk later' hsplit
  have hpal' : q.final.pal = (firstDigit e₀ d).pal := by
    rw [Pass.final, hform]
    exact hpal
  have hscreen' : q.final.printer.prredirect = false := by
    rw [Pass.final, hform]
    exact hscreen
  have hroot : q.final.escflg = .esc_root := hst
  rw [hroot]
  apply Midway.text hpal' hscreen'
  rw [hsplit]
  exact (List.suffix_append rest later).trans htodo

variable (hscreen₀ : e₀.printer.prredirect = false)

theorem SameHistory.screen (h : SameHistory e₀ e) (hscreen₀ : e₀.printer.prredirect = false) :
    e.printer.prredirect = false := by
  rw [h.printer]
  exact hscreen₀

include hscreen₀ in
theorem palette_goesOn (hd : Emulation.isHex d = true) (hplain : ∀ c ∈ digits, IsPlain c)
    {rest later : List UInt8} (h : SameHistory e₀ e) (htodo : rest ++ later = d :: digits)
    {q : Pass τ} (hq : drain repeated before ⟨e, .esc_XTerm, 3, rest⟩ = some q) :
    GoesOn e₀ d digits q.final later := by
  cases rest with
  | nil =>
    rw [drain_nil repeated before rfl] at hq
    rw [← Option.some.inj hq]
    intro chunk later' hsplit
    exact .palette h.final (hsplit.trans htodo)
  | cons c cs =>
    obtain ⟨rfl, hrest⟩ := List.cons.inj htodo
    rw [drain_digit before (h.screen hscreen₀) hd] at hq
    obtain ⟨hpal, hprinter⟩ := firstDigit_same h c
    have hshort : ((firstDigit e c).shortCut c cs).e.pal = (firstDigit e c).pal ∧
        ((firstDigit e c).shortCut c cs).e.printer = (firstDigit e c).printer := by
      simp only [Emulation.shortCut]
      split_ifs <;> exact ⟨rfl, rfl⟩
    apply text_goesOn before hplain (hshort.1.trans hpal) _ _ hq
    · rw [hshort.2, hprinter]
      exact h.screen hscreen₀
    · exact hrest ▸ List.suffix_refl _

include hscreen₀ in
theorem bracket_goesOn (hd : Emulation.isHex d = true) (hplain : ∀ c ∈ digits, IsPlain c)
    {rest later : List UInt8} (h : SameHistory e₀ e) (htodo : rest ++ later = 0x50 :: d :: digits)
    {q : Pass τ} (hq : drain repeated before ⟨e, .esc_XTerm, 0, rest⟩ = some q) :
    GoesOn e₀ d digits q.final later := by
  cases rest with
  | nil =>
    rw [drain_nil repeated before rfl] at hq
    rw [← Option.some.inj hq]
    intro chunk later' hsplit
    exact .bracket h.final (hsplit.trans htodo)
  | cons c cs =>
    obtain ⟨rfl, hrest⟩ := List.cons.inj htodo
    rw [drain_P before (h.screen hscreen₀)] at hq
    exact palette_goesOn before hscreen₀ hd hplain h hrest hq

include hscreen₀ in
theorem escape_goesOn (hx : e₀.xterm = true) (hd : Emulation.isHex d = true)
    (hplain : ∀ c ∈ digits, IsPlain c) {flags : ℕ} {rest later : List UInt8}
    (h : SameHistory e₀ e) (htodo : rest ++ later = 0x5d :: 0x50 :: d :: digits)
    {q : Pass τ} (hq : drain repeated before ⟨e, .esc_basic, flags, rest⟩ = some q) :
    GoesOn e₀ d digits q.final later := by
  cases rest with
  | nil =>
    rw [drain_nil repeated before rfl] at hq
    rw [← Option.some.inj hq]
    intro chunk later' hsplit
    exact .escape h.final (hsplit.trans htodo)
  | cons c cs =>
    obtain ⟨rfl, hrest⟩ := List.cons.inj htodo
    have hxterm : e.xterm = true := by
      rw [Emulation.xterm, h.tw]
      exact hx
    rw [drain_bracket before (h.screen hscreen₀) hxterm] at hq
    exact bracket_goesOn before hscreen₀ hd hplain h hrest hq

include hscreen₀ in
/-- A chunk of the command leads on in it. -/
theorem midway_goesOn (hx : e₀.xterm = true) (hd : Emulation.isHex d = true)
    (hplain : ∀ c ∈ digits, IsPlain c) {p q : Pass τ} {later : List UInt8}
    (hp : Midway e₀ d digits p later) (hq : drain repeated before p = some q) :
    GoesOn e₀ d digits q.final later := by
  cases hp with
  | @start e flags rest later h htodo =>
    cases rest with
    | nil =>
      rw [drain_nil repeated before rfl] at hq
      rw [← Option.some.inj hq]
      intro chunk later' hsplit
      exact .start h.final (hsplit.trans htodo)
    | cons c cs =>
      obtain ⟨rfl, hrest⟩ := List.cons.inj htodo
      rw [drain_escape before (h.screen hscreen₀)] at hq
      exact escape_goesOn before hscreen₀ hx hd hplain h hrest hq
  | escape h htodo => exact escape_goesOn before hscreen₀ hx hd hplain h htodo hq
  | bracket h htodo => exact bracket_goesOn before hscreen₀ hd hplain h htodo hq
  | palette h htodo => exact palette_goesOn before hscreen₀ hd hplain h htodo hq
  | text hpal hscreen htodo => exact text_goesOn before hplain hpal hscreen htodo hq

include hscreen₀ in
/-- However the command is split into chunks, the palette behind it is that behind its first
digit. -/
theorem run_pal (hx : e₀.xterm = true) (hd : Emulation.isHex d = true)
    (hplain : ∀ c ∈ digits, IsPlain c) {chunks : List (UInt8 × List UInt8)}
    (hgo : GoesOn e₀ d digits e (chunks.flatMap Prod.snd)) (hrun : VSemRun e chunks = some e') :
    e'.pal = (firstDigit e₀ d).pal := by
  induction chunks generalizing e with
  | nil =>
    rw [← Option.some.inj hrun]
    have hend := hgo [] [] rfl
    generalize hp : (⟨e, e.escflg, e.escflags, []⟩ : Pass τ) = p at hend
    cases hend with
    | text hpal hscreen htodo =>
      rw [← hpal]
      exact congrArg (·.e.pal) hp
    | start h htodo => cases congrArg Pass.rest hp; cases htodo
    | escape h htodo => cases congrArg Pass.rest hp; cases htodo
    | bracket h htodo => cases congrArg Pass.rest hp; cases htodo
    | palette h htodo => cases congrArg Pass.rest hp; cases htodo
  | cons chunk chunks ih =>
    obtain ⟨before, chunk⟩ := chunk
    obtain ⟨e₁, he₁, hlater⟩ := Option.bind_eq_some_iff.mp hrun
    rw [VSem_eq] at he₁
    obtain ⟨q, hq, rfl⟩ := Option.map_eq_some_iff.mp he₁
    have hmid := hgo chunk (chunks.flatMap Prod.snd) rfl
    exact ih (midway_goesOn before hscreen₀ hx hd hplain hmid hq) hlater

end Run

/-- The octets of the digits 0 to 9 and of the letters A to F, large or small. -/
theorem hex_plain {c : UInt8} (h : Emulation.isHex c = true) : IsPlain c := by
  simp only [Emulation.isHex, Bool.or_eq_true, Bool.and_eq_true, decide_eq_true_eq, ge_iff_le,
    UInt8.le_iff_toNat_le, UInt8.reduceToNat] at h
  simp only [IsPlain, UInt8.le_iff_toNat_le, UInt8.lt_iff_toNat_lt, UInt8.reduceToNat]
  omega

/-- The command, in any chunks, leaves the palette of its first digit. -/
theorem palette_command_pal {e e' : Emulation τ} (hground : e.Ground) (hx : e.xterm = true)
    (digits : Fin 7 → UInt8) (hhex : ∀ i, Emulation.isHex (digits i) = true)
    {chunks : List (UInt8 × List UInt8)} (hsplit : chunks.flatMap Prod.snd = paletteText digits)
    (hrun : VSemRun e chunks = some e') : e'.pal = (firstDigit e (digits 0)).pal := by
  have hplain : ∀ c ∈ List.ofFn (fun i : Fin 6 => digits i.succ), IsPlain c := by
    intro c hc
    obtain ⟨i, rfl⟩ := List.mem_ofFn.mp hc
    exact hex_plain (hhex i.succ)
  have htext : paletteText digits =
      0x1b :: 0x5d :: 0x50 :: digits 0 :: List.ofFn (fun i : Fin 6 => digits i.succ) := by
    rw [paletteText, List.ofFn_succ]
  refine run_pal hground.screen hx (hhex 0) hplain ?_ hrun
  intro chunk later' hchunk
  rw [hground.root]
  exact .start ⟨rfl, rfl, rfl, rfl, rfl⟩ (by rw [hchunk, hsplit, htext])

/-- Parameters that earlier sequences may have left: they spell the entry `m` and a colour of
the red component `r`, but for the last digit. -/
def leftOver (m r : Int) (i : Int) : Int := if i = 0 then m else if i = 2 then r else 0

/-- Parameters can be left over that make the command set another entry than its own. -/
theorem leftOver_entry (e : Emulation τ) (n : Int) :
    ∃ m r, 0 ≤ m ∧ m < 16 ∧ m ≠ n ∧
      palBehind e.pal (Function.update (leftOver m r) 6 n) (m+4) ≠ e.pal (m+4) := by
  obtain ⟨m, hm0, hm, hmn⟩ : ∃ m : Int, 0 ≤ m ∧ m < 16 ∧ m ≠ n := by
    rcases eq_or_ne n 0 with rfl | hn
    · exact ⟨1, by decide, by decide, by decide⟩
    · exact ⟨0, by decide, by decide, hn.symm⟩
  refine ⟨m, (e.pal (m+4)).red+1, hm0, hm, hmn, ?_⟩
  have hparms (i : Int) (hi : i ≠ 6) : Function.update (leftOver m ((e.pal (m+4)).red+1)) 6 n i =
      leftOver m ((e.pal (m+4)).red+1) i := Function.update_of_ne hi _ _
  have h0 := hparms 0 (by decide)
  have hfirst : leftOver m ((e.pal (m+4)).red+1) 0 = m := rfl
  have hrange :
      ¬(m+4 < 0 ∨ m+4 ≥ Emulation.WINDCOLORSIZE+Emulation.ANSICOLORSIZE) := by
    simp only [Emulation.WINDCOLORSIZE, Emulation.ANSICOLORSIZE]
    omega
  rw [palBehind, h0, hfirst, if_neg hrange, Function.update_self]
  intro h
  have hred := congrArg RGBColor.red h
  simp only [hparms 1 (by decide), hparms 2 (by decide)] at hred
  change 16*0+((e.pal (m+4)).red+1) = (e.pal (m+4)).red at hred
  omega

/-- The command never sets its entry in every case: it takes its first digit for the last one
when earlier sequences have left six parameters, and otherwise sets no entry. -/
theorem palette_command_never (e : Emulation τ) (hground : e.Ground) (hx : e.xterm = true)
    (digits : Fin 7 → UInt8) (hhex : ∀ i, Emulation.isHex (digits i) = true)
    (chunks : List (UInt8 × List UInt8)) (hsplit : chunks.flatMap Prod.snd = paletteText digits) :
    (∀ e', short (e.parmptr+1) ≠ 7 → VSemRun e chunks = some e' → e'.pal = e.pal) ∧
      ¬∀ (parmptr : ℕ) (parms : Int → Int), parmptr < 16 →
        ∃ e', VSemRun (withHistory e parmptr parms) chunks = some e' ∧
          SetsEntry (withHistory e parmptr parms) digits e' := by
  constructor
  · intro e' hptr hrun
    rw [palette_command_pal hground hx digits hhex hsplit hrun, firstDigit_pal, if_neg hptr]
  · intro h
    obtain ⟨m, r, hm0, hm, hmn, hother⟩ := leftOver_entry e (Emulation.hexValue (digits 0))
    obtain ⟨e', hrun, hset⟩ := h 6 (leftOver m r) (by decide)
    have hpal := @palette_command_pal τ (withHistory e 6 (leftOver m r)) e'
      ⟨hground.root, hground.screen⟩ hx digits hhex chunks hsplit hrun
    have hseven : short ((withHistory e 6 (leftOver m r)).parmptr+1) = 7 := by
      change short (6+1) = 7
      decide
    rw [firstDigit_pal, if_pos hseven] at hpal
    apply hother
    have hentry := congrFun (hpal.symm.trans hset.pal) (m+4)
    have hne : m+4 ≠ Emulation.hexValue (digits 0)+Emulation.WINDCOLORSIZE := by
      simp only [Emulation.WINDCOLORSIZE]
      omega
    rw [Function.update_of_ne hne] at hentry
    exact hentry

/-- The digits of an orange for entry 1. -/
def orange (i : Fin 7) : UInt8 := [0x31, 0x66, 0x66, 0x38, 0x30, 0x30, 0x30].getD i 0

theorem orange_never :
    ¬∀ (parmptr : ℕ) (parms : Int → Int), parmptr < 16 →
      ∃ e', VSemRun (withHistory vt220Emulation parmptr parms) [(0, paletteText orange)] = some e' ∧
        SetsEntry (withHistory vt220Emulation parmptr parms) orange e' :=
  (palette_command_never vt220Emulation ⟨rfl, rfl⟩ rfl orange (by decide)
    [(0, paletteText orange)] (by decide)).2

/-- In a new window the entry stays black, and six digits are text. -/
theorem orange_is_text :
    (VSemRun vt220Emulation [(0, paletteText orange)]).map (fun e => (e.pal 5, e.x)) =
        some (⟨0, 0, 0⟩, 6) ∧
      ¬∃ e', VSemRun vt220Emulation [(0, paletteText orange)] = some e' ∧
        SetsEntry vt220Emulation orange e' := by
  have hrun : (VSemRun vt220Emulation [(0, paletteText orange)]).map
      (fun e => (e.pal 5, e.x)) = some (⟨0, 0, 0⟩, 6) := by decide
  refine ⟨hrun, ?_⟩
  rintro ⟨e', he, hset⟩
  rw [he] at hrun
  have hx : e'.x = 6 := congrArg Prod.snd (Option.some.inj hrun)
  have hcursor := hset.cursor.1
  rw [hx] at hcursor
  exact absurd hcursor (by decide)

end VS
