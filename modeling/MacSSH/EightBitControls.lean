import MacSSH.ScrollRegion

/-! The eight-bit controls of the VT220 against their seven-bit forms. -/
namespace VS

open Linked

variable {τ : Type}

/-- The controls that have a form of one octet and one of two. -/
inductive EightBit where
  | IND | NEL | HTS | RI | SS2 | SS3 | DCS | CSI | OSC
  deriving DecidableEq

/-- The control in one octet. -/
def EightBit.code : EightBit → UInt8
  | IND => 0x84
  | NEL => 0x85
  | HTS => 0x88
  | RI => 0x8d
  | SS2 => 0x8e
  | SS3 => 0x8f
  | DCS => 0x90
  | CSI => 0x9b
  | OSC => 0x9d

/-- The octet that it has behind an escape. -/
def EightBit.final (k : EightBit) : UInt8 := k.code-0x40

/-- The two forms of the control have the same effect, whatever comes behind them. -/
def SameEffect (before : UInt8) (e : Emulation τ) (k : EightBit) : Prop :=
  ∀ rest, Emulation.VSem before e (k.code :: rest) =
    Emulation.VSem before e (0x1b :: k.final :: rest)

section Controls
variable {e : Emulation τ} {before : UInt8}

theorem isC1_code (hvt : e.vtemulation ≠ .vt100) (h8 : e.vteightbits = true) (k : EightBit) :
    e.isC1 k.code = true := by
  have hcode : 0x80 ≤ k.code ∧ k.code < 0xa0 := by cases k <;> decide
  simp [Emulation.isC1, hcode.1, hcode.2, hvt, h8]

/-- What one octet of a control comes to, when it is not the introducer of a sequence. -/
def oneOctet (e : Emulation τ) : EightBit → Emulation τ
  | .IND => e.lineFeed
  | .NEL => { e with x := 0 }.lineFeed
  | .HTS => e.setTab true
  | .RI => e.onScreen VSscrn.VSIrindex
  | _ => e

/-- The one octet. -/
theorem mainLoop_code (hground : e.Ground) (hvt : e.vtemulation ≠ .vt100)
    (h8 : e.vteightbits = true) {k : EightBit} (hcsi : k ≠ .CSI)
    (hosc : ¬(k = .OSC ∧ e.xterm = true)) (flags : ℕ) (rest : List UInt8) :
    Emulation.mainLoop repeated before ⟨e, .esc_root, flags, k.code :: rest⟩ =
      .again ((oneOctet e k).shortCut k.code rest) := by
  have hc1 := isC1_code hvt h8 k
  rw [mainLoop_c1 repeated before hground.screen flags (by cases k <;> decide)]
  have hpass : Emulation.c1 ⟨e, .esc_root, flags, k.code :: rest⟩ =
      .again ((oneOctet e k).shortCut k.code rest) := by
    simp only [Emulation.c1, hc1]
    cases k with
    | CSI => exact absurd rfl hcsi
    | OSC =>
      have hx : e.xterm = false := by simpa using hosc
      simp [EightBit.code, hx, oneOctet]
    | _ => rfl
  rw [hpass]
  rfl

/-- The two octets. -/
theorem mainLoop_final (hground : e.Ground) {k : EightBit} (hcsi : k ≠ .CSI)
    (hosc : ¬(k = .OSC ∧ e.xterm = true)) (flags : ℕ) (rest : List UInt8) :
    Emulation.mainLoop repeated before ⟨e, .esc_root, flags, 0x1b :: k.final :: rest⟩ =
      .again ((oneOctet e k).shortCut k.final rest) := by
  rw [mainLoop_esc repeated before hground.screen]
  have hpass : escPart .esc_basic Emulation.basic ⟨e, .esc_basic, flags, k.final :: rest⟩ =
      .again ((oneOctet e k).shortCut k.final rest) := by
    have hbasic : e.basic flags k.final = .shortCut (oneOctet e k) := by
      cases k with
      | CSI => exact absurd rfl hcsi
      | OSC =>
        have hx : e.xterm = false := by simpa using hosc
        have hof : BasicChar.of EightBit.OSC.final = .osc := rfl
        rw [Emulation.basic, hof]
        simp [hx, oneOctet]
      | _ => rfl
    change escLoop .esc_basic Emulation.basic e .esc_basic flags (k.final :: rest) = _
    rw [escLoop, if_pos rfl, hbasic]
  rw [hpass]
  rfl

theorem mainLoop_eightBit_csi (hground : e.Ground) (hvt : e.vtemulation ≠ .vt100)
    (h8 : e.vteightbits = true) (flags : ℕ) (rest : List UInt8) :
    Emulation.mainLoop repeated before ⟨e, .esc_root, flags, EightBit.CSI.code :: rest⟩ =
      Emulation.mainLoop repeated before
        ⟨e, .esc_root, flags, 0x1b :: EightBit.CSI.final :: rest⟩ := by
  have hc1 := isC1_code hvt h8 .CSI
  have hpass : Emulation.c1 ⟨e, .esc_root, flags, EightBit.CSI.code :: rest⟩ =
      .fall ⟨e.VSIapclear, .esc_csi, 0, rest⟩ := by
    simp only [Emulation.c1, hc1]
    rfl
  have hparts : (Emulation.parts repeated before e.lastColumn false).drop 1 =
      ([Emulation.text e.lastColumn false, escPart .esc_basic Emulation.basic] :
        List (Pass τ → Flow τ)) ++ (Emulation.parts repeated before e.lastColumn false).drop 3 :=
    rfl
  have hidle : ∀ part ∈ [Emulation.text e.lastColumn false, escPart .esc_basic Emulation.basic],
      part ⟨e.VSIapclear, .esc_csi, 0, rest⟩ = .fall ⟨e.VSIapclear, .esc_csi, 0, rest⟩ := by
    simp [text_skip, escPart_skip]
  rw [mainLoop_c1 repeated before hground.screen flags (by decide), hpass, Flow.andThen, hparts,
    runParts_skip _ hidle]
  exact (mainLoop_csi repeated before hground flags rest).symm

/-- A chunk from the ground state, after one pass. -/
theorem VSem_again (hground : e.Ground) {c : UInt8} {rest : List UInt8} {q : Pass τ}
    (h : Emulation.mainLoop repeated before ⟨e, .esc_root, e.escflags, c :: rest⟩ = .again q) :
    Emulation.VSem before e (c :: rest) = (drain repeated before q).map Pass.final := by
  rw [VSem_eq, hground.root, drain_step repeated before (List.cons_ne_nil _ _), h]
  rfl

/-- Both forms end their function in the same way. -/
theorem shortCut_code {k : EightBit} (hhts : ¬(k = .HTS ∧ e.possibleForce = true))
    (rest : List UInt8) :
    (oneOctet e k).shortCut k.code rest = (oneOctet e k).shortCut k.final rest := by
  by_cases hk : k = .HTS
  · subst hk
    have hoff : e.possibleForce = false := by simpa using hhts
    have hforce : (oneOctet e .HTS).possibleForce = false := hoff
    simp [Emulation.shortCut, hforce]
  · have hcode : k.code ≠ 0x48 ∧ k.final ≠ 0x48 := by
      cases k <;> first | exact absurd rfl hk | decide
    simp [Emulation.shortCut, hcode.1, hcode.2]

theorem sameEffect_of (hground : e.Ground) (hvt : e.vtemulation ≠ .vt100)
    (h8 : e.vteightbits = true) {k : EightBit} (hosc : ¬(k = .OSC ∧ e.xterm = true))
    (hhts : ¬(k = .HTS ∧ e.possibleForce = true)) : SameEffect before e k := by
  intro rest
  by_cases hcsi : k = .CSI
  · subst hcsi
    rw [VSem_eq, VSem_eq, hground.root, drain_step repeated before (List.cons_ne_nil _ _),
      drain_step repeated before (List.cons_ne_nil _ _), mainLoop_eightBit_csi hground hvt h8]
  · rw [VSem_again hground (mainLoop_code hground hvt h8 hcsi hosc _ rest),
      VSem_again hground (mainLoop_final hground hcsi hosc _ rest), shortCut_code hhts]

/-- In an XTerm window, the one octet is taken for the first one of its own command, and ends
it. -/
theorem osc_differs (hground : e.Ground) (hvt : e.vtemulation ≠ .vt100)
    (h8 : e.vteightbits = true) (hx : e.xterm = true) : ¬SameEffect before e .OSC := by
  intro h
  have hc1 := isC1_code hvt h8 .OSC
  have hcode : Emulation.mainLoop repeated before
      ⟨e, .esc_root, e.escflags, [EightBit.OSC.code]⟩ = .again (e.shortCut 0x9d []) := by
    have hpass : Emulation.c1 ⟨e, .esc_root, e.escflags, [EightBit.OSC.code]⟩ =
        .fall ⟨e, .esc_XTerm, 0, [EightBit.OSC.code]⟩ := by
      simp only [Emulation.c1, hc1]
      simp [EightBit.code, hx]
    rw [mainLoop_c1 repeated before hground.screen _ (by decide), hpass]
    rfl
  have hfinal : Emulation.mainLoop repeated before
      ⟨e, .esc_root, e.escflags, [0x1b, EightBit.OSC.final]⟩ = .fall ⟨e, .esc_XTerm, 0, []⟩ := by
    have hpass : escPart .esc_basic Emulation.basic
        ⟨e, .esc_basic, e.escflags, [EightBit.OSC.final]⟩ = .fall ⟨e, .esc_XTerm, 0, []⟩ := by
      have hof : BasicChar.of EightBit.OSC.final = .osc := rfl
      have hbasic : e.basic e.escflags EightBit.OSC.final = .next e .esc_XTerm 0 := by
        rw [Emulation.basic, hof]
        simp [hx]
      change escLoop .esc_basic Emulation.basic e .esc_basic e.escflags [EightBit.OSC.final] = _
      rw [escLoop, if_pos rfl, hbasic]
      rfl
    rw [mainLoop_esc repeated before hground.screen, hpass]
    rfl
  have hsame := h []
  have hlong : Emulation.VSem before e [0x1b, EightBit.OSC.final] =
      (drain repeated before ⟨e, .esc_XTerm, 0, []⟩).map Pass.final := by
    rw [VSem_eq, hground.root, drain_step repeated before (List.cons_ne_nil _ _), hfinal]
    rfl
  rw [VSem_again hground hcode, hlong, drain_nil repeated before rfl,
    drain_nil repeated before rfl] at hsame
  have hst := congrArg Emulation.escflg (Option.some.inj hsame)
  cases hst

/-- The tab stop of two octets leaves the next erasure a chance to save the screen. -/
theorem hts_differs (hground : e.Ground) (hvt : e.vtemulation ≠ .vt100)
    (h8 : e.vteightbits = true) (hforce : e.possibleForce = true) : ¬SameEffect before e .HTS := by
  intro h
  have hsame := h []
  rw [VSem_again hground (mainLoop_code hground hvt h8 (by decide) (by simp) _ []),
    VSem_again hground (mainLoop_final hground (by decide) (by simp) _ []),
    drain_nil repeated before rfl, drain_nil repeated before rfl] at hsame
  have hflag := congrArg Emulation.possibleForce (Option.some.inj hsame)
  have hforce' : (e.setTab true).possibleForce = true := hforce
  simp [Pass.final, Emulation.shortCut, oneOctet, hforce', EightBit.code, EightBit.final] at hflag

end Controls

section Printing
variable {e : Emulation τ} {before : UInt8}

/-- The octet that was shifted in last is the lowest of the register. -/
theorem shift_low (p : Printer) (c : UInt8) : (p.shift c).prbuf.toUInt8 = c := by
  rw [← UInt8.toNat_inj]
  have hc := c.toNat_lt
  simp only [Printer.shift, UInt32.toNat_toUInt8, UInt32.toNat_add, UInt32.toNat_shiftLeft]
  simp
  omega

/-- An octet that is no `i` ends no print. -/
theorem byte_goes_on (s : PrScan) {c : UInt8} (hc : c ≠ 0x69) :
    (s.byte c).rdy = false ∧ (s.byte c).printer = s.printer.shift c := by
  have hlow := shift_low s.printer c
  have hshort : (s.printer.shift c).prbuf ≠ ENDOFPRT := by
    intro hend
    rw [hend] at hlow
    exact hc hlow.symm
  have hlong : (s.printer.shift c).prbuf ≠ ENDOFPRT2 := by
    intro hend
    rw [hend] at hlow
    exact hc hlow.symm
  simp only [PrScan.byte, hshort, hlong]
  split_ifs <;> exact ⟨by simp, rfl⟩

theorem loop_goes_on {chunk : List UInt8} (hchunk : ∀ c ∈ chunk, c ≠ 0x69) {s : PrScan}
    (hrdy : s.rdy = false) : ∃ s', s.loop chunk = (s', []) ∧ s'.rdy = false ∧
      s'.printer = chunk.foldl Printer.shift s.printer := by
  induction chunk generalizing s with
  | nil => exact ⟨s, rfl, hrdy, rfl⟩
  | cons c chunk ih =>
    obtain ⟨hnext, hprinter⟩ := byte_goes_on s (hchunk c List.mem_cons_self)
    obtain ⟨s', hloop, hrdy', hshift⟩ := ih (fun d hd => hchunk d (List.mem_cons_of_mem _ hd)) hnext
    refine ⟨s', ?_, hrdy', ?_⟩
    · rw [PrScan.loop, hnext]
      exact hloop
    · rw [hshift, hprinter, List.foldl_cons]

/-- The printer takes the whole of a chunk without an `i`, and its register ends with the last
octet. -/
theorem VSpr_goes_on (p : Printer) {chunk : List UInt8} {c : UInt8}
    (hchunk : ∀ d ∈ chunk ++ [c], d ≠ 0x69) : (VSpr p (chunk ++ [c])).rest = [] ∧
      (VSpr p (chunk ++ [c])).printer.prbuf.toUInt8 = c := by
  obtain ⟨s, hloop, hrdy, hprinter⟩ := @loop_goes_on _ hchunk ⟨p, 0, 0, false, []⟩ rfl
  simp only [VSpr, hloop, hrdy, Bool.false_eq_true, if_false, hprinter]
  rw [List.foldl_append]
  exact ⟨trivial, shift_low _ c⟩

/-- A chunk that the printer takes as a whole does nothing else. -/
theorem VSem_printing (hroot : e.escflg = .esc_root) (hon : e.printer.prredirect = true)
    {chunk : List UInt8} (hne : chunk ≠ []) (hrest : (VSpr e.printer chunk).rest = []) :
    Emulation.VSem before e chunk = some { e with printer := (VSpr e.printer chunk).printer } := by
  have hground : Emulation.groundPart ⟨e, .esc_root, e.escflags, chunk⟩ =
      (⟨{ e with printer := (VSpr e.printer chunk).printer }, .esc_root, e.escflags, []⟩,
        false) := by
    simp only [Emulation.groundPart, hon, hrest]
    rfl
  have hloop : Emulation.mainLoop repeated before ⟨e, .esc_root, e.escflags, chunk⟩ =
      .fall ⟨{ e with printer := (VSpr e.printer chunk).printer }, .esc_root, e.escflags, []⟩ := by
    rw [Emulation.mainLoop, hground]
    exact rootParts_idle repeated before
      ⟨{ e with printer := (VSpr e.printer chunk).printer }, .esc_root, e.escflags, []⟩ rfl
      e.lastColumn
  rw [VSem_eq, hroot, drain_step repeated before hne, hloop]
  change (drain repeated before _).map Pass.final = _
  rw [drain_nil repeated before rfl, Option.map_some, Pass.final, ← hroot]

/-- The printer takes the two forms as they are, and they are different octets. -/
theorem printing_differs (hroot : e.escflg = .esc_root) (hon : e.printer.prredirect = true)
    (k : EightBit) : ¬SameEffect before e k := by
  intro h
  have hcode : ∀ d ∈ [] ++ [k.code], d ≠ 0x69 := by
    intro d hd
    rw [List.nil_append, List.mem_singleton] at hd
    rw [hd]
    cases k <;> decide
  have hfinal : ∀ d ∈ [0x1b] ++ [k.final], d ≠ 0x69 := by
    intro d hd
    rw [List.singleton_append, List.mem_pair] at hd
    rcases hd with rfl | rfl
    · decide
    · cases k <;> decide
  obtain ⟨hrest, hlow⟩ := VSpr_goes_on e.printer hcode
  obtain ⟨hrest', hlow'⟩ := VSpr_goes_on e.printer hfinal
  have hsame := h []
  change Emulation.VSem before e ([] ++ [k.code]) =
    Emulation.VSem before e ([0x1b] ++ [k.final]) at hsame
  rw [VSem_printing hroot hon (by simp) hrest, VSem_printing hroot hon (by simp) hrest'] at hsame
  have hprinter := congrArg (fun e : Emulation τ => e.printer.prbuf.toUInt8) (Option.some.inj hsame)
  simp only at hprinter
  rw [hlow, hlow'] at hprinter
  revert hprinter
  cases k <;> decide

end Printing

/-- The two forms of a control have the same effect, if and only if the printer does not take
them, and it is neither the one that opens a command to an XTerm window nor the one that sets a
tab stop just after the cursor has been sent home. -/
theorem eight_bit_control_iff (before : UInt8) (e : Emulation τ) (hroot : e.escflg = .esc_root)
    (hvt : e.vtemulation ≠ .vt100) (h8 : e.vteightbits = true) (k : EightBit) :
    SameEffect before e k ↔ e.printer.prredirect = false ∧
      ¬(k = .OSC ∧ e.xterm = true) ∧ ¬(k = .HTS ∧ e.possibleForce = true) := by
  by_cases hon : e.printer.prredirect = true
  · rw [hon]
    exact ⟨fun h => absurd h (printing_differs hroot hon k), fun h => absurd h.1 (by decide)⟩
  · have hoff : e.printer.prredirect = false := by simpa using hon
    have hground : e.Ground := ⟨hroot, hoff⟩
    constructor
    · intro h
      refine ⟨hoff, ?_, ?_⟩
      · rintro ⟨rfl, hx⟩
        exact osc_differs hground hvt h8 hx h
      · rintro ⟨rfl, hforce⟩
        exact hts_differs hground hvt h8 hforce h
    · rintro ⟨-, hosc, hhts⟩
      exact sameEffect_of hground hvt h8 hosc hhts

/-- A new VT220 of three rows in an XTerm window. -/
def vt220Emulation : Emulation Unit :=
  { newEmulation (some (plainWindow true)) (threeRowsFull 0) with vtemulation := .vt220 }

theorem eight_bit_index : SameEffect 0 vt220Emulation .IND :=
  (eight_bit_control_iff 0 vt220Emulation rfl (by decide) rfl .IND).mpr
    ⟨rfl, by decide, by decide⟩

/-- The command that gives the window the name `t`: in its eight-bit form it is text. -/
theorem eight_bit_title_is_text :
    (Emulation.VSem 0 vt220Emulation (0x9d :: [0x32, 0x3b, 0x74, 7])).map
        (fun e => (e.wname, e.x)) = some ([], 3) ∧
      (Emulation.VSem 0 vt220Emulation (0x1b :: 0x5d :: [0x32, 0x3b, 0x74, 7])).map
        (fun e => (e.wname, e.x)) = some ([0x74], 0) ∧
      ¬SameEffect 0 vt220Emulation .OSC := by
  have hone : (Emulation.VSem 0 vt220Emulation (0x9d :: [0x32, 0x3b, 0x74, 7])).map
      (fun e => (e.wname, e.x)) = some ([], 3) := by decide
  have htwo : (Emulation.VSem 0 vt220Emulation (0x1b :: 0x5d :: [0x32, 0x3b, 0x74, 7])).map
      (fun e => (e.wname, e.x)) = some ([0x74], 0) := by decide
  refine ⟨hone, htwo, ?_⟩
  intro h
  have hsame := h [0x32, 0x3b, 0x74, 7]
  change Emulation.VSem 0 vt220Emulation (0x9d :: _) =
    Emulation.VSem 0 vt220Emulation (0x1b :: 0x5d :: _) at hsame
  rw [hsame, htwo] at hone
  exact absurd hone (by decide)

end VS
