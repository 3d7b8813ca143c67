import MacSSH.EchoedKeys
import MacSSH.LineMode
import MacSSH.OtpPrompts

/-! The key that quotes the next one: when that is stored as it is and nothing else
happens. -/
namespace Linemode

open VS

variable {τ : Type}

/-- What an echoed key goes through, as if the host had sent it: the telnet parser, with the
octet behind the packet, and what reads the data behind it, with what opens URLs. -/
structure Session (τ : Type) where
  host : Telnet.Host
  beyond : UInt8
  tel : Telnet.WindRec
  before : UInt8
  emu : Emulation τ
  launched : List UInt8 → Bool
  otp : Otp.WindRec

namespace Session
variable (x : Session τ)

/-- `parse` on the octet, with these keys in the buffer. -/
def parse (kbbuf : List UInt8) (c : UInt8) : Telnet.WindRec :=
  Telnet.parse x.host x.beyond { x.tel with line.kbbuf := kbbuf } [c]

/-- The octets that it passes on to the terminal. -/
def passed (kbbuf : List UInt8) (c : UInt8) : List UInt8 :=
  (x.parse kbbuf c).vt.drop x.tel.vt.length

/-- Those that `otpauto` looks at first: no raw octets, and no escape that was held back. -/
def scanned (kbbuf : List UInt8) (c : UInt8) : List UInt8 :=
  if x.tel.termstate = .dumb then [] else (x.passed kbbuf c).filter (· ≠ Telnet.ESC)

/-- Nothing is sent for the echo of `c`, and the keys in the buffer stay. -/
structure Silent (kbbuf : List UInt8) (c : UInt8) : Prop where
  network : (x.parse kbbuf c).sent = x.tel.sent
  buffer : (x.parse kbbuf c).line.kbbuf = kbbuf
  terminal : x.emu.reports x.launched x.before (x.passed kbbuf c) = []
  password : x.otp.otpauto ≠ 0 →
    (Otp.otpauto x.otp (x.scanned kbbuf c)).challenges = x.otp.challenges

/-- The octet ends the seed of a challenge. -/
def EndsChallenge (c : UInt8) : Prop :=
  x.otp.otpauto ≠ 0 ∧ x.otp.otpautostate = 3 ∧ x.otp.otpautolength ≤ 250 ∧ Otp.Ends c ∧
    x.tel.termstate ≠ .dumb ∧ c ∈ x.tel.shows c

/-- The parser takes `c` for no option that it answers, and what reads the data behind it
neither for the end of a request nor for that of a challenge. -/
def Calm (c : UInt8) : Prop :=
  ¬x.tel.Answers c ∧ x.emu.asksIn x.before (x.tel.shows c) = false ∧ ¬x.EndsChallenge c

variable {x} {c : UInt8}

theorem passed_eq (kbbuf : List UInt8) (hc : Telnet.Printed c) :
    x.passed kbbuf c = x.tel.shows c := by
  have hvt : (x.parse kbbuf c).vt = x.tel.vt ++ x.tel.shows c := Telnet.parse_shows hc
  rw [passed, hvt, List.drop_left]

/-- `otpauto` sees the character itself, or nothing. -/
theorem scanned_eq (kbbuf : List UInt8) (hc : Telnet.Printed c) : x.scanned kbbuf c =
    if x.tel.termstate ≠ .dumb ∧ c ∈ x.tel.shows c then [c] else [] := by
  have hesc : c ≠ Telnet.ESC := by
    rintro rfl
    exact absurd hc.1 (by decide)
  rw [scanned, passed_eq kbbuf hc]
  by_cases hdumb : x.tel.termstate = .dumb
  · rw [if_pos hdumb, if_neg (fun h => h.1 hdumb)]
  · rw [if_neg hdumb]
    rcases Telnet.shows_cases x.tel c with hnone | hone | hesc' | hboth
    · simp [hnone]
    · simp [hone, hesc, hdumb]
    · simp [hesc', hesc]
    · simp [hboth, hesc, hdumb]

theorem password_iff (kbbuf : List UInt8) (hc : Telnet.Printed c) :
    (x.otp.otpauto ≠ 0 →
      (Otp.otpauto x.otp (x.scanned kbbuf c)).challenges = x.otp.challenges) ↔
      ¬x.EndsChallenge c := by
  have hstops : Otp.Stops c ↔ Otp.Ends c := by
    rw [Otp.stops_iff]
    exact or_iff_left (UInt8.not_le.mpr (UInt8.lt_trans hc.2 (by decide)))
  rw [scanned_eq kbbuf hc, EndsChallenge]
  by_cases hseen : x.tel.termstate ≠ .dumb ∧ c ∈ x.tel.shows c
  · rw [if_pos hseen]
    change (_ → (Otp.otpautoByte x.otp c).challenges = _) ↔ _
    rw [Otp.otpautoByte_reports_iff, hstops]
    constructor
    · rintro h ⟨hauto, hstate, hlen, hend, -⟩
      exact h hauto ⟨hstate, hlen, hend⟩
    · rintro h hauto ⟨hstate, hlen, hend⟩
      exact h ⟨hauto, hstate, hlen, hend, hseen⟩
  · rw [if_neg hseen]
    exact iff_of_true (fun _ => rfl) fun hends => hseen hends.2.2.2.2

theorem silent_iff (kbbuf : List UInt8) (hc : printable c) : x.Silent kbbuf c ↔ x.Calm c := by
  have hprinted : Telnet.Printed c := by
    rw [printable, Bool.and_eq_true, decide_eq_true_eq, decide_eq_true_eq] at hc
    exact hc
  have hsent : (x.parse kbbuf c).sent = x.tel.sent ↔ ¬x.tel.Answers c :=
    Telnet.parse_sent_iff hprinted
  have hpassed := x.passed_eq kbbuf hprinted
  constructor
  · intro h
    have hterminal := h.terminal
    rw [hpassed, Emulation.reports_eq_nil_iff] at hterminal
    exact ⟨hsent.mp h.network, hterminal, (password_iff kbbuf hprinted).mp h.password⟩
  · rintro ⟨hno, hterminal, hpassword⟩
    have hline : (x.parse kbbuf c).line = { x.tel.line with kbbuf := kbbuf } :=
      Telnet.parse_line hprinted hno
    refine ⟨hsent.mpr hno, ?_, ?_, (password_iff kbbuf hprinted).mpr hpassword⟩
    · rw [hline]
    · rw [hpassed, Emulation.reports_eq_nil_iff]
      exact hterminal

end Session

/-- The key `ascii` after the quoting key goes into the buffer, once, and is not taken for
anything else: apart from its echo nothing more is done, and nothing is sent for the echo. -/
structure TakenLiterally (x : Session τ) (k : Setting) (ascii : UInt8) (tw : WindRec) : Prop where
  waits : process_key k (k.slc .LNEXT) tw = { tw with litNext := true }
  longer : (process_key k ascii (process_key k (k.slc .LNEXT) tw)).kblen = tw.kblen+1
  fits : (process_key k ascii (process_key k (k.slc .LNEXT) tw)).kblen ≤ MAXKB
  stored : (process_key k ascii (process_key k (k.slc .LNEXT) tw)).contents =
    tw.contents ++ [ascii]
  quiet : ∃ echoed : List UInt8,
    (process_key k ascii (process_key k (k.slc .LNEXT) tw)).calls =
      tw.calls ++ echoed.map (fun c => Call.parse [c]) ∧
    ∀ c ∈ echoed, x.Silent (tw.contents ++ [ascii]) c
  finished : (process_key k ascii (process_key k (k.slc .LNEXT) tw)).litNext = false
  rest : (process_key k ascii (process_key k (k.slc .LNEXT) tw)).timing = tw.timing ∧
    (process_key k ascii (process_key k (k.slc .LNEXT) tw)).enabled = tw.enabled

/-- The function of a key does nothing even where it is reached. -/
def Harmless (k : Setting) (ascii : UInt8) : Prop :=
  (meaning k ascii = .xon ∨ meaning k ascii = .xoff) ∧ ¬k.allow_flow ∨
    meaning k ascii = .softTab ∧ k.tabDistance ≤ 0 ∨
    meaning k ascii = .eraseWord ∧ ascii = 32

/-- There is room in the buffer. -/
def Room (tw : WindRec) : Prop := 0 ≤ tw.kblen ∧ tw.kblen < MAXKB

/-- The quoting key reaches its function, there is room in the buffer, and the keys are
echoed here, with nothing that answers the echo of this one, or the quoted one has a function
that does nothing. -/
def LiteralFine (x : Session τ) (k : Setting) (ascii : UInt8) (tw : WindRec) : Prop :=
  tw.litNext = false ∧ meaning k (k.slc .LNEXT) = .quote ∧ Room tw ∧
    if k.echo then printable ascii → x.Calm ascii else Harmless k ascii

section Quoting
variable {x : Session τ} {k : Setting} {ascii : UInt8} {tw t : WindRec}

theorem short_pred_ne (i : Int) : short (short (i+1)-1) ≠ i+1 := by
  rw [short, short, Int.bmod_def, Int.bmod_def]
  split_ifs <;> omega

theorem short_twice_ne (i : Int) : short (short (i+1)+1) ≠ i+1 := by
  rw [short, short, Int.bmod_def, Int.bmod_def]
  split_ifs <;> omega

theorem short_succ_ne (i : Int) : short (i+1) ≠ i := by
  rw [short, Int.bmod_def]
  split_ifs <;> omega

/-- The calls made so far stay, and whether a key waits to be quoted does too. -/
def Proceeds (tw tw' : WindRec) : Prop :=
  tw'.litNext = tw.litNext ∧ ∃ more, tw'.calls = tw.calls ++ more

theorem Proceeds.refl (tw : WindRec) : Proceeds tw tw := ⟨rfl, [], (List.append_nil _).symm⟩

theorem Proceeds.trans {a b c : WindRec} (h : Proceeds a b) (h' : Proceeds b c) :
    Proceeds a c := by
  obtain ⟨hlit, more, hcalls⟩ := h
  obtain ⟨hlit', more', hcalls'⟩ := h'
  refine ⟨hlit'.trans hlit, more ++ more', ?_⟩
  rw [hcalls', hcalls, List.append_assoc]

theorem call_proceeds (tw : WindRec) (calls : List Call) : Proceeds tw (tw.call calls) :=
  ⟨rfl, calls, rfl⟩

theorem echo_proceeds (k : Setting) (tw : WindRec) (bytes : List UInt8) :
    Proceeds tw (echo k tw bytes) := by
  rw [echo]
  split_ifs
  · exact call_proceeds tw _
  · exact .refl tw

theorem localEcho_proceeds (k : Setting) (ascii : UInt8) (tw : WindRec) :
    Proceeds tw (localEcho k ascii tw) := by
  rw [localEcho]
  split_ifs
  · exact echo_proceeds k tw _
  · exact .refl tw
  · exact (echo_proceeds k tw _).trans (echo_proceeds k _ _)

theorem kbflush_proceeds (tw : WindRec) : Proceeds tw (kbflush tw) := by
  rw [kbflush]
  split_ifs
  · exact ⟨rfl, _, rfl⟩
  · exact .refl tw

theorem kbwriteChar_proceeds (tw : WindRec) (c : UInt8) : Proceeds tw (kbwriteChar tw c) := by
  rw [kbwriteChar]
  split_ifs
  · exact kbflush_proceeds tw
  · exact .refl tw

theorem kbwrite_proceeds (string : List UInt8) :
    ∀ tw : WindRec, Proceeds tw (kbwrite tw string) := by
  induction string with
  | nil => exact fun tw => .refl tw
  | cons c string ih => exact fun tw => (kbwriteChar_proceeds tw c).trans (ih _)

theorem eraseOne_proceeds (k : Setting) (tw : WindRec) : Proceeds tw (eraseOne k tw) :=
  echo_proceeds k tw backspace

theorem eraseLine_proceeds (k : Setting) (n : ℕ) :
    ∀ tw : WindRec, Proceeds tw (eraseLine k n tw) := by
  induction n with
  | zero => exact fun tw => .refl tw
  | succ n ih =>
    intro tw
    rw [eraseLine]
    split_ifs
    · exact (eraseOne_proceeds k tw).trans (ih _)
    · exact .refl tw

theorem eraseWord_proceeds (k : Setting) (n : ℕ) :
    ∀ tw : WindRec, Proceeds tw (eraseWord k n tw) := by
  induction n with
  | zero => exact fun tw => .refl tw
  | succ n ih =>
    intro tw
    rw [eraseWord]
    split_ifs
    · exact (eraseOne_proceeds k
        { tw with reads := tw.reads ++ [(tw.kblen-1, tw.kblen)] }).trans (ih _)
    · exact ⟨rfl, [], (List.append_nil _).symm⟩

theorem sendSignal_proceeds (k : Setting) (which : SLC) (command : UInt8) (tw : WindRec) :
    Proceeds tw (sendSignal k which command tw) := by
  have hsignal : Proceeds tw ({ tw with kblen := 0 }.call [.netpush, .netwrite [IAC, command]]) :=
    ⟨rfl, _, rfl⟩
  rw [sendSignal]
  split_ifs
  · exact (hsignal.trans (call_proceeds _ _)).trans ⟨rfl, _, rfl⟩
  · exact hsignal.trans ⟨rfl, _, rfl⟩
  · exact hsignal.trans (call_proceeds _ _)
  · exact hsignal

/-- A key other than the quoting one does not make the next one wait. -/
theorem handleKey_proceeds (h : meaning k ascii ≠ .quote) :
    Proceeds tw (handleKey k ascii tw) := by
  have hflush : ∀ calls, Proceeds tw ((kbflush tw).call calls) := fun calls =>
    (kbflush_proceeds tw).trans (call_proceeds _ calls)
  rw [handleKey]
  cases hm : meaning k ascii with
  | signal which command => exact sendSignal_proceeds k which command tw
  | softTab => exact (kbwrite_proceeds _ tw).trans (echo_proceeds k _ _)
  | sendLine => exact (hflush _).trans (echo_proceeds k _ _)
  | eraseChar => exact eraseOne_proceeds k tw
  | eraseLine => exact eraseLine_proceeds k _ tw
  | endOfFile => exact hflush _
  | eraseWord => exact (eraseWord_proceeds k _ tw).trans (localEcho_proceeds k ascii _)
  | redrawLine => exact call_proceeds tw _
  | quote => exact absurd hm h
  | xon =>
    dsimp only
    split_ifs
    · exact ⟨rfl, _, rfl⟩
    · exact .refl tw
  | xoff =>
    dsimp only
    split_ifs
    · exact ⟨rfl, _, rfl⟩
    · exact .refl tw
  | forward => exact hflush _
  | store => exact (kbwrite_proceeds _ tw).trans (localEcho_proceeds k ascii _)
  | newline => exact (call_proceeds tw _).trans (echo_proceeds k _ _)
  | send => exact (call_proceeds tw _).trans (localEcho_proceeds k ascii _)

theorem handleKey_quote (h : meaning k ascii = .quote) :
    handleKey k ascii tw = { tw with litNext := true } := by
  rw [handleKey, h]

theorem kbwriteChar_kblen (tw : WindRec) (c : UInt8) : (kbwriteChar tw c).kblen =
    if tw.kblen = MAXKB then 1 else short (tw.kblen+1) := by
  rw [kbwriteChar]
  split_ifs
  · dsimp only
    rw [kbflush_kblen]
    rfl
  · rfl

/-- The state when a quoted key has been stored. -/
def quoted (ascii : UInt8) (tw : WindRec) : WindRec :=
  kbwrite { tw with litNext := false } [ascii]

theorem quoted_litNext (ascii : UInt8) (tw : WindRec) : (quoted ascii tw).litNext = false :=
  (kbwriteChar_proceeds { tw with litNext := false } ascii).1

theorem quoted_kblen (ascii : UInt8) (tw : WindRec) :
    (quoted ascii tw).kblen = if tw.kblen = MAXKB then 1 else short (tw.kblen+1) :=
  kbwriteChar_kblen { tw with litNext := false } ascii

theorem quoted_kblen_ne (ascii : UInt8) (tw : WindRec) : (quoted ascii tw).kblen ≠ tw.kblen := by
  rw [quoted_kblen]
  split_ifs with hfull
  · rw [hfull]
    decide
  · exact short_succ_ne _

/-- The quoted key when its turn comes. -/
theorem process_quoted (k : Setting) (ascii : UInt8) (h : tw.litNext = true) :
    process_key k ascii tw =
      if k.echo then
        if printable ascii then (quoted ascii tw).call [.parse [ascii]] else quoted ascii tw
      else handleKey k ascii (quoted ascii tw) := by
  rw [process_key, if_pos h]
  rfl

/-- The quoting key waits for the next one where no key is waiting and its function is
reached. -/
theorem waits_iff : process_key k ascii tw = { tw with litNext := true } ↔
    tw.litNext = false ∧ meaning k ascii = .quote := by
  by_cases hlit : tw.litNext = true
  · -- the key is quoted itself, so that it is stored
    apply iff_of_false _ (fun hall => Bool.noConfusion (hlit.symm.trans hall.1))
    have hquoted := quoted_litNext ascii tw
    rw [process_quoted k ascii hlit]
    intro hall
    have hwaits := congrArg WindRec.litNext hall
    split_ifs at hall hwaits
    · exact Bool.noConfusion (hquoted.symm.trans hwaits)
    · exact Bool.noConfusion (hquoted.symm.trans hwaits)
    · have hquote : meaning k ascii = .quote := by
        by_contra hne
        have hkept := (@handleKey_proceeds k ascii (quoted ascii tw) hne).1
        exact Bool.noConfusion (hquoted.symm.trans (hkept.symm.trans hwaits))
      rw [handleKey_quote hquote] at hall
      have hlen := congrArg WindRec.kblen hall
      exact quoted_kblen_ne ascii tw hlen
  · have hlit := Bool.eq_false_iff.mpr hlit
    rw [process_key, if_neg (by rw [hlit]; exact Bool.false_ne_true), and_iff_right hlit]
    constructor
    · intro hall
      by_contra hne
      have hkept := (@handleKey_proceeds k ascii tw hne).1
      rw [hall, hlit] at hkept
      exact Bool.noConfusion hkept
    · exact handleKey_quote

/-- The quoted key where the buffer is not full. -/
theorem quoted_eq (hfull : tw.kblen ≠ MAXKB) (ascii : UInt8) : quoted ascii tw =
    { tw with
      litNext := false
      kbbuf := Function.update tw.kbbuf tw.kblen ascii, kblen := short (tw.kblen+1) } := by
  rw [quoted, kbwrite, List.foldl_cons, List.foldl_nil, kbwriteChar]
  dsimp only
  rw [if_neg hfull]

theorem quoted_short (ascii : UInt8) (tw : WindRec) :
    -32768 ≤ (quoted ascii tw).kblen ∧ (quoted ascii tw).kblen ≤ 32767 := by
  rw [quoted_kblen]
  split_ifs
  · decide
  · exact short_range _

/-- What a state has heard besides echoes is none of these calls. -/
theorem only_echoes {c : Call} (calls : List Call) {more : List Call} (hc : c ∈ more)
    (hother : ∀ bytes, c ≠ .parse bytes)
    (h : ∃ echoed : List (List UInt8), calls ++ more = calls ++ echoed.map Call.parse) :
    False := by
  obtain ⟨echoed, hsame⟩ := h
  rw [List.append_cancel_left hsame] at hc
  obtain ⟨bytes, _, rfl⟩ := List.mem_map.mp hc
  exact hother bytes rfl

/-- The length in the machine's range. -/
def Short (tw : WindRec) : Prop := -32768 ≤ tw.kblen ∧ tw.kblen ≤ 32767

theorem kbwriteChar_short (tw : WindRec) (c : UInt8) : Short (kbwriteChar tw c) :=
  short_range _

theorem kbwrite_short (string : List UInt8) : ∀ {tw : WindRec}, Short tw →
    Short (kbwrite tw string) := by
  induction string with
  | nil => exact fun h => h
  | cons c string ih => exact fun _ => ih (kbwriteChar_short _ c)

/-- What was stored last ends the buffer. -/
theorem kbwriteChar_last (h : Short tw) (c : UInt8) : (kbwriteChar tw c).contents = [] ∨
    ∃ front, (kbwriteChar tw c).contents = front ++ [c] := by
  by_cases hfull : tw.kblen = MAXKB
  · have hzero := kbflush_kblen tw
    rw [kbwriteChar, if_pos hfull]
    exact .inr ⟨_, store_contents (Int.le_of_eq hzero.symm) (by rw [hzero]; decide) c⟩
  rw [kbwriteChar, if_neg hfull]
  by_cases hin : 0 ≤ tw.kblen ∧ tw.kblen < 32767
  · exact .inr ⟨_, store_contents hin.1 hin.2 c⟩
  · left
    have hneg : (short (tw.kblen+1)).toNat = 0 := by
      obtain ⟨hlow, hhigh⟩ := h
      rw [short, Int.bmod_def]
      split_ifs <;> omega
    rw [WindRec.contents]
    dsimp only
    rw [hneg]
    rfl

theorem kbwrite_last (h : Short tw) (string : List UInt8) (c : UInt8) :
    (kbwrite tw (string ++ [c])).contents = [] ∨
      ∃ front, (kbwrite tw (string ++ [c])).contents = front ++ [c] := by
  rw [kbwrite, List.foldl_append, List.foldl_cons, List.foldl_nil]
  exact kbwriteChar_last (kbwrite_short string h) c

theorem eraseOne_kblen (k : Setting) (tw : WindRec) :
    (eraseOne k tw).kblen = short (tw.kblen-1) := by
  rfl

theorem eraseLine_kblen (k : Setting) : ∀ (n : ℕ) {tw : WindRec}, Short tw → tw.kblen ≤ n →
    (eraseLine k n tw).kblen ≤ 0 := by
  intro n
  induction n with
  | zero => exact fun _ h => h
  | succ n ih =>
    intro tw hshort hn
    rw [eraseLine]
    split_ifs with hpos
    · have hone : short (tw.kblen-1) = tw.kblen-1 :=
        short_eq (by omega) (by have := hshort.2; omega)
      have hlen := (eraseOne_kblen k tw).trans hone
      exact ih ⟨by have := hshort.2; omega, by have := hshort.2; omega⟩ (by omega)
    · omega

/-- The key that kills a word makes the buffer no longer. -/
theorem eraseWord_kblen (k : Setting) : ∀ (n : ℕ) (tw : WindRec), Short tw →
    (eraseWord k n tw).kblen ≤ tw.kblen := by
  intro n
  induction n with
  | zero => exact fun _ _ => Int.le_refl _
  | succ n ih =>
    intro tw hshort
    rw [eraseWord]
    split_ifs with hmore
    · have hone : short (tw.kblen-1) = tw.kblen-1 :=
        short_eq (by omega) (by have := hshort.2; omega)
      have hlen : (eraseOne k { tw with reads := tw.reads ++ [(tw.kblen-1, tw.kblen)] }).kblen =
        tw.kblen-1 := hone
      have hrest := ih (eraseOne k { tw with reads := tw.reads ++ [(tw.kblen-1, tw.kblen)] })
        ⟨by have := hshort.2; omega, by have := hshort.2; omega⟩
      omega
    · exact Int.le_refl _

theorem trapped_signal {m : Meaning} (h : trapped k ascii = some m) :
    ∃ which command, m = .signal which command := by
  rw [trapped] at h
  split_ifs at h <;> exact ⟨_, _, (Option.some.inj h).symm⟩

/-- While the keys are edited none is a soft tab, and none is sent alone. -/
theorem edited_ne (k : Setting) (ascii : UInt8) :
    edited k ascii ≠ .softTab ∧ edited k ascii ≠ .newline ∧ edited k ascii ≠ .send := by
  rw [edited]
  iterate 11
    apply iteInduction (motive := fun m : Meaning => m ≠ .softTab ∧ m ≠ .newline ∧ m ≠ .send)
    · intro _
      decide
    intro _
  decide

/-- The soft tab is one key. -/
theorem meaning_softTab (h : meaning k ascii = .softTab) : ascii = 9 := by
  rw [meaning] at h
  cases hsignal : if k.on L_TRAPSIG then trapped k ascii else none with
  | some m =>
    rw [hsignal] at h
    split_ifs at hsignal
    obtain ⟨which, command, rfl⟩ := trapped_signal hsignal
    exact Meaning.noConfusion h
  | none =>
    rw [hsignal] at h
    dsimp only at h
    by_cases htab : k.on L_SOFT_TAB ∧ ascii = 9
    · exact htab.2
    rw [if_neg htab] at h
    by_cases hedit : k.on L_EDIT
    · rw [if_pos hedit] at h
      exact absurd h (edited_ne k ascii).1
    rw [if_neg hedit] at h
    split_ifs at h

section Unechoed
variable (hecho : k.echo = false)

include hecho

theorem echo_off (x : WindRec) (bytes : List UInt8) : echo k x bytes = x := by
  rw [echo, hecho, if_neg Bool.false_ne_true]

theorem localEcho_off (ascii : UInt8) (x : WindRec) : localEcho k ascii x = x := by
  rw [localEcho, echo_off hecho, echo_off hecho, echo_off hecho, ite_self, ite_self]

/-- A quoted soft tab leaves blanks behind the tab. -/
theorem quoted_softTab (hm : meaning k ascii = .softTab)
    (hstored : (handleKey k ascii (quoted ascii tw)).contents = tw.contents ++ [ascii]) :
    k.tabDistance ≤ 0 := by
  rw [handleKey, hm] at hstored
  dsimp only at hstored
  rw [echo_off hecho] at hstored
  by_contra htab
  obtain ⟨n, hn⟩ : ∃ n, k.tabDistance.toNat = n+1 := ⟨k.tabDistance.toNat-1, by omega⟩
  rw [hn, List.replicate_succ'] at hstored
  rcases kbwrite_last (quoted_short ascii tw) (List.replicate n 32) 32 with hnil | ⟨front, hlast⟩
  · rw [hnil] at hstored
    exact absurd hstored.symm (List.append_ne_nil_of_right_ne_nil _ (List.cons_ne_nil _ _))
  · rw [hlast, meaning_softTab hm] at hstored
    have hsame := (List.append_inj' hstored rfl).2
    exact absurd hsame (by decide)

/-- A quoted key that kills a word kills itself, unless it is the blank. -/
theorem quoted_eraseWord (hm : meaning k ascii = .eraseWord) (h0 : 0 ≤ tw.kblen)
    (hfull : tw.kblen ≠ MAXKB)
    (hlonger : (handleKey k ascii (quoted ascii tw)).kblen = tw.kblen+1) : ascii = 32 := by
  rw [handleKey, hm] at hlonger
  dsimp only at hlonger
  rw [localEcho_off hecho] at hlonger
  have hshort := quoted_short ascii tw
  have hlen := quoted_kblen ascii tw
  rw [if_neg hfull] at hlen
  have hle := eraseWord_kblen k (((quoted ascii tw).kblen+1).toNat+1) _ hshort
  have hin : tw.kblen < 32767 := by
    have := hshort.2
    omega
  rw [short_eq (by omega) (by omega)] at hlen
  -- the key itself is what the loop looks at first
  have hlast : (quoted ascii tw).kbbuf ((quoted ascii tw).kblen-1) = ascii := by
    have hplace : tw.kblen+1-1 = tw.kblen := by omega
    rw [hlen, hplace, quoted_eq hfull]
    exact Function.update_self ..
  by_contra hne
  rw [eraseWord, hlast, if_pos ⟨hne, by omega⟩] at hlonger
  have hone : short ((quoted ascii tw).kblen-1) = (quoted ascii tw).kblen-1 :=
    short_eq (by omega) (by omega)
  have hrest := eraseWord_kblen k ((quoted ascii tw).kblen+1).toNat
    (eraseOne k { quoted ascii tw with reads := (quoted ascii tw).reads ++
      [((quoted ascii tw).kblen-1, (quoted ascii tw).kblen)] }) (short_range _)
  rw [eraseOne_kblen] at hrest
  dsimp only at hrest
  omega

end Unechoed

/-- Of the keys that are not echoed, those whose function does something are not taken
literally. -/
theorem harmless_of_literal (hecho : k.echo = false) (h0 : 0 ≤ tw.kblen)
    (hfull : tw.kblen ≠ MAXKB)
    (hlonger : (handleKey k ascii (quoted ascii tw)).kblen = tw.kblen+1)
    (hstored : (handleKey k ascii (quoted ascii tw)).contents = tw.contents ++ [ascii])
    (hquiet : ∃ echoed : List (List UInt8),
      (handleKey k ascii (quoted ascii tw)).calls = tw.calls ++ echoed.map Call.parse)
    (hfinished : (handleKey k ascii (quoted ascii tw)).litNext = false) : Harmless k ascii := by
  have hshort := quoted_short ascii tw
  have hlen := quoted_kblen ascii tw
  have hcalls : (quoted ascii tw).calls = tw.calls := by rw [quoted_eq hfull]
  have hempty : ∀ x : WindRec, x.kblen ≤ 0 → x.kblen ≠ tw.kblen+1 := fun x hx => by omega
  have hword := @quoted_eraseWord k ascii tw hecho
  rw [if_neg hfull] at hlen
  rw [handleKey] at hlonger hquiet hfinished
  cases hm : meaning k ascii with
  | signal which command =>
    rw [hm] at hlonger
    exact absurd hlonger (hempty _ (Int.le_of_eq (sendSignal_same k which command _).1))
  | softTab => exact .inr (.inl ⟨hm, quoted_softTab hecho hm hstored⟩)
  | sendLine =>
    rw [hm] at hlonger
    dsimp only at hlonger
    rw [echo_off hecho] at hlonger
    exact absurd hlonger (hempty _ (Int.le_of_eq (kbflush_kblen _)))
  | eraseChar =>
    rw [hm] at hlonger
    dsimp only at hlonger
    rw [eraseOne_kblen, hlen] at hlonger
    exact absurd hlonger (short_pred_ne _)
  | eraseLine =>
    rw [hm] at hlonger
    exact absurd hlonger (hempty _ (eraseLine_kblen k _ hshort (by omega)))
  | endOfFile =>
    rw [hm] at hlonger
    exact absurd hlonger (hempty _ (Int.le_of_eq (kbflush_kblen _)))
  | eraseWord => exact .inr (.inr ⟨hm, hword hm h0 hfull (by rw [handleKey]; exact hlonger)⟩)
  | redrawLine =>
    rw [hm] at hquiet
    exact (only_echoes tw.calls (List.mem_singleton_self .VSredrawLine)
      (fun _ => Call.noConfusion) (hcalls ▸ hquiet)).elim
  | quote =>
    rw [hm] at hfinished
    exact absurd hfinished.symm Bool.false_ne_true
  | xon =>
    refine .inl ⟨.inl hm, fun hflow => ?_⟩
    rw [hm] at hquiet
    dsimp only at hquiet
    rw [if_pos hflow] at hquiet
    exact only_echoes tw.calls (List.mem_singleton_self .changeport)
      (fun _ => Call.noConfusion) (hcalls ▸ hquiet)
  | xoff =>
    refine .inl ⟨.inr hm, fun hflow => ?_⟩
    rw [hm] at hquiet
    dsimp only at hquiet
    rw [if_pos hflow] at hquiet
    exact only_echoes tw.calls (List.mem_singleton_self .changeport)
      (fun _ => Call.noConfusion) (hcalls ▸ hquiet)
  | forward =>
    rw [hm] at hlonger
    exact absurd hlonger (hempty _ (Int.le_of_eq (kbflush_kblen _)))
  | store =>
    -- the key is stored a second time
    rw [hm] at hlonger
    dsimp only at hlonger
    rw [localEcho_off hecho, kbwrite, List.foldl_cons, List.foldl_nil, kbwriteChar_kblen,
      hlen] at hlonger
    split_ifs at hlonger with hsecond
    · have hzero : tw.kblen = 0 := by omega
      rw [hzero] at hsecond
      exact absurd hsecond (by decide)
    · exact absurd hlonger (short_twice_ne _)
  | newline =>
    rw [hm] at hquiet
    dsimp only at hquiet
    rw [echo_off hecho] at hquiet
    exact (@only_echoes .netpush tw.calls [.netpush, .netwrite [13, 0]] List.mem_cons_self
      (fun _ => Call.noConfusion) (hcalls ▸ hquiet)).elim
  | send =>
    rw [hm] at hquiet
    dsimp only at hquiet
    rw [localEcho_off hecho] at hquiet
    exact (@only_echoes .netpush tw.calls [.netpush, .netwrite [ascii]] List.mem_cons_self
      (fun _ => Call.noConfusion) (hcalls ▸ hquiet)).elim

/-- A key whose function does nothing leaves what was stored. -/
theorem handleKey_harmless (hecho : k.echo = false) (h : Harmless k ascii)
    (hlast : t.kbbuf (t.kblen-1) = ascii) : ∃ reads,
    handleKey k ascii t = { t with reads := reads } := by
  rw [handleKey]
  rcases h with ⟨hm | hm, hflow⟩ | ⟨hm, htab⟩ | ⟨hm, hblank⟩
  · rw [hm]
    exact ⟨t.reads, if_neg hflow⟩
  · rw [hm]
    exact ⟨t.reads, if_neg hflow⟩
  · have hnone : k.tabDistance.toNat = 0 := by omega
    rw [hm]
    dsimp only
    rw [echo_off hecho, hnone]
    exact ⟨t.reads, rfl⟩
  · rw [hm]
    dsimp only
    rw [localEcho_off hecho, eraseWord, if_neg (fun hmore => hmore.1 (hlast.trans hblank))]
    exact ⟨_, rfl⟩

/-- The state after both keys. -/
theorem process_both (hwaits : process_key k (k.slc .LNEXT) tw = { tw with litNext := true }) :
    process_key k ascii (process_key k (k.slc .LNEXT) tw) =
      if k.echo then
        if printable ascii then (quoted ascii tw).call [.parse [ascii]] else quoted ascii tw
      else handleKey k ascii (quoted ascii tw) := by
  rw [hwaits]
  exact process_quoted k ascii rfl

/-- Where that is fine the next key is taken literally. -/
theorem literal_of_fine (h : LiteralFine x k ascii tw) : TakenLiterally x k ascii tw := by
  obtain ⟨hlit, hquote, ⟨h0, hroom⟩, hkey⟩ := h
  have h256 : tw.kblen < 256 := hroom
  have hfull : tw.kblen ≠ MAXKB := Int.ne_of_lt hroom
  have hwaits := waits_iff.mpr ⟨hlit, hquote⟩
  have hboth := @process_both k ascii tw hwaits
  have hcontents : (quoted ascii tw).contents = tw.contents ++ [ascii] := by
    rw [quoted_eq hfull]
    exact @store_contents { tw with litNext := false } h0 (by change tw.kblen < 32767; omega) ascii
  have hlen : (quoted ascii tw).kblen = tw.kblen+1 := by
    rw [quoted_kblen, if_neg hfull, short_eq (by omega) (by omega)]
  -- both with the echo and without it the state is that of the stored key
  obtain ⟨reads, echoed, hfinal, hsilent⟩ : ∃ reads, ∃ echoed : List UInt8,
      process_key k ascii (process_key k (k.slc .LNEXT) tw) =
        { (quoted ascii tw).call (echoed.map fun c => Call.parse [c]) with reads := reads } ∧
      ∀ c ∈ echoed, x.Silent (tw.contents ++ [ascii]) c := by
    rw [hboth]
    cases hecho : k.echo with
    | true =>
      rw [if_pos hecho] at hkey
      rw [if_pos rfl]
      split_ifs with hshown
      · refine ⟨_, [ascii], rfl, fun c hc => ?_⟩
        rw [List.mem_singleton.mp hc]
        exact (Session.silent_iff _ hshown).mpr (hkey hshown)
      · refine ⟨(quoted ascii tw).reads, [], ?_, fun c hc => absurd hc List.not_mem_nil⟩
        rw [WindRec.call, List.map_nil, List.append_nil]
    | false =>
      rw [if_neg (by rw [hecho]; exact Bool.false_ne_true)] at hkey
      rw [if_neg Bool.false_ne_true]
      have hlast : (quoted ascii tw).kbbuf ((quoted ascii tw).kblen-1) = ascii := by
        have hplace : tw.kblen+1-1 = tw.kblen := by omega
        rw [hlen, hplace, quoted_eq hfull]
        exact Function.update_self ..
      obtain ⟨reads, hkept⟩ := handleKey_harmless hecho hkey hlast
      refine ⟨reads, [], ?_, fun c hc => absurd hc List.not_mem_nil⟩
      rw [hkept, WindRec.call, List.map_nil, List.append_nil]
  refine ⟨hwaits, ?_, ?_, ?_, ⟨echoed, ?_, hsilent⟩, ?_, ?_⟩
  · rw [hfinal]
    exact hlen
  · rw [hfinal]
    change (quoted ascii tw).kblen ≤ 256
    omega
  · rw [hfinal]
    exact hcontents
  · rw [hfinal, quoted_eq hfull]
    rfl
  · rw [hfinal, quoted_eq hfull]
    rfl
  · rw [hfinal, quoted_eq hfull]
    exact ⟨rfl, rfl⟩

/-- The echoes are calls of `parse`. -/
theorem TakenLiterally.echoes (h : TakenLiterally x k ascii tw) : ∃ echoed : List (List UInt8),
    (process_key k ascii (process_key k (k.slc .LNEXT) tw)).calls =
      tw.calls ++ echoed.map Call.parse := by
  obtain ⟨echoed, hcalls, -⟩ := h.quiet
  refine ⟨echoed.map fun c => [c], ?_⟩
  rw [hcalls, List.map_map]
  rfl

/-- The next key is taken literally just where that is fine. -/
theorem literal_next_iff : TakenLiterally x k ascii tw ↔ LiteralFine x k ascii tw := by
  refine ⟨fun h => ?_, literal_of_fine⟩
  obtain ⟨hlit, hquote⟩ := waits_iff.mp h.waits
  have hboth := @process_both k ascii tw h.waits
  have hroom : tw.kblen < MAXKB := by
    have hlonger := h.longer
    have hfits := h.fits
    omega
  have hfull : tw.kblen ≠ MAXKB := Int.ne_of_lt hroom
  have h0 : 0 ≤ tw.kblen := by
    have hlen := congrArg List.length h.stored
    rw [List.length_append, List.length_singleton, WindRec.contents, WindRec.contents,
      List.length_map, List.length_map, List.length_range, List.length_range, h.longer] at hlen
    omega
  refine ⟨hlit, hquote, ⟨h0, hroom⟩, ?_⟩
  cases hecho : k.echo with
  | true =>
    rw [if_pos rfl]
    intro hshown
    obtain ⟨echoed, hcalls, hsilent⟩ := h.quiet
    have hone : (process_key k ascii (process_key k (k.slc .LNEXT) tw)).calls =
        tw.calls ++ [Call.parse [ascii]] := by
      rw [hboth, if_pos hecho, if_pos hshown, quoted_eq hfull]
      rfl
    rw [hone] at hcalls
    have hsame := List.append_cancel_left hcalls
    -- the one echo is that of the key
    have hmem : Call.parse [ascii] ∈ echoed.map fun c => Call.parse [c] :=
      hsame ▸ List.mem_singleton_self _
    obtain ⟨c, hc, heq⟩ := List.mem_map.mp hmem
    obtain rfl : c = ascii := by
      injection heq with hbytes
      exact (List.cons.inj hbytes).1
    exact (Session.silent_iff _ hshown).mp (hsilent c hc)
  | false =>
    rw [if_neg Bool.false_ne_true]
    rw [if_neg (by rw [hecho]; exact Bool.false_ne_true)] at hboth
    exact harmless_of_literal hecho h0 hfull (hboth ▸ h.longer) (hboth ▸ h.stored)
      (hboth ▸ h.echoes) (hboth ▸ h.finished)

end Quoting

/-- Typing control-V and then an `a`, without an echo. -/
def unechoed : Setting where
  slc c := if c = .LNEXT then 22 else 255
  slcLevel _ := 0
  lmodeBits := L_EDIT
  echo := false
  allow_flow := false
  tabDistance := 8

/-- A new session. -/
def newSession : Session Unit where
  host := Telnet.plainHost
  beyond := 0
  tel := Telnet.newConnection Telnet.plainSession
  before := 0
  emu := newEmulation none (threeRowsFull 0)
  launched _ := false
  otp := Otp.fresh

/-- The key is stored twice. -/
theorem quoted_key_twice : ¬TakenLiterally newSession unechoed 97 lineStart := by
  intro h
  have hlonger := h.longer
  revert hlonger
  decide

end Linemode
