import MacSSH.Console
import Mathlib.Tactic.SplitIfs

/-! The input of an ssh session. What the program writes to its connection is what
the session's thread reads from its terminal, unless a local connection is served
just after some of it was taken from the buffer. -/
namespace Console

/-- The session's input and the two threads: `netwriter` is what a waiting call of
`netwrite` has still to write, `reader` the count that a waiting call of
`ReadCharsFromTTY` asks for and what it has copied, `passed` what was passed to
`netwrite` in all and `returned` what `ReadCharsFromTTY` has returned of it. -/
structure Input where
  context : Lshcontext
  netwriter : Option (List UInt8)
  reader : Option (ℕ × List UInt8)
  passed : List UInt8
  returned : List UInt8

/-- What the reading thread has taken from the buffer and not returned yet. -/
def Input.held (s : Input) : List UInt8 := (s.reader.map Prod.snd).getD []

/-- The steps of the threads. Other threads of the session may accept a local
connection, or lose it. -/
inductive InputStep where
  | write (buffer : List UInt8)
  | resumeWrite
  | read (n : ℕ)
  | resumeRead (waiting : Option Connection) (received : List UInt8)
  | accept (conn : Connection)
  | hangUp
  | eof

/-- A thread goes on with the call it is in before it makes the next one. -/
def InputStep.Enabled : InputStep → Input → Prop
  | write _, s => s.netwriter = none
  | resumeWrite, s => s.netwriter ≠ none
  | read _, s => s.reader = none
  | resumeRead .., s => s.reader ≠ none
  | _, _ => True

/-- The state after a part of a call of `ReadCharsFromTTY`. -/
def Input.afterRead (s : Input) (c : Lshcontext) (r : Reader) (console : Bool) : Input :=
  match r with
  | .returned buffer =>
    { s with
      context := c
      reader := none
      returned := if console then s.returned ++ buffer else s.returned }
  | .waiting n buffer => { s with context := c, reader := some (n, buffer) }

def Input.step (s : Input) : InputStep → Input
  | .write buffer =>
    let r := netwrite s.context buffer
    { s with context := r.1, netwriter := r.2, passed := s.passed ++ buffer }
  | .resumeWrite =>
    let r := netwrite s.context (s.netwriter.getD [])
    { s with context := r.1, netwriter := r.2 }
  | .read n =>
    let r := ReadCharsFromTTY s.context n
    s.afterRead r.1 r.2 true
  | .resumeRead waiting received =>
    let r := readResume s.context ((s.reader.map Prod.fst).getD 0) s.held waiting received
    s.afterRead r.1 r.2.1 r.2.2
  | .accept conn => { s with context := check_listener s.context (some conn) }
  | .hangUp => { s with context := { s.context with socket := -1 } }
  | .eof => { s with context := { s.context with gConsoleInEOF := true } }

/-- A reading thread that has taken console input finds no local connection when it
goes on. -/
def InputStep.Keeps : InputStep → Input → Prop
  | resumeRead waiting _, s =>
    s.held = [] ∨ s.context.listener = -1 ∨ (check_listener s.context waiting).socket = -1
  | _, _ => True

/-- A session, with a local listener or none, after any steps that each meet `P`. -/
inductive InputRun (P : InputStep → Input → Prop) : Input → Prop
  | start (port listener : Int) (inBuf outBuf : ℕ → UInt8) :
      InputRun P ⟨{ init_context port inBuf outBuf with listener := listener }, none, none, [], []⟩
  | step {s : Input} (t : InputStep) : InputRun P s → t.Enabled s → P t s → InputRun P (s.step t)

/-- What was returned, what the reading thread holds, what is in the buffer and what
`netwrite` has still to write are in this order the bytes passed to it. -/
structure InputFifo (s : Input) : Prop where
  order : s.returned ++ s.held ++ s.context.gConsoleIn.contents ++ s.netwriter.getD [] = s.passed
  bounds : 0 ≤ s.context.gConsoleIn.len ∧ s.context.gConsoleIn.len ≤ s.context.gConsoleInBufMax

section Calls
variable {c : Lshcontext}

/-- A part of a call that leaves the input buffer alone. -/
structure SameInput (c c' : Lshcontext) : Prop where
  gConsoleIn : c'.gConsoleIn = c.gConsoleIn
  max : c'.gConsoleInBufMax = c.gConsoleInBufMax

theorem check_listener_same (c : Lshcontext) (waiting : Option Connection) :
    SameInput c (check_listener c waiting) := by
  cases waiting with
  | none =>
    simp only [check_listener]
    split_ifs <;> exact ⟨rfl, rfl⟩
  | some conn =>
    simp only [check_listener, accept_call]
    split_ifs <;> exact ⟨rfl, rfl⟩

theorem read_local_socket_same (c : Lshcontext) (received : List UInt8) (n : ℕ) :
    SameInput c (read_local_socket c received n).2 := by
  simp only [read_local_socket]
  split_ifs <;> exact ⟨rfl, rfl⟩

theorem SameInput.trans {c c' c'' : Lshcontext} (h : SameInput c c') (h' : SameInput c' c'') :
    SameInput c c'' :=
  ⟨h'.gConsoleIn.trans h.gConsoleIn, h'.max.trans h.max⟩

/-- What writing does: the buffer gets the bytes that are not left. -/
theorem netwriteLoop_spec (fuel : ℕ) (buffer : List UInt8)
    (hb : 0 ≤ c.gConsoleIn.len ∧ c.gConsoleIn.len ≤ c.gConsoleInBufMax) :
    ∃ b : ShiftBuffer UInt8, (netwriteLoop fuel c buffer).1 = { c with gConsoleIn := b } ∧
      b.contents ++ (netwriteLoop fuel c buffer).2.getD [] = c.gConsoleIn.contents ++ buffer ∧
      0 ≤ b.len ∧ b.len ≤ c.gConsoleInBufMax := by
  induction fuel generalizing c buffer with
  | zero => exact ⟨c.gConsoleIn, rfl, rfl, hb⟩
  | succ fuel ih =>
    simp only [netwriteLoop]
    by_cases hnil : buffer = []
    · rw [if_pos hnil, hnil]
      exact ⟨c.gConsoleIn, rfl, rfl, hb⟩
    rw [if_neg hnil]
    by_cases hroom : c.gConsoleInBufMax-c.gConsoleIn.len > 0
    · rw [if_pos hroom]
      have hlen : ((if (buffer.length : Int) > c.gConsoleInBufMax-c.gConsoleIn.len
          then (c.gConsoleInBufMax-c.gConsoleIn.len).toNat else buffer.length : ℕ) : Int) ≤
            c.gConsoleInBufMax-c.gConsoleIn.len := by
        split_ifs <;> omega
      generalize (if (buffer.length : Int) > c.gConsoleInBufMax-c.gConsoleIn.len
          then (c.gConsoleInBufMax-c.gConsoleIn.len).toNat else buffer.length) = len at hlen ⊢
      have hcount : ((buffer.take len).length : Int) ≤ len := by
        rw [List.length_take]
        omega
      have hnew : (c.gConsoleIn.append (buffer.take len)).len =
          c.gConsoleIn.len+(buffer.take len).length := rfl
      have hb' : 0 ≤ (c.gConsoleIn.append (buffer.take len)).len ∧
          (c.gConsoleIn.append (buffer.take len)).len ≤ c.gConsoleInBufMax := by
        rw [hnew]
        omega
      obtain ⟨b, hctx, hcont, hbounds⟩ := @ih
        { c with gConsoleIn := c.gConsoleIn.append (buffer.take len) } (buffer.drop len) hb'
      refine ⟨b, hctx, ?_, hbounds⟩
      rw [hcont]
      simp only
      rw [ShiftBuffer.contents_append _ _ hb.1, List.append_assoc, List.take_append_drop]
    · rw [if_neg hroom]
      exact ⟨c.gConsoleIn, rfl, rfl, hb⟩

/-- What a turn of the reading loop does first: it takes bytes from the front of the
buffer, or none. -/
theorem readTurn_spec (n : ℕ)
    (hb : 0 ≤ c.gConsoleIn.len ∧ c.gConsoleIn.len ≤ c.gConsoleInBufMax) :
    ∃ (b : ShiftBuffer UInt8) (l : List UInt8), (readTurn c n).1 = { c with gConsoleIn := b } ∧
      ((readTurn c n).2 = .waiting n l ∨ (l = [] ∧ (readTurn c n).2 = .returned [])) ∧
      l ++ b.contents = c.gConsoleIn.contents ∧ (c.socket ≠ -1 → l = []) ∧
      0 ≤ b.len ∧ b.len ≤ c.gConsoleInBufMax := by
  simp only [readTurn]
  by_cases htake : c.gConsoleIn.len ≠ 0 ∧ c.socket = -1
  · rw [if_pos htake]
    have hk : 0 ≤ (if c.gConsoleIn.len > n then (n : Int) else c.gConsoleIn.len) ∧
        (if c.gConsoleIn.len > n then (n : Int) else c.gConsoleIn.len) ≤ c.gConsoleIn.len := by
      split_ifs <;> omega
    generalize (if c.gConsoleIn.len > n then (n : Int) else c.gConsoleIn.len) = k at hk ⊢
    refine ⟨c.gConsoleIn.removeFront k, _, rfl, Or.inl rfl, ?_, fun h => absurd htake.2 h, ?_⟩
    · rw [ShiftBuffer.contents_removeFront _ hk.1, ShiftBuffer.map_data _ (by omega),
        List.take_append_drop]
    · change 0 ≤ c.gConsoleIn.len-k ∧ c.gConsoleIn.len-k ≤ _
      omega
  · rw [if_neg htake]
    split_ifs
    · exact ⟨c.gConsoleIn, [], rfl, Or.inr ⟨rfl, rfl⟩, rfl, fun _ => rfl, hb⟩
    · exact ⟨c.gConsoleIn, [], rfl, Or.inl rfl, rfl, fun _ => rfl, hb⟩

/-- What a part of a call of `ReadCharsFromTTY` makes of the bytes `kept` and of
those in the buffer: it waits with some, or returns. -/
structure ReadOn (c : Lshcontext) (n : ℕ) (kept : List UInt8) (r : Lshcontext × Reader × Bool) :
    Prop where
  bounds : 0 ≤ r.1.gConsoleIn.len ∧ r.1.gConsoleIn.len ≤ r.1.gConsoleInBufMax
  max : r.1.gConsoleInBufMax = c.gConsoleInBufMax
  order : (∃ l, r.2.1 = .waiting n l ∧ kept = [] ∧
      l ++ r.1.gConsoleIn.contents = c.gConsoleIn.contents) ∨
    ∃ l, r.2.1 = .returned l ∧ (if r.2.2 then l else []) = kept ∧
      r.1.gConsoleIn.contents = c.gConsoleIn.contents

theorem readTurn_readOn (n : ℕ)
    (hb : 0 ≤ c.gConsoleIn.len ∧ c.gConsoleIn.len ≤ c.gConsoleInBufMax) :
    ReadOn c n [] ((readTurn c n).1, (readTurn c n).2, true) := by
  obtain ⟨b, l, hctx, hr, hcont, -, hbounds⟩ := readTurn_spec n hb
  rw [hctx]
  refine ⟨hbounds, rfl, ?_⟩
  rcases hr with hr | ⟨rfl, hr⟩
  · exact Or.inl ⟨l, hr, rfl, hcont⟩
  · exact Or.inr ⟨[], hr, rfl, hcont⟩

theorem readAgain_readOn (n : ℕ) (buffer : List UInt8) (console : Bool)
    (hb : 0 ≤ c.gConsoleIn.len ∧ c.gConsoleIn.len ≤ c.gConsoleInBufMax) :
    ReadOn c n (if console then buffer else []) (readAgain c n buffer console) := by
  rw [readAgain]
  by_cases hnil : buffer = []
  · rw [if_pos hnil, hnil, ite_self]
    exact readTurn_readOn n hb
  · rw [if_neg hnil]
    exact ⟨hb, rfl, Or.inr ⟨buffer, rfl, rfl, rfl⟩⟩

theorem ReadOn.of_same {c' : Lshcontext} {n : ℕ} {kept : List UInt8}
    {r : Lshcontext × Reader × Bool} (hs : SameInput c c') (h : ReadOn c' n kept r) :
    ReadOn c n kept r := by
  refine ⟨h.bounds, h.max.trans hs.max, ?_⟩
  have ho := h.order
  rw [hs.gConsoleIn] at ho
  exact ho

/-- What a resumed call comes to: the bytes it holds are lost when a local connection
is served. -/
theorem readResume_readOn (n : ℕ) (held : List UInt8) (waiting : Option Connection)
    (received : List UInt8)
    (hb : 0 ≤ c.gConsoleIn.len ∧ c.gConsoleIn.len ≤ c.gConsoleInBufMax) :
    ReadOn c n (if c.listener = -1 ∨ (check_listener c waiting).socket = -1 then held else [])
      (readResume c n held waiting received) := by
  have hl := check_listener_same c waiting
  have hb' : 0 ≤ (check_listener c waiting).gConsoleIn.len ∧
      (check_listener c waiting).gConsoleIn.len ≤ (check_listener c waiting).gConsoleInBufMax := by
    rw [hl.gConsoleIn, hl.max]
    exact hb
  simp only [readResume]
  generalize check_listener c waiting = c' at hl hb' ⊢
  by_cases hlis : c.listener = -1
  · rw [if_pos (Or.inl hlis), if_neg (not_not.mpr hlis)]
    exact readAgain_readOn n held true hb
  rw [if_pos hlis]
  by_cases hsock : c'.socket = -1
  · rw [if_pos (Or.inr hsock), if_neg (not_not.mpr hsock)]
    exact (readAgain_readOn n held true hb').of_same hl
  · have hnone : ¬(c.listener = -1 ∨ c'.socket = -1) := by
      rintro (h | h)
      · exact hlis h
      · exact hsock h
    rw [if_neg hnone, if_pos hsock]
    have hr := hl.trans (read_local_socket_same c' received n)
    generalize read_local_socket c' received n = r at hr ⊢
    have hb'' : 0 ≤ r.2.gConsoleIn.len ∧ r.2.gConsoleIn.len ≤ r.2.gConsoleInBufMax := by
      rw [hr.gConsoleIn, hr.max]
      exact hb
    split_ifs
    · exact ReadOn.of_same hr ⟨hb'', rfl, Or.inr ⟨[], rfl, rfl, rfl⟩⟩
    · exact (readAgain_readOn n r.1 false hb'').of_same hr

end Calls

section Steps
variable {s : Input}

/-- The state after a part of a call that kept the bytes `kept` of those held. -/
theorem afterRead_fifo {n : ℕ} {kept : List UInt8} {r : Lshcontext × Reader × Bool}
    (h : ReadOn s.context n kept r) :
    InputFifo (s.afterRead r.1 r.2.1 r.2.2) ↔
      s.returned ++ kept ++ s.context.gConsoleIn.contents ++ s.netwriter.getD [] = s.passed := by
  obtain ⟨c, reader, console⟩ := r
  rcases h.order with ⟨l, hr, hkept, hcont⟩ | ⟨l, hr, hkept, hcont⟩
  · simp only at hr hcont
    subst hr
    rw [hkept, List.append_nil, ← hcont, ← List.append_assoc]
    exact ⟨fun hf => hf.order, fun ho => ⟨ho, h.bounds⟩⟩
  · simp only at hr hcont hkept
    subst hr
    have hret : (if console = true then s.returned ++ l else s.returned) = s.returned ++ kept := by
      rw [← hkept]
      cases console with
      | true => rfl
      | false => exact (List.append_nil _).symm
    constructor
    · intro hf
      have ho := hf.order
      simp only [Input.afterRead, Input.held, Option.map_none, Option.getD_none, List.append_nil,
        hret, hcont] at ho
      exact ho
    · intro ho
      refine ⟨?_, h.bounds⟩
      simp only [Input.afterRead, Input.held, Option.map_none, Option.getD_none, List.append_nil,
        hret, hcont]
      exact ho

/-- Exactly the steps that keep what a reading thread holds keep the order. -/
theorem InputFifo.step_iff (h : InputFifo s) (t : InputStep) (ht : t.Enabled s) :
    InputFifo (s.step t) ↔ t.Keeps s := by
  have horder := h.order
  cases t with
  | write buffer =>
    have hidle : s.netwriter = none := ht
    rw [hidle, Option.getD_none, List.append_nil] at horder
    obtain ⟨b, hctx, hcont, hbounds⟩ := netwriteLoop_spec (buffer.length+1) buffer h.bounds
    refine iff_of_true ?_ trivial
    simp only [Input.step, netwrite]
    rw [hctx]
    refine ⟨?_, hbounds⟩
    simp only [Input.held] at horder ⊢
    rw [List.append_assoc _ b.contents, hcont, ← horder, ← List.append_assoc]
  | resumeWrite =>
    obtain ⟨b, hctx, hcont, hbounds⟩ := netwriteLoop_spec ((s.netwriter.getD []).length+1)
      (s.netwriter.getD []) h.bounds
    refine iff_of_true ?_ trivial
    simp only [Input.step, netwrite]
    rw [hctx]
    refine ⟨?_, hbounds⟩
    simp only [Input.held] at horder ⊢
    rw [List.append_assoc _ b.contents, hcont, ← horder, ← List.append_assoc]
  | read n =>
    have hidle : s.reader = none := ht
    have hheld : s.held = [] := by
      rw [Input.held, hidle]
      rfl
    rw [hheld] at horder
    refine iff_of_true ?_ trivial
    have hr : ReadOn s.context n [] ((ReadCharsFromTTY s.context n).1,
        (ReadCharsFromTTY s.context n).2, true) := by
      rw [ReadCharsFromTTY]
      split_ifs
      · exact readTurn_readOn n h.bounds
      · exact ⟨h.bounds, rfl, Or.inr ⟨[], rfl, rfl, rfl⟩⟩
    exact (afterRead_fifo hr).mpr horder
  | resumeRead waiting received =>
    have hr := readResume_readOn ((s.reader.map Prod.fst).getD 0) s.held waiting received h.bounds
    have hiff := afterRead_fifo hr
    simp only [Input.step]
    rw [hiff, InputStep.Keeps]
    split_ifs with hsafe
    · exact iff_of_true horder (Or.inr hsafe)
    · rw [← horder]
      constructor
      · intro ho
        -- the same bytes with and without those held
        have hlen := congrArg List.length ho
        simp only [List.length_append, List.length_nil] at hlen
        exact Or.inl (List.eq_nil_of_length_eq_zero (by omega))
      · intro hkeep
        rw [hkeep.resolve_right hsafe]
  | accept conn =>
    have hsame := check_listener_same s.context (some conn)
    refine iff_of_true ⟨?_, ?_⟩ trivial
    · simp only [Input.step, hsame.gConsoleIn]
      exact horder
    · simp only [Input.step, hsame.gConsoleIn, hsame.max]
      exact h.bounds
  | hangUp => exact iff_of_true ⟨horder, h.bounds⟩ trivial
  | eof => exact iff_of_true ⟨horder, h.bounds⟩ trivial

theorem input_fifo_run (h : InputRun InputStep.Keeps s) : InputFifo s := by
  induction h with
  | start port listener inBuf outBuf =>
    have hroom : (0 : Int) ≤ CONSOLEBUFSIZE := by decide
    exact ⟨rfl, Int.le_refl 0, hroom⟩
  | step t _ ht hk ih => exact (ih.step_iff t ht).mpr hk

end Steps

/-- While no local connection is served just after console input was taken, the
input is first in first out; and a step that does serve one loses that input. -/
theorem console_input_fifo_iff (s : Input) (h : InputRun InputStep.Keeps s) :
    InputFifo s ∧ ∀ t : InputStep, t.Enabled s → (InputFifo (s.step t) ↔ t.Keeps s) := by
  have hf := input_fifo_run h
  exact ⟨hf, fun t ht => hf.step_iff t ht⟩

/-- A new session with a local listener. -/
def newInput : Input :=
  ⟨{ init_context 1 (fun _ => 0) fun _ => 0 with listener := 5 }, none, none, [], []⟩

/-- A session whose thread has taken a typed byte and waits. -/
def heldInput : Input := (newInput.step (.write [65])).step (.read 10)

theorem heldInput_run : InputRun InputStep.Keeps heldInput := by
  have hnew : InputRun InputStep.Keeps newInput := InputRun.start 1 5 (fun _ => 0) fun _ => 0
  have hwrote := InputRun.step (.write [65]) hnew rfl trivial
  exact InputRun.step (.read 10) hwrote rfl trivial

theorem heldInput_waits : heldInput.reader ≠ none := by decide

/-- No connection waits when the thread goes on. -/
theorem console_input_one_byte : InputFifo (heldInput.step (.resumeRead none [])) := by
  have hiff := (console_input_fifo_iff heldInput heldInput_run).2 (.resumeRead none [])
    heldInput_waits
  exact hiff.mpr (Or.inr (Or.inr (by decide)))

/-- A connection that is accepted when the thread goes on: the typed byte is lost. -/
theorem accepted_connection_loses_input :
    ∃ s, InputRun (fun _ _ => True) s ∧
      s = heldInput.step (.resumeRead (some ⟨7, true⟩) [66]) ∧ ¬InputFifo s := by
  have hnew : InputRun (fun _ _ => True) newInput := InputRun.start 1 5 (fun _ => 0) fun _ => 0
  have hwrote := InputRun.step (.write [65]) hnew rfl trivial
  have hheld := InputRun.step (.read 10) hwrote rfl trivial
  refine ⟨_, InputRun.step (.resumeRead (some ⟨7, true⟩) [66]) hheld heldInput_waits trivial,
    rfl, ?_⟩
  intro h
  exact absurd h.order (by decide)

end Console
