import MacSSH.ConsoleInput

/-! The connection that a session's local listener has accepted: its stream opens with four
lines for an rcmd server that is not there, each ended by a NUL. They are taken out and
answered with one byte, and what is behind them is passed on to the session. -/
namespace Console

namespace Forwarding

/-- The loop over the lines, from the byte at `i` on: the index it stops at, the lines still
to come, and what has been written to the socket. -/
def rcmdLoop : List UInt8 → ℕ → ℕ → List UInt8 → ℕ × ℕ × List UInt8
  | [], i, line, written => (i, line, written)
  | b :: bytes, i, line, written =>
    if line ≠ 0 then
    -- a NUL ends a line
      let line := if b = 0 then line-1 else line
    -- behind the last line, the rcmd server's answer
      let written := if line = 0 then written ++ [0] else written
      rcmdLoop bytes (i+1) line written
    else (i, line, written)

/-- What a call leaves in the buffer of its caller and writes to the socket. -/
structure LocalRead where
  passed : List UInt8
  written : List UInt8
  context : Lshcontext

def read_local_socket (c : Lshcontext) (received : List UInt8) (n : ℕ) : LocalRead :=
  if c.socket ≠ -1 then
    let buffer := received.take n
    -- the peer has closed the connection
    if buffer = [] then ⟨[], [], { c with socket := -1 }⟩
    else if c.rcmdline ≠ 0 then
      let r := rcmdLoop buffer 0 c.rcmdline []
      ⟨buffer.drop r.1, r.2.2, { c with rcmdline := r.2.1 }⟩
    else ⟨buffer, [], c⟩
  else ⟨[], [], c⟩

section Loop

theorem rcmdLoop_done (bytes : List UInt8) (i : ℕ) (written : List UInt8) :
    rcmdLoop bytes i 0 written = (i, 0, written) := by
  cases bytes <;> rfl

/-- Too few lines: all of the bytes belong to them, and there is no answer yet. -/
theorem rcmdLoop_within (bytes : List UInt8) (i line : ℕ) (written : List UInt8)
    (h : bytes.count 0 < line) :
    rcmdLoop bytes i line written = (i+bytes.length, line-bytes.count 0, written) := by
  induction bytes generalizing i line with
  | nil => rfl
  | cons b bytes ih =>
    rw [rcmdLoop, if_pos (by omega)]
    by_cases hb : b = 0
    · subst hb
      rw [List.count_cons_self] at h ⊢
      -- a NUL counts for the lines and for the bytes
      have hindex : i+1+bytes.length = i+(bytes.length+1) := by omega
      have hlines : line-1-bytes.count 0 = line-(bytes.count 0+1) := by omega
      simp only [if_true]
      rw [if_neg (by omega), ih _ _ (by omega), List.length_cons, hindex, hlines]
    · rw [List.count_cons_of_ne hb] at h ⊢
      simp only [if_neg hb]
      rw [if_neg (by omega), ih _ _ h, List.length_cons]
      congr 1
      omega

/-- The last line ends inside: the index is one behind its NUL, and the answer is written. -/
theorem rcmdLoop_through (lines rest : List UInt8) (i line : ℕ) (written : List UInt8)
    (h : lines.count 0+1 = line) :
    rcmdLoop (lines ++ 0 :: rest) i line written = (i+lines.length+1, 0, written ++ [0]) := by
  induction lines generalizing i line with
  | nil =>
    -- the NUL at hand is the last: the rest is not looked at
    have hline : line = 1 := by simpa using h.symm
    subst hline
    rw [List.nil_append, rcmdLoop, if_pos (by decide)]
    exact rcmdLoop_done rest (i+1) (written ++ [0])
  | cons b lines ih =>
    rw [List.cons_append, rcmdLoop, if_pos (by omega)]
    by_cases hb : b = 0
    · subst hb
      rw [List.count_cons_self] at h
      simp only [if_true]
      rw [if_neg (by omega), ih _ _ (by omega), List.length_cons]
      congr 1
      omega
    · rw [List.count_cons_of_ne hb] at h
      simp only [if_neg hb]
      rw [if_neg (by omega), ih _ _ h, List.length_cons]
      congr 1
      omega

/-- Bytes with enough NULs fall apart at the one that ends the last line. -/
theorem exists_lines {bytes : List UInt8} {k : ℕ} (h : k < bytes.count 0) :
    ∃ lines rest, bytes = lines ++ 0 :: rest ∧ lines.count 0 = k := by
  induction bytes generalizing k with
  | nil => simp at h
  | cons b bytes ih =>
    by_cases hb : b = 0
    · subst hb
      rw [List.count_cons_self] at h
      cases k with
      | zero => exact ⟨[], bytes, rfl, rfl⟩
      | succ k =>
        obtain ⟨lines, rest, rfl, hcount⟩ := ih (Nat.lt_of_succ_lt_succ h)
        exact ⟨0 :: lines, rest, rfl, by rw [List.count_cons_self, hcount]⟩
    · rw [List.count_cons_of_ne hb] at h
      obtain ⟨lines, rest, rfl, hcount⟩ := ih h
      exact ⟨b :: lines, rest, rfl, by rw [List.count_cons_of_ne hb, hcount]⟩

/-- They do so in one way only. -/
theorem lines_unique {lines rest lines' rest' : List UInt8}
    (h : lines ++ 0 :: rest = lines' ++ 0 :: rest') (hcount : lines.count 0 = lines'.count 0) :
    rest = rest' := by
  induction lines generalizing lines' with
  | nil =>
    cases lines' with
    | nil => exact (List.cons.inj h).2
    | cons b lines' =>
      obtain ⟨rfl, -⟩ := List.cons.inj h
      simp at hcount
  | cons b lines ih =>
    cases lines' with
    | nil =>
      obtain ⟨rfl, -⟩ := List.cons.inj h
      simp at hcount
    | cons b' lines' =>
      obtain ⟨rfl, htail⟩ := List.cons.inj h
      apply ih htail
      by_cases hb : b = 0
      · subst hb
        simpa using hcount
      · rwa [List.count_cons_of_ne hb, List.count_cons_of_ne hb] at hcount

theorem rcmdLines_within (bytes : List UInt8) (line : ℕ) (h : bytes.count 0 < line) :
    rcmdLines bytes line = ([], line-bytes.count 0) := by
  induction bytes generalizing line with
  | nil =>
    obtain ⟨k, rfl⟩ := Nat.exists_eq_succ_of_ne_zero (Nat.ne_of_gt h)
    rfl
  | cons b bytes ih =>
    obtain ⟨k, rfl⟩ := Nat.exists_eq_succ_of_ne_zero (Nat.ne_zero_of_lt h)
    rw [rcmdLines]
    by_cases hb : b = 0
    · subst hb
      rw [List.count_cons_self] at h ⊢
      rw [if_pos rfl, ih _ (Nat.lt_of_succ_lt_succ h), Nat.succ_eq_add_one, Nat.add_sub_add_right]
    · rw [List.count_cons_of_ne hb] at h ⊢
      rw [if_neg hb, ih _ h]

theorem rcmdLines_through (lines rest : List UInt8) :
    rcmdLines (lines ++ 0 :: rest) (lines.count 0+1) = (rest, 0) := by
  induction lines with
  | nil =>
    cases rest <;> rfl
  | cons b lines ih =>
    rw [List.cons_append, rcmdLines]
    by_cases hb : b = 0
    · subst hb
      rw [if_pos rfl, List.count_cons_self, ih]
    · rw [if_neg hb, List.count_cons_of_ne hb, ih]

end Loop

section Calls
variable {c : Lshcontext} {received : List UInt8} {n : ℕ}

/-- The answer aside, the call is the one that the session's threads make. -/
theorem read_local_socket_answerless (c : Lshcontext) (received : List UInt8) (n : ℕ) :
    Console.read_local_socket c received n =
      ((read_local_socket c received n).passed, (read_local_socket c received n).context) := by
  rw [Console.read_local_socket, read_local_socket]
  by_cases hsocket : c.socket ≠ -1
  · simp only [if_pos hsocket]
    by_cases hclosed : received.take n = []
    · simp only [if_pos hclosed]
    · simp only [if_neg hclosed]
      by_cases hline : c.rcmdline = 0
      -- with no line to come both leave the bytes as they are
      · have hlines : rcmdLines (received.take n) 0 = (received.take n, 0) := by
          cases received.take n <;> rfl
        rw [if_neg (not_not.mpr hline), hline, hlines]
        simp only [← hline]
      · simp only [if_pos (show c.rcmdline ≠ 0 from hline)]
        -- the last line ends in these bytes, or it does not
        by_cases hfew : (received.take n).count 0 < c.rcmdline
        · rw [rcmdLoop_within _ _ _ _ hfew, rcmdLines_within _ _ hfew]
          simp
        · obtain ⟨lines, rest, hsplit, hcount⟩ :=
            @exists_lines (received.take n) (c.rcmdline-1) (by omega)
          have hlast : lines.count 0+1 = c.rcmdline := by omega
          rw [hsplit, rcmdLoop_through _ _ _ _ _ hlast, ← hlast, rcmdLines_through]
          simp [List.drop_append]
  · simp only [if_neg hsocket]

end Calls

/-- A connection from its acceptance on: what has come in on it, what the calls have passed
on, and what they have written to it. -/
structure Forward where
  context : Lshcontext
  stream : List UInt8
  passed : List UInt8
  written : List UInt8

/-- A call that reads, or anything else that the session does. -/
inductive ForwardStep where
  | read (received : List UInt8) (n : ℕ)
  | other (c : Lshcontext)

/-- A call asks for some bytes. The rest of the session may lose the connection, but has no
other to put in its place and does not touch the count of lines. -/
def ForwardStep.Enabled : ForwardStep → Forward → Prop
  | read _ n, _ => 0 < n
  | other c, s => (c.socket = s.context.socket ∨ c.socket = -1) ∧ c.rcmdline = s.context.rcmdline

def Forward.step (s : Forward) : ForwardStep → Forward
  | .read received n =>
    let r := read_local_socket s.context received n
    { context := r.context
      stream := if s.context.socket ≠ -1 then s.stream ++ received.take n else s.stream
      passed := s.passed ++ r.passed
      written := s.written ++ r.written }
  | .other c => { s with context := c }

inductive ForwardRun : Forward → Prop
  | accept (c : Lshcontext) (conn : Connection) (hlistener : c.listener ≠ -1)
      (hfree : c.socket = -1) (hsocket : conn.socket ≠ -1) (hwelcome : conn.welcome = true) :
      ForwardRun ⟨accept_call c conn, [], [], []⟩
  | step {s : Forward} (t : ForwardStep) : ForwardRun s → t.Enabled s → ForwardRun (s.step t)

/-- The two parts of a connection's life: some of the four lines are still to come, or what
was passed on is what is behind them. -/
inductive Served (s : Forward) : Prop
  | within (hmore : s.context.rcmdline ≠ 0) (hlines : s.stream.count 0+s.context.rcmdline = 4)
      (hpassed : s.passed = []) (hwritten : s.written = []) : Served s
  | behind (lines : List UInt8) (hdone : s.context.rcmdline = 0) (hlines : lines.count 0 = 3)
      (hstream : s.stream = lines ++ 0 :: s.passed) (hwritten : s.written = [0]) : Served s

section Runs
variable {s : Forward}

theorem Served.read (h : Served s) (received : List UInt8) (n : ℕ) :
    Served (s.step (.read received n)) := by
  rw [Forward.step, read_local_socket]
  by_cases hsocket : s.context.socket ≠ -1
  · simp only [if_pos hsocket]
    by_cases hclosed : received.take n = []
    · simp only [hclosed, if_true, List.append_nil]
      cases h with
      | within hmore hlines hpassed hwritten => exact .within hmore hlines hpassed hwritten
      | behind lines hdone hlines hstream hwritten =>
        exact .behind lines hdone hlines hstream hwritten
    · simp only [if_neg hclosed]
      generalize received.take n = buffer
      cases h with
      | within hmore hlines hpassed hwritten =>
        simp only [if_pos hmore]
        -- the connection leaves its first part when the last line ends in the buffer
        by_cases hfew : buffer.count 0 < s.context.rcmdline
        · rw [rcmdLoop_within _ _ _ _ hfew]
          apply Served.within
          · exact Nat.sub_ne_zero_of_lt hfew
          · rw [List.count_append]
            simp only
            omega
          · simp [hpassed]
          · simp [hwritten]
        · obtain ⟨lines, rest, rfl, hcount⟩ :=
            @exists_lines buffer (s.context.rcmdline-1) (by omega)
          rw [rcmdLoop_through _ _ _ _ _ (show lines.count 0+1 = s.context.rcmdline by omega)]
          -- what came before is a part of the lines too
          apply Served.behind (s.stream ++ lines)
          · rfl
          · rw [List.count_append]
            omega
          · simp [hpassed, List.drop_append]
          · simp [hwritten]
      | behind lines hdone hlines hstream hwritten =>
        simp only [hdone, ne_eq, not_true_eq_false, if_false]
        apply Served.behind lines
        · exact hdone
        · exact hlines
        · rw [hstream, List.append_assoc, List.cons_append]
        · rw [hwritten, List.append_nil]
  · simp only [if_neg hsocket, List.append_nil]
    exact h

theorem Served.step (h : Served s) {t : ForwardStep} (ht : t.Enabled s) : Served (s.step t) := by
  cases t with
  | read received n => exact h.read received n
  | other c =>
    cases h with
    | within hmore hlines hpassed hwritten =>
      apply Served.within
      · rw [Forward.step, ht.2]
        exact hmore
      · rw [Forward.step, ht.2]
        exact hlines
      · exact hpassed
      · exact hwritten
    | behind lines hdone hlines hstream hwritten =>
      exact .behind lines (ht.2.trans hdone) hlines hstream hwritten

theorem ForwardRun.served (h : ForwardRun s) : Served s := by
  induction h with
  | accept c conn hlistener hfree hsocket hwelcome =>
    have hlines : (accept_call c conn).rcmdline = 4 := by
      rw [accept_call, if_pos ⟨hlistener, hfree⟩, if_pos hsocket, if_pos hwelcome]
    apply Served.within
    · simp [hlines]
    · simp [hlines]
    · rfl
    · rfl
  | step t _ ht ih => exact ih.step ht

end Runs

section Session
variable {c : Lshcontext} {s : Input}

/-- What a step of the session leaves alone where it does not read the connection. -/
structure SameLocal (c c' : Lshcontext) : Prop where
  socket : c'.socket = c.socket
  rcmdline : c'.rcmdline = c.rcmdline

theorem netwriteLoop_local (fuel : ℕ) (c : Lshcontext) (buffer : List UInt8) :
    SameLocal c (netwriteLoop fuel c buffer).1 := by
  induction fuel generalizing c buffer with
  | zero => exact ⟨rfl, rfl⟩
  | succ fuel ih =>
    simp only [netwriteLoop]
    split_ifs
    · exact ⟨rfl, rfl⟩
    · exact ⟨(ih _ _).socket, (ih _ _).rcmdline⟩
    · exact ⟨(ih _ _).socket, (ih _ _).rcmdline⟩
    · exact ⟨rfl, rfl⟩

theorem readTurn_local (c : Lshcontext) (n : ℕ) :
    SameLocal c (readTurn c n).1 ∧
    ∀ m l, (readTurn c n).2 = .waiting m l → m = n := by
  simp only [readTurn]
  split_ifs
  · exact ⟨⟨rfl, rfl⟩, fun m l h => (Reader.waiting.inj h).1.symm⟩
  · exact ⟨⟨rfl, rfl⟩, fun m l h => (Reader.waiting.inj h).1.symm⟩
  · refine ⟨⟨rfl, rfl⟩, ?_⟩
    intro m l h
    cases h
  · exact ⟨⟨rfl, rfl⟩, fun m l h => (Reader.waiting.inj h).1.symm⟩

theorem readAgain_local (c : Lshcontext) (n : ℕ) (buffer : List UInt8) (console : Bool) :
    SameLocal c (readAgain c n buffer console).1 ∧
    ∀ m l, (readAgain c n buffer console).2.1 = .waiting m l → m = n := by
  rw [readAgain]
  split
  · exact readTurn_local c n
  · refine ⟨⟨rfl, rfl⟩, ?_⟩
    intro m l h
    cases h

theorem readResume_waiting (c : Lshcontext) (n : ℕ) (buffer : List UInt8)
    (waiting : Option Connection) (received : List UInt8) :
    ∀ m l, (readResume c n buffer waiting received).2.1 = .waiting m l → m = n := by
  simp only [readResume]
  split_ifs
  · intro m l h
    cases h
  · exact (readAgain_local _ n _ _).2
  · exact (readAgain_local _ n _ _).2
  · exact (readAgain_local _ n _ _).2

/-- A call that waits asks for some bytes. -/
theorem reader_count {P : InputStep → Input → Prop} (h : InputRun P s) :
    ∀ r, s.reader = some r → 0 < r.1 := by
  induction h with
  | start port listener inBuf outBuf =>
    intro r h
    cases h
  | @step s t _ ht _ ih =>
    cases t with
    | read n =>
      simp only [Input.step, ReadCharsFromTTY]
      split_ifs with hn
      · have hwaits := (readTurn_local s.context n).2
        intro r hr
        cases hread : (readTurn s.context n).2 with
        | returned buffer => simp [Input.afterRead, hread] at hr
        | waiting m l =>
          have hm : (m, l) = r := by simpa [Input.afterRead, hread] using hr
          rw [← hm, hwaits m l hread]
          exact hn.2
      · intro r hr
        cases hr
    | resumeRead waiting received =>
      intro r hr
      obtain ⟨⟨n, l⟩, hreader⟩ := Option.ne_none_iff_exists'.mp ht
      have hn : (s.reader.map Prod.fst).getD 0 = n := by simp [hreader]
      have hwaits := readResume_waiting s.context n s.held waiting received
      simp only [Input.step, hn] at hr
      cases hread : (readResume s.context n s.held waiting received).2.1 with
      | returned buffer => simp [Input.afterRead, hread] at hr
      | waiting m l' =>
        have hm : (m, l') = r := by simpa [Input.afterRead, hread] using hr
        rw [← hm, hwaits m l' hread]
        exact ih (n, l) hreader
    | write buffer => exact ih
    | resumeWrite => exact ih
    | accept conn => exact ih
    | hangUp => exact ih
    | eof => exact ih

/-- A step of the session, while a connection is open, is a part of its life. -/
theorem ForwardRun.session {f : Forward} {P : InputStep → Input → Prop} (hf : ForwardRun f)
    (hcontext : f.context = s.context) (hs : InputRun P s) {t : InputStep} (ht : t.Enabled s)
    (hopen : s.context.socket ≠ -1) :
    ∃ f', ForwardRun f' ∧ f'.context = (s.step t).context := by
  -- a step that does not read the connection is one of the others
  have hother : ∀ c', SameLocal s.context c' → ∃ f', ForwardRun f' ∧ f'.context = c' := by
    intro c' hsame
    refine ⟨_, hf.step (.other c') ⟨Or.inl ?_, ?_⟩, rfl⟩
    · rw [hsame.socket, hcontext]
    · rw [hsame.rcmdline, hcontext]
  -- no second connection is accepted while the first is open
  have hlisten : ∀ waiting, check_listener s.context waiting = s.context :=
    fun waiting => if_neg fun h => hopen h.2
  cases t with
  | write buffer => exact hother _ (netwriteLoop_local ..)
  | resumeWrite => exact hother _ (netwriteLoop_local ..)
  | read n =>
    have hcontext' : (s.step (.read n)).context = (ReadCharsFromTTY s.context n).1 := by
      simp only [Input.step, Input.afterRead]
      cases (ReadCharsFromTTY s.context n).2 <;> rfl
    rw [hcontext', ReadCharsFromTTY]
    apply hother
    split
    · exact (readTurn_local s.context n).1
    · exact ⟨rfl, rfl⟩
  | resumeRead waiting received =>
    obtain ⟨⟨n, l⟩, hreader⟩ := Option.ne_none_iff_exists'.mp ht
    have hcount : 0 < n := reader_count hs _ hreader
    have hn : (s.reader.map Prod.fst).getD 0 = n := by simp [hreader]
    have hcontext' : (s.step (.resumeRead waiting received)).context =
        (readResume s.context n s.held waiting received).1 := by
      simp only [Input.step, Input.afterRead, hn]
      cases (readResume s.context n s.held waiting received).2.1 <;> rfl
    rw [hcontext']
    simp only [readResume, hlisten]
    by_cases hlistener : s.context.listener = -1
    · rw [if_neg (not_not.mpr hlistener)]
      exact hother _ (readAgain_local ..).1
    rw [if_pos hlistener, if_pos hopen, read_local_socket_answerless]
    -- The read itself, and then what the call does before it waits again.
    have hread := hf.step (.read received n) hcount
    have hafter : (f.step (.read received n)).context =
        (read_local_socket s.context received n).context := by
      rw [← hcontext]
      rfl
    split
    · exact ⟨_, hread, hafter⟩
    · obtain ⟨hsame, -⟩ := readAgain_local (read_local_socket s.context received n).context n
        (read_local_socket s.context received n).passed false
      refine ⟨_, hread.step (.other _) ⟨Or.inl ?_, ?_⟩, rfl⟩
      · rw [hsame.socket, hafter]
      · rw [hsame.rcmdline, hafter]
  | accept conn =>
    apply hother
    rw [show (s.step (.accept conn)).context = s.context from hlisten (some conn)]
    exact ⟨rfl, rfl⟩
  | hangUp =>
    refine ⟨_, hf.step (.other { s.context with socket := -1 }) ⟨Or.inr rfl, ?_⟩, rfl⟩
    rw [hcontext]
  | eof => exact hother _ ⟨rfl, rfl⟩

end Session

/-- At every point of the life of an accepted connection: before its fourth NUL has come
nothing is passed on or written, and from then on what is passed on is what came behind it,
and one byte has been written. -/
theorem read_local_socket_forwards {s : Forward} (h : ForwardRun s) :
    (s.stream.count 0 < 4 → s.passed = [] ∧ s.written = []) ∧
    ∀ lines rest, s.stream = lines ++ 0 :: rest → lines.count 0 = 3 →
      s.passed = rest ∧ s.written = [0] := by
  cases h.served with
  | within hmore hlines hpassed hwritten =>
    refine ⟨fun _ => ⟨hpassed, hwritten⟩, ?_⟩
    intro lines rest hstream hcount
    -- four NULs have come, but a line is still missing
    rw [hstream, List.count_append, List.count_cons_self] at hlines
    omega
  | behind lines hdone hlines hstream hwritten =>
    constructor
    · intro hfew
      rw [hstream, List.count_append, List.count_cons_self] at hfew
      omega
    · intro lines' rest hstream' hcount
      rw [hstream] at hstream'
      exact ⟨lines_unique hstream' (hlines.trans hcount.symm), hwritten⟩

/-- A connection that has just been accepted. -/
def accepted : Forward :=
  let c := { init_context 22 (fun _ => 0) (fun _ => 0) with listener := 3 }
  ⟨accept_call c ⟨5, true⟩, [], [], []⟩

/-- The lines in two reads, the second of which brings the first bytes behind them. -/
theorem read_local_socket_forwards_two_reads :
    let s := (accepted.step (.read [49, 0, 97, 0, 98] 16)).step (.read [0, 99, 0, 7, 0, 8] 5)
    s.passed = [7, 0] ∧ s.written = [0] := by
  have hrun : ForwardRun accepted := .accept _ ⟨5, true⟩ (by decide) rfl (by decide) rfl
  have hfirst := hrun.step (.read [49, 0, 97, 0, 98] 16) (show 0 < 16 by decide)
  have hsecond := hfirst.step (.read [0, 99, 0, 7, 0, 8] 5) (show 0 < 5 by decide)
  apply (read_local_socket_forwards hsecond).2 [49, 0, 97, 0, 98, 0, 99] [7, 0]
  · decide
  · decide

end Forwarding

end Console
