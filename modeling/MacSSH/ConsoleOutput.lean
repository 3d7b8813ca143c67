import MacSSH.Console
import Mathlib.Order.Basic

/-! The output of an ssh session. What the program reads is the start of what the
session has written, with its line ends converted, wherever the two threads change
places. -/
namespace Console

open VS

/-- Line ends converted: a CR before an LF that follows no CR, and an LF after a CR
that neither LF nor ESC follows. `prev` is the byte before. -/
def conv (prev : Option UInt8) : List UInt8 → List UInt8
  | [] => []
  | c :: cs =>
    (if c = LF ∧ prev ≠ some CR then [CR] else []) ++ [c] ++
      (if c = CR ∧ cs.head? ≠ some LF ∧ cs.head? ≠ some ESC then [LF] else []) ++ conv (some c) cs

/-- The session's output and the two threads: `writer` is what a waiting call of
`WriteCharsToTTY` has still to write, `wrote` what was written in all and `returned`
what `netread` has returned. -/
structure Output where
  context : Lshcontext
  writer : Option (List UInt8)
  wrote : List UInt8
  returned : List UInt8

/-- The steps of the two threads. -/
inductive OutputStep where
  | write (id : Int) (buf : List UInt8) (waiting : Option Connection) (sent : Int)
  | resume
  | read (n : ℕ)

/-- The writing thread makes one call after the other. -/
def OutputStep.Enabled : OutputStep → Output → Prop
  | write .., s => s.writer = none
  | resume, s => s.writer ≠ none
  | read _, _ => True

def Output.step (s : Output) : OutputStep → Output
  | .write id buf waiting sent =>
    let r := WriteCharsToTTY s.context id buf waiting sent
    { s with
      context := r.1
      writer := r.2
      wrote := if toConsole s.context id then s.wrote ++ buf else s.wrote }
  | .resume =>
    let r := writeLoop s.context (s.writer.getD [])
    { s with context := r.1, writer := r.2 }
  | .read n =>
    let r := netread s.context n
    { s with context := r.2, returned := s.returned ++ r.1 }

/-- A session without a local listener, with or without conversion of line ends,
after any steps of the two threads. -/
inductive OutputRun : Output → Prop
  | start (port : Int) (inBuf outBuf : ℕ → UInt8) (convertLFs : Bool) :
      OutputRun ⟨{ init_context port inBuf outBuf with convertLFs := convertLFs }, none, [], []⟩
  | step {s : Output} (t : OutputStep) : OutputRun s → t.Enabled s → OutputRun (s.step t)

/-- The output is first in first out, and the buffer holds what it can. -/
structure OutputFifo (s : Output) : Prop where
  order : s.returned <+: (if s.context.convertLFs then conv none s.wrote else s.wrote)
  bounds : 0 ≤ s.context.gConsoleOut.len ∧ s.context.gConsoleOut.len ≤ s.context.gConsoleOutBufMax

/-- What the buffer is given for some bytes: an LF after a CR is put before the
byte that follows. -/
def convertFrom : Bool → List UInt8 → List UInt8
  | _, [] => []
  | lastCR, c :: cs =>
    (if lastCR then (if c ≠ LF ∧ c ≠ ESC then [LF] else []) else (if c = LF then [CR] else [])) ++
      c :: convertFrom (c = CR) cs

/-- Whether the last byte was a CR. -/
def endsCR (lastCR : Bool) (l : List UInt8) : Bool := l.foldl (fun _ c => c = CR) lastCR

section Conversion

theorem convertFrom_append (lastCR : Bool) (a b : List UInt8) :
    convertFrom lastCR (a ++ b) = convertFrom lastCR a ++ convertFrom (endsCR lastCR a) b := by
  induction a generalizing lastCR with
  | nil => rfl
  | cons c a ih =>
    rw [List.cons_append, convertFrom, convertFrom, ih, List.append_assoc, List.cons_append]
    rfl

theorem endsCR_append (lastCR : Bool) (a b : List UInt8) :
    endsCR lastCR (a ++ b) = endsCR (endsCR lastCR a) b := List.foldl_append

/-- The LF that a CR before the bytes `l` becomes. -/
def afterCR (l : List UInt8) : List UInt8 :=
  if l.head? ≠ some LF ∧ l.head? ≠ some ESC then [LF] else []

theorem conv_cons (prev : Option UInt8) (c : UInt8) (cs : List UInt8) :
    conv prev (c :: cs) = (if c = LF ∧ prev ≠ some CR then [CR] else []) ++
      c :: ((if c = CR then afterCR cs else []) ++ conv (some c) cs) := by
  rw [conv, afterCR]
  by_cases hc : c = CR <;> simp [hc]

/-- What is put for the bytes so far is the start of what all bytes become. After a
CR the LF may be still to come. -/
theorem convertFrom_prefix {lastCR : Bool} {prev : Option UInt8}
    (hp : lastCR = true ↔ prev = some CR) (a b : List UInt8) :
    convertFrom lastCR a <+: (if lastCR then afterCR (a ++ b) else []) ++ conv prev (a ++ b) := by
  induction a generalizing lastCR prev with
  | nil => exact List.nil_prefix
  | cons c a ih =>
    have hc : decide (c = CR) = true ↔ some c = some CR := by simp
    have hrest := ih hc
    simp only [decide_eq_true_eq] at hrest
    rw [List.cons_append, convertFrom, conv_cons]
    -- the LF or CR in front of the byte is the same on both sides
    have hfront : (if lastCR then afterCR (c :: (a ++ b)) else []) ++
        (if c = LF ∧ prev ≠ some CR then [CR] else []) =
        if lastCR then (if c ≠ LF ∧ c ≠ ESC then [LF] else [])
        else (if c = LF then [CR] else []) := by
      cases lastCR with
      | true =>
        have hprev := hp.mp rfl
        simp [afterCR, hprev]
      | false =>
        have hprev : prev ≠ some CR := fun h => Bool.false_ne_true (hp.mpr h)
        simp [hprev]
    rw [← List.append_assoc, hfront]
    exact (List.prefix_append_right_inj _).mpr ((List.prefix_cons_inj c).mpr hrest)

theorem convertFrom_prefix_conv (a b : List UInt8) :
    convertFrom false a <+: conv none (a ++ b) := by
  have hp : false = true ↔ (none : Option UInt8) = some CR := by simp
  exact convertFrom_prefix hp a b

end Conversion

section Buffer
variable {c : Lshcontext}

/-- What is put in front of a byte takes at most one place. -/
theorem putBefore_spec {out : ShiftBuffer UInt8} (lastCR : Bool) (b : UInt8) (h0 : 0 ≤ out.len) :
    (putBefore lastCR b out).contents = out.contents ++
        (if lastCR then (if b ≠ LF ∧ b ≠ ESC then [LF] else [])
          else (if b = LF then [CR] else [])) ∧
      out.len ≤ (putBefore lastCR b out).len ∧ (putBefore lastCR b out).len ≤ out.len+1 := by
  have hput (x : UInt8) : (out.put x).len = out.len+1 := rfl
  rw [putBefore]
  split_ifs
  · exact ⟨out.contents_put LF h0, by have := hput LF; omega, by have := hput LF; omega⟩
  · exact ⟨(List.append_nil _).symm, by omega, by omega⟩
  · exact ⟨out.contents_put CR h0, by have := hput CR; omega, by have := hput CR; omega⟩
  · exact ⟨(List.append_nil _).symm, by omega, by omega⟩

/-- What one copying loop does to the buffer. -/
theorem convertBytes_spec (max : Int) (buf : List UInt8) (out : ShiftBuffer UInt8) (lastCR : Bool)
    (h0 : 0 ≤ out.len) (hmax : out.len ≤ max) :
    let r := convertBytes max buf out lastCR
    r.2.1.contents = out.contents ++ convertFrom lastCR (buf.take r.1) ∧
      r.2.2 = endsCR lastCR (buf.take r.1) ∧ r.1 ≤ buf.length ∧
      0 ≤ r.2.1.len ∧ r.2.1.len ≤ max := by
  induction buf generalizing out lastCR with
  | nil => exact ⟨(List.append_nil _).symm, rfl, Nat.le_refl _, h0, hmax⟩
  | cons b buf ih =>
    simp only [convertBytes]
    split_ifs with hroom
    · obtain ⟨hfront, hge, hle⟩ := putBefore_spec lastCR b h0
      generalize putBefore lastCR b out = out' at hfront hge hle ⊢
      have hput : (out'.put b).len = out'.len+1 := rfl
      obtain ⟨hcont, hcr, hk, h0', hmax'⟩ := ih (out'.put b) (b = CR) (by omega) (by omega)
      generalize convertBytes max buf (out'.put b) (b = CR) = r at hcont hcr hk h0' hmax' ⊢
      refine ⟨?_, ?_, Nat.succ_le_succ hk, h0', hmax'⟩
      · rw [hcont, out'.contents_put b (by omega), hfront, List.take_succ_cons, convertFrom]
        simp only [List.append_assoc, List.singleton_append]
      · rw [hcr, List.take_succ_cons]
        rfl
    · exact ⟨(List.append_nil _).symm, rfl, Nat.zero_le _, h0, hmax⟩

/-- What a turn of the writing loop does: some bytes go to the buffer, converted if
the session converts. -/
structure Wrote (c c' : Lshcontext) (put left buf : List UInt8) : Prop where
  split : put ++ left = buf
  contents : c'.gConsoleOut.contents = c.gConsoleOut.contents ++
    (if c.convertLFs then convertFrom c.lastCR put else put)
  lastCR : c.convertLFs = true → c'.lastCR = endsCR c.lastCR put
  convertLFs : c'.convertLFs = c.convertLFs
  max : c'.gConsoleOutBufMax = c.gConsoleOutBufMax
  bounds : 0 ≤ c'.gConsoleOut.len ∧ c'.gConsoleOut.len ≤ c'.gConsoleOutBufMax
  alone : c'.listener = c.listener ∧ c'.socket = c.socket

theorem writeTurn_wrote (buf : List UInt8)
    (hb : 0 ≤ c.gConsoleOut.len ∧ c.gConsoleOut.len ≤ c.gConsoleOutBufMax) :
    ∃ put, Wrote c (writeTurn c buf).1 put (writeTurn c buf).2 buf := by
  simp only [writeTurn]
  by_cases hroom : c.gConsoleOut.len < c.gConsoleOutBufMax
  · rw [if_pos hroom]
    have hlen : ((if (buf.length : Int) > c.gConsoleOutBufMax-c.gConsoleOut.len
        then (c.gConsoleOutBufMax-c.gConsoleOut.len).toNat else buf.length : ℕ) : Int) ≤
          c.gConsoleOutBufMax-c.gConsoleOut.len := by
      split_ifs <;> omega
    generalize (if (buf.length : Int) > c.gConsoleOutBufMax-c.gConsoleOut.len
        then (c.gConsoleOutBufMax-c.gConsoleOut.len).toNat else buf.length) = len at hlen ⊢
    split_ifs with hconv
    · obtain ⟨hcont, hcr, hk, h0, hmax⟩ :=
        convertBytes_spec c.gConsoleOutBufMax (buf.take len) c.gConsoleOut c.lastCR hb.1 hb.2
      generalize convertBytes c.gConsoleOutBufMax (buf.take len) c.gConsoleOut c.lastCR = r at *
      have htake : (buf.take len).take r.1 = buf.take r.1 := by
        rw [List.length_take] at hk
        rw [List.take_take, Nat.min_eq_left (by omega)]
      rw [htake] at hcont hcr
      refine ⟨buf.take r.1, List.take_append_drop _ _, ?_, fun _ => hcr, rfl, rfl, ⟨h0, hmax⟩,
        rfl, rfl⟩
      rw [if_pos hconv]
      exact hcont
    · have hcount : ((buf.take len).length : Int) ≤ len := by
        rw [List.length_take]
        omega
      have hnew : (c.gConsoleOut.append (buf.take len)).len =
          c.gConsoleOut.len+(buf.take len).length := rfl
      refine ⟨buf.take len, List.take_append_drop _ _, ?_, fun h => absurd h hconv, rfl, rfl, ?_,
        rfl, rfl⟩
      · rw [if_neg hconv]
        exact ShiftBuffer.contents_append _ _ hb.1
      · simp only [hnew]
        omega
  · -- a full buffer is left to be read
    rw [if_neg hroom]
    refine ⟨[], rfl, ?_, fun _ => rfl, rfl, rfl, hb, rfl, rfl⟩
    split_ifs <;> exact (List.append_nil _).symm

/-- What a read does: it takes bytes from the front of the buffer. -/
theorem netread_spec (n : ℕ)
    (hb : 0 ≤ c.gConsoleOut.len ∧ c.gConsoleOut.len ≤ c.gConsoleOutBufMax)
    (hshort : c.gConsoleOutBufMax ≤ 32767) :
    ∃ b : ShiftBuffer UInt8, (netread c n).2 = { c with gConsoleOut := b } ∧
      (netread c n).1 ++ b.contents = c.gConsoleOut.contents ∧
      0 ≤ b.len ∧ b.len ≤ c.gConsoleOutBufMax := by
  simp only [netread]
  by_cases hlen : c.gConsoleOut.len = 0
  · rw [if_neg (not_not.mpr hlen)]
    exact ⟨c.gConsoleOut, rfl, rfl, hb⟩
  · rw [if_pos hlen, short_eq (by omega) (by omega)]
    have hk : 0 ≤ (if c.gConsoleOut.len > n then (n : Int) else c.gConsoleOut.len) ∧
        (if c.gConsoleOut.len > n then (n : Int) else c.gConsoleOut.len) ≤ c.gConsoleOut.len := by
      split_ifs <;> omega
    generalize (if c.gConsoleOut.len > n then (n : Int) else c.gConsoleOut.len) = k at hk ⊢
    refine ⟨c.gConsoleOut.removeFront k, rfl, ?_, ?_⟩
    · rw [ShiftBuffer.contents_removeFront _ hk.1, ShiftBuffer.map_data _ (by omega),
        List.take_append_drop]
    · change 0 ≤ c.gConsoleOut.len-k ∧ c.gConsoleOut.len-k ≤ _
      omega

end Buffer

/-- What was returned and what the buffer holds is what the bytes given to the
console so far become; the rest waits with the writing thread. -/
structure Flowing (s : Output) : Prop where
  flow : ∃ given, given ++ s.writer.getD [] = s.wrote ∧
    s.returned ++ s.context.gConsoleOut.contents =
      (if s.context.convertLFs then convertFrom false given else given) ∧
    (s.context.convertLFs = true → s.context.lastCR = endsCR false given)
  bounds : 0 ≤ s.context.gConsoleOut.len ∧ s.context.gConsoleOut.len ≤ s.context.gConsoleOutBufMax
  max : s.context.gConsoleOutBufMax = CONSOLEBUFSIZE
  alone : s.context.listener = -1 ∧ s.context.socket = -1

/-- The writing thread goes on with `buf`. -/
theorem Flowing.write {s : Output} (h : Flowing s) (buf : List UInt8) {given wrote : List UInt8}
    (hgiven : given ++ buf = wrote)
    (hflow : s.returned ++ s.context.gConsoleOut.contents =
      (if s.context.convertLFs then convertFrom false given else given))
    (hcr : s.context.convertLFs = true → s.context.lastCR = endsCR false given) :
    Flowing { s with
      context := (writeLoop s.context buf).1
      writer := (writeLoop s.context buf).2
      wrote := wrote } := by
  simp only [writeLoop]
  split_ifs with hnil
  · refine ⟨⟨given, ?_, hflow, hcr⟩, h.bounds, h.max, h.alone⟩
    rw [hnil] at hgiven
    exact hgiven
  · obtain ⟨put, hw⟩ := writeTurn_wrote buf h.bounds
    generalize writeTurn s.context buf = r at hw ⊢
    refine ⟨⟨given ++ put, ?_, ?_, ?_⟩, hw.bounds, hw.max.trans h.max,
      hw.alone.1.trans h.alone.1, hw.alone.2.trans h.alone.2⟩
    · simp only [Option.getD_some]
      rw [List.append_assoc, hw.split, hgiven]
    · simp only
      rw [hw.contents, hw.convertLFs, ← List.append_assoc, hflow]
      split_ifs with hconv
      · rw [convertFrom_append, hcr hconv]
      · rfl
    · intro hconv
      simp only at hconv ⊢
      rw [hw.convertLFs] at hconv
      rw [hw.lastCR hconv, endsCR_append, hcr hconv]

theorem Flowing.step {s : Output} (h : Flowing s) (t : OutputStep) (ht : t.Enabled s) :
    Flowing (s.step t) := by
  obtain ⟨given, hgiven, hflow, hcr⟩ := h.flow
  cases t with
  | write id buf waiting sent =>
    have hidle : s.writer = none := ht
    rw [hidle, Option.getD_none, List.append_nil] at hgiven
    simp only [Output.step, WriteCharsToTTY]
    by_cases hid : toConsole s.context id
    · have hlocal : writeLocal s.context buf waiting sent = (s.context, buf) := by
        rw [writeLocal, if_neg (not_not.mpr h.alone.1)]
      have hopen : s.context.gConsoleOutBufMax ≠ 0 ∧ s.context.socket = -1 :=
        ⟨by rw [h.max]; decide, h.alone.2⟩
      simp only [if_pos hid, hlocal, if_pos hopen]
      exact h.write buf (by rw [hgiven]) hflow hcr
    · simp only [if_neg hid]
      refine ⟨⟨given, ?_, hflow, hcr⟩, h.bounds, h.max, h.alone⟩
      rw [Option.getD_none, List.append_nil, hgiven]
  | resume => exact h.write (s.writer.getD []) hgiven hflow hcr
  | read n =>
    obtain ⟨b, hctx, hcont, hb⟩ := netread_spec n h.bounds (by rw [h.max]; decide)
    simp only [Output.step, hctx]
    refine ⟨⟨given, hgiven, ?_, hcr⟩, hb, h.max, h.alone⟩
    simp only
    rw [List.append_assoc, hcont]
    exact hflow

theorem flowing_run {s : Output} (h : OutputRun s) : Flowing s := by
  induction h with
  | start port inBuf outBuf convertLFs =>
    have hroom : (0 : Int) ≤ CONSOLEBUFSIZE := by decide
    refine ⟨⟨[], rfl, ?_, fun _ => rfl⟩, ⟨Int.le_refl 0, hroom⟩, rfl, rfl, rfl⟩
    cases convertLFs <;> rfl
  | step t _ ht ih => exact ih.step t ht

/-- After any steps of the two threads what was read is the start of what was
written, with line ends converted as if it had been written at once, and the
buffer is within its bounds. -/
theorem console_output_fifo (s : Output) (h : OutputRun s) : OutputFifo s := by
  have hf := flowing_run h
  obtain ⟨given, hgiven, hflow, -⟩ := hf.flow
  refine ⟨?_, hf.bounds⟩
  have hread : s.returned <+:
      (if s.context.convertLFs then convertFrom false given else given) := ⟨_, hflow⟩
  apply hread.trans
  rw [← hgiven]
  split_ifs
  · exact convertFrom_prefix_conv given _
  · exact List.prefix_append given _

/-- A new session. -/
def newOutput : Output := ⟨init_context 1 (fun _ => 0) fun _ => 0, none, [], []⟩

/-- A line that is written and read. -/
theorem console_output_one_line :
    OutputFifo ((newOutput.step (.write 1 [65, LF] none 0)).step (.read 10)) := by
  have hnew : OutputRun newOutput := OutputRun.start 1 (fun _ => 0) (fun _ => 0) true
  have hwrote := OutputRun.step (.write 1 [65, LF] none 0) hnew rfl
  exact console_output_fifo _ (OutputRun.step (.read 10) hwrote trivial)

end Console
