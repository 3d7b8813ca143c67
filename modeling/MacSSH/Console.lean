import MacSSH.Shorts
import MacSSH.ShiftBuffer

/-! The console of an ssh session. The session's thread writes and reads it as a
terminal, the program's own thread as a network connection; each direction goes
through a buffer. The threads change places only where one of them calls
`ssh2_sched`. A session with a local listener serves a local connection instead
while there is one. -/
namespace Console

open VS

@[simp] abbrev LF : UInt8 := 0x0a
@[simp] abbrev CR : UInt8 := 0x0d
@[simp] abbrev ESC : UInt8 := 0x1b

/-- Size of both buffers. -/
@[simp] abbrev CONSOLEBUFSIZE : Int := 16384

/-- What a session keeps of its console; -1 is no port, no listener, no socket. -/
structure Lshcontext where
  port : Int
  listener : Int
  socket : Int
  rcmdline : ℕ
  gConsoleInEOF : Bool
  convertLFs : Bool
  lastCR : Bool
  gConsoleIn : ShiftBuffer UInt8
  gConsoleInBufMax : Int
  gConsoleOut : ShiftBuffer UInt8
  gConsoleOutBufMax : Int

/-- A new session; its buffers hold any bytes. -/
def init_context (port : Int) (inBuf outBuf : ℕ → UInt8) : Lshcontext :=
  { port := port
    listener := -1
    socket := -1
    rcmdline := 0
    gConsoleInEOF := false
    convertLFs := true
    lastCR := false
    gConsoleIn := ⟨inBuf, 0⟩
    gConsoleInBufMax := CONSOLEBUFSIZE
    gConsoleOut := ⟨outBuf, 0⟩
    gConsoleOutBufMax := CONSOLEBUFSIZE }

/-- A connection that waits at the listener: the socket that `accept` gives, and
whether the session's window lets the peer in. -/
structure Connection where
  socket : Int
  welcome : Bool

def accept_call (c : Lshcontext) (conn : Connection) : Lshcontext :=
  if c.listener ≠ -1 ∧ c.socket = -1 then
    if conn.socket ≠ -1 then
      if conn.welcome then { c with socket := conn.socket, rcmdline := 4 }
      else { c with socket := -1 }
    else { c with socket := conn.socket }
  else c

/-- Accept a connection if one waits. -/
def check_listener (c : Lshcontext) (waiting : Option Connection) : Lshcontext :=
  if c.listener ≠ -1 ∧ c.socket = -1 then
    match waiting with
    | none => c
    | some conn => accept_call c conn
  else c

/-- The bytes left once the lines that open a local connection are consumed, and
how many lines are still to come. -/
def rcmdLines : List UInt8 → ℕ → List UInt8 × ℕ
  | l, 0 => (l, 0)
  | [], k+1 => ([], k+1)
  | b :: l, k+1 => rcmdLines l (if b = 0 then k else k+1)

/-- Read at most `n` bytes of the local connection. `received` are the bytes it has;
none means that it is closed. -/
def read_local_socket (c : Lshcontext) (received : List UInt8) (n : ℕ) :
    List UInt8 × Lshcontext :=
  if c.socket ≠ -1 then
    let buffer := received.take n
    if buffer = [] then ([], { c with socket := -1 })
    else
      let r := rcmdLines buffer c.rcmdline
      (r.1, { c with rcmdline := r.2 })
  else ([], c)

/-- What goes to the buffer in front of the byte `c`: an LF after a CR, and a CR
before an LF. -/
def putBefore (lastCR : Bool) (c : UInt8) (out : ShiftBuffer UInt8) : ShiftBuffer UInt8 :=
  if lastCR then (if c ≠ LF ∧ c ≠ ESC then out.put LF else out)
  else (if c = LF then out.put CR else out)

/-- Copy bytes to the output buffer while it has room for two: how many were
taken, the buffer, and whether the last one was a CR. -/
def convertBytes (max : Int) : List UInt8 → ShiftBuffer UInt8 → Bool → ℕ × ShiftBuffer UInt8 × Bool
  | [], out, lastCR => (0, out, lastCR)
  | c :: buf, out, lastCR =>
    if out.len < max-1 then
      let r := convertBytes max buf ((putBefore lastCR c out).put c) (c = CR)
      (r.1+1, r.2)
    else (0, out, lastCR)

/-- One turn of the loop in `WriteCharsToTTY`, and the bytes still to write. -/
def writeTurn (c : Lshcontext) (buf : List UInt8) : Lshcontext × List UInt8 :=
  if c.gConsoleOut.len < c.gConsoleOutBufMax then
    let room := c.gConsoleOutBufMax-c.gConsoleOut.len
    let len := if (buf.length : Int) > room then room.toNat else buf.length
    if c.convertLFs then
      let r := convertBytes c.gConsoleOutBufMax (buf.take len) c.gConsoleOut c.lastCR
      ({ c with gConsoleOut := r.2.1, lastCR := r.2.2 }, buf.drop r.1)
    else ({ c with gConsoleOut := c.gConsoleOut.append (buf.take len) }, buf.drop len)
  else (c, buf)

/-- The loop up to its next call of `ssh2_sched`: the bytes still to write, or
`none` when it is done. -/
def writeLoop (c : Lshcontext) (buf : List UInt8) : Lshcontext × Option (List UInt8) :=
  if buf = [] then (c, none)
  else
    let r := writeTurn c buf
    (r.1, some r.2)

/-- Write to the local connection, if there is one. `sent` is how many bytes it
takes. -/
def writeLocal (c : Lshcontext) (buf : List UInt8) (waiting : Option Connection) (sent : Int) :
    Lshcontext × List UInt8 :=
  if c.listener ≠ -1 then
    let c := check_listener c waiting
    if c.socket ≠ -1 then
      if sent ≤ 0 then ({ c with socket := -1 }, buf) else (c, buf.drop sent.toNat)
    else (c, buf)
  else (c, buf)

/-- Whether output goes to the console: the error output of a session that has a
port goes to the log. -/
def toConsole (c : Lshcontext) (id : Int) : Prop := ¬(id = 2 ∧ c.port ≠ -1)

instance (c : Lshcontext) (id : Int) : Decidable (toConsole c id) :=
  inferInstanceAs (Decidable (¬_))

/-- `WriteCharsToTTY` up to its first call of `ssh2_sched`. -/
def WriteCharsToTTY (c : Lshcontext) (id : Int) (buf : List UInt8) (waiting : Option Connection)
    (sent : Int) : Lshcontext × Option (List UInt8) :=
  if toConsole c id then
    let r := writeLocal c buf waiting sent
    if r.1.gConsoleOutBufMax ≠ 0 ∧ r.1.socket = -1 then writeLoop r.1 r.2 else (r.1, none)
  else (c, none)

/-- Read at most `n` bytes of the session's output. -/
def netread (c : Lshcontext) (n : Int) : List UInt8 × Lshcontext :=
  if c.gConsoleOut.len ≠ 0 then
    let reqdamt := short c.gConsoleOut.len
    let reqdamt := if reqdamt > n then n else reqdamt
    ((List.range reqdamt.toNat).map c.gConsoleOut.data,
      { c with gConsoleOut := c.gConsoleOut.removeFront reqdamt })
  else ([], c)

/-- The loop of `netwrite` up to its next call of `ssh2_sched`: the bytes still to
write when the buffer is full, or `none` when it is done. -/
def netwriteLoop : ℕ → Lshcontext → List UInt8 → Lshcontext × Option (List UInt8)
  | 0, c, buffer => (c, some buffer)
  | fuel+1, c, buffer =>
    if buffer = [] then (c, none)
    else
      let room := c.gConsoleInBufMax-c.gConsoleIn.len
      if room > 0 then
        let len := if (buffer.length : Int) > room then room.toNat else buffer.length
        netwriteLoop fuel { c with gConsoleIn := c.gConsoleIn.append (buffer.take len) }
          (buffer.drop len)
      else (c, some buffer)

/-- `netwrite` until it is done or the buffer is full: every turn takes a byte. -/
def netwrite (c : Lshcontext) (buffer : List UInt8) : Lshcontext × Option (List UInt8) :=
  netwriteLoop (buffer.length+1) c buffer

/-- What a call of `ReadCharsFromTTY` has come to: it has returned, or waits in
`ssh2_sched` with what it has copied from the console. -/
inductive Reader where
  | returned (buffer : List UInt8)
  | waiting (n : ℕ) (buffer : List UInt8)
  deriving DecidableEq

/-- The first part of a turn of the loop in `ReadCharsFromTTY`, up to its call of
`ssh2_sched`. -/
def readTurn (c : Lshcontext) (n : ℕ) : Lshcontext × Reader :=
  if c.gConsoleIn.len ≠ 0 ∧ c.socket = -1 then
    let len := if c.gConsoleIn.len > n then (n : Int) else c.gConsoleIn.len
    ({ c with gConsoleIn := c.gConsoleIn.removeFront len },
      .waiting n ((List.range len.toNat).map c.gConsoleIn.data))
  else if c.gConsoleInEOF then (c, .returned [])
  else (c, .waiting n [])

/-- `ReadCharsFromTTY` up to its first call of `ssh2_sched`. -/
def ReadCharsFromTTY (c : Lshcontext) (n : ℕ) : Lshcontext × Reader :=
  if c.gConsoleInBufMax ≠ 0 ∧ n > 0 then readTurn c n else (c, .returned [])

/-- The loop of `ReadCharsFromTTY` goes on until something was read. Whether the
bytes it returns are console input is kept beside them. -/
def readAgain (c : Lshcontext) (n : ℕ) (buffer : List UInt8) (console : Bool) :
    Lshcontext × Reader × Bool :=
  if buffer = [] then
    let r := readTurn c n
    (r.1, r.2, true)
  else (c, .returned buffer, console)

/-- `ReadCharsFromTTY` when its thread runs again: a local connection is served,
into the buffer that the console input was copied to. -/
def readResume (c : Lshcontext) (n : ℕ) (buffer : List UInt8) (waiting : Option Connection)
    (received : List UInt8) : Lshcontext × Reader × Bool :=
  if c.listener ≠ -1 then
    let c := check_listener c waiting
    if c.socket ≠ -1 then
      let r := read_local_socket c received n
      if r.2.socket = -1 ∧ r.1 = [] then (r.2, .returned [], false) else readAgain r.2 n r.1 false
    else readAgain c n buffer true
  else readAgain c n buffer true

end Console
