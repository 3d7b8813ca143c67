import MacSSH.Channels

/-! The two ends of a channel, and the messages between them that have not arrived yet.
Either end may act at any time, and either may handle the oldest message on its way to it.
Both are kept in step by what flows from one end to the other. -/
namespace Channels

/-- One end of a channel. `number` is its local channel number and `alive` says that the
number has not been deallocated. The rest is history: the bytes received that have not yet
been passed on, the messages written since the channel was opened, and the bytes
transmitted, received and ignored since then, each with its stream. -/
structure ChannelEnd where
  number : ℕ
  channel : ssh_channel
  alive : Bool
  unreported : ℕ
  written : List channel_message
  transmitted : List (Stream × UInt8)
  received : List (Stream × UInt8)
  ignored : List (Stream × UInt8)
  error : Option String
  deriving DecidableEq, Repr

def tagged (type : Stream) (data : List UInt8) : List (Stream × UInt8) :=
  data.map fun b => (type, b)

namespace channel_message

def recipient : channel_message → ℕ
  | window_adjust n _ => n
  | data n _ => n
  | extended_data n _ _ => n
  | eof n => n
  | close n => n

/-- The bytes a message carries. -/
def payload : channel_message → List (Stream × UInt8)
  | .data _ bytes => tagged .CHANNEL_DATA bytes
  | .extended_data _ type bytes =>
    if type = SSH_EXTENDED_DATA_STDERR then tagged .CHANNEL_STDERR_DATA bytes else []
  | _ => []

/-- How much of the window a message uses. -/
def use : channel_message → ℕ
  | .data _ bytes => bytes.length
  | .extended_data _ _ bytes => bytes.length
  | _ => 0

/-- How much a message adds to the window. -/
def grant : channel_message → ℕ
  | window_adjust _ size => size
  | _ => 0

/-- The message is one that may come when the sender has sent (EOF, CLOSE) as in the
pair; the pair after it. -/
def after : Bool × Bool → channel_message → Option (Bool × Bool)
  | (e, false), window_adjust _ _ => some (e, false)
  | (false, false), data _ _ => some (false, false)
  | (false, false), extended_data _ _ _ => some (false, false)
  | (false, false), eof _ => some (true, false)
  | (e, false), close _ => some (e, true)
  | _, _ => none

end channel_message

/-- A sequence of messages in an order that is allowed. -/
def passed (sent : Bool × Bool) (messages : List channel_message) : Option (Bool × Bool) :=
  messages.foldlM channel_message.after sent

def used (messages : List channel_message) : ℕ := (messages.map channel_message.use).sum

def granted (messages : List channel_message) : ℕ := (messages.map channel_message.grant).sum

def carried (messages : List channel_message) : List (Stream × UInt8) :=
  messages.flatMap channel_message.payload

/-- The end after a call. -/
def ChannelEnd.take (e : ChannelEnd) (turn : Turn) : ChannelEnd :=
  let data := turn.received.flatMap fun r => tagged r.1 r.2
  { e with
    channel := turn.channel
    alive := e.alive && !turn.finished
    unreported := e.unreported+data.length
    written := e.written ++ turn.written
    received := e.received ++ data
    error := e.error.or turn.error }

/-- What an end may do by itself: send data that was read from one of its sources, at most
as much as was asked for; send EOF or CLOSE; report that received data was passed on;
widen its window; or see its shell exit. -/
inductive Action
  | transmit (type : Stream) (data : List UInt8)
  | eof
  | close
  | report (written : ℕ)
  | start_receive (initial_window_size : ℕ)
  | exit_shell
  deriving DecidableEq, Repr

def act (e : ChannelEnd) : Action → Option (ChannelEnd × List channel_message)
  | .transmit type data =>
    if 0 < data.length ∧ data.length ≤ do_read_data_query e.channel then
      let turn := match type with
        | .CHANNEL_DATA => channel_transmit_data e.channel data
        | .CHANNEL_STDERR_DATA =>
          channel_transmit_extended e.channel SSH_EXTENDED_DATA_STDERR data
      some ({ e.take turn with transmitted := e.transmitted ++ tagged type data },
        turn.written)
    else none
  | .eof => some (e.take (channel_eof e.channel), (channel_eof e.channel).written)
  | .close => some (e.take (channel_close e.channel), (channel_close e.channel).written)
  | .report written =>
    if written ≤ e.unreported then
      let turn := adjust_rec_window e.channel written
      some ({ e.take turn with unreported := e.unreported-written }, turn.written)
    else none
  | .start_receive size =>
    -- only before the end has closed the channel, and never beyond 32 bits
    if !e.channel.sent_close && decide (size+e.unreported < 2^32) then
      let turn := channel_start_receive e.channel size
      some (e.take turn, turn.written)
    else none
  | .exit_shell => some (e.take (do_exit_shell e.channel), (do_exit_shell e.channel).written)

/-- A message arrives: its channel is looked up, and the handler called. -/
def arrive (e : ChannelEnd) (message : channel_message) :
    ChannelEnd × List channel_message :=
  if e.alive && message.recipient = e.number then
    let turn := handler e.channel message
    ({ e.take turn with
        ignored := e.ignored ++
          message.payload.drop (turn.received.flatMap fun r => tagged r.1 r.2).length },
      turn.written)
  else
    ({ e with
        error := e.error.or (nonexistent message)
        ignored := e.ignored ++ message.payload }, [])

/-- The two ends, and the messages on their way. -/
structure Pair where
  left : ChannelEnd
  right : ChannelEnd
  to_right : List channel_message
  to_left : List channel_message
  deriving DecidableEq, Repr

inductive Step
  | left (a : Action)
  | right (a : Action)
  | deliver_right
  | deliver_left
  deriving DecidableEq, Repr

def Pair.step (p : Pair) : Step → Option Pair
  | .left a => (act p.left a).map fun r =>
    { p with left := r.1, to_right := p.to_right ++ r.2 }
  | .right a => (act p.right a).map fun r =>
    { p with right := r.1, to_left := p.to_left ++ r.2 }
  | .deliver_right => match p.to_right with
    | [] => none
    | m :: rest =>
      let r := arrive p.right m
      some { p with right := r.1, to_right := rest, to_left := p.to_left ++ r.2 }
  | .deliver_left => match p.to_left with
    | [] => none
    | m :: rest =>
      let r := arrive p.left m
      some { p with left := r.1, to_left := rest, to_right := p.to_right ++ r.2 }

def Pair.run (p : Pair) : List Step → Option Pair
  | [] => some p
  | s :: steps => (p.step s).bind fun p' => p'.run steps

end Channels
