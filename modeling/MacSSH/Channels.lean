import MacSSH.ChannelTable

/-! The channels of an ssh connection: what is written when a channel sends data, an end
of file or a close, and what the handlers do with the messages that arrive. Each function
takes the channel object and gives its new value together with the messages it writes. -/
namespace Channels

/-- Types of channel data. -/
inductive Stream
  | CHANNEL_DATA
  | CHANNEL_STDERR_DATA
  deriving DecidableEq, Repr

def SSH_EXTENDED_DATA_STDERR : ℕ := 1

/-- Messages on open channels; the first argument is the recipient's channel number. -/
inductive channel_message
  | window_adjust (recipient size : ℕ)
  | data (recipient : ℕ) (data : List UInt8)
  | extended_data (recipient type : ℕ) (data : List UInt8)
  | eof (recipient : ℕ)
  | close (recipient : ℕ)
  deriving DecidableEq, Repr

/-- A channel. The bits of `flags` are fields of their own, and of the callbacks there is
only whether they are set: those of sessions and of forwarded ports leave the channel
alone. -/
structure ssh_channel where
  channel_number : ℕ
  rec_window_size : ℕ
  rec_max_packet : ℕ
  send_window_size : ℕ
  send_max_packet : ℕ
  sent_close : Bool
  received_close : Bool
  sent_eof : Bool
  received_eof : Bool
  close_at_eof : Bool
  no_wait_for_eof : Bool
  receive : Bool
  eof : Bool
  deriving DecidableEq, Repr

/-- What a call does: the channel afterwards, the messages given to `C_WRITE`, the data
given to `CHANNEL_RECEIVE`, whether `EXC_FINISH_CHANNEL` was raised, and the protocol
error or the assertion that stopped it. -/
structure Turn where
  channel : ssh_channel
  written : List channel_message
  received : List (Stream × List UInt8)
  finished : Bool
  error : Option String
  deriving DecidableEq, Repr

/-- A call that writes `written` and has no other effect than on the channel. -/
def Turn.of (channel : ssh_channel) (written : List channel_message) : Turn :=
  { channel := channel, written := written, received := [], finished := false, error := none }

def PROTOCOL_ERROR (channel : ssh_channel) (msg : String) : Turn :=
  { Turn.of channel [] with error := some msg }

def assertion (channel : ssh_channel) (condition : String) : Turn :=
  { Turn.of channel [] with error := some condition }

/-- Unsigned 32-bit arithmetic. -/
def UINT32 (n : ℕ) : ℕ := n%2^32

/-! ### Sending -/

def prepare_window_adjust (channel : ssh_channel) (add : ℕ) : Turn :=
  Turn.of { channel with rec_window_size := UINT32 (channel.rec_window_size+add) }
    [.window_adjust channel.channel_number add]

/-- Flow control: `written` bytes of received data have been passed on. -/
def adjust_rec_window (channel : ssh_channel) (written : ℕ) : Turn :=
  if !(channel.received_eof || channel.received_close || channel.sent_close) then
    prepare_window_adjust channel written
  else Turn.of channel []

def channel_start_receive (channel : ssh_channel) (initial_window_size : ℕ) : Turn :=
  if channel.rec_window_size < initial_window_size then
    prepare_window_adjust channel (initial_window_size-channel.rec_window_size)
  else Turn.of channel []

def channel_close (channel : ssh_channel) : Turn :=
  if !channel.sent_close then
    let channel := { channel with sent_close := true }
    { Turn.of channel [.close channel.channel_number] with
      finished := channel.received_close }
  else Turn.of channel []

def channel_eof (channel : ssh_channel) : Turn :=
  if !(channel.sent_eof || channel.sent_close || channel.received_close) then
    let channel := { channel with sent_eof := true }
    let message := channel_message.eof channel.channel_number
    if channel.close_at_eof && (channel.received_eof || channel.no_wait_for_eof) then
      -- Initiate close
      let turn := channel_close channel
      { turn with written := message :: turn.written }
    else Turn.of channel [message]
  else Turn.of channel []

/-- How much data may be read and sent now. -/
def do_read_data_query (channel : ssh_channel) : ℕ :=
  if channel.received_close || channel.sent_close || channel.sent_eof then 0
  else min channel.send_max_packet channel.send_window_size

/-- Both ways of sending data subtract it from the window; they differ in the message. -/
def transmit (channel : ssh_channel) (data : List UInt8) (message : channel_message) : Turn :=
  if data.length > channel.send_window_size then
    assertion channel "data->length <= channel->send_window_size"
  else if data.length > channel.send_max_packet then
    assertion channel "data->length <= channel->send_max_packet"
  else
    Turn.of { channel with send_window_size := channel.send_window_size-data.length } [message]

def channel_transmit_data (channel : ssh_channel) (data : List UInt8) : Turn :=
  transmit channel data (.data channel.channel_number data)

def channel_transmit_extended (channel : ssh_channel) (type : ℕ) (data : List UInt8) : Turn :=
  transmit channel data (.extended_data channel.channel_number type data)

/-- The part of a server session's `do_exit_shell` that follows the exit message. -/
def do_exit_shell (channel : ssh_channel) : Turn :=
  if !channel.sent_close then
    let channel := { channel with no_wait_for_eof := true, close_at_eof := true }
    if channel.sent_eof then
      -- We have sent EOF already, so initiate close
      channel_close channel
    else Turn.of channel []
  else Turn.of channel []

/-! ### Receiving -/

def window_adjust_handler (channel : ssh_channel) (size : ℕ) : Turn :=
  if !channel.received_close then
    if !(channel.sent_close || channel.sent_eof) then
      Turn.of { channel with send_window_size := UINT32 (channel.send_window_size+size) } []
    else Turn.of channel []
  else PROTOCOL_ERROR channel "Unexpected CHANNEL_WINDOW_ADJUST"

/-- What is left of arriving data: at most a packet, and at most the window. -/
def truncated (channel : ssh_channel) (data : List UInt8) : List UInt8 :=
  (data.take channel.rec_max_packet).take channel.rec_window_size

/-- Both handlers for data; `deliver` is the callback that gets what is left of it. -/
def data_handler (channel : ssh_channel) (data : List UInt8)
    (deliver : List UInt8 → List (Stream × List UInt8)) : Turn :=
  if channel.receive && !(channel.received_eof || channel.received_close) then
    if channel.sent_close then
      -- Ignoring data on channel which is closing
      Turn.of channel []
    else
      let data := truncated channel data
      if data.length = 0 then Turn.of channel []
      else
        { Turn.of { channel with rec_window_size := channel.rec_window_size-data.length } [] with
          received := deliver data }
  else Turn.of channel []

def channel_data_handler (channel : ssh_channel) (data : List UInt8) : Turn :=
  data_handler channel data fun data => [(.CHANNEL_DATA, data)]

def channel_extended_data_handler (channel : ssh_channel) (type : ℕ) (data : List UInt8) :
    Turn :=
  data_handler channel data fun data =>
    if type = SSH_EXTENDED_DATA_STDERR then [(.CHANNEL_STDERR_DATA, data)] else []

def channel_eof_handler (channel : ssh_channel) : Turn :=
  if channel.received_eof || channel.received_close then
    PROTOCOL_ERROR channel "Received EOF on channel on closed channel."
  else
    let channel := { channel with received_eof := true }
    if channel.eof then
      -- Should we close the channel now?
      if channel.sent_eof && channel.close_at_eof then channel_close channel
      else Turn.of channel []
    else
      -- By default, close the channel.
      channel_close channel

def channel_close_handler (channel : ssh_channel) : Turn :=
  if channel.received_close then
    PROTOCOL_ERROR channel "Receiving multiple CLOSE on channel."
  else
    let channel := { channel with received_close := true }
    if channel.sent_close then { Turn.of channel [] with finished := true }
    else channel_close channel

/-- The handler of a message, once its channel has been looked up. -/
def handler (channel : ssh_channel) : channel_message → Turn
  | .window_adjust _ size => window_adjust_handler channel size
  | .data _ data => channel_data_handler channel data
  | .extended_data _ type data => channel_extended_data_handler channel type data
  | .eof _ => channel_eof_handler channel
  | .close _ => channel_close_handler channel

/-- The protocol error for a message to a channel that does not exist; data is ignored. -/
def nonexistent : channel_message → Option String
  | .window_adjust _ _ => some "Unexpected CHANNEL_WINDOW_ADJUST"
  | .data _ _ => none
  | .extended_data _ _ _ => none
  | .eof _ => some "EOF on non-existant channel"
  | .close _ => some "CLOSE on non-existant channel"

end Channels
