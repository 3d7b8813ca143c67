import MacSSH.StatefulCiphers
import MacSSH.MessageParse

/-! The packets of the transport protocol. A payload is padded to whole blocks, encrypted
and authenticated; the reader takes the stream apart again, in pieces of whatever size the
network gives it. -/
namespace Packets
open Ciphers Messages

def SSH_MAX_PACKET : ℕ := 0x8000

def SSH_MAX_PACKET_FUZZ : ℕ := 35000-SSH_MAX_PACKET

section
variable {S T M P : Type} (E : Cipher S) (D : Cipher T) (A : Mac M)

/-- The block size in use; without a cipher it is 8. -/
def blockSize {S : Type} (C : Cipher S) (crypto : Option S) : ℕ :=
  (crypto.map C.block).getD 8

/-! ### Writing -/

/-- The keys of a direction: cipher and authentication, if any, and the number of the next
packet. -/
structure Sending (S M : Type) where
  send_crypto : Option S
  send_mac : Option M
  sequence_number : ℕ

/-- Pad a payload with random bytes; `none` is a failed assertion. -/
def do_pad (connection : Sending S M) (random : ℕ → UInt8) (packet : List UInt8) :
    Option (List UInt8) :=
  let block_size := blockSize E connection.send_crypto
  -- new_size is (packet->length + 9) rounded up to a multiple of block_size
  let new_size := block_size*(1+(8+packet.length)/block_size)
  let padding := new_size-packet.length-5
  let new := WRITE_UINT32 (packet.length+padding+1) ++ [UInt8.ofNat padding] ++ packet ++
    (List.range padding).map random
  if 4 ≤ padding ∧ padding < 256 ∧ new.length = new_size then some new else none

/-- Encrypt a padded packet, and append its code. -/
def do_encrypt (connection : Sending S M) (packet : List UInt8) :
    Sending S M × List UInt8 :=
  let crypted := connection.send_crypto.map fun s => E.crypt s packet
  let mac := connection.send_mac.map fun m =>
    A.digest (A.update (A.update m (WRITE_UINT32 connection.sequence_number)) packet)
  ({ send_crypto := crypted.map Prod.fst
     send_mac := mac.map Prod.fst
     sequence_number := (connection.sequence_number+1)%2^32 },
    (crypted.map Prod.snd).getD packet ++ (mac.map Prod.snd).getD [])

/-! ### Reading -/

/-- What the reader uses of the connection, and the rest of it, which only the handlers of
the packets use. -/
structure ssh_connection (T M P : Type) where
  rec_crypto : Option T
  rec_mac : Option M
  rec_max_packet : ℕ
  rest : P

/-- `CRYPT` with the receiving cipher, if there is one. -/
def CRYPT (connection : ssh_connection T M P) (src : List UInt8) :
    ssh_connection T M P × List UInt8 :=
  match connection.rec_crypto with
  | none => (connection, src)
  | some t => ({ connection with rec_crypto := some (D.crypt t src).1 }, (D.crypt t src).2)

/-- `HASH_UPDATE` with the receiving code, if there is one. -/
def HASH_UPDATE (connection : ssh_connection T M P) (src : List UInt8) :
    ssh_connection T M P :=
  { connection with rec_mac := connection.rec_mac.map fun m => A.update m src }

inductive ReadState
  | WAIT_START
  | WAIT_HEADER
  | WAIT_CONTENTS
  | WAIT_MAC
  deriving DecidableEq, Repr

/-- The reader. Each buffer holds the bytes that are in it so far, so that `pos` is the
length of the one that is being filled; `packet_length` is the length the packet buffer
was allocated with. -/
structure read_packet (T M P : Type) where
  state : ReadState
  sequence_number : ℕ
  block_buffer : List UInt8
  mac_buffer : List UInt8
  packet_buffer : List UInt8
  packet_length : ℕ
  packet_number : ℕ
  crypt_pos : ℕ
  connection : ssh_connection T M P

def make_read_packet (connection : ssh_connection T M P) : read_packet T M P :=
  { state := .WAIT_START
    sequence_number := 0
    block_buffer := []
    mac_buffer := []
    packet_buffer := []
    packet_length := 0
    packet_number := 0
    crypt_pos := 0
    connection := connection }

/-- A call of the reader: what it has consumed, the packet it hands on with its number, and
the exception or assertion that stopped it. -/
structure Outcome (T M P : Type) where
  closure : read_packet T M P
  total : ℕ
  packet : Option (ℕ × List UInt8)
  error : Option String

/-- Return for want of data. -/
def Outcome.more (closure : read_packet T M P) (total : ℕ) : Outcome T M P :=
  { closure := closure, total := total, packet := none, error := none }

def Outcome.failed (closure : read_packet T M P) (total : ℕ) (error : String) :
    Outcome T M P :=
  { closure := closure, total := total, packet := none, error := some error }

/-- MAC was ok, send packet on. -/
def send_on (closure : read_packet T M P) (total : ℕ) : Outcome T M P :=
  { closure := { closure with state := .WAIT_START, packet_buffer := [] }
    total := total
    packet := some (closure.packet_number, closure.packet_buffer)
    error := none }

/-- From the label `WAIT_MAC` on. -/
def wait_mac (closure : read_packet T M P) (data : List UInt8) (total : ℕ) : Outcome T M P :=
  match closure.connection.rec_mac with
  | none => send_on closure total
  | some m =>
    let left := A.size m-closure.mac_buffer.length
    if left = 0 then Outcome.failed closure total "left"
    else if data.length < left then
      Outcome.more { closure with mac_buffer := closure.mac_buffer ++ data }
        (total+data.length)
    else
      -- Read a complete MAC
      let mac_buffer := closure.mac_buffer ++ data.take left
      let closure := { closure with
        mac_buffer := mac_buffer
        connection := { closure.connection with rec_mac := some (A.digest m).1 } }
      if (A.digest m).2 ≠ mac_buffer then Outcome.failed closure (total+left) "MAC error"
      else send_on closure (total+left)

def do_mac (closure : read_packet T M P) (data : List UInt8) (total : ℕ) : Outcome T M P :=
  wait_mac A { closure with state := .WAIT_MAC, mac_buffer := [] } data total

/-- From the label `WAIT_CONTENTS` on. -/
def wait_contents (closure : read_packet T M P) (data : List UInt8) (total : ℕ) :
    Outcome T M P :=
  let left := closure.packet_length-closure.packet_buffer.length
  if left = 0 then Outcome.failed closure total "left"
  else if data.length < left then
    Outcome.more { closure with packet_buffer := closure.packet_buffer ++ data }
      (total+data.length)
  else
    -- Read a complete packet
    let packet := closure.packet_buffer ++ data.take left
    let src := packet.drop closure.crypt_pos
    if ¬ blockSize D closure.connection.rec_crypto ∣ src.length then
      Outcome.failed closure (total+left) "Internal error"
    else
      let r := CRYPT D closure.connection src
      let closure := { closure with
        packet_buffer := packet.take closure.crypt_pos ++ r.2
        connection := HASH_UPDATE A r.1 r.2 }
      do_mac A closure (data.drop left) (total+left)

def do_contents (closure : read_packet T M P) (data : List UInt8) (total : ℕ) :
    Outcome T M P :=
  wait_contents D A { closure with state := .WAIT_CONTENTS } data total

/-- From the label `WAIT_HEADER` on. -/
def wait_header (closure : read_packet T M P) (data : List UInt8) (total : ℕ) :
    Outcome T M P :=
  let block_size := blockSize D closure.connection.rec_crypto
  let left := block_size-closure.block_buffer.length
  if left = 0 then Outcome.failed closure total "left"
  else if data.length < left then
    Outcome.more { closure with block_buffer := closure.block_buffer ++ data }
      (total+data.length)
  else
    -- We have read a complete block
    let r := CRYPT D closure.connection (closure.block_buffer ++ data.take left)
    let closure := { closure with block_buffer := r.2, connection := r.1 }
    let length := READ_UINT32 r.2
    if length > closure.connection.rec_max_packet+SSH_MAX_PACKET_FUZZ then
      Outcome.failed closure (total+left) "Packet too large"
    else if length < 12 ∨ length < block_size-4 ∨ (length+4)%block_size ≠ 0 then
      Outcome.failed closure (total+left) "Invalid packet length"
    else
      -- Process this block before the length field is lost.
      let connection := HASH_UPDATE A
        (HASH_UPDATE A closure.connection (WRITE_UINT32 closure.sequence_number)) r.2
      let done := block_size-4
      let closure := { closure with
        packet_buffer := (r.2.drop 4).take done
        packet_length := length
        packet_number := closure.sequence_number
        sequence_number := (closure.sequence_number+1)%2^32
        crypt_pos := done
        connection := connection }
      if done = length then do_mac A closure (data.drop left) (total+left)
      else do_contents D A closure (data.drop left) (total+left)

/-- One call of the reader, with data. -/
def do_read_packet (closure : read_packet T M P) (data : List UInt8) : Outcome T M P :=
  match closure.state with
  | .WAIT_START =>
    wait_header D A { closure with state := .WAIT_HEADER, block_buffer := [] } data 0
  | .WAIT_HEADER => wait_header D A closure data 0
  | .WAIT_CONTENTS => wait_contents D A closure data 0
  | .WAIT_MAC => wait_mac A closure data 0

/-- What a handler does with a packet: it changes the rest of the connection, may install
new keys, and may raise an exception. -/
structure Handled (T M P : Type) where
  rest : P
  newkeys : Option (Option T × Option M)
  error : Option String

/-- The connection after a packet has been handled. -/
def Handled.connection (handled : Handled T M P) (connection : ssh_connection T M P) :
    ssh_connection T M P :=
  match handled.newkeys with
  | none => { connection with rest := handled.rest }
  | some keys =>
    { connection with rec_crypto := keys.1, rec_mac := keys.2, rest := handled.rest }

/-- The reader with what it has handed on so far. -/
structure Reading (T M P : Type) where
  closure : read_packet T M P
  packets : List (ℕ × List UInt8)
  error : Option String

variable (handler : ℕ × List UInt8 → P → Handled T M P)

/-- A call of the reader with the data that is left, and `A_WRITE` of the packet. -/
def read_handler (reading : Reading T M P) (data : List UInt8) : Reading T M P × ℕ :=
  let r := do_read_packet D A reading.closure data
  match r.packet with
  | none => ({ reading with closure := r.closure, error := r.error }, r.total)
  | some packet =>
    let handled := handler packet r.closure.connection.rest
    ({ closure := { r.closure with connection := handled.connection r.closure.connection }
       packets := reading.packets ++ [packet]
       error := handled.error }, r.total)

/-- The loop of `do_buffered_read`: the reader is called until it has consumed all the data
or an exception has been raised. `none` is a loop that does not end in `fuel` rounds. -/
def do_buffered_read : ℕ → Reading T M P → List UInt8 → Option (Reading T M P)
  | fuel, reading, data =>
    if data = [] ∨ reading.error ≠ none then some reading
    else
      match fuel with
      | 0 => none
      | fuel+1 =>
        let r := read_handler D A handler reading data
        do_buffered_read fuel r.1 (data.drop r.2)

/-- All the data the network gives, piece by piece. -/
def buffered_reads : Reading T M P → List (List UInt8) → Option (Reading T M P)
  | reading, [] => some reading
  | reading, data :: pieces =>
    (do_buffered_read D A handler data.length reading data).bind fun reading =>
      buffered_reads reading pieces

/-- A packet as it is handed on is unpadded. -/
def do_unpad (rec_max_packet : ℕ) (packet : List UInt8) : Except String (List UInt8) :=
  match packet with
  | [] => .error "Empty packet received."
  | padding_length :: _ =>
    if padding_length.toNat < 4 ∨ packet.length ≤ padding_length.toNat then
      .error "Bogus padding length."
    else
      let payload_length := packet.length-1-padding_length.toNat
      if rec_max_packet+SSH_MAX_PACKET_FUZZ < payload_length then
        .error "Max payload length exceeded."
      else .ok ((packet.drop 1).take payload_length)

end

end Packets
