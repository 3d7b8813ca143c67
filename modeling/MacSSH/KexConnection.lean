import MacSSH.KexInit
import MacSSH.DiffieHellman
import MacSSH.Packets

/-! A connection as the key exchange sees it: the state that says which messages may come, the
handlers that are installed for them, and the keys that the exchange ends with. -/
namespace KeyExchange
open Ciphers Messages
open Atoms (chars)

def SSH_MSG_DISCONNECT : ℕ := 1

def SSH_MSG_IGNORE : ℕ := 2

def SSH_MSG_UNIMPLEMENTED : ℕ := 3

def SSH_MSG_DEBUG : ℕ := 4

def SSH_MSG_NEWKEYS : ℕ := 21

def SSH_DISCONNECT_PROTOCOL_ERROR : ℕ := 2

def SSH_DISCONNECT_KEY_EXCHANGE_FAILED : ℕ := 3

inductive KexState
  | KEX_STATE_INIT
  | KEX_STATE_IGNORE
  | KEX_STATE_IN_PROGRESS
  | KEX_STATE_NEWKEYS
  deriving DecidableEq, Repr

/-- Why a connection ends. A failed assertion, a failed cast and the use of a missing object
are all fatal. -/
inductive Failure
  | fatal
  | EXC_PROTOCOL (reason : ℕ) (msg : String)
  | EXC_FINISH_IO
  deriving DecidableEq, Repr

def Mode.other : Mode → Mode
  | .client => .server
  | .server => .client

/-- The bit in the flags of a connection. -/
def Mode.flag : Mode → ℕ
  | .client => 0
  | .server => 1

section
variable {N S T M C : Type}

/-- A packet as it is written, and the keys that are installed for sending after it. -/
structure Packet (S M C : Type) where
  payload : List UInt8
  newkeys : Option (Keys S M C)

/-- The same algorithms for both directions. -/
structure simple_kexinit where
  kex_algorithms : List ℕ
  hostkey_algorithms : List ℕ
  crypto_algorithms : List ℕ
  mac_algorithms : List ℕ
  compression_algorithms : List ℕ
  languages : List ℕ

def do_make_simple_kexinit (closure : simple_kexinit) (cookie : List UInt8) : kexinit :=
  { cookie := cookie
    kex_algorithms := closure.kex_algorithms
    server_hostkey_algorithms := closure.hostkey_algorithms
    parameters :=
      [closure.crypto_algorithms, closure.crypto_algorithms, closure.mac_algorithms,
        closure.mac_algorithms, closure.compression_algorithms, closure.compression_algorithms]
    languages_client_to_server := closure.languages
    languages_server_to_client := closure.languages
    first_kex_packet_follows := 0 }

structure keypair where
  publicKey : List UInt8
  sign : ℕ → List UInt8 → List UInt8

/-- Checks a signature that has been made with an algorithm. -/
abbrev verifier : Type := ℕ → List UInt8 → List UInt8 → Bool

/-- What each side needs besides the algorithms: how to find the verifier for a host key, or
the key pairs themselves. -/
inductive Extra
  | verifiers (lookup : ℕ → List UInt8 → Option verifier)
  | keys (keys : ℕ → Option keypair)

def Extra.mode : Extra → Mode
  | .verifiers _ => .client
  | .keys _ => .server

/-- What the handlers have besides the connection. The handlers of messages that have nothing
to do with the exchange are given by type and number of the packet. -/
structure kexinit_handler (N S T M C : Type) where
  init : simple_kexinit
  extra : Extra
  algorithms : ℕ → Option (Algorithm S T M C (dh_method N))
  dispatch : ℕ → ℕ → List UInt8 → List (List UInt8) × Option Failure
  verbose_flag : Bool

def kexinit_handler.mode (closure : kexinit_handler N S T M C) : Mode :=
  closure.extra.mode

/-- The handler for the message that the other end sends in the exchange. -/
inductive Exchange (N S T M C : Type)
  | client (dh : dh_instance N) (hostkey_algorithm : ℕ)
      (lookup : ℕ → List UInt8 → Option verifier)
      (algorithms : List (Option (Algorithm S T M C (dh_method N))))
  | server (dh : dh_instance N) (hostkey_algorithm : ℕ) (key : keypair)
      (algorithms : List (Option (Algorithm S T M C (dh_method N))))

structure ssh_connection (N S T M C : Type) where
  kex_state : KexState
  versions : Mode → Option (List UInt8)
  kexinits : Mode → Option kexinit
  literal_kexinits : Mode → Option (List UInt8)
  session_id : Option (List UInt8)
  -- the handlers in the dispatch table
  exchange : Option (Exchange N S T M C)
  newkeys : Option (Keys T M C)
  rec_max_packet : ℕ

/-- What the handling of a packet leaves: the packets that have been written, the keys that
have been installed for receiving, and why the connection has ended. -/
structure Handled (N S T M C : Type) where
  connection : ssh_connection N S T M C
  sent : List (Packet S M C)
  newkeys : Option (Keys T M C)
  error : Option Failure

/-- The random numbers that are drawn while a packet is handled. -/
structure Random where
  cookie : List UInt8
  number : ℕ

def Handled.done (connection : ssh_connection N S T M C) (sent : List (Packet S M C)) :
    Handled N S T M C :=
  { connection := connection, sent := sent, newkeys := none, error := none }

def fatal (connection : ssh_connection N S T M C) (sent : List (Packet S M C)) :
    Handled N S T M C :=
  { connection := connection, sent := sent, newkeys := none, error := some .fatal }

/-- The exception handler of the connection tells the other end. -/
def raise_protocol (connection : ssh_connection N S T M C) (sent : List (Packet S M C))
    (reason : ℕ) (msg : String) : Handled N S T M C :=
  match ssh_format "%c%i%z%z"
      [.char SSH_MSG_DISCONNECT, .int reason, .cstring (chars msg), .cstring []] with
  | none => fatal connection sent
  | some packet =>
    { connection := connection
      sent := sent ++ [{ payload := packet, newkeys := none }]
      newkeys := none
      error := some (.EXC_PROTOCOL reason msg) }

def PROTOCOL_ERROR (connection : ssh_connection N S T M C) (sent : List (Packet S M C))
    (msg : String) : Handled N S T M C :=
  raise_protocol connection sent SSH_DISCONNECT_PROTOCOL_ERROR msg

def disconnect_kex_failed (connection : ssh_connection N S T M C) (sent : List (Packet S M C))
    (msg : String) : Handled N S T M C :=
  raise_protocol connection sent SSH_DISCONNECT_KEY_EXCHANGE_FAILED msg

def connection_fail_handler (connection : ssh_connection N S T M C) : Handled N S T M C :=
  PROTOCOL_ERROR connection [] "Protocol error"

/-! ### The proposals -/

/-- Sends the proposal that is in the connection. `none` is a failed assertion; there is never
a first packet to go with the proposal. -/
def initiate_keyexchange (closure : kexinit_handler N S T M C)
    (connection : ssh_connection N S T M C) :
    Option (ssh_connection N S T M C × List (Packet S M C)) :=
  (connection.kexinits closure.mode).bind fun kex =>
    if kex.first_kex_packet_follows ≠ 0 ∨ connection.kex_state ≠ .KEX_STATE_INIT then none
    else
      (format_kex kex).map fun s =>
        ({ connection with
            literal_kexinits := Function.update connection.literal_kexinits closure.mode (some s) },
          [{ payload := s, newkeys := none }])

/-- Makes a proposal and sends it, as the handshake does. -/
def propose (closure : kexinit_handler N S T M C) (cookie : List UInt8)
    (connection : ssh_connection N S T M C) :
    Option (ssh_connection N S T M C × List (Packet S M C)) :=
  initiate_keyexchange closure
    { connection with
      kexinits := Function.update connection.kexinits closure.mode
        (some (do_make_simple_kexinit closure.init cookie)) }

/-- Sends a proposal if there has been none before. -/
def send_kexinit (closure : kexinit_handler N S T M C) (cookie : List UInt8)
    (connection : ssh_connection N S T M C) :
    Option (ssh_connection N S T M C × List (Packet S M C)) :=
  match connection.kexinits closure.mode with
  | some _ => some (connection, [])
  | none =>
    let sent := do_make_simple_kexinit closure.init cookie
    (format_kex sent).map fun packet =>
      ({ connection with
          kexinits := Function.update connection.kexinits closure.mode (some sent)
          literal_kexinits :=
            Function.update connection.literal_kexinits closure.mode (some packet) },
        [{ payload := packet, newkeys := none }])

/-- The method of the exchange and the state that the connection goes to. When the first
choices differ and the other end has sent a packet on its guess, that packet is ignored. -/
def select_kex (connection : ssh_connection N S T M C) (msg client server : kexinit) :
    KexState × Option ℕ :=
  if client.kex_algorithms.head? = server.kex_algorithms.head? then
    (.KEX_STATE_IN_PROGRESS, client.kex_algorithms.head?)
  else
    let kex_algorithm_atom := select_algorithm client.kex_algorithms server.kex_algorithms
    (if msg.first_kex_packet_follows ≠ 0 then .KEX_STATE_IGNORE else connection.kex_state,
      if kex_algorithm_atom = 0 then none else some kex_algorithm_atom)

def select_parameters (client server : kexinit) : Option (List ℕ) :=
  let parameters := (List.range KEX_PARAMETERS).map fun i =>
    select_algorithm (client.parameters.getD i []) (server.parameters.getD i [])
  if 0 ∈ parameters then none else some parameters

def do_init_client_dh (connection : ssh_connection N S T M C) (sent : List (Packet S M C))
    (method : dh_method N) (random : ℕ) (hostkey_algorithm : ℕ)
    (lookup : ℕ → List UInt8 → Option verifier)
    (algorithms : List (Option (Algorithm S T M C (dh_method N)))) : Handled N S T M C :=
  match (init_dh_instance method connection.versions connection.literal_kexinits).bind fun dh =>
      dh_make_client_msg dh random with
  | none => fatal connection sent
  | some (dh, packet) =>
    .done { connection with exchange := some (.client dh hostkey_algorithm lookup algorithms) }
      (sent ++ [{ payload := packet, newkeys := none }])

def do_init_server_dh (connection : ssh_connection N S T M C) (sent : List (Packet S M C))
    (method : dh_method N) (random : ℕ) (hostkey_algorithm : ℕ) (keys : ℕ → Option keypair)
    (algorithms : List (Option (Algorithm S T M C (dh_method N)))) : Handled N S T M C :=
  match keys hostkey_algorithm with
  | none => disconnect_kex_failed connection sent "Configuration error"
  | some key =>
    match init_dh_instance method connection.versions connection.literal_kexinits with
    | none => fatal connection sent
    | some dh =>
      let dh := dh_make_server_secret dh random
      .done { connection with exchange := some (.server dh hostkey_algorithm key algorithms) } sent

/-- The rest of `do_handle_kexinit`, when both proposals are there. -/
def select_algorithms (closure : kexinit_handler N S T M C) (random : ℕ)
    (connection : ssh_connection N S T M C) (sent : List (Packet S M C))
    (msg client server : kexinit) : Handled N S T M C :=
  let kex := select_kex connection msg client server
  let connection := { connection with kex_state := kex.1 }
  match kex.2 with
  | none => disconnect_kex_failed connection sent "No common key exchange method.\r\n"
  | some kex_algorithm_atom =>
    let hostkey_algorithm_atom :=
      select_algorithm client.server_hostkey_algorithms server.server_hostkey_algorithms
    if hostkey_algorithm_atom = 0 then
      disconnect_kex_failed connection sent "No common hostkey algorithm.\r\n"
    else
      match select_parameters client server with
      | none => disconnect_kex_failed connection sent "Algorithm negotiation failed."
      | some parameters =>
        let algorithms := parameters.map closure.algorithms
        match closure.algorithms kex_algorithm_atom, closure.extra with
        | some (.keyexchange method), .verifiers lookup =>
          do_init_client_dh connection sent method random hostkey_algorithm_atom lookup algorithms
        | some (.keyexchange method), .keys keys =>
          do_init_server_dh connection sent method random hostkey_algorithm_atom keys algorithms
        | _, _ => fatal connection sent

def do_handle_kexinit (closure : kexinit_handler N S T M C) (random : Random)
    (connection : ssh_connection N S T M C) (packet : List UInt8) : Handled N S T M C :=
  if connection.kex_state ≠ .KEX_STATE_INIT then
    PROTOCOL_ERROR connection [] "Unexpected KEXINIT message."
  else
    match parse_kexinit packet with
    | none => disconnect_kex_failed connection [] "Invalid KEXINIT message."
    | some msg =>
      if msg.kex_algorithms = [] then
        disconnect_kex_failed connection [] "No keyexchange method."
      else
        -- Save value for later signing
        let connection := { connection with
          literal_kexinits :=
            Function.update connection.literal_kexinits closure.mode.other (some packet)
          kexinits := Function.update connection.kexinits closure.mode.other (some msg) }
        match send_kexinit closure random.cookie connection with
        | none => fatal connection []
        | some (connection, sent) =>
          match connection.kexinits .client, connection.kexinits .server with
          | some client, some server =>
            select_algorithms closure random.number connection sent msg client server
          | _, _ => fatal connection sent

/-! ### The end of an exchange -/

/-- The state of the hash that session keys are generated from. -/
def kex_build_secret (method : dh_method N) (exchange_hash K : List UInt8) : Option N :=
  (ssh_format "%S%lS" [.string K, .string exchange_hash]).map fun s =>
    method.H.update method.make_hash s

def make_debug_packet (msg : String) (always_display : ℕ) : Option (List UInt8) :=
  ssh_format "%c%c%z%z"
    [.char SSH_MSG_DEBUG, .char always_display, .cstring (chars msg), .cstring []]

def send_verbose (verbose_flag : Bool) (msg : String) (always_display : ℕ) :
    Option (List (Packet S M C)) :=
  if verbose_flag then
    (make_debug_packet msg always_display).map fun packet =>
      [{ payload := packet, newkeys := none }]
  else some []

def keyexchange_finish (closure : kexinit_handler N S T M C)
    (connection : ssh_connection N S T M C) (sent : List (Packet S M C))
    (algorithms : List (Option (Algorithm S T M C (dh_method N)))) (method : dh_method N)
    (exchange_hash K : List UInt8) : Handled N S T M C :=
  match ssh_format "%c" [.char SSH_MSG_NEWKEYS], kex_build_secret method exchange_hash K with
  | some packet, some hash =>
    -- Record session id
    let session_id := connection.session_id.getD exchange_hash
    let connection := { connection with session_id := some session_id }
    match install_keys method.H algorithms closure.mode.flag hash session_id with
    | none => fatal connection (sent ++ [{ payload := packet, newkeys := none }])
    | some none =>
      PROTOCOL_ERROR connection (sent ++ [{ payload := packet, newkeys := none }])
        "Refusing to use weak key."
    | some (some (receive, send)) =>
      let connection := { connection with
        newkeys := some receive
        kex_state := .KEX_STATE_NEWKEYS }
      let sent := sent ++ [{ payload := packet, newkeys := some send }]
      match send_verbose closure.verbose_flag "Key exchange successful!" 0 with
      | none => fatal connection sent
      | some debug => .done connection (sent ++ debug)
  | _, _ => fatal connection sent

def do_handle_dh_init (closure : kexinit_handler N S T M C)
    (connection : ssh_connection N S T M C) (dh : dh_instance N) (hostkey_algorithm : ℕ)
    (key : keypair) (algorithms : List (Option (Algorithm S T M C (dh_method N))))
    (packet : List UInt8) : Handled N S T M C :=
  match dh_process_client_msg dh packet with
  | none => disconnect_kex_failed connection [] "Bad dh-init\r\n"
  | some dh =>
    match dh_make_server_msg dh key.publicKey hostkey_algorithm key.sign with
    | none => fatal connection []
    | some (dh, reply) =>
      let connection := { connection with exchange := none }
      match dh.exchange_hash, dh.K with
      | some exchange_hash, some K =>
        keyexchange_finish closure connection [{ payload := reply, newkeys := none }] algorithms
          dh.method exchange_hash K
      | _, _ => fatal connection [{ payload := reply, newkeys := none }]

def do_handle_dh_reply (closure : kexinit_handler N S T M C)
    (connection : ssh_connection N S T M C) (dh : dh_instance N) (hostkey_algorithm : ℕ)
    (lookup : ℕ → List UInt8 → Option verifier)
    (algorithms : List (Option (Algorithm S T M C (dh_method N))))
    (packet : List UInt8) : Handled N S T M C :=
  match dh_process_server_msg dh packet with
  | none => disconnect_kex_failed connection [] "Bad dh-reply\r\n"
  | some (none, _, _) => fatal connection []
  | some (some dh, server_key, signature) =>
    match lookup hostkey_algorithm server_key with
    | none => disconnect_kex_failed connection [] "Bad server host key\r\n"
    | some v =>
      match dh.exchange_hash, dh.K with
      | some exchange_hash, some K =>
        if ¬ v hostkey_algorithm exchange_hash signature then
          disconnect_kex_failed connection [] "Invalid server signature\r\n"
        else
          keyexchange_finish closure { connection with exchange := none } [] algorithms dh.method
            exchange_hash K
      | _, _ => fatal connection []

def do_handle_newkeys (connection : ssh_connection N S T M C) (keys : Keys T M C)
    (packet : List UInt8) : Handled N S T M C :=
  match parse_uint8 packet with
  | some (msg_number, r) =>
    if msg_number = SSH_MSG_NEWKEYS ∧ parse_eod r then
      { connection := { connection with
          kex_state := .KEX_STATE_INIT
          kexinits := fun _ => none
          literal_kexinits := fun _ => none
          newkeys := none }
        sent := []
        newkeys := some keys
        error := none }
    else PROTOCOL_ERROR connection [] "Invalid NEWKEYS message"
  | none => PROTOCOL_ERROR connection [] "Invalid NEWKEYS message"

/-! ### All packets -/

/-- The dispatch table. A handler that has been taken out of it leaves the one that fails,
except the one for NEWKEYS, which leaves nothing. -/
def HANDLE_PACKET (closure : kexinit_handler N S T M C) (random : Random)
    (connection : ssh_connection N S T M C) (msg sequence_number : ℕ) (packet : List UInt8) :
    Handled N S T M C :=
  if msg = SSH_MSG_KEXINIT then do_handle_kexinit closure random connection packet
  else if msg = SSH_MSG_NEWKEYS then
    match connection.newkeys with
    | none => fatal connection []
    | some keys => do_handle_newkeys connection keys packet
  else if msg = SSH_MSG_KEXDH_INIT then
    match connection.exchange with
    | some (.server dh hostkey_algorithm key algorithms) =>
      do_handle_dh_init closure connection dh hostkey_algorithm key algorithms packet
    | _ => connection_fail_handler connection
  else if msg = SSH_MSG_KEXDH_REPLY then
    match connection.exchange with
    | some (.client dh hostkey_algorithm lookup algorithms) =>
      do_handle_dh_reply closure connection dh hostkey_algorithm lookup algorithms packet
    | _ => connection_fail_handler connection
  else
    let r := closure.dispatch msg sequence_number packet
    { connection := connection
      sent := r.1.map fun packet => { payload := packet, newkeys := none }
      newkeys := none
      error := r.2 }

def connection_handle_packet (closure : kexinit_handler N S T M C) (random : Random)
    (connection : ssh_connection N S T M C) (sequence_number : ℕ) (packet : List UInt8) :
    Handled N S T M C :=
  match packet with
  | [] => PROTOCOL_ERROR connection [] "Received empty packet."
  | msg :: _ =>
    let msg := msg.toNat
    if packet.length > connection.rec_max_packet then
      PROTOCOL_ERROR connection [] "Packet too large"
    else
      match connection.kex_state with
      | .KEX_STATE_INIT =>
        if msg = SSH_MSG_NEWKEYS then
          PROTOCOL_ERROR connection [] "Unexpected NEWKEYS message!"
        else HANDLE_PACKET closure random connection msg sequence_number packet
      | .KEX_STATE_IGNORE => .done { connection with kex_state := .KEX_STATE_IN_PROGRESS } []
      | .KEX_STATE_IN_PROGRESS =>
        if msg = SSH_MSG_NEWKEYS ∨ msg = SSH_MSG_KEXINIT then
          PROTOCOL_ERROR connection [] "Unexpected KEXINIT or NEWKEYS message!"
        else HANDLE_PACKET closure random connection msg sequence_number packet
      | .KEX_STATE_NEWKEYS =>
        if ¬ (msg = SSH_MSG_NEWKEYS ∨ msg = SSH_MSG_DISCONNECT ∨ msg = SSH_MSG_IGNORE ∨
            msg = SSH_MSG_DEBUG) then
          PROTOCOL_ERROR connection [] "Expected NEWKEYS message"
        else HANDLE_PACKET closure random connection msg sequence_number packet

/-! ### The other handlers -/

def protocol_failure (msg : String) : List (List UInt8) × Option Failure :=
  match ssh_format "%c%i%z%z" [.char SSH_MSG_DISCONNECT, .int SSH_DISCONNECT_PROTOCOL_ERROR,
      .cstring (chars msg), .cstring []] with
  | none => ([], some .fatal)
  | some packet => ([packet], some (.EXC_PROTOCOL SSH_DISCONNECT_PROTOCOL_ERROR msg))

def connection_debug_handler (packet : List UInt8) : List (List UInt8) × Option Failure :=
  let language := (parse_uint8 packet).bind fun msg_number =>
    (parse_uint8 msg_number.2).bind fun always_display =>
      (parse_string always_display.2).bind fun msg => parse_atom msg.2
  match language with
  | none => protocol_failure "Invalid DEBUG message."
  | some (_, r) => if parse_eod r then ([], none) else protocol_failure "Invalid DEBUG message."

def connection_unimplemented_handler (sequence_number : ℕ) :
    List (List UInt8) × Option Failure :=
  match ssh_format "%c%i" [.char SSH_MSG_UNIMPLEMENTED, .int sequence_number] with
  | none => ([], some .fatal)
  | some packet => ([packet], none)

/-- The known message types that terminate the connection. -/
def failing : List ℕ :=
  [0, SSH_MSG_UNIMPLEMENTED, 5, 6, SSH_MSG_NEWKEYS, SSH_MSG_KEXDH_INIT, SSH_MSG_KEXDH_REPLY, 50,
    51, 52, 53, 60, 80, 81, 82, 90, 91, 92, 93, 94, 95, 96, 97, 98, 99, 100]

/-- The handlers of a connection that no service uses yet. -/
def initial_dispatch (msg sequence_number : ℕ) (packet : List UInt8) :
    List (List UInt8) × Option Failure :=
  if msg ∈ failing then protocol_failure "Protocol error"
  else if msg = SSH_MSG_DISCONNECT then ([], some Failure.EXC_FINISH_IO)
  else if msg = SSH_MSG_IGNORE then ([], none)
  else if msg = SSH_MSG_DEBUG then connection_debug_handler packet
  else connection_unimplemented_handler sequence_number

/-- A connection when the versions have been exchanged. -/
def make_ssh_connection (versions : Mode → Option (List UInt8)) :
    ssh_connection N S T M C :=
  { kex_state := .KEX_STATE_INIT
    versions := versions
    kexinits := fun _ => none
    literal_kexinits := fun _ => none
    session_id := none
    exchange := none
    newkeys := none
    rec_max_packet := Packets.SSH_MAX_PACKET }

end

end KeyExchange
