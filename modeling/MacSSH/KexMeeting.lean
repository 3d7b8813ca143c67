import MacSSH.KexConnection

/-! Two ends that have algorithms in common. Each goes through the same stages; what it sends
at a stage and what a packet of the other end does to it are computed here once. -/
namespace KeyExchange
open Ciphers Bignums Messages
open Atoms (chars)

section
variable {N S T M C : Type}

/-- A value for each end. -/
def both {α : Type} (a b : α) : Mode → α
  | .client => a
  | .server => b

/-! ### Proposals -/

/-- Lists that can be sent as they are, with a method for the exchange, in one packet. -/
structure simple_kexinit.Proper (init : simple_kexinit) : Prop where
  lists : ∀ l ∈ [init.kex_algorithms, init.hostkey_algorithms, init.crypto_algorithms,
    init.mac_algorithms, init.compression_algorithms, init.languages], Sendable l ∧ 0 ∉ l
  kex_algorithms : init.kex_algorithms ≠ []
  short : ∀ cookie : List UInt8, cookie.length = 16 →
    ∀ packet, format_kex (do_make_simple_kexinit init cookie) = some packet →
      packet.length ≤ Packets.SSH_MAX_PACKET

def kexinit_packet (init : simple_kexinit) (cookie : List UInt8) : List UInt8 :=
  (format_kex (do_make_simple_kexinit init cookie)).getD []

variable {init : simple_kexinit} {cookie : List UInt8}

theorem format_proposal :
    format_kex (do_make_simple_kexinit init cookie) = some (kexinit_packet init cookie) := by
  have hformat := @format_kex_eq (do_make_simple_kexinit init cookie) rfl
  rw [kexinit_packet, hformat]
  rfl

theorem kexinit_packet_cons : ∃ r, kexinit_packet init cookie = 20 :: r := by
  have hformat := @format_kex_eq (do_make_simple_kexinit init cookie) rfl
  rw [kexinit_packet, hformat]
  exact ⟨_, rfl⟩

theorem length_kexinit_packet (h : init.Proper) (hcookie : cookie.length = 16) :
    (kexinit_packet init cookie).length ≤ Packets.SSH_MAX_PACKET :=
  h.short cookie hcookie _ format_proposal

theorem parse_proposal (h : init.Proper) (hcookie : cookie.length = 16) :
    parse_kexinit (kexinit_packet init cookie) = some (do_make_simple_kexinit init cookie) := by
  have hlists := h.lists
  simp only [List.mem_cons, List.not_mem_nil, or_false, forall_eq_or_imp, forall_eq] at hlists
  obtain ⟨⟨hk, hk0⟩, ⟨hh, hh0⟩, ⟨hc, hc0⟩, ⟨hm, hm0⟩, ⟨hz, hz0⟩, ⟨hl, hl0⟩⟩ := hlists
  have hformed : WellFormed (do_make_simple_kexinit init cookie) := by
    refine ⟨hcookie, rfl, ?_, Nat.succ_pos _⟩
    intro l hmem
    simp only [kexinit.lists, do_make_simple_kexinit, List.cons_append, List.nil_append,
      List.mem_cons, List.not_mem_nil, or_false] at hmem
    rcases hmem with rfl | rfl | rfl | rfl | rfl | rfl | rfl | rfl | rfl | rfl <;> assumption
  obtain ⟨packet, hformat, hparse⟩ := parse_format_kex hformed
  have hsame : packet = kexinit_packet init cookie := by
    rw [format_proposal] at hformat
    exact (Option.some.inj hformat).symm
  have hknown {l : List ℕ} (h0 : 0 ∉ l) : known l = l := by
    apply List.filter_eq_self.mpr
    intro atom hatom
    have : atom ≠ 0 := fun h => h0 (h ▸ hatom)
    simpa using this
  rw [← hsame, hparse]
  simp [kexinit.known, do_make_simple_kexinit, hknown, hk0, hh0, hc0, hm0, hz0, hl0]

/-! ### The ends -/

/-- Both ends with what they negotiate. -/
structure Meeting (N S T M C : Type) where
  client : kexinit_handler N S T M C
  server : kexinit_handler N S T M C
  client_version : List UInt8
  server_version : List UInt8
  lookup : ℕ → List UInt8 → Option verifier
  keys : ℕ → Option keypair
  kex : ℕ
  method : dh_method N
  hostkey : ℕ
  key : keypair
  crypto : ℕ
  mac : ℕ
  compression : ℕ

variable (d : Meeting N S T M C)

def Meeting.closure : Mode → kexinit_handler N S T M C :=
  both d.client d.server

def Meeting.versions : Mode → Option (List UInt8) :=
  both (some d.client_version) (some d.server_version)

/-- The same table at both ends, as seen from the client. -/
def Meeting.algorithms : List (Option (Algorithm S T M C (dh_method N))) :=
  [d.crypto, d.crypto, d.mac, d.mac, d.compression, d.compression].map d.client.algorithms

/-- Keys for sending at one end and for receiving at the other. -/
structure KeysMatch (R : S → T → Prop) (Z : C → C → Prop) (send : Keys S M C)
    (receive : Keys T M C) : Prop where
  crypto : R send.crypto receive.crypto
  mac : send.mac = receive.mac
  compress : Option.Rel Z send.compress receive.compress

/-- A packet that the other handlers take without doing anything. -/
def Quiet (closure : kexinit_handler N S T M C) (packet : List UInt8) : Prop :=
  ∃ msg : UInt8, packet.head? = some msg ∧ (msg = 2 ∨ msg = 4) ∧
    packet.length ≤ Packets.SSH_MAX_PACKET ∧
      ∀ sequence_number, closure.dispatch msg.toNat sequence_number packet = ([], none)

def debug_packet : List UInt8 :=
  (make_debug_packet "Key exchange successful!" 0).getD []

/-- The ends find the same algorithms, the group is sound, the signatures of the server are
verified, and nothing is too long for a packet. -/
structure Meeting.Compatible (R : S → T → Prop) (Z : C → C → Prop) : Prop where
  client_extra : d.client.extra = .verifiers d.lookup
  server_extra : d.server.extra = .keys d.keys
  table : d.server.algorithms = d.client.algorithms
  client_init : d.client.init.Proper
  server_init : d.server.init.Proper
  kex : d.client.init.kex_algorithms.head? = d.server.init.kex_algorithms.head? ∧
      d.client.init.kex_algorithms.head? = some d.kex ∨
    d.client.init.kex_algorithms.head? ≠ d.server.init.kex_algorithms.head? ∧ d.kex ≠ 0 ∧
      select_algorithm d.client.init.kex_algorithms d.server.init.kex_algorithms = d.kex
  method : d.client.algorithms d.kex = some (.keyexchange d.method)
  group : d.method.G.Sound
  hostkey : d.hostkey ≠ 0 ∧
    select_algorithm d.client.init.hostkey_algorithms d.server.init.hostkey_algorithms = d.hostkey
  key : d.keys d.hostkey = some d.key
  key_short : d.key.publicKey.length ≤ 8000
  signature_short : ∀ x, (d.key.sign d.hostkey x).length ≤ 8000
  verified : ∃ v, d.lookup d.hostkey d.key.publicKey = some v ∧
    ∀ x, v d.hostkey x (d.key.sign d.hostkey x) = true
  crypto : d.crypto ≠ 0 ∧
    select_algorithm d.client.init.crypto_algorithms d.server.init.crypto_algorithms = d.crypto
  mac : d.mac ≠ 0 ∧
    select_algorithm d.client.init.mac_algorithms d.server.init.mac_algorithms = d.mac
  compression : d.compression ≠ 0 ∧
    select_algorithm d.client.init.compression_algorithms
      d.server.init.compression_algorithms = d.compression
  debug : ∀ i : Mode, (d.closure i).verbose_flag = true →
    Quiet (d.closure i.other) debug_packet
  -- what is found in the table is of the right kind
  crypto_cast : ∃ a, cast_crypto (d.client.algorithms d.crypto) = some a ∧
    ∀ algorithm, a = some algorithm → ∀ key iv,
      Option.Rel R (algorithm.make_encrypt key iv) (algorithm.make_decrypt key iv)
  mac_cast : ∃ a, cast_mac (d.client.algorithms d.mac) = some a
  compression_cast : ∃ a, cast_compress (d.client.algorithms d.compression) = some a ∧
    ∀ algorithm, a = some algorithm → Z algorithm.make_deflate algorithm.make_inflate

/-! ### Keys -/

variable {d} {R : S → T → Prop} {Z : C → C → Prop}

theorem kex_make_related (H : Mac N) (secret : N) (type : ℕ) (session_id : List UInt8)
    {a : Option (crypto_algorithm S T)} (ha : ∀ algorithm, a = some algorithm → ∀ key iv,
      Option.Rel R (algorithm.make_encrypt key iv) (algorithm.make_decrypt key iv)) :
    Option.Rel R (kex_make_encrypt H secret a type session_id)
      (kex_make_decrypt H secret a type session_id) := by
  cases a with
  | none => exact .none
  | some algorithm => exact ha algorithm rfl _ _

/-- Both ends find a key weak, or they get matching keys for both directions. -/
theorem install_keys_match (h : d.Compatible R Z) (secret : N) (session_id : List UInt8) :
    (install_keys d.method.H d.algorithms 0 secret session_id = some none ∧
      install_keys d.method.H d.algorithms 1 secret session_id = some none) ∨
    ∃ receive send receive' send',
      install_keys d.method.H d.algorithms 0 secret session_id = some (some (receive, send)) ∧
      install_keys d.method.H d.algorithms 1 secret session_id = some (some (receive', send')) ∧
      KeysMatch R Z send receive' ∧ KeysMatch R Z send' receive := by
  obtain ⟨a, hcrypto, hrel⟩ := h.crypto_cast
  obtain ⟨b, hmac⟩ := h.mac_cast
  obtain ⟨c, hcompress, hz⟩ := h.compression_cast
  have hclient : install_keys d.method.H d.algorithms 0 secret session_id =
      some ((kex_make_decrypt d.method.H secret a 1 session_id).bind fun receive =>
        (kex_make_encrypt d.method.H secret a 0 session_id).map fun send =>
          ({ crypto := receive
             mac := kex_make_mac d.method.H secret b 3 session_id
             compress := kex_make_inflate c },
           { crypto := send
             mac := kex_make_mac d.method.H secret b 2 session_id
             compress := kex_make_deflate c })) := by
    simp only [install_keys, Meeting.algorithms, KEX_ENCRYPTION_SERVER_TO_CLIENT,
      KEX_ENCRYPTION_CLIENT_TO_SERVER, KEX_MAC_SERVER_TO_CLIENT, KEX_MAC_CLIENT_TO_SERVER,
      KEX_COMPRESSION_SERVER_TO_CLIENT, KEX_COMPRESSION_CLIENT_TO_SERVER, Nat.xor_zero,
      List.map_cons, List.getD_cons_zero, List.getD_cons_succ, hcrypto, hmac, hcompress,
      Option.bind_some, Option.map_some]
    cases kex_make_decrypt d.method.H secret a 1 session_id with
    | none => rfl
    | some receive =>
      cases kex_make_encrypt d.method.H secret a 0 session_id with
      | none => rfl
      | some send => rfl
  have hserver : install_keys d.method.H d.algorithms 1 secret session_id =
      some ((kex_make_decrypt d.method.H secret a 0 session_id).bind fun receive =>
        (kex_make_encrypt d.method.H secret a 1 session_id).map fun send =>
          ({ crypto := receive
             mac := kex_make_mac d.method.H secret b 2 session_id
             compress := kex_make_inflate c },
           { crypto := send
             mac := kex_make_mac d.method.H secret b 3 session_id
             compress := kex_make_deflate c })) := by
    have hflip : (1 : ℕ) ^^^ 1 = 0 ∧ (0 : ℕ) ^^^ 1 = 1 ∧ (3 : ℕ) ^^^ 1 = 2 ∧ (2 : ℕ) ^^^ 1 = 3 ∧
        (5 : ℕ) ^^^ 1 = 4 ∧ (4 : ℕ) ^^^ 1 = 5 := by decide
    simp only [install_keys, Meeting.algorithms, KEX_ENCRYPTION_SERVER_TO_CLIENT,
      KEX_ENCRYPTION_CLIENT_TO_SERVER, KEX_MAC_SERVER_TO_CLIENT, KEX_MAC_CLIENT_TO_SERVER,
      KEX_COMPRESSION_SERVER_TO_CLIENT, KEX_COMPRESSION_CLIENT_TO_SERVER, hflip,
      List.map_cons, List.getD_cons_zero, List.getD_cons_succ, hcrypto, hmac, hcompress,
      Option.bind_some, Option.map_some]
    cases kex_make_decrypt d.method.H secret a 0 session_id with
    | none => rfl
    | some receive =>
      cases kex_make_encrypt d.method.H secret a 1 session_id with
      | none => rfl
      | some send => rfl
  have hto_server := kex_make_related d.method.H secret 0 session_id hrel
  have hto_client := kex_make_related d.method.H secret 1 session_id hrel
  have hcompressed : Option.Rel Z (kex_make_deflate c) (kex_make_inflate c) := by
    cases c with
    | none => exact .none
    | some algorithm => exact .some (hz algorithm rfl)
  rw [hclient, hserver]
  clear hclient hserver
  generalize kex_make_encrypt d.method.H secret a 0 session_id = e₀ at hto_server ⊢
  generalize kex_make_decrypt d.method.H secret a 0 session_id = d₀ at hto_server ⊢
  generalize kex_make_encrypt d.method.H secret a 1 session_id = e₁ at hto_client ⊢
  generalize kex_make_decrypt d.method.H secret a 1 session_id = d₁ at hto_client ⊢
  cases hto_server with
  | none =>
    left
    cases hto_client with
    | none => exact ⟨rfl, rfl⟩
    | some _ => exact ⟨rfl, rfl⟩
  | some hto_server =>
    cases hto_client with
    | none => exact Or.inl ⟨rfl, rfl⟩
    | some hto_client =>
      right
      exact ⟨_, _, _, _, rfl, rfl, ⟨hto_server, rfl, hcompressed⟩,
        ⟨hto_client, rfl, hcompressed⟩⟩

/-! ### Stages -/

variable (d)

def Meeting.proposal (i : Mode) (cookie : List UInt8) : kexinit :=
  do_make_simple_kexinit (d.closure i).init cookie

def Meeting.kexinit_packet (i : Mode) (cookie : List UInt8) : List UInt8 :=
  KeyExchange.kexinit_packet (d.closure i).init cookie

/-- No exchange goes on. -/
def Meeting.idle (session_id : Option (List UInt8)) : ssh_connection N S T M C :=
  { make_ssh_connection d.versions with session_id := session_id }

/-- The end has made its proposal. -/
def Meeting.proposed (i : Mode) (session_id : Option (List UInt8)) (cookie : List UInt8) :
    ssh_connection N S T M C :=
  { d.idle session_id with
    kexinits := Function.update (fun _ => none) i (some (d.proposal i cookie))
    literal_kexinits := Function.update (fun _ => none) i (some (d.kexinit_packet i cookie)) }

/-- Both proposals are there. -/
def Meeting.met (session_id : Option (List UInt8)) (cookies : Mode → List UInt8) :
    ssh_connection N S T M C :=
  { d.idle session_id with
    kexinits := fun i => some (d.proposal i (cookies i))
    literal_kexinits := fun i => some (d.kexinit_packet i (cookies i)) }

def Meeting.text (cookies : Mode → List UInt8) : List UInt8 :=
  opening d.client_version d.server_version (d.kexinit_packet .client (cookies .client))
    (d.kexinit_packet .server (cookies .server))

/-- The handler for the message of the other end. -/
def Meeting.exchange (i : Mode) (cookies : Mode → List UInt8) (random : ℕ) :
    Exchange N S T M C :=
  both
    (.client (client_dh d.method (d.text cookies) random) d.hostkey d.lookup d.algorithms)
    (.server (server_dh d.method (d.text cookies) random) d.hostkey d.key d.algorithms) i

/-- The state in which the message of the other end is waited for. -/
def Meeting.kex_state : KexState :=
  if d.client.init.kex_algorithms.head? = d.server.init.kex_algorithms.head? then
    .KEX_STATE_IN_PROGRESS
  else .KEX_STATE_INIT

/-- The end waits for the message of the other end. -/
def Meeting.talking (i : Mode) (session_id : Option (List UInt8)) (cookies : Mode → List UInt8)
    (random : ℕ) : ssh_connection N S T M C :=
  { d.met session_id cookies with
    kex_state := d.kex_state
    exchange := some (d.exchange i cookies random) }

/-- What the client sends when both proposals are there. -/
def Meeting.opened (i : Mode) (random : ℕ) : List (Packet S M C) :=
  both [{ payload := kexdh_init d.method random, newkeys := none }] [] i

variable {d} {session_id : Option (List UInt8)} {cookies : Mode → List UInt8}

theorem closure_mode (h : d.Compatible R Z) (i : Mode) : (d.closure i).mode = i := by
  cases i with
  | client =>
    show d.client.extra.mode = .client
    rw [h.client_extra]
    rfl
  | server =>
    show d.server.extra.mode = .server
    rw [h.server_extra]
    rfl

theorem closure_proper (h : d.Compatible R Z) (i : Mode) : (d.closure i).init.Proper := by
  cases i with
  | client => exact h.client_init
  | server => exact h.server_init

theorem closure_algorithms (h : d.Compatible R Z) (i : Mode) :
    (d.closure i).algorithms = d.client.algorithms := by
  cases i with
  | client => rfl
  | server => exact h.table

theorem propose_idle (h : d.Compatible R Z) (i : Mode) (session_id : Option (List UInt8))
    (cookie : List UInt8) :
    propose (d.closure i) cookie (d.idle session_id) =
      some (d.proposed i session_id cookie,
        [{ payload := d.kexinit_packet i cookie, newkeys := none }]) := by
  simp only [propose, initiate_keyexchange, closure_mode h, Function.update_self,
    Option.bind_some]
  rw [if_neg, format_proposal]
  · rfl
  · rintro (hfollows | hstate)
    · exact hfollows rfl
    · exact hstate rfl

/-- The method both ends choose. -/
theorem select_kex_eq (h : d.Compatible R Z) (connection : ssh_connection N S T M C)
    (hstate : connection.kex_state = .KEX_STATE_INIT) (i : Mode) :
    select_kex connection (d.proposal i (cookies i)) (d.proposal .client (cookies .client))
      (d.proposal .server (cookies .server)) = (d.kex_state, some d.kex) := by
  have hclient : (d.proposal .client (cookies .client)).kex_algorithms =
      d.client.init.kex_algorithms := rfl
  have hserver : (d.proposal .server (cookies .server)).kex_algorithms =
      d.server.init.kex_algorithms := rfl
  have hfollows : (d.proposal i (cookies i)).first_kex_packet_follows = 0 := rfl
  rw [select_kex, hclient, hserver, Meeting.kex_state, hfollows, hstate]
  rcases h.kex with ⟨hsame, hkex⟩ | ⟨hdiffer, hne, hkex⟩
  · rw [if_pos hsame, if_pos hsame, hkex]
  · rw [if_neg hdiffer, if_neg hdiffer, hkex]
    simp [hne]

theorem select_parameters_eq (h : d.Compatible R Z) :
    select_parameters (d.proposal .client (cookies .client))
      (d.proposal .server (cookies .server)) =
        some [d.crypto, d.crypto, d.mac, d.mac, d.compression, d.compression] := by
  have hclient : (d.proposal .client (cookies .client)).parameters =
      [d.client.init.crypto_algorithms, d.client.init.crypto_algorithms,
        d.client.init.mac_algorithms, d.client.init.mac_algorithms,
        d.client.init.compression_algorithms, d.client.init.compression_algorithms] := rfl
  have hserver : (d.proposal .server (cookies .server)).parameters =
      [d.server.init.crypto_algorithms, d.server.init.crypto_algorithms,
        d.server.init.mac_algorithms, d.server.init.mac_algorithms,
        d.server.init.compression_algorithms, d.server.init.compression_algorithms] := rfl
  have hrange : List.range KEX_PARAMETERS = [0, 1, 2, 3, 4, 5] := rfl
  simp only [select_parameters, hclient, hserver, hrange, List.map_cons, List.map_nil,
    List.getD_cons_zero, List.getD_cons_succ, h.crypto.2, h.mac.2, h.compression.2]
  rw [if_neg]
  simp [h.crypto.1.symm, h.mac.1.symm, h.compression.1.symm]

/-- The exchange begins. -/
theorem select_algorithms_eq (h : d.Compatible R Z) (i : Mode) (random : ℕ)
    (sent : List (Packet S M C)) :
    select_algorithms (d.closure i) random (d.met session_id cookies) sent
        (d.proposal i.other (cookies i.other)) (d.proposal .client (cookies .client))
        (d.proposal .server (cookies .server)) =
      .done (d.talking i session_id cookies random) (sent ++ d.opened i random) := by
  have hinit : init_dh_instance d.method (d.met session_id cookies).versions
      (d.met session_id cookies).literal_kexinits = some
        { method := d.method, e := 0, f := 0, secret := 0, K := none
          hash := d.method.H.update d.method.make_hash (d.text cookies)
          exchange_hash := none } := init_dh_instance_eq rfl rfl rfl rfl
  have hhostkey : select_algorithm
      (d.proposal .client (cookies .client)).server_hostkey_algorithms
      (d.proposal .server (cookies .server)).server_hostkey_algorithms = d.hostkey := h.hostkey.2
  have hlist : List.map d.client.algorithms
      [d.crypto, d.crypto, d.mac, d.mac, d.compression, d.compression] = d.algorithms := rfl
  simp only [select_algorithms, select_kex_eq h (d.met session_id cookies) rfl,
    select_parameters_eq h, hhostkey, closure_algorithms h, h.method, hlist]
  rw [if_neg h.hostkey.1]
  cases i with
  | client =>
    have hextra : (d.closure .client).extra = .verifiers d.lookup := h.client_extra
    simp only [hextra, do_init_client_dh, hinit, Option.bind_some, dh_make_client_msg_eq]
    rfl
  | server =>
    have hextra : (d.closure .server).extra = .keys d.keys := h.server_extra
    simp only [hextra, do_init_server_dh, h.key, hinit]
    rw [Meeting.opened, both, List.append_nil]
    rfl

/-! ### Packets -/

/-- A packet that the state lets through. -/
theorem handle_packet_dispatched (closure : kexinit_handler N S T M C) (random : Random)
    {connection : ssh_connection N S T M C} (sequence_number : ℕ) {msg : UInt8} {r : List UInt8}
    (hlen : (msg :: r).length ≤ connection.rec_max_packet)
    (hstate : connection.kex_state = .KEX_STATE_INIT ∧ msg.toNat ≠ SSH_MSG_NEWKEYS ∨
      connection.kex_state = .KEX_STATE_IN_PROGRESS ∧ msg.toNat ≠ SSH_MSG_NEWKEYS ∧
        msg.toNat ≠ SSH_MSG_KEXINIT ∨
      connection.kex_state = .KEX_STATE_NEWKEYS ∧ (msg.toNat = SSH_MSG_NEWKEYS ∨
        msg.toNat = SSH_MSG_DISCONNECT ∨ msg.toNat = SSH_MSG_IGNORE ∨
        msg.toNat = SSH_MSG_DEBUG)) :
    connection_handle_packet closure random connection sequence_number (msg :: r) =
      HANDLE_PACKET closure random connection msg.toNat sequence_number (msg :: r) := by
  simp only [connection_handle_packet]
  rw [if_neg (Nat.not_lt.mpr hlen)]
  rcases hstate with ⟨hstate, hmsg⟩ | ⟨hstate, hnewkeys, hkexinit⟩ | ⟨hstate, hmsg⟩
  · simp only [hstate]
    rw [if_neg hmsg]
  · simp only [hstate]
    rw [if_neg (not_or.mpr ⟨hnewkeys, hkexinit⟩)]
  · simp only [hstate]
    rw [if_neg (not_not.mpr hmsg)]

theorem update_both {α : Type} (i : Mode) (a b : Option α) :
    Function.update (Function.update (fun _ => none) i a) i.other b =
      Function.update (Function.update (fun _ => none) i.other b) i a := by
  cases i <;> exact Function.update_comm (by decide) _ _ _

theorem update_all {α : Type} (i : Mode) (f : Mode → Option α) :
    Function.update (Function.update (fun _ => none) i.other (f i.other)) i (f i) = f := by
  funext j
  cases i <;> cases j <;> rfl

/-- The proposal of the other end, when this end has made its own. -/
theorem kexinit_after_proposal (h : d.Compatible R Z) (i : Mode)
    (session_id : Option (List UInt8)) (hcookies : ∀ i, (cookies i).length = 16) (random : Random)
    (sequence_number : ℕ) :
    connection_handle_packet (d.closure i) random (d.proposed i session_id (cookies i))
        sequence_number (d.kexinit_packet i.other (cookies i.other)) =
      .done (d.talking i session_id cookies random.number) (d.opened i random.number) := by
  have hparse : parse_kexinit (d.kexinit_packet i.other (cookies i.other)) =
      some (d.proposal i.other (cookies i.other)) :=
    parse_proposal (closure_proper h i.other) (hcookies i.other)
  have hlen : (d.kexinit_packet i.other (cookies i.other)).length ≤ Packets.SSH_MAX_PACKET :=
    length_kexinit_packet (closure_proper h i.other) (hcookies i.other)
  obtain ⟨r, hr⟩ : ∃ r, d.kexinit_packet i.other (cookies i.other) = 20 :: r :=
    kexinit_packet_cons
  have hmet : ({ d.proposed i session_id (cookies i) with
      literal_kexinits := Function.update (d.proposed i session_id (cookies i)).literal_kexinits
        i.other (some (d.kexinit_packet i.other (cookies i.other)))
      kexinits := Function.update (d.proposed i session_id (cookies i)).kexinits i.other
        (some (d.proposal i.other (cookies i.other))) } : ssh_connection N S T M C) =
      d.met session_id cookies := by
    simp only [Meeting.proposed, Meeting.met, update_both]
    rw [update_all i fun i => some (d.kexinit_packet i (cookies i)),
      update_all i fun i => some (d.proposal i (cookies i))]
  have hnonempty : (d.proposal i.other (cookies i.other)).kex_algorithms ≠ [] :=
    (closure_proper h i.other).kex_algorithms
  have hstate : (d.proposed i session_id (cookies i)).kex_state = .KEX_STATE_INIT := rfl
  rw [hr] at hlen ⊢
  rw [handle_packet_dispatched _ _ _ hlen (Or.inl ⟨rfl, by decide⟩), HANDLE_PACKET, if_pos (by rfl),
    ← hr, do_handle_kexinit, if_neg (not_not.mpr hstate), hparse]
  dsimp only
  rw [if_neg hnonempty, closure_mode h, hmet]
  have hsend : send_kexinit (d.closure i) random.cookie (d.met session_id cookies) =
      some (d.met session_id cookies, []) := rfl
  rw [hsend]
  exact select_algorithms_eq h i random.number []

/-- The proposal of the other end comes first, and is answered. -/
theorem kexinit_before_proposal (h : d.Compatible R Z) (i : Mode)
    (session_id : Option (List UInt8)) (hcookies : ∀ i, (cookies i).length = 16) (random : Random)
    (hrandom : random.cookie = cookies i) (sequence_number : ℕ) :
    connection_handle_packet (d.closure i) random (d.idle session_id) sequence_number
        (d.kexinit_packet i.other (cookies i.other)) =
      .done (d.talking i session_id cookies random.number)
        ({ payload := d.kexinit_packet i (cookies i), newkeys := none } ::
          d.opened i random.number) := by
  have hparse : parse_kexinit (d.kexinit_packet i.other (cookies i.other)) =
      some (d.proposal i.other (cookies i.other)) :=
    parse_proposal (closure_proper h i.other) (hcookies i.other)
  have hlen : (d.kexinit_packet i.other (cookies i.other)).length ≤ Packets.SSH_MAX_PACKET :=
    length_kexinit_packet (closure_proper h i.other) (hcookies i.other)
  obtain ⟨r, hr⟩ : ∃ r, d.kexinit_packet i.other (cookies i.other) = 20 :: r :=
    kexinit_packet_cons
  have hnonempty : (d.proposal i.other (cookies i.other)).kex_algorithms ≠ [] :=
    (closure_proper h i.other).kex_algorithms
  obtain ⟨heard, hheard⟩ : ∃ heard : ssh_connection N S T M C, heard = { d.idle session_id with
      literal_kexinits := Function.update (d.idle session_id).literal_kexinits
        i.other (some (d.kexinit_packet i.other (cookies i.other)))
      kexinits := Function.update (d.idle session_id).kexinits i.other
        (some (d.proposal i.other (cookies i.other))) } := ⟨_, rfl⟩
  have hnone : heard.kexinits i = none := by
    rw [hheard]
    cases i <;> rfl
  have hsend : send_kexinit (d.closure i) random.cookie heard =
      some (d.met session_id cookies,
        [{ payload := d.kexinit_packet i (cookies i), newkeys := none }]) := by
    rw [send_kexinit, closure_mode h, hnone]
    dsimp only
    have hproposal : do_make_simple_kexinit (d.closure i).init (cookies i) =
        d.proposal i (cookies i) := rfl
    have hpacket : KeyExchange.kexinit_packet (d.closure i).init (cookies i) =
        d.kexinit_packet i (cookies i) := rfl
    rw [format_proposal, Option.map_some, hheard, hrandom, hproposal, hpacket]
    simp only [Meeting.idle, make_ssh_connection, Meeting.met]
    rw [update_all i fun i => some (d.kexinit_packet i (cookies i)),
      update_all i fun i => some (d.proposal i (cookies i))]
  have hstate : (d.idle session_id).kex_state = .KEX_STATE_INIT := rfl
  rw [hr] at hlen ⊢
  rw [handle_packet_dispatched _ _ _ hlen (Or.inl ⟨rfl, by decide⟩), HANDLE_PACKET, if_pos (by rfl),
    ← hr, do_handle_kexinit, if_neg (not_not.mpr hstate), hparse]
  dsimp only
  rw [if_neg hnonempty, closure_mode h, ← hheard, hsend]
  exact select_algorithms_eq h i random.number _

/-! ### The end of the exchange -/

variable (d)

/-- The hash that is signed. -/
def Meeting.hash (cookies : Mode → List UInt8) (x y : ℕ) : List UInt8 :=
  signed_hash d.method (d.text cookies) d.key.publicKey x y

/-- What the keys are made from. -/
def Meeting.secret (cookies : Mode → List UInt8) (x y : ℕ) : N :=
  d.method.H.update d.method.make_hash
    (written_string (shared_secret d.method x y) ++ d.hash cookies x y)

def Meeting.reply (cookies : Mode → List UInt8) (x y : ℕ) : List UInt8 :=
  kexdh_reply d.method d.key.publicKey y (d.key.sign d.hostkey (d.hash cookies x y))

/-- The session keeps the hash of its first exchange. -/
def Meeting.session (session_id : Option (List UInt8)) (cookies : Mode → List UInt8) (x y : ℕ) :
    List UInt8 :=
  session_id.getD (d.hash cookies x y)

def Meeting.install (i : Mode) (session_id : Option (List UInt8)) (cookies : Mode → List UInt8)
    (x y : ℕ) : Option (Option (Keys T M C × Keys S M C)) :=
  install_keys d.method.H d.algorithms i.flag (d.secret cookies x y)
    (d.session session_id cookies x y)

/-- The end has sent NEWKEYS and waits for NEWKEYS. -/
def Meeting.finished (session_id : Option (List UInt8)) (cookies : Mode → List UInt8) (x y : ℕ)
    (receive : Keys T M C) : ssh_connection N S T M C :=
  { d.met (some (d.session session_id cookies x y)) cookies with
    kex_state := .KEX_STATE_NEWKEYS
    newkeys := some receive }

/-- NEWKEYS has come. -/
def Meeting.ended (session_id : List UInt8) (receive : Keys T M C) : Handled N S T M C :=
  { connection := d.idle (some session_id)
    sent := []
    newkeys := some receive
    error := none }

/-- NEWKEYS, and a word to the other end. -/
def Meeting.finish (i : Mode) (send : Keys S M C) : List (Packet S M C) :=
  { payload := [21], newkeys := some send } ::
    if (d.closure i).verbose_flag then [{ payload := debug_packet, newkeys := none }] else []

def weak : Failure :=
  .EXC_PROTOCOL SSH_DISCONNECT_PROTOCOL_ERROR "Refusing to use weak key."

variable {d} {x y random : ℕ} {receive : Keys T M C} {send : Keys S M C}

theorem make_debug_packet_eq :
    make_debug_packet "Key exchange successful!" 0 = some debug_packet := by
  have hformat := ssh_format_plain (f := "%c%c%z%z") (by decide)
    [.char SSH_MSG_DEBUG, .char 0, .cstring (chars "Key exchange successful!"), .cstring []]
  have hwritten : ∃ packet, ssh_vformat_write "%c%c%z%z"
      [.char SSH_MSG_DEBUG, .char 0, .cstring (chars "Key exchange successful!"),
        .cstring []] = some packet := ⟨_, rfl⟩
  obtain ⟨packet, hpacket⟩ := hwritten
  rw [debug_packet, make_debug_packet, hformat, hpacket]
  rfl

theorem raise_protocol_eq (connection : ssh_connection N S T M C) (sent : List (Packet S M C))
    (reason : ℕ) (msg : String) : ∃ rest, raise_protocol connection sent reason msg =
      { connection := connection
        sent := sent ++ [{ payload := 1 :: rest, newkeys := none }]
        newkeys := none
        error := some (.EXC_PROTOCOL reason msg) } := by
  have hformat := ssh_format_plain (f := "%c%i%z%z") (by decide)
    [.char SSH_MSG_DISCONNECT, .int reason, .cstring (chars msg), .cstring []]
  have hwritten : ∃ rest, ssh_vformat_write "%c%i%z%z"
      [.char SSH_MSG_DISCONNECT, .int reason, .cstring (chars msg), .cstring []] =
        some (1 :: rest) := by
    simp [ssh_vformat_write, vformat, Options.add, no_options, Arg.fits, directive_write,
      SSH_MSG_DISCONNECT]
  obtain ⟨rest, hrest⟩ := hwritten
  refine ⟨rest, ?_⟩
  rw [raise_protocol, hformat, hrest]

theorem kex_build_secret_eq :
    kex_build_secret d.method (d.hash cookies x y) (shared_secret d.method x y) =
      some (d.secret cookies x y) := by
  have hformat (K hash : List UInt8) : ssh_format "%S%lS" [.string K, .string hash] =
      some (written_string K ++ hash) := by
    rw [ssh_format_plain (by decide)]
    simp [ssh_vformat_write, vformat, Options.add, no_options, Arg.fits, directive_write,
      write_counted, written_string]
  rw [kex_build_secret, hformat]
  rfl

theorem format_newkeys : ssh_format "%c" [.char SSH_MSG_NEWKEYS] = some [21] := by
  rw [ssh_format_plain (by decide)]
  rfl

/-- The keys are installed for sending, and for receiving as soon as NEWKEYS comes. -/
theorem finish_installed (h : d.Compatible R Z) (i : Mode) (random : ℕ)
    (sent : List (Packet S M C))
    (hkeys : d.install i session_id cookies x y = some (some (receive, send))) :
    keyexchange_finish (d.closure i)
        { d.talking i session_id cookies random with exchange := none } sent d.algorithms d.method
        (d.hash cookies x y) (shared_secret d.method x y) =
      .done (d.finished session_id cookies x y receive) (sent ++ d.finish i send) := by
  have hsession : ({ d.talking i session_id cookies random with exchange := none }
      : ssh_connection N S T M C).session_id.getD (d.hash cookies x y) =
        d.session session_id cookies x y := rfl
  have hinstall : install_keys d.method.H d.algorithms i.flag (d.secret cookies x y)
      (d.session session_id cookies x y) = some (some (receive, send)) := hkeys
  simp only [keyexchange_finish, format_newkeys, kex_build_secret_eq, hsession, closure_mode h,
    hinstall, send_verbose, make_debug_packet_eq]
  cases hverbose : (d.closure i).verbose_flag with
  | true =>
    simp only [if_true, Option.map_some]
    rw [Meeting.finish, hverbose, if_pos rfl, List.append_assoc]
    rfl
  | false =>
    simp only [Bool.false_eq_true, if_false]
    rw [Meeting.finish, hverbose, if_neg Bool.false_ne_true, List.append_nil]
    rfl

theorem finish_weak (h : d.Compatible R Z) (i : Mode) {connection : ssh_connection N S T M C}
    (hconnection : connection.session_id = session_id) (sent : List (Packet S M C))
    (hkeys : d.install i session_id cookies x y = some none) :
    ∃ connection' rest, keyexchange_finish (d.closure i) connection sent d.algorithms d.method
        (d.hash cookies x y) (shared_secret d.method x y) =
      { connection := connection'
        sent := sent ++
          [{ payload := [21], newkeys := none }, { payload := 1 :: rest, newkeys := none }]
        newkeys := none
        error := some weak } := by
  have hsession : connection.session_id.getD (d.hash cookies x y) =
      d.session session_id cookies x y := by rw [hconnection, Meeting.session]
  have hinstall : install_keys d.method.H d.algorithms i.flag (d.secret cookies x y)
      (d.session session_id cookies x y) = some none := hkeys
  simp only [keyexchange_finish, format_newkeys, kex_build_secret_eq, hsession, closure_mode h,
    hinstall, PROTOCOL_ERROR]
  obtain ⟨connection', hconnection'⟩ : ∃ connection' : ssh_connection N S T M C, connection' =
    { connection with session_id := some (d.session session_id cookies x y) } := ⟨_, rfl⟩
  obtain ⟨rest, hraise⟩ := raise_protocol_eq connection'
    (sent ++ [{ payload := [21], newkeys := none }])
    SSH_DISCONNECT_PROTOCOL_ERROR "Refusing to use weak key."
  rw [← hconnection']
  refine ⟨connection', rest, ?_⟩
  rw [hraise, List.append_assoc]
  rfl

/-! ### The messages of the exchange -/

theorem handle_talking (closure : kexinit_handler N S T M C) (i : Mode)
    (random' : Random) (sequence_number : ℕ) {msg : UInt8} {r : List UInt8}
    (hmsg : msg.toNat = SSH_MSG_KEXDH_INIT ∨ msg.toNat = SSH_MSG_KEXDH_REPLY)
    (hlen : (msg :: r).length ≤ Packets.SSH_MAX_PACKET) :
    connection_handle_packet closure random' (d.talking i session_id cookies random)
        sequence_number (msg :: r) =
      HANDLE_PACKET closure random' (d.talking i session_id cookies random) msg.toNat
        sequence_number (msg :: r) := by
  have hnewkeys : msg.toNat ≠ SSH_MSG_NEWKEYS := by
    rcases hmsg with hmsg | hmsg <;> rw [hmsg] <;> decide
  have hkexinit : msg.toNat ≠ SSH_MSG_KEXINIT := by
    rcases hmsg with hmsg | hmsg <;> rw [hmsg] <;> decide
  apply handle_packet_dispatched _ _ _ hlen
  have hstate : (d.talking i session_id cookies random).kex_state = d.kex_state := rfl
  rw [hstate, Meeting.kex_state]
  split_ifs
  · exact Or.inr (Or.inl ⟨rfl, hnewkeys, hkexinit⟩)
  · exact Or.inl ⟨rfl, hnewkeys⟩

theorem length_written_bignum {n : ℕ} (hn : bignum_format_s_length n ≤ 8000) :
    (written_bignum n).length ≤ 8004 := by
  have hlen := Bignums.length_format_s (by decide : 0 < sizeof_mp_limb_t) (n : ℤ)
  rw [written_bignum, written_string, List.length_append, hlen]
  have hword (n : ℕ) : (WRITE_UINT32 n).length = 4 := rfl
  rw [hword]
  omega

theorem do_handle_dh_init_eq {closure : kexinit_handler N S T M C}
    {connection : ssh_connection N S T M C} {dh dh' dh'' : dh_instance N}
    {hostkey_algorithm : ℕ} {key : keypair}
    {algorithms : List (Option (Algorithm S T M C (dh_method N)))}
    {packet reply exchange_hash K : List UInt8}
    (hprocess : dh_process_client_msg dh packet = some dh')
    (hreply : dh_make_server_msg dh' key.publicKey hostkey_algorithm key.sign = some (dh'', reply))
    (hhash : dh''.exchange_hash = some exchange_hash) (hK : dh''.K = some K) :
    do_handle_dh_init closure connection dh hostkey_algorithm key algorithms packet =
      keyexchange_finish closure { connection with exchange := none }
        [{ payload := reply, newkeys := none }] algorithms dh''.method exchange_hash K := by
  simp only [do_handle_dh_init, hprocess, hreply, hhash, hK]

theorem do_handle_dh_reply_eq {closure : kexinit_handler N S T M C}
    {connection : ssh_connection N S T M C} {dh dh' : dh_instance N} {hostkey_algorithm : ℕ}
    {lookup : ℕ → List UInt8 → Option verifier} {v : verifier}
    {algorithms : List (Option (Algorithm S T M C (dh_method N)))}
    {packet server_key signature exchange_hash K : List UInt8}
    (hprocess : dh_process_server_msg dh packet = some (some dh', server_key, signature))
    (hlookup : lookup hostkey_algorithm server_key = some v)
    (hhash : dh'.exchange_hash = some exchange_hash) (hK : dh'.K = some K)
    (hgood : v hostkey_algorithm exchange_hash signature = true) :
    do_handle_dh_reply closure connection dh hostkey_algorithm lookup algorithms packet =
      keyexchange_finish closure { connection with exchange := none } [] algorithms dh'.method
        exchange_hash K := by
  simp only [do_handle_dh_reply, hprocess, hlookup, hhash, hK]
  rw [if_neg (not_not.mpr hgood)]

/-- The server gets the message of the client, and finishes. -/
theorem dh_init_handled (h : d.Compatible R Z) (session_id : Option (List UInt8))
    (cookies : Mode → List UInt8) (x y : ℕ) (random' : Random) (sequence_number : ℕ) :
    connection_handle_packet d.server random' (d.talking .server session_id cookies y)
        sequence_number (kexdh_init d.method x) =
      keyexchange_finish d.server
        { d.talking .server session_id cookies y with exchange := none }
        [{ payload := d.reply cookies x y, newkeys := none }] d.algorithms d.method
        (d.hash cookies x y) (shared_secret d.method x y) := by
  have hlen : (kexdh_init d.method x).length ≤ Packets.SSH_MAX_PACKET := by
    have hbignum := length_written_bignum (dh_generate_secret_range h.group x).2.2
    rw [kexdh_init, List.length_cons]
    have hmax : Packets.SSH_MAX_PACKET = 32768 := rfl
    omega
  have hexchange : (d.talking .server session_id cookies y).exchange =
      some (.server (server_dh d.method (d.text cookies) y) d.hostkey d.key d.algorithms) := rfl
  have hprocess := dh_process_client_msg_eq h.group (d.text cookies) x y
  have hreply := dh_make_server_msg_eq d.method (d.text cookies) d.key.publicKey x y d.hostkey
    d.key.sign
  rw [kexdh_init] at hlen hprocess ⊢
  rw [handle_talking _ _ _ _ (Or.inl rfl) hlen, HANDLE_PACKET, if_neg (by decide),
    if_neg (by decide), if_pos (by rfl), hexchange]
  exact do_handle_dh_init_eq hprocess hreply rfl rfl

/-- The client gets the answer of the server, and finishes. -/
theorem dh_reply_handled (h : d.Compatible R Z) (session_id : Option (List UInt8))
    (cookies : Mode → List UInt8) (x y : ℕ) (random' : Random) (sequence_number : ℕ) :
    connection_handle_packet d.client random' (d.talking .client session_id cookies x)
        sequence_number (d.reply cookies x y) =
      keyexchange_finish d.client
        { d.talking .client session_id cookies x with exchange := none } [] d.algorithms d.method
        (d.hash cookies x y) (shared_secret d.method x y) := by
  have hkey := h.key_short
  have hsignature := h.signature_short (d.hash cookies x y)
  obtain ⟨v, hlookup, hverify⟩ := h.verified
  have hlen : (d.reply cookies x y).length ≤ Packets.SSH_MAX_PACKET := by
    have hbignum := length_written_bignum (dh_generate_secret_range h.group y).2.2
    have hword (n : ℕ) : (WRITE_UINT32 n).length = 4 := rfl
    rw [Meeting.reply, kexdh_reply, List.length_cons, List.length_append, List.length_append,
      written_string, written_string, List.length_append, List.length_append, hword, hword]
    have hmax : Packets.SSH_MAX_PACKET = 32768 := rfl
    omega
  have hexchange : (d.talking .client session_id cookies x).exchange =
      some (.client (client_dh d.method (d.text cookies) x) d.hostkey d.lookup d.algorithms) := rfl
  have hprocess := dh_process_server_msg_eq h.group (d.text cookies) x y
    (lt_of_le_of_lt hkey (by norm_num)) (lt_of_le_of_lt hsignature (by norm_num))
  rw [Meeting.reply, kexdh_reply] at hlen ⊢
  rw [kexdh_reply] at hprocess
  rw [handle_talking _ _ _ _ (Or.inr rfl) hlen, HANDLE_PACKET, if_neg (by decide),
    if_neg (by decide), if_neg (by decide), if_pos (by rfl), hexchange]
  exact do_handle_dh_reply_eq hprocess hlookup rfl rfl (hverify _)

theorem newkeys_handled (session_id : Option (List UInt8)) (cookies : Mode → List UInt8) (x y : ℕ)
    (receive : Keys T M C) (closure : kexinit_handler N S T M C) (random' : Random)
    (sequence_number : ℕ) :
    connection_handle_packet closure random' (d.finished session_id cookies x y receive)
        sequence_number [21] =
      d.ended (d.session session_id cookies x y) receive := by
  rw [handle_packet_dispatched]
  · rfl
  · exact (by decide : 1 ≤ 0x8000)
  · exact Or.inr (Or.inr ⟨rfl, Or.inl rfl⟩)

/-- Nothing comes of a quiet packet, unless the next packet is to be ignored. -/
theorem quiet_handled (closure : kexinit_handler N S T M C) (random' : Random)
    {connection : ssh_connection N S T M C} (sequence_number : ℕ) {packet : List UInt8}
    (hquiet : Quiet closure packet) (hmax : connection.rec_max_packet = Packets.SSH_MAX_PACKET)
    (hstate : connection.kex_state ≠ .KEX_STATE_IGNORE) :
    connection_handle_packet closure random' connection sequence_number packet =
      .done connection [] := by
  obtain ⟨msg, hhead, hkind, hlen, hdispatch⟩ := hquiet
  cases packet with
  | nil => cases hhead
  | cons msg' r =>
    cases hhead
    have hmsg : msg.toNat = 2 ∨ msg.toNat = 4 := by
      rcases hkind with rfl | rfl
      · exact Or.inl rfl
      · exact Or.inr rfl
    have hnewkeys : msg.toNat ≠ SSH_MSG_NEWKEYS := by
      rcases hmsg with hmsg | hmsg <;> rw [hmsg] <;> decide
    have hkexinit : msg.toNat ≠ SSH_MSG_KEXINIT := by
      rcases hmsg with hmsg | hmsg <;> rw [hmsg] <;> decide
    have hinit : msg.toNat ≠ SSH_MSG_KEXDH_INIT := by
      rcases hmsg with hmsg | hmsg <;> rw [hmsg] <;> decide
    have hreply : msg.toNat ≠ SSH_MSG_KEXDH_REPLY := by
      rcases hmsg with hmsg | hmsg <;> rw [hmsg] <;> decide
    rw [handle_packet_dispatched _ _ _ (by rw [hmax]; exact hlen), HANDLE_PACKET, if_neg hkexinit,
      if_neg hnewkeys, if_neg hinit, if_neg hreply, hdispatch]
    · rfl
    · cases hkex : connection.kex_state with
      | KEX_STATE_INIT => exact Or.inl ⟨rfl, hnewkeys⟩
      | KEX_STATE_IGNORE => exact absurd hkex hstate
      | KEX_STATE_IN_PROGRESS => exact Or.inr (Or.inl ⟨rfl, hnewkeys, hkexinit⟩)
      | KEX_STATE_NEWKEYS => exact Or.inr (Or.inr ⟨rfl, Or.inr (Or.inr hmsg)⟩)

end

end KeyExchange
