import MacSSH.MessageParse
import MacSSH.SessionKeys

/-! The exchange of a secret. Each end raises the generator to a number of its own, and what
the other end sends to that number; the hash over all that has been said is signed. -/
namespace KeyExchange
open Ciphers Bignums Messages

def SSH_MSG_KEXDH_INIT : ℕ := 30

def SSH_MSG_KEXDH_REPLY : ℕ := 31

inductive Mode
  | client
  | server
  deriving DecidableEq, Repr

/-- The numbers modulo p. -/
structure abstract_group where
  modulo : ℕ
  generator : ℕ
  order : ℕ

def zn_range (G : abstract_group) (x : ℤ) : Bool :=
  0 < x ∧ x < G.modulo

def zn_power (G : abstract_group) (g e : ℕ) : ℕ :=
  g^e%G.modulo

section
variable {N : Type}

structure dh_method (N : Type) where
  G : abstract_group
  H : Mac N
  make_hash : N

structure dh_instance (N : Type) where
  method : dh_method N
  e : ℤ
  f : ℤ
  secret : ℕ
  K : Option (List UInt8)
  hash : N
  exchange_hash : Option (List UInt8)

/-- Fails without both versions and both proposals. -/
def init_dh_instance (m : dh_method N) (versions literal_kexinits : Mode → Option (List UInt8)) :
    Option (dh_instance N) :=
  (versions .client).bind fun V_C =>
    (versions .server).bind fun V_S =>
      (literal_kexinits .client).bind fun I_C =>
        (literal_kexinits .server).bind fun I_S =>
          (ssh_format "%S%S%S%S" [.string V_C, .string V_S, .string I_C, .string I_S]).map fun s =>
            { method := m
              e := 0
              f := 0
              secret := 0
              K := none
              hash := m.H.update m.make_hash s
              exchange_hash := none }

/-- A secret exponent made from a random number, and the power of the generator. -/
def dh_generate_secret (self : dh_method N) (random : ℕ) : ℕ × ℕ :=
  let r := random%(self.G.order-1)+1
  (r, zn_power self.G self.G.generator r)

def dh_make_client_msg (self : dh_instance N) (random : ℕ) :
    Option (dh_instance N × List UInt8) :=
  let r := dh_generate_secret self.method random
  let self := { self with secret := r.1, e := r.2 }
  (ssh_format "%c%n" [.char SSH_MSG_KEXDH_INIT, .bignum self.e]).map fun packet => (self, packet)

def dh_process_client_msg (self : dh_instance N) (packet : List UInt8) :
    Option (dh_instance N) :=
  (parse_uint8 packet).bind fun msg_number =>
    if msg_number.1 ≠ SSH_MSG_KEXDH_INIT then none
    else
      (parse_bignum 0 msg_number.2).bind fun e =>
        if ¬ (1 < e.1 ∧ zn_range self.method.G e.1 ∧ parse_eod e.2) then none
        else
          let tmp := zn_power self.method.G e.1.toNat self.secret
          some { self with e := e.1, K := ssh_format "%ln" [.bignum tmp] }

def dh_hash_update (self : dh_instance N) (s : List UInt8) : dh_instance N :=
  { self with hash := self.method.H.update self.hash s }

/-- Hashes e, f, and the shared secret key. -/
def dh_hash_digest (self : dh_instance N) : Option (dh_instance N) :=
  self.K.bind fun K =>
    (ssh_format "%n%n%S" [.bignum self.e, .bignum self.f, .string K]).map fun s =>
      let self := dh_hash_update self s
      let r := self.method.H.digest self.hash
      { self with hash := r.1, exchange_hash := some r.2 }

def dh_make_server_secret (self : dh_instance N) (random : ℕ) : dh_instance N :=
  let r := dh_generate_secret self.method random
  { self with secret := r.1, f := r.2 }

/-- The signer signs with the host key algorithm it is given. -/
def dh_make_server_msg (self : dh_instance N) (server_key : List UInt8) (hostkey_algorithm : ℕ)
    (sign : ℕ → List UInt8 → List UInt8) : Option (dh_instance N × List UInt8) :=
  (ssh_format "%S" [.string server_key]).bind fun s =>
    (dh_hash_digest (dh_hash_update self s)).bind fun self =>
      self.exchange_hash.bind fun exchange_hash =>
        (ssh_format "%c%S%n%fS" [.char SSH_MSG_KEXDH_REPLY, .string server_key, .bignum self.f,
          .string (sign hostkey_algorithm exchange_hash)]).map fun packet => (self, packet)

/-- The host key, f and the signature. -/
def parse_dh_reply (G : abstract_group) (packet : List UInt8) :
    Option (List UInt8 × ℤ × List UInt8) :=
  (parse_uint8 packet).bind fun msg_number =>
    if msg_number.1 ≠ SSH_MSG_KEXDH_REPLY then none
    else
      (parse_string msg_number.2).bind fun key =>
        (parse_bignum 0 key.2).bind fun f =>
          if ¬ (1 < f.1 ∧ zn_range G f.1) then none
          else
            (parse_string f.2).bind fun s =>
              if parse_eod s.2 then some (key.1, f.1, s.1) else none

/-- Returns the host key and the signature; `none` instead of the instance is a fatal error. -/
def dh_process_server_msg (self : dh_instance N) (packet : List UInt8) :
    Option (Option (dh_instance N) × List UInt8 × List UInt8) :=
  (parse_dh_reply self.method.G packet).map fun msg =>
    let tmp := zn_power self.method.G msg.2.1.toNat self.secret
    let self := { self with f := msg.2.1, K := ssh_format "%ln" [.bignum tmp] }
    ((ssh_format "%S" [.string msg.1]).bind fun s => dh_hash_digest (dh_hash_update self s),
      msg.1, msg.2.2)

/-! ### Messages as they are written -/

def written_string (x : List UInt8) : List UInt8 :=
  WRITE_UINT32 x.length ++ x

def written_bignum (n : ℤ) : List UInt8 :=
  written_string (bignum_format_s sizeof_mp_limb_t n)

theorem parse_written_string {x : List UInt8} (hx : x.length < 2^32) (r : List UInt8) :
    parse_string (written_string x ++ r) = some (x, r) := by
  apply parse_string_iff.mpr
  refine ⟨hx, ?_⟩
  rw [written_string, List.append_assoc]

theorem parse_written_bignum {n : ℤ} (hn : bignum_format_s_length n < 2^32) (r : List UInt8) :
    parse_bignum 0 (written_bignum n ++ r) = some (n, r) := by
  have hw : 0 < sizeof_mp_limb_t := by decide
  apply parse_bignum_iff.mpr
  refine ⟨bignum_format_s sizeof_mp_limb_t n, ?_, ?_, parse_format_s hw n⟩
  · rw [written_bignum, parse_written_string (by rw [length_format_s hw]; exact hn)]
  · intro h
    exact absurd rfl h

/-- A number is no longer than the one it is less than. -/
theorem format_s_length_mono {m n : ℕ} (h : m ≤ n) :
    bignum_format_s_length m ≤ bignum_format_s_length n := by
  by_cases hm : m = 0
  · rw [hm]
    exact Nat.zero_le _
  have hn : n ≠ 0 := fun hn => hm (Nat.le_zero.mp (hn ▸ h))
  have hlength {k : ℕ} (hk : k ≠ 0) : bignum_format_s_length k = k.size/8+1 := by
    have hpos : (0 : ℤ) < k := by exact_mod_cast Nat.pos_of_ne_zero hk
    rw [bignum_format_s_length, if_neg hpos.ne', if_pos hpos, Int.toNat_natCast, mpz_sizeinbase,
      if_neg hk]
  rw [hlength hm, hlength hn]
  exact Nat.succ_le_succ (Nat.div_le_div_right (Nat.size_le_size h))

/-! ### The secret -/

/-- What the exchange relies on: the generator has the order that the group gives, and numbers
of the group are not too long for a packet. -/
structure abstract_group.Sound (G : abstract_group) : Prop where
  modulo : 0 < G.modulo
  order : 1 < G.order
  generates : ∀ r, 0 < r → r < G.order → 1 < zn_power G G.generator r
  short : bignum_format_s_length G.modulo ≤ 8000

theorem zn_power_comm (G : abstract_group) (a b : ℕ) :
    zn_power G (zn_power G G.generator a) b = zn_power G (zn_power G G.generator b) a := by
  unfold zn_power
  rw [← Nat.pow_mod, ← Nat.pow_mod, ← pow_mul, ← pow_mul, Nat.mul_comm]

/-- A power of the generator is accepted at the other end. -/
theorem dh_generate_secret_range {m : dh_method N} (h : m.G.Sound) (random : ℕ) :
    1 < (dh_generate_secret m random).2 ∧
      zn_range m.G (dh_generate_secret m random).2 = true ∧
      bignum_format_s_length (dh_generate_secret m random).2 ≤ 8000 := by
  have horder := h.order
  have hmod := Nat.mod_lt random (by omega : 0 < m.G.order-1)
  have hgen := h.generates (random%(m.G.order-1)+1) (by omega) (by omega)
  have hlt : zn_power m.G m.G.generator (random%(m.G.order-1)+1) < m.G.modulo :=
    Nat.mod_lt _ h.modulo
  refine ⟨hgen, ?_, ?_⟩
  · rw [zn_range, decide_eq_true_eq]
    constructor
    · exact_mod_cast Nat.zero_lt_of_lt hgen
    · exact_mod_cast hlt
  · exact (format_s_length_mono hlt.le).trans h.short

/-! ### Both ends -/

/-- The secret of both ends, as it is hashed. -/
def shared_secret (m : dh_method N) (x y : ℕ) : List UInt8 :=
  bignum_format_s sizeof_mp_limb_t
    (zn_power m.G (dh_generate_secret m x).2 (dh_generate_secret m y).1)

theorem shared_secret_comm (m : dh_method N) (x y : ℕ) :
    shared_secret m x y = shared_secret m y x := by
  unfold shared_secret dh_generate_secret
  dsimp only
  rw [zn_power_comm]

/-- The versions and proposals that open the hashed text. -/
def opening (V_C V_S I_C I_S : List UInt8) : List UInt8 :=
  written_string V_C ++ (written_string V_S ++ (written_string I_C ++ written_string I_S))

/-- The hash state with the whole text in it. -/
def hashed (m : dh_method N) (text server_key : List UInt8) (x y : ℕ) : N :=
  m.H.update (m.H.update (m.H.update m.make_hash text) (written_string server_key))
    (written_bignum (dh_generate_secret m x).2 ++ (written_bignum (dh_generate_secret m y).2 ++
      written_string (shared_secret m x y)))

def signed_hash (m : dh_method N) (text server_key : List UInt8) (x y : ℕ) : List UInt8 :=
  (m.H.digest (hashed m text server_key x y)).2

/-- The instance of the client after its message. -/
def client_dh (m : dh_method N) (text : List UInt8) (x : ℕ) : dh_instance N :=
  { method := m
    e := (dh_generate_secret m x).2
    f := 0
    secret := (dh_generate_secret m x).1
    K := none
    hash := m.H.update m.make_hash text
    exchange_hash := none }

/-- The instance of the server before the message of the client. -/
def server_dh (m : dh_method N) (text : List UInt8) (y : ℕ) : dh_instance N :=
  { method := m
    e := 0
    f := (dh_generate_secret m y).2
    secret := (dh_generate_secret m y).1
    K := none
    hash := m.H.update m.make_hash text
    exchange_hash := none }

/-- The instance with the whole text hashed; `secret` is the one of its own end. -/
def final_dh (m : dh_method N) (text server_key : List UInt8) (x y secret : ℕ) :
    dh_instance N :=
  { method := m
    e := (dh_generate_secret m x).2
    f := (dh_generate_secret m y).2
    secret := secret
    K := some (shared_secret m x y)
    hash := (m.H.digest (hashed m text server_key x y)).1
    exchange_hash := some (signed_hash m text server_key x y) }

def kexdh_init (m : dh_method N) (x : ℕ) : List UInt8 :=
  30 :: written_bignum (dh_generate_secret m x).2

def kexdh_reply (m : dh_method N) (server_key : List UInt8) (y : ℕ) (signature : List UInt8) :
    List UInt8 :=
  31 :: (written_string server_key ++
    (written_bignum (dh_generate_secret m y).2 ++ written_string signature))

section
variable {m : dh_method N} {versions literal_kexinits : Mode → Option (List UInt8)}
variable {V_C V_S I_C I_S text server_key : List UInt8} {x y secret : ℕ}

theorem init_dh_instance_eq (hvc : versions .client = some V_C)
    (hvs : versions .server = some V_S) (hic : literal_kexinits .client = some I_C)
    (his : literal_kexinits .server = some I_S) :
    init_dh_instance m versions literal_kexinits = some
      { method := m
        e := 0
        f := 0
        secret := 0
        K := none
        hash := m.H.update m.make_hash (opening V_C V_S I_C I_S)
        exchange_hash := none } := by
  have hformat : ssh_format "%S%S%S%S" [.string V_C, .string V_S, .string I_C, .string I_S] =
      some (opening V_C V_S I_C I_S) := by
    rw [ssh_format_plain (by decide)]
    simp [ssh_vformat_write, vformat, Options.add, no_options, Arg.fits, directive_write,
      write_counted, opening, written_string]
  rw [init_dh_instance, hvc, hvs, hic, his]
  simp only [Option.bind_some, hformat, Option.map_some]

theorem dh_make_client_msg_eq :
    dh_make_client_msg
        { method := m, e := 0, f := 0, secret := 0, K := none,
          hash := m.H.update m.make_hash text, exchange_hash := none } x =
      some (client_dh m text x, kexdh_init m x) := by
  have hformat (e : ℤ) : ssh_format "%c%n" [.char SSH_MSG_KEXDH_INIT, .bignum e] =
      some (30 :: written_bignum e) := by
    rw [ssh_format_plain (by decide)]
    simp [ssh_vformat_write, vformat, Options.add, no_options, Arg.fits, directive_write,
      written_bignum, written_string, SSH_MSG_KEXDH_INIT]
  simp only [dh_make_client_msg, hformat, Option.map_some]
  rfl

theorem format_secret (n : ℕ) :
    ssh_format "%ln" [.bignum n] = some (bignum_format_s sizeof_mp_limb_t n) := by
  rw [ssh_format_plain (by decide)]
  simp [ssh_vformat_write, vformat, Options.add, no_options, Arg.fits, directive_write]

theorem dh_process_client_msg_eq (h : m.G.Sound) (text : List UInt8) (x y : ℕ) :
    dh_process_client_msg (server_dh m text y) (kexdh_init m x) =
      some { server_dh m text y with
        e := (dh_generate_secret m x).2
        K := some (shared_secret m x y) } := by
  obtain ⟨hone, hrange, hshort⟩ := dh_generate_secret_range h x
  have hparse : parse_bignum 0 (written_bignum (dh_generate_secret m x).2) =
      some (((dh_generate_secret m x).2 : ℤ), []) := by
    have hread := parse_written_bignum (n := (dh_generate_secret m x).2) (by omega) []
    rwa [List.append_nil] at hread
  have hnumber (r : List UInt8) : parse_uint8 (30 :: r) = some (30, r) := rfl
  rw [dh_process_client_msg, kexdh_init, hnumber, Option.bind_some,
    if_neg (by simp [SSH_MSG_KEXDH_INIT]), hparse, Option.bind_some]
  have hone' : (1 : ℤ) < (dh_generate_secret m x).2 := by exact_mod_cast hone
  have haccept : 1 < ((dh_generate_secret m x).2 : ℤ) ∧
      zn_range (server_dh m text y).method.G ((dh_generate_secret m x).2 : ℤ) ∧
        parse_eod ([] : List UInt8) := ⟨hone', hrange, rfl⟩
  rw [if_neg (not_not.mpr haccept)]
  dsimp only
  rw [Int.toNat_natCast, format_secret]
  rfl

theorem dh_hash_digest_eq (m : dh_method N) (text server_key : List UInt8) (x y secret : ℕ) :
    dh_hash_digest
        { method := m
          e := (dh_generate_secret m x).2
          f := (dh_generate_secret m y).2
          secret := secret
          K := some (shared_secret m x y)
          hash := m.H.update (m.H.update m.make_hash text) (written_string server_key)
          exchange_hash := none } =
      some (final_dh m text server_key x y secret) := by
  have hformat (e f : ℤ) (K : List UInt8) :
      ssh_format "%n%n%S" [.bignum e, .bignum f, .string K] =
        some (written_bignum e ++ (written_bignum f ++ written_string K)) := by
    rw [ssh_format_plain (by decide)]
    simp [ssh_vformat_write, vformat, Options.add, no_options, Arg.fits, directive_write,
      write_counted, written_bignum, written_string]
  simp only [dh_hash_digest, Option.bind_some, hformat, Option.map_some]
  rfl

theorem format_key : ssh_format "%S" [.string server_key] = some (written_string server_key) := by
  rw [ssh_format_plain (by decide)]
  simp [ssh_vformat_write, vformat, Options.add, no_options, Arg.fits, directive_write,
    write_counted, written_string]

theorem dh_make_server_msg_eq (m : dh_method N) (text server_key : List UInt8) (x y : ℕ)
    (hostkey_algorithm : ℕ) (sign : ℕ → List UInt8 → List UInt8) :
    dh_make_server_msg
        { server_dh m text y with
          e := (dh_generate_secret m x).2
          K := some (shared_secret m x y) } server_key hostkey_algorithm sign =
      some (final_dh m text server_key x y (dh_generate_secret m y).1,
        kexdh_reply m server_key y
          (sign hostkey_algorithm (signed_hash m text server_key x y))) := by
  have hformat (f : ℤ) (s : List UInt8) : ssh_format "%c%S%n%fS"
      [.char SSH_MSG_KEXDH_REPLY, .string server_key, .bignum f, .string s] =
        some (31 :: (written_string server_key ++ (written_bignum f ++ written_string s))) := by
    rw [ssh_format_plain (by decide)]
    simp [ssh_vformat_write, vformat, Options.add, no_options, Arg.fits, directive_write,
      write_counted, written_bignum, written_string, SSH_MSG_KEXDH_REPLY]
  have hdigest := dh_hash_digest_eq m text server_key x y (dh_generate_secret m y).1
  rw [dh_make_server_msg, format_key, Option.bind_some]
  simp only [dh_hash_update, server_dh]
  rw [hdigest, Option.bind_some]
  simp only [final_dh, Option.bind_some, hformat, Option.map_some]
  rfl

theorem dh_process_server_msg_eq (h : m.G.Sound) (text : List UInt8) (x y : ℕ)
    {signature : List UInt8} (hkey : server_key.length < 2^32)
    (hsignature : signature.length < 2^32) :
    dh_process_server_msg (client_dh m text x) (kexdh_reply m server_key y signature) =
      some (some (final_dh m text server_key x y (dh_generate_secret m x).1), server_key,
        signature) := by
  obtain ⟨hone, hrange, hshort⟩ := dh_generate_secret_range h y
  have hnumber (r : List UInt8) : parse_uint8 (31 :: r) = some (31, r) := rfl
  have hparse := parse_written_bignum (n := (dh_generate_secret m y).2) (by omega)
    (written_string signature)
  have hend : parse_string (written_string signature) = some (signature, []) := by
    have hread := parse_written_string hsignature []
    rwa [List.append_nil] at hread
  have hone' : (1 : ℤ) < (dh_generate_secret m y).2 := by exact_mod_cast hone
  have hreply : parse_dh_reply m.G (kexdh_reply m server_key y signature) =
      some (server_key, ((dh_generate_secret m y).2 : ℤ), signature) := by
    rw [parse_dh_reply, kexdh_reply, hnumber, Option.bind_some,
      if_neg (by simp [SSH_MSG_KEXDH_REPLY]), parse_written_string hkey, Option.bind_some, hparse,
      Option.bind_some, if_neg (not_not.mpr ⟨hone', hrange⟩), hend, Option.bind_some]
    rfl
  have hdigest := dh_hash_digest_eq m text server_key x y (dh_generate_secret m x).1
  have hmethod : (client_dh m text x).method = m := rfl
  rw [dh_process_server_msg, hmethod, hreply, Option.map_some]
  dsimp only
  rw [format_key, Option.bind_some, Int.toNat_natCast, format_secret]
  have hshared : bignum_format_s sizeof_mp_limb_t
      (zn_power m.G (dh_generate_secret m y).2 (dh_generate_secret m x).1) =
        shared_secret m x y := (shared_secret_comm m x y).symm
  simp only [dh_hash_update, client_dh]
  rw [hshared, hdigest]

end

end

end KeyExchange
