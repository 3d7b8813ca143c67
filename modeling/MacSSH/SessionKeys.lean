import MacSSH.StatefulCiphers

/-! The keys of a session. A hash that has taken in the shared secret is expanded to as many
octets as an algorithm wants, with a letter of its own for each use. -/
namespace KeyExchange
open Ciphers

def KEX_ENCRYPTION_CLIENT_TO_SERVER : ℕ := 0

def KEX_ENCRYPTION_SERVER_TO_CLIENT : ℕ := 1

def KEX_MAC_CLIENT_TO_SERVER : ℕ := 2

def KEX_MAC_SERVER_TO_CLIENT : ℕ := 3

def KEX_COMPRESSION_CLIENT_TO_SERVER : ℕ := 4

def KEX_COMPRESSION_SERVER_TO_CLIENT : ℕ := 5

def IV_TYPE (t : ℕ) : ℕ := t+4

/-- The letters C, D, E, F, A and B, indexed by the KEX_* values. -/
def tags : List UInt8 := [67, 68, 69, 70, 65, 66]

/-! ### Algorithms -/

section
variable {N S T M C G : Type}

/-- A cipher; keys that are weak or invalid make no instance. -/
structure crypto_algorithm (S T : Type) where
  key_size : ℕ
  iv_size : ℕ
  make_encrypt : List UInt8 → Option (List UInt8) → Option S
  make_decrypt : List UInt8 → Option (List UInt8) → Option T

structure mac_algorithm (M : Type) where
  key_size : ℕ
  make_mac : List UInt8 → M

structure compress_algorithm (C : Type) where
  make_deflate : C
  make_inflate : C

/-- What the table of algorithms holds, under the names of all kinds of algorithms. -/
inductive Algorithm (S T M C G : Type)
  | crypto (algorithm : crypto_algorithm S T)
  | mac (algorithm : mac_algorithm M)
  | compress (algorithm : compress_algorithm C)
  | keyexchange (algorithm : G)

/-- Casts of what has been found in the table; `none` is a failed check of the type. -/
def cast_crypto : Option (Algorithm S T M C G) → Option (Option (crypto_algorithm S T))
  | none => some none
  | some (.crypto algorithm) => some (some algorithm)
  | some _ => none

def cast_mac : Option (Algorithm S T M C G) → Option (Option (mac_algorithm M))
  | none => some none
  | some (.mac algorithm) => some (some algorithm)
  | some _ => none

def cast_compress : Option (Algorithm S T M C G) → Option (Option (compress_algorithm C))
  | none => some none
  | some (.compress algorithm) => some (some algorithm)
  | some _ => none

/-! ### Keys -/

variable (H : Mac N)

/-- The loop: `digest` is the last digest, `hash` has taken in the ones before it, and `left`
octets are left, more than one digest. -/
def append_digests : ℕ → N → List UInt8 → ℕ → List UInt8
  | 0, _, _, _ => []
  | fuel+1, hash, digest, left =>
    -- Append digest to the key data, and to the hash state
    let left := left-H.size hash
    let hash := H.update hash digest
    digest ++
      if left ≤ H.size hash then (H.digest hash).2.take left
      else append_digests fuel hash (H.digest hash).2 left

def kex_make_key (secret : N) (key_length type : ℕ) (session_id : List UInt8) : List UInt8 :=
  if key_length = 0 then []
  else
    let hash := H.update (H.update secret [tags.getD type 0]) session_id
    let digest := (H.digest hash).2
    -- Is one digest large enough?
    if key_length ≤ H.size hash then digest.take key_length
    else append_digests H key_length secret digest key_length

/-- No algorithm, or a weak or invalid key, is `none`. -/
def kex_make_encrypt (secret : N) (algorithm : Option (crypto_algorithm S T)) (type : ℕ)
    (session_id : List UInt8) : Option S :=
  algorithm.bind fun algorithm =>
    let key := kex_make_key H secret algorithm.key_size type session_id
    let iv :=
      if algorithm.iv_size = 0 then none
      else some (kex_make_key H secret algorithm.iv_size (IV_TYPE type) session_id)
    algorithm.make_encrypt key iv

def kex_make_decrypt (secret : N) (algorithm : Option (crypto_algorithm S T)) (type : ℕ)
    (session_id : List UInt8) : Option T :=
  algorithm.bind fun algorithm =>
    let key := kex_make_key H secret algorithm.key_size type session_id
    let iv :=
      if algorithm.iv_size = 0 then none
      else some (kex_make_key H secret algorithm.iv_size (IV_TYPE type) session_id)
    algorithm.make_decrypt key iv

def kex_make_mac (secret : N) (algorithm : Option (mac_algorithm M)) (type : ℕ)
    (session_id : List UInt8) : Option M :=
  algorithm.map fun algorithm =>
    algorithm.make_mac (kex_make_key H secret algorithm.key_size type session_id)

def kex_make_deflate (algorithm : Option (compress_algorithm C)) : Option C :=
  algorithm.map fun algorithm => algorithm.make_deflate

def kex_make_inflate (algorithm : Option (compress_algorithm C)) : Option C :=
  algorithm.map fun algorithm => algorithm.make_inflate

/-- The keys of one direction. -/
structure Keys (S M C : Type) where
  crypto : S
  mac : Option M
  compress : Option C

/-- Keys for receiving and for sending. The outer `none` is a failed cast, the inner one a
weak or invalid key. -/
def install_keys (algorithms : List (Option (Algorithm S T M C G))) (is_server : ℕ)
    (secret : N) (session_id : List UInt8) : Option (Option (Keys T M C × Keys S M C)) :=
  let algorithm (type : ℕ) := algorithms.getD type none
  (cast_crypto (algorithm (KEX_ENCRYPTION_SERVER_TO_CLIENT ^^^ is_server))).bind fun a₁ =>
    match kex_make_decrypt H secret a₁ (KEX_ENCRYPTION_SERVER_TO_CLIENT ^^^ is_server)
        session_id with
    | none => some none
    | some receive =>
      (cast_crypto (algorithm (KEX_ENCRYPTION_CLIENT_TO_SERVER ^^^ is_server))).bind fun a₂ =>
        match kex_make_encrypt H secret a₂ (KEX_ENCRYPTION_CLIENT_TO_SERVER ^^^ is_server)
            session_id with
        | none => some none
        | some send =>
          (cast_mac (algorithm (KEX_MAC_SERVER_TO_CLIENT ^^^ is_server))).bind fun a₃ =>
          (cast_compress (algorithm (KEX_COMPRESSION_SERVER_TO_CLIENT ^^^ is_server))).bind
            fun a₄ =>
          (cast_mac (algorithm (KEX_MAC_CLIENT_TO_SERVER ^^^ is_server))).bind fun a₅ =>
          (cast_compress (algorithm (KEX_COMPRESSION_CLIENT_TO_SERVER ^^^ is_server))).map
            fun a₆ =>
              some
                ({ crypto := receive
                   mac := kex_make_mac H secret a₃ (KEX_MAC_SERVER_TO_CLIENT ^^^ is_server)
                     session_id
                   compress := kex_make_inflate a₄ },
                 { crypto := send
                   mac := kex_make_mac H secret a₅ (KEX_MAC_CLIENT_TO_SERVER ^^^ is_server)
                     session_id
                   compress := kex_make_deflate a₆ })

/-! ### The expansion -/

/-- The octets that keys of one type are taken from: a digest over the secret, the letter and
the session, then each time one over the secret and all digests so far. -/
def expansion (secret : N) (tag : UInt8) (session_id : List UInt8) : ℕ → List UInt8
  | 0 => []
  | 1 => (H.digest (H.update (H.update secret [tag]) session_id)).2
  | n+2 =>
    expansion secret tag session_id (n+1) ++
      (H.digest (H.update secret (expansion secret tag session_id (n+1)))).2

variable {H} {secret : N} {tag : UInt8} {session_id : List UInt8}

theorem length_expansion : ∀ n, (expansion H secret tag session_id n).length = n*H.size secret := by
  intro n
  induction n with
  | zero => rw [Nat.zero_mul]; rfl
  | succ n ih =>
    cases n with
    | zero =>
      rw [expansion, H.length_digest, H.size_update, H.size_update, Nat.zero_add, Nat.one_mul]
    | succ n =>
      rw [expansion, List.length_append, ih, H.length_digest, H.size_update, Nat.succ_mul (n+1)]

theorem expansion_take {m n : ℕ} (hmn : m ≤ n) :
    (expansion H secret tag session_id n).take (m*H.size secret) =
      expansion H secret tag session_id m := by
  have hlen : ∀ n, (expansion H secret tag session_id n).length = n*H.size secret :=
    length_expansion
  obtain ⟨k, rfl⟩ := Nat.exists_eq_add_of_le hmn
  induction k with
  | zero => exact List.take_of_length_le (le_of_eq (hlen m))
  | succ k ih =>
    cases m with
    | zero => rw [Nat.zero_mul]; rfl
    | succ m =>
      have hstep : m+1+(k+1) = (m+k)+2 := by omega
      have hprev : m+1+k = (m+k)+1 := by omega
      rw [hprev] at ih
      rw [hstep, expansion, List.take_append_of_le_length, ih (by omega)]
      rw [hlen]
      exact Nat.mul_le_mul_right _ (by omega)

/-- The loop goes on with the expansion where the key has got to. -/
theorem append_digests_eq : ∀ (fuel n : ℕ) {hash : N} {digest : List UInt8} {left l : ℕ},
    left ≤ fuel → H.size hash = H.size secret →
    expansion H secret tag session_id n ++ digest = expansion H secret tag session_id (n+1) →
    H.update hash digest = H.update secret (expansion H secret tag session_id (n+1)) →
    H.size secret < left → n*H.size secret+left ≤ l*H.size secret →
    expansion H secret tag session_id n ++ append_digests H fuel hash digest left =
      (expansion H secret tag session_id l).take (n*H.size secret+left) := by
  intro fuel
  induction fuel with
  | zero =>
    intro n hash digest left l hfuel _ _ _ hleft _
    omega
  | succ fuel ih =>
    intro n hash digest left l hfuel hsize hdigest hhash hleft hl
    have hpos := H.size_pos secret
    have hnext : expansion H secret tag session_id (n+2) =
        expansion H secret tag session_id (n+1) ++
          (H.digest (H.update secret (expansion H secret tag session_id (n+1)))).2 := rfl
    have hsize' : H.size (H.update secret (expansion H secret tag session_id (n+1))) =
        H.size secret := H.size_update _ _
    have hsum : n*H.size secret+left = (n+1)*H.size secret+(left-H.size secret) := by
      rw [Nat.succ_mul]
      omega
    simp only [append_digests]
    rw [hhash, hsize, hsize', ← List.append_assoc, hdigest, hsum]
    rw [hsum] at hl
    split_ifs with hlast
    · have hlen : (expansion H secret tag session_id (n+1)).length = (n+1)*H.size secret :=
        length_expansion (n+1)
      have htwo : n+2 ≤ l := by
        by_contra hlt
        have hmul := Nat.mul_le_mul_right (H.size secret) (by omega : l ≤ n+1)
        omega
      have hcut : (n+1)*H.size secret+(left-H.size secret) ≤ (n+2)*H.size secret := by
        rw [Nat.succ_mul (n+1)]
        omega
      rw [← Nat.min_eq_left hcut, ← List.take_take, expansion_take htwo, hnext, ← hlen,
        List.take_length_add_append]
    · apply ih (n+1) (by omega) hsize' hnext.symm _ (by omega) hl
      rw [hnext, H.update_append]

/-- A key is the beginning of the expansion, as long as it has been asked for. -/
theorem session_key_expanded (H : Mac N) (secret : N) (key_length type : ℕ)
    (session_id : List UInt8) :
    (kex_make_key H secret key_length type session_id).length = key_length ∧
      ∀ l, key_length ≤ l*H.size secret → kex_make_key H secret key_length type session_id =
        (expansion H secret (tags.getD type 0) session_id l).take key_length := by
  have hpos := H.size_pos secret
  have hlen : ∀ n, (expansion H secret (tags.getD type 0) session_id n).length =
      n*H.size secret := length_expansion
  have hkey : ∀ l, key_length ≤ l*H.size secret →
      kex_make_key H secret key_length type session_id =
        (expansion H secret (tags.getD type 0) session_id l).take key_length := by
    intro l hl
    rw [kex_make_key]
    by_cases hzero : key_length = 0
    · rw [if_pos hzero, hzero]
      rfl
    rw [if_neg hzero]
    have hone : 1 ≤ l := by
      by_contra hlt
      have : l = 0 := by omega
      rw [this, Nat.zero_mul] at hl
      omega
    have hfirst : (expansion H secret (tags.getD type 0) session_id l).take (1*H.size secret) =
        expansion H secret (tags.getD type 0) session_id 1 := expansion_take hone
    rw [Nat.one_mul] at hfirst
    simp only [H.size_update]
    split_ifs with hshort
    · have hcut := List.take_take (i := key_length) (j := H.size secret)
        (l := expansion H secret (tags.getD type 0) session_id l)
      rw [Nat.min_eq_left hshort, hfirst] at hcut
      exact hcut
    · have hloop : expansion H secret (tags.getD type 0) session_id 0 ++
          append_digests H key_length secret
            (expansion H secret (tags.getD type 0) session_id 1) key_length =
          (expansion H secret (tags.getD type 0) session_id l).take
            (0*H.size secret+key_length) :=
        append_digests_eq key_length 0 le_rfl rfl (List.nil_append _) rfl
          (Nat.lt_of_not_le hshort) (by rwa [Nat.zero_mul, Nat.zero_add])
      rw [Nat.zero_mul, Nat.zero_add] at hloop
      exact hloop
  refine ⟨?_, hkey⟩
  have hmul : key_length ≤ key_length*H.size secret := Nat.le_mul_of_pos_right _ hpos
  rw [hkey key_length hmul, List.length_take, hlen]
  exact Nat.min_eq_left hmul

end

end KeyExchange
