import MacSSH.Packets

/-! The reader against the stream. The bytes from the beginning of a packet on are parsed as
one string, and the reader, which gets them in pieces, comes to the same. -/
namespace Packets
open Ciphers Messages

section
variable {T M P : Type} (D : Cipher T) (A : Mac M)

/-- What the bytes from the beginning of a packet on amount to: more of them are needed, or
the first `n` are no packet, or they are one. -/
inductive Parsed (T M P : Type)
  | more
  | bad (n : ℕ) (error : String)
  | packet (n : ℕ) (packet : List UInt8) (connection : ssh_connection T M P)

/-- The code over the number and the plain text has to follow the packet. -/
def verify (c : ssh_connection T M P) (seq : ℕ) (plain rest : List UInt8) : Parsed T M P :=
  match c.rec_mac with
  | none => .packet plain.length (plain.drop 4) c
  | some m =>
    let d := A.digest (A.update m (WRITE_UINT32 seq ++ plain))
    if rest.length < A.size m then .more
    else if d.2 ≠ rest.take (A.size m) then .bad (plain.length+A.size m) "MAC error"
    else .packet (plain.length+A.size m) (plain.drop 4) { c with rec_mac := some d.1 }

/-- The length that the first block gives. -/
def lengthField (c : ssh_connection T M P) (y : List UInt8) : ℕ :=
  READ_UINT32 (CRYPT D c (y.take (blockSize D c.rec_crypto))).2

def parse (c : ssh_connection T M P) (seq : ℕ) (y : List UInt8) : Parsed T M P :=
  let block_size := blockSize D c.rec_crypto
  let length := lengthField D c y
  if y.length < block_size then .more
  else if length > c.rec_max_packet+SSH_MAX_PACKET_FUZZ then .bad block_size "Packet too large"
  else if length < 12 ∨ length < block_size-4 ∨ (length+4)%block_size ≠ 0 then
    .bad block_size "Invalid packet length"
  else if y.length < 4+length then .more
  else
    let r := CRYPT D c (y.take (4+length))
    verify A r.1 seq r.2 (y.drop (4+length))

/-- The first block is there and gives `n` as the length, which is accepted. -/
structure Header (c : ssh_connection T M P) (x : List UInt8) (n : ℕ) : Prop where
  block : blockSize D c.rec_crypto ≤ x.length
  read : lengthField D c x = n
  small : n ≤ c.rec_max_packet+SSH_MAX_PACKET_FUZZ
  least : 12 ≤ n
  covers : blockSize D c.rec_crypto ≤ n+4
  whole : blockSize D c.rec_crypto ∣ n+4

variable {D A}
variable {c : ssh_connection T M P} {seq n : ℕ} {x y d : List UInt8}

/-! ### Ciphers and codes of a connection -/

theorem CRYPT_rec_mac (c : ssh_connection T M P) (x : List UInt8) :
    (CRYPT D c x).1.rec_mac = c.rec_mac := by
  unfold CRYPT
  split <;> rfl

theorem CRYPT_rec_max_packet (c : ssh_connection T M P) (x : List UInt8) :
    (CRYPT D c x).1.rec_max_packet = c.rec_max_packet := by
  unfold CRYPT
  split <;> rfl

theorem blockSize_CRYPT (hx : blockSize D c.rec_crypto ∣ x.length) :
    blockSize D (CRYPT D c x).1.rec_crypto = blockSize D c.rec_crypto := by
  unfold CRYPT
  split
  · rfl
  · rename_i t ht
    rw [ht] at hx ⊢
    exact D.block_crypt t x hx

theorem length_CRYPT (hx : blockSize D c.rec_crypto ∣ x.length) :
    (CRYPT D c x).2.length = x.length := by
  unfold CRYPT
  split
  · rfl
  · rename_i t ht
    rw [ht] at hx
    exact D.length_crypt t x hx

theorem CRYPT_append (hx : blockSize D c.rec_crypto ∣ x.length)
    (hy : blockSize D c.rec_crypto ∣ y.length) :
    CRYPT D c (x ++ y) =
      ((CRYPT D (CRYPT D c x).1 y).1, (CRYPT D c x).2 ++ (CRYPT D (CRYPT D c x).1 y).2) := by
  cases hc : c.rec_crypto with
  | none => simp only [CRYPT, hc]
  | some t =>
    rw [hc] at hx hy
    simp only [CRYPT, hc]
    rw [D.crypt_append t x y hx hy]

theorem HASH_UPDATE_append (c : ssh_connection T M P) (x y : List UInt8) :
    HASH_UPDATE A (HASH_UPDATE A c x) y = HASH_UPDATE A c (x ++ y) := by
  cases hm : c.rec_mac with
  | none => simp only [HASH_UPDATE, hm, Option.map_none]
  | some m => simp only [HASH_UPDATE, hm, Option.map_some, A.update_append]

theorem HASH_UPDATE_none (hc : c.rec_mac = none) (x : List UInt8) : HASH_UPDATE A c x = c := by
  simp only [HASH_UPDATE, hc, Option.map_none]
  rw [← hc]

theorem CRYPT_HASH_UPDATE (c : ssh_connection T M P) (x y : List UInt8) :
    CRYPT D (HASH_UPDATE A c x) y = (HASH_UPDATE A (CRYPT D c y).1 x, (CRYPT D c y).2) := by
  cases hc : c.rec_crypto with
  | none => simp only [CRYPT, HASH_UPDATE, hc]
  | some t => simp only [CRYPT, HASH_UPDATE, hc]

theorem blockSize_pos (c : Option T) : 0 < blockSize D c := by
  cases c with
  | none => exact Nat.succ_pos 7
  | some t => exact D.block_pos t

/-! ### More bytes behind -/

theorem lengthField_append (h : blockSize D c.rec_crypto ≤ x.length) (d : List UInt8) :
    lengthField D c (x ++ d) = lengthField D c x := by
  rw [lengthField, lengthField, List.take_append_of_le_length h]

theorem Header.append (h : Header D c x n) (d : List UInt8) : Header D c (x ++ d) n where
  block := by
    rw [List.length_append]
    exact h.block.trans (Nat.le_add_right _ _)
  read := (lengthField_append h.block d).trans h.read
  small := h.small
  least := h.least
  covers := h.covers
  whole := h.whole

theorem parse_of_header (h : Header D c y n) : parse D A c seq y =
    if y.length < 4+n then .more
    else verify A (CRYPT D c (y.take (4+n))).1 seq (CRYPT D c (y.take (4+n))).2
      (y.drop (4+n)) := by
  have hvalid : ¬ (n < 12 ∨ n < blockSize D c.rec_crypto-4 ∨
      (n+4)%blockSize D c.rec_crypto ≠ 0) := by
    have hmod := Nat.mod_eq_zero_of_dvd h.whole
    have := h.least
    have := h.covers
    omega
  rw [parse]
  simp only [h.read]
  rw [if_neg (Nat.not_lt.mpr h.block), if_neg (Nat.not_lt.mpr h.small), if_neg hvalid]

theorem parse_short (h : y.length < blockSize D c.rec_crypto) : parse D A c seq y = .more := by
  rw [parse]
  exact if_pos h

/-- The first block decides, or it is missing. -/
theorem parse_cases (D : Cipher T) (c : ssh_connection T M P) (y : List UInt8) :
    y.length < blockSize D c.rec_crypto ∨
      blockSize D c.rec_crypto ≤ y.length ∧
        (lengthField D c y > c.rec_max_packet+SSH_MAX_PACKET_FUZZ ∨
          ¬ lengthField D c y > c.rec_max_packet+SSH_MAX_PACKET_FUZZ ∧
          (lengthField D c y < 12 ∨ lengthField D c y < blockSize D c.rec_crypto-4 ∨
            (lengthField D c y+4)%blockSize D c.rec_crypto ≠ 0)) ∨
      ∃ n, Header D c y n := by
  by_cases hblock : y.length < blockSize D c.rec_crypto
  · exact Or.inl hblock
  · by_cases hlarge : lengthField D c y > c.rec_max_packet+SSH_MAX_PACKET_FUZZ
    · exact Or.inr (Or.inl ⟨Nat.not_lt.mp hblock, Or.inl hlarge⟩)
    · by_cases hvalid : lengthField D c y < 12 ∨
          lengthField D c y < blockSize D c.rec_crypto-4 ∨
          (lengthField D c y+4)%blockSize D c.rec_crypto ≠ 0
      · exact Or.inr (Or.inl ⟨Nat.not_lt.mp hblock, Or.inr ⟨hlarge, hvalid⟩⟩)
      · refine Or.inr (Or.inr ⟨lengthField D c y, ?_⟩)
        exact
          { block := Nat.not_lt.mp hblock
            read := rfl
            small := Nat.not_lt.mp hlarge
            least := by omega
            covers := by omega
            whole := Nat.dvd_of_mod_eq_zero (by omega) }

theorem verify_append (plain rest d : List UInt8) (h : verify A c seq plain rest ≠ .more) :
    verify A c seq plain (rest ++ d) = verify A c seq plain rest := by
  cases hm : c.rec_mac with
  | none => simp only [verify, hm]
  | some m =>
    simp only [verify, hm] at h ⊢
    have hrest : ¬ rest.length < A.size m := fun hlt => h (if_pos hlt)
    rw [List.take_append_of_le_length (Nat.not_lt.mp hrest), if_neg hrest,
      if_neg (by rw [List.length_append]; omega)]

theorem verify_le {plain rest packet : List UInt8} {c' : ssh_connection T M P}
    (h : verify A c seq plain rest = .packet n packet c') : n ≤ plain.length+rest.length := by
  cases hm : c.rec_mac with
  | none =>
    simp only [verify, hm] at h
    cases h
    omega
  | some m =>
    simp only [verify, hm] at h
    split at h
    · cases h
    · split at h
      · cases h
      · cases h
        omega

/-- A packet is in the bytes that have come. -/
theorem parse_le {packet : List UInt8} {c' : ssh_connection T M P}
    (h : parse D A c seq y = .packet n packet c') : n ≤ y.length := by
  simp only [parse] at h
  split at h
  · cases h
  · rename_i hblock
    split at h
    · cases h
    · split at h
      · cases h
      · rename_i hvalid
        split at h
        · cases h
        · rename_i hall
          have hle := Nat.not_lt.mp hall
          have hwhole : blockSize D c.rec_crypto ∣ (y.take (4+lengthField D c y)).length := by
            rw [List.length_take_of_le hle, Nat.add_comm]
            exact Nat.dvd_of_mod_eq_zero (by omega)
          have := verify_le h
          rw [length_CRYPT hwhole, List.length_take_of_le hle, List.length_drop] at this
          omega

/-- What has been decided stays so when more bytes come. -/
theorem parse_append (d : List UInt8) (h : parse D A c seq y ≠ .more) :
    parse D A c seq (y ++ d) = parse D A c seq y := by
  rcases parse_cases D c y with hshort | ⟨hblock, hbad⟩ | ⟨n, hn⟩
  · exact absurd (parse_short hshort) h
  · have hlen : ¬ (y ++ d).length < blockSize D c.rec_crypto := by
      rw [List.length_append]
      omega
    simp only [parse]
    rw [lengthField_append hblock d, if_neg hlen, if_neg (Nat.not_lt.mpr hblock)]
    rcases hbad with hlarge | ⟨hlarge, hvalid⟩
    · rw [if_pos hlarge, if_pos hlarge]
    · rw [if_neg hlarge, if_neg hlarge, if_pos hvalid, if_pos hvalid]
  · rw [parse_of_header hn] at h ⊢
    have hlen : ¬ y.length < 4+n := fun hlt => h (if_pos hlt)
    rw [if_neg hlen] at h ⊢
    have hle := Nat.not_lt.mp hlen
    rw [parse_of_header (hn.append d), if_neg (by rw [List.length_append]; omega),
      List.take_append_of_le_length hle, List.drop_append_of_le_length hle]
    exact verify_append _ _ d h

theorem bad_append {error : String} (h : parse D A c seq y = .bad n error) (d : List UInt8) :
    parse D A c seq (y ++ d) = .bad n error := by
  rw [parse_append d (by rw [h]; intro hmore; cases hmore), h]

theorem packet_append {packet : List UInt8} {c' : ssh_connection T M P}
    (h : parse D A c seq y = .packet n packet c') (d : List UInt8) :
    parse D A c seq (y ++ d) = .packet n packet c' := by
  rw [parse_append d (by rw [h]; intro hmore; cases hmore), h]

/-! ### The reader in the middle of a packet -/

section
variable (D A)

/-- In the header: `x` is in the block buffer. -/
structure Heading (c : ssh_connection T M P) (seq : ℕ) (closure : read_packet T M P)
    (x : List UInt8) : Prop where
  state : closure.state = .WAIT_HEADER
  block_buffer : closure.block_buffer = x
  connection : closure.connection = c
  sequence_number : closure.sequence_number = seq
  short : x.length < blockSize D c.rec_crypto

/-- In the contents: the first block of `x` has been decrypted, the rest is as it came. -/
structure Contents (c : ssh_connection T M P) (seq n : ℕ) (closure : read_packet T M P)
    (x : List UInt8) : Prop where
  header : Header D c x n
  state : closure.state = .WAIT_CONTENTS
  packet_buffer : closure.packet_buffer =
    ((CRYPT D c (x.take (blockSize D c.rec_crypto))).2 ++
      x.drop (blockSize D c.rec_crypto)).drop 4
  packet_length : closure.packet_length = n
  packet_number : closure.packet_number = seq
  sequence_number : closure.sequence_number = (seq+1)%2^32
  crypt_pos : closure.crypt_pos = blockSize D c.rec_crypto-4
  connection : closure.connection =
    HASH_UPDATE A (CRYPT D c (x.take (blockSize D c.rec_crypto))).1
      (WRITE_UINT32 seq ++ (CRYPT D c (x.take (blockSize D c.rec_crypto))).2)
  short : x.length < 4+n

/-- At the code: all of the packet has been decrypted, and what follows it in `x` is in the
buffer for the code. Without a code nothing follows. -/
structure Coded (c : ssh_connection T M P) (seq n : ℕ) (closure : read_packet T M P)
    (x : List UInt8) : Prop where
  header : Header D c x n
  state : closure.state = .WAIT_MAC
  packet_buffer : closure.packet_buffer = (CRYPT D c (x.take (4+n))).2.drop 4
  mac_buffer : closure.mac_buffer = x.drop (4+n)
  packet_number : closure.packet_number = seq
  sequence_number : closure.sequence_number = (seq+1)%2^32
  connection : closure.connection = HASH_UPDATE A (CRYPT D c (x.take (4+n))).1
    (WRITE_UINT32 seq ++ (CRYPT D c (x.take (4+n))).2)
  enough : 4+n ≤ x.length
  bare : c.rec_mac = none → x.length = 4+n
  short : ∀ m, c.rec_mac = some m → x.length < 4+n+A.size m

/-- Where the reader stands when it has read `x` since the last packet. -/
inductive At (c : ssh_connection T M P) (seq : ℕ) (closure : read_packet T M P)
    (x : List UInt8) : Prop
  | start (state : closure.state = .WAIT_START) (connection : closure.connection = c)
      (sequence_number : closure.sequence_number = seq) (empty : x = [])
  | heading (h : Heading D c seq closure x)
  | contents (n : ℕ) (h : Contents D A c seq n closure x)
  | coded (n : ℕ) (h : Coded D A c seq n closure x) (m : M) (hm : c.rec_mac = some m)

/-- What a call has to do that had read `k` bytes of the packet before, when all that has
come is `y`. -/
def Answers (c : ssh_connection T M P) (seq k : ℕ) (y : List UInt8) (o : Outcome T M P) :
    Parsed T M P → Prop
  | .more => k+o.total = y.length ∧ o.packet = none ∧ o.error = none ∧ At D A c seq o.closure y
  | .bad n error => k+o.total = n ∧ k < n ∧ o.packet = none ∧ o.error = some error
  | .packet n packet c' => k+o.total = n ∧ k < n ∧ o.packet = some (seq, packet) ∧
      o.error = none ∧ o.closure.state = .WAIT_START ∧ o.closure.connection = c' ∧
      o.closure.sequence_number = (seq+1)%2^32

end

theorem At.more {closure : read_packet T M P} (h : At D A c seq closure x) :
    parse D A c seq x = .more := by
  cases h with
  | start _ _ _ empty =>
    apply parse_short
    rw [empty]
    exact blockSize_pos _
  | heading h => exact parse_short h.short
  | contents n h => rw [parse_of_header h.header, if_pos h.short]
  | coded n h m hm =>
    rw [parse_of_header h.header, if_neg (Nat.not_lt.mpr h.enough)]
    have hcoded : (CRYPT D c (x.take (4+n))).1.rec_mac = some m := (CRYPT_rec_mac c _).trans hm
    simp only [verify, hcoded]
    apply if_pos
    have := h.short m hm
    have := h.enough
    rw [List.length_drop]
    omega

/-- The code is read, and compared when it is complete. -/
theorem wait_mac_answers {closure : read_packet T M P} {k total : ℕ}
    (h : Coded D A c seq n closure x) (hk : k+total = x.length)
    (hlt : c.rec_mac = none → 0 < total) :
    Answers D A c seq k (x ++ d) (wait_mac A closure d total) (parse D A c seq (x ++ d)) := by
  have hwhole : blockSize D c.rec_crypto ∣ (x.take (4+n)).length := by
    rw [List.length_take_of_le h.enough, Nat.add_comm]
    exact h.header.whole
  have hplain : (CRYPT D c (x.take (4+n))).2.length = 4+n := by
    rw [length_CRYPT hwhole, List.length_take_of_le h.enough]
  have henough := h.enough
  rw [parse_of_header (h.header.append d), if_neg (by rw [List.length_append]; omega),
    List.take_append_of_le_length h.enough, List.drop_append_of_le_length h.enough]
  have hmac := CRYPT_rec_mac (D := D) c (x.take (4+n))
  cases hm : c.rec_mac with
  | none =>
    rw [hm] at hmac
    have hupdate : closure.connection = (CRYPT D c (x.take (4+n))).1 :=
      h.connection.trans (HASH_UPDATE_none hmac _)
    have hclosure : closure.connection.rec_mac = none := by rw [hupdate, hmac]
    have hbare := h.bare hm
    simp only [wait_mac, hclosure, verify, hmac, hplain]
    refine ⟨by simp only [send_on]; omega, by have := hlt hm; omega, ?_, rfl, rfl,
      hupdate, h.sequence_number⟩
    simp only [send_on, h.packet_number, h.packet_buffer]
  | some m =>
    rw [hm] at hmac
    have hclosure : closure.connection.rec_mac =
        some (A.update m (WRITE_UINT32 seq ++ (CRYPT D c (x.take (4+n))).2)) := by
      rw [h.connection]
      simp only [HASH_UPDATE, hmac, Option.map_some]
    have hshort := h.short m hm
    have hbuffer : closure.mac_buffer.length = x.length-(4+n) := by
      rw [h.mac_buffer, List.length_drop]
    have hrest : (x.drop (4+n) ++ d).length = x.length-(4+n)+d.length := by
      rw [List.length_append, List.length_drop]
    have hpos := A.size_pos m
    simp only [wait_mac, hclosure, verify, hmac, hplain, A.size_update, hbuffer]
    rw [if_neg (by omega)]
    by_cases hd : d.length < A.size m-(x.length-(4+n))
    · have hmore : (x.drop (4+n) ++ d).length < A.size m := by omega
      rw [if_pos hd, if_pos hmore]
      refine ⟨by simp only [Outcome.more, List.length_append]; omega, rfl, rfl, ?_⟩
      refine .coded n ?_ m hm
      exact
        { header := h.header.append d
          state := h.state
          packet_buffer := by rw [List.take_append_of_le_length h.enough]; exact h.packet_buffer
          mac_buffer := by
            rw [List.drop_append_of_le_length h.enough, ← h.mac_buffer]
            rfl
          packet_number := h.packet_number
          sequence_number := h.sequence_number
          connection := by rw [List.take_append_of_le_length h.enough]; exact h.connection
          enough := by rw [List.length_append]; omega
          bare := by intro hnone; rw [hm] at hnone; cases hnone
          short := by
            intro m' hm'
            rw [hm] at hm'
            cases hm'
            rw [List.length_append]
            omega }
    · have hall : ¬ (x.drop (4+n) ++ d).length < A.size m := by omega
      rw [if_neg hd, if_neg hall]
      have htake : (x.drop (4+n) ++ d).take (A.size m) =
          closure.mac_buffer ++ d.take (A.size m-(x.length-(4+n))) := by
        rw [List.take_append, ← h.mac_buffer, hbuffer,
          List.take_of_length_le (by rw [hbuffer]; omega)]
      rw [htake]
      by_cases heq : (A.digest (A.update m (WRITE_UINT32 seq ++
          (CRYPT D c (x.take (4+n))).2))).2 ≠
          closure.mac_buffer ++ d.take (A.size m-(x.length-(4+n)))
      · rw [if_pos heq, if_pos heq]
        exact ⟨by simp only [Outcome.failed]; omega, by omega, rfl, rfl⟩
      · rw [if_neg heq, if_neg heq]
        refine ⟨by simp only [send_on]; omega, by omega, ?_, rfl, rfl, ?_, h.sequence_number⟩
        · simp only [send_on, h.packet_number, h.packet_buffer]
        · simp only [send_on, h.connection, HASH_UPDATE]

/-- The contents are read, and decrypted when they are complete. -/
theorem wait_contents_answers (h8 : 4 ≤ blockSize D c.rec_crypto)
    {closure : read_packet T M P} {k total : ℕ} (h : Contents D A c seq n closure x)
    (hk : k+total = x.length) :
    Answers D A c seq k (x ++ d) (wait_contents D A closure d total)
      (parse D A c seq (x ++ d)) := by
  have hblock := h.header.block
  have hshort := h.short
  have hfirst : blockSize D c.rec_crypto ∣ (x.take (blockSize D c.rec_crypto)).length := by
    rw [List.length_take_of_le hblock]
  have hhead : (CRYPT D c (x.take (blockSize D c.rec_crypto))).2.length =
      blockSize D c.rec_crypto := by
    rw [length_CRYPT hfirst, List.length_take_of_le hblock]
  have hbuffer : closure.packet_buffer.length = x.length-4 := by
    rw [h.packet_buffer, List.length_drop, List.length_append, hhead, List.length_drop]
    omega
  have hleft : closure.packet_length-closure.packet_buffer.length = 4+n-x.length := by
    rw [h.packet_length, hbuffer]
    omega
  simp only [wait_contents, hleft]
  rw [if_neg (by omega)]
  by_cases hd : d.length < 4+n-x.length
  · rw [if_pos hd, parse_of_header (h.header.append d),
      if_pos (by rw [List.length_append]; omega)]
    refine ⟨by simp only [Outcome.more, List.length_append]; omega, rfl, rfl, ?_⟩
    refine .contents n ?_
    exact
      { header := h.header.append d
        state := h.state
        packet_buffer := by
          rw [List.take_append_of_le_length hblock, List.drop_append_of_le_length hblock,
            ← List.append_assoc, List.drop_append_of_le_length (by rw [List.length_append]; omega),
            ← h.packet_buffer]
          rfl
        packet_length := h.packet_length
        packet_number := h.packet_number
        sequence_number := h.sequence_number
        crypt_pos := h.crypt_pos
        connection := by
          rw [List.take_append_of_le_length hblock]
          exact h.connection
        short := by
          rw [List.length_append]
          omega }
  · rw [if_neg hd]
    -- the packet is complete: `z` is its cipher text
    obtain ⟨z, hz⟩ : ∃ z, z = x ++ d.take (4+n-x.length) := ⟨_, rfl⟩
    have hzlen : z.length = 4+n := by
      rw [hz, List.length_append, List.length_take]
      omega
    have hsplit : x ++ d = z ++ d.drop (4+n-x.length) := by
      rw [hz, List.append_assoc, List.take_append_drop]
    have hztake : z.take (blockSize D c.rec_crypto) = x.take (blockSize D c.rec_crypto) := by
      rw [hz, List.take_append_of_le_length hblock]
    have hzdrop : z.drop (blockSize D c.rec_crypto) =
        x.drop (blockSize D c.rec_crypto) ++ d.take (4+n-x.length) := by
      rw [hz, List.drop_append_of_le_length hblock]
    have hrest : blockSize D c.rec_crypto ∣ (z.drop (blockSize D c.rec_crypto)).length := by
      rw [List.length_drop, hzlen, Nat.add_comm]
      exact Nat.dvd_sub h.header.whole dvd_rfl
    have hpacket : closure.packet_buffer ++ d.take (4+n-x.length) =
        ((CRYPT D c (x.take (blockSize D c.rec_crypto))).2 ++
          z.drop (blockSize D c.rec_crypto)).drop 4 := by
      rw [h.packet_buffer, hzdrop, ← List.append_assoc]
      refine (List.drop_append_of_le_length ?_).symm
      rw [List.length_append, hhead]
      omega
    have hsrc : (closure.packet_buffer ++ d.take (4+n-x.length)).drop closure.crypt_pos =
        z.drop (blockSize D c.rec_crypto) := by
      rw [hpacket, h.crypt_pos, List.drop_drop, Nat.add_sub_cancel' h8,
        List.drop_append_of_le_length (le_of_eq hhead.symm),
        List.drop_of_length_le (le_of_eq hhead), List.nil_append]
    have hdone : (closure.packet_buffer ++ d.take (4+n-x.length)).take closure.crypt_pos =
        (CRYPT D c (x.take (blockSize D c.rec_crypto))).2.drop 4 := by
      rw [hpacket, h.crypt_pos, List.drop_append_of_le_length (by omega),
        List.take_append_of_le_length (by rw [List.length_drop]; omega),
        List.take_of_length_le (by rw [List.length_drop]; omega)]
    have hwhole := CRYPT_append hfirst hrest
    rw [← hztake, List.take_append_drop, hztake] at hwhole
    have hsize : blockSize D closure.connection.rec_crypto = blockSize D c.rec_crypto := by
      rw [h.connection]
      exact blockSize_CRYPT hfirst
    have hcrypt : CRYPT D closure.connection (z.drop (blockSize D c.rec_crypto)) =
        (HASH_UPDATE A (CRYPT D (CRYPT D c (x.take (blockSize D c.rec_crypto))).1
            (z.drop (blockSize D c.rec_crypto))).1
          (WRITE_UINT32 seq ++ (CRYPT D c (x.take (blockSize D c.rec_crypto))).2),
        (CRYPT D (CRYPT D c (x.take (blockSize D c.rec_crypto))).1
          (z.drop (blockSize D c.rec_crypto))).2) := by
      rw [h.connection, CRYPT_HASH_UPDATE]
    have hzall : z.take (4+n) = z := List.take_of_length_le (le_of_eq hzlen)
    rw [hsrc, hdone, hsize, if_neg (not_not.mpr hrest), hsplit]
    apply wait_mac_answers
    · exact
        { header := by
            have := h.header.append (d.take (4+n-x.length))
            rw [← hz] at this
            exact this
          state := rfl
          packet_buffer := by
            rw [hcrypt, hzall, hwhole, List.drop_append_of_le_length (by omega)]
          mac_buffer := by
            rw [List.drop_of_length_le (le_of_eq hzlen)]
          packet_number := h.packet_number
          sequence_number := h.sequence_number
          connection := by
            rw [hcrypt, hzall, hwhole, HASH_UPDATE_append, List.append_assoc]
          enough := le_of_eq hzlen.symm
          bare := fun _ => hzlen
          short := by
            intro m _
            have := A.size_pos m
            omega }
    · rw [hzlen]
      omega
    · intro _
      omega

/-- The first block is read, and decides about the packet when it is complete. -/
theorem wait_header_answers (h8 : 4 ≤ blockSize D c.rec_crypto)
    {closure : read_packet T M P} {k total : ℕ} (h : Heading D c seq closure x)
    (hk : k+total = x.length) :
    Answers D A c seq k (x ++ d) (wait_header D A closure d total)
      (parse D A c seq (x ++ d)) := by
  have hshort := h.short
  simp only [wait_header, h.connection, h.block_buffer]
  rw [if_neg (by omega)]
  by_cases hd : d.length < blockSize D c.rec_crypto-x.length
  · rw [if_pos hd, parse_short (by rw [List.length_append]; omega)]
    refine ⟨by simp only [Outcome.more, List.length_append]; omega, rfl, rfl, ?_⟩
    refine .heading ?_
    exact
      { state := h.state
        block_buffer := rfl
        connection := rfl
        sequence_number := h.sequence_number
        short := by
          rw [List.length_append]
          omega }
  · rw [if_neg hd]
    -- `z` is the first block
    obtain ⟨z, hz⟩ : ∃ z, z = x ++ d.take (blockSize D c.rec_crypto-x.length) := ⟨_, rfl⟩
    have hzlen : z.length = blockSize D c.rec_crypto := by
      rw [hz, List.length_append, List.length_take]
      omega
    have hsplit : x ++ d = z ++ d.drop (blockSize D c.rec_crypto-x.length) := by
      rw [hz, List.append_assoc, List.take_append_drop]
    have hzall : z.take (blockSize D c.rec_crypto) = z :=
      List.take_of_length_le (le_of_eq hzlen)
    have hfield : lengthField D c z = READ_UINT32 (CRYPT D c z).2 := by rw [lengthField, hzall]
    have hcrypt : (CRYPT D c z).2.length = blockSize D c.rec_crypto := by
      rw [length_CRYPT (by rw [hzlen]), hzlen]
    rw [← hz, hsplit, ← hfield, CRYPT_rec_max_packet]
    rcases parse_cases D c z with hless | ⟨-, hbad⟩ | ⟨n, hn⟩
    · omega
    · rw [parse_append]
      all_goals simp only [parse]
      all_goals rw [if_neg (by omega : ¬ z.length < blockSize D c.rec_crypto)]
      · rcases hbad with hlarge | ⟨hlarge, hvalid⟩
        · rw [if_pos hlarge, if_pos hlarge]
          exact ⟨by simp only [Outcome.failed]; omega, by omega, rfl, rfl⟩
        · rw [if_neg hlarge, if_neg hlarge, if_pos hvalid, if_pos hvalid]
          exact ⟨by simp only [Outcome.failed]; omega, by omega, rfl, rfl⟩
      · rcases hbad with hlarge | ⟨hlarge, hvalid⟩
        · rw [if_pos hlarge]
          intro h
          cases h
        · rw [if_neg hlarge, if_pos hvalid]
          intro h
          cases h
    · have hvalid : ¬ (n < 12 ∨ n < blockSize D c.rec_crypto-4 ∨
          (n+4)%blockSize D c.rec_crypto ≠ 0) := by
        have hmod := Nat.mod_eq_zero_of_dvd hn.whole
        have := hn.least
        have := hn.covers
        omega
      have hdone : ((CRYPT D c z).2.drop 4).take (blockSize D c.rec_crypto-4) =
          (CRYPT D c z).2.drop 4 :=
        List.take_of_length_le (by rw [List.length_drop]; omega)
      rw [hn.read, if_neg (Nat.not_lt.mpr hn.small), if_neg hvalid]
      simp only [hdone, HASH_UPDATE_append]
      by_cases hall : blockSize D c.rec_crypto-4 = n
      · rw [if_pos hall]
        have hplain : z.take (4+n) = z := List.take_of_length_le (by omega)
        apply wait_mac_answers
        · exact
            { header := hn
              state := rfl
              packet_buffer := by rw [hplain]
              mac_buffer := (List.drop_of_length_le (by omega)).symm
              packet_number := h.sequence_number
              sequence_number := by rw [h.sequence_number]
              connection := by rw [hplain, h.sequence_number]
              enough := by omega
              bare := fun _ => by omega
              short := by
                intro m _
                have := A.size_pos m
                omega }
        · omega
        · intro _
          omega
      · rw [if_neg hall]
        have hcovers := hn.covers
        apply wait_contents_answers h8
        · exact
            { header := hn
              state := rfl
              packet_buffer := by
                rw [hzall, List.drop_of_length_le (le_of_eq hzlen), List.append_nil]
              packet_length := rfl
              packet_number := h.sequence_number
              sequence_number := by rw [h.sequence_number]
              crypt_pos := rfl
              connection := by rw [hzall, h.sequence_number]
              short := by omega }
        · omega

/-- One call of the reader does what parsing everything since the last packet does. -/
theorem do_read_packet_answers (h8 : 4 ≤ blockSize D c.rec_crypto)
    {closure : read_packet T M P} (h : At D A c seq closure x) :
    Answers D A c seq x.length (x ++ d) (do_read_packet D A closure d)
      (parse D A c seq (x ++ d)) := by
  cases h with
  | start state connection sequence_number empty =>
    rw [do_read_packet, state]
    apply wait_header_answers h8
    · exact
        { state := rfl
          block_buffer := empty.symm
          connection := connection
          sequence_number := sequence_number
          short := by
            rw [empty]
            exact blockSize_pos _ }
    · rfl
  | heading h =>
    rw [do_read_packet, h.state]
    exact wait_header_answers h8 h rfl
  | contents n h =>
    rw [do_read_packet, h.state]
    exact wait_contents_answers h8 h rfl
  | coded n h m hm =>
    rw [do_read_packet, h.state]
    refine wait_mac_answers h rfl ?_
    intro hnone
    rw [hm] at hnone
    cases hnone

end

end Packets
