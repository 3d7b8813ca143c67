import MacSSH.PacketReading

/-! Packets from one end to the other. What is padded, encrypted and authenticated at one
end comes out of the reader at the other end, whatever pieces the network makes of it and
across changes of keys. -/
namespace Packets
open Ciphers Messages

/-- What is sent: a payload, the random bytes its padding is made of, and the keys that are
installed after it. -/
structure Sent (S M : Type) where
  payload : List UInt8
  random : ℕ → UInt8
  newkeys : Option (Option S × Option M)

section
variable {S T M P : Type} (E : Cipher S) (D : Cipher T) (A : Mac M)

def Sending.install (connection : Sending S M) :
    Option (Option S × Option M) → Sending S M
  | none => connection
  | some keys => { connection with send_crypto := keys.1, send_mac := keys.2 }

/-- Payloads one after the other. `none` is a failed assertion. -/
def send_all : Sending S M → List (Sent S M) → Option (Sending S M × List UInt8)
  | connection, [] => some (connection, [])
  | connection, s :: sent =>
    (do_pad E connection s.random s.payload).bind fun packet =>
      let r := do_encrypt E A connection packet
      (send_all (r.1.install s.newkeys) sent).map fun q => (q.1, r.2 ++ q.2)

/-- Packets are unpadded before they are handled. -/
def unpadded (rec_max_packet : ℕ) (next : ℕ × List UInt8 → P → Handled T M P) :
    ℕ × List UInt8 → P → Handled T M P :=
  fun packet rest =>
    match do_unpad rec_max_packet packet.2 with
    | .error error => { rest := rest, newkeys := none, error := some error }
    | .ok payload => next (packet.1, payload) rest

/-- What has been handed on, unpadded. -/
def Reading.payloads (reading : Reading T M P) (rec_max_packet : ℕ) :
    List (ℕ × Except String (List UInt8)) :=
  reading.packets.map fun packet => (packet.1, do_unpad rec_max_packet packet.2)

/-- The same keys for sending at one end and for receiving at the other. -/
def SameKeys (R : S → T → Prop) (k : Option S × Option M) (k' : Option T × Option M) : Prop :=
  Option.Rel R k.1 k'.1 ∧ k.2 = k'.2

/-- The handlers raise no exception, and install new keys when the sender does. -/
def InStep (R : S → T → Prop) (next : ℕ × List UInt8 → P → Handled T M P) :
    ℕ → P → List (Sent S M) → Prop
  | _, _, [] => True
  | seq, rest, s :: sent =>
    (next (seq, s.payload) rest).error = none ∧
      Option.Rel (SameKeys R) s.newkeys (next (seq, s.payload) rest).newkeys ∧
      InStep R next ((seq+1)%2^32) (next (seq, s.payload) rest).rest sent

variable {E D A}
variable {c : ssh_connection T M P} {seq n : ℕ} {x y : List UInt8}

/-! ### Padding -/

/-- A payload with its padding, in whole blocks of `b` bytes. -/
structure Padded (b : ℕ) (payload packet : List UInt8) : Prop where
  whole : b ∣ packet.length
  field : READ_UINT32 packet+4 = packet.length
  least : 16 ≤ packet.length
  covers : b ≤ packet.length
  most : packet.length ≤ payload.length+8+b
  unpad : ∀ rec_max_packet, payload.length ≤ rec_max_packet →
    do_unpad rec_max_packet (packet.drop 4) = .ok payload

theorem do_pad_padded (connection : Sending S M) (random : ℕ → UInt8) {payload : List UInt8}
    (h8 : 8 ∣ blockSize E connection.send_crypto) (h0 : 0 < blockSize E connection.send_crypto)
    (h248 : blockSize E connection.send_crypto ≤ 248) (hpayload : payload.length < 2^31) :
    ∃ packet, do_pad E connection random payload = some packet ∧
      Padded (blockSize E connection.send_crypto) payload packet := by
  obtain ⟨b, hb⟩ : ∃ b, b = blockSize E connection.send_crypto := ⟨_, rfl⟩
  rw [← hb] at h8 h0 h248 ⊢
  obtain ⟨size, hsize⟩ : ∃ size, size = b*(1+(8+payload.length)/b) := ⟨_, rfl⟩
  have hdiv := Nat.div_add_mod (8+payload.length) b
  have hmod := Nat.mod_lt (8+payload.length) h0
  rw [Nat.mul_add, Nat.mul_one] at hsize
  have hdvd : b ∣ size := by
    rw [hsize]
    exact dvd_add dvd_rfl (Nat.dvd_mul_right _ _)
  have h8size : 8 ∣ size := h8.trans hdvd
  have hlow : 8+payload.length < size := by omega
  have hhigh : size ≤ 8+payload.length+b := by omega
  obtain ⟨padding, hpadding⟩ : ∃ padding, padding = size-payload.length-5 := ⟨_, rfl⟩
  obtain ⟨fill, hfill⟩ : ∃ fill, fill = (List.range padding).map random := ⟨_, rfl⟩
  have hfilled : fill.length = padding := by rw [hfill, List.length_map, List.length_range]
  obtain ⟨packet, hpacket⟩ : ∃ packet, packet = WRITE_UINT32 (payload.length+padding+1) ++
    [UInt8.ofNat padding] ++ payload ++ fill := ⟨_, rfl⟩
  have hlength : packet.length = size := by
    rw [hpacket]
    simp only [WRITE_UINT32, List.length_append, List.length_cons, List.length_nil, hfilled]
    omega
  refine ⟨packet, ?_, ?_⟩
  · simp only [do_pad, ← hb, Nat.mul_add, Nat.mul_one, ← hsize, ← hpadding, ← hfill, ← hpacket]
    exact if_pos ⟨by omega, by omega, hlength⟩
  · exact
      { whole := by rwa [hlength]
        field := by
          rw [hlength, hpacket, List.append_assoc, List.append_assoc,
            READ_WRITE_UINT32 (by omega)]
          omega
        least := by omega
        covers := by
          rw [hlength]
          exact Nat.le_of_dvd (by omega) hdvd
        most := by omega
        unpad := by
          intro rec_max_packet hmax
          have hdrop : packet.drop 4 = UInt8.ofNat padding :: (payload ++ fill) := by
            rw [hpacket]
            simp only [WRITE_UINT32, List.cons_append, List.nil_append, List.drop_succ_cons,
              List.drop_zero]
          have hbyte : (UInt8.ofNat padding).toNat = padding := by
            rw [UInt8.toNat_ofNat']
            omega
          have hsum : (payload ++ fill).length = payload.length+padding := by
            rw [List.length_append, hfilled]
          simp only [hdrop, do_unpad, hbyte, List.length_cons, hsum]
          rw [if_neg (by omega), if_neg (by omega)]
          rw [List.drop_succ_cons, List.drop_zero, Nat.add_sub_cancel, Nat.add_sub_cancel,
            List.take_left] }

/-! ### One packet -/

variable {R : S → T → Prop}

/-- Both ends have the same keys, and the same number for the next packet. -/
structure Agree (R : S → T → Prop) (sending : Sending S M) (c : ssh_connection T M P)
    (seq : ℕ) : Prop where
  keys : SameKeys R (sending.send_crypto, sending.send_mac) (c.rec_crypto, c.rec_mac)
  sequence_number : sending.sequence_number = seq

theorem blockSize_related (h : Inverse E D R) {s : Option S} {t : Option T}
    (hst : Option.Rel R s t) : blockSize E s = blockSize D t := by
  cases hst with
  | some hst => exact h.block hst
  | none => rfl

/-- The cipher text of a message, and the cipher after it. -/
def crypted (E : Cipher S) (s : Option S) (x : List UInt8) : Option S × List UInt8 :=
  (s.map fun s => (E.crypt s x).1, (s.map fun s => (E.crypt s x).2).getD x)

theorem length_crypted {s : Option S} (hx : blockSize E s ∣ x.length) :
    (crypted E s x).2.length = x.length := by
  cases s with
  | none => rfl
  | some s => exact E.length_crypt s x hx

theorem crypted_take {s : Option S} (hx : blockSize E s ∣ x.length)
    (hy : blockSize E s ∣ y.length) :
    (crypted E s (x ++ y)).2.take x.length = (crypted E s x).2 := by
  cases s with
  | none => exact List.take_left
  | some s =>
    have hlen := E.length_crypt s x hx
    show (E.crypt s (x ++ y)).2.take x.length = (E.crypt s x).2
    rw [E.crypt_append s x y hx hy]
    exact List.take_left' hlen

theorem CRYPT_crypted (h : Inverse E D R) {s : Option S} (hs : Option.Rel R s c.rec_crypto)
    (hx : blockSize E s ∣ x.length) :
    (CRYPT D c (crypted E s x).2).2 = x ∧
      Option.Rel R (crypted E s x).1 (CRYPT D c (crypted E s x).2).1.rec_crypto := by
  cases hc : c.rec_crypto with
  | none =>
    rw [hc] at hs
    cases hs
    simp only [CRYPT, hc]
    exact ⟨rfl, .none⟩
  | some t =>
    rw [hc] at hs
    cases hs with
    | some hst =>
      simp only [CRYPT, hc]
      exact ⟨h.plain hst hx, .some (h.related hst hx)⟩

theorem CRYPT_rest (c : ssh_connection T M P) (x : List UInt8) :
    (CRYPT D c x).1.rest = c.rest := by
  unfold CRYPT
  split <;> rfl

/-- A packet that has been encrypted is parsed, whatever follows it. -/
theorem parse_encrypted (h : Inverse E D R) {sending : Sending S M} {payload packet : List UInt8}
    (hagree : Agree R sending c seq) (h8 : 4 ≤ blockSize E sending.send_crypto)
    (hp : Padded (blockSize E sending.send_crypto) payload packet)
    (hmax : packet.length ≤ c.rec_max_packet+SSH_MAX_PACKET_FUZZ) :
    ∃ c', (∀ tail, parse D A c seq ((do_encrypt E A sending packet).2 ++ tail) =
        .packet (do_encrypt E A sending packet).2.length (packet.drop 4) c') ∧
      Agree R (do_encrypt E A sending packet).1 c' ((seq+1)%2^32) ∧
      c'.rec_max_packet = c.rec_max_packet ∧ c'.rest = c.rest := by
  obtain ⟨⟨hcrypto, hmac⟩, hseq⟩ := hagree
  have hcrypto : Option.Rel R sending.send_crypto c.rec_crypto := hcrypto
  have hmac : sending.send_mac = c.rec_mac := hmac
  obtain ⟨b, hb⟩ : ∃ b, b = blockSize E sending.send_crypto := ⟨_, rfl⟩
  have hbD : b = blockSize D c.rec_crypto := hb.trans (blockSize_related h hcrypto)
  obtain ⟨z, hz⟩ : ∃ z, z = (crypted E sending.send_crypto packet).2 := ⟨_, rfl⟩
  have hwhole := hp.whole
  have hleast := hp.least
  have hcovers := hp.covers
  have hfield := hp.field
  rw [← hb] at hwhole hcovers h8
  have hzlen : z.length = packet.length := by
    rw [hz]
    exact length_crypted (by rwa [← hb])
  obtain ⟨n, hn⟩ : ∃ n, packet.length = 4+n := ⟨packet.length-4, by omega⟩
  have hdec := CRYPT_crypted h hcrypto (x := packet) (by rwa [← hb])
  rw [← hz] at hdec
  -- the first block decrypts to the first block
  have hfirst : (CRYPT D c (z.take b)).2 = packet.take b := by
    have hlen : (packet.take b).length = b := List.length_take_of_le hcovers
    have hsplit := crypted_take (E := E) (s := sending.send_crypto) (x := packet.take b)
      (y := packet.drop b) (by rw [hlen, hb])
      (by rw [List.length_drop, ← hb]; exact Nat.dvd_sub hwhole dvd_rfl)
    rw [List.take_append_drop, hlen, ← hz] at hsplit
    rw [hsplit]
    exact (CRYPT_crypted h hcrypto (by rw [hlen, hb])).1
  have hheader : Header D c z n :=
    { block := by rw [← hbD, hzlen]; exact hcovers
      read := by
        rw [lengthField, ← hbD, hfirst, READ_UINT32_take h8]
        omega
      small := by omega
      least := by omega
      covers := by rw [← hbD]; omega
      whole := by
        rw [← hbD, Nat.add_comm, ← hn]
        exact hwhole }
  have hzall : z.take (4+n) = z := List.take_of_length_le (by omega)
  cases hm : c.rec_mac with
  | none =>
    rw [hm] at hmac
    have hout : (do_encrypt E A sending packet).2 = z := by
      rw [hz]
      simp only [do_encrypt, hmac, crypted, Option.map_none, Option.getD_none, List.append_nil,
        Option.map_map]
      rfl
    refine ⟨(CRYPT D c z).1, ?_, ⟨⟨?_, ?_⟩, ?_⟩, CRYPT_rec_max_packet c z, CRYPT_rest c z⟩
    · intro tail
      rw [hout, parse_of_header (hheader.append tail), if_neg (by rw [List.length_append]; omega),
        List.take_append_of_le_length (by omega), hzall, hdec.1]
      simp only [verify, CRYPT_rec_mac, hm]
      rw [hzlen]
    · have := hdec.2
      simp only [do_encrypt, Option.map_map]
      exact this
    · simp only [do_encrypt, hmac, Option.map_none, CRYPT_rec_mac, hm]
    · simp only [do_encrypt, hseq]
  | some m =>
    rw [hm] at hmac
    obtain ⟨code, hcode⟩ :
        ∃ code, code = A.digest (A.update m (WRITE_UINT32 seq ++ packet)) := ⟨_, rfl⟩
    have hsize : code.2.length = A.size m := by rw [hcode, A.length_digest, A.size_update]
    have hout : (do_encrypt E A sending packet).2 = z ++ code.2 := by
      rw [hz, hcode, ← hseq, A.update_append]
      simp only [do_encrypt, hmac, crypted, Option.map_some, Option.getD_some, Option.map_map]
      rfl
    refine ⟨{ (CRYPT D c z).1 with rec_mac := some code.1 }, ?_, ⟨⟨?_, ?_⟩, ?_⟩,
      CRYPT_rec_max_packet c z, CRYPT_rest c z⟩
    · intro tail
      rw [hout, List.append_assoc, parse_of_header (hheader.append (code.2 ++ tail)),
        if_neg (by rw [List.length_append]; omega), List.take_append_of_le_length (by omega), hzall,
        hdec.1, List.drop_append_of_le_length (by omega), List.drop_of_length_le (by omega),
        List.nil_append]
      simp only [verify, CRYPT_rec_mac, hm, ← hcode]
      rw [if_neg (by rw [List.length_append]; omega), List.take_left' hsize,
        if_neg (not_not.mpr rfl), List.length_append, hsize, hzlen]
    · have := hdec.2
      simp only [do_encrypt, Option.map_map]
      exact this
    · simp only [do_encrypt, hmac, Option.map_some, hcode, ← hseq, A.update_append]
    · simp only [do_encrypt, hseq]

/-! ### All packets -/

theorem handled_rec_max_packet (handled : Handled T M P) (c : ssh_connection T M P) :
    (handled.connection c).rec_max_packet = c.rec_max_packet := by
  unfold Handled.connection
  split <;> rfl

theorem handled_rest (handled : Handled T M P) (c : ssh_connection T M P) :
    (handled.connection c).rest = handled.rest := by
  unfold Handled.connection
  split <;> rfl

theorem Agree.handled {sending : Sending S M} (h : Agree R sending c seq)
    {handled : Handled T M P} {newkeys : Option (Option S × Option M)}
    (hkeys : Option.Rel (SameKeys R) newkeys handled.newkeys) :
    Agree R (sending.install newkeys) (handled.connection c) seq := by
  unfold Handled.connection
  generalize handled.newkeys = newkeys' at hkeys
  cases hkeys with
  | none => exact ⟨h.keys, h.sequence_number⟩
  | some hkeys => exact ⟨hkeys, h.sequence_number⟩

/-- The payloads come out of the stream as they were sent. -/
theorem send_all_received (h : Inverse E D R)
    (hE : ∀ s, 8 ∣ E.block s ∧ E.block s ≤ 248)
    (next : ℕ × List UInt8 → P → Handled T M P) : ∀ (sent : List (Sent S M))
    {sending : Sending S M} {c : ssh_connection T M P} {seq : ℕ},
    Agree R sending c seq → seq < 2^32 → c.rec_max_packet ≤ SSH_MAX_PACKET →
    (∀ s ∈ sent, s.payload.length ≤ c.rec_max_packet) → InStep R next seq c.rest sent →
    ∃ sending' bytes packets c' seq', send_all E A sending sent = some (sending', bytes) ∧
      Received D A (unpadded c.rec_max_packet next) c seq bytes packets (.waiting c' seq' []) ∧
      packets.map (fun packet => (packet.1, do_unpad c.rec_max_packet packet.2)) =
        sent.mapIdx (fun i s => ((seq+i)%2^32, .ok s.payload)) ∧
      Agree R sending' c' seq' := by
  have hsize (s : Option S) : 8 ∣ blockSize E s ∧ 0 < blockSize E s ∧ blockSize E s ≤ 248 := by
    cases s with
    | none => exact ⟨dvd_rfl, by norm_num [blockSize], by norm_num [blockSize]⟩
    | some s => exact ⟨(hE s).1, E.block_pos s, (hE s).2⟩
  intro sent
  induction sent with
  | nil =>
    intro sending c seq hagree _ _ _ _
    refine ⟨sending, [], [], c, seq, rfl, .waiting (parse_short (blockSize_pos _)), rfl, hagree⟩
  | cons s sent ih =>
    intro sending c seq hagree hseq hmax hpayloads hstep
    obtain ⟨hnone, hkeys, hstep⟩ := hstep
    obtain ⟨h8, h0, h248⟩ := hsize sending.send_crypto
    have hpayload := hpayloads s List.mem_cons_self
    have hlimit : SSH_MAX_PACKET = 32768 := rfl
    have hfuzz : SSH_MAX_PACKET_FUZZ = 2232 := rfl
    obtain ⟨packet, hpad, hpadded⟩ :=
      do_pad_padded sending s.random h8 h0 h248 (by omega : s.payload.length < 2^31)
    have hmost := hpadded.most
    obtain ⟨c₁, hparse, hagree₁, hmax₁, hrest₁⟩ :=
      parse_encrypted (A := A) h hagree (by omega) hpadded (by omega)
    have hhandled : unpadded c.rec_max_packet next (seq, packet.drop 4) c₁.rest =
        next (seq, s.payload) c.rest := by
      simp only [unpadded, hpadded.unpad _ hpayload, hrest₁]
    obtain ⟨sending', bytes, packets, c', seq', hsend, hreceived, hdelivered, hagree'⟩ :=
      ih (hagree₁.handled hkeys) (Nat.mod_lt _ (by norm_num))
        (by rw [handled_rec_max_packet, hmax₁]; exact hmax)
        (by
          rw [handled_rec_max_packet, hmax₁]
          exact fun s hs => hpayloads s (List.mem_cons_of_mem _ hs))
        (by rw [handled_rest]; exact hstep)
    rw [handled_rec_max_packet, hmax₁] at hreceived hdelivered
    refine ⟨sending', (do_encrypt E A sending packet).2 ++ bytes,
      (seq, packet.drop 4) :: packets, c', seq', ?_, ?_, ?_, hagree'⟩
    · rw [send_all, hpad, Option.bind_some]
      dsimp only
      rw [hsend, Option.map_some]
    · refine .packet (hparse bytes) (by rw [hhandled]; exact hnone) ?_
      rw [hhandled, List.drop_left]
      exact hreceived
    · have hnumber (i : ℕ) : ((seq+1)%2^32+i)%2^32 = (seq+(i+1))%2^32 := by omega
      have hfirst : (seq+0)%2^32 = seq := Nat.mod_eq_of_lt hseq
      rw [List.map_cons, hdelivered, hpadded.unpad _ hpayload, List.mapIdx_cons]
      simp only [hnumber, hfirst]

/-- At the end of a packet the reader has the connection as it is. -/
theorem At.connection_eq {closure : read_packet T M P} (h : At D A c seq closure []) :
    closure.connection = c := by
  have hpos : 0 < blockSize D c.rec_crypto := blockSize_pos _
  cases h with
  | start _ connection _ _ => exact connection
  | heading h => exact h.connection
  | contents n h => exact absurd (h.header.block) (Nat.not_le.mpr hpos)
  | coded n h => exact absurd (h.header.block) (Nat.not_le.mpr hpos)

/-- Payloads that are sent come out at the other end in their order, each with its number,
in whatever pieces the network gives the stream to the reader; keys may change after any
packet. At the end both ends have the same keys again. -/
theorem payloads_delivered (h : Inverse E D R) (hE : ∀ s, 8 ∣ E.block s ∧ E.block s ≤ 248)
    (hD : ∀ t, 8 ≤ D.block t) (next : ℕ × List UInt8 → P → Handled T M P)
    {sending : Sending S M} {connection : ssh_connection T M P} (sent : List (Sent S M))
    (hagree : Agree R sending connection 0)
    (hmax : connection.rec_max_packet ≤ SSH_MAX_PACKET)
    (hpayloads : ∀ s ∈ sent, s.payload.length ≤ connection.rec_max_packet)
    (hstep : InStep R next 0 connection.rest sent) :
    ∃ sending' bytes, send_all E A sending sent = some (sending', bytes) ∧
      ∀ pieces : List (List UInt8), pieces.flatten = bytes →
        ∃ reading seq, buffered_reads D A (unpadded connection.rec_max_packet next)
            ⟨make_read_packet connection, [], none⟩ pieces = some reading ∧
          reading.error = none ∧
          reading.payloads connection.rec_max_packet =
            sent.mapIdx (fun i s => (i%2^32, .ok s.payload)) ∧
          Agree R sending' reading.closure.connection seq := by
  obtain ⟨sending', bytes, packets, c', seq', hsend, hreceived, hdelivered, hagree'⟩ :=
    send_all_received h hE next sent hagree (by norm_num) hmax hpayloads hstep
  refine ⟨sending', bytes, hsend, ?_⟩
  intro pieces hpieces
  obtain ⟨reading, packets', ending, hrun, hread, hpackets, hends⟩ :=
    buffered_reads_received (unpadded connection.rec_max_packet next) hD pieces
      ⟨make_read_packet connection, [], none⟩ rfl
      (.start rfl rfl rfl rfl : At D A connection 0 _ [])
  rw [List.nil_append, hpieces] at hread
  obtain ⟨hsame, hending⟩ := hread.unique hreceived
  rw [hending] at hends
  obtain ⟨herror, hat⟩ := hends
  have hpackets : reading.packets = packets := hpackets.trans hsame
  refine ⟨reading, seq', hrun, herror, ?_, ?_⟩
  · rw [Reading.payloads, hpackets, hdelivered]
    simp only [Nat.zero_add]
  · rw [hat.connection_eq]
    exact hagree'

end

/-- A handler that installs keys when it gets NEWKEYS. -/
def countsAnew (packet : ℕ × List UInt8) (_ : Unit) : Handled UInt8 UInt8 Unit :=
  { rest := ()
    newkeys := if packet.2 = [21] then some (some 7, some 0) else none
    error := none }

theorem payloads_delivered_newkeys :
    ∃ sending' bytes, send_all counting summing ⟨none, none, 0⟩
        [⟨[21], fun _ => 0, some (some 7, some 0)⟩, ⟨[104, 105], fun _ => 3, none⟩] =
          some (sending', bytes) ∧
      ∀ pieces : List (List UInt8), pieces.flatten = bytes →
        ∃ reading seq, buffered_reads counting summing (unpadded SSH_MAX_PACKET countsAnew)
            ⟨make_read_packet ⟨none, none, SSH_MAX_PACKET, ()⟩, [], none⟩ pieces =
              some reading ∧
          reading.error = none ∧
          reading.payloads SSH_MAX_PACKET = [(0, .ok [21]), (1, .ok [104, 105])] ∧
          Agree Eq sending' reading.closure.connection seq := by
  have hagree : Agree Eq ⟨none, none, 0⟩ (⟨none, none, SSH_MAX_PACKET, ()⟩ :
      ssh_connection UInt8 UInt8 Unit) 0 := ⟨⟨.none, rfl⟩, rfl⟩
  apply payloads_delivered (keystream_inverse _ _) _ _ countsAnew _ hagree le_rfl
  · intro s hs
    simp only [List.mem_cons, List.not_mem_nil, or_false] at hs
    rcases hs with rfl | rfl
    · exact (by decide : 1 ≤ 0x8000)
    · exact (by decide : 2 ≤ 0x8000)
  · exact ⟨rfl, .some ⟨.some rfl, rfl⟩, rfl, .none, trivial⟩
  · intro s
    exact ⟨dvd_rfl, (by norm_num : 8 ≤ 248)⟩
  · intro t
    exact le_rfl

end Packets
