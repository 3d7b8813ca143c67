import MacSSH.MacBinary
import MacSSH.ShiftRegisters

/-! The checksum of a header as division of polynomials: the register of `CalculateCRC` holds
the remainder of the bytes that have gone through it. -/
namespace MacBinary

open ShiftRegister Polynomial

/-- The bits of a string of bytes, each with the most significant first. -/
def messageBits (m : List UInt8) : List Bool := m.flatMap fun c => bits c.toBitVec

/-- The two bytes of a checksum, as they stand behind what they check. -/
def crcBytes (crc : UInt16) : List UInt8 := [(crc >>> 8).toUInt8, crc.toUInt8]

theorem top_bit (crc : UInt16) : crc &&& 0x8000 ≠ 0 ↔ crc.toBitVec.msb = true := by
  have hand : (crc &&& 0x8000).toBitVec = crc.toBitVec &&& BitVec.twoPow 16 15 := rfl
  rw [BitVec.msb_eq_getLsbD_last, ne_eq, ← UInt16.toBitVec_inj, hand, BitVec.and_twoPow]
  cases crc.toBitVec.getLsbD 15 <;> decide

/-- A step of the inner loop shifts the register. -/
theorem toBitVec_crcBit (crc : UInt16) :
    (crcBit crc).toBitVec = shift 0x1021#16 crc.toBitVec := by
  rw [crcBit, shift]
  simp only [top_bit]
  split <;> rfl

theorem toBitVec_iterate_crcBit (crc : UInt16) (k : ℕ) :
    (crcBit^[k] crc).toBitVec = (shift 0x1021#16)^[k] crc.toBitVec := by
  induction k with
  | zero => rfl
  | succ k ih =>
    rw [Function.iterate_succ_apply', Function.iterate_succ_apply', toBitVec_crcBit, ih]

/-- A round of the outer loop feeds the register with a byte. -/
theorem toBitVec_foldl_crc (crc : UInt16) (m : List UInt8) :
    (m.foldl (fun crc c => crcBit^[8] (crc ^^^ (c.toUInt16 <<< (8 : UInt16)))) crc).toBitVec =
      (m.map UInt8.toBitVec).foldl (feed 0x1021#16) crc.toBitVec := by
  induction m generalizing crc with
  | nil => rfl
  | cons c m ih =>
    rw [List.foldl_cons, ih, toBitVec_iterate_crcBit, List.map_cons, List.foldl_cons]
    rfl

/-- A whole string is fed to the register where its length is a `short`. -/
theorem toBitVec_CalculateCRC (m : List UInt8) (h : m.length < 32768) :
    (CalculateCRC m (Int16.ofNat m.length)).toBitVec =
      (m.map UInt8.toBitVec).foldl (feed 0x1021#16) 0 := by
  rw [CalculateCRC, Int16.toNatClampNeg_ofNat_of_lt h, List.take_length]
  exact toBitVec_foldl_crc 0 m

theorem generator_crc : generator 0x1021#16 = X^16+X^12+X^5+1 := by
  have hbits : bits 0x1021#16 = [false, false, false, true, false, false, false, false,
      false, false, true, false, false, false, false, true] := by decide
  rw [generator, poly, hbits]
  simp only [ofBits, coeffBit, List.foldl_cons, List.foldl_nil]
  simp
  ring

/-- The bits of a checksum are those of its two bytes. -/
theorem messageBits_crcBytes (crc : UInt16) : messageBits (crcBytes crc) = bits crc.toBitVec := by
  have hwhole : crc.toBitVec = (crc >>> 8).toUInt8.toBitVec ++ crc.toUInt8.toBitVec := by
    apply BitVec.eq_of_getLsbD_eq
    intro i hi
    have hhigh : (crc >>> 8).toUInt8.toBitVec = (crc.toBitVec >>> 8).setWidth 8 := rfl
    have hlow : crc.toUInt8.toBitVec = crc.toBitVec.setWidth 8 := rfl
    rw [BitVec.getLsbD_append, hhigh, hlow, BitVec.getLsbD_setWidth, BitVec.getLsbD_setWidth,
      BitVec.getLsbD_ushiftRight]
    -- the low byte has the bits below 8, the high byte the others
    by_cases h : i < 8
    · simp [h]
    · simp [h, show i-8 < 8 by omega, show 8+(i-8) = i by omega]
  rw [hwhole, bits_append]
  simp [messageBits, crcBytes]

/-- The checksum is the remainder of the bytes, moved up by 16 places, and bytes with their
checksum behind them have the checksum zero, for the lengths that a `short` can give. -/
theorem CalculateCRC_remainder (m : List UInt8) (h : m.length < 32768) :
    poly (CalculateCRC m (Int16.ofNat m.length)).toBitVec =
        (ofBits (messageBits m)*X^16) %ₘ (X^16+X^12+X^5+1) ∧
      (m.length+2 < 32768 →
        CalculateCRC (m ++ crcBytes (CalculateCRC m (Int16.ofNat m.length)))
          (Int16.ofNat (m.length+2)) = 0) := by
  have hbits (m : List UInt8) : (m.map UInt8.toBitVec).flatMap bits = messageBits m :=
    List.flatMap_map ..
  refine ⟨by rw [toBitVec_CalculateCRC m h, poly_foldl_feed (by decide), hbits, generator_crc],
    fun hroom => ?_⟩
  have hlen : (m ++ crcBytes (CalculateCRC m (Int16.ofNat m.length))).length = m.length+2 :=
    List.length_append
  have hwhole := toBitVec_CalculateCRC _ (hlen.trans_lt hroom)
  rw [hlen] at hwhole
  rw [← UInt16.toBitVec_inj, hwhole, List.map_append, List.foldl_append,
    ← toBitVec_CalculateCRC m h]
  -- behind the message the register is fed with itself
  apply foldl_feed_own (by decide)
  rw [hbits, messageBits_crcBytes]

/-- The checksum of two letters, and of the letters with it. -/
theorem CalculateCRC_two_letters :
    poly (CalculateCRC [0x4D, 0x42] 2).toBitVec =
        (ofBits (messageBits [0x4D, 0x42])*X^16) %ₘ (X^16+X^12+X^5+1) ∧
      CalculateCRC ([0x4D, 0x42] ++ crcBytes (CalculateCRC [0x4D, 0x42] 2)) 4 = 0 := by
  obtain ⟨hrest, hown⟩ := CalculateCRC_remainder [0x4D, 0x42] (by decide)
  exact ⟨hrest, hown (by decide)⟩

end MacBinary
