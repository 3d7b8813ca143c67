import Mathlib.Data.List.GetD
import Mathlib.Tactic.SplitIfs
import MacSSH.MacBinary

/-! The header block: its layout, its numbers, its name, and that `isMacBinary` accepts it. -/

namespace MacBinary

open MacVolume ByteFile

theorem long_eq {i : Int} (hl : -2147483648 ≤ i) (hu : i < 2147483648) : long i = i := by
  rw [long, Int.bmod_def]
  split_ifs <;> omega

theorem long_range (i : Int) : -2147483648 ≤ long i ∧ long i < 2147483648 := by
  rw [long, Int.bmod_def]
  split_ifs <;> omega

/-- The bytes of a `long` stand for it. -/
theorem longOf_longBytes (x : Int) : longOf (longBytes x) = long x := by
  have hmod : long ((x % 4294967296).toNat : Nat) = long x := by
    rw [long, long, Int.toNat_of_nonneg (by omega)]
    exact Int.emod_bmod x 4294967296
  generalize hn : (x % 4294967296).toNat = n at hmod
  have hlt : n < 4294967296 := by omega
  have hsum : n / 16777216 % 256 * 16777216 + n / 65536 % 256 * 65536 + n / 256 % 256 * 256
      + n % 256 = n := by omega
  rw [← hmod, longOf, longBytes, hn]
  simp only [Vector.getElem_mk, List.getElem_toArray, List.getElem_cons_zero,
    List.getElem_cons_succ, UInt8.toNat_ofNat', Nat.reducePow, hsum]

/-- The bytes of whole blocks that hold `n` bytes. -/
def sectors (n : Nat) : Nat := (n + 127) / 128 * 128

theorem le_sectors (n : Nat) : n ≤ sectors n := by
  rw [sectors]; omega

theorem sectors_pos {n : Nat} (h : 0 < n) : 0 < sectors n := by
  rw [sectors]; omega

@[simp] theorem sectors_zero : sectors 0 = 0 := rfl

/-- The largest length that the rounding to blocks gets right. -/
def maxFork : Nat := 2147483520

/-- Up to `maxFork` the code's count is that of the whole blocks. -/
theorem long_blocks {n : Nat} (h : n ≤ maxFork) :
    long (BLOCKS (long n) * 128) = sectors n := by
  rw [maxFork] at h
  have hn : long n = n := long_eq (by omega) (by omega)
  have hsum : long ((n : Int) + 127) = ((n + 127 : Nat) : Int) := by
    rw [long_eq (by omega) (by omega)]
    omega
  have hblocks : BLOCKS n = ((n + 127) / 128 : Nat) := by
    rw [BLOCKS, hsum, Int.tdiv_eq_ediv_of_nonneg (by omega)]
    omega
  rw [hn, hblocks, sectors, long_eq (by omega) (by omega)]
  omega

/-- Beyond it the count is negative. -/
theorem long_blocks_neg {n : Nat} (hl : maxFork < n) (hu : n < 2147483648) :
    long (BLOCKS (long n) * 128) < 0 := by
  rw [maxFork] at hl
  have hn : long n = n := long_eq (by omega) (by omega)
  have hsum : long ((n : Int) + 127) = (n : Int) + 127 - 4294967296 := by
    rw [long, Int.bmod_def]
    split_ifs <;> omega
  have hblocks : BLOCKS n = -((4294967296 - (n + 127) : Nat) / 128 : Nat) := by
    rw [BLOCKS, hsum, show (n : Int) + 127 - 4294967296 = -((4294967296 - (n + 127) : Nat) : Int)
      by omega, Int.neg_tdiv, Int.tdiv_eq_ediv_of_nonneg (by omega)]
    omega
  rw [hn, hblocks, long_eq (by omega) (by omega)]
  omega

namespace MBHead

@[simp] theorem length_toBytes (p : MBHead) : p.toBytes.length = 128 := by
  simp only [toBytes, checked, List.length_append, Vector.length_toList, List.length_cons,
    List.length_nil]

theorem chars_append_right {n off k : Nat} {l r : List UInt8} (hl : l.length = k)
    (hk : k ≤ off) : chars n off (l ++ r) = chars n (off - k) r := by
  apply Vector.ext
  intro i hi
  simp only [chars, Vector.getElem_ofFn]
  rw [List.getD_append_right _ _ _ _ (by omega), hl, show off + i - k = off - k + i by omega]

theorem chars_append_left {n : Nat} (v : Vector UInt8 n) (r : List UInt8) :
    chars n 0 (v.toList ++ r) = v := by
  apply Vector.ext
  intro i hi
  have hlt : 0 + i < v.toList.length := by
    rw [Vector.length_toList]
    omega
  simp only [chars, Vector.getElem_ofFn]
  rw [List.getD_append _ _ _ _ hlt, List.getD_eq_getElem _ _ hlt, Vector.getElem_toList]
  simp only [Nat.zero_add]

theorem getD_append_right' {off k : Nat} {l r : List UInt8} (hl : l.length = k) (hk : k ≤ off) :
    (l ++ r).getD off 0 = r.getD (off - k) 0 := by
  rw [List.getD_append_right _ _ _ _ (by omega), hl]

theorem getD_single (c : UInt8) (r : List UInt8) : ([c] ++ r).getD 0 0 = c := rfl

/-- A header sent is the header found at the front of the buffer. -/
theorem ofBytes_toBytes (p : MBHead) (rest : List UInt8) : ofBytes (p.toBytes ++ rest) = p := by
  have hone : ∀ c : UInt8, [c].length = 1 := fun _ => rfl
  cases p
  simp (disch := decide) only [ofBytes, toBytes, checked, List.append_assoc,
    chars_append_right (hone _), getD_append_right' (hone _),
    chars_append_right Vector.length_toList, getD_append_right' Vector.length_toList,
    Nat.reduceSub, chars_append_left, getD_single]

end MBHead

/-- `isMacBinary` changes nothing of a header but the second flags. -/
theorem isMacBinary_header (h : Host) (p : MBHead) :
    ∃ c, (isMacBinary h p).2 = { p with flags2 := c } := by
  rw [isMacBinary]
  split_ifs
  · exact ⟨p.flags2, rfl⟩
  · exact ⟨p.flags2, rfl⟩
  · exact ⟨0, rfl⟩
  · exact ⟨p.flags2, rfl⟩

theorem char_of_lt (h : Host) {c : UInt8} (hc : c.toNat < 128) : h.char c = c.toNat := by
  rw [Host.char]
  split_ifs with hu
  · rfl
  · have hsmall : c.toInt8.toInt = (c.toNat : Int).bmod 256 := BitVec.toInt_eq_toNat_bmod c.toBitVec
    rw [hsmall, Int.bmod_def]
    split_ifs <;> omega

/-- The header that `MBread` makes of a name of 1 to 31 characters looks like MacBinary. -/
theorem looks_sent (h : Host) {name : List UInt8} (m : MacFile)
    (hpos : 0 < (name.headD 0).toNat) (hle : (name.headD 0).toNat ≤ 31) :
    h.char (sendHeader name m).nlen > 0 ∧ h.char (sendHeader name m).nlen < 65 ∧
      h.char (sendHeader name m).zero1 = 0 ∧ h.char (sendHeader name m).zero2 = 0 ∧
      h.char (sendHeader name m).zero3 = 0 := by
  have hzero : h.char 0 = 0 := char_of_lt h (by decide)
  have hlen : h.char (name.headD 0) = (name.headD 0).toNat := char_of_lt h (by omega)
  refine ⟨?_, ?_, hzero, hzero, hzero⟩
  · rw [show (sendHeader name m).nlen = name.headD 0 from rfl, hlen]
    omega
  · rw [show (sendHeader name m).nlen = name.headD 0 from rfl, hlen]
    omega

theorem minvers_sent (h : Host) (name : List UInt8) (m : MacFile) :
    ¬ h.char (sendHeader name m).mb2minvers > 129 := by
  rw [show (sendHeader name m).mb2minvers = 129 from rfl, Host.char]
  split_ifs <;> decide

/-- It is accepted. -/
theorem accepts_sent (h : Host) {name : List UInt8} (m : MacFile)
    (hpos : 0 < (name.headD 0).toNat) (hle : (name.headD 0).toNat ≤ 31) :
    (isMacBinary h (sendHeader name m)).1 = true := by
  rw [isMacBinary, if_pos (looks_sent h m hpos hle), if_neg (minvers_sent h name m)]
  split_ifs <;> rfl

/-- A name stored with its length byte in front. -/
theorem pstr_overwrite (old : List UInt8) {n : UInt8} {s : List UInt8} (h : n.toNat ≤ s.length) :
    pstr (overwrite old 0 (n :: s)) = s.take n.toNat := by
  rw [overwrite, List.take_zero, List.nil_append, pstr]
  rw [List.cons_append, List.headD_cons, List.drop_succ_cons, List.drop_zero,
    List.take_append_of_le_length h]

theorem length_macName (h : Host) (file : List UInt8) : (macName h file).length ≤ 31 := by
  rw [macName, List.length_map]
  generalize (if h.DoISOtranslation then h.trbuf_ftp_mac file else file) = s
  have htake : (s.take 31).length ≤ 31 := List.length_take_le _ _
  split_ifs with hdot
  · cases hs : s.take 31 with
    | nil =>
      rw [hs] at hdot
      exact absurd hdot (by decide)
    | cons c t =>
      rw [hs] at htake
      simpa using htake
  · exact htake

/-- The header's name characters, for a name that fits. -/
theorem sendHeader_name {name : List UInt8} (m : MacFile) (hle : (name.headD 0).toNat ≤ 31)
    {i : Nat} (hi : i < 63) (hin : i < (name.headD 0).toNat) :
    (sendHeader name m).name[i] = name.getD (i + 1) 0 := by
  have hname : (sendHeader name m).name = Vector.ofFn fun j : Fin 63 =>
      if j.val + 1 < (if (name.headD 0).toNat > 31 then 32 else (name.headD 0).toNat + 1) then
        name.getD (j + 1) 0 else 0 := rfl
  have hlong : ¬ (name.headD 0).toNat > 31 := by omega
  rw [hname, Vector.getElem_ofFn, if_neg hlong, if_pos (Nat.succ_lt_succ hin)]

/-- The header carries the file's name across. -/
theorem pstr_received {name : List UInt8} (m : MacFile) (old : List UInt8)
    (hle : (name.headD 0).toNat ≤ 31) (hfull : (name.headD 0).toNat < name.length) :
    pstr (overwrite old 0 ((sendHeader name m).nlen :: (sendHeader name m).name.toList.take 31))
      = pstr name := by
  have hlen : ((sendHeader name m).name.toList.take 31).length = 31 := by
    rw [List.length_take, Vector.length_toList]
    rfl
  rw [pstr_overwrite old (by rw [hlen]; exact hle), pstr]
  rw [show (sendHeader name m).nlen = name.headD 0 from rfl, List.take_take, Nat.min_eq_left hle]
  apply List.ext_getElem
  · rw [List.length_take, List.length_take, Vector.length_toList, List.length_drop]
    omega
  · intro i hi hi'
    rw [List.length_take] at hi
    rw [List.getElem_take, List.getElem_take, Vector.getElem_toList,
      sendHeader_name m hle (by omega) (by omega), List.getD_eq_getElem _ _ (by omega),
      List.getElem_drop]
    simp only [Nat.add_comm]

end MacBinary
