import Mathlib.Data.List.Basic

/-! The printable transport of data bytes. The decoder stands here with the two `short`s of
the source, so that a state outside its three cases can be spoken of, and a character that
leaves the switch without a value. -/
namespace VR

def FRSKIP : Int := 0
def FRIN : Int := 1
def FRSPECIAL : Int := 2

structure Decoder where
  dstate : Int
  dspec : Int

namespace Decoder

def decode0 (d : Decoder) : Decoder := { d with dstate := FRIN }

/-- The case FRIN, which a mistaken character comes back to. -/
def decodeIn (d : Decoder) (c : Int) : Option Int × Decoder :=
  if c > 31 ∧ c < 123 then (some c, d)
  else (some (-1), { d with dspec := c, dstate := FRSPECIAL })

/-- What is returned for a character; `none` where the switch is left without a value. -/
def decode1 (d : Decoder) (c : Int) : Option Int × Decoder :=
  if d.dstate = FRSKIP then (some (-1), d)
  else if d.dstate = FRIN then d.decodeIn c
  else if d.dstate = FRSPECIAL then
    let d' := { d with dstate := FRIN }
    if d.dspec = 123 ∨ d.dspec = 124 ∨ d.dspec = 125 ∨ d.dspec = 126 then
      (some ((d.dspec-123)*64-32+c), d')
    else d'.decodeIn c -- mistaken character in stream
  else (none, d)

/-- Characters one after another, each a signed `char`: what each returns, and the decoder
behind them. -/
def decodeAll (d : Decoder) : List UInt8 → List (Option Int) × Decoder
  | [] => ([], d)
  | c :: cs =>
    let first := d.decode1 c.toInt8.toInt
    let rest := first.2.decodeAll cs
    (first.1 :: rest.1, rest.2)

/-- What `VRwrite` keeps: the values that are not negative. -/
def kept (returned : List (Option Int)) : List Int :=
  returned.filterMap fun value => value.filter fun i => 0 ≤ i

/-- The states there is a case for. -/
def Known (d : Decoder) : Prop := d.dstate = FRSKIP ∨ d.dstate = FRIN ∨ d.dstate = FRSPECIAL

theorem known_decode0 (d : Decoder) : d.decode0.Known := Or.inr (Or.inl rfl)

theorem decodeIn_returns (d : Decoder) (c : Int) (hin : d.dstate = FRIN) :
    (∃ i, (d.decodeIn c).1 = some i) ∧ (d.decodeIn c).2.Known := by
  rw [decodeIn]
  split
  · exact ⟨⟨c, rfl⟩, Or.inr (Or.inl hin)⟩
  · exact ⟨⟨-1, rfl⟩, Or.inr (Or.inr rfl)⟩

/-- One character: from a known state there is a value, and the state stays known. -/
theorem decode1_returns {d : Decoder} (c : Int) (h : d.Known) :
    (∃ i, (d.decode1 c).1 = some i) ∧ (d.decode1 c).2.Known := by
  rw [decode1]
  split_ifs with hskip hin hspecial hspec
  · exact ⟨⟨-1, rfl⟩, h⟩
  · exact decodeIn_returns d c hin
  · exact ⟨⟨_, rfl⟩, Or.inr (Or.inl rfl)⟩
  · exact decodeIn_returns _ c rfl
  · rcases h with h | h | h <;> contradiction

theorem decodeAll_returns {d : Decoder} (cs : List UInt8) (h : d.Known) :
    ∀ returned ∈ (d.decodeAll cs).1, ∃ i, returned = some i := by
  induction cs generalizing d with
  | nil => simp [decodeAll]
  | cons c cs ih =>
    obtain ⟨hvalue, hknown⟩ := decode1_returns c.toInt8.toInt h
    intro returned hmem
    rcases List.mem_cons.mp hmem with rfl | hmem
    · exact hvalue
    · exact ih hknown returned hmem

end Decoder

/-- Data and its encoding: a byte from 32 to 122 may stand for itself, and any byte may be
written as the special character of its quarter and its place there. -/
inductive Printable : List UInt8 → List UInt8 → Prop
  | nil : Printable [] []
  | itself {data enc : List UInt8} (r : UInt8) (h32 : 32 ≤ r) (h122 : r ≤ 122)
      (h : Printable data enc) : Printable (r :: data) (r :: enc)
  | special {data enc : List UInt8} (r : UInt8) (h : Printable data enc) :
      Printable (r :: data) ((r/64+123) :: (r%64+32) :: enc)

namespace Decoder
variable {d : Decoder}

/-- A character of the ASCII set is not negative. -/
theorem toInt_ascii {c : UInt8} (h : c.toNat < 128) : c.toInt8.toInt = c.toNat := by
  have hbmod : c.toInt8.toInt = (c.toNat : Int).bmod 256 := BitVec.toInt_eq_toNat_bmod c.toBitVec
  rw [hbmod, Int.bmod]
  omega

theorem decode1_itself (r : UInt8) (hin : d.dstate = FRIN) (h32 : 32 ≤ r) (h122 : r ≤ 122) :
    d.decode1 r.toInt8.toInt = (some (r.toNat : Int), d) := by
  have hlow : 32 ≤ r.toNat := h32
  have hhigh : r.toNat ≤ 122 := h122
  rw [toInt_ascii (by omega), decode1, if_neg (by rw [hin]; decide), if_pos hin, decodeIn,
    if_pos (by omega)]

theorem toNat_special (r : UInt8) :
    (r/64+123).toNat = 123+r.toNat/64 ∧ (r%64+32).toNat = r.toNat%64+32 := by
  have hbyte := r.toNat_lt
  constructor
  · rw [UInt8.toNat_add, UInt8.toNat_div]
    change (r.toNat/64+123)%256 = _
    omega
  · rw [UInt8.toNat_add, UInt8.toNat_mod]
    change (r.toNat%64+32)%256 = _
    omega

/-- The two characters of a byte: the first returns nothing to keep, the second the byte. -/
theorem decode1_special (r : UInt8) (hin : d.dstate = FRIN) :
    d.decode1 (r/64+123).toInt8.toInt =
      (some (-1), ⟨FRSPECIAL, 123+(r.toNat/64 : ℕ)⟩) ∧
    (⟨FRSPECIAL, 123+(r.toNat/64 : ℕ)⟩ : Decoder).decode1 (r%64+32).toInt8.toInt =
      (some (r.toNat : Int), ⟨FRIN, 123+(r.toNat/64 : ℕ)⟩) := by
  have hbyte := r.toNat_lt
  obtain ⟨hquarter, hplace⟩ := toNat_special r
  constructor
  · rw [toInt_ascii (by omega), hquarter, decode1, if_neg (by rw [hin]; decide), if_pos hin,
      decodeIn, if_neg (by omega)]
    rfl
  · have hskip : ¬FRSPECIAL = FRSKIP := by decide
    have hdecodes : ¬FRSPECIAL = FRIN := by decide
    rw [toInt_ascii (by omega), hplace, decode1, if_neg hskip, if_neg hdecodes, if_pos rfl]
    simp only
    rw [if_pos (by omega)]
    congr 2
    omega

theorem kept_byte (n : ℕ) (l : List (Option Int)) :
    kept (some (n : Int) :: l) = (n : Int) :: kept l := by
  apply List.filterMap_cons_some
  rw [Option.filter_some, if_pos (decide_eq_true (Int.natCast_nonneg n))]

theorem kept_negative (l : List (Option Int)) : kept (some (-1) :: l) = kept l := by
  apply List.filterMap_cons_none
  rw [Option.filter_some, if_neg (by decide)]

/-- An encoding brings the decoder back to where it decodes, and what is kept is the data. -/
theorem decodeAll_printable {data enc : List UInt8} (hin : d.dstate = FRIN)
    (h : Printable data enc) :
    kept (d.decodeAll enc).1 = data.map (fun r => (r.toNat : Int)) ∧
    (d.decodeAll enc).2.dstate = FRIN := by
  induction h generalizing d with
  | nil => exact ⟨rfl, hin⟩
  | itself r h32 h122 h ih =>
    -- the decoder has not moved, and the byte is kept
    obtain ⟨hkept, hend⟩ := ih hin
    rw [decodeAll, decode1_itself r hin h32 h122]
    refine ⟨?_, hend⟩
    rw [kept_byte, hkept, List.map_cons]
  | special r h ih =>
    -- two characters, the first of which returns -1
    obtain ⟨hfirst, hsecond⟩ := decode1_special r hin
    obtain ⟨hkept, hend⟩ := ih (d := ⟨FRIN, 123+(r.toNat/64 : ℕ)⟩) rfl
    rw [decodeAll, hfirst, decodeAll, hsecond]
    refine ⟨?_, hend⟩
    rw [kept_negative, kept_byte, hkept, List.map_cons]

/-- From `decode0` on, every character of an encoding returns a value, and the bytes kept
are the data. -/
theorem printable_transport (d : Decoder) {data enc : List UInt8} (h : Printable data enc) :
    (∀ returned ∈ (d.decode0.decodeAll enc).1, ∃ i, returned = some i) ∧
    kept (d.decode0.decodeAll enc).1 = data.map (fun r => (r.toNat : Int)) :=
  ⟨decodeAll_returns enc (known_decode0 d), (decodeAll_printable rfl h).1⟩

-- A special character, and a byte that stands for itself behind it.
theorem printable_transport_mixed :
    let d := (⟨FRSKIP, 0⟩ : Decoder).decode0
    (∀ returned ∈ (d.decodeAll [126, 40, 65]).1, ∃ i, returned = some i) ∧
    kept (d.decodeAll [126, 40, 65]).1 = [200, 65] := by
  have henc : Printable [200, 65] [126, 40, 65] :=
    .special 200 (.itself 65 (by decide) (by decide) .nil)
  exact printable_transport ⟨FRSKIP, 0⟩ henc

end Decoder

end VR
