import MacSSH.ControlSequences
import MacSSH.MaskedWrites

/-! Attributes of the host as writes to the bits of the writing attribute: the colours, and
lists of attributes. -/
namespace VS

open Linked Masked

/-- The write of the attribute `p` of the host. -/
def graphicsWrite (ANSIgraphics : Bool) (p : Int) : Write 32 :=
  if p = 0 then ⟨kVSansi2b ||| kVSgrph, 0⟩
  else if p > 0 ∧ p < 8 then ⟨BitVec.allOnes 32, VSa p⟩
  else if p ≥ 10 ∧ p < 20 then ⟨BitVec.allOnes 32, 0⟩
  else if p > 20 ∧ p < 28 then ⟨~~~VSa (p-20), 0⟩
  else if ANSIgraphics then
    if p ≥ 30 ∧ p < 38 then ⟨0xfffcf0ff, (BitVec.ofInt 32 (p-30) <<< 8) ||| kVSansifg⟩
    else if p ≥ 38 ∧ p < 40 then ⟨0xfffef0ff, 0⟩
    else if p ≥ 40 ∧ p < 48 then ⟨0xfffc0fff, (BitVec.ofInt 32 (p-40) <<< 12) ||| kVSansibg⟩
    else if p ≥ 48 ∧ p < 50 then ⟨0xfffd0fff, 0⟩
    else if p ≥ 90 ∧ p < 98 then
      ⟨0xfffcf0ff, (BitVec.ofInt 32 (p-90) <<< 8) ||| (kVSansifg2 ||| kVSansifg)⟩
    else if p ≥ 100 ∧ p < 108 then
      ⟨0xfffc0fff, (BitVec.ofInt 32 (p-100) <<< 12) ||| (kVSansibg2 ||| kVSansibg)⟩
    else ⟨BitVec.allOnes 32, 0⟩
  else ⟨BitVec.allOnes 32, 0⟩

theorem apply_keep (a m : BitVec 32) : (⟨m, 0⟩ : Write 32).apply a = a &&& m := BitVec.or_zero

theorem apply_put (a v : BitVec 32) :
    (⟨BitVec.allOnes 32, v⟩ : Write 32).apply a = a ||| v := by
  rw [Write.apply, BitVec.and_allOnes]

theorem apply_none (a : BitVec 32) : (⟨BitVec.allOnes 32, 0⟩ : Write 32).apply a = a := by
  rw [apply_put]
  exact BitVec.or_zero

theorem sgr_eq_apply (g : Bool) (a : BitVec 32) (p : Int) :
    sgr g a p = (graphicsWrite g p).apply a := by
  rw [sgr, graphicsWrite]
  by_cases h0 : p = 0
  · rw [if_pos h0, if_pos h0, apply_keep]
  rw [if_neg h0, if_neg h0]
  by_cases h1 : p > 0 ∧ p < 8
  · rw [if_pos h1, if_pos h1, apply_put]
  rw [if_neg h1, if_neg h1]
  by_cases h2 : p ≥ 10 ∧ p < 20
  · rw [if_pos h2, if_pos h2, apply_none]
  rw [if_neg h2, if_neg h2]
  by_cases h3 : p > 20 ∧ p < 28
  · rw [if_pos h3, if_pos h3, apply_keep]
  rw [if_neg h3, if_neg h3]
  by_cases hg : g = true
  swap
  · rw [if_neg hg, if_neg hg, apply_none]
  rw [if_pos hg, if_pos hg]
  by_cases h4 : p ≥ 30 ∧ p < 38
  · rw [if_pos h4, if_pos h4]
    exact BitVec.or_assoc ..
  rw [if_neg h4, if_neg h4]
  by_cases h5 : p ≥ 38 ∧ p < 40
  · rw [if_pos h5, if_pos h5, apply_keep]
  rw [if_neg h5, if_neg h5]
  by_cases h6 : p ≥ 40 ∧ p < 48
  · rw [if_pos h6, if_pos h6]
    exact BitVec.or_assoc ..
  rw [if_neg h6, if_neg h6]
  by_cases h7 : p ≥ 48 ∧ p < 50
  · rw [if_pos h7, if_pos h7, apply_keep]
  rw [if_neg h7, if_neg h7]
  by_cases h8 : p ≥ 90 ∧ p < 98
  · rw [if_pos h8, if_pos h8]
    exact BitVec.or_assoc ..
  rw [if_neg h8, if_neg h8]
  by_cases h9 : p ≥ 100 ∧ p < 108
  · rw [if_pos h9, if_pos h9]
    exact BitVec.or_assoc ..
  rw [if_neg h9, if_neg h9, apply_none]

theorem foldl_sgr_bit (g : Bool) (a : BitVec 32) (ps : List Int) (i : ℕ) :
    (ps.foldl (sgr g) a).getLsbD i =
      standing (fun p => (graphicsWrite g p).bit i) (a.getLsbD i) ps := by
  have hfun : sgr g = fun a p => (graphicsWrite g p).apply a := by
    funext a p
    exact sgr_eq_apply g a p
  rw [hfun]
  exact getLsbD_foldl (graphicsWrite g) a ps i

/-- No attribute has this number. -/
theorem graphicsWrite_out (g : Bool) {p : Int} (h : p < 0 ∨ 108 ≤ p) :
    graphicsWrite g p = ⟨BitVec.allOnes 32, 0⟩ := by
  rw [graphicsWrite, if_neg (by omega), if_neg (by omega), if_neg (by omega), if_neg (by omega)]
  cases g with
  | false => rfl
  | true =>
    rw [if_pos rfl, if_neg (by omega), if_neg (by omega), if_neg (by omega), if_neg (by omega),
      if_neg (by omega), if_neg (by omega)]

theorem write_none {i : ℕ} (hi : i < 32) :
    (⟨BitVec.allOnes 32, 0⟩ : Write 32).bit i = none := by
  have hput : (0 : BitVec 32).getLsbD i = false := BitVec.getLsbD_zero
  have hkeep : (BitVec.allOnes 32).getLsbD i = true := by
    rw [BitVec.getLsbD_allOnes]
    exact decide_eq_true hi
  rw [Write.bit, if_neg (by rw [hput]; decide), if_pos hkeep]

/-- The two colours of a character. -/
inductive Colour where
  | foreground | background
  deriving DecidableEq

namespace Colour

def other : Colour → Colour
  | foreground => background
  | background => foreground

/-- The bits of the colour in the writing attribute. -/
def bits : Colour → BitVec 32
  | foreground => 0x10f00
  | background => 0x2f000

/-- The bit of a bright colour. -/
def brightBit : Colour → ℕ
  | foreground => 16
  | background => 17

/-- The first of the codes of the colour. -/
def base : Colour → Int
  | foreground => 30
  | background => 40

def isNormal (c : Colour) (p : Int) : Bool := c.base ≤ p ∧ p < c.base+8

def isOff (c : Colour) (p : Int) : Bool := c.base+8 ≤ p ∧ p < c.base+10

def isBright (c : Colour) (p : Int) : Bool := c.base+60 ≤ p ∧ p < c.base+68

/-- The code sets the colour, or takes it away. -/
def isCode (c : Colour) (p : Int) : Bool := c.isNormal p || c.isOff p || c.isBright p

/-- The code sets the colour. -/
def sets (c : Colour) (p : Int) : Bool := c.isNormal p || c.isBright p

/-- The code is one of the colour, or a reset. -/
def governs (c : Colour) (p : Int) : Bool := p = 0 || c.isCode p

/-- The colour is bright after the codes `pre`: the last one that governs it makes it so, or
none does and it was bright before. -/
def BrightAfter (c : Colour) (a : BitVec 32) (pre : List Int) : Prop :=
  match (pre.filter c.governs).getLast? with
  | none => a.getLsbD c.brightBit = true
  | some p => c.isBright p = true

/-- A code that sets the other colour finds this one bright, and no code behind it governs
this colour. -/
def BrightLost (c : Colour) (a : BitVec 32) (ps : List Int) : Prop :=
  ∃ pre p post, ps = pre ++ p :: post ∧ c.other.sets p = true ∧ c.BrightAfter a pre ∧
    ∀ q ∈ post, c.governs q = false

theorem code_bits_table : ∀ c : Colour, ∀ p : Fin 108, ∀ i : Fin 32, c.bits.getLsbD i = true →
    (graphicsWrite true (p.val : Int)).bit i =
      if c.governs (p.val : Int) then
        if i.val = c.brightBit then some (c.isBright (p.val : Int))
        else some (((graphicsWrite true (p.val : Int)).bit i).getD false)
      else if c.other.sets (p.val : Int) ∧ i.val = c.brightBit then some false else none := by
  intro c
  cases c <;> decide +kernel

theorem style_bits_table : ∀ c : Colour, ∀ p : Fin 108, ∀ i : Fin 32, c.isCode (p.val : Int) →
    foreground.bits.getLsbD i = false → background.bits.getLsbD i = false →
      (graphicsWrite true (p.val : Int)).bit i = none := by
  intro c
  cases c <;> decide +kernel

theorem code_range {c : Colour} {p : Int} (h : c.isCode p = true) : 0 ≤ p ∧ p < 108 := by
  simp only [isCode, isNormal, isOff, isBright, Bool.or_eq_true, decide_eq_true_eq] at h
  cases c <;> simp only [base] at h <;> omega

/-- What a code makes of the bits of a colour. A code that sets the other colour clears the
bright bit of this one. -/
theorem code_bits (c : Colour) (p : Int) {i : ℕ} (hi : c.bits.getLsbD i = true) :
    (graphicsWrite true p).bit i =
      if c.governs p then
        if i = c.brightBit then some (c.isBright p)
        else some (((graphicsWrite true p).bit i).getD false)
      else if c.other.sets p ∧ i = c.brightBit then some false else none := by
  have hi32 := BitVec.lt_of_getLsbD hi
  by_cases hp : 0 ≤ p ∧ p < 108
  · have htable := code_bits_table c ⟨p.toNat, by omega⟩ ⟨i, hi32⟩ hi
    simp only [Int.toNat_of_nonneg hp.1] at htable
    exact htable
  · have hgov : c.governs p = false := by
      rw [governs, Bool.or_eq_false_iff]
      refine ⟨decide_eq_false (by omega), ?_⟩
      exact Bool.eq_false_iff.mpr fun h => hp (code_range h)
    have hset : c.other.sets p = false := by
      apply Bool.eq_false_iff.mpr
      intro h
      apply hp
      apply @code_range c.other
      rw [sets, Bool.or_eq_true] at h
      rcases h with h | h <;> simp [isCode, h]
    rw [graphicsWrite_out true (by omega), hgov, hset, write_none hi32]
    simp

/-- Codes of colours leave the other bits alone. -/
theorem style_bits (c : Colour) {p : Int} (hp : c.isCode p = true) {i : ℕ} (hi : i < 32)
    (hf : foreground.bits.getLsbD i = false) (hb : background.bits.getLsbD i = false) :
    (graphicsWrite true p).bit i = none := by
  have hrange := code_range hp
  have htable := style_bits_table c ⟨p.toNat, by omega⟩ ⟨i, hi⟩
  simp only [Int.toNat_of_nonneg hrange.1] at htable
  exact htable hp hf hb

end Colour

open Colour in
/-- The attributes `ps` on top of `a` make a colour of its own codes and resets alone, and the
other bits of what is not a code of a colour. -/
structure ColoursApart (a : BitVec 32) (ps : List Int) : Prop where
  colour : ∀ (c : Colour) (a' : BitVec 32), a' &&& c.bits = a &&& c.bits →
    ps.foldl (sgr true) a &&& c.bits = (ps.filter c.governs).foldl (sgr true) a' &&& c.bits
  style : ∀ a' : BitVec 32,
    a' &&& ~~~(foreground.bits ||| background.bits) =
        a &&& ~~~(foreground.bits ||| background.bits) →
      ps.foldl (sgr true) a &&& ~~~(foreground.bits ||| background.bits) =
        (ps.filter fun p => !foreground.isCode p && !background.isCode p).foldl (sgr true) a' &&&
          ~~~(foreground.bits ||| background.bits)

section Colours
variable (c : Colour) (a : BitVec 32)

/-- The bright bit after the codes of one colour. -/
theorem brightAfter_iff (pre : List Int) :
    c.BrightAfter a pre ↔ standing
      (fun p => if c.governs p then (graphicsWrite true p).bit c.brightBit else none)
      (a.getLsbD c.brightBit) pre = true := by
  have hbit : c.bits.getLsbD c.brightBit = true := by cases c <;> decide
  induction pre using List.reverseRecOn with
  | nil => rfl
  | append_singleton pre p ih =>
    rw [standing_concat, Colour.BrightAfter, List.filter_append]
    by_cases hp : c.governs p = true
    · rw [List.filter_cons_of_pos hp, List.filter_nil, List.getLast?_concat, if_pos hp,
        Colour.code_bits c p hbit, if_pos hp, if_pos rfl]
      rfl
    · rw [List.filter_cons_of_neg hp, List.filter_nil, List.append_nil, if_neg hp]
      exact ih

/-- A bit of a colour is that of its own codes, if and only if it is not a bright bit that a
code of the other colour takes away. -/
theorem colour_bit_iff (ps : List Int) {i : ℕ} (hi : c.bits.getLsbD i = true) :
    (ps.foldl (sgr true) a).getLsbD i = ((ps.filter c.governs).foldl (sgr true) a).getLsbD i ↔
      ¬(i = c.brightBit ∧ c.BrightLost a ps) := by
  rw [foldl_sgr_bit, foldl_sgr_bit, standing_filter]
  have hcode := fun p => Colour.code_bits c p hi
  by_cases hbright : i = c.brightBit
  · subst hbright
    have huv (p : Int) : (graphicsWrite true p).bit c.brightBit =
        (if c.governs p then (graphicsWrite true p).bit c.brightBit else none) ∨
          (if c.governs p then (graphicsWrite true p).bit c.brightBit else none) = none ∧
            (graphicsWrite true p).bit c.brightBit = some false := by
      by_cases hp : c.governs p = true
      · rw [if_pos hp]
        exact Or.inl rfl
      · rw [if_neg hp, hcode p, if_neg hp]
        split_ifs
        · exact Or.inr ⟨rfl, rfl⟩
        · exact Or.inl rfl
    rw [eq_comm, standing_eq_iff huv, not_iff_not]
    have hgov (q : Int) :
        (if c.governs q then (graphicsWrite true q).bit c.brightBit else none) = none ↔
          c.governs q = false := by
      by_cases hq : c.governs q = true
      · rw [if_pos hq, hcode q, if_pos hq, if_pos rfl, hq]
        simp
      · rw [if_neg hq]
        simpa using hq
    constructor
    · rintro ⟨pre, p, post, hsplit, hp, hclear, hpost, hpre⟩
      refine ⟨rfl, pre, p, post, hsplit, ?_, (brightAfter_iff c a pre).mpr hpre,
        fun q hq => (hgov q).mp (hpost q hq)⟩
      by_contra hset
      rw [hcode p, if_neg (by simp [(hgov p).mp hp]), if_neg (fun h => hset h.1)] at hclear
      cases hclear
    · rintro ⟨-, pre, p, post, hsplit, hset, hpre, hpost⟩
      have hp : c.governs p = false := by
        simp only [Colour.sets, Colour.isNormal, Colour.isBright, Bool.or_eq_true,
          decide_eq_true_eq] at hset
        simp only [Colour.governs, Colour.isCode, Colour.isNormal, Colour.isOff, Colour.isBright,
          Bool.or_eq_false_iff, decide_eq_false_iff_not]
        cases c <;> simp only [Colour.other, Colour.base] at hset ⊢ <;> omega
      refine ⟨pre, p, post, hsplit, (hgov p).mpr hp, ?_, fun q hq => (hgov q).mpr (hpost q hq),
        (brightAfter_iff c a pre).mp hpre⟩
      rw [hcode p, if_neg (by simp [hp]), if_pos ⟨hset, rfl⟩]
  · refine iff_of_true ?_ fun h => hbright h.1
    apply standing_congr
    intro p _
    by_cases hp : c.governs p = true
    · rw [if_pos hp]
    · rw [if_neg hp, hcode p, if_neg hp, if_neg fun h => hbright h.2]

/-- The bits of a field after a run depend on those before it alone. -/
theorem standing_field {mask a a' : BitVec 32} (h : a' &&& mask = a &&& mask) (ps : List Int) :
    ps.foldl (sgr true) a' &&& mask = ps.foldl (sgr true) a &&& mask := by
  rw [and_eq_iff]
  intro i hi
  rw [foldl_sgr_bit, foldl_sgr_bit, (and_eq_iff a' a mask).mp h i hi]

theorem style_apart (ps : List Int) :
    let rest := ~~~(Colour.foreground.bits ||| Colour.background.bits)
    ps.foldl (sgr true) a &&& rest =
      (ps.filter fun p => !Colour.foreground.isCode p && !Colour.background.isCode p).foldl
        (sgr true) a &&& rest := by
  intro rest
  rw [and_eq_iff]
  intro i hi
  have hi32 := BitVec.lt_of_getLsbD hi
  have hout : Colour.foreground.bits.getLsbD i = false ∧
      Colour.background.bits.getLsbD i = false := by
    simpa [rest, BitVec.getLsbD_not, hi32] using hi
  rw [foldl_sgr_bit, foldl_sgr_bit, standing_filter]
  apply standing_congr
  intro p _
  split_ifs with hp
  · rfl
  · rw [Bool.and_eq_true, Bool.not_eq_true', Bool.not_eq_true', not_and_or] at hp
    rcases hp with hp | hp
    · exact Colour.style_bits .foreground (by simpa using hp) hi32 hout.1 hout.2
    · exact Colour.style_bits .background (by simpa using hp) hi32 hout.1 hout.2

end Colours

/-- Colours are set apart from each other, if and only if no code that sets one of them comes
after the last code or reset of the other one while that one is bright. -/
theorem colours_apart_iff (a : BitVec 32) (ps : List Int) :
    ColoursApart a ps ↔ ∀ c : Colour, ¬c.BrightLost a ps := by
  constructor
  · intro h c hlost
    have hbit : c.bits.getLsbD c.brightBit = true := by cases c <;> decide
    have hsame := (and_eq_iff _ _ _).mp (h.colour c a rfl) c.brightBit hbit
    exact (colour_bit_iff c a ps hbit).mp hsame ⟨rfl, hlost⟩
  · intro h
    constructor
    · intro c a' ha'
      have hself : ps.foldl (sgr true) a &&& c.bits =
          (ps.filter c.governs).foldl (sgr true) a &&& c.bits := by
        rw [and_eq_iff]
        intro i hi
        exact (colour_bit_iff c a ps hi).mpr fun hlost => h c hlost.2
      rw [hself, standing_field ha']
    · intro a' ha'
      rw [standing_field ha']
      exact style_apart a ps

/-- A background takes away that the foreground before it is bright. -/
theorem background_dims_foreground :
    [90, 40].foldl (sgr true) 0 = 0x8800 ∧ ¬ColoursApart 0 [90, 40] := by
  refine ⟨by decide, ?_⟩
  intro h
  exact absurd (h.colour .foreground 0 rfl) (by decide)

end VS
