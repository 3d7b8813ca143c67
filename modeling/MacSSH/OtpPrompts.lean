import MacSSH.Overlaps
import Mathlib.Data.List.Infix

/-! Recognising the challenges of one-time passwords in what the host sends: a window of
nine bytes is compared with the keywords, then the number and the seed are collected. -/
namespace Otp

open Overlaps

/-- The value of a byte as a C `char`. -/
def char (c : UInt8) : Int := Int.bmod c.toNat 256

-- otp-sha1, otp-md5, otp-md4 and s/key, with the space behind them
def sha1 : List UInt8 := [111, 116, 112, 45, 115, 104, 97, 49, 32]
def md5 : List UInt8 := [111, 116, 112, 45, 109, 100, 53, 32]
def md4 : List UInt8 := [111, 116, 112, 45, 109, 100, 52, 32]
def skey : List UInt8 := [115, 47, 107, 101, 121, 32]

def strncpy (source string : List UInt8) : List UInt8 := source ++ string.drop source.length

/-- The part of a window that looks for challenges: `challenges` are the strings that
`otpinterface` was called with, `places` the indices at which `otpautostring` was written. -/
structure WindRec where
  otpautostate : ℕ
  otpauto : Int
  otpmulti : Int
  otpautolength : ℕ
  otpautobuffer : List UInt8
  otpautostring : List UInt8
  challenges : List (List UInt8)
  places : List ℕ

namespace WindRec

/-- The bytes 1 to 8 move down, and `c` comes behind them. -/
def slide (tw : WindRec) (c : UInt8) : WindRec :=
  { tw with
    otpautobuffer := (tw.otpautobuffer.drop 1).take 8 ++ c :: tw.otpautobuffer.drop 9 }

def found (tw : WindRec) (keyword : List UInt8) : WindRec :=
  { tw with
    otpautostate := 1
    otpautostring := strncpy keyword tw.otpautostring
    otpautolength := keyword.length
    places := tw.places ++ List.range keyword.length }

/-- `otpautostring[otpautolength] = c; otpautolength++`, going on in state `n`. -/
def put (tw : WindRec) (c : UInt8) (n : ℕ) : WindRec :=
  { tw with
    otpautostate := n
    otpautostring := tw.otpautostring.set tw.otpautolength c
    otpautolength := tw.otpautolength+1
    places := tw.places ++ [tw.otpautolength] }

def dropped (tw : WindRec) : WindRec := { tw with otpautostate := 0 }

/-- The string is closed and given to `otpinterface`. -/
def report (tw : WindRec) : WindRec :=
  { tw with
    otpautostate := 0
    otpauto := tw.otpmulti
    otpautostring := tw.otpautostring.set tw.otpautolength 0
    challenges := tw.challenges ++
      [(tw.otpautostring.set tw.otpautolength 0).takeWhile (· ≠ 0)]
    places := tw.places ++ [tw.otpautolength] }

end WindRec

/-- One byte in `otpauto`. -/
def otpautoByte (tw : WindRec) (c : UInt8) : WindRec :=
  match tw.otpautostate with
  | 0 =>
    let tw := tw.slide c
    if tw.otpautobuffer.take 9 = sha1 then tw.found sha1
    else if (tw.otpautobuffer.drop 1).take 8 = md5 then tw.found md5
    else if (tw.otpautobuffer.drop 1).take 8 = md4 then tw.found md4
    else if (tw.otpautobuffer.drop 3).take 6 = skey then tw.found skey
    else tw
  | 1 => if char c ≥ 48 ∧ char c ≤ 57 then tw.put c 2 else tw.dropped
  | 2 =>
    if tw.otpautolength > 250 then tw.dropped
    else if char c ≥ 48 ∧ char c ≤ 57 then tw.put c 2
    else if c = 32 then tw.put 32 3
    else tw.dropped
  | 3 =>
    if tw.otpautolength > 250 then tw.dropped
    else if char c ≤ 32 ∨ c = 93 then tw.report
    else tw.put c 3
  | _ => tw

def otpauto (tw : WindRec) (string : List UInt8) : WindRec := string.foldl otpautoByte tw

/-- The stream is handed over in chunks. -/
def receive (tw : WindRec) (chunks : List (List UInt8)) : WindRec := chunks.foldl otpauto tw

/-- A window when its connection has been created. The rest of the two arrays is what an
earlier connection left there. -/
structure Created (tw : WindRec) : Prop where
  state : tw.otpautostate = 0
  buffer : tw.otpautobuffer.length = 10
  cleared : tw.otpautobuffer[7]? = some 0
  string : tw.otpautostring.length = 256

def keywords : List (List UInt8) := [md4, md5, sha1, skey]

def Digit (c : UInt8) : Prop := 48 ≤ c ∧ c ≤ 57

/-- A control, a space or `]`. -/
def Ends (c : UInt8) : Prop := c ≤ 32 ∨ c = 93

instance (c : UInt8) : Decidable (Digit c) := inferInstanceAs (Decidable (_ ∧ _))
instance (c : UInt8) : Decidable (Ends c) := inferInstanceAs (Decidable (_ ∨ _))

/-- A keyword, digits, a space and a seed. -/
def Challenge (t : List UInt8) : Prop :=
  ∃ keyword ∈ keywords, ∃ digits seed, t = keyword ++ digits ++ 32 :: seed ∧
    digits ≠ [] ∧ (∀ d ∈ digits, Digit d) ∧ ∀ c ∈ seed, ¬ Ends c

/-- `b` ends a challenge of the length that is provided for. -/
def Complete (t : List UInt8) (b : UInt8) : Prop := Challenge t ∧ Ends b ∧ t.length ≤ 250

/-- Of every byte of the stream, in any chunks: the challenge that it completes is reported,
and nothing else; and the string is written inside. -/
structure Recognised (tw : WindRec) (stream : List UInt8) : Prop where
  reports : ∀ part next b, next.flatten = part.flatten ++ [b] → next.flatten <+: stream →
    ∀ t, (receive tw next).challenges = (receive tw part).challenges ++ [t] ↔
      ∃ pre, part.flatten = pre ++ t ∧ Complete t b
  nothing_else : ∀ part next b, next.flatten = part.flatten ++ [b] → next.flatten <+: stream →
    (∀ pre t, part.flatten = pre ++ t → ¬ Complete t b) →
      (receive tw next).challenges = (receive tw part).challenges
  inside : ∀ part, part.flatten <+: stream →
    ∃ more, (receive tw part).places = tw.places ++ more ∧ ∀ i ∈ more, i < 256

/-- A keyword is looked for at the first byte of every complete challenge, no byte from 128
on comes right behind a seed, and none is made complete by the byte that was left. -/
structure StreamFine (tw : WindRec) (stream : List UInt8) : Prop where
  looking : ∀ pre t b, pre ++ t ++ [b] <+: stream → Complete t b →
    (otpauto tw pre).otpautostate = 0
  seven_bits : ∀ pre b, pre ++ [b] <+: stream → (otpauto tw pre).otpautostate = 3 →
    (otpauto tw pre).otpautolength ≤ 250 → b < 128
  apart : ∀ left t b, tw.otpautobuffer[8]? = some left → t ++ [b] <+: left :: stream →
    ¬ Complete t b

section Grammar
variable {InSeed : UInt8 → Prop} {t : List UInt8} {n : ℕ} {c : UInt8}

theorem le_toNat (k : ℕ) (hk : k < 256) (c : UInt8) : UInt8.ofNat k ≤ c ↔ k ≤ c.toNat := by
  rw [UInt8.le_iff_toNat_le, UInt8.toNat_ofNat_of_lt' hk]

theorem toNat_le (k : ℕ) (hk : k < 256) (c : UInt8) : c ≤ UInt8.ofNat k ↔ c.toNat ≤ k := by
  rw [UInt8.le_iff_toNat_le, UInt8.toNat_ofNat_of_lt' hk]

theorem char_eq (c : UInt8) :
    char c = if c.toNat < 128 then (c.toNat : Int) else c.toNat-256 := by
  have hlt : c.toNat < 256 := c.toNat_lt
  unfold char
  generalize c.toNat = n at hlt
  rw [Int.bmod_def]
  split_ifs <;> omega

theorem digit_iff : Digit c ↔ char c ≥ 48 ∧ char c ≤ 57 := by
  have hlt : c.toNat < 256 := c.toNat_lt
  rw [Digit, char_eq, show (48 : UInt8) = UInt8.ofNat 48 from rfl,
    show (57 : UInt8) = UInt8.ofNat 57 from rfl, le_toNat 48 (by decide),
    toNat_le 57 (by decide)]
  split_ifs <;> omega

/-- The bytes that end a seed in the code: those from 128 on are negative. -/
def Stops (c : UInt8) : Prop := char c ≤ 32 ∨ c = 93

instance (c : UInt8) : Decidable (Stops c) := inferInstanceAs (Decidable (_ ∨ _))

theorem stops_iff : Stops c ↔ Ends c ∨ 128 ≤ c := by
  have hlt : c.toNat < 256 := c.toNat_lt
  have hvalue : char c ≤ 32 ↔ c ≤ 32 ∨ 128 ≤ c := by
    rw [char_eq, show (32 : UInt8) = UInt8.ofNat 32 from rfl,
      show (128 : UInt8) = UInt8.ofNat 128 from rfl, le_toNat 128 (by decide),
      toNat_le 32 (by decide)]
    split_ifs <;> omega
  unfold Stops Ends
  rw [hvalue, or_right_comm]

/-- A challenge as far as it has come: the keyword, some digits, or a part of the seed. -/
inductive Begun (InSeed : UInt8 → Prop) : ℕ → List UInt8 → Prop
  | keyword {u : List UInt8} : u ∈ keywords → Begun InSeed 1 u
  | digit {u : List UInt8} {m : ℕ} {d : UInt8} : Begun InSeed m u → m ≤ 2 → Digit d →
    Begun InSeed 2 (u ++ [d])
  | space {u : List UInt8} : Begun InSeed 2 u → Begun InSeed 3 (u ++ [32])
  | seed {u : List UInt8} {d : UInt8} : Begun InSeed 3 u → InSeed d → Begun InSeed 3 (u ++ [d])

theorem Begun.mono {Other : UInt8 → Prop} (h : Begun InSeed n t)
    (hsub : ∀ c, InSeed c → Other c) : Begun Other n t := by
  induction h with
  | keyword ht => exact .keyword ht
  | digit _ hn hd ih => exact .digit ih hn hd
  | space _ ih => exact .space ih
  | seed _ hc ih => exact .seed ih (hsub _ hc)

theorem Begun.state_le (h : Begun InSeed n t) : 1 ≤ n ∧ n ≤ 3 := by
  cases h <;> omega

/-- What has been collected in each of the states. -/
theorem Begun.shape (h : Begun InSeed n t) : ∃ keyword ∈ keywords, ∃ digits,
    (∀ d ∈ digits, Digit d) ∧ (n = 1 → t = keyword) ∧
      (n = 2 → digits ≠ [] ∧ t = keyword ++ digits) ∧
      (n = 3 → ∃ seed, t = keyword ++ digits ++ 32 :: seed ∧ digits ≠ [] ∧
        ∀ c ∈ seed, InSeed c) := by
  induction h with
  | @keyword t ht =>
    exact ⟨t, ht, [], fun d hd => absurd hd List.not_mem_nil, fun _ => rfl,
      fun h => absurd h (by decide), fun h => absurd h (by decide)⟩
  | @digit t n d hbegun hn hd ih =>
    obtain ⟨keyword, hkeyword, digits, hdigits, hone, htwo, _⟩ := ih
    have hdigits' : ∀ d' ∈ digits ++ [d], Digit d' := by
      intro d' hd'
      rcases List.mem_append.mp hd' with hd' | hd'
      · exact hdigits d' hd'
      · rwa [List.mem_singleton.mp hd']
    have hle := hbegun.state_le
    rcases Nat.lt_or_ge n 2 with h1 | h2
    · have ht := hone (by omega)
      refine ⟨keyword, hkeyword, [d], fun d' hd' => ?_, fun h => absurd h (by decide),
        fun _ => ⟨List.cons_ne_nil _ _, by rw [ht]⟩, fun h => absurd h (by decide)⟩
      rwa [List.mem_singleton.mp hd']
    · have ht := (htwo (by omega)).2
      refine ⟨keyword, hkeyword, digits ++ [d], hdigits', fun h => absurd h (by decide),
        fun _ => ⟨?_, by rw [ht, List.append_assoc]⟩, fun h => absurd h (by decide)⟩
      exact List.append_ne_nil_of_right_ne_nil _ (List.cons_ne_nil _ _)
  | space _ ih =>
    obtain ⟨keyword, hkeyword, digits, hdigits, _, htwo, _⟩ := ih
    obtain ⟨hne, ht⟩ := htwo rfl
    refine ⟨keyword, hkeyword, digits, hdigits, fun h => absurd h (by decide),
      fun h => absurd h (by decide), fun _ => ⟨[], by rw [ht], hne, fun c hc => ?_⟩⟩
    exact absurd hc List.not_mem_nil
  | @seed t c _ hc ih =>
    obtain ⟨keyword, hkeyword, digits, hdigits, _, _, hthree⟩ := ih
    obtain ⟨seed, ht, hne, hseed⟩ := hthree rfl
    refine ⟨keyword, hkeyword, digits, hdigits, fun h => absurd h (by decide),
      fun h => absurd h (by decide), fun _ => ⟨seed ++ [c], ?_, hne, fun c' hc' => ?_⟩⟩
    · rw [ht, List.append_assoc]
      rfl
    · rcases List.mem_append.mp hc' with hc' | hc'
      · exact hseed c' hc'
      · rwa [List.mem_singleton.mp hc']

theorem begun_digits {keyword : List UInt8} (h : keyword ∈ keywords) (digits : List UInt8)
    (hne : digits ≠ []) (hdigits : ∀ d ∈ digits, Digit d) :
    Begun InSeed 2 (keyword ++ digits) := by
  induction digits using List.reverseRecOn with
  | nil => exact absurd rfl hne
  | append_singleton digits d ih =>
    have hd : Digit d := hdigits d (by simp)
    rw [← List.append_assoc]
    rcases List.eq_nil_or_concat digits with rfl | ⟨_, _, hcat⟩
    · rw [List.append_nil]
      exact .digit (.keyword h) (by decide) hd
    · refine Begun.digit (ih (by simp [hcat]) ?_) (Nat.le_refl 2) hd
      intro d' hd'
      exact hdigits d' (List.mem_append_left _ hd')

theorem begun_seed (h : Begun InSeed 3 t) (seed : List UInt8) (hseed : ∀ c ∈ seed, InSeed c) :
    Begun InSeed 3 (t ++ seed) := by
  induction seed using List.reverseRecOn with
  | nil => rwa [List.append_nil]
  | append_singleton seed c ih =>
    rw [← List.append_assoc]
    exact .seed (ih fun c' hc' => hseed c' (List.mem_append_left _ hc')) (hseed c (by simp))

theorem challenge_iff : Challenge t ↔ Begun (fun c => ¬ Ends c) 3 t := by
  constructor
  · intro ⟨keyword, hkeyword, digits, seed, ht, hne, hdigits, hseed⟩
    have hspace : Begun (fun c => ¬ Ends c) 3 _ :=
      .space (begun_digits hkeyword digits hne hdigits)
    have hall := begun_seed hspace seed hseed
    rwa [List.append_assoc _ [32] seed, List.singleton_append, ← ht] at hall
  · intro h
    obtain ⟨keyword, hkeyword, digits, hdigits, _, _, hthree⟩ := h.shape
    obtain ⟨seed, ht, hne, hseed⟩ := hthree rfl
    exact ⟨keyword, hkeyword, digits, seed, ht, hne, hdigits, hseed⟩

end Grammar

section Window
variable {tw : WindRec} {c : UInt8} {w keyword : List UInt8}

/-- The nine bytes that are compared. -/
def WindRec.window (tw : WindRec) : List UInt8 := tw.otpautobuffer.take 9

/-- The two arrays have their sizes. -/
structure Sized (tw : WindRec) : Prop where
  buffer : tw.otpautobuffer.length = 10
  string : tw.otpautostring.length = 256

theorem keyword_ends : ∀ keyword ∈ keywords, 6 ≤ keyword.length ∧ keyword.length ≤ 9 ∧
    keyword.getLast? = some 32 ∧ 32 ∉ keyword.dropLast ∧ 0 ∉ keyword := by
  decide

theorem keyword_unique : ∀ keyword ∈ keywords, ∀ other ∈ keywords, keyword <:+ other →
    keyword = other := by
  decide

theorem keyword_one {other : List UInt8} (h : keyword ∈ keywords) (h' : other ∈ keywords)
    (hw : keyword <:+ w) (hw' : other <:+ w) : keyword = other := by
  rcases Nat.le_total keyword.length other.length with hle | hle
  · exact keyword_unique _ h _ h' (List.suffix_of_suffix_length_le hw hw' hle)
  · exact (keyword_unique _ h' _ h (List.suffix_of_suffix_length_le hw' hw hle)).symm

theorem window_length (hs : Sized tw) : tw.window.length = 9 := by
  rw [WindRec.window, List.length_take, hs.buffer]
  rfl

theorem slide_sized (hs : Sized tw) : Sized (tw.slide c) := by
  constructor
  · simp [WindRec.slide, hs.buffer]
  · exact hs.string

theorem slide_window (hs : Sized tw) : (tw.slide c).window = tw.window.drop 1 ++ [c] := by
  have hlen : ((tw.otpautobuffer.drop 1).take 8).length = 8 := by simp [hs.buffer]
  have htake : (tw.otpautobuffer.take 9).drop 1 = (tw.otpautobuffer.drop 1).take 8 := by
    rw [List.drop_take]
  rw [WindRec.window, WindRec.window, htake]
  calc (tw.slide c).otpautobuffer.take 9
      = ((tw.otpautobuffer.drop 1).take 8 ++ c :: tw.otpautobuffer.drop 9).take (8+1) := rfl
    _ = (tw.otpautobuffer.drop 1).take 8 ++ (c :: tw.otpautobuffer.drop 9).take 1 := by
        rw [List.take_append, hlen, List.take_of_length_le (by omega)]
    _ = (tw.otpautobuffer.drop 1).take 8 ++ [c] := rfl

theorem drop_eq_iff {n : ℕ} (hw : w.length = 9) (hk : keyword.length + n = 9) :
    w.drop n = keyword ↔ keyword <:+ w := by
  have hn : n = w.length-keyword.length := by omega
  rw [List.suffix_iff_eq_drop, ← hn, eq_comm]

/-- The tests of the window. -/
theorem otpautoByte_scan (hs : Sized tw) (h0 : tw.otpautostate = 0) :
    otpautoByte tw c =
      if sha1 <:+ (tw.slide c).window then (tw.slide c).found sha1
      else if md5 <:+ (tw.slide c).window then (tw.slide c).found md5
      else if md4 <:+ (tw.slide c).window then (tw.slide c).found md4
      else if skey <:+ (tw.slide c).window then (tw.slide c).found skey
      else tw.slide c := by
  have hlen := window_length (slide_sized (c := c) hs)
  have hone : ((tw.slide c).otpautobuffer.drop 1).take 8 = (tw.slide c).window.drop 1 := by
    rw [WindRec.window, List.drop_take]
  have hthree : ((tw.slide c).otpautobuffer.drop 3).take 6 = (tw.slide c).window.drop 3 := by
    rw [WindRec.window, List.drop_take]
  have hzero : (tw.slide c).otpautobuffer.take 9 = (tw.slide c).window.drop 0 := rfl
  simp only [otpautoByte, h0]
  simp only [hone, hthree, hzero, @drop_eq_iff _ sha1 0 hlen rfl,
    @drop_eq_iff _ md5 1 hlen rfl,
    @drop_eq_iff _ md4 1 hlen rfl,
    @drop_eq_iff _ skey 3 hlen rfl]

theorem otpautoByte_found (hs : Sized tw) (h0 : tw.otpautostate = 0)
    (hk : keyword ∈ keywords) (hw : keyword <:+ (tw.slide c).window) :
    otpautoByte tw c = (tw.slide c).found keyword := by
  have hother : ∀ other ∈ keywords, keyword ≠ other → ¬ other <:+ (tw.slide c).window :=
    fun other h' hne hw' => hne (keyword_one hk h' hw hw')
  rw [otpautoByte_scan hs h0]
  rcases List.mem_cons.mp hk with rfl | hk
  · rw [if_neg (hother sha1 (by decide) (by decide)),
      if_neg (hother md5 (by decide) (by decide)), if_pos hw]
  rcases List.mem_cons.mp hk with rfl | hk
  · rw [if_neg (hother sha1 (by decide) (by decide)), if_pos hw]
  rcases List.mem_cons.mp hk with rfl | hk
  · rw [if_pos hw]
  · obtain rfl := List.mem_singleton.mp hk
    rw [if_neg (hother sha1 (by decide) (by decide)),
      if_neg (hother md5 (by decide) (by decide)),
      if_neg (hother md4 (by decide) (by decide)), if_pos hw]

theorem otpautoByte_slide (hs : Sized tw) (h0 : tw.otpautostate = 0)
    (hnone : ∀ keyword ∈ keywords, ¬ keyword <:+ (tw.slide c).window) :
    otpautoByte tw c = tw.slide c := by
  rw [otpautoByte_scan hs h0, if_neg (hnone sha1 (by decide)), if_neg (hnone md5 (by decide)),
    if_neg (hnone md4 (by decide)), if_neg (hnone skey (by decide))]

end Window

section Collecting
variable {tw : WindRec} {c : UInt8} {t : List UInt8} {n : ℕ}

theorem otpautoByte_one (h : tw.otpautostate = 1) :
    otpautoByte tw c = if Digit c then tw.put c 2 else tw.dropped := by
  simp only [otpautoByte, h, digit_iff]

theorem otpautoByte_two (h : tw.otpautostate = 2) :
    otpautoByte tw c = if tw.otpautolength > 250 then tw.dropped
      else if Digit c then tw.put c 2
      else if c = 32 then tw.put 32 3
      else tw.dropped := by
  simp only [otpautoByte, h, digit_iff]

theorem otpautoByte_three (h : tw.otpautostate = 3) :
    otpautoByte tw c = if tw.otpautolength > 250 then tw.dropped
      else if Stops c then tw.report
      else tw.put c 3 := by
  simp only [otpautoByte, h]
  rfl

/-- What one byte does in the states 1 to 3. -/
theorem otpautoByte_cases (h : 1 ≤ tw.otpautostate ∧ tw.otpautostate ≤ 3) :
    (tw.otpautostate ≤ 2 ∧ (tw.otpautostate = 2 → tw.otpautolength ≤ 250) ∧ Digit c ∧
      otpautoByte tw c = tw.put c 2) ∨
    (tw.otpautostate = 2 ∧ tw.otpautolength ≤ 250 ∧ c = 32 ∧
      otpautoByte tw c = tw.put 32 3) ∨
    (tw.otpautostate = 3 ∧ tw.otpautolength ≤ 250 ∧ ¬ Stops c ∧
      otpautoByte tw c = tw.put c 3) ∨
    (tw.otpautostate = 3 ∧ tw.otpautolength ≤ 250 ∧ Stops c ∧
      otpautoByte tw c = tw.report) ∨
    (¬ (tw.otpautostate = 3 ∧ tw.otpautolength ≤ 250 ∧ Stops c) ∧
      otpautoByte tw c = tw.dropped) := by
  have hstate : tw.otpautostate = 1 ∨ tw.otpautostate = 2 ∨ tw.otpautostate = 3 := by omega
  rcases hstate with h1 | h2 | h3
  · rw [otpautoByte_one h1]
    by_cases hd : Digit c
    · exact .inl ⟨by omega, fun _ => by omega, hd, if_pos hd⟩
    · exact .inr (.inr (.inr (.inr ⟨fun _ => by omega, if_neg hd⟩)))
  · rw [otpautoByte_two h2]
    by_cases hlen : tw.otpautolength > 250
    · exact .inr (.inr (.inr (.inr ⟨fun _ => by omega, if_pos hlen⟩)))
    rw [if_neg hlen]
    by_cases hd : Digit c
    · exact .inl ⟨by omega, fun _ => by omega, hd, if_pos hd⟩
    rw [if_neg hd]
    by_cases hspace : c = 32
    · exact .inr (.inl ⟨h2, by omega, hspace, if_pos hspace⟩)
    · exact .inr (.inr (.inr (.inr ⟨fun _ => by omega, if_neg hspace⟩)))
  · rw [otpautoByte_three h3]
    by_cases hlen : tw.otpautolength > 250
    · exact .inr (.inr (.inr (.inr ⟨fun h => by omega, if_pos hlen⟩)))
    rw [if_neg hlen]
    by_cases hstop : Stops c
    · exact .inr (.inr (.inr (.inl ⟨h3, by omega, hstop, if_pos hstop⟩)))
    · exact .inr (.inr (.inl ⟨h3, by omega, hstop, if_neg hstop⟩))

/-- A byte completes a challenge, if and only if it ends a seed that is short enough. -/
theorem otpautoByte_reports_iff :
    (otpautoByte tw c).challenges = tw.challenges ↔
      ¬(tw.otpautostate = 3 ∧ tw.otpautolength ≤ 250 ∧ Stops c) := by
  by_cases hstate : 1 ≤ tw.otpautostate ∧ tw.otpautostate ≤ 3
  · rcases otpautoByte_cases (c := c) hstate with ⟨htwo, -, -, hput⟩ | ⟨htwo, -, -, hput⟩ |
      ⟨-, -, hseed, hput⟩ | ⟨h3, hlen, hstop, hreport⟩ | ⟨hno, hdropped⟩
    · rw [hput]
      exact iff_of_true rfl fun hends => by omega
    · rw [hput]
      exact iff_of_true rfl fun hends => by omega
    · rw [hput]
      exact iff_of_true rfl fun hends => hseed hends.2.2
    · rw [hreport]
      refine iff_of_false (fun hsame => ?_) (not_not.mpr ⟨h3, hlen, hstop⟩)
      have hlonger := congrArg List.length hsame
      rw [WindRec.report, List.length_append, List.length_singleton] at hlonger
      omega
    · rw [hdropped]
      exact iff_of_true rfl hno
  · refine iff_of_true ?_ fun hends => hstate (by omega)
    rw [otpautoByte]
    split
    · dsimp only
      split_ifs <;> rfl
    · omega
    · omega
    · omega
    · rfl

/-- The string that is being collected is `t`. -/
structure Collected (tw : WindRec) (n : ℕ) (t : List UInt8) : Prop where
  state : tw.otpautostate = n
  length : tw.otpautolength = t.length
  string : tw.otpautostring.take t.length = t

theorem set_eq {l : List UInt8} (h : n < l.length) (c : UInt8) :
    l.set n c = l.take n ++ c :: l.drop (n+1) := by
  rw [List.set_eq_take_append_cons_drop, if_pos h]

theorem found_collected (keyword : List UInt8) :
    Collected (tw.found keyword) 1 keyword :=
  ⟨rfl, rfl, List.take_left⟩

theorem put_collected (hs : Sized tw) (h : Collected tw n t) (hlen : t.length ≤ 250) (m : ℕ) :
    Collected (tw.put c m) m (t ++ [c]) := by
  have hn : t.length < tw.otpautostring.length := by
    rw [hs.string]
    omega
  refine ⟨rfl, ?_, ?_⟩
  · rw [List.length_append, ← h.length]
    rfl
  · change (tw.otpautostring.set tw.otpautolength c).take (t ++ [c]).length = t ++ [c]
    rw [h.length, set_eq hn, h.string, List.length_append, List.take_length_add_append]
    rfl

/-- The string that is reported. -/
theorem report_string (hs : Sized tw) (h : Collected tw n t) (hlen : t.length ≤ 250)
    (hzero : 0 ∉ t) :
    (tw.otpautostring.set tw.otpautolength 0).takeWhile (· ≠ 0) = t := by
  have hn : t.length < tw.otpautostring.length := by
    rw [hs.string]
    omega
  rw [h.length, set_eq hn, h.string, List.takeWhile_append_of_pos]
  · simp
  · intro b hb
    have hne : b ≠ 0 := fun h0 => hzero (h0 ▸ hb)
    simpa using hne

theorem Begun.no_zero (h : Begun (fun c => ¬ Stops c) n t) : 0 ∉ t := by
  induction h with
  | keyword ht => exact (keyword_ends _ ht).2.2.2.2
  | digit _ _ hd ih =>
    simp only [List.mem_append, List.mem_singleton, not_or]
    refine ⟨ih, fun h0 => ?_⟩
    rw [← h0] at hd
    exact absurd hd (by decide)
  | space _ ih =>
    simp only [List.mem_append, List.mem_singleton, not_or]
    exact ⟨ih, by decide⟩
  | seed _ hc ih =>
    simp only [List.mem_append, List.mem_singleton, not_or]
    refine ⟨ih, fun h0 => ?_⟩
    rw [← h0] at hc
    exact hc (by decide)

theorem put_sized (hs : Sized tw) (m : ℕ) : Sized (tw.put c m) :=
  ⟨hs.buffer, by simp [WindRec.put, hs.string]⟩

theorem found_sized (hs : Sized tw) {keyword : List UInt8} (h : keyword ∈ keywords) :
    Sized (tw.found keyword) := by
  have hle := (keyword_ends keyword h).2.1
  refine ⟨hs.buffer, ?_⟩
  simp only [WindRec.found, strncpy, List.length_append, List.length_drop, hs.string]
  omega

theorem otpautoByte_sized (hs : Sized tw) : Sized (otpautoByte tw c) := by
  by_cases h0 : tw.otpautostate = 0
  · rw [otpautoByte_scan hs h0]
    have hslide := slide_sized (c := c) hs
    split_ifs
    · exact found_sized hslide (by decide)
    · exact found_sized hslide (by decide)
    · exact found_sized hslide (by decide)
    · exact found_sized hslide (by decide)
    · exact hslide
  by_cases h3 : tw.otpautostate ≤ 3
  · obtain ⟨_, _, _, h⟩ | ⟨_, _, _, h⟩ | ⟨_, _, _, h⟩ | ⟨_, _, _, h⟩ | ⟨_, h⟩ :=
      @otpautoByte_cases tw c (by omega)
    · exact h ▸ put_sized hs 2
    · exact h ▸ put_sized hs 3
    · exact h ▸ put_sized hs 3
    · exact h ▸ ⟨hs.buffer, by simp [WindRec.report, hs.string]⟩
    · exact h ▸ ⟨hs.buffer, hs.string⟩
  · have hsame : otpautoByte tw c = tw := by
      unfold otpautoByte
      split <;> first | omega | rfl
    rwa [hsame]

end Collecting

section Runs
variable {tw : WindRec} {c : UInt8} {t past pre : List UInt8} {n : ℕ}

theorem otpauto_concat : otpauto tw (past ++ [c]) = otpautoByte (otpauto tw past) c := by
  rw [otpauto, otpauto, List.foldl_concat]

theorem otpauto_append (later : List UInt8) :
    otpauto tw (past ++ later) = otpauto (otpauto tw past) later := by
  rw [otpauto, otpauto, otpauto, List.foldl_append]

theorem receive_eq (chunks : List (List UInt8)) :
    receive tw chunks = otpauto tw chunks.flatten := by
  rw [receive, otpauto, List.foldl_flatten]
  rfl

theorem otpauto_sized (hs : Sized tw) (past : List UInt8) : Sized (otpauto tw past) := by
  induction past using List.reverseRecOn with
  | nil => exact hs
  | append_singleton past c ih =>
    rw [otpauto_concat]
    exact otpautoByte_sized ih

/-- While a window that looks for a keyword is given bytes without a space, it goes on
looking. -/
theorem otpauto_look (hs : Sized tw) (h0 : tw.otpautostate = 0) (u : List UInt8)
    (hu : 32 ∉ u) :
    (otpauto tw u).otpautostate = 0 ∧ (otpauto tw u).window <:+ tw.window ++ u := by
  induction u using List.reverseRecOn with
  | nil => exact ⟨h0, by rw [List.append_nil]; exact List.suffix_rfl⟩
  | append_singleton u c ih =>
    obtain ⟨hstate, hwindow⟩ := ih fun h => hu (List.mem_append_left _ h)
    have hsized := otpauto_sized hs u
    have hc : c ≠ 32 := by
      rintro rfl
      exact hu (by simp)
    -- no keyword ends here, as all of them end in a space
    have hnone : ∀ keyword ∈ keywords, ¬ keyword <:+ ((otpauto tw u).slide c).window := by
      intro keyword hk hw
      rw [slide_window hsized] at hw
      obtain ⟨front, hfront⟩ := List.getLast?_eq_some_iff.mp (keyword_ends keyword hk).2.2.1
      rw [hfront, concat_suffix_concat] at hw
      exact hc hw.1.symm
    rw [otpauto_concat, otpautoByte_slide hsized hstate hnone]
    refine ⟨hstate, ?_⟩
    rw [slide_window hsized, ← List.append_assoc, List.suffix_append_self_iff]
    exact (List.drop_suffix _ _).trans hwindow

/-- A keyword is found where a window that looks for one is given all of it. -/
theorem otpauto_keyword (hs : Sized tw) (h0 : tw.otpautostate = 0) {keyword : List UInt8}
    (hk : keyword ∈ keywords) : Collected (otpauto tw keyword) 1 keyword := by
  obtain ⟨hmin, hmax, hlast, hspace, _⟩ := keyword_ends keyword hk
  obtain ⟨u, hu⟩ := List.getLast?_eq_some_iff.mp hlast
  have hfront : keyword.dropLast = u := by rw [hu, List.dropLast_concat]
  have hlen : u.length+1 = keyword.length := by rw [hu, List.length_append]; rfl
  obtain ⟨hstate, hwindow⟩ := otpauto_look hs h0 u (hfront ▸ hspace)
  have hsized := otpauto_sized hs u
  have hnine := window_length hsized
  have hin : u <:+ (otpauto tw u).window.drop 1 := by
    apply List.suffix_of_suffix_length_le (List.suffix_append tw.window u)
    · exact (List.drop_suffix _ _).trans hwindow
    · rw [List.length_drop, hnine]
      omega
  have hw : keyword <:+ ((otpauto tw u).slide 32).window := by
    rw [slide_window hsized, hu, concat_suffix_concat]
    exact ⟨rfl, hin⟩
  have hstep := otpautoByte_found hsized hstate hk hw
  have hrun : otpauto tw keyword = ((otpauto tw u).slide 32).found keyword := by
    rw [← hstep, ← otpauto_concat, ← hu]
  rw [hrun]
  exact found_collected keyword

/-- What has begun where a keyword was looked for has been collected. -/
theorem otpauto_begun (hs : Sized tw) (h0 : tw.otpautostate = 0)
    (h : Begun (fun c => ¬ Stops c) n t) (hlen : t.length ≤ 251) :
    Collected (otpauto tw t) n t := by
  induction h with
  | keyword hk => exact otpauto_keyword hs h0 hk
  | @digit u m d hbegun hm hd ih =>
    rw [List.length_append, List.length_singleton] at hlen
    have hold := ih (by omega)
    have hstates := hbegun.state_le
    have hbyte : otpautoByte (otpauto tw u) d = (otpauto tw u).put d 2 := by
      have hm' : m = 1 ∨ m = 2 := by omega
      rcases hm' with h1 | h2
      · rw [otpautoByte_one (hold.state.trans h1), if_pos hd]
      · have hle : ¬ (otpauto tw u).otpautolength > 250 := by
          rw [hold.length]
          omega
        rw [otpautoByte_two (hold.state.trans h2), if_neg hle, if_pos hd]
    rw [otpauto_concat, hbyte]
    exact put_collected (otpauto_sized hs u) hold (by omega) 2
  | @space u _ ih =>
    rw [List.length_append, List.length_singleton] at hlen
    have hold := ih (by omega)
    have hle : ¬ (otpauto tw u).otpautolength > 250 := by
      rw [hold.length]
      omega
    rw [otpauto_concat, otpautoByte_two hold.state, if_neg hle, if_neg (by decide),
      if_pos rfl]
    exact put_collected (otpauto_sized hs u) hold (by omega) 3
  | @seed u d _ hd ih =>
    rw [List.length_append, List.length_singleton] at hlen
    have hold := ih (by omega)
    have hle : ¬ (otpauto tw u).otpautolength > 250 := by
      rw [hold.length]
      omega
    rw [otpauto_concat, otpautoByte_three hold.state, if_neg hle, if_neg hd]
    exact put_collected (otpauto_sized hs u) hold (by omega) 3

/-- A keyword has been looked for since `pre`, and the window has the bytes behind it. -/
def Looking (tw : WindRec) (past : List UInt8) : Prop :=
  ∃ pre q, past = pre ++ q ∧
    (∀ q', q' <+: q → (otpauto tw (pre ++ q')).otpautostate = 0) ∧
    ∃ junk sep, (sep = 0 ∨ sep = 32) ∧ (otpauto tw past).window <:+ junk ++ sep :: q

/-- The bytes behind `pre` are collected, and a keyword was looked for there. -/
def Collecting (tw : WindRec) (past : List UInt8) : Prop :=
  ∃ pre t, past = pre ++ t ∧ (otpauto tw pre).otpautostate = 0 ∧
    Begun (fun c => ¬ Stops c) (otpauto tw past).otpautostate t ∧ t.length ≤ 251 ∧
    (otpauto tw past).window.getLast? = some 32

theorem Looking.state (h : Looking tw past) : (otpauto tw past).otpautostate = 0 := by
  obtain ⟨pre, q, rfl, hzero, _⟩ := h
  exact hzero q List.prefix_rfl

theorem looking_again (h0 : (otpauto tw past).otpautostate = 0)
    (hlast : (otpauto tw past).window.getLast? = some 32) : Looking tw past := by
  obtain ⟨junk, hjunk⟩ := List.getLast?_eq_some_iff.mp hlast
  refine ⟨past, [], (List.append_nil past).symm, fun q' hq' => ?_, junk, 32, .inr rfl, ?_⟩
  · rw [List.prefix_nil.mp hq', List.append_nil, h0]
  · rw [hjunk]

theorem Collecting.collected (hs : Sized tw) (h : Collecting tw past) :
    ∃ pre t, past = pre ++ t ∧ (otpauto tw pre).otpautostate = 0 ∧
      Begun (fun c => ¬ Stops c) (otpauto tw past).otpautostate t ∧ t.length ≤ 251 ∧
      Collected (otpauto tw past) (otpauto tw past).otpautostate t := by
  obtain ⟨pre, t, hpast, h0, hbegun, hlen, _⟩ := h
  refine ⟨pre, t, hpast, h0, hbegun, hlen, ?_⟩
  have hcol := otpauto_begun (otpauto_sized hs pre) h0 hbegun hlen
  rwa [← otpauto_append, ← hpast] at hcol

/-- While a keyword is looked for, it is found where it has been given behind `pre`. -/
theorem Looking.step (hs : Sized tw) (h : Looking tw past) :
    Looking tw (past ++ [c]) ∨ Collecting tw (past ++ [c]) := by
  have h0 := h.state
  obtain ⟨pre, q, hpast, hzero, junk, sep, hsep, hwindow⟩ := h
  have hsized := otpauto_sized hs past
  have hnext : ((otpauto tw past).slide c).window <:+ junk ++ sep :: (q ++ [c]) := by
    rw [slide_window hsized, ← List.cons_append, ← List.append_assoc,
      List.suffix_append_self_iff]
    exact (List.drop_suffix _ _).trans hwindow
  by_cases hfound : ∃ keyword ∈ keywords, keyword <:+ ((otpauto tw past).slide c).window
  · right
    obtain ⟨keyword, hk, hw⟩ := hfound
    obtain ⟨hmin, hmax, hlast, hspace, hno⟩ := keyword_ends keyword hk
    have happart : sep ∉ keyword.dropLast := by
      rcases hsep with rfl | rfl
      · exact fun hmem => hno (List.mem_of_mem_dropLast hmem)
      · exact hspace
    have hbehind : keyword <:+ q ++ [c] :=
      (suffix_behind happart (by simp)).mp (hw.trans hnext)
    obtain ⟨u, hu⟩ := hbehind
    have hprefix : u <+: q := by
      apply List.prefix_of_prefix_length_le ⟨keyword, hu⟩ (List.prefix_append q [c])
      have hlen := congrArg List.length hu
      simp only [List.length_append, List.length_singleton] at hlen
      omega
    refine ⟨pre ++ u, keyword, ?_, hzero u hprefix, ?_, by omega, ?_⟩
    · rw [hpast, List.append_assoc, ← hu, List.append_assoc]
    · rw [otpauto_concat, otpautoByte_found hsized h0 hk hw]
      exact .keyword hk
    · rw [otpauto_concat, otpautoByte_found hsized h0 hk hw]
      obtain ⟨front, hfront⟩ := hw
      change ((otpauto tw past).slide c).window.getLast? = some 32
      rw [← hfront, List.getLast?_append, hlast]
      rfl
  · left
    have hstep : otpauto tw (past ++ [c]) = (otpauto tw past).slide c := by
      rw [otpauto_concat]
      exact otpautoByte_slide hsized h0 fun keyword hk hw => hfound ⟨keyword, hk, hw⟩
    refine ⟨pre, q ++ [c], by rw [hpast, List.append_assoc], fun q' hq' => ?_, junk, sep, hsep,
      hstep ▸ hnext⟩
    rcases List.prefix_concat_iff.mp hq' with rfl | hq'
    · rw [← List.append_assoc, ← hpast, hstep]
      exact h0
    · exact hzero q' hq'

/-- What is collected goes on to be a beginning of a challenge, or is dropped. -/
theorem Collecting.step (hs : Sized tw) (h : Collecting tw past) :
    Looking tw (past ++ [c]) ∨ Collecting tw (past ++ [c]) := by
  obtain ⟨pre, t, hpast, h0, hbegun, hlen, hlast⟩ := h
  have hcol : Collected (otpauto tw past) (otpauto tw past).otpautostate t := by
    have hrun := otpauto_begun (otpauto_sized hs pre) h0 hbegun hlen
    rwa [← otpauto_append, ← hpast] at hrun
  have hstates := hbegun.state_le
  have hshort : (otpauto tw past).otpautostate = 1 → t.length ≤ 9 := by
    intro h1
    obtain ⟨keyword, hk, _, _, hone, _⟩ := hbegun.shape
    rw [hone h1]
    exact (keyword_ends keyword hk).2.1
  have hpast' : past ++ [c] = pre ++ (t ++ [c]) := by rw [hpast, List.append_assoc]
  have hlength : (t ++ [c]).length = t.length+1 := List.length_append
  have hle := hcol.length
  obtain ⟨htwo, hroom, hd, hbyte⟩ | ⟨htwo, hroom, rfl, hbyte⟩ | ⟨hthree, hroom, hc, hbyte⟩ |
    ⟨hthree, hroom, hc, hbyte⟩ | ⟨_, hbyte⟩ := @otpautoByte_cases (otpauto tw past) c hstates
  · right
    have hfits : t.length ≤ 250 := by
      by_cases h1 : (otpauto tw past).otpautostate = 1
      · have := hshort h1
        omega
      · have := hroom (by omega)
        omega
    refine ⟨pre, t ++ [c], hpast', h0, ?_, by omega, ?_⟩
    · rw [otpauto_concat, hbyte]
      exact .digit hbegun htwo hd
    · rw [otpauto_concat, hbyte]
      exact hlast
  · right
    refine ⟨pre, t ++ [32], hpast', h0, ?_, by omega, ?_⟩
    · rw [otpauto_concat, hbyte]
      rw [htwo] at hbegun
      exact .space hbegun
    · rw [otpauto_concat, hbyte]
      exact hlast
  · right
    refine ⟨pre, t ++ [c], hpast', h0, ?_, by omega, ?_⟩
    · rw [otpauto_concat, hbyte]
      rw [hthree] at hbegun
      exact .seed hbegun hc
    · rw [otpauto_concat, hbyte]
      exact hlast
  · left
    apply looking_again
    · rw [otpauto_concat, hbyte]
      rfl
    · rw [otpauto_concat, hbyte]
      exact hlast
  · left
    apply looking_again
    · rw [otpauto_concat, hbyte]
      rfl
    · rw [otpauto_concat, hbyte]
      exact hlast

/-- A window that starts with no part of a keyword looks for one or collects, whatever it
has been given. -/
theorem otpauto_follows (hs : Sized tw) (h : Looking tw []) (past : List UInt8) :
    Looking tw past ∨ Collecting tw past := by
  induction past using List.reverseRecOn with
  | nil => exact .inl h
  | append_singleton past c ih =>
    rcases ih with hlook | hcollect
    · exact hlook.step hs
    · exact hcollect.step hs

/-- What one byte reports. -/
theorem otpauto_reports (hs : Sized tw) (h : Looking tw []) (past : List UInt8) (c : UInt8) :
    (∃ pre t, past = pre ++ t ∧ (otpauto tw pre).otpautostate = 0 ∧
      Begun (fun c => ¬ Stops c) 3 t ∧ t.length ≤ 250 ∧ Stops c ∧
      (otpauto tw past).otpautostate = 3 ∧ (otpauto tw past).otpautolength ≤ 250 ∧
      (otpauto tw (past ++ [c])).challenges = (otpauto tw past).challenges ++ [t]) ∨
    (¬ ((otpauto tw past).otpautostate = 3 ∧ (otpauto tw past).otpautolength ≤ 250 ∧
        Stops c) ∧
      (otpauto tw (past ++ [c])).challenges = (otpauto tw past).challenges) := by
  have hsized := otpauto_sized hs past
  rw [otpauto_concat]
  rcases otpauto_follows hs h past with hlook | hcollect
  · right
    have h0 := hlook.state
    refine ⟨fun h3 => by omega, ?_⟩
    rw [otpautoByte_scan hsized h0]
    split_ifs <;> rfl
  · obtain ⟨pre, t, hpast, h0, hbegun, _, hcol⟩ := hcollect.collected hs
    have hle := hcol.length
    obtain ⟨htwo, _, _, hbyte⟩ | ⟨htwo, _, _, hbyte⟩ | ⟨_, _, hc, hbyte⟩ |
      ⟨hthree, hroom, hc, hbyte⟩ | ⟨hnot, hbyte⟩ :=
      @otpautoByte_cases (otpauto tw past) c hbegun.state_le
    · exact .inr ⟨fun h3 => by omega, by rw [hbyte]; rfl⟩
    · exact .inr ⟨fun h3 => by omega, by rw [hbyte]; rfl⟩
    · exact .inr ⟨fun h3 => hc h3.2.2, by rw [hbyte]; rfl⟩
    · left
      have hstring := report_string hsized hcol (by omega) hbegun.no_zero
      rw [hthree] at hbegun
      refine ⟨pre, t, hpast, h0, hbegun, by omega, hc, hthree, hroom, ?_⟩
      rw [hbyte, ← hstring]
      rfl
    · exact .inr ⟨hnot, by rw [hbyte]; rfl⟩

/-- The string is written inside. -/
theorem otpauto_places (hs : Sized tw) (h : Looking tw []) (past : List UInt8) :
    ∃ more, (otpauto tw past).places = tw.places ++ more ∧ ∀ i ∈ more, i < 256 := by
  induction past using List.reverseRecOn with
  | nil => exact ⟨[], (List.append_nil _).symm, fun i hi => absurd hi List.not_mem_nil⟩
  | append_singleton past c ih =>
    obtain ⟨more, hmore, hin⟩ := ih
    have hsized := otpauto_sized hs past
    -- it is enough that the places of one byte are inside
    suffices hbyte : ∃ new, (otpautoByte (otpauto tw past) c).places =
        (otpauto tw past).places ++ new ∧ ∀ i ∈ new, i < 256 by
      obtain ⟨new, hnew, hin'⟩ := hbyte
      refine ⟨more ++ new, ?_, fun i hi => ?_⟩
      · rw [otpauto_concat, hnew, hmore, List.append_assoc]
      · exact (List.mem_append.mp hi).elim (hin i) (hin' i)
    have hone : (otpauto tw past).otpautolength ≤ 251 →
        ∀ i ∈ [(otpauto tw past).otpautolength], i < 256 := by
      intro hle i hi
      rw [List.mem_singleton.mp hi]
      omega
    rcases otpauto_follows hs h past with hlook | hcollect
    · by_cases hfound : ∃ keyword ∈ keywords, keyword <:+ ((otpauto tw past).slide c).window
      · obtain ⟨keyword, hk, hw⟩ := hfound
        rw [otpautoByte_found hsized hlook.state hk hw]
        refine ⟨List.range keyword.length, rfl, fun i hi => ?_⟩
        have := (keyword_ends keyword hk).2.1
        have := List.mem_range.mp hi
        omega
      · rw [otpautoByte_slide hsized hlook.state fun keyword hk hw => hfound ⟨keyword, hk, hw⟩]
        exact ⟨[], (List.append_nil _).symm, fun i hi => absurd hi List.not_mem_nil⟩
    · obtain ⟨pre, t, hpast, h0, hbegun, hlen, hcol⟩ := hcollect.collected hs
      have hle : (otpauto tw past).otpautolength ≤ 251 := hcol.length ▸ hlen
      obtain ⟨_, _, _, hbyte⟩ | ⟨_, _, _, hbyte⟩ | ⟨_, _, _, hbyte⟩ | ⟨_, _, _, hbyte⟩ |
        ⟨_, hbyte⟩ := @otpautoByte_cases (otpauto tw past) c hbegun.state_le
      · exact ⟨_, by rw [hbyte]; rfl, hone hle⟩
      · exact ⟨_, by rw [hbyte]; rfl, hone hle⟩
      · exact ⟨_, by rw [hbyte]; rfl, hone hle⟩
      · exact ⟨_, by rw [hbyte]; rfl, hone hle⟩
      · rw [hbyte]
        exact ⟨[], (List.append_nil _).symm, fun i hi => absurd hi List.not_mem_nil⟩

/-- What a byte reports, by what has been given: the challenge that was begun where a
keyword was looked for. -/
theorem otpauto_report_iff (hs : Sized tw) (h : Looking tw []) (past : List UInt8)
    (c : UInt8) (t : List UInt8) :
    (otpauto tw (past ++ [c])).challenges = (otpauto tw past).challenges ++ [t] ↔
      ∃ pre, past = pre ++ t ∧ (otpauto tw pre).otpautostate = 0 ∧
        Begun (fun c => ¬ Stops c) 3 t ∧ t.length ≤ 250 ∧ Stops c := by
  rcases otpauto_reports hs h past c with
    ⟨pre, u, hpast, h0, hbegun, hlen, hc, _, _, hsame⟩ | ⟨hnot, hsame⟩
  · rw [hsame, List.append_cancel_left_eq, List.singleton_inj]
    constructor
    · rintro rfl
      exact ⟨pre, hpast, h0, hbegun, hlen, hc⟩
    · intro ⟨pre', hpast', h0', hbegun', hlen', _⟩
      -- both are the string that has been collected
      have hcol := otpauto_begun (otpauto_sized hs pre) h0 hbegun (by omega)
      have hcol' := otpauto_begun (otpauto_sized hs pre') h0' hbegun' (by omega)
      rw [← otpauto_append, ← hpast] at hcol
      rw [← otpauto_append, ← hpast'] at hcol'
      have hlength : u.length = t.length := hcol.length.symm.trans hcol'.length
      rw [← hcol.string, ← hcol'.string, hlength]
  · rw [hsame]
    constructor
    · intro hself
      exact absurd (List.self_eq_append_right.mp hself) (List.cons_ne_nil _ _)
    · intro ⟨pre, hpast, h0, hbegun, hlen, hc⟩
      have hcol := otpauto_begun (otpauto_sized hs pre) h0 hbegun (by omega)
      rw [← otpauto_append, ← hpast] at hcol
      exact absurd ⟨hcol.state, hcol.length.trans_le hlen, hc⟩ hnot

/-- A challenge, at whose bytes no byte from 128 on comes behind a seed, is one for the
code too. -/
theorem begun_of_seven_bits (hs : Sized tw) (h0 : (otpauto tw pre).otpautostate = 0)
    (h : Begun (fun c => ¬ Ends c) n t) (hlen : t.length ≤ 250)
    (hseven : ∀ u b, u ++ [b] <+: t → (otpauto tw (pre ++ u)).otpautostate = 3 →
      (otpauto tw (pre ++ u)).otpautolength ≤ 250 → b < 128) :
    Begun (fun c => ¬ Stops c) n t := by
  induction h with
  | keyword hk => exact .keyword hk
  | digit _ hn hd ih =>
    rw [List.length_append, List.length_singleton] at hlen
    apply Begun.digit (ih (by omega) fun u b hub => ?_) hn hd
    exact hseven u b (hub.trans (List.prefix_append _ _))
  | space _ ih =>
    rw [List.length_append, List.length_singleton] at hlen
    apply Begun.space (ih (by omega) fun u b hub => ?_)
    exact hseven u b (hub.trans (List.prefix_append _ _))
  | @seed t d hbegun hd ih =>
    rw [List.length_append, List.length_singleton] at hlen
    have hbegun' : Begun (fun c => ¬ Stops c) 3 t := by
      apply ih (by omega)
      intro u b hub
      exact hseven u b (hub.trans (List.prefix_append _ _))
    have hcol := otpauto_begun (otpauto_sized hs pre) h0 hbegun' (by omega)
    rw [← otpauto_append] at hcol
    have hlow : d < 128 := by
      apply hseven t d List.prefix_rfl hcol.state
      rw [hcol.length]
      omega
    refine .seed hbegun' fun hstop => ?_
    rcases stops_iff.mp hstop with hends | hhigh
    · exact hd hends
    · exact absurd hlow (UInt8.not_lt.mpr hhigh)

end Runs

section Creation
variable {tw : WindRec} {left : UInt8} {stream : List UInt8}

theorem Created.left_over (h : Created tw) : ∃ left, tw.otpautobuffer[8]? = some left := by
  have hlt : 8 < tw.otpautobuffer.length := by rw [h.buffer]; decide
  exact ⟨_, List.getElem?_eq_getElem hlt⟩

/-- The window before the byte that was left in the buffer had been given. -/
def WindRec.earlier (tw : WindRec) : WindRec :=
  { tw with otpautobuffer := 0 :: tw.otpautobuffer.take 8 ++ tw.otpautobuffer.drop 9 }

theorem earlier_sized (h : Created tw) : Sized tw.earlier := by
  constructor
  · simp [WindRec.earlier, h.buffer]
  · exact h.string

theorem earlier_looking (h : Created tw) : Looking tw.earlier [] := by
  have hlast : (tw.otpautobuffer.take 8) = tw.otpautobuffer.take 7 ++ [0] := by
    rw [List.take_add_one, h.cleared]
    rfl
  have hlen : (0 :: tw.otpautobuffer.take 8).length = 9 := by simp [h.buffer]
  refine ⟨[], [], rfl, fun q' hq' => ?_, 0 :: tw.otpautobuffer.take 7, 0, .inl rfl, ?_⟩
  · rw [List.prefix_nil.mp hq']
    exact h.state
  · change (0 :: tw.otpautobuffer.take 8 ++ tw.otpautobuffer.drop 9).take 9 <:+ _
    rw [List.take_left' hlen, hlast]
    exact List.suffix_rfl

theorem earlier_otpauto (h : Created tw) (hleft : tw.otpautobuffer[8]? = some left)
    (past : List UInt8) : otpauto tw.earlier (left :: past) = otpauto tw past := by
  have hsized := earlier_sized h
  have hslide : tw.earlier.slide left = tw := by
    have hlen : (0 :: tw.otpautobuffer.take 8).length = 9 := by simp [h.buffer]
    have hbuffer : tw.otpautobuffer.take 8 ++ left :: tw.otpautobuffer.drop 9 =
        tw.otpautobuffer := by
      have hlt : 8 < tw.otpautobuffer.length := by rw [h.buffer]; decide
      rw [(List.getElem_eq_iff hlt).mpr hleft |>.symm, ← List.drop_eq_getElem_cons hlt,
        List.take_append_drop]
    have hfield : (tw.earlier.slide left).otpautobuffer = tw.otpautobuffer := by
      have hdrop : tw.earlier.otpautobuffer.drop 9 = tw.otpautobuffer.drop 9 :=
        List.drop_left' hlen
      have htake : (tw.earlier.otpautobuffer.drop 1).take 8 = tw.otpautobuffer.take 8 :=
        List.take_left' (by simp [h.buffer])
      change (tw.earlier.otpautobuffer.drop 1).take 8 ++
        left :: tw.earlier.otpautobuffer.drop 9 = tw.otpautobuffer
      rw [hdrop, htake, hbuffer]
    calc tw.earlier.slide left
        = { tw with otpautobuffer := (tw.earlier.slide left).otpautobuffer } := rfl
      _ = tw := by rw [hfield]
  -- the zero that the creation stores is in no keyword
  have hnone : ∀ keyword ∈ keywords, ¬ keyword <:+ (tw.earlier.slide left).window := by
    intro keyword hk hw
    obtain ⟨hmin, _, _, _, hno⟩ := keyword_ends keyword hk
    have hwindow : tw.window = tw.otpautobuffer.take 7 ++ 0 :: [left] := by
      rw [WindRec.window, List.take_add_one, List.take_add_one, h.cleared, hleft,
        List.append_assoc]
      rfl
    rw [hslide, hwindow,
      suffix_behind (fun hmem => hno (List.mem_of_mem_dropLast hmem)) (by simp)] at hw
    have hle : keyword.length ≤ 1 := hw.length_le
    omega
  have hstep : otpautoByte tw.earlier left = tw := by
    rw [otpautoByte_slide hsized h.state hnone, hslide]
  change otpauto (otpautoByte tw.earlier left) past = otpauto tw past
  rw [hstep]

/-- What a byte reports in the code: the challenge may begin with the byte that was left. -/
theorem report_code_iff (h : Created tw) (hleft : tw.otpautobuffer[8]? = some left)
    (past : List UInt8) (b : UInt8) (t : List UInt8) :
    (otpauto tw (past ++ [b])).challenges = (otpauto tw past).challenges ++ [t] ↔
      ∃ pre, left :: past = pre ++ t ∧ (otpauto tw.earlier pre).otpautostate = 0 ∧
        Begun (fun c => ¬ Stops c) 3 t ∧ t.length ≤ 250 ∧ Stops b := by
  have hrun := otpauto_report_iff (earlier_sized h) (earlier_looking h) (left :: past) b t
  rwa [List.cons_append, earlier_otpauto h hleft, earlier_otpauto h hleft] at hrun

/-- A byte reports one challenge, or nothing is to be reported. -/
theorem report_or_same (h : Created tw) (past : List UInt8) (b : UInt8) :
    (∃ t, (otpauto tw (past ++ [b])).challenges = (otpauto tw past).challenges ++ [t]) ∨
    (¬ ((otpauto tw past).otpautostate = 3 ∧ (otpauto tw past).otpautolength ≤ 250 ∧
        Stops b) ∧
      (otpauto tw (past ++ [b])).challenges = (otpauto tw past).challenges) := by
  obtain ⟨left, hleft⟩ := h.left_over
  have hwhat := otpauto_reports (earlier_sized h) (earlier_looking h) (left :: past) b
  rw [List.cons_append, earlier_otpauto h hleft, earlier_otpauto h hleft] at hwhat
  rcases hwhat with ⟨_, t, _, _, _, _, _, _, _, hreport⟩ | hsame
  · exact .inl ⟨t, hreport⟩
  · exact .inr hsame

/-- Every byte reports what it should where the stream is fine. -/
theorem report_of_fine (h : Created tw) (hfine : StreamFine tw stream)
    (hleft : tw.otpautobuffer[8]? = some left) {past : List UInt8} {b : UInt8}
    (hpast : past ++ [b] <+: stream) (t : List UInt8) :
    (otpauto tw (past ++ [b])).challenges = (otpauto tw past).challenges ++ [t] ↔
      ∃ pre, past = pre ++ t ∧ Complete t b := by
  rw [report_code_iff h hleft]
  constructor
  · intro ⟨pre, heq, h0, hbegun, hlen, hstop⟩
    have hchallenge : Challenge t := by
      apply challenge_iff.mpr (hbegun.mono fun c hc hends => hc (stops_iff.mpr (.inl hends)))
    have hcol := otpauto_begun (otpauto_sized (earlier_sized h) pre) h0 hbegun (by omega)
    rw [← otpauto_append, ← heq, earlier_otpauto h hleft] at hcol
    have hends : Ends b := by
      have hlow := hfine.seven_bits past b hpast hcol.state (hcol.length.trans_le hlen)
      exact (stops_iff.mp hstop).resolve_right fun hhigh => UInt8.not_lt.mpr hhigh hlow
    cases pre with
    | nil =>
      -- the challenge would have begun with the byte that was left
      rw [List.nil_append] at heq
      refine absurd ⟨hchallenge, hends, hlen⟩ (hfine.apart left t b hleft ?_)
      rw [← heq, List.cons_append]
      exact List.cons_prefix_cons.mpr ⟨rfl, hpast⟩
    | cons c pre =>
      obtain ⟨_, hpre⟩ := List.cons.inj heq
      exact ⟨pre, hpre, hchallenge, hends, hlen⟩
  · intro ⟨pre, heq, hchallenge, hends, hlen⟩
    have h0 := hfine.looking pre t b (heq ▸ hpast) ⟨hchallenge, hends, hlen⟩
    rw [← earlier_otpauto h hleft] at h0
    refine ⟨left :: pre, by rw [heq]; rfl, h0, ?_, hlen, stops_iff.mpr (.inl hends)⟩
    apply begun_of_seven_bits (earlier_sized h) h0 (challenge_iff.mp hchallenge) hlen
    intro u d hu hstate hroom
    rw [List.cons_append, earlier_otpauto h hleft] at hstate hroom
    refine hfine.seven_bits (pre ++ u) d ?_ hstate hroom
    obtain ⟨later, hlater⟩ := hu
    obtain ⟨rest, hrest⟩ := hpast
    refine ⟨later ++ [b] ++ rest, ?_⟩
    rw [← hrest, heq, ← hlater]
    simp

theorem recognised_of_fine (h : Created tw) (hfine : StreamFine tw stream) :
    Recognised tw stream := by
  obtain ⟨left, hleft⟩ := h.left_over
  refine ⟨fun part next b hnext hprefix t => ?_, fun part next b hnext hprefix hnone => ?_,
    fun part _ => ?_⟩
  · rw [receive_eq, receive_eq, hnext]
    exact report_of_fine h hfine hleft (hnext ▸ hprefix) t
  · rw [receive_eq, receive_eq, hnext]
    rcases report_or_same h part.flatten b with ⟨t, hreport⟩ | ⟨_, hsame⟩
    · have hpast : part.flatten ++ [b] <+: stream := hnext ▸ hprefix
      obtain ⟨pre, heq, hcomplete⟩ := (report_of_fine h hfine hleft hpast t).mp hreport
      exact absurd hcomplete (hnone pre t heq)
    · exact hsame
  · rw [receive_eq, ← earlier_otpauto h hleft]
    exact otpauto_places (earlier_sized h) (earlier_looking h) _

theorem Recognised.report_iff (h : Recognised tw stream) {past : List UInt8} {b : UInt8}
    (hpast : past ++ [b] <+: stream) (t : List UInt8) :
    (otpauto tw (past ++ [b])).challenges = (otpauto tw past).challenges ++ [t] ↔
      ∃ pre, past = pre ++ t ∧ Complete t b := by
  have hone := h.reports [past] [past, [b]] b (by simp) (by simpa using hpast) t
  simpa only [receive_eq, List.flatten_cons, List.flatten_nil, List.append_nil] using hone

/-- A byte from 128 on would report a challenge that it does not complete. -/
theorem Recognised.seven_bits (h : Recognised tw stream) (hnew : Created tw)
    {past : List UInt8} {b : UInt8} (hpast : past ++ [b] <+: stream)
    (h3 : (otpauto tw past).otpautostate = 3) (hroom : (otpauto tw past).otpautolength ≤ 250) :
    b < 128 := by
  by_contra hhigh
  have hstop : Stops b := stops_iff.mpr (.inr (UInt8.not_lt.mp hhigh))
  rcases report_or_same hnew past b with ⟨t, hreport⟩ | ⟨hnot, _⟩
  · obtain ⟨_, _, _, hends, _⟩ := (h.report_iff hpast t).mp hreport
    apply hhigh
    rcases hends with hlow | rfl
    · exact UInt8.lt_of_le_of_lt hlow (by decide)
    · decide
  · exact hnot ⟨h3, hroom, hstop⟩

/-- A challenge that begins with the byte that was left would be reported. -/
theorem Recognised.apart (h : Recognised tw stream) (hnew : Created tw)
    (hleft : tw.otpautobuffer[8]? = some left) {t : List UInt8} {b : UInt8}
    (ht : t ++ [b] <+: left :: stream) : ¬ Complete t b := by
  intro ⟨hchallenge, hends, hlen⟩
  have hbegun := challenge_iff.mp hchallenge
  cases t with
  | nil =>
    obtain ⟨keyword, hk, digits, seed, heq, _⟩ := hchallenge
    have hempty := congrArg List.length heq
    rw [List.length_append, List.length_cons] at hempty
    exact absurd hempty (Nat.succ_ne_zero _).symm
  | cons c past =>
    rw [List.cons_append] at ht
    obtain ⟨rfl, hpast⟩ := List.cons_prefix_cons.mp ht
    have hcode : Begun (fun c => ¬ Stops c) 3 (c :: past) := by
      refine @begun_of_seven_bits tw.earlier _ [] 3 (earlier_sized hnew) hnew.state hbegun hlen ?_
      intro u d hu h3 hroom
      rw [List.nil_append] at h3 hroom
      cases u with
      | nil => exact absurd (hnew.state.symm.trans h3) (by decide)
      | cons e u =>
        rw [List.cons_append] at hu
        obtain ⟨rfl, hu'⟩ := List.cons_prefix_cons.mp hu
        rw [earlier_otpauto hnew hleft] at h3 hroom
        apply h.seven_bits hnew _ h3 hroom
        exact hu'.trans ((List.prefix_append past [b]).trans hpast)
    have hreport := (report_code_iff hnew hleft past b (c :: past)).mpr
      ⟨[], rfl, hnew.state, hcode, hlen, stops_iff.mpr (.inl hends)⟩
    -- but it did not begin in the stream
    obtain ⟨front, hfront, _⟩ := (h.report_iff hpast _).mp hreport
    have hcount := congrArg List.length hfront
    simp only [List.length_append, List.length_cons] at hcount
    omega

theorem fine_of_recognised (h : Recognised tw stream) (hnew : Created tw) :
    StreamFine tw stream := by
  obtain ⟨left, hleft⟩ := hnew.left_over
  refine ⟨fun pre t b hpre hcomplete => ?_, fun _ _ => h.seven_bits hnew,
    fun _ _ _ hleft' => h.apart hnew hleft'⟩
  obtain ⟨pre', heq, h0, _⟩ := (report_code_iff hnew hleft (pre ++ t) b t).mp
    ((h.report_iff hpre t).mpr ⟨pre, rfl, hcomplete⟩)
  rw [← List.cons_append] at heq
  rw [← List.append_cancel_right heq, earlier_otpauto hnew hleft] at h0
  exact h0

/-- The challenges of a stream are reported, and nothing else is, exactly where it is
fine. -/
theorem challenges_iff (h : Created tw) (stream : List UInt8) :
    Recognised tw stream ↔ StreamFine tw stream :=
  ⟨fun hrec => fine_of_recognised hrec h, recognised_of_fine h⟩

/-- A window whose buffers are clear. -/
def fresh : WindRec :=
  { otpautostate := 0, otpauto := 1, otpmulti := 1, otpautolength := 0
    otpautobuffer := List.replicate 10 0, otpautostring := List.replicate 256 0
    challenges := [], places := [] }

theorem fresh_created : Created fresh :=
  ⟨rfl, List.length_replicate, rfl, List.length_replicate⟩

/-- The prompt `otp-md5 9 a`, in two chunks. -/
theorem prompt_in_chunks :
    (receive fresh [md5.take 5, md5.drop 5 ++ [57, 32, 97, 32]]).challenges =
        [md5 ++ [57, 32, 97]] ∧
      (Recognised fresh (md5 ++ [57, 32, 97, 32]) ↔
        StreamFine fresh (md5 ++ [57, 32, 97, 32])) :=
  ⟨by decide +kernel, challenges_iff fresh_created _⟩

/-- The keyword `otp-md5` is broken off by the prompt `s/key 1 a`, which is lost. -/
theorem interrupted_prompt : ¬ Recognised fresh (md5 ++ skey ++ [49, 32, 97] ++ [32]) := by
  intro h
  have hreport := (h.reports [md5 ++ skey ++ [49, 32, 97]]
    [md5 ++ skey ++ [49, 32, 97] ++ [32]] 32 rfl (by simp) (skey ++ [49, 32, 97])).mpr
    ⟨md5, rfl, ⟨skey, by decide, [49], [97], rfl, by decide,
      List.forall_mem_singleton.mpr (by decide), List.forall_mem_singleton.mpr (by decide)⟩,
      by decide, by decide⟩
  have hlost : (receive fresh [md5 ++ skey ++ [49, 32, 97] ++ [32]]).challenges = [] := by
    decide +kernel
  rw [hlost] at hreport
  exact absurd (congrArg List.length hreport) (by simp)

end Creation

end Otp
