import MacSSH.Overlaps
import MacSSH.Shorts
import Mathlib.Logic.Function.Basic

/-! Waiting for a string: a script is held until the host has sent it. The search keeps a
position in the string, and falls back over a table of borders. -/
namespace WaitString

open Overlaps

/-- The value of a C `char` that is given `i`. -/
def char (i : Int) : Int := Int.bmod i 256

/-- The part of a window that waits. The two arrays of 256 entries come with the memory
around them, `places` are the indices at which they were used, and `resumed` counts the
events that were resumed. -/
structure WindRec where
  waWeHaveAppleEvent : Bool
  waWaiting : Bool
  waWaitPos : Int
  waWasEnabled : Bool
  enabled : Bool
  waWaitLength : Int
  waWaitString : Int → UInt8
  waPrefixFunction : Int → Int
  resumed : ℕ
  places : List Int

/-- `while (k > 0 && string[k] != c) k = prefix[k-1]`: where the loop ends, and the places
it looked at. -/
def fallBack (string : Int → UInt8) (prefixFunction : Int → Int) (c : UInt8) :
    ℕ → Int → Int × List Int
  | 0, k => (k, [])
  | n+1, k =>
    if k > 0 then
      if string k ≠ c then
        let r := fallBack string prefixFunction c n (prefixFunction (k-1))
        (r.1, k :: (k-1) :: r.2)
      else (k, [k])
    else (k, [])

/-- The table of borders while it is made. -/
structure Table where
  k : Int
  prefixFunction : Int → Int
  places : List Int

/-- One turn of the loop that makes the table. -/
def prefixStep (string : Int → UInt8) (t : Table) (i : ℕ) : Table :=
  let r := fallBack string t.prefixFunction (string i) t.k.toNat t.k
  let k := if string r.1 = string i then r.1+1 else r.1
  { k := k
    prefixFunction := Function.update t.prefixFunction i (char k)
    places := t.places ++ r.2 ++ [r.1, (i : Int)] }

/-- The array when `dataString` has been moved to its start. -/
def moved (tw : WindRec) (dataString : List UInt8) (i : Int) : UInt8 :=
  if 0 ≤ i ∧ i < dataString.length then dataString.getD i.toNat 0 else tw.waWaitString i

/-- Hold the script until `dataString` has come. -/
def MyHandleWait (tw : WindRec) (dataString : List UInt8) (isSuspended : Bool) : WindRec :=
  if dataString = [] then tw
  else
    let t := (List.range' 1 (dataString.length-1)).foldl (prefixStep (moved tw dataString))
      { k := 0, prefixFunction := Function.update tw.waPrefixFunction 0 0, places := tw.places }
    { tw with
      waWeHaveAppleEvent := true
      waWasEnabled := isSuspended
      enabled := true
      waWaitPos := 0
      waWaiting := true
      waWaitLength := dataString.length
      waWaitString := moved tw dataString
      waPrefixFunction := t.prefixFunction
      places := t.places }

/-- What is done when the position has come to the end of the string. -/
def complete (tw : WindRec) : WindRec :=
  { tw with
    waWaiting := false
    enabled := tw.waWasEnabled
    waWeHaveAppleEvent := false
    resumed := if tw.waWeHaveAppleEvent then tw.resumed+1 else tw.resumed }

/-- One byte in `handlewait`. -/
def waitByte (tw : WindRec) (c : UInt8) : WindRec :=
  let r := fallBack tw.waWaitString tw.waPrefixFunction c tw.waWaitPos.toNat tw.waWaitPos
  let tw := { tw with places := tw.places ++ r.2 ++ [r.1] }
  if c = tw.waWaitString r.1 then
    let tw := { tw with waWaitPos := r.1+1 }
    if r.1+1 ≥ tw.waWaitLength then complete tw else tw
  else { tw with waWaitPos := 0 }

def handlewait (tw : WindRec) (string : List UInt8) : WindRec := string.foldl waitByte tw

/-- A chunk of the stream is handed over while the window waits. -/
def receive (tw : WindRec) (chunk : List UInt8) : WindRec :=
  if tw.waWaiting then handlewait tw chunk else tw

def receiveAll (tw : WindRec) (chunks : List (List UInt8)) : WindRec := chunks.foldl receive tw

/-- A window, as it is after any waits and chunks. -/
inductive Used : WindRec → Prop
  | start {tw : WindRec} : (∀ i, tw.waPrefixFunction i = 0) → Used tw
  | wait {tw : WindRec} (dataString : List UInt8) (isSuspended : Bool) : Used tw →
    dataString.length < 256 → Used (MyHandleWait tw dataString isSuspended)
  | receive {tw : WindRec} (chunk : List UInt8) : Used tw → Used (receive tw chunk)

/-- The places that have been added are inside the arrays. -/
def Within (old new : List Int) : Prop := ∃ more, new = old ++ more ∧ ∀ i ∈ more, 0 ≤ i ∧ i < 256

/-- A part of a stream: some of its chunks, and the beginning of the next. -/
def Part (part chunks : List (List UInt8)) : Prop :=
  ∃ front last more rest, part = front ++ [last] ∧ chunks = front ++ (last ++ more) :: rest

/-- The script goes on once, when the string has come for the first time, and the arrays
are used inside. -/
structure Awaited (tw : WindRec) (dataString : List UInt8) (isSuspended : Bool)
    (chunks : List (List UInt8)) : Prop where
  resumed : ∀ part, Part part chunks →
    (receiveAll (MyHandleWait tw dataString isSuspended) part).resumed =
      tw.resumed + if dataString <:+: part.flatten then 1 else 0
  inside : Within tw.places (receiveAll (MyHandleWait tw dataString isSuspended) chunks).places

/-- Making the table never falls back to a border of more than 127 characters. -/
def BordersFine (w : List UInt8) : Prop :=
  ∀ i < w.length, w[border w i]? = w[i]? ∨ border w (border w i) ≤ 127

/-- The position has not run out of the array, and a byte that does not fit finds an entry
of the table that is not negative. -/
def ByteFine (tw : WindRec) (c : UInt8) : Prop :=
  tw.waWaitPos ≤ 255 ∧ (tw.waWaitPos = 0 ∨ tw.waWaitString tw.waWaitPos = c ∨
    0 ≤ tw.waPrefixFunction (tw.waWaitPos-1))

def ChunkFine (tw : WindRec) : List UInt8 → Prop
  | [] => True
  | c :: chunk => ByteFine tw c ∧ ChunkFine (waitByte tw c) chunk

def StreamFine (tw : WindRec) : List (List UInt8) → Prop
  | [] => True
  | chunk :: chunks => (tw.waWaiting → ChunkFine tw chunk) ∧ StreamFine (receive tw chunk) chunks

section Falling
variable {string : Int → UInt8} {prefixFunction : Int → Int} {c : UInt8} {w s : List UInt8}

theorem char_eq {i : Int} (hl : -128 ≤ i) (hu : i ≤ 127) : char i = i := by
  rw [char, Int.bmod_def]
  split_ifs <;> omega

theorem char_neg {i : Int} (hl : 128 ≤ i) (hu : i ≤ 255) : char i < 0 := by
  rw [char, Int.bmod_def]
  split_ifs <;> omega

theorem char_le (i : Int) : char i ≤ 127 := by
  rw [char, Int.bmod_def]
  split_ifs <;> omega

/-- The array holds the word. -/
def Agrees (string : Int → UInt8) (w : List UInt8) : Prop :=
  ∀ i < w.length, w[i]? = some (string i)

/-- The table has the borders of the first `n` beginnings of the word, as characters. -/
def HasBorders (prefixFunction : Int → Int) (w : List UInt8) (n : ℕ) : Prop :=
  ∀ j < n, prefixFunction j = char (border w (j+1))

/-- Falling back finds the longest overlap that the letter makes longer, where the first
entry of the table that is used is not cut off. -/
theorem fallBack_spec (hagree : Agrees string w) (fuel : ℕ) : ∀ p : ℕ, p ≤ fuel →
    p < w.length → HasBorders prefixFunction w p → Candidate w s c p →
    (p = 0 ∨ string p = c ∨ border w p ≤ 127) →
    ∃ p' : ℕ, (fallBack string prefixFunction c fuel p).1 = p' ∧ p' ≤ p ∧
      Candidate w s c p' ∧ (p' = 0 ∨ string p' = c) ∧
      ∀ i ∈ (fallBack string prefixFunction c fuel p).2, 0 ≤ i ∧ i ≤ p := by
  induction fuel with
  | zero =>
    intro p hp _ _ hcand _
    obtain rfl := Nat.le_zero.mp hp
    exact ⟨0, rfl, Nat.le_refl 0, hcand, .inl rfl, fun i hi => absurd hi List.not_mem_nil⟩
  | succ n ih =>
    intro p hp hlt htable hcand hfine
    rw [fallBack]
    rcases Nat.eq_zero_or_pos p with rfl | hpos
    · rw [if_neg (by decide)]
      exact ⟨0, rfl, Nat.le_refl 0, hcand, .inl rfl, fun i hi => absurd hi List.not_mem_nil⟩
    rw [if_pos (by omega)]
    by_cases hletter : string p = c
    · rw [if_neg (not_not.mpr hletter)]
      refine ⟨p, rfl, Nat.le_refl p, hcand, .inr hletter, fun i hi => ?_⟩
      obtain rfl := List.mem_singleton.mp hi
      omega
    · have hborder : border w p ≤ 127 :=
        (hfine.resolve_left (by omega)).resolve_left hletter
      have hle := border_le w p
      have hnext : prefixFunction ((p : Int)-1) = border w p := by
        have hplace : (p : Int)-1 = ((p-1 : ℕ) : Int) := by omega
        have hsucc : p-1+1 = p := by omega
        rw [hplace, htable (p-1) (by omega), hsucc, char_eq (by omega) (by omega)]
      have hfit : w[p]? ≠ some c := by
        rw [hagree p hlt]
        exact fun h => hletter (Option.some.inj h)
      have hsmaller := border_le w (border w p)
      obtain ⟨p', hval, hle', hcand', hstop, hplaces⟩ := ih (border w p) (by omega) (by omega)
        (fun j hj => htable j (by omega)) (hcand.fall hfit) (.inr (.inr (by omega)))
      rw [if_pos hletter]
      dsimp only
      rw [hnext]
      refine ⟨p', hval, by omega, hcand', hstop, fun i hi => ?_⟩
      rcases List.mem_cons.mp hi with rfl | hi
      · omega
      rcases List.mem_cons.mp hi with rfl | hi
      · omega
      · have := hplaces i hi
        omega

/-- The entries of the table, whatever has been searched for. -/
def Sane (prefixFunction : Int → Int) : Prop := ∀ i, 0 ≤ i → i < 256 →
  prefixFunction i ≤ i ∧ prefixFunction i ≤ 127 ∧ (i ≤ 127 → 0 ≤ prefixFunction i) ∧
    -128 ≤ prefixFunction i

/-- Falling back stays inside where the first entry that is used is not negative. -/
theorem fallBack_inside (hsane : Sane prefixFunction) (fuel : ℕ) : ∀ p : Int, 0 ≤ p →
    p ≤ 255 → (p = 0 ∨ string p = c ∨ 0 ≤ prefixFunction (p-1)) →
    (0 ≤ (fallBack string prefixFunction c fuel p).1 ∧
      (fallBack string prefixFunction c fuel p).1 ≤ p) ∧
      ∀ i ∈ (fallBack string prefixFunction c fuel p).2, 0 ≤ i ∧ i < 256 := by
  induction fuel with
  | zero =>
    intro p h0 _ _
    exact ⟨⟨h0, Int.le_refl p⟩, fun i hi => absurd hi List.not_mem_nil⟩
  | succ n ih =>
    intro p h0 h255 hfine
    rw [fallBack]
    by_cases hpos : p > 0
    · rw [if_pos hpos]
      by_cases hletter : string p = c
      · rw [if_neg (not_not.mpr hletter)]
        refine ⟨⟨h0, Int.le_refl p⟩, fun i hi => ?_⟩
        obtain rfl := List.mem_singleton.mp hi
        omega
      · have hnext : 0 ≤ prefixFunction (p-1) :=
          (hfine.resolve_left (by omega)).resolve_left hletter
        obtain ⟨hle, h127, _, _⟩ := hsane (p-1) (by omega) (by omega)
        have hagain : prefixFunction (p-1) = 0 ∨ string (prefixFunction (p-1)) = c ∨
            0 ≤ prefixFunction (prefixFunction (p-1)-1) := by
          by_cases hzero : prefixFunction (p-1) = 0
          · exact .inl hzero
          · exact .inr (.inr ((hsane (prefixFunction (p-1)-1) (by omega) (by omega)).2.2.1
              (by omega)))
        obtain ⟨⟨hlow, hhigh⟩, hplaces⟩ := ih (prefixFunction (p-1)) hnext (by omega) hagain
        rw [if_pos hletter]
        dsimp only
        refine ⟨⟨hlow, by omega⟩, fun i hi => ?_⟩
        rcases List.mem_cons.mp hi with rfl | hi
        · omega
        rcases List.mem_cons.mp hi with rfl | hi
        · omega
        · exact hplaces i hi
    · rw [if_neg hpos]
      exact ⟨⟨h0, Int.le_refl p⟩, fun i hi => absurd hi List.not_mem_nil⟩

/-- Where a letter does not fit and the entry is negative, falling back ends there. -/
theorem fallBack_negative {p : Int} (hpos : 0 < p) (hletter : string p ≠ c)
    (hneg : prefixFunction (p-1) < 0) :
    (fallBack string prefixFunction c p.toNat p).1 = prefixFunction (p-1) := by
  obtain ⟨n, hn⟩ : ∃ n, p.toNat = n+1 := ⟨p.toNat-1, by omega⟩
  rw [hn, fallBack, if_pos hpos, if_pos hletter]
  cases n with
  | zero => rfl
  | succ n =>
    dsimp only
    rw [fallBack, if_neg (by omega)]

/-- The position itself is looked at first. -/
theorem fallBack_first {p : Int} (hpos : 0 < p) :
    p ∈ (fallBack string prefixFunction c p.toNat p).2 := by
  obtain ⟨n, hn⟩ : ∃ n, p.toNat = n+1 := ⟨p.toNat-1, by omega⟩
  rw [hn, fallBack, if_pos hpos]
  split_ifs
  · exact List.mem_cons_self
  · exact List.mem_singleton_self p

/-- Wherever falling back starts it does not rise, and leaves the array only from behind
its first half. -/
theorem fallBack_range (hsane : Sane prefixFunction) (fuel : ℕ) : ∀ p : Int, -128 ≤ p →
    p ≤ 255 → -128 ≤ (fallBack string prefixFunction c fuel p).1 ∧
      (fallBack string prefixFunction c fuel p).1 ≤ p ∧
      (0 ≤ p → p ≤ 128 → 0 ≤ (fallBack string prefixFunction c fuel p).1) := by
  induction fuel with
  | zero => exact fun p hlow _ => ⟨hlow, Int.le_refl p, fun h0 _ => h0⟩
  | succ n ih =>
    intro p hlow h255
    rw [fallBack]
    split_ifs with hpos
    · obtain ⟨hle, h127, hnonneg, hlow'⟩ := hsane (p-1) (by omega) (by omega)
      obtain ⟨hl, hu, hn⟩ := ih (prefixFunction (p-1)) hlow' (by omega)
      refine ⟨hl, by dsimp only; omega, fun _ h128 => ?_⟩
      exact hn (hnonneg (by omega)) (by omega)
    · exact ⟨hlow, Int.le_refl p, fun h0 _ => h0⟩
    · exact ⟨hlow, Int.le_refl p, fun h0 _ => h0⟩

end Falling

section Making
variable {string : Int → UInt8} {w : List UInt8} {t : Table}

theorem Within.refl (places : List Int) : Within places places :=
  ⟨[], (List.append_nil _).symm, fun _ h => absurd h List.not_mem_nil⟩

theorem Within.trans {a b c : List Int} (h : Within a b) (h' : Within b c) : Within a c := by
  obtain ⟨more, rfl, hin⟩ := h
  obtain ⟨more', rfl, hin'⟩ := h'
  refine ⟨more ++ more', List.append_assoc _ _ _, fun i hi => ?_⟩
  exact (List.mem_append.mp hi).elim (hin i) (hin' i)

/-- What is within is so in both parts of the way. -/
theorem Within.split {a b c : List Int} (h : Within a c) (hab : a <+: b) (hbc : b <+: c) :
    Within a b ∧ Within b c := by
  obtain ⟨more, rfl⟩ := hab
  obtain ⟨more', rfl⟩ := hbc
  obtain ⟨all, heq, hin⟩ := h
  rw [List.append_assoc] at heq
  have hall := List.append_cancel_left heq
  refine ⟨⟨more, rfl, fun i hi => hin i ?_⟩, ⟨more', rfl, fun i hi => hin i ?_⟩⟩
  · rw [← hall]
    exact List.mem_append_left _ hi
  · rw [← hall]
    exact List.mem_append_right _ hi

theorem within_append {places more : List Int} :
    Within places (places ++ more) ↔ ∀ i ∈ more, 0 ≤ i ∧ i < 256 := by
  constructor
  · intro ⟨more', heq, hin⟩
    rwa [List.append_cancel_left heq]
  · exact fun h => ⟨more, rfl, h⟩

/-- The table while it is made, before the turn of `i`. -/
structure Making (w : List UInt8) (i : ℕ) (t : Table) : Prop where
  current : t.k = border w i
  borders : HasBorders t.prefixFunction w i

/-- A turn whose border is not cut off goes on with the next border. -/
theorem prefixStep_making (hagree : Agrees string w) (hlen : w.length < 256) {i : ℕ}
    (h0 : 0 < i) (hi : i < w.length) (h : Making w i t)
    (hfine : w[border w i]? = w[i]? ∨ border w (border w i) ≤ 127) :
    Making w (i+1) (prefixStep string t i) ∧
      Within t.places (prefixStep string t i).places := by
  have hle := border_le w i
  have hletter : w[i]? = some (string i) := hagree i hi
  have hlong := border_longest h0 (Nat.le_of_lt hi)
  have hnext := border_longest (Nat.succ_pos i) hi
  -- the text searched is the word without its first letter
  have htext : w.tail.take (i-1) ++ [string i] = w.tail.take (i+1-1) := by
    have hin : i-1 < w.tail.length := by rw [List.length_tail]; omega
    have hsucc : i+1-1 = (i-1)+1 := by omega
    have hplace : i-1+1 = i := by omega
    have hletter' : w.tail[i-1]? = some (string i) := by rw [List.getElem?_tail, hplace, hletter]
    rw [hsucc, List.take_succ_eq_append_getElem hin]
    rw [List.getElem?_eq_getElem hin] at hletter'
    rw [Option.some.inj hletter']
  have hfine' : border w i = 0 ∨ string (border w i) = string i ∨
      border w (border w i) ≤ 127 := by
    rcases hfine with hsame | hsmall
    · rw [hletter, hagree _ (by omega)] at hsame
      exact .inr (.inl (Option.some.inj hsame))
    · exact .inr (.inr hsmall)
  obtain ⟨p', hval, hle', hcand, hstop, hplaces⟩ := @fallBack_spec string t.prefixFunction
    (string i) w _ hagree (border w i) (border w i) (Nat.le_refl _) (by omega)
    (fun j hj => h.borders j (by omega)) (hlong.candidate (string i)) hfine'
  have hk : t.k.toNat = border w i := by rw [h.current, Int.toNat_natCast]
  have hnew : (prefixStep string t i).k = border w (i+1) := by
    rw [prefixStep, hk, h.current]
    dsimp only
    rw [hval]
    by_cases hgrow : string p' = string i
    · have hlonger := hcand.grow (by rw [hagree p' (by omega), hgrow])
      rw [htext] at hlonger
      have hsame : p'+1 = border w (i+1) := hlonger.unique hnext
      rw [if_pos hgrow, ← hsame]
      rfl
    · obtain rfl := hstop.resolve_right hgrow
      have hzero := hcand.drop (by
        rw [hagree 0 (by omega)]
        exact fun heq => hgrow (Option.some.inj heq))
      rw [htext] at hzero
      rw [if_neg hgrow, ← hzero.unique hnext]
  refine ⟨⟨hnew, fun j hj => ?_⟩, ?_⟩
  · have htable : (prefixStep string t i).prefixFunction =
        Function.update t.prefixFunction i (char (prefixStep string t i).k) := rfl
    rw [htable]
    by_cases hlast : j = i
    · rw [hlast, Function.update_self, hnew]
    · rw [Function.update_of_ne (by omega), h.borders j (by omega)]
  · have hadded : (prefixStep string t i).places = t.places ++
        ((fallBack string t.prefixFunction (string i) (border w i) (border w i)).2 ++
          [(p' : Int), (i : Int)]) := by
      rw [prefixStep, hk, h.current]
      dsimp only
      rw [hval, List.append_assoc]
    rw [hadded, within_append]
    intro j hj
    rcases List.mem_append.mp hj with hj | hj
    · have := hplaces j hj
      omega
    rcases List.mem_cons.mp hj with rfl | hj
    · omega
    · obtain rfl := List.mem_singleton.mp hj
      omega

theorem prefixStep_extends (t : Table) (i : ℕ) : t.places <+: (prefixStep string t i).places := by
  rw [prefixStep]
  dsimp only
  rw [List.append_assoc]
  exact List.prefix_append _ _

/-- A turn whose border is cut off falls out of the array. -/
theorem prefixStep_outside (hagree : Agrees string w) (hlen : w.length < 256) {i : ℕ}
    (h0 : 0 < i) (hi : i < w.length) (h : Making w i t)
    (hfine : ¬(w[border w i]? = w[i]? ∨ border w (border w i) ≤ 127)) :
    ¬Within t.places (prefixStep string t i).places := by
  rw [not_or] at hfine
  obtain ⟨hletter, hlarge⟩ := hfine
  have hle := border_le w i
  have hsmaller := border_le w (border w i)
  have hne : string (border w i) ≠ string i := by
    intro hsame
    rw [hagree i hi, hagree _ (by omega), hsame] at hletter
    exact hletter rfl
  have hneg : t.prefixFunction (t.k-1) < 0 := by
    have hplace : t.k-1 = ((border w i-1 : ℕ) : Int) := by rw [h.current]; omega
    have hsucc : border w i-1+1 = border w i := by omega
    rw [hplace, h.borders _ (by omega), hsucc]
    exact char_neg (by omega) (by omega)
  have hfell : (fallBack string t.prefixFunction (string i) t.k.toNat t.k).1 =
      t.prefixFunction (t.k-1) := by
    apply fallBack_negative _ _ hneg
    · rw [h.current]
      omega
    · rw [h.current]
      exact hne
  rw [prefixStep]
  dsimp only
  rw [List.append_assoc, within_append, hfell]
  intro hall
  have := hall (t.prefixFunction (t.k-1)) (List.mem_append_right _ List.mem_cons_self)
  omega

/-- The table when `n` turns have been made. -/
def made (string : Int → UInt8) (start : Table) (n : ℕ) : Table :=
  (List.range' 1 n).foldl (prefixStep string) start

theorem made_succ (start : Table) (n : ℕ) :
    made string start (n+1) = prefixStep string (made string start n) (n+1) := by
  rw [made, List.range'_1_concat, List.foldl_append, List.foldl_cons, List.foldl_nil,
    Nat.add_comm 1 n]
  rfl

theorem made_extends (start : Table) (n : ℕ) :
    start.places <+: (made string start n).places := by
  induction n with
  | zero => exact List.prefix_rfl
  | succ n ih =>
    rw [made_succ]
    exact ih.trans (prefixStep_extends _ _)

/-- The table is made inside the arrays just where no border is cut off. -/
theorem made_spec (hagree : Agrees string w) (hlen : w.length < 256) {start : Table}
    (hstart : Making w 1 start) (n : ℕ) : n+1 ≤ w.length →
    ((Within start.places (made string start n).places ↔
      ∀ i ≤ n, w[border w i]? = w[i]? ∨ border w (border w i) ≤ 127) ∧
    (Within start.places (made string start n).places → Making w (n+1) (made string start n))) := by
  induction n with
  | zero =>
    intro _
    refine ⟨iff_of_true (.refl _) fun i hi => ?_, fun _ => hstart⟩
    have hle := border_le w i
    have hle' := border_le w (border w i)
    exact .inr (by omega)
  | succ n ih =>
    intro hn
    obtain ⟨hiff, hmaking⟩ := ih (by omega)
    rw [made_succ]
    have hsplit := fun h => @Within.split start.places _ _ h (made_extends start n)
      (@prefixStep_extends string (made string start n) (n+1))
    constructor
    · constructor
      · intro h i hi
        obtain ⟨hbefore, hturn⟩ := hsplit h
        rcases Nat.lt_or_ge i (n+1) with hlt | hge
        · exact hiff.mp hbefore i (Nat.le_of_lt_succ hlt)
        · obtain rfl : i = n+1 := by omega
          by_contra hcut
          exact prefixStep_outside hagree hlen (Nat.succ_pos n) hn (hmaking hbefore) hcut hturn
      · intro h
        have hbefore := hiff.mpr fun i hi => h i (Nat.le_succ_of_le hi)
        exact hbefore.trans (prefixStep_making hagree hlen (Nat.succ_pos n) hn
          (hmaking hbefore) (h (n+1) (Nat.le_refl _))).2
    · intro h
      obtain ⟨hbefore, hturn⟩ := hsplit h
      have hmade := hmaking hbefore
      by_cases hfine : w[border w (n+1)]? = w[n+1]? ∨ border w (border w (n+1)) ≤ 127
      · exact (prefixStep_making hagree hlen (Nat.succ_pos n) hn hmade hfine).1
      · exact absurd hturn (prefixStep_outside hagree hlen (Nat.succ_pos n) hn hmade hfine)

/-- The entries stay as they must be, whatever the word. -/
structure MakingSane (i : ℕ) (t : Table) : Prop where
  low : -128 ≤ t.k
  high : t.k < i
  nonneg : i ≤ 128 → 0 ≤ t.k
  sane : Sane t.prefixFunction

theorem prefixStep_sane {i : ℕ} (hi : i < 256) (h : MakingSane i t) :
    MakingSane (i+1) (prefixStep string t i) := by
  obtain ⟨hlow, hhigh, hnonneg, hsane⟩ := h
  obtain ⟨hl, hu, hn⟩ := @fallBack_range string t.prefixFunction (string i) hsane t.k.toNat t.k
    hlow (by omega)
  have hk : -128 ≤ (prefixStep string t i).k ∧ (prefixStep string t i).k < ((i+1 : ℕ) : Int) ∧
      (i+1 ≤ 128 → 0 ≤ (prefixStep string t i).k) := by
    rw [prefixStep]
    dsimp only
    split_ifs <;> refine ⟨by omega, by omega, fun h128 => ?_⟩ <;>
      have := hn (hnonneg (by omega)) (by omega) <;> omega
  refine ⟨hk.1, hk.2.1, hk.2.2, fun j h0 h256 => ?_⟩
  have htable : (prefixStep string t i).prefixFunction =
      Function.update t.prefixFunction i (char (prefixStep string t i).k) := rfl
  rw [htable]
  by_cases hlast : j = i
  · rw [hlast, Function.update_self]
    have hchar : char (prefixStep string t i).k ≤ (prefixStep string t i).k ∧
        -128 ≤ char (prefixStep string t i).k := by
      rw [char, Int.bmod_def]
      split_ifs <;> omega
    have hle := char_le (prefixStep string t i).k
    refine ⟨by omega, hle, fun h127 => ?_, hchar.2⟩
    have h0' := hk.2.2 (by omega)
    rw [char_eq (by omega) (by omega)]
    exact h0'
  · rw [Function.update_of_ne hlast]
    exact hsane j h0 h256

theorem start_sane {prefixFunction : Int → Int} (h : Sane prefixFunction) (places : List Int) :
    MakingSane 1 ⟨0, Function.update prefixFunction 0 0, places⟩ := by
  refine ⟨show (-128 : Int) ≤ 0 by decide, show (0 : Int) < 1 by decide,
    fun _ => Int.le_refl 0, fun i h0 h256 => ?_⟩
  change Function.update prefixFunction 0 0 i ≤ i ∧ Function.update prefixFunction 0 0 i ≤ 127 ∧
    (i ≤ 127 → 0 ≤ Function.update prefixFunction 0 0 i) ∧
      -128 ≤ Function.update prefixFunction 0 0 i
  by_cases hi : i = 0
  · rw [hi, Function.update_self]
    decide
  · rw [Function.update_of_ne hi]
    exact h i h0 h256

theorem made_sane {start : Table} (h : MakingSane 1 start) (n : ℕ) (hn : n < 256) :
    MakingSane (n+1) (made string start n) := by
  induction n with
  | zero => exact h
  | succ n ih =>
    rw [made_succ]
    exact prefixStep_sane hn (ih (by omega))

end Making

section Searching
variable {tw : WindRec} {w seen : List UInt8} {c : UInt8} {r : ℕ}

theorem waitByte_prefixFunction (tw : WindRec) (c : UInt8) :
    (waitByte tw c).waPrefixFunction = tw.waPrefixFunction := by
  rw [waitByte]
  dsimp only
  split_ifs <;> rfl

theorem handlewait_prefixFunction (chunk : List UInt8) : ∀ tw : WindRec,
    (handlewait tw chunk).waPrefixFunction = tw.waPrefixFunction := by
  induction chunk with
  | nil => exact fun tw => rfl
  | cons c chunk ih => exact fun tw => (ih _).trans (waitByte_prefixFunction tw c)

/-- The table of a window in use. -/
theorem used_sane (h : Used tw) : Sane tw.waPrefixFunction := by
  induction h with
  | start hzero =>
    intro i h0 _
    rw [hzero i]
    exact ⟨h0, by decide, fun _ => Int.le_refl 0, by decide⟩
  | wait dataString isSuspended _ hlen ih =>
    rw [MyHandleWait]
    split_ifs with hnil
    · exact ih
    · exact (made_sane (start_sane ih _) _ (by omega)).sane
  | receive chunk _ ih =>
    rw [receive]
    split_ifs
    · rw [handlewait_prefixFunction]
      exact ih
    · exact ih

/-- The window while the string is looked for in what has been `seen`. -/
structure Looking (w seen : List UInt8) (tw : WindRec) : Prop where
  agree : Agrees tw.waWaitString w
  length : tw.waWaitLength = w.length
  borders : HasBorders tw.waPrefixFunction w w.length
  position : ∃ q : ℕ, tw.waWaitPos = q ∧ q < w.length ∧ Longest w seen q
  waiting : tw.waWaiting = true
  event : tw.waWeHaveAppleEvent = true

/-- The window when the string has been found. -/
structure Found (tw : WindRec) : Prop where
  position : 0 ≤ tw.waWaitPos ∧ tw.waWaitPos ≤ 256
  waiting : tw.waWaiting = false
  event : tw.waWeHaveAppleEvent = false

/-- The script goes on just when the string has been seen. -/
structure Progress (w : List UInt8) (r : ℕ) (seen : List UInt8) (tw : WindRec) : Prop where
  sane : Sane tw.waPrefixFunction
  resumed : tw.resumed = r + if w <:+: seen then 1 else 0
  phase : ¬w <:+: seen ∧ Looking w seen tw ∨ w <:+: seen ∧ Found tw

theorem Progress.position (hlen : w.length < 256) (h : Progress w r seen tw) :
    0 ≤ tw.waWaitPos ∧ tw.waWaitPos ≤ 256 := by
  rcases h.phase with ⟨_, hlook⟩ | ⟨_, hfound⟩
  · obtain ⟨q, hq, hlt, _⟩ := hlook.position
    omega
  · exact hfound.position

/-- The place where a byte is compared, and the window with the places looked at. -/
theorem waitByte_places (tw : WindRec) (c : UInt8) : (waitByte tw c).places =
    tw.places ++ ((fallBack tw.waWaitString tw.waPrefixFunction c tw.waWaitPos.toNat
      tw.waWaitPos).2 ++ [(fallBack tw.waWaitString tw.waPrefixFunction c tw.waWaitPos.toNat
      tw.waWaitPos).1]) := by
  rw [← List.append_assoc, waitByte]
  dsimp only
  split_ifs <;> rfl

/-- A byte is compared inside the arrays just where that is fine. -/
theorem waitByte_within_iff (hlen : w.length < 256) (h : Progress w r seen tw) :
    Within tw.places (waitByte tw c).places ↔ ByteFine tw c := by
  obtain ⟨h0, h256⟩ := h.position hlen
  rw [waitByte_places, within_append]
  constructor
  · intro hall
    have h255 : tw.waWaitPos ≤ 255 := by
      by_cases hpos : 0 < tw.waWaitPos
      · have := hall _ (List.mem_append_left _ (fallBack_first hpos))
        omega
      · omega
    refine ⟨h255, ?_⟩
    by_contra hcut
    rw [not_or, not_or] at hcut
    obtain ⟨hne, hletter, hneg⟩ := hcut
    have hfell := fallBack_negative (show 0 < tw.waWaitPos by omega) hletter (Int.not_le.mp hneg)
    have := hall _ (List.mem_append_right _ (List.mem_singleton_self _))
    omega
  · intro ⟨h255, hfine⟩
    obtain ⟨hend, hplaces⟩ := fallBack_inside h.sane tw.waWaitPos.toNat tw.waWaitPos h0 h255
      hfine
    intro i hi
    rcases List.mem_append.mp hi with hi | hi
    · exact hplaces i hi
    · obtain rfl := List.mem_singleton.mp hi
      omega

/-- The entry before the position is negative just where the border is cut off. -/
theorem Looking.entry (hlook : Looking w seen tw) (hlen : w.length < 256) {q : ℕ}
    (hq : tw.waWaitPos = q) (h0 : 0 < q) (hlt : q < w.length) :
    0 ≤ tw.waPrefixFunction (tw.waWaitPos-1) ↔ border w q ≤ 127 := by
  have hborder := border_le w q
  have hplace : tw.waWaitPos-1 = ((q-1 : ℕ) : Int) := by omega
  have hsucc : q-1+1 = q := by omega
  rw [hplace, hlook.borders (q-1) (by omega), hsucc]
  constructor
  · intro hentry
    by_contra hlarge
    have := @char_neg (border w q) (by omega) (by omega)
    omega
  · intro hsmall
    rw [char_eq (by omega) (by omega)]
    omega

/-- While the string is looked for, a byte that is fine falls back to the longest
overlap it can make longer. -/
theorem Looking.fallBack (hlook : Looking w seen tw) (hlen : w.length < 256)
    (hfine : ByteFine tw c) :
    ∃ p' : ℕ, (WaitString.fallBack tw.waWaitString tw.waPrefixFunction c tw.waWaitPos.toNat
        tw.waWaitPos).1 = p' ∧ p' < w.length ∧ Candidate w seen c p' ∧
      (p' = 0 ∨ tw.waWaitString p' = c) := by
  obtain ⟨q, hq, hlt, hlong⟩ := hlook.position
  have hfine' : q = 0 ∨ tw.waWaitString q = c ∨ border w q ≤ 127 := by
    rcases hfine.2 with hzero | hletter | hentry
    · exact .inl (by omega)
    · exact .inr (.inl (hq ▸ hletter))
    · by_cases hq0 : q = 0
      · exact .inl hq0
      · exact .inr (.inr ((hlook.entry hlen hq (by omega) hlt).mp hentry))
  obtain ⟨p', hval, hle', hcand, hstop, _⟩ := @fallBack_spec tw.waWaitString
    tw.waPrefixFunction c w seen hlook.agree q q (Nat.le_refl q) hlt
    (fun j hj => hlook.borders j (by omega)) (hlong.candidate c) hfine'
  refine ⟨p', ?_, by omega, hcand, hstop⟩
  rw [hq, Int.toNat_natCast]
  exact hval

/-- A string that has not been seen can only be at the end. -/
theorem found_iff {q : ℕ} (hnot : ¬w <:+: seen) (hlong : Longest w (seen ++ [c]) q) :
    w <:+: seen ++ [c] ↔ q = w.length := by
  rw [List.infix_concat_iff, or_iff_left hnot, hlong.suffix_iff]

/-- A byte that is fine takes the search on, while the string is looked for. -/
theorem Looking.progress (hlook : Looking w seen tw) (hlen : w.length < 256)
    (hsane : Sane tw.waPrefixFunction) (hnot : ¬w <:+: seen) (hresumed : tw.resumed = r)
    (hfine : ByteFine tw c) : Progress w r (seen ++ [c]) (waitByte tw c) := by
  obtain ⟨p', hfell, hlt, hcand, hstop⟩ := hlook.fallBack hlen hfine
  have hletter := hlook.agree p' hlt
  have hlength := hlook.length
  rw [waitByte]
  dsimp only
  by_cases hgrow : c = tw.waWaitString p'
  · have hlong := hcand.grow (by rw [hletter, hgrow])
    rw [hfell, if_pos hgrow]
    by_cases hfull : p'+1 = w.length
    · -- the last letter of the string
      have hmore := (found_iff hnot hlong).mpr hfull
      rw [if_pos (by omega)]
      refine ⟨hsane, ?_, .inr ⟨hmore, ⟨⟨?_, ?_⟩, rfl, rfl⟩⟩⟩
      · rw [if_pos hmore, ← hresumed]
        exact if_pos hlook.event
      · change 0 ≤ (p' : Int)+1
        omega
      · change (p' : Int)+1 ≤ 256
        omega
    · have hnone := fun hmore => hfull ((found_iff hnot hlong).mp hmore)
      rw [if_neg (by omega)]
      refine ⟨hsane, ?_, .inl ⟨hnone, ⟨hlook.agree, hlength, hlook.borders,
        ⟨p'+1, rfl, by omega, hlong⟩, hlook.waiting, hlook.event⟩⟩⟩
      rw [if_neg hnone]
      exact hresumed
  · obtain rfl := hstop.resolve_right (Ne.symm hgrow)
    have hlong := hcand.drop (by
      rw [hletter]
      exact fun heq => hgrow (Option.some.inj heq).symm)
    have hnone : ¬w <:+: seen ++ [c] := fun hmore => by
      have := (found_iff hnot hlong).mp hmore
      omega
    rw [hfell, if_neg hgrow]
    refine ⟨hsane, ?_, .inl ⟨hnone, ⟨hlook.agree, hlength, hlook.borders,
      ⟨0, rfl, by omega, hlong⟩, hlook.waiting, hlook.event⟩⟩⟩
    rw [if_neg hnone]
    exact hresumed

/-- Once the script has gone on, a byte in the same chunk does not resume it again. -/
theorem Found.waitByte (hfound : Found tw) (hsane : Sane tw.waPrefixFunction)
    (hfine : ByteFine tw c) :
    Found (WaitString.waitByte tw c) ∧ (WaitString.waitByte tw c).resumed = tw.resumed := by
  have hend := (fallBack_inside hsane tw.waWaitPos.toNat tw.waWaitPos hfound.position.1
    hfine.1 hfine.2).1
  have h255 := hfine.1
  rw [WaitString.waitByte]
  dsimp only
  split_ifs
  · refine ⟨⟨⟨?_, ?_⟩, rfl, rfl⟩, ?_⟩
    · change 0 ≤ _+1
      omega
    · change _+1 ≤ 256
      omega
    · rw [complete]
      dsimp only
      rw [hfound.event, if_neg Bool.false_ne_true]
  · refine ⟨⟨⟨?_, ?_⟩, hfound.waiting, hfound.event⟩, rfl⟩
    · change 0 ≤ _+1
      omega
    · change _+1 ≤ 256
      omega
  · exact ⟨⟨⟨Int.le_refl 0, show (0 : Int) ≤ 256 by decide⟩, hfound.waiting, hfound.event⟩, rfl⟩

/-- A byte that is fine takes the search on. -/
theorem waitByte_progress (hlen : w.length < 256) (h : Progress w r seen tw)
    (hfine : ByteFine tw c) : Progress w r (seen ++ [c]) (waitByte tw c) := by
  have hresumed := h.resumed
  rcases h.phase with ⟨hnot, hlook⟩ | ⟨hseen, hfound⟩
  · rw [if_neg hnot] at hresumed
    exact hlook.progress hlen h.sane hnot hresumed hfine
  · -- the script has gone on, and nothing more happens
    have hmore : w <:+: seen ++ [c] := hseen.trans (List.prefix_append _ _).isInfix
    obtain ⟨hstill, hsame⟩ := hfound.waitByte h.sane hfine
    rw [if_pos hseen] at hresumed
    refine ⟨?_, ?_, .inr ⟨hmore, hstill⟩⟩
    · rw [waitByte_prefixFunction]
      exact h.sane
    · rw [if_pos hmore, hsame]
      exact hresumed

theorem waitByte_extends (tw : WindRec) (c : UInt8) : tw.places <+: (waitByte tw c).places := by
  rw [waitByte_places]
  exact List.prefix_append _ _

theorem handlewait_extends (chunk : List UInt8) : ∀ tw : WindRec,
    tw.places <+: (handlewait tw chunk).places := by
  induction chunk with
  | nil => exact fun tw => List.prefix_rfl
  | cons c chunk ih => exact fun tw => (waitByte_extends tw c).trans (ih _)

theorem receive_extends (tw : WindRec) (chunk : List UInt8) :
    tw.places <+: (receive tw chunk).places := by
  rw [receive]
  split_ifs
  · exact handlewait_extends chunk tw
  · exact List.prefix_rfl

theorem receiveAll_extends (chunks : List (List UInt8)) : ∀ tw : WindRec,
    tw.places <+: (receiveAll tw chunks).places := by
  induction chunks with
  | nil => exact fun tw => List.prefix_rfl
  | cons chunk chunks ih => exact fun tw => (receive_extends tw chunk).trans (ih _)

/-- A chunk is searched inside the arrays just where each byte is fine, and is then seen. -/
theorem handlewait_spec (hlen : w.length < 256) (chunk : List UInt8) :
    ∀ {tw : WindRec} {seen : List UInt8}, Progress w r seen tw →
      (Within tw.places (handlewait tw chunk).places ↔ ChunkFine tw chunk) ∧
      (ChunkFine tw chunk → Progress w r (seen ++ chunk) (handlewait tw chunk)) := by
  induction chunk with
  | nil =>
    intro tw seen h
    refine ⟨iff_of_true (.refl _) trivial, fun _ => ?_⟩
    rw [List.append_nil]
    exact h
  | cons c chunk ih =>
    intro tw seen h
    have hbyte := waitByte_within_iff (c := c) hlen h
    constructor
    · constructor
      · intro hall
        obtain ⟨hfirst, hrest⟩ := hall.split (waitByte_extends tw c)
          (handlewait_extends chunk (waitByte tw c))
        have hfine := hbyte.mp hfirst
        exact ⟨hfine, (ih (waitByte_progress hlen h hfine)).1.mp hrest⟩
      · intro ⟨hfine, hrest⟩
        exact (hbyte.mpr hfine).trans ((ih (waitByte_progress hlen h hfine)).1.mpr hrest)
    · intro ⟨hfine, hrest⟩
      have hseen := (ih (waitByte_progress hlen h hfine)).2 hrest
      rwa [List.append_assoc] at hseen

/-- So is a chunk that comes while the window may wait. -/
theorem receive_spec (hlen : w.length < 256) (chunk : List UInt8) (h : Progress w r seen tw) :
    (Within tw.places (receive tw chunk).places ↔ (tw.waWaiting → ChunkFine tw chunk)) ∧
      ((tw.waWaiting → ChunkFine tw chunk) → Progress w r (seen ++ chunk) (receive tw chunk)) := by
  rw [receive]
  by_cases hwait : tw.waWaiting
  · rw [if_pos hwait, imp_iff_right hwait]
    exact handlewait_spec hlen chunk h
  · rw [if_neg hwait]
    refine ⟨iff_of_true (.refl _) fun hno => absurd hno hwait, fun _ => ?_⟩
    -- only a window that has found the string does not wait
    rcases h.phase with ⟨_, hlook⟩ | ⟨hseen, hfound⟩
    · exact absurd hlook.waiting hwait
    · have hmore : w <:+: seen ++ chunk := hseen.trans (List.prefix_append _ _).isInfix
      refine ⟨h.sane, ?_, .inr ⟨hmore, hfound⟩⟩
      have hresumed := h.resumed
      rw [if_pos hseen] at hresumed
      rw [if_pos hmore, hresumed]

theorem receiveAll_spec (hlen : w.length < 256) (chunks : List (List UInt8)) :
    ∀ {tw : WindRec} {seen : List UInt8}, Progress w r seen tw →
      (Within tw.places (receiveAll tw chunks).places ↔ StreamFine tw chunks) ∧
      (StreamFine tw chunks → Progress w r (seen ++ chunks.flatten) (receiveAll tw chunks)) := by
  induction chunks with
  | nil =>
    intro tw seen h
    refine ⟨iff_of_true (.refl _) trivial, fun _ => ?_⟩
    rw [List.flatten_nil, List.append_nil]
    exact h
  | cons chunk chunks ih =>
    intro tw seen h
    obtain ⟨hiff, hgo⟩ := receive_spec hlen chunk h
    constructor
    · constructor
      · intro hall
        obtain ⟨hfirst, hrest⟩ := hall.split (receive_extends tw chunk)
          (receiveAll_extends chunks (receive tw chunk))
        have hfine := hiff.mp hfirst
        exact ⟨hfine, (ih (hgo hfine)).1.mp hrest⟩
      · intro ⟨hfine, hrest⟩
        exact (hiff.mpr hfine).trans ((ih (hgo hfine)).1.mpr hrest)
    · intro ⟨hfine, hrest⟩
      have hseen := (ih (hgo hfine)).2 hrest
      rwa [List.append_assoc, ← List.flatten_cons] at hseen

theorem chunkFine_of_append (more : List UInt8) : ∀ (chunk : List UInt8) {tw : WindRec},
    ChunkFine tw (chunk ++ more) → ChunkFine tw chunk := by
  intro chunk
  induction chunk with
  | nil => exact fun _ => trivial
  | cons c chunk ih => exact fun h => ⟨h.1, ih h.2⟩

/-- A part of a fine stream is fine. -/
theorem streamFine_part {last more : List UInt8} {rest : List (List UInt8)}
    (front : List (List UInt8)) : ∀ {tw : WindRec},
    StreamFine tw (front ++ (last ++ more) :: rest) → StreamFine tw (front ++ [last]) := by
  induction front with
  | nil => exact fun h => ⟨fun hwait => chunkFine_of_append more last (h.1 hwait), trivial⟩
  | cons chunk front ih => exact fun h => ⟨h.1, ih h.2⟩

/-- What the table is made from. -/
def firstTable (tw : WindRec) : Table := ⟨0, Function.update tw.waPrefixFunction 0 0, tw.places⟩

theorem setup_eq (hpos : w ≠ []) (isSuspended : Bool) : MyHandleWait tw w isSuspended =
    { tw with
      waWeHaveAppleEvent := true
      waWasEnabled := isSuspended
      enabled := true
      waWaitPos := 0
      waWaiting := true
      waWaitLength := w.length
      waWaitString := moved tw w
      waPrefixFunction := (made (moved tw w) (firstTable tw) (w.length-1)).prefixFunction
      places := (made (moved tw w) (firstTable tw) (w.length-1)).places } := by
  rw [MyHandleWait, if_neg hpos]
  rfl

theorem moved_agrees (tw : WindRec) (w : List UInt8) : Agrees (moved tw w) w := by
  intro i hi
  rw [moved, if_pos (by omega), Int.toNat_natCast, List.getD_eq_getElem?_getD,
    List.getElem?_eq_getElem hi, Option.getD_some]

theorem firstTable_making (tw : WindRec) (w : List UInt8) : Making w 1 (firstTable tw) := by
  have hone : border w 1 = 0 := Nat.le_zero.mp (border_le w 1)
  refine ⟨by rw [hone]; rfl, fun j hj => ?_⟩
  obtain rfl : j = 0 := by omega
  rw [hone]
  rfl

/-- What the setup makes of a window: it looks for the string, inside the arrays just where
no border of it is cut off. -/
theorem setup_spec (hsane : Sane tw.waPrefixFunction) (hpos : w ≠ []) (hlen : w.length < 256)
    (isSuspended : Bool) :
    (Within tw.places (MyHandleWait tw w isSuspended).places ↔ BordersFine w) ∧
      (BordersFine w → Progress w tw.resumed [] (MyHandleWait tw w isSuspended)) := by
  have hlong := List.length_pos_iff.mpr hpos
  have hagree := moved_agrees tw w
  obtain ⟨hiff, hmaking⟩ := made_spec hagree hlen (firstTable_making tw w) (w.length-1) (by omega)
  have hturns : (∀ i ≤ w.length-1, w[border w i]? = w[i]? ∨ border w (border w i) ≤ 127) ↔
      BordersFine w :=
    ⟨fun h i hi => h i (by omega), fun h i hi => h i (by omega)⟩
  have hwithin := hiff.trans hturns
  rw [setup_eq hpos]
  refine ⟨hwithin, fun hfine => ?_⟩
  have hmade := hmaking (hwithin.mpr hfine)
  have hplace : w.length-1+1 = w.length := by omega
  rw [hplace] at hmade
  have hnone : ¬w <:+: [] := fun h => hpos (List.infix_nil.mp h)
  refine ⟨(made_sane (start_sane hsane _) _ (by omega)).sane, ?_, .inl ⟨hnone, hagree, rfl,
    hmade.borders, ⟨0, rfl, hlong, isOverlap_zero w [], fun k hk => hk.le_length⟩, rfl, rfl⟩⟩
  rw [if_neg hnone]
  rfl

theorem setup_extends (tw : WindRec) (hpos : w ≠ []) (isSuspended : Bool) :
    tw.places <+: (MyHandleWait tw w isSuspended).places := by
  rw [setup_eq hpos]
  exact made_extends (firstTable tw) _

/-- A wait for a string goes on as it should just where making the table cuts off no
border, and every byte of the stream that is searched is fine. -/
theorem awaited_iff (h : Used tw) (hpos : w ≠ []) (hlen : w.length < 256) (isSuspended : Bool)
    (chunks : List (List UInt8)) : Awaited tw w isSuspended chunks ↔
      BordersFine w ∧ StreamFine (MyHandleWait tw w isSuspended) chunks := by
  obtain ⟨hiff, hsetup⟩ := setup_spec (used_sane h) hpos hlen isSuspended
  constructor
  · intro hawait
    obtain ⟨hfirst, hrest⟩ := hawait.inside.split (setup_extends tw hpos isSuspended)
      (receiveAll_extends chunks _)
    have hborders := hiff.mp hfirst
    exact ⟨hborders, (receiveAll_spec hlen chunks (hsetup hborders)).1.mp hrest⟩
  · intro ⟨hborders, hstream⟩
    have hprogress := hsetup hborders
    refine ⟨fun part hpart => ?_, ?_⟩
    · obtain ⟨front, last, more, rest, rfl, rfl⟩ := hpart
      have hpart := (receiveAll_spec hlen (front ++ [last]) hprogress).2
        (streamFine_part front hstream)
      exact hpart.resumed
    · exact (hiff.mpr hborders).trans
        ((receiveAll_spec hlen chunks hprogress).1.mpr hstream)

end Searching

end WaitString
