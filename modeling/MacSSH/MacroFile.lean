import MacSSH.MacroStore

/-! The file of the macros: written from the block, and read back into one, in the new
format or in the old one with a line for each of the first ten macros. -/
namespace Macros

open VS PackedStrings

/-- The bytes that are written: a mark, and the block with returns for the terminators. -/
def saveMacros (m : NewMacroInfo) : Option (List UInt8) :=
  m.handle.map fun b => 33 :: 13 :: (b.bytesFrom 0).map fun c => if c = 0 then 13 else c

/-- Make sure that the last string ends and that every slot has one. -/
def fixMacros (m : NewMacroInfo) : NewMacroInfo :=
  match m.handle with
  | none => m
  | some b =>
    let len := m.index 0
    let closed := if b.mem (len-1) ≠ 0 then
        (len+1, { b.SetHandleSize (len+1) with mem := Function.update b.mem len 0 })
      else (len, b)
    let len := closed.1
    let b := closed.2
    match (List.range' 1 (NUM_MACROS-1)).find? fun i : ℕ => m.index i = 0 with
    | none => { index := Function.update m.index 0 (short len), handle := some b }
    | some num =>
      -- slots that the file does not have get empty strings behind the others
      let len2 := len
      let len := len+(NUM_MACROS-num)
      let b := { b.SetHandleSize len with
        mem := fun i => if len2 ≤ i ∧ i < len then 0 else b.mem i }
      let index := fun i : Int =>
        if num ≤ i ∧ i < NUM_MACROS then short (len2+(i-num)) else m.index i
      { index := Function.update index 0 (short len), handle := some b }

/-- Each terminator but the last byte of the block gives the start of the next string. -/
def scanIndex (index : Int → Int) (i pos : ℕ) : List UInt8 → Int → Int
  | [] => index
  | c :: rest =>
    if i < NUM_MACROS then
      if c = 0 then scanIndex (Function.update index i (short (pos+1))) (i+1) (pos+1) rest
      else scanIndex index i (pos+1) rest
    else index

/-- The block with terminators for the returns. -/
def Block.closeLines (b : Block) : Block :=
  { b with mem := fun i => if 0 ≤ i ∧ i < b.size ∧ b.mem i = 13 then 0 else b.mem i }

def parseNewMacros2 (m : NewMacroInfo) (b : Block) : NewMacroInfo :=
  let b := b.closeLines
  let index := scanIndex m.index 1 0 (b.bytesFrom 0).dropLast
  -- the first offset is the length of the block while the slots are repaired
  fixMacros { index := Function.update index 0 (short b.size), handle := some b }

/-- A block filled with the bytes of a file. -/
def Block.filled (fresh : Block) (bytes : List UInt8) : Block :=
  { fresh with
    size := bytes.length
    mem := fun i => if 0 ≤ i ∧ i < bytes.length then bytes.getD i.toNat 0 else fresh.mem i }

/-- The new format behind its mark; `granted` says whether there is memory for the block. -/
def parseNewMacros (m : NewMacroInfo) (file : List UInt8) (fresh : Block) (granted : Bool) :
    NewMacroInfo :=
  if granted then parseNewMacros2 m (fresh.filled (file.drop 2))
  else setupNewMacros (disposemacros m) fresh

/-- Read up to a return into the line buffer: the buffer, the length of the line, what is
left of the file and whether its end was met. -/
def readLine (buffer : ℕ → UInt8) (pos : ℕ) :
    List UInt8 → (ℕ → UInt8) × ℕ × List UInt8 × Bool
  | [] => (buffer, pos, [], true)
  | c :: rest =>
    if c = 13 then (Function.update buffer pos c, pos, rest, false)
    else readLine (Function.update buffer pos c) (pos+1) rest

/-- Go behind the first quote of a line. -/
def skipQuote (buffer : ℕ → UInt8) (p : ℕ) : ℕ → ℕ × ℕ
  | 0 => (p+1, 0)
  | n+1 => if buffer p = 34 then (p+1, n+1) else skipQuote buffer (p+1) n

/-- The characters up to the next quote. -/
def copyMacro (buffer : ℕ → UInt8) (p : ℕ) : ℕ → List UInt8
  | 0 => []
  | n+1 => if buffer p = 34 then [] else buffer p :: copyMacro buffer (p+1) n

/-- The old format: a line `keyN = "..."` for each of the first macros; the last argument
counts the lines that are still read. -/
def parseOldMacros (m : NewMacroInfo) (buffer : ℕ → UInt8) (pos : ℕ) (rest : List UInt8) :
    ℕ → NewMacroInfo
  | 0 => m
  | k+1 =>
    let (buffer, totalLen, rest, eof) := readLine buffer pos rest
    let (p, left) := skipQuote buffer 0 totalLen
    let m := setMacro m (10-(k+1)) ((copyMacro buffer p left).takeWhile (· ≠ 0))
    if eof then m else parseOldMacros m buffer 0 rest k

/-- Read the macros from a file; `junk` is what the line buffer holds before. -/
def parseMacroFile (m : NewMacroInfo) (file : List UInt8) (fresh : Block) (granted : Bool)
    (junk : ℕ → UInt8) : NewMacroInfo :=
  if file.length < 2 then m
  else if file.take 2 = [33, 13] then parseNewMacros (disposemacros m) file fresh granted
  else
    let buffer := Function.update (Function.update junk 0 (file.getD 0 0)) 1 (file.getD 1 0)
    parseOldMacros m buffer 2 (file.drop 2) 10

section Scan
variable {index : Int → Int} {i pos : ℕ}

theorem scanIndex_full (h : NUM_MACROS ≤ i) (bytes : List UInt8) :
    scanIndex index i pos bytes = index := by
  cases bytes with
  | nil => rfl
  | cons c rest => rw [scanIndex, if_neg (by omega)]

/-- The characters of a string are passed over. -/
theorem scanIndex_string (s : List UInt8) : ∀ {pos : ℕ} {rest : List UInt8}, 0 ∉ s →
    scanIndex index i pos (s ++ rest) = scanIndex index i (pos+s.length) rest := by
  induction s with
  | nil => exact fun _ => rfl
  | cons c s ih =>
    intro pos rest hs
    have hc : c ≠ 0 := fun h => hs (h ▸ List.mem_cons_self)
    have hs' : 0 ∉ s := fun h => hs (List.mem_cons_of_mem c h)
    rcases Nat.lt_or_ge i NUM_MACROS with hlt | hge
    · rw [List.cons_append, scanIndex, if_pos hlt, if_neg hc, ih hs', List.length_cons]
      congr 1
      omega
    · rw [scanIndex_full hge, scanIndex_full hge]

/-- Scanning packed strings finds where each but the first starts. -/
theorem scanIndex_packed (strings : List (List UInt8)) : ∀ {index : Int → Int} {i pos : ℕ},
    strings ≠ [] → (∀ s ∈ strings, 0 ∉ s) →
    ∀ j : ℕ, scanIndex index i pos (packed 0 strings).dropLast j =
      if i ≤ j ∧ j < NUM_MACROS ∧ j+1 < i+strings.length
      then short ((pos+start 0 strings (j+1-i) : ℕ) : Int) else index j := by
  induction strings with
  | nil => exact fun h => absurd rfl h
  | cons s strings ih =>
    intro index i pos _ hno j
    have hs := hno s List.mem_cons_self
    rw [packed_cons, List.dropLast_append_of_ne_nil (List.cons_ne_nil _ _), scanIndex_string s hs,
      List.length_cons]
    cases hrest : strings with
    | nil =>
      rw [List.length_nil, if_neg (by omega)]
      rfl
    | cons t rest =>
      rw [← hrest]
      have hne : strings ≠ [] := hrest ▸ List.cons_ne_nil t rest
      have hmore : packed 0 strings ≠ [] := by
        rw [hrest, packed_cons]
        exact List.append_ne_nil_of_right_ne_nil t (List.cons_ne_nil _ _)
      have hpos : 0 < strings.length := List.length_pos_iff.mpr hne
      rcases Nat.lt_or_ge i NUM_MACROS with hin | hfull
      · rw [List.dropLast_cons_of_ne_nil hmore, scanIndex, if_pos hin, if_pos rfl,
          ih hne fun s hs => hno s (List.mem_cons_of_mem _ hs)]
        rcases Nat.lt_trichotomy j i with hlt | rfl | hgt
        · rw [if_neg (by omega), if_neg (by omega), Function.update_of_ne (by omega)]
        · have hone : j+1-j = 0+1 := by omega
          rw [if_neg (by omega), if_pos (by omega), Function.update_self, hone, start_cons_succ,
            start_zero]
          congr 1
        · by_cases hstored : j < NUM_MACROS ∧ j+1 < i+(strings.length+1)
          · have hsucc : j+1-i = (j+1-(i+1))+1 := by omega
            rw [if_pos (by omega), if_pos (by omega), hsucc, start_cons_succ]
            congr 2
            omega
          · rw [if_neg (by omega), if_neg (by omega), Function.update_of_ne (by omega)]
      · rw [scanIndex_full hfull, if_neg (by omega)]

end Scan

/-- The stores that `setmacro` makes from that of `setupNewMacros`, with calls that meet
`P` and strings without a return or a terminator in them. -/
inductive MacroRun (P : NewMacroInfo → Int → List UInt8 → Prop) : NewMacroInfo → Prop
  | setup (m : NewMacroInfo) (fresh : Block) : MacroRun P (setupNewMacros m fresh)
  | set {m : NewMacroInfo} {n : Int} {s : List UInt8} : MacroRun P m → 0 ∉ s → 13 ∉ s →
    P m n s → MacroRun P (setMacro m n s)

/-- A row of calls of `setmacro`. -/
def setMacros (m : NewMacroInfo) (calls : List (Int × List UInt8)) : NewMacroInfo :=
  calls.foldl (fun m call => setMacro m call.1 call.2) m

/-- Every call of a row is fine where it comes, and its string has no terminator in it. -/
def CallsFine (m : NewMacroInfo) : List (Int × List UInt8) → Prop
  | [] => True
  | call :: calls => 0 ∉ call.2 ∧ CallFine m call.1 call.2 ∧
    CallsFine (setMacro m call.1 call.2) calls

section RoundTrip
variable {m m' : NewMacroInfo} {strings : List (List UInt8)}

theorem packed_empty (n : ℕ) :
    packed (0 : UInt8) (List.replicate n []) = List.replicate n 0 := by
  induction n with
  | zero => rfl
  | succ n ih =>
    rw [List.replicate_succ, packed_cons, ih, List.replicate_succ]
    rfl

theorem start_empty {n i : ℕ} (h : i ≤ n) :
    start (0 : UInt8) (List.replicate n []) i = i := by
  rw [start, List.take_replicate, packed_empty, List.length_replicate]
  omega

theorem setup_holds (m : NewMacroInfo) (fresh : Block) :
    Holds (setupNewMacros m fresh) (List.replicate NUM_MACROS []) := by
  refine ⟨List.length_replicate, ?_, ?_, ⟨_, rfl, ?_, ?_⟩, ?_⟩
  · intro s hs
    rw [List.eq_of_mem_replicate hs]
    exact List.not_mem_nil
  · rw [packed_empty, List.length_replicate]
    decide
  · rw [packed_empty, List.length_replicate]
  · intro i hi
    rw [packed_empty] at hi ⊢
    rw [List.length_replicate] at hi
    rw [List.getElem?_replicate, if_pos hi]
    dsimp only
    rw [if_pos (by omega)]
  · intro i _ hi
    dsimp only [setupNewMacros]
    rw [if_pos (by omega), start_empty (by omega)]

/-- A run leaves a string without returns in every slot. -/
theorem run_holds (h : MacroRun CallFine m) :
    ∃ strings, Holds m strings ∧ ∀ s ∈ strings, 13 ∉ s := by
  induction h with
  | setup m fresh =>
    refine ⟨_, setup_holds m fresh, fun s hs => ?_⟩
    rw [List.eq_of_mem_replicate hs]
    exact List.not_mem_nil
  | set _ hnul hret hfine ih =>
    obtain ⟨strings, hholds, hno⟩ := ih
    obtain ⟨n, rfl⟩ := Int.eq_ofNat_of_zero_le hfine.1
    have hn : n < strings.length := by
      have := hfine.2.1
      rw [hholds.slots]
      omega
    refine ⟨strings.set n _, setMacro_holds hholds hn hnul hfine, fun s hs => ?_⟩
    rcases List.mem_or_eq_of_mem_set hs with hmem | rfl
    · exact hno s hmem
    · exact hret

theorem packed_no_return (h : ∀ s ∈ strings, (13 : UInt8) ∉ s) : 13 ∉ packed 0 strings := by
  intro hmem
  obtain ⟨s, hs, hin⟩ := List.mem_flatMap.mp hmem
  rcases List.mem_append.mp hin with hin | hin
  · exact h s hs hin
  · exact absurd (List.mem_singleton.mp hin) (by decide)

/-- The file of a block. -/
theorem saveMacros_has {b : Block} {bytes : List UInt8} (hb : m.handle = some b)
    (hhas : b.Has bytes) :
    saveMacros m = some (33 :: 13 :: bytes.map fun c => if c = 0 then 13 else c) := by
  have hall : b.bytesFrom 0 = bytes := @bytesFrom_eq b [] _ hhas
  rw [saveMacros, hb, Option.map_some, hall]

theorem saveMacros_eq (h : Holds m strings) : saveMacros m =
    some (33 :: 13 :: (packed 0 strings).map fun c => if c = 0 then 13 else c) := by
  obtain ⟨b, hb, hhas⟩ := h.block
  exact saveMacros_has hb hhas

/-- What the file has for the bytes of the block is turned back into them. -/
theorem filled_has (fresh : Block) {bytes : List UInt8} (hno : 13 ∉ bytes) :
    (fresh.filled (bytes.map fun c => if c = 0 then 13 else c)).closeLines.Has bytes := by
  let b := fresh.filled (bytes.map fun c => if c = 0 then 13 else c)
  have hsize : b.size = bytes.length := by
    change (((bytes.map _).length : ℕ) : Int) = _
    rw [List.length_map]
  refine ⟨hsize, fun i hi => ?_⟩
  have hmem : b.mem i = if bytes[i] = 0 then 13 else bytes[i] := by
    change (if (0 : Int) ≤ i ∧ (i : Int) < ((bytes.map _).length : ℕ) then _ else _) = _
    rw [List.length_map, if_pos (by omega), Int.toNat_natCast, List.getD_eq_getElem?_getD,
      List.getElem?_map, List.getElem?_eq_getElem hi]
    rfl
  rw [List.getElem?_eq_getElem hi]
  change _ = some (if 0 ≤ (i : Int) ∧ (i : Int) < b.size ∧ b.mem i = 13 then 0 else b.mem i)
  have hne : bytes[i] ≠ 13 := fun h => hno (h ▸ List.getElem_mem hi)
  rw [hmem, hsize]
  by_cases hzero : bytes[i] = 0
  · rw [if_pos hzero, if_pos ⟨by omega, by omega, rfl⟩, hzero]
  · rw [if_neg hzero, if_neg (fun h => hne h.2.2)]

/-- Where the last byte is a terminator and every slot has an offset, nothing is repaired. -/
theorem fixMacros_whole {b : Block} (hb : m.handle = some b) (hlast : b.mem (m.index 0-1) = 0)
    (hoffsets : ∀ i : ℕ, 0 < i → i < NUM_MACROS → m.index i ≠ 0) : fixMacros m =
      { index := Function.update m.index 0 (short (m.index 0)), handle := some b } := by
  have hall : ((List.range' 1 (NUM_MACROS-1)).find? fun i : ℕ => m.index i = 0) = none := by
    rw [List.find?_eq_none]
    intro i hi
    obtain ⟨h1, h2⟩ := List.mem_range'_1.mp hi
    simp only [decide_eq_true_eq]
    exact hoffsets i h1 (by omega)
  rw [fixMacros, hb]
  simp only [hlast, hall]
  rfl

/-- A store whose first offset is the length of the block needs no repair. -/
theorem fixMacros_holds {b : Block} (hslots : strings.length = NUM_MACROS)
    (hno : ∀ s ∈ strings, 0 ∉ s) (hfits : (packed 0 strings).length ≤ 32767)
    (hb : m.handle = some b) (hhas : b.Has (packed 0 strings)) (hlen : m.index 0 = b.size)
    (hoffsets : ∀ i : ℕ, 0 < i → i < NUM_MACROS → m.index i = start 0 strings i) :
    Holds (fixMacros m) strings := by
  have hpos := length_le_packed (0 : UInt8) strings
  have hslots' : strings.length = 120 := hslots
  -- the last byte closes the string of the last slot
  have hlast : b.mem (m.index 0-1) = 0 := by
    have hne : strings ≠ [] := List.length_pos_iff.mp (by omega)
    have hend := getLast_packed (0 : UInt8) hne
    rw [List.getLast?_eq_getElem?, hhas.2 _ (by omega)] at hend
    have hplace : m.index 0-1 = (((packed 0 strings).length-1 : ℕ) : Int) := by
      have := hhas.1
      omega
    rw [hplace]
    exact Option.some.inj hend
  have hwhole := fixMacros_whole hb hlast fun i h0 hi => by
    have hstart := @le_start _ (0 : UInt8) strings i (by omega)
    rw [hoffsets i h0 hi]
    omega
  rw [hwhole]
  refine ⟨hslots, hno, hfits, ⟨b, rfl, hhas⟩, fun i h0 hi => ?_⟩
  change Function.update m.index 0 _ (i : Int) = _
  rw [Function.update_of_ne (by omega)]
  exact hoffsets i h0 hi

/-- The table and the block that the file of some strings is read into. -/
theorem parse_eq (m : NewMacroInfo) (fresh : Block) (junk : ℕ → UInt8) (bytes : List UInt8) :
    parseMacroFile m (33 :: 13 :: bytes) fresh true junk =
      parseNewMacros2 (disposemacros m) (fresh.filled bytes) := by
  have hmark : (33 :: 13 :: bytes).take 2 = [33, 13] := rfl
  have hrest : (33 :: 13 :: bytes).drop 2 = bytes := rfl
  rw [parseMacroFile, if_neg (by simp), if_pos hmark, parseNewMacros, if_pos rfl, hrest]

/-- Reading the file of packed strings gives a store that holds them. -/
theorem parse_holds (h : Holds m strings) (hno : ∀ s ∈ strings, 13 ∉ s) (m₀ : NewMacroInfo)
    (fresh : Block) (junk : ℕ → UInt8) : Holds (parseMacroFile m₀ (33 :: 13 ::
      (packed 0 strings).map fun c => if c = 0 then 13 else c) fresh true junk) strings := by
  have hhas := filled_has fresh (packed_no_return hno)
  rw [parse_eq, parseNewMacros2]
  generalize (fresh.filled _).closeLines = b at hhas
  have hfits := h.fits
  have hslots := h.slots
  have hall : b.bytesFrom 0 = packed 0 strings := @bytesFrom_eq b [] _ hhas
  have hscan := @scanIndex_packed strings (disposemacros m₀).index 1 0
    (List.length_pos_iff.mp (by rw [hslots]; exact Nat.succ_pos 119)) h.noNul
  refine fixMacros_holds hslots h.noNul hfits rfl hhas ?_ fun i h0 hi => ?_
  · change Function.update (scanIndex (disposemacros m₀).index 1 0 (b.bytesFrom 0).dropLast)
      0 (short b.size) 0 = b.size
    rw [Function.update_self, hhas.1]
    exact short_length hfits
  · have hend := start_le 0 (hslots ▸ hi : i < strings.length)
    change Function.update (scanIndex (disposemacros m₀).index 1 0 (b.bytesFrom 0).dropLast)
      0 (short b.size) (i : Int) = _
    rw [Function.update_of_ne (by omega), hall, hscan i, if_pos ⟨h0, hi, by omega⟩, Nat.zero_add,
      Nat.add_sub_cancel]
    exact short_length (Nat.le_trans hend hfits)

/-- The same calls keep two stores with the same strings alike. -/
theorem setMacros_holds (calls : List (Int × List UInt8)) :
    ∀ {m m' : NewMacroInfo} {strings : List (List UInt8)}, Holds m strings → Holds m' strings →
      CallsFine m calls → ∃ strings', Holds (setMacros m calls) strings' ∧
        Holds (setMacros m' calls) strings' := by
  induction calls with
  | nil => exact fun h h' _ => ⟨_, h, h'⟩
  | cons call calls ih =>
    intro m m' strings h h' ⟨hnul, hfine, hrest⟩
    obtain ⟨n, s⟩ := call
    have hfine' : CallFine m' n s := hfine.same h h'
    obtain ⟨k, rfl⟩ := Int.eq_ofNat_of_zero_le hfine.1
    have hk : k < strings.length := by
      have := hfine.2.1
      rw [h.slots]
      omega
    exact ih (setMacro_holds h hk hnul hfine) (setMacro_holds h' hk hnul hfine') hrest

/-- A store that is saved and read back into any other gives the same macros, and goes on
as the original under every row of fine calls. -/
theorem macro_file_round_trip (h : MacroRun CallFine m) (m₀ : NewMacroInfo) (fresh : Block)
    (junk : ℕ → UInt8) : ∃ file, saveMacros m = some file ∧
      ∀ calls, CallsFine m calls →
        (∀ n room, (getMacro (setMacros (parseMacroFile m₀ file fresh true junk) calls) n room).1 =
          (getMacro (setMacros m calls) n room).1) ∧
        saveMacros (setMacros (parseMacroFile m₀ file fresh true junk) calls) =
          saveMacros (setMacros m calls) := by
  obtain ⟨strings, hholds, hno⟩ := run_holds h
  refine ⟨_, saveMacros_eq hholds, fun calls hcalls => ?_⟩
  have hread := parse_holds hholds hno m₀ fresh junk
  obtain ⟨strings', hthis, hother⟩ := setMacros_holds calls hholds hread hcalls
  exact ⟨same_macros hthis hother, (saveMacros_eq hother).trans (saveMacros_eq hthis).symm⟩

end RoundTrip

section Defect

/-- A block of zeros; a string outside of it has `wild` characters. -/
def zeroBlock (wild : ℕ) : Block where
  size := 0
  mem := fun _ => 0
  wild := fun _ => wild

def emptyStore : NewMacroInfo where
  index := fun _ => 0
  handle := none

def freshMacros : NewMacroInfo := setupNewMacros emptyStore (zeroBlock 0)

/-- The store whose first slot has a string of 32767 characters. -/
def largeMacros : NewMacroInfo := setMacro freshMacros 0 (List.replicate 32767 120)

/-- `a` and `bc` in the slots 0 and 1, read back from the file. -/
theorem two_macros_read_back :
    ∃ file, saveMacros (setMacros freshMacros [(0, [97]), (1, [98, 99])]) = some file ∧
      (getMacro (parseMacroFile emptyStore file (zeroBlock 0) true fun _ => 0) 1 256).1 =
        some [98, 99, 0] := by
  have hrun : MacroRun CallFine (setMacros freshMacros [(0, [97]), (1, [98, 99])]) := by
    refine .set (.set (.setup emptyStore (zeroBlock 0)) (by decide) (by decide) ?_)
      (by decide) (by decide) ?_
    · refine ⟨by decide, by decide, fun b hb => ?_⟩
      obtain rfl := Option.some.inj hb
      decide +kernel
    · refine ⟨by decide, by decide, fun b hb => ?_⟩
      obtain rfl := Option.some.inj hb
      decide +kernel
  obtain ⟨file, hfile, hsame⟩ := macro_file_round_trip hrun emptyStore (zeroBlock 0) fun _ => 0
  refine ⟨file, hfile, ((hsame [] trivial).1 1 256).trans ?_⟩
  decide +kernel

theorem largeMacros_strings : (List.replicate NUM_MACROS ([] : List UInt8)).set 0
    (List.replicate 32767 120) = List.replicate 32767 120 :: List.replicate 119 [] := rfl

theorem largeMacros_saved : saveMacros largeMacros = some (33 :: 13 :: (packed 0
    (List.replicate 32767 120 :: List.replicate 119 [])).map fun c => if c = 0 then 13 else c) := by
  obtain ⟨b, hb, hhas⟩ := (@setMacro_stores freshMacros _
    (setup_holds emptyStore (zeroBlock 0)).stores 0 (by decide) (List.replicate 32767 120)
    (fun h => absurd (List.eq_of_mem_replicate h) (by decide))
    (Nat.le_of_eq List.length_replicate) (Nat.zero_le _)).block
  rw [largeMacros_strings] at hhas
  exact saveMacros_has hb hhas

/-- Behind a large string the offsets do not fit in the table, and what is read there is
what stands before the block. -/
theorem large_read {large : List UInt8} (hlarge : large.length = 32767) (hnul : 0 ∉ large)
    (hret : 13 ∉ large) (wild : ℕ) (h : wild < 256) : ∃ found : List UInt8,
    found.length = wild ∧ (getMacro (parseMacroFile emptyStore (33 :: 13 :: (packed 0
      (large :: List.replicate 119 [])).map fun c => if c = 0 then 13 else c)
      (zeroBlock wild) true fun _ => 0) 1 256).1 = some (found ++ [0]) := by
  have hno : ∀ s ∈ large :: List.replicate 119 [], 0 ∉ s ∧ 13 ∉ s := by
    intro s hs
    rcases List.mem_cons.mp hs with rfl | hs
    · exact ⟨hnul, hret⟩
    · rw [List.eq_of_mem_replicate hs]
      exact ⟨List.not_mem_nil, List.not_mem_nil⟩
  have hhas := filled_has (zeroBlock wild) (packed_no_return fun s hs => (hno s hs).2)
  have hstart : ∀ i : ℕ, i < 119 →
      start (0 : UInt8) (large :: List.replicate 119 []) (i+1) = 32768+i := by
    intro i hi
    rw [start_cons_succ, start_empty (Nat.le_of_lt hi), hlarge]
  have hsize : (packed (0 : UInt8) (large :: List.replicate 119 [])).length = 32887 := by
    rw [packed_cons, packed_empty, List.length_append, List.length_cons, List.length_replicate,
      hlarge]
  have hscan := @scanIndex_packed (large :: List.replicate 119 [])
    (disposemacros emptyStore).index 1 0 (List.cons_ne_nil _ _) (fun s hs => (hno s hs).1)
  have hcount : (large :: List.replicate 119 []).length = 120 := by
    rw [List.length_cons, List.length_replicate]
  generalize large :: List.replicate 119 [] = strings at *
  rw [parse_eq, parseNewMacros2]
  have hbefore : ∀ i : Int, i < 0 → ((zeroBlock wild).filled
      ((packed 0 strings).map fun c => if c = 0 then 13 else c)).closeLines.mem i = 0 := by
    intro i hi
    change (if 0 ≤ i ∧ _ ∧ _ then 0 else if 0 ≤ i ∧ _ then _ else (0 : UInt8)) = 0
    rw [if_neg (by omega), if_neg (by omega)]
  have hwild : ((zeroBlock wild).filled
      ((packed 0 strings).map fun c => if c = 0 then 13 else c)).closeLines.wild = fun _ => wild :=
    rfl
  generalize ((zeroBlock wild).filled _).closeLines = b at *
  have hall : b.bytesFrom 0 = packed 0 strings := @bytesFrom_eq b [] _ hhas
  have hsize' : short b.size = -32649 := by
    rw [hhas.1, hsize]
    decide
  rw [hall]
  generalize scanIndex (disposemacros emptyStore).index 1 0 (packed 0 strings).dropLast = scanned
    at hscan ⊢
  let index := Function.update scanned 0 (short b.size)
  have hzero : index 0 = -32649 := by
    change Function.update scanned 0 (short b.size) 0 = _
    rw [Function.update_self, hsize']
  have hwrap : ∀ i : ℕ, 0 < i → i < NUM_MACROS → index i = (i : Int)-32769 := by
    intro i h0 hi
    have hi' : i < 120 := hi
    have hplace := hstart (i-1) (by omega)
    have hpred : i-1+1 = i := by omega
    rw [hpred] at hplace
    change Function.update scanned 0 (short b.size) (i : Int) = _
    rw [Function.update_of_ne (by omega), hscan i, if_pos ⟨h0, hi, by omega⟩,
      Nat.add_sub_cancel, hplace,
      short, Int.bmod_def]
    split_ifs <;> omega
  have hwhole := @fixMacros_whole { index := index, handle := some b } b rfl
    (by dsimp only; rw [hzero]; exact hbefore _ (by decide))
    (fun i h0 hi => by
      have hi' : i < 120 := hi
      dsimp only
      rw [hwrap i h0 hi]
      omega)
  rw [hwhole]
  have hone : index 1 = -32768 := hwrap 1 Nat.one_pos (by decide)
  have hslot : slotOffset { index := Function.update index 0 (short (index 0)), handle := some b } 1
      = -32768 := hone
  have hlen : b.strlen (-32768) = wild := by
    rw [Block.strlen, if_neg (fun h => absurd h.1 (by decide)), hwild]
  rw [ getMacro, if_neg (by decide)]
  simp only [hslot, hlen]
  rw [if_neg (by omega)]
  refine ⟨b.prefixAt (-32768) wild, ?_, rfl⟩
  rw [Block.prefixAt, List.length_map, List.length_range]

/-- A store whose second offset does not fit in a `short` is not read back. -/
theorem macro_file_defect :
    MacroRun (fun _ n _ => 0 ≤ n ∧ n < NUM_MACROS) largeMacros ∧
    ∃ file, saveMacros largeMacros = some file ∧ ∃ wild,
      (getMacro (parseMacroFile emptyStore file (zeroBlock wild) true fun _ => 0) 1 256).1 ≠
        (getMacro largeMacros 1 256).1 := by
  refine ⟨?_, _, largeMacros_saved, ?_⟩
  · refine .set (.setup emptyStore (zeroBlock 0)) (fun h => ?_) (fun h => ?_) (by decide)
    · exact absurd (List.eq_of_mem_replicate h) (by decide)
    · exact absurd (List.eq_of_mem_replicate h) (by decide)
  · have hlarge := fun (c : UInt8) (hc : c ≠ 120) (h : c ∈ List.replicate 32767 120) =>
      hc (List.eq_of_mem_replicate h)
    obtain ⟨none, hnone, hread⟩ := large_read List.length_replicate (hlarge 0 (by decide))
      (hlarge 13 (by decide)) 0 (by decide)
    obtain ⟨one, hone, hread'⟩ := large_read List.length_replicate (hlarge 0 (by decide))
      (hlarge 13 (by decide)) 1 (by decide)
    by_contra hall
    rw [not_exists] at hall
    have hsame := (Decidable.not_not.mp (hall 0)).trans (Decidable.not_not.mp (hall 1)).symm
    rw [hread, hread'] at hsame
    have hlen := congrArg List.length (Option.some.inj hsame)
    rw [List.length_append, List.length_append, hnone, hone] at hlen
    exact absurd hlen (by decide)

end Defect

end Macros
