import MacSSH.MacroParse
import Mathlib.Data.List.TakeWhile

/-! The memory that reading a file of macros uses, step for step. -/
namespace Macros

open VS PackedStrings

/-- A use of memory: a byte of the line buffer, a byte of the buffer of a macro, an entry of
the table, some bytes of a block, or a string in a block up to its terminator. -/
inductive Access
  | buffer (i : ℕ)
  | newMacro (i : ℕ)
  | index (i : Int)
  | block (size place count : Int)
  | string (b : Block) (offset : Int)

/-- The use stays inside of the buffer, table or block that it is meant for. -/
def Access.Inside : Access → Prop
  | buffer i => i < 300
  | newMacro i => i < 256
  | index i => 0 ≤ i ∧ i < NUM_MACROS
  | block size place count => 0 < count → 0 ≤ place ∧ place+count ≤ size
  | string b offset => 0 ≤ offset ∧ 0 ∈ b.bytesFrom offset

/-- All of these stay inside. -/
def AllInside (uses : List Access) : Prop := ∀ access ∈ uses, access.Inside

def readLineAccesses (pos : ℕ) : List UInt8 → List Access
  | [] => [.buffer pos]
  | c :: rest => .buffer pos :: if c = 13 then [] else readLineAccesses (pos+1) rest

-- the pointer is read, and moved on, before the count is looked at
def skipQuoteAccesses (buffer : ℕ → UInt8) (p : ℕ) : ℕ → List Access
  | 0 => [.buffer p]
  | n+1 => .buffer p :: if buffer p = 34 then [] else skipQuoteAccesses buffer (p+1) n

/-- `q` is the place in the buffer of the macro, where the terminator is written in the end. -/
def copyMacroAccesses (buffer : ℕ → UInt8) (p q : ℕ) : ℕ → List Access
  | 0 => [.buffer p, .newMacro q]
  | n+1 => .buffer p :: if buffer p = 34 then [.newMacro q]
      else .newMacro q :: copyMacroAccesses buffer (p+1) (q+1) n

/-- The entries of the table from `i` on. -/
def indexAccesses (i : ℕ) : List Access :=
  (List.range' i (NUM_MACROS-i)).map fun j : ℕ => .index j

def setMacroAccesses (m : NewMacroInfo) (n : ℕ) (s : List UInt8) : List Access :=
  match m.handle with
  | none => [.block 0 0 1]
  | some b =>
    let ohlen := b.size
    let offset := slotOffset m n
    let oslen := short (b.strlen offset)
    let nslen := short s.length
    let nhlen := ohlen-oslen+nslen
    let offset2 := offset+oslen+1
    let offset3 := offset+nslen+1
    let larger := if nhlen > ohlen then nhlen else ohlen
    .index n :: .string b offset ::
      (if ohlen > offset2 then .block larger offset2 (ohlen-offset2) ::
        .block larger offset3 (ohlen-offset2) :: indexAccesses (n+1) else []) ++
      [.block nhlen offset (s.length+1)]

def setupAccesses : List Access := .block NUM_MACROS 0 NUM_MACROS :: indexAccesses 0

def scanAccesses (size : Int) (i pos : ℕ) : List UInt8 → List Access
  | [] => []
  | c :: rest =>
    if i < NUM_MACROS then
      .block size pos 1 :: if c = 0 then .index i :: scanAccesses size (i+1) (pos+1) rest
        else scanAccesses size i (pos+1) rest
    else []

def fixMacrosAccesses (m : NewMacroInfo) : List Access :=
  match m.handle with
  | none => [.block 0 0 1]
  | some b =>
    let len := (closedBlock m b).1
    .index 0 :: .block b.size (m.index 0-1) 1 ::
      (if b.mem (m.index 0-1) ≠ 0 then [.block (m.index 0+1) (m.index 0) 1] else []) ++
      indexAccesses 1 ++
      match (List.range' 1 (NUM_MACROS-1)).find? fun i : ℕ => m.index i = 0 with
      | none => []
      | some num => .block (len+(NUM_MACROS-num)) len (NUM_MACROS-num) :: indexAccesses num

def parseNewMacros2Accesses (m : NewMacroInfo) (b : Block) : List Access :=
  .block b.size 0 b.size ::
    scanAccesses b.size 1 0 (b.closeLines.bytesFrom 0).dropLast ++ .index 0 ::
    fixMacrosAccesses (scanned m b.closeLines)

def parseNewMacrosAccesses (m : NewMacroInfo) (file : List UInt8) (fresh : Block)
    (granted : Bool) : List Access :=
  if granted then
    let b := fresh.filled (file.drop 2)
    .block b.size 0 b.size :: parseNewMacros2Accesses m b
  else setupAccesses

def parseOldMacrosAccesses (m : NewMacroInfo) (buffer : ℕ → UInt8) (pos : ℕ)
    (rest : List UInt8) : ℕ → List Access
  | 0 => []
  | k+1 =>
    let line := readLine buffer pos rest
    let quote := skipQuote line.1 0 line.2.1
    let s := (copyMacro line.1 quote.1 quote.2).takeWhile (· ≠ 0)
    readLineAccesses pos rest ++ skipQuoteAccesses line.1 0 line.2.1 ++
      copyMacroAccesses line.1 quote.1 0 quote.2 ++
      -- the string is measured and copied out of its buffer
      (List.range (s.length+1)).map .newMacro ++
      setMacroAccesses m (10-(k+1)) s ++
      if line.2.2.2 then []
      else parseOldMacrosAccesses (setMacro m (10-(k+1) : ℕ) s) line.1 0 line.2.2.1 k

def parseMacroFileAccesses (m : NewMacroInfo) (file : List UInt8) (fresh : Block)
    (granted : Bool) (junk : ℕ → UInt8) : List Access :=
  [.buffer 0, .buffer 1] ++
    if file.length < 2 then []
    else if file.take 2 = [33, 13] then
      indexAccesses 0 ++ parseNewMacrosAccesses (disposemacros m) file fresh granted
    else
      let buffer := Function.update (Function.update junk 0 (file.getD 0 0)) 1 (file.getD 1 0)
      parseOldMacrosAccesses m buffer 2 (file.drop 2) 10

/-- Every slot has the offset of a string that ends in the block. -/
def SlotsInside (m : NewMacroInfo) : Prop :=
  ∃ b, m.handle = some b ∧ ∀ i : ℕ, i < NUM_MACROS → (Access.string b (slotOffset m i)).Inside

/-- What stands between the first two quotes, the second of which may be the byte behind
the line; without one that byte is in the text. -/
def quoted (line : List UInt8) (behind : UInt8) : List UInt8 :=
  if 34 ∈ line then ((line.dropWhile (· ≠ 34)).tail ++ [behind]).takeWhile (· ≠ 34) else []

/-- The quoted text ends with a quote. -/
def Closed (line : List UInt8) (behind : UInt8) : Prop :=
  34 ∈ line ∧ 34 ∈ (line.dropWhile (· ≠ 34)).tail ++ [behind]

/-- A line whose text fits in its buffer, and that fits in the line buffer, with one byte
behind it, or two where the text does not end with a quote. -/
def LineFits (line : List UInt8) (behind : UInt8) : Prop :=
  line.length < 300 ∧ (Closed line behind ∨ line.length < 299) ∧
    (quoted line behind).length < 256

/-- The bytes of the buffer from `p` on. -/
def bytesOf (buffer : ℕ → UInt8) (p : ℕ) : ℕ → List UInt8
  | 0 => []
  | n+1 => buffer p :: bytesOf buffer (p+1) n

/-- The lines that are read, each with the byte of the buffer behind it. -/
def linesRead (buffer : ℕ → UInt8) (pos : ℕ) (rest : List UInt8) : ℕ → List (List UInt8 × UInt8)
  | 0 => []
  | k+1 =>
    let line := readLine buffer pos rest
    (bytesOf line.1 0 line.2.1, line.1 line.2.1) ::
      if line.2.2.2 then [] else linesRead line.1 0 line.2.2.1 k

section Uses
variable {use : Access} {uses more : List Access}

theorem allInside_cons : AllInside (use :: uses) ↔ use.Inside ∧ AllInside uses :=
  List.forall_mem_cons

theorem allInside_append : AllInside (uses ++ more) ↔ AllInside uses ∧ AllInside more :=
  List.forall_mem_append

theorem allInside_nil : AllInside [] := fun _ h => absurd h List.not_mem_nil

theorem indexAccesses_inside (i : ℕ) : AllInside (indexAccesses i) := by
  intro access h
  obtain ⟨j, hj, rfl⟩ := List.mem_map.mp h
  obtain ⟨h1, h2⟩ := List.mem_range'_1.mp hj
  refine ⟨Int.natCast_nonneg j, ?_⟩
  omega

end Uses

section Line
variable {buffer : ℕ → UInt8}

theorem length_bytesOf (p n : ℕ) : (bytesOf buffer p n).length = n := by
  induction n generalizing p with
  | zero => rfl
  | succ n ih => rw [bytesOf, List.length_cons, ih]

theorem bytesOf_succ (p n : ℕ) :
    bytesOf buffer p (n+1) = bytesOf buffer p n ++ [buffer (p+n)] := by
  induction n generalizing p with
  | zero => rfl
  | succ n ih =>
    have hplace : p+1+n = p+(n+1) := by omega
    rw [bytesOf, ih, hplace]
    rfl

theorem drop_bytesOf (p : ℕ) {k n : ℕ} (h : k ≤ n) :
    (bytesOf buffer p n).drop k = bytesOf buffer (p+k) (n-k) := by
  induction k generalizing p n with
  | zero => rfl
  | succ k ih =>
    obtain ⟨n, rfl⟩ : ∃ l, n = l+1 := ⟨n-1, by omega⟩
    rw [bytesOf, List.drop_succ_cons, ih (p+1) (by omega)]
    congr 1 <;> omega

theorem readLine_le (pos : ℕ) (rest : List UInt8) : pos ≤ (readLine buffer pos rest).2.1 := by
  induction rest generalizing pos buffer with
  | nil => exact Nat.le_refl pos
  | cons c rest ih =>
    rw [readLine]
    split_ifs
    · exact Nat.le_refl pos
    · exact Nat.le_of_succ_le (ih (pos+1))

/-- Reading a line stays in the buffer where the line and the byte behind it fit. -/
theorem readLine_inside (pos : ℕ) (rest : List UInt8) :
    AllInside (readLineAccesses pos rest) ↔ (readLine buffer pos rest).2.1 < 300 := by
  induction rest generalizing pos buffer with
  | nil =>
    rw [readLineAccesses, allInside_cons]
    exact and_iff_left allInside_nil
  | cons c rest ih =>
    rw [readLineAccesses, readLine, allInside_cons]
    split_ifs with hc
    · exact and_iff_left allInside_nil
    · rw [ih]
      refine and_iff_right_of_imp fun h => ?_
      exact Nat.lt_of_le_of_lt (Nat.le_of_succ_le (readLine_le (pos+1) rest)) h

/-- The pointer stops behind the first quote, or behind the byte at the end. -/
theorem skipQuote_eq (p n : ℕ) : skipQuote buffer p n =
    (p+n+1-((bytesOf buffer p n).dropWhile (· ≠ 34)).length,
      ((bytesOf buffer p n).dropWhile (· ≠ 34)).length) := by
  induction n generalizing p with
  | zero => rfl
  | succ n ih =>
    rw [skipQuote, bytesOf]
    by_cases hquote : buffer p = 34
    · rw [if_pos hquote, List.dropWhile_cons_of_neg (by simpa using hquote), List.length_cons,
        length_bytesOf]
      congr 1
      omega
    · rw [if_neg hquote, List.dropWhile_cons_of_pos (by simpa using hquote), ih]
      congr 1
      omega

theorem skipQuote_inside {p n : ℕ} (h : p+n < 300) :
    AllInside (skipQuoteAccesses buffer p n) := by
  induction n generalizing p with
  | zero => exact allInside_cons.mpr ⟨h, allInside_nil⟩
  | succ n ih =>
    rw [skipQuoteAccesses, allInside_cons]
    refine ⟨Nat.lt_of_le_of_lt (Nat.le_add_right p _) h, ?_⟩
    split_ifs
    · exact allInside_nil
    · exact ih (by omega)

theorem copyMacro_eq (p n : ℕ) :
    copyMacro buffer p n = (bytesOf buffer p n).takeWhile (· ≠ 34) := by
  induction n generalizing p with
  | zero => rfl
  | succ n ih =>
    rw [copyMacro, bytesOf]
    by_cases hquote : buffer p = 34
    · rw [if_pos hquote, List.takeWhile_cons_of_neg (by simpa using hquote)]
    · rw [if_neg hquote, List.takeWhile_cons_of_pos (by simpa using hquote), ih]

/-- Copying looks at the byte behind the text, and puts a terminator behind the copy. -/
theorem copyMacro_inside (p q n : ℕ) : AllInside (copyMacroAccesses buffer p q n) ↔
    p+(copyMacro buffer p n).length < 300 ∧ q+(copyMacro buffer p n).length < 256 := by
  induction n generalizing p q with
  | zero =>
    rw [copyMacroAccesses, allInside_cons, allInside_cons]
    exact and_congr_right fun _ => and_iff_left allInside_nil
  | succ n ih =>
    rw [copyMacroAccesses, copyMacro, allInside_cons]
    split_ifs
    · rw [allInside_cons]
      exact and_congr_right fun _ => and_iff_left allInside_nil
    · rw [allInside_cons, ih, List.length_cons]
      change p < 300 ∧ q < 256 ∧ _ ↔ _
      omega

/-- A line around its first quote. -/
theorem quote_split {line : List UInt8} (h : 34 ∈ line) :
    ∃ front text, line = front ++ 34 :: text ∧ line.dropWhile (· ≠ 34) = 34 :: text := by
  obtain ⟨front, text, rfl, hfront⟩ := List.eq_append_cons_of_mem h
  refine ⟨front, text, rfl, ?_⟩
  rw [List.dropWhile_append_of_pos, List.dropWhile_cons_of_neg (by simp)]
  intro c hc
  have hne : c ≠ 34 := fun h => hfront (h ▸ hc)
  simpa using hne

theorem no_quote {line : List UInt8} (h : 34 ∉ line) : line.dropWhile (· ≠ 34) = [] := by
  rw [List.dropWhile_eq_nil_iff]
  intro c hc
  have hne : c ≠ 34 := fun h0 => h (h0 ▸ hc)
  simpa using hne

/-- The text of a line in the terms of the line. -/
theorem copyMacro_quoted (n : ℕ) :
    copyMacro buffer (skipQuote buffer 0 n).1 (skipQuote buffer 0 n).2 =
      quoted (bytesOf buffer 0 n) (buffer n) := by
  have hall := @bytesOf_succ buffer 0 n
  have hlen := @length_bytesOf buffer 0 n
  rw [Nat.zero_add] at hall
  rw [skipQuote_eq, copyMacro_eq, quoted, Nat.zero_add]
  by_cases hquote : 34 ∈ bytesOf buffer 0 n
  · obtain ⟨front, text, hline, hbehind⟩ := quote_split hquote
    have hdrop := @drop_bytesOf buffer 0 (front.length+1) (n+1)
    rw [hall, hline, Nat.zero_add] at hdrop
    rw [hline, List.length_append, List.length_cons] at hlen
    have hplace : n+1-(34 :: text).length = front.length+1 := by
      rw [List.length_cons]
      omega
    have hcount : n+1-(front.length+1) = (34 :: text).length := by
      rw [List.length_cons]
      omega
    rw [if_pos hquote, hbehind, hplace, ← hcount, ← hdrop (by omega), List.append_assoc,
      List.drop_length_add_append]
    rfl
  · rw [if_neg hquote, no_quote hquote]
    rfl

/-- The text ends with a quote where there are fewer characters than what is left of the
line. -/
theorem closed_iff (line : List UInt8) (behind : UInt8) : Closed line behind ↔
    (quoted line behind).length < (line.dropWhile (· ≠ 34)).length := by
  rw [Closed, quoted]
  by_cases hquote : 34 ∈ line
  · obtain ⟨front, text, -, hbehind⟩ := quote_split hquote
    have hlen : (text ++ [behind]).length = (34 :: text).length := by
      rw [List.length_append, List.length_singleton, List.length_cons]
    rw [if_pos hquote, hbehind, List.tail_cons, ← hlen]
    constructor
    · rintro ⟨-, hmem⟩
      obtain ⟨copy, more, hsplit, hcopy⟩ := List.eq_append_cons_of_mem hmem
      rw [hsplit, List.takeWhile_append_of_pos, List.takeWhile_cons_of_neg (by simp)]
      · rw [List.append_nil, List.length_append, List.length_cons]
        omega
      · intro c hc
        have hne : c ≠ 34 := fun h => hcopy (h ▸ hc)
        simpa using hne
    · intro hlt
      refine ⟨hquote, ?_⟩
      by_contra hno
      rw [List.takeWhile_eq_self_iff.mpr] at hlt
      · exact absurd hlt (Nat.lt_irrefl _)
      · intro c hc
        have hne : c ≠ 34 := fun h => hno (h ▸ hc)
        simpa using hne
  · rw [if_neg hquote, no_quote hquote]
    constructor
    · intro h
      exact absurd h.1 hquote
    · intro h
      exact absurd h (Nat.lt_irrefl 0)

theorem length_quoted_le (line : List UInt8) (behind : UInt8) :
    (quoted line behind).length ≤ (line.dropWhile (· ≠ 34)).length := by
  rw [quoted]
  split_ifs with hquote
  · obtain ⟨front, text, -, hbehind⟩ := quote_split hquote
    rw [hbehind, List.tail_cons]
    have hle := (List.takeWhile_sublist (· ≠ 34) (l := text ++ [behind])).length_le
    rwa [List.length_append] at hle
  · exact Nat.zero_le _

/-- The loops over a line stay in their buffers exactly where it fits. -/
theorem line_inside (pos : ℕ) (rest : List UInt8) :
    let line := readLine buffer pos rest
    let quote := skipQuote line.1 0 line.2.1
    AllInside (readLineAccesses pos rest ++ skipQuoteAccesses line.1 0 line.2.1 ++
      copyMacroAccesses line.1 quote.1 0 quote.2) ↔
      LineFits (bytesOf line.1 0 line.2.1) (line.1 line.2.1) := by
  dsimp only
  rw [allInside_append, allInside_append, @readLine_inside buffer, copyMacro_inside,
    copyMacro_quoted, skipQuote_eq, LineFits, closed_iff, length_bytesOf]
  generalize readLine buffer pos rest = line
  have hle := length_quoted_le (bytesOf line.1 0 line.2.1) (line.1 line.2.1)
  have hleft : ((bytesOf line.1 0 line.2.1).dropWhile (· ≠ 34)).length ≤ line.2.1 := by
    have h := (List.dropWhile_sublist (· ≠ 34) (l := bytesOf line.1 0 line.2.1)).length_le
    rwa [length_bytesOf] at h
  dsimp only
  constructor
  · rintro ⟨⟨hline, -⟩, hbuffer, hmacro⟩
    refine ⟨hline, ?_, by omega⟩
    omega
  · rintro ⟨hline, hclosed, hmacro⟩
    refine ⟨⟨hline, skipQuote_inside (by omega)⟩, ?_, by omega⟩
    omega

end Line

end Macros
