import MacSSH.Shorts
import MacSSH.PackedStrings

/-! The macros: the strings of all the slots in one block, and the table of where they
start. -/
namespace Macros

open VS PackedStrings

def NUM_MACROS : ℕ := 120

/-- A block of the Memory Manager. `mem` is the memory from its start on, the bytes around
the block included, and `wild` the length of a string that does not end in the block. -/
structure Block where
  size : Int
  mem : Int → UInt8
  wild : Int → ℕ

namespace Block

def SetHandleSize (b : Block) (size : Int) : Block := { b with size := size }

/-- Move `count` bytes from one place of the block to another. -/
def BlockMoveData (b : Block) (source dest count : Int) : Block :=
  { b with mem := fun i => if dest ≤ i ∧ i < dest+count then b.mem (i-dest+source) else b.mem i }

/-- Copy a string with its terminator. -/
def strcpy (b : Block) (dest : Int) (s : List UInt8) : Block :=
  { b with mem := fun i =>
      if dest ≤ i ∧ i ≤ dest+s.length then s.getD (i-dest).toNat 0 else b.mem i }

/-- The bytes from an offset to the end of the block. -/
def bytesFrom (b : Block) (offset : Int) : List UInt8 :=
  (List.range (b.size-offset).toNat).map fun i : ℕ => b.mem (offset+i)

def strlen (b : Block) (offset : Int) : ℕ :=
  if 0 ≤ offset ∧ 0 ∈ b.bytesFrom offset then ((b.bytesFrom offset).takeWhile (· ≠ 0)).length
  else b.wild offset

/-- The first bytes of the string at an offset. -/
def prefixAt (b : Block) (offset : Int) (length : ℕ) : List UInt8 :=
  (List.range length).map fun i : ℕ => b.mem (offset+i)

end Block

/-- The table of the offsets, the memory around it included, and the handle of the block. -/
structure NewMacroInfo where
  index : Int → Int
  handle : Option Block

/-- Empty strings for all the slots, in a new block. -/
def setupNewMacros (m : NewMacroInfo) (fresh : Block) : NewMacroInfo where
  index := fun i => if 0 ≤ i ∧ i < NUM_MACROS then i else m.index i
  handle := some { fresh with
    size := NUM_MACROS
    mem := fun i => if 0 ≤ i ∧ i < NUM_MACROS then 0 else fresh.mem i }

def disposemacros (m : NewMacroInfo) : NewMacroInfo where
  index := fun i => if 0 ≤ i ∧ i < NUM_MACROS then 0 else m.index i
  handle := none

/-- The first slot has no offset in the table. -/
def slotOffset (m : NewMacroInfo) (n : Int) : Int := if n ≠ 0 then m.index n else 0

/-- Replace the string of a slot; `b` is the block of the handle. -/
def setMacroIn (m : NewMacroInfo) (b : Block) (n : Int) (s : List UInt8) : NewMacroInfo :=
  let ohlen := b.size
  let offset := slotOffset m n
  let oslen := short (b.strlen offset)
  let nslen := short s.length
  let nhlen := ohlen-oslen+nslen
  let offset2 := offset+oslen+1
  let offset3 := offset+nslen+1
  let b := if nhlen > ohlen then b.SetHandleSize nhlen else b
  -- what is behind the old string is moved, and the offsets with it
  let b := if ohlen > offset2 then b.BlockMoveData offset2 offset3 (ohlen-offset2) else b
  let index := fun i : Int =>
    if ohlen > offset2 ∧ n+1 ≤ i ∧ i < NUM_MACROS then short (m.index i+(offset3-offset2))
    else m.index i
  { index := index, handle := some ((b.SetHandleSize nhlen).strcpy offset s) }

def setMacro (m : NewMacroInfo) (n : Int) (s : List UInt8) : NewMacroInfo :=
  match m.handle with
  | none => m
  | some b => setMacroIn m b n s

/-- The string of a slot, cut to `room`. Where it is cut the terminator goes into the
block, and `dest` gets none. -/
def getMacro (m : NewMacroInfo) (n room : Int) : Option (List UInt8) × NewMacroInfo :=
  if n < 0 ∨ n ≥ NUM_MACROS then (none, m)
  else match m.handle with
    | none => (none, m)
    | some b =>
      let offset := slotOffset m n
      let length := b.strlen offset
      if length ≥ room then
        (some (b.prefixAt offset (room-1).toNat), { m with handle := some { b with
          mem := Function.update b.mem (offset+(room-1)) 0 } })
      else (some (b.prefixAt offset length ++ [0]), m)

/-- The block holds these bytes. -/
def Block.Has (b : Block) (bytes : List UInt8) : Prop :=
  b.size = bytes.length ∧ ∀ i : ℕ, i < bytes.length → bytes[i]? = some (b.mem i)

/-- The store holds a string for every slot, and the table says where each starts. -/
structure Holds (m : NewMacroInfo) (strings : List (List UInt8)) : Prop where
  slots : strings.length = NUM_MACROS
  noNul : ∀ s ∈ strings, 0 ∉ s
  fits : (packed 0 strings).length ≤ 32767
  block : ∃ b, m.handle = some b ∧ b.Has (packed 0 strings)
  offsets : ∀ i : ℕ, 0 < i → i < NUM_MACROS → m.index i = start 0 strings i

/-- The block holds the strings of the slots, and perhaps others behind them, and the table
has the offsets as far as they fit in a `short`. -/
structure Stores (m : NewMacroInfo) (strings : List (List UInt8)) : Prop where
  slots : NUM_MACROS ≤ strings.length
  noNul : ∀ s ∈ strings, 0 ∉ s
  lengths : ∀ s ∈ strings.take NUM_MACROS, s.length ≤ 32767
  block : ∃ b, m.handle = some b ∧ b.Has (packed 0 strings)
  offsets : ∀ i : ℕ, 0 < i → i < NUM_MACROS → m.index i = short (start 0 strings i)

theorem short_length {n : ℕ} (h : n ≤ 32767) : short n = n := short_eq (by omega) (by omega)

/-- Adding to a value that has been cut off. -/
theorem short_add (i j : Int) : short (short i+j) = short (i+j) := Int.bmod_add_bmod

section Strings
variable {m : NewMacroInfo} {b : Block} {strings : List (List UInt8)}

theorem bytesFrom_eq {front rest : List UInt8} (h : b.Has (front ++ rest)) :
    b.bytesFrom front.length = rest := by
  obtain ⟨hsize, hmem⟩ := h
  rw [List.length_append] at hsize
  have hlen : (b.size-front.length).toNat = rest.length := by omega
  rw [Block.bytesFrom, hlen]
  apply List.ext_getElem
  · rw [List.length_map, List.length_range]
  · intro i hi hi'
    have hbyte := hmem (front.length+i) (by rw [List.length_append]; omega)
    rw [List.getElem?_append_right (by omega), Nat.add_sub_cancel_left,
      List.getElem?_eq_getElem hi'] at hbyte
    rw [List.getElem_map, List.getElem_range]
    exact (Option.some.inj hbyte).symm

theorem takeWhile_string {s rest : List UInt8} (h : 0 ∉ s) :
    (s ++ 0 :: rest).takeWhile (· ≠ 0) = s := by
  rw [List.takeWhile_append_of_pos]
  · rw [List.takeWhile_cons_of_neg (by simp), List.append_nil]
  · intro c hc
    have hne : c ≠ 0 := fun h0 => h (h0 ▸ hc)
    simpa using hne

/-- The string that starts behind `front`. -/
theorem strlen_eq {front s rest : List UInt8} (h : b.Has (front ++ (s ++ 0 :: rest)))
    (hs : 0 ∉ s) : b.strlen front.length = s.length := by
  have hmem : 0 ∈ s ++ 0 :: rest := List.mem_append_right _ List.mem_cons_self
  rw [Block.strlen, bytesFrom_eq h, if_pos ⟨Int.natCast_nonneg _, hmem⟩, takeWhile_string hs]

theorem prefixAt_eq {front rest : List UInt8} (h : b.Has (front ++ rest)) {length : ℕ}
    (hle : length ≤ rest.length) : b.prefixAt front.length length = rest.take length := by
  rw [← bytesFrom_eq h, Block.bytesFrom, ← List.map_take, List.take_range, Block.prefixAt]
  have hsize := h.1
  rw [List.length_append] at hsize
  congr 2
  omega

theorem Stores.slotOffset_eq (h : Stores m strings) {n : ℕ} (hn : n < NUM_MACROS)
    (hplace : start 0 strings n ≤ 32767) : slotOffset m n = start 0 strings n := by
  cases n with
  | zero => rw [start_zero]; rfl
  | succ n =>
    rw [slotOffset, if_pos (by omega), h.offsets (n+1) (Nat.succ_pos n) hn]
    exact short_length hplace

/-- The block around the string of a slot. -/
theorem Stores.split (h : Stores m strings) {n : ℕ} (hn : n < strings.length) :
    ∃ b, m.handle = some b ∧ b.Has (packed 0 (strings.take n) ++
      (strings[n] ++ 0 :: packed 0 (strings.drop (n+1)))) := by
  obtain ⟨b, hb, hhas⟩ := h.block
  exact ⟨b, hb, packed_split 0 hn ▸ hhas⟩

theorem Stores.length_le (h : Stores m strings) {n : ℕ} (hn : n < strings.length)
    (hslot : n < NUM_MACROS) : strings[n].length ≤ 32767 :=
  h.lengths _ (List.mem_take_iff_getElem.mpr ⟨n, by omega, rfl⟩)

/-- What `getmacro` gives is the string of the slot, cut to the room. -/
theorem Stores.getMacro_eq (h : Stores m strings) {n : ℕ} (hn : n < strings.length)
    (hslot : n < NUM_MACROS) (hplace : start 0 strings n ≤ 32767) (room : Int) :
    (getMacro m n room).1 = some (if strings[n].length ≥ room
      then strings[n].take (room-1).toNat else strings[n] ++ [0]) := by
  obtain ⟨b, hb, hhas⟩ := h.split hn
  have hno := h.noNul _ (List.getElem_mem hn)
  have hlen : b.strlen (start 0 strings n) = strings[n].length := strlen_eq hhas hno
  rw [ getMacro, if_neg (by omega), hb]
  simp only [h.slotOffset_eq hslot hplace, hlen]
  split_ifs with hroom
  · have hle : (room-1).toNat ≤ strings[n].length := by omega
    have hall := @prefixAt_eq b _ _ hhas (room-1).toNat (by rw [List.length_append]; omega)
    rw [List.take_append_of_le_length hle] at hall
    exact congrArg some hall
  · have hall := @prefixAt_eq b _ _ hhas strings[n].length (by rw [List.length_append]; omega)
    rw [List.take_left] at hall
    exact congrArg (fun s => some (s ++ [0])) hall

theorem has_front {front rest : List UInt8} (h : b.Has (front ++ rest)) {i : ℕ}
    (hi : i < front.length) : front[i]? = some (b.mem i) := by
  rw [← List.getElem?_append_left hi]
  exact h.2 i (by rw [List.length_append]; omega)

theorem has_rest {front rest : List UInt8} (h : b.Has (front ++ rest)) {j : ℕ}
    (hj : j < rest.length) : rest[j]? = some (b.mem (front.length+j)) := by
  have hbyte := h.2 (front.length+j) (by rw [List.length_append]; omega)
  rwa [List.getElem?_append_right (by omega), Nat.add_sub_cancel_left] at hbyte

/-- Moving what is behind a string and copying a new one over it. -/
theorem replace_has {front old new rest : List UInt8} (b' : Block)
    (h : b.Has (front ++ (old ++ 0 :: rest)))
    (hmoved : b'.mem = if rest = [] then b.mem else (b.BlockMoveData
      (front.length+old.length+1) (front.length+new.length+1) rest.length).mem) :
    ((b'.SetHandleSize (front.length+new.length+1+rest.length)).strcpy front.length new).Has
      (front ++ (new ++ 0 :: rest)) := by
  have hbehind : b.Has ((front ++ old ++ [0]) ++ rest) := by
    rw [List.append_assoc, List.append_assoc]
    exact h
  have hlen : (front ++ old ++ [0]).length = front.length+old.length+1 := by
    rw [List.length_append, List.length_append, List.length_singleton]
  refine ⟨?_, fun i hi => ?_⟩
  · change (front.length : Int)+new.length+1+rest.length = _
    rw [List.length_append, List.length_append, List.length_cons]
    omega
  rw [List.length_append, List.length_append, List.length_cons] at hi
  have hcell : ((b'.SetHandleSize (front.length+new.length+1+rest.length)).strcpy
      front.length new).mem i = if (front.length : Int) ≤ i ∧ i ≤ (front.length : Int)+new.length
        then new.getD ((i : Int)-front.length).toNat 0 else b'.mem i := rfl
  rw [hcell]
  rcases Nat.lt_or_ge i front.length with hfront | hfront
  · -- before the string nothing changes
    rw [List.getElem?_append_left hfront, if_neg (by omega), hmoved]
    have hkept := has_front h hfront
    split_ifs
    · exact hkept
    · change _ = some (if _ then _ else b.mem i)
      rw [if_neg (by omega)]
      exact hkept
  obtain ⟨j, rfl⟩ : ∃ j, i = front.length+j := ⟨i-front.length, by omega⟩
  rw [List.getElem?_append_right (by omega), Nat.add_sub_cancel_left]
  rcases Nat.lt_or_ge new.length j with hbehind' | hin
  · -- behind it are the bytes moved
    obtain ⟨k, rfl⟩ : ∃ k, j = new.length+1+k := ⟨j-new.length-1, by omega⟩
    have hk : k < rest.length := by omega
    have hne : rest ≠ [] := fun h0 => by rw [h0] at hk; exact absurd hk (Nat.not_lt_zero k)
    have hbyte := has_rest hbehind hk
    rw [hlen] at hbyte
    rw [if_neg (by omega), hmoved, if_neg hne, List.getElem?_append_right (by omega)]
    have hidx : new.length+1+k-new.length = k+1 := by omega
    rw [hidx, List.getElem?_cons_succ, hbyte]
    change _ = some (if _ then b.mem _ else _)
    rw [if_pos (by omega)]
    congr 2
    omega
  · rw [if_pos (by omega)]
    have hoff : (((front.length+j : ℕ) : Int)-front.length).toNat = j := by omega
    rw [hoff, List.getD_eq_getElem?_getD]
    rcases Nat.lt_or_ge j new.length with hlt | hge
    · rw [List.getElem?_append_left hlt, List.getElem?_eq_getElem hlt, Option.getD_some]
    · obtain rfl : j = new.length := by omega
      rw [List.getElem?_append_right (Nat.le_refl _), Nat.sub_self, List.getElem?_cons_zero,
        List.getElem?_eq_none (Nat.le_refl _), Option.getD_none]

/-- An offset behind the string moves by the difference of the lengths. -/
theorem moved_offset {offset old new place moved : ℕ} (h : moved+old = place+new) :
    (place : Int)+((offset : Int)+new+1-((offset : Int)+old+1)) = moved := by omega

/-- `setmacro` replaces the string of its slot in the block, and moves the offsets of the
slots behind it. -/
theorem setMacro_stores (h : Stores m strings) {n : ℕ} (hn : n < NUM_MACROS) {s : List UInt8}
    (hs : 0 ∉ s) (hshort : s.length ≤ 32767) (hplace : start 0 strings n ≤ 32767) :
    Stores (setMacro m n s) (strings.set n s) := by
  have hin := Nat.lt_of_lt_of_le hn h.slots
  obtain ⟨b, hb, hhas⟩ := h.split hin
  have hoffset := h.slotOffset_eq hn hplace
  have hstrlen : b.strlen (start 0 strings n) = strings[n].length :=
    strlen_eq hhas (h.noNul _ (List.getElem_mem hin))
  have holds' : short strings[n].length = strings[n].length :=
    short_length (h.length_le hin hn)
  have hnews : short s.length = s.length := short_length hshort
  have htotal : b.size = start 0 strings n+strings[n].length+1+
      (packed 0 (strings.drop (n+1))).length := by
    rw [hhas.1, start, List.length_append, List.length_append, List.length_cons]
    omega
  have hlast : NUM_MACROS-(n+1) ≤ (packed 0 (strings.drop (n+1))).length := by
    have hle := length_le_packed 0 (strings.drop (n+1))
    rw [List.length_drop] at hle
    have := h.slots
    omega
  rw [ setMacro, hb]
  refine ⟨?_, fun t ht => ?_, fun t ht => ?_, ⟨_, rfl, ?_⟩, fun i h0 hi => ?_⟩
  · rw [List.length_set]
    exact h.slots
  · rcases List.mem_or_eq_of_mem_set ht with hmem | rfl
    · exact h.noNul t hmem
    · exact hs
  · rw [List.take_set] at ht
    rcases List.mem_or_eq_of_mem_set ht with hmem | rfl
    · exact h.lengths t hmem
    · exact hshort
  · rw [packed_set 0 hin]
    simp only [hoffset, hstrlen, holds', hnews]
    have hnhlen : b.size-strings[n].length+s.length =
        (start 0 strings n : Int)+s.length+1+(packed 0 (strings.drop (n+1))).length := by omega
    rw [hnhlen]
    apply replace_has _ hhas
    have hgrow : ∀ c : Prop, ∀ _ : Decidable c, ∀ size,
        (if c then b.SetHandleSize size else b).mem = b.mem := by
      intro c _ size
      split_ifs <;> rfl
    by_cases hempty : packed 0 (strings.drop (n+1)) = []
    · rw [if_pos hempty, if_neg, hgrow]
      rw [htotal, hempty, List.length_nil]
      omega
    · have hpos := List.length_pos_iff.mpr hempty
      have hcount : b.size-((start 0 strings n : Int)+strings[n].length+1) =
          (packed 0 (strings.drop (n+1))).length := by omega
      rw [if_neg hempty, if_pos (by omega), hcount, Block.BlockMoveData, hgrow]
      rfl
  · simp only [setMacroIn, hoffset, hstrlen, holds', hnews, h.offsets i h0 hi]
    rcases Nat.lt_or_ge n i with hlt | hle
    · rw [if_pos ⟨by omega, by omega, by omega⟩, short_add,
        moved_offset (start_set_of_lt 0 hlt hin s)]
    · rw [if_neg (by omega), start_set_of_le 0 hle]

/-- The table says where the string of each slot starts. -/
structure Indexed (m : NewMacroInfo) (strings : List (List UInt8)) : Prop where
  stores : Stores m strings
  starts : ∀ i : ℕ, i < NUM_MACROS → slotOffset m i = start 0 strings i

/-- It does where the last start fits in a `short`. -/
theorem Stores.indexed (h : Stores m strings)
    (hlast : start 0 strings (NUM_MACROS-1) ≤ 32767) : Indexed m strings := by
  refine ⟨h, fun i hi => h.slotOffset_eq hi ?_⟩
  exact Nat.le_trans (start_mono 0 (Nat.le_sub_one_of_lt hi)) hlast

theorem Indexed.start_le (h : Indexed m strings) {i : ℕ} (hi : i < NUM_MACROS) :
    start 0 strings i ≤ 32767 := by
  have hplace := h.starts i hi
  cases i with
  | zero => rw [start_zero]; exact Nat.zero_le _
  | succ i =>
    rw [slotOffset, if_pos (by omega), h.stores.offsets (i+1) (Nat.succ_pos i) hi] at hplace
    have hrange := short_range (start 0 strings (i+1))
    omega

/-- A call of `setmacro` is for a slot, and what it leaves fits in 32767 bytes. -/
def CallFine (m : NewMacroInfo) (n : Int) (s : List UInt8) : Prop :=
  0 ≤ n ∧ n < NUM_MACROS ∧
    ∀ b, m.handle = some b → b.size-b.strlen (slotOffset m n)+s.length ≤ 32767

theorem Holds.start_le (h : Holds m strings) {i : ℕ} (hi : i < NUM_MACROS) :
    start 0 strings i ≤ 32767 :=
  Nat.le_trans (PackedStrings.start_le 0 (h.slots ▸ hi)) h.fits

theorem Holds.stores (h : Holds m strings) : Stores m strings := by
  refine ⟨Nat.le_of_eq h.slots.symm, h.noNul, fun s hs => ?_, h.block, fun i h0 hi => ?_⟩
  · obtain ⟨i, hi, rfl⟩ := List.getElem_of_mem (List.mem_of_mem_take hs)
    have := start_add_lt 0 hi
    have := h.fits
    omega
  · rw [h.offsets i h0 hi, short_length (h.start_le hi)]

/-- Strings that fit are held where they are stored. -/
theorem Stores.holds (h : Stores m strings) (hslots : strings.length = NUM_MACROS)
    (hfits : (packed 0 strings).length ≤ 32767) : Holds m strings := by
  refine ⟨hslots, h.noNul, hfits, h.block, fun i h0 hi => ?_⟩
  rw [h.offsets i h0 hi]
  exact short_length (Nat.le_trans (PackedStrings.start_le 0 (hslots ▸ hi)) hfits)

theorem getMacro_eq (h : Holds m strings) {n : ℕ} (hn : n < strings.length) (room : Int) :
    (getMacro m n room).1 = some (if strings[n].length ≥ room
      then strings[n].take (room-1).toNat else strings[n] ++ [0]) :=
  h.stores.getMacro_eq hn (h.slots ▸ hn) (h.start_le (h.slots ▸ hn)) room

/-- Where a call is fine, what it leaves fits. -/
theorem CallFine.fits (h : Holds m strings) {n : ℕ} (hn : n < strings.length) {s : List UInt8}
    (hfine : CallFine m n s) : (packed 0 (strings.set n s)).length ≤ 32767 := by
  have hslot : n < NUM_MACROS := h.slots ▸ hn
  obtain ⟨b, hb, hhas⟩ := h.stores.split hn
  have hstrlen : b.strlen (start 0 strings n) = strings[n].length :=
    strlen_eq hhas (h.noNul _ (List.getElem_mem hn))
  have hsize : b.size = (packed 0 strings).length := by rw [hhas.1, ← packed_split 0 hn]
  have hset := length_packed_set 0 hn s
  have hroom := hfine.2.2 b hb
  rw [h.stores.slotOffset_eq hslot (h.start_le hslot), hstrlen, hsize] at hroom
  omega

/-- `setmacro` sets the string of its slot and leaves the others. -/
theorem setMacro_holds (h : Holds m strings) {n : ℕ} (hn : n < strings.length)
    {s : List UInt8} (hs : 0 ∉ s) (hfine : CallFine m n s) :
    Holds (setMacro m n s) (strings.set n s) := by
  have hslot : n < NUM_MACROS := h.slots ▸ hn
  have hfits := hfine.fits h hn
  have hnew : s.length ≤ (packed 0 (strings.set n s)).length := by
    rw [packed_set 0 hn]
    simp only [List.length_append]
    omega
  apply (setMacro_stores h.stores hslot hs (by omega) (h.start_le hslot)).holds
  · rw [List.length_set, h.slots]
  · exact hfits

/-- Two stores with the same strings. -/
theorem same_macros {m' : NewMacroInfo} (h : Holds m strings) (h' : Holds m' strings)
    (n room : Int) : (getMacro m' n room).1 = (getMacro m n room).1 := by
  by_cases hout : n < 0 ∨ n ≥ NUM_MACROS
  · rw [ getMacro, getMacro, if_pos hout, if_pos hout]
  · obtain ⟨k, rfl⟩ := Int.eq_ofNat_of_zero_le (show 0 ≤ n by omega)
    have hk : k < strings.length := by
      rw [h.slots]
      omega
    rw [getMacro_eq h hk, getMacro_eq h' hk]

theorem CallFine.same {m' : NewMacroInfo} (h : Holds m strings) (h' : Holds m' strings)
    {n : Int} {s : List UInt8} (hfine : CallFine m n s) : CallFine m' n s := by
  refine ⟨hfine.1, hfine.2.1, fun b' hb' => ?_⟩
  obtain ⟨k, rfl⟩ := Int.eq_ofNat_of_zero_le hfine.1
  have hslot : k < NUM_MACROS := by
    have := hfine.2.1
    omega
  have hk : k < strings.length := h.slots ▸ hslot
  have hfits := hfine.fits h hk
  have hset := length_packed_set 0 hk s
  obtain ⟨c, hc, hhas⟩ := h'.stores.split hk
  obtain rfl : c = b' := Option.some.inj (hc.symm.trans hb')
  have hstrlen : c.strlen (start 0 strings k) = strings[k].length :=
    strlen_eq hhas (h'.noNul _ (List.getElem_mem hk))
  have hsize : c.size = (packed 0 strings).length := by rw [hhas.1, ← packed_split 0 hk]
  rw [h'.stores.slotOffset_eq hslot (h'.start_le hslot), hstrlen, hsize]
  omega

end Strings

end Macros
