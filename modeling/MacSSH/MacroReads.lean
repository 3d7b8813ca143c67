import MacSSH.MacroFile

/-! Reading the macros: what a caller's buffer gets, and what is left in the store. -/
namespace Macros

open VS PackedStrings

/-- A copy of the string of a slot in a new block; `granted` says whether there is memory
for it. -/
def getmacrointohandle (m : NewMacroInfo) (n : Int) (granted : Bool) : Option (List UInt8) :=
  if n < 0 ∨ n ≥ NUM_MACROS then none
  else match m.handle with
    | none => none
    | some b =>
      let offset := slotOffset m n
      let length := b.strlen offset
      if length = 0 ∨ granted = false then none else some (b.prefixAt offset length ++ [0])

/-- The string that `sendmacro` goes through: that of the session where it has one, or else
the global one. -/
def sendmacroString (sessmacros newMacros : NewMacroInfo) (n : Int) (granted granted' : Bool) :
    Option (List UInt8) :=
  match getmacrointohandle sessmacros n granted with
  | some s => some s
  | none => getmacrointohandle newMacros n granted'

/-- A row of calls of `getmacro`: what each writes, and the store behind them. -/
def getMacros (m : NewMacroInfo) : List (Int × Int) → List (Option (List UInt8)) × NewMacroInfo
  | [] => ([], m)
  | call :: calls =>
    let read := getMacro m call.1 call.2
    let rest := getMacros read.2 calls
    (read.1 :: rest.1, rest.2)

/-- The string of a slot. -/
def macroAt (m : NewMacroInfo) (n : Int) : List UInt8 :=
  match m.handle with
  | none => []
  | some b => b.prefixAt (slotOffset m n) (b.strlen (slotOffset m n))

/-- What a buffer with this room is to get. -/
def cutTo (room : Int) (s : List UInt8) : List UInt8 := s.take (room-1).toNat ++ [0]

/-- A row of reads gives every caller its string and leaves the store for those behind. -/
structure ReadsKeep (m : NewMacroInfo) (calls : List (Int × Int)) : Prop where
  dest : (getMacros m calls).1 = calls.map fun call => some (cutTo call.2 (macroAt m call.1))
  store : (getMacros m calls).2 = m
  laterRead : ∀ n room, (getMacro (getMacros m calls).2 n room).1 = (getMacro m n room).1
  laterCopy : ∀ n granted,
    getmacrointohandle (getMacros m calls).2 n granted = getmacrointohandle m n granted
  laterSend : ∀ other n granted granted',
    sendmacroString (getMacros m calls).2 other n granted granted' =
      sendmacroString m other n granted granted' ∧
    sendmacroString other (getMacros m calls).2 n granted granted' =
      sendmacroString other m n granted granted'
  laterSave : saveMacros (getMacros m calls).2 = saveMacros m

section Reads
variable {m : NewMacroInfo} {b : Block} {n room : Int}

theorem length_prefixAt (b : Block) (offset : Int) (length : ℕ) :
    (b.prefixAt offset length).length = length := by
  rw [Block.prefixAt, List.length_map, List.length_range]

theorem take_prefixAt (b : Block) (offset : Int) {count length : ℕ} (h : count ≤ length) :
    (b.prefixAt offset length).take count = b.prefixAt offset count := by
  rw [Block.prefixAt, ← List.map_take, List.take_range, Nat.min_eq_left h, Block.prefixAt]

theorem macroAt_eq (hb : m.handle = some b) (n : Int) :
    macroAt m n = b.prefixAt (slotOffset m n) (b.strlen (slotOffset m n)) := by
  rw [macroAt, hb]

theorem length_cutTo {s : List UInt8} (hroom : 1 ≤ room) (h : room ≤ s.length) :
    ((cutTo room s).length : Int) = room := by
  rw [cutTo, List.length_append, List.length_take, List.length_singleton]
  omega

/-- Where the string fits in the room it is copied whole. -/
theorem getMacro_fits (hb : m.handle = some b) (h0 : 0 ≤ n) (hn : n < NUM_MACROS)
    (hfits : (macroAt m n).length < room) :
    getMacro m n room = (some (cutTo room (macroAt m n)), m) := by
  rw [macroAt_eq hb, length_prefixAt] at hfits
  have hwhole : (macroAt m n).take (room-1).toNat = macroAt m n := by
    apply List.take_of_length_le
    rw [macroAt_eq hb, length_prefixAt]
    omega
  rw [cutTo, hwhole, macroAt_eq hb, getMacro, if_neg (by omega), hb]
  dsimp only
  rw [if_neg (by omega)]

/-- Where it does not, the buffer gets the first characters and no terminator, which goes
into the store instead. -/
theorem getMacro_cut (hb : m.handle = some b) (h0 : 0 ≤ n) (hn : n < NUM_MACROS)
    (hcut : room ≤ (macroAt m n).length) :
    getMacro m n room = (some ((macroAt m n).take (room-1).toNat), { m with handle := some { b with
      mem := Function.update b.mem (slotOffset m n+(room-1)) 0 } }) := by
  rw [macroAt_eq hb, length_prefixAt] at hcut
  rw [macroAt_eq hb, take_prefixAt _ _ (by omega), getMacro, if_neg (by omega), hb]
  dsimp only
  rw [if_pos hcut]

/-- A single read is right exactly where the string fits. -/
theorem getMacro_right_iff (hb : m.handle = some b) (h0 : 0 ≤ n) (hn : n < NUM_MACROS)
    (hroom : 1 ≤ room) : (getMacro m n room).1 = some (cutTo room (macroAt m n)) ↔
      (macroAt m n).length < room := by
  constructor
  · intro hright
    by_contra hcut
    rw [getMacro_cut hb h0 hn (by omega)] at hright
    have hlen := congrArg List.length (Option.some.inj hright)
    have hwhole := @length_cutTo _ (macroAt m n) hroom (by omega)
    rw [List.length_take] at hlen
    omega
  · intro hfits
    rw [getMacro_fits hb h0 hn hfits]

/-- The store is left as it is by calls whose strings fit. -/
theorem getMacros_fit (hb : m.handle = some b) (calls : List (Int × Int))
    (hcalls : ∀ call ∈ calls, 0 ≤ call.1 ∧ call.1 < NUM_MACROS ∧ 1 ≤ call.2)
    (hfits : ∀ call ∈ calls, (macroAt m call.1).length < call.2) :
    getMacros m calls = (calls.map fun call => some (cutTo call.2 (macroAt m call.1)), m) := by
  induction calls with
  | nil => rfl
  | cons call calls ih =>
    obtain ⟨h0, hn, -⟩ := hcalls call List.mem_cons_self
    have hread := getMacro_fits hb h0 hn (hfits call List.mem_cons_self)
    have hrest := ih (fun c hc => hcalls c (List.mem_cons_of_mem _ hc))
      fun c hc => hfits c (List.mem_cons_of_mem _ hc)
    rw [ getMacros, hread]
    dsimp only
    rw [hrest, List.map_cons]

/-- Callers that all get their strings have room for them. -/
theorem fits_of_getMacros (hb : m.handle = some b) (calls : List (Int × Int))
    (hcalls : ∀ call ∈ calls, 0 ≤ call.1 ∧ call.1 < NUM_MACROS ∧ 1 ≤ call.2)
    (hright : (getMacros m calls).1 =
      calls.map fun call => some (cutTo call.2 (macroAt m call.1))) :
    ∀ call ∈ calls, (macroAt m call.1).length < call.2 := by
  induction calls with
  | nil => exact fun call hcall => absurd hcall List.not_mem_nil
  | cons call calls ih =>
    obtain ⟨h0, hn, hroom⟩ := hcalls call List.mem_cons_self
    rw [ getMacros, List.map_cons] at hright
    obtain ⟨hhead, htail⟩ := List.cons.inj hright
    have hfirst := (getMacro_right_iff hb h0 hn hroom).mp hhead
    -- the first read leaves the store, so that the others are of the same one
    rw [getMacro_fits hb h0 hn hfirst] at htail
    intro c hc
    rcases List.mem_cons.mp hc with rfl | hc
    · exact hfirst
    · exact ih (fun c hc => hcalls c (List.mem_cons_of_mem _ hc)) htail c hc

/-- Reading keeps the store and gives every caller its string exactly where each string is
shorter than its room. -/
theorem reads_keep_iff (hb : m.handle = some b) (calls : List (Int × Int))
    (hcalls : ∀ call ∈ calls, 0 ≤ call.1 ∧ call.1 < NUM_MACROS ∧ 1 ≤ call.2) :
    ReadsKeep m calls ↔ ∀ call ∈ calls, (macroAt m call.1).length < call.2 := by
  constructor
  · intro h
    exact fits_of_getMacros hb calls hcalls h.dest
  · intro hfits
    have hall := getMacros_fit hb calls hcalls hfits
    have hstore : (getMacros m calls).2 = m := by rw [hall]
    constructor
    · rw [hall]
    · exact hstore
    · intro n room
      rw [hstore]
    · intro n granted
      rw [hstore]
    · intro other n granted granted'
      rw [hstore]
      exact ⟨rfl, rfl⟩
    · rw [hstore]

/-- The store whose first slot has the string `abc`. -/
def abcMacros : NewMacroInfo := setMacro freshMacros 0 [97, 98, 99]

/-- A macro that fits is read twice, and an empty one. -/
theorem macro_read_twice : ReadsKeep abcMacros [(0, 4), (1, 1), (0, 256)] := by
  apply (@reads_keep_iff abcMacros _ rfl [(0, 4), (1, 1), (0, 256)] (by decide)).mpr
  decide +kernel

/-- With room for two bytes the first character of `abc` comes without a terminator, and
the macro is `a` from then on. -/
theorem macro_cut_by_reading : ¬ ∀ (m : NewMacroInfo) (b : Block) (calls : List (Int × Int)),
    m.handle = some b → (∀ call ∈ calls, 0 ≤ call.1 ∧ call.1 < NUM_MACROS ∧ 1 ≤ call.2) →
      ReadsKeep m calls := by
  intro hall
  have hkeep := hall abcMacros _ [(0, 2)] rfl (by decide)
  have hlater := hkeep.laterRead 0 256
  revert hlater
  decide +kernel

end Reads

section Cut
variable {m : NewMacroInfo} {strings : List (List UInt8)}

end Cut

end Macros
