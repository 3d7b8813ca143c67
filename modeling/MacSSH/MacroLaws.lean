import MacSSH.MacroSafety

/-! The macros as a row of strings of which each can be set by itself: the laws of
`setmacro` and `getmacro`, and the stores in which they hold. -/
namespace Macros

open VS PackedStrings

/-- The tables of two stores are the same, and so are the bytes of their blocks. -/
structure SameStore (m m' : NewMacroInfo) : Prop where
  index : ∀ i : ℕ, i < NUM_MACROS → m.index i = m'.index i
  block : ∃ b b', m.handle = some b ∧ m'.handle = some b' ∧ b.size = b'.size ∧
    ∀ i : ℕ, (i : Int) < b.size → b.mem i = b'.mem i

/-- What setting a slot is to do: the slot then has the string, the others keep theirs, a
string that is set in the same slot later leaves nothing of it, and the table still says
where the strings start. -/
structure SetLaws (m : NewMacroInfo) (n : ℕ) (v : List UInt8) : Prop where
  getSame : ∀ room : Int, v.length < room → (getMacro (setMacro m n v) n room).1 =
    some (v ++ [0])
  getOther : ∀ k : ℕ, k < NUM_MACROS → k ≠ n → ∀ room : Int,
    (getMacro (setMacro m n v) k room).1 = (getMacro m k room).1
  setAgain : ∀ w : List UInt8, 0 ∉ w → w.length < 32768 →
    SameStore (setMacro (setMacro m n v) n w) (setMacro m n w)
  indexed : ∃ strings, Indexed (setMacro m n v) strings

/-- With the new string the last offset still fits in the table; that of the last slot
itself does not move. -/
def CallFits (m : NewMacroInfo) (n : ℕ) (v : List UInt8) : Prop :=
  ∀ b, m.handle = some b → n+1 < NUM_MACROS →
    m.index (NUM_MACROS-1 : ℕ)-b.strlen (slotOffset m n)+v.length ≤ 32767

/-- The stores that are made empty, or read from a file, and changed by files and calls of
`setmacro` with which the offsets fit. -/
inductive Reached : NewMacroInfo → Prop
  | setup (m : NewMacroInfo) (fresh : Block) : Reached (setupNewMacros m fresh)
  | parseNew (m : NewMacroInfo) (bytes : List UInt8) (fresh : Block) (junk : ℕ → UInt8) :
    NewFits bytes → Reached (parseMacroFile m (33 :: 13 :: bytes) fresh true junk)
  | parseOld {m : NewMacroInfo} (file : List UInt8) (fresh : Block) (granted : Bool)
    (junk : ℕ → UInt8) : Reached m → file.take 2 ≠ [33, 13] →
    (∀ strings, Indexed m strings → OldFits strings (oldLines file junk)) →
    Reached (parseMacroFile m file fresh granted junk)
  | set {m : NewMacroInfo} {n : ℕ} {v : List UInt8} : Reached m → n < NUM_MACROS → 0 ∉ v →
    v.length < 32768 → CallFits m n v → Reached (setMacro m n v)

section Laws
variable {m m' : NewMacroInfo} {strings : List (List UInt8)} {n : ℕ} {v : List UInt8}

/-- A call fits where the last start does behind it. -/
theorem callFits_iff (h : Indexed m strings) (hn : n < NUM_MACROS) :
    CallFits m n v ↔ start 0 (strings.set n v) (NUM_MACROS-1) ≤ 32767 := by
  have hin := Nat.lt_of_lt_of_le hn h.stores.slots
  obtain ⟨b, hb, hhas⟩ := h.stores.split hin
  have hstrlen : b.strlen (slotOffset m n) = strings[n].length := by
    rw [h.starts n hn]
    exact strlen_eq hhas (h.stores.noNul _ (List.getElem_mem hin))
  have hlast := h.starts (NUM_MACROS-1) (by decide)
  rw [slotOffset, if_pos (by decide)] at hlast
  rw [CallFits]
  rcases Nat.lt_or_ge n (NUM_MACROS-1) with hlt | hge
  · have hset := start_set_of_lt 0 hlt hin v
    constructor
    · intro hfits
      have hroom := hfits b hb (by omega)
      rw [hstrlen, hlast] at hroom
      omega
    · intro hfits b' hb' _
      obtain rfl := Option.some.inj (hb.symm.trans hb')
      rw [hstrlen, hlast]
      omega
  · rw [start_set_of_le 0 hge]
    refine iff_of_true (fun _ _ hmore => ?_) (h.start_le (by decide))
    omega

/-- Two stores of the same strings, with the same first entry in the table. -/
theorem Stores.same (h : Stores m strings) (h' : Stores m' strings)
    (hzero : m.index 0 = m'.index 0) : SameStore m m' := by
  constructor
  · intro i hi
    cases i with
    | zero => exact hzero
    | succ i => rw [h.offsets _ (Nat.succ_pos i) hi, h'.offsets _ (Nat.succ_pos i) hi]
  · obtain ⟨b, hb, hhas⟩ := h.block
    obtain ⟨b', hb', hhas'⟩ := h'.block
    refine ⟨b, b', hb, hb', hhas.1.trans hhas'.1.symm, fun i hi => ?_⟩
    rw [hhas.1] at hi
    have hbyte := hhas.2 i (by omega)
    rw [hhas'.2 i (by omega)] at hbyte
    exact (Option.some.inj hbyte).symm

/-- The first entry of the table is not an offset, and is left. -/
theorem setMacro_index_zero (m : NewMacroInfo) (n : ℕ) (v : List UInt8) :
    (setMacro m n v).index 0 = m.index 0 := by
  rw [ setMacro]
  cases m.handle with
  | none => rfl
  | some b =>
    change (setMacroIn m b n v).index 0 = _
    rw [setMacroIn]
    dsimp only
    rw [if_neg (by omega)]

/-- Where the call fits, the laws hold. -/
theorem setLaws_of_fits (h : Indexed m strings) (hn : n < NUM_MACROS) (hv : 0 ∉ v)
    (hshort : v.length ≤ 32767) (hfits : CallFits m n v) : SetLaws m n v := by
  have hplace := h.start_le hn
  have hset := setMacro_stores h.stores hn hv hshort hplace
  have hindexed := hset.indexed ((callFits_iff h hn).mp hfits)
  have hin := Nat.lt_of_lt_of_le hn hset.slots
  constructor
  · intro room hroom
    rw [hset.getMacro_eq hin hn (hindexed.start_le hn), List.getElem_set_self,
      if_neg (by omega)]
  · intro k hk hne room
    have hin' := Nat.lt_of_lt_of_le hk h.stores.slots
    have hin'' := Nat.lt_of_lt_of_le hk hset.slots
    rw [hset.getMacro_eq hin'' hk (hindexed.start_le hk),
      h.stores.getMacro_eq hin' hk (h.start_le hk), List.getElem_set_ne (Ne.symm hne)]
  · intro w hw hwshort
    have hagain := setMacro_stores hset hn hw (by omega) (hindexed.start_le hn)
    rw [List.set_set] at hagain
    apply hagain.same (setMacro_stores h.stores hn hw (by omega) hplace)
    calc (setMacro (setMacro m n v) n w).index 0
        = (setMacro m n v).index 0 := setMacro_index_zero _ n w
      _ = m.index 0 := setMacro_index_zero m n v
      _ = _ := (setMacro_index_zero m n w).symm
  · exact ⟨_, hindexed⟩

/-- A table that says where the strings start has room for the last start. -/
theorem fits_of_indexed (h : Indexed m strings) (hn : n < NUM_MACROS) (hv : 0 ∉ v)
    (hshort : v.length ≤ 32767) {strings' : List (List UInt8)}
    (hindexed : Indexed (setMacro m n v) strings') : CallFits m n v := by
  have hin := Nat.lt_of_lt_of_le hn h.stores.slots
  have hset := setMacro_stores h.stores hn hv hshort (h.start_le hn)
  have hlast := hset.offsets (NUM_MACROS-1) (by decide) (by decide)
  have hstarts := hindexed.starts (NUM_MACROS-1) (by decide)
  rw [slotOffset, if_pos (by decide), hlast] at hstarts
  -- the last start is at most 65534, and above 32767 the entry would be negative
  have hbound : start 0 (strings.set n v) (NUM_MACROS-1) ≤ 32767+v.length := by
    have hbefore := h.start_le (show NUM_MACROS-1 < NUM_MACROS by decide)
    rcases Nat.lt_or_ge n (NUM_MACROS-1) with hlt | hge
    · have := start_set_of_lt 0 hlt hin v
      omega
    · rw [start_set_of_le 0 hge]
      omega
  rw [callFits_iff h hn]
  rw [short, Int.bmod_def] at hstarts
  split_ifs at hstarts <;> omega

/-- An old file whose lines fit leaves a store of strings. -/
theorem parseOld_indexed (h : Indexed m strings) {file : List UInt8}
    (hold : file.take 2 ≠ [33, 13]) {junk : ℕ → UInt8}
    (hfits : OldFits strings (oldLines file junk)) (fresh : Block) (granted : Bool) :
    ∃ strings', Indexed (parseMacroFile m file fresh granted junk) strings' := by
  rw [parseMacroFile]
  by_cases hshort : file.length < 2
  · rw [if_pos hshort]
    exact ⟨strings, h⟩
  · rw [if_neg hshort, if_neg hold]
    obtain ⟨-, hstores⟩ := @parseOldMacros_fits 10 m
      (Function.update (Function.update junk 0 (file.getD 0 0)) 1 (file.getD 1 0)) 2 (file.drop 2)
      [] strings h.stores (Nat.le_refl 10) rfl fun s hs => absurd hs List.not_mem_nil
    exact ⟨_, (hstores hfits.1).indexed hfits.2⟩

/-- Every store reached has a string for each slot, and a table of where they start. -/
theorem reached_indexed (h : Reached m) : ∃ strings, Indexed m strings := by
  induction h with
  | setup m fresh => exact ⟨_, setup_indexed m fresh⟩
  | parseNew m bytes fresh junk hfits =>
    exact ⟨_, (parse_stores hfits.1 hfits.2.1 m fresh junk).indexed hfits.2.2⟩
  | parseOld file fresh granted junk _ hold hfits ih =>
    obtain ⟨strings, hindexed⟩ := ih
    exact parseOld_indexed hindexed hold (hfits strings hindexed) fresh granted
  | set _ hn hv hshort hfits ih =>
    obtain ⟨strings, hindexed⟩ := ih
    exact (setLaws_of_fits hindexed hn hv (by omega) hfits).indexed

/-- In every store reached the table says where the strings start, and a slot can be set by
itself exactly where the last offset still fits. -/
theorem macro_laws (h : Reached m) : (∃ strings, Indexed m strings) ∧
    ∀ (n : ℕ) (v : List UInt8), n < NUM_MACROS → 0 ∉ v → v.length < 32768 →
      (SetLaws m n v ↔ CallFits m n v) := by
  obtain ⟨strings, hindexed⟩ := reached_indexed h
  refine ⟨⟨strings, hindexed⟩, fun n v hn hv hshort => ⟨fun hlaws => ?_, fun hfits => ?_⟩⟩
  · obtain ⟨strings', hafter⟩ := hlaws.indexed
    exact fits_of_indexed hindexed hn hv (by omega) hafter
  · exact setLaws_of_fits hindexed hn hv (by omega) hfits

/-- The last slot and then the first, in an empty store. -/
theorem two_slots_set : SetLaws (setMacro freshMacros 119 [97]) 0 [98, 99] := by
  have hlast : Reached (setMacro freshMacros 119 [97]) := by
    apply @Reached.set freshMacros 119 [97] (.setup emptyStore (zeroBlock 0)) (by decide)
      (by decide) (by decide)
    intro b _ hn
    exact absurd hn (by decide)
  apply ((macro_laws hlast).2 0 [98, 99] (by decide) (by decide) (by decide)).mpr
  intro b hb _
  obtain rfl := Option.some.inj hb
  decide +kernel

/-- A string of 32767 characters in the first slot moves the second to 32768, which the
table has as -32768. -/
theorem large_macro_breaks_table : ¬ ∀ m : NewMacroInfo, Reached m →
    ∀ (n : ℕ) (v : List UInt8), n < NUM_MACROS → 0 ∉ v → v.length < 32768 → SetLaws m n v := by
  intro hall
  have hno : 0 ∉ List.replicate 32767 (120 : UInt8) := fun h =>
    absurd (List.eq_of_mem_replicate h) (by decide)
  have hlen : (List.replicate 32767 (120 : UInt8)).length = 32767 := List.length_replicate
  have hlaws := hall freshMacros (.setup emptyStore (zeroBlock 0)) 0 (List.replicate 32767 120)
    (by decide) hno (by omega)
  obtain ⟨strings, hindexed⟩ := hlaws.indexed
  have hfits := fits_of_indexed (setup_indexed emptyStore (zeroBlock 0)) (by decide) hno
    (by omega) hindexed
  rw [callFits_iff (setup_indexed emptyStore (zeroBlock 0)) (by decide)] at hfits
  have hset := start_set_of_lt (0 : UInt8) (show 0 < NUM_MACROS-1 by decide)
    (show 0 < (List.replicate NUM_MACROS ([] : List UInt8)).length by decide)
    (List.replicate 32767 120)
  have hslots : NUM_MACROS-1 = 119 := rfl
  rw [hslots] at hset hfits
  rw [start_empty (by decide), List.getElem_replicate, List.length_nil, hlen] at hset
  omega

end Laws

end Macros
