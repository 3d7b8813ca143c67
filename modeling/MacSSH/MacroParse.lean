import MacSSH.MacroFile

/-! What any file is read into: a string for each of its lines, and empty strings for the
slots that it has none for. -/
namespace Macros

open VS PackedStrings

/-- The lines of a file; a terminator closes a line as a return does. -/
def lines : List UInt8 → List (List UInt8)
  | [] => []
  | c :: rest =>
    if c = 0 ∨ c = 13 then [] :: lines rest
    else match lines rest with
      | [] => [[c]]
      | s :: more => (c :: s) :: more

/-- The strings of the slots, and those behind them. -/
def fileStrings (bytes : List UInt8) : List (List UInt8) :=
  lines bytes ++ List.replicate (NUM_MACROS-(lines bytes).length) []

/-- The byte that stands for `c` in the block. -/
def closing (c : UInt8) : UInt8 := if c = 13 then 0 else c

section Lines
variable {bytes : List UInt8} {c : UInt8}

theorem lines_end (h : c = 0 ∨ c = 13) : lines (c :: bytes) = [] :: lines bytes := by
  rw [lines, if_pos h]

theorem lines_last (h : ¬ (c = 0 ∨ c = 13)) : lines [c] = [[c]] := by
  rw [lines, if_neg h]
  rfl

theorem lines_more (h : ¬ (c = 0 ∨ c = 13)) {s : List UInt8} {more : List (List UInt8)}
    (hlines : lines bytes = s :: more) : lines (c :: bytes) = (c :: s) :: more := by
  rw [lines, if_neg h, hlines]

theorem lines_ne_nil (h : bytes ≠ []) : lines bytes ≠ [] := by
  cases bytes with
  | nil => exact absurd rfl h
  | cons c rest =>
    rw [lines]
    split_ifs
    · exact List.cons_ne_nil _ _
    · cases lines rest <;> exact List.cons_ne_nil _ _

theorem closing_zero : closing c = 0 ↔ c = 0 ∨ c = 13 := by
  unfold closing
  split_ifs with h
  · exact ⟨fun _ => .inr h, fun _ => rfl⟩
  · exact ⟨.inl, fun hc => hc.resolve_right h⟩

theorem lines_no_nul : ∀ bytes : List UInt8, ∀ s ∈ lines bytes, 0 ∉ s
  | [] => fun s hs => absurd hs List.not_mem_nil
  | c :: rest => by
    have ih := lines_no_nul rest
    intro s hs
    by_cases hc : c = 0 ∨ c = 13
    · rw [lines_end hc] at hs
      rcases List.mem_cons.mp hs with rfl | hs
      · exact List.not_mem_nil
      · exact ih s hs
    have hne : (0 : UInt8) ≠ c := fun h => hc (.inl h.symm)
    cases hrest : lines rest with
    | nil =>
      rw [lines, if_neg hc, hrest] at hs
      rw [List.mem_singleton.mp hs]
      exact List.not_mem_cons_of_ne_of_not_mem hne List.not_mem_nil
    | cons t more =>
      rw [lines_more hc hrest] at hs
      rw [hrest] at ih
      rcases List.mem_cons.mp hs with rfl | hs
      · exact List.not_mem_cons_of_ne_of_not_mem hne (ih t List.mem_cons_self)
      · exact ih s (List.mem_cons_of_mem t hs)

/-- The lines one behind another are the bytes of the file, closed at the end. -/
theorem packed_lines : ∀ bytes : List UInt8, packed 0 (lines bytes) = bytes.map closing ++
    if (bytes.map closing).getLast?.getD 0 = 0 then [] else [0]
  | [] => rfl
  | c :: rest => by
    have ih := packed_lines rest
    by_cases hc : c = 0 ∨ c = 13
    · rw [lines_end hc, packed_cons, ih, List.map_cons, closing_zero.mpr hc]
      cases rest with
      | nil => rfl
      | cons d rest => rw [List.map_cons, List.getLast?_cons_cons]; rfl
    have hsame : closing c = c := if_neg fun h => hc (.inr h)
    have hne : c ≠ 0 := fun h => hc (.inl h)
    cases rest with
    | nil =>
      rw [lines_last hc, List.map_cons, List.map_nil, hsame]
      exact (if_neg (c := ([c] : List UInt8).getLast?.getD 0 = 0) hne).symm ▸ rfl
    | cons d rest =>
      obtain ⟨s, more, hlines⟩ :=
        List.exists_cons_of_ne_nil (lines_ne_nil (List.cons_ne_nil d rest))
      have hmap : (c :: d :: rest).map closing = c :: (d :: rest).map closing := by
        rw [List.map_cons, hsame]
      rw [hlines, packed_cons] at ih
      rw [lines_more hc hlines, packed_cons, List.cons_append, ih, hmap, List.map_cons,
        List.getLast?_cons_cons]
      rfl

end Lines

section NewFormat
variable {m : NewMacroInfo} {b : Block} {bytes : List UInt8}

/-- The length that `fixMacros` goes on with, and the block, when the last string ends. -/
def closedBlock (m : NewMacroInfo) (b : Block) : Int × Block :=
  if b.mem (m.index 0-1) ≠ 0 then
    (m.index 0+1, { b.SetHandleSize (m.index 0+1) with mem := Function.update b.mem (m.index 0) 0 })
  else (m.index 0, b)

/-- The block with empty strings behind, for the slots from `num` on. -/
def repairedBlock (c : Int × Block) (num : ℕ) : Block :=
  { c.2.SetHandleSize (c.1+(NUM_MACROS-num)) with
    mem := fun i => if c.1 ≤ i ∧ i < c.1+(NUM_MACROS-num) then 0 else c.2.mem i }

/-- The two ways in which `fixMacros` ends. -/
theorem fixMacros_cases (hb : m.handle = some b) :
    ((∀ i : ℕ, 0 < i → i < NUM_MACROS → m.index i ≠ 0) ∧ fixMacros m =
      { index := Function.update m.index 0 (short (closedBlock m b).1)
        handle := some (closedBlock m b).2 }) ∨
    ∃ num : ℕ, 0 < num ∧ num < NUM_MACROS ∧ m.index num = 0 ∧
      (∀ i : ℕ, 0 < i → i < num → m.index i ≠ 0) ∧ fixMacros m =
        { index := Function.update (fun i : Int => if num ≤ i ∧ i < NUM_MACROS
            then short ((closedBlock m b).1+(i-num)) else m.index i) 0
              (short ((closedBlock m b).1+(NUM_MACROS-num)))
          handle := some (repairedBlock (closedBlock m b) num) } := by
  cases hfind : (List.range' 1 (NUM_MACROS-1)).find? fun i : ℕ => m.index i = 0 with
  | none =>
    left
    refine ⟨fun i h0 hi => ?_, ?_⟩
    · have hnone := List.find?_eq_none.mp hfind i (List.mem_range'_1.mpr ⟨h0, by omega⟩)
      simpa using hnone
    · rw [fixMacros, hb]
      dsimp only
      rw [hfind]
      rfl
  | some num =>
    right
    obtain ⟨hzero, hmem, hbefore⟩ := List.find?_range'_eq_some.mp hfind
    obtain ⟨h1, h2⟩ := List.mem_range'_1.mp hmem
    refine ⟨num, h1, by omega, by simpa using hzero, fun i h0 hi => ?_, ?_⟩
    · simpa using hbefore i h0 hi
    · rw [fixMacros, hb]
      dsimp only
      rw [hfind]
      rfl

theorem closeLines_has (fresh : Block) (bytes : List UInt8) :
    (fresh.filled bytes).closeLines.Has (bytes.map closing) := by
  have hsize : (fresh.filled bytes).size = bytes.length := rfl
  refine ⟨?_, fun i hi => ?_⟩
  · rw [List.length_map]
    exact hsize
  rw [List.length_map] at hi
  have hmem : (fresh.filled bytes).mem i = bytes[i] := by
    change (if (0 : Int) ≤ i ∧ (i : Int) < bytes.length then _ else _) = _
    rw [if_pos (by omega), Int.toNat_natCast, List.getD_eq_getElem?_getD,
      List.getElem?_eq_getElem hi]
    rfl
  rw [List.getElem?_map, List.getElem?_eq_getElem hi]
  change some (if bytes[i] = 13 then 0 else bytes[i]) = some (if 0 ≤ (i : Int) ∧
    (i : Int) < (fresh.filled bytes).size ∧ (fresh.filled bytes).mem i = 13 then 0
      else (fresh.filled bytes).mem i)
  rw [hmem, hsize]
  by_cases hret : bytes[i] = 13
  · rw [if_pos hret, if_pos ⟨by omega, by omega, hret⟩]
  · rw [if_neg hret, if_neg fun h => hret h.2.2]

/-- The last byte of the block, where there is one. -/
theorem has_last {l : List UInt8} (h : b.Has l) (hne : l ≠ []) :
    l.getLast? = some (b.mem (l.length-1)) := by
  have hpos := List.length_pos_iff.mpr hne
  have hplace : (l.length : Int)-1 = ((l.length-1 : ℕ) : Int) := by omega
  rw [List.getLast?_eq_getElem?, hplace]
  exact h.2 _ (by omega)

/-- A byte behind the block, for which it is made larger. -/
theorem has_behind {l more : List UInt8} {b' : Block} (h : b.Has l)
    (hsize : b'.size = l.length+more.length) (hsame : ∀ i : ℕ, i < l.length → b'.mem i = b.mem i)
    (hmore : ∀ i : ℕ, i < more.length → more[i]? = some (b'.mem (l.length+i))) :
    b'.Has (l ++ more) := by
  refine ⟨by rw [hsize, List.length_append]; rfl, fun i hi => ?_⟩
  rw [List.length_append] at hi
  rcases Nat.lt_or_ge i l.length with hlt | hge
  · rw [List.getElem?_append_left hlt, hsame i hlt]
    exact h.2 i hlt
  · rw [List.getElem?_append_right hge, hmore _ (by omega)]
    congr 2
    omega

theorem closedBlock_has {l : List UInt8} (h : b.Has l) (hne : l ≠ [])
    (hlen : m.index 0 = l.length) :
    let whole := l ++ if l.getLast?.getD 0 = 0 then [] else [0]
    (closedBlock m b).1 = whole.length ∧ (closedBlock m b).2.Has whole := by
  have hlast := has_last h hne
  dsimp only
  rw [hlast, Option.getD_some, closedBlock, hlen]
  by_cases hzero : b.mem (l.length-1) = 0
  · rw [if_neg (not_not.mpr hzero), if_pos hzero, List.append_nil]
    exact ⟨rfl, h⟩
  · rw [if_pos hzero, if_neg hzero]
    refine ⟨by rw [List.length_append]; rfl, has_behind h rfl (fun i hi => ?_) fun i hi => ?_⟩
    · exact Function.update_of_ne (by omega) ..
    · have hi0 : i = 0 := by
        rw [List.length_singleton] at hi
        omega
      rw [hi0]
      exact congrArg some (Function.update_self (l.length : Int) 0 b.mem).symm

theorem repairedBlock_has {c : Int × Block} {l : List UInt8} (h : c.2.Has l)
    (hlen : c.1 = l.length) {num : ℕ} (hnum : num ≤ NUM_MACROS) :
    (repairedBlock c num).Has (l ++ List.replicate (NUM_MACROS-num) 0) := by
  refine has_behind h ?_ (fun i hi => ?_) fun i hi => ?_
  · change c.1+(NUM_MACROS-num) = _
    rw [List.length_replicate]
    omega
  · change (if c.1 ≤ (i : Int) ∧ _ then _ else _) = _
    rw [if_neg (by omega)]
  · rw [List.length_replicate] at hi
    rw [List.getElem?_replicate, if_pos hi]
    change some 0 = some (if c.1 ≤ (l.length+i : Int) ∧ (l.length+i : Int) < c.1+(NUM_MACROS-num)
      then 0 else c.2.mem (l.length+i))
    rw [if_pos (by omega)]

end NewFormat

section Scanned
variable {index : Int → Int} {i pos : ℕ} {bytes : List UInt8}

/-- A last character gives no start. -/
theorem scanIndex_concat {c : UInt8} (hc : c ≠ 0) (l : List UInt8) : ∀ {index : Int → Int}
    {i pos : ℕ}, scanIndex index i pos (l ++ [c]) = scanIndex index i pos l := by
  induction l with
  | nil =>
    intro index i pos
    change (if i < NUM_MACROS then if c = 0 then _ else index else index) = index
    rw [if_neg hc]
    exact ite_self _
  | cons d l ih =>
    intro index i pos
    rw [List.cons_append, scanIndex, scanIndex, ih, ih]

/-- The starts of the lines are found. -/
theorem scanIndex_lines (hne : bytes ≠ []) (j : ℕ) :
    scanIndex index i pos (bytes.map closing).dropLast j =
      if i ≤ j ∧ j < NUM_MACROS ∧ j+1 < i+(lines bytes).length
      then short ((pos+start 0 (lines bytes) (j+1-i) : ℕ) : Int) else index j := by
  have hscan := @scanIndex_packed (lines bytes) index i pos (lines_ne_nil hne)
    (lines_no_nul bytes) j
  rw [packed_lines] at hscan
  rw [← hscan]
  have hmap : bytes.map closing ≠ [] := fun h => hne (List.map_eq_nil_iff.mp h)
  generalize bytes.map closing = l at hmap
  obtain ⟨front, c, rfl⟩ := (List.eq_nil_or_concat l).resolve_left hmap
  rw [List.concat_eq_append, List.getLast?_concat, Option.getD_some]
  by_cases hc : c = 0
  · rw [if_pos hc, List.append_nil]
  · rw [if_neg hc, List.dropLast_concat, List.dropLast_concat, scanIndex_concat hc]

end Scanned

/-- The table and the block when the strings have been looked for. -/
def scanned (m : NewMacroInfo) (b : Block) : NewMacroInfo where
  index := Function.update (scanIndex m.index 1 0 (b.bytesFrom 0).dropLast) 0 (short b.size)
  handle := some b

/-- What is in the table for a slot then. -/
def entry (bytes : List UInt8) (i : ℕ) : Int :=
  if i < (lines bytes).length then short (start 0 (lines bytes) i) else 0

section Parsed
variable {m : NewMacroInfo} {b : Block} {bytes : List UInt8}

/-- The first offset is set without the others. -/
theorem table_other {index : Int → Int} {len : Int} {i : ℕ} (h : 0 < i) :
    Function.update index 0 len i = index i := Function.update_of_ne (by omega) ..

theorem disposed_entry (m : NewMacroInfo) {i : ℕ} (hi : i < NUM_MACROS) :
    (disposemacros m).index i = 0 := by
  rw [disposemacros]
  dsimp only
  rw [if_pos (by omega)]

theorem scanned_length (h : b.Has (bytes.map closing)) :
    (scanned m b).index 0 = short bytes.length := by
  have hsize := h.1
  rw [List.length_map] at hsize
  rw [scanned]
  dsimp only
  rw [Function.update_self, hsize]

theorem scanned_entry (h : b.Has (bytes.map closing)) (hne : bytes ≠ []) {i : ℕ} (h0 : 0 < i)
    (hi : i < NUM_MACROS) : (scanned (disposemacros m) b).index i = entry bytes i := by
  have hall : b.bytesFrom 0 = bytes.map closing := @bytesFrom_eq b [] _ h
  rw [scanned]
  dsimp only
  rw [table_other h0, hall, scanIndex_lines hne, entry, Nat.zero_add, Nat.add_sub_cancel]
  by_cases hline : i < (lines bytes).length
  · rw [if_pos ⟨h0, hi, by omega⟩, if_pos hline]
  · rw [if_neg (by omega), if_neg hline]
    exact disposed_entry m hi

/-- The lines take the bytes of the file and perhaps a last terminator. -/
theorem length_lines_le : (packed 0 (lines bytes)).length ≤ bytes.length+1 := by
  rw [packed_lines, List.length_append, List.length_map]
  split_ifs <;> simp

/-- A file of no more than 32767 bytes is read into the strings of its lines and empty ones. -/
theorem parse_stores (hne : bytes ≠ []) (hlen : bytes.length ≤ 32767) (m : NewMacroInfo)
    (fresh : Block) (junk : ℕ → UInt8) :
    Stores (parseMacroFile m (33 :: 13 :: bytes) fresh true junk) (fileStrings bytes) := by
  have hhas := closeLines_has fresh bytes
  have hparse : parseMacroFile m (33 :: 13 :: bytes) fresh true junk =
      fixMacros (scanned (disposemacros m) (fresh.filled bytes).closeLines) :=
    parse_eq m fresh junk bytes
  rw [hparse]
  generalize (fresh.filled bytes).closeLines = b at hhas
  have hindex := fun i (h0 : 0 < i) hi => @scanned_entry m b bytes hhas hne i h0 hi
  have hzero : (scanned (disposemacros m) b).index 0 = (bytes.map closing).length := by
    rw [scanned_length hhas, List.length_map, short_length hlen]
  have hmap : bytes.map closing ≠ [] := fun h => hne (List.map_eq_nil_iff.mp h)
  obtain ⟨hclen, hchas⟩ := closedBlock_has (m := scanned (disposemacros m) b) hhas hmap hzero
  rw [← packed_lines] at hclen hchas
  have hcount : 0 < (lines bytes).length := List.length_pos_iff.mpr (lines_ne_nil hne)
  have hle := @length_lines_le bytes
  have hends : ∀ i (hi : i < (lines bytes).length),
      start 0 (lines bytes) i+(lines bytes)[i].length ≤ bytes.length := by
    intro i hi
    have := start_add_lt 0 hi
    omega
  -- the starts of the lines are told from the slots without a line
  have hentry : ∀ i, 0 < i → i < (lines bytes).length → entry bytes i ≠ 0 := by
    intro i h0 hi
    have hstart := le_start (0 : UInt8) (Nat.le_of_lt hi)
    have hend := hends i hi
    rw [entry, if_pos hi, short_length (by omega)]
    omega
  have hlengths : ∀ s ∈ lines bytes, s.length ≤ 32767 := by
    intro s hs
    obtain ⟨i, hi, rfl⟩ := List.getElem_of_mem hs
    have := hends i hi
    omega
  have hno : ∀ s ∈ fileStrings bytes, 0 ∉ s ∧ s.length ≤ 32767 := by
    intro s hs
    rcases List.mem_append.mp hs with hs | hs
    · exact ⟨lines_no_nul bytes s hs, hlengths s hs⟩
    · rw [List.eq_of_mem_replicate hs]
      exact ⟨List.not_mem_nil, Nat.zero_le _⟩
  have hslots : NUM_MACROS ≤ (fileStrings bytes).length := by
    rw [fileStrings, List.length_append, List.length_replicate]
    omega
  rcases fixMacros_cases (m := scanned (disposemacros m) b) rfl with
    ⟨hall, hfix⟩ | ⟨num, h0, hnum, hmissing, hbefore, hfix⟩
  · -- every slot has a line
    have hmany : NUM_MACROS ≤ (lines bytes).length := by
      by_contra hfew
      refine hall _ hcount (by omega) ?_
      rw [hindex _ hcount (by omega), entry, if_neg (Nat.lt_irrefl _)]
    have hstrings : fileStrings bytes = lines bytes := by
      rw [fileStrings, Nat.sub_eq_zero_of_le hmany, List.replicate_zero, List.append_nil]
    rw [hfix]
    refine ⟨hslots, fun s hs => (hno s hs).1, fun s hs => (hno s (List.mem_of_mem_take hs)).2,
      ⟨_, rfl, hstrings.symm ▸ hchas⟩, fun i h0 hi => ?_⟩
    dsimp only
    rw [table_other h0, hindex i h0 hi, entry, if_pos (by omega), hstrings]
  · have hfew : num = (lines bytes).length := by
      rw [hindex num h0 hnum] at hmissing
      rcases Nat.lt_trichotomy num (lines bytes).length with hlt | heq | hgt
      · exact absurd hmissing (hentry num h0 hlt)
      · exact heq
      · refine absurd ?_ (hbefore _ hcount hgt)
        rw [hindex _ hcount (by omega), entry, if_neg (Nat.lt_irrefl _)]
    have hpacked : packed 0 (fileStrings bytes) =
        packed 0 (lines bytes) ++ List.replicate (NUM_MACROS-num) 0 := by
      rw [fileStrings, packed_append, packed_empty, hfew]
    rw [hfix]
    refine ⟨hslots, fun s hs => (hno s hs).1, fun s hs => (hno s (List.mem_of_mem_take hs)).2,
      ⟨_, rfl, hpacked.symm ▸ repairedBlock_has hchas hclen (Nat.le_of_lt hnum)⟩,
      fun i h0 hi => ?_⟩
    dsimp only
    rw [table_other h0]
    rcases Nat.lt_or_ge i num with hlt | hge
    · rw [if_neg (by omega), hindex i h0 hi, entry, if_pos (hfew ▸ hlt), fileStrings,
        start_append_left 0 (by omega)]
    · obtain ⟨j, rfl⟩ : ∃ j, i = (lines bytes).length+j := ⟨i-num, by omega⟩
      rw [if_pos (by omega), hclen, fileStrings, start_append_right, start_empty (by omega), hfew]
      congr 1
      omega

end Parsed

end Macros
