import MacSSH.MacroAccess

/-! Where reading a file of macros stays in its buffers, and leaves every slot a string. -/
namespace Macros

open VS PackedStrings

section Slots
variable {m : NewMacroInfo} {strings : List (List UInt8)}

/-- A store of strings has one inside of the block for every slot exactly where the last
start fits in a `short`. -/
theorem Stores.slotsInside_iff (h : Stores m strings) :
    SlotsInside m ↔ start 0 strings (NUM_MACROS-1) ≤ 32767 := by
  constructor
  · rintro ⟨b, hb, hslots⟩
    -- the first start beyond would be negative in the table
    have hall : ∀ i : ℕ, i < NUM_MACROS → start 0 strings i ≤ 32767 := by
      intro i
      induction i with
      | zero =>
        intro _
        rw [start_zero]
        exact Nat.zero_le _
      | succ i ih =>
        intro hi
        have hbefore := ih (by omega)
        have hin : i < strings.length := Nat.lt_of_lt_of_le (by omega) h.slots
        have hstart := start_succ 0 hin
        have hlength := h.length_le hin (by omega)
        have hinside := (hslots (i+1) hi).1
        rw [slotOffset, if_pos (by omega), h.offsets (i+1) (Nat.succ_pos i) hi, short,
          Int.bmod_def] at hinside
        split_ifs at hinside <;> omega
    exact hall (NUM_MACROS-1) (by decide)
  · intro hlast
    have hindexed := h.indexed hlast
    obtain ⟨b, hb, hhas⟩ := h.block
    refine ⟨b, hb, fun i hi => ?_⟩
    have hin : i < strings.length := Nat.lt_of_lt_of_le hi h.slots
    rw [hindexed.starts i hi]
    refine ⟨Int.natCast_nonneg _, ?_⟩
    rw [packed_split 0 hin] at hhas
    rw [start, bytesFrom_eq hhas]
    exact List.mem_append_right _ List.mem_cons_self

/-- `setmacro` stays in the block, which is large enough before the bytes are moved. -/
theorem setMacro_inside (h : Stores m strings) {n : ℕ} (hn : n < NUM_MACROS) {s : List UInt8}
    (hshort : s.length ≤ 32767) (hplace : start 0 strings n ≤ 32767) :
    AllInside (setMacroAccesses m n s) := by
  have hin := Nat.lt_of_lt_of_le hn h.slots
  obtain ⟨b, hb, hhas⟩ := h.split hin
  have hoffset := h.slotOffset_eq hn hplace
  have hstrlen : b.strlen (start 0 strings n) = strings[n].length :=
    strlen_eq hhas (h.noNul _ (List.getElem_mem hin))
  have holds' := short_length (h.length_le hin hn)
  have hnews := short_length hshort
  have hsize : b.size = start 0 strings n+strings[n].length+1+
      (packed 0 (strings.drop (n+1))).length := by
    rw [hhas.1, start, List.length_append, List.length_append, List.length_cons]
    omega
  have hstring : (Access.string b (start 0 strings n)).Inside := by
    refine ⟨Int.natCast_nonneg _, ?_⟩
    rw [start, bytesFrom_eq hhas]
    exact List.mem_append_right _ List.mem_cons_self
  rw [setMacroAccesses, hb]
  simp only [hoffset, hstrlen, holds', hnews, allInside_cons, allInside_append, List.cons_append]
  have hindex : (Access.index n).Inside := ⟨Int.natCast_nonneg n, by omega⟩
  refine ⟨hindex, hstring, ?_, ?_, allInside_nil⟩
  · split_ifs with hmore hgrow
    · rw [allInside_cons, allInside_cons]
      refine ⟨fun _ => ?_, fun _ => ?_, indexAccesses_inside _⟩ <;> constructor <;> omega
    · rw [allInside_cons, allInside_cons]
      refine ⟨fun _ => ?_, fun _ => ?_, indexAccesses_inside _⟩ <;> constructor <;> omega
    · exact allInside_nil
  · intro _
    constructor <;> omega

end Slots

/-- The strings that the lines of an old file set. -/
def texts (lines : List (List UInt8 × UInt8)) : List (List UInt8) :=
  lines.map fun line => (quoted line.1 line.2).takeWhile (· ≠ 0)

section OldFormat
variable {m : NewMacroInfo} {buffer : ℕ → UInt8} {pos : ℕ} {rest : List UInt8}

/-- What is done for a line. -/
theorem parseOldMacros_succ {k : ℕ} (hk : k < 10) :
    parseOldMacros m buffer pos rest (k+1) =
      let line := readLine buffer pos rest
      let s := (quoted (bytesOf line.1 0 line.2.1) (line.1 line.2.1)).takeWhile (· ≠ 0)
      let m := setMacro m ((10-(k+1) : ℕ) : Int) s
      if line.2.2.2 then m else parseOldMacros m line.1 0 line.2.2.1 k := by
  have hslot : ((10-(k+1) : ℕ) : Int) = 10-(k+1) := by omega
  dsimp only
  rw [← copyMacro_quoted, hslot]
  rfl

theorem parseOldMacrosAccesses_succ (k : ℕ) :
    parseOldMacrosAccesses m buffer pos rest (k+1) =
      let line := readLine buffer pos rest
      let quote := skipQuote line.1 0 line.2.1
      let s := (quoted (bytesOf line.1 0 line.2.1) (line.1 line.2.1)).takeWhile (· ≠ 0)
      (readLineAccesses pos rest ++ skipQuoteAccesses line.1 0 line.2.1 ++
        copyMacroAccesses line.1 quote.1 0 quote.2) ++
      ((List.range (s.length+1)).map .newMacro ++ (setMacroAccesses m (10-(k+1)) s ++
      if line.2.2.2 then []
        else parseOldMacrosAccesses (setMacro m ((10-(k+1) : ℕ) : Int) s) line.1 0
          line.2.2.1 k)) := by
  dsimp only
  rw [parseOldMacrosAccesses, copyMacro_quoted]
  simp only [List.append_assoc]

theorem newMacro_inside {n : ℕ} (h : n ≤ 256) :
    AllInside ((List.range n).map Access.newMacro) := by
  intro access hmem
  obtain ⟨i, hi, rfl⟩ := List.mem_map.mp hmem
  exact Nat.lt_of_lt_of_le (List.mem_range.mp hi) h

theorem no_nul_takeWhile (text : List UInt8) : 0 ∉ text.takeWhile (· ≠ 0) := by
  intro h
  have hne := List.mem_takeWhile_imp h
  exact absurd rfl (of_decide_eq_true hne)

/-- The next slot of a store gets a short string. -/
theorem next_slot {front back : List (List UInt8)} (h : Stores m (front ++ back))
    (hslot : front.length < 10) (hfront : ∀ s ∈ front, s.length ≤ 255) {s : List UInt8}
    (hno : 0 ∉ s) (hs : s.length ≤ 255) : AllInside (setMacroAccesses m front.length s) ∧
      Stores (setMacro m front.length s) ((front ++ [s]) ++ back.tail) := by
  have hplace : start 0 (front ++ back) front.length ≤ 32767 := by
    have hle := length_packed_le 0 hfront
    rw [start, List.take_left]
    omega
  have hin : front.length < NUM_MACROS := Nat.lt_trans hslot (by decide)
  refine ⟨setMacro_inside h hin (by omega) hplace, ?_⟩
  have hset := setMacro_stores h hin hno (by omega) hplace
  have hslots := h.slots
  rw [List.length_append] at hslots
  obtain ⟨t, back, rfl⟩ := List.exists_cons_of_length_pos (show 0 < back.length by omega)
  rw [List.set_append_right _ _ (Nat.le_refl _), Nat.sub_self, List.set_cons_zero] at hset
  rw [List.append_assoc]
  exact hset

/-- The lines of an old file, of which `k` are still read, stay in their buffers exactly
where each fits, and their texts are then the strings of the slots in turn. -/
theorem parseOldMacros_fits : ∀ {k : ℕ} {m : NewMacroInfo} {buffer : ℕ → UInt8} {pos : ℕ}
    {rest : List UInt8} {front back : List (List UInt8)}, Stores m (front ++ back) → k ≤ 10 →
    front.length = 10-k → (∀ s ∈ front, s.length ≤ 255) →
    let lines := linesRead buffer pos rest k
    (AllInside (parseOldMacrosAccesses m buffer pos rest k) ↔
      ∀ line ∈ lines, LineFits line.1 line.2) ∧
    ((∀ line ∈ lines, LineFits line.1 line.2) → Stores (parseOldMacros m buffer pos rest k)
      (front ++ (texts lines ++ back.drop (texts lines).length))) := by
  intro k
  induction k with
  | zero =>
    intro m buffer pos rest front back h _ _ _
    refine ⟨iff_of_true allInside_nil fun line hline => ?_, fun _ => h⟩
    exact absurd hline List.not_mem_nil
  | succ k ih =>
    intro m buffer pos rest front back h hk hfront hshort
    have hline := @line_inside buffer pos rest
    rw [parseOldMacros_succ (by omega), parseOldMacrosAccesses_succ, linesRead]
    dsimp only at hline ⊢
    rw [allInside_append, hline, List.forall_mem_cons, ← hfront]
    generalize readLine buffer pos rest = line
    by_cases hfits : LineFits (bytesOf line.1 0 line.2.1) (line.1 line.2.1)
    · have hno := no_nul_takeWhile (quoted (bytesOf line.1 0 line.2.1) (line.1 line.2.1))
      have hs : ((quoted (bytesOf line.1 0 line.2.1) (line.1 line.2.1)).takeWhile
          (· ≠ 0)).length ≤ 255 := by
        have hle := (List.takeWhile_sublist (· ≠ 0)
          (l := quoted (bytesOf line.1 0 line.2.1) (line.1 line.2.1))).length_le
        have hquoted := hfits.2.2
        omega
      rw [texts, List.map_cons, ← texts]
      dsimp only
      generalize (quoted (bytesOf line.1 0 line.2.1) (line.1 line.2.1)).takeWhile (· ≠ 0) = s
        at hno hs ⊢
      obtain ⟨hinside, hset⟩ := next_slot h (by omega) hshort hno hs
      have hmore : ∀ t ∈ front ++ [s], t.length ≤ 255 := by
        intro t ht
        rcases List.mem_append.mp ht with ht | ht
        · exact hshort t ht
        · rw [List.mem_singleton.mp ht]
          exact hs
      rw [allInside_append, allInside_append]
      simp only [hfits, hinside, newMacro_inside (show s.length+1 ≤ 256 by omega), true_and]
      by_cases heof : line.2.2.2 = true
      · -- the file ends behind this line
        rw [if_pos heof, if_pos heof, if_pos heof]
        refine ⟨iff_of_true allInside_nil fun l hl => absurd hl List.not_mem_nil, fun _ => ?_⟩
        rw [List.append_assoc, ← List.drop_one] at hset
        exact hset
      · rw [if_neg heof, if_neg heof, if_neg heof]
        obtain ⟨hall, hstores⟩ := @ih _ line.1 0 line.2.2.1 _ _ hset (by omega)
          (by rw [List.length_append, List.length_singleton]; omega) hmore
        refine ⟨hall, fun hlines => ?_⟩
        have hthis := hstores hlines
        rw [List.append_assoc, ← List.drop_one, List.drop_drop] at hthis
        rw [List.length_cons, Nat.add_comm _ 1]
        exact hthis
    · refine ⟨iff_of_false (fun h => hfits h.1) fun h => hfits h.1, fun h => absurd h.1 hfits⟩

end OldFormat

/-- The byte before the length, cut to a `short`, is not the end of a string. -/
def LastOpen (bytes : List UInt8) : Prop :=
  (bytes.map closing).getD (short bytes.length-1).toNat 0 ≠ 0

instance (bytes : List UInt8) : Decidable (LastOpen bytes) := instDecidableNot

/-- The length with which `fixMacros` goes on. -/
def closedLength (bytes : List UInt8) : Int :=
  if LastOpen bytes then short bytes.length+1 else short bytes.length

/-- A file whose length fits in a `short`, and the start of whose last slot does. -/
def NewFits (bytes : List UInt8) : Prop :=
  bytes ≠ [] ∧ bytes.length ≤ 32767 ∧ start 0 (fileStrings bytes) (NUM_MACROS-1) ≤ 32767

/-- A longer file of which enough is left: either every slot has an entry before the end of
a string, or those before the first without one have it in what is kept, and the others fit
behind. -/
def LongFits (bytes : List UInt8) : Prop :=
  32767 < bytes.length ∧ 0 < short bytes.length ∧
    ((∀ i : ℕ, 0 < i → i < NUM_MACROS → 0 < entry bytes i ∧
        if LastOpen bytes then entry bytes i < closedLength bytes
        else 0 ∈ (bytes.map closing).drop (entry bytes i).toNat) ∨
      ∃ num : ℕ, 0 < num ∧ num < NUM_MACROS ∧ entry bytes num = 0 ∧
        closedLength bytes+(NUM_MACROS-1-num) ≤ 32767 ∧
        ∀ i : ℕ, 0 < i → i < num →
          0 < entry bytes i ∧ entry bytes i < closedLength bytes+(NUM_MACROS-num))

section NewFormat
variable {m : NewMacroInfo} {b : Block} {bytes : List UInt8} {offset : Int}

theorem short_le (n : ℕ) : short n ≤ n := by
  rw [short, Int.bmod_def]
  split_ifs <;> omega

/-- In a block that ends with a terminator every string does. -/
theorem string_inside_iff (hlast : b.mem (b.size-1) = 0) :
    (Access.string b offset).Inside ↔ 0 ≤ offset ∧ offset < b.size := by
  change 0 ≤ offset ∧ 0 ∈ b.bytesFrom offset ↔ _
  refine and_congr_right fun h0 => ?_
  rw [Block.bytesFrom, List.mem_map]
  constructor
  · rintro ⟨i, hi, -⟩
    rw [List.mem_range] at hi
    omega
  · intro hlt
    refine ⟨(b.size-1-offset).toNat, List.mem_range.mpr (by omega), ?_⟩
    have hplace : offset+(b.size-1-offset).toNat = b.size-1 := by omega
    rw [hplace, hlast]

theorem string_inside_has {text : List UInt8} (h : b.Has text) :
    (Access.string b offset).Inside ↔ 0 ≤ offset ∧ 0 ∈ text.drop offset.toNat := by
  refine and_congr_right fun h0 => ?_
  obtain ⟨n, rfl⟩ := Int.eq_ofNat_of_zero_le h0
  rw [Int.toNat_natCast]
  rcases Nat.lt_or_ge text.length n with hlt | hle
  · have hnone : (b.size-n).toNat = 0 := by
      rw [h.1]
      omega
    rw [Block.bytesFrom, hnone, List.drop_eq_nil_of_le (Nat.le_of_lt hlt)]
    rfl
  · have hfront : (text.take n).length = n := by
      rw [List.length_take, Nat.min_eq_left hle]
    have hfrom := @bytesFrom_eq b (text.take n) (text.drop n) (by rwa [List.take_append_drop])
    rw [hfront] at hfrom
    rw [hfrom]

theorem scanAccesses_inside (size : Int) (l : List UInt8) : ∀ {i pos : ℕ},
    (pos : Int)+l.length ≤ size → AllInside (scanAccesses size i pos l) := by
  induction l with
  | nil => exact fun _ => allInside_nil
  | cons c l ih =>
    intro i pos hsize
    rw [List.length_cons] at hsize
    have hnext : ((pos+1 : ℕ) : Int)+l.length ≤ size := by omega
    rw [scanAccesses]
    split_ifs with hi hc
    · refine allInside_cons.mpr ⟨fun _ => ⟨Int.natCast_nonneg pos, by omega⟩, ?_⟩
      exact allInside_cons.mpr ⟨⟨Int.natCast_nonneg i, by omega⟩, ih hnext⟩
    · exact allInside_cons.mpr ⟨fun _ => ⟨Int.natCast_nonneg pos, by omega⟩, ih hnext⟩
    · exact allInside_nil

/-- The length and the block behind the closing of the last string. -/
theorem closedBlock_scanned (h : b.Has (bytes.map closing)) (hpos : 0 < short bytes.length) :
    (b.mem (short bytes.length-1) ≠ 0 ↔ LastOpen bytes) ∧
      (closedBlock (scanned m b) b).1 = closedLength bytes := by
  have hlt := short_le bytes.length
  have hplace : short bytes.length-1 = ((short bytes.length-1).toNat : Int) := by omega
  have hbyte := h.2 (short bytes.length-1).toNat (by rw [List.length_map]; omega)
  have hopen : b.mem (short bytes.length-1) ≠ 0 ↔ LastOpen bytes := by
    rw [LastOpen, List.getD_eq_getElem?_getD, hbyte, Option.getD_some, ← hplace]
  refine ⟨hopen, ?_⟩
  rw [closedBlock, closedLength, scanned_length h]
  by_cases hend : LastOpen bytes
  · rw [if_pos (hopen.mpr hend), if_pos hend]
  · rw [if_neg (fun h => hend (hopen.mp h)), if_neg hend]

/-- `fixMacros` stays in the block where the length is above 0 in a `short`. -/
theorem fixMacros_inside (h : b.Has (bytes.map closing)) :
    AllInside (fixMacrosAccesses (scanned m b)) ↔ 0 < short bytes.length := by
  have hb : (scanned m b).handle = some b := rfl
  have hsize := h.1
  rw [List.length_map] at hsize
  rw [fixMacrosAccesses, hb]
  simp only [allInside_append, allInside_cons, scanned_length h, List.cons_append]
  have hle := short_le bytes.length
  constructor
  · rintro ⟨-, hlast, -⟩
    have hplace := hlast Int.one_pos
    omega
  · intro hpos
    obtain ⟨-, hlen⟩ := @closedBlock_scanned m b bytes h hpos
    have hlen0 : 0 ≤ closedLength bytes := by
      rw [closedLength]
      split_ifs <;> omega
    have hindex : (Access.index 0).Inside := ⟨Int.le_refl 0, by decide⟩
    refine ⟨hindex, fun _ => ⟨by omega, by omega⟩, ⟨?_, indexAccesses_inside 1⟩, ?_⟩
    · split_ifs
      · exact allInside_cons.mpr ⟨fun _ => ⟨by omega, by omega⟩, allInside_nil⟩
      · exact allInside_nil
    · rw [hlen]
      cases (List.range' 1 (NUM_MACROS-1)).find? fun i : ℕ => (scanned m b).index i = 0 with
      | none => exact allInside_nil
      | some num =>
        exact allInside_cons.mpr ⟨fun _ => ⟨hlen0, Int.le_refl _⟩, indexAccesses_inside num⟩

theorem closedLength_pos (hpos : 0 < short bytes.length) : 0 < closedLength bytes := by
  rw [closedLength]
  split_ifs <;> omega

/-- The strings that end in the block when its last string has been closed. -/
theorem closed_inside (h : b.Has (bytes.map closing)) (hpos : 0 < short bytes.length) :
    (Access.string (closedBlock (scanned m b) b).2 offset).Inside ↔
      0 ≤ offset ∧ if LastOpen bytes then offset < closedLength bytes
        else 0 ∈ (bytes.map closing).drop offset.toNat := by
  obtain ⟨hopen, -⟩ := @closedBlock_scanned m b bytes h hpos
  rw [closedBlock, closedLength, scanned_length h]
  by_cases hend : LastOpen bytes
  · rw [if_pos (hopen.mpr hend), if_pos hend, if_pos hend]
    generalize short bytes.length = len at hpos
    apply @string_inside_iff { b.SetHandleSize (len+1) with mem := Function.update b.mem len 0 }
    change Function.update b.mem len 0 (len+1-1) = 0
    rw [Int.add_sub_cancel, Function.update_self]
  · rw [if_neg (fun h => hend (hopen.mp h)), if_neg hend]
    exact string_inside_has h

/-- And when there are empty strings behind for the slots from `num` on. -/
theorem repaired_inside (h : b.Has (bytes.map closing)) (hpos : 0 < short bytes.length)
    {num : ℕ} (hnum : num < NUM_MACROS) :
    (Access.string (repairedBlock (closedBlock (scanned m b) b) num) offset).Inside ↔
      0 ≤ offset ∧ offset < closedLength bytes+(NUM_MACROS-num) := by
  obtain ⟨-, hlen⟩ := @closedBlock_scanned m b bytes h hpos
  have hlen0 := closedLength_pos hpos
  rw [← hlen] at hlen0 ⊢
  generalize closedBlock (scanned m b) b = c at hlen0 ⊢
  apply @string_inside_iff (repairedBlock c num) offset
  change (if c.1 ≤ c.1+(NUM_MACROS-num)-1 ∧ c.1+(NUM_MACROS-num)-1 < c.1+(NUM_MACROS-num)
    then 0 else _) = _
  rw [if_pos (by omega)]

theorem table_offset {index : Int → Int} {len : Int} {handle : Option Block} {i : ℕ}
    (h : 0 < i) :
    slotOffset { index := Function.update index 0 len, handle := handle } i = index i := by
  rw [slotOffset, if_pos (by omega)]
  exact table_other h

/-- The first string of the block ends. -/
theorem first_ends (hpos : 0 < short bytes.length) : if LastOpen bytes
    then 0 < closedLength bytes else 0 ∈ (bytes.map closing).drop (0 : Int).toNat := by
  split_ifs with hend
  · exact closedLength_pos hpos
  · have hlt := short_le bytes.length
    have hin : (short bytes.length-1).toNat < (bytes.map closing).length := by
      rw [List.length_map]
      omega
    rw [LastOpen, not_not, List.getD_eq_getElem?_getD, List.getElem?_eq_getElem hin,
      Option.getD_some] at hend
    exact List.mem_of_getElem hend

theorem ne_nil_of_long (hlong : 32767 < bytes.length) : bytes ≠ [] := by
  rintro rfl
  exact absurd hlong (Nat.not_lt_zero _)

/-- A table in which every slot has an entry is kept. -/
theorem long_whole_iff (h : b.Has (bytes.map closing)) (hlong : 32767 < bytes.length)
    (hpos : 0 < short bytes.length)
    (hall : ∀ i : ℕ, 0 < i → i < NUM_MACROS → (scanned (disposemacros m) b).index i ≠ 0) :
    SlotsInside
        { index := Function.update (scanned (disposemacros m) b).index 0
            (short (closedBlock (scanned (disposemacros m) b) b).1)
          handle := some (closedBlock (scanned (disposemacros m) b) b).2 } ↔
      LongFits bytes := by
  have hindex := fun i (h0 : 0 < i) hi =>
    @scanned_entry m b bytes h (ne_nil_of_long hlong) i h0 hi
  have hfirst := first_ends hpos
  constructor
  · rintro ⟨b', hb', hslots⟩
    refine ⟨hlong, hpos, .inl fun i h0 hi => ?_⟩
    have hinside := hslots i hi
    rw [table_offset h0, hindex i h0 hi, ← Option.some.inj hb', closed_inside h hpos] at hinside
    have hentry := hall i h0 hi
    rw [hindex i h0 hi] at hentry
    exact ⟨by omega, hinside.2⟩
  · rintro ⟨-, -, hfits | ⟨num, h0, hnum, hmissing, -⟩⟩
    · refine ⟨_, rfl, fun i hi => (closed_inside h hpos).mpr ?_⟩
      rcases Nat.eq_zero_or_pos i with rfl | h0
      · exact ⟨Int.le_refl 0, hfirst⟩
      · obtain ⟨hentry, hend⟩ := hfits i h0 hi
        rw [table_offset h0, hindex i h0 hi]
        exact ⟨Int.le_of_lt hentry, hend⟩
    · refine absurd hmissing ?_
      rw [← hindex num h0 hnum]
      exact hall num h0 hnum

/-- From the first slot without an entry on, the slots get new places behind the file. -/
theorem long_repaired_iff (h : b.Has (bytes.map closing)) (hlong : 32767 < bytes.length)
    (hpos : 0 < short bytes.length) {num : ℕ} (h0 : 0 < num) (hnum : num < NUM_MACROS)
    (hmissing : (scanned (disposemacros m) b).index num = 0)
    (hbefore : ∀ i : ℕ, 0 < i → i < num → (scanned (disposemacros m) b).index i ≠ 0) :
    SlotsInside
        { index := Function.update (fun i : Int => if num ≤ i ∧ i < NUM_MACROS
            then short ((closedBlock (scanned (disposemacros m) b) b).1+(i-num))
            else (scanned (disposemacros m) b).index i) 0
              (short ((closedBlock (scanned (disposemacros m) b) b).1+(NUM_MACROS-num)))
          handle := some (repairedBlock (closedBlock (scanned (disposemacros m) b) b) num) } ↔
      LongFits bytes := by
  have hindex := fun i (h0 : 0 < i) hi =>
    @scanned_entry m b bytes h (ne_nil_of_long hlong) i h0 hi
  obtain ⟨-, hlen⟩ := @closedBlock_scanned (disposemacros m) b bytes h hpos
  have hlen0 := closedLength_pos hpos
  have hshort := short_range bytes.length
  have hlen1 : closedLength bytes ≤ 32768 := by
    rw [closedLength]
    split_ifs <;> omega
  rw [hindex num h0 hnum] at hmissing
  rw [hlen]
  constructor
  · rintro ⟨b', hb', hslots⟩
    have hplaces : ∀ i : ℕ, 0 < i → i < NUM_MACROS → 0 ≤ (if num ≤ i then
        short (closedLength bytes+(i-num)) else entry bytes i) ∧ (if num ≤ i then
        short (closedLength bytes+(i-num)) else entry bytes i) <
          closedLength bytes+(NUM_MACROS-num) := by
      intro i hi0 hi
      have hinside := hslots i hi
      rw [table_offset hi0, ← Option.some.inj hb', repaired_inside h hpos hnum] at hinside
      rcases Nat.lt_or_ge i num with hlt | hge
      · rw [if_neg (by omega), hindex i hi0 hi] at hinside
        rwa [if_neg (by omega)]
      · rw [if_pos (by omega)] at hinside
        rwa [if_pos hge]
    refine ⟨hlong, hpos, .inr ⟨num, h0, hnum, hmissing, ?_, fun i hi0 hi => ?_⟩⟩
    · -- the last of the new places is not negative
      obtain ⟨hlast, -⟩ := hplaces (NUM_MACROS-1) (by decide) (by decide)
      have h120 : NUM_MACROS = 120 := rfl
      rw [if_pos (by omega), short, Int.bmod_def] at hlast
      split_ifs at hlast <;> omega
    · obtain ⟨hentry, hend⟩ := hplaces i hi0 (by omega)
      rw [if_neg (by omega)] at hentry hend
      have hne0 := hbefore i hi0 hi
      rw [hindex i hi0 (by omega)] at hne0
      exact ⟨by omega, hend⟩
  · rintro ⟨-, -, hfits | ⟨num', h0', hnum', hmissing', hroom, hfits⟩⟩
    · obtain ⟨hentry, -⟩ := hfits num h0 hnum
      omega
    · -- the slot without an entry is the first one
      have hsame : num' = num := by
        rcases Nat.lt_trichotomy num' num with hlt | heq | hgt
        · have hne0 := hbefore num' h0' hlt
          rw [hindex num' h0' hnum'] at hne0
          exact absurd hmissing' hne0
        · exact heq
        · obtain ⟨hentry, -⟩ := hfits num h0 hgt
          omega
      subst hsame
      refine ⟨_, rfl, fun i hi => (repaired_inside h hpos hnum).mpr ?_⟩
      rcases Nat.eq_zero_or_pos i with rfl | hi0
      · refine ⟨Int.le_refl 0, ?_⟩
        change 0 < _
        omega
      · rw [table_offset hi0]
        rcases Nat.lt_or_ge i num' with hlt | hge
        · obtain ⟨hentry, hend⟩ := hfits i hi0 hlt
          rw [if_neg (by omega), hindex i hi0 hi]
          exact ⟨Int.le_of_lt hentry, hend⟩
        · have hi' : (i : Int) ≤ NUM_MACROS-1 := by omega
          rw [if_pos (by omega), short_eq (by omega) (by omega)]
          constructor <;> omega

/-- Where a longer file leaves every slot a string. -/
theorem long_slots_iff (h : b.Has (bytes.map closing)) (hlong : 32767 < bytes.length)
    (hpos : 0 < short bytes.length) :
    SlotsInside (fixMacros (scanned (disposemacros m) b)) ↔ LongFits bytes := by
  rcases fixMacros_cases (m := scanned (disposemacros m) b) rfl with
    ⟨hall, hfix⟩ | ⟨num, h0, hnum, hmissing, hbefore, hfix⟩
  · rw [hfix]
    exact long_whole_iff h hlong hpos hall
  · rw [hfix]
    exact long_repaired_iff h hlong hpos h0 hnum hmissing hbefore

end NewFormat

/-- The lines of a file in the old format. -/
def oldLines (file : List UInt8) (junk : ℕ → UInt8) : List (List UInt8 × UInt8) :=
  linesRead (Function.update (Function.update junk 0 (file.getD 0 0)) 1 (file.getD 1 0)) 2
    (file.drop 2) 10

/-- Every line fits, and with their texts the start of the last slot fits in a `short`. -/
def OldFits (strings : List (List UInt8)) (lines : List (List UInt8 × UInt8)) : Prop :=
  (∀ line ∈ lines, LineFits line.1 line.2) ∧
    start 0 (texts lines ++ strings.drop (texts lines).length) (NUM_MACROS-1) ≤ 32767

/-- The files that are read in bounds into a store of these strings. -/
def FileFits (strings : List (List UInt8)) (file : List UInt8) (granted : Bool)
    (junk : ℕ → UInt8) : Prop :=
  if file.length < 2 then True
  else if file.take 2 = [33, 13] then
    granted = true → NewFits (file.drop 2) ∨ LongFits (file.drop 2)
  else OldFits strings (oldLines file junk)

/-- Reading a file stays in its buffers, and every slot has a string in the block behind it. -/
def ParseSafe (m : NewMacroInfo) (file : List UInt8) (fresh : Block) (granted : Bool)
    (junk : ℕ → UInt8) : Prop :=
  AllInside (parseMacroFileAccesses m file fresh granted junk) ∧
    SlotsInside (parseMacroFile m file fresh granted junk)

section Files
variable {m : NewMacroInfo} {strings : List (List UInt8)} {file : List UInt8}

/-- The new format stays in the block where its length is above 0 in a `short`. -/
theorem parseNewMacros_inside (m : NewMacroInfo) (fresh : Block) (bytes : List UInt8) :
    AllInside (parseNewMacrosAccesses m (33 :: 13 :: bytes) fresh true) ↔
      0 < short bytes.length := by
  have hhas := closeLines_has fresh bytes
  have hall : (fresh.filled bytes).closeLines.bytesFrom 0 = bytes.map closing :=
    @bytesFrom_eq _ [] _ hhas
  have hsize : (fresh.filled bytes).size = bytes.length := rfl
  have hscan : AllInside (scanAccesses (fresh.filled bytes).size 1 0
      ((fresh.filled bytes).closeLines.bytesFrom 0).dropLast) := by
    apply scanAccesses_inside
    rw [hall, hsize, List.length_dropLast, List.length_map]
    omega
  have hwhole : (Access.block (fresh.filled bytes).size 0 (fresh.filled bytes).size).Inside := by
    intro _
    constructor <;> omega
  have hindex : (Access.index 0).Inside := ⟨Int.le_refl 0, by decide⟩
  have hdata : (33 :: 13 :: bytes).drop 2 = bytes := rfl
  rw [parseNewMacrosAccesses, if_pos rfl]
  dsimp only
  rw [hdata, parseNewMacros2Accesses]
  simp only [allInside_cons, allInside_append, List.cons_append, hscan, hwhole, hindex, true_and]
  exact fixMacros_inside hhas

/-- A file in the new format for which there is memory. -/
theorem new_safe_iff (m : NewMacroInfo) (fresh : Block) (junk : ℕ → UInt8)
    (bytes : List UInt8) :
    (0 < short bytes.length ∧ SlotsInside (parseMacroFile m (33 :: 13 :: bytes) fresh true junk)) ↔
      NewFits bytes ∨ LongFits bytes := by
  rcases Nat.lt_or_ge 32767 bytes.length with hlong | hfits
  · have hparse : parseMacroFile m (33 :: 13 :: bytes) fresh true junk =
        fixMacros (scanned (disposemacros m) (fresh.filled bytes).closeLines) :=
      parse_eq m fresh junk bytes
    rw [hparse]
    constructor
    · rintro ⟨hpos, hslots⟩
      exact .inr ((long_slots_iff (closeLines_has fresh bytes) hlong hpos).mp hslots)
    · rintro (hnew | hmore)
      · exact absurd hnew.2.1 (by omega)
      · have hpos := hmore.2.1
        exact ⟨hpos, (long_slots_iff (closeLines_has fresh bytes) hlong hpos).mpr hmore⟩
  · have hlen := short_length hfits
    have hnot : ¬ LongFits bytes := fun h => absurd h.1 (by omega)
    rw [or_iff_left hnot, NewFits, hlen]
    by_cases hne : bytes = []
    · rw [hne]
      refine iff_of_false (fun h => ?_) fun h => h.1 rfl
      exact absurd h.1 (by decide)
    · have hpos := List.length_pos_iff.mpr hne
      rw [(parse_stores hne hfits m fresh junk).slotsInside_iff]
      constructor
      · intro h
        exact ⟨hne, hfits, h.2⟩
      · intro h
        exact ⟨by omega, h.2.2⟩

theorem setup_indexed (m : NewMacroInfo) (fresh : Block) :
    Indexed (setupNewMacros m fresh) (List.replicate NUM_MACROS []) := by
  have h := setup_holds m fresh
  exact h.stores.indexed (h.start_le (by decide))

theorem Indexed.slotsInside (h : Indexed m strings) : SlotsInside m :=
  h.stores.slotsInside_iff.mpr (h.start_le (by decide))

/-- Reading a file of macros into a store of strings is safe exactly where the file fits. -/
theorem parse_safe_iff (h : Indexed m strings) (file : List UInt8) (fresh : Block)
    (granted : Bool) (junk : ℕ → UInt8) :
    ParseSafe m file fresh granted junk ↔ FileFits strings file granted junk := by
  have hfirst : AllInside [.buffer 0, .buffer 1] := by
    refine allInside_cons.mpr ⟨?_, allInside_cons.mpr ⟨?_, allInside_nil⟩⟩
    · change 0 < 300
      omega
    · change 1 < 300
      omega
  rw [ParseSafe, parseMacroFileAccesses, FileFits, allInside_append, and_iff_right hfirst]
  by_cases hshort : file.length < 2
  · rw [if_pos hshort, if_pos hshort, parseMacroFile, if_pos hshort]
    exact iff_of_true ⟨allInside_nil, h.slotsInside⟩ trivial
  rw [if_neg hshort, if_neg hshort]
  by_cases hnew : file.take 2 = [33, 13]
  · obtain ⟨bytes, rfl⟩ : ∃ bytes, file = 33 :: 13 :: bytes := by
      refine ⟨file.drop 2, ?_⟩
      calc file
          = file.take 2 ++ file.drop 2 := (List.take_append_drop 2 file).symm
        _ = _ := by rw [hnew]; rfl
    have hdata : (33 :: 13 :: bytes).drop 2 = bytes := rfl
    rw [if_pos hnew, if_pos hnew, allInside_append, and_iff_right (indexAccesses_inside 0), hdata]
    cases granted with
    | true =>
      rw [parseNewMacros_inside, new_safe_iff]
      exact ⟨fun hfits _ => hfits, fun hfits => hfits rfl⟩
    | false =>
      rw [parseMacroFile, if_neg hshort, if_pos hnew]
      have hall : AllInside setupAccesses := by
        refine allInside_cons.mpr ⟨fun _ => ⟨Int.le_refl 0, ?_⟩, indexAccesses_inside 0⟩
        exact Int.le_of_eq (Int.zero_add _)
      refine iff_of_true ⟨hall, (setup_indexed _ fresh).slotsInside⟩ fun hno => ?_
      exact absurd hno Bool.false_ne_true
  · rw [if_neg hnew, if_neg hnew, parseMacroFile, if_neg hshort, if_neg hnew, OldFits, oldLines]
    obtain ⟨hinside, hstores⟩ := @parseOldMacros_fits 10 m
      (Function.update (Function.update junk 0 (file.getD 0 0)) 1 (file.getD 1 0)) 2 (file.drop 2)
      [] strings h.stores (Nat.le_refl 10) rfl fun s hs => absurd hs List.not_mem_nil
    rw [hinside]
    refine and_congr_right fun hlines => ?_
    exact (hstores hlines).slotsInside_iff

/-- A file with one macro. -/
theorem one_macro_safe :
    ParseSafe freshMacros [33, 13, 97, 13] (zeroBlock 0) true fun _ => 0 := by
  apply (parse_safe_iff (setup_indexed emptyStore (zeroBlock 0)) [33, 13, 97, 13] (zeroBlock 0)
    true fun _ => 0).mpr
  intro _
  refine .inl ⟨List.cons_ne_nil _ _, by decide, ?_⟩
  decide +kernel

/-- A file of the mark alone: the byte before the block is read. -/
theorem mark_alone_not_safe : ¬ ∀ (m : NewMacroInfo) (strings : List (List UInt8)),
    Indexed m strings → ∀ file fresh granted junk, ParseSafe m file fresh granted junk := by
  intro hall
  have hsafe := hall freshMacros _ (setup_indexed emptyStore (zeroBlock 0)) [33, 13] (zeroBlock 0)
    true fun _ => 0
  have huses := hsafe.1
  rw [parseMacroFileAccesses, if_neg (by decide), if_pos (by decide), allInside_append,
    allInside_append, parseNewMacros_inside] at huses
  exact absurd huses.2.2 (by decide)

end Files

end Macros
