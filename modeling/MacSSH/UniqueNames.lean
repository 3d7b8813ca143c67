import MacSSH.PreferenceLists
import MacSSH.WhileLoops
import Mathlib.Data.UInt

/-! Unique names: a new preference gets the name that it is given, or the first behind it, in
the order of `getAUniqueName`, that is not in the list. -/
namespace Preferences

/-- The bytes of a `Str255`: its length, and the characters behind it. -/
abbrev NameBytes := UInt8 → UInt8

namespace NameBytes

def chars (theName : NameBytes) : Str255 :=
  (List.range (theName 0).toNat).map fun i => theName (UInt8.ofNat (i+1))

/-- `theName[++theName[0]] = c` -/
def push (theName : NameBytes) (c : UInt8) : NameBytes :=
  Function.update (Function.update theName 0 (theName 0+1)) (theName 0+1) c

/-- `theName[theName[0]] = c` -/
def setLast (theName : NameBytes) (c : UInt8) : NameBytes :=
  Function.update theName (theName 0) c

/-- One round of `getAUniqueName`. -/
def next (theName : NameBytes) : NameBytes :=
  let c := theName (theName 0)
  if c > 57 ∨ c < 48 then (theName.push 32).push 49 -- add a number
  else if c = 57 then (theName.setLast 45).push 49 -- add another digit
  else theName.setLast (c+1)

end NameBytes

section Source
variable (EqualStringNC : Str255 → Str255 → Bool)

/-- `findNode` with the comparison that ignores case and diacritical marks. -/
def findNodeNC (theHead : List Str255) (ItemName : Str255) : Option (Option ℕ) :=
  if theHead = [] then none
  else
    let leader := Toolbox.walk (fun name => EqualStringNC ItemName name) theHead
    match theHead[leader]? with
    | none => none
    | some name => some (if EqualStringNC ItemName name then some leader else none)

/-- The test of the loop. -/
def isTaken (theHead : List Str255) (theName : NameBytes) : Option Bool :=
  (findNodeNC EqualStringNC theHead theName.chars).map Option.isSome

/-- `getAUniqueName` in at most `rounds` rounds: the names that were looked for, the last of
which `theName` is left with. -/
def getAUniqueName (theHead : List Str255) (rounds : ℕ) (theName : NameBytes) :
    Option (List NameBytes) :=
  WhileLoop.tested (isTaken EqualStringNC theHead) NameBytes.next rounds theName

/-- The comparison folds the characters of both strings, and tells the digits apart. -/
structure FoldsCase (fold : UInt8 → UInt8) : Prop where
  equal : ∀ a b, EqualStringNC a b = true ↔ a.map fold = b.map fold
  digits : ∀ c d, 48 ≤ c → c ≤ 57 → 48 ≤ d → d ≤ 57 → fold c = fold d → c = d

end Source

/-- A later name is longer, or it differs in its last character, a greater digit. -/
inductive Later (a b : Str255) : Prop
  | longer (h : a.length < b.length) : Later a b
  | counted (stem : Str255) (c d : UInt8) (ha : a = stem ++ [c]) (hb : b = stem ++ [d])
      (h48 : 48 ≤ c) (hcd : c < d) (h57 : d ≤ 57) : Later a b

section Names
variable {a b c : Str255}

theorem Later.trans (h : Later a b) (h' : Later b c) : Later a c := by
  cases h with
  | longer h =>
    cases h' with
    | longer h' => exact .longer (h.trans h')
    | counted stem d e hb hc h48 hde h57 =>
      apply Later.longer
      rw [hb, List.length_append, List.length_singleton] at h
      rwa [hc, List.length_append, List.length_singleton]
  | counted stem d e ha hb h48 hde h57 =>
    cases h' with
    | longer h' =>
      apply Later.longer
      rw [hb, List.length_append, List.length_singleton] at h'
      rwa [ha, List.length_append, List.length_singleton]
    | counted stem' e' f hb' hc h48' hef h57' =>
      rw [hb] at hb'
      -- both steps count the last character of the same stem
      obtain ⟨rfl, htail⟩ := List.append_inj' hb' rfl
      obtain ⟨rfl, -⟩ := List.cons.inj htail
      exact .counted stem d f ha hc h48 (UInt8.lt_trans hde hef) h57'

/-- A later name is not the same, for a comparison that ignores case. -/
theorem Later.fold_ne {EqualStringNC : Str255 → Str255 → Bool} {fold : UInt8 → UInt8}
    (hfold : FoldsCase EqualStringNC fold) (h : Later a b) : a.map fold ≠ b.map fold := by
  intro heq
  cases h with
  | longer h =>
    have hlength := congrArg List.length heq
    rw [List.length_map, List.length_map] at hlength
    omega
  | counted stem c d ha hb h48 hcd h57 =>
    rw [ha, hb, List.map_append, List.map_append] at heq
    -- the stems are equal, so the comparison is one of digits
    have hlast := (List.cons.inj (List.append_cancel_left heq)).1
    have hle := UInt8.le_of_lt hcd
    have hsame := hfold.digits c d h48 (UInt8.le_trans hle h57) (UInt8.le_trans h48 hle) h57 hlast
    exact UInt8.ne_of_lt hcd hsame

end Names

namespace NameBytes
variable {theName : NameBytes}

theorem length_chars (theName : NameBytes) : theName.chars.length = (theName 0).toNat := by
  rw [chars, List.length_map, List.length_range]

/-- The characters before the last. -/
def stem (theName : NameBytes) : Str255 :=
  (List.range ((theName 0).toNat-1)).map fun i => theName (UInt8.ofNat (i+1))

theorem chars_eq (h : theName 0 ≠ 0) : theName.chars = theName.stem ++ [theName (theName 0)] := by
  have hzero : (theName 0).toNat ≠ 0 := fun hzero => h (UInt8.toNat_inj.mp hzero)
  have hlength : (theName 0).toNat-1+1 = (theName 0).toNat := by omega
  have hlast : UInt8.ofNat ((theName 0).toNat-1+1) = theName 0 := by
    rw [hlength, UInt8.ofNat_toNat]
  rw [chars, stem, ← hlength, List.range_succ, List.map_append, List.map_singleton, hlast,
    Nat.add_sub_cancel]

/-- What is written at the end leaves the characters before it. -/
theorem map_range_congr {m m' : NameBytes} {k : ℕ}
    (h : ∀ i : UInt8, i ≠ 0 → i.toNat ≤ k → m i = m' i) (hk : k < 256) :
    ((List.range k).map fun i => m (UInt8.ofNat (i+1))) =
      (List.range k).map fun i => m' (UInt8.ofNat (i+1)) := by
  apply List.map_congr_left
  intro i hi
  have hik := List.mem_range.mp hi
  have hplace : (UInt8.ofNat (i+1)).toNat = i+1 := by
    rw [UInt8.toNat_ofNat']
    omega
  apply h
  · intro hzero
    rw [hzero] at hplace
    exact absurd hplace (by simp)
  · omega

theorem chars_setLast (h : theName 0 ≠ 0) (c : UInt8) :
    (theName.setLast c).chars = theName.stem ++ [c] := by
  have hlength : theName.setLast c 0 = theName 0 := Function.update_of_ne h.symm ..
  have hlast : theName.setLast c (theName 0) = c := Function.update_self ..
  rw [chars_eq (by rwa [hlength]), hlength, hlast, stem, hlength, stem]
  congr 1
  have hbyte := (theName 0).toNat_lt
  apply map_range_congr _ (by omega)
  intro i hi hle
  apply Function.update_of_ne
  intro heq
  rw [heq] at hi hle
  have hpos : (theName 0).toNat ≠ 0 := fun hzero => hi (UInt8.toNat_inj.mp hzero)
  omega

/-- The length one up, where there is room. -/
theorem toNat_zero_add_one (h : (theName 0).toNat < 255) :
    (theName 0+1).toNat = (theName 0).toNat+1 := by
  rw [UInt8.toNat_add]
  change ((theName 0).toNat+1) % 256 = _
  omega

theorem push_zero (h : (theName 0).toNat < 255) (c : UInt8) : theName.push c 0 = theName 0+1 := by
  -- the new character is not written over the length
  have hne : (0 : UInt8) ≠ theName 0+1 := by
    intro heq
    have hsum := toNat_zero_add_one h
    rw [← heq] at hsum
    exact absurd hsum (by simp)
  rw [push, Function.update_of_ne hne, Function.update_self]

theorem chars_push (h : (theName 0).toNat < 255) (c : UInt8) :
    (theName.push c).chars = theName.chars ++ [c] := by
  have hsum := toNat_zero_add_one h
  have hlast : theName.push c (theName 0+1) = c := Function.update_self ..
  have hne : theName.push c 0 ≠ 0 := by
    intro hzero
    rw [← push_zero h c, hzero] at hsum
    exact absurd hsum (by simp)
  rw [chars_eq hne, stem, push_zero h, hsum, hlast, Nat.add_sub_cancel, chars]
  congr 1
  apply map_range_congr _ (by omega)
  intro i hi hle
  have hi' : i ≠ theName 0+1 := by
    intro heq
    rw [heq, hsum] at hle
    omega
  rw [push, Function.update_of_ne hi', Function.update_of_ne hi]

/-- A digit at the end is not the length of an empty string. -/
theorem zero_ne_of_digit (h : ¬(theName (theName 0) > 57 ∨ theName (theName 0) < 48)) :
    theName 0 ≠ 0 := by
  intro hzero
  rw [hzero, hzero] at h
  exact h (.inr (by decide))

/-- What a round makes of the characters, where there is room for two more. -/
theorem chars_next (h : (theName 0).toNat ≤ 253) :
    theName.next.chars =
      if theName (theName 0) > 57 ∨ theName (theName 0) < 48 then theName.chars ++ [32, 49]
      else if theName (theName 0) = 57 then theName.stem ++ [45, 49]
      else theName.stem ++ [theName (theName 0)+1] := by
  rw [next]
  by_cases hno : theName (theName 0) > 57 ∨ theName (theName 0) < 48
  -- no digit at the end: a blank and the first number
  · have hfirst : (theName.push 32 0).toNat = (theName 0).toNat+1 := by
      rw [push_zero (by omega), toNat_zero_add_one (by omega)]
    simp only [if_pos hno]
    rw [chars_push (by omega), chars_push (by omega), List.append_assoc]
    rfl
  have hzero := zero_ne_of_digit hno
  simp only [if_neg hno]
  by_cases hnine : theName (theName 0) = 57
  -- a nine gives way to a dash and the first digit
  · have hlength : theName.setLast 45 0 = theName 0 := Function.update_of_ne hzero.symm ..
    rw [if_pos hnine, if_pos hnine, chars_push (by rw [hlength]; omega), chars_setLast hzero,
      List.append_assoc]
    rfl
  · rw [if_neg hnine, if_neg hnine, chars_setLast hzero]

/-- One round: the name becomes a later one, and takes two characters at most. -/
theorem next_later (h : (theName 0).toNat ≤ 253) :
    Later theName.chars theName.next.chars ∧ (theName.next 0).toNat ≤ (theName 0).toNat+2 := by
  rw [← length_chars theName, ← length_chars theName.next, chars_next h]
  by_cases hno : theName (theName 0) > 57 ∨ theName (theName 0) < 48
  · have hlength : (theName.chars ++ [32, 49]).length = theName.chars.length+2 :=
      List.length_append
    rw [if_pos hno]
    exact ⟨.longer (by omega), hlength.le⟩
  have hchars := chars_eq (zero_ne_of_digit hno)
  have hstem : theName.chars.length = theName.stem.length+1 := by
    rw [hchars, List.length_append, List.length_singleton]
  rw [if_neg hno]
  by_cases hnine : theName (theName 0) = 57
  · have hlength : (theName.stem ++ [45, 49]).length = theName.stem.length+2 :=
      List.length_append
    rw [if_pos hnine]
    exact ⟨.longer (by omega), by omega⟩
  · have hlength : (theName.stem ++ [theName (theName 0)+1]).length = theName.stem.length+1 :=
      List.length_append
    have hdigit : 48 ≤ (theName (theName 0)).toNat ∧ (theName (theName 0)).toNat < 57 := by
      have hle : ¬(57 < (theName (theName 0)).toNat ∨ (theName (theName 0)).toNat < 48) := hno
      have hne : (theName (theName 0)).toNat ≠ 57 := fun h => hnine (UInt8.toNat_inj.mp h)
      omega
    have hnext : (theName (theName 0)+1).toNat = (theName (theName 0)).toNat+1 := by
      rw [UInt8.toNat_add]
      change ((theName (theName 0)).toNat+1) % 256 = _
      omega
    rw [if_neg hnine]
    refine ⟨.counted theName.stem _ _ hchars rfl hdigit.1 ?_ ?_, by omega⟩
    · rw [UInt8.lt_iff_toNat_lt, hnext]
      omega
    · rw [UInt8.le_iff_toNat_le, hnext]
      exact hdigit.2

/-- Each round takes two characters at most. -/
theorem length_iterate_next {i : ℕ} (h : (theName 0).toNat+2*i ≤ 255) :
    (next^[i] theName 0).toNat ≤ (theName 0).toNat+2*i := by
  induction i with
  | zero => exact le_refl _
  | succ i ih =>
    have hbefore := ih (by omega)
    obtain ⟨-, hround⟩ := @next_later (next^[i] theName) (by omega)
    rw [Function.iterate_succ_apply']
    omega

/-- The names that are tried are later and later ones. -/
theorem states_later {k : ℕ} (h : (theName 0).toNat+2*k ≤ 255) :
    (WhileLoop.states next k theName).Pairwise fun a b => Later a.chars b.chars := by
  apply WhileLoop.pairwise_states (r := fun a b : NameBytes => Later a.chars b.chars)
  · intro a b c hab hbc
    exact hab.trans hbc
  intro i hi
  have hbefore := @length_iterate_next theName i (by omega)
  rw [Function.iterate_succ_apply']
  exact (next_later (by omega)).1

end NameBytes

section Search
variable {EqualStringNC : Str255 → Str255 → Bool} {fold : UInt8 → UInt8} {theHead : List Str255}

theorem isTaken_eq (hne : theHead ≠ []) (theName : NameBytes) :
    isTaken EqualStringNC theHead theName =
      some (theHead.any (EqualStringNC theName.chars)) := by
  rw [isTaken, findNodeNC, if_neg hne]
  dsimp only
  cases hfind : theHead.findIdx? (EqualStringNC theName.chars) with
  | some i =>
    obtain ⟨hi, hequal, -⟩ := List.findIdx?_eq_some_iff_getElem.mp hfind
    rw [walk_finds hfind, List.getElem?_eq_getElem hi]
    simp only [if_pos hequal, Option.map_some, Option.isSome_some]
    congr 1
    exact (List.any_eq_true.mpr ⟨_, List.getElem_mem hi, hequal⟩).symm
  | none =>
    have hall := List.findIdx?_eq_none_iff.mp hfind
    have hlast : theHead.length-1 < theHead.length :=
      Nat.sub_one_lt (List.length_pos_iff.mpr hne).ne'
    rw [walk_last hfind, List.getElem?_eq_getElem hlast]
    simp only [hall _ (List.getElem_mem hlast)]
    have hany : theHead.any (EqualStringNC theName.chars) = false := by
      rw [List.any_eq_false]
      intro entry hentry hequal
      exact Bool.noConfusion ((hall entry hentry).symm.trans hequal)
    rw [hany]
    rfl

/-- The loop ends, in as many rounds as there are names in the list, or fewer: each round is
for a name that was found. The name that is left equals no entry, and no two of the names that
were looked for are the same. -/
theorem getAUniqueName_unique (hfold : FoldsCase EqualStringNC fold) (hne : theHead ≠ [])
    {theName : NameBytes} (hlen : (theName 0).toNat+2*(theHead.length+1) ≤ 255) :
    ∃ found last, getAUniqueName EqualStringNC theHead theHead.length theName =
        some (found ++ [last]) ∧
      found.length ≤ theHead.length ∧
      (∀ entry ∈ theHead, EqualStringNC last.chars entry = false) ∧
      ((found ++ [last]).map NameBytes.chars).Nodup := by
  have htest : ∀ name, isTaken EqualStringNC theHead name =
      some (theHead.any (EqualStringNC name.chars)) := isTaken_eq hne
  -- A name that is found has the key of an entry, and the keys of the names do not repeat.
  have htaken : ∀ name, isTaken EqualStringNC theHead name = some true →
      name.chars.map fold ∈ theHead.map (List.map fold) := by
    intro name hname
    have hany := Option.some.inj ((htest name).symm.trans hname)
    obtain ⟨entry, hentry, hequal⟩ := List.any_eq_true.mp hany
    rw [(hfold.equal _ _).mp hequal]
    exact List.mem_map_of_mem hentry
  have hdefined : ∀ name, isTaken EqualStringNC theHead name ≠ none := by
    intro name
    rw [htest]
    exact Option.some_ne_none _
  have hkeys : ((WhileLoop.states NameBytes.next theHead.length theName).map
      fun name => name.chars.map fold).Nodup := by
    rw [List.Nodup, List.pairwise_map]
    exact (NameBytes.states_later (by omega)).imp fun h => h.fold_ne hfold
  obtain ⟨k, hk, hon, hend⟩ := WhileLoop.exists_first (fun name : NameBytes => name.chars.map fold)
    (theHead.map (List.map fold)) (List.length_map _).le (fun i _ => hdefined _)
    (fun i _ => htaken _) hkeys
  -- the last name is the first that is not found
  have hresult := WhileLoop.tested_of_first hk hon hend
  have hsplit : WhileLoop.states NameBytes.next k theName =
      (List.range k).map (fun i => NameBytes.next^[i] theName) ++ [NameBytes.next^[k] theName] := by
    rw [WhileLoop.states, List.range_succ, List.map_append, List.map_singleton]
  refine ⟨_, _, hresult.trans (congrArg some hsplit), ?_, ?_, ?_⟩
  · rwa [List.length_map, List.length_range]
  · have hnone := Option.some.inj ((htest _).symm.trans hend)
    intro entry hentry
    exact Bool.eq_false_iff.mpr (List.any_eq_false.mp hnone entry hentry)
  · rw [← hsplit, List.Nodup, List.pairwise_map]
    exact (NameBytes.states_later (by omega)).imp fun h heq =>
      h.fold_ne hfold (congrArg (List.map fold) heq)

end Search

section Letters

/-- Upper case, for the letters that have no marks. -/
def upper (c : UInt8) : UInt8 := if 97 ≤ c ∧ c ≤ 122 then c-32 else c

def equalUpper (a b : Str255) : Bool := a.map upper == b.map upper

theorem equalUpper_folds : FoldsCase equalUpper upper := by
  have hdigit : ∀ c : UInt8, c ≤ 57 → upper c = c := by
    intro c hc
    have hsmall : ¬(97 ≤ c ∧ c ≤ 122) := fun h => absurd (UInt8.le_trans h.1 hc) (by decide)
    rw [upper, if_neg hsmall]
  constructor
  · intro a b
    exact beq_iff_eq
  · intro c d _ hc _ hd heq
    rwa [hdigit c hc, hdigit d hd] at heq

/-- The bytes of a name that is not too long. -/
def nameBytes (chars : Str255) : NameBytes :=
  fun i => (UInt8.ofNat chars.length :: chars).getD i.toNat 0

-- "mac 9" is in the list as "Mac 9", and "mac -1" is in it as "MAC -1".
theorem getAUniqueName_unique_mac :
    ∃ found last, getAUniqueName equalUpper [[77, 97, 99, 32, 57], [77, 65, 67, 32, 45, 49]] 2
        (nameBytes [109, 97, 99, 32, 57]) = some (found ++ [last]) ∧
      found.length ≤ 2 ∧
      (∀ entry ∈ [[77, 97, 99, 32, 57], [77, 65, 67, 32, 45, 49]],
        equalUpper last.chars entry = false) ∧
      ((found ++ [last]).map NameBytes.chars).Nodup :=
  getAUniqueName_unique equalUpper_folds (List.cons_ne_nil _ _) (by decide)

example : (getAUniqueName equalUpper [[77, 97, 99, 32, 57], [77, 65, 67, 32, 45, 49]] 2
    (nameBytes [109, 97, 99, 32, 57])).map (List.map NameBytes.chars) =
      some [[109, 97, 99, 32, 57], [109, 97, 99, 32, 45, 49], [109, 97, 99, 32, 45, 50]] := by
  decide

end Letters

end Preferences
