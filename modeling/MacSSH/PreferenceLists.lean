import Mathlib.Data.List.Lex
import Mathlib.Data.List.Sort

/-! The linked lists of the names of preferences: they are made from the resources of a
file, the default entry first and the others sorted behind it, searched and shortened. -/
namespace Preferences

abbrev Str255 := List UInt8

/-- What the Toolbox does with strings: `EqualString` and `RelString`, both with case and
without diacritical marks, and the comparison that finds a resource by its name. -/
structure Toolbox where
  EqualString : Str255 → Str255 → Bool
  RelString : Str255 → Str255 → Int
  SameName : Str255 → Str255 → Bool

/-- `EqualString` and the search by name hold of one and the same string, `EqualString` goes
both ways, and `RelString`, which is 1 for a greater first string, gives an order. -/
structure Toolbox.Documented (T : Toolbox) : Prop where
  equal_self : ∀ a, T.EqualString a a = true
  equal_comm : ∀ a b, T.EqualString a b = T.EqualString b a
  same_self : ∀ a, T.SameName a a = true
  total : ∀ a b, T.RelString a b ≠ 1 ∨ T.RelString b a ≠ 1
  trans : ∀ a b c, T.RelString a b ≠ 1 → T.RelString b c ≠ 1 → T.RelString a c ≠ 1

namespace Toolbox
variable (T : Toolbox)

/-- The first string is not greater. -/
def le (a b : Str255) : Prop := T.RelString a b ≠ 1

instance : DecidableRel T.le := fun a b => inferInstanceAs (Decidable (T.RelString a b ≠ 1))

def Get1NamedResource (file : List Str255) (name : Str255) : Bool := file.any (T.SameName name)

def Get1IndResource (file : List Str255) (index : ℕ) : Option Str255 := file[index-1]?

/-- Like `Get1NamedResource`, in all the open files. -/
def GetNamedResource (files : List (List Str255)) (name : Str255) : Bool :=
  files.any fun file => T.Get1NamedResource file name

def GetIndResource (files : List (List Str255)) (index : ℕ) : Option Str255 :=
  files.flatten[index-1]?

/-- The loop of an insertion, from `leader` on. -/
def insertBehind (newItem : Str255) : List Str255 → List Str255
  | [] => [newItem]
  | leader :: behind =>
    if T.RelString newItem leader = 1 then leader :: insertBehind newItem behind
    else newItem :: leader :: behind

/-- Insert a node. It is not compared with the head. -/
def insertInSortedList (head : List Str255) (newItem : Str255) : List Str255 :=
  match head with
  | [] => [newItem]
  | first :: behind => first :: T.insertBehind newItem behind

/-- Whether a resource is the entry that has already been placed. -/
def isPlaced (placeThisFirst : Option Str255) (ItemName : Str255) : Bool :=
  match placeThisFirst with
  | none => false
  | some name => T.EqualString name ItemName

/-- One turn of the loop that makes a list: a resource that is there and not yet placed gets
a node. -/
def addNode (placeThisFirst : Option Str255) (theHead : List Str255)
    (ItemResource : Option Str255) : List Str255 :=
  match ItemResource with
  | none => theHead
  | some ItemName =>
    if T.isPlaced placeThisFirst ItemName then theHead
    else if theHead = [] then [ItemName]
    else T.insertInSortedList theHead ItemName

/-- What both ways to make a list do, given how a resource is found by its name and by its
number. -/
def sortedListOf (named : Str255 → Bool) (ind : ℕ → Option Str255) (numberofitems : ℕ)
    (placeThisFirst : Option Str255) : List Str255 :=
  let theHead :=
    match placeThisFirst with
    | none => []
    | some name => if named name then [name] else []
  (List.range' 1 numberofitems).foldl
    (fun theHead index => T.addNode placeThisFirst theHead (ind index)) theHead

/-- The list of the resources of the current file. -/
def createSortedList (file : List Str255) (numberofitems : ℕ) (placeThisFirst : Option Str255) :
    List Str255 :=
  T.sortedListOf (T.Get1NamedResource file) (Get1IndResource file) numberofitems placeThisFirst

/-- The list of the resources of all the open files. -/
def createSortedList2 (files : List (List Str255)) (numberofitems : ℕ)
    (placeThisFirst : Option Str255) : List Str255 :=
  T.sortedListOf (T.GetNamedResource files) (GetIndResource files) numberofitems placeThisFirst

/-- Where a walk along a list stops, counted from the node it starts at: at the first node
that `found` holds of, or else at the last. -/
def walk (found : Str255 → Bool) : List Str255 → ℕ
  | [] => 0
  | [_] => 0
  | leader :: next :: behind => if found leader then 0 else walk found (next :: behind) + 1

/-- Delete the node where the walk stops; `none` when the walk starts from no node. -/
def deleteItem (theHead : List Str255) (ItemName : Str255) : Option (List Str255) :=
  if theHead = [] then none
  else
    let leader := walk (fun name => T.EqualString ItemName name) theHead
    if leader = 0 then some theHead.tail
    else some (theHead.take leader ++ theHead.drop (leader+1))

/-- The place of the node with the name, if there is one; `none` when the walk starts from no
node. -/
def findNode (theHead : List Str255) (ItemName : Str255) : Option (Option ℕ) :=
  if theHead = [] then none
  else
    let leader := walk (fun name => T.EqualString ItemName name) theHead
    match theHead[leader]? with
    | none => none
    | some name => some (if T.EqualString ItemName name then some leader else none)

/-- The place where the walk stops; `none` when it starts from no node. -/
def findNodeIndex (theHead : List Str255) (ItemName : Str255) : Option ℕ :=
  if theHead = [] then none
  else some (walk (fun name => T.EqualString name ItemName) theHead)

end Toolbox

/-- Strings compared byte by byte. -/
def byteStrings : Toolbox where
  EqualString a b := a == b
  RelString a b :=
    if b.map UInt8.toNat < a.map UInt8.toNat then 1 else if a = b then 0 else -1
  SameName a b := a == b

theorem byteStrings_documented : byteStrings.Documented := by
  have hgreater (a b : Str255) :
      byteStrings.RelString a b ≠ 1 ↔ a.map UInt8.toNat ≤ b.map UInt8.toNat := by
    rw [← not_lt, not_iff_not, byteStrings]
    dsimp only
    split_ifs with hlt heq
    · exact iff_of_true rfl hlt
    · exact iff_of_false (by decide) hlt
    · exact iff_of_false (by decide) hlt
  refine ⟨fun a => beq_self_eq_true a, fun a b => BEq.comm, fun a => beq_self_eq_true a, ?_, ?_⟩
  · intro a b
    rw [hgreater, hgreater]
    exact le_total _ _
  · intro a b c
    rw [hgreater, hgreater, hgreater]
    exact le_trans

/-- A list of preferences as it should be: each name of the set once, and sorted, with the
entry that is placed first in front where the set has it. -/
structure SortedPreferences (T : Toolbox) (set : List Str255) (placeThisFirst : Option Str255)
    (out : List Str255) : Prop where
  once : out.Perm set
  placed : ∀ name, placeThisFirst = some name → name ∈ set →
    ∃ rest, out = name :: rest ∧ rest.Pairwise T.le
  sorted : (∀ name, placeThisFirst = some name → name ∉ set) → out.Pairwise T.le

/-- The resource that comes first is the least. -/
def FirstIsLeast (T : Toolbox) (set : List Str255) : Prop :=
  ∀ first ∈ set.head?, ∀ name ∈ set, T.le first name

/-- When a list of preferences is made as it should be: no other name is taken for the entry
to be placed first, and where the set does not have this entry the resource that comes first
is the least. -/
def SortsWell (T : Toolbox) (set : List Str255) (named : Str255 → Bool)
    (placeThisFirst : Option Str255) : Prop :=
  match placeThisFirst with
  | none => FirstIsLeast T set
  | some name =>
    (∀ ItemName ∈ set, T.EqualString name ItemName = true → ItemName = name) ∧
      (name ∈ set ∨ named name = false ∧ FirstIsLeast T set)

section Insertions
variable {T : Toolbox} {first : Str255} {rest items set out : List Str255}

theorem insertBehind_eq (newItem : Str255) (l : List Str255) :
    T.insertBehind newItem l = l.orderedInsert T.le newItem := by
  induction l with
  | nil => rfl
  | cons leader behind ih =>
    rw [Toolbox.insertBehind, List.orderedInsert_cons, ih]
    by_cases hgreater : T.RelString newItem leader = 1
    · have hnot : ¬T.le newItem leader := not_not_intro hgreater
      rw [if_pos hgreater, if_neg hnot]
    · have hle : T.le newItem leader := hgreater
      rw [if_neg hgreater, if_pos hle]

/-- Behind the head the list stays sorted, and gains just the new name. -/
theorem insertBehind_sorted (hT : T.Documented) (newItem : Str255) (h : rest.Pairwise T.le) :
    (T.insertBehind newItem rest).Pairwise T.le ∧
      (T.insertBehind newItem rest).Perm (newItem :: rest) := by
  have htotal : Std.Total T.le := ⟨hT.total⟩
  have htrans : IsTrans Str255 T.le := ⟨hT.trans⟩
  rw [insertBehind_eq]
  exact ⟨h.orderedInsert newItem rest, List.perm_orderedInsert T.le newItem rest⟩

/-- All the nodes that are inserted behind a head are sorted there. -/
theorem foldl_insert (hT : T.Documented) (h : rest.Pairwise T.le) :
    ∃ rest', items.foldl T.insertInSortedList (first :: rest) = first :: rest' ∧
      rest'.Pairwise T.le ∧ rest'.Perm (rest ++ items) := by
  induction items generalizing rest with
  | nil =>
    refine ⟨rest, rfl, h, ?_⟩
    rw [List.append_nil]
  | cons item items ih =>
    obtain ⟨hsorted, hperm⟩ := insertBehind_sorted hT item h
    obtain ⟨rest', hfold, hsorted', hperm'⟩ := ih hsorted
    refine ⟨rest', hfold, hsorted', ?_⟩
    calc List.Perm rest' (T.insertBehind item rest ++ items) := hperm'
      List.Perm _ (item :: rest ++ items) := hperm.append_right items
      List.Perm _ (rest ++ item :: items) := List.perm_middle.symm

/-- A list that is begun with the first of the nodes has the others sorted behind it. -/
theorem foldl_insert_nil (hT : T.Documented) (first : Str255) (items : List Str255) :
    ∃ rest', (first :: items).foldl T.insertInSortedList [] = first :: rest' ∧
      rest'.Pairwise T.le ∧ rest'.Perm items := by
  obtain ⟨rest', hfold, hsorted, hperm⟩ := @foldl_insert T first [] items hT List.Pairwise.nil
  exact ⟨rest', hfold, hsorted, hperm⟩

/-- The resources that the loop makes nodes of. -/
def kept (T : Toolbox) (placeThisFirst : Option Str255) (set : List Str255) : List Str255 :=
  set.filter fun ItemName => !T.isPlaced placeThisFirst ItemName

theorem map_resources (set : List Str255) :
    (List.range' 1 set.length).map (fun index => set[index-1]?) = set.map some := by
  apply List.ext_getElem
  · rw [List.length_map, List.length_map, List.length_range']
  · intro i hi hi'
    have hset : i < set.length := by simpa using hi
    rw [List.getElem_map, List.getElem_map, List.getElem_range', Nat.one_mul,
      Nat.add_sub_cancel_left, List.getElem?_eq_getElem hset]

/-- Whether the list is empty or not, a resource that is kept is inserted. -/
theorem addNode_eq (placeThisFirst : Option Str255) (theHead : List Str255) (ItemName : Str255) :
    T.addNode placeThisFirst theHead (some ItemName) =
      if (!T.isPlaced placeThisFirst ItemName) = true then T.insertInSortedList theHead ItemName
      else theHead := by
  rw [Toolbox.addNode]
  cases T.isPlaced placeThisFirst ItemName with
  | true => rfl
  | false =>
    cases theHead with
    | nil => rfl
    | cons first behind => rfl

/-- The list is made by inserting all the resources that are kept. -/
theorem sortedListOf_eq (named : Str255 → Bool) (set : List Str255)
    (placeThisFirst : Option Str255) :
    T.sortedListOf named (fun index => set[index-1]?) set.length placeThisFirst =
      (kept T placeThisFirst set).foldl T.insertInSortedList
        (match placeThisFirst with
          | none => []
          | some name => if named name then [name] else []) := by
  have hfold (theHead : List Str255) :
      (List.range' 1 set.length).foldl
          (fun theHead index => T.addNode placeThisFirst theHead set[index-1]?) theHead =
        (kept T placeThisFirst set).foldl T.insertInSortedList theHead := by
    rw [← @List.foldl_map _ _ _ (fun index => set[index-1]?) (T.addNode placeThisFirst),
      map_resources, List.foldl_map, kept, List.foldl_filter]
    congr 1
    funext theHead ItemName
    exact addNode_eq placeThisFirst theHead ItemName
  exact hfold _

/-- A list that begins with a resource is sorted if this one is the least. -/
theorem cons_sorted_iff (hT : T.Documented) (hsorted : rest.Pairwise T.le)
    (hperm : rest.Perm items) :
    (first :: rest).Pairwise T.le ↔ FirstIsLeast T (first :: items) := by
  rw [List.pairwise_cons]
  constructor
  · rintro ⟨hleast, -⟩ x hx name hname
    obtain rfl : first = x := Option.some.inj hx
    rcases List.mem_cons.mp hname with rfl | hbehind
    · exact (hT.total name name).elim id id
    · exact hleast name (hperm.mem_iff.mpr hbehind)
  · intro hleast
    refine ⟨fun name hname => ?_, hsorted⟩
    exact hleast first rfl name (List.mem_cons_of_mem first (hperm.mem_iff.mp hname))

/-- Inserted into an empty list, the names are sorted if the first of them is the least. -/
theorem foldl_insert_sorted_iff (hT : T.Documented) (set : List Str255) :
    (set.foldl T.insertInSortedList []).Perm set ∧
      ((set.foldl T.insertInSortedList []).Pairwise T.le ↔ FirstIsLeast T set) := by
  cases set with
  | nil => exact ⟨List.Perm.refl [], iff_of_true List.Pairwise.nil fun _ hx => nomatch hx⟩
  | cons first items =>
    obtain ⟨rest', hfold, hsorted, hperm⟩ := foldl_insert_nil hT first items
    rw [hfold]
    exact ⟨hperm.cons first, cons_sorted_iff hT hsorted hperm⟩

theorem kept_eq_self {name : Str255} (h : ∀ ItemName ∈ set, T.EqualString name ItemName = false) :
    kept T (some name) set = set := by
  rw [kept, List.filter_eq_self]
  intro ItemName hmem
  rw [Toolbox.isPlaced, h ItemName hmem]
  rfl

theorem mem_kept {name ItemName : Str255} :
    ItemName ∈ kept T (some name) set ↔
      ItemName ∈ set ∧ T.EqualString name ItemName = false := by
  rw [kept, List.mem_filter, Toolbox.isPlaced, Bool.not_eq_true']

/-- The entry and the resources that are kept are all of the set, unless another name is taken
for the entry. -/
theorem cons_kept_perm (hT : T.Documented) (hset : set.Nodup) {name : Str255} (hname : name ∈ set) :
    (name :: kept T (some name) set).Perm set ↔
      ∀ ItemName ∈ set, T.EqualString name ItemName = true → ItemName = name := by
  constructor
  · intro hperm ItemName hmem hequal
    rcases List.mem_cons.mp (hperm.mem_iff.mpr hmem) with hsame | hkept
    · exact hsame
    · exact absurd hequal (Bool.eq_false_iff.mp (mem_kept.mp hkept).2)
  · intro honly
    have hnot : name ∉ kept T (some name) set := fun hkept =>
      absurd (hT.equal_self name) (Bool.eq_false_iff.mp (mem_kept.mp hkept).2)
    rw [List.perm_ext_iff_of_nodup (List.nodup_cons.mpr ⟨hnot, hset.filter _⟩) hset]
    intro ItemName
    rw [List.mem_cons, mem_kept]
    constructor
    · rintro (rfl | ⟨hmem, -⟩)
      · exact hname
      · exact hmem
    · intro hmem
      by_cases hequal : T.EqualString name ItemName = true
      · exact Or.inl (honly ItemName hmem hequal)
      · exact Or.inr ⟨hmem, Bool.eq_false_iff.mpr hequal⟩

/-- Without an entry to be placed first all the set is inserted. -/
theorem sorted_none_iff (hT : T.Documented) (set : List Str255) :
    SortedPreferences T set none (set.foldl T.insertInSortedList []) ↔ FirstIsLeast T set := by
  obtain ⟨hperm, hsorted⟩ := foldl_insert_sorted_iff hT set
  rw [← hsorted]
  constructor
  · exact fun h => h.sorted fun name hname => nomatch hname
  · intro h
    refine ⟨hperm, fun name hname => ?_, fun _ => h⟩
    exact absurd hname.symm (Option.some_ne_none name)

/-- The entry is at the head, and the others that are kept are sorted behind it. -/
theorem sorted_placed_iff (hT : T.Documented) (hset : set.Nodup) (name : Str255) :
    SortedPreferences T set (some name)
        ((kept T (some name) set).foldl T.insertInSortedList [name]) ↔
      (∀ ItemName ∈ set, T.EqualString name ItemName = true → ItemName = name) ∧ name ∈ set := by
  obtain ⟨rest', hfold, hsorted, hperm⟩ :=
    @foldl_insert T name [] (kept T (some name) set) hT List.Pairwise.nil
  rw [hfold]
  by_cases hname : name ∈ set
  · rw [← cons_kept_perm hT hset hname]
    constructor
    · exact fun h => ⟨(hperm.cons name).symm.trans h.once, hname⟩
    · rintro ⟨hkept, -⟩
      refine ⟨(hperm.cons name).trans hkept, ?_, fun hnone => absurd hname (hnone name rfl)⟩
      rintro q hq -
      obtain rfl : name = q := Option.some.inj hq
      exact ⟨rest', rfl, hsorted⟩
  · apply iff_of_false
    · exact fun h => hname (h.once.mem_iff.mp List.mem_cons_self)
    · exact fun h => hname h.2

/-- An entry that is not there is not placed, and names that are taken for it are missing. -/
theorem sorted_missing_iff (hT : T.Documented) {name : Str255} (hname : name ∉ set) :
    SortedPreferences T set (some name)
        ((kept T (some name) set).foldl T.insertInSortedList []) ↔
      (∀ ItemName ∈ set, T.EqualString name ItemName = true → ItemName = name) ∧
        FirstIsLeast T set := by
  constructor
  · intro h
    have honly : ∀ ItemName ∈ set, T.EqualString name ItemName = false := by
      intro ItemName hmem
      have hkept := h.once.mem_iff.mpr hmem
      rw [(foldl_insert_sorted_iff hT _).1.mem_iff, mem_kept] at hkept
      exact hkept.2
    have hsorted := h.sorted fun q hq => Option.some.inj hq ▸ hname
    rw [kept_eq_self honly] at hsorted
    refine ⟨fun ItemName hmem hequal => ?_, (foldl_insert_sorted_iff hT set).2.mp hsorted⟩
    rw [honly ItemName hmem] at hequal
    exact absurd hequal Bool.false_ne_true
  · rintro ⟨honly, hleast⟩
    have hapart : ∀ ItemName ∈ set, T.EqualString name ItemName = false := by
      intro ItemName hmem
      rw [Bool.eq_false_iff]
      intro hequal
      exact hname (honly ItemName hmem hequal ▸ hmem)
    obtain ⟨hperm, hsorted⟩ := foldl_insert_sorted_iff hT set
    rw [kept_eq_self hapart]
    refine ⟨hperm, fun q hq hmem => ?_, fun _ => hsorted.mpr hleast⟩
    exact absurd hmem (Option.some.inj hq ▸ hname)

/-- A list of preferences is made as it should be exactly when the set and the entry that is
placed first are such that it is. -/
theorem sortedListOf_iff (hT : T.Documented) (hset : set.Nodup) (named : Str255 → Bool)
    (hnamed : ∀ name ∈ set, named name = true) (placeThisFirst : Option Str255) :
    SortedPreferences T set placeThisFirst
        (T.sortedListOf named (fun index => set[index-1]?) set.length placeThisFirst) ↔
      SortsWell T set named placeThisFirst := by
  rw [sortedListOf_eq]
  cases placeThisFirst with
  | none =>
    have hall : kept T none set = set := List.filter_eq_self.mpr fun _ _ => rfl
    rw [hall, SortsWell]
    exact sorted_none_iff hT set
  | some name =>
    dsimp only [SortsWell]
    by_cases hfound : named name = true
    · have hplaced : name ∈ set ∨ named name = false ∧ FirstIsLeast T set ↔ name ∈ set := by
        rw [hfound]
        simp
      rw [if_pos hfound, hplaced]
      exact sorted_placed_iff hT hset name
    · -- every name of the set is found, so this one is not in the set
      have hname : name ∉ set := fun hmem => hfound (hnamed name hmem)
      have hmissing : name ∈ set ∨ named name = false ∧ FirstIsLeast T set ↔
          FirstIsLeast T set := by
        rw [Bool.eq_false_iff.mpr hfound]
        simp [hname]
      rw [if_neg hfound, hmissing]
      exact sorted_missing_iff hT hname

end Insertions

section Lists
variable {T : Toolbox} {file : List Str255} {files : List (List Str255)}

theorem GetNamedResource_eq (files : List (List Str255)) (name : Str255) :
    T.GetNamedResource files name = T.Get1NamedResource files.flatten name := by
  rw [Toolbox.Get1NamedResource, List.any_flatten]
  rfl

/-- Both lists are made as they should be exactly when no other name is taken for the entry
to be placed first and either the set has this entry or the resource that comes first is the
least. -/
theorem createSortedList_iff (hT : T.Documented) (placeThisFirst : Option Str255)
    (hfile : file.Nodup) (hfiles : files.flatten.Nodup) :
    (SortedPreferences T file placeThisFirst
        (T.createSortedList file file.length placeThisFirst) ↔
      SortsWell T file (T.Get1NamedResource file) placeThisFirst) ∧
    (SortedPreferences T files.flatten placeThisFirst
        (T.createSortedList2 files files.flatten.length placeThisFirst) ↔
      SortsWell T files.flatten (T.GetNamedResource files) placeThisFirst) := by
  have hfound (set : List Str255) : ∀ name ∈ set, T.Get1NamedResource set name = true := by
    intro name hname
    rw [Toolbox.Get1NamedResource, List.any_eq_true]
    exact ⟨name, hname, hT.same_self name⟩
  constructor
  · exact sortedListOf_iff hT hfile _ (hfound file) placeThisFirst
  · apply sortedListOf_iff hT hfiles
    intro name hname
    rw [GetNamedResource_eq]
    exact hfound _ name hname

end Lists

/-- The default goes before two names that come in the wrong order. -/
theorem default_before_others :
    SortedPreferences byteStrings [[98], [60], [97]] (some [60])
      (byteStrings.createSortedList [[98], [60], [97]] 3 (some [60])) := by
  apply (@createSortedList_iff byteStrings [[98], [60], [97]] [] byteStrings_documented (some [60])
    (by decide) (by decide)).1.mpr
  exact ⟨by decide, Or.inl (by decide)⟩

/-- Without a default the name that comes first stays in front of a lesser one. -/
theorem first_name_not_sorted :
    ¬SortedPreferences byteStrings [[98], [97]] none
      (byteStrings.createSortedList [[98], [97]] 2 none) := by
  intro h
  have hsorted := h.sorted fun name hname => absurd hname.symm (Option.some_ne_none name)
  exact absurd hsorted (by decide)

section Nodes
variable {T : Toolbox} {theHead : List Str255} {ItemName : Str255}

/-- The place of the first node with a name. -/
def denotes (T : Toolbox) (theHead : List Str255) (ItemName : Str255) : Option ℕ :=
  theHead.findIdx? fun name => T.EqualString ItemName name

/-- Deleting a name deletes the node that it denotes, and no node if it denotes none; both
searches give the node that it denotes, and the index of no node if it denotes none. -/
structure Deletes (T : Toolbox) (theHead : List Str255) (ItemName : Str255) : Prop where
  deleted : T.deleteItem theHead ItemName =
    some (match denotes T theHead ItemName with
      | none => theHead
      | some i => theHead.eraseIdx i)
  found : T.findNode theHead ItemName = some (denotes T theHead ItemName)
  index : ∀ i, T.findNodeIndex theHead ItemName = some i → i < theHead.length →
    denotes T theHead ItemName = some i

/-- The walk stops at the first node that has the name. -/
theorem walk_finds {found : Str255 → Bool} {i : ℕ} (h : theHead.findIdx? found = some i) :
    Toolbox.walk found theHead = i := by
  induction theHead generalizing i with
  | nil => cases h
  | cons leader behind ih =>
    rw [List.findIdx?_cons] at h
    cases behind with
    | nil =>
      by_cases hfound : found leader = true
      · rw [if_pos hfound] at h
        exact Option.some.inj h
      · rw [if_neg hfound] at h
        cases h
    | cons next behind =>
      rw [Toolbox.walk]
      by_cases hfound : found leader = true
      · rw [if_pos hfound] at h ⊢
        exact Option.some.inj h
      · rw [if_neg hfound] at h ⊢
        obtain ⟨j, hj, rfl⟩ := Option.map_eq_some_iff.mp h
        rw [ih hj]

/-- A walk along a list without the name stops at the last node. -/
theorem walk_last {found : Str255 → Bool} (h : theHead.findIdx? found = none) :
    Toolbox.walk found theHead = theHead.length-1 := by
  induction theHead with
  | nil => rfl
  | cons leader behind ih =>
    cases behind with
    | nil => rfl
    | cons next behind =>
      rw [List.findIdx?_eq_none_iff] at h
      have hfound := h leader List.mem_cons_self
      have hrest := ih (List.findIdx?_eq_none_iff.mpr fun x hx =>
        h x (List.mem_cons_of_mem leader hx))
      rw [Toolbox.walk, hfound, if_neg Bool.false_ne_true, hrest]
      rfl

/-- Deletion deletes the node where the walk stops. -/
theorem deleteItem_eq (hne : theHead ≠ []) :
    T.deleteItem theHead ItemName =
      some (theHead.eraseIdx (Toolbox.walk (fun name => T.EqualString ItemName name) theHead)) := by
  rw [Toolbox.deleteItem, if_neg hne]
  dsimp only
  generalize Toolbox.walk (fun name => T.EqualString ItemName name) theHead = leader
  split_ifs with hzero
  · rw [hzero, List.eraseIdx_zero]
  · rw [List.eraseIdx_eq_take_drop_succ]

theorem denotes_eq_none :
    denotes T theHead ItemName = none ↔ ∀ name ∈ theHead, T.EqualString ItemName name = false := by
  rw [denotes, List.findIdx?_eq_none_iff]

/-- A name that denotes no node has the last one deleted, and none of an empty list. -/
theorem deleteItem_absent (hdenotes : denotes T theHead ItemName = none) :
    T.deleteItem theHead ItemName ≠ some theHead := by
  intro hdeleted
  by_cases hempty : theHead = []
  · rw [Toolbox.deleteItem, if_pos hempty] at hdeleted
    cases hdeleted
  · rw [deleteItem_eq hempty, walk_last hdenotes] at hdeleted
    have hpos := List.length_pos_iff.mpr hempty
    have hlen := congrArg List.length (Option.some.inj hdeleted)
    rw [List.length_eraseIdx_of_lt (by omega)] at hlen
    omega

/-- A name that denotes a node has this node deleted, and found by both searches. -/
theorem deletes_denoted (hT : T.Documented) {i : ℕ} (hi : denotes T theHead ItemName = some i) :
    Deletes T theHead ItemName := by
  obtain ⟨hlt, hat, -⟩ := List.findIdx?_eq_some_iff_getElem.mp hi
  have hne : theHead ≠ [] := List.ne_nil_of_length_pos (by omega)
  have hwalk := walk_finds hi
  have hcomm : (fun name => T.EqualString name ItemName) =
      fun name => T.EqualString ItemName name := funext fun name => hT.equal_comm name ItemName
  refine ⟨?_, ?_, ?_⟩
  · rw [deleteItem_eq hne, hwalk, hi]
  · rw [Toolbox.findNode, if_neg hne]
    dsimp only
    rw [hwalk, List.getElem?_eq_getElem hlt]
    dsimp only
    rw [if_pos hat, hi]
  · -- this search compares the names the other way round
    intro j hj _
    rw [Toolbox.findNodeIndex, if_neg hne, hcomm, hwalk] at hj
    rw [hi, Option.some.inj hj]

/-- The node that a name denotes is deleted and found, and the others are left as they are,
exactly when there is a node with the name. -/
theorem deleteItem_iff (hT : T.Documented) :
    Deletes T theHead ItemName ↔ ∃ name ∈ theHead, T.EqualString ItemName name = true := by
  constructor
  · intro h
    by_contra hnone
    have hdenotes : denotes T theHead ItemName = none := denotes_eq_none.mpr fun name hname =>
      Bool.eq_false_iff.mpr fun hequal => hnone ⟨name, hname, hequal⟩
    have hdeleted := h.deleted
    rw [hdenotes] at hdeleted
    exact deleteItem_absent hdenotes hdeleted
  · rintro ⟨name, hname, hequal⟩
    cases hdenotes : denotes T theHead ItemName with
    | none =>
      have hnot := denotes_eq_none.mp hdenotes name hname
      rw [hequal] at hnot
      exact absurd hnot.symm Bool.false_ne_true
    | some i => exact deletes_denoted hT hdenotes

end Nodes

/-- The second of two nodes with one name stays. -/
theorem first_of_two_deleted : Deletes byteStrings [[97], [98], [98]] [98] :=
  (deleteItem_iff byteStrings_documented).mpr ⟨[98], by decide, by decide⟩

/-- A name that no node has deletes the last one. -/
theorem absent_name_deletes : ¬Deletes byteStrings [[97], [98]] [99] := by
  intro h
  exact absurd h.deleted (by decide)

end Preferences
