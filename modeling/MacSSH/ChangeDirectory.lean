import Mathlib.Data.List.Basic
import MacSSH.DirectoryTrees

/-! `ChangeDirectory`, the path of a `CWD` command. The ".." components are counted
and taken first, and the names behind the last of them are resolved in one call;
names before a ".." are lost. -/
namespace MacUtil
open DirectoryTrees

structure CatInfo where
  ioDrDirID : Int
  ioDrParID : Int

/-- The calls of the file manager. `getCatInfo` is `PBGetCatInfoSync` for a volume,
a directory and a partial path name, or no name for the directory itself; `setVol`
gives the volume that is the default after `SetVol`. -/
structure Toolbox where
  getCatInfo : Int → Int → Option (List UInt8) → Option CatInfo
  setVol : List UInt8 → Int

/-- The loop over the slashes: `start` is the text from `start` up to `pathname`,
`comp` what has been passed of the component at `pathname`. -/
def scanLevels (start comp : List UInt8) : List UInt8 → UInt16 → List UInt8 × List UInt8 × UInt16
  | [], levels => (start, comp, levels)
  | c :: rest, levels =>
    if c = 47 then
      if comp = [46, 46] then scanLevels [] [] rest (levels + 1)
      else scanLevels (start ++ comp ++ [58]) [] rest levels
    else scanLevels start (comp ++ [c]) rest levels

/-- A last component ".." empties the text at `start`. -/
def lastLevel : List UInt8 × List UInt8 × UInt16 → List UInt8 × UInt16
  | (start, pathname, levels) =>
    if pathname = [46, 46] then ([], levels + 1) else (start ++ pathname, levels)

/-- The size of `tempst`. -/
def tempstSize : ℕ := 256

section ChangeDirectory
variable (fs : Toolbox)

def goUp (vRefNum : Int) : ℕ → Int → Option Int
  | 0, localdirID => some localdirID
  | n + 1, localdirID =>
    if localdirID = 2 then some localdirID
    else
      match fs.getCatInfo vRefNum localdirID none with
      | none => none
      | some info => goUp vRefNum n info.ioDrParID

/-- The last step: the result, with the directory and volume the caller is left with. -/
def byName (dirID vRefNum localdirID localvRefNum : Int) (tempst : List UInt8) : Int × Int × Int :=
  match fs.getCatInfo localvRefNum localdirID (some tempst) with
  | none => (1, dirID, vRefNum)
  | some info => (0, info.ioDrDirID, localvRefNum)

/-- A full path: a volume name between colons, and a path from its root. -/
def absolutePath (dirID vRefNum : Int) (start : List UInt8) : Option (Int × Int × Int) :=
  if start.length = 1 then some (0, 2, vRefNum)
  else
    let volume := (start.drop 1).takeWhile (· ≠ 58)
    let nSlash := (start.drop 1).dropWhile (· ≠ 58)
    if tempstSize < volume.length + 2 then none
    else
      let localvRefNum := fs.setVol (volume ++ [58])
      if nSlash = [] then some (0, 2, localvRefNum)
      else if tempstSize < nSlash.length + 1 then none
      else some (byName fs dirID vRefNum 2 localvRefNum nSlash)

def relativePath (dirID vRefNum : Int) (start : List UInt8) (levels : UInt16) :
    Option (Int × Int × Int) :=
  match goUp fs vRefNum levels.toNat dirID with
  | none => some (1, dirID, vRefNum)
  | some localdirID =>
    if start = [] then some (0, localdirID, vRefNum)
    else if tempstSize < start.length + 2 then none
    else some (byName fs dirID vRefNum localdirID vRefNum (58 :: start))

/-- `ChangeDirectory`: the result code and the new directory and volume, or `none`
when a path is copied past the end of `tempst`. -/
def ChangeDirectory (dirID vRefNum : Int) (pathname : List UInt8) : Option (Int × Int × Int) :=
  let (start, levels) := lastLevel (scanLevels [] [] pathname 0)
  if start.head? = some 58 then
    if levels ≠ 0 then some (1, dirID, vRefNum) else absolutePath fs dirID vRefNum start
  else relativePath fs dirID vRefNum start levels

end ChangeDirectory

/-- A name a path can have: not "..", and without slash, colon and terminator. -/
def IsName (n : List UInt8) : Prop :=
  n ≠ [] ∧ n ≠ [46, 46] ∧ ∀ b ∈ n, b ≠ 47 ∧ b ≠ 58 ∧ b ≠ 0

instance : DecidablePred IsName := fun n =>
  letI : Decidable (∀ b ∈ n, b ≠ 47 ∧ b ≠ 58 ∧ b ≠ 0) :=
    List.decidableBAll (fun b => b ≠ 47 ∧ b ≠ 58 ∧ b ≠ 0) n
  inferInstanceAs (Decidable (_ ∧ _ ∧ _))

abbrev Name := { n : List UInt8 // IsName n }

def stepText : PathStep Name → List UInt8
  | .up => [46, 46]
  | .name n => n.val

/-- A relative path as it is written. -/
def pathText (path : List (PathStep Name)) : List UInt8 := [47].intercalate (path.map stepText)

/-- Names as a partial path name of the file manager. -/
def colonPath (ns : List Name) : List UInt8 := 58 :: [58].intercalate (ns.map Subtype.val)

def number : Entry Int → Int
  | .folder d => d
  | .file f => f

/-- The file manager knows the tree on the volume: it gives the parent of a
directory, and resolves a descending path that fits a Pascal string. -/
structure Resolves (fs : Toolbox) (vRefNum : Int) (t : Tree Int Name) : Prop where
  root : t.root = 2
  up : ∀ d, t.Directory d → d ≠ t.root →
    ∃ info, fs.getCatInfo vRefNum d none = some info ∧ t.parent d = some info.ioDrParID
  down : ∀ d ns, t.Directory d → ns ≠ [] → (colonPath ns).length ≤ 255 →
    (fs.getCatInfo vRefNum d (some (colonPath ns))).map CatInfo.ioDrDirID =
      (t.lookup d ns).map number

/-- `ChangeDirectory` ends where the path leads, taken from left to right, or
reports an error and leaves the directory and the volume. -/
def Followed (fs : Toolbox) (t : Tree Int Name) (vRefNum cwd : Int)
    (path : List (PathStep Name)) : Prop :=
  ChangeDirectory fs cwd vRefNum (pathText path) =
    match t.follow cwd path with
    | some d => some (0, d, vRefNum)
    | none => some (1, cwd, vRefNum)

/-- All steps up come first, and the names fit in `tempst`. -/
def UpsThenNames (path : List (PathStep Name)) : Prop :=
  ∃ k ns, path = List.replicate k .up ++ ns.map .name ∧ (colonPath ns).length ≤ 255

/-- The names behind the steps up lead to a file. -/
def LeadsToFile (t : Tree Int Name) (cwd : Int) (path : List (PathStep Name)) : Prop :=
  ∃ k ns d f, path = List.replicate k .up ++ ns.map .name ∧
    t.follow cwd (List.replicate k .up) = some d ∧ t.lookup d ns = some (.file f)

section Scan

/-- The names behind the last step up, when `acc` are the names before. -/
def afterUps (acc : List Name) : List (PathStep Name) → List Name
  | [] => acc
  | .up :: path => afterUps [] path
  | .name n :: path => afterUps (acc ++ [n]) path

/-- Names that are followed by a component each. -/
def accText (acc : List Name) : List UInt8 := acc.flatMap fun n => n.val ++ [58]

theorem intercalate_snoc (acc : List Name) (n : Name) :
    [58].intercalate ((acc ++ [n]).map Subtype.val) = accText acc ++ n.val := by
  induction acc with
  | nil => simp [accText]
  | cons m acc ih =>
    have hne : (acc ++ [n]).map Subtype.val ≠ [] := by simp
    rw [List.cons_append, List.map_cons, List.intercalate_cons_of_ne_nil hne, ih]
    simp [accText]

/-- The bytes of a component are passed one by one. -/
theorem scanLevels_text (start comp text rest : List UInt8) (levels : UInt16)
    (h : ∀ b ∈ text, b ≠ 47) :
    scanLevels start comp (text ++ rest) levels = scanLevels start (comp ++ text) rest levels := by
  induction text generalizing comp with
  | nil => simp
  | cons b text ih =>
    have hb : b ≠ 47 := h b List.mem_cons_self
    rw [List.cons_append, scanLevels, if_neg hb, ih _ fun c hc => h c (List.mem_cons_of_mem _ hc)]
    simp

theorem stepText_plain (s : PathStep Name) : ∀ b ∈ stepText s, b ≠ 47 := by
  intro b hb
  cases s with
  | up =>
    rintro rfl
    simp [stepText] at hb
  | name n => exact (n.property.2.2 b hb).1

/-- The last component. -/
theorem scanLevels_last (s : PathStep Name) (acc : List Name) (levels : UInt16) :
    lastLevel (scanLevels (accText acc) [] (stepText s) levels) =
      ([58].intercalate ((afterUps acc [s]).map Subtype.val),
        levels + UInt16.ofNat ([s].count .up)) := by
  have hscan := scanLevels_text (accText acc) [] (stepText s) [] levels (stepText_plain s)
  rw [List.append_nil] at hscan
  rw [hscan, List.nil_append, scanLevels]
  cases s with
  | up => simp [lastLevel, stepText, afterUps]
  | name n =>
    have hn : n.val ≠ [46, 46] := n.property.2.1
    rw [lastLevel, stepText, if_neg hn, afterUps, afterUps, intercalate_snoc]
    simp

/-- A component with a slash behind it: ".." forgets the names before. -/
theorem scanLevels_step (s : PathStep Name) (acc : List Name) (text : List UInt8)
    (levels : UInt16) :
    scanLevels (accText acc) [] (stepText s ++ 47 :: text) levels =
      match s with
      | .up => scanLevels (accText []) [] text (levels + 1)
      | .name n => scanLevels (accText (acc ++ [n])) [] text levels := by
  rw [scanLevels_text _ _ _ _ _ (stepText_plain s), List.nil_append, scanLevels, if_pos rfl]
  cases s with
  | up =>
    rw [if_pos (by rfl)]
    rfl
  | name n =>
    have hn : n.val ≠ [46, 46] := n.property.2.1
    have hsnoc : accText acc ++ n.val ++ [58] = accText (acc ++ [n]) := by
      simp [accText]
    rw [if_neg (by exact hn)]
    simp only [stepText, hsnoc]

/-- The scan of a path: the names behind the last "..", and how many there are. -/
theorem scanLevels_path (path : List (PathStep Name)) (hne : path ≠ []) (acc : List Name)
    (levels : UInt16) :
    lastLevel (scanLevels (accText acc) [] (pathText path) levels) =
      ([58].intercalate ((afterUps acc path).map Subtype.val),
        levels + UInt16.ofNat (path.count .up)) := by
  induction path generalizing acc levels with
  | nil => exact absurd rfl hne
  | cons s path ih =>
    by_cases hlast : path = []
    · subst hlast
      have htext : pathText [s] = stepText s := by simp [pathText]
      rw [htext]
      exact scanLevels_last s acc levels
    · have htext : pathText (s :: path) = stepText s ++ 47 :: pathText path := by
        have hmap : path.map stepText ≠ [] := by simpa using hlast
        simp [pathText, List.intercalate_cons_of_ne_nil hmap]
      rw [htext, scanLevels_step]
      cases s with
      | up =>
        have hone : levels + 1 + UInt16.ofNat (path.count .up) =
            levels + UInt16.ofNat (path.count .up + 1) := by
          rw [UInt16.ofNat_add, UInt16.add_assoc, UInt16.add_comm 1]
          rfl
        rw [List.count_cons_self, ← hone]
        exact ih hlast [] (levels + 1)
      | name n =>
        have hcount : (PathStep.name n :: path).count .up = path.count .up :=
          List.count_cons_of_ne (by simp)
        rw [hcount]
        exact ih hlast (acc ++ [n]) levels

theorem afterUps_names (ns acc : List Name) : afterUps acc (ns.map .name) = acc ++ ns := by
  induction ns generalizing acc with
  | nil => simp [afterUps]
  | cons n ns ih => simp [afterUps, ih]

theorem afterUps_shape (k : ℕ) (ns : List Name) :
    afterUps [] (List.replicate k .up ++ ns.map .name) = ns := by
  induction k with
  | zero => simp [afterUps_names]
  | succ k ih => simpa [List.replicate_succ, afterUps] using ih

theorem count_shape (k : ℕ) (ns : List Name) :
    (List.replicate k PathStep.up ++ ns.map PathStep.name).count PathStep.up = k := by
  simp [List.count_append, List.count_eq_zero]

/-- A path that is not in order has a step up behind a name. -/
theorem order_or_late (path : List (PathStep Name)) :
    (∃ (k : ℕ) (ns : List Name), path = List.replicate k .up ++ ns.map .name) ∨
      ∃ k n rest, path = List.replicate k .up ++ .name n :: rest ∧ .up ∈ rest := by
  induction path with
  | nil => exact .inl ⟨0, [], rfl⟩
  | cons s path ih =>
    cases s with
    | up =>
      rcases ih with ⟨k, ns, rfl⟩ | ⟨k, n, rest, rfl, hup⟩
      · exact .inl ⟨k + 1, ns, rfl⟩
      · exact .inr ⟨k + 1, n, rest, rfl, hup⟩
    | name n =>
      by_cases hup : .up ∈ path
      · exact .inr ⟨0, n, path, rfl, hup⟩
      · rcases ih with ⟨k, ns, rfl⟩ | ⟨k, m, rest, rfl, hrest⟩
        · cases k with
          | zero => exact .inl ⟨0, n :: ns, rfl⟩
          | succ k => simp [List.replicate_succ] at hup
        · simp [hrest] at hup

theorem start_plain (ns : List Name) : ([58].intercalate (ns.map Subtype.val)).head? ≠ some 58 := by
  cases ns with
  | nil => simp
  | cons n ns =>
    obtain ⟨b, l, hb⟩ := List.exists_cons_of_ne_nil n.property.1
    have hplain : b ≠ 58 := (n.property.2.2 b (by rw [hb]; exact List.mem_cons_self)).2.1
    cases ns with
    | nil => simpa [hb] using hplain
    | cons m ns => simpa [hb, List.intercalate_cons_cons] using hplain

theorem start_nil_iff (ns : List Name) :
    [58].intercalate (ns.map Subtype.val) = [] ↔ ns = [] := by
  constructor
  · intro h
    cases ns with
    | nil => rfl
    | cons n ns =>
      have hn := n.property.1
      cases ns with
      | nil => exact absurd (by simpa using h) hn
      | cons m ns => simp [List.intercalate_cons_cons] at h
  · rintro rfl
    simp

/-- What is left of a path: how far up, and the names behind that. -/
theorem changeDirectory_eq (fs : Toolbox) (vRefNum cwd : Int) (path : List (PathStep Name)) :
    ChangeDirectory fs cwd vRefNum (pathText path) =
      relativePath fs cwd vRefNum ([58].intercalate ((afterUps [] path).map Subtype.val))
        (UInt16.ofNat (path.count .up)) := by
  have hscan : lastLevel (scanLevels [] [] (pathText path) 0) =
      ([58].intercalate ((afterUps [] path).map Subtype.val),
        UInt16.ofNat (path.count .up)) := by
    by_cases hne : path = []
    · subst hne
      rfl
    · have h := scanLevels_path path hne [] 0
      rw [UInt16.zero_add] at h
      exact h
  rw [ChangeDirectory, hscan]
  simp only [if_neg (start_plain _)]

end Scan

section Resolves
variable {fs : Toolbox} {t : Tree Int Name} {vRefNum cwd d : Int}

/-- Going up is following as many steps up. -/
theorem Resolves.goUp_eq (h : Resolves fs vRefNum t) (hd : t.Directory d) (k : ℕ) :
    goUp fs vRefNum k d = t.follow d (List.replicate k .up) := by
  induction k generalizing d with
  | zero => rfl
  | succ k ih =>
    rw [List.replicate_succ, Tree.follow, Tree.step, goUp, ← h.root]
    by_cases hroot : d = t.root
    · subst hroot
      rw [if_pos rfl, if_pos rfl, Option.bind_some, Tree.follow_ups_root]
    · obtain ⟨info, hinfo, hparent⟩ := h.up d hd hroot
      obtain ⟨e, he, hdir⟩ := hd.up hroot
      obtain rfl : e = info.ioDrParID := Option.some.inj (he.symm.trans hparent)
      rw [if_neg hroot, if_neg hroot, hinfo, hparent]
      exact ih hdir

/-- The result of a path with fewer than 2^16 steps up. -/
theorem Resolves.changeDirectory_from (h : Resolves fs vRefNum t) (hcwd : t.Directory cwd)
    (path : List (PathStep Name)) (hlevels : path.count .up < 65536)
    (hd : t.follow cwd (List.replicate (path.count .up) .up) = some d) :
    ChangeDirectory fs cwd vRefNum (pathText path) =
      if afterUps [] path = [] then some (0, d, vRefNum)
      else if 255 < (colonPath (afterUps [] path)).length then none
      else some (byName fs cwd vRefNum d vRefNum (colonPath (afterUps [] path))) := by
  have hnat : (UInt16.ofNat (path.count .up)).toNat = path.count .up :=
    UInt16.toNat_ofNat_of_lt hlevels
  rw [changeDirectory_eq, relativePath, hnat, h.goUp_eq hcwd, hd]
  have hlong : tempstSize < ([58].intercalate ((afterUps [] path).map Subtype.val)).length + 2 ↔
      255 < (colonPath (afterUps [] path)).length := by
    simp only [tempstSize, colonPath, List.length_cons]
    omega
  by_cases hns : afterUps [] path = []
  · have hstart := (start_nil_iff _).mpr hns
    simp only [if_pos hstart, if_pos hns]
  · have hstart := fun h => hns ((start_nil_iff _).mp h)
    by_cases hlen : 255 < (colonPath (afterUps [] path)).length
    · simp only [if_neg hstart, if_neg hns, if_pos hlen, if_pos (hlong.mpr hlen)]
    · have hfits := fun h => hlen (hlong.mp h)
      simp only [if_neg hstart, if_neg hns, if_neg hlen, if_neg hfits]
      rfl

/-- A descending path that fits: the entry is taken for a directory. -/
theorem Resolves.byName_eq (h : Resolves fs vRefNum t) (hd : t.Directory d) {ns : List Name}
    (hns : ns ≠ []) (hlen : (colonPath ns).length ≤ 255) :
    byName fs cwd vRefNum d vRefNum (colonPath ns) =
      match t.lookup d ns with
      | some entry => (0, number entry, vRefNum)
      | none => (1, cwd, vRefNum) := by
  have hdown := h.down d ns hd hns hlen
  rw [byName]
  cases hinfo : fs.getCatInfo vRefNum d (some (colonPath ns)) with
  | none =>
    rw [hinfo] at hdown
    have hnone : t.lookup d ns = none := by simpa using hdown.symm
    rw [hnone]
  | some info =>
    rw [hinfo] at hdown
    obtain ⟨entry, hentry, hnum⟩ := Option.map_eq_some_iff.mp hdown.symm
    rw [hentry]
    simp only [hnum]

/-- A path in order is so in one way only. -/
theorem leadsToFile_iff {k : ℕ} {ns : List Name}
    (hd : t.follow cwd (List.replicate k .up) = some d) :
    LeadsToFile t cwd (List.replicate k .up ++ ns.map .name) ↔
      ∃ f, t.lookup d ns = some (.file f) := by
  constructor
  · rintro ⟨k', ns', d', f, hpath, hd', hf⟩
    have hk : k = k' := by
      rw [← count_shape k ns, hpath, count_shape]
    have hns : ns = ns' := by
      rw [← afterUps_shape k ns, hpath, afterUps_shape]
    subst hk hns
    obtain rfl : d = d' := Option.some.inj (hd.symm.trans hd')
    exact ⟨f, hf⟩
  · rintro ⟨f, hf⟩
    exact ⟨k, ns, d, f, rfl, hd, hf⟩

/-- In order, a path is followed unless its names lead to a file. -/
theorem Resolves.followed_iff (h : Resolves fs vRefNum t) (hcwd : t.Directory cwd)
    {path : List (PathStep Name)} (hlevels : path.count .up < 65536) (hpath : UpsThenNames path) :
    Followed fs t vRefNum cwd path ↔ ¬ LeadsToFile t cwd path := by
  obtain ⟨k, ns, rfl, hlen⟩ := hpath
  have hcount := count_shape k ns
  obtain ⟨d, hd, hdir⟩ := hcwd.follow_ups k
  have hcode := h.changeDirectory_from hcwd _ hlevels (by rw [hcount]; exact hd)
  rw [afterUps_shape] at hcode
  have hfollow : t.follow cwd (List.replicate k .up ++ ns.map .name) =
      t.follow d (ns.map .name) := by
    rw [Tree.follow_append, hd]
    rfl
  rw [Followed, hcode, hfollow, Tree.follow_names, leadsToFile_iff hd]
  by_cases hns : ns = []
  · subst hns
    simp [Tree.lookup]
  · have hnot : ¬ 255 < (colonPath ns).length := by omega
    rw [if_neg hns, if_neg hnot, h.byName_eq hdir hns hlen]
    -- a name that is not there is an error on both sides; only a file is taken for a directory
    cases hlook : t.lookup d ns with
    | none => simp
    | some entry =>
      cases entry with
      | folder e => simp [number]
      | file f => simp [number]

end Resolves

section Toolbox

/-- A name where the bytes are one. -/
def toName (n : List UInt8) : Option Name := if h : IsName n then some ⟨n, h⟩ else none

def toNames : List (List UInt8) → Option (List Name)
  | [] => some []
  | n :: ns => (toName n).bind fun n => (toNames ns).map (n :: ·)

/-- A file manager for a tree: a partial path name is taken apart at its colons. -/
def toolboxOf (t : Tree Int Name) : Toolbox where
  getCatInfo _ d
    | none => (t.parent d).map fun p => ⟨d, p⟩
    | some [] => none
    | some (_ :: name) =>
      ((toNames (name.splitOn 58)).bind (t.lookup d)).map fun entry => ⟨number entry, d⟩
  setVol _ := -1

theorem toNames_val (ns : List Name) : toNames (ns.map Subtype.val) = some ns := by
  induction ns with
  | nil => rfl
  | cons n ns ih =>
    have hn : toName n.val = some n := by
      rw [toName, dif_pos n.property]
    simp only [List.map_cons, toNames, hn, Option.bind_some, ih, Option.map_some]

theorem toolboxOf_resolves {t : Tree Int Name} (hroot : t.root = 2) (vRefNum : Int) :
    Resolves (toolboxOf t) vRefNum t where
  root := hroot
  up d hd hne := by
    obtain ⟨e, he, -⟩ := hd.up hne
    exact ⟨⟨d, e⟩, by simp [toolboxOf, he], he⟩
  down d ns _ hne _ := by
    have hsplit : ([58].intercalate (ns.map Subtype.val)).splitOn 58 = ns.map Subtype.val := by
      apply List.splitOn_intercalate
      · intro n hn hmem
        obtain ⟨m, -, rfl⟩ := List.mem_map.mp hn
        exact (m.property.2.2 58 hmem).2.1 rfl
      · exact fun h => hne (List.map_eq_nil_iff.mp h)
    simp only [toolboxOf, colonPath, hsplit, toNames_val, Option.bind_some, Option.map_map]
    rfl

end Toolbox

section Chain
variable (K : ℕ) (x : Name) (ns : List Name)

/-- A chain of `K` directories named `x` below the root, and next to it one of the
directories `ns`. -/
def chainTree : Tree Int Name where
  root := 2
  child d n :=
    if n = x ∧ 2 ≤ d ∧ d < 2 + K then some (.folder (d + 1))
    else if d = 2 ∧ ns.head? = some n then some (.folder (2 + K + 1))
    else if 2 + K < d ∧ ns[(d - 2 - K).toNat]? = some n then some (.folder (d + 1))
    else none
  parent d := if d = 2 + K + 1 then some 2 else some (d - 1)
  parent_child {d n e} h := by
    split_ifs at h with h1 h2 h3
    all_goals
      simp only [Option.some.injEq, Entry.folder.injEq] at h
      subst h
    · rw [if_neg (by omega)]
      simp
    · rw [if_pos rfl, h2.1]
    · rw [if_neg (by omega)]
      simp
  root_top {d n e} h := by
    split_ifs at h with h1 h2 h3
    all_goals
      simp only [Option.some.injEq, Entry.folder.injEq] at h
      omega

variable {K x ns}

theorem chain_child_eq (d : Int) (n : Name) :
    (chainTree K x ns).child d n =
      if n = x ∧ 2 ≤ d ∧ d < 2 + K then some (.folder (d + 1))
      else if d = 2 ∧ ns.head? = some n then some (.folder (2 + K + 1))
      else if 2 + K < d ∧ ns[(d - 2 - K).toNat]? = some n then some (.folder (d + 1))
      else none := rfl

theorem chain_directory (i : ℕ) (hi : i ≤ K) : (chainTree K x ns).Directory (2 + i) := by
  induction i with
  | zero => exact .root
  | succ i ih =>
    have hstep : (chainTree K x ns).child (2 + i) x = some (.folder (2 + (i + 1 : ℕ))) := by
      have hin : x = x ∧ (2 : Int) ≤ 2 + i ∧ (2 : Int) + i < 2 + K :=
        ⟨rfl, by omega, by omega⟩
      rw [chain_child_eq, if_pos hin]
      congr 2
    exact .child (ih (by omega)) hstep

/-- Steps up in the chain. -/
theorem chain_up (j i : ℕ) (hi : i + j ≤ K) :
    (chainTree K x ns).follow (2 + (i + j : ℕ)) (List.replicate j .up) =
      some (2 + (i : Int)) := by
  induction j with
  | zero => rfl
  | succ j ih =>
    have hroot : ¬ ((2 : Int) + (i + (j + 1) : ℕ) = (chainTree K x ns).root) := by
      simp only [chainTree]
      omega
    have hparent : (chainTree K x ns).parent (2 + (i + (j + 1) : ℕ)) = some (2 + (i + j : ℕ)) := by
      have hin : ¬ ((2 : Int) + (i + (j + 1) : ℕ) = 2 + K + 1) := by omega
      simp only [chainTree, if_neg hin]
      congr 1
      omega
    rw [List.replicate_succ, Tree.follow, Tree.step, if_neg hroot, hparent]
    exact ih (by omega)

/-- Above the root the chain has no other name. -/
theorem chain_child {a : Name} (i : ℕ) (h0 : 0 < i) (hi : i ≤ K) (ha : a ≠ x) :
    (chainTree K x ns).child (2 + i) a = none := by
  have h1 : ¬ (a = x ∧ (2 : Int) ≤ 2 + i ∧ (2 : Int) + i < 2 + K) := fun h => ha h.1
  have h2 : ¬ ((2 : Int) + i = 2 ∧ ns.head? = some a) := by omega
  have h3 : ¬ ((2 : Int) + K < 2 + i ∧ ns[((2 : Int) + i - 2 - K).toNat]? = some a) := by omega
  rw [chain_child_eq, if_neg h1, if_neg h2, if_neg h3]

/-- The branch below its first directory. -/
theorem branch_lookup (l : List Name) (i : ℕ) (h0 : 0 < i) (hl : ns.drop i = l) :
    (chainTree K x ns).lookup (2 + K + i) l = some (.folder (2 + K + i + l.length)) := by
  induction l generalizing i with
  | nil => simp [Tree.lookup]
  | cons n l ih =>
    have hn : ns[i]? = some n := by
      rw [← List.head?_drop, hl]
      rfl
    have hrest : ns.drop (i + 1) = l := by
      rw [← List.drop_drop, hl]
      rfl
    have hchild : (chainTree K x ns).child (2 + K + i) n =
        some (.folder (2 + K + (i + 1 : ℕ))) := by
      have h1 : ¬ (n = x ∧ (2 : Int) ≤ 2 + K + i ∧ (2 : Int) + K + i < 2 + K) := by omega
      have h2 : ¬ ((2 : Int) + K + i = 2 ∧ ns.head? = some n) := by omega
      have hidx : ((2 : Int) + K + i - 2 - K).toNat = i := by omega
      have h3 : (2 : Int) + K < 2 + K + i ∧ ns[((2 : Int) + K + i - 2 - K).toNat]? = some n := by
        rw [hidx]
        exact ⟨by omega, hn⟩
      rw [chain_child_eq, if_neg h1, if_neg h2, if_pos h3]
      congr 2
    rw [Tree.lookup, hchild]
    simp only [ih (i + 1) (by omega) hrest, List.length_cons]
    congr 2
    omega

/-- The names of the branch are found from the root. -/
theorem branch_root (hns : ns ≠ []) (hx : ns.head? ≠ some x) :
    (chainTree K x ns).lookup 2 ns = some (.folder (2 + K + ns.length)) := by
  obtain ⟨n, l, rfl⟩ := List.exists_cons_of_ne_nil hns
  have hne : n ≠ x := by simpa using hx
  have hchild : (chainTree K x (n :: l)).child 2 n = some (.folder (2 + K + (1 : ℕ))) := by
    have h1 : ¬ (n = x ∧ (2 : Int) ≤ 2 ∧ (2 : Int) < 2 + K) := fun h => hne h.1
    have h2 : (2 : Int) = 2 ∧ (n :: l).head? = some n := ⟨rfl, rfl⟩
    rw [chain_child_eq, if_neg h1, if_pos h2]
    rfl
  rw [Tree.lookup, hchild]
  have hrest := @branch_lookup K x (n :: l) l 1 Nat.one_pos rfl
  simp only [hrest, List.length_cons]
  congr 2
  omega

theorem chain_no_file (l : List Name) (d f : Int) :
    (chainTree K x ns).lookup d l ≠ some (.file f) := by
  have folders : ∀ d n g, (chainTree K x ns).child d n ≠ some (.file g) := by
    intro d n g h
    rw [chain_child_eq] at h
    split_ifs at h <;> cases h
  induction l generalizing d with
  | nil => simp [Tree.lookup]
  | cons n l ih =>
    rw [Tree.lookup]
    split
    · exact ih _
    · rename_i g hg
      exact absurd hg (folders d n g)
    · simp

/-- A path whose first name is not in the chain leads nowhere from its end. -/
theorem chain_lost {path rest : List (PathStep Name)} {j : ℕ} {a : Name}
    (hpath : path = List.replicate j .up ++ .name a :: rest) (hj : j < K) (ha : a ≠ x) :
    (chainTree K x ns).follow (2 + K) path = none := by
  have hups := @chain_up K x ns j (K - j) (by omega)
  have hstart : K - j + j = K := by omega
  rw [hstart] at hups
  rw [hpath, Tree.follow_append, hups, Option.bind_some, Tree.follow, Tree.step,
    chain_child (K - j) (by omega) (by omega) ha]
  rfl

/-- From the end of the chain the code goes up to the root, and from there to the
branch: it reports no error. -/
theorem chain_no_error {path : List (PathStep Name)} (hlevels : path.count .up < 65536)
    (hK : K = path.count .up) (hns : ns = afterUps [] path) (hx : ns.head? ≠ some x) :
    (255 < (colonPath ns).length →
      ChangeDirectory (toolboxOf (chainTree K x ns)) (2 + K) 0 (pathText path) = none) ∧
    ∀ d v, ChangeDirectory (toolboxOf (chainTree K x ns)) (2 + K) 0 (pathText path) ≠
      some (1, d, v) := by
  have hres := @toolboxOf_resolves (chainTree K x ns) rfl 0
  have hcwd := @chain_directory K x ns K (Nat.le_refl K)
  have hroot : (chainTree K x ns).follow (2 + K) (List.replicate K .up) = some 2 := by
    have h := @chain_up K x ns K 0 (by omega)
    rw [Nat.zero_add] at h
    exact h
  have hcode := hres.changeDirectory_from hcwd path hlevels (by rw [← hK]; exact hroot)
  rw [← hns] at hcode
  rw [hcode]
  by_cases hnil : ns = []
  · rw [if_pos hnil]
    refine ⟨fun hlong => ?_, by simp⟩
    simp [hnil, colonPath] at hlong
  · rw [if_neg hnil]
    refine ⟨fun hlong => if_pos hlong, fun d v => ?_⟩
    split_ifs with hlong
    · simp
    · have hdir : (chainTree K x ns).Directory 2 := .root
      rw [hres.byName_eq hdir hnil (by omega), branch_root hnil hx]
      simp

end Chain

/-- A name of `n + 1` letters. -/
def longName (n : ℕ) : Name :=
  ⟨List.replicate (n + 1) 120, by simp [IsName, List.replicate_succ]⟩

theorem longName_ne {n : ℕ} {a : Name} (h : a.val.length ≤ n) : a ≠ longName n := by
  rintro rfl
  simp only [longName, List.length_replicate] at h
  omega

/-- A name that is not the first of `ns`, and not `a`. -/
theorem exists_fresh (ns : List Name) (a : Name) : ∃ x : Name, ns.head? ≠ some x ∧ a ≠ x := by
  cases ns with
  | nil => exact ⟨longName a.val.length, by simp, longName_ne (Nat.le_refl _)⟩
  | cons n ns =>
    refine ⟨longName (a.val.length + n.val.length), ?_, longName_ne (by omega)⟩
    have hn : n ≠ longName (a.val.length + n.val.length) := longName_ne (by omega)
    simpa using hn

/-- A path that is followed in every tree is in order, and its names fit. -/
theorem order_of_followed {path : List (PathStep Name)} (hlevels : path.count .up < 65536)
    (h : ∀ fs t vRefNum cwd, Resolves fs vRefNum t → t.Directory cwd →
      ¬ LeadsToFile t cwd path → Followed fs t vRefNum cwd path) : UpsThenNames path := by
  have inChain : ∀ x : Name,
      let t := chainTree (path.count .up) x (afterUps [] path)
      Followed (toolboxOf t) t 0 (2 + path.count .up) path := by
    intro x t
    refine h _ t 0 _ (toolboxOf_resolves rfl 0) (chain_directory _ (Nat.le_refl _)) ?_
    rintro ⟨k, ns, d, f, -, -, hf⟩
    exact chain_no_file ns d f hf
  rcases order_or_late path with ⟨k, ns, hpath⟩ | ⟨k, a, rest, hpath, hup⟩
  · refine ⟨k, ns, hpath, ?_⟩
    by_contra hlong
    obtain ⟨x, hx, -⟩ := exists_fresh (afterUps [] path) (longName 0)
    have hns : afterUps [] path = ns := by rw [hpath, afterUps_shape]
    have hnone := (chain_no_error hlevels rfl rfl hx).1 (by rw [hns]; omega)
    have hfollowed := inChain x
    rw [Followed, hnone] at hfollowed
    split at hfollowed <;> cases hfollowed
  · -- the first name is not in the chain, so the path leads nowhere
    obtain ⟨x, hx, ha⟩ := exists_fresh (afterUps [] path) a
    have hcount : path.count .up = k + rest.count .up := by
      rw [hpath]
      simp [List.count_append]
    have hlate : 0 < rest.count .up := List.count_pos_iff.mpr hup
    have hgone := @chain_lost (path.count .up) x (afterUps [] path) path rest k a hpath
      (by omega) ha
    have hfollowed := inChain x
    rw [Followed, hgone] at hfollowed
    exact absurd hfollowed ((chain_no_error hlevels rfl rfl hx).2 _ _)

/-- A path is followed in every tree, except where it leads to a file, exactly when
all its ".." come before its names and the names fit in `tempst`; where such a path
leads to a file it is not followed. -/
theorem changeDirectory_iff {path : List (PathStep Name)} (hlevels : path.count .up < 65536) :
    ((∀ fs t vRefNum cwd, Resolves fs vRefNum t → t.Directory cwd →
        ¬ LeadsToFile t cwd path → Followed fs t vRefNum cwd path) ↔ UpsThenNames path) ∧
    ∀ fs t vRefNum cwd, Resolves fs vRefNum t → t.Directory cwd →
      LeadsToFile t cwd path → UpsThenNames path → ¬ Followed fs t vRefNum cwd path := by
  refine ⟨⟨order_of_followed hlevels, ?_⟩, ?_⟩
  · intro horder fs t vRefNum cwd hres hcwd hfile
    exact (hres.followed_iff hcwd hlevels horder).mpr hfile
  · intro fs t vRefNum cwd hres hcwd hfile horder hfollowed
    exact (hres.followed_iff hcwd hlevels horder).mp hfollowed hfile

/-- The path `../x` is followed, from a directory `x` below the root. -/
theorem changeDirectory_up_then_name :
    Followed (toolboxOf (chainTree 1 (longName 0) [])) (chainTree 1 (longName 0) []) 0 3
      [.up, .name (longName 0)] := by
  have horder : UpsThenNames [.up, .name (longName 0)] := ⟨1, [longName 0], rfl, by decide⟩
  apply (@changeDirectory_iff [.up, .name (longName 0)] (by decide)).1.mpr horder
  · exact toolboxOf_resolves rfl 0
  · exact chain_directory 1 (by decide)
  · rintro ⟨k, ns, d, f, -, -, hf⟩
    exact chain_no_file ns d f hf

/-- From a directory that contains an `x`, the path `x/..` leads to the directory
above it instead of back to it. -/
theorem changeDirectory_name_then_up :
    ∃ fs t cwd, Resolves fs 0 t ∧ t.Directory cwd ∧
      ¬ LeadsToFile t cwd [.name (longName 0), .up] ∧
      ¬ Followed fs t 0 cwd [.name (longName 0), .up] := by
  let t := chainTree 2 (longName 0) []
  refine ⟨toolboxOf t, t, 3, toolboxOf_resolves rfl 0, chain_directory 1 (by decide), ?_, ?_⟩
  · rintro ⟨k, ns, d, f, -, -, hf⟩
    exact chain_no_file ns d f hf
  · have hcode : ChangeDirectory (toolboxOf t) 3 0 (pathText [.name (longName 0), .up]) =
        some (0, 2, 0) := by decide
    have hfollow : t.follow 3 [.name (longName 0), .up] = some 3 := by decide
    rw [Followed, hcode, hfollow]
    decide

end MacUtil
