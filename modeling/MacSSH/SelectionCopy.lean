import Mathlib.Data.List.DropRight
import MacSSH.ScreenLines

/-! Copying the text of one line of a selection, with runs of blanks replaced by tabs. -/
namespace VS

/-- What has been copied to the buffer, and the number of its bytes that have been written. -/
structure Out where
  text : List UInt8
  reach : ℕ
  deriving DecidableEq, Repr

/-- `*dest++ = c` -/
def Out.put (dest : Out) (c : UInt8) : Out :=
  ⟨dest.text ++ [c], max dest.reach (dest.text.length+1)⟩

/-- `strcpy(charp, s); charp += strlen(s);`: a NUL is stored behind the string. -/
def Out.strcpy (dest : Out) (s : List UInt8) : Out :=
  let dest := s.foldl Out.put dest
  { dest with reach := max dest.reach (dest.text.length+1) }

/-- The loop of the tab-replacement copy; `src` is what is left up to `p`. `none` when the
turns do not suffice. -/
def tabCopy (table : Int) : ℕ → List UInt8 → Out → Option Out
  | 0, _, _ => none
  | turns+1, src, dest =>
    if src = [] then some dest
    else
      let dest := (src.takeWhile (· ≠ 32)).foldl Out.put dest
      let src := src.dropWhile (· ≠ 32)
      -- if (src < p)
      if src.length > 1 then
        let run := src.takeWhile (· = 32)
        let filled := run.foldl Out.put dest
        let dest := if run.length ≥ table then { filled with text := dest.text ++ [9] } else filled
        tabCopy table turns (src.dropWhile (· = 32)) dest
      else tabCopy table turns src dest

/-- Copy `src` without trailing blanks, which only `noClip` keeps; runs of `table` or more
blanks are replaced by a tab if `table` is not zero. `none` when the copy does not end: no
copy that ends takes more turns than there are characters, and one more. -/
def VSIstrcopy (src : List UInt8) (dest : Out) (table : Int) (noClip : Bool) : Option Out :=
  let src := if noClip then src else src.rdropWhile (· = 32)
  if src = [] then some dest
  else if table = 0 then some (src.foldl Out.put dest)
  else tabCopy table (src.length+1) src dest

/-- What a run of `n` blanks becomes. -/
def blankRun (table : Int) (n : ℕ) : List UInt8 :=
  if n = 0 then [] else if n ≥ table then [9] else List.replicate n 32

/-- The text behind `n` blanks, with its runs of blanks replaced. -/
def tabbed (table : Int) : ℕ → List UInt8 → List UInt8
  | n, [] => blankRun table n
  | n, c :: cs =>
    if c = 32 then tabbed table (n+1) cs else blankRun table n ++ c :: tabbed table 0 cs

/-- The text of a part of a line, as it is to be copied. -/
def partText (table : Int) (noClip : Bool) (src : List UInt8) : List UInt8 :=
  let src := if noClip then src else src.rdropWhile (· = 32)
  if table = 0 then src else tabbed table 0 src

/-- The text ends with a blank that is not part of a longer run. -/
def EndsInLoneBlank (src : List UInt8) : Prop :=
  src.getLast? = some 32 ∧ src.dropLast.getLast? ≠ some 32

instance (src : List UInt8) : Decidable (EndsInLoneBlank src) :=
  inferInstanceAs (Decidable (_ ∧ _))

section Puts
variable (dest : Out)

@[simp] theorem put_text (cs : List UInt8) : (cs.foldl Out.put dest).text = dest.text ++ cs := by
  induction cs generalizing dest with
  | nil => exact (List.append_nil _).symm
  | cons c cs ih => rw [List.foldl_cons, ih, Out.put, List.append_assoc, List.singleton_append]

theorem put_reach (cs : List UInt8) : dest.reach ≤ (cs.foldl Out.put dest).reach ∧
    (cs.foldl Out.put dest).reach ≤ max dest.reach (dest.text.length+cs.length) := by
  induction cs generalizing dest with
  | nil => exact ⟨le_rfl, Nat.le_max_left _ _⟩
  | cons c cs ih =>
    obtain ⟨hlow, hhigh⟩ := ih (dest.put c)
    rw [List.foldl_cons]
    simp only [Out.put, List.length_append, List.length_singleton] at hlow hhigh ⊢
    rw [List.length_cons]
    omega

end Puts

section Tabs
variable {table : Int}

theorem tabbed_blanks (n k : ℕ) (cs : List UInt8) :
    tabbed table n (List.replicate k 32 ++ cs) = tabbed table (n+k) cs := by
  induction k generalizing n with
  | zero => rfl
  | succ k ih =>
    rw [List.replicate_succ, List.cons_append, tabbed, if_pos rfl, ih]
    congr 1
    omega

theorem tabbed_word {word : List UInt8} (hword : ∀ c ∈ word, c ≠ 32) (cs : List UInt8) :
    tabbed table 0 (word ++ cs) = word ++ tabbed table 0 cs := by
  induction word with
  | nil => rfl
  | cons c word ih =>
    have hc : c ≠ 32 := hword c List.mem_cons_self
    rw [List.cons_append, tabbed, if_neg hc, ih fun d hd => hword d (List.mem_cons_of_mem c hd)]
    rfl

/-- Behind a run of blanks comes something else. -/
theorem tabbed_run (n : ℕ) {cs : List UInt8} (hcs : cs.head? ≠ some 32) :
    tabbed table n cs = blankRun table n ++ tabbed table 0 cs := by
  cases cs with
  | nil => exact (List.append_nil _).symm
  | cons c cs =>
    have hc : c ≠ 32 := fun h => hcs (congrArg some h)
    rw [tabbed, if_neg hc, tabbed, if_neg hc]
    rfl

theorem blankRun_length (n : ℕ) : (blankRun table n).length ≤ n := by
  rw [blankRun]
  split_ifs with h0
  · exact Nat.zero_le n
  · exact Nat.one_le_iff_ne_zero.mpr h0
  · rw [List.length_replicate]

theorem tabbed_length (n : ℕ) (cs : List UInt8) : (tabbed table n cs).length ≤ n+cs.length := by
  induction cs generalizing n with
  | nil => exact blankRun_length n
  | cons c cs ih =>
    rw [tabbed]
    split_ifs
    · have := ih (n+1)
      rw [List.length_cons]
      omega
    · have := ih 0
      have := @blankRun_length table n
      rw [List.length_append, List.length_cons, List.length_cons]
      omega

end Tabs

/-- A text as a word without blanks, a run of blanks and the rest, the way the loop goes
through it. -/
structure Split (src word rest : List UInt8) (k : ℕ) : Prop where
  eq : src = word ++ (List.replicate k 32 ++ rest)
  no_blank : ∀ c ∈ word, c ≠ 32
  no_more : rest.head? ≠ some 32
  ends : k = 0 → rest = []
  take_word : src.takeWhile (· ≠ 32) = word
  drop_word : src.dropWhile (· ≠ 32) = List.replicate k 32 ++ rest
  take_run : (List.replicate k 32 ++ rest).takeWhile (· = 32) = List.replicate k 32
  drop_run : (List.replicate k 32 ++ rest).dropWhile (· = 32) = rest

section Copies
variable {table : Int} {src word rest : List UInt8} {k : ℕ}

theorem split_blanks (src : List UInt8) : ∃ word rest k, Split src word rest k := by
  let tail := src.dropWhile (· ≠ 32)
  have hrun : tail.takeWhile (· = 32) = List.replicate (tail.takeWhile (· = 32)).length 32 := by
    apply List.eq_replicate_of_mem
    intro c hc
    have hblank := List.mem_takeWhile_imp hc
    exact of_decide_eq_true hblank
  have hrest : (tail.dropWhile (· = 32)).head? ≠ some 32 := by
    intro hhead
    have hnot := List.head?_dropWhile_not (fun c : UInt8 => decide (c = 32)) tail
    rw [hhead] at hnot
    exact absurd hnot (by decide)
  have htail : List.replicate (tail.takeWhile (· = 32)).length 32 ++ tail.dropWhile (· = 32) =
      tail := by
    rw [← hrun]
    exact List.takeWhile_append_dropWhile
  refine ⟨src.takeWhile (· ≠ 32), tail.dropWhile (· = 32), (tail.takeWhile (· = 32)).length,
    ?_, ?_, hrest, ?_, rfl, htail.symm, ?_, ?_⟩
  · rw [htail]
    exact List.takeWhile_append_dropWhile.symm
  · intro c hc
    have hletter := List.mem_takeWhile_imp hc
    exact of_decide_eq_true hletter
  · intro hzero
    rw [hzero, List.replicate_zero, List.nil_append] at htail
    rw [htail]
    -- a character behind the word is a blank, and it would be in the run
    rcases htail' : tail with _ | ⟨c, t⟩
    · rfl
    · have hblank := List.head?_dropWhile_not (fun c : UInt8 => decide (c ≠ 32)) src
      rw [show src.dropWhile (fun c : UInt8 => decide (c ≠ 32)) = c :: t from htail'] at hblank
      have hc : c = 32 := not_not.mp (of_decide_eq_false hblank)
      rw [htail, htail', hc] at hrest
      exact absurd rfl hrest
  · rw [htail]
    exact hrun
  · rw [htail]

theorem Split.length_eq (h : Split src word rest k) :
    src.length = word.length+(k+rest.length) := by
  rw [h.eq, List.length_append, List.length_append, List.length_replicate]

/-- The run is what the blanks behind the word become. -/
theorem Split.tabbed_eq (h : Split src word rest k) :
    tabbed table 0 src = word ++ (blankRun table k ++ tabbed table 0 rest) := by
  rw [h.eq, tabbed_word h.no_blank, tabbed_blanks, Nat.zero_add, tabbed_run k h.no_more]

/-- Without a lone blank at the end, what is not worth a turn of its own is the end of the text. -/
theorem Split.ends_word (h : Split src word rest k) (hmore : ¬1 < k+rest.length)
    (hlone : ¬(rest = [] ∧ k = 1)) : rest = [] ∧ k = 0 ∧ src = word := by
  have hrest : rest = [] := by
    by_cases hk : k = 0
    · exact h.ends hk
    · apply List.eq_nil_of_length_eq_zero
      omega
  have hzero : k = 0 := by
    by_contra hk
    rw [hrest, List.length_nil] at hmore
    exact hlone ⟨hrest, by omega⟩
  refine ⟨hrest, hzero, ?_⟩
  rw [h.eq, hrest, hzero]
  simp

/-- Where the text ends in a lone blank, this is the run, or it is in the rest. -/
theorem Split.lone_iff (h : Split src word rest k) :
    EndsInLoneBlank src ↔ (rest = [] ∧ k = 1) ∨ EndsInLoneBlank rest := by
  have hnil : ¬EndsInLoneBlank [] := by decide
  have hword : word.getLast? ≠ some 32 := by
    intro hlast
    exact h.no_blank 32 (List.mem_of_getLast? hlast) rfl
  rw [h.eq]
  rcases List.eq_nil_or_concat rest with rfl | ⟨l, c, rfl⟩
  · rw [List.append_nil]
    cases k with
    | zero =>
      rw [List.replicate_zero, List.append_nil]
      refine iff_of_false (fun hl => hword hl.1) ?_
      rintro (⟨-, h0⟩ | hl)
      · exact absurd h0 (by decide)
      · exact hnil hl
    | succ k =>
      rw [List.replicate_succ', ← List.append_assoc, EndsInLoneBlank, List.dropLast_concat,
        List.getLast?_concat]
      cases k with
      | zero =>
        rw [List.replicate_zero, List.append_nil]
        exact iff_of_true ⟨rfl, hword⟩ (Or.inl ⟨rfl, rfl⟩)
      | succ k =>
        rw [List.replicate_succ', ← List.append_assoc, List.getLast?_concat]
        refine iff_of_false (fun hl => hl.2 rfl) ?_
        rintro (⟨-, h0⟩ | hl)
        · omega
        · exact hnil hl
  · have hk : k ≠ 0 := by
      intro h0
      exact absurd (h.ends h0) (by simp)
    obtain ⟨k, rfl⟩ := Nat.exists_eq_succ_of_ne_zero hk
    rw [List.concat_eq_append, ← List.append_assoc, ← List.append_assoc]
    simp only [EndsInLoneBlank, List.dropLast_concat, List.getLast?_concat]
    rcases List.eq_nil_or_concat l with rfl | ⟨l, d, rfl⟩
    · have hc : c ≠ 32 := fun hc => h.no_more (congrArg some hc)
      simp [hc]
    · simp

/-- The buffer behind a word and a run of `k` blanks. -/
def Out.putRun (dest : Out) (table : Int) (word : List UInt8) (k : ℕ) : Out :=
  let dest := word.foldl Out.put dest
  let filled := (List.replicate k 32).foldl Out.put dest
  if k ≥ table then { filled with text := dest.text ++ [9] } else filled

/-- One turn of the loop: a word and the run behind it, or a word without more than one
character behind it. -/
theorem tabCopy_turn (h : Split src word rest k) (hne : src ≠ []) (turns : ℕ) (dest : Out) :
    tabCopy table (turns+1) src dest =
      if 1 < k+rest.length then tabCopy table turns rest (dest.putRun table word k)
      else tabCopy table turns (List.replicate k 32 ++ rest) (word.foldl Out.put dest) := by
  rw [tabCopy, if_neg hne]
  simp only
  rw [h.take_word, h.drop_word, h.take_run, h.drop_run, List.length_append, List.length_replicate]
  rfl

theorem putRun_text (dest : Out) (word : List UInt8) (hk : k ≠ 0) :
    (dest.putRun table word k).text = dest.text ++ (word ++ blankRun table k) := by
  simp only [Out.putRun, blankRun]
  rw [if_neg hk]
  split_ifs
  · rw [put_text, List.append_assoc]
  · rw [put_text, put_text, List.append_assoc]

theorem putRun_reach (dest : Out) (table : Int) (word : List UInt8) (k : ℕ) :
    dest.reach ≤ (dest.putRun table word k).reach ∧
      (dest.putRun table word k).reach ≤ max dest.reach (dest.text.length+(word.length+k)) := by
  obtain ⟨hlow, hhigh⟩ := put_reach dest word
  obtain ⟨hlow', hhigh'⟩ := put_reach (word.foldl Out.put dest) (List.replicate k 32)
  rw [put_text, List.length_append, List.length_replicate] at hhigh'
  have hreach : (dest.putRun table word k).reach =
      ((List.replicate k 32).foldl Out.put (word.foldl Out.put dest)).reach := by
    simp only [Out.putRun]
    split_ifs <;> rfl
  rw [hreach]
  omega

theorem tabCopy_nil {turns : ℕ} (hturns : turns ≠ 0) (dest : Out) :
    tabCopy table turns [] dest = some dest := by
  obtain ⟨turns, rfl⟩ := Nat.exists_eq_succ_of_ne_zero hturns
  rw [tabCopy, if_pos rfl]

/-- Without a lone blank at the end, the loop comes to an end: it replaces the runs, and never
writes beyond the length of the text. -/
theorem tabCopy_ends {turns : ℕ} (hturns : src.length < turns) (hlone : ¬EndsInLoneBlank src)
    (dest : Out) :
    ∃ out, tabCopy table turns src dest = some out ∧
      out.text = dest.text ++ tabbed table 0 src ∧ dest.reach ≤ out.reach ∧
      out.reach ≤ max dest.reach (dest.text.length+src.length) := by
  induction turns generalizing src dest with
  | zero => exact absurd hturns (Nat.not_lt_zero _)
  | succ turns ih =>
    by_cases hne : src = []
    · subst hne
      exact ⟨dest, tabCopy_nil (Nat.succ_ne_zero _) dest, (List.append_nil _).symm, le_rfl,
        Nat.le_max_left _ _⟩
    · obtain ⟨word, rest, k, h⟩ := split_blanks src
      have hlen := h.length_eq
      rw [h.lone_iff, not_or] at hlone
      rw [tabCopy_turn h hne]
      split_ifs with hmore
      · have hk : k ≠ 0 := by
          rintro rfl
          rw [h.ends rfl] at hmore
          exact absurd hmore (by decide)
        obtain ⟨out, hrun, htext, hlow, hhigh⟩ := ih (by omega) hlone.2 (dest.putRun table word k)
        obtain ⟨hlow', hhigh'⟩ := putRun_reach dest table word k
        have hshorter := @blankRun_length table k
        rw [putRun_text dest word hk, List.length_append, List.length_append] at hhigh
        refine ⟨out, hrun, ?_, hlow'.trans hlow, by omega⟩
        calc out.text
            = dest.text ++ (word ++ blankRun table k) ++ tabbed table 0 rest := by
              rw [htext, putRun_text dest word hk]
          _ = dest.text ++ (word ++ (blankRun table k ++ tabbed table 0 rest)) := by
              simp only [List.append_assoc]
          _ = dest.text ++ tabbed table 0 src := by rw [h.tabbed_eq]
      · obtain ⟨hrest, hzero, hsrc⟩ := h.ends_word hmore hlone.1
        have hturns' : turns ≠ 0 := by
          have hpos := List.length_pos_iff.mpr hne
          omega
        rw [hrest, hzero, List.replicate_zero, List.nil_append, tabCopy_nil hturns']
        obtain ⟨hlow, hhigh⟩ := put_reach dest word
        refine ⟨_, rfl, ?_, hlow, by rw [hsrc]; exact hhigh⟩
        rw [put_text, h.tabbed_eq, hrest, hzero, tabbed, blankRun, if_pos rfl, List.append_nil,
          List.append_nil]

/-- A lone blank at the end is never passed, however many turns there are. -/
theorem tabCopy_stuck (turns : ℕ) (hlone : EndsInLoneBlank src) (dest : Out) :
    tabCopy table turns src dest = none := by
  induction turns generalizing src dest with
  | zero => rfl
  | succ turns ih =>
    have hne : src ≠ [] := by
      rintro rfl
      exact absurd hlone (by decide)
    obtain ⟨word, rest, k, h⟩ := split_blanks src
    have hcases := h.lone_iff.mp hlone
    rw [tabCopy_turn h hne]
    split_ifs with hmore
    · apply ih
      rcases hcases with ⟨rfl, rfl⟩ | hrest
      · exact absurd hmore (by decide)
      · exact hrest
    · apply ih
      rcases hcases with ⟨rfl, rfl⟩ | hrest
      · decide
      · -- a rest that ends in a lone blank has a run before it
        have hlong : rest ≠ [] := by
          rintro rfl
          exact absurd hrest (by decide)
        have hpos := List.length_pos_iff.mpr hlong
        have hk : k ≠ 0 := fun hk => hlong (h.ends hk)
        omega

/-- Whether the copy of a part of a line ends. -/
def CopyEnds (table : Int) (noClip : Bool) (src : List UInt8) : Prop :=
  table = 0 ∨ noClip = false ∨ ¬EndsInLoneBlank src

instance (table : Int) (noClip : Bool) (src : List UInt8) : Decidable (CopyEnds table noClip src) :=
  inferInstanceAs (Decidable (_ ∨ _ ∨ _))

/-- A text without trailing blanks does not end in one. -/
theorem not_lone_rdropWhile (src : List UInt8) : ¬EndsInLoneBlank (src.rdropWhile (· = 32)) := by
  rintro ⟨hlast, -⟩
  have hne : src.rdropWhile (· = 32) ≠ [] := by
    intro hnil
    rw [hnil] at hlast
    exact absurd hlast (by decide)
  have hnot := List.rdropWhile_last_not (fun c : UInt8 => decide (c = 32)) src hne
  rw [List.getLast?_eq_some_getLast hne] at hlast
  exact hnot (decide_eq_true (Option.some.inj hlast))

theorem clipped_length (noClip : Bool) (src : List UInt8) :
    (if noClip then src else src.rdropWhile (· = 32)).length ≤ src.length := by
  split_ifs
  · exact le_rfl
  · exact (List.rdropWhile_prefix _ _).length_le

theorem partText_length (table : Int) (noClip : Bool) (src : List UInt8) :
    (partText table noClip src).length ≤ src.length := by
  have hclip := clipped_length noClip src
  rw [partText]
  generalize (if noClip then src else src.rdropWhile (· = 32)) = l at hclip ⊢
  split_ifs
  · exact hclip
  · have hbound := @tabbed_length table 0 l
    omega

/-- The copy of a part of a line, where it ends. -/
theorem VSIstrcopy_ends {noClip : Bool} (hends : CopyEnds table noClip src) (dest : Out) :
    ∃ out, VSIstrcopy src dest table noClip = some out ∧
      out.text = dest.text ++ partText table noClip src ∧ dest.reach ≤ out.reach ∧
      out.reach ≤ max dest.reach (dest.text.length+src.length) := by
  have hlone : table = 0 ∨ ¬EndsInLoneBlank (if noClip then src else src.rdropWhile (· = 32)) := by
    rcases hends with htable | hclip | hlone
    · exact Or.inl htable
    · rw [hclip, if_neg Bool.false_ne_true]
      exact Or.inr (not_lone_rdropWhile src)
    · right
      split_ifs
      · exact hlone
      · exact not_lone_rdropWhile src
  have hclip := clipped_length noClip src
  rw [VSIstrcopy, partText]
  generalize (if noClip then src else src.rdropWhile (· = 32)) = l at hlone hclip ⊢
  by_cases hnil : l = []
  · subst hnil
    rw [if_pos rfl]
    refine ⟨dest, rfl, ?_, le_rfl, Nat.le_max_left _ _⟩
    split_ifs <;> exact (List.append_nil _).symm
  · rw [if_neg hnil]
    by_cases htable : table = 0
    · obtain ⟨hlow, hhigh⟩ := put_reach dest l
      rw [if_pos htable, if_pos htable]
      exact ⟨_, rfl, put_text dest l, hlow, by omega⟩
    · obtain ⟨out, hrun, htext, hlow, hhigh⟩ :=
        tabCopy_ends (Nat.lt_succ_self l.length) (hlone.resolve_left htable) dest
      rw [if_neg htable, if_neg htable]
      exact ⟨out, hrun, htext, hlow, by omega⟩

/-- `VSIstrcopy` when its loop is given a number of turns. -/
def VSIstrcopyTurns (turns : ℕ) (src : List UInt8) (dest : Out) (table : Int) (noClip : Bool) :
    Option Out :=
  let src := if noClip then src else src.rdropWhile (· = 32)
  if src = [] then some dest
  else if table = 0 then some (src.foldl Out.put dest)
  else tabCopy table turns src dest

theorem VSIstrcopy_turns (src : List UInt8) (dest : Out) (table : Int) (noClip : Bool) :
    VSIstrcopyTurns ((if noClip then src else src.rdropWhile (· = 32)).length+1) src dest table
      noClip = VSIstrcopy src dest table noClip := rfl

/-- No number of turns is enough where the copy does not end. -/
theorem VSIstrcopyTurns_stuck {noClip : Bool} (hends : ¬CopyEnds table noClip src) (turns : ℕ)
    (dest : Out) : VSIstrcopyTurns turns src dest table noClip = none := by
  rw [CopyEnds, not_or, not_or, not_not, Bool.not_eq_false] at hends
  obtain ⟨htable, rfl, hlone⟩ := hends
  have hne : src ≠ [] := by
    rintro rfl
    exact absurd hlone (by decide)
  simp only [VSIstrcopyTurns, if_true]
  rw [if_neg hne, if_neg htable]
  exact tabCopy_stuck turns hlone dest

theorem VSIstrcopy_stuck {noClip : Bool} (hends : ¬CopyEnds table noClip src) (dest : Out) :
    VSIstrcopy src dest table noClip = none := by
  rw [← VSIstrcopy_turns]
  exact VSIstrcopyTurns_stuck hends _ dest

/-- The copy of a line to a buffer ends after some turns, has stored no byte behind as many as
the line has, and has put the text of the line with its runs of blanks replaced there. -/
def CopiesLine (src : List UInt8) (dest : Out) (table : Int) (noClip : Bool) : Prop :=
  ∃ turns out, VSIstrcopyTurns turns src dest table noClip = some out ∧
    out.text = dest.text ++ partText table noClip src ∧
    out.reach ≤ max dest.reach (dest.text.length+src.length)

/-- A line is copied unless it is to be kept whole, blanks are to be replaced, and it ends in a
blank that is not part of a longer run. -/
theorem VSIstrcopy_iff (src : List UInt8) (dest : Out) (table : Int) (noClip : Bool) :
    CopiesLine src dest table noClip ↔
      ¬(table ≠ 0 ∧ noClip = true ∧ EndsInLoneBlank src) := by
  have hcond : CopyEnds table noClip src ↔
      ¬(table ≠ 0 ∧ noClip = true ∧ EndsInLoneBlank src) := by
    rw [CopyEnds, not_and_or, not_and_or, not_not, Bool.not_eq_true]
  rw [← hcond]
  constructor
  · rintro ⟨turns, out, hrun, -⟩
    by_contra hstuck
    rw [VSIstrcopyTurns_stuck hstuck] at hrun
    cases hrun
  · intro hends
    obtain ⟨out, hrun, htext, -, hreach⟩ := VSIstrcopy_ends hends dest
    rw [← VSIstrcopy_turns] at hrun
    exact ⟨_, out, hrun, htext, hreach⟩

/-- A line that ends in one blank is copied without end. -/
theorem lone_blank_not_copied : ¬CopiesLine [97, 32] ⟨[], 0⟩ 3 true := by
  rintro ⟨turns, out, hrun, -⟩
  have hstuck : VSIstrcopyTurns turns [97, 32] ⟨[], 0⟩ 3 true = none :=
    tabCopy_stuck turns (by decide) _
  rw [hstuck] at hrun
  cases hrun

end Copies

end VS
