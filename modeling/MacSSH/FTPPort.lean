import MacSSH.FTPLines

/-! The `PORT` command. Its scanner takes six numbers from the argument whether
they are there or not, steps over the terminator behind the last one and looks
at the byte after it before it asks how many numbers it has. -/
namespace FTPServer
namespace Server

/-- The positions `PORT` reads. The byte at the start of a number is looked at
also when there are six numbers already. -/
def portReads (xs : Buffer) : ℕ → Int → List Int
  | 0, i => [i]
  | n + 1, i =>
    if xs i = 0 then [i]
    else
      let k := tokenLength xs 32768 i
      (List.range (k + 1)).map (fun j : ℕ => i + (j : Int)) ++ portReads xs n (i + k + 1)

/-- The lengths of the fields `PORT` copies behind the length byte of `storage`. -/
def portFields (xs : Buffer) : ℕ → Int → List ℕ
  | 0, _ => []
  | n + 1, i =>
    if xs i = 0 then []
    else
      let k := tokenLength xs 32768 i
      k :: portFields xs n (i + k + 1)

end Server

/-- The size of `storage`. -/
def storageSize : ℕ := 10

def IsDigit (b : UInt8) : Prop := 48 ≤ b ∧ b ≤ 57

instance : DecidablePred IsDigit := fun _ => inferInstanceAs (Decidable (_ ∧ _))

def decimal (f : List UInt8) : ℕ := f.foldl (fun n b => 10 * n + (b.toNat - 48)) 0

def portText : List UInt8 := ascii ['P', 'O', 'R', 'T']

/-- The parts of a `PORT` line between the commas, from the sixth character on. -/
def portParts (line : List UInt8) : List (List UInt8) := (line.drop 5).splitOn 44

/-- The argument is six comma-separated decimal numbers from 0 to 255. -/
def SixNumbers (line : List UInt8) : Prop :=
  (portParts line).length = 6 ∧
    ∀ f ∈ portParts line, f ≠ [] ∧ (∀ b ∈ f, IsDigit b) ∧ decimal f ≤ 255

instance (line : List UInt8) : Decidable (SixNumbers line) :=
  letI : ∀ f : List UInt8, Decidable (∀ b ∈ f, IsDigit b) := List.decidableBAll IsDigit
  inferInstanceAs (Decidable (_ ∧ _))

/-- The address and port of the data connection after `PORT` are those of the
argument, or those from before it. -/
def PortSet (line : List UInt8) (fnum : Int) (s s' : Server) : Prop :=
  if SixNumbers line then
    let number := fun i : ℕ => (((portParts line).map decimal)[i]?).getD 0
    s'.portaddr fnum = [(number 0 : Int), number 1, number 2, number 3] ∧
      s'.portlocalport fnum = 256 * number 4 + number 5 ∧
      s'.fdport = 256 * number 4 + number 5
  else
    s'.portaddr fnum = s.portaddr fnum ∧ s'.portlocalport fnum = s.portlocalport fnum ∧
      s'.fdport = s.fdport

/-- A `PORT` line is obeyed in every state that holds it: the right address and
port are stored, what is read is of the received line, and what is written is in
`storage`. Behind the terminator stand the bytes `behind` of the received line
that were cut off its end. -/
def PortObeyed (sys : System) (line behind : List UInt8) : Prop :=
  ∀ (s : Server) (c : Call), Holds s.xs (line ++ 0 :: behind) →
    PortSet line c.fnum s (s.interpretLine sys c) ∧
    (∀ i ∈ Server.portReads s.xs 6 5, 0 ≤ i ∧ i < (line ++ 0 :: behind).length) ∧
    ∀ k ∈ Server.portFields s.xs 6 5, k + 1 ≤ storageSize

section Scan
variable {xs : Buffer}

/-- The bytes of a list stand in the buffer from position `i` on. -/
def HoldsAt (xs : Buffer) (i : Int) (l : List UInt8) : Prop :=
  ∀ (j : ℕ) (h : j < l.length), xs (i + j) = l[j]

theorem HoldsAt.head {i : Int} {b : UInt8} {l : List UInt8} (h : HoldsAt xs i (b :: l)) :
    xs i = b := by
  have := h 0 (Nat.zero_lt_succ _)
  simpa only [Int.natCast_zero, Int.add_zero, List.getElem_cons_zero] using this

theorem HoldsAt.tail {i : Int} {b : UInt8} {l : List UInt8} (h : HoldsAt xs i (b :: l)) :
    HoldsAt xs (i + 1) l := by
  intro j hj
  have hnext := h (j + 1) (by simpa using hj)
  have hidx : i + ((j + 1 : ℕ) : Int) = i + 1 + j := by omega
  rw [hidx] at hnext
  simpa using hnext

theorem HoldsAt.behind {i : Int} {f l : List UInt8} (h : HoldsAt xs i (f ++ l)) :
    HoldsAt xs (i + f.length) l := by
  induction f generalizing i with
  | nil => simpa using h
  | cons b f ih =>
    have hrest := ih h.tail
    have hidx : i + ((b :: f).length : Int) = i + 1 + f.length := by
      simp only [List.length_cons]
      omega
    rw [hidx]
    exact hrest

/-- A field ends where a comma or the terminator stands. -/
theorem tokenLength_field {i : Int} {f l : List UInt8} {sep : UInt8} (n : ℕ)
    (h : HoldsAt xs i (f ++ sep :: l)) (hf : ∀ b ∈ f, b ≠ 0 ∧ b ≠ 44) (hsep : sep = 0 ∨ sep = 44) :
    Server.tokenLength xs n i = min n f.length := by
  induction f generalizing i n with
  | nil =>
    have hend : xs i = 0 ∨ xs i = 44 := by
      rw [h.head]
      exact hsep
    cases n with
    | zero => rfl
    | succ n => simp only [Server.tokenLength, if_pos hend, List.length_nil, Nat.min_zero]
  | cons b f ih =>
    cases n with
    | zero => simp [Server.tokenLength]
    | succ n =>
      have hb : ¬ (xs i = 0 ∨ xs i = 44) := by
        rw [h.head]
        have := hf b List.mem_cons_self
        simp [this.1, this.2]
      have hrest := ih n h.tail fun c hc => hf c (List.mem_cons_of_mem _ hc)
      simp only [Server.tokenLength, if_neg hb, hrest, List.length_cons]
      omega

theorem IsDigit.plain {b : UInt8} (h : IsDigit b) : b ≠ 0 ∧ b ≠ 44 := by
  constructor
  all_goals
    rintro rfl
    exact absurd h (by decide)

theorem head_ne_zero {i : Int} {f l : List UInt8} (h : HoldsAt xs i (f ++ l)) (hf : f ≠ [])
    (hd : ∀ b ∈ f, b ≠ 0 ∧ b ≠ 44) : xs i ≠ 0 := by
  cases f with
  | nil => exact absurd rfl hf
  | cons b f =>
    rw [h.head]
    exact (hd b List.mem_cons_self).1

end Scan

/-- The fields of an argument, as the scanner meets them. -/
structure Fields (fs : List (List UInt8)) : Prop where
  nonempty : ∀ f ∈ fs, f ≠ []
  plain : ∀ f ∈ fs, ∀ b ∈ f, b ≠ 0 ∧ b ≠ 44

section Fields
variable {xs : Buffer} {sys : System}

theorem Fields.tail {f : List UInt8} {fs : List (List UInt8)} (h : Fields (f :: fs)) :
    Fields fs where
  nonempty := fun g hg => h.nonempty g (List.mem_cons_of_mem _ hg)
  plain := fun g hg => h.plain g (List.mem_cons_of_mem _ hg)

/-- Behind a field stands the terminator, or a comma. -/
theorem intercalate_field (f : List UInt8) (fs : List (List UInt8)) (behind : List UInt8) :
    ∃ sep l, [44].intercalate (f :: fs) ++ 0 :: behind = f ++ sep :: l ∧
      (sep = 0 ∨ sep = 44) := by
  by_cases hfs : fs = []
  · subst hfs
    exact ⟨0, behind, by simp, .inl rfl⟩
  · refine ⟨44, [44].intercalate fs ++ 0 :: behind, ?_, .inr rfl⟩
    simp [List.intercalate_cons_of_ne_nil hfs]

/-- Behind the comma stand the next fields. -/
theorem HoldsAt.next {f : List UInt8} {fs : List (List UInt8)} {behind : List UInt8} {i : Int}
    (h : HoldsAt xs i ([44].intercalate (f :: fs) ++ 0 :: behind)) (hfs : fs ≠ []) :
    HoldsAt xs (i + f.length + 1) ([44].intercalate fs ++ 0 :: behind) := by
  rw [List.intercalate_cons_of_ne_nil hfs, List.append_assoc, List.append_assoc] at h
  exact h.behind.tail

theorem length_intercalate {fs : List (List UInt8)} (f : List UInt8) (hfs : fs ≠ []) :
    ([44].intercalate (f :: fs)).length = f.length + 1 + ([44].intercalate fs).length := by
  rw [List.intercalate_cons_of_ne_nil hfs, List.length_append, List.length_append,
    List.length_singleton]

/-- One round of the scanner. -/
theorem scan_field {f l : List UInt8} {sep : UInt8} {i : Int} (n : ℕ)
    (h : HoldsAt xs i (f ++ sep :: l)) (hne : f ≠ []) (hplain : ∀ b ∈ f, b ≠ 0 ∧ b ≠ 44)
    (hsep : sep = 0 ∨ sep = 44) (hlen : f.length ≤ 9) :
    Server.portNumbers sys xs (n + 1) i =
      sys.stringToNum f :: Server.portNumbers sys xs n (i + f.length + 1) ∧
    Server.portFields xs (n + 1) i =
      f.length :: Server.portFields xs n (i + f.length + 1) ∧
    Server.portReads xs (n + 1) i = (List.range (f.length + 1)).map (fun j : ℕ => i + (j : Int)) ++
      Server.portReads xs n (i + f.length + 1) := by
  have hzero : xs i ≠ 0 := head_ne_zero h hne hplain
  have htoken : Server.tokenLength xs 32768 i = f.length := by
    rw [tokenLength_field 32768 h hplain hsep]
    omega
  -- what is copied to `storage` is the field
  have htext : (List.range f.length).map (fun j : ℕ => xs (i + (j : Int))) = f := by
    apply List.ext_getElem (by simp)
    intro j hj hj'
    have := h j (by simp only [List.length_append]; omega)
    simpa [List.getElem_append_left hj'] using this
  refine ⟨?_, ?_, ?_⟩
  · simp only [Server.portNumbers, if_neg hzero, htoken]
    congr 2
    simpa [List.map_eq_flatMap, List.flatMap_assoc] using htext
  · simp only [Server.portFields, if_neg hzero, htoken]
  · simp only [Server.portReads, if_neg hzero, htoken]

/-- Fields of at most nine characters are copied whole. -/
theorem portScan_copies (fs : List (List UInt8)) (behind : List UInt8) (i : Int)
    (h : HoldsAt xs i ([44].intercalate fs ++ 0 :: behind)) (hf : Fields fs)
    (hshort : ∀ f ∈ fs, f.length ≤ 9) :
    Server.portNumbers sys xs fs.length i = fs.map sys.stringToNum ∧
    Server.portFields xs fs.length i = fs.map List.length := by
  induction fs generalizing i with
  | nil => exact ⟨rfl, rfl⟩
  | cons f fs ih =>
    have hnext := @HoldsAt.next xs f fs behind i h
    obtain ⟨sep, l, hl, hsep⟩ := intercalate_field f fs behind
    rw [hl] at h
    obtain ⟨hnum, hfield, -⟩ := @scan_field xs sys f l sep i fs.length h
      (hf.nonempty f List.mem_cons_self) (hf.plain f List.mem_cons_self) hsep
      (hshort f List.mem_cons_self)
    simp only [List.length_cons, hnum, hfield, List.map_cons]
    by_cases hfs : fs = []
    · subst hfs
      exact ⟨rfl, rfl⟩
    · obtain ⟨ihnum, ihfield⟩ := ih (i + f.length + 1) (hnext hfs) hf.tail
        fun g hg => hshort g (List.mem_cons_of_mem _ hg)
      rw [ihnum, ihfield]
      exact ⟨rfl, rfl⟩

/-- Over fields of at most nine characters the scanner reads from the first of
them up to the byte behind the terminator. -/
theorem portScan_reads (fs : List (List UInt8)) (behind : List UInt8) (i : Int)
    (hne : fs ≠ []) (h : HoldsAt xs i ([44].intercalate fs ++ 0 :: behind)) (hf : Fields fs)
    (hshort : ∀ f ∈ fs, f.length ≤ 9) :
    (∀ p ∈ Server.portReads xs fs.length i,
      i ≤ p ∧ p ≤ i + ([44].intercalate fs).length + 1) ∧
    i + ([44].intercalate fs).length + 1 ∈ Server.portReads xs fs.length i := by
  induction fs generalizing i with
  | nil => exact absurd rfl hne
  | cons f fs ih =>
    have hnext := @HoldsAt.next xs f fs behind i h
    obtain ⟨sep, l, hl, hsep⟩ := intercalate_field f fs behind
    rw [hl] at h
    obtain ⟨-, -, hread⟩ := @scan_field xs oneUser f l sep i fs.length h
      (hf.nonempty f List.mem_cons_self) (hf.plain f List.mem_cons_self) hsep
      (hshort f List.mem_cons_self)
    have hfirst : ∀ p ∈ (List.range (f.length + 1)).map (fun j : ℕ => i + (j : Int)),
        i ≤ p ∧ p ≤ i + f.length := by
      intro p hp
      obtain ⟨j, hj, rfl⟩ := List.mem_map.mp hp
      have := List.mem_range.mp hj
      omega
    rw [List.length_cons, hread]
    by_cases hfs : fs = []
    · -- the last number: the next look is at the byte behind the terminator
      subst hfs
      have hend : ([44].intercalate [f]).length = f.length := by simp
      rw [hend, List.length_nil, Server.portReads]
      constructor
      · intro p hp
        rcases List.mem_append.mp hp with hp | hp
        · have := hfirst p hp
          omega
        · have := List.mem_singleton.mp hp
          omega
      · exact List.mem_append_right _ (List.mem_singleton_self _)
    · obtain ⟨ihread, ihlast⟩ := ih (i + f.length + 1) hfs (hnext hfs) hf.tail
        fun g hg => hshort g (List.mem_cons_of_mem _ hg)
      have hend : i + (([44].intercalate (f :: fs)).length : Int) + 1 =
          i + f.length + 1 + ([44].intercalate fs).length + 1 := by
        rw [length_intercalate f hfs]
        omega
      rw [hend]
      constructor
      · intro p hp
        rcases List.mem_append.mp hp with hp | hp
        · have := hfirst p hp
          omega
        · have := ihread p hp
          omega
      · exact List.mem_append_right _ ihlast

/-- A field of ten characters or more is copied past the end of `storage`. -/
theorem portScan_long (fs : List (List UInt8)) (behind : List UInt8) (i : Int)
    (h : HoldsAt xs i ([44].intercalate fs ++ 0 :: behind)) (hf : Fields fs)
    (hlong : ∃ f ∈ fs, 9 < f.length) :
    ∃ k ∈ Server.portFields xs fs.length i, storageSize < k + 1 := by
  induction fs generalizing i with
  | nil => simp at hlong
  | cons f fs ih =>
    have hnext := @HoldsAt.next xs f fs behind i h
    obtain ⟨sep, l, hl, hsep⟩ := intercalate_field f fs behind
    rw [hl] at h
    have hplain := hf.plain f List.mem_cons_self
    have hne := hf.nonempty f List.mem_cons_self
    by_cases hlen : f.length ≤ 9
    · have hlong' : ∃ g ∈ fs, 9 < g.length := by
        obtain ⟨g, hg, hg9⟩ := hlong
        rcases List.mem_cons.mp hg with rfl | hg
        · omega
        · exact ⟨g, hg, hg9⟩
      have hfs : fs ≠ [] := by
        rintro rfl
        simp at hlong'
      obtain ⟨-, hfield, -⟩ := @scan_field xs oneUser f l sep i fs.length h hne hplain hsep hlen
      obtain ⟨k, hk, hk9⟩ := ih (i + f.length + 1) (hnext hfs) hf.tail hlong'
      refine ⟨k, ?_, hk9⟩
      rw [List.length_cons, hfield]
      exact List.mem_cons_of_mem _ hk
    · have hzero : xs i ≠ 0 := head_ne_zero h hne hplain
      refine ⟨Server.tokenLength xs 32768 i, ?_, ?_⟩
      · simp only [List.length_cons, Server.portFields, if_neg hzero]
        exact List.mem_cons_self
      · rw [tokenLength_field 32768 h hplain hsep]
        simp only [storageSize]
        omega

end Fields

section Port
variable {sys : System} {line behind : List UInt8}

theorem Holds.at {xs : Buffer} {l : List UInt8} (h : Holds xs l) (n : ℕ) (hn : n ≤ l.length) :
    HoldsAt xs n (l.drop n) := by
  intro j hj
  have hlt : n + j < l.length := by
    simp only [List.length_drop] at hj
    omega
  have := h (n + j) hlt
  rw [List.getElem_drop]
  simpa using this

/-- The letters of `PORT` are not those of any command that is asked for before. -/
theorem interpretLine_port (s : Server) (c : Call) (h : Holds s.xs portText) :
    s.interpretLine sys c = s.setPort sys c := by
  have h0 : s.xs 0 = 80 := h 0 (by decide)
  have h1 : s.xs 1 = 79 := h 1 (by decide)
  have h2 : s.xs 2 = 82 := h 2 (by decide)
  have h3 : s.xs 3 = 84 := h 3 (by decide)
  simp +decide [Server.interpretLine, Server.is, isCommand, ascii, List.zipIdx, h0, h1, h2, h3]

/-- The parts of six numbers are fields for the scanner. -/
theorem SixNumbers.fields (h : SixNumbers line) : Fields (portParts line) where
  nonempty := fun f hf => (h.2 f hf).1
  plain := fun f hf b hb => ((h.2 f hf).2.1 b hb).plain

theorem SixNumbers.long (h : SixNumbers line) : 5 < line.length := by
  by_contra hlen
  have hempty : line.drop 5 = [] := List.drop_eq_nil_of_le (by omega)
  have := h.1
  simp [portParts, hempty] at this

/-- Six numbers stand in `xs` where the scanner begins. -/
theorem SixNumbers.stand (h : SixNumbers line) {xs : Buffer}
    (hxs : Holds xs (line ++ 0 :: behind)) :
    HoldsAt xs 5 ([44].intercalate (portParts line) ++ 0 :: behind) := by
  have hlen := h.long
  have hat := hxs.at 5 (by simp only [List.length_append]; omega)
  rw [List.drop_append_of_le_length (by omega)] at hat
  rw [portParts, List.intercalate_splitOn]
  exact hat

theorem SixNumbers.reach (h : SixNumbers line) :
    (5 : Int) + ([44].intercalate (portParts line)).length + 1 = line.length + 1 := by
  have := h.long
  rw [portParts, List.intercalate_splitOn, List.length_drop]
  omega

/-- A memory that holds a line. -/
def memoryOf (l : List UInt8) : Buffer := fun i => (l[i.toNat]?).getD 0

theorem memoryOf_holds (l : List UInt8) : Holds (memoryOf l) l := by
  intro i hi
  simp [memoryOf, List.getElem?_eq_getElem hi]

/-- What `PORT` computes does not depend on the port that is stored. -/
theorem setPort_port (s : Server) (c : Call) (port : Int → Int) :
    ({ s with portlocalport := port }.setPort sys c).portlocalport c.fnum =
      (s.setPort sys c).portlocalport c.fnum := by
  simp only [Server.setPort, Server.cresp, Function.update_self]

/-- A line that is not six numbers changes the stored port of some state. -/
theorem six_of_obeyed (hport : portText <+: line) (h : PortObeyed sys line behind) :
    SixNumbers line := by
  by_contra hsix
  let c := onPort3 .condata []
  let s := coldStart (memoryOf (line ++ 0 :: behind))
  let s' : Server := { s with portlocalport := fun _ => (s.setPort sys c).portlocalport c.fnum + 1 }
  have hxs : Holds s'.xs (line ++ 0 :: behind) := memoryOf_holds _
  have hset := (h s' c hxs).1
  rw [interpretLine_port s' c (hxs.shorter (hport.trans (List.prefix_append ..)))] at hset
  simp only [PortSet, if_neg hsix] at hset
  have hsame := hset.2.1
  rw [setPort_port s c] at hsame
  have hother : s'.portlocalport c.fnum = (s.setPort sys c).portlocalport c.fnum + 1 := rfl
  omega

theorem eq_of_length_six {l : List (List UInt8)} (h : l.length = 6) :
    ∃ f1 f2 f3 f4 f5 f6, l = [f1, f2, f3, f4, f5, f6] := by
  match l, h with
  | [f1, f2, f3, f4, f5, f6], _ => exact ⟨f1, f2, f3, f4, f5, f6, rfl⟩

/-- The numbers of an argument that is as it should be are stored as they are. -/
theorem setPort_sets (s : Server) (c : Call) (hsix : SixNumbers line)
    (hread : Server.portNumbers sys s.xs 6 5 = (portParts line).map fun f => (decimal f : Int)) :
    PortSet line c.fnum s (s.setPort sys c) := by
  obtain ⟨hlen, hall⟩ := hsix
  have hsix : SixNumbers line := ⟨hlen, hall⟩
  obtain ⟨f1, f2, f3, f4, f5, f6, hparts⟩ := eq_of_length_six hlen
  rw [hparts] at hread hall
  simp only [PortSet, if_pos hsix]
  simp only [List.mem_cons, List.not_mem_nil, or_false, forall_eq_or_imp, forall_eq] at hall
  obtain ⟨⟨-, -, h1⟩, ⟨-, -, h2⟩, ⟨-, -, h3⟩, ⟨-, -, h4⟩, ⟨-, -, h5⟩, -, -, h6⟩ := hall
  have hrange : List.range 4 = [0, 1, 2, 3] := rfl
  simp only [Server.setPort, Server.cresp, hread, hparts, hrange, Function.update_self,
    List.map_cons, List.map_nil, List.getElem?_cons_zero, List.getElem?_cons_succ, Option.getD_some,
    List.cons.injEq, and_true]
  -- a number up to 255 is its own byte, and two of them fit in a port
  refine ⟨⟨?_, ?_, ?_, ?_⟩, ?_, ?_⟩ <;> omega

/-- `PORT` does what it should exactly on six numbers of at most nine digits in a
line of which at least one byte was cut off the end: the scanner looks at the byte
behind the terminator. -/
theorem port_obeyed_iff (hport : portText <+: line)
    (hnum : ∀ f : List UInt8, f ≠ [] → f.length ≤ 9 → (∀ b ∈ f, IsDigit b) →
      sys.stringToNum f = decimal f) :
    PortObeyed sys line behind ↔
      SixNumbers line ∧ (∀ f ∈ portParts line, f.length ≤ 9) ∧ behind ≠ [] := by
  constructor
  · intro h
    have hsix := six_of_obeyed hport h
    let s := coldStart (memoryOf (line ++ 0 :: behind))
    obtain ⟨-, hreads, hwrites⟩ := h s (onPort3 .condata []) (memoryOf_holds _)
    have hstand := @SixNumbers.stand line behind hsix s.xs (memoryOf_holds _)
    have hshort : ∀ f ∈ portParts line, f.length ≤ 9 := by
      by_contra hlong
      push Not at hlong
      obtain ⟨k, hk, hk9⟩ := portScan_long _ behind 5 hstand hsix.fields hlong
      rw [hsix.1] at hk
      have := hwrites k hk
      omega
    refine ⟨hsix, hshort, ?_⟩
    rintro rfl
    -- the scanner looks behind the terminator, where nothing of the line stands
    obtain ⟨-, hlast⟩ := portScan_reads (portParts line) [] 5 (List.splitOn_ne_nil _ _) hstand
      hsix.fields hshort
    rw [hsix.1, hsix.reach] at hlast
    have := (hreads _ hlast).2
    simp only [List.length_append, List.length_singleton] at this
    omega
  · rintro ⟨hsix, hshort, hbehind⟩ s c hxs
    obtain ⟨hnumbers, hfields⟩ := @portScan_copies s.xs sys (portParts line) behind 5
      (hsix.stand hxs) hsix.fields hshort
    obtain ⟨hreads, -⟩ := portScan_reads (portParts line) behind 5 (List.splitOn_ne_nil _ _)
      (hsix.stand hxs) hsix.fields hshort
    rw [hsix.1] at hnumbers hfields hreads
    rw [hsix.reach] at hreads
    have hread : Server.portNumbers sys s.xs 6 5 =
        (portParts line).map fun f => (decimal f : Int) := by
      rw [hnumbers]
      apply List.map_congr_left
      intro f hf
      obtain ⟨hne, hdigits, -⟩ := hsix.2 f hf
      exact hnum f hne (hshort f hf) hdigits
    refine ⟨?_, fun i hi => ?_, fun k hk => ?_⟩
    · rw [interpretLine_port s c (hxs.shorter (hport.trans (List.prefix_append ..)))]
      exact setPort_sets s c hsix hread
    · have hpos : 0 < behind.length := List.length_pos_iff.mpr hbehind
      have := hreads i hi
      simp only [List.length_append, List.length_cons]
      omega
    · rw [hfields] at hk
      obtain ⟨f, hf, rfl⟩ := List.mem_map.mp hk
      have := hshort f hf
      simp only [storageSize]
      omega

/-- A file system as before, with numbers read as they are written. -/
def counting : System := { oneUser with stringToNum := fun f => decimal f }

/-- An address and a port, in a line that ends in carriage return and line feed. -/
theorem port_obeyed_example :
    PortObeyed counting (ascii "PORT 10,0,0,1,4,1".toList) [10] := by
  apply (port_obeyed_iff (by decide) fun _ _ _ _ => rfl).mpr
  have hsix : SixNumbers (ascii "PORT 10,0,0,1,4,1".toList) := by decide
  have hshort : ∀ f ∈ portParts (ascii "PORT 10,0,0,1,4,1".toList), f.length ≤ 9 := by decide
  exact ⟨hsix, hshort, List.cons_ne_nil _ _⟩

end Port

/-- Two numbers only: the address and the port are overwritten all the same. -/
theorem port_short_argument :
    ¬ SixNumbers (ascii "PORT 1,2".toList) ∧
      ¬ PortObeyed counting (ascii "PORT 1,2".toList) [10] := by
  have hsix : ¬ SixNumbers (ascii "PORT 1,2".toList) := by decide
  exact ⟨hsix, fun h => hsix (six_of_obeyed (by decide) h)⟩

end FTPServer
