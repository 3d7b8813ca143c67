import Mathlib.Data.List.DropRight
import MacSSH.FTPListen

/-! The command lines of the FTP server. The line reader puts the bytes of a line
in `xs` one by one and steps back over the white space at the end of the line;
neither index is checked, and the data connection uses the same buffer. -/
namespace FTPServer

def BUFFERS : ℕ := 8000

/-- The size `xs` is allocated with. -/
def xsSize : ℕ := BUFFERS + 10

namespace Server

/-- The positions the search for the end of a line looks at, and the one where
the terminator goes. -/
def trimPositions (xs : Buffer) : ℕ → Int → List Int
  | 0, i => [i]
  | n + 1, i => if xs i < 33 then i :: trimPositions xs n (i - 1) else [i, i + 1]

/-- One more byte of a line. -/
def takeByte (b : UInt8) (s : Server) : Server :=
  { s with
    cnt := 1
    xs := Function.update s.xs s.waitpos b
    waitpos := Int.bmod (s.waitpos + 1) 65536 }

/-- The values `waitpos` takes while the reader works on what is waiting. -/
def waitPositions : List UInt8 → Server → List Int
  | [], s => [s.waitpos]
  | b :: l, s =>
    s.waitpos ::
      if b = s.waitchar then trimPositions (Function.update s.xs s.waitpos b) 65536 s.waitpos
      else waitPositions l (s.takeByte b)

end Server

/-- The bytes of a list stand at the start of the buffer. -/
def Holds (xs : Buffer) (l : List UInt8) : Prop := ∀ (i : ℕ) (h : i < l.length), xs i = l[i]

/-- A line as the interpreter is to get it. -/
def handedLine (line : List UInt8) : List UInt8 :=
  (line.rdropWhile (· < 33)).mapIdx fun i b => if i < 4 then toupper b else b

/-- The line `line` goes on with the bytes before the next line feed. -/
def lineSoFar (line l : List UInt8) : List UInt8 := line ++ l.takeWhile (· ≠ 10)

/-- The line is shorter than `xs`, and if it ends it is not all white space. -/
def LineFits (line l : List UInt8) : Prop :=
  (lineSoFar line l).length < xsSize ∧ (10 ∈ l → ∃ b ∈ lineSoFar line l, 33 ≤ b)

instance (line l : List UInt8) : Decidable (LineFits line l) :=
  letI : Decidable (∃ b ∈ lineSoFar line l, 33 ≤ b) := List.decidableBEx (33 ≤ ·) _
  inferInstanceAs (Decidable (_ ∧ _))

/-- The reader has put the first bytes of a line in `xs`. -/
structure Reading (s : Server) (line : List UInt8) : Prop where
  waitpos : s.waitpos = line.length
  xs : Holds s.xs line

/-- A line stands in `xs` for the interpreter. -/
structure InHand (s : Server) (line : List UInt8) : Prop where
  waitpos : s.waitpos = (handedLine line).length
  xs : Holds s.xs (handedLine line ++ [0])

section Holds
variable {xs xs' : Buffer} {l : List UInt8}

theorem Holds.snoc (h : Holds xs l) (b : UInt8) :
    Holds (Function.update xs l.length b) (l ++ [b]) := by
  intro i hi
  rw [List.getElem_append]
  split
  · rename_i hlt
    have hne : (i : Int) ≠ l.length := by omega
    rw [Function.update_of_ne hne]
    exact h i hlt
  · have hlen : i = l.length := by
      simp only [List.length_append, List.length_singleton] at hi
      omega
    subst hlen
    simp

theorem Holds.shorter (h : Holds xs l) {l' : List UInt8} (hl : l' <+: l) : Holds xs l' := by
  intro i hi
  rw [h i (hi.trans_le hl.length_le)]
  exact (hl.getElem hi).symm

theorem Holds.congr (h : Holds xs l) (he : ∀ i : ℕ, i < l.length → xs' i = xs i) :
    Holds xs' l := fun i hi => (he i hi).trans (h i hi)

/-- Raising the first four characters of the buffer. -/
theorem raise_apply (xs : Buffer) (i : ℕ) :
    store xs 0 [toupper (xs 0), toupper (xs 1), toupper (xs 2), toupper (xs 3)] i =
      if i < 4 then toupper (xs i) else xs i := by
  simp only [store, Function.update_apply, Int.zero_add]
  split_ifs <;> first | omega | simp_all

end Holds

section Trim
variable {xs : Buffer}

theorem Holds.last {l : List UInt8} {b : UInt8} (h : Holds xs (l ++ [b])) : xs l.length = b := by
  have hb := h l.length (by simp)
  simpa using hb

/-- The search for the end of a line stops behind its last visible byte. -/
theorem lineEnd_trims (l : List UInt8) (n : ℕ) (hn : l.length ≤ n) (hxs : Holds xs l)
    (hl : ∃ b ∈ l, 33 ≤ b) :
    Server.lineEnd xs n (l.length - 1) = some (((l.rdropWhile (· < 33)).length : Int) - 1) ∧
    ∀ p ∈ Server.trimPositions xs n (l.length - 1), 0 ≤ p ∧ p ≤ l.length := by
  induction l using List.reverseRecOn generalizing n with
  | nil => simp at hl
  | append_singleton l b ih =>
    obtain ⟨n, rfl⟩ : ∃ m, n = m + 1 := ⟨n - 1, by simp at hn; omega⟩
    have hlen : ((l ++ [b]).length : Int) - 1 = l.length := by simp
    simp only [Server.lineEnd, Server.trimPositions, hlen, hxs.last]
    by_cases hb : b < 33
    · -- white space: the search goes on in the rest of the line
      have hl' : ∃ c ∈ l, 33 ≤ c := by
        obtain ⟨c, hc, h33⟩ := hl
        rcases List.mem_append.mp hc with hc | hc
        · exact ⟨c, hc, h33⟩
        · rw [List.mem_singleton.mp hc] at h33
          exact absurd hb (UInt8.not_lt.mpr h33)
      have hlen' : l.length ≤ n := by simpa using hn
      obtain ⟨hend, hpos⟩ := ih n hlen' (hxs.shorter (List.prefix_append ..)) hl'
      rw [if_pos hb, if_pos hb, List.rdropWhile_concat_pos _ _ _ (by simpa using hb)]
      refine ⟨hend, fun p hp => ?_⟩
      rcases List.mem_cons.mp hp with rfl | hp
      · simp only [List.length_append, List.length_singleton]
        omega
      · have := hpos p hp
        simp only [List.length_append, List.length_singleton]
        omega
    · rw [if_neg hb, if_neg hb, List.rdropWhile_concat_neg _ _ _ (by simpa using hb)]
      refine ⟨by simp, fun p hp => ?_⟩
      simp only [List.mem_cons, List.not_mem_nil, or_false] at hp
      simp only [List.length_append, List.length_singleton]
      omega

/-- In a line of white space the search leaves the buffer. -/
theorem trimPositions_blank (l : List UInt8) (n : ℕ) (hn : l.length ≤ n) (hxs : Holds xs l)
    (hl : ∀ b ∈ l, b < 33) : (-1 : Int) ∈ Server.trimPositions xs n (l.length - 1) := by
  induction l using List.reverseRecOn generalizing n with
  | nil =>
    cases n with
    | zero => simp [Server.trimPositions]
    | succ n =>
      simp only [Server.trimPositions]
      split <;> simp
  | append_singleton l b ih =>
    obtain ⟨n, rfl⟩ : ∃ m, n = m + 1 := ⟨n - 1, by simp at hn; omega⟩
    have hlen : ((l ++ [b]).length : Int) - 1 = l.length := by simp
    have hb : b < 33 := hl b (by simp)
    simp only [Server.trimPositions, hlen, hxs.last, if_pos hb]
    apply List.mem_cons_of_mem
    apply ih n (by simpa using hn) (hxs.shorter (List.prefix_append ..))
    exact fun c hc => hl c (List.mem_append_left _ hc)

end Trim

section Line
variable {line : List UInt8} {b : UInt8} {l : List UInt8}

theorem lineSoFar_cons (hb : b ≠ 10) : lineSoFar line (b :: l) = lineSoFar (line ++ [b]) l := by
  simp [lineSoFar, hb]

theorem lineSoFar_feed : lineSoFar line (10 :: l) = line := by simp [lineSoFar]

theorem lineFits_cons (hb : b ≠ 10) : LineFits line (b :: l) ↔ LineFits (line ++ [b]) l := by
  simp only [LineFits, lineSoFar_cons hb, List.mem_cons, hb.symm, false_or]

/-- Cutting the white space off, terminating and raising hands the line over. -/
theorem Holds.handed {xs : Buffer} (h : Holds xs line) :
    let xs := Function.update xs ((line.rdropWhile (· < 33)).length : Int) 0
    Holds (store xs 0 [toupper (xs 0), toupper (xs 1), toupper (xs 2), toupper (xs 3)])
      (handedLine line ++ [0]) := by
  intro xs' i hi
  rw [raise_apply]
  have hlen : (handedLine line).length = (line.rdropWhile (· < 33)).length := by
    simp [handedLine]
  simp only [List.length_append, List.length_singleton, hlen] at hi
  by_cases hlt : i < (line.rdropWhile (· < 33)).length
  · have hne : (i : Int) ≠ (line.rdropWhile (· < 33)).length := by omega
    have hbyte : xs' i = (line.rdropWhile (· < 33))[i] :=
      (Function.update_of_ne hne ..).trans (h.shorter (List.rdropWhile_prefix ..) i hlt)
    rw [List.getElem_append_left (hlen ▸ hlt)]
    simp only [handedLine, List.getElem_mapIdx, hbyte]
  · -- the terminator: raising leaves it alone
    have hi' : i = (line.rdropWhile (· < 33)).length := by omega
    have hzero : xs' i = 0 := by
      subst hi'
      exact Function.update_self ..
    have hraised : toupper 0 = 0 := by decide
    rw [List.getElem_append_right (by omega)]
    simp only [hzero, hraised, ite_self, List.getElem_singleton]

end Line

section Reader
variable {s : Server} {line : List UInt8}

theorem xsSize_short {n : ℕ} (h : n < xsSize) : n + 1 < 32768 := by
  simp only [xsSize, BUFFERS] at h
  omega

theorem bmod_next {n : ℕ} (h : n < xsSize) : Int.bmod ((n : Int) + 1) 65536 = (n + 1 : ℕ) := by
  have := xsSize_short h
  rw [Int.bmod_def]
  split <;> omega

/-- What the reader leaves when it has taken the waiting bytes `l`. -/
structure LineRead (line l : List UInt8) (s s' : Server) : Prop where
  waitchar : s'.waitchar = s.waitchar
  bound : 0 ≤ s'.waitpos ∧ s'.waitpos < xsSize
  unfinished : 10 ∉ l → s'.rfstate = s.rfstate ∧ Reading s' (lineSoFar line l)
  finished : 10 ∈ l → s'.rfstate = s.retstate ∧ InHand s' (lineSoFar line l)

theorem Reading.takeByte (hr : Reading s line) (hlen : line.length < xsSize) (b : UInt8) :
    Reading (s.takeByte b) (line ++ [b]) := by
  constructor
  · simp only [Server.takeByte, hr.waitpos, bmod_next hlen, List.length_append,
      List.length_singleton]
  · simp only [Server.takeByte, hr.waitpos]
    exact hr.xs.snoc b

theorem finishLine_eq {s : Server} {i : Int} (h : Server.lineEnd s.xs 65536 s.waitpos = some i) :
    s.finishLine = some { s with
      rfstate := s.retstate
      waitpos := i + 1
      xs :=
        let xs := Function.update s.xs (i + 1) 0
        store xs 0 [toupper (xs 0), toupper (xs 1), toupper (xs 2), toupper (xs 3)] } := by
  simp only [Server.finishLine, h]
  rfl

/-- The line feed: the line that stands before it is handed over. -/
theorem finishLine_hands (hr : Reading s line) (hlen : line.length < xsSize)
    (hl : ∃ b ∈ line, 33 ≤ b) :
    ∃ s', { s with cnt := 1, xs := Function.update s.xs s.waitpos 10 }.finishLine = some s' ∧
      s'.waitchar = s.waitchar ∧ s'.rfstate = s.retstate ∧ InHand s' line ∧
      ∀ p ∈ Server.trimPositions (Function.update s.xs s.waitpos 10) 65536 s.waitpos,
        0 ≤ p ∧ p ≤ line.length := by
  let xs := Function.update s.xs s.waitpos 10
  have hxs : Holds xs line := (hr.waitpos ▸ hr.xs.snoc 10).shorter (List.prefix_append ..)
  have hfeed : xs s.waitpos < 33 := by
    have : xs s.waitpos = 10 := Function.update_self ..
    rw [this]
    decide
  obtain ⟨hend, hpos⟩ := lineEnd_trims line 65535
    (by have := xsSize_short hlen; omega) hxs hl
  rw [← hr.waitpos] at hend hpos
  have hend' : Server.lineEnd xs 65536 s.waitpos =
      some (((line.rdropWhile (· < 33)).length : Int) - 1) := by
    rw [Server.lineEnd, if_pos hfeed, hend]
  refine ⟨_, finishLine_eq hend', rfl, rfl, ⟨?_, ?_⟩, fun p hp => ?_⟩
  · simp [handedLine]
  · simp only [Int.sub_add_cancel]
    exact hxs.handed
  · rw [Server.trimPositions, if_pos hfeed] at hp
    rcases List.mem_cons.mp hp with rfl | hp
    · rw [hr.waitpos]
      omega
    · have := hpos p hp
      rw [hr.waitpos] at this
      exact this

/-- The reader at the line feed: it hands the line over, without leaving `xs`. -/
theorem readLine_feed (l : List UInt8) (lost : Bool) (hr : Reading s line) (hc : s.waitchar = 10)
    (hlen : line.length < xsSize) (hl : ∃ b ∈ line, 33 ≤ b) :
    (∃ s', s.readLine (10 :: l) lost = some s' ∧ LineRead line (10 :: l) s s') ∧
    ∀ p ∈ Server.waitPositions (10 :: l) s, 0 ≤ p ∧ p < xsSize := by
  obtain ⟨s', hs', hchar, hstate, hhand, hpos⟩ := finishLine_hands hr hlen hl
  have hbound : 0 ≤ s'.waitpos ∧ s'.waitpos < xsSize := by
    have hle : (handedLine line).length ≤ line.length := by
      simpa [handedLine] using (List.rdropWhile_prefix (· < 33) line).length_le
    rw [hhand.waitpos]
    omega
  constructor
  · refine ⟨s', ?_, hchar, hbound, by simp, fun _ => ⟨hstate, ?_⟩⟩
    · simpa only [Server.readLine, hc, if_true] using hs'
    · rw [lineSoFar_feed]
      exact hhand
  · intro p hp
    simp only [Server.waitPositions, hc, if_true, List.mem_cons] at hp
    rcases hp with rfl | hp
    · rw [hr.waitpos]
      omega
    · have := hpos p hp
      omega

/-- What the reader leaves when it has taken one more byte of the line first. -/
theorem LineRead.cons {b : UInt8} {l : List UInt8} {s' : Server} (hb : b ≠ 10)
    (h : LineRead (line ++ [b]) l (s.takeByte b) s') : LineRead line (b :: l) s s' where
  waitchar := h.waitchar
  bound := h.bound
  unfinished := fun hno => by
    rw [lineSoFar_cons hb]
    exact h.unfinished fun hl => hno (List.mem_cons_of_mem _ hl)
  finished := fun hfeed => by
    rw [lineSoFar_cons hb]
    exact h.finished ((List.mem_cons.mp hfeed).resolve_left (Ne.symm hb))

/-- The reader on what is waiting: it goes on with the line and hands it over at
the line feed, and `waitpos` never leaves `xs`. -/
theorem readLine_reads (l : List UInt8) (lost : Bool) (hr : Reading s line)
    (hc : s.waitchar = 10) (hf : LineFits line l) :
    (∃ s', s.readLine l lost = some s' ∧ LineRead line l s s') ∧
    ∀ p ∈ Server.waitPositions l s, 0 ≤ p ∧ p < xsSize := by
  induction l generalizing s line with
  | nil =>
    have hlen : line.length < xsSize := by simpa [lineSoFar] using hf.1
    have hbound : 0 ≤ s.waitpos ∧ s.waitpos < xsSize := by
      rw [hr.waitpos]
      omega
    refine ⟨⟨_, rfl, ⟨rfl, hbound, fun _ => ⟨rfl, ⟨?_, ?_⟩⟩, by simp⟩⟩, ?_⟩
    · simpa [lineSoFar] using hr.waitpos
    · simpa [lineSoFar] using hr.xs
    · simpa only [Server.waitPositions, List.mem_singleton, forall_eq] using hbound
  | cons b l ih =>
    by_cases hb : b = 10
    · subst hb
      simp only [LineFits, lineSoFar_feed] at hf
      exact readLine_feed l lost hr hc hf.1 (hf.2 List.mem_cons_self)
    · -- one more byte of the line
      have hne : b ≠ s.waitchar := hc ▸ hb
      have hfit := (lineFits_cons hb).mp hf
      have hlen : line.length < xsSize := by
        have := hfit.1
        simp only [lineSoFar, List.length_append, List.length_singleton] at this
        omega
      obtain ⟨⟨s', hs', hread⟩, hpos⟩ := ih (hr.takeByte hlen b) hc hfit
      refine ⟨⟨s', ?_, hread.cons hb⟩, fun p hp => ?_⟩
      · simp only [Server.readLine, if_neg hne]
        exact hs'
      · simp only [Server.waitPositions, if_neg hne, List.mem_cons] at hp
        rcases hp with rfl | hp
        · rw [hr.waitpos]
          omega
        · exact hpos p hp

/-- The line feed behind white space: the search for the end of the line gets to -1. -/
theorem blank_line_leaves (l : List UInt8) (hr : Reading s line) (hc : s.waitchar = 10)
    (hlen : line.length < xsSize) (hblank : ∀ b ∈ line, b < 33) :
    (-1 : Int) ∈ Server.waitPositions (10 :: l) s := by
  have hxs : Holds (Function.update s.xs s.waitpos 10) (line ++ [10]) :=
    hr.waitpos ▸ hr.xs.snoc 10
  have hall : ∀ c ∈ line ++ [10], c < 33 := by
    intro c hcl
    rcases List.mem_append.mp hcl with hcl | hcl
    · exact hblank c hcl
    · rw [List.mem_singleton.mp hcl]
      decide
  have hstart : ((line ++ [10]).length : Int) - 1 = s.waitpos := by simp [hr.waitpos]
  have hshort : (line ++ [10]).length ≤ 65536 := by
    have := xsSize_short hlen
    simp only [List.length_append, List.length_singleton]
    omega
  have hout := trimPositions_blank (line ++ [10]) 65536 hshort hxs hall
  rw [hstart] at hout
  simp only [Server.waitPositions, hc, if_true]
  exact List.mem_cons_of_mem _ hout

theorem waitpos_mem (l : List UInt8) (s : Server) : s.waitpos ∈ Server.waitPositions l s := by
  cases l <;> simp [Server.waitPositions]

/-- A line that is too long or all white space takes `waitpos` out of `xs`. -/
theorem waitPositions_leave (l : List UInt8) (hr : Reading s line) (hc : s.waitchar = 10)
    (hlen : line.length < xsSize)
    (hp : ∀ p ∈ Server.waitPositions l s, 0 ≤ p ∧ p < xsSize) : LineFits line l := by
  induction l generalizing s line with
  | nil => simpa [LineFits, lineSoFar] using hlen
  | cons b l ih =>
    by_cases hb : b = 10
    · subst hb
      simp only [LineFits, lineSoFar_feed]
      refine ⟨hlen, fun _ => ?_⟩
      by_contra hblank
      have hout := blank_line_leaves l hr hc hlen fun c hcl =>
        UInt8.not_le.mp fun h33 => hblank ⟨c, hcl, h33⟩
      have := (hp _ hout).1
      omega
    · have hne : b ≠ s.waitchar := hc ▸ hb
      have hrest : ∀ p ∈ Server.waitPositions l (s.takeByte b), 0 ≤ p ∧ p < xsSize := by
        intro p hp'
        apply hp
        simp only [Server.waitPositions, if_neg hne]
        exact List.mem_cons_of_mem _ hp'
      have hnext := hr.takeByte hlen b
      -- the next position is one of those, so the longer line is short enough
      have hlen' : (line ++ [b]).length < xsSize := by
        have := (hrest _ (waitpos_mem l _)).2
        rw [hnext.waitpos] at this
        omega
      rw [lineFits_cons hb]
      exact ih hnext hc hlen' hrest

end Reader

/-- The states that are entered with a line in `xs`. -/
def Interpreting (r : RFState) : Prop := r = .s3 ∨ r = .s4 ∨ r = .s5

/-- The bytes received of the line that is read, or of the one last handed over.
A dispatch that is not the line reader begins a new line. -/
def lineAfter (e : NetEvent) (s : Server) (line : List UInt8) : List UInt8 :=
  match e with
  | .control c =>
    if s.portType c.fnum = .pftp ∧ s.ftpenable = true then
      if s.mainstate c.fnum = .s50 then lineSoFar line c.received else []
    else line
  | .data _ => line

/-- The data connection leaves the bytes of a line alone that is being read, and
of one that waits for the interpreter also its terminator. -/
def Spares (d : DataCall) (s : Server) : Prop :=
  ∀ p, s.portType p = .pftp → ∀ i : ℕ,
    (s.mainstate p = .s50 ∧ i < s.waitpos ∨ Interpreting (s.mainstate p) ∧ i ≤ s.waitpos) →
    (s.ftpd d).xs i = s.xs i

/-- What a step must meet for the command lines to come through. -/
def Fits (e : NetEvent) (s : Server) (line : List UInt8) : Prop :=
  match e with
  | .control c =>
    s.portType c.fnum = .pftp → s.mainstate c.fnum = .s50 → LineFits line c.received
  | .data d => Spares d s

/-- The states of runs whose steps all meet the condition, each with its line. -/
inductive Assembled : Server → List UInt8 → Prop where
  | cold (xs : Buffer) : Assembled (coldStart xs) []
  | startUp {s : Server} {line : List UInt8} (sys : System) (netlisten : Int)
      (hs : Assembled s line) : Assembled (s.startUpFTP sys netlisten) line
  | event {s s' : Server} {line : List UInt8} (sys : System) (e : NetEvent)
      (hs : Assembled s line) (hf : Fits e s line) (h : doNetEvent sys e s = some s') :
      Assembled s' (lineAfter e s line)

theorem Assembled.served {s : Server} {line : List UInt8} (h : Assembled s line) : Served s := by
  induction h with
  | cold xs => exact .cold xs
  | startUp sys netlisten _ ih => exact .startUp sys netlisten ih
  | event sys e _ _ h ih => exact .event sys e ih h

/-- The line reader is where the received bytes say, on the port in use. -/
structure LineState (s : Server) (line : List UInt8) : Prop where
  bound : 0 ≤ s.waitpos ∧ s.waitpos < xsSize
  reading : ∀ p, s.portType p = .pftp → s.mainstate p = .s50 →
    s.waitchar = 10 ∧ Interpreting (s.retnstate p) ∧ Reading s line
  inHand : ∀ p, s.portType p = .pftp → Interpreting (s.mainstate p) → InHand s line

/-- What a dispatch leaves of the line, before it is saved for the port. -/
structure LineTaken (line : List UInt8) (s : Server) : Prop where
  bound : 0 ≤ s.waitpos ∧ s.waitpos < xsSize
  reading : s.rfstate = .s50 → s.waitchar = 10 ∧ Interpreting s.retstate ∧ Reading s line
  inHand : Interpreting s.rfstate → InHand s line

section Dispatch
variable {sys : System} {c : Call} {s s' : Server}

theorem LineTaken.newLine (hpos : s.waitpos = 0) (hchar : s.waitchar = 10)
    (hret : Interpreting s.retstate) (hstate : s.rfstate = .s50 ∨ s.rfstate = .s60) :
    LineTaken [] s := by
  have hno : ¬ Interpreting s.rfstate := by
    rcases hstate with h | h <;> simp [h, Interpreting]
  have hempty : Reading s [] := ⟨hpos, fun i hi => absurd hi (Nat.not_lt_zero i)⟩
  refine ⟨?_, fun _ => ⟨hchar, hret, hempty⟩, fun h => absurd h hno⟩
  rw [hpos]
  decide

/-- A state that is neither the reader's nor one with a line in hand stays. -/
theorem LineTaken.same {t : Server} {line : List UInt8}
    (hb : 0 ≤ s.waitpos ∧ s.waitpos < xsSize) (hpos : t.waitpos = s.waitpos)
    (h50 : t.rfstate ≠ .s50) (hno : ¬ Interpreting t.rfstate) : LineTaken line t :=
  ⟨hpos ▸ hb, fun h => absurd h h50, fun h => absurd h hno⟩

theorem greet_newLine : LineTaken [] (s.greet sys c) := by
  apply LineTaken.newLine rfl rfl _ (.inl rfl)
  simp only [Server.greet, Interpreting]
  split <;> simp

theorem checkLogin_newLine : LineTaken [] (s.checkLogin sys c) := by
  simp only [Server.checkLogin]
  split_ifs
  · exact LineTaken.newLine rfl rfl (.inr (.inl rfl)) (.inl rfl)
  · split
    · exact LineTaken.newLine rfl rfl (.inr (.inr rfl)) (.inl rfl)
    · exact LineTaken.newLine rfl rfl (.inl rfl) (.inl rfl)
  · exact LineTaken.newLine rfl rfl (.inl rfl) (.inl rfl)
  · exact LineTaken.newLine rfl rfl (.inl rfl) (.inl rfl)

theorem interpret_newLine : LineTaken [] (s.interpret sys c) := by
  let start := { s with rfstate := .s50, retstate := .s5, waitchar := 10, waitpos := 0 }.record
    (.command c.fnum)
  have hline := interpretLine_spec sys c start
  have hkept := interpretLine_undisturbed start c sys
  exact LineTaken.newLine hkept.waitpos hkept.waitchar (.inr (.inr hline.retstate)) hline.rfstate

/-- Outside the line reader a dispatch leaves the reader alone or at the start of
a new line. -/
theorem dispatch_newLine (hs : s.rfstate ≠ .s50) (hb : 0 ≤ s.waitpos ∧ s.waitpos < xsSize)
    (h : s.dispatch sys c = some s') : LineTaken [] s' := by
  unfold Server.dispatch at h
  split at h
  case h_1 h0 =>
    -- nothing happens until the connection is open
    simp only [Server.accept] at h
    split at h
    · cases h
      exact .same hb rfl hs (by simp [h0, Interpreting])
    split at h
    · cases h
    · cases h
      exact greet_newLine
  case h_2 =>
    cases h
    exact greet_newLine
  case h_3 =>
    cases h
    exact checkLogin_newLine
  case h_4 =>
    cases h
    exact checkLogin_newLine
  case h_5 =>
    cases h
    exact interpret_newLine
  case h_6 h50 => exact absurd h50 hs
  case h_7 h60 =>
    cases h
    simp only [Server.drain]
    split
    · exact .same (s := s) hb rfl hs (by simp [h60, Interpreting])
    · exact .same (s := s) hb rfl hs (by simp [Server.post, h60, Interpreting])
  case h_8 h100 =>
    cases h
    exact .same hb rfl hs (by simp [h100, Interpreting])
  case h_9 h200 =>
    cases h
    exact .same hb rfl hs (by simp [h200, Interpreting])

/-- In the line reader a dispatch takes what is waiting. -/
theorem dispatch_reads {line : List UInt8} (hs : s.rfstate = .s50) (hr : Reading s line)
    (hc : s.waitchar = 10) (hret : Interpreting s.retstate) (hf : LineFits line c.received) :
    ∃ t, s.dispatch sys c = some t ∧ LineTaken (lineSoFar line c.received) t := by
  obtain ⟨⟨t, ht, hread⟩, -⟩ := readLine_reads c.received c.lost hr hc hf
  refine ⟨t, by simp only [Server.dispatch, hs, ht], hread.bound, fun h50 => ?_, fun hint => ?_⟩
  · -- still reading: the line feed has not come
    have hno : 10 ∉ c.received := by
      intro hfeed
      rw [(hread.finished hfeed).1] at h50
      rw [h50] at hret
      simp [Interpreting] at hret
    have hkept : t.retstate = s.retstate := (readLine_spec ht).2.2.2.1
    exact ⟨hread.waitchar.trans hc, hkept ▸ hret, (hread.unfinished hno).2⟩
  · have hfeed : 10 ∈ c.received := by
      by_contra hno
      rw [(hread.unfinished hno).1, hs] at hint
      simp [Interpreting] at hint
    exact (hread.finished hfeed).2

end Dispatch

section Run
variable {sys : System} {c : Call} {s s' t : Server} {line : List UInt8}

/-- Where no connection is open there is no line. -/
theorem LineState.idle (hb : 0 ≤ s.waitpos ∧ s.waitpos < xsSize)
    (h0 : ∀ p, s.portType p = .pftp → s.mainstate p = .s0) : LineState s line := by
  refine ⟨hb, fun p hp h50 => ?_, fun p hp hint => ?_⟩
  · rw [h0 p hp] at h50
    cases h50
  · rw [h0 p hp] at hint
    simp [Interpreting] at hint

theorem setftp_waitpos (s : Server) (netlisten : Int) :
    (s.setftp netlisten).waitpos = s.waitpos := by
  simp only [Server.setftp]
  split_ifs <;> rfl

theorem hangUp_waitpos (s : Server) (c : Call) : (s.hangUp c).waitpos = s.waitpos := by
  simp only [Server.hangUp]
  split <;> exact setftp_waitpos _ c.netlisten

theorem setftp_lineState (netlisten : Int) (hs : Sole s) (hl : LineState s line) :
    LineState (s.setftp netlisten) line := by
  by_cases hlisten : ∃ p, s.portType p = .pftp
  · -- a port listens or is in a session: `setftp` leaves its tables alone
    obtain ⟨p, hp⟩ := hlisten
    have hfound : ({ s with rfstate := .s0, ftpstate := .d0 } : Server).hasListener = true :=
      hasListener_of (s := s) (hs.range p hp) hp
    simp only [Server.setftp, hfound, if_true]
    refine ⟨hl.bound, fun p hp h50 => ?_, fun p hp hint => ?_⟩
    · obtain ⟨hchar, hret, hread⟩ := hl.reading p hp h50
      exact ⟨hchar, hret, hread.waitpos, hread.xs⟩
    · obtain ⟨hpos, hxs⟩ := hl.inHand p hp hint
      exact ⟨hpos, hxs⟩
  · have hnone : ∀ p, s.portType p ≠ .pftp := fun p hp => hlisten ⟨p, hp⟩
    obtain ⟨-, -, -, hnew⟩ := setftp_spec s netlisten hnone
    apply LineState.idle
    · rw [setftp_waitpos]
      exact hl.bound
    · exact fun p hp => (hnew p hp).2.2

theorem unsetftp_lineState (hs : Sole s) (hl : LineState s line) :
    LineState s.unsetftp line := by
  refine LineState.idle hl.bound fun p hp => ?_
  simp only [Server.unsetftp] at hp
  split at hp
  · cases hp
  · rename_i h
    obtain ⟨h0, h30⟩ := hs.range p hp
    exact absurd ⟨h0, h30, hp⟩ h

/-- The saved state of the port is the one the dispatch left. -/
theorem LineTaken.save (ht : LineTaken line t) (hone : ∀ p, t.portType p = .pftp → p = c.fnum) :
    LineState (t.save c.fnum) line := by
  refine ⟨ht.bound, fun p hp h50 => ?_, fun p hp hint => ?_⟩
  all_goals
    obtain rfl := hone p hp
    simp only [Server.save, Function.update_self] at *
  · obtain ⟨hchar, hret, hread⟩ := ht.reading h50
    exact ⟨hchar, hret, hread.waitpos, hread.xs⟩
  · obtain ⟨hpos, hxs⟩ := ht.inHand hint
    exact ⟨hpos, hxs⟩

theorem rftpd_lineState (hs : Sole s) (hl : LineState s line) (hc : s.portType c.fnum = .pftp)
    (hf : Fits (.control c) s line) (h : s.rftpd sys c = some s') :
    LineState s' (lineAfter (.control c) s line) := by
  by_cases he : s.ftpenable = true
  case neg =>
    simp only [Server.rftpd, he, Bool.not_false, if_true] at h
    cases h
    simpa only [lineAfter, he, Bool.false_eq_true, and_false, if_false] using hl
  obtain ⟨t, ht, hend⟩ := rftpd_cases he h
  have hone := hs.only hc (dispatch_handled ht)
  -- in either state the dispatch leaves the line as it is to be
  have htaken : LineTaken (lineAfter (.control c) s line) t := by
    simp only [lineAfter, hc, he, and_self, if_true]
    by_cases h50 : s.mainstate c.fnum = .s50
    · rw [if_pos h50]
      obtain ⟨hchar, hret, hread⟩ := hl.reading c.fnum hc h50
      obtain ⟨t', ht', htaken⟩ := @dispatch_reads sys c (s.load c.fnum) line h50
        ⟨hread.waitpos, hread.xs⟩ hchar hret (hf hc h50)
      rw [ht] at ht'
      cases ht'
      exact htaken
    · rw [if_neg h50]
      exact @dispatch_newLine sys c (s.load c.fnum) t h50 hl.bound ht
  rcases hend with ⟨-, rfl⟩ | ⟨-, rfl⟩
  · -- the session ends: the port listened on next is in state 0
    obtain ⟨-, -, -, hnew⟩ := hangUp_spec (hs.range c.fnum hc) hone
    obtain ⟨hstate, -, -, -⟩ := hangUp_states t c
    apply LineState.idle
    · change 0 ≤ (t.hangUp c).waitpos ∧ (t.hangUp c).waitpos < xsSize
      rw [hangUp_waitpos]
      exact htaken.bound
    · intro p hp
      simp only [Server.save, Function.update_apply, hstate, (hnew p hp).2.2, ite_self]
  · exact htaken.save hone

theorem ftpd_lineState {d : DataCall} (hl : LineState s line) (hf : Spares d s) :
    LineState (s.ftpd d) line := by
  have hdata := ftpd_dataOnly d s
  have hkept := ftpd_undisturbed s d
  refine ⟨hkept.waitpos ▸ hl.bound, fun p hp h50 => ?_, fun p hp hint => ?_⟩
  · rw [hdata.portType] at hp
    rw [hdata.mainstate] at h50
    obtain ⟨hchar, hret, hread⟩ := hl.reading p hp h50
    refine ⟨hkept.waitchar.trans hchar, hdata.retnstate ▸ hret,
      hkept.waitpos.trans hread.waitpos, ?_⟩
    apply hread.xs.congr
    intro i hi
    apply hf p hp i (.inl ⟨h50, _⟩)
    rw [hread.waitpos]
    omega
  · rw [hdata.portType] at hp
    rw [hdata.mainstate] at hint
    have hhand := hl.inHand p hp hint
    refine ⟨hkept.waitpos.trans hhand.waitpos, ?_⟩
    apply hhand.xs.congr
    intro i hi
    apply hf p hp i (.inr ⟨hint, _⟩)
    simp only [List.length_append, List.length_singleton] at hi
    rw [hhand.waitpos]
    omega

/-- In a run whose steps all meet the condition the reader is where it should be. -/
theorem Assembled.lineState (h : Assembled s line) : LineState s line := by
  induction h with
  | cold xs =>
    have hzero : (coldStart xs).waitpos = 0 := rfl
    refine LineState.idle ?_ fun p hp => by simp [coldStart] at hp
    rw [hzero]
    decide
  | startUp sys netlisten hs ih =>
    simp only [Server.startUpFTP]
    split
    · exact setftp_lineState netlisten hs.served.sole ih
    · exact unsetftp_lineState hs.served.sole ih
  | @event s s' line sys e hs hf h ih =>
    cases e with
    | data d =>
      cases h
      exact ftpd_lineState ih hf
    | control c =>
      simp only [doNetEvent] at h
      split at h
      · rename_i hc
        exact rftpd_lineState hs.served.sole ih hc hf h
      · rename_i hc
        cases h
        simpa only [lineAfter, hc, false_and, if_false] using ih

end Run

/-- In every run whose steps meet the condition, `waitpos` stays inside `xs` and
the interpreter finds the received line there, cut, terminated and raised. What
is waiting next keeps `waitpos` inside at every read exactly when the line it
belongs to is short enough and, where it ends, is not all white space. -/
theorem command_lines_assembled {s : Server} {line : List UInt8} (h : Assembled s line) :
    (0 ≤ s.waitpos ∧ s.waitpos < xsSize) ∧
    (∀ p, s.portType p = .pftp → Interpreting (s.mainstate p) →
      Holds s.xs (handedLine line ++ [0])) ∧
    ∀ c : Call, s.portType c.fnum = .pftp → s.mainstate c.fnum = .s50 →
      ((∀ i ∈ Server.waitPositions c.received (s.load c.fnum), 0 ≤ i ∧ i < xsSize) ↔
        LineFits line c.received) := by
  have hl := h.lineState
  refine ⟨hl.bound, fun p hp hint => (hl.inHand p hp hint).xs, fun c hc h50 => ?_⟩
  obtain ⟨hchar, -, hread⟩ := hl.reading c.fnum hc h50
  have hr : Reading (s.load c.fnum) line := ⟨hread.waitpos, hread.xs⟩
  constructor
  · intro hp
    apply waitPositions_leave c.received hr hchar _ hp
    have := hl.bound.2
    rw [hread.waitpos] at this
    omega
  · exact fun hf => (readLine_reads c.received c.lost hr hchar hf).2

/-- The greeting, then a name in small letters: it is handed over with its command
in capitals and without the carriage return. -/
theorem user_line_assembled :
    ∃ s line, Assembled s line ∧ s.portType 3 = .pftp ∧ Interpreting (s.mainstate 3) ∧
      line = ascii ['u', 's', 'e', 'r', ' ', 'b', 'o', 'b', '\r'] ∧
      Holds s.xs (handedLine line ++ [0]) := by
  let start := (coldStart fun _ => 33).startUpFTP oneUser 3
  let opened := onPort3 .conopen []
  let named := onPort3 .condata ['u', 's', 'e', 'r', ' ', 'b', 'o', 'b', '\r', '\n']
  have hrun : ((doNetEvent oneUser (.control opened) start).bind fun s =>
      (doNetEvent oneUser (.control named) s).map fun s' =>
        ((s.portType 3, s.ftpenable, s.mainstate 3), s'.portType 3, s'.mainstate 3)) =
      some ((.pftp, true, .s50), .pftp, .s3) := by
    decide +kernel
  obtain ⟨s, hs, hrest⟩ := Option.bind_eq_some_iff.mp hrun
  obtain ⟨s', hs', hstates⟩ := Option.map_eq_some_iff.mp hrest
  simp only [Prod.mk.injEq] at hstates
  obtain ⟨⟨htype, henabled, h50⟩, htype', h3⟩ := hstates
  have hidle : start.mainstate 3 ≠ .s50 := by decide +kernel
  have hfit : LineFits [] named.received := by decide +kernel
  have hfirst : Assembled s [] :=
    .event oneUser (.control opened) (.startUp oneUser 3 (.cold _)) (fun _ h => absurd h hidle) hs
  have hsecond := Assembled.event oneUser (.control named) hfirst (fun _ _ => hfit) hs'
  have hline : lineAfter (.control named) s [] =
      ascii ['u', 's', 'e', 'r', ' ', 'b', 'o', 'b', '\r'] := by
    have hport : named.fnum = 3 := rfl
    simp only [lineAfter, hport, htype, henabled, h50, and_self, if_true]
    decide
  have hint : Interpreting (s'.mainstate 3) := .inl h3
  rw [hline] at hsecond
  exact ⟨s', _, hsecond, htype', hint, rfl, (command_lines_assembled hsecond).2.1 3 htype' hint⟩

/-- An empty line right after the greeting: the search for its end looks at the
byte before `xs`. -/
theorem empty_line_leaves_buffer :
    ∃ s, Served s ∧ s.portType 3 = .pftp ∧ s.mainstate 3 = .s50 ∧
      (-1 : Int) ∈ Server.waitPositions (ascii ['\r', '\n']) (s.load 3) := by
  let start := (coldStart fun _ => 33).startUpFTP oneUser 3
  let opened := onPort3 .conopen []
  have hrun : ((doNetEvent oneUser (.control opened) start).map fun s =>
      (s.portType 3, s.mainstate 3,
        decide ((-1 : Int) ∈ Server.waitPositions (ascii ['\r', '\n']) (s.load 3)))) =
      some (.pftp, .s50, true) := by
    decide +kernel
  obtain ⟨s, hs, hstates⟩ := Option.map_eq_some_iff.mp hrun
  simp only [Prod.mk.injEq] at hstates
  obtain ⟨htype, h50, hout⟩ := hstates
  have hserved : Served s := .event oneUser (.control opened) (.startUp oneUser 3 (.cold _)) hs
  exact ⟨s, hserved, htype, h50, of_decide_eq_true hout⟩

end FTPServer
