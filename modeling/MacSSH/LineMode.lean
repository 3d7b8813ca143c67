import MacSSH.Shorts
import Mathlib.Tactic.Common

/-! Line mode: the keys that are edited here before they are sent. -/
namespace Linemode

open VS

def MAXKB : Int := 256

/-- The editing functions that a key can be given. -/
inductive SLC where
  | BRK | IP | AO | ABORT | EOF | SUSP | EC | EL | EW | RP | LNEXT | XON | XOFF | FORW1
deriving DecidableEq

def SLC_FLUSHIN : UInt8 := 64
def SLC_FLUSHOUT : UInt8 := 32

def L_EDIT : BitVec 16 := 1
def L_TRAPSIG : BitVec 16 := 2
def L_SOFT_TAB : BitVec 16 := 8
def L_LIT_ECHO : BitVec 16 := 16

def IAC : UInt8 := 255
def TEL_EOF : UInt8 := 236
def TEL_SUSP : UInt8 := 237
def TEL_ABORT : UInt8 := 238
def TEL_DM : UInt8 := 242
def TEL_BREAK : UInt8 := 243
def TEL_IP : UInt8 := 244
def TEL_DOTEL : UInt8 := 253
def N_TIMING : UInt8 := 6

/-- What is set when a key comes. `tabDistance` is what `VSIgetNextTabDistance` finds. -/
structure Setting where
  slc : SLC → UInt8
  slcLevel : SLC → UInt8
  lmodeBits : BitVec 16
  echo : Bool
  allow_flow : Bool
  tabDistance : Int

def Setting.on (k : Setting) (bit : BitVec 16) : Bool := k.lmodeBits &&& bit ≠ 0

/-- What the keys make the rest of the program do. -/
inductive Call where
  | netwrite (bytes : List UInt8)
  | netpush
  | netUrgent
  | parse (bytes : List UInt8)
  | VSredrawLine
  | changeport
deriving DecidableEq

/-- The part of a connection that the keys use. `kbbuf` is the memory from the start of
the buffer on, the bytes around it included, and `reads` the places read in it, each
with the length at that time. -/
structure WindRec where
  kblen : Int
  kbbuf : Int → UInt8
  litNext : Bool
  timing : Bool
  enabled : Bool
  reads : List (Int × Int)
  calls : List Call

namespace WindRec

def call (tw : WindRec) (calls : List Call) : WindRec := { tw with calls := tw.calls ++ calls }

/-- The keys that wait in the buffer. -/
def contents (tw : WindRec) : List UInt8 :=
  (List.range tw.kblen.toNat).map fun i : ℕ => tw.kbbuf i

end WindRec

def kbflush (tw : WindRec) : WindRec :=
  if tw.kblen ≠ 0 then
    { tw.call [.netwrite tw.contents] with
      kblen := 0
      reads := tw.reads ++ (List.range tw.kblen.toNat).map fun i : ℕ => ((i : Int), tw.kblen) }
  else tw

def kbwriteChar (tw : WindRec) (c : UInt8) : WindRec :=
  let tw := if tw.kblen = MAXKB then kbflush tw else tw
  { tw with kbbuf := Function.update tw.kbbuf tw.kblen c, kblen := short (tw.kblen+1) }

def kbwrite (tw : WindRec) (string : List UInt8) : WindRec := string.foldl kbwriteChar tw

/-- Show bytes as if the host had sent them, where the keys are echoed here. -/
def echo (k : Setting) (tw : WindRec) (bytes : List UInt8) : WindRec :=
  if k.echo then tw.call [.parse bytes] else tw

def backspace : List UInt8 := [8, 32, 8]

/-- One character off the end of the buffer and off the screen. -/
def eraseOne (k : Setting) (tw : WindRec) : WindRec :=
  { echo k tw backspace with kblen := short (tw.kblen-1) }

/-- `while (kblen > 0)` of the keys that kill the line. -/
def eraseLine (k : Setting) : ℕ → WindRec → WindRec
  | 0, tw => tw
  | n+1, tw => if tw.kblen > 0 then eraseLine k n (eraseOne k tw) else tw

/-- `while (kbbuf[kblen-1] != 0x20 && kblen >= 0)` of the key that kills a word. -/
def eraseWord (k : Setting) : ℕ → WindRec → WindRec
  | 0, tw => tw
  | n+1, tw =>
    let seen := { tw with reads := tw.reads ++ [(tw.kblen-1, tw.kblen)] }
    if tw.kbbuf (tw.kblen-1) ≠ 32 ∧ tw.kblen ≥ 0 then eraseWord k n (eraseOne k seen) else seen

/-- What a key is taken for. -/
inductive Meaning where
  | signal (which : SLC) (command : UInt8)
  | softTab
  | sendLine
  | eraseChar
  | eraseLine
  | endOfFile
  | eraseWord
  | redrawLine
  | quote
  | xon
  | xoff
  | forward
  | store
  | newline
  | send
deriving DecidableEq

/-- The signals that are caught while `TRAPSIG` is on. -/
def trapped (k : Setting) (ascii : UInt8) : Option Meaning :=
  if ascii = k.slc .IP then some (.signal .IP TEL_IP)
  else if ascii = k.slc .SUSP then some (.signal .SUSP TEL_SUSP)
  else if ascii = k.slc .ABORT then some (.signal .ABORT TEL_ABORT)
  else if ascii = k.slc .BRK then some (.signal .BRK TEL_BREAK)
  else none

/-- The editing functions while `EDIT` is on. -/
def edited (k : Setting) (ascii : UInt8) : Meaning :=
  if ascii = 13 then .sendLine
  else if ascii = k.slc .EC then .eraseChar
  else if ascii = k.slc .AO then .eraseLine
  else if ascii = k.slc .EL then .eraseLine
  else if ascii = k.slc .EOF ∧ k.on L_TRAPSIG then .endOfFile
  else if ascii = k.slc .EW then .eraseWord
  else if ascii = k.slc .RP then .redrawLine
  else if ascii = k.slc .LNEXT then .quote
  else if ascii = k.slc .XON then .xon
  else if ascii = k.slc .XOFF then .xoff
  else if ascii = k.slc .FORW1 then .forward
  else .store

/-- The branch of `process_key` that a key reaches, the signals before the soft tab and
the soft tab before the editing. -/
def meaning (k : Setting) (ascii : UInt8) : Meaning :=
  match if k.on L_TRAPSIG then trapped k ascii else none with
  | some m => m
  | none =>
    if k.on L_SOFT_TAB ∧ ascii = 9 then .softTab
    else if k.on L_EDIT then edited k ascii
    else if ascii = 13 then .newline
    else .send

/-- Empty the buffer and send a signal, with the data mark and the timing mark that its
level asks for. -/
def sendSignal (k : Setting) (which : SLC) (command : UInt8) (tw : WindRec) : WindRec :=
  let tw := { tw with kblen := 0 }.call [.netpush, .netwrite [IAC, command]]
  let tw := if k.slcLevel which &&& SLC_FLUSHIN ≠ 0 then
      tw.call [.netpush, .netUrgent, .netwrite [IAC, TEL_DM]] else tw
  if k.slcLevel which &&& SLC_FLUSHOUT ≠ 0 then
    { tw with timing := true }.call [.netpush, .netwrite [IAC, TEL_DOTEL, N_TIMING]]
  else tw

def printable (ascii : UInt8) : Bool := ascii > 31 && ascii < 127

/-- The echo of a key at the end of `process_key`. -/
def localEcho (k : Setting) (ascii : UInt8) (tw : WindRec) : WindRec :=
  if printable ascii then echo k tw [ascii]
  else if k.on L_LIT_ECHO then tw
  else echo k (echo k tw [94]) [64+ascii]

/-- `process_key` after its first lines, which store a quoted key. -/
def handleKey (k : Setting) (ascii : UInt8) (tw : WindRec) : WindRec :=
  match meaning k ascii with
  | .signal which command => sendSignal k which command tw
  | .softTab => echo k (kbwrite tw (List.replicate k.tabDistance.toNat 32)) [ascii]
  | .sendLine => echo k ((kbflush tw).call [.netpush, .netwrite [13, 10]]) [10, 13]
  | .eraseChar => eraseOne k tw
  | .eraseLine => eraseLine k tw.kblen.toNat tw
  | .endOfFile => (kbflush tw).call [.netpush, .netwrite [IAC, TEL_EOF]]
  -- no return: the key is echoed as a stored one is
  | .eraseWord => localEcho k ascii (eraseWord k ((tw.kblen+1).toNat+1) tw)
  | .redrawLine => tw.call [.VSredrawLine]
  | .quote => { tw with litNext := true }
  | .xon => if k.allow_flow then { tw with enabled := true }.call [.changeport] else tw
  | .xoff => if k.allow_flow then { tw with enabled := false }.call [.changeport] else tw
  | .forward => (kbflush tw).call [.netwrite [ascii]]
  | .store => localEcho k ascii (kbwrite tw [ascii])
  | .newline => echo k (tw.call [.netpush, .netwrite [13, 0]]) [10, 13]
  | .send => localEcho k ascii (tw.call [.netpush, .netwrite [ascii]])

def process_key (k : Setting) (ascii : UInt8) (tw : WindRec) : WindRec :=
  if tw.litNext then
    let tw := kbwrite { tw with litNext := false } [ascii]
    if k.echo then
      if printable ascii then tw.call [.parse [ascii]] else tw
    -- the return of the source is inside the test of the echo
    else handleKey k ascii tw
  else handleKey k ascii tw

/-- Line mode is turned off by the host. -/
def telnet_dont_linemode (tw : WindRec) : WindRec := { kbflush tw with litNext := false }

/-- The length is that of the buffer and every place read is below the length. -/
structure Bounded (tw : WindRec) : Prop where
  nonneg : 0 ≤ tw.kblen
  le_max : tw.kblen ≤ MAXKB
  reads_below : ∀ r ∈ tw.reads, 0 ≤ r.1 ∧ r.1 < r.2

/-- The two hold the same keys and have read the same places. -/
def SameKeys (tw tw' : WindRec) : Prop :=
  tw.kblen = tw'.kblen ∧ tw.kbbuf = tw'.kbbuf ∧ tw.reads = tw'.reads

/-- The last word of `old` is gone in `new`, with the blanks behind it. Where there is no
word nothing is gone. -/
def LastWordRemoved (old new : List UInt8) : Prop :=
  (∀ c ∈ old, c = 32) ∧ new = old ∨
    ∃ word blanks, old = new ++ word ++ blanks ∧ word ≠ [] ∧ 32 ∉ word ∧
      (∀ c ∈ blanks, c = 32) ∧ (new = [] ∨ new.getLast? = some 32)

section Keys
variable {k : Setting} {ascii : UInt8} {tw tw' : WindRec}

theorem SameKeys.trans {a b c : WindRec} (h : SameKeys a b) (h' : SameKeys b c) :
    SameKeys a c :=
  ⟨h.1.trans h'.1, h.2.1.trans h'.2.1, h.2.2.trans h'.2.2⟩

theorem Bounded.of_same (h : SameKeys tw tw') (hb : Bounded tw') : Bounded tw := by
  obtain ⟨hlen, _, hreads⟩ := h
  exact ⟨hlen ▸ hb.nonneg, hlen ▸ hb.le_max, hreads ▸ hb.reads_below⟩

theorem SameKeys.contents_eq (h : SameKeys tw tw') : tw.contents = tw'.contents := by
  rw [WindRec.contents, h.1, h.2.1]
  rfl

theorem call_same (tw : WindRec) (calls : List Call) : SameKeys (tw.call calls) tw :=
  ⟨rfl, rfl, rfl⟩

theorem echo_same (k : Setting) (tw : WindRec) (bytes : List UInt8) :
    SameKeys (echo k tw bytes) tw := by
  rw [echo]
  split_ifs <;> exact ⟨rfl, rfl, rfl⟩

theorem localEcho_same (k : Setting) (ascii : UInt8) (tw : WindRec) :
    SameKeys (localEcho k ascii tw) tw := by
  rw [localEcho]
  split_ifs
  · exact echo_same k tw _
  · exact ⟨rfl, rfl, rfl⟩
  · exact (echo_same k _ _).trans (echo_same k tw _)

theorem length_contents (hb : Bounded tw) : (tw.contents.length : Int) = tw.kblen := by
  have h0 := hb.nonneg
  rw [WindRec.contents, List.length_map, List.length_range]
  omega

theorem contents_nil_iff (hb : Bounded tw) : tw.contents = [] ↔ tw.kblen = 0 := by
  rw [← length_contents hb, ← List.length_eq_zero_iff]
  omega

theorem getElem_contents {i : ℕ} (h : i < tw.contents.length) :
    tw.contents[i] = tw.kbbuf i := by
  rw [WindRec.contents] at h
  simp only [WindRec.contents, List.getElem_map, List.getElem_range]

theorem kbflush_bounded (hb : Bounded tw) : Bounded (kbflush tw) := by
  rw [kbflush]
  split_ifs
  · refine ⟨Int.le_refl 0, Int.zero_le_ofNat 256, ?_⟩
    intro r hr
    rcases List.mem_append.mp hr with hold | hnew
    · exact hb.reads_below r hold
    · -- every place below the length is read, each once
      obtain ⟨i, hi, rfl⟩ := List.mem_map.mp hnew
      have hlt := List.mem_range.mp hi
      exact ⟨Int.natCast_nonneg i, by change (i : Int) < tw.kblen; omega⟩
  · exact hb

theorem kbflush_kblen (tw : WindRec) : (kbflush tw).kblen = 0 := by
  rw [kbflush]
  split_ifs with h
  · rfl
  · exact Decidable.not_not.mp h

/-- What a character that is stored makes of the keys in the buffer. -/
theorem store_contents (h0 : 0 ≤ tw.kblen) (h1 : tw.kblen < 32767) (c : UInt8) :
    WindRec.contents { tw with
      kbbuf := Function.update tw.kbbuf tw.kblen c, kblen := short (tw.kblen+1) } =
      tw.contents ++ [c] := by
  have hlen : short (tw.kblen+1) = tw.kblen+1 := short_eq (by omega) (by omega)
  rw [hlen]
  obtain ⟨n, hn⟩ := Int.eq_ofNat_of_zero_le h0
  have hsucc : (tw.kblen+1).toNat = n+1 := by omega
  simp only [WindRec.contents, hsucc, List.range_succ, List.map_append, List.map_singleton]
  have hsame : (List.range n).map (fun i : ℕ => Function.update tw.kbbuf tw.kblen c i) =
      (List.range tw.kblen.toNat).map fun i : ℕ => tw.kbbuf i := by
    rw [hn, Int.toNat_natCast]
    apply List.map_congr_left
    intro i hi
    have hne : (i : Int) ≠ (n : Int) := by
      have := List.mem_range.mp hi
      omega
    exact Function.update_of_ne hne c tw.kbbuf
  rw [hsame, hn, Function.update_self]

/-- Storing a character where there is room for it. -/
theorem store_bounded (hb : Bounded tw) (hroom : tw.kblen < MAXKB) (c : UInt8) :
    Bounded { tw with
      kbbuf := Function.update tw.kbbuf tw.kblen c, kblen := short (tw.kblen+1) } ∧
    WindRec.contents { tw with
      kbbuf := Function.update tw.kbbuf tw.kblen c, kblen := short (tw.kblen+1) } =
      tw.contents ++ [c] := by
  have h0 := hb.nonneg
  have h1 : tw.kblen < 256 := hroom
  have hlen : short (tw.kblen+1) = tw.kblen+1 := short_eq (by omega) (by omega)
  refine ⟨⟨?_, ?_, hb.reads_below⟩, store_contents h0 (by omega) c⟩
  · change 0 ≤ short (tw.kblen+1)
    omega
  · change short (tw.kblen+1) ≤ 256
    omega

theorem kbwriteChar_bounded (hb : Bounded tw) (c : UInt8) : Bounded (kbwriteChar tw c) ∧
    (kbwriteChar tw c).contents = (if tw.kblen = MAXKB then [] else tw.contents) ++ [c] := by
  by_cases hfull : tw.kblen = MAXKB
  · have hstore := store_bounded (kbflush_bounded hb) (by rw [kbflush_kblen]; decide) c
    rw [(contents_nil_iff (kbflush_bounded hb)).mpr (kbflush_kblen tw)] at hstore
    rw [kbwriteChar, if_pos hfull, if_pos hfull]
    exact hstore
  · rw [kbwriteChar, if_neg hfull, if_neg hfull]
    have hle := hb.le_max
    exact store_bounded hb (by omega) c

theorem kbwrite_bounded (string : List UInt8) :
    ∀ {tw : WindRec}, Bounded tw → Bounded (kbwrite tw string) := by
  induction string with
  | nil => intro tw hb; exact hb
  | cons c string ih => intro tw hb; exact ih (kbwriteChar_bounded hb c).1

theorem eraseOne_same (k : Setting) (h0 : 0 ≤ tw.kblen) (h1 : tw.kblen ≤ MAXKB) :
    SameKeys (eraseOne k tw) { tw with kblen := tw.kblen-1 } := by
  have hmax : tw.kblen ≤ 256 := h1
  have hecho := echo_same k tw backspace
  exact ⟨short_eq (by omega) (by omega), hecho.2.1, hecho.2.2⟩

/-- Killing the line leaves an empty buffer. -/
theorem eraseLine_same (k : Setting) : ∀ (n : ℕ) {tw : WindRec}, tw.kblen = n → n ≤ 256 →
    SameKeys (eraseLine k n tw) { tw with kblen := 0 } := by
  intro n
  induction n with
  | zero => intro tw hn _; exact ⟨hn, rfl, rfl⟩
  | succ n ih =>
    intro tw hn hmax
    have hone : SameKeys (eraseOne k tw) { tw with kblen := tw.kblen-1 } :=
      eraseOne_same k (by omega) (by change tw.kblen ≤ 256; omega)
    have hlen : (eraseOne k tw).kblen = n := hone.1.trans (by change tw.kblen-1 = _; omega)
    have hrest := ih hlen (by omega)
    rw [eraseLine, if_pos (by omega)]
    exact ⟨hrest.1, hrest.2.1.trans hone.2.1, hrest.2.2.trans hone.2.2⟩

/-- The loop of the key that kills a word stops behind the last blank of the buffer, and
what it reads is below the length. -/
theorem eraseWord_stops (k : Setting) {p : ℕ} : ∀ (f : ℕ) {tw : WindRec} {n : ℕ},
    tw.kblen = n → n ≤ 256 → p < n → n ≤ p+1+f → tw.kbbuf p = 32 →
    (∀ i : ℕ, p < i → i < n → tw.kbbuf i ≠ 32) →
    ∃ seen : List (Int × Int), (∀ r ∈ seen, 0 ≤ r.1 ∧ r.1 < r.2) ∧
      SameKeys (eraseWord k (f+1) tw)
        { tw with kblen := (p : Int)+1, reads := tw.reads ++ seen } := by
  intro f
  induction f with
  | zero =>
    intro tw n hn _ hp hf hblank _
    have hlast : tw.kblen-1 = p := by omega
    refine ⟨[(p, tw.kblen)], ?_, ?_⟩
    · intro r hr
      obtain rfl := List.mem_singleton.mp hr
      exact ⟨Int.natCast_nonneg p, by change (p : Int) < tw.kblen; omega⟩
    · rw [eraseWord, hlast, if_neg (by simp [hblank])]
      exact ⟨by change tw.kblen = (p : Int)+1; omega, rfl, rfl⟩
  | succ f ih =>
    intro tw n hn hmax hp hf hblank hword
    have hlast : tw.kblen-1 = ((n-1 : ℕ) : Int) := by omega
    have hread : 0 ≤ ((n-1 : ℕ) : Int) ∧ ((n-1 : ℕ) : Int) < tw.kblen := by omega
    by_cases hend : n = p+1
    · refine ⟨[(((n-1 : ℕ) : Int), tw.kblen)], ?_, ?_⟩
      · intro r hr
        obtain rfl := List.mem_singleton.mp hr
        exact hread
      · have hat : tw.kbbuf ((n-1 : ℕ) : Int) = 32 := by
          rw [hend]
          exact hblank
        rw [eraseWord, hlast, if_neg (by simp [hat])]
        exact ⟨by change tw.kblen = (p : Int)+1; omega, rfl, rfl⟩
    · -- one character of the word goes, and the loop finds a shorter buffer
      let one := { tw with reads := tw.reads ++ [(tw.kblen-1, tw.kblen)] }
      have hone : SameKeys (eraseOne k one) { one with kblen := one.kblen-1 } :=
        eraseOne_same k (by change 0 ≤ tw.kblen; omega) (by change tw.kblen ≤ 256; omega)
      have hlen : (eraseOne k one).kblen = ((n-1 : ℕ) : Int) := hone.1.trans hlast
      have hbuf : (eraseOne k one).kbbuf = tw.kbbuf := hone.2.1
      obtain ⟨seen, hseen, hrest⟩ := ih hlen (by omega) (by omega) (by omega)
        (by rw [hbuf]; exact hblank)
        (fun i hi hi' => by rw [hbuf]; exact hword i hi (by omega))
      refine ⟨(tw.kblen-1, tw.kblen) :: seen, ?_, ?_⟩
      · intro r hr
        rcases List.mem_cons.mp hr with rfl | hr
        · rw [hlast]
          exact hread
        · exact hseen r hr
      · have hnot : tw.kbbuf (tw.kblen-1) ≠ 32 ∧ tw.kblen ≥ 0 := by
          rw [hlast]
          exact ⟨hword _ (by omega) (by omega), by omega⟩
        rw [eraseWord, if_pos hnot]
        refine ⟨hrest.1, hrest.2.1.trans hbuf, hrest.2.2.trans ?_⟩
        change (eraseOne k one).reads ++ seen = tw.reads ++ _
        rw [hone.2.2]
        exact List.append_assoc _ [_] seen

theorem eraseWord_reads (k : Setting) : ∀ (f : ℕ) (tw : WindRec),
    tw.reads ⊆ (eraseWord k f tw).reads := by
  intro f
  induction f with
  | zero => exact fun tw => List.Subset.refl _
  | succ f ih =>
    intro tw
    rw [eraseWord]
    split_ifs
    · have hecho : ∀ t, (eraseOne k t).reads = t.reads := fun t => (echo_same k t backspace).2.2
      refine List.Subset.trans ?_ (ih _)
      rw [hecho]
      exact List.subset_append_left _ _
    · exact List.subset_append_left _ _

/-- In a buffer without blanks the loop reads the byte before the buffer. -/
theorem eraseWord_leaves (k : Setting) : ∀ (n : ℕ) {f : ℕ} {tw : WindRec}, n ≤ f →
    tw.kblen = n → n ≤ 256 → (∀ i : ℕ, i < n → tw.kbbuf i ≠ 32) →
    (-1, 0) ∈ (eraseWord k (f+1) tw).reads := by
  intro n
  induction n with
  | zero =>
    intro f tw _ hn _ _
    have hread : (-1, 0) ∈ tw.reads ++ [(tw.kblen-1, tw.kblen)] := by
      rw [hn]
      exact List.mem_append_right _ (List.mem_singleton.mpr rfl)
    rw [eraseWord]
    split_ifs
    · apply eraseWord_reads
      exact (echo_same k _ backspace).2.2.symm ▸ hread
    · exact hread
  | succ n ih =>
    intro f tw hf hn hmax hword
    obtain ⟨g, rfl⟩ : ∃ g, f = g+1 := ⟨f-1, by omega⟩
    have hlast : tw.kblen-1 = n := by omega
    have hnot : tw.kbbuf (tw.kblen-1) ≠ 32 ∧ tw.kblen ≥ 0 := by
      rw [hlast]
      exact ⟨hword n (by omega), by omega⟩
    let one := { tw with reads := tw.reads ++ [(tw.kblen-1, tw.kblen)] }
    have hone : SameKeys (eraseOne k one) { one with kblen := one.kblen-1 } :=
      eraseOne_same k (by change 0 ≤ tw.kblen; omega) (by change tw.kblen ≤ 256; omega)
    rw [eraseWord, if_pos hnot]
    apply ih (by omega) (hone.1.trans hlast) (by omega)
    intro i hi
    rw [show (eraseOne k one).kbbuf = tw.kbbuf from hone.2.1]
    exact hword i (by omega)

theorem contents_take {m : ℕ} (h : (m : Int) ≤ tw.kblen) :
    WindRec.contents { tw with kblen := m } = tw.contents.take m := by
  have hmin : min m tw.kblen.toNat = m := by omega
  rw [WindRec.contents, WindRec.contents, ← List.map_take, List.take_range, hmin,
    Int.toNat_natCast]

/-- The last blank of a buffer. -/
theorem exists_last_blank {keys : List UInt8} (h : 32 ∈ keys) :
    ∃ front word, keys = front ++ 32 :: word ∧ 32 ∉ word := by
  obtain ⟨word, front, heq, hnot⟩ := List.eq_append_cons_of_mem (List.mem_reverse.mpr h)
  refine ⟨front.reverse, word.reverse, ?_, fun hmem => hnot (List.mem_reverse.mp hmem)⟩
  rw [← List.reverse_reverse keys, heq, List.reverse_append, List.reverse_cons,
    List.append_assoc]
  rfl

/-- What the key that kills a word does to a buffer with a blank in it. -/
theorem eraseWord_spec (hb : Bounded tw) {front word : List UInt8}
    (hkeys : tw.contents = front ++ 32 :: word) (hword : 32 ∉ word) :
    Bounded (eraseWord k ((tw.kblen+1).toNat+1) tw) ∧
      (eraseWord k ((tw.kblen+1).toNat+1) tw).contents = front ++ [32] := by
  have hlen := length_contents hb
  have hmax : tw.kblen ≤ 256 := hb.le_max
  have hsplit : tw.contents.length = front.length+(word.length+1) := by
    rw [hkeys, List.length_append, List.length_cons]
  have hblank : tw.kbbuf front.length = 32 := by
    rw [← @getElem_contents tw front.length (by omega)]
    simp only [hkeys, List.getElem_append_right (Nat.le_refl _), Nat.sub_self,
      List.getElem_cons_zero]
  have hrest : ∀ i : ℕ, front.length < i → i < tw.contents.length → tw.kbbuf i ≠ 32 := by
    intro i hi hi' heq
    obtain ⟨j, rfl⟩ : ∃ j, i = front.length+(j+1) := ⟨i-front.length-1, by omega⟩
    apply hword
    rw [← heq, ← getElem_contents hi']
    simp only [hkeys, List.getElem_append_right (Nat.le_add_right _ _), Nat.add_sub_cancel_left,
      List.getElem_cons_succ]
    exact List.getElem_mem _
  obtain ⟨seen, hseen, hsame⟩ := eraseWord_stops k (tw.kblen+1).toNat hlen.symm
    (by omega) (by omega) (by omega) hblank hrest
  constructor
  · apply Bounded.of_same hsame
    refine ⟨by change 0 ≤ (front.length : Int)+1; omega,
      by change (front.length : Int)+1 ≤ 256; omega, ?_⟩
    intro r hr
    rcases List.mem_append.mp hr with hold | hnew
    · exact hb.reads_below r hold
    · exact hseen r hnew
  · calc (eraseWord k ((tw.kblen+1).toNat+1) tw).contents
        = WindRec.contents { tw with kblen := ((front.length+1 : ℕ) : Int) } := hsame.contents_eq
      _ = tw.contents.take (front.length+1) := contents_take (by omega)
      _ = front ++ [32] := by
        rw [hkeys, List.take_append, List.take_of_length_le (by omega), Nat.add_sub_cancel_left]
        rfl

/-- A buffer that ends with a blank has lost no word, unless it has none. -/
theorem lastWordRemoved_self {keys : List UInt8} :
    LastWordRemoved keys keys ↔ ∀ c ∈ keys, c = 32 := by
  constructor
  · rintro (⟨hall, _⟩ | ⟨word, blanks, heq, hne, _⟩)
    · exact hall
    · have hlen := congrArg List.length heq
      rw [List.length_append, List.length_append] at hlen
      exact absurd (List.length_eq_zero_iff.mp (by omega)) hne
  · exact fun hall => .inl ⟨hall, rfl⟩

/-- The key that kills a word keeps its promise exactly where the buffer has a blank and
does not end with one behind a word. -/
theorem eraseWord_iff (hb : Bounded tw) :
    (Bounded (eraseWord k ((tw.kblen+1).toNat+1) tw) ∧
      LastWordRemoved tw.contents (eraseWord k ((tw.kblen+1).toNat+1) tw).contents) ↔
    32 ∈ tw.contents ∧ (tw.contents.getLast? = some 32 → ∀ c ∈ tw.contents, c = 32) := by
  have hlen := length_contents hb
  have hmax : tw.kblen ≤ 256 := hb.le_max
  by_cases hmem : 32 ∈ tw.contents
  · obtain ⟨front, word, hkeys, hword⟩ := exists_last_blank hmem
    obtain ⟨hbound, hnew⟩ := eraseWord_spec (k := k) hb hkeys hword
    rw [and_iff_right hbound, and_iff_right hmem, hnew]
    by_cases hend : word = []
    · -- the loop stops at once and nothing goes
      have hsame : front ++ [32] = tw.contents := by rw [hkeys, hend]
      have hlast : tw.contents.getLast? = some 32 := by
        rw [← hsame, List.getLast?_append, List.getLast?_singleton]
        rfl
      rw [hsame, imp_iff_right hlast, lastWordRemoved_self]
    · apply iff_of_true
      · refine .inr ⟨word, [], ?_, hend, hword, nofun, .inr ?_⟩
        · rw [hkeys, List.append_nil, List.append_assoc]
          rfl
        · rw [List.getLast?_append, List.getLast?_singleton]
          rfl
      · intro hlast
        rw [hkeys, List.getLast?_append, List.getLast?_cons] at hlast
        have hin : (32 : UInt8) ∈ word := by
          rw [List.getLast?_eq_some_getLast hend] at hlast
          have hval : word.getLast hend = 32 := Option.some.inj hlast
          rw [← hval]
          exact List.getLast_mem hend
        exact absurd hin hword
  · have hout : (-1, 0) ∈ (eraseWord k ((tw.kblen+1).toNat+1) tw).reads := by
      apply eraseWord_leaves k tw.contents.length (by omega) hlen.symm (by omega)
      intro i hi heq
      rw [← heq, ← getElem_contents hi] at hmem
      exact hmem (List.getElem_mem hi)
    constructor
    · intro h
      exact absurd (h.1.reads_below _ hout).1 (by decide)
    · exact fun h => absurd h.1 hmem

end Keys

/-- The state in which the editing of a key begins: a quoted key is stored first, and
while the keys are echoed that is all. -/
def reached (k : Setting) (ascii : UInt8) (tw : WindRec) : Option WindRec :=
  if tw.litNext then
    if k.echo then none else some (kbwrite { tw with litNext := false } [ascii])
  else some tw

/-- What is promised of a key: the buffer stays bounded, the keys that erase do nothing to
an empty one, and the key that kills a word takes the last word and nothing else. -/
structure KeySound (k : Setting) (ascii : UInt8) (tw : WindRec) : Prop where
  bounded : Bounded (process_key k ascii tw)
  nothing : ∀ t, reached k ascii tw = some t →
    meaning k ascii ∈ [.eraseChar, .eraseLine, .eraseWord] → t.kblen = 0 →
    (process_key k ascii tw).kblen = 0 ∧ (process_key k ascii tw).kbbuf = t.kbbuf
  word : ∀ t, reached k ascii tw = some t → meaning k ascii = .eraseWord →
    LastWordRemoved t.contents (process_key k ascii tw).contents

/-- The keys in the buffer when the editing begins. -/
def found (ascii : UInt8) (tw : WindRec) : List UInt8 :=
  if tw.litNext then (if tw.kblen = MAXKB then [] else tw.contents) ++ [ascii]
  else tw.contents

/-- There is a character to erase, and a word to kill has a blank somewhere before it and
none behind it. -/
def KeyFine (k : Setting) (ascii : UInt8) (tw : WindRec) : Prop :=
  tw.litNext ∧ k.echo ∨
    (meaning k ascii = .eraseChar → found ascii tw ≠ []) ∧
    (meaning k ascii = .eraseWord → 32 ∈ found ascii tw ∧
      ((found ascii tw).getLast? = some 32 → ∀ c ∈ found ascii tw, c = 32))

/-- A key, and the other calls that touch the buffer. -/
inductive KbOp where
  | key (k : Setting) (ascii : UInt8)
  | write (string : List UInt8)
  | flush
  | dontLinemode

namespace KbOp

def apply (tw : WindRec) : KbOp → WindRec
  | key k ascii => process_key k ascii tw
  | write string => kbwrite tw string
  | flush => kbflush tw
  | dontLinemode => telnet_dont_linemode tw

def Sound (tw : WindRec) : KbOp → Prop
  | key k ascii => KeySound k ascii tw
  | write string => Bounded (kbwrite tw string)
  | flush => Bounded (kbflush tw)
  | dontLinemode => Bounded (telnet_dont_linemode tw)

def Fine (tw : WindRec) : KbOp → Prop
  | key k ascii => KeyFine k ascii tw
  | _ => True

end KbOp

/-- The states reached from an empty buffer by steps that meet `P`. -/
inductive KbRun (P : WindRec → KbOp → Prop) : WindRec → Prop
  | start {tw : WindRec} : tw.kblen = 0 → tw.reads = [] → KbRun P tw
  | op {tw : WindRec} (o : KbOp) : KbRun P tw → P tw o → KbRun P (o.apply tw)

section Runs
variable {k : Setting} {ascii : UInt8} {tw t : WindRec}

theorem sendSignal_same (k : Setting) (which : SLC) (command : UInt8) (tw : WindRec) :
    SameKeys (sendSignal k which command tw) { tw with kblen := 0 } := by
  rw [sendSignal]
  split_ifs <;> exact ⟨rfl, rfl, rfl⟩

theorem empty_bounded (hb : Bounded tw) : Bounded { tw with kblen := 0 } :=
  ⟨Int.le_refl 0, Int.zero_le_ofNat 256, hb.reads_below⟩

/-- The keys other than the two that can go wrong keep the buffer bounded. -/
theorem handleKey_bounded (hb : Bounded tw) (hchar : meaning k ascii ≠ .eraseChar)
    (hword : meaning k ascii ≠ .eraseWord) : Bounded (handleKey k ascii tw) := by
  have hflush : ∀ calls, Bounded ((kbflush tw).call calls) := fun calls =>
    (kbflush_bounded hb).of_same (call_same _ calls)
  have hcall : ∀ calls, Bounded (tw.call calls) := fun calls => hb.of_same (call_same _ calls)
  rw [handleKey]
  cases hm : meaning k ascii with
  | signal which command => exact (empty_bounded hb).of_same (sendSignal_same k which command tw)
  | softTab => exact (kbwrite_bounded _ hb).of_same (echo_same k _ _)
  | sendLine => exact (hflush _).of_same (echo_same k _ _)
  | eraseChar => exact absurd hm hchar
  | eraseLine =>
    have h0 := hb.nonneg
    have h1 : tw.kblen ≤ 256 := hb.le_max
    exact (empty_bounded hb).of_same (eraseLine_same k tw.kblen.toNat (by omega) (by omega))
  | endOfFile => exact hflush _
  | eraseWord => exact absurd hm hword
  | redrawLine => exact hcall _
  | quote => exact ⟨hb.nonneg, hb.le_max, hb.reads_below⟩
  | xon =>
    change Bounded (if k.allow_flow then _ else tw)
    split_ifs
    · exact ⟨hb.nonneg, hb.le_max, hb.reads_below⟩
    · exact hb
  | xoff =>
    change Bounded (if k.allow_flow then _ else tw)
    split_ifs
    · exact ⟨hb.nonneg, hb.le_max, hb.reads_below⟩
    · exact hb
  | forward => exact hflush _
  | store => exact (kbwrite_bounded _ hb).of_same (localEcho_same k ascii _)
  | newline => exact (hcall _).of_same (echo_same k _ _)
  | send => exact (hcall _).of_same (localEcho_same k ascii _)

/-- Erasing a character keeps its promise exactly where there is one. -/
theorem handleKey_eraseChar (hb : Bounded tw) (hm : meaning k ascii = .eraseChar) :
    (Bounded (handleKey k ascii tw) ∧ (tw.kblen = 0 → (handleKey k ascii tw).kblen = 0)) ↔
      tw.contents ≠ [] := by
  have h0 := hb.nonneg
  have h1 : tw.kblen ≤ 256 := hb.le_max
  have hone : SameKeys (handleKey k ascii tw) { tw with kblen := tw.kblen-1 } := by
    rw [handleKey, hm]
    exact eraseOne_same k h0 hb.le_max
  have hlen : (handleKey k ascii tw).kblen = tw.kblen-1 := hone.1
  rw [ne_eq, contents_nil_iff hb]
  constructor
  · intro ⟨hbound, _⟩
    have := hbound.nonneg
    omega
  · intro hne
    refine ⟨Bounded.of_same hone ⟨?_, ?_, hb.reads_below⟩, fun h => absurd h hne⟩
    · change 0 ≤ tw.kblen-1
      omega
    · change tw.kblen-1 ≤ 256
      omega

/-- The keys in the buffer when the editing begins, which is a bounded state. -/
theorem reached_found (hb : Bounded tw) (h : reached k ascii tw = some t) :
    Bounded t ∧ t.contents = found ascii tw ∧ process_key k ascii tw = handleKey k ascii t := by
  rw [reached] at h
  rw [found, process_key]
  split_ifs at h with hlit hecho
  · obtain rfl := Option.some.inj h
    have hstart : Bounded { tw with litNext := false } :=
      ⟨hb.nonneg, hb.le_max, hb.reads_below⟩
    obtain ⟨hbound, hnew⟩ := kbwriteChar_bounded hstart ascii
    rw [if_pos hlit, if_pos hlit]
    exact ⟨hbound, hnew, if_neg hecho⟩
  · obtain rfl := Option.some.inj h
    rw [if_neg hlit, if_neg hlit]
    exact ⟨hb, rfl, rfl⟩

/-- A quoted key that is echoed is stored and no more. -/
theorem quoted_sound (hb : Bounded tw) (hlit : tw.litNext) (hecho : k.echo) :
    KeySound k ascii tw := by
  have hnone : reached k ascii tw = none := by rw [reached, if_pos hlit, if_pos hecho]
  have hstart : Bounded { tw with litNext := false } :=
      ⟨hb.nonneg, hb.le_max, hb.reads_below⟩
  refine ⟨?_, fun t ht => ?_, fun t ht => ?_⟩
  · rw [process_key, if_pos hlit, if_pos hecho]
    split_ifs
    · exact (kbwrite_bounded [ascii] hstart).of_same (call_same _ _)
    · exact kbwrite_bounded [ascii] hstart
  · exact nomatch hnone.symm.trans ht
  · exact nomatch hnone.symm.trans ht

/-- A key keeps its promise exactly where it has a character to erase or a word to kill
between a blank and the end of the buffer. -/
theorem keySound_iff (hb : Bounded tw) : KeySound k ascii tw ↔ KeyFine k ascii tw := by
  by_cases hquoted : tw.litNext ∧ k.echo
  · exact iff_of_true (quoted_sound hb hquoted.1 hquoted.2) (.inl hquoted)
  obtain ⟨t, ht⟩ : ∃ t, reached k ascii tw = some t := by
    rw [reached]
    split_ifs with hlit hecho
    · exact absurd ⟨hlit, hecho⟩ hquoted
    · exact ⟨_, rfl⟩
    · exact ⟨_, rfl⟩
  obtain ⟨hbt, hfound, hkey⟩ := reached_found hb ht
  rw [KeyFine, or_iff_right hquoted, ← hfound]
  have honly : ∀ t', reached k ascii tw = some t' → t' = t := fun t' ht' =>
    Option.some.inj (ht'.symm.trans ht)
  by_cases hchar : meaning k ascii = .eraseChar
  · have hspec := handleKey_eraseChar hbt hchar
    rw [← hkey] at hspec
    constructor
    · intro hs
      refine ⟨fun _ => hspec.mp ⟨hs.bounded, fun h0 => ?_⟩, fun h => nomatch hchar.symm.trans h⟩
      exact (hs.nothing t ht (by rw [hchar]; decide) h0).1
    · intro ⟨hne, _⟩
      have hne := hne hchar
      refine ⟨(hspec.mpr hne).1, fun t' ht' _ h0 => ?_, fun _ _ h => nomatch hchar.symm.trans h⟩
      rw [honly t' ht'] at h0
      exact absurd ((contents_nil_iff hbt).mpr h0) hne
  by_cases hword : meaning k ascii = .eraseWord
  · have hspec := eraseWord_iff (k := k) hbt
    have hsame : SameKeys (process_key k ascii tw)
        (eraseWord k ((t.kblen+1).toNat+1) t) := by
      rw [hkey, handleKey, hword]
      exact localEcho_same k ascii _
    constructor
    · intro hs
      refine ⟨fun h => absurd h hchar, fun _ => hspec.mp ⟨?_, ?_⟩⟩
      · exact hs.bounded.of_same ⟨hsame.1.symm, hsame.2.1.symm, hsame.2.2.symm⟩
      · rw [← hsame.contents_eq]
        exact hs.word t ht hword
    · intro ⟨_, hfine⟩
      have hfine := hfine hword
      obtain ⟨hbound, hgone⟩ := hspec.mpr hfine
      refine ⟨hbound.of_same hsame, fun t' ht' _ h0 => ?_, fun t' ht' _ => ?_⟩
      · rw [honly t' ht'] at h0
        rw [(contents_nil_iff hbt).mpr h0] at hfine
        exact absurd hfine.1 List.not_mem_nil
      · rw [honly t' ht', hsame.contents_eq]
        exact hgone
  · apply iff_of_true _ ⟨fun h => absurd h hchar, fun h => absurd h hword⟩
    refine ⟨hkey ▸ handleKey_bounded hbt hchar hword, fun t' ht' hm h0 => ?_,
      fun _ _ h => absurd h hword⟩
    rw [honly t' ht'] at h0 ⊢
    have hline : meaning k ascii = .eraseLine := by
      rcases List.mem_cons.mp hm with h | hm
      · exact absurd h hchar
      rcases List.mem_cons.mp hm with h | hm
      · exact h
      · exact absurd (List.mem_singleton.mp hm) hword
    -- an empty line: the loop does not run
    rw [hkey, handleKey, hline, h0]
    exact ⟨h0, rfl⟩

theorem op_sound_iff (hb : Bounded tw) (o : KbOp) : o.Sound tw ↔ o.Fine tw := by
  cases o with
  | key k ascii => exact keySound_iff hb
  | write string => exact iff_of_true (kbwrite_bounded string hb) trivial
  | flush => exact iff_of_true (kbflush_bounded hb) trivial
  | dontLinemode =>
    have hflush := kbflush_bounded hb
    exact iff_of_true ⟨hflush.nonneg, hflush.le_max, hflush.reads_below⟩ trivial

theorem KbOp.Sound.bounded {o : KbOp} (h : o.Sound tw) : Bounded (o.apply tw) := by
  cases o with
  | key k ascii => exact KeySound.bounded h
  | write string => exact h
  | flush => exact h
  | dontLinemode => exact h

theorem bounded_run (h : KbRun KbOp.Fine tw) : Bounded tw := by
  induction h with
  | start hlen hreads =>
    refine ⟨Int.le_of_eq hlen.symm, ?_, hreads.symm ▸ nofun⟩
    rw [hlen]
    exact Int.zero_le_ofNat 256
  | op o _ hfine ih => exact ((op_sound_iff ih o).mpr hfine).bounded

end Runs

/-- Nothing typed yet, in a memory of zeros. -/
def lineStart : WindRec :=
  { kblen := 0, kbbuf := fun _ => 0, litNext := false, timing := false, enabled := true
    reads := [], calls := [] }

/-- Editing with backspace and control-W, and no other key set. -/
def editing : Setting where
  slc
    | .EC => 8
    | .EW => 23
    | _ => 255
  slcLevel _ := 0
  lmodeBits := L_EDIT
  echo := true
  allow_flow := false
  tabDistance := 8

end Linemode
