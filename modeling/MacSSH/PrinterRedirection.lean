import MacSSH.Overlaps
import Mathlib.Data.List.Basic
import Mathlib.Data.List.Induction
import Mathlib.Data.List.TakeDrop
import Mathlib.Tactic.Common

/-! Printer redirection: what the host sends between the sequences that turn the
printer on and off goes to a file. -/
namespace VS

open Overlaps

@[simp] abbrev ESC : UInt8 := 0x1b

/-- `ESC [ 4 i` as the last four octets. -/
def ENDOFPRT : UInt32 := 0x1b5b3469

/-- `[ ? 4 i` as the last four octets, valid when `ESC` is the one before. -/
def ENDOFPRT2 : UInt32 := 0x5b3f3469

/-- The fields of a screen that belong to the printer, and the temporary file. -/
structure Printer where
  prredirect : Bool
  qprint : Bool
  printqueued : Bool
  prbuf : UInt32
  prbuf2 : UInt8
  file : List UInt8

namespace Printer

/-- The host turns the redirection on; `opens` says whether the file can be opened. -/
def VSprON (p : Printer) (opens : Bool) : Printer :=
  let p := { p with prredirect := true }
  if p.qprint && p.printqueued then
    -- the file of the queue stays open and loses the terminator of the last print
    { p with file := if p.file.length ≥ 3 then p.file.take (p.file.length-3) else p.file }
  else
    let p := if p.qprint then { p with printqueued := true } else p
    let p := { p with prbuf := 0, prbuf2 := 0 }
    if opens then { p with file := [] } else { p with prredirect := false }

/-- Print the file, unless prints are queued. -/
def VSprOFF (p : Printer) : Printer :=
  if !p.prredirect then p
  else
    let p := { p with prredirect := false }
    if p.qprint then p else { p with file := [] }

/-- The next octet enters the shift register. -/
def shift (p : Printer) (c : UInt8) : Printer :=
  { p with prbuf2 := (p.prbuf >>> 24).toUInt8, prbuf := (p.prbuf <<< 8) + c.toUInt32 }

/-- A reset of the terminal kills the redirection. -/
def reset (p : Printer) : Printer :=
  { p with prbuf := 0, prredirect := false, file := if p.prredirect then [] else p.file }

/-- The user queues the prints or prints the queue. -/
def VSsetprintmode (p : Printer) (printMode : Bool) : Printer :=
  let p := { p with qprint := printMode }
  let p := if !printMode then { p with prredirect := p.printqueued }.VSprOFF else p
  { p with printqueued := false }

end Printer

/-- The lengths of the writes to the file: what a window receives is translated in
pieces. -/
def writePieces : ℕ → Int → List Int
  | 0, _ => []
  | fuel+1, len =>
    if len = 0 then []
    else
      let buflen := if len > 256 then 256 else len
      buflen :: writePieces fuel (len-buflen)

def VStranslatewrite (window : Bool) (len : Int) : List Int :=
  if window then writePieces (len.toNat+1) len else [len]

/-- The loop over the octets of one chunk: `count` octets from `start` on are still to be
written, and `writes` are the starts and counts of the writes so far. -/
structure PrScan where
  printer : Printer
  start : Int
  count : Int
  rdy : Bool
  writes : List (Int × Int)

def PrScan.byte (s : PrScan) (c : UInt8) : PrScan :=
  let p := s.printer.shift c
  let rdy := p.prbuf = ENDOFPRT
  let rdy2 := p.prbuf = ENDOFPRT2 ∧ p.prbuf2 = ESC
  let count := if rdy then s.count-1 else s.count
  let count := if rdy2 then count-1-1 else count
  let count := count+1
  let s := { s with printer := p, rdy := rdy ∨ rdy2 }
  if c = 0 then
    -- the octets before the NUL are written, the NUL is not
    let count := count-1
    { s with writes := s.writes ++ [(s.start, count)], start := s.start+(count+1), count := 0 }
  else { s with count := count }

/-- Go on to the end of the chunk, or of the print; also the octets that are left. -/
def PrScan.loop : PrScan → List UInt8 → PrScan × List UInt8
  | s, [] => (s, [])
  | s, c :: cs => if (s.byte c).rdy then (s.byte c, cs) else (s.byte c).loop cs

/-- What a chunk for the printer comes to. -/
structure PrResult where
  printer : Printer
  rest : List UInt8
  writes : List (Int × Int)

/-- The octets of `chunk` that a write with this start and count takes. -/
def written (chunk : List UInt8) (w : Int × Int) : List UInt8 :=
  (chunk.drop w.1.toNat).take w.2.toNat

/-- Redirect a chunk to the file. -/
def VSpr (p : Printer) (chunk : List UInt8) : PrResult :=
  let (s, rest) := PrScan.loop ⟨p, 0, 0, false, []⟩ chunk
  let writes := s.writes ++ [(s.start, s.count)]
  let p := { s.printer with file := s.printer.file ++ writes.flatMap (written chunk) }
  ⟨if s.rdy then p.VSprOFF else p, rest, writes⟩

/-- Chunks that arrive while the printer is on: what is left after the print, the octets
handed to the file, and the count of each write with the length of its chunk. -/
structure PrRun where
  printer : Printer
  rest : List UInt8
  handed : List UInt8
  counts : List (Int × ℕ)

def printChunks (p : Printer) : List (List UInt8) → PrRun
  | [] => ⟨p, [], [], []⟩
  | chunk :: chunks =>
    let r := VSpr p chunk
    let handed := r.writes.flatMap (written chunk)
    let counts := r.writes.map fun w => (w.2, chunk.length)
    if r.printer.prredirect then
      let later := printChunks r.printer chunks
      { later with handed := handed ++ later.handed, counts := counts ++ later.counts }
    else ⟨r.printer, r.rest ++ chunks.flatten, handed, counts⟩

/-- What can happen to the printer of a screen. -/
inductive Printer.Reachable : Printer → Prop
  | new (queued : Bool) (prbuf2 : UInt8) : Reachable ⟨false, false, queued, 0, prbuf2, []⟩
  | on {p : Printer} (h : Reachable p) (opens : Bool) : Reachable (p.VSprON opens)
  | chunk {p : Printer} (h : Reachable p) (hon : p.prredirect = true) (chunk : List UInt8) :
    Reachable (VSpr p chunk).printer
  | reset {p : Printer} (h : Reachable p) : Reachable p.reset
  | mode {p : Printer} (h : Reachable p) (printMode : Bool) :
    Reachable (p.VSsetprintmode printMode)

/-- The two sequences that turn the printer off. -/
def printerOff : List (List UInt8) := [[ESC, 0x5b, 0x34, 0x69], [ESC, 0x5b, 0x3f, 0x34, 0x69]]

/-- A sequence that turns the printer off ends here. -/
def TurnsOff (l : List UInt8) : Prop := ∃ t ∈ printerOff, t <:+ l

/-- No octet before here ends such a sequence. -/
def StillOn (l : List UInt8) : Prop := ∀ k, k <+: l → ¬TurnsOff k

/-- The redirection ends with the first sequence that turns the printer off; the octets
before it and its first three are in the file, without NULs; and no count is out of
range. -/
structure Redirects (window : Bool) (p : Printer) (chunks : List (List UInt8)) : Prop where
  ends : ∀ pre t rest, t ∈ printerOff → chunks.flatten = pre ++ t ++ rest →
    StillOn (pre ++ t.dropLast) → (printChunks p chunks).printer.prredirect = false ∧
      (printChunks p chunks).rest = rest ∧
      (printChunks p chunks).handed = pre.filter (· ≠ 0) ++ t.take 3
  goesOn : StillOn chunks.flatten → (printChunks p chunks).printer.prredirect = true ∧
    (printChunks p chunks).rest = [] ∧
    (printChunks p chunks).handed = chunks.flatten.filter (· ≠ 0)
  counts : ∀ w ∈ (printChunks p chunks).counts, ∀ k ∈ VStranslatewrite window w.1,
    0 ≤ k ∧ k ≤ w.2

/-- The first sequence that turns the printer off is the long one, and its last octet is
the first of a chunk. -/
def LastOctetApart (chunks : List (List UInt8)) : Prop :=
  ∃ before chunk after, chunks = before ++ (0x69 :: chunk) :: after ∧
    StillOn before.flatten ∧ [ESC, 0x5b, 0x3f, 0x34] <:+ before.flatten

section Register

/-- The number that four octets make. -/
def octets4 (a b c d : UInt8) : ℕ := ((a.toNat*256+b.toNat)*256+c.toNat)*256+d.toNat

theorem octets4_inj {a b c d a' b' c' d' : UInt8} :
    octets4 a b c d = octets4 a' b' c' d' ↔ a = a' ∧ b = b' ∧ c = c' ∧ d = d' := by
  simp only [octets4, ← UInt8.toNat_inj]
  have := a.toNat_lt; have := b.toNat_lt; have := c.toNat_lt; have := d.toNat_lt
  have := a'.toNat_lt; have := b'.toNat_lt; have := c'.toNat_lt; have := d'.toNat_lt
  omega

theorem shift_octets {p : Printer} {a b c d e : UInt8}
    (h : p.prbuf.toNat = octets4 a b c d) :
    (p.shift e).prbuf.toNat = octets4 b c d e ∧ (p.shift e).prbuf2 = a := by
  have := a.toNat_lt; have := b.toNat_lt; have := c.toNat_lt; have := d.toNat_lt
  have := e.toNat_lt
  constructor
  · simp only [Printer.shift, UInt32.toNat_add, UInt32.toNat_shiftLeft, h, octets4]
    simp
    omega
  · rw [← UInt8.toNat_inj]
    simp only [Printer.shift, UInt32.toNat_toUInt8, UInt32.toNat_shiftRight, h, octets4]
    simp
    omega
/-- The shift register holds the last octets of the stream; `seen` are those since the
printer was turned on. The octet before them cannot be followed by more of a sequence
that turns the printer off. -/
def Printer.Since (p : Printer) (seen : List UInt8) : Prop :=
  ∃ stale last pre a b c d, last ∉ [ESC, 0x5b, 0x3f, 0x34] ∧
    stale ++ last :: seen = pre ++ [a, b, c, d] ∧ p.prbuf.toNat = octets4 a b c d

theorem not_mem_of_quiet {t : List UInt8} {last : UInt8} (ht : t ∈ printerOff)
    (hlast : last ∉ [ESC, 0x5b, 0x3f, 0x34]) : last ∉ t.dropLast := by
  simp only [printerOff, List.mem_cons, List.not_mem_nil, or_false, not_or] at ht hlast
  rcases ht with rfl | rfl <;> simp [hlast]

/-- The two tests find the two sequences. -/
theorem Printer.Since.shift {p : Printer} {seen : List UInt8} (h : p.Since seen) (e : UInt8) :
    (p.shift e).Since (seen ++ [e]) ∧
      ((p.shift e).prbuf = ENDOFPRT ↔ [ESC, 0x5b, 0x34, 0x69] <:+ seen ++ [e]) ∧
      ((p.shift e).prbuf = ENDOFPRT2 ∧ (p.shift e).prbuf2 = ESC ↔
        [ESC, 0x5b, 0x3f, 0x34, 0x69] <:+ seen ++ [e]) := by
  obtain ⟨stale, last, pre, a, b, c, d, hlast, hl, hp⟩ := h
  obtain ⟨hbuf, hbuf2⟩ := shift_octets (e := e) hp
  have hl' : stale ++ last :: (seen ++ [e]) = pre ++ [a, b, c, d, e] := by
    calc stale ++ last :: (seen ++ [e]) = (stale ++ last :: seen) ++ [e] := by simp
      _ = pre ++ [a, b, c, d, e] := by rw [hl]; simp
  have hne : seen ++ [e] ≠ [] := by simp
  refine ⟨⟨stale, last, pre ++ [a], b, c, d, e, hlast, by rw [hl']; simp, hbuf⟩, ?_, ?_⟩
  · rw [← suffix_behind (l := stale) (not_mem_of_quiet (by simp [printerOff]) hlast) hne, hl',
      ← UInt32.toNat_inj, hbuf]
    have hsplit : pre ++ [a, b, c, d, e] = (pre ++ [a]) ++ [b, c, d, e] := by simp
    have hsuf := @suffix_eq_of_length UInt8 [ESC, 0x5b, 0x34, 0x69] [b, c, d, e] (pre ++ [a]) rfl
    rw [hsplit, hsuf]
    have hnum : ENDOFPRT.toNat = octets4 ESC 0x5b 0x34 0x69 := by decide
    rw [hnum, octets4_inj]
    simp [eq_comm]
  · rw [← suffix_behind (l := stale) (not_mem_of_quiet (by simp [printerOff]) hlast) hne, hl',
      ← UInt32.toNat_inj, hbuf, hbuf2]
    have hsuf := @suffix_eq_of_length UInt8 [ESC, 0x5b, 0x3f, 0x34, 0x69] [a, b, c, d, e] pre rfl
    rw [hsuf]
    have hnum : ENDOFPRT2.toNat = octets4 0x5b 0x3f 0x34 0x69 := by decide
    rw [hnum, octets4_inj]
    simp only [List.cons.injEq, and_true]
    constructor
    · rintro ⟨⟨rfl, rfl, rfl, rfl⟩, rfl⟩
      exact ⟨rfl, rfl, rfl, rfl, rfl⟩
    · rintro ⟨rfl, rfl, rfl, rfl, rfl⟩
      exact ⟨⟨rfl, rfl, rfl, rfl⟩, rfl⟩

end Register

section Scan
variable {seen done mid todo : List UInt8} {s : PrScan} {c : UInt8}

/-- The loop has gone through `done`: what it has not yet written has no NUL, and the
writes so far are the octets before that, without NULs. -/
structure PrScan.Scanned (s : PrScan) (seen done todo : List UInt8) : Prop where
  since : s.printer.Since (seen ++ done)
  on : s.printer.prredirect = true
  rdy : s.rdy = false
  start : 0 ≤ s.start
  count : 0 ≤ s.count
  total : s.start+s.count = done.length
  pending : ∀ c ∈ done.drop s.start.toNat, c ≠ 0
  nothing : s.count = 0 → done = [] ∨ [0] <:+ done
  handed : s.writes.flatMap (written (done ++ todo)) = (done.take s.start.toNat).filter (· ≠ 0)
  counts : ∀ w ∈ s.writes, 0 ≤ w.2 ∧ w.2 ≤ (done ++ todo).length

theorem written_done {start count : Int} (hstart : 0 ≤ start) (hcount : 0 ≤ count)
    (htotal : start+count ≤ done.length) :
    written (done ++ todo) (start, count) = (done.drop start.toNat).take count.toNat := by
  have hlen : start.toNat ≤ done.length := by omega
  rw [written, List.drop_append_of_le_length hlen, List.take_append_of_le_length]
  rw [List.length_drop]
  omega

theorem filter_eq_self_of_pending (h : ∀ c ∈ done, c ≠ 0) : done.filter (· ≠ 0) = done :=
  List.filter_eq_self.mpr fun c hc => by simpa using h c hc

/-- The octets that have been gone through are the writes and what is still to be
written. -/
theorem PrScan.Scanned.flush (h : s.Scanned seen done todo) :
    (s.writes ++ [(s.start, s.count)]).flatMap (written (done ++ todo)) =
      done.filter (· ≠ 0) := by
  have htotal := h.total
  have hall : (done.drop s.start.toNat).take s.count.toNat = done.drop s.start.toNat := by
    apply List.take_of_length_le
    rw [List.length_drop]
    have := h.start
    omega
  calc (s.writes ++ [(s.start, s.count)]).flatMap (written (done ++ todo))
      = (done.take s.start.toNat).filter (· ≠ 0) ++ done.drop s.start.toNat := by
        rw [List.flatMap_append, h.handed, List.flatMap_singleton,
          written_done h.start h.count (by omega), hall]
    _ = (done.take s.start.toNat ++ done.drop s.start.toNat).filter (· ≠ 0) := by
        rw [List.filter_append, filter_eq_self_of_pending h.pending]
    _ = done.filter (· ≠ 0) := by rw [List.take_append_drop]

/-- An octet that turns nothing off is counted, or it is a NUL. -/
theorem PrScan.Scanned.byte (h : s.Scanned seen done (c :: todo))
    (hon : ¬TurnsOff (seen ++ done ++ [c])) : (s.byte c).Scanned seen (done ++ [c]) todo := by
  obtain ⟨hsince, h1, h2⟩ := h.since.shift c
  have hlist : done ++ c :: todo = done ++ [c] ++ todo := by simp
  have hno1 : ¬(s.printer.shift c).prbuf = ENDOFPRT := by
    intro hend
    exact hon ⟨_, by simp [printerOff], h1.mp hend⟩
  have hno2 : ¬((s.printer.shift c).prbuf = ENDOFPRT2 ∧ (s.printer.shift c).prbuf2 = ESC) := by
    intro hend
    exact hon ⟨_, by simp [printerOff], h2.mp hend⟩
  have hflush := h.flush
  have hstart := h.start
  have hcount := h.count
  have htotal := h.total
  rw [hlist] at hflush
  have hbyte : s.byte c = if c = 0 then
      ⟨s.printer.shift c, s.start+(s.count+1), 0, false, s.writes ++ [(s.start, s.count)]⟩
      else ⟨s.printer.shift c, s.start, s.count+1, false, s.writes⟩ := by
    simp [PrScan.byte, hno1, hno2]
  by_cases hc : c = 0
  · -- everything up to the NUL has been written
    rw [if_pos hc] at hbyte
    have hto : (s.start+(s.count+1)).toNat = (done ++ [c]).length := by
      rw [List.length_append, List.length_singleton]
      omega
    rw [hbyte]
    refine ⟨by simpa using hsince, h.on, rfl, by simp only; omega, Int.le_refl 0, ?_, ?_,
      fun _ => Or.inr (by simp [hc]), ?_, ?_⟩
    · rw [List.length_append, List.length_singleton]
      push_cast
      omega
    · simp only [hto, List.drop_length]
      simp
    · simp only [hto, List.take_length]
      rw [hflush, List.filter_append, hc]
      simp
    · intro w hw
      rcases List.mem_append.mp hw with hw | hw
      · simpa using h.counts w hw
      · rw [List.mem_singleton.mp hw]
        simp only [List.length_append]
        omega
  · rw [if_neg hc] at hbyte
    have hle : s.start.toNat ≤ done.length := by omega
    rw [hbyte]
    refine ⟨by simpa using hsince, h.on, rfl, hstart, by simp only; omega, ?_, ?_,
      fun hzero => absurd hzero (by simp only; omega), ?_, ?_⟩
    · rw [List.length_append, List.length_singleton]
      push_cast
      omega
    · intro k hk
      simp only [List.drop_append_of_le_length hle, List.mem_append, List.mem_singleton] at hk
      rcases hk with hk | rfl
      · exact h.pending k hk
      · exact hc
    · simp only [List.take_append_of_le_length hle]
      simpa using h.handed
    · simpa using h.counts

/-- With the last octet of the short sequence the count stays. -/
theorem PrScan.Scanned.off_short (h : s.Scanned seen done (c :: todo))
    (hoff : [ESC, 0x5b, 0x34, 0x69] <:+ seen ++ done ++ [c]) :
    s.byte c = ⟨s.printer.shift c, s.start, s.count, true, s.writes⟩ := by
  obtain ⟨-, h1, -⟩ := h.since.shift c
  have hend := h1.mpr hoff
  change [ESC, 0x5b, 0x34] ++ [0x69] <:+ _ at hoff
  obtain ⟨rfl, -⟩ := concat_suffix_concat.mp hoff
  have hne : ENDOFPRT ≠ ENDOFPRT2 := by decide
  simp [PrScan.byte, hend, hne]

/-- With the last octet of the long sequence the count goes back by one. -/
theorem PrScan.Scanned.off_long (h : s.Scanned seen done (c :: todo))
    (hoff : [ESC, 0x5b, 0x3f, 0x34, 0x69] <:+ seen ++ done ++ [c]) :
    s.byte c = ⟨s.printer.shift c, s.start, s.count-1, true, s.writes⟩ := by
  obtain ⟨-, -, h2⟩ := h.since.shift c
  obtain ⟨hend, hesc⟩ := h2.mpr hoff
  change [ESC, 0x5b, 0x3f, 0x34] ++ [0x69] <:+ _ at hoff
  obtain ⟨rfl, -⟩ := concat_suffix_concat.mp hoff
  have hne : ENDOFPRT2 ≠ ENDOFPRT := by decide
  have hcount : s.count-1-1+1 = s.count-1 := by omega
  simp [PrScan.byte, hend, hesc, hne, hcount]

/-- The writes of a chunk that ends the long sequence, when more than its last octet is
in the chunk: they leave out the octet before the last. -/
theorem PrScan.Scanned.flush_long (h : s.Scanned seen (done ++ [0x34]) todo) :
    0 ≤ s.count-1 ∧ (s.writes ++ [(s.start, s.count-1)]).flatMap
      (written (done ++ [0x34] ++ todo)) = done.filter (· ≠ 0) := by
  have hflush := h.flush
  have hstart := h.start
  have hcount := h.count
  have htotal := h.total
  have hpos : s.count ≠ 0 := by
    intro hzero
    rcases h.nothing hzero with hnil | hnul
    · exact absurd hnil (by simp)
    · have hlast := (concat_suffix_concat (u := []) (x := 0)).mp hnul
      exact absurd hlast.1 (by decide)
  refine ⟨by omega, ?_⟩
  -- both sides of the full flush lose their last octet
  rw [List.flatMap_append, List.flatMap_singleton, written_done hstart (by omega) (by omega)]
    at hflush ⊢
  have hdrop : (done ++ [0x34]).drop s.start.toNat ≠ [] := by
    intro hnil
    rw [List.drop_eq_nil_iff] at hnil
    omega
  have hall : ((done ++ [0x34]).drop s.start.toNat).take s.count.toNat =
      (done ++ [0x34]).drop s.start.toNat := by
    apply List.take_of_length_le
    rw [List.length_drop]
    omega
  have hless : ((done ++ [0x34]).drop s.start.toNat).take (s.count-1).toNat =
      ((done ++ [0x34]).drop s.start.toNat).dropLast := by
    rw [List.dropLast_eq_take, List.length_drop]
    congr 1
    omega
  rw [hall] at hflush
  rw [hless, ← List.dropLast_append_of_ne_nil hdrop, hflush]
  simp

/-- Octets that turn nothing off. -/
theorem PrScan.Scanned.loop (h : s.Scanned seen done (mid ++ todo))
    (hon : StillOn (seen ++ done ++ mid)) :
    ∃ s' : PrScan, s'.Scanned seen (done ++ mid) todo ∧
      s.loop (mid ++ todo) = s'.loop todo := by
  induction mid generalizing s done with
  | nil => exact ⟨s, by simpa using h, rfl⟩
  | cons c mid ih =>
    have hc : ¬TurnsOff (seen ++ done ++ [c]) := by
      apply hon
      exact ⟨mid, by simp⟩
    have hstep := PrScan.Scanned.byte h hc
    have hon' : StillOn (seen ++ (done ++ [c]) ++ mid) := by simpa using hon
    obtain ⟨s', hs', hloop⟩ := ih hstep hon'
    refine ⟨s', by simpa using hs', ?_⟩
    rw [← hloop, List.cons_append, PrScan.loop, hstep.rdy]
    rfl

end Scan

section Chunks
variable {p : Printer} {seen chunk mid rest : List UInt8} {c : UInt8}

theorem VSprOFF_off (p : Printer) : p.VSprOFF.prredirect = false := by
  simp only [Printer.VSprOFF]
  split_ifs with h
  · simpa using h
  · rfl
  · rfl

/-- The loop over a chunk starts with nothing written. -/
theorem scanned_start (h : p.Since seen) (hon : p.prredirect = true) (chunk : List UInt8) :
    PrScan.Scanned ⟨p, 0, 0, false, []⟩ seen [] chunk where
  since := by simpa using h
  on := hon
  rdy := rfl
  start := Int.le_refl 0
  count := Int.le_refl 0
  total := rfl
  pending := by simp
  nothing := fun _ => Or.inl rfl
  handed := rfl
  counts := by simp

/-- A chunk that turns nothing off is written without its NULs. -/
theorem VSpr_still (h : p.Since seen) (hon : p.prredirect = true)
    (hstill : StillOn (seen ++ chunk)) :
    (VSpr p chunk).printer.Since (seen ++ chunk) ∧ (VSpr p chunk).printer.prredirect = true ∧
      (VSpr p chunk).writes.flatMap (written chunk) = chunk.filter (· ≠ 0) ∧
      ∀ w ∈ (VSpr p chunk).writes, 0 ≤ w.2 ∧ w.2 ≤ chunk.length := by
  have hstart := scanned_start h hon (chunk ++ [])
  obtain ⟨s, hs, hloop⟩ := hstart.loop (by simpa using hstill)
  rw [List.nil_append] at hs
  rw [List.append_nil] at hloop
  have hwrites := hs.flush
  have hcounts := hs.counts
  have htotal := hs.total
  have hzero := hs.start
  have hcount := hs.count
  rw [List.append_nil] at hwrites hcounts
  simp only [VSpr, hloop, PrScan.loop, hs.rdy, Bool.false_eq_true, if_false]
  refine ⟨hs.since, hs.on, hwrites, ?_⟩
  intro w hw
  rcases List.mem_append.mp hw with hw | hw
  · exact hcounts w hw
  · rw [List.mem_singleton.mp hw]
    simp only
    omega

/-- What the end of a print makes of a chunk, given the last step of the loop. -/
theorem VSpr_ends (h : p.Since seen) (hon : p.prredirect = true)
    (hstill : StillOn (seen ++ mid)) :
    ∃ s : PrScan, s.Scanned seen mid (c :: rest) ∧ ((s.byte c).rdy = true →
      (VSpr p (mid ++ c :: rest)).printer.prredirect = false ∧
      (VSpr p (mid ++ c :: rest)).rest = rest ∧
      (VSpr p (mid ++ c :: rest)).writes =
        (s.byte c).writes ++ [((s.byte c).start, (s.byte c).count)]) := by
  have hstart := scanned_start h hon (mid ++ c :: rest)
  obtain ⟨s, hs, hloop⟩ := hstart.loop (by simpa using hstill)
  rw [List.nil_append] at hs
  refine ⟨s, hs, ?_⟩
  intro hrdy
  simp only [VSpr, hloop, PrScan.loop, hrdy, if_true]
  exact ⟨VSprOFF_off _, trivial, trivial⟩

/-- The print ends with the short sequence. -/
theorem VSpr_short (h : p.Since seen) (hon : p.prredirect = true)
    (hstill : StillOn (seen ++ mid)) (hoff : [ESC, 0x5b, 0x34, 0x69] <:+ seen ++ mid ++ [c]) :
    (VSpr p (mid ++ c :: rest)).printer.prredirect = false ∧
      (VSpr p (mid ++ c :: rest)).rest = rest ∧
      (VSpr p (mid ++ c :: rest)).writes.flatMap (written (mid ++ c :: rest)) =
        mid.filter (· ≠ 0) ∧
      ∀ w ∈ (VSpr p (mid ++ c :: rest)).writes, 0 ≤ w.2 ∧ w.2 ≤ (mid ++ c :: rest).length := by
  obtain ⟨s, hs, hends⟩ := @VSpr_ends p seen mid rest c h hon hstill
  have hbyte := hs.off_short hoff
  rw [hbyte] at hends
  obtain ⟨h1, h2, h3⟩ := hends rfl
  rw [h3]
  refine ⟨h1, h2, hs.flush, ?_⟩
  intro w hw
  rcases List.mem_append.mp hw with hw | hw
  · exact hs.counts w hw
  · rw [List.mem_singleton.mp hw]
    have := hs.total
    have := hs.start
    have := hs.count
    simp only [List.length_append]
    omega

/-- The print ends with the long sequence, not only its last octet in this chunk. -/
theorem VSpr_long (h : p.Since seen) (hon : p.prredirect = true)
    (hstill : StillOn (seen ++ (mid ++ [0x34])))
    (hoff : [ESC, 0x5b, 0x3f, 0x34, 0x69] <:+ seen ++ (mid ++ [0x34]) ++ [c]) :
    (VSpr p (mid ++ [0x34] ++ c :: rest)).printer.prredirect = false ∧
      (VSpr p (mid ++ [0x34] ++ c :: rest)).rest = rest ∧
      (VSpr p (mid ++ [0x34] ++ c :: rest)).writes.flatMap
        (written (mid ++ [0x34] ++ c :: rest)) = mid.filter (· ≠ 0) ∧
      ∀ w ∈ (VSpr p (mid ++ [0x34] ++ c :: rest)).writes,
        0 ≤ w.2 ∧ w.2 ≤ (mid ++ [0x34] ++ c :: rest).length := by
  obtain ⟨s, hs, hends⟩ := @VSpr_ends p seen (mid ++ [0x34]) rest c h hon hstill
  have hbyte := hs.off_long hoff
  rw [hbyte] at hends
  obtain ⟨h1, h2, h3⟩ := hends rfl
  obtain ⟨hpos, hflush⟩ := hs.flush_long
  rw [h3]
  refine ⟨h1, h2, hflush, ?_⟩
  intro w hw
  rcases List.mem_append.mp hw with hw | hw
  · exact hs.counts w hw
  · rw [List.mem_singleton.mp hw]
    have htotal := hs.total
    have := hs.start
    simp only [List.length_append] at htotal ⊢
    omega

/-- The last octet of the long sequence in a chunk of its own makes the count negative. -/
theorem VSpr_apart (h : p.Since seen) (hon : p.prredirect = true) (hstill : StillOn seen)
    (hoff : [ESC, 0x5b, 0x3f, 0x34, 0x69] <:+ seen ++ [c]) :
    ∃ start, (start, -1) ∈ (VSpr p (c :: rest)).writes := by
  obtain ⟨s, hs, hends⟩ := @VSpr_ends p seen [] rest c h hon (by simpa using hstill)
  have hbyte := hs.off_long (by simpa using hoff)
  rw [hbyte] at hends
  have hcount : s.count = 0 := by
    have htotal := hs.total
    have := hs.start
    have := hs.count
    rw [List.length_nil] at htotal
    omega
  obtain ⟨-, -, hw⟩ := hends rfl
  refine ⟨s.start, ?_⟩
  rw [List.nil_append] at hw
  rw [hw, hcount]
  simp

theorem StillOn.earlier {l k : List UInt8} (h : StillOn l) (hk : k <+: l) : StillOn k :=
  fun k' hk' => h k' (hk'.trans hk)

/-- The chunks before the end of the print. -/
theorem printChunks_append {before : List (List UInt8)} (h : p.Since seen)
    (hon : p.prredirect = true) (hstill : StillOn (seen ++ before.flatten)) :
    ∃ p' : Printer, p'.Since (seen ++ before.flatten) ∧ p'.prredirect = true ∧
      ∃ counts : List (Int × ℕ), (∀ w ∈ counts, 0 ≤ w.1 ∧ w.1 ≤ w.2) ∧
        ∀ after, printChunks p (before ++ after) =
          { printChunks p' after with
            handed := before.flatten.filter (· ≠ 0) ++ (printChunks p' after).handed
            counts := counts ++ (printChunks p' after).counts } := by
  induction before generalizing p seen with
  | nil => exact ⟨p, by simpa using h, hon, [], by simp, fun after => by simp⟩
  | cons chunk before ih =>
    rw [List.flatten_cons] at hstill ⊢
    have hchunk : StillOn (seen ++ chunk) := hstill.earlier ⟨before.flatten, by simp⟩
    obtain ⟨hsince, hon', hhanded, hcounts⟩ := VSpr_still h hon hchunk
    rw [← List.append_assoc] at hstill
    obtain ⟨p', hp', hpon, counts, hfine, hrun⟩ := ih hsince hon' hstill
    refine ⟨p', by simpa using hp', hpon,
      (VSpr p chunk).writes.map (fun w => (w.2, chunk.length)) ++ counts, ?_, ?_⟩
    · intro w hw
      rcases List.mem_append.mp hw with hw | hw
      · obtain ⟨v, hv, rfl⟩ := List.mem_map.mp hw
        exact hcounts v hv
      · exact hfine w hw
    · intro after
      rw [List.cons_append, printChunks, hon', if_pos rfl, hrun after, hhanded]
      simp

/-- The chunk that an octet of the stream is in. -/
theorem flatten_eq_append_cons {chunks : List (List UInt8)}
    (h : chunks.flatten = mid ++ c :: rest) :
    ∃ before mid' rest' after, chunks = before ++ (mid' ++ c :: rest') :: after ∧
      mid = before.flatten ++ mid' ∧ rest = rest' ++ after.flatten := by
  induction chunks generalizing mid with
  | nil => simp at h
  | cons chunk chunks ih =>
    rw [List.flatten_cons] at h
    rcases List.append_eq_append_iff.mp h with ⟨u, rfl, hu⟩ | ⟨u, rfl, hu⟩
    · obtain ⟨before, mid', rest', after, rfl, rfl, hrest⟩ := ih hu
      exact ⟨chunk :: before, mid', rest', after, rfl, by simp, hrest⟩
    · cases u with
      | nil =>
        obtain ⟨before, mid', rest', after, rfl, hmid, hrest⟩ := @ih [] (by simpa using hu.symm)
        exact ⟨mid :: before, mid', rest', after, by simp, by simp [← hmid], hrest⟩
      | cons c' u =>
        obtain ⟨rfl, rfl⟩ := List.cons.inj hu
        exact ⟨[], mid, u, chunks, rfl, rfl, rfl⟩

end Chunks

section Stream
variable {p : Printer}

/-- The loop leaves the redirection on, and stops with the last octet of a sequence in
the register. -/
theorem loop_register (s : PrScan) (hs : s.rdy = false) (chunk : List UInt8) :
    (s.loop chunk).1.printer.prredirect = s.printer.prredirect ∧
      ((s.loop chunk).1.rdy = true → (s.loop chunk).1.printer.prbuf.toUInt8 = 0x69) := by
  induction chunk generalizing s with
  | nil => exact ⟨rfl, fun hrdy => absurd hrdy (by simp [PrScan.loop, hs])⟩
  | cons c chunk ih =>
    have hprinter : (s.byte c).printer = s.printer.shift c := by
      simp only [PrScan.byte]
      split_ifs <;> rfl
    have hkeep : (s.byte c).printer.prredirect = s.printer.prredirect := by rw [hprinter]; rfl
    rw [PrScan.loop]
    split_ifs with hrdy
    · refine ⟨hkeep, ?_⟩
      intro _
      rw [hprinter]
      have htests : (s.printer.shift c).prbuf = ENDOFPRT ∨
          ((s.printer.shift c).prbuf = ENDOFPRT2 ∧ (s.printer.shift c).prbuf2 = ESC) := by
        simp only [PrScan.byte] at hrdy
        split_ifs at hrdy <;> simpa using hrdy
      rcases htests with hbuf | ⟨hbuf, -⟩
      · rw [hbuf]; decide
      · rw [hbuf]; decide
    · have hnext := ih (s.byte c) (by simpa using hrdy)
      rw [hkeep] at hnext
      exact hnext

theorem VSprOFF_prbuf (p : Printer) : p.VSprOFF.prbuf = p.prbuf := by
  simp only [Printer.VSprOFF]
  split_ifs <;> rfl

/-- A queue that goes on has a finished print behind it, or a reset. -/
theorem Printer.Reachable.queue (h : p.Reachable) (hoff : p.prredirect = false)
    (hq : p.qprint = true) (hp : p.printqueued = true) : p.prbuf.toUInt8 ∈ [0, 0x69] := by
  cases h with
  | new => cases hq
  | @on p h opens =>
    simp only [Printer.VSprON] at hoff hq hp ⊢
    split_ifs at hoff hq hp ⊢ <;> simp_all
  | @chunk p h hon chunk =>
    obtain ⟨hkeep, hend⟩ := loop_register ⟨p, 0, 0, false, []⟩ rfl chunk
    simp only [VSpr] at hoff ⊢
    split_ifs at hoff ⊢ with hrdy
    · rw [VSprOFF_prbuf]
      simp [hend hrdy]
    · exact absurd (hkeep.symm.trans hoff) (by simp [hon])
  | reset h => exact List.mem_cons_self
  | mode h printMode => cases hp

/-- The printer when it is turned on holds no octet that more of a sequence could
follow. -/
theorem since_nil (h : p.prbuf.toUInt8 ∈ [0, 0x69]) : p.Since [] := by
  refine ⟨[(p.prbuf >>> 24).toUInt8, (p.prbuf >>> 16).toUInt8, (p.prbuf >>> 8).toUInt8],
    p.prbuf.toUInt8, [], (p.prbuf >>> 24).toUInt8, (p.prbuf >>> 16).toUInt8,
    (p.prbuf >>> 8).toUInt8, p.prbuf.toUInt8, ?_, rfl, ?_⟩
  · rcases List.mem_pair.mp h with hlast | hlast <;> rw [hlast] <;> decide
  · have := p.prbuf.toNat_lt
    simp only [octets4, UInt32.toNat_toUInt8, UInt32.toNat_shiftRight, Nat.shiftRight_eq_div_pow]
    simp
    omega

theorem Printer.Reachable.on_since (h : p.Reachable) (hoff : p.prredirect = false) :
    (p.VSprON true).prredirect = true ∧ (p.VSprON true).Since [] := by
  have hbuf : (p.VSprON true).prredirect = true ∧ ((p.VSprON true).prbuf = 0 ∨
      ((p.qprint = true ∧ p.printqueued = true) ∧ (p.VSprON true).prbuf = p.prbuf)) := by
    simp only [Printer.VSprON]
    split_ifs <;> simp_all
  obtain ⟨hon, hzero | ⟨⟨hq, hp⟩, hsame⟩⟩ := hbuf
  · refine ⟨hon, since_nil ?_⟩
    rw [hzero]
    exact List.mem_cons_self
  · refine ⟨hon, since_nil ?_⟩
    rw [hsame]
    exact h.queue hoff hq hp

theorem writePieces_range (fuel : ℕ) {len : Int} (hlen : 0 ≤ len) :
    ∀ k ∈ writePieces fuel len, 0 ≤ k ∧ k ≤ len := by
  induction fuel generalizing len with
  | zero => simp [writePieces]
  | succ fuel ih =>
    intro k hk
    rw [writePieces] at hk
    split_ifs at hk with hzero hlong
    · cases hk
    · rcases List.mem_cons.mp hk with rfl | hk
      · omega
      · have := ih (by omega) k hk
        omega
    · rcases List.mem_cons.mp hk with rfl | hk
      · omega
      · have := ih (by omega) k hk
        omega

theorem VStranslatewrite_range (window : Bool) {len : Int} (hlen : 0 ≤ len) :
    ∀ k ∈ VStranslatewrite window len, 0 ≤ k ∧ k ≤ len := by
  rw [VStranslatewrite]
  split_ifs
  · exact writePieces_range _ hlen
  · intro k hk
    rw [List.mem_singleton.mp hk]
    omega

/-- A sequence that turns the printer off ends with `i`. -/
theorem printerOff_cases {t : List UInt8} (ht : t ∈ printerOff) :
    (t = [ESC, 0x5b, 0x34] ++ [0x69] ∧ t.dropLast = [ESC, 0x5b, 0x34]) ∨
      (t = [ESC, 0x5b, 0x3f, 0x34] ++ [0x69] ∧ t.dropLast = [ESC, 0x5b, 0x3f, 0x34]) := by
  simp only [printerOff, List.mem_cons, List.not_mem_nil, or_false] at ht
  rcases ht with rfl | rfl
  · exact Or.inl ⟨rfl, rfl⟩
  · exact Or.inr ⟨rfl, rfl⟩

/-- The run up to the chunk in which the print ends, and that chunk. -/
theorem printChunks_last {before after : List (List UInt8)} {chunk handed left : List UInt8}
    (h : p.Since []) (hon : p.prredirect = true) (hstill : StillOn before.flatten)
    (hend : ∀ p' : Printer, p'.Since before.flatten → p'.prredirect = true →
      (VSpr p' chunk).printer.prredirect = false ∧ (VSpr p' chunk).rest = left ∧
        (VSpr p' chunk).writes.flatMap (written chunk) = handed ∧
        ∀ w ∈ (VSpr p' chunk).writes, 0 ≤ w.2 ∧ w.2 ≤ chunk.length) :
    ((printChunks p (before ++ chunk :: after)).printer.prredirect = false ∧
      (printChunks p (before ++ chunk :: after)).rest = left ++ after.flatten ∧
      (printChunks p (before ++ chunk :: after)).handed =
        before.flatten.filter (· ≠ 0) ++ handed) ∧
      ∀ w ∈ (printChunks p (before ++ chunk :: after)).counts, 0 ≤ w.1 ∧ w.1 ≤ w.2 := by
  obtain ⟨p', hp', hpon, counts, hfine, hrun⟩ := printChunks_append h hon hstill
  obtain ⟨hoff, hrest, hhanded, hcounts⟩ := hend p' hp' hpon
  rw [hrun]
  simp only [printChunks, hoff, Bool.false_eq_true, if_false, hrest, hhanded, true_and]
  intro w hw
  rcases List.mem_append.mp hw with hw | hw
  · exact hfine w hw
  · obtain ⟨v, hv, rfl⟩ := List.mem_map.mp hw
    exact hcounts v hv

/-- The print ends as it should when its last octet is not apart. -/
theorem printChunks_ends {chunks : List (List UInt8)} {pre t rest : List UInt8}
    (h : p.Since []) (hon : p.prredirect = true) (hapart : ¬LastOctetApart chunks)
    (ht : t ∈ printerOff) (hflat : chunks.flatten = pre ++ t ++ rest)
    (hstill : StillOn (pre ++ t.dropLast)) :
    ((printChunks p chunks).printer.prredirect = false ∧ (printChunks p chunks).rest = rest ∧
      (printChunks p chunks).handed = pre.filter (· ≠ 0) ++ t.take 3) ∧
      ∀ w ∈ (printChunks p chunks).counts, 0 ≤ w.1 ∧ w.1 ≤ w.2 := by
  rcases printerOff_cases ht with ⟨rfl, hu⟩ | ⟨rfl, hu⟩
  · rw [hu] at hstill
    have hsplit : chunks.flatten = (pre ++ [ESC, 0x5b, 0x34]) ++ 0x69 :: rest := by
      rw [hflat]; simp
    obtain ⟨before, mid, left, after, rfl, hmid, rfl⟩ := flatten_eq_append_cons hsplit
    rw [hmid] at hstill
    have hoff : [ESC, 0x5b, 0x34, 0x69] <:+ before.flatten ++ mid ++ [0x69] := by
      rw [← hmid]
      exact ⟨pre, by simp⟩
    obtain ⟨⟨h1, h2, h3⟩, h4⟩ := @printChunks_last p before after _ (mid.filter (· ≠ 0)) left h hon
      (hstill.earlier (List.prefix_append _ _))
      (fun p' hp' hpon => VSpr_short hp' hpon hstill hoff)
    refine ⟨⟨h1, h2, ?_⟩, h4⟩
    rw [h3, ← List.filter_append, ← hmid, List.filter_append]
    simp
  · rw [hu] at hstill
    have hsplit : chunks.flatten = (pre ++ [ESC, 0x5b, 0x3f, 0x34]) ++ 0x69 :: rest := by
      rw [hflat]; simp
    obtain ⟨before, mid, left, after, rfl, hmid, rfl⟩ := flatten_eq_append_cons hsplit
    rw [hmid] at hstill
    rcases List.eq_nil_or_concat mid with rfl | ⟨m, x, rfl⟩
    · -- the last octet starts its chunk
      exfalso
      rw [List.append_nil] at hmid hstill
      exact hapart ⟨before, left, after, rfl, hstill, pre, hmid⟩
    · rw [List.concat_eq_append] at *
      have hlast : pre ++ [ESC, 0x5b, 0x3f] = before.flatten ++ m ∧ x = 0x34 := by
        have hcut : (pre ++ [ESC, 0x5b, 0x3f]) ++ [0x34] = (before.flatten ++ m) ++ [x] := by
          simpa using hmid
        obtain ⟨hl, hx⟩ := List.append_inj' hcut rfl
        exact ⟨hl, by simpa using hx.symm⟩
      obtain ⟨hm, rfl⟩ := hlast
      have hoff : [ESC, 0x5b, 0x3f, 0x34, 0x69] <:+ before.flatten ++ (m ++ [0x34]) ++ [0x69] := by
        rw [← hmid]
        exact ⟨pre, by simp⟩
      obtain ⟨⟨h1, h2, h3⟩, h4⟩ := @printChunks_last p before after _ (m.filter (· ≠ 0)) left h hon
        (hstill.earlier (List.prefix_append _ _))
        (fun p' hp' hpon => VSpr_long hp' hpon hstill hoff)
      refine ⟨⟨h1, h2, ?_⟩, h4⟩
      rw [h3, ← List.filter_append, ← hm, List.filter_append]
      simp

/-- A stream without the end of the print goes to the file. -/
theorem printChunks_still {chunks : List (List UInt8)} (h : p.Since [])
    (hon : p.prredirect = true) (hstill : StillOn chunks.flatten) :
    ((printChunks p chunks).printer.prredirect = true ∧ (printChunks p chunks).rest = [] ∧
      (printChunks p chunks).handed = chunks.flatten.filter (· ≠ 0)) ∧
      ∀ w ∈ (printChunks p chunks).counts, 0 ≤ w.1 ∧ w.1 ≤ w.2 := by
  obtain ⟨p', hp', hpon, counts, hfine, hrun⟩ := printChunks_append h hon hstill
  have hall := hrun []
  rw [List.append_nil] at hall
  rw [hall]
  refine ⟨⟨hpon, rfl, ?_⟩, ?_⟩
  · simp [printChunks]
  · simpa [printChunks] using hfine

/-- A stream that turns the printer off does so for a first time. -/
theorem exists_first_end {l : List UInt8} (h : ¬StillOn l) :
    ∃ pre t rest, t ∈ printerOff ∧ l = pre ++ t ++ rest ∧ StillOn (pre ++ t.dropLast) := by
  induction l using List.reverseRecOn with
  | nil =>
    exfalso
    apply h
    rintro k hk ⟨t, ht, htk⟩
    rw [List.prefix_nil.mp hk, List.suffix_nil] at htk
    simp [htk, printerOff] at ht
  | append_singleton l c ih =>
    by_cases hl : StillOn l
    · -- the last octet is the first to end a sequence
      have hend : TurnsOff (l ++ [c]) := by
        by_contra hno
        apply h
        intro k hk
        rcases List.prefix_concat_iff.mp hk with rfl | hk
        · exact hno
        · exact hl k hk
      obtain ⟨t, ht, htl⟩ := hend
      rcases printerOff_cases ht with ⟨rfl, hu⟩ | ⟨rfl, hu⟩
      · obtain ⟨rfl, v, rfl⟩ := concat_suffix_concat.mp htl
        exact ⟨v, _, [], ht, by simp, by rw [hu]; exact hl⟩
      · obtain ⟨rfl, v, rfl⟩ := concat_suffix_concat.mp htl
        exact ⟨v, _, [], ht, by simp, by rw [hu]; exact hl⟩
    · obtain ⟨pre, t, rest, ht, rfl, hstill⟩ := ih hl
      exact ⟨pre, t, rest ++ [c], ht, by simp, hstill⟩

/-- The writes of the first chunk are among those of the stream. -/
theorem printChunks_first_counts {chunk : List UInt8} {w : Int × Int}
    (chunks : List (List UInt8)) (hw : w ∈ (VSpr p chunk).writes) :
    (w.2, chunk.length) ∈ (printChunks p (chunk :: chunks)).counts := by
  rw [printChunks]
  generalize VSpr p chunk = r at hw ⊢
  have hthere := List.mem_map_of_mem (f := fun w => (w.2, chunk.length)) hw
  by_cases hon : r.printer.prredirect = true
  · rw [if_pos hon]
    exact List.mem_append_left _ hthere
  · rw [if_neg hon]
    exact hthere

/-- The printer redirection works for a stream in chunks exactly when the long sequence
that ends it does not have its last octet at the start of a chunk. -/
theorem printer_redirection_iff (window : Bool) (p : Printer) (hp : p.Reachable)
    (hoff : p.prredirect = false) (chunks : List (List UInt8)) :
    Redirects window (p.VSprON true) chunks ↔ ¬LastOctetApart chunks := by
  obtain ⟨hon, hsince⟩ := hp.on_since hoff
  generalize p.VSprON true = p at *
  constructor
  · rintro hred ⟨before, chunk, after, rfl, hstill, hlong⟩
    obtain ⟨p', hp', hpon, counts, -, hrun⟩ := printChunks_append hsince hon hstill
    have hoctet : [ESC, 0x5b, 0x3f, 0x34, 0x69] <:+ [] ++ before.flatten ++ [0x69] :=
      (@concat_suffix_concat UInt8 [ESC, 0x5b, 0x3f, 0x34] _ 0x69 0x69).mpr ⟨rfl, hlong⟩
    obtain ⟨start, hw⟩ := @VSpr_apart p' _ chunk 0x69 hp' hpon hstill hoctet
    have hmem : ((-1, (0x69 :: chunk).length) : Int × ℕ) ∈
        (printChunks p (before ++ (0x69 :: chunk) :: after)).counts := by
      rw [hrun, List.mem_append]
      exact Or.inr (printChunks_first_counts after hw)
    have hneg : (-1 : Int) ∈ VStranslatewrite window (-1) := by cases window <;> decide
    have := (hred.counts _ hmem (-1) hneg).1
    omega
  · intro hapart
    have hfine : ∀ w ∈ (printChunks p chunks).counts, 0 ≤ w.1 ∧ w.1 ≤ w.2 := by
      by_cases hstill : StillOn chunks.flatten
      · exact (printChunks_still hsince hon hstill).2
      · obtain ⟨pre, t, rest, ht, hflat, hpre⟩ := exists_first_end hstill
        exact (printChunks_ends hsince hon hapart ht hflat hpre).2
    refine ⟨?_, ?_, ?_⟩
    · intro pre t rest ht hflat hpre
      exact (printChunks_ends hsince hon hapart ht hflat hpre).1
    · intro hstill
      exact (printChunks_still hsince hon hstill).1
    · intro w hw k hk
      obtain ⟨h0, hlen⟩ := hfine w hw
      obtain ⟨hk0, hk1⟩ := VStranslatewrite_range window h0 k hk
      exact ⟨hk0, Int.le_trans hk1 hlen⟩

end Stream

/-- The printer of a new screen. -/
def newPrinter : Printer := ⟨false, false, false, 0, 0, []⟩

theorem short_sequence_in_two_chunks :
    Redirects true (newPrinter.VSprON true) [[0x41, 0, ESC], [0x5b, 0x34, 0x69, 0x42]] := by
  apply (printer_redirection_iff true newPrinter (.new false 0) rfl _).mpr
  rintro ⟨before, chunk, after, h, -⟩
  have hmem : 0x69 :: chunk ∈ [[0x41, 0, ESC], [0x5b, 0x34, 0x69, 0x42]] := by
    rw [h]
    simp
  simp at hmem

/-- The long sequence with its last octet in another chunk is handed to the file but for
that octet, and then a write of -1 octets follows. -/
theorem long_sequence_in_two_chunks :
    ¬Redirects true (newPrinter.VSprON true) [[0x41, ESC, 0x5b, 0x3f, 0x34], [0x69, 0x42]] := by
  intro hred
  have hcount : ((-1, 2) : Int × ℕ) ∈ (printChunks (newPrinter.VSprON true)
      [[0x41, ESC, 0x5b, 0x3f, 0x34], [0x69, 0x42]]).counts := by decide
  have hneg := (hred.counts _ hcount (-1) (by decide)).1
  omega

end VS
