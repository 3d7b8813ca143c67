import Mathlib

/-! The send buffer of a TCP stream. Its bytes are handed out in ranges: the free
ranges are in the table `fds`, those of a send that the driver has not finished in
the descriptor of that send, and those it has finished with in the table `exFDS`
until they are reclaimed. -/
namespace SendBuffer

/-- Size of the send buffer. -/
@[simp] abbrev TCPBUFSIZ : ℕ := 8192

/-- Slots of the tables `fds` and `exFDS`. -/
@[simp] abbrev MAX_FDS_ELEMS : ℕ := 32

/-- Slots of a send descriptor. -/
@[simp] abbrev MAX_SWDS_ELEMS : ℕ := 16

/-- A range of bytes; a slot whose pointer is 0 is empty. -/
structure WdsEntry where
  length : ℕ
  ptr : ℕ
  deriving DecidableEq, Repr

/-- An empty slot. -/
def WdsEntry.empty : WdsEntry := ⟨0, 0⟩

structure Exfds where
  inuse : Bool
  fds : WdsEntry
  deriving DecidableEq, Repr

/-- A stream, as far as sending is concerned. `mem` are the bytes at the addresses
of its send buffer, and `sends` the descriptors of the sends in flight. -/
structure StreamRec where
  sbuffer : ℕ
  mem : ℕ → UInt8
  fds : List WdsEntry
  exFDS : List Exfds
  sends : List (List WdsEntry)

/-- A new stream: the whole buffer is one free range. -/
def makestream (sbuffer : ℕ) (mem : ℕ → UInt8) : StreamRec :=
  { sbuffer := sbuffer
    mem := mem
    fds := ⟨TCPBUFSIZ, sbuffer⟩ :: List.replicate 31 WdsEntry.empty
    exFDS := List.replicate 32 ⟨false, WdsEntry.empty⟩
    sends := [] }

/-- Put ranges of the reclaim table into the free table from slot `offset` on. -/
def reclaimFrom : ℕ → List Exfds → List WdsEntry → List WdsEntry × List Exfds
  | _, [], fds => (fds, [])
  | offset, x :: xs, fds =>
    if offset < MAX_FDS_ELEMS ∧ x.inuse then
      let r := reclaimFrom (offset+1) xs (fds.set offset x.fds)
      (r.1, { x with inuse := false } :: r.2)
    else
      let r := reclaimFrom offset xs fds
      (r.1, x :: r.2)

/-- Reclaim the ranges of finished sends, behind the used slots of the free table. -/
def reclaim (p : StreamRec) : StreamRec :=
  let r := reclaimFrom (p.fds.takeWhile (fun e => e.ptr ≠ 0)).length p.exFDS p.fds
  { p with fds := r.1, exFDS := r.2 }

/-- Put ranges into the unused slots of the reclaim table; those that find no slot
are dropped. -/
def giveRanges : List Exfds → List WdsEntry → List Exfds
  | x :: xs, w :: ws =>
    if x.inuse then x :: giveRanges xs (w :: ws) else ⟨true, w⟩ :: giveRanges xs ws
  | xs, _ => xs

/-- Give the ranges of a finished send to the reclaim table. A descriptor ends at
its first empty slot, or with its last one. -/
def giveback (exFDS : List Exfds) (wds : List WdsEntry) : List Exfds :=
  giveRanges exFDS ((wds.take MAX_SWDS_ELEMS).takeWhile (fun e => e.ptr ≠ 0))

def entry (fds : List WdsEntry) (n : ℕ) : WdsEntry := fds.getD n WdsEntry.empty

/-- Join slot `m` to slot `n` when its range ends where that of slot `n` begins.
The flag falls when something was joined. -/
def joinPair (n : ℕ) (r : List WdsEntry × Bool) (m : ℕ) : List WdsEntry × Bool :=
  let em := entry r.1 m
  let en := entry r.1 n
  if em.ptr ≠ 0 ∧ em.ptr+em.length = en.ptr then
    ((r.1.set n ⟨en.length+em.length, em.ptr⟩).set m WdsEntry.empty, false)
  else r

/-- All slots against slot `n`, the last slot first. -/
def joinSlot (r : List WdsEntry × Bool) (n : ℕ) : List WdsEntry × Bool :=
  if (entry r.1 n).ptr ≠ 0 then (List.range MAX_FDS_ELEMS).reverse.foldl (joinPair n) r else r

def joinPass (fds : List WdsEntry) : List WdsEntry × Bool :=
  (List.range MAX_FDS_ELEMS).foldl joinSlot (fds, true)

/-- Join adjacent ranges until a pass finds none. -/
def joinRanges : ℕ → List WdsEntry → List WdsEntry
  | 0, fds => fds
  | fuel+1, fds =>
    if (joinPass fds).2 then (joinPass fds).1 else joinRanges fuel (joinPass fds).1

/-- The first used slot from `i` on. -/
def skipGap (fds : List WdsEntry) : ℕ → ℕ → ℕ
  | 0, i => i
  | fuel+1, i => if (entry fds i).ptr = 0 ∧ i < MAX_FDS_ELEMS then skipGap fds fuel (i+1) else i

/-- Move the used slots from `n+m` on down to `n`; also the next slot to fill. -/
def closeGaps : ℕ → ℕ → ℕ → List WdsEntry → ℕ × List WdsEntry
  | 0, n, _, fds => (n, fds)
  | fuel+1, n, m, fds =>
    if n+m < MAX_FDS_ELEMS then
      let i := skipGap fds MAX_FDS_ELEMS (n+m)
      let fds := if i < MAX_FDS_ELEMS then fds.set n (entry fds i) else fds
      closeGaps fuel (n+1) (i-n) fds
    else (n, fds)

/-- The free table joined: each turn of the loop before the last empties a slot. -/
def joined (fds : List WdsEntry) : List WdsEntry := joinRanges (MAX_FDS_ELEMS+1) fds

/-- Join adjacent ranges and close the gaps between the used slots. -/
def compressfds (fds : List WdsEntry) : List WdsEntry :=
  let r := closeGaps (MAX_FDS_ELEMS+1) 0 0 (joined fds)
  let n := r.1-1
  r.2.take n ++ List.replicate (MAX_FDS_ELEMS-n) WdsEntry.empty

/-- Take `remaining` bytes from the front of the free table: the table left, the
ranges taken, and how many bytes were not found. -/
def takeRanges : List WdsEntry → Int → List WdsEntry × List WdsEntry × Int
  | [], remaining => ([], [], remaining)
  | e :: fds, remaining =>
    if e.ptr ≠ 0 ∧ remaining > 0 then
      if (e.length : Int) > remaining then
        let k := remaining.toNat
        (⟨e.length-k, e.ptr+k⟩ :: fds, [⟨k, e.ptr⟩], 0)
      else
        let r := takeRanges fds (remaining-e.length)
        (WdsEntry.empty :: r.1, e :: r.2.1, r.2.2)
    else (e :: fds, [], remaining)

/-- Copy bytes from `buffer`, from its position `start` on, into the ranges taken.
`kencrypt` is what an encrypted session makes of the byte at a position. -/
def copyInto (kencrypt : ℕ → UInt8 → UInt8) (buffer : ℕ → UInt8) :
    ℕ → List WdsEntry → (ℕ → UInt8) → ℕ → UInt8
  | _, [], mem => mem
  | start, e :: swds, mem =>
    copyInto kencrypt buffer (start+e.length) swds fun a =>
      if e.ptr ≤ a ∧ a < e.ptr+e.length then
        kencrypt (start+(a-e.ptr)) (buffer (start+(a-e.ptr)))
      else mem a

/-- The free table that a write or a query works on. -/
def ready (p : StreamRec) : StreamRec :=
  let p := reclaim p
  { p with fds := compressfds p.fds }

/-- Queue `nsend` bytes. `ssh` says that the port belongs to an ssh window, and
`accepted` that the driver took the send call. -/
def Rnetwrite (p : StreamRec) (buffer : ℕ → UInt8) (nsend : Int) (kencrypt : ℕ → UInt8 → UInt8)
    (ssh accepted : Bool) : Int × StreamRec :=
  if nsend = 0 then (0, p)
  else if ssh then (nsend, p)
  else
    let p := ready p
    if (entry p.fds 0).ptr = 0 then (0, p)
    else
      let r := takeRanges p.fds nsend
      let p := { p with
        fds := compressfds r.1
        mem := copyInto kencrypt buffer 0 r.2.1 p.mem }
      if accepted then (nsend-r.2.2, { p with sends := p.sends ++ [r.2.1] }) else (-1, p)

/-- The driver has finished the `i`-th of the sends in flight. -/
def SendComplete (p : StreamRec) (i : ℕ) : StreamRec :=
  match p.sends[i]? with
  | none => p
  | some swds => { p with exFDS := giveback p.exFDS swds, sends := p.sends.eraseIdx i }

/-- How many bytes a write can queue. -/
def netroom (p : StreamRec) : ℕ × StreamRec :=
  let p := ready p
  (((p.fds.takeWhile (fun e => e.ptr ≠ 0)).map WdsEntry.length).sum, p)

end SendBuffer
