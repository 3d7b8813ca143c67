import MacSSH.Shorts
import Mathlib.Data.List.GetD
import Mathlib.Tactic.Common

/-! Text that is pasted into a session. It is sent in pieces, one for each call, as the network
takes them; what is typed in between waits in the keyboard buffer. -/
namespace Paste

/-- What is given to the network: bytes of the text, bytes of keys, or the code of a key that
the screen sends. -/
inductive Sent where
  | text (b : UInt8)
  | key (b : UInt8)
  | vskey (code : UInt8)
deriving DecidableEq

/-- A window, as far as pasting is concerned. `outptr` counts from the start of the text, and
`file` is what is still to be read of a file that is sent. -/
structure WindRec where
  pastemethod : Bool
  pastesize : Int
  echo : Bool
  outhand : Option (List UInt8)
  outptr : Int
  outlen : Int
  incount : Int
  outcount : Int
  inProgress : Bool
  isUploading : Bool
  file : List UInt8
  kbbuf : List UInt8
  sent : List Sent

/-- What the network answers to a write: an error, or as many bytes as it has room for. -/
structure Reply where
  error : Option ℕ
  room : ℕ

def Reply.netwrite (r : Reply) (nsend : Int) : Int :=
  match r.error with
  | some e => -(e+1)
  | none => min r.room nsend.toNat

/-- What a call of `pasteText` finds: the answers of the network, and the byte behind the keys
in the keyboard buffer. -/
structure PasteCall where
  netpush : Int
  netqlen : Int
  reply : Reply
  behind : UInt8

/-- Send the keyboard buffer. -/
def kbflush (tw : WindRec) : WindRec :=
  { tw with sent := tw.sent ++ tw.kbbuf.map .key, kbbuf := [] }

/-- Send what was typed during the paste; also the keyboard buffer that is left, in which the
echo has changed control characters. -/
def unload (echo : Bool) (behind : UInt8) : List UInt8 → List Sent × List UInt8
  | [] => ([], [])
  | [b] =>
    if b = 0 then ([.vskey behind], [b])
    else if behind ≠ 0x15 then
      (if b = 13 then [.key 13, .key 10] else [.key b],
        [if b ≠ 13 ∧ echo ∧ ¬ (31 < b ∧ b < 127) then b+64 else b])
    else ([], [b])
  | b :: c :: rest =>
    if b = 0 then
      let r := unload echo behind rest
      (.vskey c :: r.1, b :: c :: r.2)
    else if c ≠ 0x15 then
      -- a return ends the loop
      if b = 13 then ([.key 13, .key 10], b :: c :: rest)
      else
        let r := unload echo behind (c :: rest)
        (.key b :: r.1, (if echo ∧ ¬ (31 < b ∧ b < 127) then b+64 else b) :: r.2)
    else
      -- one keystroke is cancelled with another
      let r := unload echo behind rest
      (r.1, b :: c :: r.2)

section Text
variable (stray : Int → UInt8) (htrbuf : List UInt8 → Option (List UInt8))

/-- The byte at a place of the text; `stray` is the memory around it. -/
def WindRec.byteAt (tw : WindRec) (i : Int) : UInt8 :=
  if 0 ≤ i then (tw.outhand.getD []).getD i.toNat (stray i) else stray i

/-- How many bytes a call tries to send. -/
def asked (tw : WindRec) : Int :=
  if tw.pastemethod = false ∧ tw.outlen < 32768 then tw.outlen
  else if tw.pastemethod = true ∧ tw.outlen > tw.pastesize then tw.pastesize
  else if tw.outlen > 32767 then 32767
  else tw.outlen

/-- The next piece of a file that is sent, and whether the paste goes on with it. -/
def nextPiece (tw : WindRec) : Bool × WindRec :=
  let piece := tw.file.take 16384
  if piece = [] then (false, tw)
  else
    match htrbuf piece with
    | some (b :: text) =>
      (true, { tw with
        file := tw.file.drop 16384
        outhand := some (b :: text)
        outptr := 0
        outlen := (b :: text).length
        inProgress := true
        isUploading := piece.length = 16384
        incount := 0
        outcount := 0 })
    | _ => (false, { tw with file := tw.file.drop 16384, outhand := none, outlen := 0 })

/-- Release the text and send what was typed. -/
def release (behind : UInt8) (tw : WindRec) : WindRec :=
  let r := unload tw.echo behind tw.kbbuf
  { tw with
    inProgress := false
    outptr := 0
    outhand := none
    kbbuf := r.2
    sent := tw.sent ++ r.1 }

/-- A call that gets to write. -/
def written (tw : WindRec) (c : PasteCall) : WindRec :=
  let amount := c.reply.netwrite (asked tw)
  { tw with
    sent := tw.sent ++
      (List.range amount.toNat).map (fun i : ℕ => .text (tw.byteAt stray (tw.outptr+i)))
    outlen := tw.outlen-amount
    outptr := tw.outptr+amount }

/-- Send the next piece of the text. The result says whether the call asks for another one. -/
def pasteText (tw : WindRec) (c : PasteCall) : Bool × WindRec :=
  if tw.outlen = 0 then (false, tw)
  else if c.netpush ≠ 0 then (true, tw)
  else if tw.incount ≠ 0 then (true, { tw with incount := 0, outcount := 0 })
  else if tw.outcount < 2 then (true, { tw with outcount := tw.outcount+1 })
  else if c.netqlen > 0 then (true, tw)
  else
    let tw := written stray tw c
    let r := if tw.isUploading ∧ tw.outlen ≤ 0 then nextPiece htrbuf tw else (false, tw)
    if r.1 then r
    else if r.2.outlen ≤ 0 then (false, release c.behind r.2)
    else (true, r.2)

/-- Take a text from the scrap. -/
def paste (tw : WindRec) (scrap : List UInt8) : WindRec :=
  if tw.inProgress then tw
  else
    let tw := kbflush tw
    if scrap = [] then { tw with outhand := none, outlen := 0 }
    else { tw with
      outhand := some scrap
      outptr := 0
      outlen := scrap.length
      inProgress := true
      isUploading := false
      incount := 0
      outcount := 0 }

/-- The window at the start of a paste, with nothing of it sent yet. -/
def begun (tw : WindRec) (scrap : List UInt8) : WindRec := { paste tw scrap with sent := [] }

/-- What happens to a window during a paste. -/
inductive PasteEvent where
  | call (c : PasteCall)
  | received (cnt : ℕ)

def PasteEvent.apply (tw : WindRec) : PasteEvent → WindRec
  | call c => (pasteText stray htrbuf tw c).2
  | received cnt => { tw with incount := tw.incount+cnt }

/-- Whether a call gets to write. -/
def Writes (tw : WindRec) (c : PasteCall) : Prop :=
  tw.outlen ≠ 0 ∧ c.netpush = 0 ∧ tw.incount = 0 ∧ 2 ≤ tw.outcount ∧ c.netqlen ≤ 0

/-- The network does not answer a write with an error. -/
def PasteEvent.Accepted (tw : WindRec) : PasteEvent → Prop
  | call c => Writes tw c → c.reply.error = none
  | received _ => True

/-- The bytes of the text in what was sent. -/
def textOf (sent : List Sent) : List UInt8 :=
  sent.filterMap fun
    | .text b => some b
    | _ => none

/-- The text is sent from its start on, its rest is where it ends, and it is released when all
of it was sent. -/
structure Kept (text : List UInt8) (tw : WindRec) : Prop where
  sent : textOf tw.sent <+: text
  rest : tw.outhand ≠ none → tw.outptr+tw.outlen = text.length
  released : tw.outhand = none → textOf tw.sent = text

/-- Every window of a run keeps the text, and what is left does not grow. -/
def Keeps (text : List UInt8) : List PasteEvent → WindRec → Prop
  | [], tw => Kept text tw
  | e :: es, tw => Kept text tw ∧ (e.apply stray htrbuf tw).outlen ≤ tw.outlen ∧
    Keeps text es (e.apply stray htrbuf tw)

/-- No write of a run is answered with an error. -/
def AllAccepted : List PasteEvent → WindRec → Prop
  | [], _ => True
  | e :: es, tw => e.Accepted tw ∧ AllAccepted es (e.apply stray htrbuf tw)

end Text

section Log
variable {sent sent' : List Sent}

theorem textOf_append : textOf (sent ++ sent') = textOf sent ++ textOf sent' :=
  List.filterMap_append

theorem textOf_text (f : ℕ → UInt8) (is : List ℕ) :
    textOf (is.map fun i => .text (f i)) = is.map f := by
  induction is with
  | nil => rfl
  | cons i is ih =>
    rw [List.map_cons, List.map_cons, ← ih]
    rfl

/-- No byte of the text is sent when the keys are. -/
theorem textOf_unload (echo : Bool) (behind : UInt8) (kbbuf : List UInt8) :
    textOf (unload echo behind kbbuf).1 = [] := by
  fun_induction unload echo behind kbbuf with
  | case1 => rfl
  | case2 => rfl
  | case3 b h0 h15 =>
    dsimp only
    by_cases h13 : b = 13
    · rw [if_pos h13]
      rfl
    · rw [if_neg h13]
      rfl
  | case4 => rfl
  | case5 _ _ _ ih => exact ih
  | case6 => rfl
  | case7 _ _ _ _ _ _ _ ih => exact ih
  | case8 _ _ _ _ _ _ ih => exact ih

end Log

section Steps
variable {stray : Int → UInt8} {htrbuf : List UInt8 → Option (List UInt8)} {tw : WindRec}
  {text : List UInt8} {c : PasteCall} {e : PasteEvent}

/-- A call that does not get to write leaves the text as it is. -/
theorem pasteText_waits (h : ¬ Writes tw c) :
    ∃ incount outcount, (pasteText stray htrbuf tw c).2 =
      { tw with incount := incount, outcount := outcount } := by
  rw [pasteText]
  by_cases h1 : tw.outlen = 0
  · rw [if_pos h1]
    exact ⟨tw.incount, tw.outcount, rfl⟩
  by_cases h2 : c.netpush ≠ 0
  · rw [if_neg h1, if_pos h2]
    exact ⟨tw.incount, tw.outcount, rfl⟩
  by_cases h3 : tw.incount ≠ 0
  · rw [if_neg h1, if_neg h2, if_pos h3]
    exact ⟨0, 0, rfl⟩
  by_cases h4 : tw.outcount < 2
  · rw [if_neg h1, if_neg h2, if_neg h3, if_pos h4]
    exact ⟨tw.incount, tw.outcount+1, rfl⟩
  by_cases h5 : c.netqlen > 0
  · rw [if_neg h1, if_neg h2, if_neg h3, if_neg h4, if_pos h5]
    exact ⟨tw.incount, tw.outcount, rfl⟩
  -- none of the five tests has kept the call from writing
  exact absurd ⟨h1, not_ne_iff.mp h2, not_ne_iff.mp h3, Int.not_lt.mp h4, Int.not_lt.mp h5⟩ h

/-- A call that writes, when no file is sent. -/
theorem pasteText_writes (h : Writes tw c) (hup : tw.isUploading = false) :
    (pasteText stray htrbuf tw c).2 =
      if (written stray tw c).outlen ≤ 0 then release c.behind (written stray tw c)
      else written stray tw c := by
  obtain ⟨h1, h2, h3, h4, h5⟩ := h
  have hnone : ¬ ((written stray tw c).isUploading ∧ (written stray tw c).outlen ≤ 0) := by
    rintro ⟨hyes, -⟩
    exact absurd (hup.symm.trans hyes) Bool.false_ne_true
  rw [pasteText, if_neg h1, if_neg (not_ne_iff.mpr h2), if_neg (not_ne_iff.mpr h3),
    if_neg (by omega), if_neg (by omega)]
  dsimp only
  rw [if_neg hnone, if_neg Bool.false_ne_true]
  split_ifs
  · rfl
  · rfl

theorem asked_le : asked tw ≤ tw.outlen := by
  rw [asked]
  split_ifs with h1 h2
  · exact Int.le_refl _
  · exact Int.le_of_lt h2.2
  · omega
  · exact Int.le_refl _

/-- The text while a paste is in progress, and behind it. -/
structure Along (text : List UInt8) (tw : WindRec) : Prop where
  not_uploading : tw.outlen ≠ 0 → tw.isUploading = false
  place : (tw.outhand = some text ∧ 0 ≤ tw.outptr ∧ 0 < tw.outlen ∧
      tw.outptr+tw.outlen = text.length ∧ textOf tw.sent = text.take tw.outptr.toNat) ∨
    (tw.outhand = none ∧ tw.outlen = 0 ∧ textOf tw.sent = text)

theorem Along.kept (h : Along text tw) : Kept text tw := by
  rcases h.place with ⟨hand, -, -, hend, hsent⟩ | ⟨hand, -, hsent⟩
  · refine ⟨?_, fun _ => hend, fun hnone => ?_⟩
    · rw [hsent]
      exact List.take_prefix _ _
    · exact absurd (hand.symm.trans hnone) (Option.some_ne_none text)
  · exact ⟨hsent ▸ List.prefix_refl _, fun hsome => absurd hand hsome, fun _ => hsent⟩

/-- A write that is not answered with an error sends the next bytes of the text. -/
theorem written_along (h : Along text tw) (hrun : tw.outhand = some text)
    (hreply : c.reply.error = none) :
    0 ≤ (written stray tw c).outptr ∧ 0 ≤ (written stray tw c).outlen ∧
      (written stray tw c).outlen ≤ tw.outlen ∧
      (written stray tw c).outptr+(written stray tw c).outlen = text.length ∧
      textOf (written stray tw c).sent = text.take (written stray tw c).outptr.toNat := by
  rcases h.place with ⟨-, hptr, hlen, hend, hsent⟩ | ⟨hand, -⟩
  swap
  · exact absurd (hrun.symm.trans hand) (Option.some_ne_none text)
  have hasked := @asked_le tw
  have hamount : c.reply.netwrite (asked tw) = (min c.reply.room (asked tw).toNat : ℕ) := by
    rw [Reply.netwrite, hreply]
    dsimp only
    omega
  dsimp only [written]
  rw [hamount]
  generalize hn : min c.reply.room (asked tw).toNat = n
  have hle : (n : Int) ≤ tw.outlen := by omega
  refine ⟨by omega, by omega, by omega, by omega, ?_⟩
  have hbytes : ((List.range n).map fun i : ℕ => tw.byteAt stray (tw.outptr+i)) =
      (text.drop tw.outptr.toNat).take n := by
    apply List.ext_getElem
    · rw [List.length_map, List.length_range, List.length_take, List.length_drop]
      omega
    · intro i hi hi'
      rw [List.length_map, List.length_range] at hi
      have hplace : (tw.outptr+i).toNat = tw.outptr.toNat+i := by omega
      rw [List.getElem_map, List.getElem_range, List.getElem_take, List.getElem_drop,
        WindRec.byteAt, if_pos (by omega), hrun, hplace]
      exact List.getD_eq_getElem _ _ _
  have hnext : (tw.outptr+n).toNat = tw.outptr.toNat+n := by omega
  rw [textOf_append, Int.toNat_natCast, textOf_text fun i => tw.byteAt stray (tw.outptr+i),
    hbytes, hsent, hnext, List.take_add]

/-- One event of a run whose writes are not answered with errors. -/
theorem apply_along (h : Along text tw) (he : e.Accepted tw) :
    Along text (e.apply stray htrbuf tw) ∧ (e.apply stray htrbuf tw).outlen ≤ tw.outlen := by
  cases e with
  | received cnt => exact ⟨⟨h.not_uploading, h.place⟩, Int.le_refl _⟩
  | call c =>
    dsimp only [PasteEvent.apply]
    by_cases hwrites : Writes tw c
    swap
    · obtain ⟨incount, outcount, heq⟩ := @pasteText_waits stray htrbuf tw c hwrites
      rw [heq]
      exact ⟨⟨h.not_uploading, h.place⟩, Int.le_refl _⟩
    have hrun : tw.outhand = some text := by
      rcases h.place with hplace | hplace
      · exact hplace.1
      · exact absurd hplace.2.1 hwrites.1
    obtain ⟨hptr, hlen, hless, hend, hsent⟩ := @written_along stray tw text c h hrun (he hwrites)
    rw [pasteText_writes hwrites (h.not_uploading hwrites.1)]
    split_ifs with hdone
    · have hzero : (written stray tw c).outlen = 0 := by omega
      have hall : (written stray tw c).outptr.toNat = text.length := by omega
      rw [hall, List.take_length] at hsent
      refine ⟨⟨fun hne => absurd hzero hne, Or.inr ⟨rfl, hzero, ?_⟩⟩, hless⟩
      dsimp only [release]
      rw [textOf_append, textOf_unload, List.append_nil, hsent]
    · exact ⟨⟨fun _ => h.not_uploading hwrites.1, Or.inl ⟨hrun, hptr, by omega, hend, hsent⟩⟩,
        hless⟩

/-- An error makes what is left grow. -/
theorem apply_grows (h : Along text tw) (he : ¬ e.Accepted tw) :
    tw.outlen < (e.apply stray htrbuf tw).outlen := by
  cases e with
  | received cnt => exact absurd trivial he
  | call c =>
    obtain ⟨hwrites, herror⟩ := Classical.not_imp.mp he
    obtain ⟨err, herr⟩ := Option.ne_none_iff_exists'.mp herror
    have hmore : tw.outlen < (written stray tw c).outlen := by
      have hamount : c.reply.netwrite (asked tw) = -(err+1) := by rw [Reply.netwrite, herr]
      dsimp only [written]
      rw [hamount]
      omega
    dsimp only [PasteEvent.apply]
    rw [pasteText_writes hwrites (h.not_uploading hwrites.1)]
    split_ifs
    · exact hmore
    · exact hmore

theorem along_keeps_iff (es : List PasteEvent) (h : Along text tw) :
    Keeps stray htrbuf text es tw ↔ AllAccepted stray htrbuf es tw := by
  induction es generalizing tw with
  | nil => exact iff_of_true h.kept trivial
  | cons e es ih =>
    rw [Keeps, AllAccepted]
    by_cases he : e.Accepted tw
    · obtain ⟨halong, hless⟩ := @apply_along stray htrbuf tw text e h he
      rw [ih halong, and_iff_right h.kept, and_iff_right hless, and_iff_right he]
    · have hgrows := @apply_grows stray htrbuf tw text e h he
      apply iff_of_false
      · rintro ⟨-, hless, -⟩
        omega
      · rintro ⟨hyes, -⟩
        exact he hyes

theorem begun_along (scrap : List UInt8) (hidle : tw.inProgress = false) :
    Along scrap (begun tw scrap) := by
  rw [begun, paste, hidle, if_neg Bool.false_ne_true]
  dsimp only
  cases scrap with
  | nil => exact ⟨fun hne => absurd rfl hne, Or.inr ⟨rfl, rfl, rfl⟩⟩
  | cons b scrap =>
    rw [if_neg (List.cons_ne_nil b scrap)]
    refine ⟨fun _ => rfl, Or.inl ⟨rfl, Int.le_refl 0, ?_, Int.zero_add _, rfl⟩⟩
    exact Int.natCast_pos.mpr (Nat.succ_pos _)

/-- A paste keeps its text in every run exactly where the network answers no write with an
error. -/
theorem pasteText_run_iff (stray : Int → UInt8) (htrbuf : List UInt8 → Option (List UInt8))
    (scrap : List UInt8) (es : List PasteEvent) (hidle : tw.inProgress = false) :
    Keeps stray htrbuf scrap es (begun tw scrap) ↔
      AllAccepted stray htrbuf es (begun tw scrap) :=
  along_keeps_iff es (begun_along scrap hidle)

end Steps

/-- A window with nothing to paste. -/
def idle : WindRec :=
  { pastemethod := true, pastesize := 2, echo := false, outhand := none, outptr := 0, outlen := 0,
    incount := 0, outcount := 0, inProgress := false, isUploading := false, file := [],
    kbbuf := [], sent := [] }

/-- A call that finds the network at rest, with room for some bytes. -/
def roomFor (room : ℕ) : PasteEvent := .call ⟨0, 0, ⟨none, room⟩, 0⟩

/-- Three bytes in blocks of two, of which the network takes one at first. -/
theorem three_bytes_kept : Keeps (fun _ => 0) some [7, 8, 9]
    [roomFor 5, roomFor 5, roomFor 1, roomFor 5, roomFor 5] (begun idle [7, 8, 9]) := by
  apply (pasteText_run_iff (fun _ => 0) some [7, 8, 9] _ rfl).mpr
  exact ⟨fun _ => rfl, fun _ => rfl, fun _ => rfl, fun _ => rfl, fun _ => rfl, trivial⟩

/-- An error moves the pointer to before the start of the text. -/
theorem error_moves_back : ¬ ∀ (text : List UInt8) (es : List PasteEvent),
    Keeps (fun _ => 0) some text es (begun idle text) := by
  intro hall
  have hkeeps := hall [7] [roomFor 5, roomFor 5, .call ⟨0, 0, ⟨some 0, 0⟩, 0⟩]
  exact absurd hkeeps.2.2.2.2.2.1 (by decide)

end Paste
