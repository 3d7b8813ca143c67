import MacSSH.PasteText

/-! Keys that are typed while a text is pasted in blocks. They are queued in the keyboard
buffer, which is sent behind the text. -/
namespace Paste

/-- Bytes of the keyboard buffer. -/
def MAXKB : ℕ := 256

/-- A key: a character, as its translation, a key of the keypad, as its code for the screen,
or a character with the meta key, as it is and as its translation. -/
inductive Key where
  | plain (pbuf : List UInt8)
  | keypad (ascii : UInt8)
  | emacs (ascii : UInt8) (pbuf : List UInt8)

/-- Put bytes into the keyboard buffer, which is sent when it is full. -/
def kbwrite (tw : WindRec) : List UInt8 → WindRec
  | [] => tw
  | b :: string =>
    let tw := if tw.kbbuf.length = MAXKB then kbflush tw else tw
    kbwrite { tw with kbbuf := tw.kbbuf ++ [b] } string

/-- Keys are queued while a paste is in progress that takes more than one block. -/
def Queues (tw : WindRec) : Prop :=
  tw.inProgress = true ∧ (tw.pastemethod = true ∨ 32767 < tw.outlen)

/-- A key that is queued. -/
def HandleKeyDown (tw : WindRec) : Key → WindRec
  | .plain pbuf => kbwrite tw pbuf
  | .keypad ascii => kbwrite tw [0, ascii]
  | .emacs ascii pbuf =>
    -- the escape is sent at once, and the character is queued like one without it
    let tw := kbflush (kbwrite tw [27, ascii])
    kbwrite { tw with sent := tw.sent ++ [.key 27] } pbuf

/-- The bytes that a key puts into the keyboard buffer. -/
def Key.queued : Key → List UInt8
  | plain pbuf => pbuf
  | keypad ascii => [0, ascii]
  | emacs ascii pbuf => 27 :: ascii :: pbuf

/-- What is to be sent for a character: a line feed goes with a return. -/
def charSent (b : UInt8) : List Sent := if b = 13 then [.key 13, .key 10] else [.key b]

/-- What is to be sent for a key. -/
def Key.sent : Key → List Sent
  | plain pbuf => pbuf.flatMap charSent
  | keypad ascii => [.vskey ascii]
  | emacs _ pbuf => .key 27 :: pbuf.flatMap charSent

/-- The keys of a paste so far, and the window after them. The network takes what it is
given. -/
inductive KeyRun (stray : Int → UInt8) (htrbuf : List UInt8 → Option (List UInt8))
    (text : List UInt8) : List Key → WindRec → Prop
  | begun (tw : WindRec) : tw.inProgress = false → KeyRun stray htrbuf text [] (begun tw text)
  | event {keys : List Key} {tw : WindRec} (e : PasteEvent) : KeyRun stray htrbuf text keys tw →
    e.Accepted tw → KeyRun stray htrbuf text keys (e.apply stray htrbuf tw)
  | key {keys : List Key} {tw : WindRec} (k : Key) : KeyRun stray htrbuf text keys tw →
    Queues tw → KeyRun stray htrbuf text (keys ++ [k]) (HandleKeyDown tw k)

/-- The keys are sent once and in order behind the text, and the keyboard buffer is empty. -/
structure KeysSent (text : List UInt8) (keys : List Key) (tw : WindRec) : Prop where
  order : tw.sent = text.map .text ++ keys.flatMap Key.sent
  emptied : tw.kbbuf = []

/-- A byte of the text. -/
def Sent.IsText : Sent → Prop
  | text _ => True
  | _ => False

/-- What is sent of the text comes before what is sent of the keys. -/
def TextFirst (sent : List Sent) : Prop := sent.Pairwise fun s t => t.IsText → s.IsText

/-- A key waits, or was sent. -/
def Held (tw : WindRec) : Prop := tw.kbbuf ≠ [] ∨ ∃ s ∈ tw.sent, ¬ s.IsText

section Keys
variable {stray : Int → UInt8} {htrbuf : List UInt8 → Option (List UInt8)} {tw : WindRec}
  {text : List UInt8} {keys : List Key} {k : Key} {e : PasteEvent}

theorem length_unload (echo : Bool) (behind : UInt8) (kbbuf : List UInt8) :
    (unload echo behind kbbuf).2.length = kbbuf.length := by
  fun_induction unload echo behind kbbuf with
  | case1 => rfl
  | case2 => rfl
  | case3 => rfl
  | case4 => rfl
  | case5 _ _ _ ih => exact congrArg (· + 2) ih
  | case6 => rfl
  | case7 _ _ _ _ _ _ _ ih => exact congrArg (· + 1) ih
  | case8 _ _ _ _ _ _ ih => exact congrArg (· + 2) ih

/-- The bytes of text that a write sends. -/
def pieceOf (stray : Int → UInt8) (tw : WindRec) (c : PasteCall) : List Sent :=
  (List.range (c.reply.netwrite (asked tw)).toNat).map
    fun i : ℕ => .text (tw.byteAt stray (tw.outptr+i))

theorem pieceOf_text {c : PasteCall} : ∀ s ∈ pieceOf stray tw c, s.IsText := by
  intro s hs
  obtain ⟨i, -, rfl⟩ := List.mem_map.mp hs
  exact trivial

/-- What an event does to the log and the keyboard buffer: it sends some of the text, or the
last of it and then the keys. -/
theorem apply_sends (h : Along text tw) (he : e.Accepted tw) :
    ∃ piece : List Sent, (∀ s ∈ piece, s.IsText) ∧
      (((e.apply stray htrbuf tw).sent = tw.sent ++ piece ∧
          (e.apply stray htrbuf tw).kbbuf = tw.kbbuf ∧
          (e.apply stray htrbuf tw).outhand = tw.outhand ∧
          (e.apply stray htrbuf tw).inProgress = tw.inProgress) ∨
        (piece ≠ [] ∧ ∃ behind,
          (e.apply stray htrbuf tw).sent =
            tw.sent ++ piece ++ (unload tw.echo behind tw.kbbuf).1 ∧
          (e.apply stray htrbuf tw).kbbuf = (unload tw.echo behind tw.kbbuf).2 ∧
          (e.apply stray htrbuf tw).outhand = none ∧
          (e.apply stray htrbuf tw).inProgress = false ∧ tw.outhand ≠ none)) := by
  have hnil : ∀ s ∈ ([] : List Sent), s.IsText := fun s hs => absurd hs List.not_mem_nil
  cases e with
  | received cnt => exact ⟨[], hnil, Or.inl ⟨(List.append_nil _).symm, rfl, rfl, rfl⟩⟩
  | call c =>
    dsimp only [PasteEvent.apply]
    by_cases hwrites : Writes tw c
    swap
    · obtain ⟨incount, outcount, heq⟩ := @pasteText_waits stray htrbuf tw c hwrites
      rw [heq]
      exact ⟨[], hnil, Or.inl ⟨(List.append_nil _).symm, rfl, rfl, rfl⟩⟩
    have hplace : tw.outhand = some text ∧ 0 < tw.outlen := by
      rcases h.place with hplace | hplace
      · exact ⟨hplace.1, hplace.2.2.1⟩
      · exact absurd hplace.2.1 hwrites.1
    rw [pasteText_writes hwrites (h.not_uploading hwrites.1)]
    refine ⟨pieceOf stray tw c, pieceOf_text, ?_⟩
    split_ifs with hdone
    · -- something is sent, as what is left becomes nothing
      refine Or.inr ⟨?_, c.behind, rfl, rfl, rfl, rfl, ?_⟩
      · intro hempty
        have hzero := congrArg List.length hempty
        rw [pieceOf, List.length_map, List.length_range, List.length_nil] at hzero
        dsimp only [written] at hdone
        omega
      · rw [hplace.1]
        exact Option.some_ne_none text
    · exact Or.inl ⟨rfl, rfl, rfl, rfl⟩

/-- What a key leaves as it is. -/
structure Beside (tw tw' : WindRec) : Prop where
  outhand : tw'.outhand = tw.outhand
  outptr : tw'.outptr = tw.outptr
  outlen : tw'.outlen = tw.outlen
  inProgress : tw'.inProgress = tw.inProgress
  isUploading : tw'.isUploading = tw.isUploading
  text : textOf tw'.sent = textOf tw.sent

theorem Beside.trans {tw' tw'' : WindRec} (h : Beside tw tw') (h' : Beside tw' tw'') :
    Beside tw tw'' :=
  ⟨h'.outhand.trans h.outhand, h'.outptr.trans h.outptr, h'.outlen.trans h.outlen,
    h'.inProgress.trans h.inProgress, h'.isUploading.trans h.isUploading, h'.text.trans h.text⟩

theorem textOf_key (l : List UInt8) : textOf (l.map .key) = [] := by
  induction l with
  | nil => rfl
  | cons b l ih => exact ih

theorem kbflush_beside : Beside tw (kbflush tw) := by
  refine ⟨rfl, rfl, rfl, rfl, rfl, ?_⟩
  dsimp only [kbflush]
  rw [textOf_append, textOf_key, List.append_nil]

theorem kbwrite_beside (string : List UInt8) : Beside tw (kbwrite tw string) := by
  induction string generalizing tw with
  | nil => exact ⟨rfl, rfl, rfl, rfl, rfl, rfl⟩
  | cons b string ih =>
    rw [kbwrite]
    apply Beside.trans _ ih
    split_ifs
    · have hflush := @kbflush_beside tw
      exact ⟨rfl, rfl, rfl, rfl, rfl, hflush.text⟩
    · exact ⟨rfl, rfl, rfl, rfl, rfl, rfl⟩

theorem HandleKeyDown_beside : Beside tw (HandleKeyDown tw k) := by
  cases k with
  | plain pbuf => exact kbwrite_beside pbuf
  | keypad ascii => exact kbwrite_beside [0, ascii]
  | emacs ascii pbuf =>
    have hflush := (@kbwrite_beside tw [27, ascii]).trans kbflush_beside
    apply hflush.trans
    apply Beside.trans _ (kbwrite_beside pbuf)
    refine ⟨rfl, rfl, rfl, rfl, rfl, ?_⟩
    dsimp only
    rw [textOf_append]
    exact List.append_nil _

theorem Along.beside {tw' : WindRec} (h : Along text tw) (hb : Beside tw tw') : Along text tw' := by
  refine ⟨?_, ?_⟩
  · rw [hb.outlen, hb.isUploading]
    exact h.not_uploading
  · rw [hb.outhand, hb.outptr, hb.outlen, hb.text]
    exact h.place

theorem Held.kbwrite (h : Held tw) (string : List UInt8) : Held (Paste.kbwrite tw string) := by
  induction string generalizing tw with
  | nil => exact h
  | cons b string ih =>
    rw [Paste.kbwrite]
    exact ih (Or.inl (List.concat_ne_nil b _))

theorem held_kbwrite {string : List UInt8} (h : string ≠ []) : Held (kbwrite tw string) := by
  obtain ⟨b, rest, rfl⟩ := List.exists_cons_of_ne_nil h
  rw [kbwrite]
  exact Held.kbwrite (Or.inl (List.concat_ne_nil b _)) rest

/-- A key with bytes is held, and what was held is so still. -/
theorem HandleKeyDown_held (h : k.queued ≠ [] ∨ Held tw) : Held (HandleKeyDown tw k) := by
  cases k with
  | plain pbuf =>
    rcases h with hbytes | hheld
    · exact held_kbwrite hbytes
    · exact hheld.kbwrite pbuf
  | keypad ascii => exact held_kbwrite (List.cons_ne_nil 0 [ascii])
  | emacs ascii pbuf =>
    apply Held.kbwrite
    exact Or.inr ⟨.key 27, List.mem_append_right _ List.mem_cons_self, id⟩

theorem HandleKeyDown_nothing (h : k.queued = []) : HandleKeyDown tw k = tw := by
  cases k with
  | plain pbuf =>
    have hnil : pbuf = [] := h
    rw [hnil]
    rfl
  | keypad ascii => exact absurd h (List.cons_ne_nil 0 [ascii])
  | emacs ascii pbuf => exact absurd h (List.cons_ne_nil 27 _)

/-- A key that was sent before the last of the text. -/
theorem not_textFirst {sent piece rest : List Sent} (hkey : ∃ s ∈ sent, ¬ s.IsText)
    (hpiece : piece ≠ []) (htext : ∀ s ∈ piece, s.IsText) :
    ¬ TextFirst (sent ++ piece ++ rest) := by
  intro hfirst
  obtain ⟨s, hs, hnot⟩ := hkey
  obtain ⟨t, more, rfl⟩ := List.exists_cons_of_ne_nil hpiece
  have hboth := (List.pairwise_append.mp (List.pairwise_append.mp hfirst).1).2.2 s hs t
    List.mem_cons_self
  exact hnot (hboth (htext t List.mem_cons_self))

/-- Where the keys of a run are. -/
structure Typed (text : List UInt8) (keys : List Key) (tw : WindRec) : Prop where
  along : Along text tw
  in_progress : tw.inProgress = true → tw.outhand ≠ none
  nothing : (∀ k ∈ keys, k.queued = []) → tw.kbbuf = [] ∧ ∀ s ∈ tw.sent, s.IsText
  held : (∃ k ∈ keys, k.queued ≠ []) → tw.outhand ≠ none → Held tw
  lost : (∃ k ∈ keys, k.queued ≠ []) → tw.outhand = none → tw.kbbuf ≠ [] ∨ ¬ TextFirst tw.sent

theorem typed_event (h : Typed text keys tw) (he : e.Accepted tw) :
    Typed text keys (e.apply stray htrbuf tw) := by
  obtain ⟨halong, -⟩ := @apply_along stray htrbuf tw text e h.along he
  obtain ⟨piece, htext, ⟨hsent, hbuf, hand, hprogress⟩ |
    ⟨hpiece, behind, hsent, hbuf, hand, hprogress, hrun⟩⟩ := @apply_sends stray htrbuf tw text e
      h.along he
  · -- only text is sent, and the keys wait as before
    refine ⟨halong, ?_, ?_, ?_, ?_⟩
    · rw [hand, hprogress]
      exact h.in_progress
    · intro hnone
      obtain ⟨hempty, hall⟩ := h.nothing hnone
      rw [hbuf, hsent]
      exact ⟨hempty, List.forall_mem_append.mpr ⟨hall, htext⟩⟩
    · intro hsome hrun
      rw [hand] at hrun
      rw [Held, hbuf, hsent]
      rcases h.held hsome hrun with hwaits | ⟨s, hs, hkey⟩
      · exact Or.inl hwaits
      · exact Or.inr ⟨s, List.mem_append_left _ hs, hkey⟩
    · intro hsome hdone
      rw [hand] at hdone
      rw [hbuf, hsent]
      rcases h.lost hsome hdone with hwaits | hlate
      · exact Or.inl hwaits
      · exact Or.inr fun hfirst => hlate (List.pairwise_append.mp hfirst).1
  · -- the paste ends: what waits is sent behind the text, but stays in the keyboard buffer
    refine ⟨halong, ?_, ?_, ?_, ?_⟩
    · rw [hprogress]
      exact fun hyes => absurd hyes Bool.false_ne_true
    · intro hnone
      obtain ⟨hempty, hall⟩ := h.nothing hnone
      rw [hbuf, hsent, hempty]
      refine ⟨rfl, ?_⟩
      rw [unload, List.append_nil]
      exact List.forall_mem_append.mpr ⟨hall, htext⟩
    · exact fun _ hstill => absurd hand hstill
    · intro hsome _
      rw [hbuf, hsent]
      rcases h.held hsome hrun with hwaits | hkey
      · left
        intro hnil
        have hlen := length_unload tw.echo behind tw.kbbuf
        rw [hnil] at hlen
        exact hwaits (List.eq_nil_of_length_eq_zero hlen.symm)
      · exact Or.inr (not_textFirst hkey hpiece htext)

theorem typed_key (h : Typed text keys tw) (hqueues : Queues tw) :
    Typed text (keys ++ [k]) (HandleKeyDown tw k) := by
  have hbeside := @HandleKeyDown_beside tw k
  have hrun := h.in_progress hqueues.1
  refine ⟨h.along.beside hbeside, ?_, ?_, ?_, ?_⟩
  · rw [hbeside.outhand, hbeside.inProgress]
    exact h.in_progress
  · intro hnone
    rw [List.forall_mem_append] at hnone
    rw [HandleKeyDown_nothing (hnone.2 k List.mem_cons_self)]
    exact h.nothing hnone.1
  · rintro ⟨k', hk', hbytes⟩ -
    apply HandleKeyDown_held
    rcases List.mem_append.mp hk' with hbefore | hlast
    · exact Or.inr (h.held ⟨k', hbefore, hbytes⟩ hrun)
    · rw [List.mem_singleton.mp hlast] at hbytes
      exact Or.inl hbytes
  · intro _ hdone
    rw [hbeside.outhand] at hdone
    exact absurd hdone hrun

theorem typed_run (h : KeyRun stray htrbuf text keys tw) : Typed text keys tw := by
  induction h with
  | begun tw hidle =>
    refine ⟨begun_along text hidle, ?_, ?_, ?_, ?_⟩
    · rw [begun, paste, hidle, if_neg Bool.false_ne_true]
      dsimp only
      split_ifs
      · exact fun hyes => absurd (hidle.symm.trans hyes) Bool.false_ne_true
      · exact fun _ => Option.some_ne_none text
    · intro _
      rw [begun, paste, hidle, if_neg Bool.false_ne_true]
      dsimp only
      split_ifs
      · exact ⟨rfl, fun s hs => absurd hs List.not_mem_nil⟩
      · exact ⟨rfl, fun s hs => absurd hs List.not_mem_nil⟩
    · rintro ⟨k, hk, -⟩
      exact absurd hk List.not_mem_nil
    · rintro ⟨k, hk, -⟩
      exact absurd hk List.not_mem_nil
  | event e _ he ih => exact typed_event ih he
  | key k _ hqueues ih => exact typed_key ih hqueues

theorem sent_of_text {sent : List Sent} (h : ∀ s ∈ sent, s.IsText) :
    sent = (textOf sent).map .text := by
  induction sent with
  | nil => rfl
  | cons s sent ih =>
    obtain ⟨hs, hrest⟩ := List.forall_mem_cons.mp h
    cases s with
    | text b => exact congrArg (List.cons (Sent.text b)) (ih hrest)
    | key b => exact absurd hs id
    | vskey code => exact absurd hs id

theorem charSent_keys {b : UInt8} : ∀ s ∈ charSent b, ¬ s.IsText := by
  rw [charSent]
  split_ifs
  · exact List.forall_mem_cons.mpr ⟨id, List.forall_mem_singleton.mpr id⟩
  · exact List.forall_mem_singleton.mpr id

theorem chars_keys {pbuf : List UInt8} : ∀ s ∈ pbuf.flatMap charSent, ¬ s.IsText := by
  intro s hs
  obtain ⟨b, -, hb⟩ := List.mem_flatMap.mp hs
  exact charSent_keys s hb

theorem Key.sent_keys (k : Key) : ∀ s ∈ k.sent, ¬ s.IsText := by
  cases k with
  | plain pbuf => exact chars_keys
  | keypad ascii => exact List.forall_mem_singleton.mpr id
  | emacs ascii pbuf => exact List.forall_mem_cons.mpr ⟨id, chars_keys⟩

theorem KeysSent.textFirst (h : KeysSent text keys tw) : TextFirst tw.sent := by
  rw [TextFirst, h.order, List.pairwise_append]
  have htext : ∀ s ∈ text.map Sent.text, s.IsText := by
    intro s hs
    obtain ⟨b, -, rfl⟩ := List.mem_map.mp hs
    exact trivial
  have hkeys : ∀ s ∈ keys.flatMap Key.sent, ¬ s.IsText := by
    intro s hs
    obtain ⟨k, -, hk⟩ := List.mem_flatMap.mp hs
    exact k.sent_keys s hk
  refine ⟨?_, ?_, ?_⟩
  · apply List.pairwise_of_forall_mem_list
    exact fun s hs _ _ _ => htext s hs
  · apply List.pairwise_of_forall_mem_list
    exact fun _ _ t ht hyes => absurd hyes (hkeys t ht)
  · exact fun s hs _ _ _ => htext s hs

/-- After a paste the keys of it are sent once and in order behind the text, and the keyboard
buffer is empty, exactly where no key of it had a byte. -/
theorem keys_sent_iff (h : KeyRun stray htrbuf text keys tw) (hdone : tw.outhand = none) :
    KeysSent text keys tw ↔ ∀ k ∈ keys, k.queued = [] := by
  have htyped := typed_run h
  constructor
  · intro hsent
    by_contra hsome
    obtain ⟨k, hk⟩ := Classical.not_forall.mp hsome
    obtain ⟨hmem, hbytes⟩ := Classical.not_imp.mp hk
    rcases htyped.lost ⟨k, hmem, hbytes⟩ hdone with hwaits | hlate
    · exact hwaits hsent.emptied
    · exact hlate hsent.textFirst
  · intro hnone
    obtain ⟨hempty, htext⟩ := htyped.nothing hnone
    refine ⟨?_, hempty⟩
    have hkeys : keys.flatMap Key.sent = [] := by
      rw [List.flatMap_eq_nil_iff]
      intro k hk
      have hk' := hnone k hk
      cases k with
      | plain pbuf =>
        have hnil : pbuf = [] := hk'
        rw [hnil]
        rfl
      | keypad ascii => exact absurd hk' (List.cons_ne_nil 0 [ascii])
      | emacs ascii pbuf => exact absurd hk' (List.cons_ne_nil 27 _)
    rw [hkeys, List.append_nil, sent_of_text htext]
    rcases htyped.along.place with ⟨hand, -⟩ | ⟨-, -, hall⟩
    · exact absurd (hdone.symm.trans hand).symm (Option.some_ne_none text)
    · rw [hall]

end Keys

/-- Calls that find the network at rest. -/
def threeCalls (tw : WindRec) : WindRec :=
  [roomFor 5, roomFor 5, roomFor 5].foldl (PasteEvent.apply (fun _ => 0) some) tw

theorem threeCalls_run {text : List UInt8} {keys : List Key} {tw : WindRec}
    (h : KeyRun (fun _ => 0) some text keys tw) :
    KeyRun (fun _ => 0) some text keys (threeCalls tw) := by
  have htaken : ∀ tw, (roomFor 5).Accepted tw := fun tw _ => rfl
  have hfirst := h.event (roomFor 5) (htaken _)
  have hsecond := hfirst.event (roomFor 5) (htaken _)
  exact hsecond.event (roomFor 5) (htaken _)

/-- Two bytes are pasted, and a first byte is typed that waits for a second one. -/
theorem no_key_sent :
    KeysSent [7, 8] [.plain []] (threeCalls (HandleKeyDown (begun idle [7, 8]) (.plain []))) := by
  have hrun : KeyRun (fun _ => 0) some [7, 8] [.plain []]
      (HandleKeyDown (begun idle [7, 8]) (.plain [])) :=
    .key _ (.begun idle rfl) ⟨rfl, Or.inl rfl⟩
  apply (keys_sent_iff (threeCalls_run hrun) rfl).mpr
  exact List.forall_mem_singleton.mpr rfl

/-- A character stays in the keyboard buffer, and is sent again when that is flushed. -/
theorem key_stays : ¬ ∀ (text : List UInt8) (keys : List Key) (tw : WindRec),
    KeyRun (fun _ => 0) some text keys tw → tw.outhand = none →
      (keys.flatMap Key.queued).length ≤ MAXKB → KeysSent text keys tw := by
  intro hall
  have hrun : KeyRun (fun _ => 0) some [7, 8] [.plain [97]]
      (HandleKeyDown (begun idle [7, 8]) (.plain [97])) :=
    .key _ (.begun idle rfl) ⟨rfl, Or.inl rfl⟩
  have hsent := hall [7, 8] [.plain [97]] _ (threeCalls_run hrun) rfl (by decide)
  exact absurd hsent.emptied (by decide)

end Paste
