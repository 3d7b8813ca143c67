import MacSSH.Emulation

/-! Strings that are sent as if they had been typed: their translation, through a buffer of
256 octets. -/
namespace Typing

open VS

@[simp] abbrev outbufSize : ℕ := 256

@[simp] abbrev troutbufSize : ℕ := 16

/-- The output translation of a window, with `τ` for its state. `jis` says that it is the one
that is left to others. -/
structure Converter (τ : Type) where
  jis : Bool
  trbuf_mac_nat : τ → List UInt8 → τ × Translated
  trflush_mac_nat : τ → τ

/-- The state of the translation, with the characters that are pending in it. -/
structure Pending (τ : Type) where
  tr : τ
  troutbuf : List UInt8

/-- What a window has written to the network and to its own screen. -/
structure WindRec (τ : Type) where
  out : Pending τ
  kbbuf : List UInt8
  echo : Bool
  netwritten : List (List UInt8)
  parsed : List (List UInt8)

variable {τ : Type}

namespace Converter
variable (cv : Converter τ)

/-- Forget what is pending. -/
def flush (s : Pending τ) : Pending τ := ⟨cv.trflush_mac_nat s.tr, []⟩

/-- The translation of one character, with what is pending behind it. -/
def convert (s : Pending τ) (c : UInt8) : Pending τ × List UInt8 :=
  if cv.jis then (s, [c])
  else
    let pbuf := (if troutbufSize ≤ s.troutbuf.length then [] else s.troutbuf) ++ [c]
    match cv.trbuf_mac_nat s.tr pbuf with
    | (tr, .failed) => (⟨tr, []⟩, pbuf)
    | (tr, .done inlen trbuf) =>
      let kept := pbuf.drop inlen
      if trbuf = [] then
        if kept.length < troutbufSize then (⟨tr, kept⟩, []) else (cv.flush ⟨tr, kept⟩, kept)
      else (⟨tr, []⟩, trbuf)

/-- The translations of all characters of a string, one after the other. -/
def convertAll (s : Pending τ) : List UInt8 → Pending τ × List (List UInt8)
  | [] => (s, [])
  | c :: cs =>
    let r := cv.convert s c
    let rest := convertAll r.1 cs
    (rest.1, r.2 :: rest.2)

/-- The inner loop: it ends with the characters, or when the buffer is full; then there are
characters that it has not read. -/
def fill (s : Pending τ) (outbuf : List UInt8) : List UInt8 → Pending τ × List UInt8 × List UInt8
  | [] => (s, outbuf, [])
  | c :: cs =>
    if outbuf.length < outbufSize then
      let r := cv.convert s c
      fill r.1 (outbuf ++ r.2) cs
    else (s, outbuf, c :: cs)

end Converter

namespace WindRec

def kbflush (tw : WindRec τ) : WindRec τ :=
  if tw.kbbuf = [] then tw
  else { tw with kbbuf := [], netwritten := tw.netwritten ++ [tw.kbbuf] }

def netwrite (tw : WindRec τ) (bytes : List UInt8) : WindRec τ :=
  { tw with netwritten := tw.netwritten ++ [bytes] }

/-- With local echo the octets are shown, too. -/
def localEcho (tw : WindRec τ) (bytes : List UInt8) : WindRec τ :=
  if tw.echo then { tw with parsed := tw.parsed ++ [bytes] } else tw

/-- The outer loop; also the characters that are never read. -/
def sendLoop (cv : Converter τ) : ℕ → WindRec τ → List UInt8 → Int → WindRec τ × List UInt8
  | 0, tw, string, _ => (tw, string)
  | fuel+1, tw, string, len =>
    if len = 0 then (tw, string)
    else
      -- the size of the buffer has no sign, and for the test neither has the length
      let buflen := if len < 0 ∨ len > outbufSize then outbufSize else len.toNat
      let (out, outbuf, unread) := cv.fill tw.out [] (string.take buflen)
      let tw := (({ tw with out := out }.kbflush).netwrite outbuf).localEcho outbuf
      -- the string goes on behind the piece, whatever has been read of it
      let rest := sendLoop cv fuel tw (string.drop buflen) (short (len-buflen))
      (rest.1, unread ++ rest.2)

/-- `len` is a short integer, whatever the caller has. -/
def SendStringAsIfTyped (cv : Converter τ) (tw : WindRec τ) (string : List UInt8) (len : Int) :
    WindRec τ × List UInt8 :=
  let tw := tw.kbflush
  let r := sendLoop cv string.length { tw with out := cv.flush tw.out } string len
  ({ r.1 with out.troutbuf := [] }, r.2)

end WindRec

/-- The translations of up to 256 characters fit into the buffer, which is not full before
the last of them. -/
def FitsBuffer (block : List (List UInt8)) : Prop :=
  block.flatten.length ≤ outbufSize ∧ ∀ j < block.length, (block.take j).flatten.length < outbufSize

instance (block : List (List UInt8)) : Decidable (FitsBuffer block) :=
  inferInstanceAs (Decidable (_ ∧ _))

/-- Block `k` of 256 translations. -/
def block (outs : List (List UInt8)) (k : ℕ) : List (List UInt8) :=
  (outs.drop (outbufSize*k)).take outbufSize

/-- Behind what was in the keyboard buffer, the translation of the whole string is written:
no character is left unread, and no write is longer than the buffer. -/
def SendsConverted (cv : Converter τ) (tw : WindRec τ) (string : List UInt8) : Prop :=
  let sent := tw.SendStringAsIfTyped cv string (short string.length)
  sent.2 = [] ∧ ∃ writes, sent.1.netwritten = tw.kbflush.netwritten ++ writes ∧
    writes.flatten = (cv.convertAll (cv.flush tw.out) string).2.flatten ∧
    ∀ w ∈ writes, w.length ≤ outbufSize

section Conversion
variable (cv : Converter τ)

theorem convertAll_length (s : Pending τ) (cs : List UInt8) :
    (cv.convertAll s cs).2.length = cs.length := by
  induction cs generalizing s with
  | nil => rfl
  | cons c cs ih =>
    rw [Converter.convertAll, List.length_cons, List.length_cons, ih]

theorem convertAll_append (s : Pending τ) (a b : List UInt8) :
    cv.convertAll s (a ++ b) =
      ((cv.convertAll (cv.convertAll s a).1 b).1,
        (cv.convertAll s a).2 ++ (cv.convertAll (cv.convertAll s a).1 b).2) := by
  induction a generalizing s with
  | nil => rfl
  | cons c a ih =>
    rw [List.cons_append, Converter.convertAll, ih]
    rfl

/-- Where a piece of the string is read to its end. -/
theorem fill_unread (s : Pending τ) (outbuf cs : List UInt8) :
    (cv.fill s outbuf cs).2.2 = [] ↔
      ∀ j < cs.length,
        outbuf.length+((cv.convertAll s cs).2.take j).flatten.length < outbufSize := by
  induction cs generalizing s outbuf with
  | nil => simp [Converter.fill]
  | cons c cs ih =>
    rw [Converter.fill, Converter.convertAll]
    constructor
    · intro h
      split_ifs at h with hroom
      · intro j hj
        cases j with
        | zero => exact hroom
        | succ j =>
          have hlater := (ih _ _).mp h j (Nat.lt_of_succ_lt_succ hj)
          rw [List.length_append] at hlater
          rw [List.take_succ_cons, List.flatten_cons, List.length_append, ← Nat.add_assoc]
          exact hlater
    · intro h
      have hroom : outbuf.length < outbufSize := h 0 (Nat.zero_lt_succ _)
      rw [if_pos hroom]
      apply (ih _ _).mpr
      intro j hj
      have hlater := h (j+1) (Nat.succ_lt_succ hj)
      rw [List.take_succ_cons, List.flatten_cons, List.length_append, ← Nat.add_assoc] at hlater
      rw [List.length_append]
      exact hlater

/-- A piece that is read to its end is translated. -/
theorem fill_read {s : Pending τ} {outbuf cs : List UInt8} (h : (cv.fill s outbuf cs).2.2 = []) :
    cv.fill s outbuf cs =
      ((cv.convertAll s cs).1, outbuf ++ (cv.convertAll s cs).2.flatten, []) := by
  induction cs generalizing s outbuf with
  | nil =>
    rw [Converter.convertAll, List.flatten_nil, List.append_nil]
    rfl
  | cons c cs ih =>
    rw [Converter.fill] at h ⊢
    split_ifs at h ⊢
    rw [ih h, Converter.convertAll, List.flatten_cons, List.append_assoc]

/-- The first piece is read to its end and written without overrunning the buffer. -/
theorem fill_fits (s : Pending τ) (cs : List UInt8) :
    (cv.fill s [] cs).2.2 = [] ∧ (cv.fill s [] cs).2.1.length ≤ outbufSize ↔
      FitsBuffer (cv.convertAll s cs).2 := by
  have hunread := fill_unread cv s [] cs
  simp only [List.length_nil, Nat.zero_add] at hunread
  constructor
  · rintro ⟨hread, hlen⟩
    rw [fill_read cv hread] at hlen
    refine ⟨hlen, ?_⟩
    rw [convertAll_length]
    exact hunread.mp hread
  · rintro ⟨hlen, hroom⟩
    rw [convertAll_length] at hroom
    have hread := hunread.mpr hroom
    rw [fill_read cv hread]
    exact ⟨rfl, hlen⟩

end Conversion

section Blocks
variable {outs first later : List (List UInt8)}

theorem block_zero (hfirst : first.length ≤ outbufSize)
    (hlater : first.length < outbufSize → later = []) : block (first ++ later) 0 = first := by
  rw [block, Nat.mul_zero, List.drop_zero]
  rcases Nat.lt_or_ge first.length outbufSize with hlt | hge
  · rw [hlater hlt, List.append_nil, List.take_of_length_le hfirst]
  · rw [List.take_append_of_le_length hge, List.take_of_length_le hfirst]

theorem block_succ (hfirst : first.length ≤ outbufSize)
    (hlater : first.length < outbufSize → later = []) (k : ℕ) :
    block (first ++ later) (k+1) = block later k := by
  rcases Nat.lt_or_ge first.length outbufSize with hlt | hge
  · rw [hlater hlt, List.append_nil, block, block, List.drop_of_length_le, List.drop_nil]
    rw [Nat.mul_succ]
    omega
  · have hlen : first.length = outbufSize := by omega
    have hpast : outbufSize*(k+1) = first.length+outbufSize*k := by
      rw [hlen, Nat.mul_succ, Nat.add_comm]
    rw [block, block, hpast, List.drop_append, List.drop_of_length_le (Nat.le_add_right _ _),
      List.nil_append, Nat.add_sub_cancel_left]

/-- The blocks fit where the first one does and those behind it do. -/
theorem blocks_fit_iff (hfirst : first.length ≤ outbufSize)
    (hlater : first.length < outbufSize → later = []) :
    (∀ k, FitsBuffer (block (first ++ later) k)) ↔
      FitsBuffer first ∧ ∀ k, FitsBuffer (block later k) := by
  constructor
  · intro h
    constructor
    · have hzero := h 0
      rwa [block_zero hfirst hlater] at hzero
    · intro k
      have hk := h (k+1)
      rwa [block_succ hfirst hlater] at hk
  · rintro ⟨hzero, hsucc⟩ k
    cases k with
    | zero =>
      rw [block_zero hfirst hlater]
      exact hzero
    | succ k =>
      rw [block_succ hfirst hlater]
      exact hsucc k

theorem fits_nil : FitsBuffer [] := ⟨Nat.zero_le _, fun j hj => absurd hj (Nat.not_lt_zero j)⟩

theorem blocks_nil (k : ℕ) : block ([] : List (List UInt8)) k = [] := by
  simp [block]

end Blocks

section Sending
variable {cv : Converter τ} {tw : WindRec τ}

@[simp] theorem kbflush_out (tw : WindRec τ) : tw.kbflush.out = tw.out := by
  rw [WindRec.kbflush]
  split_ifs <;> rfl

@[simp] theorem kbflush_kbbuf (tw : WindRec τ) : tw.kbflush.kbbuf = [] := by
  rw [WindRec.kbflush]
  split_ifs with h
  · exact h
  · rfl

theorem kbflush_empty (h : tw.kbbuf = []) : tw.kbflush = tw := if_pos h

/-- The characters of the next piece, when `n` are still to be sent. -/
theorem short_piece {n : ℕ} (hpos : 0 < n) (hn : n < 65536) :
    short n ≠ 0 ∧ (if short n < 0 ∨ short n > outbufSize then outbufSize else (short n).toNat) =
      min n outbufSize := by
  rw [short, Int.bmod_def, outbufSize]
  split_ifs <;> omega

theorem short_left {n : ℕ} : short (short n-(min n outbufSize : ℕ)) = short (n-outbufSize : ℕ) := by
  have hleft : (n : Int)-(min n outbufSize : ℕ) = (n-outbufSize : ℕ) := by omega
  rw [← hleft, short, short, Int.bmod_sub_bmod]
  rfl

/-- A piece of the string: what is written of it, and the rest. -/
theorem sendLoop_piece (cv : Converter τ) (fuel : ℕ) (hkb : tw.kbbuf = []) (string : List UInt8)
    {n : ℕ} (hpos : 0 < n) (hn : n < 65536) :
    ∃ tw' : WindRec τ, tw'.kbbuf = [] ∧
      tw'.out = (cv.fill tw.out [] ((string.take n).take outbufSize)).1 ∧
      tw'.netwritten =
        tw.netwritten ++ [(cv.fill tw.out [] ((string.take n).take outbufSize)).2.1] ∧
      tw.sendLoop cv (fuel+1) string (short n) =
        ((tw'.sendLoop cv fuel (string.drop (min n outbufSize)) (short (n-outbufSize : ℕ))).1,
          (cv.fill tw.out [] ((string.take n).take outbufSize)).2.2 ++
            (tw'.sendLoop cv fuel (string.drop (min n outbufSize))
              (short (n-outbufSize : ℕ))).2) := by
  obtain ⟨hlen, hbuflen⟩ := short_piece hpos hn
  have hpiece : (string.take n).take outbufSize = string.take (min n outbufSize) := by
    rw [List.take_take, Nat.min_comm]
  rw [WindRec.sendLoop, if_neg hlen, hbuflen]
  simp only
  rw [short_left, hpiece]
  generalize cv.fill tw.out [] (string.take (min n outbufSize)) = r
  obtain ⟨out, outbuf, unread⟩ := r
  have hflush : WindRec.kbflush { tw with out := out } = { tw with out := out } :=
    kbflush_empty hkb
  simp only [hflush]
  refine ⟨_, ?_, ?_, ?_, rfl⟩
  · rw [WindRec.localEcho]
    split_ifs <;> exact hkb
  · rw [WindRec.localEcho]
    split_ifs <;> rfl
  · rw [WindRec.localEcho]
    split_ifs <;> rfl

theorem sendLoop_end (cv : Converter τ) (fuel : ℕ) (string : List UInt8) :
    tw.sendLoop cv fuel string 0 = (tw, string) := by
  cases fuel <;> rfl

/-- Of a piece and what is sent behind it, all is read and fits where the first block fits and
the others do. -/
theorem piece_fits_iff (s : Pending τ) {string unread : List UInt8} {writes : List (List UInt8)}
    (hfits : (cv.fill s [] (string.take outbufSize)).2.2 = [] →
      ((unread = [] ∧ ∀ w ∈ writes, w.length ≤ outbufSize) ↔
        ∀ k, FitsBuffer (block (cv.convertAll (cv.convertAll s (string.take outbufSize)).1
          (string.drop outbufSize)).2 k))) :
    ((cv.fill s [] (string.take outbufSize)).2.2 ++ unread = [] ∧
        ∀ w ∈ (cv.fill s [] (string.take outbufSize)).2.1 :: writes, w.length ≤ outbufSize) ↔
      ∀ k, FitsBuffer (block (cv.convertAll s string).2 k) := by
  have hsplit := convertAll_append cv s (string.take outbufSize) (string.drop outbufSize)
  rw [List.take_append_drop] at hsplit
  have hlen : (cv.convertAll s (string.take outbufSize)).2.length ≤ outbufSize := by
    rw [convertAll_length, List.length_take]
    omega
  have hlast : (cv.convertAll s (string.take outbufSize)).2.length < outbufSize →
      (cv.convertAll (cv.convertAll s (string.take outbufSize)).1
        (string.drop outbufSize)).2 = [] := by
    intro hlt
    rw [convertAll_length, List.length_take] at hlt
    rw [List.drop_of_length_le (by omega)]
    rfl
  rw [hsplit, blocks_fit_iff hlen hlast, ← fill_fits, List.append_eq_nil_iff,
    List.forall_mem_cons]
  constructor
  · rintro ⟨⟨hread, hall⟩, hfirst, hlens⟩
    exact ⟨⟨hread, hfirst⟩, (hfits hread).mp ⟨hall, hlens⟩⟩
  · rintro ⟨⟨hread, hfirst⟩, hblocks⟩
    obtain ⟨hall, hlens⟩ := (hfits hread).mpr hblocks
    exact ⟨⟨hread, hall⟩, hfirst, hlens⟩

/-- The loop writes more, and what it writes is the translation of what it has read. What is
behind the `n` characters is never read. -/
theorem sendLoop_writes (cv : Converter τ) (fuel : ℕ) (hkb : tw.kbbuf = []) {string : List UInt8}
    {n : ℕ} (hn : n < 65536) (hfuel : n ≤ fuel) :
    ∃ writes unread,
      (tw.sendLoop cv fuel string (short n)).1.netwritten = tw.netwritten ++ writes ∧
      (tw.sendLoop cv fuel string (short n)).2 = unread ++ string.drop n ∧
      (unread = [] → writes.flatten = (cv.convertAll tw.out (string.take n)).2.flatten) ∧
      (unread = [] ∧ (∀ w ∈ writes, w.length ≤ outbufSize) ↔
        ∀ k, FitsBuffer (block (cv.convertAll tw.out (string.take n)).2 k)) := by
  have hidle (tw : WindRec τ) (fuel : ℕ) (string : List UInt8) : ∃ writes unread,
      (tw.sendLoop cv fuel string (short (0 : ℕ))).1.netwritten = tw.netwritten ++ writes ∧
      (tw.sendLoop cv fuel string (short (0 : ℕ))).2 = unread ++ string.drop 0 ∧
      (unread = [] → writes.flatten = (cv.convertAll tw.out (string.take 0)).2.flatten) ∧
      (unread = [] ∧ (∀ w ∈ writes, w.length ≤ outbufSize) ↔
        ∀ k, FitsBuffer (block (cv.convertAll tw.out (string.take 0)).2 k)) := by
    have hend : tw.sendLoop cv fuel string (short (0 : ℕ)) = (tw, string) :=
      sendLoop_end cv fuel string
    refine ⟨[], [], by rw [hend, List.append_nil], by rw [hend]; rfl, fun _ => rfl, ?_⟩
    simp only [List.take_zero, Converter.convertAll, blocks_nil]
    simp [fits_nil]
  induction fuel generalizing tw string n with
  | zero =>
    obtain rfl : n = 0 := Nat.le_zero.mp hfuel
    exact hidle tw 0 string
  | succ fuel ih =>
    rcases Nat.eq_zero_or_pos n with rfl | hpos
    · exact hidle tw (fuel+1) string
    · obtain ⟨tw', hkb', hout, hwritten, hloop⟩ := sendLoop_piece cv fuel hkb string hpos hn
      obtain ⟨writes, unread, hwrites, hleft, hflat, hfits⟩ := @ih tw' hkb'
        (string.drop (min n outbufSize)) (n-outbufSize) (by omega) (by rw [outbufSize]; omega)
      have hbehind : (string.drop (min n outbufSize)).take (n-outbufSize) =
          (string.take n).drop outbufSize := by
        rcases Nat.le_total n outbufSize with hle | hge
        · rw [Nat.sub_eq_zero_of_le hle, List.take_zero, List.drop_of_length_le]
          rw [List.length_take]
          omega
        · rw [Nat.min_eq_right hge, List.drop_take]
      have hdrop : (string.drop (min n outbufSize)).drop (n-outbufSize) = string.drop n := by
        rw [List.drop_drop, Nat.add_comm, Nat.sub_add_min_cancel]
      rw [hbehind] at hflat hfits
      rw [hdrop] at hleft
      -- where the piece is read whole, the translation goes on as it would without pieces
      have hstate (hread : (cv.fill tw.out [] ((string.take n).take outbufSize)).2.2 = []) :
          tw'.out = (cv.convertAll tw.out ((string.take n).take outbufSize)).1 := by
        rw [hout, fill_read cv hread]
      refine ⟨(cv.fill tw.out [] ((string.take n).take outbufSize)).2.1 :: writes,
        (cv.fill tw.out [] ((string.take n).take outbufSize)).2.2 ++ unread, ?_, ?_, ?_, ?_⟩
      · rw [hloop, hwrites, hwritten, List.append_assoc, List.singleton_append]
      · rw [hloop, hleft, List.append_assoc]
      · intro hall
        obtain ⟨hread, hlater⟩ := List.append_eq_nil_iff.mp hall
        have hsplit := convertAll_append cv tw.out ((string.take n).take outbufSize)
          ((string.take n).drop outbufSize)
        rw [List.take_append_drop] at hsplit
        rw [List.flatten_cons, hflat hlater, hsplit, List.flatten_append, hstate hread,
          fill_read cv hread, List.nil_append]
      · apply piece_fits_iff
        intro hread
        rw [← hstate hread]
        exact hfits

end Sending

section Examples

/-- A translation of every character to `n` octets. -/
def wide (n : ℕ) : Converter Unit where
  jis := false
  trbuf_mac_nat _ pbuf := ((), .done pbuf.length (List.replicate n 0x41))
  trflush_mac_nat _ := ()

def idleWindow : WindRec Unit := ⟨⟨(), []⟩, [], false, [], []⟩

end Examples

end Typing
