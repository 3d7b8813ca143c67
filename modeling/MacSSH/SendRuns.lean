import MacSSH.SendConservation
import Mathlib.Data.List.TakeWhile

/-! The send buffer over whole runs: which calls keep every byte of it in exactly
one place, and what a write that reports success has copied. -/
namespace SendBuffer
attribute [local irreducible] compressfds joined

/-- The calls on a stream. -/
inductive SendOp where
  | write (buffer : ℕ → UInt8) (nsend : Int) (kencrypt : ℕ → UInt8 → UInt8) (ssh accepted : Bool)
  | complete (i : ℕ)
  | room

def SendOp.apply (p : StreamRec) : SendOp → StreamRec
  | write buffer nsend kencrypt ssh accepted => (Rnetwrite p buffer nsend kencrypt ssh accepted).2
  | complete i => SendComplete p i
  | room => (netroom p).2

/-- The last slot of the free table is empty when the finished ranges are reclaimed
and the adjacent ones joined. -/
def Roomy (p : StreamRec) : Prop := (entry (joined (reclaim p).fds) 31).ptr = 0

/-- The ranges that a write takes. -/
def rangesTaken (p : StreamRec) (nsend : Int) : List WdsEntry :=
  (takeRanges (ready p).fds nsend).2.1

/-- The tables have room for what a call moves, and the driver takes what it is
given: the free table does not fill up, a write of an ordinary window needs fewer
ranges than its descriptor has slots, and a finished send finds slots in the reclaim
table. -/
def SendOp.Fits : SendOp → StreamRec → Prop
  | write _ nsend _ ssh accepted, p =>
    nsend = 0 ∨ (ssh = true ∧ nsend < 0) ∨ (ssh = false ∧ Roomy p ∧
      (rangesTaken p nsend).length < MAX_SWDS_ELEMS ∧ (accepted = true ∨ rangesTaken p nsend = []))
  | complete i, p => ∀ swds, p.sends[i]? = some swds → swds.length ≤ unusedSlots p.exFDS
  | room, p => Roomy p

/-- A stream after any calls that each meet `P`. -/
inductive Run (P : SendOp → StreamRec → Prop) : StreamRec → Prop
  | start (sbuffer : ℕ) (mem : ℕ → UInt8) : sbuffer ≠ 0 → Run P (makestream sbuffer mem)
  | call {p : StreamRec} (op : SendOp) : Run P p → P op p → Run P (op.apply p)

/-- Every byte of the send buffer is in one range: a free one, one of a send in
flight, or one that waits to be reclaimed. -/
def Conserved (p : StreamRec) : Prop := p.free+p.inFlight = List.range' p.sbuffer TCPBUFSIZ

/-- The addresses of ranges, in order. -/
def addresses (l : List WdsEntry) : List ℕ := l.flatMap fun e => List.range' e.ptr e.length

/-- What a write promises: unless it reports bytes as queued the free bytes are as
before, and those it reports are in the buffer and in flight. -/
structure HonestWrite (p : StreamRec) (buffer : ℕ → UInt8) (nsend : Int)
    (kencrypt : ℕ → UInt8 → UInt8) (ssh accepted : Bool) : Prop where
  unchanged : (Rnetwrite p buffer nsend kencrypt ssh accepted).1 ≤ 0 →
    (Rnetwrite p buffer nsend kencrypt ssh accepted).2.free = p.free
  copied : 0 < (Rnetwrite p buffer nsend kencrypt ssh accepted).1 →
    ∃ swds, (Rnetwrite p buffer nsend kencrypt ssh accepted).2.sends = p.sends ++ [swds] ∧
      (addresses swds).map (Rnetwrite p buffer nsend kencrypt ssh accepted).2.mem =
        (List.range (Rnetwrite p buffer nsend kencrypt ssh accepted).1.toNat).map
          fun i => kencrypt i (buffer i)

section Copy

theorem addresses_cons (e : WdsEntry) (l : List WdsEntry) :
    addresses (e :: l) = List.range' e.ptr e.length ++ addresses l := List.flatMap_cons

theorem bytes_eq_addresses {l : List WdsEntry} (h : ∀ e ∈ l, e.ptr ≠ 0) :
    bytes l = addresses l := by
  induction l with
  | nil => rfl
  | cons e l ih =>
    rw [List.forall_mem_cons] at h
    rw [bytes_cons, ih h.2, WdsEntry.bytes, if_neg h.1, addresses_cons, ← Multiset.coe_add]

theorem length_addresses (l : List WdsEntry) :
    (addresses l).length = (l.map WdsEntry.length).sum := by
  induction l with
  | nil => rfl
  | cons e l ih =>
    rw [addresses_cons, List.length_append, List.length_range', ih, List.map_cons, List.sum_cons]

variable (kencrypt : ℕ → UInt8 → UInt8) (buffer : ℕ → UInt8)

theorem copyInto_of_not_mem (l : List WdsEntry) (start : ℕ) (mem : ℕ → UInt8) {a : ℕ}
    (ha : a ∉ addresses l) : copyInto kencrypt buffer start l mem a = mem a := by
  induction l generalizing start mem with
  | nil => rfl
  | cons e l ih =>
    rw [addresses_cons, List.mem_append, not_or, List.mem_range'_1] at ha
    rw [copyInto, ih _ _ ha.2, if_neg ha.1]

/-- Ranges that do not overlap hold afterwards what was copied into them. -/
theorem copyInto_read (l : List WdsEntry) (start : ℕ) (mem : ℕ → UInt8)
    (hl : (addresses l).Nodup) :
    (addresses l).map (copyInto kencrypt buffer start l mem) =
      (List.range' start (addresses l).length).map fun i => kencrypt i (buffer i) := by
  induction l generalizing start mem with
  | nil => rfl
  | cons e l ih =>
    rw [addresses_cons] at hl
    have hdis := List.disjoint_of_nodup_append hl
    rw [addresses_cons, List.map_append, List.length_append, List.length_range',
      ← List.range'_append_1, List.map_append, copyInto, ih _ _ (List.nodup_append.mp hl).2.1]
    congr 1
    -- the bytes of the first range are not touched again
    have hfirst : ∀ a ∈ List.range' e.ptr e.length,
        copyInto kencrypt buffer (start+e.length) l (fun a =>
          if e.ptr ≤ a ∧ a < e.ptr+e.length then
            kencrypt (start+(a-e.ptr)) (buffer (start+(a-e.ptr))) else mem a) a =
          kencrypt (start+(a-e.ptr)) (buffer (start+(a-e.ptr))) := by
      intro a ha
      rw [copyInto_of_not_mem _ _ _ _ _ (fun h => hdis ha h), if_pos (List.mem_range'_1.mp ha)]
    rw [List.map_congr_left hfirst, List.range'_eq_map_range, List.range'_eq_map_range,
      List.map_map, List.map_map]
    apply List.map_congr_left
    intro i _
    simp only [Function.comp_apply, Nat.add_sub_cancel_left]

end Copy

/-- What every call keeps: the bytes, a compact free table, and descriptors that end
within their slots. -/
structure Sound (p : StreamRec) : Prop where
  conserved : Conserved p
  compact : Compact p.fds
  descriptors : ∀ swds ∈ p.sends, swds.length < MAX_SWDS_ELEMS ∧ ∀ e ∈ swds, e.ptr ≠ 0

section Steps
variable {p : StreamRec}

theorem reclaim_spec (hc : Compact p.fds) :
    (reclaim p).free = p.free ∧ (reclaim p).fds.length = MAX_FDS_ELEMS := by
  obtain ⟨hb, hl, -⟩ := reclaimFrom_spec p.exFDS _ hc.length hc.behind
  exact ⟨hb, hl⟩

/-- Reclaiming and compressing change neither the free bytes nor the sends. -/
theorem ready_spec (hc : Compact p.fds) (hr : Roomy p) :
    (ready p).free = p.free ∧ Compact (ready p).fds ∧ (ready p).sends = p.sends ∧
      (ready p).sbuffer = p.sbuffer := by
  obtain ⟨hb, hl⟩ := reclaim_spec hc
  rw [Roomy] at hr
  obtain ⟨hb', hcomp⟩ := compressfds_spec hl hr
  refine ⟨?_, hcomp, rfl, rfl⟩
  rw [← hb, StreamRec.free, StreamRec.free, ← hb']
  rfl

theorem sound_ready (h : Sound p) (hr : Roomy p) : Sound (ready p) := by
  obtain ⟨hf, hc, hs, hb⟩ := ready_spec h.compact hr
  refine ⟨?_, hc, ?_⟩
  · rw [Conserved, StreamRec.inFlight, hf, hs, hb]
    exact h.conserved
  · rw [hs]
    exact h.descriptors

/-- The stream after a write that the driver took. -/
def afterWrite (p : StreamRec) (buffer : ℕ → UInt8) (nsend : Int) (kencrypt : ℕ → UInt8 → UInt8) :
    StreamRec :=
  let r := takeRanges p.fds nsend
  { p with
    fds := compressfds r.1
    mem := copyInto kencrypt buffer 0 r.2.1 p.mem
    sends := p.sends ++ [r.2.1] }

/-- The ways a write to an ordinary window ends. -/
theorem Rnetwrite_cases (p : StreamRec) (buffer : ℕ → UInt8) {nsend : Int}
    (kencrypt : ℕ → UInt8 → UInt8) (accepted : Bool) (hn : nsend ≠ 0) :
    ((entry (ready p).fds 0).ptr = 0 ∧
        Rnetwrite p buffer nsend kencrypt false accepted = (0, ready p)) ∨
      (accepted = true ∧ Rnetwrite p buffer nsend kencrypt false accepted =
        (nsend-(takeRanges (ready p).fds nsend).2.2, afterWrite (ready p) buffer nsend kencrypt)) ∨
      (accepted = false ∧ Rnetwrite p buffer nsend kencrypt false accepted =
        (-1, { afterWrite (ready p) buffer nsend kencrypt with sends := p.sends })) := by
  simp only [Rnetwrite, if_neg hn, if_neg Bool.false_ne_true]
  split_ifs with h0 hacc
  · exact Or.inl ⟨h0, rfl⟩
  · exact Or.inr (Or.inl ⟨hacc, rfl⟩)
  · exact Or.inr (Or.inr ⟨Bool.eq_false_iff.mpr hacc, rfl⟩)

/-- The free table left after a write: its bytes and those of the ranges taken are
those there were. -/
theorem takeRanges_compress (hc : Compact p.fds) (nsend : Int) :
    bytes (compressfds (takeRanges p.fds nsend).1)+bytes (takeRanges p.fds nsend).2.1 =
        bytes p.fds ∧
      Compact (compressfds (takeRanges p.fds nsend).1) := by
  obtain ⟨hb, -, -, hl, hempty⟩ := takeRanges_spec p.fds nsend
  have hlen := hl.trans hc.length
  have hlast : (entry (joined (takeRanges p.fds nsend).1) 31).ptr = 0 := by
    have hjoin := (joined_spec hlen).1
    apply hjoin.stays_empty
    exact hempty 31 hc.last
  obtain ⟨hb', hc'⟩ := compressfds_spec hlen hlast
  exact ⟨by rw [hb', hb], hc'⟩

theorem sound_afterWrite (h : Sound p) (buffer : ℕ → UInt8) (nsend : Int)
    (kencrypt : ℕ → UInt8 → UInt8)
    (hfew : (takeRanges p.fds nsend).2.1.length < MAX_SWDS_ELEMS) :
    Sound (afterWrite p buffer nsend kencrypt) := by
  obtain ⟨hb, hc⟩ := takeRanges_compress h.compact nsend
  obtain ⟨-, -, hused, -⟩ := takeRanges_spec p.fds nsend
  refine ⟨?_, hc, ?_⟩
  · have hcons := h.conserved
    rw [Conserved, StreamRec.free, StreamRec.inFlight] at hcons
    change bytes (compressfds (takeRanges p.fds nsend).1)+bytesUsed p.exFDS+
      ((p.sends ++ [(takeRanges p.fds nsend).2.1]).map bytes).sum =
        (List.range' p.sbuffer TCPBUFSIZ : List ℕ)
    rw [List.map_append, List.sum_append, List.map_singleton, List.sum_singleton, ← hcons, ← hb]
    ac_rfl
  · intro swds hs
    rcases List.mem_append.mp hs with hs | hs
    · exact h.descriptors swds hs
    · rw [List.mem_singleton.mp hs]
      exact ⟨hfew, hused⟩

/-- The ranges of a write do not overlap. -/
theorem Sound.taken_nodup (h : Sound p) (nsend : Int) :
    (addresses (takeRanges p.fds nsend).2.1).Nodup := by
  obtain ⟨hb, -, hused, -⟩ := takeRanges_spec p.fds nsend
  have hle : (addresses (takeRanges p.fds nsend).2.1 : Multiset ℕ) ≤
      (List.range' p.sbuffer TCPBUFSIZ : List ℕ) := by
    rw [← bytes_eq_addresses hused, ← h.conserved, StreamRec.free, ← hb, add_assoc, add_assoc,
      add_left_comm]
    exact Multiset.le_add_right _ _
  exact Multiset.coe_nodup.mp (Multiset.nodup_of_le hle (Multiset.coe_nodup.mpr List.nodup_range'))

theorem bytes_eq_zero {l : List WdsEntry} (h : ((l.map WdsEntry.length).sum : Int) ≤ 0)
    (hused : ∀ e ∈ l, e.ptr ≠ 0) : bytes l = 0 := by
  rw [bytes_eq_addresses hused, Multiset.coe_eq_zero]
  apply List.eq_nil_of_length_eq_zero
  rw [length_addresses]
  omega

/-- A finished send gives its bytes to the reclaim table. -/
theorem sound_complete (h : Sound p) (i : ℕ)
    (hroom : ∀ swds, p.sends[i]? = some swds → swds.length ≤ unusedSlots p.exFDS) :
    Sound (SendComplete p i) := by
  rw [SendComplete]
  split
  · exact h
  · next swds hs =>
    have hmem : swds ∈ p.sends := List.mem_of_getElem? hs
    obtain ⟨hlen, hused⟩ := h.descriptors swds hmem
    -- the descriptor is read to its end
    have hall : (swds.take MAX_SWDS_ELEMS).takeWhile (fun e => e.ptr ≠ 0) = swds := by
      rw [List.take_of_length_le hlen.le, List.takeWhile_eq_self_iff]
      intro e he
      simpa using hused e he
    obtain ⟨hb, -⟩ := giveRanges_spec p.exFDS swds (hroom swds hs)
    obtain ⟨hi, hget⟩ := List.getElem?_eq_some_iff.mp hs
    have hperm := List.getElem_cons_eraseIdx_perm hi
    have hsum : p.inFlight = bytes swds+((p.sends.eraseIdx i).map bytes).sum := by
      rw [StreamRec.inFlight, ← (hperm.map bytes).sum_eq, List.map_cons, List.sum_cons, hget]
    refine ⟨?_, h.compact, fun w hw => h.descriptors w (List.mem_of_mem_eraseIdx hw)⟩
    have hcons := h.conserved
    rw [Conserved, hsum, StreamRec.free] at hcons
    change bytes p.fds+bytesUsed (giveback p.exFDS swds)+((p.sends.eraseIdx i).map bytes).sum =
      (List.range' p.sbuffer TCPBUFSIZ : List ℕ)
    rw [giveback, hall, hb, ← hcons]
    ac_rfl

theorem sound_write (h : Sound p) (buffer : ℕ → UInt8) (nsend : Int)
    (kencrypt : ℕ → UInt8 → UInt8) (ssh accepted : Bool)
    (hf : (SendOp.write buffer nsend kencrypt ssh accepted).Fits p) :
    Sound (Rnetwrite p buffer nsend kencrypt ssh accepted).2 ∧
      HonestWrite p buffer nsend kencrypt ssh accepted := by
  by_cases hn : nsend = 0
  · have hr : Rnetwrite p buffer nsend kencrypt ssh accepted = (0, p) := by
      rw [Rnetwrite, if_pos hn]
    refine ⟨by rw [hr]; exact h, ?_, ?_⟩ <;> rw [hr]
    · exact fun _ => rfl
    · exact fun hpos => absurd hpos (lt_irrefl _)
  rcases hf.resolve_left hn with ⟨rfl, hneg⟩ | ⟨rfl, hroom, hfew, htook⟩
  · have hr : Rnetwrite p buffer nsend kencrypt true accepted = (nsend, p) := by
      rw [Rnetwrite, if_neg hn, if_pos rfl]
    refine ⟨by rw [hr]; exact h, ?_, ?_⟩ <;> rw [hr]
    · exact fun _ => rfl
    · exact fun hpos => absurd hpos (not_lt.mpr hneg.le)
  -- what was sent is taken back and the table compressed before anything is copied
  have hready := sound_ready h hroom
  obtain ⟨hfree, -, hsends, -⟩ := ready_spec h.compact hroom
  obtain ⟨hb, -⟩ := takeRanges_compress hready.compact nsend
  obtain ⟨-, hlen, hused, -⟩ := takeRanges_spec (ready p).fds nsend
  have hafter := sound_afterWrite hready buffer nsend kencrypt hfew
  have hkept (hzero : bytes (takeRanges (ready p).fds nsend).2.1 = 0) :
      (afterWrite (ready p) buffer nsend kencrypt).free = p.free := by
    rw [hzero, add_zero] at hb
    rw [← hfree, StreamRec.free, StreamRec.free, ← hb]
    rfl
  rcases Rnetwrite_cases p buffer kencrypt accepted hn with ⟨-, hr⟩ | ⟨hacc, hr⟩ | ⟨hacc, hr⟩
  · -- no range is free: nothing is copied
    refine ⟨by rw [hr]; exact hready, ?_, ?_⟩ <;> rw [hr]
    · exact fun _ => hfree
    · exact fun hpos => absurd hpos (lt_irrefl _)
  · refine ⟨by rw [hr]; exact hafter, ?_, ?_⟩ <;> rw [hr]
    · intro hle
      exact hkept (bytes_eq_zero (by rw [hlen]; exact hle) hused)
    · -- the ranges taken are handed to the driver, with as many bytes as were copied
      intro hpos
      refine ⟨(takeRanges (ready p).fds nsend).2.1, ?_, ?_⟩
      · rw [← hsends]
        rfl
      · have hread := copyInto_read kencrypt buffer _ 0 (ready p).mem (hready.taken_nodup nsend)
        have hcount : (addresses (takeRanges (ready p).fds nsend).2.1).length =
            (nsend-(takeRanges (ready p).fds nsend).2.2).toNat := by
          rw [length_addresses]
          omega
        rw [hcount, ← List.range_eq_range'] at hread
        exact hread
  · -- the driver refuses only a send of no bytes
    have hnone : rangesTaken p nsend = [] :=
      htook.resolve_left (by rw [hacc]; exact Bool.false_ne_true)
    have hzero : bytes (takeRanges (ready p).fds nsend).2.1 = 0 := by
      rw [rangesTaken] at hnone
      rw [hnone]
      rfl
    refine ⟨?_, ?_, ?_⟩ <;> rw [hr]
    · refine ⟨?_, hafter.compact, h.descriptors⟩
      have hcons := h.conserved
      rw [Conserved, ← hkept hzero] at hcons
      exact hcons
    · exact fun _ => hkept hzero
    · intro hpos
      have hneg : (0 : Int) < -1 := hpos
      omega

end Steps

theorem makestream_sound {sbuffer : ℕ} (mem : ℕ → UInt8) (h0 : sbuffer ≠ 0) :
    Sound (makestream sbuffer mem) := by
  refine ⟨?_, ⟨rfl, rfl, ?_⟩, fun _ hs => absurd hs List.not_mem_nil⟩
  · have hused : bytesUsed (List.replicate 32 ⟨false, WdsEntry.empty⟩) = 0 := by
      simp [bytesUsed]
    have hflight : (makestream sbuffer mem).inFlight = 0 := rfl
    rw [Conserved, StreamRec.free, hflight, makestream]
    simp only
    rw [hused, bytes_cons, bytes_replicate, add_zero, add_zero, add_zero, WdsEntry.bytes, if_neg h0]
  · intro j hj
    cases j with
    | zero => simp [makestream, h0] at hj
    | succ j => exact entry_replicate 31 j

theorem sound_run {p : StreamRec} (h : Run SendOp.Fits p) : Sound p := by
  induction h with
  | start sbuffer mem h0 => exact makestream_sound mem h0
  | call op _ hf ih =>
    cases op with
    | write buffer nsend kencrypt ssh accepted =>
      exact (sound_write ih buffer nsend kencrypt ssh accepted hf).1
    | complete i => exact sound_complete ih i hf
    | room => exact sound_ready ih hf

/-- In every run whose calls find room in the tables and whose sends the driver
takes, every byte of the send buffer stays in exactly one place, and no write is
dishonest about what it has done. -/
theorem send_buffer_over_runs (p : StreamRec) (h : Run SendOp.Fits p) :
    Conserved p ∧ ∀ buffer nsend kencrypt ssh accepted,
      (SendOp.write buffer nsend kencrypt ssh accepted).Fits p →
        HonestWrite p buffer nsend kencrypt ssh accepted := by
  have hs := sound_run h
  exact ⟨hs.conserved, fun buffer nsend kencrypt ssh accepted hf =>
    (sound_write hs buffer nsend kencrypt ssh accepted hf).2⟩

/-- A stream whose send buffer is at address 1, with zeros in it. -/
def newStream : StreamRec := makestream 1 fun _ => 0

/-- Ten bytes are sent and finished. -/
theorem send_buffer_ten_bytes :
    Conserved
      (SendComplete (Rnetwrite newStream (fun _ => 7) 10 (fun _ b => b) false true).2 0) := by
  have hwrite : (SendOp.write (fun _ => 7) 10 (fun _ b => b) false true).Fits newStream := by
    refine Or.inr (Or.inr ⟨rfl, ?_, ?_, Or.inl rfl⟩)
    · rw [Roomy]
      decide +kernel
    · decide +kernel
  have hrun : Run SendOp.Fits _ := Run.call _ (Run.start 1 (fun _ => 0) (by decide)) hwrite
  have hdone : (SendOp.complete 0).Fits
      (Rnetwrite newStream (fun _ => 7) 10 (fun _ b => b) false true).2 := by
    intro swds hs
    have hget : (Rnetwrite newStream (fun _ => 7) 10 (fun _ b => b) false true).2.sends[0]? =
        some [⟨10, 1⟩] := by decide +kernel
    have hswds : swds = [⟨10, 1⟩] := Option.some.inj (hs.symm.trans hget)
    rw [hswds]
    decide +kernel
  exact (send_buffer_over_runs _ (Run.call _ hrun hdone)).1

/-- A send that the driver refuses takes its bytes out of the buffer for good. -/
theorem refused_send_leaks :
    ∃ p, Run (fun _ _ => True) p ∧
      p = (Rnetwrite newStream (fun _ => 7) 100 (fun _ b => b) false false).2 ∧ ¬Conserved p := by
  refine ⟨_, Run.call (.write (fun _ => 7) 100 (fun _ b => b) false false)
    (Run.start 1 (fun _ => 0) (by decide)) trivial, rfl, ?_⟩
  intro hcons
  have hfds : (Rnetwrite newStream (fun _ => 7) 100 (fun _ b => b) false false).2.fds =
      ⟨8092, 101⟩ :: List.replicate 31 WdsEntry.empty := by decide +kernel
  have hex : (Rnetwrite newStream (fun _ => 7) 100 (fun _ b => b) false false).2.exFDS =
      List.replicate 32 ⟨false, WdsEntry.empty⟩ := by decide +kernel
  have hnone : bytesUsed (List.replicate 32 ⟨false, WdsEntry.empty⟩) = 0 := by simp [bytesUsed]
  have hfirst : 1 ∈ (List.range' 1 TCPBUFSIZ : Multiset ℕ) := by
    rw [Multiset.mem_coe, List.mem_range'_1]
    decide
  have hflight :
      (Rnetwrite newStream (fun _ => 7) 100 (fun _ b => b) false false).2.inFlight = 0 := by
    have hsends :
        (Rnetwrite newStream (fun _ => 7) 100 (fun _ b => b) false false).2.sends = [] := by
      decide +kernel
    rw [StreamRec.inFlight, hsends]
    rfl
  have hbuf : (Rnetwrite newStream (fun _ => 7) 100 (fun _ b => b) false false).2.sbuffer = 1 := by
    decide +kernel
  have htotal : Conserved (Rnetwrite newStream (fun _ => 7) 100 (fun _ b => b) false false).2 :=
    hcons
  rw [Conserved, hbuf] at htotal
  rw [← htotal, StreamRec.free, hfds, hex, hnone, hflight, bytes_cons, bytes_replicate, add_zero,
    add_zero, add_zero, WdsEntry.bytes, if_neg (by decide), Multiset.mem_coe,
    List.mem_range'_1] at hfirst
  have hlow : 101 ≤ 1 := hfirst.1
  omega

end SendBuffer
