import MacSSH.TelnetOctets

/-! The parser and the octet machine. Between two turns the parser stands where the
machine stands, up to what is pending; a turn reads some octets. -/
namespace Telnet

namespace Scan

/-- The octet machine in the place of the parser in the middle of a packet. -/
def reader (s : Scan) : Reader :=
  match s.tw.telstate with
  | .norm => ⟨s.tw.deliver s.pend, .clear⟩
  | .escfound | .gs => ⟨s.tw, if s.pend = [] then .clear else .escape⟩
  | _ => ⟨s.tw, .clear⟩

/-- What can be pending between two turns. -/
def Aligned (s : Scan) : Prop :=
  match s.tw.telstate with
  | .norm => s.rest = [] → s.pend = []
  | .escfound => s.pend = [] ∨ s.pend = [ESC] ∧ holdsEscape s.rest
  | .gs => s.pend = [] ∨ s.pend = [GS]
  | _ => True

/-- Parsing on from `s` and from `s'` is the same for the octet machine. -/
structure Continues (h : Host) (s s' : Scan) : Prop where
  screen : ScreenOnly h s'.tw
  aligned : s'.Aligned
  overread : s'.overread = s.overread
  read : s'.reader.read h.plugin s'.rest = s.reader.read h.plugin s.rest

end Scan

section Turns
variable {h : Host} {s : Scan}

theorem passOn_screen (hv : ScreenOnly h s.tw) (data rest : List UInt8) :
    s.passOn h data rest = { s with tw := s.tw.deliver data, rest := rest } := by
  unfold Scan.passOn
  cases ht : s.tw.timing
  · rw [if_neg (by simp), WindRec.deliver_of_not_timing ht, hv.termstate]
  · rw [if_pos rfl, WindRec.deliver_of_timing ht]

theorem reader_norm (hn : s.tw.telstate = .norm) : s.reader = ⟨s.tw.deliver s.pend, .clear⟩ := by
  simp [Scan.reader, hn]

/-- Reading on after the `ESC` of this packet, which is passed on. -/
theorem read_escape {pl : Plugin} {tw : WindRec} {c : UInt8} {r : List UInt8}
    (hn : tw.telstate = .norm) (hc : c ≠ FF) (hc' : c ≠ 94) :
    Reader.read pl ⟨{ tw with telstate := .escfound }, .escape⟩ (c :: r) =
      Reader.read pl ⟨tw.deliver [ESC], .clear⟩ (c :: r) := by
  have hd : (tw.deliver [ESC]).telstate = .norm := hn
  have he : Reader.escaped ⟨{ tw with telstate := .escfound }, .escape⟩ c = tw.deliver [ESC] := by
    have hgs : TelState.escfound ≠ .gs := by simp
    simp only [Reader.escaped, ne_eq, not_true_eq_false, if_false, if_neg hgs, if_neg hc]
    rw [← hn]
    rfl
  rw [Reader.read, Reader.read, List.foldl_cons, List.foldl_cons, step_norm hd]
  refine congrArg (fun x => List.foldl (Reader.step pl) x r) ?_
  simp only [Reader.step, reduceCtorEq, false_or, if_neg hc']
  rw [he]

/-- A control octet among data, once the data before it is delivered. -/
theorem interesting_continues {c : UInt8} {r : List UInt8} (hv : ScreenOnly h s.tw)
    (hn : s.tw.telstate = .norm) (hr : s.rest = c :: r)
    (hc : (c = TEL_IAC ∧ s.tw.cfg.protocol = 0) ∨ c = ESC ∨ c = GS) :
    ScreenOnly h s.interesting.tw ∧ s.interesting.Aligned ∧ s.interesting.rest = r ∧
      s.interesting.overread = s.overread ∧
      s.interesting.reader.read h.plugin r = Reader.read h.plugin ⟨s.tw, .clear⟩ (c :: r) := by
  have hstep : Reader.read h.plugin ⟨s.tw, .clear⟩ (c :: r) =
      Reader.read h.plugin (Reader.plain s.tw c) r := by
    rw [Reader.read, List.foldl_cons, step_norm hn]
    rfl
  rw [hstep]
  rcases hc with ⟨rfl, hp⟩ | rfl | rfl
  · have hi : s.interesting =
        { s with tw := { s.tw with telstate := .iacfound }, pend := [TEL_IAC], rest := r } := by
      simp only [Scan.interesting, hr, if_pos, hp]
    have hd : Reader.plain s.tw TEL_IAC = ⟨{ s.tw with telstate := .iacfound }, .clear⟩ := by
      rw [Reader.plain, if_pos ⟨rfl, hp⟩]
    rw [hi, hd]
    exact ⟨⟨hv.tektype, hv.termstate, hv.decrypt⟩, trivial, rfl, rfl, rfl⟩
  · have ho : s.tw.cfg.octet ESC = ESC := by
      unfold Config.octet
      split <;> rfl
    have hd : Reader.plain s.tw ESC = ⟨{ s.tw with telstate := .escfound }, .escape⟩ := by
      rw [Reader.plain, if_neg (by simp), if_pos ho]
    rw [hd]
    by_cases hh : Scan.holdsEscape r
    · have hi : s.interesting =
          { s with tw := { s.tw with telstate := .escfound }, pend := [ESC], rest := r } := by
        simp [Scan.interesting, hr, hh]
      rw [hi]
      exact ⟨⟨hv.tektype, hv.termstate, hv.decrypt⟩, .inr ⟨rfl, hh⟩, rfl, rfl, rfl⟩
    · -- the `ESC` stays pending and goes out with the data behind it
      have hi : s.interesting = { s with pend := [ESC], rest := r } := by
        simp [Scan.interesting, hr, hh]
      rw [hi]
      cases r with
      | nil => exact absurd rfl hh
      | cons x r =>
        simp only [Scan.holdsEscape, decide_eq_true_eq, not_or] at hh
        have hrd : Scan.reader { s with pend := [ESC], rest := x :: r } =
            ⟨s.tw.deliver [ESC], .clear⟩ := reader_norm hn
        refine ⟨hv, ?_, rfl, rfl, ?_⟩
        · simp [Scan.Aligned, hn]
        · rw [hrd, read_escape hn hh.1 hh.2]
  · have ho : s.tw.cfg.octet GS = GS := by
      unfold Config.octet
      split <;> rfl
    have hd : Reader.plain s.tw GS = ⟨{ s.tw with telstate := .gs }, .escape⟩ := by
      rw [Reader.plain, if_neg (by simp), ho, if_neg (by decide), if_pos rfl]
    have hi : s.interesting =
        { s with tw := { s.tw with telstate := .gs }, pend := [GS], rest := r } := by
      simp [Scan.interesting, hr]
    rw [hi, hd]
    exact ⟨⟨hv.tektype, hv.termstate, hv.decrypt⟩, .inr rfl, rfl, rfl, rfl⟩

/-- The quick scan and the interesting octet behind it. -/
theorem data_continues (hv : ScreenOnly h s.tw) (hn : s.tw.telstate = .norm) :
    Scan.Continues h s (s.data h) ∧ (s.data h).rest.length ≤ s.rest.length - 1 := by
  have hq := quickScan_read h.plugin s.rest s.pend hn
  rw [← reader_norm hn] at hq
  unfold Scan.data
  simp only [passOn_screen hv]
  cases hs : (quickScan s.tw.cfg s.rest).2 with
  | nil =>
    rw [hs] at hq
    have hd : (s.tw.deliver (s.pend ++ (quickScan s.tw.cfg s.rest).1)).telstate = .norm := hn
    refine ⟨⟨⟨hv.tektype, hv.termstate, hv.decrypt⟩, ?_, rfl, ?_⟩, by simp [Scan.interesting]⟩
    · simp [Scan.interesting, Scan.Aligned, hd]
    · rw [hq]
      simp [Scan.interesting, Scan.reader, hd]
  | cons c r =>
    rw [hs] at hq
    obtain ⟨hc, hl⟩ := quickScan_stop s.tw.cfg s.rest r hs
    obtain ⟨h1, h2, h3, h5, h6⟩ := interesting_continues
      (s := { s with
        tw := s.tw.deliver (s.pend ++ (quickScan s.tw.cfg s.rest).1)
        rest := c :: r }) ⟨hv.tektype, hv.termstate, hv.decrypt⟩ hn rfl hc
    refine ⟨⟨h1, h2, h5, ?_⟩, ?_⟩
    · rw [h3, h6, ← hq]
    · rw [h3]
      omega

/-- After the switch, the quick scan follows when the parser is back to data. -/
theorem settle_continues {s' : Scan} (hv : ScreenOnly h s'.tw)
    (ha : s'.tw.telstate ≠ .norm → s'.Aligned)
    (ho : s'.overread = s.overread)
    (hr : s'.reader.read h.plugin s'.rest = s.reader.read h.plugin s.rest)
    (hl : s'.rest.length < s.rest.length ∨
      s'.tw.telstate = .norm ∧ s'.rest = s.rest ∧ s.rest ≠ []) :
    Scan.Continues h s (if s'.tw.telstate = .norm then s'.data h else s') ∧
      (if s'.tw.telstate = .norm then s'.data h else s').rest.length < s.rest.length := by
  split
  · rename_i hn
    obtain ⟨hc, hlen⟩ := data_continues hv hn
    refine ⟨⟨hc.screen, hc.aligned, hc.overread.trans ho, hc.read.trans hr⟩, ?_⟩
    rcases hl with hl | ⟨-, hl, hne⟩
    · omega
    · have hpos := List.length_pos_iff.2 hne
      rw [hl] at hlen
      omega
  · rename_i hn
    refine ⟨⟨hv, ha hn, ho, hr⟩, ?_⟩
    rcases hl with hl | ⟨hn', -⟩
    · exact hl
    · exact absurd hn' hn

theorem reader_clear (hp : s.pend = []) : s.reader = ⟨s.tw, .clear⟩ := by
  unfold Scan.reader
  split <;> simp [hp]

theorem aligned_clear (hp : s.pend = []) : s.Aligned := by
  unfold Scan.Aligned
  split <;> simp [hp]

theorem reader_sub (hs : s.tw.telstate = .sb) : s.reader = ⟨s.tw, .clear⟩ := by
  simp [Scan.reader, hs]

theorem aligned_sub (hs : s.tw.telstate = .sb) : s.Aligned := by
  simp [Scan.Aligned, hs]

theorem process_screen (hv : ScreenOnly h s.tw) (r : List UInt8) (tw : WindRec) :
    tw.process_suboption h.plugin r = (tw.processed h.plugin, r) := by
  have hnd : (WindRec.suboption h.plugin (tw.logged .processed)).2 = false := by
    unfold WindRec.suboption
    split_ifs <;> first | rfl | skip
    unfold WindRec.encrypt_suboption
    split_ifs
    · rfl
    · simp only
      split
      · rfl
      · exact hv.decrypt ..
  simp only [WindRec.process_suboption, hnd]
  rfl

/-- An `ESC` or `GS` is resolved by the octet behind it. -/
theorem escape_continues {c : UInt8} {r : List UInt8} (beyond : UInt8) (hv : ScreenOnly h s.tw)
    (ha : s.Aligned) (hr : s.rest = c :: r) (h94 : c ≠ 94)
    (he : s.tw.telstate = .escfound ∨ s.tw.telstate = .gs) :
    Scan.Continues h s (s.turn h beyond) ∧ (s.turn h beyond).rest.length < s.rest.length := by
  have hrd : s.reader = ⟨s.tw, if s.pend = [] then .clear else .escape⟩ := by
    rcases he with he | he <;> simp [Scan.reader, he]
  have hlook : s.reader.look ≠ .raster := by
    rw [hrd]
    simp only
    split <;> simp
  -- the switch sends the missing ESC and leaves what is pending
  have hd : s.dispatch h beyond c r = { s with tw := { s.tw.sendESC with telstate := .norm } } := by
    have hesc : s.afterEscape h c r = { s with tw := { s.tw.sendESC with telstate := .norm } } := by
      have ht : ¬ (0 ≤ s.tw.cfg.tektype ∧ (c = FF ∨ s.tw.telstate = .gs)) := by
        have := hv.tektype
        omega
      rw [Scan.afterEscape, if_neg ht, if_neg h94]
    rcases he with he | he <;> simp only [Scan.dispatch, he] <;> exact hesc
  have hescaped : Reader.escaped s.reader c =
      { s.tw.sendESC with telstate := .norm }.deliver s.pend := by
    rw [hrd, Reader.escaped]
    unfold Scan.Aligned at ha
    rcases he with he | he
    · rw [he] at ha
      rcases ha with hp | ⟨hp, hh⟩
      · simp [hp]
      · -- held back in this packet for a form feed
        rw [hr] at hh
        simp only [Scan.holdsEscape, decide_eq_true_eq] at hh
        have hff : c = FF := hh.resolve_right h94
        simp [hp, hff, he]
        rfl
    · rw [he] at ha
      rcases ha with hp | hp
      · simp [hp]
      · simp [hp, he]
        rfl
  have hturn : s.turn h beyond =
      if (s.dispatch h beyond c r).tw.telstate = .norm then (s.dispatch h beyond c r).data h
      else s.dispatch h beyond c r := by
    simp [Scan.turn, hr]
  have hs' : Scan.reader { s with tw := { s.tw.sendESC with telstate := .norm } } =
      ⟨{ s.tw.sendESC with telstate := .norm }.deliver s.pend, .clear⟩ := reader_norm rfl
  have hcfg : s.tw.sendESC.cfg = s.tw.cfg := by
    unfold WindRec.sendESC
    split <;> rfl
  rw [hturn, hd]
  refine settle_continues ?_ (fun hn => absurd rfl hn) rfl ?_ (.inr ⟨rfl, rfl, ?_⟩)
  · refine ⟨?_, ?_, hv.decrypt⟩
    · simp only [hcfg]
      exact hv.tektype
    · simp [WindRec.sendESC, hv.termstate, WindRec.vswrite]
  · rw [hs', hr, ← hescaped, Reader.read, Reader.read, List.foldl_cons, List.foldl_cons]
    refine congrArg (fun x => List.foldl (Reader.step h.plugin) x r) ?_
    rw [step_norm (by rw [hescaped]; rfl)]
    have htel : s.reader.tw.telstate = s.tw.telstate := by rw [hrd]
    rcases he with he | he <;> simp only [Reader.step, htel, he, hlook, h94, or_self, if_false]
  · simp [hr]

/-- The switch reads one octet. -/
theorem switch_continues {c : UInt8} (beyond : UInt8) (s' : Scan)
    (hr : s.rest = c :: s'.rest) (hd : s.dispatch h beyond c s'.rest = s')
    (hstep : s'.reader = s.reader.step h.plugin c) (hv : ScreenOnly h s'.tw)
    (ha : s'.tw.telstate ≠ .norm → s'.Aligned) (ho : s'.overread = s.overread) :
    Scan.Continues h s (s.turn h beyond) ∧ (s.turn h beyond).rest.length < s.rest.length := by
  have hturn : s.turn h beyond = if s'.tw.telstate = .norm then s'.data h else s' := by
    rw [← hd]
    simp [Scan.turn, hr]
  rw [hturn]
  refine settle_continues hv ha ho ?_ (.inl (by simp [hr]))
  rw [hstep, hr, Reader.read, Reader.read, List.foldl_cons]

/-- An option command is answered. -/
theorem option_continues {c : UInt8} {r : List UInt8} (beyond : UInt8) (verb : Verb)
    (hv : ScreenOnly h s.tw) (hr : s.rest = c :: r)
    (hd : s.dispatch h beyond c r =
      { s with tw := { s.tw.answer verb c with telstate := .norm }, pend := [], rest := r })
    (hstep : s.reader.step h.plugin c = ⟨{ s.tw.answer verb c with telstate := .norm }, .clear⟩) :
    Scan.Continues h s (s.turn h beyond) ∧ (s.turn h beyond).rest.length < s.rest.length := by
  have hread := s.tw.answer_reading verb c
  have hcfg : (s.tw.answer verb c).cfg = s.tw.cfg := WindRec.cfg_of_reading hread
  have hterm : (s.tw.answer verb c).termstate = s.tw.termstate :=
    WindRec.termstate_of_reading hread
  refine switch_continues beyond
    { s with tw := { s.tw.answer verb c with telstate := .norm }, pend := [], rest := r }
    hr hd ?_ ⟨?_, ?_, hv.decrypt⟩ (fun _ => aligned_clear rfl) rfl
  · rw [hstep]
    exact reader_clear rfl
  · rw [hcfg]
    exact hv.tektype
  · rw [hterm]
    exact hv.termstate

/-- The octet after an `IAC` among data. -/
theorem command_continues {c : UInt8} {r : List UInt8} (beyond : UInt8) (hv : ScreenOnly h s.tw)
    (hr : s.rest = c :: r) (hs : s.tw.telstate = .iacfound) :
    Scan.Continues h s (s.turn h beyond) ∧ (s.turn h beyond).rest.length < s.rest.length := by
  have hrd : s.reader = ⟨s.tw, .clear⟩ := by simp [Scan.reader, hs]
  have hdisp : s.dispatch h beyond c r = s.afterIAC c r := by simp only [Scan.dispatch, hs]
  by_cases hc : c = TEL_IAC
  · -- a doubled IAC is data
    refine switch_continues beyond
      { s with tw := { s.tw with telstate := .norm }, pend := [c], rest := r }
      hr ?_ ?_ ⟨hv.tektype, hv.termstate, hv.decrypt⟩ (fun hn => absurd rfl hn) rfl
    · rw [hdisp, Scan.afterIAC, if_pos hc]
    · rw [hrd]
      simp only [Reader.step, hs, if_pos hc]
      exact reader_norm rfl
  · have hcfg : (s.tw.command c).cfg = s.tw.cfg := by
      unfold WindRec.command
      split_ifs <;> rfl
    have hterm : (s.tw.command c).termstate = s.tw.termstate := by
      unfold WindRec.command
      split_ifs <;> rfl
    refine switch_continues beyond { s with tw := s.tw.command c, pend := [], rest := r }
      hr ?_ ?_ ⟨?_, ?_, hv.decrypt⟩ (fun _ => aligned_clear rfl) rfl
    · rw [hdisp, Scan.afterIAC, if_neg hc]
    · rw [hrd]
      simp only [Reader.step, hs, if_neg hc]
      exact reader_clear rfl
    · rw [hcfg]
      exact hv.tektype
    · rw [hterm]
      exact hv.termstate

/-- An `IAC` in a suboption and the octet behind it. -/
theorem subIAC_continues {c : UInt8} {r : List UInt8} (beyond : UInt8) (hv : ScreenOnly h s.tw)
    (hr : s.rest = TEL_IAC :: c :: r) (hs : s.tw.telstate = .sb) :
    Scan.Continues h s (s.turn h beyond) ∧ (s.turn h beyond).rest.length < s.rest.length := by
  have hrd : s.reader = ⟨s.tw, .clear⟩ := reader_sub hs
  have hread : s.reader.read h.plugin s.rest =
      Reader.read h.plugin ⟨Reader.afterSubIAC h.plugin s.tw c, .clear⟩ r := by
    rw [hrd, hr, Reader.read, List.foldl_cons, List.foldl_cons]
    simp [Reader.step, hs, Reader.read]
  have hturn (s' : Scan) (hd : s.inSuboption h beyond TEL_IAC (c :: r) = s') :
      s.turn h beyond = if s'.tw.telstate = .norm then s'.data h else s' := by
    simp only [Scan.turn, hr, Scan.dispatch, hs, hd]
  by_cases hse : c = TEL_SE
  · -- the suboption ends
    rw [hturn (s.endSuboption h r) (by simp [Scan.inSuboption, hse])]
    have hend : s.endSuboption h r =
        { s with
          tw := { (s.tw.processed h.plugin).logged .ended with telstate := .norm }
          pend := []
          rest := r } := by
      simp only [Scan.endSuboption, process_screen hv]
    have hrd' : (s.endSuboption h r).reader = ⟨Reader.afterSubIAC h.plugin s.tw c, .clear⟩ := by
      rw [hend, Reader.afterSubIAC, if_pos hse]
      exact reader_clear rfl
    have hcfg : (s.endSuboption h r).tw.cfg = s.tw.cfg := by
      rw [hend]
      exact processed_cfg
    have hterm : (s.endSuboption h r).tw.termstate = s.tw.termstate := by
      rw [hend]
      exact processed_termstate
    have hrest : (s.endSuboption h r).rest = r := by rw [hend]
    refine settle_continues ⟨?_, ?_, hv.decrypt⟩ ?_ ?_ ?_ (.inl ?_)
    · rw [hcfg]
      exact hv.tektype
    · rw [hterm]
      exact hv.termstate
    · intro _
      apply aligned_clear
      rw [hend]
    · rw [hend]
    · rw [hrd', hread, hrest]
    · rw [hrest, hr, List.length_cons, List.length_cons]
      omega
  by_cases hc : c = TEL_IAC
  · -- a doubled IAC is a byte of the suboption
    rw [hturn { s with tw := s.tw.store c, pend := s.pend ++ [TEL_IAC, c], rest := r }
      (by simp [Scan.inSuboption, hc])]
    have hrd' :
        Scan.reader { s with tw := s.tw.store c, pend := s.pend ++ [TEL_IAC, c], rest := r } =
        ⟨s.tw.store c, .clear⟩ := reader_sub hs
    refine settle_continues ⟨hv.tektype, hv.termstate, hv.decrypt⟩ (fun _ => aligned_sub hs) rfl
      ?_ (.inl ?_)
    · rw [hrd', hread, Reader.afterSubIAC, if_neg hse, if_pos hc]
    · simp only [hr, List.length_cons]
      omega
  · -- processed too early; the octet is read again as a byte of the suboption
    have hbad : s.badSuboption h c (c :: r) =
        { s with
          tw := s.tw.processedEarly h.plugin c
          pend := s.pend ++ [TEL_IAC]
          rest := c :: r } := by
      simp only [Scan.badSuboption, process_screen hv]
      rfl
    rw [hturn (s.badSuboption h c (c :: r)) (by
      simp only [Scan.inSuboption, if_true, if_neg hse, if_neg hc]), hbad]
    have hts : (s.tw.processedEarly h.plugin c).telstate = .sb :=
      processedEarly_telstate.trans hs
    have hcfg : (s.tw.processedEarly h.plugin c).cfg = s.tw.cfg := processedEarly_cfg
    have hterm : (s.tw.processedEarly h.plugin c).termstate = s.tw.termstate :=
      processedEarly_termstate
    refine settle_continues ⟨?_, ?_, hv.decrypt⟩ (fun _ => aligned_sub hts) rfl ?_ (.inl ?_)
    · rw [hcfg]
      exact hv.tektype
    · rw [hterm]
      exact hv.termstate
    · rw [reader_sub hts, hread, Reader.afterSubIAC, if_neg hse, if_neg hc, Reader.read,
        List.foldl_cons]
      simp only [Reader.step, hts, if_neg hc]
      rfl
    · simp [hr]

/-- An octet of a suboption, with the one behind it after an `IAC`. -/
theorem sub_continues {c : UInt8} {r : List UInt8} (beyond : UInt8) (hv : ScreenOnly h s.tw)
    (hr : s.rest = c :: r) (hs : s.tw.telstate = .sb)
    (hi : ¬ (c = TEL_IAC ∧ r = [])) :
    Scan.Continues h s (s.turn h beyond) ∧ (s.turn h beyond).rest.length < s.rest.length := by
  have hrd : s.reader = ⟨s.tw, .clear⟩ := reader_sub hs
  have hdisp : s.dispatch h beyond c r = s.inSuboption h beyond c r := by
    simp only [Scan.dispatch, hs]
  by_cases hc : c = TEL_IAC
  · match r, hi with
    | [], hi => exact absurd ⟨hc, rfl⟩ hi
    | x :: r, _ => exact subIAC_continues beyond hv (hc ▸ hr) hs
  · refine switch_continues beyond { s with tw := s.tw.store c, pend := s.pend ++ [c], rest := r }
      hr ?_ ?_ ⟨hv.tektype, hv.termstate, hv.decrypt⟩ (fun _ => aligned_sub hs) rfl
    · rw [hdisp]
      unfold Scan.inSuboption
      rw [if_neg hc]
    · rw [hrd]
      simp only [Reader.step, hs, if_neg hc]
      exact reader_sub hs

/-- One turn of the parser is as many octets of the machine, unless the packet ends
behind an `IAC` of a suboption or the parser turns to raster graphics. -/
theorem turn_continues {c : UInt8} {r : List UInt8} (beyond : UInt8) (hv : ScreenOnly h s.tw)
    (ha : s.Aligned) (hr : s.rest = c :: r)
    (h94 : ¬ ((s.tw.telstate = .escfound ∨ s.tw.telstate = .gs) ∧ c = 94))
    (hi : ¬ (s.tw.telstate = .sb ∧ c = TEL_IAC ∧ r = [])) :
    Scan.Continues h s (s.turn h beyond) ∧ (s.turn h beyond).rest.length < s.rest.length := by
  cases ht : s.tw.telstate with
  | norm =>
    have hturn : s.turn h beyond = if s.tw.telstate = .norm then s.data h else s := by
      simp [Scan.turn, hr, Scan.dispatch, ht]
    rw [hturn]
    exact settle_continues hv (fun _ => ha) rfl rfl (.inr ⟨ht, rfl, by simp [hr]⟩)
  | escfound => exact escape_continues beyond hv ha hr (fun hc => h94 ⟨.inl ht, hc⟩) (.inl ht)
  | gs => exact escape_continues beyond hv ha hr (fun hc => h94 ⟨.inr ht, hc⟩) (.inr ht)
  | iacfound => exact command_continues beyond hv hr ht
  | sb => exact sub_continues beyond hv hr ht fun hc => hi ⟨ht, hc⟩
  | «do» =>
    have hrd : s.reader = ⟨s.tw, .clear⟩ := by simp [Scan.reader, ht]
    apply option_continues beyond .do hv hr
    · simp only [Scan.dispatch, ht, WindRec.answer]
    · rw [hrd]
      simp only [Reader.step, ht, WindRec.answer]
  | dont =>
    have hrd : s.reader = ⟨s.tw, .clear⟩ := by simp [Scan.reader, ht]
    apply option_continues beyond .dont hv hr
    · simp only [Scan.dispatch, ht, WindRec.answer]
    · rw [hrd]
      simp only [Reader.step, ht, WindRec.answer]
  | will =>
    have hrd : s.reader = ⟨s.tw, .clear⟩ := by simp [Scan.reader, ht]
    apply option_continues beyond .will hv hr
    · simp only [Scan.dispatch, ht, WindRec.answer]
    · rw [hrd]
      simp only [Reader.step, ht, WindRec.answer]
  | wont =>
    have hrd : s.reader = ⟨s.tw, .clear⟩ := by simp [Scan.reader, ht]
    apply option_continues beyond .wont hv hr
    · simp only [Scan.dispatch, ht, WindRec.answer]
    · rw [hrd]
      simp only [Reader.step, ht, WindRec.answer]

theorem data_nil (hr : s.rest = []) (hv : ScreenOnly h s.tw) :
    (s.data h).overread = s.overread ∧ (s.data h).rest = [] := by
  unfold Scan.data
  simp only [passOn_screen hv, hr, quickScan]
  exact ⟨rfl, rfl⟩

theorem ScreenOnly.processed {tw : WindRec} (hv : ScreenOnly h tw) :
    ScreenOnly h (tw.processed h.plugin) := by
  refine ⟨?_, ?_, hv.decrypt⟩
  · rw [processed_cfg]
    exact hv.tektype
  · rw [processed_termstate]
    exact hv.termstate

theorem ScreenOnly.store {tw : WindRec} (hv : ScreenOnly h tw) (c : UInt8) :
    ScreenOnly h (tw.store c) := ⟨hv.tektype, hv.termstate, hv.decrypt⟩

theorem overread_sub (beyond : UInt8) (hv : ScreenOnly h s.tw) :
    (s.inSuboption h beyond TEL_IAC []).overread = true ∧
      (s.inSuboption h beyond TEL_IAC []).rest = [] ∧
      ScreenOnly h (s.inSuboption h beyond TEL_IAC []).tw := by
  simp only [Scan.inSuboption, if_true]
  split_ifs
  · have hp := hv.processed
    simp only [Scan.endSuboption, process_screen hv, true_and]
    exact ⟨hp.tektype, hp.termstate, hp.decrypt⟩
  · exact ⟨rfl, rfl, hv.store beyond⟩
  · have hp := ((hv.store TEL_IAC).store beyond).processed
    simp only [Scan.badSuboption, process_screen hv, true_and]
    exact ⟨hp.tektype, hp.termstate, hp.decrypt⟩

/-- At the end of a packet the parser looks behind it for the octet after an `IAC`. -/
theorem overread_turn (beyond : UInt8) (hv : ScreenOnly h s.tw) (hs : s.tw.telstate = .sb)
    (hr : s.rest = [TEL_IAC]) :
    (s.turn h beyond).overread = true ∧ (s.turn h beyond).rest = [] := by
  obtain ⟨ho, hrest, hv'⟩ := overread_sub beyond hv
  simp only [Scan.turn, hr, Scan.dispatch, hs]
  split
  · obtain ⟨h1, h2⟩ := data_nil hrest hv'
    exact ⟨h1.trans ho, h2⟩
  · exact ⟨ho, hrest⟩

theorem reader_end (ha : s.Aligned) (hr : s.rest = []) :
    s.reader.tw = s.tw ∧ s.reader.look ≠ .iac ∧ s.reader.look ≠ .raster := by
  by_cases hp : s.pend = []
  · rw [reader_clear hp]
    simp
  · unfold Scan.reader
    unfold Scan.Aligned at ha
    split
    · rename_i hn
      rw [hn] at ha
      exact absurd (ha hr) hp
    · simp [hp]
    · simp [hp]
    · simp

end Turns

/-- `w` is `v`, or goes on with something else than a `GS`. -/
def NextNotGS (v w : List UInt8) : Prop := w = v ∨ ∃ c x, c ≠ GS ∧ w = v ++ c :: x

theorem NextNotGS.append {v w : List UInt8} (h : NextNotGS v w) {bytes : List UInt8}
    (hb : w = v → bytes.head? ≠ some GS) : NextNotGS v (w ++ bytes) := by
  rcases h with rfl | ⟨c, x, hc, rfl⟩
  · cases bytes with
    | nil => exact .inl (List.append_nil w)
    | cons b bytes => exact .inr ⟨b, bytes, fun h => hb rfl (by simp [h]), rfl⟩
  · refine .inr ⟨c, x ++ bytes, hc, ?_⟩
    rw [List.append_assoc, List.cons_append]

/-- The parser somewhere behind a turn to raster graphics, before which `v` had been
shown. A `GS` comes to the screen only behind an `ESC`. -/
structure Astray (v : List UInt8) (s : Scan) : Prop where
  tektype : s.tw.cfg.tektype < 0
  shown : NextNotGS v s.tw.vt
  pending : s.tw.telstate = .norm → s.pend.head? ≠ some GS

section Raster
variable {h : Host} {s : Scan} {v : List UInt8}

theorem quickScan_noGS (cfg : Config) (bytes : List UInt8) :
    (quickScan cfg bytes).1.head? ≠ some GS := by
  cases bytes with
  | nil => simp [quickScan]
  | cons c bytes =>
    unfold quickScan
    split_ifs with hi hc
    · simp
    · simp
    · rw [not_or] at hc
      simpa using hc.2

theorem passOn_astray (data rest : List UInt8) (ht : s.tw.cfg.tektype < 0)
    (hv : NextNotGS v s.tw.vt)
    (hd : s.tw.termstate ≠ .tek → s.tw.termstate ≠ .ras → s.tw.vt = v → data.head? ≠ some GS) :
    (s.passOn h data rest).tw.cfg.tektype < 0 ∧ NextNotGS v (s.passOn h data rest).tw.vt := by
  unfold Scan.passOn
  split
  · exact ⟨ht, hv⟩
  · split
    · simp only
      split <;> exact ⟨ht, hv⟩
    · simp only
      split <;> exact ⟨ht, hv⟩
    · rename_i htek hras
      exact ⟨ht, hv.append (hd htek hras)⟩

theorem interesting_astray (ht : s.tw.cfg.tektype < 0) (hv : NextNotGS v s.tw.vt) :
    Astray v s.interesting := by
  unfold Scan.interesting
  split
  · exact ⟨ht, hv, fun _ => by simp⟩
  · rename_i c r hr
    simp only
    split_ifs with h1 h2 h3 h4 h5 h6
    · exact ⟨ht, hv, fun hn => nomatch hn⟩
    · exact ⟨ht, hv, fun _ => by simp [h1]⟩
    · exact ⟨ht, hv, fun hn => nomatch hn⟩
    · exact ⟨ht, hv, fun hn => nomatch hn⟩
    · exact ⟨ht, hv, fun _ => by simp [h4]⟩
    · exact ⟨ht, hv.append fun _ => by simpa using h3, fun _ => by simpa using h3⟩
    · exact ⟨ht, hv, fun _ => by simpa using h3⟩

theorem data_astray (ht : s.tw.cfg.tektype < 0) (hv : NextNotGS v s.tw.vt)
    (hp : s.tw.termstate ≠ .tek → s.tw.termstate ≠ .ras → s.tw.vt = v →
      s.pend.head? ≠ some GS) :
    Astray v (s.data h) := by
  have hq : s.tw.termstate ≠ .tek → s.tw.termstate ≠ .ras → s.tw.vt = v →
      (s.pend ++ (quickScan s.tw.cfg s.rest).1).head? ≠ some GS := by
    intro htek hras he
    have hpend := hp htek hras he
    cases hs : s.pend with
    | nil => simpa using quickScan_noGS s.tw.cfg s.rest
    | cons c r => simpa [hs] using hpend
  have hd := passOn_astray (h := h) _ (quickScan s.tw.cfg s.rest).2 ht hv hq
  exact interesting_astray hd.1 hd.2

/-- The octet after an `ESC` or a `GS`, and the data behind it. -/
theorem escape_astray (c : UInt8) (r : List UInt8) (hs : Astray v s) :
    Astray v ((s.afterEscape h c r).data h) := by
  have ht : ¬ (0 ≤ s.tw.cfg.tektype ∧ (c = FF ∨ s.tw.telstate = .gs)) := by
    have := hs.tektype
    omega
  rw [Scan.afterEscape, if_neg ht]
  split
  · exact data_astray hs.tektype hs.shown fun _ hr => absurd rfl hr
  · unfold WindRec.sendESC
    split
    · rename_i htek
      exact data_astray hs.tektype hs.shown fun hn => absurd htek hn
    · rename_i hras
      exact data_astray hs.tektype hs.shown fun _ hn => absurd hras hn
    · -- from now on the screen shows an ESC behind `v`
      refine data_astray hs.tektype (hs.shown.append fun _ => by simp) fun _ _ hv => ?_
      have hlen := congrArg List.length hv
      rcases hs.shown with hvt | ⟨c, x, -, hvt⟩ <;> simp [WindRec.vswrite, hvt] at hlen

theorem Astray.of_eq {s' : Scan} (hs : Astray v s) (hcfg : s'.tw.cfg = s.tw.cfg)
    (hvt : s'.tw.vt = s.tw.vt) (hp : s'.tw.telstate = .norm → s'.pend.head? ≠ some GS) :
    Astray v s' := by
  refine ⟨?_, ?_, hp⟩
  · rw [hcfg]
    exact hs.tektype
  · rw [hvt]
    exact hs.shown

theorem process_reading (tw : WindRec) (pl : Plugin) (r : List UInt8) :
    (tw.process_suboption pl r).1.reading = (tw.logged .processed).reading :=
  ((tw.logged .processed).suboption_frame pl).1

theorem process_cfg (tw : WindRec) (pl : Plugin) (r : List UInt8) :
    (tw.process_suboption pl r).1.cfg = tw.cfg := congrArg Reading.cfg (process_reading tw pl r)

theorem process_vt (tw : WindRec) (pl : Plugin) (r : List UInt8) :
    (tw.process_suboption pl r).1.vt = tw.vt := congrArg Reading.vt (process_reading tw pl r)

theorem process_telstate (tw : WindRec) (pl : Plugin) (r : List UInt8) :
    (tw.process_suboption pl r).1.telstate = tw.telstate :=
  congrArg Reading.telstate (process_reading tw pl r)

/-- A turn in a suboption leaves the screen alone. -/
theorem sub_astray (beyond c : UInt8) (r : List UInt8) (hs : Astray v s)
    (ht : s.tw.telstate = .sb) : Astray v (s.inSuboption h beyond c r) := by
  have hsub {o : Bool} {x : UInt8} {p y : List UInt8} :
      Astray v { tw := s.tw.store x, pend := p, rest := y, overread := o } :=
    hs.of_eq rfl rfl fun hn => by simp [store_telstate, ht] at hn
  have hend {o : Bool} {y : List UInt8} :
      Astray v (Scan.endSuboption h { s with overread := o } y) := by
    exact hs.of_eq (process_cfg ..) (process_vt ..) fun _ => by simp [Scan.endSuboption]
  have hbad {o : Bool} {x : UInt8} {y : List UInt8} :
      Astray v (Scan.badSuboption h { s with overread := o } x y) := by
    have hts : ((s.tw.store TEL_IAC).store x).telstate = .sb :=
      (store_telstate.trans store_telstate).trans ht
    apply hs.of_eq
    · exact (process_cfg _ h.plugin y).trans (store_cfg.trans store_cfg)
    · exact (process_vt _ h.plugin y).trans (store_vt.trans store_vt)
    · intro hn
      rw [Scan.badSuboption, process_telstate, hts] at hn
      cases hn
  unfold Scan.inSuboption
  split
  · split
    · split_ifs
      · exact hend
      · exact hsub
      · exact hbad
    · simp only
      split_ifs
      · exact hend
      · exact hsub
      · exact hbad
  · exact hsub

/-- The switch, where it meets no `ESC` or `GS`. -/
theorem dispatch_astray (beyond c : UInt8) (r : List UInt8) (hs : Astray v s)
    (hn : s.tw.telstate ≠ .escfound) (hg : s.tw.telstate ≠ .gs) :
    Astray v (s.dispatch h beyond c r) := by
  have hanswer (verb : Verb) : Astray v
      { s with tw := { s.tw.answer verb c with telstate := .norm }, pend := [], rest := r } := by
    have hr := s.tw.answer_reading verb c
    have hcfg : (s.tw.answer verb c).cfg = s.tw.cfg := WindRec.cfg_of_reading hr
    have hvt : (s.tw.answer verb c).vt = s.tw.vt := WindRec.vt_of_reading hr
    exact hs.of_eq hcfg hvt fun _ => by simp
  unfold Scan.dispatch
  cases ht : s.tw.telstate with
  | norm => exact hs
  | gs => exact absurd ht hg
  | escfound => exact absurd ht hn
  | iacfound =>
    simp only [Scan.afterIAC]
    split
    · rename_i hc
      exact hs.of_eq rfl rfl fun _ => by simp [hc]
    · refine hs.of_eq ?_ ?_ fun _ => by simp
      · simp only [WindRec.command]
        split_ifs <;> rfl
      · simp only [WindRec.command]
        split_ifs <;> rfl
  | «do» => exact hanswer .do
  | dont => exact hanswer .dont
  | will => exact hanswer .will
  | wont => exact hanswer .wont
  | sb => exact sub_astray beyond c r hs ht

theorem turn_astray (beyond : UInt8) (hs : Astray v s) : Astray v (s.turn h beyond) := by
  unfold Scan.turn
  split
  · exact hs
  · rename_i c r hr
    simp only
    by_cases he : s.tw.telstate = .escfound ∨ s.tw.telstate = .gs
    · have hd : s.dispatch h beyond c r = s.afterEscape h c r := by
        rcases he with he | he <;> simp only [Scan.dispatch, he]
      rw [hd]
      have hnorm : (s.afterEscape h c r).tw.telstate = .norm := by
        have ht : ¬ (0 ≤ s.tw.cfg.tektype ∧ (c = FF ∨ s.tw.telstate = .gs)) := by
          have := hs.tektype
          omega
        rw [Scan.afterEscape, if_neg ht]
        split <;> rfl
      rw [if_pos hnorm]
      exact escape_astray c r hs
    · rw [not_or] at he
      have hd := dispatch_astray (h := h) beyond c r hs he.1 he.2
      split
      · rename_i hn
        exact data_astray hd.tektype hd.shown fun _ _ _ => hd.pending hn
      · exact hd

theorem loop_astray (beyond : UInt8) (fuel : ℕ) (hs : Astray v s) :
    Astray v (Scan.loop h beyond fuel s) := by
  induction fuel generalizing s with
  | zero => exact hs
  | succ fuel ih =>
    unfold Scan.loop
    split
    · exact hs
    · exact ih (turn_astray beyond hs)

end Raster

section Turns
variable {h : Host} {s : Scan}

/-- What the parser has done with a packet, `s` being where it stopped: it looked
behind the packet if this ends with an undecided `IAC` of a suboption; it turned to
raster graphics, and did not go on with a `GS`; or else the window is that of the
machine. -/
def ReadsAs (s : Scan) (r : Reader) (overread : Bool) : Prop :=
  match r.look with
  | .iac => s.overread = true
  | .raster => NextNotGS r.tw.vt s.tw.vt
  | _ => s.overread = overread ∧ s.tw = r.tw

theorem readsAs_self {r : Reader} (hi : r.look ≠ .iac) (hr : r.look ≠ .raster) {overread : Bool} :
    ReadsAs s r overread ↔ s.overread = overread ∧ s.tw = r.tw := by
  unfold ReadsAs
  cases hl : r.look <;> simp_all

/-- Behind the turn to raster graphics the machine stands still. -/
theorem read_raster {pl : Plugin} {r : Reader} (hl : r.look = .raster)
    (he : r.tw.telstate = .escfound ∨ r.tw.telstate = .gs) (bytes : List UInt8) :
    r.read pl bytes = r := by
  induction bytes with
  | nil => rfl
  | cons c bytes ih =>
    have hstep : r.step pl c = r := by
      have hr : (⟨r.tw, .raster⟩ : Reader) = r := by rw [← hl]
      rcases he with he | he <;> simp only [Reader.step, he, hl, true_or, if_true, hr]
    rw [Reader.read, List.foldl_cons, hstep]
    exact ih

/-- The parser does with a packet what the machine does with its octets. -/
theorem loop_octets (beyond : UInt8) (fuel : ℕ) (hf : s.rest.length ≤ fuel)
    (hv : ScreenOnly h s.tw) (ha : s.Aligned) :
    ReadsAs (Scan.loop h beyond fuel s) (s.reader.read h.plugin s.rest) s.overread := by
  induction fuel generalizing s with
  | zero =>
    have hr : s.rest = [] := List.length_eq_zero_iff.1 (Nat.le_zero.1 hf)
    obtain ⟨htw, hlook, hlook'⟩ := reader_end ha hr
    rw [hr]
    exact (readsAs_self hlook hlook').2 ⟨rfl, htw.symm⟩
  | succ fuel ih =>
    by_cases hr : s.rest = []
    · obtain ⟨htw, hlook, hlook'⟩ := reader_end ha hr
      rw [Scan.loop, if_pos hr, hr]
      exact (readsAs_self hlook hlook').2 ⟨rfl, htw.symm⟩
    obtain ⟨c, r, hc⟩ := List.exists_cons_of_ne_nil hr
    by_cases h94 : (s.tw.telstate = .escfound ∨ s.tw.telstate = .gs) ∧ c = 94
    · -- the parser turns to raster graphics here
      obtain ⟨he, rfl⟩ := h94
      have htw : s.reader.tw = s.tw := by
        rcases he with he | he <;> simp [Scan.reader, he]
      have hread : s.reader.read h.plugin s.rest = ⟨s.tw, .raster⟩ := by
        rw [hc, Reader.read, List.foldl_cons]
        have hstep : s.reader.step h.plugin 94 = ⟨s.tw, .raster⟩ := by
          rcases he with he | he <;> simp [Reader.step, htw, he]
        rw [hstep]
        exact read_raster rfl he r
      have hs : Astray s.tw.vt s := by
        refine ⟨hv.tektype, .inl rfl, fun hn => ?_⟩
        rcases he with he | he <;> rw [he] at hn <;> cases hn
      rw [hread]
      exact (loop_astray beyond (fuel + 1) hs).shown
    rw [Scan.loop, if_neg hr]
    by_cases hi : s.tw.telstate = .sb ∧ c = TEL_IAC ∧ r = []
    · -- the octet that decides is not there
      obtain ⟨hs, rfl, rfl⟩ := hi
      obtain ⟨ho, hrest⟩ := overread_turn beyond hv hs hc
      have hlook : (s.reader.read h.plugin s.rest).look = .iac := by
        rw [reader_sub hs, hc]
        simp [Reader.read, Reader.step, hs]
      have hstop : Scan.loop h beyond fuel (s.turn h beyond) = s.turn h beyond := by
        cases fuel with
        | zero => rfl
        | succ fuel => rw [Scan.loop, if_pos hrest]
      rw [hstop, ReadsAs, hlook]
      exact ho
    · obtain ⟨ht, hlen⟩ := turn_continues beyond hv ha hc h94 hi
      have hloop := ih (s := s.turn h beyond) (by omega) ht.screen ht.aligned
      rw [ht.read, ht.overread] at hloop
      exact hloop

/-- A packet given to `parse` on a session that only has a screen. -/
theorem parse_octets (beyond : UInt8) (tw : WindRec) (packet : List UInt8)
    (hv : ScreenOnly h tw) :
    ReadsAs (parseScan h beyond tw packet) (Reader.read h.plugin ⟨tw, .clear⟩ packet) false := by
  have hrd : Scan.reader { tw := tw, pend := [], rest := packet, overread := false } =
      ⟨tw, .clear⟩ := reader_clear rfl
  have hdumb : tw.termstate ≠ .dumb := by simp [hv.termstate]
  have hl := loop_octets (s := { tw := tw, pend := [], rest := packet, overread := false }) beyond
    (3 * packet.length + 1) (by simp; omega) hv (aligned_clear rfl)
  rw [hrd] at hl
  rw [parseScan, if_neg hdumb]
  exact hl

end Turns

end Telnet
