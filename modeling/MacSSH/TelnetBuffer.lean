import Mathlib.Data.List.Induction
import MacSSH.TelnetParse
import MacSSH.TelnetReceived

/-! The subnegotiation buffer over whole sessions: where bytes are stored, and when a
suboption is processed. -/
namespace Telnet

/-- The size of `parsedat`. -/
@[simp] abbrev parsedatSize : ℕ := 450

/-- How far the history of the buffer has come: no suboption is open, one is open
and has `n` bytes, or it has been processed and is about to end. -/
inductive Phase where
  | idle
  | collecting (n : ℕ)
  | processed
  deriving DecidableEq, Repr

/-- The events that are in order: bytes go one behind the other into the buffer,
and a suboption is processed once, when it ends. -/
def Phase.next : Phase → SubEvent → Option Phase
  | .idle, .opened => some (.collecting 0)
  | .collecting n, .stored i =>
    if i = n ∧ n < parsedatSize then some (.collecting (n + 1)) else none
  | .collecting _, .processed => some .processed
  | .processed, .ended => some .idle
  | _, _ => none

/-- The phase a history leads to, if its events are in order. -/
def history (log : List SubEvent) : Option Phase :=
  log.foldl (fun phase event => phase.bind (·.next event)) (some .idle)

/-- The window's history is in order, up to where the parser stands. -/
def InOrder (tw : WindRec) : Prop :=
  history tw.sublog =
    some (if tw.telstate = .sb then .collecting tw.parseIndex else .idle)

/-- The packets begin with a suboption of these octets, up to its `IAC SE` where it is `ended`,
else up to the end of the stream. Each `IAC` of it is doubled, both in one packet. -/
inductive Suboption : Bool → List UInt8 → List (List UInt8) → Prop
  | ended (r : List UInt8) (packets : List (List UInt8)) :
    Suboption true [] ((TEL_IAC :: TEL_SE :: r) :: packets)
  | octet {ended : Bool} {c : UInt8} {octets r : List UInt8} {packets : List (List UInt8)} :
    c ≠ TEL_IAC → Suboption ended octets (r :: packets) →
    Suboption ended (c :: octets) ((c :: r) :: packets)
  | iac {ended : Bool} {octets r : List UInt8} {packets : List (List UInt8)} :
    Suboption ended octets (r :: packets) →
    Suboption ended (TEL_IAC :: octets) ((TEL_IAC :: TEL_IAC :: r) :: packets)
  | next {ended : Bool} {octets : List UInt8} {packets : List (List UInt8)} :
    Suboption ended octets packets → Suboption ended octets ([] :: packets)
  | unfinished : Suboption false [] []

/-- The stream goes on with a suboption for which the buffer has room, and which is not cut
short when it is over. -/
def Fits (pl : Plugin) (lineAllow : Bool) (packets : List (List UInt8)) : Prop :=
  ∃ ended octets, Suboption ended octets packets ∧ octets.length ≤ parsedatSize ∧
    (ended → Complete pl lineAllow octets)

/-- Where the next turn opens a suboption, it fits. -/
def OpensFine (pl : Plugin) (s : Scan) (packets : List (List UInt8)) : Prop :=
  s.tw.telstate = .iacfound → ∀ r, s.rest = TEL_SB :: r →
    Fits pl s.tw.cfg.lineAllow (r :: packets)

/-- The states of a session with the packets still to come: a packet arrives, and the parser
makes its turns. The suboptions that are opened fit. -/
inductive Reached (h : Host) : Scan → List (List UInt8) → Prop
  | start (tw : WindRec) (packets : List (List UInt8)) : tw.sublog = [] → tw.telstate ≠ .sb →
    Reached h { tw := tw, pend := [], rest := [], overread := false } packets
  | packet {s : Scan} {bytes : List UInt8} {packets : List (List UInt8)} :
    Reached h s (bytes :: packets) → s.rest = [] → s.tw.termstate ≠ .dumb →
    Reached h { tw := s.tw, pend := [], rest := bytes, overread := false } packets
  | raw {s : Scan} {bytes : List UInt8} {packets : List (List UInt8)} :
    Reached h s (bytes :: packets) → s.rest = [] → s.tw.termstate = .dumb →
    Reached h { tw := bytes.foldl WindRec.rawByte s.tw, pend := [], rest := [], overread := false }
      packets
  | turn {s : Scan} {packets : List (List UInt8)} (beyond : UInt8) : Reached h s packets →
    s.rest ≠ [] → OpensFine h.plugin s packets → Reached h (s.turn h beyond) packets

/-- What a turn of the parser may do to the buffer: every byte stored lies in it, a
suboption is processed exactly once, when it ends, and from its own bytes. -/
structure TurnSafe (h : Host) (beyond : UInt8) (s : Scan) : Prop where
  inBuffer : ∀ i, .stored i ∈ (s.turn h beyond).tw.sublog → i < parsedatSize
  once : ∃ phase, history (s.turn h beyond).tw.sublog = some phase ∧ phase ≠ .processed
  ownBytes : (s.turn h beyond).tw.sublog.count .processed ≠ s.tw.sublog.count .processed →
    s.tw.UsesReceived h.plugin

section History
variable {log : List SubEvent} {phase : Phase}

theorem history_append (e : SubEvent) :
    history (log ++ [e]) = (history log).bind (·.next e) := by
  rw [history, List.foldl_append]
  rfl

/-- In an orderly history every byte lies in the buffer. -/
theorem history_stored (h : history log = some phase) :
    ∀ i, .stored i ∈ log → i < parsedatSize := by
  induction log using List.reverseRecOn generalizing phase with
  | nil => simp
  | append_singleton log e ih =>
    intro i hi
    rw [history_append] at h
    obtain ⟨p, hp, he⟩ := Option.bind_eq_some_iff.1 h
    rcases List.mem_append.1 hi with hi | hi
    · exact ih hp i hi
    · obtain rfl : SubEvent.stored i = e := List.mem_singleton.1 hi
      cases p with
      | idle => simp [Phase.next] at he
      | processed => simp [Phase.next] at he
      | collecting n =>
        simp only [Phase.next] at he
        split at he
        · omega
        · cases he

end History

section Turns
variable {h : Host} {s : Scan} (beyond : UInt8)

theorem enterTek_sublog (tw : WindRec) : (tw.enterTek h).sublog = tw.sublog := by
  unfold WindRec.enterTek
  simp only
  split_ifs <;> rfl

theorem sendESC_sublog (tw : WindRec) : tw.sendESC.sublog = tw.sublog := by
  unfold WindRec.sendESC
  split <;> rfl

theorem passOn_log (data rest : List UInt8) :
    (s.passOn h data rest).tw.sublog = s.tw.sublog ∧
      (s.passOn h data rest).tw.telstate = s.tw.telstate := by
  unfold Scan.passOn
  split
  · exact ⟨rfl, rfl⟩
  · split
    · simp only
      split <;> exact ⟨rfl, rfl⟩
    · simp only
      split <;> exact ⟨rfl, rfl⟩
    · exact ⟨rfl, rfl⟩

theorem interesting_log (hs : s.tw.telstate ≠ .sb) :
    s.interesting.tw.sublog = s.tw.sublog ∧ s.interesting.tw.telstate ≠ .sb := by
  unfold Scan.interesting
  split
  · exact ⟨rfl, hs⟩
  · simp only
    split_ifs <;> first | exact ⟨rfl, hs⟩ | exact ⟨rfl, by simp⟩

theorem data_log (hs : s.tw.telstate ≠ .sb) :
    (s.data h).tw.sublog = s.tw.sublog ∧ (s.data h).tw.telstate ≠ .sb := by
  unfold Scan.data
  obtain ⟨hl, ht⟩ := passOn_log (h := h) (s := s) (s.pend ++ (quickScan s.tw.cfg s.rest).1)
    (quickScan s.tw.cfg s.rest).2
  have hi := interesting_log (ht ▸ hs)
  exact ⟨hi.1.trans hl, hi.2⟩

theorem tekEscape_log (tw : WindRec) (c : UInt8) (r : List UInt8) :
    (s.tekEscape tw c r).tw.sublog = tw.sublog ∧ (s.tekEscape tw c r).tw.telstate = .norm := by
  unfold Scan.tekEscape
  split
  · exact ⟨rfl, rfl⟩
  · split
    · exact ⟨rfl, rfl⟩
    · rename_i hn
      exact ⟨rfl, not_not.1 hn⟩

theorem afterEscape_log (c : UInt8) (r : List UInt8) :
    (s.afterEscape h c r).tw.sublog = s.tw.sublog ∧ (s.afterEscape h c r).tw.telstate = .norm := by
  unfold Scan.afterEscape
  split
  · refine ⟨(tekEscape_log ..).1.trans ?_, (tekEscape_log ..).2⟩
    split
    · exact enterTek_sublog s.tw
    · rfl
  · split
    · exact ⟨rfl, rfl⟩
    · exact ⟨sendESC_sublog s.tw, rfl⟩

section InOrder
variable {tw t : WindRec}

theorem inOrder_quiet (ht : t.telstate ≠ .sb) : InOrder t ↔ history t.sublog = some .idle := by
  rw [InOrder, if_neg ht]

theorem inOrder_collecting (ht : t.telstate = .sb) :
    InOrder t ↔ history t.sublog = some (.collecting t.parseIndex) := by
  rw [InOrder, if_pos ht]

theorem answered_inOrder (verb : Verb) (option : UInt8) (hs : tw.telstate ≠ .sb) (ho : InOrder tw) :
    InOrder { tw.answer verb option with telstate := .norm } := by
  rw [inOrder_quiet (by simp)]
  rw [inOrder_quiet hs, ← WindRec.sublog_of_reading (tw.answer_reading verb option)] at ho
  exact ho

theorem store_inOrder (c : UInt8) (hs : tw.telstate = .sb) (ho : InOrder tw)
    (hn : tw.parseIndex < parsedatSize) : InOrder (tw.store c) := by
  rw [inOrder_collecting hs] at ho
  rw [inOrder_collecting (show (tw.store c).telstate = .sb from hs)]
  change history (tw.sublog ++ [.stored tw.parseIndex]) = _
  rw [history_append, ho]
  change (if _ then _ else _) = _
  rw [if_pos ⟨rfl, hn⟩]
  rfl

theorem process_sublog (pl : Plugin) (r : List UInt8) :
    (tw.process_suboption pl r).1.sublog = tw.sublog ++ [.processed] :=
  WindRec.sublog_of_reading ((tw.logged .processed).suboption_frame pl).1

theorem end_inOrder (r : List UInt8) (hs : s.tw.telstate = .sb) (ho : InOrder s.tw) :
    InOrder (s.endSuboption h r).tw := by
  rw [inOrder_collecting hs] at ho
  rw [inOrder_quiet (show (s.endSuboption h r).tw.telstate ≠ .sb by simp [Scan.endSuboption])]
  change history ((s.tw.process_suboption h.plugin r).1.sublog ++ [.ended]) = _
  rw [process_sublog, history_append, history_append, ho]
  rfl

theorem iac_inOrder (c : UInt8) (r : List UInt8) (hs : s.tw.telstate ≠ .sb) (ho : InOrder s.tw) :
    InOrder (s.afterIAC c r).tw := by
  rw [inOrder_quiet hs] at ho
  unfold Scan.afterIAC
  have hq (t : TelState) (ht : t ≠ .sb) : InOrder { s.tw with telstate := t } := by
    rw [inOrder_quiet ht]
    exact ho
  split
  · exact hq .norm (by simp)
  · unfold WindRec.command
    refine iteInduction (fun _ => hq .do (by simp)) fun _ => ?_
    refine iteInduction (fun _ => hq .will (by simp)) fun _ => ?_
    refine iteInduction (fun _ => hq .dont (by simp)) fun _ => ?_
    refine iteInduction (fun _ => hq .wont (by simp)) fun _ => ?_
    refine iteInduction (fun _ => ?_) fun _ => hq .norm (by simp)
    rw [inOrder_collecting rfl]
    change history (s.tw.sublog ++ [.opened]) = _
    rw [history_append, ho]
    rfl

end InOrder

/-- Where a suboption is open, the octets that have come stand in the buffer, and they fit
together with those to come. -/
def Collecting (pl : Plugin) (s : Scan) (packets : List (List UInt8)) : Prop :=
  ∃ got ended octets, got.length = s.tw.parseIndex ∧ Holds s.tw.parsedat 0 got ∧
    Suboption ended octets (s.rest :: packets) ∧ got.length + octets.length ≤ parsedatSize ∧
    (ended → Complete pl s.tw.cfg.lineAllow (got ++ octets))

theorem store_holds {tw : WindRec} {got : List UInt8} (hlen : got.length = tw.parseIndex)
    (hold : Holds tw.parsedat 0 got) (x : UInt8) : Holds (tw.store x).parsedat 0 (got ++ [x]) := by
  have hstore : (tw.store x).parsedat = Function.update tw.parsedat tw.parseIndex x := rfl
  rw [hstore, holds_append]
  refine ⟨hold.congr fun j _ hj => Function.update_of_ne (by omega) _ _, ?_, trivial⟩
  rw [Nat.zero_add, hlen, Function.update_self]

/-- The octet that comes next has room, and the octets go on behind it. -/
theorem collecting_store {pl : Plugin} {packets : List (List UInt8)} {tw : WindRec} {x : UInt8}
    {got octets r : List UInt8} {ended : Bool} (hlen : got.length = tw.parseIndex)
    (hold : Holds tw.parsedat 0 got) (hsub : Suboption ended octets (r :: packets))
    (hroom : got.length + (octets.length + 1) ≤ parsedatSize)
    (hc : ended → Complete pl tw.cfg.lineAllow (got ++ x :: octets)) (pend : List UInt8)
    (overread : Bool) :
    tw.parseIndex < parsedatSize ∧ Collecting pl ⟨tw.store x, pend, r, overread⟩ packets := by
  refine ⟨by omega, got ++ [x], ended, octets, ?_, store_holds hlen hold x, hsub, ?_, ?_⟩
  · rw [List.length_append, List.length_singleton, hlen]
    rfl
  · rw [List.length_append, List.length_singleton]
    omega
  · rw [List.append_assoc]
    exact hc

/-- In a suboption that fits one turn stores a byte or ends the suboption. -/
theorem sub_cases {packets : List (List UInt8)} {c : UInt8} {r : List UInt8}
    (hr : s.rest = c :: r) (hc : Collecting h.plugin s packets) :
    (∃ x, (s.inSuboption h beyond c r).tw = s.tw.store x ∧ s.tw.parseIndex < parsedatSize ∧
      Collecting h.plugin (s.inSuboption h beyond c r) packets) ∨
    ∃ r', s.inSuboption h beyond c r = s.endSuboption h r' ∧ s.tw.UsesReceived h.plugin := by
  obtain ⟨got, ended, octets, hlen, hold, hsub, hroom, hcomplete⟩ := hc
  rw [hr] at hsub
  -- the packet goes on with the `IAC SE`, with an octet or with a doubled `IAC`
  cases hsub with
  | ended r' =>
    refine .inr ⟨r', rfl, ?_⟩
    rw [List.append_nil] at hcomplete
    exact WindRec.complete_usesReceived hlen hold (hcomplete rfl)
  | octet hne hsub =>
    have hturn : s.inSuboption h beyond c r =
        { s with tw := s.tw.store c, pend := s.pend ++ [c], rest := r } := if_neg hne
    rw [hturn]
    exact .inl ⟨c, rfl, collecting_store hlen hold hsub hroom hcomplete _ _⟩
  | @iac _ _ r' _ hsub =>
    exact .inl ⟨TEL_IAC, rfl,
      collecting_store hlen hold hsub hroom hcomplete (s.pend ++ [TEL_IAC, TEL_IAC]) s.overread⟩

theorem answer_count (verb : Verb) (option : UInt8) :
    (s.tw.answer verb option).sublog.count .processed = s.tw.sublog.count .processed := by
  rw [WindRec.sublog_of_reading (s.tw.answer_reading verb option)]

theorem iac_count (c : UInt8) (r : List UInt8) :
    (s.afterIAC c r).tw.sublog.count .processed = s.tw.sublog.count .processed := by
  unfold Scan.afterIAC
  split
  · rfl
  · unfold WindRec.command
    split_ifs <;> first | rfl | simp [WindRec.logged]

/-- The switch keeps the history in order, and processes what is not cut short. -/
theorem dispatch_inOrder {packets : List (List UInt8)} {c : UInt8} {r : List UInt8}
    (hr : s.rest = c :: r) (ho : InOrder s.tw)
    (hc : s.tw.telstate = .sb → Collecting h.plugin s packets) :
    InOrder (s.dispatch h beyond c r).tw ∧
      ((s.dispatch h beyond c r).tw.sublog.count .processed = s.tw.sublog.count .processed ∨
        s.tw.UsesReceived h.plugin) := by
  have hesc (hs : s.tw.telstate ≠ .sb) : InOrder (s.afterEscape h c r).tw ∧
      ((s.afterEscape h c r).tw.sublog.count .processed = s.tw.sublog.count .processed ∨
        s.tw.UsesReceived h.plugin) := by
    obtain ⟨hl, ht⟩ := afterEscape_log (h := h) (s := s) c r
    rw [inOrder_quiet (by simp [ht]), hl]
    exact ⟨(inOrder_quiet hs).1 ho, .inl rfl⟩
  unfold Scan.dispatch
  cases hs : s.tw.telstate with
  | norm => exact ⟨ho, .inl rfl⟩
  | gs => exact hesc (by simp [hs])
  | escfound => exact hesc (by simp [hs])
  | iacfound => exact ⟨iac_inOrder c r (by simp [hs]) ho, .inl (iac_count c r)⟩
  | «do» => exact ⟨answered_inOrder .do c (by simp [hs]) ho, .inl (answer_count .do c)⟩
  | dont => exact ⟨answered_inOrder .dont c (by simp [hs]) ho, .inl (answer_count .dont c)⟩
  | will => exact ⟨answered_inOrder .will c (by simp [hs]) ho, .inl (answer_count .will c)⟩
  | wont => exact ⟨answered_inOrder .wont c (by simp [hs]) ho, .inl (answer_count .wont c)⟩
  | sb =>
    -- the one state that stores or processes
    simp only
    rcases sub_cases beyond hr (hc hs) with ⟨x, hx, hn, -⟩ | ⟨r', he, hown⟩
    · rw [hx]
      refine ⟨store_inOrder x hs ho hn, .inl ?_⟩
      simp [WindRec.store, WindRec.logged]
    · rw [he]
      exact ⟨end_inOrder r' hs ho, .inr hown⟩

/-- A turn keeps the history in order, and processes what is not cut short. -/
theorem turn_inOrder {packets : List (List UInt8)} (ho : InOrder s.tw)
    (hc : s.tw.telstate = .sb → Collecting h.plugin s packets) :
    InOrder (s.turn h beyond).tw ∧
      ((s.turn h beyond).tw.sublog.count .processed = s.tw.sublog.count .processed ∨
        s.tw.UsesReceived h.plugin) := by
  unfold Scan.turn
  split
  · exact ⟨ho, .inl rfl⟩
  · rename_i c r hr
    have hd := dispatch_inOrder beyond hr ho hc
    simp only
    split
    · rename_i hn
      -- back in data, the quick scan leaves the history alone
      have hns : (s.dispatch h beyond c r).tw.telstate ≠ .sb := by simp [hn]
      obtain ⟨hl, ht⟩ := data_log (h := h) hns
      rw [inOrder_quiet ht, hl]
      exact ⟨(inOrder_quiet hns).1 hd.1, hd.2⟩
    · exact hd

/-- An `IAC SB` opens a suboption with an empty buffer. -/
def Scan.opened (s : Scan) (r : List UInt8) : Scan :=
  { s with
    tw := { s.tw.logged .opened with telstate := .sb, parseIndex := 0 }
    pend := []
    rest := r }

/-- The switch opens a suboption at an `IAC SB`, and nowhere else. -/
theorem dispatch_opens {c : UInt8} {r : List UInt8} (hs : s.tw.telstate ≠ .sb)
    (hsb : (s.dispatch h beyond c r).tw.telstate = .sb) :
    s.tw.telstate = .iacfound ∧ c = TEL_SB ∧ s.dispatch h beyond c r = s.opened r := by
  have hesc : (s.afterEscape h c r).tw.telstate ≠ .sb := by
    rw [(@afterEscape_log h s c r).2]
    exact TelState.noConfusion
  unfold Scan.dispatch at hsb ⊢
  cases ht : s.tw.telstate with
  | sb => exact absurd ht hs
  | iacfound =>
    rw [ht] at hsb
    dsimp only at hsb ⊢
    -- the other commands go back to data or wait for an option
    by_cases hSB : c = TEL_SB
    · rw [hSB]
      exact ⟨rfl, rfl, rfl⟩
    · rw [Scan.afterIAC, WindRec.command, if_neg hSB] at hsb
      split_ifs at hsb
  | norm =>
    rw [ht] at hsb
    exact absurd (ht.symm.trans hsb) TelState.noConfusion
  | gs =>
    rw [ht] at hsb
    exact absurd hsb hesc
  | escfound =>
    rw [ht] at hsb
    exact absurd hsb hesc
  | _ =>
    rw [ht] at hsb
    cases hsb

/-- A suboption is open behind a turn where it was, or where the turn has opened it. -/
theorem turn_collecting {packets : List (List UInt8)} (hne : s.rest ≠ [])
    (hc : s.tw.telstate = .sb → Collecting h.plugin s packets)
    (hf : OpensFine h.plugin s packets) (hsb : (s.turn h beyond).tw.telstate = .sb) :
    Collecting h.plugin (s.turn h beyond) packets := by
  obtain ⟨c, r, hr⟩ := List.exists_cons_of_ne_nil hne
  rw [Scan.turn, hr] at hsb ⊢
  dsimp only at hsb ⊢
  -- the quick scan over data follows only in the state for data, and does not leave it for `sb`
  have hdisp : ¬(s.dispatch h beyond c r).tw.telstate = .norm := by
    intro hn
    rw [if_pos hn] at hsb
    exact (@data_log h _ (by simp [hn])).2 hsb
  rw [if_neg hdisp] at hsb ⊢
  by_cases hs : s.tw.telstate = .sb
  · have hin : s.dispatch h beyond c r = s.inSuboption h beyond c r := by
      rw [Scan.dispatch, hs]
    rw [hin] at hsb ⊢
    rcases sub_cases beyond hr (hc hs) with ⟨x, -, -, hcollect⟩ | ⟨r', he, -⟩
    · exact hcollect
    · rw [he] at hsb
      cases hsb
  · obtain ⟨hiac, rfl, hopen⟩ := dispatch_opens beyond hs hsb
    obtain ⟨ended, octets, hsub, hroom, hcomplete⟩ := hf hiac r hr
    rw [hopen]
    exact ⟨[], ended, octets, rfl, trivial, hsub, by simpa using hroom, hcomplete⟩

section Raw

/-- A write to the graphics windows or the emulator does not leave raw mode or enter it. -/
theorem enterTek_raw (tw : WindRec) (hraw : (tw.enterTek h).termstate = .dumb) :
    tw.termstate = .dumb := by
  unfold WindRec.enterTek at hraw
  simp only at hraw
  split_ifs at hraw <;> first | exact hraw | cases hraw

theorem sendESC_raw (tw : WindRec) : tw.sendESC.termstate = tw.termstate := by
  unfold WindRec.sendESC
  split <;> rfl

theorem afterEscape_raw (c : UInt8) (r : List UInt8)
    (hraw : (s.afterEscape h c r).tw.termstate = .dumb) : s.tw.termstate = .dumb := by
  have htek (tw : WindRec) : (s.tekEscape tw c r).tw.termstate = tw.termstate := by
    unfold Scan.tekEscape
    split_ifs <;> rfl
  unfold Scan.afterEscape at hraw
  split_ifs at hraw
  · rw [htek] at hraw
    exact enterTek_raw s.tw hraw
  · rw [htek] at hraw
    exact hraw
  · exact (sendESC_raw s.tw).symm.trans hraw

theorem process_raw (tw : WindRec) (pl : Plugin) (r : List UInt8) :
    (tw.process_suboption pl r).1.termstate = tw.termstate :=
  @WindRec.termstate_of_reading (tw.logged .processed) _
    ((tw.logged .processed).suboption_frame pl).1

theorem dispatch_raw {packets : List (List UInt8)} {c : UInt8} {r : List UInt8}
    (hr : s.rest = c :: r) (hc : s.tw.telstate = .sb → Collecting h.plugin s packets)
    (hraw : (s.dispatch h beyond c r).tw.termstate = .dumb) : s.tw.termstate = .dumb := by
  have hanswer (verb : Verb) : (s.tw.answer verb c).termstate = s.tw.termstate :=
    WindRec.termstate_of_reading (s.tw.answer_reading verb c)
  unfold Scan.dispatch at hraw
  cases hs : s.tw.telstate with
  | norm =>
    rw [hs] at hraw
    exact hraw
  | gs =>
    rw [hs] at hraw
    exact afterEscape_raw c r hraw
  | escfound =>
    rw [hs] at hraw
    exact afterEscape_raw c r hraw
  | iacfound =>
    rw [hs] at hraw
    dsimp only at hraw
    unfold Scan.afterIAC WindRec.command at hraw
    split_ifs at hraw <;> exact hraw
  | «do» =>
    rw [hs] at hraw
    exact (hanswer .do).symm.trans hraw
  | dont =>
    rw [hs] at hraw
    exact (hanswer .dont).symm.trans hraw
  | will =>
    rw [hs] at hraw
    exact (hanswer .will).symm.trans hraw
  | wont =>
    rw [hs] at hraw
    exact (hanswer .wont).symm.trans hraw
  | sb =>
    rw [hs] at hraw
    dsimp only at hraw
    rcases sub_cases beyond hr (hc hs) with ⟨x, hx, -, -⟩ | ⟨r', he, -⟩
    · rw [hx] at hraw
      exact hraw
    · rw [he] at hraw
      exact (process_raw s.tw h.plugin r').symm.trans hraw

theorem data_raw (hraw : (s.data h).tw.termstate = .dumb) : s.tw.termstate = .dumb := by
  have hinteresting (t : Scan) : t.interesting.tw.termstate = t.tw.termstate := by
    unfold Scan.interesting
    split
    · rfl
    · simp only
      split_ifs <;> rfl
  rw [Scan.data, hinteresting] at hraw
  unfold Scan.passOn at hraw
  by_cases htiming : s.tw.timing
  · rw [if_pos htiming] at hraw
    exact hraw
  rw [if_neg htiming] at hraw
  cases ht : s.tw.termstate with
  | dumb => rfl
  | vt =>
    rw [ht] at hraw
    exact ht.symm.trans hraw
  | tek =>
    rw [ht] at hraw
    dsimp only at hraw
    split_ifs at hraw
    · cases hraw
    · exact ht.symm.trans hraw
  | ras =>
    rw [ht] at hraw
    dsimp only at hraw
    split_ifs at hraw
    exact ht.symm.trans hraw

/-- No turn enters raw mode. -/
theorem turn_raw {packets : List (List UInt8)}
    (hc : s.tw.telstate = .sb → Collecting h.plugin s packets)
    (hraw : (s.turn h beyond).tw.termstate = .dumb) : s.tw.termstate = .dumb := by
  unfold Scan.turn at hraw
  split at hraw
  · exact hraw
  · rename_i c r hr
    dsimp only at hraw
    split_ifs at hraw
    · exact dispatch_raw beyond hr hc (data_raw hraw)
    · exact dispatch_raw beyond hr hc hraw

end Raw

theorem rawByte_log (bytes : List UInt8) (tw : WindRec) :
    (bytes.foldl WindRec.rawByte tw).sublog = tw.sublog ∧
      (bytes.foldl WindRec.rawByte tw).telstate = tw.telstate ∧
      (bytes.foldl WindRec.rawByte tw).parseIndex = tw.parseIndex := by
  induction bytes generalizing tw with
  | nil => exact ⟨rfl, rfl, rfl⟩
  | cons c bytes ih =>
    have hc : (tw.rawByte c).sublog = tw.sublog ∧ (tw.rawByte c).telstate = tw.telstate ∧
        (tw.rawByte c).parseIndex = tw.parseIndex := by
      unfold WindRec.rawByte
      split <;> exact ⟨rfl, rfl, rfl⟩
    obtain ⟨h1, h2, h3⟩ := ih (tw.rawByte c)
    exact ⟨h1.trans hc.1, h2.trans hc.2.1, h3.trans hc.2.2⟩

/-- What holds all through a session. -/
structure Sound (h : Host) (s : Scan) (packets : List (List UInt8)) : Prop where
  order : InOrder s.tw
  parsed : s.rest ≠ [] ∨ s.tw.telstate = .sb → s.tw.termstate ≠ .dumb
  collecting : s.tw.telstate = .sb → Collecting h.plugin s packets

/-- A session whose suboptions fit is sound. -/
theorem reached_sound {packets : List (List UInt8)} (hr : Reached h s packets) :
    Sound h s packets := by
  induction hr with
  | start tw packets hl hs =>
    refine ⟨?_, fun hno => ?_, fun hsb => absurd hsb hs⟩
    · rw [inOrder_quiet hs, hl]
      rfl
    · rcases hno with hno | hsb
      · exact absurd rfl hno
      · exact absurd hsb hs
  | @packet s bytes packets _ hnil hparsed ih =>
    refine ⟨ih.order, fun _ => hparsed, fun hsb => ?_⟩
    -- an open suboption goes on in the new packet
    obtain ⟨got, ended, octets, hlen, hold, hsub, hroom, hcomplete⟩ := ih.collecting hsb
    rw [hnil] at hsub
    cases hsub with
    | next hsub => exact ⟨got, ended, octets, hlen, hold, hsub, hroom, hcomplete⟩
  | @raw s bytes packets _ hnil hraw ih =>
    obtain ⟨hl, ht, hp⟩ := rawByte_log bytes s.tw
    -- no turn enters raw mode, so that no suboption is open in it
    have hquiet : s.tw.telstate ≠ .sb := fun hsb => ih.parsed (.inr hsb) hraw
    have hquiet' : (bytes.foldl WindRec.rawByte s.tw).telstate ≠ .sb := by rwa [ht]
    refine ⟨?_, fun hno => ?_, fun hsb => absurd hsb hquiet'⟩
    · rw [inOrder_quiet hquiet', hl]
      exact (inOrder_quiet hquiet).mp ih.order
    · rcases hno with hno | hsb
      · exact absurd rfl hno
      · exact absurd hsb hquiet'
  | turn beyond _ hne hf ih =>
    exact ⟨(turn_inOrder beyond ih.order ih.collecting).1,
      fun _ hraw => ih.parsed (.inl hne) (turn_raw beyond ih.collecting hraw),
      turn_collecting beyond hne ih.collecting hf⟩

/-- A call of the parser stays among the states of the session. -/
theorem loop_reached {packets : List (List UInt8)} (hr : Reached h s packets) (fuel : ℕ)
    (hf : ∀ k < fuel, OpensFine h.plugin (Scan.loop h beyond k s) packets) :
    Reached h (Scan.loop h beyond fuel s) packets := by
  induction fuel with
  | zero => exact hr
  | succ fuel ih =>
    have hk := ih fun k hk => hf k (by omega)
    rw [Scan.loop_succ]
    split
    · exact hk
    · rename_i hne
      exact .turn beyond hk hne (hf fuel (by omega))

end Turns

end Telnet
