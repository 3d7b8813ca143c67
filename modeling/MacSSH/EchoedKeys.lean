import MacSSH.ControlSequences
import MacSSH.TelnetAgreement
import MacSSH.TelnetFrame
import MacSSH.TelnetParse

/-! Keys that are echoed here: what the telnet parser and the terminal behind it answer to
them, as if the host had sent them. -/
namespace Telnet

/-- The state of the parser behind `IAC` and the verb. -/
def Verb.awaits : Verb → TelState
  | .will => .will
  | .wont => .wont
  | .do => .do
  | .dont => .dont

/-- A character of ASCII that is shown. -/
def Printed (c : UInt8) : Prop := 31 < c ∧ c < 127

/-- What the terminal gets of data. -/
def WindRec.takes (tw : WindRec) (data : List UInt8) : List UInt8 :=
  if tw.timing ∨ tw.termstate = .tek ∨ tw.termstate = .ras then [] else data

/-- What it gets of a character behind an escape that was held back; a `^` switches to raster
graphics. -/
def WindRec.showsBehindESC (tw : WindRec) (c : UInt8) : List UInt8 :=
  if c = 94 then []
  else (if tw.termstate = .tek ∨ tw.termstate = .ras then [] else [ESC]) ++ tw.takes [c]

/-- What it gets of a shown character in a packet of its own, outside of raw mode. -/
def WindRec.shownIn (tw : WindRec) (c : UInt8) : List UInt8 :=
  match tw.telstate with
  | .norm => tw.takes [c]
  | .gs => if 0 ≤ tw.cfg.tektype then tw.takes [c] else tw.showsBehindESC c
  | .escfound => tw.showsBehindESC c
  | _ => []

/-- What it gets of a shown character in a packet of its own. -/
def WindRec.shows (tw : WindRec) (c : UInt8) : List UInt8 :=
  if tw.termstate = .dumb then [c] else tw.shownIn c

section Answers
variable {tw : WindRec} {verb : Verb} {option : UInt8}

theorem replies_ne_nil (h : ¬tw.opts.Ignores verb option) : tw.replies verb option ≠ [] := by
  have hreply {w : Verb} (hr : RepliesWith tw verb option w) : tw.replies verb option ≠ [] := by
    rw [hr.1]
    exact List.cons_ne_nil _ _
  cases verb with
  | will =>
    by_cases h33 : option = N_REMOTEFLOW
    · subst h33
      cases hI : tw.opts.remote_flow <;>
        simp [WindRec.replies, WindRec.answer, WindRec.telnet_will, hI]
    · rcases will_effect tw option h33 with ⟨hign, -⟩ | ⟨-, w, hr⟩
      · exact absurd hign h
      · exact hreply hr
  | wont =>
    rcases wont_effect tw option with ⟨hign, -⟩ | ⟨-, hr⟩
    · exact absurd hign h
    · exact hreply hr
  | «do» =>
    -- a refused request for line mode gets its reply too
    rcases do_effect tw option with ⟨hign, -⟩ | ⟨-, hmis | ⟨-, w, hr⟩⟩
    · exact absurd hign h
    · rcases hmis with ⟨hwill, -⟩ | ⟨-, rfl, hallow, -⟩
      · cases hwill
      · simp [WindRec.replies, WindRec.answer, WindRec.telnet_do, hallow]
    · exact hreply hr
  | dont =>
    rcases dont_effect tw option with ⟨hign, -⟩ | ⟨-, hr⟩
    · exact absurd hign h
    · exact hreply hr

/-- A command that gets no reply sends nothing and leaves the line alone. -/
theorem answer_ignored (h : tw.opts.Ignores verb option) :
    (tw.answer verb option).sent = tw.sent ∧ (tw.answer verb option).line = tw.line := by
  cases verb with
  | will =>
    rcases h with ⟨rfl, hI⟩ | ⟨rfl, hI⟩ | rfl | ⟨rfl, hI⟩ | ⟨rfl, hI⟩ <;>
      simp [WindRec.answer, WindRec.telnet_will, *]
  | wont =>
    obtain ⟨h37, h38, h1, h3⟩ := h
    by_cases hecho : option = N_ECHO
    · simp [WindRec.answer, WindRec.telnet_wont, hecho, h1 hecho]
    by_cases hsga : option = N_SGA
    · simp [WindRec.answer, WindRec.telnet_wont, hsga, h3 hsga]
    by_cases h6 : option = N_TIMING
    · simp [WindRec.answer, WindRec.telnet_wont, h6]
    · simp [WindRec.answer, WindRec.telnet_wont, hecho, hsga, h6, h37, h38]
  | «do» =>
    rcases h with ⟨rfl, hI⟩ | ⟨rfl, hI⟩ | ⟨rfl, hI⟩ | ⟨rfl, hI⟩ | ⟨rfl, hI⟩ <;>
      simp [WindRec.answer, WindRec.telnet_do, hI]
  | dont =>
    obtain ⟨h37, h38, h34⟩ := h
    by_cases hmode : option = N_LINEMODE
    · simp [WindRec.answer, WindRec.telnet_dont, hmode, h34 hmode]
    · simp [WindRec.answer, WindRec.telnet_dont, hmode, h37, h38]

/-- A command sends nothing, if and only if it gets no reply. -/
theorem answer_sent_iff :
    (tw.answer verb option).sent = tw.sent ↔ tw.opts.Ignores verb option := by
  constructor
  · intro hsent
    by_contra hign
    apply replies_ne_nil hign
    rw [WindRec.replies, hsent, List.drop_length]
  · exact fun hign => (answer_ignored hign).1

end Answers

namespace Scan

/-- Nothing but shown characters is left of the packet. -/
def AllPrinted (s : Scan) : Prop := ∀ c ∈ s.pend ++ s.rest, Printed c

/-- The parser waits for no option. -/
def NoOption (s : Scan) : Prop := ∀ verb : Verb, s.tw.telstate ≠ verb.awaits

/-- Nothing was sent in between, and the line is as it was. -/
def Quiet (s s' : Scan) : Prop := s'.tw.sent = s.tw.sent ∧ s'.tw.line = s.tw.line

section Turns
variable {h : Host} {beyond : UInt8} {s : Scan}

theorem Quiet.trans {s s' s'' : Scan} (h : Quiet s s') (h' : Quiet s' s'') : Quiet s s'' :=
  ⟨h'.1.trans h.1, h'.2.trans h.2⟩

theorem noOption_norm (hnorm : s.tw.telstate = .norm) : s.NoOption := by
  intro verb
  rw [hnorm]
  cases verb <;> decide

theorem quickScan_shown (cfg : Config) {l : List UInt8} (hl : ∀ c ∈ l, Printed c) :
    quickScan cfg l = (l, []) := by
  induction l with
  | nil => rfl
  | cons c l ih =>
    obtain ⟨hlow, hhigh⟩ := hl c List.mem_cons_self
    have hoctet : cfg.octet c = c := by
      rw [Config.octet]
      split_ifs
      · rfl
      · rw [← UInt8.toNat_inj, UInt8.toNat_and]
        have hlt : c.toNat < 127 := hhigh
        exact Nat.and_two_pow_sub_one_of_lt_two_pow (n := 7) (by omega)
    have hiac : c ≠ TEL_IAC := by
      rintro rfl
      exact absurd hhigh (by decide)
    have hesc : c ≠ ESC ∧ c ≠ GS := by
      constructor <;> rintro rfl <;> exact absurd hlow (by decide)
    rw [quickScan, hoctet, if_neg (fun hc => hiac hc.1),
      if_neg (not_or.mpr ⟨hesc.1, hesc.2⟩), ih fun d hd => hl d (List.mem_cons_of_mem _ hd)]

/-- Data goes to the terminal or to a graphics window, and what that does not take is read
again. -/
theorem passOn_quiet (data rest : List UInt8) : Quiet s (s.passOn h data rest) ∧
    (s.passOn h data rest).tw.telstate = s.tw.telstate ∧
    ∀ c ∈ (s.passOn h data rest).rest, c ∈ data ++ rest := by
  have hleft (i : ℕ) : ∀ c ∈ data.drop i ++ rest, c ∈ data ++ rest := by
    intro c hc
    rcases List.mem_append.mp hc with hdata | hrest
    · exact List.mem_append_left _ (List.mem_of_mem_drop hdata)
    · exact List.mem_append_right _ hrest
  have hall : ∀ c ∈ rest, c ∈ data ++ rest := fun c hc => List.mem_append_right _ hc
  rw [Scan.passOn]
  split_ifs
  · exact ⟨⟨rfl, rfl⟩, rfl, hall⟩
  · split
    · dsimp only
      split_ifs
      · exact ⟨⟨rfl, rfl⟩, rfl, hleft _⟩
      · exact ⟨⟨rfl, rfl⟩, rfl, hall⟩
    · dsimp only
      split_ifs
      · exact ⟨⟨rfl, rfl⟩, rfl, hleft _⟩
      · exact ⟨⟨rfl, rfl⟩, rfl, hall⟩
    · exact ⟨⟨rfl, rfl⟩, rfl, hall⟩

/-- A shown character at which the quick scan stopped is nothing special. -/
theorem interesting_printed {c : UInt8} {r : List UInt8} (hc : Printed c)
    (hrest : s.rest = c :: r) : s.interesting = { s with pend := [c], rest := r } := by
  obtain ⟨hlow, hhigh⟩ := hc
  have hiac : c ≠ TEL_IAC := by
    rintro rfl
    exact absurd hhigh (by decide)
  have hgs : c ≠ GS := by
    rintro rfl
    exact absurd hlow (by decide)
  have hesc : c ≠ ESC := by
    rintro rfl
    exact absurd hlow (by decide)
  have htop : ¬127 < c := UInt8.not_lt.mpr (UInt8.le_of_lt hhigh)
  rw [Scan.interesting, hrest]
  dsimp only
  rw [if_neg hiac, if_neg hgs, if_neg hesc, if_neg (fun hend => htop hend.1)]

theorem interesting_quiet (hs : ∀ c ∈ s.rest, Printed c) : Quiet s s.interesting ∧
    s.interesting.tw.telstate = s.tw.telstate ∧
    ∀ c ∈ s.interesting.pend ++ s.interesting.rest, c ∈ s.rest := by
  cases hrest : s.rest with
  | nil =>
    rw [Scan.interesting, hrest]
    exact ⟨⟨rfl, rfl⟩, rfl, by simp⟩
  | cons c r =>
    rw [interesting_printed (hs c (hrest ▸ List.mem_cons_self)) hrest]
    exact ⟨⟨rfl, rfl⟩, rfl, fun d hd => hd⟩

theorem data_quiet (hs : s.AllPrinted) : Quiet s (s.data h) ∧
    (s.data h).tw.telstate = s.tw.telstate ∧ (s.data h).AllPrinted := by
  have hscan := quickScan_shown s.tw.cfg fun c hc => hs c (List.mem_append_right _ hc)
  obtain ⟨hpass, hstate, hleft⟩ := @passOn_quiet h s (s.pend ++ s.rest) []
  rw [List.append_nil] at hleft
  have hshown : ∀ c ∈ (s.passOn h (s.pend ++ s.rest) []).rest, Printed c := fun c hc =>
    hs c (hleft c hc)
  obtain ⟨hlook, hstate', hsame⟩ := interesting_quiet hshown
  rw [Scan.data, hscan]
  exact ⟨hpass.trans hlook, hstate'.trans hstate, fun c hc => hshown c (hsame c hc)⟩

/-- Behind an escape the parser goes back to data. -/
theorem afterEscape_quiet {c : UInt8} {r : List UInt8} (hs : s.AllPrinted) (hrest : s.rest = c :: r)
    (hstate : s.tw.telstate = .gs ∨ s.tw.telstate = .escfound) :
    Quiet s (s.afterEscape h c r) ∧ (s.afterEscape h c r).tw.telstate = .norm ∧
      (s.afterEscape h c r).AllPrinted := by
  have hr : ∀ d ∈ r, Printed d := fun d hd =>
    hs d (List.mem_append_right _ (hrest ▸ List.mem_cons_of_mem _ hd))
  have hff : c ≠ FF := by
    rintro rfl
    have hlow := (hs FF (List.mem_append_right _ (hrest ▸ List.mem_cons_self))).1
    exact absurd hlow (by decide)
  have hkept : ∀ d ∈ s.pend ++ [c] ++ r, Printed d := by
    rw [List.append_assoc, List.singleton_append, ← hrest]
    exact hs
  rw [Scan.afterEscape]
  split_ifs with htek hback hras
  · exact absurd hback.1 hff
  · rw [Scan.tekEscape]
    split_ifs
    · exact ⟨⟨rfl, rfl⟩, rfl, hkept⟩
    · exact ⟨⟨rfl, rfl⟩, rfl, hs⟩
    · rcases hstate with hgs | hesc
      · exact absurd hgs (by assumption)
      · rename_i hnorm
        exact absurd (hesc ▸ by decide) hnorm
  · exact ⟨⟨rfl, rfl⟩, rfl, hr⟩
  · refine ⟨?_, rfl, hs⟩
    rw [WindRec.sendESC]
    cases s.tw.termstate <;> exact ⟨rfl, rfl⟩

/-- Behind an `IAC` a shown character is no command that does anything. -/
theorem afterIAC_printed {c : UInt8} (hc : Printed c) (r : List UInt8) : s.afterIAC c r =
    { s with tw := { s.tw with telstate := .norm }, pend := [], rest := r } := by
  have hhigh := hc.2
  have hverb : c ≠ TEL_IAC ∧ c ≠ TEL_DOTEL ∧ c ≠ TEL_WILLTEL ∧ c ≠ TEL_DONTTEL ∧
      c ≠ TEL_WONTTEL ∧ c ≠ TEL_SB := by
    refine ⟨?_, ?_, ?_, ?_, ?_, ?_⟩ <;> rintro rfl <;> exact absurd hhigh (by decide)
  obtain ⟨h255, h253, h251, h254, h252, h250⟩ := hverb
  rw [Scan.afterIAC, if_neg h255, WindRec.command, if_neg h253, if_neg h251, if_neg h254,
    if_neg h252, if_neg h250]

/-- Inside a suboption it is stored. -/
theorem inSuboption_printed {c : UInt8} (hc : Printed c) (r : List UInt8) :
    s.inSuboption h beyond c r =
      { s with tw := s.tw.store c, pend := s.pend ++ [c], rest := r } := by
  have hiac : c ≠ TEL_IAC := by
    rintro rfl
    exact absurd hc.2 (by decide)
  exact if_neg hiac

/-- A turn over shown characters is quiet, where the parser waits for no option. -/
theorem turn_quiet (hs : s.AllPrinted) (hopt : s.NoOption) : Quiet s (s.turn h beyond) ∧
    (s.turn h beyond).AllPrinted ∧ (s.turn h beyond).NoOption := by
  rw [Scan.turn]
  cases hrest : s.rest with
  | nil => exact ⟨⟨rfl, rfl⟩, hs, hopt⟩
  | cons c r =>
    have hprinted := hs c (List.mem_append_right _ (hrest ▸ List.mem_cons_self))
    have hr : ∀ d ∈ r, Printed d := fun d hd =>
      hs d (List.mem_append_right _ (hrest ▸ List.mem_cons_of_mem _ hd))
    -- the branches that come back to data go on with the quick scan
    have hback {t : Scan} (hq : Quiet s t) (hnorm : t.tw.telstate = .norm) (ht : t.AllPrinted) :
        Quiet s (t.data h) ∧ (t.data h).AllPrinted ∧ (t.data h).NoOption := by
      obtain ⟨hdata, hstate, hshown⟩ := @data_quiet h t ht
      exact ⟨hq.trans hdata, hshown, noOption_norm (hstate.trans hnorm)⟩
    dsimp only
    rw [Scan.dispatch]
    cases hstate : s.tw.telstate with
    | norm =>
      dsimp only
      rw [if_pos hstate]
      exact hback ⟨rfl, rfl⟩ hstate hs
    | gs | escfound =>
      obtain ⟨hq, hnorm, hshown⟩ := @afterEscape_quiet h s c r hs hrest (by simp [hstate])
      dsimp only
      rw [if_pos hnorm]
      exact hback hq hnorm hshown
    | iacfound =>
      dsimp only
      rw [afterIAC_printed hprinted]
      exact hback ⟨rfl, rfl⟩ rfl hr
    | sb =>
      have hstill : (s.tw.store c).telstate = .sb := hstate
      dsimp only
      rw [inSuboption_printed hprinted]
      dsimp only
      rw [if_neg (by rw [hstill]; decide)]
      refine ⟨⟨rfl, rfl⟩, ?_, fun verb => ?_⟩
      · intro d hd
        rw [List.append_assoc, List.singleton_append, ← hrest] at hd
        exact hs d hd
      · change (s.tw.store c).telstate ≠ _
        rw [hstill]
        cases verb <;> decide
    -- here the character would be the option
    | will => exact absurd hstate (hopt .will)
    | wont => exact absurd hstate (hopt .wont)
    | «do» => exact absurd hstate (hopt .do)
    | dont => exact absurd hstate (hopt .dont)

theorem loop_quiet (fuel : ℕ) (hs : s.AllPrinted) (hopt : s.NoOption) :
    Quiet s (loop h beyond fuel s) := by
  induction fuel generalizing s with
  | zero => exact ⟨rfl, rfl⟩
  | succ fuel ih =>
    obtain ⟨hturn, hs', hopt'⟩ := @turn_quiet h beyond s hs hopt
    rw [Scan.loop]
    split_ifs
    · exact ⟨rfl, rfl⟩
    · exact hturn.trans (ih hs' hopt')

/-- The character that the parser waits for names the option. -/
theorem loop_option (fuel : ℕ) {verb : Verb} {c : UInt8} {tw : WindRec}
    (hstate : tw.telstate = verb.awaits) :
    Quiet ⟨tw.answer verb c, [], [], false⟩
      (loop h beyond (fuel+1) ⟨tw, [], [c], false⟩) := by
  have hturn : Scan.turn h beyond ⟨tw, [], [c], false⟩ =
      Scan.data h ⟨{ tw.answer verb c with telstate := .norm }, [], [], false⟩ := by
    have hdispatch : Scan.dispatch h beyond ⟨tw, [], [c], false⟩ c [] =
        ⟨{ tw.answer verb c with telstate := .norm }, [], [], false⟩ := by
      cases verb <;> simp only [Scan.dispatch, hstate, Verb.awaits] <;> rfl
    rw [Scan.turn]
    dsimp only
    rw [hdispatch]
    exact if_pos rfl
  have hnone : AllPrinted ⟨{ tw.answer verb c with telstate := .norm }, [], [], false⟩ :=
    fun d hd => absurd hd List.not_mem_nil
  obtain ⟨hdata, hnorm, hshown⟩ := @data_quiet h _ hnone
  rw [Scan.loop, if_neg (List.cons_ne_nil _ _), hturn]
  have hrest := @loop_quiet h beyond _ fuel hshown (noOption_norm hnorm)
  exact hdata.trans hrest

end Turns

section Shown
variable {h : Host} {beyond : UInt8} {s : Scan}

theorem loop_done (h : Host) (beyond : UInt8) (hs : s.rest = []) (fuel : ℕ) :
    loop h beyond fuel s = s := by
  cases fuel with
  | zero => rfl
  | succ fuel => rw [loop, if_pos hs]

/-- A character that a graphics window does not take is dropped with the packet. -/
theorem passOn_shows (data : List UInt8) : (s.passOn h data []).rest.length ≤ data.length ∧
    (s.passOn h data []).tw.vt = s.tw.vt ++ s.tw.takes data := by
  rw [Scan.passOn, WindRec.takes]
  cases htiming : s.tw.timing with
  | true => simp
  | false =>
    cases hterm : s.tw.termstate with
    | tek | ras =>
      simp only [Bool.false_eq_true, if_false, reduceCtorEq, or_true, true_or, if_true,
        List.append_nil]
      split_ifs
      · refine ⟨?_, rfl⟩
        dsimp only
        rw [List.length_drop]
        exact Nat.sub_le _ _
      · exact ⟨Nat.zero_le _, rfl⟩
    | vt | dumb => exact ⟨Nat.zero_le _, rfl⟩

theorem interesting_shows (hs : ∀ c ∈ s.rest, Printed c) (hone : s.rest.length ≤ 1) :
    s.interesting.rest = [] ∧ s.interesting.tw.vt = s.tw.vt := by
  cases hrest : s.rest with
  | nil =>
    rw [Scan.interesting, hrest]
    exact ⟨rfl, rfl⟩
  | cons c r =>
    rw [interesting_printed (hs c (hrest ▸ List.mem_cons_self)) hrest]
    rw [hrest, List.length_cons] at hone
    exact ⟨List.length_eq_zero_iff.mp (Nat.le_zero.mp (Nat.le_of_succ_le_succ hone)), rfl⟩

/-- Of at most one character left the terminal gets what it takes, and the packet is done. -/
theorem data_shows (hs : s.AllPrinted) (hone : (s.pend ++ s.rest).length ≤ 1) :
    (s.data h).rest = [] ∧ (s.data h).tw.vt = s.tw.vt ++ s.tw.takes (s.pend ++ s.rest) := by
  have hscan := quickScan_shown s.tw.cfg fun c hc => hs c (List.mem_append_right _ hc)
  obtain ⟨-, -, hleft⟩ := @passOn_quiet h s (s.pend ++ s.rest) []
  rw [List.append_nil] at hleft
  obtain ⟨hlength, hvt⟩ := @passOn_shows h s (s.pend ++ s.rest)
  obtain ⟨hrest, hsame⟩ := interesting_shows (fun c hc => hs c (hleft c hc)) (hlength.trans hone)
  rw [Scan.data, hscan]
  exact ⟨hrest, hsame.trans hvt⟩

/-- Where nothing is left of the packet nothing is passed on. -/
theorem data_none (h : Host) (tw : WindRec) : (Scan.data h ⟨tw, [], [], false⟩).rest = [] ∧
    (Scan.data h ⟨tw, [], [], false⟩).tw.vt = tw.vt := by
  obtain ⟨hrest, hvt⟩ := @data_shows h ⟨tw, [], [], false⟩
    (fun d hd => absurd hd List.not_mem_nil) (Nat.zero_le 1)
  have hnothing : tw.takes [] = [] := by rw [WindRec.takes, ite_self]
  refine ⟨hrest, hvt.trans ?_⟩
  change tw.vt ++ tw.takes [] = tw.vt
  rw [hnothing, List.append_nil]

/-- Behind an escape. -/
theorem afterEscape_shows {tw : WindRec} {c : UInt8} (hc : Printed c)
    (hstate : tw.telstate = .gs ∨ tw.telstate = .escfound) :
    ((afterEscape h ⟨tw, [], [c], false⟩ c []).data h).rest = [] ∧
      ((afterEscape h ⟨tw, [], [c], false⟩ c []).data h).tw.vt = tw.vt ++ tw.shownIn c := by
  have hff : c ≠ FF := by
    rintro rfl
    exact absurd hc.1 (by decide)
  have hall (tw : WindRec) (pend rest : List UInt8) (hsub : pend ++ rest ⊆ [c]) :
      AllPrinted ⟨tw, pend, rest, false⟩ := by
    intro d hd
    rw [List.mem_singleton.mp (hsub hd)]
    exact hc
  have hbehind (htek : ¬(0 ≤ tw.cfg.tektype ∧ (c = FF ∨ tw.telstate = .gs))) :
      tw.shownIn c = tw.showsBehindESC c := by
    rcases hstate with hgs | hesc
    · rw [WindRec.shownIn, hgs]
      exact if_neg fun htype => htek ⟨htype, .inr hgs⟩
    · rw [WindRec.shownIn, hesc]
  rw [Scan.afterEscape]
  dsimp only
  rw [if_neg (fun hback : c = FF ∧ _ => hff hback.1)]
  split_ifs with htek hras
  · have hgs : tw.telstate = .gs := htek.2.resolve_left hff
    obtain ⟨hrest, hvt⟩ := @data_shows h _
      (hall { tw.graphics (.vgwrite [GS]) with telstate := .norm } [c] [] (List.Subset.refl _))
      (Nat.le_refl 1)
    rw [Scan.tekEscape]
    dsimp only
    rw [if_pos hgs, WindRec.shownIn, hgs]
    dsimp only
    rw [if_pos htek.1]
    exact ⟨hrest, hvt⟩
  · obtain ⟨hrest, hvt⟩ := data_none h
      { tw.graphics (.vrwrite [ESC, 94]) with termstate := .ras, telstate := .norm }
    refine ⟨hrest, hvt.trans ?_⟩
    rw [hbehind htek, WindRec.showsBehindESC, if_pos hras]
    exact (List.append_nil _).symm
  · obtain ⟨hrest, hvt⟩ := @data_shows h _
      (hall { tw.sendESC with telstate := .norm } [] [c] (List.Subset.refl _)) (Nat.le_refl 1)
    refine ⟨hrest, ?_⟩
    rw [hvt, hbehind htek, WindRec.showsBehindESC, if_neg hras, ← List.append_assoc]
    dsimp only
    rw [WindRec.sendESC, WindRec.takes, WindRec.takes]
    cases hterm : tw.termstate with
    | tek | ras => simp [hterm, WindRec.graphics]
    | vt | dumb => simp [hterm, WindRec.vswrite]

/-- A turn over the one character of a packet. -/
theorem turn_shows {tw : WindRec} {c : UInt8} (hc : Printed c) :
    (Scan.turn h beyond ⟨tw, [], [c], false⟩).rest = [] ∧
      (Scan.turn h beyond ⟨tw, [], [c], false⟩).tw.vt = tw.vt ++ tw.shownIn c := by
  have hone : AllPrinted ⟨tw, [], [c], false⟩ := by
    intro d hd
    rw [List.mem_singleton.mp hd]
    exact hc
  -- of an option nothing is left, and its answer shows nothing
  have hoption (verb : Verb) :
      let s := Scan.data h ⟨{ tw.answer verb c with telstate := .norm }, [], [], false⟩
      s.rest = [] ∧ s.tw.vt = tw.vt ++ [] := by
    obtain ⟨hrest, hvt⟩ := data_none h { tw.answer verb c with telstate := .norm }
    have hsame : (tw.answer verb c).vt = tw.vt := WindRec.vt_of_reading (tw.answer_reading verb c)
    exact ⟨hrest, (hvt.trans hsame).trans (List.append_nil _).symm⟩
  rw [Scan.turn]
  dsimp only
  rw [Scan.dispatch]
  cases hstate : tw.telstate with
  | norm =>
    dsimp only
    rw [if_pos hstate, WindRec.shownIn, hstate]
    exact data_shows hone (Nat.le_refl 1)
  | gs | escfound =>
    obtain ⟨-, hnorm, -⟩ := @afterEscape_quiet h ⟨tw, [], [c], false⟩ c [] hone rfl (by simp [hstate])
    dsimp only
    rw [if_pos hnorm]
    exact afterEscape_shows hc (by simp [hstate])
  | iacfound =>
    obtain ⟨hrest, hvt⟩ := data_none h { tw with telstate := .norm }
    dsimp only
    rw [afterIAC_printed hc, WindRec.shownIn, hstate]
    exact ⟨hrest, hvt.trans (List.append_nil _).symm⟩
  | sb =>
    have hstill : (tw.store c).telstate = .sb := hstate
    dsimp only
    rw [inSuboption_printed hc, WindRec.shownIn, hstate]
    dsimp only
    rw [if_neg (by rw [hstill]; decide)]
    exact ⟨rfl, (List.append_nil _).symm⟩
  | will =>
    rw [WindRec.shownIn, hstate]
    exact hoption .will
  | wont =>
    rw [WindRec.shownIn, hstate]
    exact hoption .wont
  | «do» =>
    rw [WindRec.shownIn, hstate]
    exact hoption .do
  | dont =>
    rw [WindRec.shownIn, hstate]
    exact hoption .dont

end Shown

end Scan

section Echo
variable {h : Host} {beyond : UInt8} {tw : WindRec} {c : UInt8}

theorem rawByte_quiet (tw : WindRec) (c : UInt8) :
    (tw.rawByte c).sent = tw.sent ∧ (tw.rawByte c).line = tw.line := by
  rw [WindRec.rawByte]
  split_ifs <;> exact ⟨rfl, rfl⟩

/-- The parser, unless it shows everything raw, takes the character for an option. -/
def WindRec.Answers (tw : WindRec) (c : UInt8) : Prop :=
  tw.termstate ≠ .dumb ∧ ∃ verb : Verb, tw.telstate = verb.awaits ∧ ¬tw.opts.Ignores verb c

/-- A shown character in a packet of its own does what the option does that it names, if it
names one. -/
theorem parse_shown (hc : Printed c) :
    ((parse h beyond tw [c]).sent = tw.sent ∧ (parse h beyond tw [c]).line = tw.line ∧
        ¬tw.Answers c) ∨
      ∃ verb : Verb, (parse h beyond tw [c]).sent = (tw.answer verb c).sent ∧
        (parse h beyond tw [c]).line = (tw.answer verb c).line ∧
        (tw.Answers c ↔ ¬tw.opts.Ignores verb c) := by
  rw [parse, parseScan]
  split_ifs with hdumb
  · obtain ⟨hsent, hline⟩ := rawByte_quiet tw c
    exact .inl ⟨hsent, hline, fun hans => hans.1 hdumb⟩
  · by_cases hopt : ∃ verb : Verb, tw.telstate = verb.awaits
    · obtain ⟨verb, hverb⟩ := hopt
      obtain ⟨hsent, hline⟩ := @Scan.loop_option h beyond (3*[c].length) verb c tw hverb
      refine .inr ⟨verb, hsent, hline, ?_, fun hans => ⟨hdumb, verb, hverb, hans⟩⟩
      rintro ⟨-, verb', hverb', hans⟩
      have hsame : verb = verb' := by
        rw [hverb] at hverb'
        revert hverb'
        cases verb <;> cases verb' <;> decide
      rwa [hsame]
    · have hshown : Scan.AllPrinted ⟨tw, [], [c], false⟩ := by
        intro d hd
        rw [List.mem_singleton.mp hd]
        exact hc
      have hno : Scan.NoOption ⟨tw, [], [c], false⟩ := fun verb hverb => hopt ⟨verb, hverb⟩
      obtain ⟨hsent, hline⟩ := @Scan.loop_quiet h beyond _ (3*[c].length+1) hshown hno
      refine .inl ⟨hsent, hline, ?_⟩
      rintro ⟨-, verb, hverb, -⟩
      exact hopt ⟨verb, hverb⟩

/-- It sends nothing, if and only if it is not the option of a command that is answered. -/
theorem parse_sent_iff (hc : Printed c) :
    (parse h beyond tw [c]).sent = tw.sent ↔ ¬tw.Answers c := by
  rcases @parse_shown h beyond tw c hc with ⟨hsent, -, hno⟩ | ⟨verb, hsent, -, hans⟩
  · exact iff_of_true hsent hno
  · rw [hsent, answer_sent_iff, hans, not_not]

/-- Then it leaves the line alone. -/
theorem parse_line (hc : Printed c) (hno : ¬tw.Answers c) :
    (parse h beyond tw [c]).line = tw.line := by
  rcases @parse_shown h beyond tw c hc with ⟨-, hline, -⟩ | ⟨verb, -, hline, hans⟩
  · exact hline
  · rw [hans, not_not] at hno
    rw [hline]
    exact (answer_ignored hno).2

/-- What the terminal gets of a shown character in a packet of its own. -/
theorem parse_shows (hc : Printed c) : (parse h beyond tw [c]).vt = tw.vt ++ tw.shows c := by
  rw [parse, parseScan]
  split_ifs with hdumb
  · have hraw : ¬(c = 27 ∨ 126 < c) := by
      rintro (rfl | htop)
      · exact absurd hc.1 (by decide)
      · exact absurd hc.2 (UInt8.not_lt.mpr htop)
    rw [WindRec.shows, if_pos hdumb]
    change (tw.rawByte c).vt = _
    rw [WindRec.rawByte, if_neg hraw]
    rfl
  · obtain ⟨hrest, hvt⟩ := @Scan.turn_shows h beyond tw c hc
    rw [Scan.loop, if_neg (List.cons_ne_nil _ _), Scan.loop_done h beyond hrest, hvt,
      WindRec.shows, if_neg hdumb]

/-- That is the character or nothing, and the escape before it or nothing. -/
theorem shows_cases (tw : WindRec) (c : UInt8) : tw.shows c = [] ∨ tw.shows c = [c] ∨
    tw.shows c = [ESC] ∨ tw.shows c = [ESC, c] := by
  have htakes : tw.takes [c] = [] ∨ tw.takes [c] = [c] := by
    rw [WindRec.takes]
    exact ite_eq_or_eq ..
  have hbehind : tw.showsBehindESC c = [] ∨ tw.showsBehindESC c = [c] ∨
      tw.showsBehindESC c = [ESC] ∨ tw.showsBehindESC c = [ESC, c] := by
    rw [WindRec.showsBehindESC]
    split_ifs
    · exact .inl rfl
    · rcases htakes with hnone | hone
      · exact .inl hnone
      · exact .inr (.inl hone)
    · rcases htakes with hnone | hone
      · exact .inr (.inr (.inl (congrArg ([ESC] ++ ·) hnone)))
      · exact .inr (.inr (.inr (congrArg ([ESC] ++ ·) hone)))
  have htaken : tw.takes [c] = [] ∨ tw.takes [c] = [c] ∨ tw.takes [c] = [ESC] ∨
      tw.takes [c] = [ESC, c] := htakes.imp_right .inl
  rw [WindRec.shows]
  split_ifs
  · exact .inr (.inl rfl)
  · rw [WindRec.shownIn]
    split
    · exact htaken
    · split_ifs
      · exact htaken
      · exact hbehind
    · exact hbehind
    · exact .inl rfl

end Echo

end Telnet

namespace VS.Emulation

variable {τ : Type}

/-- A number as `sprintf` prints it with `%d`. -/
def decimalText (n : Int) : List UInt8 :=
  (if n < 0 then [0x2d] else []) ++
    (Nat.toDigits 10 n.natAbs).map fun d => UInt8.ofNat d.toNat

/-- The report of the cursor's position. -/
def VTsendpos (e : Emulation τ) : List UInt8 :=
  -- behind the last column it is where the next character goes
  let x := if e.x > e.lastColumn then 0 else e.x
  let y := if e.x > e.lastColumn then short (e.y+1) else e.y
  let y := if y > e.buf.lines then e.buf.lines else y
  [0x1b, 0x5b] ++ decimalText (y+1) ++ 0x3b :: decimalText (x+1) ++ [0x52]

def VTsendprintstat : List UInt8 := [0x1b, 0x5b, 0x3f, 0x31, 0x30, 0x6e]   -- ESC [ ? 1 0 n

def VTsendudkstat : List UInt8 := [0x1b, 0x5b, 0x3f, 0x32, 0x31, 0x6e]     -- ESC [ ? 2 1 n

def VTsendstat : List UInt8 := [0x1b, 0x5b, 0x30, 0x6e]                    -- ESC [ 0 n

def VTsendident (e : Emulation τ) : List UInt8 :=
  if e.vtemulation ≠ .vt100 then
    -- ESC [ ? 6 2 ; 1 ; 2 ; 6 ; 7 ; 8 c
    [0x1b, 0x5b, 0x3f, 0x36, 0x32, 0x3b, 0x31, 0x3b, 0x32, 0x3b, 0x36, 0x3b, 0x37, 0x3b, 0x38,
      0x63]
  else [0x1b, 0x5b, 0x3f, 0x36, 0x63]                                      -- ESC [ ? 6 c

/-- `ESC [ > 1 ; 1 0 ; 0 c`. -/
def VTsendsecondaryident : List UInt8 :=
  [0x1b, 0x5b, 0x3e, 0x31, 0x3b, 0x31, 0x30, 0x3b, 0x30, 0x63]

/-- What the emulation sends to the host for an octet. `launched` says whether a URL that ends
with it was opened. Text that is redirected to the printer asks for nothing, and neither do the
characters that a sequence repeats, which are all the same. -/
def report (launched : List UInt8 → Bool) (e : Emulation τ) (c : UInt8) : List UInt8 :=
  if e.printer.prredirect then []
  else
    match e.escflg with
    | .esc_basic => if c = 0x5a then e.VTsendident else []                  -- Z
    | .esc_csi =>
      if c = 0x63 then                                                      -- c
        if e.parms 0 = -2 then []
        else if e.escflags &&& 1 = 0 then e.VTsendident
        else VTsendsecondaryident
      else if c = 0x6e then                                                 -- n
        if e.parms 0 = -2 then
          if e.parms 1 = 15 then VTsendprintstat
          else if e.parms 1 = 25 then VTsendudkstat
          else []
        else if e.parms 0 = 5 then VTsendstat
        else if e.parms 0 = 6 then e.VTsendpos
        else []
      else []
    | .esc_url =>
      if e.escflags = 5 ∧ (c = 0x0d ∨ c = 0x0a) then
        if launched e.tempstr then [0x53] else [0x46]                       -- S or F
      else []
    | _ => []

/-- What it sends for these octets, one after the other. -/
def reports (launched : List UInt8 → Bool) (before : UInt8) :
    Emulation τ → List UInt8 → List UInt8
  | _, [] => []
  | e, c :: cs =>
    e.report launched c ++ match VSem before e [c] with
      | none => []
      | some e => reports launched before e cs

/-- The octet ends a request for a report. -/
def asks (e : Emulation τ) (c : UInt8) : Bool :=
  !e.printer.prredirect &&
    match e.escflg with
    | .esc_basic => c = 0x5a                                                      -- Z
    | .esc_csi =>
      c = 0x63 && e.parms 0 ≠ -2 ||                                               -- c
        c = 0x6e && if e.parms 0 = -2 then e.parms 1 = 15 || e.parms 1 = 25       -- n
          else e.parms 0 = 5 || e.parms 0 = 6
    | .esc_url => e.escflags = 5 && (c = 0x0d || c = 0x0a)
    | _ => false

/-- Some octet of these does. -/
def asksIn (before : UInt8) : Emulation τ → List UInt8 → Bool
  | _, [] => false
  | e, c :: cs =>
    e.asks c || match VSem before e [c] with
      | none => false
      | some e => asksIn before e cs

section Reports
variable {launched : List UInt8 → Bool} {before : UInt8} {e : Emulation τ} {c : UInt8}

theorem VTsendident_ne : e.VTsendident ≠ [] := by
  rw [VTsendident]
  split_ifs <;> exact List.cons_ne_nil _ _

theorem VTsendpos_ne : e.VTsendpos ≠ [] := List.cons_ne_nil _ _

/-- Just what ends a request is answered. -/
theorem report_eq_nil_iff : e.report launched c = [] ↔ e.asks c = false := by
  rw [report, asks]
  cases hprinting : e.printer.prredirect with
  | true => exact iff_of_true rfl rfl
  | false =>
    rw [if_neg Bool.false_ne_true, Bool.not_false, Bool.true_and]
    cases hstate : e.escflg with
    | esc_basic =>
      dsimp only
      rw [decide_eq_false_iff_not]
      split_ifs with hident
      · exact iff_of_false VTsendident_ne (not_not.mpr hident)
      · exact iff_of_true rfl hident
    | esc_csi =>
      dsimp only
      split_ifs with hc hset hfirst hn hprivate h15 h25 h5 h6
      · exact iff_of_true rfl (by simp [hc, hset])
      · exact iff_of_false VTsendident_ne (by simp [hc, hset])
      · exact iff_of_false (List.cons_ne_nil _ _) (by simp [hc, hset])
      · exact iff_of_false (List.cons_ne_nil _ _) (by simp [hn, h15])
      · exact iff_of_false (List.cons_ne_nil _ _) (by simp [hn, h25])
      · exact iff_of_true rfl (by simp [hc, h15, h25])
      · exact iff_of_false (List.cons_ne_nil _ _) (by simp [hn, h5])
      · exact iff_of_false VTsendpos_ne (by simp [hn, h6])
      · exact iff_of_true rfl (by simp [hc, h5, h6])
      · exact iff_of_true rfl (by simp [hc, hn])
      · exact iff_of_true rfl (by simp [hc, hn])
    | esc_url =>
      dsimp only
      split_ifs with hurl hopened
      · exact iff_of_false not_false (by simpa [hurl.1, or_iff_not_imp_left] using hurl.2)
      · exact iff_of_false not_false (by simpa [hurl.1, or_iff_not_imp_left] using hurl.2)
      · exact iff_of_true rfl (by simpa using hurl)
    | _ => exact iff_of_true rfl rfl

theorem reports_eq_nil_iff (before : UInt8) (cs : List UInt8) :
    ∀ e : Emulation τ, e.reports launched before cs = [] ↔ e.asksIn before cs = false := by
  induction cs with
  | nil => exact fun e => iff_of_true rfl rfl
  | cons c cs ih =>
    intro e
    rw [reports, asksIn, List.append_eq_nil_iff, Bool.or_eq_false_iff, report_eq_nil_iff]
    cases VSem before e [c] with
    | none => exact and_congr_right fun _ => iff_of_true rfl rfl
    | some e => exact and_congr_right fun _ => ih e

end Reports

end VS.Emulation
