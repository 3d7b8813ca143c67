import MacSSH.TekDraw

/-! A character goes through the drawing machine of a Tektronix window a bounded number of
times: each state that hands it on hands it to a state of lower rank. -/
namespace Tek

open VGWINTYPE

/-- A control character is not taken for a piece of a coordinate. -/
def isControl (c : UInt8) : Bool := (c >>> 5) &&& 3 = 0

/-- How many more times a character may go through the machine from a state, a control
character or another one. -/
def rank (control : Bool) : VGstate → ℕ
  | .HIY | .EXTRA | .LOY | .HIX | .LOX => if control then 1 else 0
  | .DONE | .CANCEL => if control then 0 else 1
  | .INTEGER | .INTEGER1 | .INTEGER2 => 0
  | .STARTDISC => 3
  | .ESCOUT => 4
  | _ => 2

/-- A window that is left by a state keeps a saved state to which the machine can go back, and
where the character goes on it is at a rank below `n`. -/
def Falls (c : UInt8) (n : ℕ) : Outcome → Prop
  | .stay w => w.savstate ≠ .ESCOUT
  | .ret w => w.savstate ≠ .ESCOUT
  | .again w => w.savstate ≠ .ESCOUT ∧ rank (isControl c) w.state < n

/-- Whether the loop stops within a number of rounds. -/
def stops (font : Font) (c : UInt8) : ℕ → VGWINTYPE → Bool
  | 0, _ => false
  | rounds+1, w =>
    match w.switch font c with
    | .again w => stops font c rounds (w.afterSwitch font)
    | _ => true

section Rounds
variable {font : Font} {w w' : VGWINTYPE} {c : UInt8} {n : ℕ} {s : VGstate}

theorem rank_le (control : Bool) (s : VGstate) : rank control s ≤ 4 := by
  cases s <;> cases control <;> decide

/-- Only from a character that is skipped behind an escape does one go on four times. -/
theorem rank_of_ne (control : Bool) (h : s ≠ .ESCOUT) : rank control s < 4 := by
  cases s <;> cases control <;> first | decide | exact absurd rfl h

/-- Where the machine is ready for anything, or has cancelled, a character goes at most once
more. -/
theorem rank_done (control : Bool) (h : s = .DONE ∨ s = .CANCEL) : rank control s < 2 := by
  rcases h with rfl | rfl <;> cases control <;> decide

theorem emit_states (w : VGWINTYPE) (b : Bool) (event : TekEvent) :
    (if b then w.emit event else w).state = w.state ∧
      (if b then w.emit event else w).savstate = w.savstate := by
  split
  · exact ⟨rfl, rfl⟩
  · exact ⟨rfl, rfl⟩

theorem linefeed_states (w : VGWINTYPE) :
    w.linefeed.state = w.state ∧ w.linefeed.savstate = w.savstate := by
  rw [linefeed]
  split
  · exact ⟨rfl, rfl⟩
  · exact ⟨rfl, rfl⟩

/-- Drawing a character leaves the states as they are. -/
theorem drawc_states (w : VGWINTYPE) (c : Int) :
    (w.drawc font c).state = w.state ∧ (w.drawc font c).savstate = w.savstate := by
  rw [drawc]
  by_cases hfeed : c = 10
  · rw [if_pos hfeed]
    exact linefeed_states w
  rw [if_neg hfeed]
  by_cases hbell : c = 7
  · rw [if_pos hbell]
    exact ⟨rfl, rfl⟩
  rw [if_neg hbell]
  by_cases hback : c = 8
  · rw [if_pos hback]
    split
    · exact ⟨rfl, rfl⟩
    · exact ⟨rfl, rfl⟩
  rw [if_neg hback]
  -- The pen gets its color before the strokes and after them.
  obtain ⟨hstate, hsav⟩ :=
    emit_states w w.TEKtype (.pencolor (if c > 126 then w.pencolor else w.TEKIndex))
  by_cases hout : c < 32 ∨ c > 137
  · simp only [if_pos hout]
    exact ⟨hstate, hsav⟩
  · simp only [if_neg hout]
    exact ⟨(emit_states ..).1.trans hstate, (emit_states ..).2.trans hsav⟩

theorem Falls.ite {p : Prop} [Decidable p] {a b : Outcome} (ha : Falls c n a) (hb : Falls c n b) :
    Falls c n (if p then a else b) := by
  split
  · exact ha
  · exact hb

theorem falls_stay (h : w.savstate ≠ .ESCOUT) : Falls c n (.stay w) := h

theorem falls_again (h : w.savstate ≠ .ESCOUT) (hn : rank (isControl c) s < n) :
    Falls c n (w.againIn s) := ⟨h, hn⟩

theorem falls_integerThen (h : s ≠ .ESCOUT) (hn : 0 < n) :
    Falls c n (.again (w.integerThen s)) := ⟨h, hn⟩

theorem falls_done (h : w.savstate ≠ .ESCOUT) : Falls c 2 (w.againIn .DONE) :=
  falls_again h (rank_done _ (Or.inl rfl))

/-- A control character where a piece of a coordinate is expected cancels it. -/
theorem control_falls (h : w.savstate ≠ .ESCOUT) (hs : w.state ≠ .ESCOUT)
    (hc : isControl c = true) (hn : 0 < n) (value : UInt8) {next : VGstate}
    (hnext : next = .DONE ∨ next = .CANCEL) : Falls c n (w.control value next) := by
  have hnone : rank (isControl c) next = 0 := by
    rw [hc]
    rcases hnext with rfl | rfl <;> rfl
  apply Falls.ite (falls_stay hs)
  apply Falls.ite (falls_stay h)
  exact falls_again h (hnone ▸ hn)

/-- A character where a piece of a coordinate is expected. -/
theorem coordinate_falls (h : w.savstate ≠ .ESCOUT) (hs : w.state ≠ .ESCOUT)
    (hn : isControl c = true → 0 < n) (value : UInt8) :
    Falls c n (w.coordinate ((c >>> 5) &&& 3) value) := by
  have hcancel {w' : VGWINTYPE} (hsaved : w'.savstate = w.savstate) (hstate : w'.state = w.state)
      {next : VGstate} (hnext : next = .DONE ∨ next = .CANCEL) (hc : (c >>> 5) &&& 3 = 0) :
      Falls c n (w'.control value next) := by
    have hcontrol : isControl c = true := decide_eq_true hc
    exact control_falls (hsaved ▸ h) (hstate ▸ hs) hcontrol (hn hcontrol) value hnext
  rw [coordinate]
  split
  · dsimp only
    split_ifs with hc
    · apply hcancel _ _ (Or.inr rfl) hc
      · rfl
      · rfl
    all_goals exact h
  all_goals
    split_ifs with hc
    · exact hcancel rfl rfl (Or.inl rfl) hc
    all_goals exact h

theorem plot_falls (h : w.savstate ≠ .ESCOUT) : Falls c 2 (w.plot c) := by
  have hcancel : rank (isControl c) .CANCEL < 2 := rank_done _ (Or.inr rfl)
  simp only [plot]
  split
  case h_11 =>
    apply Falls.ite
    · split <;> exact VGstate.noConfusion
    · split <;> exact ⟨h, hcancel⟩
  all_goals
    split <;> exact h

theorem command_falls (h : w.savstate ≠ .ESCOUT) : Falls c 2 (w.command c) := by
  have hdone : VGstate.DONE ≠ .ESCOUT := VGstate.noConfusion
  rw [command]
  apply Falls.ite (falls_done h)
  apply Falls.ite
  · split
    · exact h
    · exact h
  apply Falls.ite
  · exact h
  apply Falls.ite
  · exact hdone
  split
  case h_11 => exact hdone
  all_goals exact h

theorem only4105_falls {w' : VGWINTYPE} (h : w.savstate ≠ .ESCOUT) (h' : w'.savstate ≠ .ESCOUT) :
    Falls c n (w.only4105 w') := Falls.ite (falls_stay h') (falls_stay h)

theorem endPanel_savstate (w : VGWINTYPE) : w.endPanel.savstate = w.savstate := by
  rw [endPanel]
  split
  · rfl
  · simp only [emit]
    split_ifs <;> rfl

theorem commandL_falls (h : w.savstate ≠ .ESCOUT) : Falls c n (w.commandL c) := by
  rw [commandL]
  split
  case h_1 =>
    apply falls_stay
    split
    · exact (endPanel_savstate w) ▸ h
    · exact h
  case h_6 => exact VGstate.noConfusion
  case h_7 => exact only4105_falls h h
  case h_8 => exact only4105_falls h VGstate.noConfusion
  all_goals exact h

theorem commandM_falls (h : w.savstate ≠ .ESCOUT) : Falls c n (w.commandM c) := by
  rw [commandM]
  split
  case h_9 => exact h
  case h_1 | h_2 => exact VGstate.noConfusion
  all_goals exact only4105_falls h VGstate.noConfusion

theorem commandT_falls (h : w.savstate ≠ .ESCOUT) : Falls c n (w.commandT c) := by
  rw [commandT]
  split
  case h_4 => exact VGstate.noConfusion
  all_goals exact h

theorem integer_falls (h : w.savstate ≠ .ESCOUT) : Falls c n (w.integer c) := by
  simp only [integer]
  split
  · exact Falls.ite (falls_stay h) (falls_stay h)
  · exact Falls.ite (falls_stay h) (falls_stay h)
  · exact h

theorem discard_falls (h : w.savstate ≠ .ESCOUT) : Falls c 2 w.discard := by
  rw [VGWINTYPE.discard]
  apply Falls.ite
  · exact ⟨h, rank_done _ (Or.inl rfl)⟩
  apply Falls.ite
  · exact falls_integerThen VGstate.noConfusion Nat.two_pos
  · exact falls_integerThen VGstate.noConfusion Nat.two_pos

/-- Where the machine is ready for anything, only a character that is not a control character
may go once more. -/
theorem anything_falls (h : w.savstate ≠ .ESCOUT) (hn : isControl c = false → 0 < n) :
    Falls c n (w.anything font ((c >>> 5) &&& 3) c) := by
  rw [anything]
  iterate 5
    apply Falls.ite
    · exact h
  apply Falls.ite
  · apply Falls.ite
    · change (w.drawc font c.toNat).savstate ≠ .ESCOUT
      rw [(drawc_states w c.toNat).2]
      exact h
    · apply Falls.ite
      · exact h
      · exact h
  · by_cases hc : (c >>> 5) &&& 3 = 0
    · rw [if_neg fun hmode => hmode.2 hc]
      exact Falls.ite (falls_stay h) h
    · have hcontrol : isControl c = false := decide_eq_false hc
      apply Falls.ite
      · apply falls_again h
        rw [hcontrol]
        exact hn hcontrol
      · apply Falls.ite
        · exact h
        · exact h

/-- In each state a character is used up, or goes on in a state of lower rank. -/
theorem switch_falls (h : w.savstate ≠ .ESCOUT) :
    Falls c (rank (isControl c) w.state) (w.switch font c) := by
  rw [switch]
  cases hs : w.state with
  | HIY | EXTRA | LOY | HIX | LOX =>
    have hstate : w.state ≠ .ESCOUT := by
      rw [hs]
      exact VGstate.noConfusion
    apply coordinate_falls h hstate
    intro hc
    rw [hc]
    exact Nat.zero_lt_one
  | DONE =>
    apply anything_falls h
    intro hc
    rw [hc]
    exact Nat.zero_lt_one
  | ESCOUT =>
    apply Falls.ite
    · exact falls_again h (rank_of_ne _ h)
    · exact h
  | ENTERVEC =>
    -- a position begins, or the machine goes back to `DONE`
    have hbegin : rank (isControl c) .HIY < 2 := by
      cases isControl c <;> decide
    by_cases hbell : c = 7
    · simp only [if_pos hbell]
      apply Falls.ite
      · exact ⟨h, rank_done _ (Or.inl rfl)⟩
      · exact ⟨h, hbegin⟩
    · simp only [if_neg hbell]
      apply Falls.ite
      · exact ⟨h, rank_done _ (Or.inl rfl)⟩
      · exact ⟨h, hbegin⟩
  | RS => exact plot_falls h
  | CMD0 => exact command_falls h
  | SOMEL => exact commandL_falls h
  | SOMEM => exact commandM_falls h
  | SOMET => exact commandT_falls h
  | INTEGER | INTEGER1 | INTEGER2 => exact integer_falls h
  | DISCARDING => exact discard_falls h
  | STARTDISC => exact ⟨h, Nat.lt_succ_self 2⟩
  | TERMSTAT =>
    apply Falls.ite
    · exact VGstate.noConfusion
    · exact h
  | SOMER =>
    apply Falls.ite
    · exact VGstate.noConfusion
    · exact h
  | JUNKARRAY => exact VGstate.noConfusion
  | VIEWAT | VIEWAT2 | GTSIZE0 | GTSIZE1 | GTROT =>
    exact ⟨VGstate.noConfusion, Nat.two_pos⟩
  | COLORINT => exact ⟨h, rank_done _ (Or.inr rfl)⟩
  | GTEXT =>
    apply Falls.ite
    · change (w.drawc font c.toNat).savstate ≠ .ESCOUT
      rw [(drawc_states w c.toNat).2]
      exact h
    · exact ⟨h, rank_done _ (Or.inl rfl)⟩
  | PANEL => exact ⟨VGstate.noConfusion, rank_done _ (Or.inl rfl)⟩
  | MARKER | GTPATH | FPATTERN | GTROT1 | GTINDEX => exact ⟨h, rank_done _ (Or.inl rfl)⟩
  | IGNORE | IGNORE2 | CANCEL => exact h

/-- What a complete position does may turn the machine to the integer behind a panel. -/
theorem finish_states (w : VGWINTYPE) :
    ((w.finish font).state = .INTEGER ∧ (w.finish font).savstate = .PANEL) ∨
      ((w.finish font).state = w.state ∧ (w.finish font).savstate = w.savstate) := by
  have hmark (w : VGWINTYPE) (c : Int) :
      ((w.newcoord.drawc font c).newcoord).state = w.state ∧
        ((w.newcoord.drawc font c).newcoord).savstate = w.savstate :=
    drawc_states w.newcoord c
  rw [finish]
  dsimp only
  split
  · exact Or.inl ⟨rfl, rfl⟩
  right
  split
  · split <;> exact ⟨rfl, rfl⟩
  split
  · exact ⟨rfl, rfl⟩
  split
  · split <;> exact ⟨rfl, rfl⟩
  split
  · by_cases htype : w.newcoord.TEKtype
    · rw [if_pos htype]
      split
      · exact hmark w _
      · exact hmark w _
    · rw [if_neg htype]
      split <;> exact ⟨rfl, rfl⟩
  · exact ⟨rfl, rfl⟩

/-- The end of a round does not raise the rank. -/
theorem afterSwitch_falls (h : w.savstate ≠ .ESCOUT) (control : Bool) :
    (w.afterSwitch font).savstate ≠ .ESCOUT ∧
      rank control (w.afterSwitch font).state ≤ rank control w.state := by
  have hcancel (w : VGWINTYPE) (hw : w.savstate ≠ .ESCOUT) :
      (if w.state = .CANCEL then { w with state := .DONE } else w).savstate ≠ .ESCOUT ∧
        rank control (if w.state = .CANCEL then { w with state := .DONE } else w).state ≤
          rank control w.state := by
    split_ifs with hs
    · rw [hs]
      exact ⟨hw, le_rfl⟩
    · exact ⟨hw, le_rfl⟩
  rw [afterSwitch]
  by_cases hs : w.state = .DONE
  · rw [if_pos hs]
    obtain ⟨hsaved, hrank⟩ : (w.finish font).savstate ≠ .ESCOUT ∧
        rank control (w.finish font).state ≤ rank control w.state := by
      rcases @finish_states font w with ⟨hstate, hsaved⟩ | ⟨hstate, hsaved⟩
      · rw [hsaved, hstate]
        exact ⟨VGstate.noConfusion, Nat.zero_le _⟩
      · rw [hsaved, hstate]
        exact ⟨h, le_rfl⟩
    -- at `DONE` the position is finished before a cancel is looked for
    obtain ⟨hsaved', hrank'⟩ := hcancel (w.finish font) hsaved
    exact ⟨hsaved', hrank'.trans hrank⟩
  · rw [if_neg hs]
    exact hcancel w h

/-- The loop stops after as many rounds as the rank allows, whatever more it is given, and
leaves a saved state to which the machine can go back. -/
theorem loop_stops {rounds : ℕ} (h : w.savstate ≠ .ESCOUT)
    (hn : rank (isControl c) w.state < rounds) :
    stops font c rounds w = true ∧ (drawLoop font c rounds w).savstate ≠ .ESCOUT ∧
      ∀ more, drawLoop font c (rounds+more) w = drawLoop font c rounds w := by
  induction rounds generalizing w with
  | zero => exact absurd hn (Nat.not_lt_zero _)
  | succ rounds ih =>
    have hfalls := @switch_falls font w c h
    have hplus (more : ℕ) : rounds+1+more = rounds+more+1 := by omega
    rw [stops, drawLoop]
    cases hout : w.switch font c with
    | ret w' =>
      rw [hout] at hfalls
      refine ⟨rfl, hfalls, fun more => ?_⟩
      rw [hplus, drawLoop, hout]
    | stay w' =>
      rw [hout] at hfalls
      refine ⟨rfl, (afterSwitch_falls hfalls true).1, fun more => ?_⟩
      rw [hplus, drawLoop, hout]
    | again w' =>
      rw [hout] at hfalls
      obtain ⟨hsaved, hlower⟩ := hfalls
      obtain ⟨hsaved', hrank⟩ := @afterSwitch_falls font w' hsaved (isControl c)
      obtain ⟨hstops, hleft, hmore⟩ := @ih (w'.afterSwitch font) hsaved' (by omega)
      refine ⟨hstops, hleft, fun more => ?_⟩
      rw [hplus, drawLoop, hout]
      exact hmore more

/-- The windows that the program has: a new one, one that has taken a character, and one in
which the rest of the program has changed anything but the saved state, which only the machine
writes. -/
inductive Drawn (font : Font) : VGWINTYPE → Prop where
  | opened (tek4105 tekclear : Bool) (outside : Int → UInt8) (grants : List Bool) :
    Drawn font (VGnewwin tek4105 tekclear outside grants)
  | took {w : VGWINTYPE} (c : UInt8) (h : Drawn font w) : Drawn font (w.VGdraw font c)
  | changed {w w' : VGWINTYPE} (h : Drawn font w) (hs : w'.savstate = w.savstate) : Drawn font w'

theorem Drawn.saved (h : Drawn font w) : w.savstate ≠ .ESCOUT := by
  induction h with
  | opened => exact VGstate.noConfusion
  | @took w c _ ih =>
    have hn : rank (isControl (c &&& 0x7f)) w.state < 8 := (rank_le _ _).trans_lt (by decide)
    exact (loop_stops ih hn).2.1
  | changed _ hs ih =>
    rw [hs]
    exact ih

/-- Whatever state and modes a window is in, a character goes through the machine at most five
times; with more rounds the window would be the same. -/
theorem VGdraw_stops (h : Drawn font w) (c : UInt8) :
    ∃ rounds ≤ 5, stops font (c &&& 0x7f) rounds w = true ∧
      ∀ more, drawLoop font (c &&& 0x7f) (rounds+more) w = w.VGdraw font c := by
  have hn : rank (isControl (c &&& 0x7f)) w.state < 5 := Nat.lt_succ_of_le (rank_le _ _)
  obtain ⟨hstops, -, hmore⟩ := @loop_stops font w (c &&& 0x7f) 5 h.saved hn
  refine ⟨5, le_rfl, hstops, fun more => ?_⟩
  rw [hmore, VGdraw, ← hmore 3]

end Rounds

/-- A new window that has taken an escape takes a letter. -/
theorem letter_after_escape_stops :
    ∃ rounds ≤ 5, stops (fun _ _ => []) (76 &&& 0x7f) rounds
        ((VGnewwin true true (fun _ => 0) []).VGdraw (fun _ _ => []) 27) = true ∧
      ∀ more, drawLoop (fun _ _ => []) (76 &&& 0x7f) (rounds+more)
          ((VGnewwin true true (fun _ => 0) []).VGdraw (fun _ _ => []) 27) =
        ((VGnewwin true true (fun _ => 0) []).VGdraw (fun _ _ => []) 27).VGdraw
          (fun _ _ => []) 76 :=
  VGdraw_stops (.took 27 (.opened true true (fun _ => 0) [])) 76

end Tek
