import MacSSH.TelnetOptions

/-! Whether the two ends of a telnet session agree on their options: what the
client has announced, the flags it keeps, and which commands pull them apart. -/
namespace Telnet

/-- Which end an option is about. -/
inductive Side where
  | mine | his
  deriving DecidableEq, Repr

/-- The end that a command received from the other side is about. -/
def Verb.subject : Verb → Side
  | .do | .dont => .mine
  | .will | .wont => .his

/-- The end that a command sent by the client is about. -/
def Verb.about : Verb → Side
  | .will | .wont => .mine
  | .do | .dont => .his

/-- `DO` and `WILL` turn an option on. -/
def Verb.turnsOn : Verb → Bool
  | .do | .will => true
  | .dont | .wont => false

/-- The option commands among the writes to the network. -/
def negotiations (sent : List Write) : List (Verb × UInt8) :=
  sent.filterMap fun
    | .neg verb option => some (verb, option)
    | .raw _ => none

/-- The flag the client keeps for an option. `echo` is local echo, so it is the
opposite of the other side's; `remote_flow` serves both ends. -/
def Options.flag (o : Options) (side : Side) (option : UInt8) : Option Bool :=
  match side with
  | .mine =>
    if option = N_SGA then some o.Isga
    else if option = N_TERMTYP then some o.Ittype
    else if option = N_NAWS then some o.naws
    else if option = N_REMOTEFLOW then some o.remote_flow
    else if option = N_LINEMODE then some o.lmode
    else if option = N_AUTHENTICATION then some o.myAuthentication
    else if option = N_ENCRYPT then some o.myEncrypt
    else none
  | .his =>
    if option = N_ECHO then some !o.echo
    else if option = N_SGA then some o.Usga
    else if option = N_REMOTEFLOW then some o.remote_flow
    else if option = N_AUTHENTICATION then some o.hisAuthentication
    else if option = N_ENCRYPT then some o.hisEncrypt
    else none

/-- The state last announced on the wire for each end and option. -/
abbrev Announced := Side → UInt8 → Bool

/-- One more command on the wire. A command about remote flow control speaks for
both ends, as the flag does. -/
def announce (a : Announced) (command : Verb × UInt8) : Announced := fun side option =>
  if option = command.2 ∧ (side = command.1.about ∨ option = N_REMOTEFLOW) then
    command.1.turnsOn
  else a side option

/-- The option commands sent in answer to one command. -/
def WindRec.replies (tw : WindRec) (verb : Verb) (option : UInt8) : List (Verb × UInt8) :=
  (negotiations (tw.answer verb option).sent).drop (negotiations tw.sent).length

def announceAll (a : Announced) (replies : List (Verb × UInt8)) : Announced :=
  replies.foldl announce a

/-- The client answers a command as it should: at most one reply, about the end
and the option in question, never an acceptance and a refusal; none when the
state asked for is the present one; afterwards its flag says what it announced;
and an option that is turned off is off, and acknowledged if it was on. -/
structure Agrees (a : Announced) (tw : WindRec) (verb : Verb) (option : UInt8) : Prop where
  one : (tw.replies verb option).length ≤ 1
  direction : ∀ r ∈ tw.replies verb option, r.2 = option ∧ r.1.about = verb.subject
  consistent : ¬ ((∃ r ∈ tw.replies verb option, r.1.turnsOn = true) ∧
    ∃ r ∈ tw.replies verb option, r.1.turnsOn = false)
  noLoop : a verb.subject option = verb.turnsOn → tw.replies verb option = []
  synced : ∀ side b, (tw.answer verb option).opts.flag side option = some b →
    announceAll a (tw.replies verb option) side option = b
  off : verb.turnsOn = false →
    announceAll a (tw.replies verb option) verb.subject option = false ∧
    (a verb.subject option = true →
      ∃ r ∈ tw.replies verb option, r.2 = option ∧ r.1.turnsOn = false)

/-- The flag of the option, where one is kept for this end, says what was announced. -/
def InStep (a : Announced) (tw : WindRec) (side : Side) (option : UInt8) : Prop :=
  ∀ b, tw.opts.flag side option = some b → a side option = b

/-- The commands that get no reply, by the flags they find. -/
def Options.Ignores (o : Options) (verb : Verb) (option : UInt8) : Prop :=
  match verb with
  | .do => option = N_SGA ∧ o.Isga = true ∨ option = N_TERMTYP ∧ o.Ittype = true ∨
    option = N_AUTHENTICATION ∧ o.myAuthentication = true ∨
    option = N_ENCRYPT ∧ o.myEncrypt = true ∨ option = N_REMOTEFLOW ∧ o.remote_flow = true
  | .dont => option ≠ N_AUTHENTICATION ∧ option ≠ N_ENCRYPT ∧
    (option = N_LINEMODE → o.lmode = false)
  | .will => option = N_ECHO ∧ o.echo = false ∨ option = N_SGA ∧ o.Usga = true ∨
    option = N_TIMING ∨ option = N_AUTHENTICATION ∧ o.hisAuthentication = true ∨
    option = N_ENCRYPT ∧ o.hisEncrypt = true
  | .wont => option ≠ N_AUTHENTICATION ∧ option ≠ N_ENCRYPT ∧
    (option = N_ECHO → o.echo = true) ∧ (option = N_SGA → o.Usga = false)

/-- The commands whose reply does not fit the flags: the offer of remote flow control gets two,
and the request for line mode is refused when it is on, but not allowed. -/
def WindRec.Misanswers (tw : WindRec) (verb : Verb) (option : UInt8) : Prop :=
  verb = .will ∧ option = N_REMOTEFLOW ∨
    verb = .do ∧ option = N_LINEMODE ∧ tw.cfg.lineAllow = false ∧ tw.opts.lmode = true

/-- The commands that are answered well, by the state they find. One that gets no reply finds
the flags of its option in step, and asks for nothing to be turned off that is on; one that gets
a reply asks for a change, and finds the flag of the other end in step. -/
def WellAnswered (a : Announced) (tw : WindRec) (verb : Verb) (option : UInt8) : Prop :=
  (tw.opts.Ignores verb option →
    (∀ side, InStep a tw side option) ∧ (verb.turnsOn = false → a verb.subject option = false)) ∧
  (¬tw.opts.Ignores verb option → ¬tw.Misanswers verb option ∧
    a verb.subject option ≠ verb.turnsOn ∧
    (option ≠ N_REMOTEFLOW → ∀ side, side ≠ verb.subject → InStep a tw side option))

section Writes
variable (tw : WindRec)

@[simp] theorem negotiations_append (l l' : List Write) :
    negotiations (l ++ l') = negotiations l ++ negotiations l' := List.filterMap_append ..

@[simp] theorem negotiations_nil : negotiations [] = [] := rfl

@[simp] theorem negotiations_neg (verb : Verb) (option : UInt8) (l : List Write) :
    negotiations (.neg verb option :: l) = (verb, option) :: negotiations l := rfl

@[simp] theorem negotiations_raw (bytes : List UInt8) (l : List Write) :
    negotiations (.raw bytes :: l) = negotiations l := rfl

@[simp] theorem send_negotiations (verb : Verb) (option : UInt8) :
    negotiations (tw.send verb option).sent = negotiations tw.sent ++ [(verb, option)] :=
  negotiations_append ..

@[simp] theorem netwrite_negotiations (bytes : List UInt8) :
    negotiations (tw.netwrite bytes).sent = negotiations tw.sent := by
  simp [WindRec.netwrite]

@[simp] theorem send_opts (verb : Verb) (option : UInt8) : (tw.send verb option).opts = tw.opts :=
  rfl

@[simp] theorem netwrite_opts (bytes : List UInt8) : (tw.netwrite bytes).opts = tw.opts := rfl

@[simp] theorem sendNAWSinfo_negotiations (horiz vert : Int) :
    negotiations (tw.sendNAWSinfo horiz vert).sent = negotiations tw.sent := by
  unfold WindRec.sendNAWSinfo
  split <;> simp

@[simp] theorem sendNAWSinfo_opts (horiz vert : Int) :
    (tw.sendNAWSinfo horiz vert).opts = tw.opts := by
  unfold WindRec.sendNAWSinfo
  split <;> rfl

@[simp] theorem kbflush_negotiations :
    negotiations tw.kbflush.sent = negotiations tw.sent := by
  unfold WindRec.kbflush
  split
  · rfl
  · exact netwrite_negotiations tw tw.line.kbbuf

@[simp] theorem kbflush_opts : tw.kbflush.opts = tw.opts := by
  unfold WindRec.kbflush
  split <;> rfl

/-- The triplets of `doLinemode` are no option commands and change no flag. -/
theorem triplets_frame (l : List ℕ) :
    negotiations (l.foldl (fun t i => t.netwrite (t.slcTriplet i)) tw).sent =
      negotiations tw.sent ∧
    (l.foldl (fun t i => t.netwrite (t.slcTriplet i)) tw).opts = tw.opts := by
  induction l generalizing tw with
  | nil => exact ⟨rfl, rfl⟩
  | cons i l ih =>
    obtain ⟨h1, h2⟩ := ih (tw.netwrite (tw.slcTriplet i))
    exact ⟨h1.trans (netwrite_negotiations ..), h2⟩

@[simp] theorem doLinemode_negotiations :
    negotiations tw.doLinemode.sent = negotiations tw.sent := by
  unfold WindRec.doLinemode
  rw [netwrite_negotiations, (triplets_frame _ _).1, netwrite_negotiations]

@[simp] theorem doLinemode_opts : tw.doLinemode.opts = { tw.opts with lmode := true } := by
  unfold WindRec.doLinemode
  rw [netwrite_opts, (triplets_frame _ _).2]
  rfl

end Writes

section Shapes
variable {a : Announced} {tw : WindRec} {verb : Verb} {option : UInt8}

/-- A command without a reply. -/
theorem agrees_silent (h : tw.replies verb option = []) :
    Agrees a tw verb option ↔
      (∀ side b, (tw.answer verb option).opts.flag side option = some b → a side option = b) ∧
      (verb.turnsOn = false → a verb.subject option = false) := by
  constructor
  · intro hg
    refine ⟨fun side b hb => ?_, fun ho => ?_⟩
    · simpa [h, announceAll] using hg.synced side b hb
    · simpa [h, announceAll] using (hg.off ho).1
  · rintro ⟨hs, ho⟩
    refine ⟨by simp [h], by simp [h], by simp [h], fun _ => h, ?_, fun hv => ?_⟩
    · simpa [h, announceAll] using hs
    · simp [h, announceAll, ho hv]

/-- A command with one reply, about the right end. -/
theorem agrees_reply {w : Verb} (h : tw.replies verb option = [(w, option)])
    (hw : w.about = verb.subject) :
    Agrees a tw verb option ↔ a verb.subject option ≠ verb.turnsOn ∧
      (∀ side b, (tw.answer verb option).opts.flag side option = some b →
        announce a (w, option) side option = b) ∧
      (verb.turnsOn = false → w.turnsOn = false) := by
  constructor
  · intro hg
    refine ⟨fun he => ?_, fun side b hb => ?_, fun hv => ?_⟩
    · simpa [h] using hg.noLoop he
    · simpa [h, announceAll] using hg.synced side b hb
    · simpa [h, announceAll, announce, hw] using (hg.off hv).1
  · rintro ⟨hn, hs, ho⟩
    refine ⟨by simp [h], by simp [h, hw], by simp [h], fun he => absurd he hn, ?_, fun hv => ?_⟩
    · simpa [h, announceAll] using hs
    · simp [h, announceAll, announce, hw, ho hv]

end Shapes

@[simp] theorem forall_side {P : Side → Prop} : (∀ side, P side) ↔ P .mine ∧ P .his :=
  ⟨fun h => ⟨h .mine, h .his⟩, fun h side => by cases side <;> simp [h]⟩

/-- The command gets no reply and changes no flag of its option. -/
def Silent (tw : WindRec) (verb : Verb) (option : UInt8) : Prop :=
  tw.replies verb option = [] ∧
    ∀ side, (tw.answer verb option).opts.flag side option = tw.opts.flag side option

/-- The command gets the one reply `w`, and the flag of its end follows it; so does the flag of
the other end for remote flow control, and for no other option. -/
def RepliesWith (tw : WindRec) (verb : Verb) (option : UInt8) (w : Verb) : Prop :=
  tw.replies verb option = [(w, option)] ∧ w.about = verb.subject ∧
    (verb.turnsOn = false → w.turnsOn = false) ∧
    ∀ side, if side = verb.subject ∨ option = N_REMOTEFLOW then
      ∀ b, (tw.answer verb option).opts.flag side option = some b → b = w.turnsOn
    else (tw.answer verb option).opts.flag side option = tw.opts.flag side option

section Steps
variable {a : Announced} {tw : WindRec} {verb w : Verb} {option : UInt8}

/-- A silent command is answered well where the flags are in step, unless it should turn the
option off. -/
theorem silent_agrees (h : Silent tw verb option) :
    Agrees a tw verb option ↔ (∀ side, InStep a tw side option) ∧
      (verb.turnsOn = false → a verb.subject option = false) := by
  obtain ⟨hr, hf⟩ := h
  rw [agrees_silent hr]
  refine and_congr_left fun _ => forall_congr' fun side => ?_
  rw [hf side]
  rfl

/-- A command with one reply is answered well when it asks for a change, and the flag of the
other end is in step. -/
theorem reply_agrees (h : RepliesWith tw verb option w) :
    Agrees a tw verb option ↔ a verb.subject option ≠ verb.turnsOn ∧
      (option ≠ N_REMOTEFLOW → ∀ side, side ≠ verb.subject → InStep a tw side option) := by
  obtain ⟨hr, hw, hoff, hf⟩ := h
  -- the flag of the end spoken of follows the reply, the other one was left alone
  have hside (side : Side) : (∀ b, (tw.answer verb option).opts.flag side option = some b →
      announce a (w, option) side option = b) ↔
      (option ≠ N_REMOTEFLOW → side ≠ verb.subject → InStep a tw side option) := by
    have hflag := hf side
    simp only [announce, hw, true_and]
    split_ifs at hflag ⊢ with hend
    · refine iff_of_true (fun b hb => (hflag b hb).symm) fun hflow hother => ?_
      exact absurd hend (not_or.mpr ⟨hother, hflow⟩)
    · obtain ⟨hother, hflow⟩ := not_or.mp hend
      rw [hflag]
      exact ⟨fun hstep _ _ => hstep, fun hstep => hstep hflow hother⟩
  rw [agrees_reply hr hw, and_iff_left hoff]
  refine and_congr_right fun _ => ?_
  rw [forall_congr' hside]
  exact ⟨fun h hflow side => h side hflow, fun h side hflow => h hflow side⟩

/-- `DO` is silent about an option that is on, except for `NAWS` and `LINEMODE`. -/
theorem do_effect (tw : WindRec) (option : UInt8) :
    (tw.opts.Ignores .do option ∧ Silent tw .do option) ∨
    ¬tw.opts.Ignores .do option ∧ (tw.Misanswers .do option ∨
      ¬tw.Misanswers .do option ∧ ∃ w, RepliesWith tw .do option w) := by
  by_cases h3 : option = N_SGA
  · subst h3
    cases hI : tw.opts.Isga
    · refine .inr ⟨by simp [Options.Ignores, hI], .inr ⟨by simp [WindRec.Misanswers], .will, ?_⟩⟩
      simp [RepliesWith, Verb.subject, Verb.about, Verb.turnsOn, WindRec.replies, WindRec.answer,
        WindRec.telnet_do, Options.flag, hI]
    · refine .inl ⟨by simp [Options.Ignores, hI], ?_⟩
      simp [Silent, WindRec.replies, WindRec.answer, WindRec.telnet_do, hI]
  by_cases h24 : option = N_TERMTYP
  · subst h24
    cases hI : tw.opts.Ittype
    · refine .inr ⟨by simp [Options.Ignores, hI], .inr ⟨by simp [WindRec.Misanswers], .will, ?_⟩⟩
      simp [RepliesWith, Verb.subject, Verb.about, Verb.turnsOn, WindRec.replies, WindRec.answer,
        WindRec.telnet_do, Options.flag, hI]
    · refine .inl ⟨by simp [Options.Ignores, hI], ?_⟩
      simp [Silent, WindRec.replies, WindRec.answer, WindRec.telnet_do, hI]
  by_cases h31 : option = N_NAWS
  · subst h31
    refine .inr ⟨by simp [Options.Ignores], .inr ⟨by simp [WindRec.Misanswers], .will, ?_⟩⟩
    simp [RepliesWith, Verb.subject, Verb.about, Verb.turnsOn, WindRec.replies, WindRec.answer,
      WindRec.telnet_do, Options.flag]
  by_cases h34 : option = N_LINEMODE
  · subst h34
    refine .inr ⟨by simp [Options.Ignores], ?_⟩
    -- refused where it is not allowed, also while it is on
    cases hL : tw.cfg.lineAllow <;> cases hI : tw.opts.lmode
    · refine .inr ⟨by simp [WindRec.Misanswers, hI], .wont, ?_⟩
      simp [RepliesWith, Verb.subject, Verb.about, Verb.turnsOn, WindRec.replies, WindRec.answer,
        WindRec.telnet_do, Options.flag, hI, hL]
    · exact .inl (.inr ⟨rfl, rfl, hL, hI⟩)
    all_goals
      refine .inr ⟨by simp [WindRec.Misanswers, hL], .will, ?_⟩
      simp [RepliesWith, Verb.subject, Verb.about, Verb.turnsOn, WindRec.replies, WindRec.answer,
        WindRec.telnet_do, Options.flag, hL]
  by_cases h37 : option = N_AUTHENTICATION
  · subst h37
    cases hI : tw.opts.myAuthentication
    · refine .inr ⟨by simp [Options.Ignores, hI], .inr ⟨by simp [WindRec.Misanswers], ?_⟩⟩
      cases hA : tw.cfg.authenticate && tw.cfg.authOK
      · refine ⟨.wont, ?_⟩
        simp [RepliesWith, Verb.subject, Verb.about, Verb.turnsOn, WindRec.replies,
          WindRec.answer, WindRec.telnet_do, Options.flag, hI, hA]
      · refine ⟨.will, ?_⟩
        simp [RepliesWith, Verb.subject, Verb.about, Verb.turnsOn, WindRec.replies,
          WindRec.answer, WindRec.telnet_do, Options.flag, hI, hA]
    · refine .inl ⟨by simp [Options.Ignores, hI], ?_⟩
      simp [Silent, WindRec.replies, WindRec.answer, WindRec.telnet_do, hI]
  by_cases h38 : option = N_ENCRYPT
  · subst h38
    cases hI : tw.opts.myEncrypt
    · refine .inr ⟨by simp [Options.Ignores, hI], .inr ⟨by simp [WindRec.Misanswers], ?_⟩⟩
      cases hA : tw.cfg.encrypt && tw.cfg.encryptOK && tw.cfg.authenticate && tw.cfg.authOK
      · refine ⟨.wont, ?_⟩
        simp [RepliesWith, Verb.subject, Verb.about, Verb.turnsOn, WindRec.replies,
          WindRec.answer, WindRec.telnet_do, Options.flag, hI, hA]
      · refine ⟨.will, ?_⟩
        simp [RepliesWith, Verb.subject, Verb.about, Verb.turnsOn, WindRec.replies,
          WindRec.answer, WindRec.telnet_do, Options.flag, hI, hA]
    · refine .inl ⟨by simp [Options.Ignores, hI], ?_⟩
      simp [Silent, WindRec.replies, WindRec.answer, WindRec.telnet_do, hI]
  by_cases h39 : option = N_NEW_ENVIRON
  · subst h39
    refine .inr ⟨by simp [Options.Ignores], .inr ⟨by simp [WindRec.Misanswers], ?_⟩⟩
    -- without a name of the user there is nothing to tell
    cases hU : tw.cfg.username.isEmpty
    · refine ⟨.will, ?_⟩
      simp [RepliesWith, Verb.subject, Verb.about, Verb.turnsOn, WindRec.replies, WindRec.answer,
        WindRec.telnet_do, Options.flag, hU]
    · refine ⟨.wont, ?_⟩
      simp [RepliesWith, Verb.subject, Verb.about, Verb.turnsOn, WindRec.replies, WindRec.answer,
        WindRec.telnet_do, Options.flag, hU]
  by_cases h33 : option = N_REMOTEFLOW
  · subst h33
    cases hI : tw.opts.remote_flow
    · refine .inr ⟨by simp [Options.Ignores, hI], .inr ⟨by simp [WindRec.Misanswers], .will, ?_⟩⟩
      simp [RepliesWith, Verb.subject, Verb.about, Verb.turnsOn, WindRec.replies, WindRec.answer,
        WindRec.telnet_do, Options.flag, hI]
    · refine .inl ⟨by simp [Options.Ignores, hI], ?_⟩
      simp [Silent, WindRec.replies, WindRec.answer, WindRec.telnet_do, hI]
  refine .inr ⟨by simp [Options.Ignores, h3, h24, h37, h38, h33],
    .inr ⟨by simp [WindRec.Misanswers, h34], .wont, ?_⟩⟩
  simp [RepliesWith, Verb.subject, Verb.about, Verb.turnsOn, WindRec.replies, WindRec.answer,
    WindRec.telnet_do, Options.flag, h3, h24, h31, h34, h37, h38, h39, h33]

/-- `DONT` is answered for the options it turns off, and only for these. -/
theorem dont_effect (tw : WindRec) (option : UInt8) :
    (tw.opts.Ignores .dont option ∧ Silent tw .dont option) ∨
    ¬tw.opts.Ignores .dont option ∧ RepliesWith tw .dont option .wont := by
  by_cases h38 : option = N_ENCRYPT
  · subst h38
    refine .inr ⟨by simp [Options.Ignores], ?_⟩
    simp [RepliesWith, Verb.subject, Verb.about, Verb.turnsOn, WindRec.replies, WindRec.answer,
      WindRec.telnet_dont, Options.flag]
  by_cases h37 : option = N_AUTHENTICATION
  · subst h37
    refine .inr ⟨by simp [Options.Ignores], ?_⟩
    simp [RepliesWith, Verb.subject, Verb.about, Verb.turnsOn, WindRec.replies, WindRec.answer,
      WindRec.telnet_dont, Options.flag]
  by_cases h34 : option = N_LINEMODE
  · subst h34
    cases hI : tw.opts.lmode
    · refine .inl ⟨by simp [Options.Ignores, hI], ?_⟩
      simp [Silent, WindRec.replies, WindRec.answer, WindRec.telnet_dont, hI]
    · refine .inr ⟨by simp [Options.Ignores, hI], ?_⟩
      simp [RepliesWith, Verb.subject, Verb.about, Verb.turnsOn, WindRec.replies, WindRec.answer,
        WindRec.telnet_dont, Options.flag, hI]
  refine .inl ⟨by simp [Options.Ignores, h38, h37, h34], ?_⟩
  simp [Silent, WindRec.replies, WindRec.answer, WindRec.telnet_dont, h38, h37, h34]

/-- `WILL` gets at most one reply, except for remote flow control. -/
theorem will_effect (tw : WindRec) (option : UInt8) (h33 : option ≠ N_REMOTEFLOW) :
    (tw.opts.Ignores .will option ∧ Silent tw .will option) ∨
    ¬tw.opts.Ignores .will option ∧ ∃ w, RepliesWith tw .will option w := by
  by_cases h1 : option = N_ECHO
  · subst h1
    cases hI : tw.opts.echo
    · refine .inl ⟨by simp [Options.Ignores, hI], ?_⟩
      simp [Silent, WindRec.replies, WindRec.answer, WindRec.telnet_will, hI]
    · refine .inr ⟨by simp [Options.Ignores, hI], .do, ?_⟩
      simp [RepliesWith, Verb.subject, Verb.about, Verb.turnsOn, WindRec.replies, WindRec.answer,
        WindRec.telnet_will, Options.flag, hI]
  by_cases h3 : option = N_SGA
  · subst h3
    cases hI : tw.opts.Usga
    · refine .inr ⟨by simp [Options.Ignores, hI], .do, ?_⟩
      simp [RepliesWith, Verb.subject, Verb.about, Verb.turnsOn, WindRec.replies, WindRec.answer,
        WindRec.telnet_will, Options.flag, hI]
    · refine .inl ⟨by simp [Options.Ignores, hI], ?_⟩
      simp [Silent, WindRec.replies, WindRec.answer, WindRec.telnet_will, hI]
  by_cases h6 : option = N_TIMING
  · subst h6
    refine .inl ⟨by simp [Options.Ignores], ?_⟩
    simp [Silent, WindRec.replies, WindRec.answer, WindRec.telnet_will]
  by_cases h37 : option = N_AUTHENTICATION
  · subst h37
    cases hI : tw.opts.hisAuthentication
    · refine .inr ⟨by simp [Options.Ignores, hI], ?_⟩
      cases hA : tw.cfg.authenticate && tw.cfg.authOK
      · refine ⟨.dont, ?_⟩
        simp [RepliesWith, Verb.subject, Verb.about, Verb.turnsOn, WindRec.replies,
          WindRec.answer, WindRec.telnet_will, Options.flag, hI, hA]
      · refine ⟨.do, ?_⟩
        simp [RepliesWith, Verb.subject, Verb.about, Verb.turnsOn, WindRec.replies,
          WindRec.answer, WindRec.telnet_will, Options.flag, hI, hA]
    · refine .inl ⟨by simp [Options.Ignores, hI], ?_⟩
      simp [Silent, WindRec.replies, WindRec.answer, WindRec.telnet_will, hI]
  by_cases h38 : option = N_ENCRYPT
  · subst h38
    cases hI : tw.opts.hisEncrypt
    · refine .inr ⟨by simp [Options.Ignores, hI], ?_⟩
      cases hA : tw.cfg.encrypt && tw.cfg.encryptOK && tw.cfg.authenticate && tw.cfg.authOK
      · refine ⟨.dont, ?_⟩
        simp [RepliesWith, Verb.subject, Verb.about, Verb.turnsOn, WindRec.replies,
          WindRec.answer, WindRec.telnet_will, Options.flag, hI, hA]
      · refine ⟨.do, ?_⟩
        simp [RepliesWith, Verb.subject, Verb.about, Verb.turnsOn, WindRec.replies,
          WindRec.answer, WindRec.telnet_will, Options.flag, hI, hA]
    · refine .inl ⟨by simp [Options.Ignores, hI], ?_⟩
      simp [Silent, WindRec.replies, WindRec.answer, WindRec.telnet_will, hI]
  refine .inr ⟨by simp [Options.Ignores, h1, h3, h6, h37, h38], .dont, ?_⟩
  simp [RepliesWith, Verb.subject, Verb.about, Verb.turnsOn, WindRec.replies, WindRec.answer,
    WindRec.telnet_will, Options.flag, h1, h3, h6, h33, h37, h38]

/-- `WONT` is answered for the options it turns off, and only for these. -/
theorem wont_effect (tw : WindRec) (option : UInt8) :
    (tw.opts.Ignores .wont option ∧ Silent tw .wont option) ∨
    ¬tw.opts.Ignores .wont option ∧ RepliesWith tw .wont option .dont := by
  by_cases h1 : option = N_ECHO
  · subst h1
    cases hI : tw.opts.echo
    · refine .inr ⟨by simp [Options.Ignores, hI], ?_⟩
      simp [RepliesWith, Verb.subject, Verb.about, Verb.turnsOn, WindRec.replies, WindRec.answer,
        WindRec.telnet_wont, Options.flag, hI]
    · refine .inl ⟨by simp [Options.Ignores, hI], ?_⟩
      simp [Silent, WindRec.replies, WindRec.answer, WindRec.telnet_wont, hI]
  by_cases h3 : option = N_SGA
  · subst h3
    cases hI : tw.opts.Usga
    · refine .inl ⟨by simp [Options.Ignores, hI], ?_⟩
      simp [Silent, WindRec.replies, WindRec.answer, WindRec.telnet_wont, hI]
    · refine .inr ⟨by simp [Options.Ignores, hI], ?_⟩
      simp [RepliesWith, Verb.subject, Verb.about, Verb.turnsOn, WindRec.replies, WindRec.answer,
        WindRec.telnet_wont, Options.flag, hI]
  by_cases h38 : option = N_ENCRYPT
  · subst h38
    refine .inr ⟨by simp [Options.Ignores], ?_⟩
    simp [RepliesWith, Verb.subject, Verb.about, Verb.turnsOn, WindRec.replies, WindRec.answer,
      WindRec.telnet_wont, Options.flag]
  by_cases h37 : option = N_AUTHENTICATION
  · subst h37
    refine .inr ⟨by simp [Options.Ignores], ?_⟩
    simp [RepliesWith, Verb.subject, Verb.about, Verb.turnsOn, WindRec.replies, WindRec.answer,
      WindRec.telnet_wont, Options.flag]
  refine .inl ⟨by simp [Options.Ignores, h38, h37, h1, h3], ?_⟩
  by_cases h6 : option = N_TIMING
  · simp [Silent, WindRec.replies, WindRec.answer, WindRec.telnet_wont, h6]
  · simp [Silent, WindRec.replies, WindRec.answer, WindRec.telnet_wont, h1, h3, h6, h37, h38]

/-- A command without a reply is answered as `WellAnswered` says. -/
theorem wellAnswered_silent (hign : tw.opts.Ignores verb option) (h : Silent tw verb option) :
    Agrees a tw verb option ↔ WellAnswered a tw verb option := by
  rw [silent_agrees h, WellAnswered]
  exact ⟨fun hg => ⟨fun _ => hg, fun hnot => absurd hign hnot⟩, fun hg => hg.1 hign⟩

/-- A command with a reply is answered as `WellAnswered` says. -/
theorem wellAnswered_reply (hign : ¬tw.opts.Ignores verb option)
    (hmis : ¬tw.Misanswers verb option) (h : RepliesWith tw verb option w) :
    Agrees a tw verb option ↔ WellAnswered a tw verb option := by
  rw [reply_agrees h, WellAnswered]
  exact ⟨fun hg => ⟨fun hyes => absurd hyes hign, fun _ => ⟨hmis, hg⟩⟩, fun hg => (hg.2 hign).2⟩

theorem not_wellAnswered (hign : ¬tw.opts.Ignores verb option)
    (hmis : tw.Misanswers verb option) : ¬WellAnswered a tw verb option :=
  fun hg => (hg.2 hign).1 hmis

/-- The offer of remote flow control is refused, whatever else was answered. -/
theorem remoteFlow_disagrees : ¬Agrees a tw .will N_REMOTEFLOW := by
  intro hg
  cases hI : tw.opts.remote_flow
  · have hone := hg.one
    simp [WindRec.replies, WindRec.answer, WindRec.telnet_will, hI] at hone
  · -- the flag stays, and the one reply says that the option is off
    have hsync := hg.synced .his true
    simp [WindRec.replies, WindRec.answer, WindRec.telnet_will, hI, Options.flag, announceAll,
      announce, Verb.turnsOn] at hsync

/-- Line mode is refused and stays on. -/
theorem lineMode_disagrees (hallow : tw.cfg.lineAllow = false) (hon : tw.opts.lmode = true) :
    ¬Agrees a tw .do N_LINEMODE := by
  intro hg
  have hsync := hg.synced .mine true
  simp [WindRec.replies, WindRec.answer, WindRec.telnet_do, hallow, hon, Options.flag,
    announceAll, announce, Verb.about, Verb.turnsOn] at hsync

theorem answer_agrees : Agrees a tw verb option ↔ WellAnswered a tw verb option := by
  cases verb with
  | will =>
    by_cases h33 : option = N_REMOTEFLOW
    · subst h33
      have hign : ¬tw.opts.Ignores .will N_REMOTEFLOW := by simp [Options.Ignores]
      exact iff_of_false remoteFlow_disagrees (not_wellAnswered hign (.inl ⟨rfl, rfl⟩))
    · rcases will_effect tw option h33 with ⟨hign, hq⟩ | ⟨hign, w, hr⟩
      · exact wellAnswered_silent hign hq
      · exact wellAnswered_reply hign (by simp [WindRec.Misanswers, h33]) hr
  | wont =>
    rcases wont_effect tw option with ⟨hign, hq⟩ | ⟨hign, hr⟩
    · exact wellAnswered_silent hign hq
    · exact wellAnswered_reply hign (by simp [WindRec.Misanswers]) hr
  | «do» =>
    rcases do_effect tw option with ⟨hign, hq⟩ | ⟨hign, hmis | ⟨hmis, w, hr⟩⟩
    · exact wellAnswered_silent hign hq
    · refine iff_of_false ?_ (not_wellAnswered hign hmis)
      rcases hmis with ⟨hwill, -⟩ | ⟨-, rfl, hallow, hon⟩
      · cases hwill
      · exact lineMode_disagrees hallow hon
    · exact wellAnswered_reply hign hmis hr
  | dont =>
    rcases dont_effect tw option with ⟨hign, hq⟩ | ⟨hign, hr⟩
    · exact wellAnswered_silent hign hq
    · exact wellAnswered_reply hign (by simp [WindRec.Misanswers]) hr

end Steps

/-- Every command of the run meets `P` in the state it finds. -/
def EachStep (P : Announced → WindRec → Verb → UInt8 → Prop) :
    Announced → WindRec → List (Verb × UInt8) → Prop
  | _, _, [] => True
  | a, tw, (verb, option) :: commands => P a tw verb option ∧
      EachStep P (announceAll a (tw.replies verb option)) (tw.answer verb option) commands

/-- A run of option commands, from any state and whatever has been announced before, is answered
as it should be, command by command, in exactly those runs whose commands are answered well in
the state they find. -/
theorem option_agreement (a : Announced) (tw : WindRec) (commands : List (Verb × UInt8)) :
    EachStep Agrees a tw commands ↔ EachStep WellAnswered a tw commands := by
  induction commands generalizing a tw with
  | nil => exact Iff.rfl
  | cons c commands ih =>
    obtain ⟨verb, option⟩ := c
    exact and_congr answer_agrees (ih _ _)

/-- What a new telnet session on the telnet port has announced. -/
def initiallyAnnounced (su : Startup) (tw : WindRec) : Announced :=
  announceAll (fun _ _ => false) (negotiations (tw.telnet_send_initial_options su).sent)

/-- A plain session at the telnet port, after its first writes. -/
def startedSession : WindRec :=
  (newConnection plainSession).telnet_send_initial_options telnetPort

/-- In a new session an offer of remote flow control is both accepted and refused, and echo, which
the client has asked for, is asked for again. -/
theorem remote_flow_contradiction :
    startedSession.replies .will N_REMOTEFLOW = [(.do, N_REMOTEFLOW), (.dont, N_REMOTEFLOW)] ∧
      initiallyAnnounced telnetPort (newConnection plainSession) .his N_ECHO = true ∧
      startedSession.replies .will N_ECHO = [(.do, N_ECHO)] ∧
      ¬EachStep Agrees (initiallyAnnounced telnetPort (newConnection plainSession)) startedSession
        [(.will, N_REMOTEFLOW)] := by
  have htwo : startedSession.replies .will N_REMOTEFLOW =
      [(.do, N_REMOTEFLOW), (.dont, N_REMOTEFLOW)] := by decide
  refine ⟨htwo, by decide, by decide, ?_⟩
  rintro ⟨hg, -⟩
  have hone := hg.one
  rw [htwo] at hone
  exact absurd hone (by decide)

end Telnet
