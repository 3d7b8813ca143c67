import MacSSH.FTPServer

/-! Access control of the FTP server: no command is interpreted before a
password was accepted on the same connection. -/
namespace FTPServer

/-- The name that stands until a `USER` line gives one. -/
def unknownUser : List UInt8 := ascii ['u', 'n', 'k', 'n', 'o', 'w', 'n']

/-- The user name last given on the connection `fnum`, from a history that has
its latest entry first. -/
def lastGiven (fnum : Int) : List Happening → List UInt8
  | [] => unknownUser
  | .opened p :: t => if p = fnum then unknownUser else lastGiven fnum t
  | .user p name :: t => if p = fnum then name else lastGiven fnum t
  | .pass .. :: t => lastGiven fnum t
  | .command _ :: t => lastGiven fnum t

/-- Since `fnum` was opened, a `PASS` line was accepted for the user name that
had been given last. -/
def Admitted (sys : System) (fnum : Int) (trace : List Happening) : Prop :=
  ∃ later earlier name password,
    trace = later ++ .pass fnum name password true :: earlier ∧
    .opened fnum ∉ later ∧ .opened fnum ∈ earlier ∧
    name = lastGiven fnum earlier ∧ (scheckpass sys name password).isSome

/-- The connection waits for a user name or a password, or is not open. -/
def LoggedOut (s : Server) (fnum : Int) : Prop :=
  s.mainstate fnum = .s0 ∨ s.mainstate fnum = .s3 ∨ s.mainstate fnum = .s4 ∨
    s.mainstate fnum = .s50 ∧ (s.retnstate fnum = .s3 ∨ s.retnstate fnum = .s4)

/-- The line in `xs` is a `PASS` line with the password of the current user. -/
def PasswordAccepted (sys : System) (s : Server) : Prop :=
  isCommand s.xs ['P', 'A', 'S', 'S'] = true ∧
    (scheckpass sys s.myuser (cstr s.xs 32768 5)).isSome

/-- An admission is only undone by the opening of a new connection. -/
theorem Admitted.append {sys : System} {fnum : Int} {trace : List Happening}
    (h : Admitted sys fnum trace) (us : List Happening) (hu : .opened fnum ∉ us) :
    Admitted sys fnum (us ++ trace) := by
  obtain ⟨later, earlier, name, password, rfl, h1, h2, h3, h4⟩ := h
  refine ⟨us ++ later, earlier, name, password, ?_, ?_, h2, h3, h4⟩
  · rw [List.append_assoc]
  · simp only [List.mem_append, not_or]
    exact ⟨hu, h1⟩

/-- What the commands of the interpreter leave alone. No command makes a port a
control port. -/
structure Quiet (s s' : Server) : Prop where
  mainstate : s'.mainstate = s.mainstate
  retnstate : s'.retnstate = s.retnstate
  rfstate : s'.rfstate = s.rfstate
  retstate : s'.retstate = s.retstate
  myuser : s'.myuser = s.myuser
  trace : s'.trace = s.trace
  portType : ∀ p, s'.portType p = .pftp → s.portType p = .pftp

theorem quiet_openData (s : Server) (c : Call) : Quiet s (s.openData c) := by
  unfold Server.openData
  dsimp only
  split
  · refine ⟨rfl, rfl, rfl, rfl, rfl, rfl, fun p hp => ?_⟩
    simp only [Server.setPortType] at hp
    split at hp
    · by_cases hpp : p = c.netxopen
      · rw [hpp, Function.update_self] at hp
        cases hp
      · rwa [Function.update_of_ne hpp] at hp
    · exact hp
  · exact ⟨rfl, rfl, rfl, rfl, rfl, rfl, fun _ h => h⟩

theorem quiet_list (s : Server) (c : Call) : Quiet s (s.list c) := by
  simp only [Server.list]
  split
  · exact ⟨rfl, rfl, rfl, rfl, rfl, rfl, fun _ h => h⟩
  · have h := quiet_openData { s with
      xs := if isShort s.xs || s.xs 5 == 46 then
          store s.xs 0 (ascii ['L', 'I', 'S', 'T', ' ', '*'] ++ [0]) else s.xs
      listingTemplate := cstr (if isShort s.xs || s.xs 5 == 46 then
          store s.xs 0 (ascii ['L', 'I', 'S', 'T', ' ', '*'] ++ [0]) else s.xs) 32768 5 } c
    exact ⟨h.mainstate, h.retnstate, h.rfstate, h.retstate, h.myuser, h.trace, h.portType⟩

theorem quiet_changeDir (s : Server) (c : Call) : Quiet s (s.changeDir c) := by
  simp only [Server.changeDir]
  split <;> exact ⟨rfl, rfl, rfl, rfl, rfl, rfl, fun _ h => h⟩

theorem quiet_receiveFile (s : Server) (c : Call) : Quiet s (s.receiveFile c) := by
  simp only [Server.receiveFile]
  split
  · exact ⟨rfl, rfl, rfl, rfl, rfl, rfl, fun _ h => h⟩
  split
  · exact ⟨rfl, rfl, rfl, rfl, rfl, rfl, fun _ h => h⟩
  · have h := quiet_openData { s with mbfp := true, newfile := cstr s.xs 255 5 } c
    exact ⟨h.mainstate, h.retnstate, h.rfstate, h.retstate, h.myuser, h.trace, h.portType⟩

theorem quiet_sendFile (s : Server) (c : Call) : Quiet s (s.sendFile c) := by
  simp only [Server.sendFile]
  split
  · exact ⟨rfl, rfl, rfl, rfl, rfl, rfl, fun _ h => h⟩
  · have h := quiet_openData { s with mbfp := true, newfile := cstr s.xs 255 5 } c
    exact ⟨h.mainstate, h.retnstate, h.rfstate, h.retstate, h.myuser, h.trace, h.portType⟩

theorem quiet_setType (s : Server) (c : Call) : Quiet s (s.setType c) := by
  simp only [Server.setType]
  split_ifs <;> exact ⟨rfl, rfl, rfl, rfl, rfl, rfl, fun _ h => h⟩

theorem quiet_setMacBinary (s : Server) (c : Call) : Quiet s (s.setMacBinary c) := by
  simp only [Server.setMacBinary]
  split <;> exact ⟨rfl, rfl, rfl, rfl, rfl, rfl, fun _ h => h⟩

theorem quiet_help (s : Server) (c : Call) : Quiet s (s.help c) := by
  constructor <;> simp [Server.help, List.range', Server.cresp]

theorem quiet_setPort (sys : System) (s : Server) (c : Call) : Quiet s (s.setPort sys c) := by
  constructor <;> simp [Server.setPort, Server.cresp]

theorem quiet_printDir (s : Server) (c : Call) : Quiet s (s.printDir c) := by
  constructor <;> simp [Server.printDir, Server.cresp, Server.netwrite]

/-- What interpreting a line can change: the next line comes back to the
interpreter unless `QUIT` is on its way, and only user names are recorded. -/
structure Interpreted (c : Call) (s s' : Server) : Prop where
  mainstate : s'.mainstate = s.mainstate
  retnstate : s'.retnstate = s.retnstate
  rfstate : s'.rfstate = s.rfstate ∨ s'.rfstate = .s60
  retstate : s'.retstate = s.retstate
  portType : ∀ p, s'.portType p = .pftp → s.portType p = .pftp
  trace : ∃ us, (∀ x ∈ us, ∃ n, x = .user c.fnum n) ∧ s'.trace = us ++ s.trace

theorem interpretLine_spec (sys : System) (c : Call) (s : Server) :
    Interpreted c s (s.interpretLine sys c) := by
  have quiet : ∀ t, Quiet s t → Interpreted c s t := fun t h =>
    ⟨h.mainstate, h.retnstate, .inl h.rfstate, h.retstate, h.portType, [], by simp, h.trace⟩
  have reply : ∀ msg, Interpreted c s (s.cresp c.fnum msg) := fun msg =>
    ⟨rfl, rfl, .inl rfl, rfl, fun _ h => h, [], by simp, rfl⟩
  have quit : Interpreted c s
      ({ s.cresp c.fnum 2 with rfstate := .s60 }.post (.condata c.fnum)) :=
    ⟨rfl, rfl, .inr rfl, rfl, fun _ h => h, [], by simp, rfl⟩
  have user : Interpreted c s ((s.takeUser c.fnum).cresp c.fnum 10) := by
    refine ⟨rfl, rfl, .inl rfl, rfl, fun _ h => h,
      [.user c.fnum (s.takeUser c.fnum).myuser], ?_, rfl⟩
    simp
  have syst : Interpreted c s (s.netwrite c.fnum Server.systReply) := by
    refine ⟨?_, ?_, .inl ?_, ?_, ?_, [], ?_, ?_⟩ <;> simp [Server.netwrite]
  unfold Server.interpretLine
  refine iteInduction (fun _ => quiet _ (quiet_list s c)) fun _ => ?_
  refine iteInduction (fun _ => quiet _ (quiet_changeDir s c)) fun _ => ?_
  refine iteInduction (fun _ => reply _) fun _ => ?_
  refine iteInduction (fun _ => reply _) fun _ => ?_
  refine iteInduction (fun _ => reply _) fun _ => ?_
  refine iteInduction (fun _ => reply _) fun _ => ?_
  refine iteInduction (fun _ => quiet _ (quiet_changeDir s _)) fun _ => ?_
  refine iteInduction (fun _ => quiet _ (quiet_receiveFile s c)) fun _ => ?_
  refine iteInduction (fun _ => quiet _ (quiet_sendFile s c)) fun _ => ?_
  refine iteInduction (fun _ => quiet _ (quiet_setType s c)) fun _ => ?_
  refine iteInduction (fun _ => quiet _ (quiet_setMacBinary s c)) fun _ => ?_
  refine iteInduction (fun _ => quiet _ (quiet_setPort sys s c)) fun _ => ?_
  refine iteInduction (fun _ => quit) fun _ => ?_
  refine iteInduction (fun _ => quiet _ (quiet_printDir s c)) fun _ => ?_
  refine iteInduction (fun _ => user) fun _ => ?_
  refine iteInduction (fun _ => reply _) fun _ => ?_
  refine iteInduction (fun _ => reply _) fun _ => ?_
  refine iteInduction (fun _ => reply _) fun _ => ?_
  refine iteInduction (fun _ => quiet _ (quiet_help s c)) fun _ => ?_
  refine iteInduction (fun _ => reply _) fun _ => ?_
  exact iteInduction (fun _ => syst) fun _ => reply _

/-- The three phases of a control connection: not open, logging in, and in the
interpreter. -/
inductive Phase (sys : System) (fnum : Int) :
    RFState → RFState → List UInt8 → List Happening → Prop where
  | idle (ret : RFState) (trace : List Happening) : Phase sys fnum .s0 ret unknownUser trace
  | login {rf ret : RFState} {name : List UInt8} {trace : List Happening}
      (h : rf = .s3 ∨ rf = .s4 ∨ rf = .s50 ∧ (ret = .s3 ∨ ret = .s4))
      (hname : name = lastGiven fnum trace) (hopen : .opened fnum ∈ trace) :
      Phase sys fnum rf ret name trace
  | session {rf ret : RFState} {name : List UInt8} {trace : List Happening}
      (h : rf = .s5 ∨ rf = .s60 ∨ rf = .s50 ∧ ret = .s5) (hadm : Admitted sys fnum trace) :
      Phase sys fnum rf ret name trace

section Phase
variable {sys : System} {fnum : Int} {rf ret : RFState} {name : List UInt8}
  {trace : List Happening}

theorem Phase.of_idle (h : Phase sys fnum rf ret name trace) (hr : rf = .s0) :
    name = unknownUser := by
  cases h with
  | idle => rfl
  | login h => simp [hr] at h
  | session h => simp [hr] at h

theorem Phase.of_login (h : Phase sys fnum rf ret name trace) (hr : rf = .s3 ∨ rf = .s4) :
    name = lastGiven fnum trace ∧ .opened fnum ∈ trace := by
  cases h with
  | idle => simp at hr
  | login _ hname hopen => exact ⟨hname, hopen⟩
  | session h => rcases hr with rfl | rfl <;> simp at h

theorem Phase.of_session (h : Phase sys fnum rf ret name trace) (hr : rf = .s5) :
    Admitted sys fnum trace := by
  cases h with
  | idle => cases hr
  | login h => simp [hr] at h
  | session _ hadm => exact hadm

end Phase

/-- Every command of the history was interpreted after an admission. -/
def CommandsAdmitted (sys : System) (trace : List Happening) : Prop :=
  ∀ later earlier fnum, trace = later ++ .command fnum :: earlier → Admitted sys fnum earlier

theorem commandsAdmitted_cons {sys : System} {x : Happening} {trace : List Happening}
    (hx : ∀ fnum, x = .command fnum → Admitted sys fnum trace)
    (ht : CommandsAdmitted sys trace) : CommandsAdmitted sys (x :: trace) := by
  intro later earlier fnum he
  cases later with
  | nil =>
    obtain ⟨rfl, rfl⟩ := List.cons.inj he
    exact hx fnum rfl
  | cons y later =>
    have ht' : trace = later ++ .command fnum :: earlier := (List.cons.inj he).2
    exact ht later earlier fnum ht'

theorem commandsAdmitted_users {sys : System} {fnum : Int} {us trace : List Happening}
    (hu : ∀ x ∈ us, ∃ n, x = .user fnum n) (ht : CommandsAdmitted sys trace) :
    CommandsAdmitted sys (us ++ trace) := by
  induction us with
  | nil => exact ht
  | cons x us ih =>
    obtain ⟨n, rfl⟩ := hu x List.mem_cons_self
    exact commandsAdmitted_cons (by simp) (ih fun y hy => hu y (List.mem_cons_of_mem _ hy))

/-- What one dispatch on the control connection `fnum` keeps. -/
structure Dispatched (sys : System) (fnum : Int) (s s' : Server) : Prop where
  mainstate : s'.mainstate = s.mainstate
  retnstate : s'.retnstate = s.retnstate
  portType : ∀ p, s'.portType p = .pftp → s.portType p = .pftp
  phase : Phase sys fnum s'.rfstate s'.retstate s'.myuser s'.trace
  commands : CommandsAdmitted sys s'.trace

section Dispatch
variable {sys : System} {c : Call} {s s' : Server}

theorem greet_dispatched (hsys : sys.ServerState = 2) (hu : s.myuser = lastGiven c.fnum s.trace)
    (ho : .opened c.fnum ∈ s.trace) (hc : CommandsAdmitted sys s.trace) :
    Dispatched sys c.fnum s (s.greet sys c) where
  mainstate := rfl
  retnstate := rfl
  portType _ h := h
  phase := by
    refine .login (.inr (.inr ⟨rfl, .inl ?_⟩)) hu ho
    simp only [Server.greet, hsys, if_true]
  commands := hc

theorem accept_dispatched (hsys : sys.ServerState = 2) (hs : s.rfstate = .s0)
    (hu : s.myuser = unknownUser) (hc : CommandsAdmitted sys s.trace)
    (h : s.accept sys c = some s') : Dispatched sys c.fnum s s' := by
  simp only [Server.accept] at h
  split at h
  · cases h
    refine ⟨rfl, rfl, fun _ h => h, ?_, hc⟩
    rw [hs, hu]
    exact .idle _ _
  split at h
  · cases h
  · cases h
    refine ⟨rfl, rfl, fun _ h => h, (greet_dispatched hsys ?_ ?_ ?_).phase, ?_⟩
    · simp [Server.record, Server.post, lastGiven, hu]
    · simp [Server.record]
    · exact commandsAdmitted_cons (by simp) hc
    · exact commandsAdmitted_cons (by simp) hc

theorem checkLogin_dispatched (hu : s.myuser = lastGiven c.fnum s.trace)
    (ho : .opened c.fnum ∈ s.trace) (hc : CommandsAdmitted sys s.trace) :
    Dispatched sys c.fnum s (s.checkLogin sys c) := by
  simp only [Server.checkLogin]
  split
  · refine ⟨rfl, rfl, fun _ h => h, ?_, ?_⟩
    · refine .login (.inr (.inr ⟨rfl, .inr rfl⟩)) ?_ ?_
      · simp [Server.takeUser, Server.record, Server.cresp, lastGiven]
      · simp [Server.takeUser, Server.record, Server.cresp, ho]
    · exact commandsAdmitted_cons (by simp) hc
  split
  · split
    · rename_i dir vol hok
      refine ⟨rfl, rfl, fun _ h => h, ?_, ?_⟩
      · refine .session (.inr (.inr ⟨rfl, rfl⟩)) ?_
        refine ⟨[], s.trace, s.myuser, _, rfl, by simp, ho, hu, ?_⟩
        rw [hok]
        rfl
      · exact commandsAdmitted_cons (by simp) hc
    · refine ⟨rfl, rfl, fun _ h => h, ?_, ?_⟩
      · refine .login (.inr (.inr ⟨rfl, .inl rfl⟩)) hu ?_
        exact List.mem_cons_of_mem _ ho
      · exact commandsAdmitted_cons (by simp) hc
  split
  · exact ⟨rfl, rfl, fun _ h => h, .login (.inr (.inr ⟨rfl, .inl rfl⟩)) hu ho, hc⟩
  · exact ⟨rfl, rfl, fun _ h => h, .login (.inr (.inr ⟨rfl, .inl rfl⟩)) hu ho, hc⟩

theorem interpret_dispatched (ha : Admitted sys c.fnum s.trace)
    (hc : CommandsAdmitted sys s.trace) : Dispatched sys c.fnum s (s.interpret sys c) := by
  obtain ⟨h1, h2, h3, h4, h5, us, hus, h6⟩ := interpretLine_spec sys c
    ({ s with rfstate := .s50, retstate := .s5, waitchar := 10, waitpos := 0 }.record
      (.command c.fnum))
  have hc' : CommandsAdmitted sys (.command c.fnum :: s.trace) :=
    commandsAdmitted_cons (fun f hf => by cases hf; exact ha) hc
  refine ⟨h1, h2, h5, ?_, ?_⟩
  · refine .session ?_ ?_
    · rcases h3 with h3 | h3
      · exact .inr (.inr ⟨h3, h4⟩)
      · exact .inr (.inl h3)
    · rw [Server.interpret, h6]
      refine Admitted.append (ha.append [.command c.fnum] (by simp)) us ?_
      intro hmem
      obtain ⟨n, hn⟩ := hus _ hmem
      cases hn
  · rw [Server.interpret, h6]
    exact commandsAdmitted_users hus hc'

/-- What the line reader leaves alone; a complete line makes `retstate` current. -/
theorem readLine_spec {l : List UInt8} {lost : Bool} (h : s.readLine l lost = some s') :
    s'.mainstate = s.mainstate ∧ s'.retnstate = s.retnstate ∧ s'.portType = s.portType ∧
    s'.retstate = s.retstate ∧ s'.myuser = s.myuser ∧ s'.trace = s.trace ∧
    (s'.rfstate = s.rfstate ∨ s'.rfstate = s.retstate) := by
  induction l generalizing s with
  | nil =>
    cases h
    exact ⟨rfl, rfl, rfl, rfl, rfl, rfl, .inl rfl⟩
  | cons b l ih =>
    simp only [Server.readLine] at h
    split at h
    · simp only [Server.finishLine] at h
      split at h
      · cases h
      · cases h
        exact ⟨rfl, rfl, rfl, rfl, rfl, rfl, .inr rfl⟩
    · have hrest := ih h
      exact hrest

theorem readLine_dispatched {l : List UInt8} {lost : Bool} (hs : s.rfstate = .s50)
    (hp : Phase sys c.fnum s.rfstate s.retstate s.myuser s.trace)
    (hc : CommandsAdmitted sys s.trace) (h : s.readLine l lost = some s') :
    Dispatched sys c.fnum s s' := by
  obtain ⟨h1, h2, h3, h4, h5, h6, h7⟩ := readLine_spec h
  refine ⟨h1, h2, fun p hp => h3 ▸ hp, ?_, h6 ▸ hc⟩
  rw [h4, h5, h6]
  rcases h7 with h7 | h7
  · rw [h7]
    exact hp
  rw [h7]
  rw [hs] at hp
  cases hp with
  | login h hname hopen =>
    refine .login ?_ hname hopen
    simp only [reduceCtorEq, false_or, true_and] at h
    rcases h with h | h
    · exact .inl h
    · exact .inr (.inl h)
  | session h hadm =>
    refine .session ?_ hadm
    simp only [reduceCtorEq, false_or, true_and] at h
    exact .inl h

theorem drain_dispatched (hp : Phase sys c.fnum s.rfstate s.retstate s.myuser s.trace)
    (hc : CommandsAdmitted sys s.trace) : Dispatched sys c.fnum s (s.drain c) := by
  simp only [Server.drain]
  split <;> exact ⟨rfl, rfl, fun _ h => h, hp, hc⟩

/-- Every dispatch keeps a control connection in one of its phases. -/
theorem dispatch_dispatched (hsys : sys.ServerState = 2)
    (hp : Phase sys c.fnum s.rfstate s.retstate s.myuser s.trace)
    (hc : CommandsAdmitted sys s.trace) (h : s.dispatch sys c = some s') :
    Dispatched sys c.fnum s s' := by
  unfold Server.dispatch at h
  split at h
  case h_1 hs => exact accept_dispatched hsys hs (hp.of_idle hs) hc h
  case h_2 hs =>
    rw [hs] at hp
    cases hp with
    | login h => simp at h
    | session h => simp at h
  case h_3 hs =>
    cases h
    obtain ⟨hu, ho⟩ := hp.of_login (.inl hs)
    exact checkLogin_dispatched hu ho hc
  case h_4 hs =>
    cases h
    obtain ⟨hu, ho⟩ := hp.of_login (.inr hs)
    exact checkLogin_dispatched hu ho hc
  case h_5 hs =>
    cases h
    exact interpret_dispatched (hp.of_session hs) hc
  case h_6 hs => exact readLine_dispatched hs hp hc h
  case h_7 hs =>
    cases h
    exact drain_dispatched hp hc
  all_goals
    cases h
    exact ⟨rfl, rfl, fun _ h => h, hp, hc⟩

end Dispatch

/-- There is at most one control port, and it is in one of its phases. -/
structure Guarded (sys : System) (s : Server) : Prop where
  range : ∀ p, s.portType p = .pftp → 0 ≤ p ∧ p < 30
  single : ∀ p q, s.portType p = .pftp → s.portType q = .pftp → p = q
  phase : ∀ p, s.portType p = .pftp →
    Phase sys p (s.mainstate p) (s.retnstate p) s.myuser s.trace
  commands : CommandsAdmitted sys s.trace

theorem hasListener_eq_false {s : Server} (h : ∀ p, s.portType p ≠ .pftp) :
    s.hasListener = false := by
  simp only [Server.hasListener, List.any_eq_false, beq_iff_eq]
  exact fun i _ => h i

/-- Without a control port, `setftp` makes an idle one where it may listen. -/
theorem setftp_spec (s : Server) (netlisten : Int) (h : ∀ p, s.portType p ≠ .pftp) :
    (s.setftp netlisten).myuser = unknownUser ∧ (s.setftp netlisten).rfstate = .s0 ∧
    (s.setftp netlisten).trace = s.trace ∧
    ∀ p, (s.setftp netlisten).portType p = .pftp →
      p = netlisten ∧ (0 ≤ p ∧ p < 30) ∧ (s.setftp netlisten).mainstate p = .s0 := by
  have hl : ({ s with rfstate := .s0, ftpstate := .d0 } : Server).hasListener = false :=
    hasListener_eq_false h
  simp only [Server.setftp, hl, Bool.false_eq_true, if_false]
  split
  · refine ⟨rfl, rfl, rfl, fun p hp => ?_⟩
    simp only [Server.setPortType] at hp
    split at hp
    · rename_i hr
      by_cases hpn : p = netlisten
      · subst hpn
        exact ⟨rfl, hr, Function.update_self ..⟩
      · rw [Function.update_of_ne hpn] at hp
        exact absurd hp (h p)
    · exact absurd hp (h p)
  · exact ⟨rfl, rfl, rfl, fun p hp => absurd hp (h p)⟩

theorem hangUp_spec {s : Server} {c : Call} (hr : 0 ≤ c.fnum ∧ c.fnum < 30)
    (hs : ∀ p, s.portType p = .pftp → p = c.fnum) :
    (s.hangUp c).myuser = unknownUser ∧ (s.hangUp c).rfstate = .s0 ∧
    (s.hangUp c).trace = s.trace ∧
    ∀ p, (s.hangUp c).portType p = .pftp →
      p = c.netlisten ∧ (0 ≤ p ∧ p < 30) ∧ (s.hangUp c).mainstate p = .s0 := by
  simp only [Server.hangUp]
  split
  all_goals
    refine setftp_spec _ _ fun p hp => ?_
    simp only [Server.setPortType, Server.post, if_pos hr] at hp
    by_cases hpf : p = c.fnum
    · rw [hpf, Function.update_self] at hp
      cases hp
    · rw [Function.update_of_ne hpf] at hp
      exact hpf (hs p hp)

section Guarded
variable {sys : System} {s s' : Server}

/-- One event on the control connection. -/
theorem rftpd_guarded (hsys : sys.ServerState = 2) {c : Call} (hg : Guarded sys s)
    (hc : s.portType c.fnum = .pftp) (h : s.rftpd sys c = some s') : Guarded sys s' := by
  unfold Server.rftpd at h
  split at h
  · cases h
    exact hg
  split at h
  · cases h
  rename_i t ht
  cases h
  have hd : Dispatched sys c.fnum (s.load c.fnum) t :=
    dispatch_dispatched hsys (hg.phase c.fnum hc) hg.commands ht
  have hone : ∀ p, t.portType p = .pftp → p = c.fnum := fun p hp =>
    hg.single p c.fnum (hd.portType p hp) hc
  split
  · obtain ⟨h1, h2, h3, h4⟩ := hangUp_spec (hg.range c.fnum hc) hone
    have hidle : ∀ p, (t.hangUp c).portType p = .pftp →
        ((t.hangUp c).save c.fnum).mainstate p = .s0 := by
      intro p hp
      simp only [Server.save]
      by_cases hpf : p = c.fnum
      · rw [hpf, Function.update_self, h2]
      · rw [Function.update_of_ne hpf]
        exact (h4 p hp).2.2
    refine ⟨fun p hp => (h4 p hp).2.1, fun p q hp hq => ?_, fun p hp => ?_, ?_⟩
    · rw [(h4 p hp).1, (h4 q hq).1]
    · rw [hidle p hp]
      change Phase sys p .s0 _ (t.hangUp c).myuser _
      rw [h1]
      exact .idle _ _
    · change CommandsAdmitted sys (t.hangUp c).trace
      rw [h3]
      exact hd.commands
  · refine ⟨fun p hp => hg.range p (hd.portType p hp), fun p q hp hq => ?_, fun p hp => ?_,
      hd.commands⟩
    · rw [hone p hp, hone q hq]
    · rw [hone p hp]
      simp only [Server.save, Function.update_self]
      exact hd.phase

/-- The data connections do not touch the login states. -/
structure DataOnly (s s' : Server) : Prop where
  mainstate : s'.mainstate = s.mainstate
  retnstate : s'.retnstate = s.retnstate
  myuser : s'.myuser = s.myuser
  trace : s'.trace = s.trace
  portType : s'.portType = s.portType

theorem DataOnly.trans {s s' s'' : Server} (h : DataOnly s s') (h' : DataOnly s' s'') :
    DataOnly s s'' where
  mainstate := h'.mainstate.trans h.mainstate
  retnstate := h'.retnstate.trans h.retnstate
  myuser := h'.myuser.trans h.myuser
  trace := h'.trace.trans h.trace
  portType := h'.portType.trans h.portType

theorem receive_dataOnly (d : DataCall) (fnum : Int) (reads : List (Option (List UInt8)))
    (s : Server) : DataOnly s (s.receive d fnum reads) := by
  induction reads generalizing s with
  | nil =>
    rw [Server.receive]
    split <;> constructor <;> rfl
  | cons r reads ih =>
    rw [Server.receive]
    split
    · constructor <;> rfl
    match r with
    | none => constructor <;> rfl
    | some [] => constructor <;> rfl
    | some (b :: block) =>
      have hcollect : DataOnly s (s.freshBuffer.collect (b :: block)) := by
        constructor <;> rfl
      exact hcollect.trans (ih _)

theorem transfer_dataOnly (d : DataCall) (fnum : Int) (s : Server) :
    DataOnly s (s.transfer d fnum) := by
  have hopen : ∀ start : Server → Server, (∀ t, DataOnly t (start t)) →
      DataOnly s (s.whenOpen d start) := by
    intro start hstart
    simp only [Server.whenOpen]
    have hfail : DataOnly s (if d.code = some .confail then { s with fcnt := -1 } else s) := by
      split <;> constructor <;> rfl
    refine iteInduction (fun _ => hfail) fun _ => hfail.trans (hstart _)
  have hlist : ∀ t : Server, DataOnly t (t.listNext d fnum) := by
    intro t
    simp only [Server.listNext]
    split_ifs <;> constructor <;> rfl
  have hsend : ∀ t : Server, DataOnly t (t.transmit d) := by
    intro t
    simp only [Server.transmit]
    split_ifs <;> constructor <;> rfl
  have hsettle : DataOnly s (s.settle d fnum) := by
    simp only [Server.settle]
    split_ifs <;> constructor <;> rfl
  unfold Server.transfer
  split
  · refine hopen _ fun t => DataOnly.trans ?_ (hlist _)
    exact ⟨rfl, rfl, rfl, rfl, rfl⟩
  · exact hlist s
  · refine hopen _ fun t => DataOnly.trans ?_ (receive_dataOnly d fnum d.reads _)
    exact ⟨rfl, rfl, rfl, rfl, rfl⟩
  · exact receive_dataOnly d fnum d.reads s
  · refine hopen _ fun t => DataOnly.trans ?_ (hsend _)
    exact ⟨rfl, rfl, rfl, rfl, rfl⟩
  · exact hsend s
  · exact hsettle
  · exact ⟨rfl, rfl, rfl, rfl, rfl⟩

theorem ftpd_dataOnly (d : DataCall) (s : Server) : DataOnly s (s.ftpd d) := by
  have ht := transfer_dataOnly d (s.mainport d.ftpdata)
    { s with ftpstate := s.datastate (s.mainport d.ftpdata) }
  simp only [Server.ftpd]
  split_ifs <;> exact ⟨ht.1, ht.2, ht.3, ht.4, ht.5⟩

theorem DataOnly.guarded (hd : DataOnly s s') (hg : Guarded sys s) : Guarded sys s' := by
  obtain ⟨h1, h2, h3, h4, h5⟩ := hd
  refine ⟨h5 ▸ hg.range, h5 ▸ hg.single, ?_, h4 ▸ hg.commands⟩
  rw [h1, h2, h3, h4, h5]
  exact hg.phase

/-- Every reachable state of the server guards its control connection. -/
theorem reachable_guarded (hsys : sys.ServerState = 2) (h : Reachable sys s) :
    Guarded sys s := by
  induction h with
  | start xs netlisten =>
    obtain ⟨h1, h2, h3, h4⟩ := setftp_spec (coldStart xs) netlisten
      (fun _ => by simp [coldStart])
    refine ⟨fun p hp => (h4 p hp).2.1, fun p q hp hq => ?_, fun p hp => ?_, ?_⟩
    · rw [(h4 p hp).1, (h4 q hq).1]
    · rw [(h4 p hp).2.2, h1]
      exact .idle _ _
    · rw [h3]
      intro later earlier fnum he
      simp [coldStart] at he
  | step e hs h ih =>
    cases e with
    | control c =>
      simp only [doNetEvent] at h
      split at h
      · exact rftpd_guarded hsys ih ‹_› h
      · cases h
        exact ih
    | data d =>
      cases h
      exact (ftpd_dataOnly d _).guarded ih

/-- A login line that is not an accepted `PASS` leaves the login states current. -/
theorem checkLogin_loggedOut {c : Call} (h : ¬ PasswordAccepted sys s) :
    (s.checkLogin sys c).rfstate = .s50 ∧
    ((s.checkLogin sys c).retstate = .s3 ∨ (s.checkLogin sys c).retstate = .s4) := by
  simp only [Server.checkLogin]
  split
  · exact ⟨rfl, .inr rfl⟩
  split
  · rename_i hpass
    split
    · rename_i dir vol hok
      refine absurd ⟨hpass, ?_⟩ h
      rw [hok]
      rfl
    · exact ⟨rfl, .inl rfl⟩
  split
  · exact ⟨rfl, .inl rfl⟩
  · exact ⟨rfl, .inl rfl⟩

/-- The state saved for the connection is the state left by the dispatch, or that
of a port that waits for a new connection. -/
theorem rftpd_loggedOut {c : Call} {t : Server} (hg : Guarded sys s)
    (hc : s.portType c.fnum = .pftp) (hd : Dispatched sys c.fnum (s.load c.fnum) t)
    (ht : t.rfstate = .s0 ∨ t.rfstate = .s50 ∧ (t.retstate = .s3 ∨ t.retstate = .s4)) :
    LoggedOut ((if t.cnt < 0 then t.hangUp c else t).save c.fnum) c.fnum := by
  split
  · have hone : ∀ p, t.portType p = .pftp → p = c.fnum := fun p hp =>
      hg.single p c.fnum (hd.portType p hp) hc
    refine .inl ?_
    simp only [Server.save, Function.update_self]
    exact (hangUp_spec (hg.range c.fnum hc) hone).2.1
  · simp only [LoggedOut, Server.save, Function.update_self]
    rcases ht with ht | ⟨ht, hr⟩
    · exact .inl ht
    · exact .inr (.inr (.inr ⟨ht, hr⟩))

/-- With password checking on, the interpreter only runs for a connection on
which a password was accepted for the user name last given; whatever else a
connection says before that, and its opening, leave it logged out. -/
theorem interpreter_only_after_password (hsys : sys.ServerState = 2) (h : Reachable sys s) :
    CommandsAdmitted sys s.trace ∧
    ∀ c s', s.portType c.fnum = .pftp → s.rftpd sys c = some s' →
      (s.mainstate c.fnum = .s5 → Admitted sys c.fnum s.trace) ∧
      ((s.mainstate c.fnum = .s3 ∨ s.mainstate c.fnum = .s4) → ¬ PasswordAccepted sys s →
        LoggedOut s' c.fnum) ∧
      (s.mainstate c.fnum = .s0 → LoggedOut s' c.fnum) := by
  have hg := reachable_guarded hsys h
  refine ⟨hg.commands, fun c s' hc hs => ⟨fun h5 => ?_, fun hlogin hno => ?_, fun h0 => ?_⟩⟩
  · exact (hg.phase c.fnum hc).of_session h5
  all_goals
    unfold Server.rftpd at hs
    split at hs
  · cases hs
    rcases hlogin with hl | hl
    · exact .inr (.inl hl)
    · exact .inr (.inr (.inl hl))
  · have hdis : (s.load c.fnum).dispatch sys c = some ((s.load c.fnum).checkLogin sys c) := by
      unfold Server.dispatch
      rcases hlogin with hl | hl <;> simp only [Server.load, hl]
    rw [hdis] at hs
    cases hs
    refine rftpd_loggedOut hg hc (dispatch_dispatched hsys (hg.phase c.fnum hc) hg.commands hdis) ?_
    exact .inr (checkLogin_loggedOut hno)
  · cases hs
    exact .inl h0
  · split at hs
    · cases hs
    rename_i t ht
    cases hs
    have hd : Dispatched sys c.fnum (s.load c.fnum) t :=
      dispatch_dispatched hsys (hg.phase c.fnum hc) hg.commands ht
    refine rftpd_loggedOut hg hc hd ?_
    have hacc : (s.load c.fnum).accept sys c = some t := by
      unfold Server.dispatch at ht
      simpa only [Server.load, h0] using ht
    simp only [Server.accept] at hacc
    split at hacc
    · cases hacc
      exact .inl h0
    split at hacc
    · cases hacc
    · cases hacc
      refine .inr ⟨rfl, .inl ?_⟩
      simp only [Server.greet, hsys, if_true]

end Guarded

/-- A server with one user, whose password is `pw`. -/
def oneUser : System where
  ServerState := 2
  get1NamedResource name :=
    if name = ascii ['b', 'o', 'b'] then
      some { EncryptedPassword := sencompass (ascii ['p', 'w'])
             DefaultDirVolName := []
             DefaultDirDirID := 2 }
    else none
  volumeNameToRefNum _ := -1
  getCatInfo _ _ := true
  stringToNum _ := 0

/-- An event on port 3 with `received` waiting there. -/
def onPort3 (code : Code) (received : List Char) : Call where
  code := code
  fnum := 3
  received := ascii received
  lost := false
  netpush := 0
  netest := false
  netgetftp := ([], 0, 0)
  memory := true
  netlisten := 3
  netxopen := -1
  foundFile := false
  changeDirectory := none
  pathEdit := id
  makeDirectory := false
  removeDirectory := false
  mbopen := false
  pathName := []
  uninitialized _ := 0

/-- A login: each line is read by one event and answered at the next. -/
def login : List NetEvent :=
  [.control (onPort3 .conopen []),
   .control (onPort3 .condata ['u', 's', 'e', 'r', ' ', 'b', 'o', 'b', '\r', '\n']),
   .control (onPort3 .condata []),
   .control (onPort3 .condata ['P', 'A', 'S', 'S', ' ', 'p', 'w', '\r', '\n']),
   .control (onPort3 .condata []),
   .control (onPort3 .condata ['N', 'O', 'O', 'P', '\r', '\n'])]

def run (sys : System) (es : List NetEvent) (s : Server) : Option Server :=
  es.foldlM (fun s e => doNetEvent sys e s) s

theorem run_reachable {sys : System} {es : List NetEvent} {s s' : Server}
    (hs : Reachable sys s) (h : run sys es s = some s') : Reachable sys s' := by
  induction es generalizing s with
  | nil =>
    cases h
    exact hs
  | cons e es ih =>
    simp only [run, List.foldlM_cons, Option.bind_eq_bind, Option.bind_eq_some_iff] at h
    obtain ⟨t, ht, h⟩ := h
    exact ih (hs.step e ht) h

/-- After the login the interpreter is entered, and the history shows why. -/
theorem interpreter_only_after_password_login :
    ∃ s, Reachable oneUser s ∧ s.mainstate 3 = .s5 ∧ Admitted oneUser 3 s.trace := by
  let start := (coldStart fun _ => 33).setftp 3
  have hrun : ((run oneUser login start).bind fun s =>
      (s.rftpd oneUser (onPort3 .condata [])).map fun _ =>
        (s.portType 3, s.mainstate 3)) = some (.pftp, .s5) := by
    decide +kernel
  obtain ⟨s, hs, hrest⟩ := Option.bind_eq_some_iff.mp hrun
  obtain ⟨s', hs', hpair⟩ := Option.map_eq_some_iff.mp hrest
  obtain ⟨hp, hm⟩ := Prod.mk.inj hpair
  have hr : Reachable oneUser s := run_reachable (.start _ 3) hs
  refine ⟨s, hr, hm, ?_⟩
  exact ((interpreter_only_after_password rfl hr).2 (onPort3 .condata []) s' hp hs').1 hm

end FTPServer
