import MacSSH.FTPAccess

/-! The FTP server listens again after a session. The port that is listened on
may be any, also the one the session has just given up: the state saved under
the old index at the end is the state of a port that listens. -/
namespace FTPServer
namespace Server

/-- Close the control ports and stop serving. -/
def unsetftp (s : Server) : Server :=
  let listens := fun p => 0 ≤ p ∧ p < 30 ∧ s.portType p = .pftp
  { s with
    rfstate := .s0
    ftpstate := .d0
    ftpenable := false
    portType := fun p => if listens p then .noType else s.portType p
    mainstate := fun p => if listens p then .s0 else s.mainstate p
    datastate := fun p => if listens p then .d0 else s.datastate p }

/-- The server is started and stopped as the settings say. -/
def startUpFTP (sys : System) (netlisten : Int) (s : Server) : Server :=
  if sys.ServerState ≠ 0 then s.setftp netlisten else s.unsetftp

end Server

/-- The states of the server under any events and any changes of the settings. -/
inductive Served : Server → Prop where
  | cold (xs : Buffer) : Served (coldStart xs)
  | startUp {s : Server} (sys : System) (netlisten : Int) (hs : Served s) :
      Served (s.startUpFTP sys netlisten)
  | event {s s' : Server} (sys : System) (e : NetEvent) (hs : Served s)
      (h : doNetEvent sys e s = some s') : Served s'

theorem Reachable.served {sys : System} {s : Server} (h : Reachable sys s) : Served s := by
  induction h with
  | start xs netlisten =>
    have hon : (coldStart xs).startUpFTP { sys with ServerState := 1 } netlisten =
        (coldStart xs).setftp netlisten := rfl
    exact hon ▸ .startUp _ netlisten (.cold xs)
  | step e hs h ih => exact .event sys e ih h

/-- The port `p` waits for a connection that has said nothing yet. -/
structure Listening (s : Server) (p : Int) : Prop where
  enabled : s.ftpenable = true
  portType : s.portType p = .pftp
  mainstate : s.mainstate p = .s0
  datastate : s.datastate p = .d0
  dataport : s.dataport p = -1

/-- What neither a command nor the data connection changes. -/
structure Undisturbed (s s' : Server) : Prop where
  ftpenable : s'.ftpenable = s.ftpenable
  allocated : s'.allocated = s.allocated
  cnt : s'.cnt = s.cnt
  waitpos : s'.waitpos = s.waitpos
  waitchar : s'.waitchar = s.waitchar

theorem Undisturbed.trans {s s' s'' : Server} (h : Undisturbed s s') (h' : Undisturbed s' s'') :
    Undisturbed s s'' where
  ftpenable := h'.ftpenable.trans h.ftpenable
  allocated := h'.allocated.trans h.allocated
  cnt := h'.cnt.trans h.cnt
  waitpos := h'.waitpos.trans h.waitpos
  waitchar := h'.waitchar.trans h.waitchar

section Undisturbed
variable (s : Server) (c : Call)

theorem openData_undisturbed : Undisturbed s (s.openData c) := by
  simp only [Server.openData, Server.ftpgo, Server.setPortType]
  split <;> constructor <;> rfl

theorem list_undisturbed : Undisturbed s (s.list c) := by
  simp only [Server.list]
  split
  · constructor <;> rfl
  · -- the template is kept first, then the data connection is opened
    have h := openData_undisturbed { s with
      xs := if isShort s.xs || s.xs 5 == 46 then
          store s.xs 0 (ascii ['L', 'I', 'S', 'T', ' ', '*'] ++ [0]) else s.xs
      listingTemplate := cstr (if isShort s.xs || s.xs 5 == 46 then
          store s.xs 0 (ascii ['L', 'I', 'S', 'T', ' ', '*'] ++ [0]) else s.xs) 32768 5 } c
    exact ⟨h.ftpenable, h.allocated, h.cnt, h.waitpos, h.waitchar⟩

theorem changeDir_undisturbed : Undisturbed s (s.changeDir c) := by
  simp only [Server.changeDir]
  split <;> constructor <;> rfl

theorem receiveFile_undisturbed : Undisturbed s (s.receiveFile c) := by
  have h := openData_undisturbed { s with mbfp := true, newfile := cstr s.xs 255 5 } c
  simp only [Server.receiveFile]
  split_ifs
  · constructor <;> rfl
  · constructor <;> rfl
  · exact ⟨h.ftpenable, h.allocated, h.cnt, h.waitpos, h.waitchar⟩

theorem sendFile_undisturbed : Undisturbed s (s.sendFile c) := by
  have h := openData_undisturbed { s with mbfp := true, newfile := cstr s.xs 255 5 } c
  simp only [Server.sendFile]
  split_ifs
  · constructor <;> rfl
  · exact ⟨h.ftpenable, h.allocated, h.cnt, h.waitpos, h.waitchar⟩

theorem setType_undisturbed : Undisturbed s (s.setType c) := by
  simp only [Server.setType]
  split_ifs <;> constructor <;> rfl

theorem setMacBinary_undisturbed : Undisturbed s (s.setMacBinary c) := by
  simp only [Server.setMacBinary]
  split <;> constructor <;> rfl

theorem setPort_undisturbed (sys : System) : Undisturbed s (s.setPort sys c) := by
  constructor <;> rfl

theorem printDir_undisturbed : Undisturbed s (s.printDir c) := by
  constructor <;> rfl

theorem help_undisturbed : Undisturbed s (s.help c) := by
  constructor <;> simp [Server.help, List.range', Server.cresp]

theorem interpretLine_undisturbed (sys : System) : Undisturbed s (s.interpretLine sys c) := by
  have reply : ∀ msg, Undisturbed s (s.cresp c.fnum msg) := fun msg => by constructor <;> rfl
  have write : ∀ bytes, Undisturbed s (s.netwrite c.fnum bytes) := fun bytes => by
    constructor <;> rfl
  unfold Server.interpretLine
  refine iteInduction (fun _ => list_undisturbed s c) fun _ => ?_
  refine iteInduction (fun _ => changeDir_undisturbed s c) fun _ => ?_
  refine iteInduction (fun _ => reply _) fun _ => ?_
  refine iteInduction (fun _ => reply _) fun _ => ?_
  refine iteInduction (fun _ => reply _) fun _ => ?_
  refine iteInduction (fun _ => reply _) fun _ => ?_
  refine iteInduction (fun _ => changeDir_undisturbed s _) fun _ => ?_
  refine iteInduction (fun _ => receiveFile_undisturbed s c) fun _ => ?_
  refine iteInduction (fun _ => sendFile_undisturbed s c) fun _ => ?_
  refine iteInduction (fun _ => setType_undisturbed s c) fun _ => ?_
  refine iteInduction (fun _ => setMacBinary_undisturbed s c) fun _ => ?_
  refine iteInduction (fun _ => setPort_undisturbed s c sys) fun _ => ?_
  -- `QUIT` only changes the state, `USER` only the name
  refine iteInduction (fun _ => by constructor <;> rfl) fun _ => ?_
  refine iteInduction (fun _ => printDir_undisturbed s c) fun _ => ?_
  refine iteInduction (fun _ => by constructor <;> rfl) fun _ => ?_
  refine iteInduction (fun _ => reply _) fun _ => ?_
  refine iteInduction (fun _ => reply _) fun _ => ?_
  refine iteInduction (fun _ => reply _) fun _ => ?_
  refine iteInduction (fun _ => help_undisturbed s c) fun _ => ?_
  refine iteInduction (fun _ => reply _) fun _ => ?_
  exact iteInduction (fun _ => write _) fun _ => reply _

theorem receive_undisturbed (d : DataCall) (fnum : Int) (reads : List (Option (List UInt8))) :
    Undisturbed s (s.receive d fnum reads) := by
  induction reads generalizing s with
  | nil =>
    rw [Server.receive]
    split <;> constructor <;> rfl
  | cons r reads ih =>
    rw [Server.receive]
    split
    · constructor <;> rfl
    -- the read fails, finds the other end closed, or brings a block and is followed by more
    obtain _ | _ | ⟨b, block⟩ := r
    · constructor <;> rfl
    · constructor <;> rfl
    · have hcollect : Undisturbed s (s.freshBuffer.collect (b :: block)) := by
        constructor <;> rfl
      exact hcollect.trans (ih _)

theorem transfer_undisturbed (d : DataCall) (fnum : Int) :
    Undisturbed s (s.transfer d fnum) := by
  have hopen : ∀ start : Server → Server, (∀ t, Undisturbed t (start t)) →
      Undisturbed s (s.whenOpen d start) := by
    intro start hstart
    simp only [Server.whenOpen]
    have hfail : Undisturbed s (if d.code = some .confail then { s with fcnt := -1 } else s) := by
      split <;> constructor <;> rfl
    exact iteInduction (fun _ => hfail) fun _ => hfail.trans (hstart _)
  have hlist : ∀ t : Server, Undisturbed t (t.listNext d fnum) := by
    intro t
    simp only [Server.listNext]
    split_ifs <;> constructor <;> rfl
  have hsend : ∀ t : Server, Undisturbed t (t.transmit d) := by
    intro t
    simp only [Server.transmit]
    split_ifs <;> constructor <;> rfl
  have hsettle : Undisturbed s (s.settle d fnum) := by
    simp only [Server.settle]
    split_ifs <;> constructor <;> rfl
  -- each transfer starts when the data connection opens, and goes on from then
  unfold Server.transfer
  split
  · refine hopen _ fun t => Undisturbed.trans ?_ (hlist _)
    exact ⟨rfl, rfl, rfl, rfl, rfl⟩
  · exact hlist s
  · refine hopen _ fun t => Undisturbed.trans ?_ (receive_undisturbed _ d fnum d.reads)
    exact ⟨rfl, rfl, rfl, rfl, rfl⟩
  · exact receive_undisturbed s d fnum d.reads
  · refine hopen _ fun t => Undisturbed.trans ?_ (hsend _)
    exact ⟨rfl, rfl, rfl, rfl, rfl⟩
  · exact hsend s
  · exact hsettle
  · exact ⟨rfl, rfl, rfl, rfl, rfl⟩

theorem ftpd_undisturbed (d : DataCall) : Undisturbed s (s.ftpd d) := by
  have ht := transfer_undisturbed { s with ftpstate := s.datastate (s.mainport d.ftpdata) } d
    (s.mainport d.ftpdata)
  simp only [Server.ftpd]
  split_ifs <;> exact ⟨ht.1, ht.2, ht.3, ht.4, ht.5⟩

end Undisturbed

/-- At most one port listens or is in a session, and a session has its buffers. -/
structure Sole (s : Server) : Prop where
  range : ∀ p, s.portType p = .pftp → 0 ≤ p ∧ p < 30
  single : ∀ p q, s.portType p = .pftp → s.portType q = .pftp → p = q
  memory : ∀ p, s.portType p = .pftp → s.mainstate p ≠ .s0 → s.allocated = true
  lost : 0 ≤ s.cnt

/-- What one dispatch does to the flags and the port types. -/
structure Handled (s s' : Server) : Prop where
  ftpenable : s'.ftpenable = s.ftpenable
  mainstate : s'.mainstate = s.mainstate
  portType : ∀ p, s'.portType p = .pftp → s.portType p = .pftp
  memory : s.allocated = true → s'.allocated = true
  opened : s'.rfstate ≠ .s0 → s.rfstate ≠ .s0 ∨ s'.allocated = true
  waiting : s.rfstate = .s0 → s'.cnt = s.cnt

section Handled
variable {sys : System} {c : Call} {s s' : Server}

theorem accept_handled (h : s.accept sys c = some s') : Handled s s' := by
  simp only [Server.accept] at h
  split at h
  · cases h
    exact ⟨rfl, rfl, fun _ h => h, id, .inl, fun _ => rfl⟩
  split at h
  · cases h
  · cases h
    exact ⟨rfl, rfl, fun _ h => h, fun _ => rfl, fun _ => .inr rfl, fun _ => rfl⟩

theorem checkLogin_handled (hs : s.rfstate ≠ .s0) : Handled s (s.checkLogin sys c) := by
  simp only [Server.checkLogin]
  split_ifs
  · exact ⟨rfl, rfl, fun _ h => h, id, fun _ => .inl hs, fun h => absurd h hs⟩
  · split <;> exact ⟨rfl, rfl, fun _ h => h, id, fun _ => .inl hs, fun h => absurd h hs⟩
  · exact ⟨rfl, rfl, fun _ h => h, id, fun _ => .inl hs, fun h => absurd h hs⟩
  · exact ⟨rfl, rfl, fun _ h => h, id, fun _ => .inl hs, fun h => absurd h hs⟩

theorem interpret_handled (hs : s.rfstate ≠ .s0) : Handled s (s.interpret sys c) := by
  let start := { s with rfstate := .s50, retstate := .s5, waitchar := 10, waitpos := 0 }.record
    (.command c.fnum)
  have hline := interpretLine_spec sys c start
  have hkept := interpretLine_undisturbed start c sys
  exact ⟨hkept.ftpenable, hline.mainstate, hline.portType, fun h => hkept.allocated.trans h,
    fun _ => .inl hs, fun h => absurd h hs⟩

theorem readLine_handled {l : List UInt8} {lost : Bool} (hs : s.rfstate ≠ .s0)
    (h : s.readLine l lost = some s') : Handled s s' := by
  induction l generalizing s with
  | nil =>
    cases h
    exact ⟨rfl, rfl, fun _ h => h, id, .inl, fun h => absurd h hs⟩
  | cons b l ih =>
    simp only [Server.readLine] at h
    split at h
    · simp only [Server.finishLine] at h
      split at h
      · cases h
      · cases h
        exact ⟨rfl, rfl, fun _ h => h, id, fun _ => .inl hs, fun h => absurd h hs⟩
    · -- one more byte is in `xs`; the rest of the loop is the induction hypothesis
      have hrest := ih (by exact hs) h
      exact ⟨hrest.ftpenable, hrest.mainstate, hrest.portType, hrest.memory, hrest.opened,
        fun h => absurd h hs⟩

theorem dispatch_handled (h : s.dispatch sys c = some s') : Handled s s' := by
  unfold Server.dispatch at h
  split at h
  case h_1 => exact accept_handled h
  case h_2 hs =>
    cases h
    have hne : s.rfstate ≠ .s0 := by simp [hs]
    exact ⟨rfl, rfl, fun _ h => h, id, fun _ => .inl hne, fun _ => rfl⟩
  case h_3 hs =>
    cases h
    exact checkLogin_handled (by simp [hs])
  case h_4 hs =>
    cases h
    exact checkLogin_handled (by simp [hs])
  case h_5 hs =>
    cases h
    exact interpret_handled (by simp [hs])
  case h_6 hs => exact readLine_handled (by simp [hs]) h
  case h_7 hs =>
    cases h
    have hne : s.rfstate ≠ .s0 := by simp [hs]
    simp only [Server.drain]
    split <;> exact ⟨rfl, rfl, fun _ h => h, id, fun _ => .inl hne, fun h => absurd h hne⟩
  all_goals
    cases h
    exact ⟨rfl, rfl, fun _ h => h, id, .inl, fun _ => rfl⟩

end Handled

section Listening
variable {s : Server} {netlisten : Int}

/-- Where no port listens, `setftp` makes one listen with fresh tables. -/
theorem setftp_listening (h : ∀ p, s.portType p ≠ .pftp) (hl : 0 ≤ netlisten ∧ netlisten < 30) :
    Listening (s.setftp netlisten) netlisten := by
  have hnone : ({ s with rfstate := .s0, ftpstate := .d0 } : Server).hasListener = false :=
    hasListener_eq_false h
  simp only [Server.setftp, hnone, Bool.false_eq_true, if_false, if_pos hl.1]
  refine ⟨rfl, ?_, ?_, ?_, ?_⟩
  · simp only [Server.setPortType, if_pos hl, Function.update_self]
  all_goals exact Function.update_self ..

theorem setftp_states (s : Server) (netlisten : Int) :
    (s.setftp netlisten).rfstate = .s0 ∧ (s.setftp netlisten).ftpstate = .d0 ∧
    (s.setftp netlisten).cnt = s.cnt ∧ (s.setftp netlisten).allocated = s.allocated := by
  simp only [Server.setftp]
  split_ifs <;> exact ⟨rfl, rfl, rfl, rfl⟩

/-- A port that is one of several must be found by the search of `setftp`. -/
theorem hasListener_of {p : Int} (hr : 0 ≤ p ∧ p < 30) (hp : s.portType p = .pftp) :
    s.hasListener = true := by
  simp only [Server.hasListener, List.any_eq_true, beq_iff_eq, List.mem_range]
  have hcast : ((p.toNat : ℕ) : Int) = p := Int.toNat_of_nonneg hr.1
  refine ⟨p.toNat, by omega, ?_⟩
  rw [hcast]
  exact hp

/-- While a port listens, `setftp` leaves the tables alone. -/
theorem setftp_keeps (h : s.hasListener = true) :
    (s.setftp netlisten).portType = s.portType ∧ (s.setftp netlisten).mainstate = s.mainstate := by
  have hfound : ({ s with rfstate := .s0, ftpstate := .d0 } : Server).hasListener = true := h
  simp only [Server.setftp, hfound, if_true, and_self]

theorem setftp_sole (hs : Sole s) : Sole (s.setftp netlisten) := by
  obtain ⟨-, -, hcnt, hmem⟩ := setftp_states s netlisten
  have hlost : 0 ≤ (s.setftp netlisten).cnt := hcnt ▸ hs.lost
  by_cases hl : ∃ p, s.portType p = .pftp
  · obtain ⟨p, hp⟩ := hl
    obtain ⟨htype, hmain⟩ := @setftp_keeps s netlisten (hasListener_of (hs.range p hp) hp)
    refine ⟨?_, ?_, ?_, hlost⟩
    · rw [htype]
      exact hs.range
    · rw [htype]
      exact hs.single
    · rw [htype, hmain, hmem]
      exact hs.memory
  · have hnone : ∀ p, s.portType p ≠ .pftp := fun p hp => hl ⟨p, hp⟩
    obtain ⟨-, -, -, hnew⟩ := setftp_spec s netlisten hnone
    refine ⟨fun p hp => (hnew p hp).2.1, fun p q hp hq => ?_, fun p hp h0 => ?_, hlost⟩
    · rw [(hnew p hp).1, (hnew q hq).1]
    · exact absurd (hnew p hp).2.2 h0

theorem unsetftp_sole (hs : Sole s) : Sole s.unsetftp := by
  have hnone : ∀ p, s.unsetftp.portType p ≠ .pftp := by
    intro p hp
    simp only [Server.unsetftp] at hp
    split at hp
    · cases hp
    · rename_i h
      obtain ⟨h0, h30⟩ := hs.range p hp
      exact h ⟨h0, h30, hp⟩
  exact ⟨fun p hp => absurd hp (hnone p), fun p _ hp _ => absurd hp (hnone p),
    fun p hp _ => absurd hp (hnone p), hs.lost⟩

/-- The end of a session: the old port is given up before `setftp` looks for one
that listens, so it always takes the new one. -/
theorem hangUp_listening {c : Call} (hr : 0 ≤ c.fnum ∧ c.fnum < 30)
    (hs : ∀ p, s.portType p = .pftp → p = c.fnum) (hl : 0 ≤ c.netlisten ∧ c.netlisten < 30) :
    Listening (s.hangUp c) c.netlisten := by
  simp only [Server.hangUp]
  split
  all_goals
    refine setftp_listening (fun p hp => ?_) hl
    simp only [Server.setPortType, Server.post, if_pos hr] at hp
    by_cases hpf : p = c.fnum
    · rw [hpf, Function.update_self] at hp
      cases hp
    · rw [Function.update_of_ne hpf] at hp
      exact hpf (hs p hp)

theorem hangUp_states (s : Server) (c : Call) :
    (s.hangUp c).rfstate = .s0 ∧ (s.hangUp c).ftpstate = .d0 ∧ (s.hangUp c).cnt = 0 ∧
    (s.hangUp c).allocated = s.allocated := by
  simp only [Server.hangUp]
  split
  all_goals
    obtain ⟨h1, h2, h3, h4⟩ := setftp_states _ c.netlisten
    exact ⟨h1, h2, h3, h4⟩

/-- What is saved under the old index is what the tables say of a fresh port, so
it does no harm where the new port has the old index. -/
theorem save_listening {p fnum : Int} (h : Listening s p) (hr : s.rfstate = .s0)
    (hf : s.ftpstate = .d0) : Listening (s.save fnum) p := by
  refine ⟨h.enabled, h.portType, ?_, ?_, h.dataport⟩
  · simp only [Server.save, Function.update_apply, hr, h.mainstate, ite_self]
  · simp only [Server.save, Function.update_apply, hf, h.datastate, ite_self]

end Listening

section Served
variable {sys : System} {c : Call} {s s' t : Server}

/-- A session that ends is closed before its state is saved. -/
theorem rftpd_ends (he : s.ftpenable = true) (hd : (s.load c.fnum).dispatch sys c = some t)
    (hend : t.cnt < 0) : s.rftpd sys c = some ((t.hangUp c).save c.fnum) := by
  simp only [Server.rftpd, he, Bool.not_true, Bool.false_eq_true, if_false, hd, if_pos hend]

theorem rftpd_goes_on (he : s.ftpenable = true) (hd : (s.load c.fnum).dispatch sys c = some t)
    (hcnt : 0 ≤ t.cnt) : s.rftpd sys c = some (t.save c.fnum) := by
  have hnot : ¬ t.cnt < 0 := by omega
  simp only [Server.rftpd, he, Bool.not_true, Bool.false_eq_true, if_false, hd, if_neg hnot]

theorem rftpd_cases (he : s.ftpenable = true) (h : s.rftpd sys c = some s') :
    ∃ t, (s.load c.fnum).dispatch sys c = some t ∧
      (t.cnt < 0 ∧ s' = (t.hangUp c).save c.fnum ∨ 0 ≤ t.cnt ∧ s' = t.save c.fnum) := by
  cases hd : (s.load c.fnum).dispatch sys c with
  | none =>
    simp only [Server.rftpd, he, Bool.not_true, Bool.false_eq_true, if_false, hd] at h
    cases h
  | some t =>
    refine ⟨t, rfl, ?_⟩
    by_cases hend : t.cnt < 0
    · rw [rftpd_ends he hd hend] at h
      exact .inl ⟨hend, (Option.some.inj h).symm⟩
    · have hcnt : 0 ≤ t.cnt := by omega
      rw [rftpd_goes_on he hd hcnt] at h
      exact .inr ⟨hcnt, (Option.some.inj h).symm⟩

theorem accept_greets (hc : c.code = .conopen) (ha : s.allocated = true) :
    ∃ t, s.accept sys c = some t ∧ t.cnt = s.cnt ∧ t.sent = s.sent ++ [(c.fnum, .cresp 0)] := by
  simp only [Server.accept, hc, ne_eq, not_true_eq_false, if_false, Server.post, ha,
    Bool.not_true, Bool.false_and, Bool.false_eq_true]
  exact ⟨_, rfl, rfl, rfl⟩

/-- After a dispatch the port types only name the port of the session. -/
theorem Sole.only (hs : Sole s) (hc : s.portType c.fnum = .pftp) (hd : Handled (s.load c.fnum) t) :
    ∀ p, t.portType p = .pftp → p = c.fnum := fun p hp =>
  hs.single p c.fnum (hd.portType p hp) hc

theorem rftpd_sole (hs : Sole s) (hc : s.portType c.fnum = .pftp)
    (h : s.rftpd sys c = some s') : Sole s' := by
  by_cases he : s.ftpenable = true
  case neg =>
    simp only [Server.rftpd, he, Bool.not_false, if_true] at h
    cases h
    exact hs
  obtain ⟨t, ht, hend⟩ := rftpd_cases he h
  have hd : Handled (s.load c.fnum) t := dispatch_handled ht
  have hone := hs.only hc hd
  rcases hend with ⟨-, rfl⟩ | ⟨hcnt, rfl⟩
  · -- the session ends: only the new port may be a control port, in state 0
    obtain ⟨-, -, -, hnew⟩ := hangUp_spec (hs.range c.fnum hc) hone
    obtain ⟨hstate, -, hcnt, -⟩ := hangUp_states t c
    refine ⟨fun p hp => (hnew p hp).2.1, fun p q hp hq => ?_, fun p hp h0 => ?_,
      Int.le_of_eq hcnt.symm⟩
    · rw [(hnew p hp).1, (hnew q hq).1]
    · refine absurd ?_ h0
      simp only [Server.save, Function.update_apply, hstate, (hnew p hp).2.2, ite_self]
  · -- the session goes on under the same index
    refine ⟨fun p hp => hs.range p (hd.portType p hp), fun p q hp hq => ?_, fun p hp h0 => ?_,
      hcnt⟩
    · rw [hone p hp, hone q hq]
    · obtain rfl := hone p hp
      simp only [Server.save, Function.update_self] at h0
      rcases hd.opened h0 with hold | hnew
      · exact hd.memory (hs.memory _ hc hold)
      · exact hnew

theorem ftpd_sole (hs : Sole s) (d : DataCall) : Sole (s.ftpd d) := by
  have hdata := ftpd_dataOnly d s
  have hkept := ftpd_undisturbed s d
  refine ⟨?_, ?_, ?_, ?_⟩
  · rw [hdata.portType]
    exact hs.range
  · rw [hdata.portType]
    exact hs.single
  · rw [hdata.portType, hdata.mainstate, hkept.allocated]
    exact hs.memory
  · rw [hkept.cnt]
    exact hs.lost

theorem doNetEvent_sole {e : NetEvent} (hs : Sole s) (h : doNetEvent sys e s = some s') :
    Sole s' := by
  cases e with
  | control c =>
    simp only [doNetEvent] at h
    split at h
    · rename_i hc
      exact rftpd_sole hs hc h
    · cases h
      exact hs
  | data d =>
    cases h
    exact ftpd_sole hs d

theorem Served.sole (h : Served s) : Sole s := by
  induction h with
  | cold xs =>
    refine ⟨?_, ?_, ?_, Int.le_refl 0⟩ <;> intro p <;> simp [coldStart]
  | startUp sys netlisten hs ih =>
    simp only [Server.startUpFTP]
    split
    · exact setftp_sole ih
    · exact unsetftp_sole ih
  | event sys e hs h ih => exact doNetEvent_sole ih h

end Served

/-- An event that opens a connection on the port `p`. -/
def Opens (p : Int) : NetEvent → Prop
  | .control c => c.fnum = p ∧ c.code = .conopen
  | .data _ => False

/-- The port still waits: whatever came in the meantime opened no connection. -/
structure Waiting (s : Server) (p : Int) : Prop extends Sole s where
  enabled : s.ftpenable = true
  portType : s.portType p = .pftp
  mainstate : s.mainstate p = .s0
  allocated : s.allocated = true

section Waiting
variable {sys : System} {s s' : Server} {p : Int}

theorem Waiting.step {e : NetEvent} (hw : Waiting s p) (he : ¬ Opens p e)
    (h : doNetEvent sys e s = some s') : Waiting s' p := by
  have hsole := doNetEvent_sole hw.toSole h
  cases e with
  | data d =>
    cases h
    have hdata := ftpd_dataOnly d s
    have hkept := ftpd_undisturbed s d
    exact ⟨hsole, hkept.ftpenable.trans hw.enabled, hdata.portType ▸ hw.portType,
      hdata.mainstate ▸ hw.mainstate, hkept.allocated.trans hw.allocated⟩
  | control c =>
    simp only [doNetEvent] at h
    split at h
    case isFalse =>
      cases h
      exact hw
    case isTrue hc =>
      -- the only control port is the one that waits
      obtain rfl := hw.single _ _ hc hw.portType
      have hcode : c.code ≠ .conopen := fun hcode => he ⟨rfl, hcode⟩
      have hquiet : (s.load c.fnum).dispatch sys c = some (s.load c.fnum) := by
        have hstate : (s.load c.fnum).rfstate = .s0 := hw.mainstate
        simp only [Server.dispatch, hstate, Server.accept, if_pos hcode]
      rw [rftpd_goes_on hw.enabled hquiet hw.lost] at h
      cases h
      refine ⟨hsole, hw.enabled, hw.portType, ?_, hw.allocated⟩
      simp only [Server.save, Function.update_self]
      exact hw.mainstate

theorem Waiting.run {es : List NetEvent} (hw : Waiting s p) (he : ∀ e ∈ es, ¬ Opens p e)
    (h : run sys es s = some s') : Waiting s' p := by
  induction es generalizing s with
  | nil =>
    cases h
    exact hw
  | cons e es ih =>
    simp only [FTPServer.run, List.foldlM_cons, Option.bind_eq_bind, Option.bind_eq_some_iff] at h
    obtain ⟨t, ht, h⟩ := h
    have ht' : Waiting t p := hw.step (he e List.mem_cons_self) ht
    exact ih ht' (fun e' he' => he e' (List.mem_cons_of_mem _ he')) h

/-- A connection that opens on a waiting port is greeted. -/
theorem Waiting.greeted {c : Call} (hw : Waiting s p) (hf : c.fnum = p) (hc : c.code = .conopen) :
    ∃ s', doNetEvent sys (.control c) s = some s' ∧ s'.sent = s.sent ++ [(p, .cresp 0)] := by
  subst hf
  have hstate : (s.load c.fnum).rfstate = .s0 := hw.mainstate
  obtain ⟨t, ht, hcnt, hsent⟩ := @accept_greets sys c (s.load c.fnum) hc hw.allocated
  have hd : (s.load c.fnum).dispatch sys c = some t := by
    simp only [Server.dispatch, hstate, ht]
  refine ⟨t.save c.fnum, ?_, hsent⟩
  simp only [doNetEvent, if_pos hw.portType]
  apply rftpd_goes_on hw.enabled hd
  rw [hcnt]
  exact hw.lost

end Waiting

/-- However a session ends, the port that is listened on next is one that no
connection has used when `rftpd` returns, and the next connection that opens on
it is greeted, whatever else comes in before. -/
theorem listens_again {sys : System} {c : Call} {s t s' : Server} (hs : Served s)
    (hc : s.portType c.fnum = .pftp) (he : s.ftpenable = true)
    (hd : (s.load c.fnum).dispatch sys c = some t) (hend : t.cnt < 0)
    (hl : 0 ≤ c.netlisten ∧ c.netlisten < 30) (h : s.rftpd sys c = some s') :
    Listening s' c.netlisten ∧
    ∀ sys' es u, (∀ e ∈ es, ¬ Opens c.netlisten e) → run sys' es s' = some u →
      ∀ c', c'.fnum = c.netlisten → c'.code = .conopen →
        ∃ v, doNetEvent sys' (.control c') u = some v ∧
          v.sent = u.sent ++ [(c.netlisten, .cresp 0)] := by
  have hsole := hs.sole
  have hhandled := dispatch_handled hd
  obtain ⟨hstate, hfstate, hcnt, hmem⟩ := hangUp_states t c
  have hs' : Sole s' := rftpd_sole hsole hc h
  rw [rftpd_ends he hd hend] at h
  cases h
  have hlisten : Listening ((t.hangUp c).save c.fnum) c.netlisten := by
    apply save_listening _ hstate hfstate
    exact hangUp_listening (hsole.range c.fnum hc) (hsole.only hc hhandled) hl
  refine ⟨hlisten, fun sys' es u hes hu c' hf hcode => ?_⟩
  -- a session that ends has been greeted, so its buffers are there
  have hused : s.mainstate c.fnum ≠ .s0 := by
    intro h0
    have hkept : t.cnt = s.cnt := hhandled.waiting h0
    have := hsole.lost
    omega
  have halloc : (t.hangUp c).allocated = true :=
    hmem.trans (hhandled.memory (hsole.memory _ hc hused))
  have hw : Waiting ((t.hangUp c).save c.fnum) c.netlisten :=
    ⟨hs', hlisten.enabled, hlisten.portType, hlisten.mainstate, halloc⟩
  exact (hw.run hes hu).greeted hf hcode

/-- A session on port 3 that quits: the last event finds the reply gone through. -/
def quitting : List NetEvent :=
  [.control (onPort3 .conopen []),
   .control (onPort3 .condata ['q', 'u', 'i', 't', '\r', '\n'])]

/-- A `QUIT` on port 3 releases it, and the index is used again at once. -/
theorem listens_again_on_same_port :
    ∃ s s', Served s ∧ s.rftpd oneUser (onPort3 .condata []) = some s' ∧ Listening s' 3 := by
  let start := (coldStart fun _ => 33).setftp 3
  have hrun : ((run oneUser quitting start).bind fun s =>
      ((s.load 3).dispatch oneUser (onPort3 .condata [])).bind fun t =>
        (s.rftpd oneUser (onPort3 .condata [])).map fun _ =>
          (s.portType 3, s.ftpenable, decide (t.cnt < 0))) = some (.pftp, true, true) := by
    decide +kernel
  obtain ⟨s, hs, hrest⟩ := Option.bind_eq_some_iff.mp hrun
  obtain ⟨t, ht, hrest⟩ := Option.bind_eq_some_iff.mp hrest
  obtain ⟨s', hs', hpair⟩ := Option.map_eq_some_iff.mp hrest
  obtain ⟨hp, hrest⟩ := Prod.mk.inj hpair
  obtain ⟨he, hlost⟩ := Prod.mk.inj hrest
  have hr : Served s := (run_reachable (.start _ 3) hs).served
  have hend : t.cnt < 0 := of_decide_eq_true hlost
  exact ⟨s, s', hr, hs', (listens_again hr hp he ht hend (by decide) hs').1⟩

end FTPServer
