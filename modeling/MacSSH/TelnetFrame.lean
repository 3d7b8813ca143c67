import MacSSH.TelnetOptions
import MacSSH.TelnetSuboptions

/-! What answering an option or a suboption leaves alone: it may change flags and
send replies, but not where the parser stands nor what was shown. -/
namespace Telnet

/-- The part of a window that only the parser itself changes. -/
structure Reading where
  cfg : Config
  telstate : TelState
  termstate : TermState
  curgraph : Int
  parseIndex : ℕ
  vt : List UInt8
  graph : List GraphOp
  sublog : List SubEvent

namespace WindRec

def reading (tw : WindRec) : Reading :=
  { cfg := tw.cfg
    telstate := tw.telstate
    termstate := tw.termstate
    curgraph := tw.curgraph
    parseIndex := tw.parseIndex
    vt := tw.vt
    graph := tw.graph
    sublog := tw.sublog }

section Reading
variable {tw t : WindRec}

theorem cfg_of_reading (h : t.reading = tw.reading) : t.cfg = tw.cfg :=
  congrArg Reading.cfg h

theorem termstate_of_reading (h : t.reading = tw.reading) : t.termstate = tw.termstate :=
  congrArg Reading.termstate h

theorem parseIndex_of_reading (h : t.reading = tw.reading) : t.parseIndex = tw.parseIndex :=
  congrArg Reading.parseIndex h

theorem vt_of_reading (h : t.reading = tw.reading) : t.vt = tw.vt :=
  congrArg Reading.vt h

theorem sublog_of_reading (h : t.reading = tw.reading) : t.sublog = tw.sublog :=
  congrArg Reading.sublog h

end Reading

section Options
variable (tw : WindRec)

@[simp] theorem send_reading (verb : Verb) (option : UInt8) :
    (tw.send verb option).reading = tw.reading := rfl

@[simp] theorem netwrite_reading (bytes : List UInt8) :
    (tw.netwrite bytes).reading = tw.reading := rfl

@[simp] theorem reply_reading (bytes : List UInt8) : (tw.reply bytes).reading = tw.reading := by
  unfold reply
  split <;> rfl

@[simp] theorem call_reading (c : PlugCall) : (tw.call c).reading = tw.reading := rfl

@[simp] theorem kbflush_reading : tw.kbflush.reading = tw.reading := by
  unfold kbflush
  split <;> rfl

@[simp] theorem sendNAWSinfo_reading (horiz vert : Int) :
    (tw.sendNAWSinfo horiz vert).reading = tw.reading := by
  unfold sendNAWSinfo
  split <;> rfl

theorem triplets_reading (l : List ℕ) :
    (l.foldl (fun t i => t.netwrite (t.slcTriplet i)) tw).reading = tw.reading := by
  induction l generalizing tw with
  | nil => rfl
  | cons i l ih => exact ih (tw.netwrite (tw.slcTriplet i))

@[simp] theorem doLinemode_reading : tw.doLinemode.reading = tw.reading := by
  unfold doLinemode
  rw [netwrite_reading, triplets_reading, netwrite_reading]
  rfl

/-- Answering an option command leaves the parser where it is. -/
theorem answer_reading (verb : Verb) (option : UInt8) :
    (tw.answer verb option).reading = tw.reading := by
  cases verb with
  | will =>
    simp only [answer, telnet_will, apply_ite reading, send_reading]
    simp [reading]
  | wont =>
    simp only [answer, telnet_wont, apply_ite reading, send_reading]
    simp [reading]
  | «do» =>
    simp only [answer, telnet_do, apply_ite reading, send_reading, sendNAWSinfo_reading,
      doLinemode_reading]
    simp [reading]
  | dont =>
    simp only [answer, telnet_dont, apply_ite reading, send_reading]
    have h := kbflush_reading (tw.send .wont N_LINEMODE)
    simp only [reading, Reading.mk.injEq, send] at h
    simp [reading, send, h]

@[simp] theorem send_timing (verb : Verb) (option : UInt8) :
    (tw.send verb option).timing = tw.timing := rfl

@[simp] theorem netwrite_timing (bytes : List UInt8) : (tw.netwrite bytes).timing = tw.timing := rfl

@[simp] theorem reply_timing (bytes : List UInt8) : (tw.reply bytes).timing = tw.timing := by
  unfold reply
  split <;> rfl

@[simp] theorem kbflush_timing : tw.kbflush.timing = tw.timing := by
  unfold kbflush
  split <;> rfl

@[simp] theorem sendNAWSinfo_timing (horiz vert : Int) :
    (tw.sendNAWSinfo horiz vert).timing = tw.timing := by
  unfold sendNAWSinfo
  split <;> rfl

theorem triplets_timing (l : List ℕ) :
    (l.foldl (fun t i => t.netwrite (t.slcTriplet i)) tw).timing = tw.timing := by
  induction l generalizing tw with
  | nil => rfl
  | cons i l ih => exact ih (tw.netwrite (tw.slcTriplet i))

@[simp] theorem doLinemode_timing : tw.doLinemode.timing = tw.timing := by
  unfold doLinemode
  rw [netwrite_timing, triplets_timing, netwrite_timing]

/-- Only `WILL` and `WONT` of a timing mark end the wait for one. -/
theorem answer_timing (verb : Verb) (option : UInt8) :
    (tw.answer verb option).timing =
      if (verb = .will ∨ verb = .wont) ∧ option = N_TIMING then false else tw.timing := by
  cases verb with
  | will =>
    by_cases h : option = N_TIMING
    · subst h
      simp [answer, telnet_will]
    · simp [answer, telnet_will, apply_ite WindRec.timing, h]
  | wont =>
    by_cases h : option = N_TIMING
    · subst h
      simp [answer, telnet_wont]
    · simp [answer, telnet_wont, apply_ite WindRec.timing, h]
  | «do» => simp [answer, telnet_do, apply_ite WindRec.timing]
  | dont => simp [answer, telnet_dont, apply_ite WindRec.timing]

end Options

section Suboptions
variable (tw : WindRec) (pl : Plugin)

/-- What a suboption does not touch. -/
def SubFrame (tw t : WindRec) : Prop := t.reading = tw.reading ∧ t.timing = tw.timing

theorem SubFrame.trans {a b c : WindRec} (h : SubFrame a b) (h' : SubFrame b c) : SubFrame a c :=
  ⟨h'.1.trans h.1, h'.2.trans h.2⟩

theorem netwrite_frame (bytes : List UInt8) : SubFrame tw (tw.netwrite bytes) := ⟨rfl, rfl⟩

theorem reply_frame (bytes : List UInt8) : SubFrame tw (tw.reply bytes) := by simp [SubFrame]

theorem initAuth_frame : SubFrame tw (tw.initAuth pl) := by
  unfold initAuth
  split <;> exact ⟨rfl, rfl⟩

theorem initEncrypt_frame : SubFrame tw (tw.initEncrypt pl) := by
  unfold initEncrypt
  split <;> exact ⟨rfl, rfl⟩

theorem auth_frame : SubFrame tw (tw.auth_suboption pl) := by
  unfold auth_suboption
  refine iteInduction (fun _ => ?_) fun _ => ?_
  · refine iteInduction (fun _ => netwrite_frame ..) fun _ => ?_
    have h := initAuth_frame tw pl
    refine iteInduction (fun _ => h.trans (netwrite_frame ..)) fun _ => h.trans ?_
    split
    · exact ⟨rfl, rfl⟩
    · exact reply_frame (call ..) _
  · refine iteInduction (fun _ => ?_) fun _ => ⟨rfl, rfl⟩
    exact iteInduction (fun _ => reply_frame (call ..) _) fun _ => ⟨rfl, rfl⟩

theorem encrypt_frame : SubFrame tw (tw.encrypt_suboption pl).1 := by
  unfold encrypt_suboption
  have h := initEncrypt_frame tw pl
  split
  · exact ⟨rfl, rfl⟩
  · simp only
    split
    · exact h
    · exact h.trans (reply_frame (call ..) _)

theorem respondSLC_frame (o : ℕ) (sent ack : Bool) : SubFrame tw (tw.respondSLC o sent ack) := by
  have hhead : SubFrame tw
      (if sent then tw else tw.netwrite [TEL_IAC, TEL_SB, N_LINEMODE, L_SLC]) := by
    split
    · exact ⟨rfl, rfl⟩
    · exact netwrite_frame _ _
  rw [respondSLC]
  by_cases h : tw.line.slc o = TEL_IAC
  · rw [if_pos h]
    exact ((hhead.trans (netwrite_frame _ _)).trans (netwrite_frame _ _)).trans (netwrite_frame _ _)
  · rw [if_neg h]
    exact hhead.trans (netwrite_frame _ _)

theorem triplet_frame (sent : Bool) (o : ℕ) (flags value : UInt8) :
    SubFrame tw (tw.negotiateTriplet sent o flags value).1 := by
  have hset (v l : UInt8) : SubFrame tw (tw.setSLC o v l) := ⟨rfl, rfl⟩
  have hrespond (v l : UInt8) (a : Bool) : SubFrame tw ((tw.setSLC o v l).respondSLC o sent a) :=
    (hset v l).trans (respondSLC_frame ..)
  unfold negotiateTriplet
  simp only
  split
  · split
    · split
      · split
        · exact hset ..
        · exact hrespond ..
      · exact ⟨rfl, rfl⟩
    · split
      · exact hrespond ..
      · split
        · exact respondSLC_frame ..
        · split
          · exact hset ..
          · exact hrespond ..
  · exact ⟨rfl, rfl⟩

theorem slcLoop_frame (fuel i : ℕ) (r : WindRec × Bool) : SubFrame r.1 (slcLoop fuel i r).1 := by
  induction fuel generalizing i r with
  | zero => exact ⟨rfl, rfl⟩
  | succ fuel ih =>
    unfold slcLoop
    split
    · exact (triplet_frame ..).trans (ih ..)
    · exact ⟨rfl, rfl⟩

theorem slc_frame : SubFrame tw tw.negotiateSLC := by
  unfold negotiateSLC
  have h := slcLoop_frame tw.parseIndex 2 (tw, false)
  exact iteInduction (fun _ => h.trans (netwrite_frame ..)) fun _ => h

theorem linemode_frame : SubFrame tw tw.linemode_suboption := by
  unfold linemode_suboption
  refine iteInduction (fun _ => ?_) fun _ => iteInduction (fun _ => ⟨rfl, rfl⟩) fun _ =>
    iteInduction (fun _ => ⟨rfl, rfl⟩) fun _ => iteInduction (fun _ => slc_frame tw) fun _ =>
      ⟨rfl, rfl⟩
  refine iteInduction (fun _ => ?_) fun _ => ⟨rfl, rfl⟩
  unfold changeMode
  exact iteInduction (fun _ => ⟨rfl, rfl⟩) fun _ => ⟨rfl, rfl⟩

theorem remoteflow_frame : SubFrame tw tw.remoteflow_suboption := by
  unfold remoteflow_suboption
  repeat' refine iteInduction (fun _ => ⟨rfl, rfl⟩) fun _ => ?_
  exact ⟨rfl, rfl⟩

/-- Processing a suboption leaves the parser where it is. -/
theorem suboption_frame : SubFrame tw (suboption pl tw).1 := by
  unfold suboption
  repeat' split
  · exact ⟨rfl, rfl⟩
  · exact ⟨rfl, rfl⟩
  · exact encrypt_frame tw pl
  · exact auth_frame tw pl
  · exact linemode_frame tw
  · exact remoteflow_frame tw
  · exact netwrite_frame ..
  · exact ⟨rfl, rfl⟩
  · exact ⟨rfl, rfl⟩

end Suboptions

end WindRec

end Telnet
