import MacSSH.TelnetFrame

/-! What the handlers of suboptions look at in the buffer, where a suboption is long enough
for its handler. -/
namespace Telnet

namespace WindRec

/-- The same window with other bytes in the buffer. -/
def buffer (tw : WindRec) (d : ℕ → UInt8) : WindRec := { tw with parsedat := d }

/-- Two windows that differ at most in bytes not received for this suboption. -/
def SameReceived (tw t : WindRec) : Prop :=
  ∃ d, t = tw.buffer d ∧ ∀ i < tw.parseIndex, d i = tw.parsedat i

/-- Processing the suboption looks at no byte that was not received for it. -/
def UsesReceived (pl : Plugin) (tw : WindRec) : Prop :=
  ∀ t rest, SameReceived tw t →
    SameReceived (tw.process_suboption pl rest).1 (t.process_suboption pl rest).1 ∧
      (t.process_suboption pl rest).2 = (tw.process_suboption pl rest).2

end WindRec

/-- The octets stand in the buffer from index `i` on. -/
def Holds (d : ℕ → UInt8) : ℕ → List UInt8 → Prop
  | _, [] => True
  | i, c :: octets => d i = c ∧ Holds d (i + 1) octets

/-- Whether some module accepts the pair. -/
def Plugin.accepts (pl : Plugin) (a b : UInt8) : Bool :=
  pl.modules.any fun pairs => pairs.contains (a, b)

/-- The octets say where a forward mask ends that has room for so many: at a zero, at an `IAC`
two octets before an `SE`, or where there is no more room. -/
inductive MaskComplete : ℕ → List UInt8 → Prop
  | full (octets : List UInt8) : MaskComplete 0 octets
  | zero (room : ℕ) (octets : List UInt8) : MaskComplete (room + 1) (0 :: octets)
  | octet {room : ℕ} {c : UInt8} {octets : List UInt8} : c ≠ TEL_IAC → MaskComplete room octets →
    MaskComplete (room + 1) (c :: octets)
  | ended (room : ℕ) (x : UInt8) (octets : List UInt8) :
    MaskComplete (room + 1) (TEL_IAC :: x :: TEL_SE :: octets)
  | iac {room : ℕ} {x y : UInt8} {octets : List UInt8} : MaskComplete (room - 1) (y :: octets) →
    MaskComplete (room + 1) (TEL_IAC :: x :: y :: octets)
  | last {room : ℕ} {x : UInt8} : room ≤ 1 → x &&& 14 = 0 → MaskComplete (room + 1) [TEL_IAC, x]

/-- The offers of an authentication suboption come in pairs up to one that is accepted, or the
last one is accepted or refused whatever comes with it. -/
inductive PairsComplete (pl : Plugin) : List UInt8 → Prop
  | none : PairsComplete pl []
  | lone {a : UInt8} : (∀ b b', pl.accepts a b = pl.accepts a b') → PairsComplete pl [a]
  | accepted {a b : UInt8} (pairs : List UInt8) : pl.accepts a b →
    PairsComplete pl (a :: b :: pairs)
  | pair {a b : UInt8} {pairs : List UInt8} : PairsComplete pl pairs →
    PairsComplete pl (a :: b :: pairs)

def AuthComplete (pl : Plugin) : List UInt8 → Prop
  | [] => False
  | command :: pairs => command = TNQ_SEND → PairsComplete pl pairs

def LinemodeComplete (lineAllow : Bool) : List UInt8 → Prop
  | [] => False
  | command :: sub => (command = L_MODE → lineAllow → sub ≠ []) ∧
    (command = TEL_DOTEL → MaskComplete 32 sub.tail)

/-- The octets of a suboption are all that its handler looks at. -/
def Complete (pl : Plugin) (lineAllow : Bool) : List UInt8 → Prop
  | [] => False
  | option :: sub =>
    (option = N_TERMTYP ∨ option = N_REMOTEFLOW ∨ option = N_NEW_ENVIRON → sub ≠ []) ∧
    (option = N_AUTHENTICATION → AuthComplete pl sub) ∧
    (option = N_LINEMODE → LinemodeComplete lineAllow sub)

section Held
variable {d d' : ℕ → UInt8} {i : ℕ} {octets more : List UInt8}

theorem holds_append : Holds d i (octets ++ more) ↔
    Holds d i octets ∧ Holds d (i + octets.length) more := by
  induction octets generalizing i with
  | nil => exact (and_iff_right trivial).symm
  | cons c octets ih =>
    have hplace : i + (c :: octets).length = i + 1 + octets.length := by
      rw [List.length_cons]
      omega
    rw [hplace, List.cons_append, Holds, Holds, ih, and_assoc]

theorem Holds.congr (h : Holds d i octets)
    (hd : ∀ j, i ≤ j → j < i + octets.length → d' j = d j) : Holds d' i octets := by
  induction octets generalizing i with
  | nil => trivial
  | cons c octets ih =>
    rw [List.length_cons] at hd
    exact ⟨(hd i (Nat.le_refl i) (by omega)).trans h.1,
      ih h.2 fun j hij hj => hd j (by omega) (by omega)⟩

end Held

namespace WindRec

section Handlers
variable {tw : WindRec} {pl : Plugin} {d d' : ℕ → UInt8} {n : ℕ}

theorem maskKeys_none {i : ℕ} (h : d i &&& 14 = 0) : maskKeys d i = [] := by
  have hnone : ∀ j ∈ List.range 8, d i &&& UInt8.ofNat (j * 2) = 0 := by
    intro j hj
    have hbits : UInt8.ofNat (j * 2) = 14 &&& UInt8.ofNat (j * 2) := by
      revert j
      decide
    rw [hbits, ← UInt8.and_assoc, h, UInt8.zero_and]
  rw [maskKeys, List.map_eq_nil_iff, List.filter_eq_nil_iff]
  intro j hj
  rw [hnone j hj]
  decide

theorem maskLoop_full (fuel : ℕ) {i : ℕ} (h : 35 ≤ i) : maskLoop d fuel i = [] := by
  cases fuel with
  | zero => rfl
  | succ fuel =>
    rw [maskLoop, if_neg]
    omega

/-- A mask that is complete is read the same wherever its octets stand. -/
theorem mask_congr {room : ℕ} {octets : List UInt8} (hm : MaskComplete room octets) :
    ∀ {fuel i : ℕ}, i + room = 35 → Holds d i octets → Holds d' i octets →
      maskLoop d' fuel i = maskLoop d fuel i := by
  -- on where the mask ends; the loop has room up to octet 35
  induction hm with
  | full octets =>
    intro fuel i hi _ _
    rw [maskLoop_full fuel (by omega), maskLoop_full fuel (by omega)]
  | zero room octets =>
    intro fuel i _ h h'
    cases fuel with
    | zero => rfl
    | succ fuel =>
      rw [maskLoop, maskLoop, if_neg fun hno => hno.1 h'.1, if_neg fun hno => hno.1 h.1]
  | @octet room c octets hc _ ih =>
    intro fuel i hi h h'
    cases fuel with
    | zero => rfl
    | succ fuel =>
      have hkeys : maskKeys d' i = maskKeys d i := by
        rw [maskKeys, maskKeys, h.1, h'.1]
      rw [maskLoop, maskLoop, h.1, h'.1, if_neg hc, if_neg hc, hkeys, ih (by omega) h.2 h'.2]
  | ended room x octets =>
    intro fuel i _ h h'
    cases fuel with
    | zero => rfl
    | succ fuel =>
      rw [maskLoop, maskLoop, h.1, h'.1, h.2.2.1, h'.2.2.1]
      rfl
  | @iac room x y octets _ ih =>
    intro fuel i hi h h'
    cases fuel with
    | zero => rfl
    | succ fuel =>
      have hkeys : maskKeys d' (i + 1) = maskKeys d (i + 1) := by
        rw [maskKeys, maskKeys, h.2.1, h'.2.1]
      -- with no more room the loop does not look at the octet behind the doubled one
      have hrest : maskLoop d' fuel (i + 2) = maskLoop d fuel (i + 2) := by
        by_cases hroom : room = 0
        · rw [maskLoop_full fuel (by omega), maskLoop_full fuel (by omega)]
        · exact ih (by omega) h.2.2 h'.2.2
      rw [maskLoop, maskLoop, h.1, h'.1, h.2.2.1, h'.2.2.1, hkeys, hrest, if_pos rfl, if_pos rfl]
  | @last room x hroom hx =>
    intro fuel i hi h h'
    -- the octets behind the end decide only whether a mask without keys ends there
    have hnone {d : ℕ → UInt8} (h : Holds d i [TEL_IAC, x]) : maskLoop d fuel i = [] := by
      cases fuel with
      | zero => rfl
      | succ fuel =>
        rw [maskLoop, h.1, if_pos rfl, maskKeys_none (by rw [h.2.1]; exact hx),
          maskLoop_full fuel (by omega)]
        split_ifs <;> rfl
    rw [hnone h, hnone h']

theorem findPair_over (pl : Plugin) (d : ℕ → UInt8) (fuel : ℕ) {n i : ℕ} (h : n ≤ i) :
    findPair pl d n fuel i = false := by
  cases fuel with
  | zero => rfl
  | succ fuel =>
    rw [findPair, if_neg]
    omega

/-- So are offers that are complete. -/
theorem pair_congr {pairs : List UInt8} (hp : PairsComplete pl pairs) :
    ∀ {fuel i : ℕ}, i + pairs.length = n → Holds d i pairs → Holds d' i pairs →
      findPair pl d' n fuel i = findPair pl d n fuel i := by
  induction hp with
  | none =>
    intro fuel i hi _ _
    rw [List.length_nil] at hi
    rw [findPair_over pl d fuel (by omega), findPair_over pl d' fuel (by omega)]
  | @lone a hlone =>
    intro fuel i hi h h'
    rw [List.length_singleton] at hi
    cases fuel with
    | zero => rfl
    | succ fuel =>
      -- the second octet of the last pair has not come, and does not matter
      have hsame : pl.accepts (d' i) (d' (i + 1)) = pl.accepts (d i) (d (i + 1)) := by
        rw [h.1, h'.1, hlone]
      rw [Plugin.accepts, Plugin.accepts] at hsame
      rw [findPair, findPair, hsame, findPair_over pl d fuel (by omega),
        findPair_over pl d' fuel (by omega)]
  | @accepted a b pairs haccept =>
    intro fuel i hi h h'
    cases fuel with
    | zero => rfl
    | succ fuel =>
      rw [Plugin.accepts] at haccept
      rw [findPair, findPair, h.1, h.2.1, h'.1, h'.2.1, if_pos haccept, if_pos haccept]
  | @pair a b pairs _ ih =>
    intro fuel i hi h h'
    rw [List.length_cons, List.length_cons] at hi
    cases fuel with
    | zero => rfl
    | succ fuel =>
      rw [findPair, findPair, h.1, h.2.1, h'.1, h'.2.1, ih (by omega) h.2.2 h'.2.2]

theorem received_congr (hd : ∀ i < tw.parseIndex, d i = tw.parsedat i) :
    (tw.buffer d).received = tw.received := by
  refine List.map_congr_left fun i hi => hd i ?_
  exact List.mem_range.1 hi

theorem initAuth_buffer : (tw.buffer d).initAuth pl = (tw.initAuth pl).buffer d := by
  cases h : tw.authdata <;> simp [initAuth, buffer, call, h]

theorem initEncrypt_buffer : (tw.buffer d).initEncrypt pl = (tw.initEncrypt pl).buffer d := by
  cases h : tw.encryptdata <;> simp [initEncrypt, buffer, call, h]

theorem call_reply_buffer (c : PlugCall) (bytes : List UInt8) :
    ((tw.buffer d).call c).reply bytes = ((tw.call c).reply bytes).buffer d := by
  by_cases h : bytes = [] <;> simp [reply, call, buffer, netwrite, h]

theorem initAuth_received : (tw.initAuth pl).received = tw.received := by
  cases h : tw.authdata <;> simp [initAuth, received, call, h]

theorem initEncrypt_received : (tw.initEncrypt pl).received = tw.received := by
  cases h : tw.encryptdata <;> simp [initEncrypt, received, call, h]

theorem encrypt_parsedat : (tw.encrypt_suboption pl).1.parsedat = tw.parsedat := by
  have h : (tw.initEncrypt pl).parsedat = tw.parsedat := by
    unfold initEncrypt
    split <;> rfl
  unfold encrypt_suboption
  simp only
  split_ifs
  · rfl
  · exact h
  · unfold reply
    split <;> exact h

theorem auth_parsedat : (tw.auth_suboption pl).parsedat = tw.parsedat := by
  have h : (tw.initAuth pl).parsedat = tw.parsedat := by
    unfold initAuth
    split <;> rfl
  have hr (t : WindRec) (c : PlugCall) (bytes : List UInt8) :
      ((t.call c).reply bytes).parsedat = t.parsedat := by
    unfold reply
    split <;> rfl
  unfold auth_suboption
  simp only
  split_ifs
  · rfl
  · exact h
  · split
    · exact h
    · rw [hr, h]
  · exact hr ..
  · rfl
  · rfl

theorem remoteflow_parsedat : tw.remoteflow_suboption.parsedat = tw.parsedat := by
  unfold remoteflow_suboption
  split_ifs <;> rfl

theorem encrypt_buffer (hd : ∀ i < tw.parseIndex, d i = tw.parsedat i) :
    (tw.buffer d).encrypt_suboption pl =
      ((tw.encrypt_suboption pl).1.buffer d, (tw.encrypt_suboption pl).2) := by
  have hr : ((tw.initEncrypt pl).buffer d).received = (tw.initEncrypt pl).received := by
    rw [← initEncrypt_buffer, initEncrypt_received, initEncrypt_received, received_congr hd]
  unfold encrypt_suboption
  rw [initEncrypt_buffer]
  -- the plug-in gets the received octets, and nothing else of the buffer
  by_cases h : !tw.encryptdata && !pl.encryptok
  · rw [if_pos h, if_pos (show !(tw.buffer d).encryptdata && !pl.encryptok from h)]
  · rw [if_neg h, if_neg (show ¬ (!(tw.buffer d).encryptdata && !pl.encryptok) from h)]
    by_cases h' : !(tw.initEncrypt pl).encryptdata
    · simp only
      rw [if_pos h', if_pos (show !((tw.initEncrypt pl).buffer d).encryptdata from h')]
    · simp only
      rw [if_neg h', if_neg (show ¬ !((tw.initEncrypt pl).buffer d).encryptdata from h'), hr]
      exact Prod.ext (call_reply_buffer ..) rfl

theorem auth_buffer (hd : ∀ i < tw.parseIndex, d i = tw.parsedat i) (hn : 2 ≤ tw.parseIndex)
    (hp : tw.parsedat 1 = TNQ_SEND → findPair pl d tw.parseIndex tw.parseIndex 2 =
      findPair pl tw.parsedat tw.parseIndex tw.parseIndex 2) :
    (tw.buffer d).auth_suboption pl = (tw.auth_suboption pl).buffer d := by
  have h1 : d 1 = tw.parsedat 1 := hd 1 hn
  have hr : ((tw.initAuth pl).buffer d).received = (tw.initAuth pl).received := by
    rw [← initAuth_buffer, initAuth_received, initAuth_received, received_congr hd]
  unfold auth_suboption
  rw [initAuth_buffer]
  -- with the second octet the same, both take the same branch
  change (if d 1 = TNQ_SEND then _ else if d 1 = TNQ_REPLY then _ else _) = _
  rw [h1]
  by_cases hs : tw.parsedat 1 = TNQ_SEND
  · rw [if_pos hs, if_pos hs]
    change (if (!findPair pl d tw.parseIndex tw.parseIndex 2) = true then _ else _) = _
    rw [hp hs]
    by_cases hfp : (!findPair pl tw.parsedat tw.parseIndex tw.parseIndex 2) = true
    · rw [if_pos hfp, if_pos hfp]
      rfl
    · rw [if_neg hfp, if_neg hfp]
      by_cases h' : !(tw.initAuth pl).authdata
      · simp only
        rw [if_pos h', if_pos (show !((tw.initAuth pl).buffer d).authdata from h')]
        rfl
      · simp only
        rw [if_neg h', if_neg (show ¬ !((tw.initAuth pl).buffer d).authdata from h'), hr]
        have hplug : ((tw.initAuth pl).buffer d).plug = (tw.initAuth pl).plug := rfl
        rw [hplug]
        cases pl.authSend (tw.initAuth pl).plug (tw.initAuth pl).received with
        | none => rfl
        | some bytes => exact call_reply_buffer ..
  · rw [if_neg hs, if_neg hs]
    by_cases hs' : tw.parsedat 1 = TNQ_REPLY
    · rw [if_pos hs', if_pos hs', received_congr hd]
      by_cases ha : tw.authdata
      · rw [if_pos ha, if_pos (show (tw.buffer d).authdata from ha)]
        exact call_reply_buffer ..
      · rw [if_neg ha, if_neg (show ¬ (tw.buffer d).authdata from ha)]
    · rw [if_neg hs', if_neg hs']

theorem setSLC_buffer (o : ℕ) (value level : UInt8) :
    (tw.buffer d).setSLC o value level = (tw.setSLC o value level).buffer d := rfl

theorem respondSLC_buffer (o : ℕ) (sent ack : Bool) :
    (tw.buffer d).respondSLC o sent ack = (tw.respondSLC o sent ack).buffer d := by
  unfold respondSLC
  simp only [show (tw.buffer d).line = tw.line from rfl]
  split <;> cases sent <;> rfl

theorem triplet_buffer (sent : Bool) (o : ℕ) (flags value : UInt8) :
    (tw.buffer d).negotiateTriplet sent o flags value =
      ((tw.negotiateTriplet sent o flags value).1.buffer d,
        (tw.negotiateTriplet sent o flags value).2) := by
  unfold negotiateTriplet
  simp only [show (tw.buffer d).line = tw.line from rfl, setSLC_buffer, respondSLC_buffer]
  split_ifs <;> rfl

theorem respondSLC_parsedat (o : ℕ) (sent ack : Bool) :
    (tw.respondSLC o sent ack).parsedat = tw.parsedat := by
  unfold respondSLC
  simp only
  split <;> cases sent <;> rfl

theorem triplet_parsedat (sent : Bool) (o : ℕ) (flags value : UInt8) :
    (tw.negotiateTriplet sent o flags value).1.parsedat = tw.parsedat := by
  unfold negotiateTriplet
  simp only
  split_ifs <;> first | rfl | exact respondSLC_parsedat ..

theorem slcLoop_buffer (fuel i : ℕ) (r : WindRec × Bool)
    (hd : ∀ i < r.1.parseIndex, d i = r.1.parsedat i) :
    slcLoop fuel i (r.1.buffer d, r.2) = ((slcLoop fuel i r).1.buffer d, (slcLoop fuel i r).2) := by
  induction fuel generalizing i r with
  | zero => rfl
  | succ fuel ih =>
    unfold slcLoop
    -- a triplet is read only where all three octets of it were received
    by_cases hi : i + 3 ≤ r.1.parseIndex
    · rw [if_pos hi, if_pos (show i + 3 ≤ (r.1.buffer d).parseIndex from hi)]
      have h0 := hd i (by omega)
      have h1 := hd (i + 1) (by omega)
      have h2 := hd (i + 2) (by omega)
      simp only [show (r.1.buffer d).parsedat = d from rfl, h0, h1, h2, triplet_buffer]
      refine ih (i + 3) _ fun j hj => ?_
      rw [parseIndex_of_reading (triplet_frame ..).1] at hj
      rw [triplet_parsedat, hd j hj]
    · rw [if_neg hi, if_neg (show ¬ i + 3 ≤ (r.1.buffer d).parseIndex from hi)]

theorem slcLoop_parsedat (fuel i : ℕ) (r : WindRec × Bool) :
    (slcLoop fuel i r).1.parsedat = r.1.parsedat := by
  induction fuel generalizing i r with
  | zero => rfl
  | succ fuel ih =>
    unfold slcLoop
    split
    · rw [ih, triplet_parsedat]
    · rfl

theorem slc_parsedat : tw.negotiateSLC.parsedat = tw.parsedat := by
  have h := slcLoop_parsedat tw.parseIndex 2 (tw, false)
  unfold negotiateSLC
  simp only
  split <;> exact h

theorem slc_buffer (hd : ∀ i < tw.parseIndex, d i = tw.parsedat i) :
    (tw.buffer d).negotiateSLC = tw.negotiateSLC.buffer d := by
  have h : slcLoop (tw.buffer d).parseIndex 2 (tw.buffer d, false) = _ :=
    slcLoop_buffer tw.parseIndex 2 (tw, false) hd
  unfold negotiateSLC
  simp only [h]
  split <;> rfl

theorem SameReceived.of_buffer (h : ∀ i < tw.parseIndex, d i = tw.parsedat i) :
    SameReceived tw (tw.buffer d) :=
  ⟨d, rfl, h⟩

theorem changeMode_received (hd : ∀ i < tw.parseIndex, d i = tw.parsedat i) (mode : UInt8) :
    SameReceived (tw.changeMode mode) ((tw.buffer d).changeMode mode) := by
  unfold changeMode
  by_cases h : mode &&& 4 ≠ 0 ∨ mode &&& 31 = tw.line.lmodeBits
  · rw [if_pos h, if_pos (show _ ∨ _ = (tw.buffer d).line.lmodeBits from h)]
    exact .of_buffer hd
  · rw [if_neg h, if_neg (show ¬ (_ ∨ _ = (tw.buffer d).line.lmodeBits) from h)]
    -- the answer is written over the mode, in both buffers
    refine ⟨Function.update d 2 (mode ||| 4), rfl, fun i hi => ?_⟩
    change Function.update d 2 _ i = Function.update tw.parsedat 2 _ i
    by_cases h2 : i = 2
    · subst h2
      rw [Function.update_self, Function.update_self]
    · rw [Function.update_of_ne h2, Function.update_of_ne h2]
      exact hd i hi

/-- The line-mode handlers look at received bytes only. -/
theorem linemode_received (hd : ∀ i < tw.parseIndex, d i = tw.parsedat i)
    (hn : 2 ≤ tw.parseIndex)
    (hmode : tw.parsedat 1 = L_MODE → tw.cfg.lineAllow → 3 ≤ tw.parseIndex)
    (hmask : tw.parsedat 1 = TEL_DOTEL → maskLoop d 32 3 = maskLoop tw.parsedat 32 3) :
    SameReceived tw.linemode_suboption (tw.buffer d).linemode_suboption := by
  have h1 : d 1 = tw.parsedat 1 := hd 1 hn
  unfold linemode_suboption
  simp only [show (tw.buffer d).parsedat = d from rfl, h1]
  by_cases hM : tw.parsedat 1 = L_MODE
  · rw [if_pos hM, if_pos hM]
    by_cases hA : tw.cfg.lineAllow
    · rw [if_pos hA, if_pos (show (tw.buffer d).cfg.lineAllow from hA), hd 2 (hmode hM hA)]
      exact changeMode_received hd _
    · rw [if_neg hA, if_neg (show ¬ (tw.buffer d).cfg.lineAllow from hA)]
      exact .of_buffer hd
  rw [if_neg hM, if_neg hM]
  by_cases hD : tw.parsedat 1 = TEL_DOTEL
  · rw [if_pos hD, if_pos hD]
    refine ⟨d, ?_, hd⟩
    simp only [setForwardMask]
    rw [hmask hD]
    rfl
  rw [if_neg hD, if_neg hD]
  by_cases hN : tw.parsedat 1 = TEL_DONTTEL
  · rw [if_pos hN, if_pos hN]
    exact ⟨d, rfl, hd⟩
  rw [if_neg hN, if_neg hN]
  by_cases hS : tw.parsedat 1 = L_SLC
  · rw [if_pos hS, if_pos hS, slc_buffer hd]
    refine .of_buffer fun i hi => ?_
    rw [slc_parsedat]
    rw [parseIndex_of_reading (slc_frame tw).1] at hi
    exact hd i hi
  · rw [if_neg hS, if_neg hS]
    exact .of_buffer hd

/-- The octets of a line-mode suboption that is complete are enough. -/
theorem linemode_complete {sub : List UInt8} (hlen : sub.length + 1 = tw.parseIndex)
    (hold : Holds tw.parsedat 1 sub) (hc : LinemodeComplete tw.cfg.lineAllow sub)
    (hd : ∀ i < tw.parseIndex, d i = tw.parsedat i) :
    SameReceived tw.linemode_suboption (tw.buffer d).linemode_suboption := by
  cases sub with
  | nil => exact hc.elim
  | cons command sub =>
    obtain ⟨hmode, hmask⟩ := hc
    have hcommand := hold.1
    have hold' : Holds d 1 (command :: sub) := hold.congr fun j _ hj => hd j (by omega)
    rw [List.length_cons] at hlen
    refine linemode_received hd (by omega) (fun hM hA => ?_) fun hD => ?_
    · have hpos := List.length_pos_iff.mpr (hmode (hcommand ▸ hM) hA)
      omega
    -- the mask begins behind the command and the name of what is asked for
    · apply mask_congr (hmask (hcommand ▸ hD)) rfl
      · cases sub with
        | nil => trivial
        | cons c sub => exact hold.2.2
      · cases sub with
        | nil => trivial
        | cons c sub => exact hold'.2.2

/-- So are those of an authentication suboption. -/
theorem auth_complete {sub : List UInt8} (hlen : sub.length + 1 = tw.parseIndex)
    (hold : Holds tw.parsedat 1 sub) (hc : AuthComplete pl sub)
    (hd : ∀ i < tw.parseIndex, d i = tw.parsedat i) :
    (tw.buffer d).auth_suboption pl = (tw.auth_suboption pl).buffer d := by
  cases sub with
  | nil => exact hc.elim
  | cons command pairs =>
    have hcommand := hold.1
    have hold' : Holds d 1 (command :: pairs) := hold.congr fun j _ hj => hd j (by omega)
    rw [List.length_cons] at hlen
    apply auth_buffer hd (by omega)
    intro hS
    exact pair_congr (hc (hcommand ▸ hS)) (by omega) hold.2 hold'.2

theorem suboption_received {octets : List UInt8} (hlen : octets.length = tw.parseIndex)
    (hold : Holds tw.parsedat 0 octets) (hc : Complete pl tw.cfg.lineAllow octets)
    (hd : ∀ i < tw.parseIndex, d i = tw.parsedat i) :
    SameReceived (suboption pl tw).1 (suboption pl (tw.buffer d)).1 ∧
      (suboption pl (tw.buffer d)).2 = (suboption pl tw).2 := by
  obtain ⟨option, sub, rfl⟩ : ∃ option sub, octets = option :: sub := by
    cases octets with
    | nil => exact hc.elim
    | cons option sub => exact ⟨option, sub, rfl⟩
  obtain ⟨h2, ha, hl⟩ := hc
  obtain ⟨rfl, hsub⟩ := hold
  rw [List.length_cons] at hlen
  have h0 : d 0 = tw.parsedat 0 := hd 0 (by omega)
  have h1 (h : sub ≠ []) : d 1 = tw.parsedat 1 := by
    have hpos := List.length_pos_iff.mpr h
    exact hd 1 (by omega)
  -- the options in the order of the switch
  unfold suboption
  simp only [show (tw.buffer d).parsedat = d from rfl, h0]
  by_cases hT : tw.parsedat 0 = N_TERMTYP
  · rw [if_pos hT, if_pos hT, h1 (h2 (.inl hT))]
    split <;> exact ⟨⟨d, rfl, hd⟩, rfl⟩
  rw [if_neg hT, if_neg hT]
  by_cases hE : tw.parsedat 0 = N_ENCRYPT
  · rw [if_pos hE, if_pos hE, encrypt_buffer hd]
    refine ⟨.of_buffer fun i hi => ?_, rfl⟩
    rw [parseIndex_of_reading (encrypt_frame tw pl).1] at hi
    rw [encrypt_parsedat, hd i hi]
  rw [if_neg hE, if_neg hE]
  by_cases hA : tw.parsedat 0 = N_AUTHENTICATION
  · rw [if_pos hA, if_pos hA, auth_complete hlen hsub (ha hA) hd]
    refine ⟨.of_buffer fun i hi => ?_, rfl⟩
    rw [parseIndex_of_reading (auth_frame tw pl).1] at hi
    rw [auth_parsedat, hd i hi]
  rw [if_neg hA, if_neg hA]
  by_cases hL : tw.parsedat 0 = N_LINEMODE
  · rw [if_pos hL, if_pos hL]
    exact ⟨linemode_complete hlen hsub (hl hL) hd, rfl⟩
  rw [if_neg hL, if_neg hL]
  by_cases hR : tw.parsedat 0 = N_REMOTEFLOW
  · rw [if_pos hR, if_pos hR]
    refine ⟨⟨d, ?_, ?_⟩, rfl⟩
    · unfold remoteflow_suboption
      simp only [show (tw.buffer d).parsedat = d from rfl, h1 (h2 (.inr (.inl hR)))]
      split_ifs <;> rfl
    · intro i hi
      rw [parseIndex_of_reading (remoteflow_frame tw).1] at hi
      rw [remoteflow_parsedat, hd i hi]
  rw [if_neg hR, if_neg hR]
  by_cases hV : tw.parsedat 0 = N_NEW_ENVIRON
  · rw [if_pos hV, if_pos hV, h1 (h2 (.inr (.inr hV)))]
    split <;> exact ⟨⟨d, rfl, hd⟩, rfl⟩
  · rw [if_neg hV, if_neg hV]
    exact ⟨.of_buffer hd, rfl⟩

/-- A suboption that is not cut short is answered from its own bytes. -/
theorem complete_usesReceived {octets : List UInt8} (hlen : octets.length = tw.parseIndex)
    (hold : Holds tw.parsedat 0 octets) (hc : Complete pl tw.cfg.lineAllow octets) :
    UsesReceived pl tw := by
  rintro _ rest ⟨d, rfl, hd⟩
  have h : SameReceived (suboption pl (tw.logged .processed)).1
      (suboption pl ((tw.logged .processed).buffer d)).1 ∧ _ :=
    @suboption_received (tw.logged .processed) pl d octets hlen hold hc hd
  obtain ⟨⟨d', hb, hd'⟩, hf⟩ := h
  -- what the plug-ins make of the rest of the packet depends on their state alone
  have hp : (suboption pl ((tw.buffer d).logged .processed)).1.plug =
      (suboption pl (tw.logged .processed)).1.plug := by
    change (suboption pl ((tw.logged .processed).buffer d)).1.plug = _
    rw [hb]
    rfl
  refine ⟨⟨d', hb, hd'⟩, ?_⟩
  unfold process_suboption
  simp only [hp]
  rw [show (suboption pl ((tw.buffer d).logged .processed)).2 = _ from hf]

end Handlers

end WindRec

end Telnet
