import MacSSH.TelnetSuboptions

/-! The negotiation of the special characters: what a suboption of triplets prescribes for
the tables, and when they come to it. -/
namespace Telnet

/-- What the tables say about a special character. -/
structure SpecialChar where
  value : UInt8
  level : UInt8
  deriving DecidableEq

/-- A triplet as it is received: a special character, its flags and its value. -/
structure Triplet where
  function : ℕ
  flags : UInt8
  value : UInt8
  deriving DecidableEq

namespace Triplet

/-- The other side agrees to what we proposed. -/
def Ack (t : Triplet) : Prop := t.flags &&& 128 ≠ 0

instance (t : Triplet) : Decidable t.Ack := inferInstanceAs (Decidable (_ ≠ _))

def level (t : Triplet) : UInt8 := t.flags &&& 3

/-- The entry that says the same as the triplet, bit for bit. -/
def entry (t : Triplet) : SpecialChar := ⟨t.value, t.flags⟩

/-- The default of the client for the special character. -/
def ownDefault (t : Triplet) : SpecialChar :=
  let dflt := default_slc.getD t.function 0
  ⟨dflt, if dflt = 255 then SLC_NOSUPPORT else SLC_VALUE⟩

/-- The entry that a triplet prescribes where the entry is `e`: the level and the flush
flags of a proposal are taken over with its value, but for a higher level than ours. -/
def prescribed (t : Triplet) (e : SpecialChar) : SpecialChar :=
  if t.level = SLC_NOSUPPORT then ⟨255, SLC_NOSUPPORT⟩
  else if t.level = SLC_DEFAULT then t.ownDefault
  else if e.level &&& 3 < t.level then e
  else ⟨t.value, t.flags &&& 99⟩

/-- What `negotiateSLC` decides: the new entry, and the reply with its acknowledgement. -/
def decision (t : Triplet) (e : SpecialChar) : SpecialChar × Option Bool :=
  if e ≠ t.entry then
    if t.level = SLC_NOSUPPORT then
      if e.level &&& 1 ≠ 0 then (⟨255, SLC_NOSUPPORT⟩, if t.Ack then none else some true)
      else (e, none)
    else if t.level = SLC_DEFAULT then (t.ownDefault, some false)
    else if e.level < t.level then (e, some false)
    else (⟨t.value, t.level ||| ((t.flags &&& 64) ||| (t.flags &&& 32))⟩,
      if t.Ack then none else some true)
  else (e, none)

/-- The decision is the prescribed one: the special character is one of the table, and
each kind of proposal avoids what the decision gets wrong about it. -/
def Settled (t : Triplet) (e : SpecialChar) : Prop :=
  t.function ≤ 30 ∧
    if t.level = SLC_NOSUPPORT then e.level &&& 1 ≠ 0 ∨ e = ⟨255, SLC_NOSUPPORT⟩
    else if t.level = SLC_DEFAULT then ¬t.Ack ∧ e ≠ t.entry
    else if e.level &&& 3 < t.level then e.level < t.level ∧ ¬t.Ack
    else e = t.entry → t.flags &&& 99 = t.flags

theorem accepted_level (flags : UInt8) :
    (flags &&& 3) ||| ((flags &&& 64) ||| (flags &&& 32)) = flags &&& 99 := by
  apply UInt8.toBitVec_inj.mp
  change (flags.toBitVec &&& 3) ||| ((flags.toBitVec &&& 64) ||| (flags.toBitVec &&& 32)) = _
  rw [← BitVec.and_or_distrib_left, ← BitVec.and_or_distrib_left]
  rfl

variable {t : Triplet} {e : SpecialChar}

/-- An entry that says the same as the triplet has its level. -/
theorem level_eq_of_entry (h : e = t.entry) : e.level &&& 3 = t.level := by
  rw [h]
  rfl

theorem decision_of_noSupport (h : t.level = SLC_NOSUPPORT) :
    (t.decision e).1 = t.prescribed e ∧ (t.Ack → (t.decision e).2 = none) ↔
      e.level &&& 1 ≠ 0 ∨ e = ⟨255, SLC_NOSUPPORT⟩ := by
  rw [prescribed, if_pos h]
  by_cases hbit : e.level &&& 1 = 0
  · -- the entry is left as it is
    have hkept : t.decision e = (e, none) := by
      rw [decision, if_pos h, if_neg (not_not.mpr hbit), ite_self]
    rw [hkept]
    constructor
    · exact fun hall => .inr hall.1
    · exact fun hall => ⟨hall.resolve_left (not_not.mpr hbit), fun _ => rfl⟩
  · have hne : e ≠ t.entry := by
      intro heq
      apply hbit
      have hthree : e.level &&& 3 = 0 := (level_eq_of_entry heq).trans h
      calc e.level &&& 1 = e.level &&& (3 &&& 1) := rfl
        _ = 0 := by rw [← UInt8.and_assoc, hthree]; rfl
    rw [decision, if_pos hne, if_pos h, if_pos hbit]
    exact ⟨fun _ => .inl hbit, fun _ => ⟨rfl, fun hack => if_pos hack⟩⟩

theorem decision_of_default (h : t.level = SLC_DEFAULT) :
    (t.decision e).1 = t.prescribed e ∧ (t.Ack → (t.decision e).2 = none) ↔
      ¬t.Ack ∧ e ≠ t.entry := by
  have hzero : t.level ≠ SLC_NOSUPPORT := by rw [h]; decide
  rw [prescribed, if_neg hzero, if_pos h]
  by_cases hsame : e = t.entry
  · -- no default has the level of the proposal
    rw [decision, if_neg (not_not.mpr hsame)]
    constructor
    · intro hall
      have hlevel := level_eq_of_entry hsame
      have hown : e = t.ownDefault := hall.1
      rw [hown, h, ownDefault] at hlevel
      dsimp only at hlevel
      split_ifs at hlevel <;> exact absurd hlevel (by decide)
    · exact fun hall => absurd hsame hall.2
  · rw [decision, if_pos hsame, if_neg hzero, if_pos h]
    constructor
    · exact fun hall => ⟨fun hack => absurd (hall.2 hack) (Option.some_ne_none false), hsame⟩
    · exact fun hall => ⟨rfl, fun hack => absurd hack hall.1⟩

theorem decision_of_higher (hzero : t.level ≠ SLC_NOSUPPORT) (hthree : t.level ≠ SLC_DEFAULT)
    (h : e.level &&& 3 < t.level) :
    (t.decision e).1 = t.prescribed e ∧ (t.Ack → (t.decision e).2 = none) ↔
      e.level < t.level ∧ ¬t.Ack := by
  rw [prescribed, if_neg hzero, if_neg hthree, if_pos h]
  have hne : e ≠ t.entry := by
    intro hsame
    rw [level_eq_of_entry hsame] at h
    exact UInt8.lt_irrefl _ h
  rw [decision, if_pos hne, if_neg hzero, if_neg hthree]
  by_cases hless : e.level < t.level
  · rw [if_pos hless]
    constructor
    · exact fun hall => ⟨hless, fun hack => absurd (hall.2 hack) (Option.some_ne_none false)⟩
    · exact fun hall => ⟨rfl, fun hack => absurd hack hall.2⟩
  · -- flush flags make our level look higher, and the proposal is accepted
    rw [if_neg hless]
    constructor
    · intro hall
      have hlevel : e.level &&& 3 = t.level := by
        have hgiven : (SpecialChar.mk t.value (t.level ||| _)) = e := hall.1
        rw [← hgiven]
        change (t.level ||| _) &&& 3 = t.level
        rw [level, accepted_level, UInt8.and_assoc]
        rfl
      rw [hlevel] at h
      exact absurd h (UInt8.lt_irrefl _)
    · exact fun hall => absurd hall.1 hless

theorem decision_of_accepted (hzero : t.level ≠ SLC_NOSUPPORT) (hthree : t.level ≠ SLC_DEFAULT)
    (h : ¬e.level &&& 3 < t.level) :
    (t.decision e).1 = t.prescribed e ∧ (t.Ack → (t.decision e).2 = none) ↔
      (e = t.entry → t.flags &&& 99 = t.flags) := by
  rw [prescribed, if_neg hzero, if_neg hthree, if_neg h]
  by_cases hsame : e = t.entry
  · rw [decision, if_neg (not_not.mpr hsame), hsame]
    constructor
    · exact fun hall _ => (congrArg SpecialChar.level hall.1).symm
    · exact fun hall => ⟨congrArg (SpecialChar.mk t.value) (hall rfl).symm, fun _ => rfl⟩
  · have hle : e.level &&& 3 ≤ e.level := UInt8.and_le_left
    have hless : ¬e.level < t.level := UInt8.not_lt.mpr (UInt8.le_trans (UInt8.not_lt.mp h) hle)
    rw [decision, if_pos hsame, if_neg hzero, if_neg hthree, if_neg hless, level, accepted_level]
    exact ⟨fun _ heq => absurd heq hsame, fun _ => ⟨rfl, fun hack => if_pos hack⟩⟩

/-- The decision about a special character of the table is right just where the triplet
settles. -/
theorem decision_iff : t.function ≤ 30 ∧ (t.decision e).1 = t.prescribed e ∧
    (t.Ack → (t.decision e).2 = none) ↔ t.Settled e := by
  rw [Settled]
  apply and_congr_right
  intro _
  by_cases hzero : t.level = SLC_NOSUPPORT
  · rw [if_pos hzero]
    exact decision_of_noSupport hzero
  rw [if_neg hzero]
  by_cases hthree : t.level = SLC_DEFAULT
  · rw [if_pos hthree]
    exact decision_of_default hthree
  rw [if_neg hthree]
  by_cases hhigher : e.level &&& 3 < t.level
  · rw [if_pos hhigher]
    exact decision_of_higher hzero hthree hhigher
  · rw [if_neg hhigher]
    exact decision_of_accepted hzero hthree hhigher

end Triplet

namespace WindRec

/-- The entry of a special character. -/
def specialChar (tw : WindRec) (o : ℕ) : SpecialChar := ⟨tw.line.slc o, tw.line.slcLevel o⟩

/-- The writes of one reply, with the header if none went out before. -/
def slcReply (alreadySentSB : Bool) (o : ℕ) (e : SpecialChar) (ack : Bool) : List Write :=
  let level := if ack then e.level ||| 128 else e.level
  (if alreadySentSB then [] else [.raw [TEL_IAC, TEL_SB, N_LINEMODE, L_SLC]]) ++
    if e.value = TEL_IAC then [.raw [UInt8.ofNat o, level], .raw [TEL_IAC], .raw [TEL_IAC]]
    else [.raw [UInt8.ofNat o, level, e.value]]

/-- The triplet at place `k` of the suboption. -/
def triplet (tw : WindRec) (k : ℕ) : Triplet where
  function := (tw.parsedat (2+3*k)).toNat
  flags := tw.parsedat (2+3*k+1)
  value := tw.parsedat (2+3*k+2)

/-- How many complete triplets have been received. -/
def tripletCount (tw : WindRec) : ℕ := (tw.parseIndex-2)/3

/-- The window when `k` triplets have been negotiated, and whether a header went out. -/
def afterTriplets (tw : WindRec) (k : ℕ) : WindRec × Bool := slcLoop k 2 (tw, false)

/-- The entry that the first `k` triplets prescribe for a special character. -/
def prescribedAfter (tw : WindRec) (o : ℕ) : ℕ → SpecialChar
  | 0 => tw.specialChar o
  | k+1 =>
    if (tw.triplet k).function = o then (tw.triplet k).prescribed (prescribedAfter tw o k)
    else prescribedAfter tw o k

/-- Between two windows there is at most one reply to a triplet, and none to an
acknowledgement. -/
def AnsweredOnce (t : Triplet) (r r' : WindRec × Bool) : Prop :=
  r'.1.sent = r.1.sent ∨
    ¬t.Ack ∧ ∃ e ack, r'.1.sent = r.1.sent ++ slcReply r.2 t.function e ack

/-- The negotiation of a suboption keeps to the tables, answers every triplet as it
should, and the entries are as prescribed, after each triplet and at the end. -/
structure Negotiated (tw : WindRec) : Prop where
  indexed : ∀ k < tw.tripletCount, (tw.triplet k).function ≤ 30
  answered : ∀ k < tw.tripletCount,
    AnsweredOnce (tw.triplet k) (tw.afterTriplets k) (tw.afterTriplets (k+1))
  entries : ∀ k ≤ tw.tripletCount, ∀ o,
    (tw.afterTriplets k).1.specialChar o = tw.prescribedAfter o k
  settled : ∀ o, tw.negotiateSLC.specialChar o = tw.prescribedAfter o tw.tripletCount
  closed : tw.negotiateSLC.sent = (tw.afterTriplets tw.tripletCount).1.sent ++
    if (tw.afterTriplets tw.tripletCount).2 then [.raw [TEL_IAC, TEL_SE]] else []

/-- Enter what was decided about a special character, and send the reply. -/
def enter (tw : WindRec) (sentSB : Bool) (o : ℕ) (d : SpecialChar × Option Bool) :
    WindRec × Bool :=
  match d.2 with
  | none => (tw.setSLC o d.1.value d.1.level, sentSB)
  | some ack => ((tw.setSLC o d.1.value d.1.level).respondSLC o sentSB ack, true)

section Step
variable (tw : WindRec) (sentSB : Bool) (o : ℕ)

theorem respondSLC_eq (ack : Bool) : tw.respondSLC o sentSB ack =
    { tw with sent := tw.sent ++ slcReply sentSB o (tw.specialChar o) ack } := by
  rw [respondSLC, slcReply, specialChar]
  by_cases hvalue : tw.line.slc o = TEL_IAC
  · rw [if_pos hvalue, if_pos hvalue]
    cases sentSB
    · simp only [netwrite, Bool.false_eq_true, if_false, List.append_assoc, List.cons_append,
        List.nil_append]
    · simp only [netwrite, if_true, List.append_assoc, List.cons_append, List.nil_append]
  · rw [if_neg hvalue, if_neg hvalue]
    cases sentSB
    · simp only [netwrite, Bool.false_eq_true, if_false, List.append_assoc, List.cons_append,
        List.nil_append]
    · simp only [netwrite, if_true, List.nil_append]

theorem setSLC_specialChar (e : SpecialChar) (p : ℕ) :
    (tw.setSLC o e.value e.level).specialChar p = if p = o then e else tw.specialChar p := by
  rw [specialChar, setSLC]
  dsimp only
  split_ifs with h
  · rw [h, Function.update_self, Function.update_self]
  · rw [Function.update_of_ne h, Function.update_of_ne h]
    rfl

theorem setSLC_same : tw.setSLC o (tw.specialChar o).value (tw.specialChar o).level = tw := by
  rw [setSLC, specialChar, Function.update_eq_self, Function.update_eq_self]

theorem entry_ne_iff (t : Triplet) : tw.specialChar t.function ≠ t.entry ↔
    tw.line.slc t.function ≠ t.value ∨ tw.line.slcLevel t.function ≠ t.flags := by
  rw [specialChar, Triplet.entry, ne_eq, SpecialChar.mk.injEq, not_and_or]

/-- `negotiateSLC` enters what is decided about a triplet. -/
theorem negotiateTriplet_eq (t : Triplet) :
    tw.negotiateTriplet sentSB t.function t.flags t.value =
      tw.enter sentSB t.function (t.decision (tw.specialChar t.function)) := by
  have hkept : tw.enter sentSB t.function (tw.specialChar t.function, none) = (tw, sentSB) := by
    rw [enter, setSLC_same]
  rw [negotiateTriplet, Triplet.decision]
  by_cases hne : tw.specialChar t.function ≠ t.entry
  · rw [if_pos hne, if_pos ((tw.entry_ne_iff t).mp hne)]
    by_cases hzero : t.flags &&& 3 = SLC_NOSUPPORT
    · rw [if_pos hzero, if_pos (show t.level = _ from hzero)]
      by_cases hbit : tw.line.slcLevel t.function &&& 1 ≠ 0
      · rw [if_pos hbit, if_pos (show (tw.specialChar t.function).level &&& 1 ≠ 0 from hbit)]
        by_cases hack : t.flags &&& 128 ≠ 0
        · rw [if_pos hack, if_pos (show t.Ack from hack)]
          rfl
        · rw [if_neg hack, if_neg (show ¬t.Ack from hack)]
          rfl
      · rw [if_neg hbit, if_neg (show ¬(tw.specialChar t.function).level &&& 1 ≠ 0 from hbit),
          hkept]
    rw [if_neg hzero, if_neg (show ¬t.level = _ from hzero)]
    by_cases hthree : t.flags &&& 3 = SLC_DEFAULT
    · rw [if_pos hthree, if_pos (show t.level = _ from hthree)]
      rfl
    rw [if_neg hthree, if_neg (show ¬t.level = _ from hthree)]
    by_cases hless : tw.line.slcLevel t.function < t.flags &&& 3
    · rw [if_pos hless, if_pos (show (tw.specialChar t.function).level < t.level from hless)]
      rw [enter, setSLC_same]
    · rw [if_neg hless, if_neg (show ¬(tw.specialChar t.function).level < t.level from hless)]
      by_cases hack : t.flags &&& 128 ≠ 0
      · rw [if_pos hack, if_pos (show t.Ack from hack)]
        rfl
      · rw [if_neg hack, if_neg (show ¬t.Ack from hack)]
        rfl
  · rw [if_neg hne, if_neg (fun h => hne ((tw.entry_ne_iff t).mpr h)), hkept]

theorem enter_specialChar (d : SpecialChar × Option Bool) (p : ℕ) :
    (tw.enter sentSB o d).1.specialChar p = if p = o then d.1 else tw.specialChar p := by
  rw [enter]
  cases d.2 with
  | none => exact tw.setSLC_specialChar o d.1 p
  | some ack =>
    dsimp only
    rw [respondSLC_eq]
    exact tw.setSLC_specialChar o d.1 p

theorem enter_sent (d : SpecialChar × Option Bool) : (tw.enter sentSB o d).1.sent = tw.sent ++
    (d.2.map fun ack => slcReply sentSB o d.1 ack).getD [] := by
  rw [enter]
  cases d.2 with
  | none => exact (List.append_nil _).symm
  | some ack =>
    dsimp only
    rw [respondSLC_eq, setSLC_specialChar, if_pos rfl]
    rfl

/-- The suboption itself stays as it was received. -/
theorem enter_parsed (d : SpecialChar × Option Bool) :
    (tw.enter sentSB o d).1.parsedat = tw.parsedat ∧
      (tw.enter sentSB o d).1.parseIndex = tw.parseIndex := by
  rw [enter]
  cases d.2 with
  | none => exact ⟨rfl, rfl⟩
  | some ack =>
    dsimp only
    rw [respondSLC_eq]
    exact ⟨rfl, rfl⟩

theorem slcReply_ne_nil (e : SpecialChar) (ack : Bool) : slcReply sentSB o e ack ≠ [] := by
  rw [slcReply]
  apply List.append_ne_nil_of_right_ne_nil
  split_ifs <;> exact List.cons_ne_nil _ _

/-- What is decided is answered at most once just where no acknowledgement is answered. -/
theorem answered_iff (t : Triplet) (d : SpecialChar × Option Bool) :
    AnsweredOnce t (tw, sentSB) (tw.enter sentSB t.function d) ↔ (t.Ack → d.2 = none) := by
  rw [AnsweredOnce, enter_sent]
  cases hreply : d.2 with
  | none => exact ⟨fun _ _ => rfl, fun _ => .inl (List.append_nil _)⟩
  | some ack =>
    constructor
    · intro hall hack
      rcases hall with hsame | ⟨hno, _⟩
      · exact absurd (List.append_right_eq_self.mp hsame) (slcReply_ne_nil sentSB _ _ _)
      · exact absurd hack hno
    · exact fun hall => .inr ⟨fun hack => absurd (hall hack) (Option.some_ne_none ack), _, _, rfl⟩

end Step

section Run
variable (tw : WindRec)

theorem slcLoop_step (fuel i : ℕ) (r : WindRec × Bool) : slcLoop (fuel+1) i r =
    if i+3 ≤ r.1.parseIndex then
      slcLoop fuel (i+3) (r.1.negotiateTriplet r.2 (r.1.parsedat i).toNat
        (r.1.parsedat (i+1)) (r.1.parsedat (i+2)))
    else r := rfl

theorem negotiateTriplet_parsed (sentSB : Bool) (o : ℕ) (flags value : UInt8) :
    (tw.negotiateTriplet sentSB o flags value).1.parsedat = tw.parsedat ∧
      (tw.negotiateTriplet sentSB o flags value).1.parseIndex = tw.parseIndex := by
  rw [tw.negotiateTriplet_eq sentSB ⟨o, flags, value⟩]
  exact tw.enter_parsed sentSB o _

/-- The last of the triplets of a loop. -/
theorem slcLoop_succ (k : ℕ) : ∀ (i : ℕ) (r : WindRec × Bool), i+3*k+3 ≤ r.1.parseIndex →
    slcLoop (k+1) i r = (slcLoop k i r).1.negotiateTriplet (slcLoop k i r).2
      (r.1.parsedat (i+3*k)).toNat (r.1.parsedat (i+3*k+1)) (r.1.parsedat (i+3*k+2)) := by
  induction k with
  | zero =>
    intro i r h
    rw [slcLoop_step, if_pos h]
    rfl
  | succ k ih =>
    intro i r h
    obtain ⟨hdat, hindex⟩ := negotiateTriplet_parsed r.1 r.2 (r.1.parsedat i).toNat
      (r.1.parsedat (i+1)) (r.1.parsedat (i+2))
    have hplace : i+3+3*k = i+3*(k+1) := by omega
    have hfirst : slcLoop (k+1) i r = slcLoop k (i+3) (r.1.negotiateTriplet r.2
        (r.1.parsedat i).toNat (r.1.parsedat (i+1)) (r.1.parsedat (i+2))) := by
      rw [slcLoop_step, if_pos (by omega)]
    rw [slcLoop_step, if_pos (by omega), ih (i+3) _ (by rw [hindex]; omega), hdat, hplace, hfirst]

/-- The loop ends behind the last complete triplet. -/
theorem slcLoop_end (k : ℕ) : ∀ (fuel i : ℕ) (r : WindRec × Bool), k ≤ fuel →
    r.1.parseIndex < i+3*k+3 → slcLoop fuel i r = slcLoop k i r := by
  induction k with
  | zero =>
    intro fuel i r _ h
    cases fuel with
    | zero => rfl
    | succ fuel =>
      rw [slcLoop_step, if_neg (by omega)]
      rfl
  | succ k ih =>
    intro fuel i r hk h
    obtain ⟨fuel, rfl⟩ : ∃ f, fuel = f+1 := ⟨fuel-1, by omega⟩
    rw [slcLoop_step, slcLoop_step]
    split_ifs with hmore
    · obtain ⟨_, hindex⟩ := negotiateTriplet_parsed r.1 r.2 (r.1.parsedat i).toNat
        (r.1.parsedat (i+1)) (r.1.parsedat (i+2))
      exact ih fuel (i+3) _ (by omega) (by rw [hindex]; omega)
    · rfl

theorem afterTriplets_succ {k : ℕ} (h : k < tw.tripletCount) : tw.afterTriplets (k+1) =
    (tw.afterTriplets k).1.enter (tw.afterTriplets k).2 (tw.triplet k).function
      ((tw.triplet k).decision ((tw.afterTriplets k).1.specialChar (tw.triplet k).function)) := by
  have hbound : 2+3*k+3 ≤ tw.parseIndex := by
    rw [tripletCount] at h
    omega
  rw [← negotiateTriplet_eq]
  exact slcLoop_succ k 2 (tw, false) hbound

theorem negotiateSLC_eq : tw.negotiateSLC =
    if (tw.afterTriplets tw.tripletCount).2 then
      (tw.afterTriplets tw.tripletCount).1.netwrite [TEL_IAC, TEL_SE]
    else (tw.afterTriplets tw.tripletCount).1 := by
  have hloop : slcLoop tw.parseIndex 2 (tw, false) = tw.afterTriplets tw.tripletCount :=
    slcLoop_end tw.tripletCount tw.parseIndex 2 (tw, false)
      (by rw [tripletCount]; omega) (by rw [tripletCount]; dsimp only; omega)
  rw [negotiateSLC, hloop]

/-- Every triplet is for a special character of the table and settles where it comes. -/
def TripletsSettle : Prop := ∀ k < tw.tripletCount,
  (tw.triplet k).Settled ((tw.afterTriplets k).1.specialChar (tw.triplet k).function)

/-- While all triplets settle the entries are the prescribed ones. -/
theorem entries_prescribed (h : tw.TripletsSettle) : ∀ k ≤ tw.tripletCount, ∀ o,
    (tw.afterTriplets k).1.specialChar o = tw.prescribedAfter o k := by
  intro k
  induction k with
  | zero => exact fun _ o => rfl
  | succ k ih =>
    intro hk o
    have hsettled := (Triplet.decision_iff.mpr (h k hk)).2.1
    rw [tw.afterTriplets_succ hk, enter_specialChar, prescribedAfter, hsettled,
      ih (Nat.le_of_succ_le hk) (tw.triplet k).function, ih (Nat.le_of_succ_le hk) o]
    by_cases ho : o = (tw.triplet k).function
    · rw [if_pos ho, if_pos ho.symm, ho]
    · rw [if_neg ho, if_neg (Ne.symm ho)]

/-- The special characters are negotiated as they should be just where every triplet is
for one of the table and settles. -/
theorem negotiateSLC_iff : tw.Negotiated ↔ tw.TripletsSettle := by
  constructor
  · intro h k hk
    apply Triplet.decision_iff.mp
    refine ⟨h.indexed k hk, ?_, ?_⟩
    · have hafter := h.entries (k+1) hk (tw.triplet k).function
      rw [tw.afterTriplets_succ hk, enter_specialChar, if_pos rfl, prescribedAfter, if_pos rfl,
        ← h.entries k (Nat.le_of_lt hk)] at hafter
      exact hafter
    · have hanswered := h.answered k hk
      rw [tw.afterTriplets_succ hk] at hanswered
      exact (answered_iff _ _ _ _).mp hanswered
  · intro h
    have hentries := tw.entries_prescribed h
    refine ⟨fun k hk => (h k hk).1, fun k hk => ?_, hentries, fun o => ?_, ?_⟩
    · rw [tw.afterTriplets_succ hk]
      exact (answered_iff _ _ _ _).mpr (Triplet.decision_iff.mpr (h k hk)).2.2
    · rw [negotiateSLC_eq, ← hentries _ (Nat.le_refl _)]
      split_ifs <;> rfl
    · rw [negotiateSLC_eq]
      split_ifs
      · rfl
      · exact (List.append_nil _).symm

end Run

/-- A window that has received a suboption with these octets. -/
def receivedSub (tw : WindRec) (octets : List UInt8) : WindRec :=
  { tw with parsedat := fun i => octets.getD i 0, parseIndex := octets.length }

/-- A character that we have a value for stays when the other side does not support it. -/
theorem unsupported_char_kept :
    ¬((newConnection plainSession).receivedSub [N_LINEMODE, L_SLC, 10, 0, 255]).Negotiated := by
  intro h
  have hentry := h.settled 10
  revert hentry
  decide +kernel

end WindRec

end Telnet
