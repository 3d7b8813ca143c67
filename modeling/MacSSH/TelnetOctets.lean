import MacSSH.TelnetFrame
import MacSSH.TelnetParse

/-! The parser read octet by octet. `parse` works on runs of data and looks ahead; on
a terminal without graphics it does what the machine below does with one octet after
the other. All the machine has to know of the packet is whether a held back `ESC` or
`GS` came in it, and whether an `IAC` of a suboption is undecided. -/
namespace Telnet

/-- Where a stream of octets stands. It is followed up to an `ESC` or `GS` that a `^`
follows, which turns to raster graphics. -/
inductive Mode where
  | data | escape | gs | command | option (verb : Verb) | sub | subIAC | raster
  deriving DecidableEq, Repr

namespace Mode

/-- The octet `c` read as data. -/
def ofData (cfg : Config) (c : UInt8) : Mode :=
  if c = TEL_IAC ∧ cfg.protocol = 0 then .command
  else if cfg.octet c = ESC then .escape
  else if cfg.octet c = GS then .gs
  else .data

/-- The octet `c` read as a command. -/
def ofCommand (c : UInt8) : Mode :=
  if c = TEL_DOTEL then .option .do
  else if c = TEL_WILLTEL then .option .will
  else if c = TEL_DONTTEL then .option .dont
  else if c = TEL_WONTTEL then .option .wont
  else if c = TEL_SB then .sub
  else .data

def next (cfg : Config) (m : Mode) (c : UInt8) : Mode :=
  match m with
  | .data => ofData cfg c
  | .escape | .gs => if c = 94 then .raster else ofData cfg c
  | .command => if c = TEL_IAC then .data else ofCommand c
  | .option _ => .data
  | .sub => if c = TEL_IAC then .subIAC else .sub
  | .subIAC => if c = TEL_SE then .data else .sub
  | .raster => .raster

end Mode

/-- What is undecided in the packet at hand. -/
inductive Look where
  | clear | escape | iac | raster
  deriving DecidableEq, Repr

/-- The window between two octets. -/
structure Reader where
  tw : WindRec
  look : Look

namespace WindRec

/-- Data for the screen, thrown away while a timing mark is awaited. -/
def deliver (tw : WindRec) (bytes : List UInt8) : WindRec :=
  { tw with vt := if tw.timing then tw.vt else tw.vt ++ bytes }

/-- Process the suboption at hand. -/
def processed (pl : Plugin) (tw : WindRec) : WindRec := (suboption pl (tw.logged .processed)).1

/-- Process the suboption at an `IAC` that does not end it. -/
def processedEarly (pl : Plugin) (tw : WindRec) (c : UInt8) : WindRec :=
  { ((tw.store TEL_IAC).store c).processed pl with substat := some .iacfound }

end WindRec

namespace Reader

/-- An octet of data. -/
def plain (tw : WindRec) (c : UInt8) : Reader :=
  if c = TEL_IAC ∧ tw.cfg.protocol = 0 then ⟨{ tw with telstate := .iacfound }, .clear⟩
  else if tw.cfg.octet c = ESC then ⟨{ tw with telstate := .escfound }, .escape⟩
  else if tw.cfg.octet c = GS then ⟨{ tw with telstate := .gs }, .escape⟩
  else ⟨tw.deliver [tw.cfg.octet c], .clear⟩

/-- The window when the octet `c` follows an `ESC` or a `GS`. The held back one is
passed on only if it came in this packet. -/
def escaped (r : Reader) (c : UInt8) : WindRec :=
  let tw :=
    if r.look ≠ .escape then r.tw.sendESC
    else if r.tw.telstate = .gs then r.tw.sendESC.deliver [GS]
    else if c = FF then r.tw.sendESC.deliver [ESC]
    else r.tw.deliver [ESC]
  { tw with telstate := .norm }

/-- The octet `c` after an `IAC` in a suboption. -/
def afterSubIAC (pl : Plugin) (tw : WindRec) (c : UInt8) : WindRec :=
  if c = TEL_SE then { (tw.processed pl).logged .ended with telstate := .norm }
  else if c = TEL_IAC then tw.store c
  else (tw.processedEarly pl c).store c

/-- The octet `c`. -/
def step (pl : Plugin) (r : Reader) (c : UInt8) : Reader :=
  match r.tw.telstate with
  | .norm => plain r.tw c
  | .escfound | .gs =>
    if r.look = .raster ∨ c = 94 then ⟨r.tw, .raster⟩ else plain (r.escaped c) c
  | .iacfound =>
    if c = TEL_IAC then ⟨{ r.tw with telstate := .norm }.deliver [c], .clear⟩
    else ⟨r.tw.command c, .clear⟩
  | .do => ⟨{ r.tw.answer .do c with telstate := .norm }, .clear⟩
  | .dont => ⟨{ r.tw.answer .dont c with telstate := .norm }, .clear⟩
  | .will => ⟨{ r.tw.answer .will c with telstate := .norm }, .clear⟩
  | .wont => ⟨{ r.tw.answer .wont c with telstate := .norm }, .clear⟩
  | .sb =>
    if r.look = .iac then ⟨afterSubIAC pl r.tw c, .clear⟩
    else if c = TEL_IAC then ⟨r.tw, .iac⟩
    else ⟨r.tw.store c, .clear⟩

/-- Where the stream stands. -/
def mode (r : Reader) : Mode :=
  match r.tw.telstate with
  | .norm => .data
  | .escfound => if r.look = .raster then .raster else .escape
  | .gs => if r.look = .raster then .raster else .gs
  | .iacfound => .command
  | .do => .option .do
  | .dont => .option .dont
  | .will => .option .will
  | .wont => .option .wont
  | .sb => if r.look = .iac then .subIAC else .sub

def read (pl : Plugin) (r : Reader) (bytes : List UInt8) : Reader := bytes.foldl (step pl) r

end Reader

/-- What is undecided behind an octet. -/
def Mode.look : Mode → Look
  | .escape | .gs => .escape
  | .subIAC => .iac
  | .raster => .raster
  | _ => .clear

/-- As much of the machine as decides what is delivered. -/
structure Track where
  mode : Mode
  look : Look
  timing : Bool
  deriving DecidableEq, Repr

namespace Track

/-- `WILL` or `WONT` for a timing mark ends the wait for it. -/
def next (cfg : Config) (t : Track) (c : UInt8) : Track where
  mode := t.mode.next cfg c
  look := (t.mode.next cfg c).look
  timing := t.timing && !((t.mode = .option .will ∨ t.mode = .option .wont) ∧ c = N_TIMING)

/-- Data, unless it is thrown away. -/
def held (t : Track) (bytes : List UInt8) : List UInt8 := if t.timing then [] else bytes

/-- What an octet of data delivers. -/
def plain (cfg : Config) (t : Track) (c : UInt8) : List UInt8 :=
  if Mode.ofData cfg c = .data then t.held [cfg.octet c] else []

/-- What the octet `c` delivers. -/
def emit (cfg : Config) (t : Track) (c : UInt8) : List UInt8 :=
  match t.mode with
  | .data => t.plain cfg c
  | .escape =>
    if c = 94 then []
    else
      (if t.look ≠ .escape then [ESC] else if c = FF then ESC :: t.held [ESC] else t.held [ESC]) ++
        t.plain cfg c
  | .gs =>
    if c = 94 then [] else (if t.look ≠ .escape then [ESC] else ESC :: t.held [GS]) ++ t.plain cfg c
  | .command => if c = TEL_IAC then t.held [c] else []
  | _ => []

def after (cfg : Config) (t : Track) (bytes : List UInt8) : Track := bytes.foldl (next cfg) t

def emits (cfg : Config) : Track → List UInt8 → List UInt8
  | _, [] => []
  | t, c :: bytes => t.emit cfg c ++ emits cfg (t.next cfg c) bytes

end Track

def Reader.track (r : Reader) : Track where
  mode := r.mode
  look := r.look
  timing := r.tw.timing

/-- A session that only has a screen: no graphics and no decryption. -/
structure ScreenOnly (h : Host) (tw : WindRec) : Prop where
  tektype : tw.cfg.tektype < 0
  termstate : tw.termstate = .vt
  decrypt : ∀ calls sub, h.plugin.startDecrypt calls sub = false

namespace WindRec

@[simp] theorem deliver_nil (tw : WindRec) : tw.deliver [] = tw := by
  cases tw
  simp [deliver]

theorem deliver_of_timing {tw : WindRec} (ht : tw.timing = true) (bytes : List UInt8) :
    tw.deliver bytes = tw := by
  unfold deliver
  rw [if_pos ht]

theorem deliver_of_not_timing {tw : WindRec} (ht : tw.timing = false) (bytes : List UInt8) :
    tw.deliver bytes = tw.vswrite bytes := by
  unfold deliver
  rw [if_neg (by simp [ht])]
  rfl

theorem deliver_append (tw : WindRec) (x y : List UInt8) :
    tw.deliver (x ++ y) = (tw.deliver x).deliver y := by
  cases ht : tw.timing <;> simp [deliver, ht]

end WindRec

section Steps
variable {pl : Plugin} {r : Reader} {tw : WindRec} {c : UInt8}

theorem step_norm (hn : tw.telstate = .norm) (look : Look) :
    Reader.step pl ⟨tw, look⟩ c = Reader.plain tw c := by
  simp [Reader.step, hn]

/-- A data octet that is no control octet is delivered. -/
theorem plain_deliver (hi : ¬ (c = TEL_IAC ∧ tw.cfg.protocol = 0))
    (hc : ¬ (tw.cfg.octet c = ESC ∨ tw.cfg.octet c = GS)) :
    Reader.plain tw c = ⟨tw.deliver [tw.cfg.octet c], .clear⟩ := by
  rw [not_or] at hc
  rw [Reader.plain, if_neg hi, if_neg hc.1, if_neg hc.2]

theorem octet_octet (cfg : Config) (hc : cfg.octet c = ESC ∨ cfg.octet c = GS) :
    cfg.octet (cfg.octet c) = cfg.octet c := by
  rcases hc with hc | hc <;> rw [hc] <;> unfold Config.octet <;> split <;> rfl

/-- Clearing the top bit in advance makes no difference. -/
theorem plain_octet (hi : ¬ (c = TEL_IAC ∧ tw.cfg.protocol = 0))
    (hc : tw.cfg.octet c = ESC ∨ tw.cfg.octet c = GS) :
    Reader.plain tw (tw.cfg.octet c) = Reader.plain tw c := by
  have hi' : ¬ (tw.cfg.octet c = TEL_IAC ∧ tw.cfg.protocol = 0) := by
    rcases hc with hc | hc <;> simp [hc]
  rw [Reader.plain, Reader.plain, if_neg hi, if_neg hi', octet_octet tw.cfg hc]

/-- The quick scan delivers the octets it passes. -/
theorem quickScan_read (pl : Plugin) (bytes pend : List UInt8) (hn : tw.telstate = .norm) :
    Reader.read pl ⟨tw.deliver pend, .clear⟩ bytes =
      Reader.read pl ⟨tw.deliver (pend ++ (quickScan tw.cfg bytes).1), .clear⟩
        (quickScan tw.cfg bytes).2 := by
  induction bytes generalizing pend with
  | nil => simp [quickScan]
  | cons c bytes ih =>
    have hd : (tw.deliver pend).telstate = .norm := hn
    unfold quickScan
    by_cases hi : c = TEL_IAC ∧ tw.cfg.protocol = 0
    · rw [if_pos hi, List.append_nil]
    rw [if_neg hi]
    by_cases hc : tw.cfg.octet c = ESC ∨ tw.cfg.octet c = GS
    · -- the octet is read again with its top bit cleared
      have ho :
          Reader.plain (tw.deliver pend) (tw.cfg.octet c) = Reader.plain (tw.deliver pend) c :=
        plain_octet hi hc
      rw [if_pos hc, List.append_nil]
      simp only [Reader.read, List.foldl_cons]
      rw [step_norm hd, step_norm hd, ho]
    · have hp : Reader.plain (tw.deliver pend) c =
          ⟨(tw.deliver pend).deliver [tw.cfg.octet c], .clear⟩ := plain_deliver hi hc
      rw [if_neg hc]
      have ih := ih (pend ++ [tw.cfg.octet c])
      rw [List.append_assoc, List.singleton_append] at ih
      rw [← ih, Reader.read, List.foldl_cons, step_norm hd, hp, ← WindRec.deliver_append]
      rfl

/-- The octet `c` at which the quick scan stops is a control octet. -/
theorem quickScan_stop (cfg : Config) (bytes r : List UInt8)
    (h : (quickScan cfg bytes).2 = c :: r) :
    ((c = TEL_IAC ∧ cfg.protocol = 0) ∨ c = ESC ∨ c = GS) ∧ r.length < bytes.length := by
  induction bytes with
  | nil => simp [quickScan] at h
  | cons b bytes ih =>
    unfold quickScan at h
    split at h
    · rename_i hi
      obtain ⟨rfl, rfl⟩ := List.cons.inj h
      exact ⟨.inl hi, by simp⟩
    · split at h
      · rename_i hb
        obtain ⟨rfl, rfl⟩ := List.cons.inj h
        exact ⟨.inr hb, by simp⟩
      · obtain ⟨h1, h2⟩ := ih h
        refine ⟨h1, ?_⟩
        rw [List.length_cons]
        omega

theorem plain_mode (hn : tw.telstate = .norm) :
    (Reader.plain tw c).mode = Mode.ofData tw.cfg c := by
  unfold Reader.plain Mode.ofData
  split_ifs
  · rfl
  · rfl
  · rfl
  · simp [Reader.mode, WindRec.deliver, hn]

theorem command_mode : Reader.mode ⟨tw.command c, .clear⟩ = Mode.ofCommand c := by
  unfold WindRec.command Mode.ofCommand
  split_ifs <;> rfl

theorem store_telstate : (tw.store c).telstate = tw.telstate := rfl

theorem store_cfg : (tw.store c).cfg = tw.cfg := rfl

theorem store_termstate : (tw.store c).termstate = tw.termstate := rfl

theorem store_vt : (tw.store c).vt = tw.vt := rfl

theorem processed_reading : (tw.processed pl).reading = (tw.logged .processed).reading :=
  ((tw.logged .processed).suboption_frame pl).1

theorem processed_telstate : (tw.processed pl).telstate = tw.telstate :=
  congrArg Reading.telstate processed_reading

theorem processed_cfg : (tw.processed pl).cfg = tw.cfg := congrArg Reading.cfg processed_reading

theorem processed_termstate : (tw.processed pl).termstate = tw.termstate :=
  congrArg Reading.termstate processed_reading

theorem processed_timing : (tw.processed pl).timing = tw.timing :=
  ((tw.logged .processed).suboption_frame pl).2

theorem processedEarly_telstate : (tw.processedEarly pl c).telstate = tw.telstate := by
  calc (((tw.store TEL_IAC).store c).processed pl).telstate
    _ = ((tw.store TEL_IAC).store c).telstate := processed_telstate
    _ = (tw.store TEL_IAC).telstate := store_telstate
    _ = tw.telstate := store_telstate

theorem processedEarly_cfg : (tw.processedEarly pl c).cfg = tw.cfg := by
  calc (((tw.store TEL_IAC).store c).processed pl).cfg
    _ = ((tw.store TEL_IAC).store c).cfg := processed_cfg
    _ = (tw.store TEL_IAC).cfg := store_cfg
    _ = tw.cfg := store_cfg

theorem processedEarly_termstate : (tw.processedEarly pl c).termstate = tw.termstate := by
  calc (((tw.store TEL_IAC).store c).processed pl).termstate
    _ = ((tw.store TEL_IAC).store c).termstate := processed_termstate
    _ = (tw.store TEL_IAC).termstate := store_termstate
    _ = tw.termstate := store_termstate

theorem escaped_cfg : (r.escaped c).cfg = r.tw.cfg := by
  unfold Reader.escaped WindRec.sendESC
  simp only
  split_ifs <;> first | rfl | (split <;> rfl)

/-- The machine moves along the stream. -/
theorem step_mode (r : Reader) (c : UInt8) :
    (r.step pl c).mode = r.mode.next r.tw.cfg c := by
  have hescaped : (Reader.plain (r.escaped c) c).mode = Mode.ofData r.tw.cfg c := by
    rw [plain_mode rfl, escaped_cfg]
  cases ht : r.tw.telstate with
  | norm =>
    simp only [Reader.step, show r.mode = .data by simp [Reader.mode, ht], ht]
    exact plain_mode ht
  | escfound =>
    by_cases hl : r.look = .raster
    · simp [Reader.step, Reader.mode, ht, hl, Mode.next]
    simp only [Reader.step, show r.mode = .escape by simp [Reader.mode, ht, hl], ht, hl, false_or,
      Mode.next]
    by_cases hc : c = 94
    · rw [if_pos hc, if_pos hc]
      simp [Reader.mode, ht]
    · rw [if_neg hc, if_neg hc, hescaped]
  | gs =>
    by_cases hl : r.look = .raster
    · simp [Reader.step, Reader.mode, ht, hl, Mode.next]
    simp only [Reader.step, show r.mode = .gs by simp [Reader.mode, ht, hl], ht, hl, false_or,
      Mode.next]
    by_cases hc : c = 94
    · rw [if_pos hc, if_pos hc]
      simp [Reader.mode, ht]
    · rw [if_neg hc, if_neg hc, hescaped]
  | iacfound =>
    simp only [Reader.step, show r.mode = .command by simp [Reader.mode, ht], ht, Mode.next]
    by_cases hc : c = TEL_IAC
    · rw [if_pos hc, if_pos hc]
      rfl
    · rw [if_neg hc, if_neg hc]
      exact command_mode
  | «do» => simp [Reader.step, Reader.mode, ht, Mode.next]
  | dont => simp [Reader.step, Reader.mode, ht, Mode.next]
  | will => simp [Reader.step, Reader.mode, ht, Mode.next]
  | wont => simp [Reader.step, Reader.mode, ht, Mode.next]
  | sb =>
    by_cases hl : r.look = .iac
    · simp only [Reader.step, show r.mode = .subIAC by simp [Reader.mode, ht, hl], ht, Mode.next,
        if_pos hl, Reader.afterSubIAC]
      by_cases hse : c = TEL_SE
      · rw [if_pos hse, if_pos hse]
        rfl
      · rw [if_neg hse, if_neg hse]
        split
        · simp [Reader.mode, store_telstate, ht]
        · have he : (r.tw.processedEarly pl c).telstate = .sb := processedEarly_telstate.trans ht
          simp [Reader.mode, store_telstate, he]
    · simp only [Reader.step, show r.mode = .sub by simp [Reader.mode, ht, hl], ht, Mode.next,
        if_neg hl]
      by_cases hc : c = TEL_IAC
      · rw [if_pos hc, if_pos hc]
        simp [Reader.mode, ht]
      · rw [if_neg hc, if_neg hc]
        simp [Reader.mode, store_telstate, ht]

theorem plain_cfg : (Reader.plain tw c).tw.cfg = tw.cfg := by
  unfold Reader.plain
  split_ifs <;> rfl

theorem command_cfg : (tw.command c).cfg = tw.cfg := by
  unfold WindRec.command
  split_ifs <;> rfl

theorem afterSubIAC_cfg : (Reader.afterSubIAC pl tw c).cfg = tw.cfg := by
  unfold Reader.afterSubIAC
  split_ifs
  · exact processed_cfg
  · exact store_cfg
  · exact store_cfg.trans processedEarly_cfg

/-- The machine keeps the configuration. -/
theorem step_cfg (r : Reader) (c : UInt8) : (r.step pl c).tw.cfg = r.tw.cfg := by
  have hanswer (verb : Verb) : (r.tw.answer verb c).cfg = r.tw.cfg :=
    WindRec.cfg_of_reading (r.tw.answer_reading verb c)
  unfold Reader.step
  cases ht : r.tw.telstate with
  | norm => exact plain_cfg
  | escfound =>
    simp only
    split_ifs
    · rfl
    · exact plain_cfg.trans escaped_cfg
  | gs =>
    simp only
    split_ifs
    · rfl
    · exact plain_cfg.trans escaped_cfg
  | iacfound =>
    simp only
    split
    · rfl
    · exact command_cfg
  | «do» => exact hanswer .do
  | dont => exact hanswer .dont
  | will => exact hanswer .will
  | wont => exact hanswer .wont
  | sb =>
    simp only
    split_ifs
    · exact afterSubIAC_cfg
    · rfl
    · rfl

theorem plain_look : (Reader.plain tw c).look = (Mode.ofData tw.cfg c).look := by
  unfold Reader.plain Mode.ofData
  split_ifs <;> rfl

theorem command_look : (Mode.ofCommand c).look = .clear := by
  unfold Mode.ofCommand
  split_ifs <;> rfl

theorem step_look (r : Reader) (c : UInt8) :
    (r.step pl c).look = (r.mode.next r.tw.cfg c).look := by
  cases ht : r.tw.telstate with
  | norm =>
    simp only [Reader.step, show r.mode = .data by simp [Reader.mode, ht], ht]
    exact plain_look
  | escfound =>
    by_cases hl : r.look = .raster
    · simp [Reader.step, Reader.mode, ht, hl, Mode.next, Mode.look]
    simp only [Reader.step, show r.mode = .escape by simp [Reader.mode, ht, hl], ht, hl, false_or,
      Mode.next]
    by_cases hc : c = 94
    · rw [if_pos hc, if_pos hc]
      rfl
    · rw [if_neg hc, if_neg hc, plain_look, escaped_cfg]
  | gs =>
    by_cases hl : r.look = .raster
    · simp [Reader.step, Reader.mode, ht, hl, Mode.next, Mode.look]
    simp only [Reader.step, show r.mode = .gs by simp [Reader.mode, ht, hl], ht, hl, false_or,
      Mode.next]
    by_cases hc : c = 94
    · rw [if_pos hc, if_pos hc]
      rfl
    · rw [if_neg hc, if_neg hc, plain_look, escaped_cfg]
  | iacfound =>
    simp only [Reader.step, show r.mode = .command by simp [Reader.mode, ht], ht, Mode.next]
    by_cases hc : c = TEL_IAC
    · rw [if_pos hc, if_pos hc]
      rfl
    · rw [if_neg hc, if_neg hc, command_look]
  | «do» => simp [Reader.step, Reader.mode, ht, Mode.next, Mode.look]
  | dont => simp [Reader.step, Reader.mode, ht, Mode.next, Mode.look]
  | will => simp [Reader.step, Reader.mode, ht, Mode.next, Mode.look]
  | wont => simp [Reader.step, Reader.mode, ht, Mode.next, Mode.look]
  | sb =>
    by_cases hl : r.look = .iac
    · simp only [Reader.step, show r.mode = .subIAC by simp [Reader.mode, ht, hl], ht, Mode.next,
        if_pos hl]
      split <;> rfl
    · simp only [Reader.step, show r.mode = .sub by simp [Reader.mode, ht, hl], ht, Mode.next,
        if_neg hl]
      split <;> rfl

/-- The fields of the window that data goes through. -/
def ShowsAs (tw t : WindRec) (bytes : List UInt8) (timing : Bool) : Prop :=
  t.termstate = tw.termstate ∧ t.timing = timing ∧ t.vt = tw.vt ++ bytes

theorem plain_shows (t : Track) (htm : t.timing = tw.timing) :
    ShowsAs tw (Reader.plain tw c).tw (t.plain tw.cfg c) tw.timing := by
  by_cases hi : c = TEL_IAC ∧ tw.cfg.protocol = 0
  · rw [Reader.plain, if_pos hi, Track.plain, Mode.ofData, if_pos hi, if_neg (by simp)]
    exact ⟨rfl, rfl, (List.append_nil _).symm⟩
  by_cases he : tw.cfg.octet c = ESC
  · rw [Reader.plain, if_neg hi, if_pos he, Track.plain, Mode.ofData, if_neg hi, if_pos he,
      if_neg (by simp)]
    exact ⟨rfl, rfl, (List.append_nil _).symm⟩
  by_cases hg : tw.cfg.octet c = GS
  · rw [Reader.plain, if_neg hi, if_neg he, if_pos hg, Track.plain, Mode.ofData, if_neg hi,
      if_neg he, if_pos hg, if_neg (by simp)]
    exact ⟨rfl, rfl, (List.append_nil _).symm⟩
  · rw [Reader.plain, if_neg hi, if_neg he, if_neg hg, Track.plain, Mode.ofData, if_neg hi,
      if_neg he, if_neg hg, if_pos rfl, Track.held, htm]
    refine ⟨rfl, rfl, ?_⟩
    simp only [WindRec.deliver]
    split <;> simp

theorem ShowsAs.trans {a b d : WindRec} {x y : List UInt8} {u v : Bool} (h : ShowsAs a b x u)
    (h' : ShowsAs b d y v) : ShowsAs a d (x ++ y) v := by
  refine ⟨h'.1.trans h.1, h'.2.1, ?_⟩
  rw [h'.2.2, h.2.2, List.append_assoc]

theorem sendESC_vt (ht : tw.termstate = .vt) : tw.sendESC = tw.vswrite [ESC] := by
  unfold WindRec.sendESC
  rw [ht]

theorem deliver_shows (bytes : List UInt8) :
    ShowsAs tw (tw.deliver bytes) (if tw.timing then [] else bytes) tw.timing := by
  refine ⟨rfl, rfl, ?_⟩
  simp only [WindRec.deliver]
  split <;> simp

/-- What the `ESC` or `GS` before the octet `c` delivers. -/
theorem escaped_shows (ht : r.tw.termstate = .vt) :
    ShowsAs r.tw (r.escaped c)
      (if r.look ≠ .escape then [ESC]
       else if r.tw.telstate = .gs then ESC :: r.track.held [GS]
       else if c = FF then ESC :: r.track.held [ESC]
       else r.track.held [ESC]) r.tw.timing := by
  have hs : ShowsAs r.tw (r.tw.vswrite [ESC]) [ESC] r.tw.timing := ⟨rfl, rfl, rfl⟩
  have hd (b : UInt8) : ShowsAs (r.tw.vswrite [ESC]) ((r.tw.vswrite [ESC]).deliver [b])
      (r.track.held [b]) r.tw.timing := deliver_shows [b]
  have hn : ShowsAs r.tw (r.tw.deliver [ESC]) (r.track.held [ESC]) r.tw.timing :=
    deliver_shows [ESC]
  unfold Reader.escaped
  rw [sendESC_vt ht]
  simp only
  split_ifs
  · exact hs
  · exact hs.trans (hd GS)
  · exact hs.trans (hd ESC)
  · exact hn

theorem frame_shows {t : WindRec} (hr : t.reading = tw.reading) : ShowsAs tw t [] t.timing := by
  refine ⟨WindRec.termstate_of_reading hr, rfl, ?_⟩
  rw [WindRec.vt_of_reading hr, List.append_nil]

theorem store_timing : (tw.store c).timing = tw.timing := rfl

theorem store_shows : ShowsAs tw (tw.store c) [] tw.timing := by
  refine ⟨store_termstate, store_timing, ?_⟩
  rw [store_vt, List.append_nil]

theorem processed_shows : ShowsAs tw (tw.processed pl) [] tw.timing := by
  have hvt : (tw.processed pl).vt = tw.vt := congrArg Reading.vt processed_reading
  refine ⟨processed_termstate, processed_timing, ?_⟩
  rw [hvt, List.append_nil]

theorem processedEarly_shows : ShowsAs tw (tw.processedEarly pl c) [] tw.timing := by
  have hprocessed : ShowsAs ((tw.store TEL_IAC).store c) (((tw.store TEL_IAC).store c).processed pl)
      [] ((tw.store TEL_IAC).store c).timing := processed_shows
  rw [store_timing, store_timing] at hprocessed
  have hstored := (@store_shows tw TEL_IAC).trans (@store_shows (tw.store TEL_IAC) c)
  have hboth := hstored.trans hprocessed
  -- the state of the suboption is no field that data goes through
  exact ⟨hboth.1, hboth.2.1, hboth.2.2⟩

/-- The octet after an `IAC` in a suboption shows nothing. -/
theorem afterSubIAC_shows : ShowsAs tw (Reader.afterSubIAC pl tw c) [] tw.timing := by
  unfold Reader.afterSubIAC
  split_ifs
  · exact processed_shows
  · exact store_shows
  · have hearly : ShowsAs tw (tw.processedEarly pl c) [] tw.timing := processedEarly_shows
    refine ⟨store_termstate.trans hearly.1, store_timing.trans hearly.2.1, ?_⟩
    rw [store_vt]
    exact hearly.2.2

theorem command_shows : ShowsAs tw (tw.command c) [] tw.timing := by
  unfold WindRec.command
  split_ifs <;> exact ⟨rfl, rfl, (List.append_nil _).symm⟩

theorem answer_shows (verb : Verb) (hm : r.mode = .option verb) :
    ShowsAs r.tw { r.tw.answer verb c with telstate := .norm } []
      (r.track.next r.tw.cfg c).timing := by
  have h := frame_shows (r.tw.answer_reading verb c)
  refine ⟨h.1, ?_, h.2.2⟩
  change (r.tw.answer verb c).timing = _
  rw [WindRec.answer_timing]
  have hmode : r.track.mode = .option verb := hm
  have htiming : r.track.timing = r.tw.timing := rfl
  simp only [Track.next, hmode, htiming]
  by_cases hc : c = N_TIMING <;> cases verb <;> simp [hc]

/-- Only in an option command can the wait for a timing mark end. -/
theorem next_timing (hm : ∀ verb, r.mode ≠ .option verb) :
    (r.track.next r.tw.cfg c).timing = r.tw.timing := by
  have hmode : r.track.mode = r.mode := rfl
  have htiming : r.track.timing = r.tw.timing := rfl
  simp [Track.next, hmode, htiming, hm]

/-- What an octet delivers, and whether data is still thrown away. -/
theorem step_shows (ht : r.tw.termstate = .vt) :
    ShowsAs r.tw (r.step pl c).tw (r.track.emit r.tw.cfg c) (r.track.next r.tw.cfg c).timing := by
  have hmode : r.track.mode = r.mode := rfl
  have hlook : r.track.look = r.look := rfl
  have hesc := (escaped_shows (c := c) ht).trans (plain_shows (c := c) r.track
    (escaped_shows (c := c) ht).2.1.symm)
  rw [(escaped_shows (c := c) ht).2.1, escaped_cfg] at hesc
  have hstill : ShowsAs r.tw r.tw [] r.tw.timing := ⟨rfl, rfl, (List.append_nil _).symm⟩
  cases hs : r.tw.telstate with
  | norm =>
    have hm : r.mode = .data := by simp [Reader.mode, hs]
    rw [next_timing (by simp [hm])]
    simp only [Reader.step, hs, Track.emit, hmode, hm]
    exact plain_shows r.track rfl
  | escfound =>
    rw [if_neg (show ¬ r.tw.telstate = .gs by simp [hs])] at hesc
    by_cases hl : r.look = .raster
    · have hm : r.mode = .raster := by simp [Reader.mode, hs, hl]
      rw [next_timing (by simp [hm])]
      simp only [Reader.step, hs, hl, true_or, if_true, Track.emit, hmode, hm]
      exact hstill
    have hm : r.mode = .escape := by simp [Reader.mode, hs, hl]
    rw [next_timing (by simp [hm])]
    simp only [Reader.step, hs, hl, false_or, Track.emit, hmode, hm, hlook]
    by_cases hc : c = 94
    · rw [if_pos hc, if_pos hc]
      exact hstill
    · rw [if_neg hc, if_neg hc]
      exact hesc
  | gs =>
    rw [if_pos hs] at hesc
    by_cases hl : r.look = .raster
    · have hm : r.mode = .raster := by simp [Reader.mode, hs, hl]
      rw [next_timing (by simp [hm])]
      simp only [Reader.step, hs, hl, true_or, if_true, Track.emit, hmode, hm]
      exact hstill
    have hm : r.mode = .gs := by simp [Reader.mode, hs, hl]
    rw [next_timing (by simp [hm])]
    simp only [Reader.step, hs, hl, false_or, Track.emit, hmode, hm, hlook]
    by_cases hc : c = 94
    · rw [if_pos hc, if_pos hc]
      exact hstill
    · rw [if_neg hc, if_neg hc]
      exact hesc
  | iacfound =>
    have hm : r.mode = .command := by simp [Reader.mode, hs]
    rw [next_timing (by simp [hm])]
    simp only [Reader.step, hs, Track.emit, hmode, hm]
    by_cases hc : c = TEL_IAC
    · rw [if_pos hc, if_pos hc]
      exact deliver_shows [c]
    · rw [if_neg hc, if_neg hc]
      exact command_shows
  | «do» =>
    have hm : r.mode = .option .do := by simp [Reader.mode, hs]
    simp only [Reader.step, hs, Track.emit, hmode, hm]
    exact answer_shows .do hm
  | dont =>
    have hm : r.mode = .option .dont := by simp [Reader.mode, hs]
    simp only [Reader.step, hs, Track.emit, hmode, hm]
    exact answer_shows .dont hm
  | will =>
    have hm : r.mode = .option .will := by simp [Reader.mode, hs]
    simp only [Reader.step, hs, Track.emit, hmode, hm]
    exact answer_shows .will hm
  | wont =>
    have hm : r.mode = .option .wont := by simp [Reader.mode, hs]
    simp only [Reader.step, hs, Track.emit, hmode, hm]
    exact answer_shows .wont hm
  | sb =>
    by_cases hl : r.look = .iac
    · have hm : r.mode = .subIAC := by simp [Reader.mode, hs, hl]
      rw [next_timing (by simp [hm])]
      simp only [Reader.step, hs, Track.emit, hmode, hm, if_pos hl]
      exact afterSubIAC_shows
    · have hm : r.mode = .sub := by simp [Reader.mode, hs, hl]
      rw [next_timing (by simp [hm])]
      simp only [Reader.step, hs, Track.emit, hmode, hm, if_neg hl]
      split_ifs
      · exact hstill
      · exact store_shows

theorem step_track (ht : r.tw.termstate = .vt) : (r.step pl c).track = r.track.next r.tw.cfg c := by
  have hm : (r.step pl c).mode = _ := step_mode r c
  have hl : (r.step pl c).look = _ := step_look r c
  have hs : (r.step pl c).tw.timing = _ := (step_shows ht).2.1
  unfold Reader.track
  rw [hm, hl, hs]
  rfl

/-- What a run of octets delivers, and where it leads. -/
theorem read_shows (pl : Plugin) (ht : r.tw.termstate = .vt) (bytes : List UInt8) :
    (r.read pl bytes).track = r.track.after r.tw.cfg bytes ∧
      (r.read pl bytes).tw.cfg = r.tw.cfg ∧ (r.read pl bytes).tw.termstate = .vt ∧
      (r.read pl bytes).tw.vt = r.tw.vt ++ r.track.emits r.tw.cfg bytes := by
  induction bytes generalizing r with
  | nil => exact ⟨rfl, rfl, ht, (List.append_nil _).symm⟩
  | cons c bytes ih =>
    have hs : ShowsAs r.tw (r.step pl c).tw _ _ := step_shows ht
    obtain ⟨h1, h2, h3, h4⟩ := ih (r := r.step pl c) (hs.1.trans ht)
    rw [step_cfg, step_track ht] at h1 h4
    refine ⟨h1, h2.trans (step_cfg r c), h3, ?_⟩
    change (Reader.read pl (r.step pl c) bytes).tw.vt = _
    rw [h4, hs.2.2, List.append_assoc]
    rfl

end Steps

end Telnet
