import MacSSH.TelnetChunks

/-! Data transparency: which user data reaches the screen unchanged when it is mixed
with telnet commands and subnegotiations. -/
namespace Telnet

/-- A piece of a telnet stream: an octet of user data, a command without argument, an
option command, or a subnegotiation. -/
inductive Item where
  | data (c : UInt8)
  | command (c : UInt8) (lt : c < 250)
  | option (verb : Verb) (opt : UInt8)
  | sub (bytes : List UInt8)

def Verb.octet : Verb → UInt8
  | .will => TEL_WILLTEL
  | .wont => TEL_WONTTEL
  | .do => TEL_DOTEL
  | .dont => TEL_DONTTEL

/-- An octet with `0xFF` doubled. -/
def doubled (c : UInt8) : List UInt8 := if c = TEL_IAC then [TEL_IAC, TEL_IAC] else [c]

def Item.octets : Item → List UInt8
  | .data c => doubled c
  | .command c _ => [TEL_IAC, c]
  | .option verb opt => [TEL_IAC, verb.octet, opt]
  | .sub bytes => [TEL_IAC, TEL_SB] ++ bytes.flatMap doubled ++ [TEL_IAC, TEL_SE]

def octets (items : List Item) : List UInt8 := items.flatMap Item.octets

def userData (items : List Item) : List UInt8 :=
  items.filterMap fun
    | .data c => some c
    | _ => none

/-- The stream has no `GS` among its data, no `ESC` with a form feed right behind it, and
does not end with an `ESC`. -/
def Transparent : List Item → Prop
  | [] => True
  | .data c :: rest =>
    c ≠ GS ∧ (c = ESC → (∃ item rest', rest = item :: rest' ∧ item ≠ .data FF)) ∧ Transparent rest
  | _ :: rest => Transparent rest

/-- What can be shown of a stream: what the machine delivers, with something else than
a `GS` behind it if the stream turns to raster graphics. -/
def Shown (cfg : Config) (t : Track) (bytes w : List UInt8) : Prop :=
  if (t.after cfg bytes).mode = .raster then NextNotGS (t.emits cfg bytes) w
  else w = t.emits cfg bytes

section Shown
variable {cfg : Config} {t : Track} {w : List UInt8}

theorem nextNotGS_append (x v : List UInt8) :
    NextNotGS (x ++ v) w ↔ ∃ w', w = x ++ w' ∧ NextNotGS v w' := by
  constructor
  · rintro (rfl | ⟨c, y, hc, rfl⟩)
    · exact ⟨v, rfl, .inl rfl⟩
    · exact ⟨v ++ c :: y, by rw [List.append_assoc], .inr ⟨c, y, hc, rfl⟩⟩
  · rintro ⟨w', rfl, rfl | ⟨c, y, hc, rfl⟩⟩
    · exact .inl rfl
    · exact .inr ⟨c, y, hc, by rw [List.append_assoc]⟩

theorem emits_append (cfg : Config) (t : Track) (a b : List UInt8) :
    t.emits cfg (a ++ b) = t.emits cfg a ++ (t.after cfg a).emits cfg b := by
  induction a generalizing t with
  | nil => rfl
  | cons c a ih =>
    have h := ih (t.next cfg c)
    change t.emit cfg c ++ (t.next cfg c).emits cfg (a ++ b) = _
    rw [h, ← List.append_assoc]
    rfl

theorem emits_raster {t : Track} (ht : t.mode = .raster) (a : List UInt8) :
    t.emits cfg a = [] := by
  induction a generalizing t with
  | nil => rfl
  | cons c a ih =>
    change t.emit cfg c ++ (t.next cfg c).emits cfg a = []
    rw [ih (by simp [Track.next, ht, Mode.next])]
    simp [Track.emit, ht]

/-- What is shown of a stream is shown of its parts. -/
theorem shown_append (a b : List UInt8) :
    Shown cfg t (a ++ b) w ↔ ∃ w', w = t.emits cfg a ++ w' ∧ Shown cfg (t.after cfg a) b w' := by
  unfold Shown
  rw [after_append, emits_append]
  split
  · exact nextNotGS_append ..
  · constructor
    · rintro rfl
      exact ⟨_, rfl, rfl⟩
    · rintro ⟨w', rfl, rfl⟩
      rfl

end Shown

/-- The stream between two pieces, in data with nothing held back. -/
def atData : Track := ⟨.data, .clear, false⟩

/-- The stream behind an `ESC` or a `GS`. -/
def atEscape : Track := ⟨.escape, .escape, false⟩
def atGS : Track := ⟨.gs, .escape, false⟩

section Items
variable {cfg : Config}

theorem ofData_eq (he : cfg.eightbit = true) (hp : cfg.protocol = 0) (c : UInt8) :
    Mode.ofData cfg c = if c = TEL_IAC then .command else if c = ESC then .escape
      else if c = GS then .gs else .data := by
  simp [Mode.ofData, Config.octet, he, hp]

/-- The payload of a subnegotiation. -/
theorem payload_track (bytes : List UInt8) :
    Track.after cfg ⟨.sub, .clear, false⟩ (bytes.flatMap doubled) = ⟨.sub, .clear, false⟩ ∧
      Track.emits cfg ⟨.sub, .clear, false⟩ (bytes.flatMap doubled) = [] := by
  induction bytes with
  | nil => exact ⟨rfl, rfl⟩
  | cons c bytes ih =>
    have hc : Track.after cfg ⟨.sub, .clear, false⟩ (doubled c) = ⟨.sub, .clear, false⟩ ∧
        Track.emits cfg ⟨.sub, .clear, false⟩ (doubled c) = [] := by
      unfold doubled
      split
      · exact ⟨rfl, rfl⟩
      · rename_i h
        simp [Track.after, Track.emits, Track.emit, Track.next, Mode.next, Mode.look, h]
    rw [List.flatMap_cons, after_append, emits_append, hc.1, hc.2]
    exact ih

/-- A piece that is not data delivers nothing and leads back to data. -/
theorem command_track (he : cfg.eightbit = true) (hp : cfg.protocol = 0) (item : Item)
    (hi : ∀ c, item ≠ .data c) :
    atData.after cfg item.octets = atData ∧ atData.emits cfg item.octets = [] := by
  have hiac := ofData_eq he hp TEL_IAC
  rw [if_pos rfl] at hiac
  have hfirst (r : List UInt8) : atData.after cfg (TEL_IAC :: r) =
        Track.after cfg ⟨.command, .clear, false⟩ r ∧
      atData.emits cfg (TEL_IAC :: r) = Track.emits cfg ⟨.command, .clear, false⟩ r := by
    simp [Track.after, Track.emits, Track.emit, Track.next, Track.plain, atData, Mode.next, hiac,
      Mode.look]
  cases item with
  | data c => exact absurd rfl (hi c)
  | command c hc =>
    have hof : Mode.ofCommand c = .data := by
      have h (x : UInt8) (hx : ¬ x < 250) : c ≠ x := fun h => hx (h ▸ hc)
      simp only [Mode.ofCommand, if_neg (h TEL_DOTEL (by decide)),
        if_neg (h TEL_WILLTEL (by decide)),
        if_neg (h TEL_DONTTEL (by decide)), if_neg (h TEL_WONTTEL (by decide)),
        if_neg (h TEL_SB (by decide))]
    have hne : c ≠ TEL_IAC := fun h => absurd hc (by rw [h]; decide)
    rw [Item.octets, (hfirst _).1, (hfirst _).2]
    simp [Track.after, Track.emits, Track.emit, Track.next, Mode.next, hof, hne, Mode.look, atData]
  | option verb opt =>
    rw [Item.octets, (hfirst _).1, (hfirst _).2]
    cases verb <;> exact ⟨rfl, rfl⟩
  | sub bytes =>
    have hend : Track.after cfg ⟨.sub, .clear, false⟩ [TEL_IAC, TEL_SE] = atData ∧
        Track.emits cfg ⟨.sub, .clear, false⟩ [TEL_IAC, TEL_SE] = [] := ⟨rfl, rfl⟩
    have hopen : atData.after cfg [TEL_IAC, TEL_SB] = ⟨.sub, .clear, false⟩ ∧
        atData.emits cfg [TEL_IAC, TEL_SB] = [] := by
      rw [(hfirst _).1, (hfirst _).2]
      exact ⟨rfl, rfl⟩
    have hpay : Track.after cfg ⟨.sub, .clear, false⟩ (bytes.flatMap doubled) = _ ∧
        Track.emits cfg _ _ = _ := payload_track bytes
    rw [Item.octets, after_append, after_append, emits_append, emits_append, after_append, hopen.1,
      hopen.2, hpay.1, hpay.2, hend.1, hend.2]
    exact ⟨rfl, rfl⟩

/-- An octet of data. -/
theorem data_track (he : cfg.eightbit = true) (hp : cfg.protocol = 0) (c : UInt8) :
    atData.after cfg (doubled c) = (if c = ESC then atEscape else if c = GS then atGS else atData) ∧
    atData.emits cfg (doubled c) = if c = ESC ∨ c = GS then [] else [c] := by
  have hd := ofData_eq he hp c
  unfold doubled
  by_cases hc : c = TEL_IAC
  · rw [if_pos hc] at hd
    subst hc
    simp [Track.after, Track.emits, Track.emit, Track.next, Track.plain, atData, Mode.next, hd,
      Mode.look, Track.held]
  · rw [if_neg hc] at hd ⊢
    by_cases hesc : c = ESC
    · subst hesc
      simp [Track.after, Track.emits, Track.emit, Track.next, Track.plain, atData, atEscape,
        Mode.next, hd, Mode.look]
    by_cases hgs : c = GS
    · subst hgs
      simp [Track.after, Track.emits, Track.emit, Track.next, Track.plain, atData, atGS,
        Mode.next, hd, Mode.look]
    · rw [if_neg hesc, if_neg hgs] at hd
      simp [Track.after, Track.emits, Track.emit, Track.next, Track.plain, atData, Mode.next, hd,
        Mode.look, Track.held, hesc, hgs, Config.octet, he]

end Items

section Streams
variable {cfg : Config} {w : List UInt8} {items : List Item}

theorem octets_cons (item : Item) (items : List Item) :
    octets (item :: items) = item.octets ++ octets items := List.flatMap_cons ..

theorem shown_nil {t : Track} (ht : t.mode ≠ .raster) : Shown cfg t [] w ↔ w = [] := by
  rw [Shown, if_neg (show ¬ (t.after cfg []).mode = .raster from ht)]
  rfl

/-- The octet behind an `ESC` shows the `ESC`, twice before a form feed. -/
theorem shown_escape {c : UInt8} {r : List UInt8} (hc : c ≠ 94) :
    Shown cfg atEscape (c :: r) w ↔
      ∃ w', w = (if c = FF then [ESC, ESC] else [ESC]) ++ w' ∧ Shown cfg atData (c :: r) w' := by
  have hnext : atEscape.next cfg c = atData.next cfg c := by
    simp [Track.next, atEscape, atData, Mode.next, hc]
  have hemit : atEscape.emit cfg c =
      (if c = FF then [ESC, ESC] else [ESC]) ++ atData.emit cfg c := by
    change (if c = 94 then [] else (if atEscape.look ≠ .escape then [ESC] else _) ++ _) = _
    rw [if_neg hc, if_neg (by simp [atEscape])]
    split <;> rfl
  have hafter : atEscape.after cfg (c :: r) = atData.after cfg (c :: r) :=
    congrArg (fun t => Track.after cfg t r) hnext
  have hemits : atEscape.emits cfg (c :: r) =
      (if c = FF then [ESC, ESC] else [ESC]) ++ atData.emits cfg (c :: r) := by
    change _ ++ Track.emits cfg _ _ = _
    rw [hemit, hnext, List.append_assoc]
    rfl
  unfold Shown
  rw [hafter, hemits]
  split
  · exact nextNotGS_append ..
  · constructor
    · rintro rfl
      exact ⟨_, rfl, rfl⟩
    · rintro ⟨w', rfl, rfl⟩
      rfl

/-- Behind a `GS` the screen shows anything but the `GS`. -/
theorem shown_gs (r : List UInt8) (h : Shown cfg atGS r w) : w.head? ≠ some GS := by
  cases r with
  | nil =>
    rw [(shown_nil (by simp [atGS])).1 h]
    simp
  | cons c r =>
    by_cases hc : c = 94
    · -- raster graphics
      have hnext : (atGS.next cfg c).mode = .raster := by
        simp [Track.next, atGS, Mode.next, hc]
      have hafter : (atGS.after cfg (c :: r)).mode = .raster := after_raster hnext r
      have hemits : atGS.emits cfg (c :: r) = [] := by
        have hr : Track.emits cfg _ r = [] := emits_raster hnext r
        change atGS.emit cfg c ++ _ = []
        rw [hr]
        simp [Track.emit, atGS, hc]
      rw [Shown, if_pos hafter, hemits] at h
      rcases h with rfl | ⟨x, y, hx, rfl⟩
      · simp
      · simpa using hx
    · rw [← List.singleton_append, shown_append] at h
      obtain ⟨w', rfl, -⟩ := h
      simp [Track.emits, Track.emit, atGS, hc]

theorem userData_data (c : UInt8) (items : List Item) :
    userData (.data c :: items) = c :: userData items := rfl

theorem userData_command {item : Item} (hi : ∀ c, item ≠ .data c) (items : List Item) :
    userData (item :: items) = userData items := by
  cases item with
  | data c => exact absurd rfl (hi c)
  | _ => rfl

/-- The octet with which a piece begins. -/
theorem octets_head (item : Item) (items : List Item) :
    ∃ c r, octets (item :: items) = c :: r ∧ (c = FF ↔ item = .data FF) ∧
      (c = 94 ↔ item = .data 94) := by
  rw [octets_cons]
  cases item with
  | data c =>
    simp only [Item.octets, doubled]
    split
    · rename_i hc
      exact ⟨_, _, rfl, by simp [hc], by simp [hc]⟩
    · exact ⟨c, octets items, rfl, by simp, by simp⟩
  | command c hc => exact ⟨_, _, rfl, by simp, by simp⟩
  | option verb opt => exact ⟨_, _, rfl, by simp, by simp⟩
  | sub bytes => exact ⟨_, _, rfl, by simp, by simp⟩

/-- Between two pieces the stream is in data, maybe behind an `ESC` or a `GS`, or has
turned to raster graphics. -/
theorem octets_mode (he : cfg.eightbit = true) (hp : cfg.protocol = 0) (items : List Item)
    {t : Track} (ht : t = atData ∨ t = atEscape ∨ t = atGS) :
    (t.after cfg (octets items)).mode ≠ .subIAC := by
  induction items generalizing t with
  | nil => rcases ht with rfl | rfl | rfl <;> nofun
  | cons item items ih =>
    have hdata : (atData.after cfg (octets (item :: items))).mode ≠ .subIAC := by
      rw [octets_cons, after_append]
      by_cases hi : ∀ c, item ≠ .data c
      · rw [(command_track he hp item hi).1]
        exact ih (.inl rfl)
      · obtain ⟨c, rfl⟩ : ∃ c, item = .data c := by simpa using hi
        rw [show Item.octets (.data c) = doubled c from rfl, (data_track he hp c).1]
        apply ih
        split_ifs <;> simp
    obtain ⟨c, r, hc, -, -⟩ := octets_head item items
    rw [hc] at hdata ⊢
    by_cases h94 : c = 94
    · rcases ht with rfl | rfl | rfl
      · exact hdata
      · have hr : (atEscape.after cfg (c :: r)).mode = .raster := by
          refine after_raster (t := atEscape.next cfg c) ?_ r
          simp [Track.next, atEscape, Mode.next, h94]
        simp [hr]
      · have hr : (atGS.after cfg (c :: r)).mode = .raster := by
          refine after_raster (t := atGS.next cfg c) ?_ r
          simp [Track.next, atGS, Mode.next, h94]
        simp [hr]
    · have hnext : t.next cfg c = atData.next cfg c := by
        rcases ht with rfl | rfl | rfl
        · rfl
        · simp [Track.next, atEscape, atData, Mode.next, h94]
        · simp [Track.next, atGS, atData, Mode.next, h94]
      have hafter : t.after cfg (c :: r) = atData.after cfg (c :: r) :=
        congrArg (fun t => Track.after cfg t r) hnext
      rw [hafter]
      exact hdata

/-- User data is shown as it is exactly if the stream is transparent. -/
theorem shown_iff (he : cfg.eightbit = true) (hp : cfg.protocol = 0) (items : List Item)
    (hn : ¬ [ESC, 94] <:+: userData items) (hw : Shown cfg atData (octets items) w) :
    w = userData items ↔ Transparent items := by
  induction items generalizing w with
  | nil =>
    rw [(shown_nil (by simp [atData])).1 hw]
    exact iff_of_true rfl trivial
  | cons item items ih =>
    rw [octets_cons, shown_append] at hw
    obtain ⟨w', rfl, hw⟩ := hw
    by_cases hi : ∀ c, item ≠ .data c
    · -- not data: nothing is delivered
      rw [userData_command hi] at hn ⊢
      rw [(command_track he hp item hi).1] at hw
      rw [(command_track he hp item hi).2, List.nil_append, ih hn hw]
      cases item with
      | data c => exact absurd rfl (hi c)
      | _ => rfl
    obtain ⟨c, rfl⟩ : ∃ c, item = .data c := by simpa using hi
    have hn' : ¬ [ESC, 94] <:+: userData items :=
      fun h => hn (h.trans (List.suffix_cons ..).isInfix)
    rw [userData_data] at hn ⊢
    obtain ⟨hafter, hemits⟩ := data_track he hp c
    rw [show Item.octets (.data c) = doubled c from rfl] at hw ⊢
    rw [hafter] at hw
    rw [hemits]
    by_cases hgs : c = GS
    · -- an ESC, or raster graphics, in the place of the GS
      subst hgs
      rw [if_neg (by decide), if_pos rfl] at hw
      have hne := shown_gs _ hw
      refine iff_of_false (fun h => hne ?_) fun h => h.1 rfl
      rw [if_pos (.inr rfl), List.nil_append] at h
      simp [h]
    by_cases hesc : c = ESC
    · subst hesc
      rw [if_pos rfl] at hw
      rw [if_pos (.inl rfl), List.nil_append]
      cases items with
      | nil =>
        -- an ESC at the end is held back
        rw [show octets [] = [] from rfl, shown_nil (by simp [atEscape])] at hw
        refine iff_of_false (by simp [hw]) fun h => ?_
        obtain ⟨item, rest, hr, -⟩ := h.2.1 rfl
        cases hr
      | cons next items =>
        obtain ⟨x, r, hx, hff, h94⟩ := octets_head next items
        have hx94 : x ≠ 94 := by
          intro h
          apply hn
          rw [h94.1 h, userData_data]
          exact List.IsPrefix.isInfix ⟨userData items, rfl⟩
        rw [hx, shown_escape hx94, ← hx] at hw
        obtain ⟨w', rfl, hw⟩ := hw
        by_cases hxff : x = FF
        · -- an ESC before a form feed is shown twice
          rw [if_pos hxff, hff.1 hxff, userData_data]
          refine iff_of_false (by simp) fun h => ?_
          obtain ⟨item, rest, hr, hne⟩ := h.2.1 rfl
          exact hne (List.cons.inj hr).1.symm
        · rw [if_neg hxff, List.singleton_append, List.cons.injEq, ih hn' hw]
          refine ⟨fun h => ⟨by decide, fun _ => ⟨next, items, rfl, fun h => hxff (hff.2 h)⟩, h.2⟩,
            fun h => ⟨rfl, h.2.2⟩⟩
    · -- an ordinary octet
      rw [if_neg hesc, if_neg hgs] at hw
      rw [if_neg (by simp [hesc, hgs]), List.singleton_append, List.cons.injEq, ih hn' hw]
      exact ⟨fun h => ⟨hgs, fun h => absurd h hesc, h.2⟩, fun h => ⟨rfl, h.2.2⟩⟩

end Streams

/-- On an eight-bit telnet session that only has a screen, between two commands and with
no timing mark awaited, the user data in one packet reaches the screen exactly if the
stream is transparent. -/
theorem user_data_delivered_iff (h : Host) (beyond : UInt8) (tw : WindRec) (items : List Item)
    (hv : ScreenOnly h tw) (he : tw.cfg.eightbit = true) (hp : tw.cfg.protocol = 0)
    (hs : tw.telstate = .norm) (ht : tw.timing = false) (hn : ¬ [ESC, 94] <:+: userData items) :
    (parse h beyond tw (octets items)).vt = tw.vt ++ userData items ↔ Transparent items := by
  have htrack : tw.track = atData := by
    simp [WindRec.track, Reader.track, Reader.mode, hs, ht, atData]
  have hshown : ∃ w, (parse h beyond tw (octets items)).vt = tw.vt ++ w ∧
      Shown tw.cfg atData (octets items) w := by
    obtain ⟨htr, -, -, hvt⟩ := read_shows (r := ⟨tw, .clear⟩) h.plugin hv.termstate
      (octets items)
    rw [show Reader.track ⟨tw, .clear⟩ = atData from htrack] at htr hvt
    by_cases hr : (atData.after tw.cfg (octets items)).mode = .raster
    · have hlook : (Reader.read h.plugin ⟨tw, .clear⟩ (octets items)).look = .raster := by
        have hl := (look_of_mode tw (octets items)).2.2
        rw [htrack] at hl
        exact (congrArg Track.look htr).trans (hl hr)
      have hread := parse_octets beyond tw (octets items) hv
      rw [ReadsAs, hlook, hvt] at hread
      obtain ⟨w, hw, hnext⟩ := (nextNotGS_append ..).1 hread
      refine ⟨w, hw, ?_⟩
      rw [Shown, if_pos hr]
      exact hnext
    · have hd := parse_decided (a := octets items) beyond hv (htrack ▸ hr)
        (htrack ▸ octets_mode he hp items (.inl rfl))
      refine ⟨atData.emits tw.cfg (octets items), ?_, ?_⟩
      · rw [hd.2]
        exact hvt
      · rw [Shown, if_neg hr]
  obtain ⟨w, hw, hshown⟩ := hshown
  rw [hw, List.append_right_inj]
  exact shown_iff he hp items hn hshown

/-- Text around an option command, with an `ESC` sequence and a `0xFF`. -/
theorem user_data_delivered_text :
    (parse plainHost 0 (newConnection plainSession)
      (octets [.data 27, .data 91, .option .will 1, .data 255, .sub [24, 1], .data 12])).vt =
      [] ++ userData [.data 27, .data 91, .option .will 1, .data 255, .sub [24, 1], .data 12] := by
  apply (user_data_delivered_iff plainHost 0 (newConnection plainSession)
    [.data 27, .data 91, .option .will 1, .data 255, .sub [24, 1], .data 12]
    ⟨by decide, by decide, fun _ _ => rfl⟩ rfl rfl rfl rfl (by decide)).2
  refine ⟨by decide, fun _ => ⟨.data 91, _, rfl, by simp⟩, by decide, fun h => ?_, ?_⟩
  · exact absurd h (by decide)
  refine ⟨by decide, fun h => absurd h (by decide), by decide, fun h => absurd h (by decide), ?_⟩
  trivial

/-- An `ESC` before a form feed is shown twice. -/
theorem escape_form_feed_doubled :
    (parse plainHost 0 (newConnection plainSession) (octets [.data 27, .data 12])).vt ≠
      (newConnection plainSession).vt ++ userData [.data 27, .data 12] := by
  decide

end Telnet
