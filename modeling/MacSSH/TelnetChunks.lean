import MacSSH.TelnetReading

/-! Packet boundaries: when parsing two packets is the same as parsing them as one. -/
namespace Telnet

/-- Two windows that the user and the other side cannot tell apart. -/
structure WindRec.LooksLike (tw t : WindRec) : Prop where
  vt : t.vt = tw.vt
  sent : t.sent = tw.sent
  telstate : t.telstate = tw.telstate
  received : t.received = tw.received
  opts : t.opts = tw.opts
  line : t.line = tw.line

/-- Parsing `a` and then `b` is the same as parsing `a ++ b`, whatever lies behind the
packets, and no call looks there. -/
def ChunkIndependent (h : Host) (tw : WindRec) (a b : List UInt8) : Prop :=
  ∀ x y z : UInt8,
    (parseScan h x tw a).overread = false ∧
    (parseScan h y (parse h x tw a) b).overread = false ∧
    (parseScan h z tw (a ++ b)).overread = false ∧
    WindRec.LooksLike (parse h z tw (a ++ b)) (parse h y (parse h x tw a) b)

/-- Where the stream stands before a packet. -/
def WindRec.track (tw : WindRec) : Track := Reader.track ⟨tw, .clear⟩

/-- The boundary between `a` and `b` lies well: no packet ends with an undecided `IAC`
of a suboption; an `ESC` at the end of `a` is followed by a form feed exactly if data is
being thrown away; and `a` ends with a `GS` only if data is being thrown away. -/
def SplitsWell (tw : WindRec) (a b : List UInt8) : Prop :=
  (tw.track.after tw.cfg a).mode ≠ .subIAC ∧ (tw.track.after tw.cfg (a ++ b)).mode ≠ .subIAC ∧
  (a ≠ [] → ∀ c r, b = c :: r →
    ((tw.track.after tw.cfg a).mode = .escape →
      ((tw.track.after tw.cfg a).timing = true ↔ c = FF)) ∧
    ((tw.track.after tw.cfg a).mode = .gs → (tw.track.after tw.cfg a).timing = true))

section Read
variable {pl : Plugin} {r : Reader} {c : UInt8} {bytes : List UInt8}

theorem read_append (r : Reader) (a b : List UInt8) :
    r.read pl (a ++ b) = (r.read pl a).read pl b := List.foldl_append ..

theorem after_append (cfg : Config) (t : Track) (a b : List UInt8) :
    t.after cfg (a ++ b) = (t.after cfg a).after cfg b := List.foldl_append ..

/-- A stream that has turned to raster graphics is not followed any further. -/
theorem after_raster {cfg : Config} {t : Track} (ht : t.mode = .raster) (a : List UInt8) :
    (t.after cfg a).mode = .raster := by
  induction a generalizing t with
  | nil => exact ht
  | cons c a ih =>
    apply ih
    simp [Track.next, ht, Mode.next]

/-- Behind an octet, what is undecided follows from where the stream stands. -/
theorem after_look (cfg : Config) (t : Track) (a : List UInt8) (ha : a ≠ []) :
    (t.after cfg a).look = (t.after cfg a).mode.look := by
  obtain ⟨a, c, rfl⟩ := (List.eq_nil_or_concat a).resolve_left ha
  rw [List.concat_eq_append, after_append]
  rfl

/-- The octet `c` at the start of a packet does what it does in the middle of one. -/
def Resumes (t : Track) (c : UInt8) : Prop :=
  t.look = .escape → (t.mode = .escape → (t.timing = true ↔ c = FF)) ∧
    (t.mode = .gs → t.timing = true)

/-- An octet read with and without what is held back of its packet. -/
theorem step_resumes (ht : r.tw.termstate = .vt) (hl : r.look ≠ .iac) (hl' : r.look ≠ .raster)
    (hr : Resumes r.track c) : Reader.step pl ⟨r.tw, .clear⟩ c = r.step pl c := by
  obtain ⟨tw, look⟩ := r
  cases look with
  | clear => rfl
  | iac => exact absurd rfl hl
  | raster => exact absurd rfl hl'
  | escape =>
    obtain ⟨hesc, hgs⟩ := hr rfl
    have hmode : Reader.track ⟨tw, .escape⟩ = ⟨Reader.mode ⟨tw, .escape⟩, .escape, tw.timing⟩ := rfl
    rw [hmode] at hesc hgs
    have hd (htm : tw.timing = true) (t : WindRec) (h : t.timing = tw.timing) (x : List UInt8) :
        t.deliver x = t := WindRec.deliver_of_timing (h.trans htm) x
    cases hs : tw.telstate with
    | escfound =>
      have hm : Reader.mode ⟨tw, .escape⟩ = .escape := by simp [Reader.mode, hs]
      have hesc := hesc hm
      have he : Reader.escaped ⟨tw, .clear⟩ c = Reader.escaped ⟨tw, .escape⟩ c := by
        simp only [Reader.escaped, sendESC_vt ht, hs]
        by_cases hc : c = FF
        · have hn := hd (hesc.2 hc) (tw.vswrite [ESC]) rfl [ESC]
          simp [hc, hn]
        · have hn : tw.deliver [ESC] = tw.vswrite [ESC] := by
            apply WindRec.deliver_of_not_timing
            by_contra htm
            exact hc (hesc.1 (by simpa using htm))
          simp [hc, hn]
      simp only [Reader.step, hs, he, reduceCtorEq]
    | gs =>
      have hm : Reader.mode ⟨tw, .escape⟩ = .gs := by simp [Reader.mode, hs]
      have he : Reader.escaped ⟨tw, .clear⟩ c = Reader.escaped ⟨tw, .escape⟩ c := by
        have hn := hd (hgs hm) (tw.vswrite [ESC]) rfl [GS]
        simp [Reader.escaped, sendESC_vt ht, hs, hn]
      simp only [Reader.step, hs, he, reduceCtorEq]
    | _ => simp [Reader.step, hs]

/-- If the octet delivers the same in both ways, it resumes. -/
theorem emit_resumes {cfg : Config} {t : Track} (h94 : t.mode = .escape ∨ t.mode = .gs → c ≠ 94)
    (he : Track.emit cfg { t with look := .clear } c = t.emit cfg c) : Resumes t c := by
  obtain ⟨mode, look, timing⟩ := t
  intro hl
  have hp : Track.plain cfg ⟨mode, look, timing⟩ c = Track.plain cfg ⟨mode, .clear, timing⟩ c := rfl
  obtain rfl : look = .escape := hl
  -- what follows is the same, so the numbers of octets before it are
  have hlen := congrArg List.length he
  constructor
  · intro hm
    obtain rfl : mode = .escape := hm
    simp only [Track.emit, hp, if_neg (h94 (.inl rfl)), List.length_append] at hlen
    cases timing <;> by_cases hc : c = FF <;> simp [hc, Track.held] at hlen ⊢
  · intro hm
    obtain rfl : mode = .gs := hm
    simp only [Track.emit, hp, if_neg (h94 (.inr rfl)), List.length_append] at hlen
    cases timing <;> simp [Track.held] at hlen ⊢

theorem track_clear (hl : r.look ≠ .iac) (hl' : r.look ≠ .raster) :
    Reader.track ⟨r.tw, .clear⟩ = { r.track with look := .clear } := by
  have hm : Reader.mode ⟨r.tw, .clear⟩ = r.mode := by
    unfold Reader.mode
    cases r.tw.telstate <;> simp [hl, hl']
  unfold Reader.track
  rw [hm]

theorem track_mode_ne (tw : WindRec) : tw.track.mode ≠ .subIAC ∧ tw.track.mode ≠ .raster := by
  change Reader.mode ⟨tw, .clear⟩ ≠ _ ∧ Reader.mode ⟨tw, .clear⟩ ≠ _
  unfold Reader.mode
  cases tw.telstate <;> simp

/-- What is undecided is where the stream says so. -/
theorem look_of_mode (tw : WindRec) (a : List UInt8) :
    ((tw.track.after tw.cfg a).look = .iac ↔ (tw.track.after tw.cfg a).mode = .subIAC) ∧
    ((tw.track.after tw.cfg a).look = .raster ↔ (tw.track.after tw.cfg a).mode = .raster) := by
  by_cases ha : a = []
  · subst ha
    exact ⟨iff_of_false nofun (track_mode_ne tw).1, iff_of_false nofun (track_mode_ne tw).2⟩
  · rw [after_look tw.cfg tw.track a ha]
    cases (tw.track.after tw.cfg a).mode <;> simp [Mode.look]

/-- Behind `a` an octet resumes if the boundary lies well before it. -/
theorem after_resumes (tw : WindRec) (a : List UInt8) (c : UInt8) :
    Resumes (tw.track.after tw.cfg a) c ↔ (a ≠ [] →
      ((tw.track.after tw.cfg a).mode = .escape →
        ((tw.track.after tw.cfg a).timing = true ↔ c = FF)) ∧
      ((tw.track.after tw.cfg a).mode = .gs → (tw.track.after tw.cfg a).timing = true)) := by
  unfold Resumes
  by_cases ha : a = []
  · subst ha
    exact iff_of_true (fun hl => nomatch hl) fun hn => absurd rfl hn
  · rw [after_look tw.cfg tw.track a ha]
    cases hm : (tw.track.after tw.cfg a).mode <;> simp [Mode.look, ha]

end Read

section Packets
variable {h : Host} {tw : WindRec} {a b : List UInt8}

/-- A packet that does not end with an undecided `IAC` of a suboption. -/
theorem parse_decided (beyond : UInt8) (hv : ScreenOnly h tw)
    (hr : (tw.track.after tw.cfg a).mode ≠ .raster)
    (hd : (tw.track.after tw.cfg a).mode ≠ .subIAC) :
    (parseScan h beyond tw a).overread = false ∧
      parse h beyond tw a = (Reader.read h.plugin ⟨tw, .clear⟩ a).tw := by
  have htrack := (read_shows (r := ⟨tw, .clear⟩) h.plugin hv.termstate a).1
  have hlook : (Reader.read h.plugin ⟨tw, .clear⟩ a).look = (tw.track.after tw.cfg a).look :=
    congrArg Track.look htrack
  refine (readsAs_self ?_ ?_).1 (parse_octets beyond tw a hv)
  · rw [hlook]
    exact fun hl => hd ((look_of_mode tw a).1.1 hl)
  · rw [hlook]
    exact fun hl => hr ((look_of_mode tw a).2.1 hl)

theorem parse_undecided (beyond : UInt8) (hv : ScreenOnly h tw)
    (hd : (tw.track.after tw.cfg a).mode = .subIAC) :
    (parseScan h beyond tw a).overread = true := by
  have hread := parse_octets beyond tw a hv
  have htrack := (read_shows (r := ⟨tw, .clear⟩) h.plugin hv.termstate a).1
  have hlook : (Reader.read h.plugin ⟨tw, .clear⟩ a).look = .iac :=
    (congrArg Track.look htrack).trans ((look_of_mode tw a).1.2 hd)
  rw [ReadsAs, hlook] at hread
  exact hread

theorem LooksLike.refl (tw : WindRec) : tw.LooksLike tw := ⟨rfl, rfl, rfl, rfl, rfl, rfl⟩

/-- Where a packet boundary makes no difference: on a session that only has a screen,
for a stream that does not turn to raster graphics. -/
theorem chunk_independent_iff (h : Host) (tw : WindRec) (a b : List UInt8) (hv : ScreenOnly h tw)
    (hm : (tw.track.after tw.cfg (a ++ b)).mode ≠ .raster) :
    ChunkIndependent h tw a b ↔ SplitsWell tw a b := by
  have hva : Reader.track ⟨tw, .clear⟩ = tw.track := rfl
  have hma : (tw.track.after tw.cfg a).mode ≠ .raster := by
    intro hr
    apply hm
    rw [after_append]
    exact after_raster hr b
  by_cases hda : (tw.track.after tw.cfg a).mode = .subIAC
  · -- the first call looks behind its packet
    refine iff_of_false (fun hc => ?_) fun hs => hs.1 hda
    have ho := parse_undecided 0 hv hda
    rw [(hc 0 0 0).1] at ho
    cases ho
  have hpa (x : UInt8) := parse_decided x hv hma hda
  obtain ⟨htr, hcfg, hterm, -⟩ := read_shows (r := ⟨tw, .clear⟩) h.plugin hv.termstate a
  rw [hva] at htr
  generalize hr : Reader.read h.plugin ⟨tw, .clear⟩ a = r at hpa htr hcfg hterm
  have hlk : r.look = (tw.track.after tw.cfg a).look := congrArg Track.look htr
  have hlook : r.look ≠ .iac := by
    rw [hlk]
    exact fun hl => hda ((look_of_mode tw a).1.1 hl)
  have hlook' : r.look ≠ .raster := by
    rw [hlk]
    exact fun hl => hma ((look_of_mode tw a).2.1 hl)
  have hclear := track_clear hlook hlook'
  have hvr : ScreenOnly h r.tw := ⟨hcfg ▸ hv.tektype, hterm, hv.decrypt⟩
  cases b with
  | nil =>
    rw [ChunkIndependent, SplitsWell, List.append_nil]
    refine iff_of_true (fun x y z => ?_) ⟨hda, hda, fun _ c r hb => nomatch hb⟩
    have hnil := parse_decided (a := []) y hvr (track_mode_ne r.tw).2 (track_mode_ne r.tw).1
    rw [(hpa x).2, (hpa z).2, hnil.2]
    exact ⟨(hpa x).1, hnil.1, (hpa z).1, LooksLike.refl r.tw⟩
  | cons c b =>
    have hafter : tw.track.after tw.cfg (a ++ c :: b) = r.tw.track.after r.tw.cfg (c :: b) := by
      rw [after_append, ← htr, hcfg, show r.tw.track = _ from hclear]
      rfl
    by_cases hdab : (tw.track.after tw.cfg (a ++ c :: b)).mode = .subIAC
    · -- the call for both looks behind its packet
      refine iff_of_false (fun hc => ?_) fun hs => hs.2.1 hdab
      have ho := parse_undecided 0 hv hdab
      rw [(hc 0 0 0).2.2.1] at ho
      cases ho
    have hpb (y : UInt8) := parse_decided y hvr (hafter ▸ hm) (hafter ▸ hdab)
    have hpab (z : UInt8) := parse_decided z hv hm hdab
    rw [read_append, hr] at hpab
    have hsplit : SplitsWell tw a (c :: b) ↔ Resumes r.track c := by
      rw [htr, after_resumes]
      refine ⟨fun hs ha => hs.2.2 ha c b rfl, fun hs => ⟨hda, hdab, fun ha c' b' hb => ?_⟩⟩
      obtain ⟨rfl, rfl⟩ := List.cons.inj hb
      exact hs ha
    rw [hsplit]
    constructor
    · intro hc
      have hvt := (hc 0 0 0).2.2.2.vt
      rw [(hpa 0).2, (hpb 0).2, (hpab 0).2] at hvt
      obtain ⟨-, -, -, hv1⟩ := read_shows (r := ⟨r.tw, .clear⟩) h.plugin hterm (c :: b)
      obtain ⟨-, -, -, hv2⟩ := read_shows (r := r) h.plugin hterm (c :: b)
      rw [hv1, hv2, hclear] at hvt
      refine emit_resumes (fun he h94 => hm ?_)
        (List.append_cancel_right (List.append_cancel_left hvt))
      rw [after_append, ← htr]
      refine after_raster (t := r.track.next tw.cfg c) ?_ b
      rcases he with he | he <;> simp [Track.next, he, Mode.next, h94]
    · intro hs x y z
      have hread : Reader.read h.plugin ⟨r.tw, .clear⟩ (c :: b) = r.read h.plugin (c :: b) :=
        congrArg (fun t => List.foldl (Reader.step h.plugin) t b)
          (step_resumes hterm hlook hlook' hs)
      rw [(hpa x).2, (hpb y).2, (hpab z).2, hread]
      exact ⟨(hpa x).1, (hpb y).1, (hpab z).1, LooksLike.refl _⟩

/-- A subnegotiation split in the middle. -/
theorem chunk_independent_subnegotiation :
    ChunkIndependent plainHost (newConnection plainSession) [72, 255, 250, 24]
      [1, 255, 240, 105] := by
  apply (chunk_independent_iff plainHost (newConnection plainSession) [72, 255, 250, 24]
    [1, 255, 240, 105] ⟨by decide, by decide, fun _ _ => rfl⟩ (by decide)).2
  refine ⟨by decide, by decide, fun _ c r _ => ⟨fun hm => ?_, fun hm => ?_⟩⟩
  · exact absurd hm (by decide)
  · exact absurd hm (by decide)

/-- A `GS` at the end of a packet is lost. -/
theorem gs_boundary_visible :
    ¬ ChunkIndependent plainHost (newConnection plainSession) [29] [65] := by
  intro h
  exact absurd (h 0 0 0).2.2.2.vt (by decide)

end Packets

end Telnet
