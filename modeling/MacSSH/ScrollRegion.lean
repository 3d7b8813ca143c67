import MacSSH.ControlSequences

/-! The function that sets the scrolling region, and where it leaves the cursor. -/
namespace VS

open Linked

variable {τ : Type}

/-- The margins of the scrolling region are rows of the screen, in order. -/
structure LegalMargins (e : Emulation τ) : Prop where
  top : 0 ≤ e.top
  order : e.top < e.bottom
  bottom : e.bottom ≤ e.buf.lines

/-- The cursor is at the start of the first row, or of the scrolling region. -/
def HomePosition (e : Emulation τ) : Prop := e.x = 0 ∧ e.y = if e.DECORG then e.top else 0

/-- The rows that a request for margins with these parameters names; a missing or zero
parameter is the first or the last row of the screen. -/
def requestedTop (parms : List (List UInt8)) : Int :=
  if decimal (parms.getD 0 []) = 0 then 0 else decimal (parms.getD 0 [])-1

def requestedBottom (lines : Int) (parms : List (List UInt8)) : Int :=
  if decimal (parms.getD 1 []) = 0 then lines else decimal (parms.getD 1 [])-1

/-- The scrolling region has been set, and the cursor sent home. -/
structure RegionSet (lines : Int) (parms : List (List UInt8)) (e : Emulation τ) : Prop where
  lines_eq : e.buf.lines = lines
  legal : LegalMargins e
  requested : requestedTop parms < requestedBottom lines parms →
    requestedBottom lines parms ≤ lines → 0 ≤ requestedTop parms →
    e.top = requestedTop parms ∧ e.bottom = requestedBottom lines parms
  home : HomePosition e

/-- The request names the margins that there are. -/
def RequestsCurrent (e : Emulation τ) (parms : List (List UInt8)) : Prop :=
  numeral (parms.getD 0 [])-1 = e.top ∧ numeral (parms.getD 1 [])-1 = e.bottom

instance (e : Emulation τ) (parms : List (List UInt8)) : Decidable (RequestsCurrent e parms) :=
  inferInstanceAs (Decidable (_ ∧ _))

section Repair
variable (e : Emulation τ)

/-- The row that the parameter `v` makes of the upper margin, before the other one is seen. -/
def repairedTop (lines v : Int) : Int :=
  let top := if v < 0 then 0 else v-1
  let top := if top < 0 then 0 else top
  if top > lines-1 then lines-1 else top

def repairedBottom (lines v : Int) : Int :=
  let bottom := if v < 0 then lines else v-1
  let bottom := if bottom < 1 then lines else bottom
  if bottom > lines then lines else bottom

theorem repairedTop_range {lines v : Int} (hlines : 1 ≤ lines) :
    0 ≤ repairedTop lines v ∧ repairedTop lines v < lines := by
  simp only [repairedTop]
  split_ifs <;> omega

theorem repairedBottom_range {lines v : Int} (hlines : 1 ≤ lines) :
    1 ≤ repairedBottom lines v ∧ repairedBottom lines v ≤ lines := by
  simp only [repairedBottom]
  split_ifs <;> omega

/-- A new scrolling region. -/
theorem setMargins_new (hlines : 1 ≤ e.buf.lines)
    (hnew : ¬(e.parms 0-1 = e.top ∧ e.parms 1-1 = e.bottom)) :
    ∃ top, e.setMargins = { e with
        top := top, bottom := repairedBottom e.buf.lines (e.parms 1), x := 0
        y := if e.DECORG then top else 0 } ∧
      0 ≤ top ∧ top < repairedBottom e.buf.lines (e.parms 1) ∧
      (repairedTop e.buf.lines (e.parms 0) < repairedBottom e.buf.lines (e.parms 1) →
        top = repairedTop e.buf.lines (e.parms 0)) := by
  obtain ⟨hb1, hb2⟩ := @repairedBottom_range e.buf.lines (e.parms 1) hlines
  obtain ⟨ht1, ht2⟩ := @repairedTop_range e.buf.lines (e.parms 0) hlines
  have hform : ∀ margins : Int × Int,
      margins = (if repairedTop e.buf.lines (e.parms 0) ≥
            repairedBottom e.buf.lines (e.parms 1) then
          if repairedBottom e.buf.lines (e.parms 1) ≥ 1 then
            (repairedBottom e.buf.lines (e.parms 1)-1, repairedBottom e.buf.lines (e.parms 1))
          else (repairedTop e.buf.lines (e.parms 0), repairedTop e.buf.lines (e.parms 0)+1)
        else (repairedTop e.buf.lines (e.parms 0), repairedBottom e.buf.lines (e.parms 1))) →
      e.setMargins = { e with
        top := margins.1, bottom := margins.2, x := 0,
        y := if e.DECORG then margins.1 else 0 } := by
    intro margins hmargins
    rw [hmargins]
    exact if_neg hnew
  by_cases horder :
      repairedTop e.buf.lines (e.parms 0) ≥ repairedBottom e.buf.lines (e.parms 1)
  · refine ⟨repairedBottom e.buf.lines (e.parms 1)-1, ?_, by omega, by omega, by omega⟩
    apply hform (repairedBottom e.buf.lines (e.parms 1)-1, repairedBottom e.buf.lines (e.parms 1))
    rw [if_pos horder, if_pos hb1]
  · refine ⟨repairedTop e.buf.lines (e.parms 0), ?_, by omega, by omega, fun _ => rfl⟩
    apply hform (repairedTop e.buf.lines (e.parms 0), repairedBottom e.buf.lines (e.parms 1))
    rw [if_neg horder]

/-- The request for the margins that there are changes nothing. -/
theorem setMargins_current (h : e.parms 0-1 = e.top ∧ e.parms 1-1 = e.bottom) :
    e.setMargins = e := by
  simp only [Emulation.setMargins, if_pos h]

end Repair

section Request
variable {parms : List (List UInt8)}

theorem getD_digits (hds : ∀ ds ∈ parms, ∀ c ∈ ds, IsDigit c) (i : ℕ) :
    ∀ c ∈ parms.getD i [], IsDigit c := by
  rcases Nat.lt_or_ge i parms.length with hlt | hge
  · rw [List.getD_eq_getElem _ _ hlt]
    exact hds _ (List.getElem_mem hlt)
  · rw [List.getD_eq_default _ _ hge]
    intro c hc
    cases hc

theorem numeral_of_zero {ds : List UInt8} (hds : ∀ c ∈ ds, IsDigit c) (h : decimal ds = 0) :
    numeral ds < 1 := by
  rcases eq_or_ne ds [] with rfl | hne
  · decide
  · rw [numeral_eq hds hne (by omega), h]
    decide

theorem nonempty_of_decimal {ds : List UInt8} (h : decimal ds ≠ 0) : ds ≠ [] := by
  rintro rfl
  exact h rfl

/-- A legal upper margin is read as it is asked for. -/
theorem requestedTop_read {lines : Int} (hl : 1 ≤ lines) (hlines : lines ≤ 32767)
    (hds : ∀ ds ∈ parms, ∀ c ∈ ds, IsDigit c) (h : requestedTop parms < lines) :
    repairedTop lines (numeral (parms.getD 0 [])) = requestedTop parms := by
  have hdigits := getD_digits hds 0
  rw [requestedTop] at h ⊢
  split_ifs at h ⊢ with hzero
  · have hread := numeral_of_zero hdigits hzero
    simp only [repairedTop]
    split_ifs <;> omega
  · have hread := numeral_eq hdigits (nonempty_of_decimal hzero) (by omega)
    rw [hread]
    simp only [repairedTop]
    split_ifs <;> omega

theorem requestedBottom_read {lines : Int} (hl : 1 ≤ lines) (hlines : lines ≤ 32767)
    (hds : ∀ ds ∈ parms, ∀ c ∈ ds, IsDigit c) (hpos : 0 < requestedBottom lines parms)
    (h : requestedBottom lines parms ≤ lines) :
    repairedBottom lines (numeral (parms.getD 1 [])) = requestedBottom lines parms := by
  have hdigits := getD_digits hds 1
  rw [requestedBottom] at h hpos ⊢
  split_ifs at h hpos ⊢ with hzero
  · have hread := numeral_of_zero hdigits hzero
    simp only [repairedBottom]
    split_ifs <;> omega
  · rcases Nat.lt_or_ge 32767 (decimal (parms.getD 1 [])) with hbig | hsmall
    · -- the number is the first one beyond 16 bits, and the screen as long as it can be
      have hread := numeral_eq_short hdigits (nonempty_of_decimal hzero) (by omega)
      have hmax : decimal (parms.getD 1 []) = 32768 := by omega
      rw [hmax] at hread
      have hneg : numeral (parms.getD 1 []) = -32768 := hread.trans (by decide)
      rw [hneg, hmax]
      rw [hmax] at h
      simp only [repairedBottom]
      split_ifs <;> omega
    · have hread := numeral_eq hdigits (nonempty_of_decimal hzero) hsmall
      rw [hread]
      simp only [repairedBottom]
      split_ifs <;> omega

end Request

section Home
variable {e : Emulation τ} {parms : List (List UInt8)}

/-- What the end of the sequence leaves alone. -/
theorem regionSet_ended (lines : Int) (parms : List (List UInt8)) (e : Emulation τ) (c : UInt8) :
    RegionSet lines parms (e.ended c) ↔ RegionSet lines parms e := by
  obtain ⟨force, h⟩ := ended_form e c
  rw [h]
  constructor
  · intro hset
    exact ⟨hset.lines_eq, ⟨hset.legal.top, hset.legal.order, hset.legal.bottom⟩, hset.requested,
      hset.home⟩
  · intro hset
    exact ⟨hset.lines_eq, ⟨hset.legal.top, hset.legal.order, hset.legal.bottom⟩, hset.requested,
      hset.home⟩

/-- A region that is not the current one is set as it is asked for. -/
theorem regionSet_new (hl : 1 ≤ e.buf.lines) (hlines : e.buf.lines ≤ 32767)
    (hds : ∀ ds ∈ parms, ∀ c ∈ ds, IsDigit c) (hnew : ¬RequestsCurrent e parms) :
    RegionSet e.buf.lines parms (e.withParms (parms.map numeral)).setMargins := by
  have h0 : (e.withParms (parms.map numeral)).parms 0 = numeral (parms.getD 0 []) :=
    withParms_numeral e parms (by decide)
  have h1 : (e.withParms (parms.map numeral)).parms 1 = numeral (parms.getD 1 []) :=
    withParms_numeral e parms (by decide)
  have hnew' : ¬((e.withParms (parms.map numeral)).parms 0-1 = e.top ∧
      (e.withParms (parms.map numeral)).parms 1-1 = e.bottom) := by
    rw [h0, h1]
    exact hnew
  obtain ⟨top, hform, htop, horder, hreq⟩ :=
    setMargins_new (e.withParms (parms.map numeral)) hl hnew'
  rw [hform]
  have hbottom := (@repairedBottom_range e.buf.lines
    ((e.withParms (parms.map numeral)).parms 1) hl).2
  refine ⟨rfl, ⟨htop, horder, hbottom⟩, ?_, ⟨rfl, rfl⟩⟩
  intro hlt hle hpos
  have hb := requestedBottom_read hl hlines hds (by omega) hle
  have ht := requestedTop_read hl hlines hds (by omega)
  rw [h0, h1] at hreq
  change top = _ ∧ repairedBottom e.buf.lines ((e.withParms (parms.map numeral)).parms 1) = _
  rw [h1, hb]
  refine ⟨?_, rfl⟩
  rw [← ht]
  apply hreq
  change repairedTop e.buf.lines _ < repairedBottom e.buf.lines _
  rw [hb, ht]
  exact hlt

/-- The region that there is stays, and so does the cursor. -/
theorem regionSet_current (hlines : e.buf.lines ≤ 32767)
    (hds : ∀ ds ∈ parms, ∀ c ∈ ds, IsDigit c) (hcur : RequestsCurrent e parms) :
    RegionSet e.buf.lines parms (e.withParms (parms.map numeral)).setMargins ↔
      LegalMargins e ∧ HomePosition e := by
  have h0 : (e.withParms (parms.map numeral)).parms 0 = numeral (parms.getD 0 []) :=
    withParms_numeral e parms (by decide)
  have h1 : (e.withParms (parms.map numeral)).parms 1 = numeral (parms.getD 1 []) :=
    withParms_numeral e parms (by decide)
  have hsame : (e.withParms (parms.map numeral)).setMargins =
      e.withParms (parms.map numeral) := by
    apply setMargins_current
    rw [h0, h1]
    exact hcur
  rw [hsame]
  constructor
  · intro h
    exact ⟨⟨h.legal.top, h.legal.order, h.legal.bottom⟩, h.home⟩
  · rintro ⟨hlegal, hhome⟩
    refine ⟨rfl, ⟨hlegal.top, hlegal.order, hlegal.bottom⟩, ?_, hhome⟩
    intro hlt hle hpos
    obtain ⟨hc0, hc1⟩ := hcur
    have htop := hlegal.top
    have horder := hlegal.order
    have hbot := hlegal.bottom
    have hd0 := getD_digits hds 0
    have hd1 := getD_digits hds 1
    have hz0 : decimal (parms.getD 0 []) ≠ 0 := by
      intro hzero
      have hread := numeral_of_zero hd0 hzero
      omega
    have hz1 : decimal (parms.getD 1 []) ≠ 0 := by
      intro hzero
      have hread := numeral_of_zero hd1 hzero
      omega
    rw [requestedTop, if_neg hz0] at hlt hpos ⊢
    rw [requestedBottom, if_neg hz1] at hlt hle ⊢
    have hr0 := numeral_eq hd0 (nonempty_of_decimal hz0) (by omega)
    have hr1 := numeral_eq_short hd1 (nonempty_of_decimal hz1) (by omega)
    rcases Nat.lt_or_ge 32767 (decimal (parms.getD 1 [])) with hbig | hsmall
    · have hmax : decimal (parms.getD 1 []) = 32768 := by omega
      rw [hmax] at hr1
      have hneg : numeral (parms.getD 1 []) = -32768 := hr1.trans (by decide)
      omega
    · rw [short_eq (by omega) (by omega)] at hr1
      change e.top = _ ∧ e.bottom = _
      omega

end Home

/-- A request for a scrolling region is met, with the cursor sent home, if and only if it is
not for the region that there is, or that is legal and the cursor is at home already. -/
theorem set_region_homes_iff (before : UInt8) (e : Emulation τ) (hground : e.Ground)
    (hl : 1 ≤ e.buf.lines) (hlines : e.buf.lines ≤ 32767) (parms : List (List UInt8))
    (hne : parms ≠ []) (hlen : parms.length ≤ 16) (hds : ∀ ds ∈ parms, ∀ c ∈ ds, IsDigit c) :
    (∃ e', Emulation.VSem before e (csiText parms 0x72) = some e' ∧
        RegionSet e.buf.lines parms e') ↔
      ¬RequestsCurrent e parms ∨ LegalMargins e ∧ HomePosition e := by
  have hfinal : (e.withParms (parms.map numeral)).csi repeated e.lastColumn 0 0x72 =
      .shortCut (e.withParms (parms.map numeral)).setMargins := rfl
  have hrun := VSem_csiText before hground hne hlen hds hfinal
  have hset : (∃ e', Emulation.VSem before e (csiText parms 0x72) = some e' ∧
      RegionSet e.buf.lines parms e') ↔
        RegionSet e.buf.lines parms (e.withParms (parms.map numeral)).setMargins := by
    rw [hrun, ← regionSet_ended e.buf.lines parms _ 0x72]
    constructor
    · rintro ⟨e', he, h⟩
      rw [Option.some.inj he]
      exact h
    · intro h
      exact ⟨_, rfl, h⟩
  rw [hset]
  by_cases hcur : RequestsCurrent e parms
  · rw [regionSet_current hlines hds hcur]
    constructor
    · exact Or.inr
    · exact fun h => h.resolve_left fun hn => hn hcur
  · constructor
    · exact fun _ => Or.inl hcur
    · exact fun _ => regionSet_new hl hlines hds hcur

/-- A new screen of three rows, with the cursor in column `x` of the first one. -/
def threeRowsEmulation (x : Int) : Emulation Unit := newEmulation none (threeRowsFull x)

/-- The last two rows become the scrolling region. -/
theorem set_region_homes_cursor :
    ∃ e', Emulation.VSem 0 (threeRowsEmulation 4) (csiText [[0x32], [0x33]] 0x72) = some e' ∧
      RegionSet 2 [[0x32], [0x33]] e' :=
  (set_region_homes_iff 0 (threeRowsEmulation 4) (newEmulation_ground _ _) (by decide) (by decide)
    [[0x32], [0x33]] (by decide) (by decide) (parms_of_all (by decide))).mpr
    (Or.inl (by decide))

/-- The region that the screen has already leaves the cursor where it is. -/
theorem set_current_region_keeps_cursor :
    (Emulation.VSem 0 (threeRowsEmulation 4) (csiText [[0x31], [0x33]] 0x72)).map
        (fun e => (e.top, e.bottom, e.x, e.y)) = some (0, 2, 4, 0) ∧
      ¬∃ e', Emulation.VSem 0 (threeRowsEmulation 4) (csiText [[0x31], [0x33]] 0x72) = some e' ∧
        RegionSet 2 [[0x31], [0x33]] e' := by
  have hrun : (Emulation.VSem 0 (threeRowsEmulation 4) (csiText [[0x31], [0x33]] 0x72)).map
      (fun e => (e.top, e.bottom, e.x, e.y)) = some (0, 2, 4, 0) := by decide
  refine ⟨hrun, ?_⟩
  rintro ⟨e', he, hset⟩
  rw [he] at hrun
  have hx : e'.x = 4 := congrArg (fun q => q.2.2.1) (Option.some.inj hrun)
  have hhome := hset.home.1
  omega

end VS
