import MacSSH.CharacterAttributes

/-! A list of attributes in one control sequence against one sequence for each of them. -/
namespace VS

open Linked Masked

variable {τ : Type}

/-- The attributes `ps`, in one sequence each. -/
def oneByOne (before : UInt8) : Emulation τ → List (List UInt8) → Option (Emulation τ)
  | e, [] => some e
  | e, ds :: later =>
    (Emulation.VSem before e (csiText [ds] 0x6d)).bind fun e => oneByOne before e later

/-- The list of attributes leaves the writing attribute that they leave one by one. -/
def Composes (before : UInt8) (e : Emulation τ) (ps : List (List UInt8)) : Prop :=
  ∃ e₁ e₂, Emulation.VSem before e (csiText ps 0x6d) = some e₁ ∧ oneByOne before e ps = some e₂ ∧
    e₁.attrib = e₂.attrib

/-- The write of an attribute in a sequence of its own: a missing one is a reset, and the
mark of a private sequence is none. -/
def singleWrite (g : Bool) (v : Int) : Write 32 :=
  if v = -2 then ⟨BitVec.allOnes 32, 0⟩ else graphicsWrite g (if v < 0 then 0 else v)

/-- A bit of the writing attribute is on behind the parameters `pre` of a list. -/
def OnAfter (g : Bool) (a : BitVec 32) (i : ℕ) (pre : List Int) : Prop :=
  standing (fun v => (graphicsWrite g v).bit i) (a.getLsbD i) pre = true

/-- A missing parameter before the last one meets a bit that it should clear, and nothing
behind it in `init` writes that bit. -/
def ResetMissed (g : Bool) (a : BitVec 32) (i : ℕ) (init : List Int) : Prop :=
  ∃ pre x post, init = pre ++ x :: post ∧ (x < 0 ∧ x ≠ -2) ∧
    (graphicsWrite g 0).bit i = some false ∧ (∀ y ∈ post, (graphicsWrite g y).bit i = none) ∧
    OnAfter g a i pre

/-- When a list composes: missing parameters before the last one have nothing to reset that the
last one does not write. A list with the mark of a private sequence as its first parameter is
ignored, so that the others must not change anything; as the last one of several it is a reset,
so that there must be nothing left to reset. -/
def ListComposes (g : Bool) (a : BitVec 32) (vs : List Int) : Prop :=
  if vs.getD 0 (-1) = -2 then
    ∀ i < 32, standing (fun v => (singleWrite g v).bit i) (a.getLsbD i) vs = a.getLsbD i
  else if vs.getLastD 0 = -2 then
    ∀ i < 32, (graphicsWrite g 0).bit i = some false →
      standing (fun v => (singleWrite g v).bit i) (a.getLsbD i) vs.dropLast = false
  else
    ∀ i < 32, (graphicsWrite g (max (vs.getLastD 0) 0)).bit i ≠ none ∨
      ¬ResetMissed g a i vs.dropLast

section Lists

theorem foldl_range {α β : Type} (f : β → α → β) (l : List α) (d : α) (b : β) :
    (List.range l.length).foldl (fun b k => f b (l.getD k d)) b = l.foldl f b := by
  have hl : (List.range l.length).map (fun k => l.getD k d) = l := by
    apply List.ext_getElem
    · simp
    · intro k h1 h2
      simp [h2]
  conv_rhs => rw [← hl, List.foldl_map]

variable (e : Emulation τ)

/-- The writing attribute behind a list of attributes. -/
theorem attributes_attrib {vs : List Int} {v : Int} (hvs : vs.length < 16) :
    (e.withParms (vs ++ [v])).attributes.attrib =
      if (vs ++ [v]).getD 0 (-1) = -2 then e.attrib
      else
        sgr e.ansiGraphics (vs.foldl (sgr e.ansiGraphics) e.attrib) (if v < 0 then 0 else v) := by
  have h0 : (e.withParms (vs ++ [v])).parms 0 = (vs ++ [v]).getD 0 (-1) :=
    withParms_parms e (by decide)
  have hlast : (e.withParms (vs ++ [v])).parms (vs.length : ℕ) = v := by
    rw [withParms_parms e hvs]
    simp
  have hdefault : (if v < 0 then (e.withParms (vs ++ [v])).parm (vs.length : ℕ) 0
      else e.withParms (vs ++ [v])) = e.withParms (vs ++ [if v < 0 then 0 else v]) := by
    split_ifs
    · exact withParms_parm e v 0 hvs
    · rfl
  rw [Emulation.attributes, h0]
  by_cases hpriv : (vs ++ [v]).getD 0 (-1) = -2
  · rw [if_pos hpriv, if_pos hpriv]
    rfl
  · rw [if_neg hpriv, if_neg hpriv, withParms_last, hlast, hdefault]
    generalize (if v < 0 then (0 : Int) else v) = w
    change (loopRange 0 (e.withParms (vs ++ [w])).parmptr).foldl
      (fun a i => sgr e.ansiGraphics a ((e.withParms (vs ++ [w])).parms i)) e.attrib = _
    have hrange : loopRange 0 (e.withParms (vs ++ [w])).parmptr =
        (List.range (vs ++ [w]).length).map fun k : ℕ => (0 : Int)+k := by
      rw [loopRange, withParms_last]
      congr 2
      simp
    have hcongr : (List.range (vs ++ [w]).length).foldl
          (fun a (k : ℕ) => sgr e.ansiGraphics a ((e.withParms (vs ++ [w])).parms (0+(k : Int))))
          e.attrib =
        (List.range (vs ++ [w]).length).foldl
          (fun a k => sgr e.ansiGraphics a ((vs ++ [w]).getD k (-1))) e.attrib := by
      apply List.foldl_ext
      intro a k hk
      rw [Int.zero_add, withParms_parms e]
      simp at hk
      omega
    rw [hrange, List.foldl_map, hcongr, foldl_range, List.foldl_append]
    rfl

/-- The list of attributes in a chunk of its own. -/
theorem VSem_attributes (before : UInt8) (hground : e.Ground) {ps : List (List UInt8)}
    (hne : ps ≠ []) (hlen : ps.length ≤ 16) (hds : ∀ ds ∈ ps, ∀ c ∈ ds, IsDigit c) :
    ∃ e', Emulation.VSem before e (csiText ps 0x6d) = some e' ∧ e'.Ground ∧
      e'.ansiGraphics = e.ansiGraphics ∧
      e'.attrib = (e.withParms (ps.map numeral)).attributes.attrib := by
  have hfinal : (e.withParms (ps.map numeral)).csi repeated e.lastColumn 0 0x6d =
      .shortCut (e.withParms (ps.map numeral)).attributes := rfl
  obtain ⟨force, hended⟩ := ended_form (e.withParms (ps.map numeral)).attributes 0x6d
  have hkept : (e.withParms (ps.map numeral)).attributes.printer = e.printer ∧
      (e.withParms (ps.map numeral)).attributes.tw = e.tw := by
    simp only [Emulation.attributes]
    split_ifs <;> exact ⟨rfl, rfl⟩
  refine ⟨_, VSem_csiText before hground hne hlen hds hfinal, ?_⟩
  rw [hended]
  refine ⟨⟨rfl, ?_⟩, ?_, rfl⟩
  · change (e.withParms (ps.map numeral)).attributes.printer.prredirect = false
    rw [hkept.1]
    exact hground.screen
  · change Emulation.ansiGraphics (e.withParms (ps.map numeral)).attributes = e.ansiGraphics
    rw [Emulation.ansiGraphics, hkept.2]
    rfl

/-- One attribute in a sequence of its own. -/
theorem single_attrib (g : Bool) (v : Int) :
    (if v = -2 then e.attrib else sgr g e.attrib (if v < 0 then 0 else v)) =
      (singleWrite g v).apply e.attrib := by
  rw [singleWrite]
  split_ifs
  · exact (apply_none _).symm
  · exact sgr_eq_apply ..
  · exact sgr_eq_apply ..

/-- The attributes one by one. -/
theorem oneByOne_attrib (before : UInt8) (hground : e.Ground) {ps : List (List UInt8)}
    (hds : ∀ ds ∈ ps, ∀ c ∈ ds, IsDigit c) :
    ∃ e', oneByOne before e ps = some e' ∧
      e'.attrib = (ps.map numeral).foldl (fun a v => (singleWrite e.ansiGraphics v).apply a)
        e.attrib := by
  induction ps generalizing e with
  | nil => exact ⟨e, rfl, rfl⟩
  | cons ds later ih =>
    have hne : [ds] ≠ [] := List.cons_ne_nil _ _
    obtain ⟨e₁, hrun, hground₁, hgraph, hattrib⟩ := VSem_attributes e before hground hne (by simp)
      (by simpa using hds ds List.mem_cons_self)
    obtain ⟨e₂, hlater, hattrib₂⟩ := ih e₁ hground₁ fun p hp => hds p (List.mem_cons_of_mem _ hp)
    refine ⟨e₂, ?_, ?_⟩
    · rw [oneByOne, hrun]
      exact hlater
    · have hone := @attributes_attrib τ e [] (numeral ds) (by decide)
      rw [hattrib₂, hgraph, hattrib]
      change _ = (later.map numeral).foldl _ _
      congr 1
      exact hone.trans (single_attrib e e.ansiGraphics (numeral ds))

end Lists

section Bits
variable (g : Bool) (a : BitVec 32)

theorem reset_bit (i : ℕ) :
    (graphicsWrite g 0).bit i = none ∨ (graphicsWrite g 0).bit i = some false := by
  have hput : (0 : BitVec 32).getLsbD i = false := BitVec.getLsbD_zero
  have hreset : graphicsWrite g 0 = ⟨kVSansi2b ||| kVSgrph, 0⟩ := if_pos rfl
  rw [hreset, Write.bit, if_neg (by rw [hput]; decide)]
  split_ifs
  · exact Or.inl rfl
  · exact Or.inr rfl

/-- A parameter in a list and in a sequence of its own: the second one may clear what the
first one keeps. -/
theorem single_bit {i : ℕ} (hi : i < 32) (v : Int) :
    (singleWrite g v).bit i = (graphicsWrite g v).bit i ∧
        ¬((v < 0 ∧ v ≠ -2) ∧ (graphicsWrite g 0).bit i = some false) ∨
      (graphicsWrite g v).bit i = none ∧ (singleWrite g v).bit i = some false ∧
        (v < 0 ∧ v ≠ -2) ∧ (graphicsWrite g 0).bit i = some false := by
  rw [singleWrite]
  by_cases hpriv : v = -2
  · subst hpriv
    rw [if_pos rfl, graphicsWrite_out g (by omega)]
    exact Or.inl ⟨rfl, fun h => h.1.2 rfl⟩
  · rw [if_neg hpriv]
    by_cases hneg : v < 0
    · rw [if_pos hneg, graphicsWrite_out g (Or.inl hneg), write_none hi]
      rcases reset_bit g i with h | h
      · rw [h]
        exact Or.inl ⟨rfl, by simp⟩
      · exact Or.inr ⟨rfl, h, ⟨hneg, hpriv⟩, h⟩
    · rw [if_neg hneg]
      exact Or.inl ⟨rfl, fun h => hneg h.1.1⟩

theorem resetMissed_iff {i : ℕ} (hi : i < 32) (init : List Int) :
    standing (fun v => (graphicsWrite g v).bit i) (a.getLsbD i) init =
        standing (fun v => (singleWrite g v).bit i) (a.getLsbD i) init ↔
      ¬ResetMissed g a i init := by
  have huv (v : Int) : (singleWrite g v).bit i = (graphicsWrite g v).bit i ∨
      (graphicsWrite g v).bit i = none ∧ (singleWrite g v).bit i = some false := by
    rcases single_bit g hi v with ⟨h, -⟩ | ⟨h1, h2, -⟩
    · exact Or.inl h
    · exact Or.inr ⟨h1, h2⟩
  rw [standing_eq_iff huv, not_iff_not]
  constructor
  · rintro ⟨pre, x, post, hsplit, hx, hclear, hpost, hon⟩
    rcases single_bit g hi x with ⟨h, -⟩ | ⟨-, -, hneg, hreset⟩
    · rw [h, hx] at hclear
      cases hclear
    · exact ⟨pre, x, post, hsplit, hneg, hreset, hpost, hon⟩
  · rintro ⟨pre, x, post, hsplit, hneg, hreset, hpost, hon⟩
    rcases single_bit g hi x with ⟨-, h⟩ | ⟨hx, hclear, -⟩
    · exact absurd ⟨hneg, hreset⟩ h
    · exact ⟨pre, x, post, hsplit, hx, hclear, hpost, hon⟩

/-- The attribute behind a list is that behind its parameters one by one. -/
theorem listComposes_iff (init : List Int) (last : Int) :
    (if (init ++ [last]).getD 0 (-1) = -2 then a
        else sgr g (init.foldl (sgr g) a) (if last < 0 then 0 else last)) =
      (init ++ [last]).foldl (fun a v => (singleWrite g v).apply a) a ↔
      ListComposes g a (init ++ [last]) := by
  have hmax : (if last < 0 then 0 else last) = max last 0 := by split_ifs <;> omega
  rw [ListComposes, List.getLastD_concat, List.dropLast_concat, hmax]
  by_cases hpriv : (init ++ [last]).getD 0 (-1) = -2
  · rw [if_pos hpriv, if_pos hpriv, BitVec.eq_of_getLsbD_eq_iff]
    simp only [getLsbD_foldl]
    exact forall₂_congr fun i _ => eq_comm
  rw [if_neg hpriv, if_neg hpriv, BitVec.eq_of_getLsbD_eq_iff]
  simp only [sgr_eq_apply, getLsbD_apply, foldl_sgr_bit, getLsbD_foldl, standing_concat]
  by_cases hlast : last = -2
  · rw [if_pos hlast]
    apply forall₂_congr
    intro i hi
    have hnone : (singleWrite g last).bit i = none := by
      rw [singleWrite, if_pos hlast, write_none hi]
    rw [hnone, hlast]
    change ((graphicsWrite g 0).bit i).getD _ = _ ↔ _
    rcases reset_bit g i with h | h
    · -- the list resets no bit that the single parameters would keep
      rw [h]
      refine iff_of_true ?_ fun h' => by cases h'
      have hmissed : ¬ResetMissed g a i init := by
        rintro ⟨-, -, -, -, -, hreset, -⟩
        rw [h] at hreset
        cases hreset
      exact (resetMissed_iff g a hi init).mpr hmissed
    · rw [h]
      exact ⟨fun h' _ => h'.symm, fun h' => (h' rfl).symm⟩
  · rw [if_neg hlast]
    apply forall₂_congr
    intro i hi
    have hwrite : singleWrite g last = graphicsWrite g (max last 0) := by
      rw [singleWrite, if_neg hlast, hmax]
    rw [hwrite]
    cases hbit : (graphicsWrite g (max last 0)).bit i with
    | some c => exact iff_of_true rfl (Or.inl (by simp))
    | none =>
      rw [← resetMissed_iff g a hi init]
      exact ⟨Or.inr, fun h => h.resolve_left fun h' => h' rfl⟩

end Bits

/-- A list of at most sixteen attributes leaves the writing attribute that they leave one by
one, if and only if none that is missing before the last one has anything to reset. -/
theorem attribute_list_iff (before : UInt8) (e : Emulation τ) (hground : e.Ground)
    (ps : List (List UInt8)) (hne : ps ≠ []) (hlen : ps.length ≤ 16)
    (hds : ∀ ds ∈ ps, ∀ c ∈ ds, IsDigit c) :
    Composes before e ps ↔ ListComposes e.ansiGraphics e.attrib (ps.map numeral) := by
  obtain ⟨e₁, hlist, -, -, hattrib₁⟩ := VSem_attributes e before hground hne hlen hds
  obtain ⟨e₂, hsingle, hattrib₂⟩ := oneByOne_attrib e before hground hds
  have hsame : Composes before e ps ↔ e₁.attrib = e₂.attrib := by
    constructor
    · rintro ⟨e₁', e₂', h₁, h₂, h⟩
      rw [hlist] at h₁
      rw [hsingle] at h₂
      rw [Option.some.inj h₁, Option.some.inj h₂]
      exact h
    · intro h
      exact ⟨e₁, e₂, hlist, hsingle, h⟩
  rw [hsame, hattrib₁, hattrib₂]
  obtain ⟨init, last, hvs⟩ : ∃ init last, ps.map numeral = init ++ [last] := by
    rcases List.eq_nil_or_concat (ps.map numeral) with h | ⟨init, last, h⟩
    · exact absurd (List.map_eq_nil_iff.mp h) hne
    · exact ⟨init, last, by rw [h, List.concat_eq_append]⟩
  have hinit : init.length < 16 := by
    have hcount := congrArg List.length hvs
    rw [List.length_map, List.length_append, List.length_singleton] at hcount
    omega
  rw [hvs, attributes_attrib e hinit]
  exact listComposes_iff e.ansiGraphics e.attrib init last

/-- With every parameter given, but perhaps the last one, a list composes. -/
theorem listComposes_of_given (g : Bool) (a : BitVec 32) {init : List Int} {last : Int}
    (hinit : ∀ v ∈ init, 0 ≤ v) (hlast : last ≠ -2) : ListComposes g a (init ++ [last]) := by
  have hfirst : (init ++ [last]).getD 0 (-1) ≠ -2 := by
    cases init with
    | nil => exact hlast
    | cons v init =>
      have hv := hinit v List.mem_cons_self
      change v ≠ -2
      omega
  rw [ListComposes, List.getLastD_concat, List.dropLast_concat, if_neg hfirst, if_neg hlast]
  intro i _
  right
  rintro ⟨pre, x, post, hsplit, hx, -⟩
  have hmem : x ∈ init := by
    rw [hsplit]
    simp
  have hpos := hinit x hmem
  omega

/-- A new screen of three rows in a window with colours. -/
def colouredEmulation : Emulation Unit :=
  newEmulation (some (plainWindow false)) (threeRowsFull 0)

/-- Bold, red, and a reset at the end. -/
theorem bold_red_reset_composes : Composes 0 colouredEmulation [[0x31], [0x33, 0x31], []] :=
  (attribute_list_iff 0 colouredEmulation (newEmulation_ground _ _) [[0x31], [0x33, 0x31], []]
    (by decide) (by decide) (parms_of_all (by decide))).mpr
    (@listComposes_of_given _ _ [1, 31] (-1) (by decide) (by decide))

/-- A missing attribute in the middle of a list is no reset. -/
theorem missing_attribute_is_no_reset :
    (Emulation.VSem 0 colouredEmulation (csiText [[0x31], [], [0x34]] 0x6d)).map (·.attrib) =
        some 9 ∧
      (oneByOne 0 colouredEmulation [[0x31], [], [0x34]]).map (·.attrib) = some 8 ∧
      ¬Composes 0 colouredEmulation [[0x31], [], [0x34]] := by
  have hlist : (Emulation.VSem 0 colouredEmulation (csiText [[0x31], [], [0x34]] 0x6d)).map
      (·.attrib) = some 9 := by decide
  have hsingle : (oneByOne 0 colouredEmulation [[0x31], [], [0x34]]).map (·.attrib) = some 8 := by
    decide
  refine ⟨hlist, hsingle, ?_⟩
  rintro ⟨e₁, e₂, h₁, h₂, h⟩
  rw [h₁] at hlist
  rw [h₂] at hsingle
  have h9 : e₁.attrib = 9 := Option.some.inj hlist
  have h8 : e₂.attrib = 8 := Option.some.inj hsingle
  rw [h9, h8] at h
  exact absurd h (by decide)

end VS
