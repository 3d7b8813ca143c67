import MacSSH.CursorMotion
import MacSSH.EmulationSteps

/-! The cursor is sent to where the mouse is, by the sequences of the arrow keys. -/
namespace VS

open Linked

variable {τ : Type}

/-- `while (n < 0) { n++; RSsendstring(seq); }` -/
def sendUp (seq : List UInt8) : ℕ → Int × List (List UInt8) → Int × List (List UInt8)
  | 0, p => p
  | fuel+1, (n, sent) =>
    if n < 0 then sendUp seq fuel (n+1, sent ++ [seq]) else (n, sent)

/-- `while (n > 0) { n--; RSsendstring(seq); }` -/
def sendDown (seq : List UInt8) : ℕ → Int × List (List UInt8) → Int × List (List UInt8)
  | 0, p => p
  | fuel+1, (n, sent) =>
    if n > 0 then sendDown seq fuel (n-1, sent ++ [seq]) else (n, sent)

namespace Emulation

/-- Send the cursor to `(x, y)`: the sequences that are sent, and the screen behind them. -/
def VSpossend (e : Emulation τ) (x y : Int) (echo : Bool) : List (List UInt8) × Emulation τ :=
  let vskptr : List UInt8 := if e.DECPAM ∧ e.DECCKM then [0x1b, 0x4f] else [0x1b, 0x5b]
  if x < 0 ∨ y < 0 ∨ x > e.maxwidth ∨ y > e.buf.lines then ([], e)
  else
    let x := short (x-e.x)
    let y := short (y-e.y)
    let (x, sent) := sendUp (vskptr ++ [0x44]) x.natAbs (x, [])
    let (y, sent) := sendDown (vskptr ++ [0x42]) y.natAbs (y, sent)
    let (y, sent) := sendUp (vskptr ++ [0x41]) y.natAbs (y, sent)
    let (x, sent) := sendDown (vskptr ++ [0x43]) x.natAbs (x, sent)
    -- the distances have been counted down to zero here
    (sent, if echo then { e with x := x, y := y } else e)

end Emulation

/-- The sequences lead the cursor to `(x, y)`, in whatever chunks they come back, and with
local echo it is there at once. -/
def ClickMoves (e : Emulation τ) (x y : Int) (echo : Bool) : Prop :=
  (∀ chunks : List (UInt8 × List (List UInt8)),
      chunks.flatMap Prod.snd = (e.VSpossend x y echo).1 →
      ∃ e', VSemRun e (chunks.map fun c => (c.1, c.2.flatten)) = some e' ∧ e'.x = x ∧ e'.y = y) ∧
    (echo = true → (e.VSpossend x y echo).2.x = x ∧ (e.VSpossend x y echo).2.y = y)

/-- The screen and the target of a click: there are no lines of double height, the cursor keys
send control sequences, and both rows are inside the margins. -/
structure Clicked (e : Emulation τ) (x y : Int) : Prop where
  ground : e.Ground
  single : VSisdecdwh e.lattrib = false
  cursorKeys : ¬(e.DECPAM = true ∧ e.DECCKM = true)
  screen : CursorOnScreen e
  row : e.top ≤ e.y ∧ e.y ≤ e.bottom
  targetRow : e.top ≤ y ∧ y ≤ e.bottom
  targetColumn : 0 ≤ x ∧ x ≤ e.maxwidth

section Loops
variable (seq : List UInt8) (sent : List (List UInt8))

theorem sendUp_neg (k : ℕ) {n : Int} (hn : n = -k) :
    sendUp seq k (n, sent) = (0, sent ++ List.replicate k seq) := by
  induction k generalizing n sent with
  | zero =>
    rw [sendUp, List.replicate_zero, List.append_nil, hn]
    rfl
  | succ k ih =>
    rw [sendUp, if_pos (by omega), ih (sent ++ [seq]) (by omega), List.append_assoc,
      List.singleton_append, List.replicate_succ]

theorem sendUp_nonneg (k : ℕ) {n : Int} (hn : 0 ≤ n) : sendUp seq k (n, sent) = (n, sent) := by
  cases k with
  | zero => rfl
  | succ k => rw [sendUp, if_neg (not_lt.mpr hn)]

theorem sendDown_pos (k : ℕ) {n : Int} (hn : n = k) :
    sendDown seq k (n, sent) = (0, sent ++ List.replicate k seq) := by
  induction k generalizing n sent with
  | zero =>
    rw [sendDown, List.replicate_zero, List.append_nil, hn]
    rfl
  | succ k ih =>
    rw [sendDown, if_pos (by omega), ih (sent ++ [seq]) (by omega), List.append_assoc,
      List.singleton_append, List.replicate_succ]

theorem sendDown_nonpos (k : ℕ) {n : Int} (hn : n ≤ 0) :
    sendDown seq k (n, sent) = (n, sent) := by
  cases k with
  | zero => rfl
  | succ k => rw [sendDown, if_neg (not_lt.mpr hn)]

/-- Both loops together count any distance down to zero. -/
theorem sendUp_eq (n : Int) : sendUp seq n.natAbs (n, sent) =
    (max n 0, sent ++ List.replicate (-n).toNat seq) := by
  rcases le_or_gt 0 n with hn | hn
  · rw [sendUp_nonneg _ _ _ hn, show (-n).toNat = 0 by omega, List.replicate_zero, List.append_nil,
      max_eq_left hn]
  · rw [show n.natAbs = (-n).toNat by omega, sendUp_neg _ _ _ (by omega), max_eq_right hn.le]

theorem sendDown_eq (n : Int) : sendDown seq n.natAbs (n, sent) =
    (min n 0, sent ++ List.replicate n.toNat seq) := by
  rcases le_or_gt n 0 with hn | hn
  · rw [sendDown_nonpos _ _ _ hn, show n.toNat = 0 by omega, List.replicate_zero, List.append_nil,
      min_eq_left hn]
  · rw [show n.natAbs = n.toNat by omega, sendDown_pos _ _ _ (by omega), min_eq_right hn.le]

end Loops

/-- The sequence of an arrow key. -/
def arrow (c : UInt8) : List UInt8 := [0x1b, 0x5b, c]

/-- The letters of the arrow keys that are sent. -/
def arrows (e : Emulation τ) (x y : Int) : List UInt8 :=
  List.replicate (e.x-x).toNat 0x44 ++ List.replicate (y-e.y).toNat 0x42 ++
    List.replicate (e.y-y).toNat 0x41 ++ List.replicate (x-e.x).toNat 0x43

section Clicks
variable {e : Emulation τ} {x y : Int}

theorem VSpossend_eq (h : Clicked e x y) (echo : Bool) :
    e.VSpossend x y echo = ((arrows e x y).map arrow,
      if echo then { e with x := 0, y := 0 } else e) := by
  obtain ⟨-, -, hkeys, ⟨hmargins, hlines, hrow, hcolumn, hwidth⟩, hy, hty, htx⟩ := h
  have htop := hmargins.top
  have hbottom := hmargins.bottom
  have hx : short (x-e.x) = x-e.x := short_eq (by omega) (by omega)
  have hy : short (y-e.y) = y-e.y := short_eq (by omega) (by omega)
  rw [Emulation.VSpossend, if_neg hkeys, if_neg (by omega)]
  simp only [hx, hy, sendUp_eq, sendDown_eq]
  have hleft : (-(x-e.x)).toNat = (e.x-x).toNat := by omega
  have hdown : (max (x-e.x) 0).toNat = (x-e.x).toNat := by omega
  have hup : (-min (y-e.y) 0).toNat = (e.y-y).toNat := by omega
  have hzero : min (max (x-e.x) 0) 0 = 0 := by omega
  have hzero' : max (min (y-e.y) 0) 0 = 0 := by omega
  rw [hleft, hdown, hup, hzero, hzero']
  simp only [arrows, List.map_append, List.map_replicate, List.nil_append, arrow,
    List.cons_append, List.append_assoc]

end Clicks

/-- The emulation `e` with the cursor at `p`, between sequences. -/
def MovedTo (e e' : Emulation τ) (p : Int × Int) : Prop :=
  ∃ parms parmptr force escflags, e' = { e with
    x := p.1, y := p.2, parms := parms, parmptr := parmptr, possibleForce := force
    escflg := .esc_root, escflags := escflags }

/-- The key `c` moves the cursor from `p` to `q`. -/
def ArrowStep (e : Emulation τ) (p : Int × Int) (c : UInt8) (q : Int × Int) : Prop :=
  ∀ e', MovedTo e e' p → ∃ e'',
    e'.VSIapclear.csi repeated e.lastColumn 0 c = .shortCut e'' ∧ MovedTo e e'' q

/-- The keys move the cursor from one place to another. -/
inductive ArrowPath (e : Emulation τ) : Int × Int → List UInt8 → Int × Int → Prop where
  | nil (p : Int × Int) : ArrowPath e p [] p
  | cons {p q r : Int × Int} {c : UInt8} {cs : List UInt8} (step : ArrowStep e p c q)
      (rest : ArrowPath e q cs r) : ArrowPath e p (c :: cs) r

section Paths
variable {e : Emulation τ} {p q r : Int × Int} {cs cs' : List UInt8}

theorem ArrowPath.append (h : ArrowPath e p cs q) (h' : ArrowPath e q cs' r) :
    ArrowPath e p (cs ++ cs') r := by
  induction h with
  | nil p => exact h'
  | cons step rest ih => exact ArrowPath.cons step (ih h')

theorem ArrowPath.split (h : ArrowPath e p (cs ++ cs') r) :
    ∃ q, ArrowPath e p cs q ∧ ArrowPath e q cs' r := by
  induction cs generalizing p with
  | nil => exact ⟨p, ArrowPath.nil p, h⟩
  | cons c cs ih =>
    cases h with
    | cons step rest =>
      obtain ⟨q, hfirst, hlater⟩ := ih rest
      exact ⟨q, ArrowPath.cons step hfirst, hlater⟩

/-- A key that is pressed `n` times moves by `n`. -/
theorem ArrowPath.times {c : UInt8} (place : ℕ → Int × Int) (n : ℕ)
    (hstep : ∀ i < n, ArrowStep e (place i) c (place (i+1))) :
    ArrowPath e (place 0) (List.replicate n c) (place n) := by
  induction n with
  | zero => exact ArrowPath.nil _
  | succ n ih =>
    rw [List.replicate_succ']
    have hfirst := ih fun i hi => hstep i (Nat.lt_succ_of_lt hi)
    exact hfirst.append (ArrowPath.cons (hstep n (Nat.lt_succ_self n)) (ArrowPath.nil _))

/-- A cursor on the screen stays where it is. -/
theorem VSIrange_inside (hx : 0 ≤ e.x ∧ e.x ≤ e.lastColumn+if e.DECAWM then 1 else 0)
    (hy : 0 ≤ e.y ∧ e.y ≤ e.buf.lines) : e.VSIrange = e := by
  simp only [Emulation.VSIrange]
  rw [if_neg (not_lt.mpr hx.1), if_neg (not_lt.mpr hx.2), if_neg (not_lt.mpr hy.1),
    if_neg (not_lt.mpr hy.2)]

/-- The places that the keys may move the cursor to: inside the margins, on a column or just
behind the last one. -/
structure InReach (e : Emulation τ) (p : Int × Int) : Prop where
  column : 0 ≤ p.1 ∧ p.1 ≤ e.lastColumn+if e.DECAWM then 1 else 0
  row : e.top ≤ p.2 ∧ p.2 ≤ e.bottom

variable (hm : LegalMargins e)

include hm in
theorem InReach.inside (h : InReach e p) {e' : Emulation τ} (he : MovedTo e e' p) :
    e'.VSIrange = e' := by
  obtain ⟨parms, parmptr, force, escflags, rfl⟩ := he
  have htop := hm.top
  have hbottom := hm.bottom
  have hrow := h.row
  apply VSIrange_inside
  · exact h.column
  · change 0 ≤ p.2 ∧ p.2 ≤ e.buf.lines
    omega

/-- The emulation behind the introducer of a sequence, with the cursor at `q`. -/
def behindKey (e : Emulation τ) (parms : Int → Int) (force : Bool) (escflags : ℕ)
    (q : Int × Int) : Emulation τ :=
  { e with
    x := q.1, y := q.2, parms := fun i => if 0 ≤ i ∧ i < Emulation.maxparms then -1 else parms i
    parmptr := 0, possibleForce := force, escflg := .esc_root, escflags := escflags }

theorem behindKey_moved (parms : Int → Int) (force : Bool) (escflags : ℕ) (q : Int × Int) :
    MovedTo e (behindKey e parms force escflags q) q := ⟨_, _, _, _, rfl⟩

theorem goRight_eq {e₁ : Emulation τ} {mw n : Int}
    (h : Emulation.VSIrange { e with x := short (e.x+n) } = e₁) (hx : e₁.x ≤ mw) :
    e.goRight mw n = e₁ := by
  simp only [Emulation.goRight]
  rw [h, if_neg (not_lt.mpr hx)]

/-- A key does what it should if its function, with the count of one, leads to `q`. -/
theorem arrowStep_of {c : UInt8}
    (h : ∀ parms force escflags,
      (behindKey e parms force escflags p).csi repeated e.lastColumn 0 c =
        .shortCut (behindKey e parms force escflags q)) : ArrowStep e p c q := by
  rintro e' ⟨parms, parmptr, force, escflags, rfl⟩
  exact ⟨behindKey e parms force escflags q, h parms force escflags,
    behindKey_moved parms force escflags q⟩

include hm

theorem left_step (hx : 1 ≤ p.1 ∧ p.1 ≤ 32767) (hq : InReach e (p.1-1, p.2)) :
    ArrowStep e p 0x44 (p.1-1, p.2) := by
  apply arrowStep_of
  intro parms force escflags
  have hshort : short (p.1-1) = p.1-1 := short_eq (by omega) (by omega)
  have hnowrap : ¬((behindKey e parms force escflags p).DECAWM = true ∧
      (behindKey e parms force escflags p).x ≤ 0) := by
    rintro ⟨-, hzero⟩
    change p.1 ≤ 0 at hzero
    omega
  apply congrArg Esc.shortCut
  rw [← hq.inside hm (behindKey_moved parms force escflags _), Emulation.cursorLeft]
  rw [if_neg hnowrap]
  change Emulation.VSIrange { behindKey e parms force escflags p with x := short (p.1-1) } = _
  rw [hshort]
  rfl

theorem right_step (hx : p.1+1 ≤ e.lastColumn) (hlast : e.lastColumn ≤ 32767)
    (hq : InReach e (p.1+1, p.2)) : ArrowStep e p 0x43 (p.1+1, p.2) := by
  apply arrowStep_of
  intro parms force escflags
  have hcolumn := hq.column
  simp only at hcolumn
  have hshort : short (p.1+1) = p.1+1 := short_eq (by omega) (by omega)
  have hnowrap : ¬((behindKey e parms force escflags p).DECAWM = true ∧
      (behindKey e parms force escflags p).x ≥ e.lastColumn) := by
    rintro ⟨-, hedge⟩
    change p.1 ≥ e.lastColumn at hedge
    omega
  have hgo : Emulation.VSIrange
      { behindKey e parms force escflags p with x := short (p.1+1) } =
      behindKey e parms force escflags (p.1+1, p.2) := by
    rw [hshort]
    exact hq.inside hm (behindKey_moved parms force escflags (p.1+1, p.2))
  apply congrArg Esc.shortCut
  rw [Emulation.cursorRight]
  rw [if_neg hnowrap]
  exact goRight_eq hgo hx

theorem down_step (hlines : e.buf.lines ≤ 32767) (hp : e.top ≤ p.2)
    (hq : InReach e (p.1, p.2+1)) : ArrowStep e p 0x42 (p.1, p.2+1) := by
  apply arrowStep_of
  intro parms force escflags
  have hbottom := hm.bottom
  have htop := hm.top
  have hrow := hq.row
  simp only at hrow
  have hshort : short (p.2+1) = p.2+1 := short_eq (by omega) (by omega)
  have hkept : (if short (p.2+1) > e.bottom then e.bottom else short (p.2+1)) = p.2+1 := by
    rw [hshort, if_neg (not_lt.mpr hrow.2)]
  apply congrArg Esc.shortCut
  rw [← hq.inside hm (behindKey_moved parms force escflags _)]
  change Emulation.VSIrange { behindKey e parms force escflags p with
    y := if short (p.2+1) > e.bottom then e.bottom else short (p.2+1) } = _
  rw [hkept]
  rfl

theorem up_step (hlines : e.buf.lines ≤ 32767) (hp : p.2 ≤ e.bottom)
    (hq : InReach e (p.1, p.2-1)) : ArrowStep e p 0x41 (p.1, p.2-1) := by
  apply arrowStep_of
  intro parms force escflags
  have hbottom := hm.bottom
  have htop := hm.top
  have hrow := hq.row
  simp only at hrow
  have hshort : short (p.2-1) = p.2-1 := short_eq (by omega) (by omega)
  have hkept : (if (if short (p.2-1) < 0 then 0 else short (p.2-1)) < e.top then e.top
      else if short (p.2-1) < 0 then 0 else short (p.2-1)) = p.2-1 := by
    rw [hshort, if_neg (by omega : ¬p.2-1 < 0), if_neg (not_lt.mpr hrow.1)]
  apply congrArg Esc.shortCut
  rw [← hq.inside hm (behindKey_moved parms force escflags _)]
  change Emulation.VSIrange { behindKey e parms force escflags p with
    y := if (if short (p.2-1) < 0 then 0 else short (p.2-1)) < e.top then e.top
      else if short (p.2-1) < 0 then 0 else short (p.2-1) } = _
  rw [hkept]
  rfl

end Paths

section Runs
variable {e e' : Emulation τ} {p q : Int × Int} {before : UInt8}

theorem MovedTo.ground (h : MovedTo e e' p) (he : e.Ground) : e'.Ground := by
  obtain ⟨parms, parmptr, force, escflags, rfl⟩ := h
  exact ⟨rfl, he.screen⟩

theorem MovedTo.shortCut (h : MovedTo e e' p) (c : UInt8) (rest : List UInt8) :
    ∃ e'', MovedTo e e'' p ∧ e'.shortCut c rest = ⟨e'', .esc_root, 0, rest⟩ := by
  obtain ⟨parms, parmptr, force, escflags, rfl⟩ := h
  rw [Emulation.shortCut]
  split_ifs
  · exact ⟨_, ⟨parms, parmptr, false, escflags, rfl⟩, rfl⟩
  · exact ⟨_, ⟨parms, parmptr, force, escflags, rfl⟩, rfl⟩

/-- One key, in front of more octets. -/
theorem drain_arrow (he : e.Ground) (h : MovedTo e e' p) {c : UInt8} (hstep : ArrowStep e p c q)
    (flags : ℕ) (rest : List UInt8) :
    ∃ e'', MovedTo e e'' q ∧
      drain repeated before ⟨e', .esc_root, flags, arrow c ++ rest⟩ =
        drain repeated before ⟨e'', .esc_root, 0, rest⟩ := by
  obtain ⟨e₁, hcsi, he₁⟩ := hstep e' h
  obtain ⟨e₂, he₂, hshort⟩ := he₁.shortCut c rest
  refine ⟨e₂, he₂, ?_⟩
  have hlast : e'.lastColumn = e.lastColumn := by
    obtain ⟨parms, parmptr, force, escflags, rfl⟩ := h
    rfl
  have hloop : escLoop .esc_csi (Emulation.csi repeated e.lastColumn) e'.VSIapclear .esc_csi 0
      (c :: rest) = .again ⟨e₂, .esc_root, 0, rest⟩ := by
    rw [escLoop, if_pos rfl, hcsi]
    exact congrArg Flow.again hshort
  rw [arrow, drain_step repeated before (List.cons_ne_nil _ _)]
  simp only [List.cons_append, List.nil_append]
  rw [mainLoop_csi repeated before (h.ground he)]
  simp only [Emulation.parts, List.drop_succ_cons, List.drop_zero, Emulation.runParts]
  rw [escPart, hlast]
  simp only
  rw [hloop]
  rfl

/-- The keys of a chunk. -/
theorem VSem_arrows (he : e.Ground) (h : MovedTo e e' p) {cs : List UInt8}
    (hpath : ArrowPath e p cs q) (before : UInt8) :
    ∃ e'', MovedTo e e'' q ∧ Emulation.VSem before e' (cs.map arrow).flatten = some e'' := by
  have hdrain (flags : ℕ) : ∃ pass : Pass τ, MovedTo e pass.final q ∧
      drain repeated before ⟨e', .esc_root, flags, (cs.map arrow).flatten⟩ = some pass := by
    induction hpath generalizing e' flags with
    | nil p =>
      obtain ⟨parms, parmptr, force, escflags, rfl⟩ := h
      exact ⟨_, ⟨parms, parmptr, force, flags, rfl⟩, drain_nil repeated before rfl⟩
    | cons step rest ih =>
      rw [List.map_cons, List.flatten_cons]
      obtain ⟨e₁, he₁, hfirst⟩ := @drain_arrow τ e e' _ _ before he h _ step flags _
      obtain ⟨pass, hpass, hrest⟩ := ih he₁ 0
      exact ⟨pass, hpass, hfirst.trans hrest⟩
  obtain ⟨pass, hpass, hrun⟩ := hdrain e'.escflags
  refine ⟨pass.final, hpass, ?_⟩
  rw [VSem_eq, (h.ground he).root, hrun]
  rfl

/-- The keys, in any chunks. -/
theorem VSemRun_arrows (he : e.Ground) (h : MovedTo e e' p)
    (chunks : List (UInt8 × List (List UInt8))) {cs : List UInt8} (hpath : ArrowPath e p cs q)
    (hsent : chunks.flatMap Prod.snd = cs.map arrow) :
    ∃ e'', MovedTo e e'' q ∧ VSemRun e' (chunks.map fun c => (c.1, c.2.flatten)) = some e'' := by
  induction chunks generalizing e' p cs with
  | nil =>
    have hnil : cs = [] := List.map_eq_nil_iff.mp hsent.symm
    subst hnil
    cases hpath
    exact ⟨e', h, rfl⟩
  | cons chunk chunks ih =>
    rw [List.flatMap_cons] at hsent
    obtain ⟨cs₁, cs₂, rfl, hfirst, hlater⟩ := List.map_eq_append_iff.mp hsent.symm
    obtain ⟨m, hpath₁, hpath₂⟩ := hpath.split
    obtain ⟨e₁, he₁, hchunk⟩ := VSem_arrows he h hpath₁ chunk.1
    obtain ⟨e₂, he₂, hrest⟩ := ih he₁ hpath₂ hlater.symm
    refine ⟨e₂, he₂, ?_⟩
    rw [List.map_cons, VSemRun, ← hfirst, hchunk]
    exact hrest

end Runs

section Clicks
variable {e : Emulation τ} {x y : Int}

theorem Clicked.lastColumn_eq (h : Clicked e x y) : e.lastColumn = e.maxwidth := by
  rw [VSscrn.lastColumn, h.single]
  rfl

/-- From the place of the cursor, the keys lead to the target. -/
theorem arrows_path (h : Clicked e x y)
    (hcolumn : e.x ≤ e.maxwidth+1+if e.DECAWM then 1 else 0) :
    ArrowPath e (e.x, e.y) (arrows e x y) (x, y) := by
  have hlast := h.lastColumn_eq
  obtain ⟨-, -, -, ⟨hmargins, hlines, hrow, hx, hwidth⟩, hy, hty, htx⟩ := h
  have hwrap : (0 : Int) ≤ if e.DECAWM = true then 1 else 0 := by split_ifs <;> omega
  have hleft : ArrowPath e (e.x, e.y) (List.replicate (e.x-x).toNat 0x44) (min e.x x, e.y) := by
    have htimes := @ArrowPath.times τ e 0x44 (fun i => (e.x-i, e.y)) (e.x-x).toNat fun i hi => by
      have hstep := @left_step τ e (e.x-i, e.y) hmargins ⟨by omega, by omega⟩
        ⟨⟨by simp only; omega, by simp only [hlast]; omega⟩, hy⟩
      rw [show e.x-i-1 = e.x-(i+1 : ℕ) by omega] at hstep
      exact hstep
    rw [Int.natCast_zero, sub_zero, show e.x-((e.x-x).toNat : ℕ) = min e.x x by omega] at htimes
    exact htimes
  have hdown : ArrowPath e (min e.x x, e.y) (List.replicate (y-e.y).toNat 0x42)
      (min e.x x, max e.y y) := by
    have htimes := @ArrowPath.times τ e 0x42 (fun i => (min e.x x, e.y+i)) (y-e.y).toNat
      fun i hi => by
        have hstep := @down_step τ e (min e.x x, e.y+i) hmargins hlines (by simp only; omega)
          ⟨⟨by simp only; omega, by simp only [hlast]; omega⟩,
            ⟨by simp only; omega, by simp only; omega⟩⟩
        rw [show e.y+i+1 = e.y+(i+1 : ℕ) by omega] at hstep
        exact hstep
    rw [Int.natCast_zero, add_zero, show e.y+((y-e.y).toNat : ℕ) = max e.y y by omega] at htimes
    exact htimes
  have hup : ArrowPath e (min e.x x, max e.y y) (List.replicate (e.y-y).toNat 0x41)
      (min e.x x, y) := by
    have htimes := @ArrowPath.times τ e 0x41 (fun i => (min e.x x, max e.y y-i)) (e.y-y).toNat
      fun i hi => by
        have hstep := @up_step τ e (min e.x x, max e.y y-i) hmargins hlines (by simp only; omega)
          ⟨⟨by simp only; omega, by simp only [hlast]; omega⟩,
            ⟨by simp only; omega, by simp only; omega⟩⟩
        rw [show max e.y y-i-1 = max e.y y-(i+1 : ℕ) by omega] at hstep
        exact hstep
    rw [Int.natCast_zero, sub_zero, show max e.y y-((e.y-y).toNat : ℕ) = y by omega] at htimes
    exact htimes
  have hright : ArrowPath e (min e.x x, y) (List.replicate (x-e.x).toNat 0x43) (x, y) := by
    have htimes := @ArrowPath.times τ e 0x43 (fun i => (min e.x x+i, y)) (x-e.x).toNat
      fun i hi => by
        have hstep := @right_step τ e (min e.x x+i, y) hmargins (by simp only [hlast]; omega)
          (by omega) ⟨⟨by simp only; omega, by simp only [hlast]; omega⟩, hty⟩
        rw [show min e.x x+i+1 = min e.x x+(i+1 : ℕ) by omega] at hstep
        exact hstep
    rw [Int.natCast_zero, add_zero, show min e.x x+((x-e.x).toNat : ℕ) = x by omega] at htimes
    exact htimes
  rw [arrows]
  exact ((hleft.append hdown).append hup).append hright

end Clicks

end VS
