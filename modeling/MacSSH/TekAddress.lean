import MacSSH.TekDraw
import Mathlib.Data.Fin.Basic

/-! The addresses of Tektronix 4014 points: how they are sent, and what the drawing
machine makes of them. -/
namespace Tek

/-- A point of the drawing surface. -/
structure Point where
  x : Fin 4096
  y : Fin 4096
  deriving DecidableEq

/-- The registers that remember the address last sent. -/
structure Registers where
  hiy : UInt8
  ey : UInt8
  ex : UInt8
  loy : UInt8
  hix : UInt8
  lox : UInt8
  deriving DecidableEq

def hiBits (v : Fin 4096) : UInt8 := UInt8.ofNat (v.val/128)

def loBits (v : Fin 4096) : UInt8 := UInt8.ofNat (v.val/4%32)

def extraBits (v : Fin 4096) : UInt8 := UInt8.ofNat (v.val%4)

def Point.registers (p : Point) : Registers where
  hiy := hiBits p.y
  ey := extraBits p.y
  ex := extraBits p.x
  loy := loBits p.y
  hix := hiBits p.x
  lox := loBits p.x

/-- The top bits of a character tell what piece of an address it carries. -/
def pieceByte (kind v : UInt8) : UInt8 := kind <<< 5 ||| v

def highByte (v : UInt8) : UInt8 := pieceByte 1 v

def loXByte (v : UInt8) : UInt8 := pieceByte 2 v

def loYByte (v : UInt8) : UInt8 := pieceByte 3 v

/-- The extra byte has two bits of each coordinate and a margin bit. -/
def extraValue (margin : Bool) (ey ex : UInt8) : UInt8 :=
  (if margin then (0x10 : UInt8) else 0) ||| ey <<< 2 ||| ex

/-- The address of a point may leave out what the registers remember: HiY when it is
unchanged, the extra byte when it is unchanged, HiX when it is unchanged, and LoY when it
is unchanged and neither the extra byte nor HiX is sent. LoX is always sent. -/
inductive Elided (r : Registers) (p : Registers) : List UInt8 → Prop
  | address (hiy extra loy hix : Option UInt8)
      (hhiy : hiy = some (highByte p.hiy) ∨ hiy = none ∧ p.hiy = r.hiy)
      (hextra : (∃ margin, extra = some (loYByte (extraValue margin p.ey p.ex))) ∨
        extra = none ∧ p.ey = r.ey ∧ p.ex = r.ex)
      (hloy : loy = some (loYByte p.loy) ∨
        loy = none ∧ p.loy = r.loy ∧ extra = none ∧ hix = none)
      (hhix : hix = some (highByte p.hix) ∨ hix = none ∧ p.hix = r.hix) :
      Elided r p (hiy.toList ++ extra.toList ++ loy.toList ++ hix.toList ++ [loXByte p.lox])

/-- The addresses of a sequence of points, each sent with what the one before left in the
registers. -/
inductive Addresses : Registers → List Point → List (List UInt8) → Prop
  | nil (r : Registers) : Addresses r [] []
  | cons {r : Registers} {p : Point} {ps : List Point} {bs : List UInt8}
      {bss : List (List UInt8)} :
      Elided r p.registers bs → Addresses p.registers ps bss → Addresses r (p :: ps) (bs :: bss)

/-- The vector from one point to another. -/
def vector (p q : Point) : TekEvent := .clipvec p.x.val p.y.val q.x.val q.y.val

/-- The vectors that join consecutive points. -/
def joining (ps : List Point) : List TekEvent := ps.zipWith vector ps.tail

namespace VGWINTYPE

def registers (w : VGWINTYPE) : Registers where
  hiy := w.hiy
  ey := w.ey
  ex := w.ex
  loy := w.loy
  hix := w.hix
  lox := w.lox

/-- Characters go to the machine one after the other. -/
def feed (font : Font) (w : VGWINTYPE) (cs : List UInt8) : VGWINTYPE := cs.foldl (VGdraw font) w

end VGWINTYPE

section Pieces

/-- The pieces of a coordinate are five, five and two bits, side by side. -/
theorem or_pieces {hi lo e : ℕ} (hlo : lo < 32) (he : e < 4) :
    hi <<< 7 ||| lo <<< 2 ||| e = hi*128+lo*4+e := by
  have hlow : lo <<< 2 ||| e = lo*4+e := by
    rw [← Nat.shiftLeft_add_eq_or_of_lt (by omega : e < 2^2), Nat.shiftLeft_eq]
  rw [Nat.or_assoc, hlow, ← Nat.shiftLeft_add_eq_or_of_lt (by omega : lo*4+e < 2^7),
    Nat.shiftLeft_eq]
  omega

theorem toNat_and_31 (v : UInt8) : (v &&& 31).toNat = v.toNat%32 := by
  rw [UInt8.toNat_and]
  exact Nat.and_two_pow_sub_one_eq_mod _ 5

theorem toNat_and_3 (v : UInt8) : (v &&& 3).toNat = v.toNat%4 := by
  rw [UInt8.toNat_and]
  exact Nat.and_two_pow_sub_one_eq_mod _ 2

theorem joinup_bits (v : Fin 4096) : joinup (hiBits v) (loBits v) (extraBits v) = v.val := by
  have hv := v.isLt
  have hsize : UInt8.size = 256 := rfl
  have hhi : (hiBits v).toNat = v.val/128 := UInt8.toNat_ofNat_of_lt' (by omega)
  have hlo : (loBits v).toNat = v.val/4%32 := UInt8.toNat_ofNat_of_lt' (by omega)
  have he : (extraBits v).toNat = v.val%4 := UInt8.toNat_ofNat_of_lt' (by omega)
  rw [joinup, toNat_and_31, toNat_and_31, toNat_and_3, hhi, hlo, he,
    or_pieces (Nat.mod_lt _ (by omega)) (Nat.mod_lt _ (by omega))]
  omega

/-- A character that carries a piece `v` of an address; `cmd` tells which. -/
structure Piece (c cmd v : UInt8) : Prop where
  masked : c &&& 0x7f = c
  kind : (c >>> 5) &&& 3 = cmd
  value : c &&& 0x1f = v
  printable : 31 < c

theorem pieceByte_piece (k : Fin 3) {n : ℕ} (hn : n < 32) :
    Piece (pieceByte (UInt8.ofNat (k.val+1)) (UInt8.ofNat n)) (UInt8.ofNat (k.val+1))
      (UInt8.ofNat n) := by
  have hbits : ∀ (k : Fin 3) (n : Fin 32),
      let c := pieceByte (UInt8.ofNat (k.val+1)) (UInt8.ofNat n.val)
      c &&& 0x7f = c ∧ (c >>> 5) &&& 3 = UInt8.ofNat (k.val+1) ∧
        c &&& 0x1f = UInt8.ofNat n.val ∧ 31 < c := by decide
  obtain ⟨hmask, hkind, hvalue, hprint⟩ := hbits k ⟨n, hn⟩
  exact ⟨hmask, hkind, hvalue, hprint⟩

theorem extraValue_bits (margin : Bool) (p q : Fin 4096) :
    ∃ n < 32, extraValue margin (extraBits p) (extraBits q) = UInt8.ofNat n ∧
      (UInt8.ofNat n >>> 2) &&& 3 = extraBits p ∧ UInt8.ofNat n &&& 3 = extraBits q := by
  have hbits : ∀ (margin : Bool) (a b : Fin 4),
      let v := extraValue margin (UInt8.ofNat a.val) (UInt8.ofNat b.val)
      v < 32 ∧ (v >>> 2) &&& 3 = UInt8.ofNat a.val ∧ v &&& 3 = UInt8.ofNat b.val := by decide
  obtain ⟨hlt, hey, hex⟩ := hbits margin ⟨p.val%4, Nat.mod_lt _ (by omega)⟩
    ⟨q.val%4, Nat.mod_lt _ (by omega)⟩
  refine ⟨(extraValue margin (extraBits p) (extraBits q)).toNat, hlt, ?_, ?_, ?_⟩
  · exact (UInt8.ofNat_toNat).symm
  · rw [UInt8.ofNat_toNat]
    exact hey
  · rw [UInt8.ofNat_toNat]
    exact hex

theorem hiBits_lt (v : Fin 4096) : v.val/128 < 32 := by
  have := v.isLt
  omega

theorem highByte_piece (v : Fin 4096) : Piece (highByte (hiBits v)) 1 (hiBits v) :=
  pieceByte_piece 0 (hiBits_lt v)

theorem loXByte_piece (v : Fin 4096) : Piece (loXByte (loBits v)) 2 (loBits v) :=
  pieceByte_piece 1 (Nat.mod_lt _ (by omega))

theorem loYByte_piece (v : Fin 4096) : Piece (loYByte (loBits v)) 3 (loBits v) :=
  pieceByte_piece 2 (Nat.mod_lt _ (by omega))

/-- The extra byte looks like LoY. -/
theorem extraByte_piece (margin : Bool) (p q : Fin 4096) :
    Piece (loYByte (extraValue margin (extraBits p) (extraBits q))) 3
      (extraValue margin (extraBits p) (extraBits q)) := by
  obtain ⟨n, hn, heq, -⟩ := extraValue_bits margin p q
  rw [heq]
  exact pieceByte_piece 2 hn

end Pieces

section Decoding
variable {font : Font} {w w' : VGWINTYPE} {c cmd v : UInt8}

open VGWINTYPE

/-- A piece of an address is not one of the control characters that the machine looks
for. -/
theorem Piece.not_control (h : Piece c cmd v) :
    c ≠ 31 ∧ c ≠ 30 ∧ c ≠ 28 ∧ c ≠ 29 ∧ c ≠ 27 ∧ ¬c < 32 := by
  have hc := h.printable
  refine ⟨?_, ?_, ?_, ?_, ?_, ?_⟩
  all_goals
    rw [UInt8.lt_iff_toNat_lt] at hc
    first
      | (rintro rfl; exact absurd hc (by decide))
      | (rw [UInt8.lt_iff_toNat_lt]; exact not_lt.mpr hc)

theorem afterSwitch_waiting (hd : w.state ≠ .DONE) (hc : w.state ≠ .CANCEL) :
    w.afterSwitch font = w := by
  rw [afterSwitch, if_neg hd]
  exact if_neg hc

/-- The machine takes a piece of an address in one of the states that wait for it. -/
theorem VGdraw_coordinate (h : Piece c cmd v)
    (hs : w.state = .EXTRA ∨ w.state = .LOY ∨ w.state = .HIX ∨ w.state = .LOX)
    (hc : w.coordinate cmd v = .stay w') : VGdraw font w c = w'.afterSwitch font := by
  have hswitch : w.switch font c = .stay w' := by
    rw [switch, h.kind, h.value]
    rcases hs with hs | hs | hs | hs
    all_goals
      rw [hs]
      exact hc
  rw [VGdraw, h.masked, drawLoop, hswitch]

/-- The machine waits for an address: a vector has just been asked for, or the last one
has been drawn; no panel is being defined. -/
structure Ready (w : VGWINTYPE) : Prop where
  panel : w.TEKPanel = []
  state : w.state = .ENTERVEC ∨ (w.state = .DONE ∧ w.mode = .DRAW)

/-- How the position of the next address is reached: the first one is moved to. -/
def reaching (w : VGWINTYPE) : VGWINTYPE :=
  if w.state = .ENTERVEC then { w with mode := .TEMPMOVE, modesave := .DRAW } else w

/-- An address begins with what the registers remember. -/
def opened (w : VGWINTYPE) : VGWINTYPE :=
  let w := reaching w
  { w with
    nhiy := w.hiy, nhix := w.hix, nloy := w.loy, nlox := w.lox, ney := w.ey, nex := w.ex,
    state := .EXTRA }

/-- The first character of an address. -/
theorem VGdraw_first (hr : Ready w) (h : Piece c cmd v) (hcmd : cmd ≠ 0)
    (hc : { reaching w with state := .HIY }.coordinate cmd v = .stay w') :
    VGdraw font w c = w'.afterSwitch font := by
  obtain ⟨h31, h30, h28, h29, h27, h32⟩ := h.not_control
  have hagain : w.switch font c = .again { reaching w with state := .HIY } := by
    rcases hr.state with hs | ⟨hs, hm⟩
    · have h7 : c ≠ 7 := by
        rintro rfl
        exact h32 (by decide)
      simp only [switch, reaching, hs, if_pos, if_neg h7, if_neg h32, againIn]
    · simp only [switch, reaching, hs, anything, if_neg h31, if_neg h30, if_neg h28, if_neg h29,
        if_neg h27, h.kind, hm, againIn]
      simp [hcmd]
      exact hm.symm
  have hpass : VGWINTYPE.afterSwitch font { reaching w with state := .HIY } =
      { reaching w with state := .HIY } :=
    afterSwitch_waiting (by simp) (by simp)
  have hswitch : VGWINTYPE.switch font { reaching w with state := .HIY } c = .stay w' := by
    rw [switch, h.kind, h.value]
    exact hc
  rw [VGdraw, h.masked, drawLoop, hagain]
  simp only [hpass]
  rw [drawLoop, hswitch]

theorem VGdraw_first_high (hr : Ready w) (p : Fin 4096) :
    VGdraw font w (highByte (hiBits p)) = { opened w with nhiy := hiBits p } := by
  rw [VGdraw_first hr (highByte_piece p) (by decide) rfl]
  exact afterSwitch_waiting nofun nofun

/-- An address without HiY is decoded as if HiY had been sent unchanged. -/
theorem VGdraw_first_low (hr : Ready w) (h : Piece c cmd v) (hcmd : cmd = 2 ∨ cmd = 3) :
    VGdraw font w c = VGdraw font (opened w) c := by
  rcases hcmd with rfl | rfl
  · rw [VGdraw_first hr h (by decide) rfl, VGdraw_coordinate h (Or.inl rfl) rfl]
    rfl
  · rw [VGdraw_first hr h (by decide) rfl, VGdraw_coordinate h (Or.inl rfl) rfl]
    rfl

theorem feed_first_low (hr : Ready w) (h : Piece c cmd v) (hcmd : cmd = 2 ∨ cmd = 3)
    (cs : List UInt8) : w.feed font (c :: cs) = (opened w).feed font (c :: cs) :=
  congrArg (fun w => VGWINTYPE.feed font w cs) (VGdraw_first_low hr h hcmd)

/-- The new position has all pieces of an address. -/
def complete (w : VGWINTYPE) (p : Registers) : VGWINTYPE :=
  { w with
    nhiy := p.hiy, ney := p.ey, nex := p.ex, nloy := p.loy, nhix := p.hix, nlox := p.lox,
    state := .DONE }

/-- LoX ends an address. -/
theorem VGdraw_loX (hs : w.state = .EXTRA ∨ w.state = .LOY ∨ w.state = .HIX ∨ w.state = .LOX)
    (p : Fin 4096) : VGdraw font w (loXByte (loBits p)) =
      VGWINTYPE.afterSwitch font { w with nlox := loBits p, state := .DONE } := by
  apply VGdraw_coordinate (loXByte_piece p) hs
  rcases hs with hs | hs | hs | hs
  all_goals
    simp only [coordinate, hs]
    rfl

theorem VGdraw_hiX (hs : w.state = .LOY ∨ w.state = .HIX) (p : Fin 4096) :
    VGdraw font w (highByte (hiBits p)) = { w with nhix := hiBits p, state := .LOX } := by
  have hcoord : w.coordinate 1 (hiBits p) = .stay { w with nhix := hiBits p, state := .LOX } := by
    rcases hs with hs | hs
    all_goals
      simp only [coordinate, hs]
      rfl
  rw [VGdraw_coordinate (highByte_piece p) (by tauto) hcoord]
  exact afterSwitch_waiting (by simp) (by simp)

theorem VGdraw_loY (hs : w.state = .EXTRA) (h : Piece c 3 v) :
    VGdraw font w c = { w with nloy := v, state := .LOY } := by
  have hcoord : w.coordinate 3 v = .stay { w with nloy := v, state := .LOY } := by
    simp only [coordinate, hs]
    rfl
  rw [VGdraw_coordinate h (Or.inl hs) hcoord]
  exact afterSwitch_waiting (by simp) (by simp)

/-- After two characters that look like LoY the first one was the extra byte. -/
theorem VGdraw_second_loY (hs : w.state = .LOY) (p : Fin 4096) :
    VGdraw font w (loYByte (loBits p)) =
      { w with
        ney := (w.nloy >>> 2) &&& 3, nex := w.nloy &&& 3, nloy := loBits p, state := .HIX } := by
  have hcoord : w.coordinate 3 (loBits p) = .stay { w with
      ney := (w.nloy >>> 2) &&& 3, nex := w.nloy &&& 3, nloy := loBits p, state := .HIX } := by
    simp only [coordinate, hs]
    rfl
  rw [VGdraw_coordinate (loYByte_piece p) (Or.inr (Or.inl hs)) hcoord]
  exact afterSwitch_waiting (by simp) (by simp)

/-- The registers that hold the new address. -/
def newRegisters (w : VGWINTYPE) : Registers where
  hiy := w.nhiy
  ey := w.ney
  ex := w.nex
  loy := w.nloy
  hix := w.nhix
  lox := w.nlox

/-- From HiX on, the pieces that may still come. -/
theorem feed_hiX (p : Point) (hs : w.state = .LOY ∨ w.state = .HIX) {hix : Option UInt8}
    (hhix : hix = some (highByte (hiBits p.x)) ∨ hix = none ∧ hiBits p.x = w.nhix) :
    w.feed font (hix.toList ++ [loXByte (loBits p.x)]) = VGWINTYPE.afterSwitch font { w with
      nhix := hiBits p.x, nlox := loBits p.x, state := .DONE } := by
  rcases hhix with rfl | ⟨rfl, hsame⟩
  · change VGdraw font (VGdraw font w (highByte (hiBits p.x))) (loXByte (loBits p.x)) = _
    rw [VGdraw_hiX hs, VGdraw_loX (by simp)]
  · change VGdraw font w (loXByte (loBits p.x)) = _
    rw [VGdraw_loX (by tauto), hsame]

/-- From the extra byte on. -/
theorem feed_extra (p : Point) (hs : w.state = .EXTRA) (hhiy : w.nhiy = hiBits p.y)
    {extra loy hix : Option UInt8}
    (hextra : (∃ margin,
        extra = some (loYByte (extraValue margin (extraBits p.y) (extraBits p.x)))) ∨
      extra = none ∧ extraBits p.y = w.ney ∧ extraBits p.x = w.nex)
    (hloy : loy = some (loYByte (loBits p.y)) ∨
      loy = none ∧ loBits p.y = w.nloy ∧ extra = none ∧ hix = none)
    (hhix : hix = some (highByte (hiBits p.x)) ∨ hix = none ∧ hiBits p.x = w.nhix) :
    w.feed font (extra.toList ++ loy.toList ++ hix.toList ++ [loXByte (loBits p.x)]) =
      (complete w p.registers).afterSwitch font := by
  have hfull : complete w p.registers = { w with
      nhiy := hiBits p.y, ney := extraBits p.y, nex := extraBits p.x, nloy := loBits p.y,
      nhix := hiBits p.x, nlox := loBits p.x, state := .DONE } := rfl
  rw [hfull, ← hhiy]
  rcases hloy with rfl | ⟨rfl, hsame, rfl, rfl⟩
  · rcases hextra with ⟨margin, rfl⟩ | ⟨rfl, hey, hex⟩
    · obtain ⟨n, -, hval, hney, hnex⟩ := extraValue_bits margin p.y p.x
      change (VGdraw font (VGdraw font w (loYByte (extraValue margin (extraBits p.y)
        (extraBits p.x)))) (loYByte (loBits p.y))).feed font
          (hix.toList ++ [loXByte (loBits p.x)]) = _
      rw [VGdraw_loY hs (extraByte_piece margin p.y p.x), VGdraw_second_loY rfl]
      refine (feed_hiX p (Or.inr rfl) ?_).trans ?_
      · exact hhix
      · simp only [hval, hney, hnex]
    · change (VGdraw font w (loYByte (loBits p.y))).feed font
        (hix.toList ++ [loXByte (loBits p.x)]) = _
      rw [VGdraw_loY hs (loYByte_piece p.y)]
      refine (feed_hiX p (Or.inl rfl) ?_).trans ?_
      · exact hhix
      · rw [hey, hex]
  · obtain ⟨-, hey, hex⟩ := hextra.resolve_left nofun
    obtain ⟨-, hx⟩ := hhix.resolve_left nofun
    change VGdraw font w (loXByte (loBits p.x)) = _
    rw [VGdraw_loX (Or.inl hs), hsame, hey, hex, hx]

/-- The registers of a window that waits for an address, once it has begun. -/
theorem opened_registers (w : VGWINTYPE) : newRegisters (opened w) = w.registers := by
  rw [opened, reaching]
  split_ifs <;> rfl

/-- Any legal address of a point brings the machine to its position. -/
theorem feed_address (hr : Ready w) (p : Point) {bs : List UInt8}
    (h : Elided w.registers p.registers bs) :
    w.feed font bs = (complete (opened w) p.registers).afterSwitch font := by
  obtain ⟨hiy, extra, loy, hix, hhiy, hextra, hloy, hhix⟩ := h
  rw [← opened_registers w] at hhiy hextra hloy hhix
  rcases hhiy with rfl | ⟨rfl, hsame⟩
  · change (VGdraw font w (highByte (hiBits p.y))).feed font
      (extra.toList ++ loy.toList ++ hix.toList ++ [loXByte (loBits p.x)]) = _
    rw [VGdraw_first_high hr]
    refine (feed_extra p ?_ ?_ ?_ ?_ ?_).trans rfl
    · rfl
    · rfl
    · exact hextra
    · exact hloy
    · exact hhix
  · have hopen : w.feed font (extra.toList ++ loy.toList ++ hix.toList ++
        [loXByte (loBits p.x)]) = (opened w).feed font (extra.toList ++ loy.toList ++
          hix.toList ++ [loXByte (loBits p.x)]) := by
      -- whichever piece comes first, it is not a high one
      rcases hloy with rfl | ⟨rfl, -, rfl, rfl⟩
      · rcases hextra with ⟨margin, rfl⟩ | ⟨rfl, -⟩
        · exact feed_first_low hr (extraByte_piece margin p.y p.x) (Or.inr rfl) _
        · exact feed_first_low hr (loYByte_piece p.y) (Or.inr rfl) _
      · exact feed_first_low hr (loXByte_piece p.x) (Or.inl rfl) _
    change w.feed font (extra.toList ++ loy.toList ++ hix.toList ++ [loXByte (loBits p.x)]) = _
    rw [hopen, feed_extra p rfl hsame.symm hextra hloy hhix]

/-- At the end of an address the window stands at the point, remembers it, and is ready
for the next one. -/
structure Arrived (w w' : VGWINTYPE) (p : Point) : Prop where
  ready : Ready w'
  done : w'.state = .DONE
  curx : w'.curx = p.x.val
  cury : w'.cury = p.y.val
  registers : w'.registers = p.registers
  events : w'.events = w.events ++
    if w.state = .ENTERVEC then [] else [.clipvec w.curx w.cury p.x.val p.y.val]

theorem complete_newx (w : VGWINTYPE) (p : Point) : (complete w p.registers).newx = p.x.val :=
  joinup_bits p.x

theorem complete_newy (w : VGWINTYPE) (p : Point) : (complete w p.registers).newy = p.y.val :=
  joinup_bits p.y

theorem feed_arrived (hr : Ready w) (p : Point) {bs : List UInt8}
    (h : Elided w.registers p.registers bs) : Arrived w (w.feed font bs) p := by
  have hpanel := hr.panel
  have hx := complete_newx (opened w) p
  have hy := complete_newy (opened w) p
  rw [feed_address hr p h]
  rcases hr.state with hs | ⟨hs, hm⟩
  · -- the first address after the request for a vector moves
    have hopen : opened w = { w with
        mode := .TEMPMOVE, modesave := .DRAW, nhiy := w.hiy, nhix := w.hix, nloy := w.loy,
        nlox := w.lox, ney := w.ey, nex := w.ex, state := .EXTRA } := by
      rw [opened, reaching, if_pos hs]
    have hfin : (complete (opened w) p.registers).afterSwitch font =
        VGWINTYPE.newcoord { complete (opened w) p.registers with mode := .DRAW } := by
      rw [hopen]
      simp [afterSwitch, finish, complete, hpanel, newcoord]
    rw [hfin]
    refine ⟨⟨?_, Or.inr ⟨rfl, rfl⟩⟩, rfl, hx, hy, rfl, ?_⟩
    · rw [hopen]
      exact hpanel
    · rw [if_pos hs, List.append_nil, hopen]
      rfl
  · -- the next ones draw
    have hopen : opened w = { w with
        nhiy := w.hiy, nhix := w.hix, nloy := w.loy, nlox := w.lox, ney := w.ey, nex := w.ex,
        state := .EXTRA } := by
      rw [opened, reaching, if_neg (by rw [hs]; nofun)]
    have hfin : (complete (opened w) p.registers).afterSwitch font =
        VGWINTYPE.newcoord ((complete (opened w) p.registers).emit
          (.clipvec w.curx w.cury p.x.val p.y.val)) := by
      rw [← hx, ← hy, hopen]
      simp [afterSwitch, finish, complete, hpanel, hm, newcoord, emit]
    rw [hfin]
    refine ⟨⟨?_, Or.inr ⟨rfl, ?_⟩⟩, rfl, hx, hy, rfl, ?_⟩
    · rw [hopen]
      exact hpanel
    · rw [hopen]
      exact hm
    · rw [if_neg (by rw [hs]; nofun), hopen]
      rfl

theorem feed_append (w : VGWINTYPE) (cs ds : List UInt8) :
    w.feed font (cs ++ ds) = (w.feed font cs).feed font ds := List.foldl_append

/-- From a point on, the addresses of further points draw the vectors between them. -/
theorem feed_vectors {r : Registers} {ps : List Point} {bss : List (List UInt8)}
    (h : Addresses r ps bss) {p : Point} (hr : Ready w) (hd : w.state = .DONE)
    (hx : w.curx = p.x.val) (hy : w.cury = p.y.val) (hp : w.registers = p.registers)
    (hreg : r = p.registers) :
    (w.feed font bss.flatten).events = w.events ++ joining (p :: ps) ∧
      (w.feed font bss.flatten).registers =
        ((p :: ps).getLast (List.cons_ne_nil _ _)).registers := by
  induction h generalizing w p with
  | nil r => exact ⟨(List.append_nil _).symm, hp⟩
  | @cons r q ps bs bss hel hrest ih =>
    rw [List.flatten_cons, feed_append]
    have harr : Arrived w (w.feed font bs) q := feed_arrived hr q (by rw [hp, ← hreg]; exact hel)
    obtain ⟨hevents, hlast⟩ := ih harr.ready harr.done harr.curx harr.cury harr.registers rfl
    constructor
    · rw [hevents, harr.events, if_neg (by rw [hd]; nofun), hx, hy, List.append_assoc]
      rfl
    · rw [hlast, List.getLast_cons (List.cons_ne_nil q ps)]

theorem VGdraw_GS (hs : w.state = .DONE) :
    VGdraw font w 29 = { w with state := .ENTERVEC } := by
  have hswitch : w.switch font 29 = w.goto .ENTERVEC := by
    simp only [switch, hs, anything]
    rfl
  rw [VGdraw, show (29 : UInt8) &&& 0x7f = 29 from rfl, drawLoop, hswitch]
  exact afterSwitch_waiting nofun nofun

theorem Addresses.take {r : Registers} {ps : List Point} {bss : List (List UInt8)}
    (h : Addresses r ps bss) (k : ℕ) : Addresses r (ps.take k) (bss.take k) := by
  induction h generalizing k with
  | nil r =>
    rw [List.take_nil, List.take_nil]
    exact .nil r
  | cons hel _ ih =>
    cases k with
    | zero => exact .nil _
    | succ k => exact .cons hel (ih k)

/-- The first address of a vector moves, the others draw. -/
theorem feed_addresses (hs : w.state = .DONE) (hpanel : w.TEKPanel = []) {p : Point}
    {ps : List Point} {bs : List UInt8} {bss : List (List UInt8)}
    (hel : Elided w.registers p.registers bs) (hrest : Addresses p.registers ps bss) :
    (w.feed font (29 :: (bs :: bss).flatten)).events = w.events ++ joining (p :: ps) ∧
      (w.feed font (29 :: (bs :: bss).flatten)).registers =
        ((p :: ps).getLast (List.cons_ne_nil _ _)).registers := by
  have hstart : w.feed font (29 :: (bs :: bss).flatten) =
      VGWINTYPE.feed font { w with state := .ENTERVEC } (bs ++ bss.flatten) := by
    rw [← VGdraw_GS hs]
    rfl
  have hready : Ready { w with state := .ENTERVEC } := ⟨hpanel, Or.inl rfl⟩
  have harr := @feed_arrived font _ hready p bs hel
  obtain ⟨hevents, hlast⟩ := feed_vectors hrest harr.ready harr.done harr.curx
    harr.cury harr.registers rfl
  rw [hstart, feed_append]
  constructor
  · rw [hevents, harr.events, if_pos rfl, List.append_nil]
  · exact hlast

/-- After the request for a vector, the addresses of a sequence of points, legally
shortened from whatever the registers remember, draw exactly the vectors that join
consecutive points; after each address the registers are those of its point. -/
theorem addresses_decoded (font : Font) (w : VGWINTYPE) (hs : w.state = .DONE)
    (hpanel : w.TEKPanel = []) (ps : List Point) (bss : List (List UInt8))
    (h : Addresses w.registers ps bss) (i : ℕ) (hi : i < ps.length) :
    (w.feed font (29 :: (bss.take (i+1)).flatten)).events =
        w.events ++ joining (ps.take (i+1)) ∧
      (w.feed font (29 :: (bss.take (i+1)).flatten)).registers = ps[i].registers := by
  cases h with
  | nil => exact absurd hi (Nat.not_lt_zero i)
  | @cons _ p ps bs bss hel hrest =>
    have hlast : (p :: ps)[i] = (p :: ps.take i).getLast (List.cons_ne_nil _ _) := by
      have htake := List.getLast_take (l := p :: ps) (i := i+1) (List.cons_ne_nil _ _)
      rw [Nat.add_sub_cancel, List.getElem?_eq_getElem hi] at htake
      exact htake.symm
    rw [hlast]
    exact feed_addresses hs hpanel hel (hrest.take i)

end Decoding

/-- Two points of one row. -/
def rowPoints : List Point := [⟨100, 200⟩, ⟨300, 200⟩]

/-- Their addresses in a new window: the first one in full, and then without HiY. -/
def rowAddresses : List (List UInt8) := [[0x21, 0x60, 0x72, 0x20, 0x59], [0x72, 0x22, 0x4b]]

theorem row_addresses_decoded :
    let w := VGWINTYPE.VGnewwin false true (fun _ => 0) []
    (w.feed (fun _ _ => []) (29 :: rowAddresses.flatten)).events =
        [.pencolor 1, .clipvec 100 200 300 200] ∧
      (w.feed (fun _ _ => []) (29 :: rowAddresses.flatten)).registers =
        (Point.registers ⟨300, 200⟩) :=
  addresses_decoded (fun _ _ => []) (VGWINTYPE.VGnewwin false true (fun _ => 0) []) rfl rfl
    rowPoints rowAddresses
    (.cons (.address (some 0x21) (some 0x60) (some 0x72) (some 0x20) (Or.inl (by decide))
        (Or.inl ⟨false, by decide⟩) (Or.inl (by decide)) (Or.inl (by decide)))
      (.cons (.address none none (some 0x72) (some 0x22) (Or.inr (by decide))
          (Or.inr (by decide)) (Or.inl (by decide)) (Or.inl (by decide))) (.nil _)))
    1 (by decide)

end Tek
