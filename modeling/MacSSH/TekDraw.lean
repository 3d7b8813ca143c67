import Mathlib
import MacSSH.TekStore

/-! The drawing machine of a Tektronix window, 4014 or 4105: it takes one character
after the other. -/
namespace Tek

open VS

inductive VGstate where
  | HIY | EXTRA | LOY | HIX | LOX
  | DONE | ENTERVEC | CANCEL | RS | ESCOUT
  | CMD0 | SOMEL | IGNORE | SOMEM | IGNORE2
  | INTEGER | INTEGER1 | INTEGER2
  | COLORINT | GTSIZE0 | GTSIZE1 | GTEXT | MARKER | GTPATH
  | SOMET | JUNKARRAY | STARTDISC | DISCARDING
  | FPATTERN | GTROT | GTROT1 | GTINDEX | PANEL
  | TERMSTAT | SOMER | VIEWAT | VIEWAT2
  deriving DecidableEq, Repr

/-- The output modes. The mode is also set to the states `PANEL` and `DONE`. -/
inductive VGmode where
  | ALPHA | DRAW | MARK | TEMPDRAW | TEMPMOVE | TEMPMARK | PANEL | DONE
  deriving DecidableEq, Repr

/-- What a window asks of its device, of the terminal screen, or of the region that a
panel is painted in. -/
inductive TekEvent where
  | clipvec (xa ya xb yb : Int)
  | pencolor (n : Int)
  | bell
  | gin
  | clrscr
  | PaintRgn
  | VSwrite (c : UInt8)
  deriving DecidableEq, Repr

/-- A window and its store. `TEKPanel` are the points of the panel that is being
defined, none when there is no panel; `grants` are the answers to the coming requests to
resize the store, and `events` is what the window has asked for so far. -/
structure VGWINTYPE where
  state : VGstate
  savstate : VGstate
  mode : VGmode
  modesave : VGmode
  loy : UInt8
  hiy : UInt8
  lox : UInt8
  hix : UInt8
  ex : UInt8
  ey : UInt8
  nloy : UInt8
  nhiy : UInt8
  nlox : UInt8
  nhix : UInt8
  nex : UInt8
  ney : UInt8
  curx : Int
  cury : Int
  savx : Int
  savy : Int
  textcol : Int
  intin : Int
  pencolor : Int
  fontnum : Int
  charx : Int
  chary : Int
  count : Int
  tekclear : Bool
  TEKtype : Bool
  TEKMarker : Int
  TEKOutline : Bool
  TEKPath : Int
  TEKPattern : Int
  TEKIndex : Int
  TEKRot : Int
  TEKSize : Int
  TEKBackground : Int
  TEKPanel : List (Int × Int)
  gTekCopying : Bool
  store : TEKSTORE
  grants : List Bool
  events : List TekEvent

/-- The stroke strings of the two character sets, by character minus 32. -/
abbrev Font := Bool → ℕ → List UInt8

def charxset : List Int := [56, 51, 34, 31, 112, 168]

def charyset : List Int := [88, 82, 53, 48, 176, 264]

/-- The number represented by the three pieces of a coordinate. -/
def joinup (hi lo e : UInt8) : Int :=
  (((hi &&& 31).toNat <<< 7 ||| (lo &&& 31).toNat <<< 2 ||| (e &&& 3).toNat : ℕ) : Int)

namespace VGWINTYPE

def emit (w : VGWINTYPE) (e : TekEvent) : VGWINTYPE := { w with events := w.events ++ [e] }

/-- Remove the last character of the store. -/
def unstore (w : VGWINTYPE) : VGWINTYPE :=
  { w with store := (TEKunstore w.store (w.grants.headD false)).2, grants := w.grants.tail }

def setFontnum (w : VGWINTYPE) (n : ℕ) : VGWINTYPE :=
  { w with fontnum := n, charx := charxset.getD n 0, chary := charyset.getD n 0 }

def storexy (w : VGWINTYPE) (x y : Int) : VGWINTYPE := { w with curx := x, cury := y }

def newx (w : VGWINTYPE) : Int := joinup w.nhix w.nlox w.nex

def newy (w : VGWINTYPE) : Int := joinup w.nhiy w.nloy w.ney

/-- Replace the coordinates by the new ones. -/
def newcoord (w : VGWINTYPE) : VGWINTYPE :=
  { w with
    hiy := w.nhiy
    hix := w.nhix
    loy := w.nloy
    lox := w.nlox
    ey := w.ney
    ex := w.nex
    curx := w.newx
    cury := w.newy }

def linefeed (w : VGWINTYPE) : VGWINTYPE :=
  if w.cury > w.chary then w.storexy w.textcol (short (w.cury-w.chary))
  else
    let w := { w with textcol := short (2048-w.textcol) }
    w.storexy w.textcol (short (3119-w.chary))

/-- How the strokes of a character run: the size of a unit and the direction of the
text. -/
structure Stroke where
  hmag : Int
  vmag : Int
  xdir : Int
  ydir : Int

def strokeOf (w : VGWINTYPE) (c : Int) : Stroke :=
  if w.TEKtype then
    let height := if c > 126 then 1 else w.TEKSize
    let (xdir, ydir) : Int × Int :=
      if w.TEKRot = 0 then (1, 0)
      else if w.TEKRot = 90 then (0, 1)
      else if w.TEKRot = 180 then (-1, 0)
      else if w.TEKRot = 270 then (0, -1)
      else (0, 0)
    ⟨short (height*8), short (height*8), xdir, ydir⟩
  else ⟨w.charx.tdiv 10, w.chary.tdiv 10, 1, 0⟩

/-- The vectors of a stroke string: each pair of characters is a run length and a
direction on the keyboard. -/
def strokes (k : Stroke) : List UInt8 → Int → Int → List TekEvent
  | n :: d :: rest, strokex, strokey =>
    let n : Int := TEKSTORE.charValue n-48
    let d := Char.ofNat d.toNat
    let (x, y) :=
      if d ∈ ['e', 'd', 'c', 'y', 'h', 'n'] then
        (strokex+n*k.hmag*k.xdir, strokey+n*k.hmag*k.ydir)
      else if d ∈ ['q', 'a', 'z', 'r', 'f', 'v'] then
        (strokex-n*k.hmag*k.xdir, strokey-n*k.hmag*k.ydir)
      else (strokex, strokey)
    let (x, y) :=
      if d ∈ ['q', 'w', 'e', 'r', 't', 'y'] then (x-n*k.vmag*k.ydir, y+n*k.vmag*k.xdir)
      else if d ∈ ['z', 'x', 'c', 'v', 'b', 'n'] then (x+n*k.vmag*k.ydir, y-n*k.vmag*k.xdir)
      else (x, y)
    let x := short x
    let y := short y
    let drawn :=
      if d ∈ ['r', 't', 'y', 'f', 'h', 'v', 'b', 'n'] then [.clipvec strokex strokey x y] else []
    drawn ++ strokes k rest x y
  | _, _, _ => []

/-- Keep a position on the drawing surface. -/
def onSurface (limit i : Int) : Int := if i < 0 then 0 else if i > limit then limit else i

/-- Draw a character at the cursor. -/
def drawc (font : Font) (w : VGWINTYPE) (c : Int) : VGWINTYPE :=
  if c = 10 then w.linefeed
  else if c = 7 then (w.emit .bell).unstore
  else if c = 8 then
    if w.curx ≤ w.textcol then w
    else
      let savex := short (w.curx-w.charx)
      { w with curx := if savex < w.textcol then w.textcol else savex }
  else
    let k := w.strokeOf c
    let w := if w.TEKtype then w.emit (.pencolor (if c > 126 then w.pencolor else w.TEKIndex))
      else w
    if c < 32 ∨ c > 137 then w
    else
      let w := { w with
        events := w.events ++ strokes k (font w.TEKtype (c-32).toNat) w.curx w.cury }
      let savex := onSurface 4095 (short (w.curx+w.charx*k.xdir))
      let savey := onSurface 3119 (short (w.cury+w.charx*k.ydir))
      let w := if w.TEKtype then w.emit (.pencolor w.pencolor) else w
      w.storexy savex savey

/-- Clear the screen and go home to alpha mode. -/
def VGpage (w : VGWINTYPE) : VGWINTYPE :=
  let w := w.emit (.pencolor (if w.TEKtype then w.TEKBackground else 0))
  let w := (w.emit .clrscr).emit (.pencolor 1)
  ({ w with mode := .ALPHA, state := .DONE, textcol := 0 }.setFontnum 0).storexy 0 3071

/-- Clear the store. -/
def VGclrstor (w : VGWINTYPE) : VGWINTYPE := { w with store := newTEKstore w.store.outside }

end VGWINTYPE

/-- How a character leaves a state: it is used up, it goes through the machine once
more, or nothing else is done with it. -/
inductive Outcome where
  | stay (w : VGWINTYPE)
  | again (w : VGWINTYPE)
  | ret (w : VGWINTYPE)

namespace VGWINTYPE

def goto (w : VGWINTYPE) (s : VGstate) : Outcome := .stay { w with state := s }

def againIn (w : VGWINTYPE) (s : VGstate) : Outcome := .again { w with state := s }

/-- An integer is expected, and then the machine goes on in `s`. -/
def integerThen (w : VGWINTYPE) (s : VGstate) : VGWINTYPE :=
  { w with state := .INTEGER, savstate := s }

/-- A control character where a piece of a coordinate is expected. -/
def control (w : VGWINTYPE) (value : UInt8) (next : VGstate) : Outcome :=
  if value = 27 then .stay { w with state := .ESCOUT, savstate := w.state }
  else if value < 27 then .stay w
  else w.againIn next

/-- The pieces of a coordinate. `cmd` tells what kind of piece a character may be:
1 for a high one, 2 for LoX, 3 for LoY or an extra byte. -/
def coordinate (w : VGWINTYPE) (cmd value : UInt8) : Outcome :=
  match w.state with
  | .HIY =>
    let w := { w with
      nhiy := w.hiy, nhix := w.hix, nloy := w.loy, nlox := w.lox, ney := w.ey, nex := w.ex }
    if cmd = 0 then w.control value .CANCEL
    else if cmd = 1 then { w with nhiy := value }.goto .EXTRA
    else if cmd = 2 then { w with nlox := value }.goto .DONE
    else { w with nloy := value }.goto .LOY
  | .EXTRA =>
    if cmd = 0 then w.control value .DONE
    else if cmd = 1 then { w with nhix := value }.goto .LOX
    else if cmd = 2 then { w with nlox := value }.goto .DONE
    else { w with nloy := value }.goto .LOY
  | .LOY =>
    if cmd = 0 then w.control value .DONE
    else if cmd = 1 then { w with nhix := value }.goto .LOX
    else if cmd = 2 then { w with nlox := value }.goto .DONE
    else
      -- this is LoY; the one before was an extra byte
      { w with ney := (w.nloy >>> 2) &&& 3, nex := w.nloy &&& 3, nloy := value }.goto .HIX
  | .HIX =>
    if cmd = 0 then w.control value .DONE
    else if cmd = 1 then { w with nhix := value }.goto .LOX
    else if cmd = 2 then { w with nlox := value }.goto .DONE
    else .stay w
  | _ =>
    if cmd = 0 then w.control value .DONE
    else if cmd = 2 then { w with nlox := value }.goto .DONE
    else .stay w

/-- Incremental plotting: a pen command or a step of one point. -/
def plot (w : VGWINTYPE) (c : UInt8) : Outcome :=
  let move (dx dy : Int) : VGWINTYPE :=
    { w with curx := short (w.curx+dx), cury := short (w.cury+dy) }
  let point (w : VGWINTYPE) : VGWINTYPE :=
    if w.mode = .DRAW then w.emit (.clipvec w.curx w.cury w.curx w.cury) else w
  match Char.ofNat c.toNat with
  | ' ' => .stay (point { w with modesave := w.mode, mode := .TEMPMOVE })
  | 'P' => .stay (point { w with mode := .DRAW })
  | 'D' => .stay (point (move 0 1))
  | 'E' => .stay (point (move 1 1))
  | 'A' => .stay (point (move 1 0))
  | 'I' => .stay (point (move 1 (-1)))
  | 'H' => .stay (point (move 0 (-1)))
  | 'J' => .stay (point (move (-1) (-1)))
  | 'B' => .stay (point (move (-1) 0))
  | 'F' => .stay (point (move (-1) 1))
  | _ =>
    if c = 27 then .stay (point { w with savstate := .RS, state := .ESCOUT })
    else .again (point { w with state := .CANCEL })

/-- The first character of an escape sequence. -/
def command (w : VGWINTYPE) (c : UInt8) : Outcome :=
  if c = 29 then w.againIn .DONE
  else if c = 12 then
    .stay (if w.tekclear then w.VGpage.VGclrstor else w)
  else if c = 26 then .stay (w.emit .gin).unstore.unstore
  else if c = 10 ∨ c = 13 ∨ c = 27 then .stay { w with savstate := .DONE, state := .ESCOUT }
  else
    match Char.ofNat c.toNat with
    | '%' => w.goto .TERMSTAT
    | '8' => (w.setFontnum 0).goto .DONE
    | '9' => (w.setFontnum 1).goto .DONE
    | ':' => (w.setFontnum 2).goto .DONE
    | ';' => (w.setFontnum 3).goto .DONE
    | 'L' => w.goto .SOMEL
    | 'K' => w.goto .IGNORE
    | 'M' => w.goto .SOMEM
    | 'R' => w.goto .SOMER
    | 'T' => w.goto .SOMET
    | '~' => .stay { w with savstate := .DONE, state := .ESCOUT }
    | _ => w.goto .DONE

/-- The end of a panel: it is closed, its outline is drawn and it is painted. -/
def endPanel (w : VGWINTYPE) : VGWINTYPE :=
  match w.TEKPanel with
  | [] => w
  | first :: rest =>
    let last := (first :: rest).getLast (List.cons_ne_nil _ _)
    let points := if last ≠ (w.savx, w.savy) then rest ++ [(w.savx, w.savy)] else rest
    let outline := (first :: points).zipWith
      (fun (p q : Int × Int) => TekEvent.clipvec p.1 p.2 q.1 q.2) points
    let w : VGWINTYPE := { w with events := w.events ++ outline }
    let w := if w.TEKPattern ≤ 0 then w.emit (.pencolor (-w.TEKPattern)) else w
    let w := (w.emit .PaintRgn).emit (.pencolor w.pencolor)
    { w with TEKPanel := [], savx := first.1, savy := first.2, curx := first.1, cury := first.2 }

/-- A 4105 command; the 4014 does not know it. -/
def only4105 (w : VGWINTYPE) (w' : VGWINTYPE) : Outcome :=
  if w.TEKtype then .stay w' else w.goto .DONE

/-- The second letter after `ESC L`. -/
def commandL (w : VGWINTYPE) (c : UInt8) : Outcome :=
  match Char.ofNat c.toNat with
  | 'E' => (if w.TEKtype then w.endPanel else w).goto .DONE
  | 'F' => .stay { w with modesave := w.mode, mode := .TEMPMOVE, state := .HIY }
  | 'G' => .stay { w with modesave := w.mode, mode := .TEMPDRAW, state := .HIY }
  | 'H' => .stay { w with modesave := w.mode, mode := .TEMPMARK, state := .HIY }
  | 'I' => .stay { w with state := .STARTDISC, intin := 3 }
  | 'L' => .stay (w.integerThen .DONE)
  | 'P' => w.only4105 { w with state := .HIY, mode := .PANEL }
  | 'T' => w.only4105 (w.integerThen .GTEXT)
  | _ => w.goto .DONE

/-- The second letter after `ESC M`. -/
def commandM (w : VGWINTYPE) (c : UInt8) : Outcome :=
  match Char.ofNat c.toNat with
  | 'C' => .stay (w.integerThen .GTSIZE0)
  | 'L' => .stay (w.integerThen .COLORINT)
  | 'M' => w.only4105 (w.integerThen .MARKER)
  | 'N' => w.only4105 (w.integerThen .GTPATH)
  | 'P' => w.only4105 (w.integerThen .FPATTERN)
  | 'R' => w.only4105 (w.integerThen .GTROT)
  | 'T' => w.only4105 (w.integerThen .GTINDEX)
  | 'V' => w.only4105 (w.integerThen .DONE)
  | _ => w.goto .DONE

/-- The second letter after `ESC T`. -/
def commandT (w : VGWINTYPE) (c : UInt8) : Outcome :=
  match Char.ofNat c.toNat with
  | 'C' => { w with intin := 3 }.goto .STARTDISC
  | 'D' => { w with intin := 2 }.goto .STARTDISC
  | 'F' => w.goto .JUNKARRAY
  | 'G' => .stay (w.integerThen .JUNKARRAY)
  | _ => w.goto .DONE

/-- The sign bit of the last character of an integer. -/
def signed (c : UInt8) (n : Int) : Int := if c &&& 0x10 = 0 then short (-n) else n

/-- The characters of an integer: up to two with six bits, and a last one with four. -/
def integer (w : VGWINTYPE) (c : UInt8) : Outcome :=
  let high (n : Int) : Int := short (n*64+(c &&& 0x3f).toNat)
  let low (n : Int) : Int := signed c (short (n*16+(c &&& 0x0f).toNat))
  match w.state with
  | .INTEGER =>
    if c &&& 0x40 ≠ 0 then { w with intin := high 0 }.goto .INTEGER1
    else { w with intin := low 0 }.goto w.savstate
  | .INTEGER1 =>
    if c &&& 0x40 ≠ 0 then { w with intin := high w.intin }.goto .INTEGER2
    else { w with intin := low w.intin }.goto w.savstate
  | _ => { w with intin := low w.intin }.goto w.savstate

/-- Keep an integer between two bounds. -/
def clamp (lo hi n : Int) : Int := if n < lo then lo else if n > hi then hi else n

/-- Go on discarding the integers of an array. -/
def discard (w : VGWINTYPE) : Outcome :=
  let count := short (w.count-1)
  let w := { w with count := count }
  if count = 0 then w.againIn .DONE
  else if count = 1 then .again (w.integerThen .DONE)
  else .again (w.integerThen .DISCARDING)

/-- The height of graphics text. -/
def textSize (w : VGWINTYPE) : VGWINTYPE :=
  if w.TEKtype then
    let size := if w.intin < 88 then 1 else if w.intin < 149 then 2
      else if w.intin < 209 then 3 else w.intin.tdiv 61
    { w with TEKSize := size, charx := short (size*52), chary := short (size*64) }
  else if w.intin < 88 then w.setFontnum 0
  else if w.intin < 149 then w.setFontnum 4
  else w.setFontnum 5

/-- A panel begins: its first point, or the first point of another part of it. -/
def panel (w : VGWINTYPE) : VGWINTYPE :=
  let closing :=
    match w.TEKPanel.getLast? with
    | some last => if last.1 ≠ w.savx ∧ last.2 ≠ w.savy then [(w.savx, w.savy)] else []
    | none => []
  { w with
    TEKOutline := w.intin ≠ 0
    TEKPanel := w.TEKPanel ++ closing ++ [(w.newx, w.newy)]
    savx := w.newx
    savy := w.newy
    savstate := .PANEL
    mode := .DONE }.newcoord

/-- A character where the machine is ready for anything. -/
def anything (font : Font) (w : VGWINTYPE) (cmd c : UInt8) : Outcome :=
  if c = 31 then { w with mode := .ALPHA }.goto .CANCEL
  else if c = 30 then w.goto .RS
  else if c = 28 then { w with mode := .MARK }.goto .HIY
  else if c = 29 then w.goto .ENTERVEC
  else if c = 27 then w.goto .CMD0
  else if w.mode = .ALPHA then
    if ¬w.TEKtype then .ret (w.drawc font c.toNat)
    else if ¬w.gTekCopying then .ret (w.emit (.VSwrite c)).unstore
    else .ret w
  else if (w.mode = .DRAW ∨ w.mode = .MARK) ∧ cmd ≠ 0 then w.againIn .HIY
  else if w.mode = .DRAW ∧ (c = 13 ∨ c = 10) then { w with mode := .ALPHA }.goto .CANCEL
  else .ret w

/-- What a character does in each state. -/
def switch (font : Font) (w : VGWINTYPE) (c : UInt8) : Outcome :=
  let cmd := (c >>> 5) &&& 3
  let value := c &&& 0x1f
  match w.state with
  | .HIY | .EXTRA | .LOY | .HIX | .LOX => w.coordinate cmd value
  | .ESCOUT =>
    if value ≠ 13 ∧ value ≠ 10 ∧ value ≠ 27 then w.againIn w.savstate else .stay w
  | .ENTERVEC =>
    let w := if c = 7 then { w with mode := .DRAW } else w
    if c < 32 then { w with mode := .DONE }.againIn .DONE
    else { w with mode := .TEMPMOVE, modesave := .DRAW }.againIn .HIY
  | .RS => w.plot c
  | .CMD0 => w.command c
  | .TERMSTAT => if c = 33 then .stay (w.integerThen .DONE) else .stay w
  | .SOMER => if c = 65 then .stay (w.integerThen .VIEWAT) else w.goto .DONE
  | .VIEWAT => .again (w.integerThen .VIEWAT2)
  | .VIEWAT2 => .again ({ w with TEKBackground := clamp 0 7 w.intin }.integerThen .DONE)
  | .SOMET => w.commandT c
  | .JUNKARRAY => .stay (w.integerThen .STARTDISC)
  | .STARTDISC => { w with count := short (w.intin+1) }.againIn .DISCARDING
  | .DISCARDING => w.discard
  | .INTEGER | .INTEGER1 | .INTEGER2 => w.integer c
  | .IGNORE => w.goto .DONE
  | .IGNORE2 => w.goto .IGNORE
  | .SOMEL => w.commandL c
  | .SOMEM => w.commandM c
  | .COLORINT =>
    ({ w with pencolor := w.intin }.emit (.pencolor w.intin)).againIn .CANCEL
  | .GTSIZE0 => .again (w.integerThen .GTSIZE1)
  | .GTSIZE1 => .again (w.textSize.integerThen .DONE)
  | .GTEXT =>
    if w.intin > 0 then
      let w := w.drawc font c.toNat
      .stay { w with intin := short (w.intin-1) }
    else w.newcoord.againIn .DONE
  | .MARKER => { w with TEKMarker := clamp 0 10 (w.intin.bmod 256) }.againIn .DONE
  | .GTPATH => { w with TEKPath := w.intin }.againIn .DONE
  | .FPATTERN => { w with TEKPattern := clamp (-7) 149 w.intin }.againIn .DONE
  | .GTROT => .again ({ w with TEKRot := w.intin }.integerThen .GTROT1)
  | .GTROT1 =>
    let rot := short (w.TEKRot*2^w.intin.toNat)
    { w with TEKRot := short ((rot+45).tdiv 90*90) }.againIn .DONE
  | .GTINDEX => { w with TEKIndex := clamp 0 7 w.intin }.againIn .DONE
  | .PANEL => w.panel.againIn .DONE
  | .DONE => w.anything font cmd c
  | .CANCEL => .stay w

/-- A mode that holds for one position only. -/
def temporaryMode : VGmode → Bool
  | .TEMPDRAW | .TEMPMOVE | .TEMPMARK => true
  | _ => false

/-- What a complete position does in each mode. -/
def finish (font : Font) (w : VGWINTYPE) : VGWINTYPE :=
  if w.mode = .PANEL then { w with mode := .DONE }.integerThen .PANEL
  else if w.TEKPanel ≠ [] ∧ (w.mode = .DRAW ∨ w.mode = .MARK ∨ temporaryMode w.mode) then
    let w := { w with TEKPanel := w.TEKPanel ++ [(w.newx, w.newy)] }
    (if temporaryMode w.mode then { w with mode := w.modesave } else w).newcoord
  else if w.mode = .TEMPMOVE then { w with mode := w.modesave }.newcoord
  else if w.mode = .DRAW ∨ w.mode = .TEMPDRAW then
    let w := (w.emit (.clipvec w.curx w.cury w.newx w.newy)).newcoord
    if w.mode = .TEMPDRAW then { w with mode := w.modesave } else w
  else if w.mode = .MARK ∨ w.mode = .TEMPMARK then
    let w := w.newcoord
    let w := (if w.TEKtype then w.drawc font (127+w.TEKMarker) else w).newcoord
    if w.mode = .TEMPMARK then { w with mode := w.modesave } else w
  else w

/-- The end of a pass through the machine. -/
def afterSwitch (font : Font) (w : VGWINTYPE) : VGWINTYPE :=
  let w := if w.state = .DONE then w.finish font else w
  if w.state = .CANCEL then { w with state := .DONE } else w

/-- At most `passes` passes of a character through the machine. -/
def drawLoop (font : Font) (c : UInt8) : ℕ → VGWINTYPE → VGWINTYPE
  | 0, w => w
  | passes+1, w =>
    match w.switch font c with
    | .ret w => w
    | .stay w => w.afterSwitch font
    | .again w => drawLoop font c passes (w.afterSwitch font)

/-- The machine takes a character. -/
def VGdraw (font : Font) (w : VGWINTYPE) (c : UInt8) : VGWINTYPE :=
  drawLoop font (c &&& 0x7f) 8 w

/-- A new window. -/
def VGnewwin (tek4105 tekclear : Bool) (outside : Int → UInt8) (grants : List Bool) :
    VGWINTYPE :=
  (setFontnum
    { state := .DONE, savstate := .HIY, mode := .ALPHA, modesave := .ALPHA,
      loy := 0, hiy := 0, lox := 0, hix := 0, ex := 0, ey := 0,
      nloy := 0, nhiy := 0, nlox := 0, nhix := 0, nex := 0, ney := 0,
      curx := 0, cury := 0, savx := 0, savy := 0, textcol := 0, intin := 0, pencolor := 0,
      fontnum := 0, charx := 0, chary := 0, count := 0,
      tekclear := tekclear, TEKtype := tek4105, TEKMarker := 0, TEKOutline := false,
      TEKPath := 0, TEKPattern := 0, TEKIndex := 0, TEKRot := 0, TEKSize := 0,
      TEKBackground := 0, TEKPanel := [], gTekCopying := false,
      store := newTEKstore outside,
      grants := grants, events := [.pencolor 1] } 0).storexy 0 3071

end VGWINTYPE

end Tek
