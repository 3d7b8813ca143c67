import MacSSH.InsertChars
import MacSSH.PrinterRedirection
import MacSSH.ScreenView

/-! The state of the emulation of one screen, and the routines that its control
functions call. -/
namespace VS

open Linked

/-- Escape states. -/
inductive EscState where
  | esc_root | esc_basic | esc_csi | esc_decl | esc_descl | esc_G0 | esc_G1 | esc_G2 | esc_G3
  | esc_G0j | esc_G2j | esc_XTerm | esc_url
  deriving DecidableEq, Repr

/-- `escflg > esc_csi`. -/
def EscState.beyondCsi : EscState → Bool
  | .esc_root | .esc_basic | .esc_csi => false
  | _ => true

@[ext]
structure RGBColor where
  red : Int
  green : Int
  blue : Int
  deriving DecidableEq

/-- The input translations that the emulation switches to: that of the output, and the
character sets that escape sequences select. -/
inductive InTranslation where
  | outgoing | ASCII | JISX0201_1976 | JISX0208_1978 | JISX0208_1983 | JISX0201_76kana
  | JISX0212_1990

/-- What a translation of pending octets comes to: an error, or the number of octets that
were used and the characters they make. -/
inductive Translated where
  | failed
  | done (inlen : ℕ) (out : List UInt8)

/-- The window of a screen, as far as the emulation sees it. `τ` is the state of its input
translation. -/
structure WindRec (τ : Type) where
  Xterm : Bool
  ANSIgraphics : Bool
  trbuf_nat_mac : τ → List UInt8 → τ × Translated
  trflush_nat_mac : τ → τ
  /-- The flag says whether the pending octets are forgotten. -/
  switchintranslation : τ → InTranslation → τ × Bool
  /-- The input translation is one with more than one octet for a character. -/
  multibyte : τ → Bool

/-- A screen with the state of its emulation. -/
structure Emulation (τ : Type) extends VSscrn where
  tw : Option (WindRec τ)
  tr : τ
  vteightbits : Bool
  forcesave : Bool
  possibleForce : Bool
  ESscroll : Bool
  Px : Int
  Py : Int
  Pattrib : BitVec 32
  lastchar : UInt8
  DECAWM : Bool
  DECCKM : Bool
  DECPAM : Bool
  DECORG : Bool
  G0 : Bool
  G1 : Bool
  charset : Bool
  IRM : Bool
  escflg : EscState
  escflags : ℕ
  parmptr : Int
  parms : Int → Int
  tabs : Int → Bool
  trinbuf : List UInt8
  trinx : Int
  trintag : Bool
  tempstr : List UInt8
  /-- The print file can be opened. -/
  canPrint : Bool
  printer : Printer
  /-- The name of the window. -/
  wname : List UInt8
  /-- The colours of the window. -/
  pal : Int → RGBColor
  savedColors : Int → RGBColor

def kVSwrap : BitVec 16 := 4

def VSgraph (x : BitVec 32) : BitVec 32 := x ||| kVSgrph

def VSnotgraph (x : BitVec 32) : BitVec 32 := x &&& ~~~kVSgrph

namespace VSscrn

/-- Blank the columns `is` of the cursor line. -/
def blankColumns (s : VSscrn) (is : List Int) : VSscrn :=
  let temp := s.buf.row s.y
  let tempa := s.buf.cellRow s.y
  let m := is.foldl (fun m i => m.blankCell temp tempa s.region.blankAttrib i) s.buf.mem
  { s with buf.mem := m }

/-- Erase the line from its beginning to the cursor. -/
def VSIebol (s : VSscrn) : VSscrn :=
  let s := s.VSIwrapnow
  s.blankColumns (loopRange 0 s.x)

/-- Erase the cursor line. -/
def VSIel (s : VSscrn) : VSscrn :=
  let s := s.VSIwrapnow
  s.blankColumns (loopRange 0 s.buf.allwidth)

/-- Erase the line from the cursor to its end. -/
def eraseToEnd (s : VSscrn) : VSscrn :=
  let s := s.VSIwrapnow
  s.blankColumns (loopRange s.x s.buf.allwidth)

/-- Erase the rows that `for (i = first; i <= last; i++)` runs over. -/
def eraseRows (s : VSscrn) (first last : Int) : VSscrn :=
  { s with buf := (loopRange first last).foldl (VSIelo s.region) s.buf }

/-- Erase the screen from its beginning to the cursor. -/
def VSIebos (s : VSscrn) : VSscrn :=
  let s := s.VSIwrapnow
  let y2 := short (s.y-1)
  s.VSIebol.eraseRows 0 y2

/-- Row `i` gets back what is in row `i` of `old`. -/
def restoreRow (old b : VSbuf) (i : Int) : VSbuf :=
  let text := fun j => if 0 ≤ j ∧ j ≤ b.allwidth then old.mem.text (old.row i) j
    else b.mem.text (b.row i) j
  let attr := fun j => if 0 ≤ j ∧ j ≤ b.allwidth then old.mem.attr (old.cellRow i) j
    else b.mem.attr (b.cellRow i) j
  let lattr := old.mem.lattr (old.row i)
  { b with
    mem.text := Function.update b.mem.text (b.row i) text
    mem.attr := Function.update b.mem.attr (b.cellRow i) attr
    mem.lattr := Function.update b.mem.lattr (b.row i) lattr }

/-- Save the screen in the scrollback, and leave it as it is. -/
def forceSave (s : VSscrn) : VSscrn :=
  { s with buf := (loopRange 0 s.buf.lines).foldl (restoreRow s.buf) (VSIscroff s.region s.buf) }

/-- Save the screen in the scrollback. -/
def VSIscroff (s : VSscrn) : VSscrn := { s with buf := VS.VSIscroff s.region s.buf }

/-- Erase the screen. -/
def VSIes (s : VSscrn) (ESscroll : Bool) : VSscrn :=
  { s with buf := VS.VSIes s.region ESscroll s.buf }

/-- The loop of the alignment display: every row but the last is filled. -/
def alignRow (s : VSscrn) (b : VSbuf) (j : Int) : VSbuf :=
  { b with mem := (b.mem.setLattr (b.row j) 0).fillText s.maxwidth (b.row j) 0x45 }

/-- Fill the screen with the letter E. -/
def VTalign (s : VSscrn) (ESscroll : Bool) : VSscrn :=
  let s := s.VSIes ESscroll
  { s with buf := (loopRange 0 (s.buf.lines-1)).foldl s.alignRow s.buf }

/-- Move the cursor up one line, or scroll down at the top of the scrolling region. -/
def VSIrindex (s : VSscrn) : VSscrn :=
  if s.y = s.top then { s with buf := VSIinslines s.region s.buf 1 s.top }
  else { s with y := short (s.y-1) }

/-- The next autowrap ends a line that goes on in the next one, or not. -/
def setWrap (s : VSscrn) (wraps : Bool) : VSscrn :=
  let p := s.buf.row s.y
  let l := s.buf.mem.lattr p
  { s with buf.mem := s.buf.mem.setLattr p (if wraps then l ||| kVSwrap else l &&& ~~~kVSwrap) }

end VSscrn

namespace Emulation
variable {τ : Type}

/-- Switch the input translation of the window. -/
def switchin (e : Emulation τ) (k : InTranslation) : Emulation τ :=
  match e.tw with
  | none => e
  | some tw =>
    let (tr, forgotten) := tw.switchintranslation e.tr k
    if forgotten then { e with tr := tr, trinbuf := [], trinx := 0, trintag := false }
    else { e with tr := tr }

/-- The input translation has more than one octet for a character. -/
def multibyte (e : Emulation τ) : Bool :=
  match e.tw with
  | none => false
  | some tw => tw.multibyte e.tr

/-- Forget the octets that have not made a character. -/
def trflush (e : Emulation τ) : Emulation τ :=
  match e.tw with
  | none => e
  | some tw => { e with tr := tw.trflush_nat_mac e.tr, trinx := 0, trinbuf := [] }

/-- Apply a routine to the screen. -/
def onScreen (e : Emulation τ) (f : VSscrn → VSscrn) : Emulation τ :=
  { e with toVSscrn := f e.toVSscrn }

def VSIindex (e : Emulation τ) : Emulation τ := (e.onScreen VSscrn.VSIindex).switchin .outgoing

/-- A line feed ends a line that does not go on in the next one. -/
def lineFeed (e : Emulation τ) : Emulation τ := (e.onScreen (·.setWrap false)).VSIindex

/-- A cursor beyond the last column goes to the next line, and the input translation back
to that of the output. -/
def wrapTranslation (e : Emulation τ) : Emulation τ :=
  if e.x > e.lastColumn then e.switchin .outgoing else e

/-- Apply a routine that wraps the cursor first. -/
def wrapping (e : Emulation τ) (f : VSscrn → VSscrn) : Emulation τ := e.wrapTranslation.onScreen f

def VSIinschar (e : Emulation τ) (x : Int) (clear : Bool) : Option (Emulation τ) :=
  (e.toVSscrn.VSIinschar x clear).map fun s => e.wrapTranslation.onScreen fun _ => s

/-- Erase the line from the cursor to its end. At the home position, when the cursor has
just been sent there, the screen is saved before. -/
def VSIeeol (e : Emulation τ) : Emulation τ :=
  let e :=
    if e.x = 0 ∧ e.y = 0 ∧ e.possibleForce then
      { e with possibleForce := false }.onScreen VSscrn.forceSave
    else e
  e.wrapping VSscrn.eraseToEnd

/-- Erase the screen from the cursor to its end. -/
def VSIeeos (e : Emulation τ) : Emulation τ :=
  let e := e.wrapping VSscrn.VSIwrapnow
  let i := short (e.y+1)
  let e := if e.ESscroll ∧ e.y = 0 ∧ e.x = 0 then e.onScreen VSscrn.VSIscroff else e
  let e := { e with possibleForce := false }.VSIeeol
  e.onScreen (·.eraseRows i e.buf.lines)

/-- The next tab stop, not beyond `maxwidth`. -/
def nextTab (e : Emulation τ) : ℕ → Int → Int
  | 0, current => current
  | fuel+1, current =>
    if !e.tabs current ∧ current < e.maxwidth then e.nextTab fuel (current+1) else current

def VSIgetNextTabDistance (e : Emulation τ) : Int :=
  if e.x ≥ e.maxwidth then 0 else e.nextTab (e.maxwidth-e.x).toNat (e.x+1)-e.x

def VSItab (e : Emulation τ) : Emulation τ := { e with x := short (e.x+e.VSIgetNextTabDistance) }

def VSItabclear (e : Emulation τ) : Emulation τ :=
  { e with tabs := fun j => if 0 ≤ j ∧ j ≤ e.buf.allwidth then false else e.tabs j }

/-- A tab stop in every eighth column and in the last one. -/
def VSItabinit (e : Emulation τ) : Emulation τ :=
  { e with tabs := fun j =>
      if 0 ≤ j ∧ j ≤ e.buf.allwidth then j % 8 = 0 ∨ j = e.buf.allwidth else e.tabs j }

def setTab (e : Emulation τ) (stop : Bool) : Emulation τ :=
  { e with tabs := Function.update e.tabs e.x stop }

/-- Back to the defaults, and clear the screen. -/
def VSIreset (e : Emulation τ) : Emulation τ :=
  let e := { e with
    top := 0, bottom := e.buf.lines, parmptr := 0, escflg := .esc_root, DECAWM := false
    DECCKM := false, DECPAM := false, DECORG := false, DECCM := true, Pattrib := 0xffffffff
    IRM := false, attrib := 0, x := 0, y := 0, charset := false, trinbuf := [], trinx := 0
    trintag := false, printer := e.printer.reset }
  (e.onScreen (·.VSIes e.ESscroll)).VSItabinit

/-- The number of parameters that a control sequence can have. -/
@[simp] abbrev maxparms : Int := 16

/-- No parameters yet. -/
def VSIapclear (e : Emulation τ) : Emulation τ :=
  { e with parms := fun i => if 0 ≤ i ∧ i < maxparms then -1 else e.parms i, parmptr := 0 }

/-- Set or reset a mode. -/
def VSIsetoption (e : Emulation τ) (toggle : Bool) : Emulation τ :=
  if e.parms 0 = -2 then
    if e.parms 1 = 1 then { e with DECCKM := toggle }
    else if e.parms 1 = 3 then { e with maxwidth := if toggle then 131 else 79 }
    else if e.parms 1 = 6 then { e with DECORG := toggle }
    else if e.parms 1 = 7 then { e with DECAWM := toggle }
    else if e.parms 1 = 25 then { e with DECCM := toggle }
    else e
  else if e.parms 0 = 4 then { e with IRM := toggle }
  else e

def VSIsave (e : Emulation τ) : Emulation τ := { e with Px := e.x, Py := e.y, Pattrib := e.attrib }

/-- Constrain the cursor to the screen; with autowrap it may be beyond the last column. -/
def VSIrange (e : Emulation τ) : Emulation τ :=
  let wrap := if e.DECAWM then 1 else 0
  let mw := e.lastColumn
  let x := if e.x < 0 then 0 else e.x
  let x := if x > mw+wrap then short (mw+wrap) else x
  let y := if e.y < 0 then 0 else e.y
  let y := if y > e.buf.lines then e.buf.lines else y
  { e with x := x, y := y }

def VSIrestore (e : Emulation τ) : Emulation τ :=
  if e.Pattrib = 0xffffffff then e
  else
    let e := { e with x := e.Px, y := e.Py }.VSIrange
    -- the selection of the graphics character set stays
    { e with attrib := (e.attrib &&& kVSgrph) ||| e.Pattrib }

/-- Palette entries before the colours of the host, and those of the host. -/
@[simp] abbrev WINDCOLORSIZE : Int := 4
@[simp] abbrev ANSICOLORSIZE : Int := 16

def RSsetcolors (e : Emulation τ) (n : Int) (color : RGBColor) : Emulation τ :=
  if n < 0 ∨ n ≥ WINDCOLORSIZE+ANSICOLORSIZE then e
  else { e with pal := Function.update e.pal n color }

def RSresetcolors (e : Emulation τ) : Emulation τ :=
  { e with pal := fun n =>
      if WINDCOLORSIZE ≤ n ∧ n < WINDCOLORSIZE+ANSICOLORSIZE then e.savedColors (n-WINDCOLORSIZE)
      else e.pal n }

end Emulation

end VS
