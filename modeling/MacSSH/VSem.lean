import MacSSH.Emulation

/-! The emulation: text, control characters and escape sequences. -/
namespace VS

open Linked

/-- A character attribute of the host, as a bit. -/
def VSa (x : Int) : BitVec 32 := 1 <<< (x-1).toNat

def kVSansifg : BitVec 32 := 0x800

def kVSansibg : BitVec 32 := 0x8000

def kVSansifg2 : BitVec 32 := 0x10000

def kVSansibg2 : BitVec 32 := 0x20000

def VSansifg (x : BitVec 32) : BitVec 32 := x ||| kVSansifg

def VSansibg (x : BitVec 32) : BitVec 32 := x ||| kVSansibg

def VSansifg2 (x : BitVec 32) : BitVec 32 := x ||| (kVSansifg2 ||| kVSansifg)

def VSansibg2 (x : BitVec 32) : BitVec 32 := x ||| (kVSansibg2 ||| kVSansibg)

/-- What the attribute `p` of the host makes of the writing attributes. -/
def sgr (ANSIgraphics : Bool) (attrib : BitVec 32) (p : Int) : BitVec 32 :=
  if p = 0 then attrib &&& (kVSansi2b ||| kVSgrph)
  else if p > 0 ∧ p < 8 then attrib ||| VSa p
  else if p ≥ 10 ∧ p < 20 then attrib
  else if p > 20 ∧ p < 28 then attrib &&& ~~~VSa (p-20)
  else if ANSIgraphics then
    if p ≥ 30 ∧ p < 38 then VSansifg ((attrib &&& 0xfffcf0ff) ||| (BitVec.ofInt 32 (p-30) <<< 8))
    else if p ≥ 38 ∧ p < 40 then attrib &&& 0xfffef0ff
    else if p ≥ 40 ∧ p < 48 then
      VSansibg ((attrib &&& 0xfffc0fff) ||| (BitVec.ofInt 32 (p-40) <<< 12))
    else if p ≥ 48 ∧ p < 50 then attrib &&& 0xfffd0fff
    else if p ≥ 90 ∧ p < 98 then
      VSansifg2 ((attrib &&& 0xfffcf0ff) ||| (BitVec.ofInt 32 (p-90) <<< 8))
    else if p ≥ 100 ∧ p < 108 then
      VSansibg2 ((attrib &&& 0xfffc0fff) ||| (BitVec.ofInt 32 (p-100) <<< 12))
    else attrib
  else attrib

/-- The emulation in the middle of a chunk: its escape state and what is left of the
chunk. -/
structure Pass (τ : Type) where
  e : Emulation τ
  escflg : EscState
  escflags : ℕ
  rest : List UInt8

/-- What an octet of an escape sequence comes to: it is consumed, the sequence ends with
it, or a loop of the emulation does not end. -/
inductive Esc (τ : Type) where
  | next (e : Emulation τ) (escflg : EscState) (escflags : ℕ)
  | shortCut (e : Emulation τ)
  | hang

/-- Where a part of the emulation leaves off: it goes on with the next part, or from the
start. -/
inductive Flow (τ : Type) where
  | fall (p : Pass τ)
  | again (p : Pass τ)
  | hang

def Flow.andThen {τ : Type} (f : Flow τ) (part : Pass τ → Flow τ) : Flow τ :=
  match f with
  | .fall p => part p
  | .again p => .again p
  | .hang => .hang

variable {τ : Type}

/-- The end of a sequence; `c` is the octet it ends with. -/
def Emulation.shortCut (e : Emulation τ) (c : UInt8) (rest : List UInt8) : Pass τ where
  e := if e.possibleForce ∧ c ≠ 0x48 then { e with possibleForce := false } else e
  escflg := .esc_root
  escflags := 0
  rest := rest

/-- Go on in an escape state as long as it lasts. -/
def escLoop (st : EscState) (step : Emulation τ → ℕ → UInt8 → Esc τ) (e : Emulation τ)
    (escflg : EscState) (escflags : ℕ) : List UInt8 → Flow τ
  | [] => .fall ⟨e, escflg, escflags, []⟩
  | c :: cs =>
    if escflg = st then
      match step e escflags c with
      | .next e escflg escflags => escLoop st step e escflg escflags cs
      | .shortCut e => .again (e.shortCut c cs)
      | .hang => .hang
    else .fall ⟨e, escflg, escflags, c :: cs⟩

/-- A part of the emulation that handles one escape state. -/
def escPart (st : EscState) (step : Emulation τ → ℕ → UInt8 → Esc τ) (p : Pass τ) : Flow τ :=
  escLoop st step p.e p.escflg p.escflags p.rest

namespace Emulation

def backspace (e : Emulation τ) : Emulation τ := if e.x > 0 then { e with x := e.x-1 } else e

/-- A control character. -/
def control (e : Emulation τ) (c : UInt8) : Emulation τ :=
  if c = 0x0e then
    -- lock shift G1
    let attrib := if e.G1 then VSgraph e.attrib else VSnotgraph e.attrib
    { e with attrib := attrib, charset := true }
  else if c = 0x0f then
    -- lock shift G0
    let attrib := if e.G0 then VSgraph e.attrib else VSnotgraph e.attrib
    { e with attrib := attrib, charset := false }
  else if c = 0x08 then e.backspace.trflush
  else if c = 0x09 then e.VSItab
  else if c = 0x0a ∨ c = 0x0b ∨ c = 0x0c then e.lineFeed
  else if c = 0x0d then { e with x := 0 }.trflush
  else e

/-- Control characters, until there is text or an escape; also whether a control
character is text. -/
def controls (e : Emulation τ) (escflags : ℕ) : List UInt8 → Pass τ × Bool
  | [] => (⟨e, .esc_root, escflags, []⟩, false)
  | c :: cs =>
    if c < 32 then
      if c = 0x1b then (⟨e, .esc_basic, escflags, cs⟩, false)
      else if c ≥ 0x10 ∧ (e.vtemulation = .ansi ∨ e.vtemulation = .linux) then
        (⟨e, .esc_root, escflags, c :: cs⟩, true)
      else controls (e.control c) escflags cs
    else (⟨e, .esc_root, escflags, c :: cs⟩, false)

/-- The octet is an eight-bit control of the VT220. -/
def isC1 (e : Emulation τ) (c : UInt8) : Bool :=
  c ≥ 0x80 && c < 0xa0 && e.vtemulation ≠ .vt100 && e.vteightbits

/-- Titles and palettes are for windows that emulate an XTerm. -/
def xterm (e : Emulation τ) : Bool :=
  match e.tw with
  | none => false
  | some tw => tw.Xterm

/-- One eight-bit control. -/
def c1 (p : Pass τ) : Flow τ :=
  match p.rest with
  | [] => .fall p
  | c :: cs =>
    if p.escflg = .esc_root ∧ p.e.isC1 c then
      if c = 0x84 then .again (p.e.lineFeed.shortCut c cs)
      else if c = 0x85 then .again ({ p.e with x := 0 }.lineFeed.shortCut c cs)
      else if c = 0x88 then .again ((p.e.setTab true).shortCut c cs)
      else if c = 0x8d then .again ((p.e.onScreen VSscrn.VSIrindex).shortCut c cs)
      else if c = 0x9b then .fall ⟨p.e.VSIapclear, .esc_csi, 0, cs⟩
      else if c = 0x9d ∧ p.e.xterm then .fall ⟨p.e, .esc_XTerm, 0, c :: cs⟩
      else .again (p.e.shortCut c cs)
    else .fall p

/-- A run of text on one line: where the next character goes, and the column the run
starts at. -/
structure Run where
  line : Ptr
  aline : Ptr
  cur : Int
  sx : Int

/-- Start a run; a cursor beyond the last column `mw` is wrapped, or goes back. -/
def startRun (e : Emulation τ) (mw : Int) : Emulation τ × Run :=
  let e :=
    if e.x > mw then
      if e.DECAWM then ({ e with x := 0 }.onScreen (·.setWrap true)).VSIindex
      else { e with x := mw }
    else e
  (e, ⟨e.buf.row e.y, e.buf.cellRow e.y, e.x, e.x⟩)

/-- Write one character of a run. -/
def putCell (e : Emulation τ) (r : Run) (k : Int) (c : UInt8) (a : BitVec 32) : Emulation τ :=
  { e with
    buf.mem.text :=
      Function.update e.buf.mem.text r.line (Function.update (e.buf.mem.text r.line) k c)
    buf.mem.attr :=
      Function.update e.buf.mem.attr r.aline (Function.update (e.buf.mem.attr r.aline) k a) }

/-- Write the characters `cs` from column `k` on. -/
def putCells (e : Emulation τ) (r : Run) (k : Int) (a : BitVec 32) : List UInt8 → Emulation τ
  | [] => e
  | c :: cs => putCells (e.putCell r k c a) r (k+1) a cs

/-- Make room for a character in insert mode. -/
def makeRoom (e : Emulation τ) (clear : Bool) : Option (Emulation τ) :=
  if e.IRM then e.VSIinschar 1 clear else some e

/-- What an octet of text comes to: the run goes on, or it ends, with the octet consumed
or not. -/
inductive Typed (τ : Type) where
  | on (e : Emulation τ) (r : Run)
  | off (e : Emulation τ) (consumed : Bool)
  | hang

/-- Advance the cursor behind a character. -/
def advance (e : Emulation τ) (mw : Int) (r : Run) : Typed τ :=
  if e.x < mw then .on { e with x := short (e.x+1) } { r with cur := r.cur+1 }
  else if e.DECAWM then .off { e with x := short (e.x+1) } true
  else .on { e with x := mw } r

/-- The last of the characters `out` is not marked as one that others follow. -/
def untag (e : Emulation τ) (attrib : BitVec 32) (r : Run) (out : List UInt8) : Emulation τ :=
  { e.putCell r r.cur (out.getLastD 0) attrib with trintag := false }

/-- The mark of the last character: a single one beyond ASCII may be the first half of a
character of two octets. -/
def tagLast (e : Emulation τ) (attrib : BitVec 32) (r : Run) (out : List UInt8) : Emulation τ :=
  if out.length = 1 ∧ out.getLastD 0 ≥ 0x80 ∧ e.trintag = false ∧ e.multibyte = true then
    { e with trintag := true }
  else e.untag attrib r out

/-- The run starts behind a marked character, of which this one is the second half. -/
def behindTag (e : Emulation τ) (r : Run) : Prop :=
  e.x = r.sx ∧ r.sx > 0 ∧ e.buf.mem.attr r.aline (r.cur-1) &&& kVSansi2b ≠ 0

instance (e : Emulation τ) (r : Run) : Decidable (e.behindTag r) :=
  inferInstanceAs (Decidable (_ ∧ _))

/-- Write the translated characters `out`; `trattr` marks those that others follow. -/
def putTranslated (e : Emulation τ) (attrib : BitVec 32) (mw : Int) (r : Run)
    (out : List UInt8) (trattr : BitVec 32) : Typed τ :=
  match e.makeRoom true with
  | none => .hang
  | some e =>
    let first := r.cur-e.trinx
    let r := { r with cur := first+out.length-1 }
    let e := { e.putCells r first trattr out with lastchar := out.getLastD 0 }
    let e := e.tagLast attrib r out
    if e.behindTag r then
      let e := { e.untag attrib r out with trinx := 0, trinbuf := [] }
      e.advance mw { r with sx := r.sx-1 }
    else
      let e := { e with trinx := 0, trinbuf := [] }
      e.advance mw r

/-- One octet of text. -/
def typed (e : Emulation τ) (attrib : BitVec 32) (mw : Int) (r : Run) (c : UInt8) : Typed τ :=
  match e.tw with
  | none =>
    match { e with lastchar := c }.makeRoom true with
    | none => .hang
    | some e => (e.putCell r r.cur c attrib).advance mw r
  | some tw =>
    let pending := e.trinbuf ++ [c]
    match tw.trbuf_nat_mac e.tr pending with
    | (tr, .failed) =>
      let e := { e with tr := tr }
      if e.x > mw then
        -- the octet is taken back, and wrapped or eaten
        if !e.DECAWM then .on e r else .off { e with x := short (e.x+1) } false
      else { e with trinbuf := pending }.putTranslated attrib mw r pending (attrib ||| kVSansi2b)
    | (tr, .done inlen out) =>
      let pending := pending.drop inlen
      let e := { e with tr := tr, trinbuf := pending }
      if out = [] then
        if pending.length < 4 then
          let e := { e with x := short (e.x+1), trinx := e.trinx+1 }
          match e.makeRoom false with
          | none => .hang
          | some e => .on e { r with cur := r.cur+1 }
        else e.putTranslated attrib mw r pending attrib
      else e.putTranslated attrib mw r out (attrib ||| kVSansi2b)

/-- The octet is text: a control character is when `tryit` says so. -/
def isText (e : Emulation τ) (tryit : Bool) (c : UInt8) : Bool :=
  (c ≥ 32 || tryit) && !e.isC1 c

/-- The characters of a run on one line; the writing attributes are those at its start. -/
def runLoop (attrib : BitVec 32) (mw : Int) (tryit : Bool) (e : Emulation τ) (r : Run) :
    List UInt8 → Option (Emulation τ × List UInt8)
  | [] => some (e, [])
  | c :: cs =>
    if e.isText tryit c then
      match e.typed attrib mw r c with
      | .on e r => runLoop attrib mw tryit e r cs
      | .off e consumed => some (e, if consumed then cs else c :: cs)
      | .hang => none
    else some (e, c :: cs)

/-- Lines of text. A run that neither writes nor wraps would go on for ever. -/
def textLoop (mw : Int) (tryit : Bool) : ℕ → Emulation τ → List UInt8 →
    Option (Emulation τ × List UInt8)
  | 0, e, rest =>
    match rest with
    | [] => some (e, [])
    | c :: cs => if e.isText tryit c then none else some (e, c :: cs)
  | fuel+1, e, rest =>
    match rest with
    | [] => some (e, [])
    | c :: cs =>
      if e.isText tryit c then
        let start := e.startRun mw
        match runLoop start.1.attrib mw tryit start.1 start.2 (c :: cs) with
        | none => none
        | some (e, rest) => textLoop mw tryit fuel e rest
      else some (e, c :: cs)

/-- Text in the ground state. -/
def text (mw : Int) (tryit : Bool) (p : Pass τ) : Flow τ :=
  if p.escflg = .esc_root then
    match textLoop mw tryit (2*p.rest.length+2) p.e p.rest with
    | none => .hang
    | some (e, rest) => .fall { p with e := e, rest := rest }
  else .fall p

end Emulation

/-- What an octet behind `ESC` asks for. -/
inductive BasicChar where
  | backspace | csi | save | restore | reset | index | nextLine | reverse | DECPAM (on : Bool)
  | state (st : EscState) | setTab | osc | url | other

def BasicChar.of (c : UInt8) : BasicChar :=
  if c = 0x08 then .backspace
  else if c = 0x5b then .csi            -- [
  else if c = 0x37 then .save           -- 7
  else if c = 0x38 then .restore        -- 8
  else if c = 0x63 then .reset          -- c
  else if c = 0x44 then .index          -- D
  else if c = 0x45 then .nextLine       -- E
  else if c = 0x4d then .reverse        -- M
  else if c = 0x3e then .DECPAM false   -- >
  else if c = 0x3d then .DECPAM true    -- =
  else if c = 0x20 ∨ c = 0x23 then .state .esc_decl   -- blank, #
  else if c = 0x28 then .state .esc_G0  -- (
  else if c = 0x29 then .state .esc_G1  -- )
  else if c = 0x2a then .state .esc_G2  -- *
  else if c = 0x2b then .state .esc_G3  -- +
  else if c = 0x24 then .state .esc_G0j -- $
  else if c = 0x2e then .state .esc_G2j -- .
  else if c = 0x48 then .setTab         -- H
  else if c = 0x5d then .osc            -- ]
  else if c = 0x26 then .url            -- &
  else .other

namespace Emulation

/-- An octet behind `ESC`. -/
def basic (e : Emulation τ) (escflags : ℕ) (c : UInt8) : Esc τ :=
  match BasicChar.of c with
  | .backspace => .next e.backspace .esc_basic escflags
  | .csi => .next e.VSIapclear .esc_csi 0
  | .save => .shortCut e.VSIsave
  | .restore => .shortCut e.VSIrestore
  | .reset => .shortCut e.VSIreset
  | .index => .shortCut e.lineFeed
  | .nextLine => .shortCut { e with x := 0 }.lineFeed
  | .reverse => .shortCut (e.onScreen VSscrn.VSIrindex)
  | .DECPAM on => .shortCut { e with DECPAM := on }
  | .state st => .next e st (if st = .esc_G0j then 0 else escflags)
  | .setTab => .shortCut (e.setTab true)
  | .osc => if e.xterm then .next e .esc_XTerm 0 else .shortCut e
  | .url => .next e .esc_url 0
  | .other => .shortCut e

end Emulation

/-- What an octet of a control sequence asks for. -/
inductive CsiChar where
  | backspace | digit (d : Int) | question | semicolon | quote | up | erase | repeated | down
  | right | row | left | column | tabClear | option (on : Bool) | position | media
  | eraseDisplay | eraseLine | insertLines | deleteLines | attributes | deleteChars | margins
  | greater | insertChars | decPrivate | other

def CsiChar.of (c : UInt8) : CsiChar :=
  if c = 0x08 then .backspace
  else if c ≥ 0x30 ∧ c ≤ 0x39 then .digit (c.toNat-0x30)
  else if c = 0x3f then .question       -- ?
  else if c = 0x3b then .semicolon      -- ;
  else if c = 0x22 then .quote          -- the double quote
  else if c = 0x41 then .up             -- A
  else if c = 0x58 then .erase          -- X
  else if c = 0x62 then .repeated       -- b
  else if c = 0x42 then .down           -- B
  else if c = 0x43 then .right          -- C
  else if c = 0x64 then .row            -- d
  else if c = 0x44 then .left           -- D
  else if c = 0x47 then .column         -- G
  else if c = 0x67 then .tabClear       -- g
  else if c = 0x68 then .option true    -- h
  else if c = 0x6c then .option false   -- l
  else if c = 0x66 ∨ c = 0x48 then .position   -- f, H
  else if c = 0x69 then .media          -- i
  else if c = 0x4a then .eraseDisplay   -- J
  else if c = 0x4b then .eraseLine      -- K
  else if c = 0x4c then .insertLines    -- L
  else if c = 0x4d then .deleteLines    -- M
  else if c = 0x6d then .attributes     -- m
  else if c = 0x50 then .deleteChars    -- P
  else if c = 0x72 then .margins        -- r
  else if c = 0x3e then .greater        -- >
  else if c = 0x40 then .insertChars    -- @
  else if c = 0x21 ∨ c = 0x27 then .decPrivate    -- !, the single quote
  else .other

namespace Emulation

def parm (e : Emulation τ) (i v : Int) : Emulation τ :=
  { e with parms := Function.update e.parms i v }

/-- A digit of a parameter. -/
def digit (e : Emulation τ) (d : Int) : Emulation τ :=
  let v := if e.parms e.parmptr < 0 then 0 else e.parms e.parmptr
  e.parm e.parmptr (short (short (v*10)+d))

/-- The count of a control function; one is the least. -/
def count (e : Emulation τ) : Int := lineCount (e.parms 0)

def cursorUp (e : Emulation τ) : Emulation τ :=
  let y := short (e.y-e.count)
  let y := if y < 0 then 0 else y
  let y := if y < e.top then e.top else y
  { e with y := y }.VSIrange

def cursorDown (e : Emulation τ) : Emulation τ :=
  let y := short (e.y+e.count)
  let y := if y > e.bottom then e.bottom else y
  { e with y := y }.VSIrange

/-- To the right from where the cursor is, which may be before the first column. -/
def goRight (e : Emulation τ) (mw n : Int) : Emulation τ :=
  let e := { e with x := short (e.x+n) }.VSIrange
  { e with x := if e.x > mw then mw else e.x }

def cursorRight (e : Emulation τ) (mw : Int) : Emulation τ :=
  if e.DECAWM ∧ e.x ≥ mw then
    -- autowrap
    if e.y ≥ e.buf.lines then e
    else { e with y := short (e.y+1), x := if e.x > mw then 0 else -1 }.goRight mw e.count
  else e.goRight mw e.count

def goLeft (e : Emulation τ) (n : Int) : Emulation τ := { e with x := short (e.x-n) }.VSIrange

def cursorLeft (e : Emulation τ) (mw : Int) : Emulation τ :=
  if e.DECAWM ∧ e.x ≤ 0 then
    -- autowrap
    if e.y ≤ 0 then e
    else { e with y := short (e.y-1), x := short (mw+1) }.goLeft e.count
  else e.goLeft e.count

def cursorRow (e : Emulation τ) (mw : Int) : Emulation τ :=
  let y := short (e.parms 0-1)
  let x := if e.DECAWM ∧ e.x > mw then 0 else e.x
  let y := if y < 0 then 0 else y
  let y := if y > e.buf.lines then e.buf.lines else y
  { e with x := x, y := y }

/-- To the column of parameter 0. -/
def goColumn (e : Emulation τ) (mw : Int) : Emulation τ :=
  let x := short (e.parms 0-1)
  let x := if x < 0 then 0 else x
  { e with x := if x > mw then mw else x }

def cursorColumn (e : Emulation τ) (mw : Int) : Emulation τ :=
  if e.DECAWM ∧ e.x > mw then
    -- autowrap
    if e.y ≥ e.buf.lines then e else { e with y := short (e.y+1) }.goColumn mw
  else e.goColumn mw

def cursorPosition (e : Emulation τ) (mw : Int) : Emulation τ :=
  let x := short (e.parms 1-1)
  let y := short (if e.DECORG then e.parms 0-1+e.top else e.parms 0-1)
  let x := if x < 0 then 0 else x
  let x := if x > mw then mw else x
  let y := if y < 0 then 0 else y
  let y := if y > e.buf.lines then e.buf.lines else y
  let possibleForce := if e.forcesave ∧ y = 0 ∧ x = 0 then true else e.possibleForce
  { e with x := x, y := y, possibleForce := possibleForce }

def eraseDisplay (e : Emulation τ) : Emulation τ :=
  if e.parms 0 = -1 ∨ e.parms 0 = 0 then e.VSIeeos
  else if e.parms 0 = 1 then e.wrapping VSscrn.VSIebos
  else if e.parms 0 = 2 then e.onScreen (·.VSIes e.ESscroll)
  else e

def eraseLine (e : Emulation τ) : Emulation τ :=
  if e.parms 0 = -1 ∨ e.parms 0 = 0 then e.VSIeeol
  else if e.parms 0 = 1 then e.wrapping VSscrn.VSIebol
  else if e.parms 0 = 2 then e.wrapping VSscrn.VSIel
  else e

/-- A missing parameter 0 of a line edit becomes 1. -/
def leastOne (e : Emulation τ) : Emulation τ := if e.parms 0 < 1 then e.parm 0 1 else e

def ansiGraphics (e : Emulation τ) : Bool :=
  match e.tw with
  | none => false
  | some tw => tw.ANSIgraphics

def attributes (e : Emulation τ) : Emulation τ :=
  if e.parms 0 = -2 then e
  else
    let e := if e.parms e.parmptr < 0 then e.parm e.parmptr 0 else e
    { e with attrib :=
        (loopRange 0 e.parmptr).foldl (fun a i => sgr e.ansiGraphics a (e.parms i)) e.attrib }

def setMargins (e : Emulation τ) : Emulation τ :=
  if e.parms 0-1 = e.top ∧ e.parms 1-1 = e.bottom then e
  else
    let top := if e.parms 0 < 0 then 0 else e.parms 0-1
    let bottom := if e.parms 1 < 0 then e.buf.lines else e.parms 1-1
    let top := if top < 0 then 0 else top
    let top := if top > e.buf.lines-1 then e.buf.lines-1 else top
    let bottom := if bottom < 1 then e.buf.lines else bottom
    let bottom := if bottom > e.buf.lines then e.buf.lines else bottom
    let (top, bottom) :=
      if top ≥ bottom then if bottom ≥ 1 then (bottom-1, bottom) else (top, top+1)
      else (top, bottom)
    { e with top := top, bottom := bottom, x := 0, y := if e.DECORG then top else 0 }

/-- The emulation of `len` copies of the last character, by 256 at a time; `inner` is the
emulation itself. -/
def repeatLoop (inner : Emulation τ → List UInt8 → Option (Emulation τ)) :
    ℕ → Emulation τ → Option (Emulation τ)
  | 0, e => some e
  | fuel+1, e =>
    if e.parms 0 > 0 then
      let len := if e.parms 0 > 256 then 256 else e.parms 0
      let e := { e.parm 0 (e.parms 0-len) with escflg := .esc_root }
      match inner e (List.replicate len.toNat e.lastchar) with
      | none => none
      | some e => repeatLoop inner fuel e
    else some e

def repeatLast (inner : Emulation τ → List UInt8 → Option (Emulation τ)) (e : Emulation τ) :
    Option (Emulation τ) :=
  repeatLoop inner (e.parms 0).toNat e

/-- Erase characters by the emulation of blanks, and put back what that changes. -/
def eraseChars (inner : Emulation τ → List UInt8 → Option (Emulation τ)) (e : Emulation τ) :
    Option (Emulation τ) :=
  let e := if e.parms 0 = 0 then e.parm 0 1 else e
  let attrib := if e.vtemulation = .linux then e.attrib
    else e.attrib &&& (kVSansi2b ||| kVSgrph)
  (repeatLast inner { e with lastchar := 0x20, attrib := attrib }).map fun e' =>
    { e' with x := e.x, y := e.y, lastchar := e.lastchar, attrib := e.attrib }

/-- The end of a control function that may not return. -/
def ends : Option (Emulation τ) → Esc τ
  | none => .hang
  | some e => .shortCut e

/-- An octet of a control sequence. -/
def csi (inner : Emulation τ → List UInt8 → Option (Emulation τ)) (mw : Int) (e : Emulation τ)
    (escflags : ℕ) (c : UInt8) : Esc τ :=
  match CsiChar.of c with
  | .backspace => .next e.backspace .esc_csi escflags
  | .digit d => .next (e.digit d) .esc_csi escflags
  | .question =>
    .next { e.parm e.parmptr (-2) with parmptr := short (e.parmptr+1) } .esc_csi escflags
  | .semicolon => .next { e with parmptr := short (e.parmptr+1) } .esc_csi escflags
  | .quote => .next e .esc_descl escflags
  | .up => .shortCut e.cursorUp
  | .erase => ends (e.eraseChars inner)
  | .repeated => ends (e.repeatLast inner)
  | .down => .shortCut e.cursorDown
  | .right => .shortCut (e.cursorRight mw)
  | .row => .shortCut (e.cursorRow mw)
  | .left => .shortCut (e.cursorLeft mw)
  | .column => .shortCut (e.cursorColumn mw)
  | .tabClear =>
    if e.parms 0 = 3 then .shortCut e.VSItabclear
    else if e.parms 0 ≤ 0 then .shortCut (e.setTab false)
    else .shortCut e
  | .option on => .shortCut (e.VSIsetoption on)
  | .position => .shortCut (e.cursorPosition mw)
  | .media =>
    let e := if e.parms e.parmptr = 5 then { e with printer := e.printer.VSprON e.canPrint } else e
    .next e .esc_root escflags
  | .eraseDisplay => .shortCut e.eraseDisplay
  | .eraseLine => .shortCut e.eraseLine
  | .insertLines =>
    let e := e.leastOne
    .shortCut (e.onScreen fun s => { s with buf := VSIinslines s.region s.buf (e.parms 0) (-1) })
  | .deleteLines =>
    let e := e.leastOne
    .shortCut (e.onScreen fun s => { s with buf := VSIdellines s.region s.buf (e.parms 0) (-1) })
  | .attributes => .shortCut e.attributes
  | .deleteChars =>
    let e := e.leastOne
    .shortCut (e.wrapping (·.VSIdelchars (e.parms 0)))
  | .margins => .shortCut e.setMargins
  | .greater => .next e .esc_csi (escflags ||| 1)
  | .insertChars =>
    let e := e.leastOne
    ends (e.VSIinschar (e.parms 0) true)
  | .decPrivate => .next e .esc_decl escflags
  | .other => .shortCut e

/-- Give the cursor line the attributes of its size. -/
def lineSize (e : Emulation τ) (lattrib : BitVec 16) : Emulation τ :=
  let lattrib := (e.lattrib &&& ~~~(kVSdecdhlt ||| kVSdecdhlb)) ||| lattrib
  { e with lattrib := lattrib, buf.mem := e.buf.mem.setLattr (e.buf.row e.y) lattrib }

def decl (e : Emulation τ) (escflags : ℕ) (c : UInt8) : Esc τ :=
  if c = 0x08 then .next e.backspace .esc_decl escflags
  else if c = 0x33 then .shortCut (e.lineSize kVSdecdhlt)
  else if c = 0x34 then .shortCut (e.lineSize kVSdecdhlb)
  else if c = 0x35 then .shortCut (e.lineSize 0)
  else if c = 0x36 then .shortCut (e.lineSize (kVSdecdhlt ||| kVSdecdhlb))
  else if c = 0x38 then .shortCut (e.onScreen (·.VTalign e.ESscroll))
  else .shortCut e

/-- The level of the terminal. -/
def descl (e : Emulation τ) (escflags : ℕ) (c : UInt8) : Esc τ :=
  if c = 0x08 then .next e.backspace .esc_descl escflags
  else if c = 0x70 then
    if e.parms 0 = 61 then .shortCut { e with vtemulation := .vt100 }
    else if e.parms 0 = 62 then
      if e.parms 1 = -1 ∨ e.parms 1 = 0 ∨ e.parms 1 = 2 then
        .shortCut { e with vtemulation := .vt220, vteightbits := true }
      else if e.parms 1 = 1 then .shortCut { e with vtemulation := .vt220, vteightbits := false }
      else .shortCut e
    else .shortCut e
  else .shortCut e

/-- Character set G0 is a set of text, or of graphics. -/
def setG0 (e : Emulation τ) (graphics : Bool) : Emulation τ :=
  let e := { e with G0 := graphics }
  if e.charset then e
  else { e with attrib := if graphics then VSgraph e.attrib else VSnotgraph e.attrib }

def setG1 (e : Emulation τ) (graphics : Bool) : Emulation τ :=
  let e := { e with G1 := graphics }
  if e.charset then { e with attrib := if graphics then VSgraph e.attrib else VSnotgraph e.attrib }
  else e

/-- Switch the input translation when it is one with more than one octet for a
character. -/
def switchMultibyte (e : Emulation τ) (k : InTranslation) : Emulation τ :=
  if e.multibyte then e.switchin k else e

def G0set (e : Emulation τ) (escflags : ℕ) (c : UInt8) : Esc τ :=
  if c = 0x08 then .next e.backspace .esc_G0 escflags
  else if c = 0x41 ∨ c = 0x42 ∨ c = 0x31 then .shortCut ((e.setG0 false).switchMultibyte .ASCII)
  else if c = 0x30 ∨ c = 0x32 then .shortCut (e.setG0 true)
  else if c = 0x4a then .shortCut (e.switchMultibyte .JISX0201_1976)
  else if c = 0x49 then .shortCut (e.switchMultibyte .JISX0201_76kana)
  else .shortCut e

def G1set (e : Emulation τ) (escflags : ℕ) (c : UInt8) : Esc τ :=
  if c = 0x08 then .next e.backspace .esc_G1 escflags
  else if c = 0x41 ∨ c = 0x42 ∨ c = 0x31 then .shortCut (e.setG1 false)
  else if c = 0x30 ∨ c = 0x32 then .shortCut (e.setG1 true)
  else .shortCut e

/-- Character sets G2 and G3 are not supported. -/
def G2set (st : EscState) (e : Emulation τ) (escflags : ℕ) (c : UInt8) : Esc τ :=
  if c = 0x08 then .next e.backspace st escflags else .shortCut e

/-- A set of more than one octet for G0. -/
def G0jset (e : Emulation τ) (escflags : ℕ) (c : UInt8) : Esc τ :=
  if c = 0x08 then .next e.backspace .esc_G0j escflags
  else if c = 0x40 then
    .shortCut (if escflags = 0 then (e.setG0 false).switchMultibyte .JISX0208_1978 else e)
  else if c = 0x42 then
    .shortCut (if escflags = 0 then (e.setG0 false).switchMultibyte .JISX0208_1983 else e)
  else if c = 0x41 then .shortCut (if escflags = 0 then e.setG0 false else e)
  else if c = 0x28 ∧ escflags = 0 then .next e .esc_G0j 1
  else if c = 0x44 then
    .shortCut (if escflags = 1 then (e.setG0 false).switchMultibyte .JISX0212_1990 else e)
  else .shortCut e

def G2jset (e : Emulation τ) (escflags : ℕ) (c : UInt8) : Esc τ :=
  if c = 0x08 then .next e.backspace .esc_G2j escflags
  else if c = 0x41 ∨ c = 0x46 then
    .shortCut (if e.charset then { e with attrib := VSnotgraph e.attrib } else e)
  else .shortCut e

/-- The octets of a window's name; also what is left, and the last octet. -/
def title (e : Emulation τ) (before : UInt8) : List UInt8 → Emulation τ × UInt8 × List UInt8
  | [] => (e, before, [])
  | c :: cs =>
    if c = 7 ∨ c = 0x1b then (e, before, c :: cs)
    else
      title (if e.tempstr.length < 255 then { e with tempstr := e.tempstr ++ [c] } else e) c cs

/-- The name is complete, or goes on in the next chunk. -/
def endTitle (p : Pass τ) (before : UInt8) : Flow τ :=
  match p.e.title before p.rest with
  | (e, _, []) => .fall { p with e := e, rest := [] }
  | (e, last, c :: cs) =>
    let e := { e with wname := e.tempstr }
    -- an escape is left for the next sequence
    if c = 7 then .again (e.shortCut c cs) else .again (e.shortCut last (c :: cs))

def isHex (c : UInt8) : Bool :=
  (c ≥ 0x30 && c ≤ 0x39) || (c ≥ 0x41 && c ≤ 0x46) || (c ≥ 0x61 && c ≤ 0x66)

def hexValue (c : UInt8) : Int :=
  if c > 0x39 then ((c &&& 0xdf).toNat : Int)-0x41+10 else (c.toNat : Int)-0x30

/-- A digit of a palette entry. -/
def paletteDigit (p : Pass τ) : Flow τ :=
  match p.rest with
  | [] => .fall p
  | c :: cs =>
    if isHex c then
      let e := { p.e.parm p.e.parmptr (hexValue c) with parmptr := short (p.e.parmptr+1) }
      if e.parmptr = 7 then
        let newColor := ⟨16*e.parms 1+e.parms 2, 16*e.parms 3+e.parms 4, 16*e.parms 5+e.parms 6⟩
        .again ((e.RSsetcolors (e.parms 0+4) newColor).shortCut c cs)
      else .fall { p with e := e }
    else .again (p.e.shortCut c cs)

/-- An operating system command, with a window's name or a palette entry. -/
def oscCommand (before : UInt8) (p : Pass τ) : Flow τ :=
  if p.escflags = 1 then
    match p.rest with
    | [] => .fall p
    | c :: cs =>
      if c = 0x3b then
        endTitle { p with e := { p.e with tempstr := [] }, escflags := 2, rest := cs } c
      else .fall p
  else if p.escflags = 2 then endTitle p before
  else if p.escflags = 3 then paletteDigit p
  else .fall p

def osc (before : UInt8) (p : Pass τ) : Flow τ :=
  match p.rest with
  | [] => .fall p
  | c :: cs =>
    if p.escflg = .esc_XTerm then
      if p.escflags = 0 then
        if c = 0x30 ∨ c = 0x32 then oscCommand c { p with escflags := 1, rest := cs }
        else if c = 0x50 then oscCommand c { p with escflags := 3, rest := cs }
        else if c = 0x52 then .again (p.e.RSresetcolors.shortCut c cs)
        else .again (p.e.shortCut c cs)
      else oscCommand before p
    else .fall p

/-- An octet of the sequence that opens a URL. -/
def url (e : Emulation τ) (escflags : ℕ) (c : UInt8) : Esc τ :=
  if escflags = 0 ∧ c = 0x26 ∨ escflags = 1 ∧ c = 0x42 ∨ escflags = 2 ∧ c = 0x75 ∨
      escflags = 3 ∧ c = 0x72 ∨ escflags = 4 ∧ c = 0x6c then
    let e := if escflags+1 = 5 then { e with tempstr := [] } else e
    .next e .esc_url (escflags+1)
  else if escflags = 5 then
    if c = 0x0d ∨ c = 0x0a then .next e .esc_root escflags
    else if e.tempstr.length < 255 then
      .next { e with tempstr := e.tempstr ++ [c] } .esc_url escflags
    else .shortCut e
  else .shortCut e

/-- What the printer takes, and the control characters; also whether a control character
is text. -/
def groundPart (p : Pass τ) : Pass τ × Bool :=
  let p :=
    if p.e.printer.prredirect then
      let r := VSpr p.e.printer p.rest
      { p with e := { p.e with printer := r.printer }, rest := r.rest }
    else p
  if p.escflg = .esc_root then controls p.e p.escflags p.rest else (p, false)

/-- The end of the main loop: a sequence beyond the control sequences ends with the next
octet. -/
def trailing (p : Pass τ) : Flow τ :=
  match p.rest with
  | [] => .fall p
  | c :: cs => if p.escflg.beyondCsi then .again (p.e.shortCut c cs) else .fall p

/-- The parts of the main loop behind the control characters; `before` is the octet in
memory before the chunk. -/
def parts (inner : Emulation τ → List UInt8 → Option (Emulation τ)) (before : UInt8) (mw : Int)
    (tryit : Bool) : List (Pass τ → Flow τ) :=
  [c1, text mw tryit, escPart .esc_basic basic, escPart .esc_csi (csi inner mw),
    escPart .esc_decl decl, escPart .esc_descl descl, escPart .esc_G0 G0set,
    escPart .esc_G1 G1set, escPart .esc_G2 (G2set .esc_G2), escPart .esc_G3 (G2set .esc_G3),
    escPart .esc_G0j G0jset, escPart .esc_G2j G2jset, osc before, escPart .esc_url url, trailing]

/-- One part after the other, as long as none starts the main loop again. -/
def runParts : List (Pass τ → Flow τ) → Pass τ → Flow τ
  | [], p => .fall p
  | part :: later, p => (part p).andThen (runParts later)

/-- Once through the main loop. -/
def mainLoop (inner : Emulation τ → List UInt8 → Option (Emulation τ)) (before : UInt8)
    (p : Pass τ) : Flow τ :=
  let (ground, tryit) := groundPart p
  runParts (parts inner before p.e.lastColumn tryit) ground

/-- Go through the main loop until the chunk is used up. A pass that ends a title before an
escape uses up no octet. -/
def loop (inner : Emulation τ → List UInt8 → Option (Emulation τ)) (before : UInt8) :
    ℕ → Pass τ → Option (Pass τ)
  | 0, p => if p.rest = [] then some p else none
  | fuel+1, p =>
    if p.rest = [] then some p
    else
      match mainLoop inner before p with
      | .fall p | .again p => loop inner before fuel p
      | .hang => none

/-- The emulation of a chunk, with `inner` for the emulation of repeated characters. -/
def emulate (inner : Emulation τ → List UInt8 → Option (Emulation τ)) (before : UInt8)
    (e : Emulation τ) (chunk : List UInt8) : Option (Emulation τ) :=
  (loop inner before (2*chunk.length+1) ⟨e, e.escflg, e.escflags, chunk⟩).map fun p =>
    { p.e with escflg := p.escflg, escflags := p.escflags }

/-- The emulation of a chunk that the host sends. Repeated characters are equal, so that
their emulation repeats no characters itself. -/
def VSem (before : UInt8) (e : Emulation τ) (chunk : List UInt8) : Option (Emulation τ) :=
  emulate (emulate (fun e _ => some e) 0) before e chunk

end Emulation

end VS
