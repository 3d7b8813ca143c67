import MacSSH.TelnetOptions
import MacSSH.TelnetSuboptions

/-! The telnet parser. `parse` walks over one packet with two pointers: `orig`,
where the data begins that has not been passed on, and `st`, the next byte. Here
they are the lists `pend`, from `orig` to `st`, and `rest`, from `st` to the end. -/
namespace Telnet

/-- The plug-ins, and how many bytes the graphics windows take of a write. -/
structure Host where
  plugin : Plugin
  vgwrite : List GraphOp → List UInt8 → ℕ
  vrwrite : List GraphOp → List UInt8 → ℕ
  vgnewwin : List GraphOp → Int

/-- The parser in the middle of a packet; `overread` tells that it has looked at
the byte behind the end. -/
structure Scan where
  tw : WindRec
  pend : List UInt8
  rest : List UInt8
  overread : Bool

namespace WindRec

def vswrite (tw : WindRec) (bytes : List UInt8) : WindRec := { tw with vt := tw.vt ++ bytes }

def graphics (tw : WindRec) (op : GraphOp) : WindRec := { tw with graph := tw.graph ++ [op] }

def detachGraphics (tw : WindRec) : WindRec :=
  { tw.graphics .detachGraphics with curgraph := -1, termstate := .vt }

/-- Append a byte to the subnegotiation buffer. -/
def store (tw : WindRec) (c : UInt8) : WindRec :=
  { tw.logged (.stored tw.parseIndex) with
    parsedat := Function.update tw.parsedat tw.parseIndex c
    parseIndex := tw.parseIndex + 1 }

/-- The command byte `c` after an `IAC`, if it is not a second one. -/
def command (tw : WindRec) (c : UInt8) : WindRec :=
  if c = TEL_DOTEL then { tw with telstate := .do }
  else if c = TEL_WILLTEL then { tw with telstate := .will }
  else if c = TEL_DONTTEL then { tw with telstate := .dont }
  else if c = TEL_WONTTEL then { tw with telstate := .wont }
  else if c = TEL_SB then { tw.logged .opened with telstate := .sb, parseIndex := 0 }
  else { tw with telstate := .norm }

/-- Open a Tektronix window for an `ESC FF` or `GS FF`, if there is none. -/
def enterTek (h : Host) (tw : WindRec) : WindRec :=
  let tw := if tw.termstate ≠ .vt ∧ -1 < tw.curgraph then tw.detachGraphics else tw
  let tw :=
    if tw.curgraph ≤ -1 then
      let temptw := h.vgnewwin tw.graph
      let tw := tw.graphics .vgnewwin
      if -1 < temptw then { tw with curgraph := temptw } else { tw with telstate := .norm }
    else tw
  if tw.telstate ≠ .norm then { tw with termstate := .tek } else tw

/-- Pass an `ESC` on to whatever the window emulates. -/
def sendESC (tw : WindRec) : WindRec :=
  match tw.termstate with
  | .tek => tw.graphics (.vgwrite [ESC])
  | .ras => tw.graphics (.vrwrite [ESC])
  | _ => tw.vswrite [ESC]

end WindRec

namespace Scan

/-- The byte `c` after an `ESC` or a `GS` goes to the Tektronix window, when `tw` has
one; if none could be opened the parser is back to data. -/
def tekEscape (s : Scan) (tw : WindRec) (c : UInt8) (r : List UInt8) : Scan :=
  if tw.telstate = .gs then
    { s with
      tw := { tw.graphics (.vgwrite [GS]) with telstate := .norm }
      pend := s.pend ++ [c]
      rest := r }
  else if tw.telstate ≠ .norm then
    { s with tw := { tw.graphics (.vgwrite [31, ESC, FF]) with telstate := .norm } }
  else { s with tw := tw }

/-- The byte `c` after an `ESC` or a `GS`. -/
def afterEscape (h : Host) (s : Scan) (c : UInt8) (r : List UInt8) : Scan :=
  if 0 ≤ s.tw.cfg.tektype ∧ (c = FF ∨ s.tw.telstate = .gs) then
    s.tekEscape
      (if c = FF ∧ (s.tw.termstate = .vt ∨ !s.tw.cfg.tekclear) then s.tw.enterTek h else s.tw) c r
  else if c = 94 then
    { s with
      tw := { s.tw.graphics (.vrwrite [ESC, 94]) with termstate := .ras, telstate := .norm }
      pend := []
      rest := r }
  else { s with tw := { s.tw.sendESC with telstate := .norm } }

/-- The command byte `c` after an `IAC`. -/
def afterIAC (s : Scan) (c : UInt8) (r : List UInt8) : Scan :=
  if c = TEL_IAC then
    { s with tw := { s.tw with telstate := .norm }, pend := [c], rest := r }
  else { s with tw := s.tw.command c, pend := [], rest := r }

/-- The end of a suboption: process it and go back to data. -/
def endSuboption (h : Host) (s : Scan) (r : List UInt8) : Scan :=
  let p := s.tw.process_suboption h.plugin r
  { s with
    tw := { p.1.logged .ended with telstate := .norm }
    pend := []
    rest := p.2 }

/-- An `IAC` and the byte `x` in a suboption, where `x` neither ends it nor is a
second `IAC`: both are stored and the suboption is processed. `x` is read again. -/
def badSuboption (h : Host) (s : Scan) (x : UInt8) (r : List UInt8) : Scan :=
  let p := ((s.tw.store TEL_IAC).store x).process_suboption h.plugin r
  { s with
    tw := { p.1 with substat := some .iacfound }
    pend := s.pend ++ [TEL_IAC]
    rest := p.2 }

/-- The byte `c` of a suboption. After an `IAC` the next byte is looked at at
once, also when it lies behind the end, where it is `beyond`. -/
def inSuboption (h : Host) (beyond : UInt8) (s : Scan) (c : UInt8) (r : List UInt8) : Scan :=
  if c = TEL_IAC then
    match r with
    | x :: r' =>
      if x = TEL_SE then s.endSuboption h r'
      else if x = TEL_IAC then
        { s with tw := s.tw.store x, pend := s.pend ++ [c, x], rest := r' }
      else s.badSuboption h x r
    | [] =>
      let s := { s with overread := true }
      if beyond = TEL_SE then s.endSuboption h []
      else if beyond = TEL_IAC then
        { s with tw := s.tw.store beyond, pend := s.pend ++ [c], rest := [] }
      else s.badSuboption h beyond []
  else { s with tw := s.tw.store c, pend := s.pend ++ [c], rest := r }

/-- The switch on `telstate`. -/
def dispatch (h : Host) (beyond : UInt8) (s : Scan) (c : UInt8) (r : List UInt8) : Scan :=
  match s.tw.telstate with
  | .norm => s
  | .gs | .escfound => s.afterEscape h c r
  | .iacfound => s.afterIAC c r
  | .do => { s with tw := { s.tw.telnet_do c with telstate := .norm }, pend := [], rest := r }
  | .dont => { s with tw := { s.tw.telnet_dont c with telstate := .norm }, pend := [], rest := r }
  | .will => { s with tw := { s.tw.telnet_will c with telstate := .norm }, pend := [], rest := r }
  | .wont => { s with tw := { s.tw.telnet_wont c with telstate := .norm }, pend := [], rest := r }
  | .sb => s.inSuboption h beyond c r

end Scan

/-- A received byte as data: without an eight-bit session the top bit is cleared. -/
def Config.octet (cfg : Config) (c : UInt8) : UInt8 := if cfg.eightbit then c else c &&& 127

/-- The bytes up to the next interesting one. The top bits are cleared in place. -/
def quickScan (cfg : Config) : List UInt8 → List UInt8 × List UInt8
  | [] => ([], [])
  | c :: r =>
    if c = TEL_IAC ∧ cfg.protocol = 0 then ([], c :: r)
    else if cfg.octet c = ESC ∨ cfg.octet c = GS then ([], cfg.octet c :: r)
    else (cfg.octet c :: (quickScan cfg r).1, (quickScan cfg r).2)

namespace Scan

/-- Send `data` where it belongs. A graphics window that does not take all of it
is left, and the rest of the data is read again. -/
def passOn (h : Host) (s : Scan) (data rest : List UInt8) : Scan :=
  if s.tw.timing then { s with rest := rest }
  else
    match s.tw.termstate with
    | .tek =>
      let i := h.vgwrite s.tw.graph data
      let tw := s.tw.graphics (.vgwrite data)
      if i < data.length then { s with tw := tw.detachGraphics, rest := data.drop i ++ rest }
      else { s with tw := tw, rest := rest }
    | .ras =>
      let i := h.vrwrite s.tw.graph data
      let tw := s.tw.graphics (.vrwrite data)
      if i < data.length then
        { s with tw := { tw with termstate := .vt }, rest := data.drop i ++ rest }
      else { s with tw := tw, rest := rest }
    | _ => { s with tw := s.tw.vswrite data, rest := rest }

/-- Whether an `ESC` with `r` behind it is held back: it is the last byte, or it
may switch to graphics. -/
def holdsEscape : List UInt8 → Bool
  | [] => true
  | x :: _ => x = FF ∨ x = 94

/-- The interesting byte at which the quick scan stopped. -/
def interesting (s : Scan) : Scan :=
  match s.rest with
  | [] => { s with pend := [] }
  | c :: r =>
    let tw :=
      if c = TEL_IAC then
        if s.tw.cfg.protocol = 0 then { s.tw with telstate := .iacfound } else s.tw
      else if c = GS then { s.tw with telstate := .gs }
      else if c = ESC then
        if holdsEscape r then { s.tw with telstate := .escfound } else s.tw
      else if 127 < c ∧ r = [] then s.tw.vswrite [c]
      else s.tw
    { s with tw := tw, pend := [c], rest := r }

/-- The quick scan over data. -/
def data (h : Host) (s : Scan) : Scan :=
  let q := quickScan s.tw.cfg s.rest
  (s.passOn h (s.pend ++ q.1) q.2).interesting

/-- One turn of the parser's loop. -/
def turn (h : Host) (beyond : UInt8) (s : Scan) : Scan :=
  match s.rest with
  | [] => s
  | c :: r =>
    let s := s.dispatch h beyond c r
    if s.tw.telstate = .norm then s.data h else s

/-- The loop, at most `fuel` turns of it. -/
def loop (h : Host) (beyond : UInt8) : ℕ → Scan → Scan
  | 0, s => s
  | fuel + 1, s => if s.rest = [] then s else loop h beyond fuel (s.turn h beyond)

theorem loop_succ (h : Host) (beyond : UInt8) (fuel : ℕ) (s : Scan) :
    loop h beyond (fuel + 1) s =
      if (loop h beyond fuel s).rest = [] then loop h beyond fuel s
      else (loop h beyond fuel s).turn h beyond := by
  induction fuel generalizing s with
  | zero => rfl
  | succ fuel ih =>
    unfold loop
    split
    · rfl
    · exact ih (s.turn h beyond)

end Scan

/-- The text a byte is shown as in raw mode. -/
def rawText (c : UInt8) : List UInt8 :=
  60 :: (Nat.toDigits 10 c.toNat).map (fun d => UInt8.ofNat d.toNat) ++ [62]

/-- Raw mode, for debugging: escapes and special characters appear as numbers,
which are written with the help of `parsedat`. -/
def WindRec.rawByte (tw : WindRec) (c : UInt8) : WindRec :=
  if c = 27 ∨ 126 < c then
    let text := rawText c
    { tw with parsedat := fun i =>
        if h : i < text.length then text.get ⟨i, h⟩
        else if i = text.length then 0 else tw.parsedat i }.vswrite text
  else tw.vswrite [c]

/-- Parse one packet; `beyond` is the byte behind it in memory. -/
def parseScan (h : Host) (beyond : UInt8) (tw : WindRec) (packet : List UInt8) : Scan :=
  if tw.termstate = .dumb then
    { tw := packet.foldl WindRec.rawByte tw, pend := [], rest := [], overread := false }
  else
    Scan.loop h beyond (3 * packet.length + 1)
      { tw := tw, pend := [], rest := packet, overread := false }

def parse (h : Host) (beyond : UInt8) (tw : WindRec) (packet : List UInt8) : WindRec :=
  (parseScan h beyond tw packet).tw

/-- No plug-ins, and graphics windows that take whatever is written to them. -/
def plainHost : Host where
  plugin :=
    { modules := []
      encryptok := false
      initAuth _ := false
      initEncrypt _ := false
      authSend _ _ := none
      authReply _ _ := []
      encryptReply _ _ := []
      startDecrypt _ _ := false
      decrypt _ bytes := bytes
      decrypt_length _ _ := rfl }
  vgwrite _ bytes := bytes.length
  vrwrite _ bytes := bytes.length
  vgnewwin _ := 0

end Telnet
