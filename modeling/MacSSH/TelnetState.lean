import Mathlib.Data.List.Basic
import Mathlib.Logic.Function.Basic

/-! The telnet part of a session window: the options it has agreed to, the
subnegotiation buffer, the line-mode tables, and what it has sent and shown. -/
namespace Telnet

/-- Telnet command bytes. -/
@[simp] abbrev TEL_SE : UInt8 := 240
@[simp] abbrev TEL_SB : UInt8 := 250
@[simp] abbrev TEL_WILLTEL : UInt8 := 251
@[simp] abbrev TEL_WONTTEL : UInt8 := 252
@[simp] abbrev TEL_DOTEL : UInt8 := 253
@[simp] abbrev TEL_DONTTEL : UInt8 := 254
@[simp] abbrev TEL_IAC : UInt8 := 255

@[simp] abbrev ESC : UInt8 := 27
@[simp] abbrev GS : UInt8 := 29
@[simp] abbrev FF : UInt8 := 12

/-- Telnet options. -/
@[simp] abbrev N_ECHO : UInt8 := 1
@[simp] abbrev N_SGA : UInt8 := 3
@[simp] abbrev N_TIMING : UInt8 := 6
@[simp] abbrev N_TERMTYP : UInt8 := 24
@[simp] abbrev N_NAWS : UInt8 := 31
@[simp] abbrev N_REMOTEFLOW : UInt8 := 33
@[simp] abbrev N_LINEMODE : UInt8 := 34
@[simp] abbrev N_XDISPLOC : UInt8 := 35
@[simp] abbrev N_AUTHENTICATION : UInt8 := 37
@[simp] abbrev N_ENCRYPT : UInt8 := 38
@[simp] abbrev N_NEW_ENVIRON : UInt8 := 39

/-- Line-mode suboptions and levels. -/
@[simp] abbrev L_MODE : UInt8 := 1
@[simp] abbrev L_FORWARDMASK : UInt8 := 2
@[simp] abbrev L_SLC : UInt8 := 3
@[simp] abbrev SLC_NOSUPPORT : UInt8 := 0
@[simp] abbrev SLC_VALUE : UInt8 := 2
@[simp] abbrev SLC_DEFAULT : UInt8 := 3

/-- States of the telnet parser. -/
inductive TelState where
  | norm | sb | will | wont | escfound | iacfound | «do» | dont | gs
  deriving DecidableEq, Repr

/-- What the window emulates. -/
inductive TermState where
  | dumb | vt | tek | ras
  deriving DecidableEq, Repr

/-- The four verbs of option negotiation. -/
inductive Verb where
  | will | wont | «do» | dont
  deriving DecidableEq, Repr

/-- A write to the network: an option command, or other bytes. -/
inductive Write where
  | neg (verb : Verb) (option : UInt8)
  | raw (bytes : List UInt8)
  deriving DecidableEq, Repr

/-- An operation on the graphics windows. -/
inductive GraphOp where
  | vgwrite (bytes : List UInt8)
  | vrwrite (bytes : List UInt8)
  | vgnewwin
  | detachGraphics
  deriving DecidableEq, Repr

/-- A call of the authentication and encryption plug-ins. -/
inductive PlugCall where
  | initAuth
  | initEncrypt
  | authSend (sub : List UInt8)
  | authReply (sub : List UInt8)
  | encrypt (sub : List UInt8)
  deriving DecidableEq, Repr

/-- What happens to the subnegotiation buffer: a suboption is opened, a byte is
stored at an index, the buffer is processed, the suboption is ended. -/
inductive SubEvent where
  | opened
  | stored (index : ℕ)
  | processed
  | ended
  deriving DecidableEq, Repr

/-- What the session was configured with; the telnet code only reads it. -/
structure Config where
  protocol : ℕ
  eightbit : Bool
  tektype : Int
  tekclear : Bool
  lineAllow : Bool
  authenticate : Bool
  encrypt : Bool
  authOK : Bool
  encryptOK : Bool
  username : List UInt8
  answerback : List UInt8
  maxwidth : Int
  lines : Int

/-- The flags of the negotiated options. -/
structure Options where
  echo : Bool
  Usga : Bool
  Isga : Bool
  Ittype : Bool
  naws : Bool
  remote_flow : Bool
  lmode : Bool
  myAuthentication : Bool
  myEncrypt : Bool
  hisAuthentication : Bool
  hisEncrypt : Bool
  deriving DecidableEq, Repr

/-- Line mode: its bits, the line being typed, the special characters and the
keys that forward the line. -/
structure LineMode where
  lmodeBits : UInt8
  litNext : Bool
  kbbuf : List UInt8
  slc : ℕ → UInt8
  slcLevel : ℕ → UInt8
  forwardMask : Bool
  numForwardKeys : ℕ
  forwardKeys : ℕ → UInt8

/-- The part of a window that the telnet code works on. `vt` is what reached the
screen emulator, `sent` what went to the network, `graph` what was asked of the
graphics windows, `plug` of the plug-ins; `sublog` is the history of the
subnegotiation buffer. -/
structure WindRec where
  cfg : Config
  opts : Options
  line : LineMode
  telstate : TelState
  substat : Option TelState
  termstate : TermState
  curgraph : Int
  timing : Bool
  allow_flow : Bool
  restart_any_flow : Bool
  parsedat : ℕ → UInt8
  parseIndex : ℕ
  authdata : Bool
  encryptdata : Bool
  vt : List UInt8
  sent : List Write
  graph : List GraphOp
  plug : List PlugCall
  sublog : List SubEvent

namespace WindRec

def send (tw : WindRec) (verb : Verb) (option : UInt8) : WindRec :=
  { tw with sent := tw.sent ++ [.neg verb option] }

def netwrite (tw : WindRec) (bytes : List UInt8) : WindRec :=
  { tw with sent := tw.sent ++ [.raw bytes] }

/-- Enter an event into the history of the subnegotiation buffer. -/
def logged (tw : WindRec) (event : SubEvent) : WindRec :=
  { tw with sublog := tw.sublog ++ [event] }

def kbflush (tw : WindRec) : WindRec :=
  if tw.line.kbbuf = [] then tw
  else { tw.netwrite tw.line.kbbuf with line.kbbuf := [] }

end WindRec

/-- The special characters the client starts with; 255 is an unsupported one. -/
def default_slc : List UInt8 :=
  [255, 255, 255, 3, 21, 0, 0, 28, 4, 26, 127, 21, 23, 18, 22, 17, 19, 22, 254,
   255, 255, 255, 255, 255, 255, 255, 255, 255, 255, 255, 255]

/-- Line mode before it is negotiated. -/
def initLinemode : LineMode where
  lmodeBits := 0
  litNext := false
  kbbuf := []
  slc i := default_slc.getD i 0
  slcLevel i := if default_slc.getD i 0 = 255 then SLC_NOSUPPORT else SLC_VALUE
  forwardMask := false
  numForwardKeys := 0
  forwardKeys _ := 0

/-- A window whose connection is being set up: nothing is negotiated. -/
def newConnection (cfg : Config) : WindRec where
  cfg := cfg
  opts :=
    { echo := true, Usga := false, Isga := false, Ittype := false, naws := false
      remote_flow := false, lmode := false, myAuthentication := false, myEncrypt := false
      hisAuthentication := false, hisEncrypt := false }
  line := initLinemode
  telstate := .norm
  substat := none
  termstate := .vt
  curgraph := -1
  timing := false
  allow_flow := true
  restart_any_flow := false
  parsedat _ := 0
  parseIndex := 0
  authdata := false
  encryptdata := false
  vt := []
  sent := []
  graph := []
  plug := []
  sublog := []

/-- A plain telnet session: eight bits, no Tektronix emulation. -/
def plainSession : Config where
  protocol := 0
  eightbit := true
  tektype := -1
  tekclear := false
  lineAllow := true
  authenticate := false
  encrypt := false
  authOK := false
  encryptOK := false
  username := [98, 111, 98]
  answerback := [118, 116, 49, 48, 48]
  maxwidth := 79
  lines := 24

end Telnet
