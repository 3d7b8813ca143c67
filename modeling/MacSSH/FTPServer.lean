import Mathlib.Data.List.Basic
import Mathlib.Logic.Function.Basic

/-! The background FTP server. `rftpd` handles the control connection: it
greets, reads command lines, checks passwords and interprets commands. `ftpd`
moves the data of a transfer. Both keep their states in static variables that
are loaded from and saved to per-port arrays, and both use the one buffer `xs`. -/
namespace FTPServer

/-- Event codes of a connection. -/
inductive Code where
  | conopen | condata | conclose | confail
  deriving DecidableEq, Repr

inductive PortType where
  | noType | pftp | pdata
  deriving DecidableEq, Repr

/-- The numbered states of `rftpd`, with the 200 that only `retstate` takes. -/
inductive RFState where
  | s0 | s1 | s3 | s4 | s5 | s50 | s60 | s100 | s200
  deriving DecidableEq, Repr

/-- The numbered states of `ftpd`. -/
inductive FTPState where
  | d0 | d20 | d21 | d22 | d30 | d31 | d40 | d41
  deriving DecidableEq, Repr

inductive TransferMode where
  | famode | fimode
  deriving DecidableEq, Repr

/-- A reply on the control connection: a numbered message, or bytes. -/
inductive Reply where
  | cresp (msg : ℕ)
  | text (bytes : List UInt8)
  deriving DecidableEq, Repr

/-- Events the server queues for the rest of the program and for itself. -/
inductive Post where
  | ftpcopen | ftpbegin (dir : Int) | ftpend | ftpclose
  | condata (port : Int) | ftpact (port : Int)
  deriving DecidableEq, Repr

/-- The user record found under a user's name. -/
structure FTPUserPrefs where
  EncryptedPassword : List UInt8
  DefaultDirVolName : List UInt8
  DefaultDirDirID : Int

/-- What the server reads of the settings file and the file system. -/
structure System where
  ServerState : ℕ
  get1NamedResource : List UInt8 → Option FTPUserPrefs
  volumeNameToRefNum : List UInt8 → Int
  getCatInfo : Int → Int → Bool
  stringToNum : List UInt8 → Int

/-- The history of the sessions, latest first: what the control connections
were used for. -/
inductive Happening where
  | opened (fnum : Int)
  | user (fnum : Int) (name : List UInt8)
  | pass (fnum : Int) (name password : List UInt8) (ok : Bool)
  | command (fnum : Int)
  deriving DecidableEq, Repr

abbrev Buffer := Int → UInt8

def ascii (l : List Char) : List UInt8 := l.map Char.toUInt8

/-- Write the bytes of a list from position `i` on. -/
def store (xs : Buffer) : Int → List UInt8 → Buffer
  | _, [] => xs
  | i, b :: l => store (Function.update xs i b) (i + 1) l

/-- The C string at `i`, read for at most `n` bytes. -/
def cstr (xs : Buffer) : ℕ → Int → List UInt8
  | 0, _ => []
  | n + 1, i => if xs i = 0 then [] else xs i :: cstr xs n (i + 1)

/-- `!strncmp(xs, name, n)` for a literal of `n` characters. -/
def isCommand (xs : Buffer) (name : List Char) : Bool :=
  (ascii name).zipIdx.all fun b => xs b.2 == b.1

/-- `strlen(xs) < 6`. -/
def isShort (xs : Buffer) : Bool := (List.range 6).any fun i => xs i == 0

def toupper (c : UInt8) : UInt8 := if 97 ≤ c ∧ c ≤ 122 then c - 32 else c

structure Server where
  ftpenable : Bool
  rfstate : RFState
  retstate : RFState
  ftpstate : FTPState
  fdport : Int
  allocated : Bool
  xs : Buffer
  newfile : List UInt8
  listingTemplate : List UInt8
  myuser : List UInt8
  waitpos : Int
  waitchar : UInt8
  cnt : Int
  fcnt : Int
  ftptmode : TransferMode
  mbfp : Bool
  mainport : Int → Int
  dataport : Int → Int
  mainstate : Int → RFState
  datastate : Int → FTPState
  retnstate : Int → RFState
  fileport : Int → Int
  portaddr : Int → List Int
  portlocalport : Int → Int
  portremoteport : Int → Int
  portType : Int → PortType
  len : Int
  xp : Int
  towrite : Int
  filelen : Int
  MacBinary : Bool
  DefaultDirDirID : Int
  DefaultDirVRefNum : Int
  sent : List (Int × Reply)
  posted : List Post
  trace : List Happening

/-- The results of the calls one run of `rftpd` makes to the network and the
file system: the bytes waiting on the connection and whether it is lost after
them, the ports opened, and which file operations succeed. -/
structure Call where
  code : Code
  fnum : Int
  received : List UInt8
  lost : Bool
  netpush : Int
  netest : Bool
  netgetftp : List Int × Int × Int
  memory : Bool
  netlisten : Int
  netxopen : Int
  foundFile : Bool
  changeDirectory : Option (Int × Int)
  pathEdit : Buffer → Buffer
  makeDirectory : Bool
  removeDirectory : Bool
  mbopen : Bool
  pathName : List UInt8
  uninitialized : ℕ → Int

/-- The results of the calls one run of `ftpd` makes: `reads` are the blocks that
arrive on the data connection, a `none` its end. -/
structure DataCall where
  code : Option Code
  ftpdata : Int
  netwriteOk : Bool
  anotherFile : Bool
  reads : List (Option (List UInt8))
  mbwrite : Bool
  mbsize : Int
  mbread : List UInt8
  written : Int
  netpush : Int
  netest : Bool

section Password

/-- The checksum of a password, in a `char`. -/
def checksum (ps : List UInt8) : UInt8 := ps.foldl (· + ·) 0

/-- One encrypted character: XOR with the checksum, made printable. -/
def encryptChar (p c : UInt8) : UInt8 := ((p ^^^ c) ||| 32) &&& 127

/-- The loop of `Sencompass`, `n` characters from the password `ps`. -/
def sencompassLoop : ℕ → List UInt8 → UInt8 → List UInt8
  | 0, _, _ => []
  | n + 1, [], c => encryptChar 0 c :: sencompassLoop n [] (c + 1)
  | n + 1, p :: ps, c => encryptChar p c :: sencompassLoop n ps c

/-- `Sencompass` computes the stored form of a password. -/
def sencompass (ps : List UInt8) : List UInt8 := sencompassLoop 10 ps (checksum ps)

/-- The loop of `Scompass` over the stored form `en`. -/
def scompassLoop : List UInt8 → List UInt8 → UInt8 → Bool
  | [], _, _ => true
  | e :: en, [], c => if encryptChar 0 c ≠ e then false else scompassLoop en [] (c + 1)
  | e :: en, p :: ps, c => if encryptChar p c ≠ e then false else scompassLoop en ps c

/-- `Scompass` checks a password against a stored form. -/
def scompass (ps en : List UInt8) : Bool := scompassLoop en ps (checksum ps)

/-- `Scheckpass` finds the user's record and checks the password; on success it
also gives the directory of the record, or the root of the first volume. -/
def scheckpass (sys : System) (us ps : List UInt8) : Option (Int × Int) :=
  match sys.get1NamedResource us with
  | none => none
  | some prefs =>
    if scompass ps (prefs.EncryptedPassword.takeWhile (· ≠ 0)) then
      let vol := sys.volumeNameToRefNum prefs.DefaultDirVolName
      if sys.getCatInfo vol prefs.DefaultDirDirID then some (prefs.DefaultDirDirID, vol)
      else some (2, -1)
    else none

end Password

namespace Server

def is (s : Server) (name : List Char) : Bool := isCommand s.xs name

def cresp (s : Server) (fnum : Int) (msg : ℕ) : Server :=
  { s with sent := s.sent ++ [(fnum, .cresp msg)] }

def netwrite (s : Server) (fnum : Int) (bytes : List UInt8) : Server :=
  { s with sent := s.sent ++ [(fnum, .text bytes)] }

def post (s : Server) (p : Post) : Server := { s with posted := s.posted ++ [p] }

def record (s : Server) (h : Happening) : Server := { s with trace := h :: s.trace }

def setPortType (s : Server) (port : Int) (type : PortType) : Server :=
  { s with portType :=
      if 0 ≤ port ∧ port < 30 then Function.update s.portType port type else s.portType }

/-- `GetPortType(i) == PFTP` for some port below NPORTS. -/
def hasListener (s : Server) : Bool := (List.range 30).any fun i => s.portType i == .pftp

/-- Listen for a control connection unless there is one already. -/
def setftp (s : Server) (netlisten : Int) : Server :=
  let s := { s with rfstate := .s0, ftpstate := .d0 }
  let s :=
    if s.hasListener then s
    else if 0 ≤ netlisten then
      { s.setPortType netlisten .pftp with
        ftpenable := true
        dataport := Function.update s.dataport netlisten (-1)
        mainstate := Function.update s.mainstate netlisten .s0
        datastate := Function.update s.datastate netlisten .d0
        retnstate := Function.update s.retnstate netlisten .s200 }
    else { s with ftpenable := true }
  { s with myuser := ascii ['u', 'n', 'k', 'n', 'o', 'w', 'n'] }

/-- Open the data connection of a transfer. -/
def ftpgo (s : Server) (c : Call) : Server :=
  { s with
    mainport := Function.update s.mainport c.netxopen c.fnum
    dataport := Function.update s.dataport c.fnum c.netxopen }

/-- Start a transfer: open its data connection and reset the port for the next. -/
def openData (s : Server) (c : Call) : Server :=
  let s := s.ftpgo c
  let s := { s with fdport := s.portremoteport c.fnum }
  if 0 ≤ c.netxopen then s.setPortType c.netxopen .pdata else s

/-- States 0 and 1: a new connection is greeted. -/
def greet (sys : System) (c : Call) (s : Server) : Server :=
  let s := s.cresp c.fnum 0
  { s with
    portaddr := Function.update s.portaddr c.fnum c.netgetftp.1
    portlocalport := Function.update s.portlocalport c.fnum c.netgetftp.2.1
    portremoteport := Function.update s.portremoteport c.fnum c.netgetftp.2.2
    fdport := c.netgetftp.2.2
    waitpos := 0
    waitchar := 10
    rfstate := .s50
    retstate := if sys.ServerState = 2 then .s3 else .s5 }

def accept (sys : System) (c : Call) (s : Server) : Option Server :=
  if c.code ≠ .conopen then some s
  else
    let s := { s with ftptmode := .famode }
    let s := s.post .ftpcopen
    if !s.allocated && !c.memory then none
    else some (greet sys c ({ s with allocated := true }.record (.opened c.fnum)))

/-- `USER`: keep the first 16 characters of the name. -/
def takeUser (fnum : Int) (s : Server) : Server :=
  let xs := if isShort s.xs then Function.update s.xs 5 0 else s.xs
  let name := cstr xs 16 5
  { s with xs := xs, myuser := name }.record (.user fnum name)

/-- States 3 and 4: only `USER`, `PASS` and `QUIT` are understood. -/
def checkLogin (sys : System) (c : Call) (s : Server) : Server :=
  let s := { s with waitpos := 0, waitchar := 10, rfstate := .s50 }
  if isCommand s.xs ['U', 'S', 'E', 'R'] then
    { (s.takeUser c.fnum).cresp c.fnum 23 with retstate := .s4 }
  else if isCommand s.xs ['P', 'A', 'S', 'S'] then
    let password := cstr s.xs 32768 5
    match scheckpass sys s.myuser password with
    | some (dir, vol) =>
      let s := { s with DefaultDirDirID := dir, DefaultDirVRefNum := vol, retstate := .s5 }
      (s.record (.pass c.fnum s.myuser password true)).cresp c.fnum 10
    | none =>
      let s := { s with retstate := .s3 }
      (s.record (.pass c.fnum s.myuser password false)).cresp c.fnum 24
  else if isCommand s.xs ['Q', 'U', 'I', 'T'] then
    { s.cresp c.fnum 2 with cnt := -1, retstate := .s3 }
  else { s.cresp c.fnum 22 with retstate := .s3 }

/-- Length of the text before the next comma or the end, within `n` bytes. -/
def tokenLength (xs : Buffer) : ℕ → Int → ℕ
  | 0, _ => 0
  | n + 1, i => if xs i = 0 ∨ xs i = 44 then 0 else tokenLength xs n (i + 1) + 1

/-- The numbers `PORT` reads from the argument, at most `n` of them. -/
def portNumbers (sys : System) (xs : Buffer) : ℕ → Int → List Int
  | 0, _ => []
  | n + 1, i =>
    if xs i = 0 then []
    else
      let k := tokenLength xs 32768 i
      sys.stringToNum ((List.range k).map fun j => xs (i + j)) ::
        portNumbers sys xs n (i + k + 1)

/-- `PORT`: set the address and port of the data connection. -/
def setPort (sys : System) (c : Call) (s : Server) : Server :=
  let read := portNumbers sys s.xs 6 5
  let numbers := fun i => (read[i]?).getD (c.uninitialized i)
  let port := (numbers 4 * 256 + numbers 5) % 65536
  let addr := (List.range 4).map fun i => numbers i % 256
  { s with
    portaddr := Function.update s.portaddr c.fnum addr
    portlocalport := Function.update s.portlocalport c.fnum port
    fdport := port }.cresp c.fnum 3

def list (c : Call) (s : Server) : Server :=
  let xs :=
    if isShort s.xs || s.xs 5 == 46 then
      store s.xs 0 (ascii ['L', 'I', 'S', 'T', ' ', '*'] ++ [0])
    else s.xs
  let s := { s with xs := xs, listingTemplate := cstr xs 32768 5 }
  if !c.foundFile then s.cresp c.fnum 16
  else
    { s.openData c with ftpstate := .d40 }.cresp c.fnum 4

def changeDir (c : Call) (s : Server) : Server :=
  let s := { s with xs := c.pathEdit s.xs }
  match c.changeDirectory with
  | none => s.cresp c.fnum 12
  | some (dir, vol) =>
    { s with DefaultDirDirID := dir, DefaultDirVRefNum := vol }.cresp c.fnum 13

def makeDir (c : Call) (s : Server) : Server :=
  s.cresp c.fnum (if c.makeDirectory then 36 else 37)

def removeDir (c : Call) (s : Server) : Server :=
  s.cresp c.fnum (if c.removeDirectory then 38 else 39)

/-- `STOR` and `APPE`. -/
def receiveFile (c : Call) (s : Server) : Server :=
  if isCommand s.xs ['A', 'P', 'P', 'E'] && s.ftptmode ≠ .famode then s.cresp c.fnum 35
  else if !c.mbopen then { s with mbfp := false }.cresp c.fnum 21
  else
    let s := { s with mbfp := true, newfile := cstr s.xs 255 5 }
    { (s.openData c).cresp c.fnum 4 with ftpstate := .d30 }

/-- `RETR`. -/
def sendFile (c : Call) (s : Server) : Server :=
  if !c.mbopen then { s with mbfp := false }.cresp c.fnum 11
  else
    let s := { s with mbfp := true, newfile := cstr s.xs 255 5 }
    { s.openData c with ftpstate := .d20 }.cresp c.fnum 4

def setType (c : Call) (s : Server) : Server :=
  if toupper (s.xs 5) = 73 then
    { s with ftptmode := .fimode }.cresp c.fnum (if s.MacBinary then 33 else 34)
  else if toupper (s.xs 5) = 65 then { s with ftptmode := .famode }.cresp c.fnum 6
  else s.cresp c.fnum 17

def setMacBinary (c : Call) (s : Server) : Server :=
  if toupper (s.xs 5) = 69 then { s with MacBinary := true }.cresp c.fnum 25
  else { s with MacBinary := false }.cresp c.fnum 26

def printDir (c : Call) (s : Server) : Server :=
  let s := s.cresp c.fnum 14
  let s := { s with xs := store s.xs 0 (c.pathName ++ [0]) }
  (s.netwrite c.fnum (cstr s.xs 256 0)).cresp c.fnum 15

/-- `HELP` sends messages 28 to 32. -/
def help (c : Call) (s : Server) : Server :=
  (List.range' 28 5).foldl (fun s i => s.cresp c.fnum i) s

def systReply : List UInt8 :=
  ascii ("225 MACOS System Version:".toList ++ ['\r', '\n'])

/-- The commands, compared in this order with the line in `xs`. -/
def interpretLine (sys : System) (c : Call) (s : Server) : Server :=
  if s.is ['L', 'I', 'S', 'T'] || s.is ['N', 'L', 'S', 'T'] then s.list c
  else if s.is ['C', 'W', 'D'] then s.changeDir c
  else if s.is ['M', 'K', 'D'] then s.makeDir c
  else if s.is ['R', 'M', 'D'] then s.removeDir c
  else if s.is ['X', 'M', 'K', 'D'] then s.makeDir c
  else if s.is ['X', 'R', 'M', 'D'] then s.removeDir c
  else if s.is ['C', 'D', 'U', 'P'] then s.changeDir { c with pathEdit := id }
  else if s.is ['S', 'T', 'O', 'R'] || s.is ['A', 'P', 'P', 'E'] then s.receiveFile c
  else if s.is ['R', 'E', 'T', 'R'] then s.sendFile c
  else if s.is ['T', 'Y', 'P', 'E'] then s.setType c
  else if s.is ['M', 'A', 'C', 'B'] then s.setMacBinary c
  else if s.is ['P', 'O', 'R', 'T'] then s.setPort sys c
  else if s.is ['Q', 'U', 'I', 'T'] then
    { s.cresp c.fnum 2 with rfstate := .s60 }.post (.condata c.fnum)
  else if s.is ['X', 'P', 'W', 'D'] || s.is ['P', 'W', 'D'] then s.printDir c
  else if s.is ['U', 'S', 'E', 'R'] then (s.takeUser c.fnum).cresp c.fnum 10
  else if s.is ['S', 'T', 'R', 'U'] then s.cresp c.fnum (if s.xs 5 = 70 then 18 else 17)
  else if s.is ['M', 'O', 'D', 'E'] then s.cresp c.fnum (if s.xs 5 = 83 then 19 else 17)
  else if s.is ['A', 'L', 'L', 'O'] || s.is ['A', 'C', 'C', 'T'] then s.cresp c.fnum 20
  else if s.is ['H', 'E', 'L', 'P'] then s.help c
  else if s.is ['N', 'O', 'O', 'P'] then s.cresp c.fnum 9
  else if s.is ['S', 'Y', 'S', 'T'] then
    s.netwrite c.fnum systReply
  else s.cresp c.fnum 8

/-- State 5: interpret the command line in `xs`. The next line comes back here. -/
def interpret (sys : System) (c : Call) (s : Server) : Server :=
  let s := { s with rfstate := .s50, retstate := .s5, waitchar := 10, waitpos := 0 }
  (s.record (.command c.fnum)).interpretLine sys c

/-- Step back over blanks and control characters; `none` when the search does
not end within the range of a `short`. -/
def lineEnd (xs : Buffer) : ℕ → Int → Option Int
  | 0, _ => none
  | n + 1, i => if xs i < 33 then lineEnd xs n (i - 1) else some i

/-- A complete line: terminate it and raise its first four characters. -/
def finishLine (s : Server) : Option Server :=
  match lineEnd s.xs 65536 s.waitpos with
  | none => none
  | some i =>
    let xs := Function.update s.xs (i + 1) 0
    some { s with
      rfstate := s.retstate
      waitpos := i + 1
      xs := store xs 0 ((List.range 4).map fun j => toupper (xs j)) }

/-- State 50: read bytes until `waitchar`. What follows it stays unread. -/
def readLine : List UInt8 → Bool → Server → Option Server
  | [], lost, s => some { s with cnt := if lost then -1 else 0 }
  | b :: l, lost, s =>
    let s := { s with cnt := 1, xs := Function.update s.xs s.waitpos b }
    if b = s.waitchar then s.finishLine
    else readLine l lost { s with waitpos := Int.bmod (s.waitpos + 1) 65536 }

/-- State 60: close once the last reply is through or the connection is lost. -/
def drain (c : Call) (s : Server) : Server :=
  if c.netpush = 0 ∨ c.netest then { s with cnt := -1 } else s.post (.condata c.fnum)

def dispatch (sys : System) (c : Call) (s : Server) : Option Server :=
  match s.rfstate with
  | .s0 => s.accept sys c
  | .s1 => some (s.greet sys c)
  | .s3 | .s4 => some (s.checkLogin sys c)
  | .s5 => some (s.interpret sys c)
  | .s50 => s.readLine c.received c.lost
  | .s60 => some (s.drain c)
  | .s100 | .s200 => some s

/-- The connection is gone: drop the transfer, release the port, listen again. -/
def hangUp (c : Call) (s : Server) : Server :=
  let s := { s with mbfp := false }
  let ftpdata := s.dataport c.fnum
  let s :=
    if 0 < ftpdata then
      { s.post .ftpend with
        dataport := Function.update s.dataport c.fnum (-1)
        mainport := Function.update s.mainport ftpdata (-1) }
    else s
  let s := { s with rfstate := .s100, ftpstate := .d0, cnt := 0 }
  let s := (s.setPortType c.fnum .noType).post .ftpclose
  s.setftp c.netlisten

def load (s : Server) (fnum : Int) : Server :=
  { s with
    rfstate := s.mainstate fnum
    ftpstate := s.datastate fnum
    retstate := s.retnstate fnum
    fdport := s.fileport fnum }

def save (s : Server) (fnum : Int) : Server :=
  { s with
    mainstate := Function.update s.mainstate fnum s.rfstate
    datastate := Function.update s.datastate fnum s.ftpstate
    retnstate := Function.update s.retnstate fnum s.retstate
    fileport := Function.update s.fileport fnum s.fdport }

/-- One event on the control connection; `none` when the program quits for
want of memory or the line reader does not stop. -/
def rftpd (sys : System) (c : Call) (s : Server) : Option Server :=
  if !s.ftpenable then some s
  else
    match (s.load c.fnum).dispatch sys c with
    | none => none
    | some s => some ((if s.cnt < 0 then s.hangUp c else s).save c.fnum)

/-- State 41: send one file name of a listing. -/
def listNext (d : DataCall) (fnum : Int) (s : Server) : Server :=
  let s := s.post (.ftpact d.ftpdata)
  if !d.netwriteOk then { s.cresp fnum 1 with fcnt := -1 }
  else if d.anotherFile then s
  else { s with ftpstate := .d22 }

/-- Start a new buffer once the old one is nearly full and written out. -/
def freshBuffer (s : Server) : Server :=
  { s with
    xp := if s.len ≤ 2000 then 0 else s.xp
    len := if s.len ≤ 2000 then 8000 else s.len }

/-- Put one block behind the data collected so far. -/
def collect (block : List UInt8) (s : Server) : Server :=
  { s with
    fcnt := block.length
    len := s.len - block.length
    xp := s.xp + block.length
    filelen := s.filelen + block.length
    xs := store s.xs s.xp block }

/-- State 31: take everything that has arrived on the data connection. -/
def receive (d : DataCall) (fnum : Int) : List (Option (List UInt8)) → Server → Server
  | reads, s =>
    if s.len ≤ 2000 ∧ s.xp ≠ 0 ∧ !d.mbwrite then
      { s.cresp fnum 27 with ftpstate := .d22, fcnt := -1, mbfp := false }
    else
      let s := s.freshBuffer
      match reads with
      | [] => { s with fcnt := 0 }
      | none :: _ => { s.cresp fnum (if d.mbwrite then 5 else 27) with fcnt := -1 }
      | some [] :: _ => s.collect []
      | some (b :: block) :: reads => receive d fnum reads (s.collect (b :: block))

/-- State 21: send the next part of the file. -/
def transmit (d : DataCall) (s : Server) : Server :=
  let s := s.post (.ftpact d.ftpdata)
  let s :=
    if s.towrite ≤ s.xp then
      { s with towrite := d.mbread.length, xp := 0, xs := store s.xs 0 d.mbread }
    else s
  if s.towrite ≤ 0 ∨ d.netest then { s with ftpstate := .d22 }
  else if 0 < d.written then
    { s with xp := s.xp + d.written, filelen := max 0 (s.filelen - d.written) }
  else s

/-- State 22: wait until the data is accepted. -/
def settle (d : DataCall) (fnum : Int) (s : Server) : Server :=
  let s := s.post (.ftpact d.ftpdata)
  let fcnt := if d.netpush = 0 ∨ d.netest then -1 else d.netpush
  let s := { s with fcnt := fcnt }
  if fcnt < 0 then s.cresp fnum 5 else s

/-- A transfer starts when its connection has opened; a failure ends it. -/
def whenOpen (d : DataCall) (s : Server) (start : Server → Server) : Server :=
  let s := if d.code = some .confail then { s with fcnt := -1 } else s
  if d.code ≠ some .conopen then s else start s

def transfer (d : DataCall) (fnum : Int) (s : Server) : Server :=
  match s.ftpstate with
  | .d40 => s.whenOpen d fun s => { s with ftpstate := .d41 }.listNext d fnum
  | .d41 => s.listNext d fnum
  | .d30 => s.whenOpen d fun s =>
      { s with ftpstate := .d31, len := 0, xp := 0, filelen := 0 }.post (.ftpbegin (-2))
        |>.receive d fnum d.reads
  | .d31 => s.receive d fnum d.reads
  | .d20 => s.whenOpen d fun s =>
      { s with ftpstate := .d21, filelen := d.mbsize, towrite := 0, xp := 0 }.post (.ftpbegin (-1))
        |>.transmit d
  | .d21 => s.transmit d
  | .d22 => s.settle d fnum
  | .d0 => s

/-- One event on a data connection. -/
def ftpd (d : DataCall) (s : Server) : Server :=
  let fnum := s.mainport d.ftpdata
  let s := { s with ftpstate := s.datastate fnum }.transfer d fnum
  let s :=
    if s.fcnt < 0 then
      let s := { s with mbfp := false, ftpstate := .d0, fcnt := 0 }
      if 0 ≤ d.ftpdata then
        { s.post .ftpend with
          mainport := Function.update s.mainport d.ftpdata (-1)
          dataport := Function.update s.dataport fnum (-1) }
      else s
    else s
  { s with datastate := Function.update s.datastate fnum s.ftpstate }

end Server

/-- The statics before the server is started; `xs` is what the memory holds that
the buffer will be allocated in. -/
def coldStart (xs : Buffer) : Server where
  ftpenable := false
  rfstate := .s0
  retstate := .s200
  ftpstate := .d0
  fdport := 0
  allocated := false
  xs := xs
  newfile := []
  listingTemplate := []
  myuser := []
  waitpos := 0
  waitchar := 0
  cnt := 0
  fcnt := 0
  ftptmode := .famode
  mbfp := false
  mainport := fun _ => 0
  dataport := fun _ => 0
  mainstate := fun _ => .s0
  datastate := fun _ => .d0
  retnstate := fun _ => .s0
  fileport := fun _ => 0
  portaddr := fun _ => []
  portlocalport := fun _ => 0
  portremoteport := fun _ => 0
  portType := fun _ => .noType
  len := 0
  xp := 0
  towrite := 0
  filelen := 0
  MacBinary := false
  DefaultDirDirID := 0
  DefaultDirVRefNum := 0
  sent := []
  posted := []
  trace := []

/-- The events the network delivers to the server, as `DoNetEvents` passes them
on by the type of their port. -/
inductive NetEvent where
  | control (c : Call)
  | data (d : DataCall)

def doNetEvent (sys : System) (e : NetEvent) (s : Server) : Option Server :=
  match e with
  | .control c => if s.portType c.fnum = .pftp then s.rftpd sys c else some s
  | .data d => some (s.ftpd d)

/-- The server states that some sequence of events leads to. -/
inductive Reachable (sys : System) : Server → Prop where
  | start (xs : Buffer) (netlisten : Int) : Reachable sys ((coldStart xs).setftp netlisten)
  | step {s s' : Server} (e : NetEvent) (hs : Reachable sys s)
      (h : doNetEvent sys e s = some s') : Reachable sys s'

end FTPServer
