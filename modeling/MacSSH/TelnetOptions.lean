import MacSSH.TelnetState

/-! Option negotiation: the answers to `DO`, `DONT`, `WILL` and `WONT`. -/
namespace Telnet

/-- What a session is started with: `standardPort` when the port is that of telnet, or given as a
negative number. -/
structure Startup where
  clientuser : List UInt8
  password : List UInt8
  command : List UInt8
  standardPort : Bool

/-- A session without a login, at the telnet port. -/
def telnetPort : Startup := ⟨[], [], [], true⟩

namespace WindRec

/-- The low byte of a size, never sent as an `IAC`. -/
def sizeByte (n : Int) : UInt8 :=
  let b := UInt8.ofNat (n % 256).toNat
  if b = 255 then 254 else b

/-- Tell the window size. -/
def sendNAWSinfo (tw : WindRec) (horiz vert : Int) : WindRec :=
  if tw.cfg.protocol ≠ 0 then tw
  else
    let tw := tw.netwrite [TEL_IAC, TEL_SB, N_NAWS, 0]
    let tw := tw.netwrite [sizeByte horiz, 0]
    tw.netwrite [sizeByte vert, TEL_IAC, TEL_SE]

/-- The triplet that tells the other side about special character `i`. -/
def slcTriplet (tw : WindRec) (i : ℕ) : List UInt8 :=
  if tw.line.slc i = 255 then [UInt8.ofNat i, SLC_NOSUPPORT, 0]
  else [UInt8.ofNat i, SLC_VALUE, tw.line.slc i]

/-- Enter line mode and send all special characters. -/
def doLinemode (tw : WindRec) : WindRec :=
  let tw := { tw with line.lmodeBits := 0, opts.lmode := true, line.litNext := false }
  let tw := tw.netwrite [TEL_IAC, TEL_SB, N_LINEMODE, L_SLC]
  let tw := (List.range' 1 30).foldl (fun tw i => tw.netwrite (tw.slcTriplet i)) tw
  tw.netwrite [TEL_IAC, TEL_SE]

def telnet_do (tw : WindRec) (option : UInt8) : WindRec :=
  if option = N_SGA then
    if !tw.opts.Isga then { tw with opts.Isga := true }.send .will N_SGA else tw
  else if option = N_TERMTYP then
    if !tw.opts.Ittype then { tw with opts.Ittype := true }.send .will N_TERMTYP else tw
  else if option = N_NAWS then
    ({ tw with opts.naws := true }.send .will N_NAWS).sendNAWSinfo
      (tw.cfg.maxwidth + 1) tw.cfg.lines
  else if option = N_LINEMODE then
    if tw.cfg.lineAllow then (tw.send .will N_LINEMODE).doLinemode else tw.send .wont N_LINEMODE
  else if option = N_AUTHENTICATION then
    if !tw.opts.myAuthentication then
      if tw.cfg.authenticate && tw.cfg.authOK then
        { tw with opts.myAuthentication := true }.send .will N_AUTHENTICATION
      else tw.send .wont N_AUTHENTICATION
    else tw
  else if option = N_ENCRYPT then
    if !tw.opts.myEncrypt then
      if tw.cfg.encrypt && tw.cfg.encryptOK && tw.cfg.authenticate && tw.cfg.authOK then
        { tw with opts.myEncrypt := true }.send .will N_ENCRYPT
      else tw.send .wont N_ENCRYPT
    else tw
  else if option = N_NEW_ENVIRON then
    if !tw.cfg.username.isEmpty then tw.send .will N_NEW_ENVIRON else tw.send .wont option
  else if option = N_REMOTEFLOW then
    if !tw.opts.remote_flow then { tw with opts.remote_flow := true }.send .will option else tw
  else tw.send .wont option

def telnet_dont (tw : WindRec) (option : UInt8) : WindRec :=
  if option = N_ENCRYPT then { tw with opts.myEncrypt := false }.send .wont option
  else if option = N_AUTHENTICATION then
    { tw with opts.myAuthentication := false }.send .wont option
  else if option = N_LINEMODE then
    if tw.opts.lmode then
      { (tw.send .wont N_LINEMODE).kbflush with
        opts.lmode := false, line.lmodeBits := 0, line.litNext := false }
    else tw
  else tw

def telnet_will (tw : WindRec) (option : UInt8) : WindRec :=
  if option = N_ECHO then
    if !tw.opts.echo then tw else { tw with opts.echo := false }.send .do N_ECHO
  else if option = N_SGA then
    if tw.opts.Usga then tw else { tw with opts.Usga := true }.send .do N_SGA
  else if option = N_TIMING then { tw with timing := false }
  else if option = N_AUTHENTICATION then
    if !tw.opts.hisAuthentication then
      if tw.cfg.authenticate && tw.cfg.authOK then
        { tw with opts.hisAuthentication := true }.send .do N_AUTHENTICATION
      else tw.send .dont N_AUTHENTICATION
    else tw
  else if option = N_ENCRYPT then
    if !tw.opts.hisEncrypt then
      if tw.cfg.encrypt && tw.cfg.encryptOK && tw.cfg.authenticate && tw.cfg.authOK then
        { tw with opts.hisEncrypt := true }.send .do N_ENCRYPT
      else tw.send .dont N_ENCRYPT
    else tw
  else if option = N_REMOTEFLOW then
    -- the case has no break: whatever was answered, the default refuses
    let tw :=
      if !tw.opts.remote_flow then { tw with opts.remote_flow := true }.send .do N_REMOTEFLOW
      else tw
    tw.send .dont option
  else tw.send .dont option

def telnet_wont (tw : WindRec) (option : UInt8) : WindRec :=
  if option = N_ECHO then
    if tw.opts.echo then tw else { tw with opts.echo := true }.send .dont N_ECHO
  else if option = N_SGA then
    if !tw.opts.Usga then tw else { tw with opts.Usga := false }.send .dont N_SGA
  else if option = N_TIMING then { tw with timing := false }
  else if option = N_ENCRYPT then { tw with opts.hisEncrypt := false }.send .dont option
  else if option = N_AUTHENTICATION then
    { tw with opts.hisAuthentication := false }.send .dont option
  else tw

/-- Answer one command of the other side. -/
def answer (tw : WindRec) (verb : Verb) (option : UInt8) : WindRec :=
  match verb with
  | .do => tw.telnet_do option
  | .dont => tw.telnet_dont option
  | .will => tw.telnet_will option
  | .wont => tw.telnet_wont option

/-- What the session sends first: the greeting of the protocols of Berkeley, or the options that
a telnet client asks for at the telnet port. -/
def telnet_send_initial_options (su : Startup) (tw : WindRec) : WindRec :=
  if 1 ≤ tw.cfg.protocol ∧ tw.cfg.protocol ≤ 3 then
    let tw := tw.netwrite [0]
    let tw := tw.netwrite
      (if tw.cfg.protocol = 3 ∨ su.clientuser = [] then tw.cfg.username else su.clientuser)
    let tw := tw.netwrite [0]
    let tw := tw.netwrite (if tw.cfg.protocol = 3 then su.password else tw.cfg.username)
    let tw := tw.netwrite [0]
    let tw :=
      if tw.cfg.protocol = 1 then
        (tw.netwrite tw.cfg.answerback).netwrite [0x2f, 0x39, 0x36, 0x30, 0x30, 0]   -- /9600
      else (tw.netwrite su.command).netwrite [0]
    { tw with opts.echo := false, opts.Usga := true }
  else if tw.cfg.protocol ≠ 4 ∧ tw.cfg.protocol ≠ 0 then
    { tw with opts.echo := true, opts.Usga := true }
  else
    -- the secure shell has its own negotiation, and of these options only the plug-ins'
    let tw := if tw.cfg.protocol = 4 then { tw with opts.echo := false, opts.Usga := true } else tw
    let tw :=
      if tw.cfg.authenticate && tw.cfg.authOK then
        let tw := { tw.send .will N_AUTHENTICATION with opts.myAuthentication := true }
        if tw.cfg.encrypt && tw.cfg.encryptOK then
          { tw.send .will N_ENCRYPT with opts.myEncrypt := true }
        else tw
      else tw
    if tw.cfg.protocol = 4 then tw
    else if su.standardPort then
      let tw := { tw.send .do N_ECHO with opts.echo := true }
      let tw := { tw.send .do N_SGA with opts.Usga := true }
      (tw.send .wont N_XDISPLOC).send .will N_NAWS
    else { tw with opts.echo := true, opts.Usga := true }

end WindRec

end Telnet
