import MacSSH.TelnetState

/-! Subnegotiations: what is done with the bytes collected in `parsedat` when a
suboption has ended. -/
namespace Telnet

abbrev TNQ_IS : UInt8 := 0
abbrev TNQ_SEND : UInt8 := 1
abbrev TNQ_REPLY : UInt8 := 2

/-- The authentication and encryption plug-ins: the type and modifier pairs each
module accepts, and what they answer, given the calls so far and the suboption.
Bytes are decrypted in place. -/
structure Plugin where
  modules : List (List (UInt8 × UInt8))
  encryptok : Bool
  initAuth : List PlugCall → Bool
  initEncrypt : List PlugCall → Bool
  authSend : List PlugCall → List UInt8 → Option (List UInt8)
  authReply : List PlugCall → List UInt8 → List UInt8
  encryptReply : List PlugCall → List UInt8 → List UInt8
  startDecrypt : List PlugCall → List UInt8 → Bool
  decrypt : List PlugCall → List UInt8 → List UInt8
  decrypt_length : ∀ calls bytes, (decrypt calls bytes).length = bytes.length

namespace WindRec

/-- The bytes received for the current suboption. -/
def received (tw : WindRec) : List UInt8 := (List.range tw.parseIndex).map tw.parsedat

def reply (tw : WindRec) (bytes : List UInt8) : WindRec :=
  if bytes = [] then tw else tw.netwrite bytes

def call (tw : WindRec) (c : PlugCall) : WindRec := { tw with plug := tw.plug ++ [c] }

/-- The answer that refuses every kind of authentication. -/
def nullbuf : List UInt8 :=
  [TEL_IAC, TEL_SB, N_AUTHENTICATION, TNQ_IS, 0, 0, TEL_IAC, TEL_SE]

/-- Look for a pair that some module accepts, from `i` up to the end `n` of the
suboption; the second byte of the last pair may lie behind it. -/
def findPair (pl : Plugin) (d : ℕ → UInt8) (n : ℕ) : ℕ → ℕ → Bool
  | 0, _ => false
  | fuel + 1, i =>
    if i < n then
      if pl.modules.any fun pairs => pairs.contains (d i, d (i + 1)) then true
      else findPair pl d n fuel (i + 2)
    else false

/-- Set up the authentication data, if there is none yet. -/
def initAuth (pl : Plugin) (tw : WindRec) : WindRec :=
  if tw.authdata then tw
  else { tw.call .initAuth with authdata := pl.initAuth tw.plug }

/-- Set up the encryption data, if there is none yet. -/
def initEncrypt (pl : Plugin) (tw : WindRec) : WindRec :=
  if tw.encryptdata then tw
  else { tw.call .initEncrypt with encryptdata := pl.initEncrypt tw.plug }

def auth_suboption (pl : Plugin) (tw : WindRec) : WindRec :=
  if tw.parsedat 1 = TNQ_SEND then
    if !findPair pl tw.parsedat tw.parseIndex tw.parseIndex 2 then tw.netwrite nullbuf
    else
      let tw := tw.initAuth pl
      if !tw.authdata then tw.netwrite nullbuf
      else
        match pl.authSend tw.plug tw.received with
        | none => (tw.call (.authSend tw.received)).netwrite nullbuf
        | some bytes => (tw.call (.authSend tw.received)).reply bytes
  else if tw.parsedat 1 = TNQ_REPLY then
    if tw.authdata then
      (tw.call (.authReply tw.received)).reply (pl.authReply tw.plug tw.received)
    else tw
  else tw

/-- The second component says whether the rest of the buffer is to be decrypted. -/
def encrypt_suboption (pl : Plugin) (tw : WindRec) : WindRec × Bool :=
  if !tw.encryptdata && !pl.encryptok then (tw, false)
  else
    let tw := tw.initEncrypt pl
    if !tw.encryptdata then (tw, false)
    else
      ((tw.call (.encrypt tw.received)).reply (pl.encryptReply tw.plug tw.received),
        pl.startDecrypt tw.plug tw.received)

/-- Environment variables the protocol knows by name. -/
def opt_welldefined (name : List UInt8) : Bool :=
  ["USER", "DISPLAY", "PRINTER", "SYSTEMTYPE", "JOB", "ACCT"].any fun s =>
    s.toUTF8.toList = name

/-- Quote one character of a name or a value. -/
def env_quote (c : UInt8) : List UInt8 :=
  if c = TEL_IAC then [TEL_IAC, c]
  else if c = 0 ∨ c = 1 ∨ c = 2 ∨ c = 3 then [2, c]
  else [c]

def env_opt_add (name value : List UInt8) : List UInt8 :=
  (if opt_welldefined name then 0 else 3) :: name.flatMap env_quote ++
    1 :: value.flatMap env_quote

/-- The reply to a request for the environment: the user's name. -/
def newEnvironReply (tw : WindRec) : List UInt8 :=
  [TEL_IAC, TEL_SB, N_NEW_ENVIRON, TNQ_IS] ++
    env_opt_add [85, 83, 69, 82] (tw.cfg.username.takeWhile (· ≠ 0)) ++ [TEL_IAC, TEL_SE]

/-- The keys that the bits of octet `i` of the mask select. -/
def maskKeys (d : ℕ → UInt8) (i : ℕ) : List UInt8 :=
  ((List.range 8).filter fun j => d i &&& UInt8.ofNat (j * 2) ≠ 0).map fun j =>
    UInt8.ofNat ((i - 3) * 8 + j)

/-- The loop of `setForwardMask` from octet `i`, at most `fuel` times. -/
def maskLoop (d : ℕ → UInt8) : ℕ → ℕ → List UInt8
  | 0, _ => []
  | fuel + 1, i =>
    if d i ≠ 0 ∧ i < 35 then
      if d i = 255 then
        -- an IAC is skipped as doubled unless the octet after the next is SE
        if d (i + 2) = TEL_SE then [] else maskKeys d (i + 1) ++ maskLoop d fuel (i + 2)
      else maskKeys d i ++ maskLoop d fuel (i + 1)
    else []

/-- Enter the keys and clear the rest of the table. -/
def setForwardKeys (tw : WindRec) (keys : List UInt8) : WindRec :=
  { tw with
    line.numForwardKeys := keys.length + 1
    line.forwardKeys := fun i =>
      if i < keys.length then keys.getD i 0
      else if keys.length + 1 ≤ i ∧ i < 32 then 0 else tw.line.forwardKeys i }

def setForwardMask (tw : WindRec) : WindRec := tw.setForwardKeys (maskLoop tw.parsedat 32 3)

/-- Send our side of special character `o`, after the header if it is the first. -/
def respondSLC (tw : WindRec) (o : ℕ) (alreadySentSB ack : Bool) : WindRec :=
  let level := if ack then tw.line.slcLevel o ||| 128 else tw.line.slcLevel o
  let tw' := if alreadySentSB then tw else tw.netwrite [TEL_IAC, TEL_SB, N_LINEMODE, L_SLC]
  if tw.line.slc o = TEL_IAC then
    ((tw'.netwrite [UInt8.ofNat o, level]).netwrite [TEL_IAC]).netwrite [TEL_IAC]
  else tw'.netwrite [UInt8.ofNat o, level, tw.line.slc o]

def setSLC (tw : WindRec) (o : ℕ) (value level : UInt8) : WindRec :=
  { tw with
    line.slc := Function.update tw.line.slc o value
    line.slcLevel := Function.update tw.line.slcLevel o level }

/-- One triplet: special character `o`, its flags and its value. The flag tells
whether the header of a reply went out. -/
def negotiateTriplet (tw : WindRec) (sentSB : Bool) (o : ℕ) (flags value : UInt8) :
    WindRec × Bool :=
  let ack := flags &&& 128 ≠ 0
  let level := flags &&& 3
  if tw.line.slc o ≠ value ∨ tw.line.slcLevel o ≠ flags then
    if level = SLC_NOSUPPORT then
      -- `!=` binds tighter than `&`: only the lowest bit of our level is looked at
      if tw.line.slcLevel o &&& 1 ≠ 0 then
        let tw := tw.setSLC o 255 SLC_NOSUPPORT
        if ack then (tw, sentSB) else (tw.respondSLC o sentSB true, true)
      else (tw, sentSB)
    else if level = SLC_DEFAULT then
      let dflt := default_slc.getD o 0
      let tw := tw.setSLC o dflt (if dflt = 255 then SLC_NOSUPPORT else SLC_VALUE)
      (tw.respondSLC o sentSB false, true)
    else if tw.line.slcLevel o < level then (tw.respondSLC o sentSB false, true)
    else
      let flush := (flags &&& 64) ||| (flags &&& 32)
      let tw := tw.setSLC o value (level ||| flush)
      if ack then (tw, sentSB) else (tw.respondSLC o sentSB true, true)
  else (tw, sentSB)

/-- The triplets from index `i` on, at most `fuel` of them. -/
def slcLoop : ℕ → ℕ → WindRec × Bool → WindRec × Bool
  | 0, _, r => r
  | fuel + 1, i, r =>
    if i + 3 ≤ r.1.parseIndex then
      slcLoop fuel (i + 3) (r.1.negotiateTriplet r.2 (r.1.parsedat i).toNat
        (r.1.parsedat (i + 1)) (r.1.parsedat (i + 2)))
    else r

def negotiateSLC (tw : WindRec) : WindRec :=
  let r := slcLoop tw.parseIndex 2 (tw, false)
  if r.2 then r.1.netwrite [TEL_IAC, TEL_SE] else r.1

/-- The other side sets the mode: accept and acknowledge it, unless it is an
acknowledgement or the present mode. -/
def changeMode (tw : WindRec) (mode : UInt8) : WindRec :=
  if mode &&& 4 ≠ 0 ∨ mode &&& 31 = tw.line.lmodeBits then tw
  else
    let tw := { tw with
      line.lmodeBits := mode
      parsedat := Function.update tw.parsedat 2 (mode ||| 4) }
    (tw.netwrite [TEL_IAC, TEL_SB, N_LINEMODE, L_MODE]).netwrite [mode ||| 4, TEL_IAC, TEL_SE]

def linemode_suboption (tw : WindRec) : WindRec :=
  if tw.parsedat 1 = L_MODE then
    if tw.cfg.lineAllow then tw.changeMode (tw.parsedat 2) else tw
  else if tw.parsedat 1 = TEL_DOTEL then
    { tw with line.forwardMask := true }.setForwardMask.netwrite
      [TEL_IAC, TEL_SB, N_LINEMODE, TEL_WILLTEL, L_FORWARDMASK, TEL_IAC, TEL_SE]
  else if tw.parsedat 1 = TEL_DONTTEL then
    { tw with line.forwardMask := false }.netwrite
      [TEL_IAC, TEL_SB, N_LINEMODE, TEL_WONTTEL, L_FORWARDMASK, TEL_IAC, TEL_SE]
  else if tw.parsedat 1 = L_SLC then tw.negotiateSLC
  else tw

/-- The terminal type is the answerback message. -/
def termtypReply (tw : WindRec) : WindRec :=
  (tw.netwrite [TEL_IAC, TEL_SB, N_TERMTYP, 0]).netwrite
    (tw.cfg.answerback.takeWhile (· ≠ 0) ++ [TEL_IAC, TEL_SE])

def remoteflow_suboption (tw : WindRec) : WindRec :=
  if tw.parsedat 1 = 0 then { tw with allow_flow := false }
  else if tw.parsedat 1 = 1 then { tw with allow_flow := true }
  else if tw.parsedat 1 = 2 then { tw with restart_any_flow := true }
  else if tw.parsedat 1 = 3 then { tw with restart_any_flow := false }
  else tw

/-- Process the suboption in `parsedat`. The flag says that decryption starts, so
that the rest of the bytes at hand is to be decrypted. -/
def suboption (pl : Plugin) (tw : WindRec) : WindRec × Bool :=
  if tw.parsedat 0 = N_TERMTYP then
    (if tw.parsedat 1 = TNQ_SEND then tw.termtypReply else tw, false)
  else if tw.parsedat 0 = N_ENCRYPT then tw.encrypt_suboption pl
  else if tw.parsedat 0 = N_AUTHENTICATION then (tw.auth_suboption pl, false)
  else if tw.parsedat 0 = N_LINEMODE then (tw.linemode_suboption, false)
  else if tw.parsedat 0 = N_REMOTEFLOW then (tw.remoteflow_suboption, false)
  else if tw.parsedat 0 = N_NEW_ENVIRON then
    (if tw.parsedat 1 = TNQ_SEND then tw.netwrite tw.newEnvironReply else tw, false)
  else (tw, false)

def process_suboption (pl : Plugin) (tw : WindRec) (rest : List UInt8) :
    WindRec × List UInt8 :=
  let r := suboption pl (tw.logged .processed)
  (r.1, if r.2 then pl.decrypt r.1.plug rest else rest)

end WindRec

end Telnet
