import Mathlib.Logic.Function.Iterate
import MacSSH.MacVolume

/-!
# MacBinary files

`MBopen`, `MBread`, `MBwrite` and `MBclose` of `FTPserver/binsubs.c`: a file's two forks are sent
behind a header of 128 bytes, each filled to whole blocks of 128, and put together again.
-/

namespace MacBinary

open MacVolume ByteFile

def MB_READ : Nat := 0
def MB_WRITE : Nat := 1
def MB_DISABLE : Nat := 0x80
def MB_ISASCII : Nat := 0x40
def MB_APPEND : Nat := 0x20

/-- The value of a C `long` that is given `i`. -/
def long (i : Int) : Int := Int.bmod i 4294967296

def BLOCKS (x : Int) : Int := (long (x + 127)).tdiv 128

/-- The four bytes of a `long`. -/
def longBytes (x : Int) : Vector UInt8 4 :=
  let n := (x % 4294967296).toNat
  #v[UInt8.ofNat (n / 16777216), UInt8.ofNat (n / 65536), UInt8.ofNat (n / 256), UInt8.ofNat n]

/-- The `long` in four bytes. -/
def longOf (v : Vector UInt8 4) : Int :=
  long (v[0].toNat * 16777216 + v[1].toNat * 65536 + v[2].toNat * 256 + v[3].toNat : Nat)

/-- The MacBinary header. -/
structure MBHead where
  zero1 : UInt8
  nlen : UInt8
  name : Vector UInt8 63
  type : Vector UInt8 4
  creator : Vector UInt8 4
  flags : UInt8
  zero2 : UInt8
  location : Vector UInt8 6
  protectedBit : UInt8
  zero3 : UInt8
  dflen : Vector UInt8 4
  rflen : Vector UInt8 4
  cdate : Vector UInt8 4
  mdate : Vector UInt8 4
  ginfolen : Vector UInt8 2
  flags2 : UInt8
  undefined : Vector UInt8 14
  unpckdlen : Vector UInt8 4
  sechdlen : Vector UInt8 2
  mb2versnum : UInt8
  mb2minvers : UInt8
  crc : Vector UInt8 2
  undefined2 : Vector UInt8 2

namespace MBHead

/-- The first 124 bytes, which the checksum is over. -/
def checked (p : MBHead) : List UInt8 :=
  [p.zero1] ++ ([p.nlen] ++ (p.name.toList ++ (p.type.toList ++ (p.creator.toList ++
    ([p.flags] ++ ([p.zero2] ++ (p.location.toList ++ ([p.protectedBit] ++ ([p.zero3] ++
      (p.dflen.toList ++ (p.rflen.toList ++ (p.cdate.toList ++ (p.mdate.toList ++
        (p.ginfolen.toList ++ ([p.flags2] ++ (p.undefined.toList ++ (p.unpckdlen.toList ++
          (p.sechdlen.toList ++ ([p.mb2versnum] ++ [p.mb2minvers])))))))))))))))))))

/-- The header as it lies in memory. -/
def toBytes (p : MBHead) : List UInt8 :=
  p.checked ++ (p.crc.toList ++ p.undefined2.toList)

/-- `n` characters from `off` on. -/
def chars (n off : Nat) (bs : List UInt8) : Vector UInt8 n :=
  Vector.ofFn fun i => bs.getD (off + i) 0

/-- The header that lies at the front of a buffer. -/
def ofBytes (bs : List UInt8) : MBHead where
  zero1 := bs.getD 0 0
  nlen := bs.getD 1 0
  name := chars 63 2 bs
  type := chars 4 65 bs
  creator := chars 4 69 bs
  flags := bs.getD 73 0
  zero2 := bs.getD 74 0
  location := chars 6 75 bs
  protectedBit := bs.getD 81 0
  zero3 := bs.getD 82 0
  dflen := chars 4 83 bs
  rflen := chars 4 87 bs
  cdate := chars 4 91 bs
  mdate := chars 4 95 bs
  ginfolen := chars 2 99 bs
  flags2 := bs.getD 101 0
  undefined := chars 14 102 bs
  unpckdlen := chars 4 116 bs
  sechdlen := chars 2 120 bs
  mb2versnum := bs.getD 122 0
  mb2minvers := bs.getD 123 0
  crc := chars 2 124 bs
  undefined2 := chars 2 126 bs

end MBHead

/-- One bit of the checksum. -/
def crcBit (crc : UInt16) : UInt16 :=
  if crc &&& 0x8000 ≠ 0 then crc <<< 1 ^^^ 0x1021 else crc <<< 1

/-- The count is a `short`: from a string of more than 32767 bytes only a part can go in. -/
def CalculateCRC (ptr : List UInt8) (count : Int16) : UInt16 :=
  (ptr.take count.toNatClampNeg).foldl
    (fun crc c => Nat.iterate crcBit 8 (crc ^^^ (c.toUInt16 <<< (8 : UInt16)))) 0

/-- What the outcome depends on besides files and buffers: the compiler's reading of `char` and
of the address that `(short)p->crc` takes, and the server's preferences. -/
structure Host where
  unsignedChars : Bool
  crcAddress : Int
  DoISOtranslation : Bool
  trbuf_ftp_mac : List UInt8 → List UInt8
  BinaryCreator : Vector UInt8 4
  BinaryType : Vector UInt8 4
  TextCreator : Vector UInt8 4

/-- The value of a `char`. -/
def Host.char (h : Host) (c : UInt8) : Int :=
  if h.unsignedChars then c.toNat else c.toInt8.toInt

/-- `isMacBinary`: its answer, and the header as it leaves it. -/
def isMacBinary (h : Host) (p : MBHead) : Bool × MBHead :=
  if h.char p.nlen > 0 ∧ h.char p.nlen < 65 ∧ h.char p.zero1 = 0 ∧ h.char p.zero2 = 0 ∧
      h.char p.zero3 = 0 then
    if h.crcAddress = (CalculateCRC p.checked 124).toNat ∧ h.char p.mb2versnum > 128 then
      if h.char p.mb2minvers > 129 then (false, p) else (true, p)
    else (true, { p with flags2 := 0 })
  else (false, p)

/-- An open file. `name` is a `Str255`, its length byte first. -/
structure MBFile where
  name : List UInt8
  fd : Option Fd
  mode : Nat
  binary : Bool
  sector1 : Bool
  fork : Int
  bytes : Int
  rlen : Int
  dlen : Int
  header : MBHead

/-- The characters of a `Str255`. -/
def pstr (s : List UInt8) : List UInt8 :=
  (s.drop 1).take (s.headD 0).toNat

/-- The name `MBopen` makes of the characters of a C string. -/
def macName (h : Host) (file : List UInt8) : List UInt8 :=
  let s := (if h.DoISOtranslation then h.trbuf_ftp_mac file else file).take 31
  let s := if s.headD 0 = 0x2E then 0x5F :: s.tail else s
  s.map fun c => if c = 0x2F ∨ c = 0x3A ∨ c = 13 then 0x20 else c

/-- `MBopen`. The fields it does not set keep what the new block holds. -/
def MBopen (h : Host) (block : MBFile) (v : Volume) (file : List UInt8) (mode : Nat) :
    Option (Volume × MBFile) :=
  let s := macName h file
  let f := { block with
    name := overwrite block.name 0 (UInt8.ofNat s.length :: s), mode := mode }
  let opened (v : Volume) (fd : Fd) : Option (Volume × MBFile) :=
    let pos := if mode &&& MB_APPEND ≠ 0 then (v.contents fd).length else fd.pos
    some (v, { f with fd := some { fd with pos := pos }, binary := false, sector1 := true,
                      fork := 0 })
  match v.HOpen s .data with
  | some fd => opened v fd
  | none =>
    if mode &&& MB_WRITE ≠ 0 then
      let v := v.HCreate s
        (if mode &&& MB_ISASCII ≠ 0 then h.TextCreator else h.BinaryCreator)
        (if mode &&& MB_ISASCII ≠ 0 then #v[0x54, 0x45, 0x58, 0x54] else h.BinaryType)
      match v.HOpen s .data with
      | some fd => opened v fd
      | none => none
    else none

/-- The header `MBread` makes. -/
def sendHeader (name : List UInt8) (finfo : MacFile) : MBHead :=
  let n := if (name.headD 0).toNat > 31 then 32 else (name.headD 0).toNat + 1
  let filled : MBHead :=
    { zero1 := 0, nlen := name.headD 0
      name := Vector.ofFn fun i => if i.val + 1 < n then name.getD (i + 1) 0 else 0
      type := finfo.fndrInfo.fdType, creator := finfo.fndrInfo.fdCreator
      flags := finfo.fndrInfo.fdFlagsHigh, zero2 := 0
      location := finfo.fndrInfo.fdLocation
      protectedBit := if finfo.fndrInfo.fdFlagsLow &&& 0x40 ≠ 0 then 1 else 0
      zero3 := 0
      dflen := longBytes finfo.data.length, rflen := longBytes finfo.rsrc.length
      cdate := finfo.crDat, mdate := finfo.mdDat
      ginfolen := Vector.replicate 2 0, flags2 := finfo.fndrInfo.fdFlagsLow
      undefined := Vector.replicate 14 0, unpckdlen := Vector.replicate 4 0
      sechdlen := Vector.replicate 2 0, mb2versnum := 129, mb2minvers := 129
      crc := Vector.replicate 2 0, undefined2 := Vector.replicate 2 0 }
  let crc := CalculateCRC filled.checked 124
  { filled with crc := #v[(crc >>> 8).toUInt8, crc.toUInt8] }

/-- The fork that is read out is closed, and the next one opened. -/
def closeFork (v : Volume) (f : MBFile) : MBFile :=
  if f.fork = 0 then
    let bytes := long (BLOCKS f.rlen * 128)
    if bytes ≠ 0 then
      { f with fork := 1, bytes := bytes, fd := v.HOpen (pstr f.name) .rsrc }
    else { f with fork := -1, bytes := bytes, fd := none }
  else { f with fork := -1, fd := none }

/-- The part of `MBread` that reads a fork: the bytes stored, and the file after it. -/
def readFork (v : Volume) (f : MBFile) (size : Int) : List UInt8 × MBFile :=
  if size > 0 then
    let (err, got, fd) := v.FSRead f.fd size.toNat
    let bytes := long (f.bytes - got.length)
    if err = eofErr ∨ bytes ≤ 0 then
      let bytes := if bytes < 0 then 0 else bytes
      -- the last block is filled, whether or not `size` leaves room for it
      (got ++ List.replicate bytes.toNat 0, closeFork v { f with fd := fd, bytes := bytes })
    else (got, { f with fd := fd, bytes := bytes })
  else ([], f)

/-- `MBread`: the bytes it stores and counts, `none` when it returns -1. -/
def MBread (v : Volume) (f : MBFile) (size : Int) : Option (List UInt8) × MBFile :=
  if f.fork < 0 then (none, f)
  else if f.sector1 then
    match v.find (pstr f.name) with
    | none => (none, f)
    | some finfo =>
      let f := { f with header := sendHeader f.name finfo
                        dlen := long finfo.data.length, rlen := long finfo.rsrc.length }
      if f.mode &&& MB_DISABLE = 0 then
        if size < 128 then (none, f)
        else
          let f := { f with bytes := long (BLOCKS f.dlen * 128), binary := true, sector1 := false }
          let head := f.header.toBytes
          let (out, f) := readFork v f (size - 128)
          (some (head ++ out), f)
      else
        let f := { f with bytes := f.dlen, rlen := 0, binary := false, sector1 := false }
        let (out, f) := readFork v f size
        (some out, f)
  else
    let (out, f) := readFork v f size
    (some out, f)

/-- `HOpenDF` or `HOpenRF` of the received file, which is created when it is not there. -/
def openReceived (v : Volume) (out : MBFile) (fork : Fork) : Volume × Option Fd :=
  match v.HOpen (pstr out.name) fork with
  | some fd => (v, some fd)
  | none =>
    let v := v.HCreate (pstr out.name) out.header.creator out.header.type
    (v, v.HOpen (pstr out.name) fork)

/-- The fields that `ProcessMBHead` takes from the header. -/
def takeHeader (out : MBFile) (header : MBHead) : MBFile :=
  { out with
    header := header, binary := true
    dlen := longOf header.dflen, rlen := longOf header.rflen
    bytes := long (BLOCKS (longOf header.dflen) * 128), fork := 0, sector1 := false
    name := overwrite out.name 0 (header.nlen :: header.name.toList.take 31) }

def ProcessMBHead (v : Volume) (out : MBFile) (header : MBHead) : Volume × MBFile :=
  let v := v.HDelete (pstr out.name)
  let out := takeHeader out header
  if out.bytes ≠ 0 then
    let opened := openReceived v out .data
    (opened.1, { out with fd := opened.2 })
  else
    let opened := openReceived v out .rsrc
    (opened.1, { out with fd := opened.2, fork := 1, bytes := long (BLOCKS out.rlen * 128) })

/-- The end of `bwrite`, once no more bytes are due for the open fork; `rest` is what of the
buffer was not written. -/
def endFork (v : Volume) (out : MBFile) (error : Int) (rest : List UInt8) :
    Int × Volume × MBFile :=
  if out.fork = 0 then
    let bytes := long (BLOCKS out.rlen * 128)
    let (v, _) := v.SetEOF out.fd out.dlen
    if bytes ≠ 0 then
      let fd := v.HOpen (pstr out.name) .rsrc
      if rest ≠ [] then
        -- what goes to the resource fork here is not taken off `bytes`
        let (error, _, v, fd) := v.FSWrite fd rest
        (error, v, { out with fork := 1, bytes := bytes, fd := fd })
      else (error, v, { out with fork := 1, bytes := bytes, fd := fd })
    else (error, v, { out with fork := 1, bytes := bytes, fd := none })
  else
    let (v, fd) := v.SetEOF out.fd out.rlen
    (error, v, { out with fd := fd })

def bwrite (v : Volume) (out : MBFile) (buffer : List UInt8) : Int × Volume × MBFile :=
  if out.binary then
    if out.bytes > 0 then
      let len := if out.bytes < buffer.length then out.bytes.toNat else buffer.length
      let (error, len, v, fd) := v.FSWrite out.fd (buffer.take len)
      let out := { out with fd := fd, bytes := long (out.bytes - len) }
      if out.bytes ≤ 0 then endFork v out error (buffer.drop len) else (error, v, out)
    else endFork v out noErr buffer
  else
    let (error, _, v, fd) := v.FSWrite out.fd buffer
    (error, v, { out with fd := fd })

/-- The end of `MBwrite`: `rest` is written, and all of `rsize` reported. -/
def writeRest (v : Volume) (out : MBFile) (rest : List UInt8) (rsize : Int) :
    Int × Volume × MBFile :=
  let written := bwrite v out rest
  (if written.1 ≠ noErr then -1 else rsize, written.2)

/-- `MBwrite`: what it returns, the volume and the file after it. -/
def MBwrite (h : Host) (v : Volume) (out : MBFile) (buffer : List UInt8) :
    Int × Volume × MBFile :=
  if (buffer.length : Int) < 1 then (0, v, out)
  else if out.sector1 ∧ buffer.length ≥ 128 ∧ out.mode &&& MB_DISABLE = 0 then
    let answer := isMacBinary h (MBHead.ofBytes buffer)
    if answer.1 then
      let begun := ProcessMBHead v out answer.2
      if buffer.length - 128 < 1 then (buffer.length, begun)
      else writeRest begun.1 begun.2 (buffer.drop 128) buffer.length
    else
      -- `isMacBinary` does not touch what it rejects
      writeRest v out buffer buffer.length
  else writeRest v out buffer buffer.length

/-- `MBclose`, as far as the volume goes. -/
def MBclose (v : Volume) (out : MBFile) : Volume :=
  match out.fd with
  | none => v
  | some fd =>
    if out.mode &&& MB_DISABLE = 0 ∧ out.mode &&& MB_WRITE ≠ 0 then
      let (v, _) := v.SetEOF (some fd) (if out.fork ≠ 0 then out.rlen else out.dlen)
      match v.find (pstr out.name) with
      | none => v
      | some finfo =>
        v.put (v.fold (pstr out.name)) (some { finfo with
          fndrInfo := { fdType := out.header.type, fdCreator := out.header.creator
                        fdFlagsHigh := out.header.flags &&& 0xFE
                        fdFlagsLow := out.header.zero2 ||| out.header.flags2
                        fdLocation := out.header.location }
          crDat := out.header.cdate, mdDat := out.header.mdate })
    else if out.mode &&& MB_WRITE ≠ 0 then
      (v.SetEOF (some fd) fd.pos).1
    else v

/-- `MBread` called with each size in turn: all the bytes it stores, and the file after it. -/
def MBreads (v : Volume) (f : MBFile) : List Int → List UInt8 × MBFile
  | [] => ([], f)
  | size :: sizes =>
    let read := MBread v f size
    let later := MBreads v read.2 sizes
    (read.1.getD [] ++ later.1, later.2)

/-- `MBwrite` called with each buffer in turn. -/
def MBwrites (h : Host) (v : Volume) (out : MBFile) : List (List UInt8) → Volume × MBFile
  | [] => (v, out)
  | buffer :: buffers =>
    let written := MBwrite h v out buffer
    MBwrites h written.2.1 written.2.2 buffers

end MacBinary
