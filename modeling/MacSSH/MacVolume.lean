import Mathlib.Logic.Function.Basic
import MacSSH.ByteFile

/-!
# A Macintosh volume

The File Manager calls of the FTP server, over a volume whose files have a data fork and a
resource fork, each an array of bytes.
-/

namespace MacVolume

open ByteFile

/-- The Finder's information about a file (`FInfo`, 16 bytes). -/
structure FInfo where
  fdType : Vector UInt8 4
  fdCreator : Vector UInt8 4
  fdFlagsHigh : UInt8
  fdFlagsLow : UInt8
  fdLocation : Vector UInt8 6

inductive Fork
  | data
  | rsrc
deriving DecidableEq

structure MacFile where
  data : List UInt8
  rsrc : List UInt8
  fndrInfo : FInfo
  crDat : Vector UInt8 4
  mdDat : Vector UInt8 4

def MacFile.contents (m : MacFile) : Fork → List UInt8
  | .data => m.data
  | .rsrc => m.rsrc

def MacFile.withContents (m : MacFile) (bs : List UInt8) : Fork → MacFile
  | .data => { m with data := bs }
  | .rsrc => { m with rsrc := bs }

/-- The files of a volume, by the form of their name that names are compared in, the bytes that a
fork is extended with when its end is moved past what was written, and the date that new files get.
-/
structure Volume where
  fold : List UInt8 → List UInt8
  fill : Nat → UInt8
  now : Vector UInt8 4
  files : List UInt8 → Option MacFile

/-- An open fork, with its mark. -/
structure Fd where
  key : List UInt8
  fork : Fork
  pos : Nat

def noErr : Int := 0
def eofErr : Int := -39
def rfNumErr : Int := -51

namespace Volume

def find (v : Volume) (name : List UInt8) : Option MacFile :=
  v.files (v.fold name)

def put (v : Volume) (key : List UInt8) (m : Option MacFile) : Volume :=
  { v with files := Function.update v.files key m }

def HCreate (v : Volume) (name : List UInt8) (creator type : Vector UInt8 4) : Volume :=
  match v.find name with
  | some _ => v
  | none => v.put (v.fold name) (some
      { data := [], rsrc := []
        fndrInfo := { fdType := type, fdCreator := creator, fdFlagsHigh := 0, fdFlagsLow := 0
                      fdLocation := Vector.replicate 6 0 }
        crDat := v.now, mdDat := v.now })

def HDelete (v : Volume) (name : List UInt8) : Volume :=
  v.put (v.fold name) none

/-- `HOpenDF` and `HOpenRF`. -/
def HOpen (v : Volume) (name : List UInt8) (fork : Fork) : Option Fd :=
  match v.find name with
  | some _ => some { key := v.fold name, fork := fork, pos := 0 }
  | none => none

/-- The contents of the fork that `fd` is open on. -/
def contents (v : Volume) (fd : Fd) : List UInt8 :=
  match v.files fd.key with
  | some m => m.contents fd.fork
  | none => []

/-- `FSRead`: the error, the bytes read and the moved mark. -/
def FSRead (v : Volume) (fd : Option Fd) (count : Nat) : Int × List UInt8 × Option Fd :=
  match fd with
  | none => (rfNumErr, [], none)
  | some fd =>
    let got := ((v.contents fd).drop fd.pos).take count
    (if got.length < count then eofErr else noErr, got,
      some { fd with pos := fd.pos + got.length })

/-- `FSWrite`: the error, the count written, the volume and the moved mark. -/
def FSWrite (v : Volume) (fd : Option Fd) (bs : List UInt8) :
    Int × Nat × Volume × Option Fd :=
  match fd with
  | none => (rfNumErr, 0, v, none)
  | some fd =>
    match v.files fd.key with
    | none => (rfNumErr, 0, v, some fd)
    | some m =>
      (noErr, bs.length,
        v.put fd.key (some (m.withContents (overwrite (m.contents fd.fork) fd.pos bs) fd.fork)),
        some { fd with pos := fd.pos + bs.length })

/-- `SetEOF`: the volume, and the mark, which does not stay behind the end. -/
def SetEOF (v : Volume) (fd : Option Fd) (n : Int) : Volume × Option Fd :=
  match fd with
  | none => (v, none)
  | some fd =>
    if n < 0 then (v, some fd)
    else
      match v.files fd.key with
      | none => (v, some fd)
      | some m =>
        (v.put fd.key
            (some (m.withContents (resize v.fill (m.contents fd.fork) n.toNat) fd.fork)),
          some { fd with pos := min fd.pos n.toNat })

@[simp] theorem put_fold (v : Volume) (key : List UInt8) (m : Option MacFile) :
    (v.put key m).fold = v.fold := rfl

@[simp] theorem put_fill (v : Volume) (key : List UInt8) (m : Option MacFile) :
    (v.put key m).fill = v.fill := rfl

@[simp] theorem put_now (v : Volume) (key : List UInt8) (m : Option MacFile) :
    (v.put key m).now = v.now := rfl

@[simp] theorem put_files_self (v : Volume) (key : List UInt8) (m : Option MacFile) :
    (v.put key m).files key = m := by
  simp [put]

theorem put_files_of_ne (v : Volume) {key other : List UInt8} (m : Option MacFile)
    (h : other ≠ key) : (v.put key m).files other = v.files other := by
  simp [put, h]

/-- A file that is there can be opened. -/
theorem open_of_file {v : Volume} {name : List UInt8} {m : MacFile}
    (h : v.files (v.fold name) = some m) (fork : Fork) :
    v.HOpen name fork = some { key := v.fold name, fork := fork, pos := 0 } := by
  rw [HOpen, find, h]

/-- A read gets what lies between the mark and the mark moved. -/
theorem read_open (v : Volume) (fd : Fd) (count : Nat) :
    v.FSRead (some fd) count
      = (if (((v.contents fd).drop fd.pos).take count).length < count then eofErr else noErr,
          ((v.contents fd).drop fd.pos).take count,
          some { fd with pos := fd.pos + (((v.contents fd).drop fd.pos).take count).length }) :=
  rfl

/-- A write to an open file. -/
theorem write_open {v : Volume} {fd : Fd} {m : MacFile} (h : v.files fd.key = some m)
    (bs : List UInt8) :
    v.FSWrite (some fd) bs
      = (noErr, bs.length,
          v.put fd.key (some (m.withContents (overwrite (m.contents fd.fork) fd.pos bs) fd.fork)),
          some { fd with pos := fd.pos + bs.length }) := by
  simp only [FSWrite, h]

/-- The end of an open file moved. -/
theorem setEOF_open {v : Volume} {fd : Fd} {m : MacFile} (h : v.files fd.key = some m)
    (n : Nat) :
    v.SetEOF (some fd) n
      = (v.put fd.key (some (m.withContents (resize v.fill (m.contents fd.fork) n) fd.fork)),
          some { fd with pos := min fd.pos n }) := by
  have hn : ¬ (n : Int) < 0 := by omega
  simp only [SetEOF, h, if_neg hn, Int.toNat_natCast]

end Volume

end MacVolume
