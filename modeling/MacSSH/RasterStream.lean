import MacSSH.Shorts
import Mathlib.Tactic.Common

/-! Interactive color raster: the commands for pictures, read from what the host sends. -/
namespace VR

open VS

/-- The states of the parser. -/
inductive RasterState where
  | DONE | ESCFOUND | WANTCMD | WANTDEL | IARG | SARG | CARG | DATA
deriving DecidableEq

/-- The types of the arguments of a command; `none` is the 0 of the table. -/
inductive ArgType where
  | none | INT | STRING | COUNT
deriving DecidableEq

def MAXARGS : Int := 7
def LINEMAX : Int := 1024
def TEMPMAX : Int := 256

def ESC : UInt8 := 27
def DELIM : UInt8 := 59
def CMDTRM : UInt8 := 94

/-- The commands, in the order of `cmdtab`. -/
inductive Command where
  | VRwindow | VRdestroy | VRmap | VRfile | VRpixel | VRrle | VRimp | VRclick | VRmsave
deriving DecidableEq

structure Cmd where
  c_name : UInt8
  flData : Bool
  c_args : List ArgType

def cmdtab : Command → Cmd
  | .VRwindow => ⟨87, false, [.INT, .INT, .INT, .INT, .INT, .STRING, .none]⟩
  | .VRdestroy => ⟨68, false, [.STRING, .none, .none, .none, .none, .none, .none]⟩
  | .VRmap => ⟨77, true, [.INT, .INT, .COUNT, .STRING, .none, .none, .none]⟩
  | .VRfile => ⟨70, false, [.INT, .INT, .INT, .INT, .INT, .STRING, .STRING]⟩
  | .VRpixel => ⟨80, true, [.INT, .INT, .INT, .COUNT, .STRING, .none, .none]⟩
  | .VRrle => ⟨82, true, [.INT, .INT, .INT, .COUNT, .STRING, .none, .none]⟩
  | .VRimp => ⟨73, true, [.INT, .INT, .INT, .COUNT, .STRING, .none, .none]⟩
  | .VRclick => ⟨67, false, [.STRING, .none, .none, .none, .none, .none, .none]⟩
  | .VRmsave => ⟨83, false, [.STRING, .STRING, .none, .none, .none, .none, .none]⟩

def commands : List Command :=
  [.VRwindow, .VRdestroy, .VRmap, .VRfile, .VRpixel, .VRrle, .VRimp, .VRclick, .VRmsave]

/-- What the parser takes from outside: the `short` that `sscanf` with `%d` leaves, if it
converts anything, and what stands behind the types of a command in memory. -/
structure Outside where
  scan : List UInt8 → Option (BitVec 16)
  behind : ArgType

inductive DecodeState where
  | FRSKIP | FRIN | FRSPECIAL
deriving DecidableEq

/-- The places that the parser stores or looks up at. -/
inductive Touch where
  | tempdata (i : Int)
  | args (i : Int)
  | c_args (i : Int)
  | space (i : Int)

/-- The place is inside its table. -/
def Touch.Inside : Touch → Prop
  | tempdata i => 0 ≤ i ∧ i < TEMPMAX
  | args i => 0 ≤ i ∧ i < MAXARGS
  | c_args i => 0 ≤ i ∧ i < MAXARGS
  | space i => 0 ≤ i ∧ i < LINEMAX

/-- The variables of the parser. The bytes of `VRtempdata`, `VRargs` and `VRspace` stand
at their offsets, and the two pointers into `VRspace` are offsets too. `allocated` says
whether `VRspace` was given to `VRinit`. `touched` and `stored` only record: the places
touched, and the number of bytes stored for the present command. -/
structure Raster where
  VRstate : RasterState
  VRcmdnum : Command
  VRargcount : Int
  VRdatalen : Int
  VRbufpos : Int
  VRargs : Int → UInt8
  VRtempdata : Int → UInt8
  allocated : Bool
  VRspace : Int → UInt8
  VRptr : Int
  VRptr2 : Int
  dstate : DecodeState
  dspec : Int
  touched : List Touch
  stored : ℕ
  calls : List (Command × (Int → UInt8) × Option Int)

namespace Raster

def touch (s : Raster) (t : Touch) : Raster := { s with touched := s.touched ++ [t] }

/-- `VRtempdata[VRbufpos] = c` -/
def putTemp (s : Raster) (c : UInt8) : Raster :=
  { s.touch (.tempdata s.VRbufpos) with
    VRtempdata := Function.update s.VRtempdata s.VRbufpos c }

/-- The string in `VRtempdata`. -/
def tempString (s : Raster) : List UInt8 :=
  ((List.range s.VRbufpos.toNat).map fun i : ℕ => s.VRtempdata i).takeWhile (· ≠ 0)

end Raster

def storeBytes (mem : Int → UInt8) (i : Int) : List UInt8 → Int → UInt8
  | [] => mem
  | b :: bytes => storeBytes (Function.update mem i b) (i+1) bytes

/-- The offset of an argument in `VRargs`, each a union of 100 bytes. -/
def argOffset (s : Raster) : Int := 100*s.VRargcount

/-- `sscanf(VRtempdata, "%d", &VRargs[VRargcount].a_num)` -/
def scanArg (o : Outside) (s : Raster) : Raster :=
  let s := s.touch (.args s.VRargcount)
  match o.scan s.tempString with
  | some v =>
    let bytes := [UInt8.ofNat (v.toNat/256), UInt8.ofNat (v.toNat%256)]
    { s with VRargs := storeBytes s.VRargs (argOffset s) bytes }
  | none => s

/-- `strcpy(VRargs[VRargcount].a_ptr, VRtempdata)` -/
def copyArg (s : Raster) : Raster :=
  let s := s.touch (.args s.VRargcount)
  { s with VRargs := storeBytes s.VRargs (argOffset s) (s.tempString ++ [0]) }

/-- The state in which an argument is read. -/
def argState : ArgType → RasterState
  | .INT => .IARG
  | .STRING => .SARG
  | .COUNT => .CARG
  | .none => .DATA

/-- The type of the next argument, from the table or from behind it. -/
def argType (o : Outside) (cmd : Command) (ac : Int) : ArgType :=
  (cmdtab cmd).c_args.getD ac.toNat o.behind

def VRnextargstate (o : Outside) (s : Raster) : Raster :=
  { s.touch (.c_args s.VRargcount) with
    VRstate := argState (argType o s.VRcmdnum s.VRargcount) }

/-- Run a command with its arguments, and with its data if it has any. -/
def runCommand (s : Raster) (data : Option Int) : Raster :=
  { s with calls := s.calls ++ [(s.VRcmdnum, s.VRargs, data)], VRstate := .DONE }

/-- The end of an argument that has been put into the vector. -/
def endArg (o : Outside) (s : Raster) (c : UInt8) : Raster :=
  let s := { s with VRbufpos := 0, VRargcount := short (s.VRargcount+1) }
  if c = DELIM then VRnextargstate o s
  else if (cmdtab s.VRcmdnum).flData then { s with VRstate := .DATA }
  else runCommand s none

/-- A character of an argument is kept for later. -/
def keepChar (s : Raster) (c : UInt8) : Raster :=
  { s.putTemp c with VRbufpos := short (s.VRbufpos+1) }

/-- Set up the decoder. -/
def decode0 (s : Raster) : Raster := { s with dstate := .FRIN }

/-- `decode1` while it decodes; a special character is kept in `dspec`. -/
def decodeIn (s : Raster) (c : Int) : Int × Raster :=
  if c > 31 ∧ c < 123 then (c, s) else (-1, { s with dspec := c, dstate := .FRSPECIAL })

/-- Decode a character of the data: the byte, or -1. -/
def decode1 (s : Raster) (c : Int) : Int × Raster :=
  match s.dstate with
  | .FRSKIP => (-1, s)
  | .FRIN => decodeIn s c
  | .FRSPECIAL =>
    let s' := { s with dstate := .FRIN }
    if 123 ≤ s.dspec ∧ s.dspec ≤ 126 then ((s.dspec-123)*64-32+c, s')
    else decodeIn s' c

/-- What a character makes `VRwrite` do: go on, return what it has counted, or return 0. -/
inductive Outcome where
  | next (s : Raster)
  | leave (s : Raster)
  | fail (s : Raster)

def Outcome.state : Outcome → Raster
  | next s => s
  | leave s => s
  | fail s => s

/-- The count that the characters kept declare, or the old one where they are no number. -/
def declared (o : Outside) (s : Raster) : Int :=
  match o.scan s.tempString with
  | some v => v.toInt
  | none => s.VRdatalen

/-- The end of a count: it is kept below `LINEMAX`, and the storage for the data is set up
once the next state is known. -/
def endCount (o : Outside) (s : Raster) (c : UInt8) : Outcome :=
  let s := s.putTemp 0
  let read := declared o s
  let s := scanArg o s
  let s := { s with VRdatalen := if read > LINEMAX then LINEMAX else read }
  let s := endArg o s c
  if s.allocated then .next (decode0 { s with VRptr := 0, VRptr2 := 0 })
  else .fail { s with VRstate := .DONE }

/-- `*VRptr2++ = i; --VRdatalen` -/
def storeData (s : Raster) (i : Int) : Raster :=
  { s.touch (.space s.VRptr2) with
    VRspace := Function.update s.VRspace s.VRptr2 (.ofNat i.toNat)
    VRptr2 := s.VRptr2+1
    VRdatalen := short (s.VRdatalen-1)
    stored := s.stored+1 }

/-- A character of the data. -/
def dataChar (s : Raster) (c : UInt8) : Raster :=
  let d := decode1 s c.toInt8.toInt
  let s := if 0 ≤ d.1 then storeData d.2 d.1 else d.2
  if s.VRdatalen = 0 then runCommand s (some s.VRptr) else s

/-- One character of `VRwrite`. -/
def VRchar (o : Outside) (s : Raster) (c : UInt8) : Outcome :=
  match s.VRstate with
  | .DONE => if c = ESC then .next { s with VRstate := .ESCFOUND } else .leave s
  | .ESCFOUND =>
    if c = CMDTRM then .next { s with VRstate := .WANTCMD }
    else .leave { s with VRstate := .DONE }
  | .WANTCMD =>
    match commands.find? fun cmd => (cmdtab cmd).c_name = c with
    | none => .fail { s with VRstate := .DONE }
    | some cmd => .next { s with
        VRcmdnum := cmd, VRargcount := 0, VRbufpos := 0, VRstate := .WANTDEL, stored := 0 }
  | .WANTDEL =>
    if c = DELIM then .next (VRnextargstate o s) else .next { s with VRstate := .DONE }
  | .IARG =>
    if c = DELIM ∨ c = CMDTRM then .next (endArg o (scanArg o (s.putTemp 0)) c)
    else .next (keepChar s c)
  | .SARG =>
    if c = DELIM ∨ c = CMDTRM then .next (endArg o (copyArg (s.putTemp 0)) c)
    else .next (keepChar s c)
  | .CARG => if c = DELIM ∨ c = CMDTRM then endCount o s c else .next (keepChar s c)
  | .DATA => .next (dataChar s c)

/-- Parse a string of commands: the number of characters processed, and the state. -/
def VRwrite (o : Outside) (s : Raster) (b : List UInt8) (count : ℕ) : ℕ × Raster :=
  match b with
  | [] => (count, s)
  | c :: b =>
    match VRchar o s c with
    | .next s => VRwrite o s b (count+1)
    | .leave s => (count, s)
    | .fail s => (0, s)

/-- What is promised of a state: every place touched is inside its table, one command has
stored no more than a line, and a decoder that is set up does not store on behind a count
that has passed zero. -/
structure Safe (s : Raster) : Prop where
  inside : ∀ t ∈ s.touched, t.Inside
  stored_le : (s.stored : Int) ≤ LINEMAX
  counting : s.VRstate = .DATA → s.VRdatalen < 0 → s.dstate = .FRSKIP

/-- The argument that `c` ends is the last one before the data. -/
def EntersData (o : Outside) (s : Raster) (c : UInt8) : Prop :=
  c = DELIM ∧ argType o s.VRcmdnum (s.VRargcount+1) = .none ∨
    c = CMDTRM ∧ (cmdtab s.VRcmdnum).flData

/-- There is room for the character behind `n` others of its argument, and for a type of the
argument behind it. -/
def ArgFits (n : Int) (s : Raster) (c : UInt8) : Prop :=
  n < TEMPMAX ∧ (c = DELIM → s.VRargcount+1 < MAXARGS)

/-- An argument fits, the data does not begin with a count below zero, and with a count of
zero it does not begin with a character that decodes to a byte. -/
def CharFineIn (o : Outside) (n : Int) (s : Raster) (c : UInt8) : RasterState → Prop
  | .IARG => ArgFits n s c ∧ (EntersData o s c → s.VRdatalen < 0 → s.dstate = .FRSKIP)
  | .SARG => ArgFits n s c ∧ (EntersData o s c → s.VRdatalen < 0 → s.dstate = .FRSKIP)
  | .CARG => ArgFits n s c ∧ (EntersData o s c → s.allocated → 0 ≤ declared o s)
  | .DATA => s.VRdatalen = 0 → (decode1 s c.toInt8.toInt).1 < 0
  | _ => True

def CharFine (o : Outside) (n : Int) (s : Raster) (c : UInt8) : Prop :=
  CharFineIn o n s c s.VRstate

/-- The states that read an argument, and the type of each. -/
def readsArg : RasterState → Option ArgType
  | .IARG => some .INT
  | .SARG => some .STRING
  | .CARG => some .COUNT
  | _ => none

/-- The states outside a command and before its first argument. -/
def idle (state : RasterState) : Bool :=
  state = .DONE || state = .ESCFOUND || state = .WANTCMD || state = .WANTDEL

/-- What a run keeps besides: the count is at most a line, it is zero between the commands,
and where it is not the next byte goes behind those already stored. -/
structure Inv (o : Outside) (s : Raster) : Prop where
  le_max : s.VRdatalen ≤ LINEMAX
  skipping : s.allocated = false → s.dstate = .FRSKIP
  idle_zero : s.allocated → idle s.VRstate → s.VRdatalen = 0
  counted : s.allocated → s.VRdatalen ≠ 0 → s.VRptr2 = s.stored ∧
    s.stored+s.VRdatalen ≤ LINEMAX ∧ (cmdtab s.VRcmdnum).flData
  arg : ∀ type, readsArg s.VRstate = some type → 0 ≤ s.VRargcount ∧ s.VRargcount < MAXARGS ∧
    argType o s.VRcmdnum s.VRargcount = type ∧ 0 ≤ s.VRbufpos ∧ s.VRbufpos ≤ TEMPMAX ∧
    s.stored = 0
  begins : s.VRstate = .WANTDEL → s.VRargcount = 0 ∧ s.VRbufpos = 0 ∧ s.stored = 0

/-- The two agree in what the arguments leave alone. -/
structure SameData (s s' : Raster) : Prop where
  datalen : s.VRdatalen = s'.VRdatalen
  cmdnum : s.VRcmdnum = s'.VRcmdnum
  alloc : s.allocated = s'.allocated
  ptr2 : s.VRptr2 = s'.VRptr2
  decoder : s.dstate = s'.dstate
  stored : s.stored = s'.stored

section Steps
variable {o : Outside} {s s' : Raster} {c : UInt8}

theorem SameData.trans {a b c : Raster} (h : SameData a b) (h' : SameData b c) :
    SameData a c :=
  ⟨h.datalen.trans h'.datalen, h.cmdnum.trans h'.cmdnum, h.alloc.trans h'.alloc,
    h.ptr2.trans h'.ptr2, h.decoder.trans h'.decoder, h.stored.trans h'.stored⟩

theorem argType_count (o : Outside) {cmd : Command} {ac : Int} (h0 : 0 ≤ ac)
    (h1 : ac < MAXARGS) (h : argType o cmd ac = .COUNT) : (cmdtab cmd).flData := by
  have hlt : ac < 7 := h1
  obtain ⟨n, rfl⟩ := Int.eq_ofNat_of_zero_le h0
  have hn : n < 7 := by omega
  rw [argType, Int.toNat_natCast] at h
  have htable : ∀ cmd : Command, ∀ n < 7, (cmdtab cmd).c_args[n]? = some .COUNT →
      (cmdtab cmd).flData := by
    intro cmd
    cases cmd <;> decide
  apply htable cmd n hn
  have hlen : (cmdtab cmd).c_args.length = 7 := by cases cmd <;> rfl
  rw [List.getD_eq_getElem?_getD, List.getElem?_eq_getElem (by omega), Option.getD_some] at h
  rw [List.getElem?_eq_getElem (by omega), h]

theorem argType_zero (o : Outside) (cmd : Command) :
    argType o cmd 0 = .INT ∨ argType o cmd 0 = .STRING := by
  cases cmd
  · exact .inl rfl
  · exact .inr rfl
  · exact .inl rfl
  · exact .inl rfl
  · exact .inl rfl
  · exact .inl rfl
  · exact .inl rfl
  · exact .inr rfl
  · exact .inr rfl

theorem tempString_putTemp (h : 0 ≤ s.VRbufpos) (c : UInt8) :
    (s.putTemp c).tempString = s.tempString := by
  rw [Raster.tempString, Raster.tempString]
  congr 1
  apply List.map_congr_left
  intro i hi
  have hlt : i < s.VRbufpos.toNat := List.mem_range.mp hi
  have hne : (i : Int) ≠ s.VRbufpos := by omega
  exact Function.update_of_ne hne c s.VRtempdata

theorem scanArg_same (o : Outside) (s : Raster) : SameData (scanArg o s) s ∧
    (scanArg o s).touched = s.touched ++ [.args s.VRargcount] ∧
    (scanArg o s).VRargcount = s.VRargcount := by
  rw [scanArg]
  cases h : o.scan (s.touch (.args s.VRargcount)).tempString with
  | none => exact ⟨⟨rfl, rfl, rfl, rfl, rfl, rfl⟩, rfl, rfl⟩
  | some v => exact ⟨⟨rfl, rfl, rfl, rfl, rfl, rfl⟩, rfl, rfl⟩

/-- The end of an argument: what stays, the places touched and the state that follows. -/
theorem endArg_spec (o : Outside) (h0 : 0 ≤ s.VRargcount) (h1 : s.VRargcount < MAXARGS)
    (hend : c = DELIM ∨ c = CMDTRM) : SameData (endArg o s c) s ∧
    (endArg o s c).VRbufpos = 0 ∧ (endArg o s c).VRargcount = s.VRargcount+1 ∧
    (endArg o s c).touched =
      s.touched ++ (if c = DELIM then [.c_args (s.VRargcount+1)] else []) ∧
    ((endArg o s c).VRstate = .DATA ↔ EntersData o s c) ∧
    (endArg o s c).VRstate ≠ .WANTDEL ∧
    (idle (endArg o s c).VRstate → (cmdtab s.VRcmdnum).flData = false) ∧
    (∀ type, readsArg (endArg o s c).VRstate = some type →
      c = DELIM ∧ argType o s.VRcmdnum (s.VRargcount+1) = type) := by
  have hlt : s.VRargcount < 7 := h1
  have hshort : short (s.VRargcount+1) = s.VRargcount+1 := short_eq (by omega) (by omega)
  rw [endArg, EntersData, hshort]
  by_cases hdelim : c = DELIM
  · have hnot : c ≠ CMDTRM := hdelim ▸ (by decide)
    rw [if_pos hdelim, if_pos hdelim]
    refine ⟨⟨rfl, rfl, rfl, rfl, rfl, rfl⟩, rfl, rfl, rfl, ?_, ?_, ?_, ?_⟩
    · change argState (argType o s.VRcmdnum (s.VRargcount+1)) = .DATA ↔ _
      rw [or_iff_left (fun h => hnot h.1), and_iff_right hdelim]
      cases argType o s.VRcmdnum (s.VRargcount+1) <;> simp [argState]
    · change argState (argType o s.VRcmdnum (s.VRargcount+1)) ≠ .WANTDEL
      cases argType o s.VRcmdnum (s.VRargcount+1) <;> exact nofun
    · change idle (argState (argType o s.VRcmdnum (s.VRargcount+1))) → _
      cases argType o s.VRcmdnum (s.VRargcount+1) <;> exact nofun
    · intro type
      change readsArg (argState (argType o s.VRcmdnum (s.VRargcount+1))) = some type → _
      cases argType o s.VRcmdnum (s.VRargcount+1) <;>
        simp [argState, readsArg, hdelim]
  · have hterm : c = CMDTRM := hend.resolve_left hdelim
    rw [if_neg hdelim, if_neg hdelim, List.append_nil]
    cases hflag : (cmdtab s.VRcmdnum).flData with
    | true =>
      refine ⟨⟨rfl, rfl, rfl, rfl, rfl, rfl⟩, rfl, rfl, rfl, ?_, nofun, nofun, nofun⟩
      exact iff_of_true rfl (.inr ⟨hterm, rfl⟩)
    | false =>
      refine ⟨⟨rfl, rfl, rfl, rfl, rfl, rfl⟩, rfl, rfl, rfl, ?_, nofun, fun _ => rfl, nofun⟩
      exact iff_of_false nofun (by simp [hdelim])

/-- The places touched at the end of an argument are inside exactly where it fits. -/
theorem endArg_inside {e : Raster} (hs : Safe s) (h0 : 0 ≤ s.VRargcount)
    (h1 : s.VRargcount < MAXARGS) (hpos : 0 ≤ s.VRbufpos) (hac : e.VRargcount = s.VRargcount)
    (htouch : e.touched = s.touched ++ [.tempdata s.VRbufpos, .args s.VRargcount])
    (hend : c = DELIM ∨ c = CMDTRM) :
    (∀ t ∈ (endArg o e c).touched, t.Inside) ↔ ArgFits s.VRbufpos s c := by
  obtain ⟨-, -, -, htouched, -⟩ :=
    endArg_spec (o := o) (s := e) (c := c) (hac ▸ h0) (hac ▸ h1) hend
  rw [htouched, htouch, hac]
  constructor
  · intro hall
    refine ⟨?_, fun hdelim => ?_⟩
    · have htemp : (Touch.tempdata s.VRbufpos).Inside := hall _ (by simp)
      exact htemp.2
    · have htype : (Touch.c_args (s.VRargcount+1)).Inside := hall _ (by simp [hdelim])
      exact htype.2
  · rintro ⟨htemp, htype⟩ t ht
    rcases List.mem_append.mp ht with ht | ht
    · rcases List.mem_append.mp ht with ht | ht
      · exact hs.inside t ht
      rcases List.mem_cons.mp ht with rfl | ht
      · exact ⟨hpos, htemp⟩
      · obtain rfl := List.mem_singleton.mp ht
        exact ⟨h0, h1⟩
    · split_ifs at ht with hdelim
      · obtain rfl := List.mem_singleton.mp ht
        exact ⟨by omega, htype hdelim⟩
      · exact absurd ht List.not_mem_nil

/-- The end of an argument that is not a count. -/
theorem endArg_iff {e : Raster} (hs : Safe s) (hi : Inv o s) {type : ArgType}
    (hstate : readsArg s.VRstate = some type) (hsame : SameData e s)
    (hac : e.VRargcount = s.VRargcount)
    (htouch : e.touched = s.touched ++ [.tempdata s.VRbufpos, .args s.VRargcount])
    (hend : c = DELIM ∨ c = CMDTRM) :
    (Safe (endArg o e c) ↔
      ArgFits s.VRbufpos s c ∧ (EntersData o s c → s.VRdatalen < 0 → s.dstate = .FRSKIP)) ∧
    (Safe (endArg o e c) → Inv o (endArg o e c)) := by
  obtain ⟨h0, h1, -, hpos, -, hzero⟩ := hi.arg type hstate
  have hinside := endArg_inside (o := o) hs h0 h1 hpos hac htouch hend
  obtain ⟨hdata, hbuf, hcount, -, hstate', hdel, hidle, harg⟩ :=
    endArg_spec (o := o) (s := e) (c := c) (hac ▸ h0) (hac ▸ h1) hend
  have henters : EntersData o e c ↔ EntersData o s c := by
    rw [EntersData, EntersData, hsame.cmdnum, hac]
  rw [henters] at hstate'
  have hall := hdata.trans hsame
  rw [hsame.cmdnum] at hidle
  rw [hac] at hcount
  rw [hsame.cmdnum, hac] at harg
  have hsafe : Safe (endArg o e c) ↔
      ArgFits s.VRbufpos s c ∧ (EntersData o s c → s.VRdatalen < 0 → s.dstate = .FRSKIP) := by
    constructor
    · intro h
      refine ⟨hinside.mp h.inside, fun henter hneg => ?_⟩
      rw [← hall.decoder]
      exact h.counting (hstate'.mpr henter) (hall.datalen ▸ hneg)
    · intro ⟨hfits, hskip⟩
      refine ⟨hinside.mpr hfits, hall.stored ▸ hs.stored_le, fun hst hneg => ?_⟩
      rw [hall.decoder]
      exact hskip (hstate'.mp hst) (hall.datalen ▸ hneg)
  refine ⟨hsafe, fun hdone => ⟨?_, ?_, ?_, ?_, ?_, fun h => absurd h hdel⟩⟩
  · exact hall.datalen ▸ hi.le_max
  · intro hno
    rw [hall.decoder]
    exact hi.skipping (hall.alloc ▸ hno)
  · intro halloc hid
    rw [hall.datalen]
    by_contra hne
    -- a count was read, so the command takes data
    have hflag := (hi.counted (hall.alloc ▸ halloc) hne).2.2
    exact absurd hflag (by rw [hidle hid]; exact nofun)
  · rw [hall.alloc, hall.datalen, hall.ptr2, hall.stored, hall.cmdnum]
    exact hi.counted
  · intro type' htype'
    obtain ⟨hdelim, htype⟩ := harg type' htype'
    have hnext := (hsafe.mp hdone).1.2 hdelim
    rw [hcount, hbuf, hall.stored, hall.cmdnum]
    exact ⟨by omega, hnext, htype, Int.le_refl 0, Int.zero_le_ofNat 256, hzero⟩

theorem declared_putTemp (h : 0 ≤ s.VRbufpos) (c : UInt8) :
    declared o (s.putTemp c) = declared o s := by
  rw [declared, declared, tempString_putTemp h]
  rfl

/-- The state behind the argument of a count, before the storage for the data is set up. -/
structure CountEnded (o : Outside) (s e : Raster) (c : UInt8) : Prop where
  inside : (∀ t ∈ e.touched, t.Inside) ↔ ArgFits s.VRbufpos s c
  stored : e.stored = 0
  decoder : e.dstate = s.dstate
  alloc : e.allocated = s.allocated
  flag : (cmdtab e.VRcmdnum).flData
  le_max : e.VRdatalen ≤ LINEMAX
  negative : e.VRdatalen < 0 ↔ declared o s < 0
  data : e.VRstate = .DATA ↔ EntersData o s c
  not_begun : e.VRstate ≠ .WANTDEL
  not_idle : idle e.VRstate = false
  arg : ∀ type, readsArg e.VRstate = some type → c = DELIM ∧ 0 ≤ e.VRargcount ∧
    e.VRargcount = s.VRargcount+1 ∧ argType o e.VRcmdnum e.VRargcount = type ∧ e.VRbufpos = 0

/-- A count is kept below a line, and the command that it belongs to takes data. -/
theorem countEnded (hs : Safe s) (hi : Inv o s) (hstate : s.VRstate = .CARG)
    (hend : c = DELIM ∨ c = CMDTRM) :
    ∃ e, CountEnded o s e c ∧ endCount o s c =
      if e.allocated then .next (decode0 { e with VRptr := 0, VRptr2 := 0 })
      else .fail { e with VRstate := .DONE } := by
  obtain ⟨h0, h1, htype, hpos, -, hzero⟩ := hi.arg .COUNT (by rw [hstate]; rfl)
  have hflag : (cmdtab s.VRcmdnum).flData := argType_count o h0 h1 htype
  obtain ⟨hscan, htouch, hac⟩ := scanArg_same o (s.putTemp 0)
  -- the state before the argument ends, with the count read
  let e : Raster := { scanArg o (s.putTemp 0) with
    VRdatalen := if declared o s > LINEMAX then LINEMAX else declared o s }
  have htouched : e.touched = s.touched ++ [.tempdata s.VRbufpos, .args s.VRargcount] := by
    calc e.touched = (s.putTemp 0).touched ++ [.args (s.putTemp 0).VRargcount] := htouch
      _ = s.touched ++ [.tempdata s.VRbufpos] ++ [.args s.VRargcount] := rfl
      _ = _ := List.append_assoc _ [_] [_]
  have hinside := endArg_inside (o := o) (e := e) hs h0 h1 hpos hac htouched hend
  obtain ⟨hdata, hbuf, hcount, -, hstate', hdel, hidle, harg⟩ :=
    endArg_spec (o := o) (s := e) (c := c) (hac.symm ▸ h0) (hac.symm ▸ h1) hend
  have hcmd : e.VRcmdnum = s.VRcmdnum := hscan.cmdnum
  have hstored : e.stored = s.stored := hscan.stored
  have hcarg : e.VRargcount = s.VRargcount := hac
  have henters : EntersData o e c ↔ EntersData o s c := by
    rw [EntersData, EntersData, hcmd, hcarg]
  rw [henters] at hstate'
  rw [hcmd] at hidle
  rw [hcarg] at hcount
  rw [hcmd, hcarg] at harg
  have hcap : (endArg o e c).VRdatalen ≤ LINEMAX ∧
      ((endArg o e c).VRdatalen < 0 ↔ declared o s < 0) := by
    rw [hdata.datalen]
    change (if declared o s > LINEMAX then LINEMAX else declared o s) ≤ LINEMAX ∧
      ((if declared o s > LINEMAX then LINEMAX else declared o s) < 0 ↔ declared o s < 0)
    rw [LINEMAX]
    split_ifs <;> omega
  have hnot : idle (endArg o e c).VRstate = false := by
    by_contra hid
    exact absurd (hidle (by simpa using hid)) (by rw [hflag]; exact nofun)
  refine ⟨endArg o e c, ⟨hinside, ?_, hdata.decoder.trans hscan.decoder,
    hdata.alloc.trans hscan.alloc, ?_, hcap.1, hcap.2, hstate', hdel, hnot, ?_⟩, ?_⟩
  · rw [hdata.stored, hstored, hzero]
  · rw [hdata.cmdnum, hcmd]
    exact hflag
  · intro type htype
    obtain ⟨hdelim, htype'⟩ := harg type htype
    rw [hdata.cmdnum, hcmd, hcount]
    exact ⟨hdelim, by omega, rfl, htype', hbuf⟩
  · rw [endCount, declared_putTemp hpos]

section Counts
variable {e : Raster}

/-- Without storage the machine is done, and skips what would be the line. -/
theorem CountEnded.skips (h : CountEnded o s e c) (hi : Inv o s) (hal : s.allocated = false) :
    (Safe { e with VRstate := .DONE } ↔ ArgFits s.VRbufpos s c) ∧
      Inv o { e with VRstate := .DONE } := by
  have hno : e.allocated ≠ true := by
    rw [h.alloc, hal]
    exact Bool.false_ne_true
  refine ⟨⟨fun hsafe => h.inside.mp hsafe.inside, fun hfits => ⟨h.inside.mpr hfits, ?_, nofun⟩⟩,
    h.le_max, ?_, fun hyes => absurd hyes hno, fun hyes => absurd hyes hno, nofun, nofun⟩
  · change (e.stored : Int) ≤ LINEMAX
    rw [h.stored]
    decide
  · intro _
    exact h.decoder.trans (hi.skipping hal)

/-- With storage the line is decoded from its start. -/
theorem CountEnded.decodes (h : CountEnded o s e c) (hal : s.allocated = true) :
    (Safe (decode0 { e with VRptr := 0, VRptr2 := 0 }) ↔
      ArgFits s.VRbufpos s c ∧ (EntersData o s c → 0 ≤ declared o s)) ∧
    (ArgFits s.VRbufpos s c → Inv o (decode0 { e with VRptr := 0, VRptr2 := 0 })) := by
  constructor
  · constructor
    · intro hsafe
      refine ⟨h.inside.mp hsafe.inside, fun henter => ?_⟩
      by_contra hneg
      have hskip := hsafe.counting (h.data.mpr henter) (h.negative.mpr (by omega))
      exact nomatch hskip
    · intro ⟨hfits, hdecl⟩
      refine ⟨h.inside.mpr hfits, ?_, fun hst hneg => ?_⟩
      · change (e.stored : Int) ≤ LINEMAX
        rw [h.stored]
        decide
      · have hnot := hdecl (h.data.mp hst)
        have hlt := h.negative.mp hneg
        omega
  · intro hfits
    refine ⟨h.le_max, ?_, ?_, ?_, ?_, fun hbegun => absurd hbegun h.not_begun⟩
    · intro hno
      exact absurd ((h.alloc.trans hal).symm.trans hno) Bool.true_eq_false.mp
    · intro _ hid
      exact absurd (h.not_idle.symm.trans hid) Bool.false_ne_true
    · intro _ _
      refine ⟨?_, ?_, h.flag⟩
      · change (0 : Int) = e.stored
        rw [h.stored]
        rfl
      · change (e.stored : Int)+e.VRdatalen ≤ LINEMAX
        rw [h.stored]
        have hmax := h.le_max
        omega
    · intro type htype
      obtain ⟨hdelim, h0, hcount, htype', hbuf⟩ := h.arg type htype
      refine ⟨h0, ?_, htype', Int.le_of_eq hbuf.symm, ?_, h.stored⟩
      · change e.VRargcount < MAXARGS
        rw [hcount]
        exact hfits.2 hdelim
      · change e.VRbufpos ≤ TEMPMAX
        rw [hbuf]
        decide

end Counts

/-- The end of a count. -/
theorem endCount_iff (hs : Safe s) (hi : Inv o s) (hstate : s.VRstate = .CARG)
    (hend : c = DELIM ∨ c = CMDTRM) :
    (Safe (endCount o s c).state ↔
      ArgFits s.VRbufpos s c ∧ (EntersData o s c → s.allocated → 0 ≤ declared o s)) ∧
    (Safe (endCount o s c).state → Inv o (endCount o s c).state) := by
  obtain ⟨e, hended, hcount⟩ := countEnded hs hi hstate hend
  cases hal : s.allocated with
  | false =>
    obtain ⟨hsafe, hinv⟩ := hended.skips hi hal
    have hno : ¬e.allocated = true := by
      rw [hended.alloc, hal]
      exact Bool.false_ne_true
    rw [hcount, if_neg hno]
    refine ⟨hsafe.trans ?_, fun _ => hinv⟩
    exact (and_iff_left fun _ h => absurd h Bool.false_ne_true).symm
  | true =>
    obtain ⟨hsafe, hinv⟩ := hended.decodes hal
    rw [hcount, if_pos (hended.alloc.trans hal)]
    refine ⟨hsafe.trans ?_, fun h => hinv (hsafe.mp h).1⟩
    simp only [forall_true_left]

/-- A character of an argument that is kept. -/
theorem keepChar_iff (hs : Safe s) (hi : Inv o s) {type : ArgType}
    (hstate : readsArg s.VRstate = some type) :
    (Safe (keepChar s c) ↔ s.VRbufpos < TEMPMAX) ∧
    (Safe (keepChar s c) → Inv o (keepChar s c)) := by
  obtain ⟨h0, h1, htype, hpos, hmax, hzero⟩ := hi.arg type hstate
  have hmax' : s.VRbufpos ≤ 256 := hmax
  have hsafe : Safe (keepChar s c) ↔ s.VRbufpos < TEMPMAX := by
    constructor
    · intro h
      have hin : (Touch.tempdata s.VRbufpos).Inside :=
        h.inside _ (List.mem_append_right _ (List.mem_singleton.mpr rfl))
      exact hin.2
    · intro hroom
      refine ⟨fun t ht => ?_, hs.stored_le, hs.counting⟩
      rcases List.mem_append.mp ht with ht | ht
      · exact hs.inside t ht
      · obtain rfl := List.mem_singleton.mp ht
        exact ⟨hpos, hroom⟩
  refine ⟨hsafe, fun h => ⟨hi.le_max, hi.skipping, hi.idle_zero, hi.counted, ?_, ?_⟩⟩
  · intro type' htype'
    have hroom : s.VRbufpos < 256 := hsafe.mp h
    have hsame := Option.some.inj (hstate.symm.trans htype')
    have hshort : short (s.VRbufpos+1) = s.VRbufpos+1 := short_eq (by omega) (by omega)
    refine ⟨h0, h1, hsame ▸ htype, ?_, ?_, hzero⟩
    · change 0 ≤ short (s.VRbufpos+1)
      omega
    · change short (s.VRbufpos+1) ≤ 256
      omega
  · intro hdel
    have hdel' : s.VRstate = .WANTDEL := hdel
    rw [hdel'] at hstate
    exact nomatch hstate

theorem decodeIn_same (s : Raster) (c : Int) : (decodeIn s c).2 =
    { s with dstate := (decodeIn s c).2.dstate, dspec := (decodeIn s c).2.dspec } := by
  rw [decodeIn]
  split_ifs <;> rfl

/-- The decoder changes its own state only. -/
theorem decode1_same (s : Raster) (c : Int) : (decode1 s c).2 =
    { s with dstate := (decode1 s c).2.dstate, dspec := (decode1 s c).2.dspec } := by
  rw [decode1]
  cases s.dstate with
  | FRSKIP => rfl
  | FRIN => exact decodeIn_same s c
  | FRSPECIAL =>
    change (if _ then _ else _ : Int × Raster).2 = _
    split_ifs
    · rfl
    · exact decodeIn_same { s with dstate := .FRIN } c

theorem decodeIn_in (h : s.dstate = .FRIN) (c : Int) : (decodeIn s c).2.dstate ≠ .FRSKIP := by
  rw [decodeIn]
  split_ifs
  · rw [h]
    exact nofun
  · exact nofun

/-- The decoder stays set up, and stays not set up. -/
theorem decode1_skip (s : Raster) (c : Int) :
    ((decode1 s c).2.dstate = .FRSKIP ↔ s.dstate = .FRSKIP) ∧
    (s.dstate = .FRSKIP → (decode1 s c).1 = -1) := by
  rw [decode1]
  cases hd : s.dstate with
  | FRSKIP => exact ⟨iff_of_true hd rfl, fun _ => rfl⟩
  | FRIN => exact ⟨iff_of_false (decodeIn_in hd c) nofun, nofun⟩
  | FRSPECIAL =>
    refine ⟨iff_of_false ?_ nofun, nofun⟩
    change (if _ then _ else _ : Int × Raster).2.dstate ≠ _
    split_ifs
    · exact nofun
    · exact @decodeIn_in { s with dstate := .FRIN } rfl c

/-- A byte of the data, with a decoder that is set up. -/
theorem storeData_iff (hs : Safe s) (hi : Inv o s) (hstate : s.VRstate = .DATA)
    (hset : s.dstate ≠ .FRSKIP) (ds : DecodeState) (dp i : Int) (hds : ds ≠ .FRSKIP) :
    let t := storeData { s with dstate := ds, dspec := dp } i
    let r := if t.VRdatalen = 0 then runCommand t (some t.VRptr) else t
    (Safe r ↔ s.VRdatalen ≠ 0) ∧ (s.VRdatalen ≠ 0 → Inv o r) := by
  intro t r
  have halloc : s.allocated := by
    by_contra hno
    exact hset (hi.skipping (by simpa using hno))
  have hmax : s.VRdatalen ≤ 1024 := hi.le_max
  have hnonneg : 0 ≤ s.VRdatalen := by
    by_contra hneg
    exact hset (hs.counting hstate (by omega))
  have hlen : t.VRdatalen = s.VRdatalen-1 := by
    change short (s.VRdatalen-1) = s.VRdatalen-1
    exact short_eq (by omega) (by omega)
  have hnever : s.allocated ≠ false := by
    rw [halloc]
    exact nofun
  by_cases hzero : s.VRdatalen = 0
  · have hr : r = t := if_neg (by omega)
    rw [hr]
    refine ⟨iff_of_false (fun h => ?_) (fun h => h hzero), fun h => absurd hzero h⟩
    exact hds (h.counting hstate (by omega))
  obtain ⟨hptr, hline, hflag⟩ := hi.counted halloc hzero
  have hline' : (s.stored : Int)+s.VRdatalen ≤ 1024 := hline
  have hin : ∀ p ∈ t.touched, p.Inside := by
    intro p hp
    rcases List.mem_append.mp hp with hp | hp
    · exact hs.inside p hp
    · obtain rfl := List.mem_singleton.mp hp
      change 0 ≤ s.VRptr2 ∧ s.VRptr2 < 1024
      omega
  have hstored : (t.stored : Int) ≤ LINEMAX := by
    change ((s.stored+1 : ℕ) : Int) ≤ 1024
    omega
  have hptr' : t.VRptr2 = t.stored := by
    change s.VRptr2+1 = ((s.stored+1 : ℕ) : Int)
    omega
  have hline'' : (t.stored : Int)+t.VRdatalen ≤ LINEMAX := by
    rw [hlen]
    change ((s.stored+1 : ℕ) : Int)+(s.VRdatalen-1) ≤ 1024
    omega
  have hle : t.VRdatalen ≤ LINEMAX := by
    rw [hlen]
    change s.VRdatalen-1 ≤ 1024
    omega
  rw [iff_true_right hzero, imp_iff_right hzero]
  by_cases hlast : t.VRdatalen = 0
  · have hr : r = runCommand t (some t.VRptr) := if_pos hlast
    rw [hr]
    exact ⟨⟨hin, hstored, nofun⟩, ⟨hle, fun h => absurd h hnever,
      fun _ _ => hlast, fun _ h => absurd hlast h, nofun, nofun⟩⟩
  · have hr : r = t := if_neg hlast
    rw [hr]
    refine ⟨⟨hin, hstored, fun _ hneg => ?_⟩, hle, fun h => absurd h hnever,
      fun _ hid => ?_, fun _ _ => ⟨hptr', hline'', hflag⟩, fun type htype => ?_, fun hdel => ?_⟩
    · omega
    · exact absurd hid (by rw [show t.VRstate = .DATA from hstate]; exact nofun)
    · exact absurd htype (by rw [show t.VRstate = .DATA from hstate]; exact nofun)
    · exact nomatch hstate.symm.trans hdel

/-- A character of the data that decodes to no byte. -/
theorem noByte_safe (hs : Safe s) (hi : Inv o s) (hstate : s.VRstate = .DATA)
    (ds : DecodeState) (dp : Int) (hds : ds = .FRSKIP ↔ s.dstate = .FRSKIP) :
    let t := { s with dstate := ds, dspec := dp }
    let r := if t.VRdatalen = 0 then runCommand t (some t.VRptr) else t
    Safe r ∧ Inv o r := by
  intro t r
  by_cases hlast : s.VRdatalen = 0
  · have hr : r = runCommand t (some t.VRptr) := if_pos hlast
    rw [hr]
    exact ⟨⟨hs.inside, hs.stored_le, nofun⟩, hi.le_max, fun h => hds.mpr (hi.skipping h),
      fun _ _ => hlast, fun _ h => absurd hlast h, nofun, nofun⟩
  · have hr : r = t := if_neg hlast
    rw [hr]
    refine ⟨⟨hs.inside, hs.stored_le, fun _ hneg => hds.mpr (hs.counting hstate hneg)⟩,
      hi.le_max, fun h => hds.mpr (hi.skipping h), hi.idle_zero, hi.counted,
      fun type htype => ?_, fun hdel => ?_⟩
    · exact absurd htype (by rw [show t.VRstate = .DATA from hstate]; exact nofun)
    · exact nomatch hstate.symm.trans hdel

/-- A character of the data. -/
theorem dataChar_iff (hs : Safe s) (hi : Inv o s) (hstate : s.VRstate = .DATA) :
    (Safe (dataChar s c) ↔ (s.VRdatalen = 0 → (decode1 s c.toInt8.toInt).1 < 0)) ∧
    (Safe (dataChar s c) → Inv o (dataChar s c)) := by
  obtain ⟨hskip, hminus⟩ := decode1_skip s c.toInt8.toInt
  have hsame := decode1_same s c.toInt8.toInt
  rw [dataChar]
  generalize decode1 s c.toInt8.toInt = d at hskip hminus hsame
  obtain ⟨i, t⟩ := d
  obtain ⟨ds, dp, rfl⟩ : ∃ ds dp, t = { s with dstate := ds, dspec := dp } := ⟨_, _, hsame⟩
  change ds = .FRSKIP ↔ _ at hskip
  change _ → i = -1 at hminus
  by_cases hbyte : 0 ≤ i
  · -- a byte is stored, so the decoder was set up
    have hset : s.dstate ≠ .FRSKIP := fun h => by
      have := hminus h
      omega
    obtain ⟨hiff, hinv⟩ := storeData_iff hs hi hstate hset ds dp i (fun h => hset (hskip.mp h))
    simp only [if_pos hbyte]
    refine ⟨hiff.trans ?_, fun h => hinv (hiff.mp h)⟩
    exact ⟨fun hne h => absurd h hne, fun h h0 => absurd (h h0) (by omega)⟩
  · obtain ⟨hsafe, hinv⟩ := noByte_safe hs hi hstate ds dp hskip
    simp only [if_neg hbyte]
    exact ⟨iff_of_true hsafe (fun _ => by omega), fun _ => hinv⟩

/-- The first delimiter of a command. -/
theorem firstArg_safe (hs : Safe s) (hi : Inv o s) (hstate : s.VRstate = .WANTDEL) :
    Safe (VRnextargstate o s) ∧ Inv o (VRnextargstate o s) := by
  obtain ⟨hac, hpos, hzero⟩ := hi.begins hstate
  have htype : argType o s.VRcmdnum s.VRargcount = .INT ∨
      argType o s.VRcmdnum s.VRargcount = .STRING := hac ▸ argType_zero o s.VRcmdnum
  have hreads : ∀ type, readsArg (argState (argType o s.VRcmdnum s.VRargcount)) = some type →
      argType o s.VRcmdnum s.VRargcount = type := by
    intro type
    cases argType o s.VRcmdnum s.VRargcount <;> simp [argState, readsArg]
  refine ⟨⟨fun t ht => ?_, hs.stored_le, fun hst => ?_⟩, hi.le_max, hi.skipping, ?_, hi.counted,
    fun type h => ?_, fun h => ?_⟩
  · rcases List.mem_append.mp ht with ht | ht
    · exact hs.inside t ht
    · obtain rfl := List.mem_singleton.mp ht
      change 0 ≤ s.VRargcount ∧ s.VRargcount < 7
      omega
  · change argState (argType o s.VRcmdnum s.VRargcount) = .DATA at hst
    rcases htype with h | h <;> exact nomatch h ▸ hst
  · intro halloc _
    exact hi.idle_zero halloc (by rw [hstate]; rfl)
  · refine ⟨?_, ?_, hreads type h, ?_, ?_, hzero⟩
    · change 0 ≤ s.VRargcount
      omega
    · change s.VRargcount < 7
      omega
    · change 0 ≤ s.VRbufpos
      omega
    · change s.VRbufpos ≤ 256
      omega
  · change argState (argType o s.VRcmdnum s.VRargcount) = .WANTDEL at h
    rcases htype with h' | h' <;> exact nomatch h' ▸ h

/-- Outside a command nothing is touched. -/
theorem idle_safe (hs : Safe s) (hi : Inv o s) (hidle : idle s.VRstate) {state : RasterState}
    (hnext : state = .DONE ∨ state = .ESCFOUND ∨ state = .WANTCMD) :
    Safe { s with VRstate := state } ∧ Inv o { s with VRstate := state } := by
  refine ⟨⟨hs.inside, hs.stored_le, fun h => ?_⟩, hi.le_max, hi.skipping,
    fun halloc _ => hi.idle_zero halloc hidle, hi.counted, fun type h => ?_, fun h => ?_⟩
  · change state = .DATA at h
    rcases hnext with rfl | rfl | rfl <;> exact nomatch h
  · change readsArg state = some type at h
    rcases hnext with rfl | rfl | rfl <;> exact nomatch h
  · change state = .WANTDEL at h
    rcases hnext with rfl | rfl | rfl <;> exact nomatch h

/-- A character that ends no argument is kept, wherever there is room for it. -/
theorem fits_of_not_end (hdelim : c ≠ DELIM) (hterm : c ≠ CMDTRM) (P : Prop) :
    s.VRbufpos < TEMPMAX ↔ ArgFits s.VRbufpos s c ∧ (EntersData o s c → P) := by
  have hnot : ¬ EntersData o s c := by
    rintro (h | h)
    · exact hdelim h.1
    · exact hterm h.1
  exact ⟨fun h => ⟨⟨h, fun h' => absurd h' hdelim⟩, fun h' => absurd h' hnot⟩, fun h => h.1.1⟩

theorem command_begins (hs : Safe s) (hi : Inv o s) (hstate : s.VRstate = .WANTCMD)
    (cmd : Command) :
    let t := { s with
      VRcmdnum := cmd, VRargcount := 0, VRbufpos := 0, VRstate := .WANTDEL, stored := 0 }
    Safe t ∧ Inv o t := by
  intro t
  have hzero : s.allocated → s.VRdatalen = 0 := fun h => hi.idle_zero h (by rw [hstate]; rfl)
  exact ⟨⟨hs.inside, Int.zero_le_ofNat 1024, nofun⟩, hi.le_max, hi.skipping,
    fun halloc _ => hzero halloc, fun halloc hne => absurd (hzero halloc) hne, nofun,
    fun _ => ⟨rfl, rfl, rfl⟩⟩

/-- A character keeps the promise exactly where it is fine. -/
theorem char_iff (hs : Safe s) (hi : Inv o s) (c : UInt8) :
    (Safe (VRchar o s c).state ↔ CharFine o s.VRbufpos s c) ∧
    (Safe (VRchar o s c).state → Inv o (VRchar o s c).state) := by
  rw [VRchar, CharFine]
  cases hstate : s.VRstate with
  | DONE =>
    have hidle : idle s.VRstate := by rw [hstate]; rfl
    obtain ⟨hsafe, hinv⟩ := idle_safe hs hi hidle (.inr (.inl rfl))
    by_cases hesc : c = ESC
    · simp only [if_pos hesc]
      exact ⟨iff_of_true hsafe trivial, fun _ => hinv⟩
    · simp only [if_neg hesc]
      exact ⟨iff_of_true hs trivial, fun _ => hi⟩
  | ESCFOUND =>
    have hidle : idle s.VRstate := by rw [hstate]; rfl
    by_cases hterm : c = CMDTRM
    · obtain ⟨hsafe, hinv⟩ := idle_safe hs hi hidle (.inr (.inr rfl))
      simp only [if_pos hterm]
      exact ⟨iff_of_true hsafe trivial, fun _ => hinv⟩
    · obtain ⟨hsafe, hinv⟩ := idle_safe hs hi hidle (.inl rfl)
      simp only [if_neg hterm]
      exact ⟨iff_of_true hsafe trivial, fun _ => hinv⟩
  | WANTCMD =>
    have hidle : idle s.VRstate := by rw [hstate]; rfl
    cases hfind : commands.find? fun cmd => (cmdtab cmd).c_name = c with
    | none =>
      obtain ⟨hsafe, hinv⟩ := idle_safe hs hi hidle (.inl rfl)
      exact ⟨iff_of_true hsafe trivial, fun _ => hinv⟩
    | some cmd =>
      obtain ⟨hsafe, hinv⟩ := command_begins hs hi hstate cmd
      exact ⟨iff_of_true hsafe trivial, fun _ => hinv⟩
  | WANTDEL =>
    by_cases hdelim : c = DELIM
    · obtain ⟨hsafe, hinv⟩ := firstArg_safe hs hi hstate
      simp only [if_pos hdelim]
      exact ⟨iff_of_true hsafe trivial, fun _ => hinv⟩
    · obtain ⟨hsafe, hinv⟩ := idle_safe hs hi (by rw [hstate]; rfl) (.inl rfl)
      simp only [if_neg hdelim]
      exact ⟨iff_of_true hsafe trivial, fun _ => hinv⟩
  | IARG =>
    have hreads : readsArg s.VRstate = some .INT := by rw [hstate]; rfl
    by_cases hend : c = DELIM ∨ c = CMDTRM
    · obtain ⟨hscan, htouch, hac⟩ := scanArg_same o (s.putTemp 0)
      simp only [if_pos hend]
      apply endArg_iff hs hi hreads _ hac (htouch.trans (List.append_assoc _ [_] [_])) hend
      exact ⟨hscan.datalen, hscan.cmdnum, hscan.alloc, hscan.ptr2, hscan.decoder, hscan.stored⟩
    · obtain ⟨hsafe, hinv⟩ := keepChar_iff (c := c) hs hi hreads
      rw [not_or] at hend
      simp only [if_neg (not_or.mpr hend)]
      exact ⟨hsafe.trans (fits_of_not_end hend.1 hend.2 _), hinv⟩
  | SARG =>
    have hreads : readsArg s.VRstate = some .STRING := by rw [hstate]; rfl
    by_cases hend : c = DELIM ∨ c = CMDTRM
    · simp only [if_pos hend]
      exact @endArg_iff o s c (copyArg (s.putTemp 0)) hs hi _ hreads ⟨rfl, rfl, rfl, rfl, rfl, rfl⟩
        rfl (List.append_assoc _ [_] [_]) hend
    · obtain ⟨hsafe, hinv⟩ := keepChar_iff (c := c) hs hi hreads
      rw [not_or] at hend
      simp only [if_neg (not_or.mpr hend)]
      exact ⟨hsafe.trans (fits_of_not_end hend.1 hend.2 _), hinv⟩
  | CARG =>
    have hreads : readsArg s.VRstate = some .COUNT := by rw [hstate]; rfl
    by_cases hend : c = DELIM ∨ c = CMDTRM
    · simp only [if_pos hend]
      exact endCount_iff hs hi hstate hend
    · obtain ⟨hsafe, hinv⟩ := keepChar_iff (c := c) hs hi hreads
      rw [not_or] at hend
      simp only [if_neg (not_or.mpr hend)]
      exact ⟨hsafe.trans (fits_of_not_end hend.1 hend.2 _), hinv⟩
  | DATA => exact dataChar_iff hs hi hstate

end Steps

/-- `P` holds of every character that the parser reads of a string, where it reads it. -/
def Along (o : Outside) (P : Raster → UInt8 → Prop) (s : Raster) : List UInt8 → Prop
  | [] => True
  | c :: b => P s c ∧
    match VRchar o s c with
    | .next s' => Along o P s' b
    | _ => True

/-- The parser passes only through safe states in a string. -/
def SafeAlong (o : Outside) : Raster → List UInt8 → Prop :=
  Along o fun s c => Safe (VRchar o s c).state

/-- How many characters of an argument have come behind `c`, if it was `n` before. -/
def argLength (n : ℕ) (s : Raster) (c : UInt8) : ℕ :=
  if readsArg s.VRstate = none ∨ c = DELIM ∨ c = CMDTRM then 0 else n+1

/-- Every character that the parser reads of a string is fine, where `n` characters of an
argument have come before the string. -/
def FineAlong (o : Outside) (n : ℕ) (s : Raster) : List UInt8 → Prop
  | [] => True
  | c :: b => CharFine o n s c ∧
    match VRchar o s c with
    | .next s' => FineAlong o (argLength n s c) s' b
    | _ => True

/-- The number of characters of an argument behind a string. -/
def lengthAlong (o : Outside) (n : ℕ) (s : Raster) : List UInt8 → ℕ
  | [] => n
  | c :: b =>
    match VRchar o s c with
    | .next s' => lengthAlong o (argLength n s c) s' b
    | _ => 0

/-- The parser after `VRinit`, with the storage for the data or without it. -/
def VRinit (allocated : Bool) (space : Int → UInt8) (null : Int) (cmd : Command) : Raster where
  VRstate := .DONE
  VRcmdnum := cmd
  VRargcount := 0
  VRdatalen := 0
  VRbufpos := 0
  VRargs := fun _ => 0
  VRtempdata := fun _ => 0
  allocated := allocated
  VRspace := space
  VRptr := null
  VRptr2 := null
  dstate := .FRSKIP
  dspec := 0
  touched := []
  stored := 0
  calls := []

/-- The states that strings given to `VRwrite` lead to, each of them meeting `P`, with the
number of characters of an argument that have come. -/
inductive Fed (o : Outside) (P : ℕ → Raster → List UInt8 → Prop) : ℕ → Raster → Prop
  | init (allocated : Bool) (space : Int → UInt8) (null : Int) (cmd : Command) :
    Fed o P 0 (VRinit allocated space null cmd)
  | write {n : ℕ} {s : Raster} (b : List UInt8) : Fed o P n s → P n s b →
    Fed o P (lengthAlong o n s b) (VRwrite o s b 0).2

/-- The position in the buffer is the number of characters of the argument that have come. -/
def Counts (n : ℕ) (s : Raster) : Prop := readsArg s.VRstate ≠ none → s.VRbufpos = n

section Counting
variable {o : Outside} {s t : Raster} {c : UInt8} {n : ℕ}

theorem Counts.fine_iff (hn : Counts n s) : CharFine o s.VRbufpos s c ↔ CharFine o n s c := by
  rw [CharFine, CharFine]
  cases hstate : s.VRstate with
  | IARG | SARG | CARG =>
    rw [hn (by rw [hstate]; exact Option.some_ne_none _)]
  | _ => exact Iff.rfl

theorem endArg_bufpos (o : Outside) (s : Raster) (c : UInt8) : (endArg o s c).VRbufpos = 0 := by
  rw [endArg]
  split_ifs <;> rfl

/-- A count goes on to the data where they have storage. -/
theorem endCount_cases (o : Outside) (s : Raster) (c : UInt8) :
    (∃ e, endCount o s c = .next (decode0 { endArg o e c with VRptr := 0, VRptr2 := 0 })) ∨
      ∃ e : Raster, endCount o s c = .fail { e with VRstate := .DONE } := by
  obtain ⟨e, hcount⟩ : ∃ e, endCount o s c = if (endArg o e c).allocated then
      .next (decode0 { endArg o e c with VRptr := 0, VRptr2 := 0 })
    else .fail { endArg o e c with VRstate := .DONE } := ⟨_, rfl⟩
  rw [hcount]
  split_ifs
  · exact .inl ⟨e, rfl⟩
  · exact .inr ⟨_, rfl⟩

theorem dataChar_reads (hstate : s.VRstate = .DATA) :
    readsArg (dataChar s c).VRstate = none := by
  have hdecoded : (decode1 s c.toInt8.toInt).2.VRstate = .DATA := by
    rw [← hstate, decode1]
    split
    · rfl
    · rw [decodeIn]
      split_ifs <;> rfl
    · dsimp only
      rw [decodeIn]
      split_ifs <;> rfl
  rw [dataChar]
  split_ifs
  · rfl
  · exact congrArg readsArg hdecoded
  · rfl
  · exact congrArg readsArg hdecoded

/-- A character of an argument is counted and kept, or ends the argument. -/
theorem arg_counts (hn : s.VRbufpos = n) (hreads : readsArg s.VRstate ≠ none)
    (hroom : (n : Int) < TEMPMAX) (hend : ¬(c = DELIM ∨ c = CMDTRM)) :
    Counts (argLength n s c) (keepChar s c) := by
  have hlt : (n : Int) < 256 := hroom
  intro _
  rw [argLength, if_neg (not_or.mpr ⟨hreads, hend⟩)]
  change short (s.VRbufpos+1) = _
  rw [hn, short_eq (by omega) (by omega)]
  rfl

/-- The count goes on with the position. -/
theorem char_counts (hi : Inv o s) (hn : Counts n s) (hfine : CharFine o n s c)
    (hout : VRchar o s c = .next t) : Counts (argLength n s c) t := by
  have hended (e : Raster) (hend : c = DELIM ∨ c = CMDTRM) :
      Counts (argLength n s c) (endArg o e c) := by
    intro _
    rw [argLength, if_pos (.inr hend)]
    exact endArg_bufpos o e c
  rw [VRchar] at hout
  rw [CharFine] at hfine
  -- an argument begins behind `WANTDEL` or another argument, and nowhere else
  cases hstate : s.VRstate with
  | DONE =>
    rw [hstate] at hout
    dsimp only at hout
    split_ifs at hout
    cases hout
    exact fun hreads => absurd rfl hreads
  | ESCFOUND =>
    rw [hstate] at hout
    dsimp only at hout
    split_ifs at hout
    cases hout
    exact fun hreads => absurd rfl hreads
  | WANTCMD =>
    rw [hstate] at hout
    dsimp only at hout
    split at hout
    · cases hout
    · cases hout
      exact fun hreads => absurd rfl hreads
  | WANTDEL =>
    have hfirst := (hi.begins hstate).2.1
    rw [hstate] at hout
    dsimp only at hout
    split_ifs at hout
    · cases hout
      intro _
      rw [argLength, if_pos (.inl (by rw [hstate]; rfl))]
      exact hfirst
    · cases hout
      exact fun hreads => absurd rfl hreads
  | IARG =>
    have hreads : readsArg s.VRstate ≠ none := by
      rw [hstate]
      exact Option.some_ne_none _
    rw [hstate] at hout hfine
    dsimp only at hout
    split_ifs at hout with hend
    · cases hout
      exact hended _ hend
    · cases hout
      exact arg_counts (hn hreads) hreads hfine.1.1 hend
  | SARG =>
    have hreads : readsArg s.VRstate ≠ none := by
      rw [hstate]
      exact Option.some_ne_none _
    rw [hstate] at hout hfine
    dsimp only at hout
    split_ifs at hout with hend
    · cases hout
      exact hended _ hend
    · cases hout
      exact arg_counts (hn hreads) hreads hfine.1.1 hend
  | CARG =>
    have hreads : readsArg s.VRstate ≠ none := by
      rw [hstate]
      exact Option.some_ne_none _
    rw [hstate] at hout hfine
    dsimp only at hout
    split_ifs at hout with hend
    · obtain ⟨e, hcount⟩ | ⟨e, hcount⟩ := endCount_cases o s c
      · rw [hcount] at hout
        cases hout
        exact hended e hend
      · rw [hcount] at hout
        cases hout
    · cases hout
      exact arg_counts (hn hreads) hreads hfine.1.1 hend
  | DATA =>
    rw [hstate] at hout
    cases hout
    exact fun hreads => absurd (dataChar_reads hstate) hreads

/-- A character that is not gone on from leaves no argument open. -/
theorem left_counts (hout : VRchar o s c = .leave t ∨ VRchar o s c = .fail t) : Counts 0 t := by
  intro hreads
  rw [VRchar] at hout
  cases hstate : s.VRstate with
  | DONE =>
    rw [hstate] at hout
    dsimp only at hout
    split_ifs at hout with hesc
    · simp at hout
    · simp only [Outcome.leave.injEq, or_false] at hout
      rw [← hout, hstate] at hreads
      exact absurd rfl hreads
  | ESCFOUND =>
    rw [hstate] at hout
    dsimp only at hout
    split_ifs at hout with hcmd
    · simp at hout
    · simp only [Outcome.leave.injEq, or_false] at hout
      rw [← hout] at hreads
      exact absurd rfl hreads
  | WANTCMD =>
    rw [hstate] at hout
    dsimp only at hout
    split at hout
    · simp only [Outcome.fail.injEq, reduceCtorEq, false_or] at hout
      rw [← hout] at hreads
      exact absurd rfl hreads
    · simp at hout
  | WANTDEL | IARG | SARG =>
    rw [hstate] at hout
    dsimp only at hout
    split_ifs at hout <;> simp at hout
  | DATA =>
    rw [hstate] at hout
    simp at hout
  | CARG =>
    rw [hstate] at hout
    dsimp only at hout
    split_ifs at hout with hend
    · obtain ⟨e, hcount⟩ | ⟨e, hcount⟩ := endCount_cases o s c
      · rw [hcount] at hout
        simp at hout
      · rw [hcount] at hout
        simp only [Outcome.fail.injEq, reduceCtorEq, false_or] at hout
        rw [← hout] at hreads
        exact absurd rfl hreads
    · simp at hout

end Counting

section Streams
variable {o : Outside} {n : ℕ} {s : Raster}

theorem along_iff (b : List UInt8) : ∀ {n : ℕ} {s : Raster}, Safe s → Inv o s → Counts n s →
    (SafeAlong o s b ↔ FineAlong o n s b) := by
  induction b with
  | nil => exact fun _ _ _ => Iff.rfl
  | cons c b ih =>
    intro n s hs hi hn
    obtain ⟨hiff, hinv⟩ := char_iff hs hi c
    have hfine_iff := hiff.trans hn.fine_iff
    rw [SafeAlong, FineAlong, Along, hfine_iff]
    apply and_congr_right
    intro hfine
    have hsafe := hfine_iff.mpr hfine
    have hinv := hinv hsafe
    cases hout : VRchar o s c with
    | next t =>
      rw [hout] at hsafe hinv
      exact ih hsafe hinv (char_counts hi hn hfine hout)
    | leave t => exact Iff.rfl
    | fail t => exact Iff.rfl

/-- A string that is fine leads from a safe state to a safe one. -/
theorem write_safe (b : List UInt8) : ∀ {n : ℕ} {s : Raster} (count : ℕ), Safe s → Inv o s →
    Counts n s → FineAlong o n s b → Safe (VRwrite o s b count).2 ∧
      Inv o (VRwrite o s b count).2 ∧ Counts (lengthAlong o n s b) (VRwrite o s b count).2 := by
  induction b with
  | nil => exact fun _ hs hi hn _ => ⟨hs, hi, hn⟩
  | cons c b ih =>
    intro n s count hs hi hn hfine
    obtain ⟨hiff, hinv⟩ := char_iff hs hi c
    have hsafe := hiff.mpr (hn.fine_iff.mpr hfine.1)
    have hinv := hinv hsafe
    have hrest := hfine.2
    rw [VRwrite, lengthAlong]
    cases hout : VRchar o s c with
    | next t =>
      rw [hout] at hsafe hinv hrest
      exact ih (count+1) hsafe hinv (char_counts hi hn hfine.1 hout) hrest
    | leave t =>
      rw [hout] at hsafe hinv
      exact ⟨hsafe, hinv, left_counts (.inl hout)⟩
    | fail t =>
      rw [hout] at hsafe hinv
      exact ⟨hsafe, hinv, left_counts (.inr hout)⟩

theorem init_safe (allocated : Bool) (space : Int → UInt8) (null : Int) (cmd : Command) :
    Safe (VRinit allocated space null cmd) ∧ Inv o (VRinit allocated space null cmd) ∧
      Counts 0 (VRinit allocated space null cmd) :=
  ⟨⟨nofun, Int.zero_le_ofNat 1024, nofun⟩, ⟨Int.zero_le_ofNat 1024, fun _ => rfl,
    fun _ _ => rfl, fun _ h => absurd rfl h, nofun, nofun⟩, fun _ => rfl⟩

theorem fed_safe (h : Fed o (FineAlong o) n s) : Safe s ∧ Inv o s ∧ Counts n s := by
  induction h with
  | init allocated space null cmd => exact init_safe allocated space null cmd
  | write b _ hfine ih => exact write_safe b 0 ih.1 ih.2.1 ih.2.2 hfine

/-- In every run whose characters are fine the state is safe, and the next string passes
only through safe states exactly when its characters are fine. -/
theorem raster_stream_over_runs (h : Fed o (FineAlong o) n s) :
    Safe s ∧ ∀ b, SafeAlong o s b ↔ FineAlong o n s b := by
  obtain ⟨hs, hi, hn⟩ := fed_safe h
  exact ⟨hs, fun b => along_iff b hs hi hn⟩

/-- Behind a count that has passed zero every byte is stored and nothing ends the data,
until the count has come round. -/
theorem negative_count_stores (b : List UInt8) : ∀ {s : Raster} (count : ℕ),
    s.VRstate = .DATA → s.dstate = .FRIN → s.VRdatalen < 0 →
    (b.length : Int)-s.VRdatalen ≤ 32768 →
    (∀ c ∈ b, 31 < c.toInt8.toInt ∧ c.toInt8.toInt < 123) →
    (VRwrite o s b count).2.VRstate = .DATA ∧
      (VRwrite o s b count).2.stored = s.stored+b.length := by
  induction b with
  | nil => exact fun _ hstate _ _ _ _ => ⟨hstate, rfl⟩
  | cons c b ih =>
    intro s count hstate hin hneg hroom hplain
    rw [List.length_cons] at hroom
    have hc := hplain c List.mem_cons_self
    have hdecode : decode1 s c.toInt8.toInt = (c.toInt8.toInt, s) := by
      rw [decode1, hin]
      exact if_pos hc
    have hlen : (storeData s c.toInt8.toInt).VRdatalen = s.VRdatalen-1 := by
      change short (s.VRdatalen-1) = s.VRdatalen-1
      exact short_eq (by omega) (by omega)
    have hchar : VRchar o s c = .next (storeData s c.toInt8.toInt) := by
      rw [VRchar, hstate]
      change Outcome.next (dataChar s c) = _
      rw [dataChar, hdecode]
      simp only [if_pos (show 0 ≤ c.toInt8.toInt by omega), hlen]
      rw [if_neg (by omega)]
    have hrest := ih (s := storeData s c.toInt8.toInt) (count+1) hstate hin (by omega) (by omega)
      (fun d hd => hplain d (List.mem_cons_of_mem c hd))
    rw [VRwrite, hchar]
    refine ⟨hrest.1, hrest.2.trans ?_⟩
    change s.stored+1+b.length = s.stored+(b.length+1)
    omega

end Streams

section Decimal

instance (o : Outside) (s : Raster) (c : UInt8) : Decidable (EntersData o s c) :=
  inferInstanceAs (Decidable (_ ∨ _))

instance (n : Int) (s : Raster) (c : UInt8) : Decidable (ArgFits n s c) :=
  inferInstanceAs (Decidable (_ ∧ _))

instance (o : Outside) (n : Int) (s : Raster) (c : UInt8) :
    ∀ state, Decidable (CharFineIn o n s c state)
  | .IARG => inferInstanceAs (Decidable (_ ∧ _))
  | .SARG => inferInstanceAs (Decidable (_ ∧ _))
  | .CARG => inferInstanceAs (Decidable (_ ∧ _))
  | .DATA => inferInstanceAs (Decidable (_ → _))
  | .DONE => isTrue trivial
  | .ESCFOUND => isTrue trivial
  | .WANTCMD => isTrue trivial
  | .WANTDEL => isTrue trivial

instance (o : Outside) (n : Int) (s : Raster) (c : UInt8) : Decidable (CharFine o n s c) :=
  inferInstanceAs (Decidable (CharFineIn o n s c s.VRstate))

def decideAlong (o : Outside) :
    ∀ (b : List UInt8) (n : ℕ) (s : Raster), Decidable (FineAlong o n s b)
  | [], _, _ => isTrue trivial
  | c :: b, n, s =>
    have : Decidable (match VRchar o s c with
        | .next s' => FineAlong o (argLength n s c) s' b
        | _ => True) :=
      match VRchar o s c with
      | .next s' => decideAlong o b (argLength n s c) s'
      | .leave _ => isTrue trivial
      | .fail _ => isTrue trivial
    inferInstanceAs (Decidable (_ ∧ _))

instance (o : Outside) (n : ℕ) (s : Raster) (b : List UInt8) : Decidable (FineAlong o n s b) :=
  decideAlong o b n s

/-- A number as `%d` reads it: blanks, a sign, and digits up to the first other character. -/
def scanDigits : List UInt8 → Option ℕ → Option ℕ
  | [], n => n
  | c :: bytes, n =>
    if 48 ≤ c ∧ c ≤ 57 then scanDigits bytes (some (10*n.getD 0+(c-48).toNat)) else n

def scanDecimal (bytes : List UInt8) : Option (BitVec 16) :=
  match bytes.dropWhile (· = 32) with
  | 45 :: digits => (scanDigits digits none).map fun n => BitVec.ofInt 16 (-n)
  | 43 :: digits => (scanDigits digits none).map (BitVec.ofNat 16)
  | digits => (scanDigits digits none).map (BitVec.ofNat 16)

def decimalOutside : Outside where
  scan := scanDecimal
  behind := .none

def rasterStart : Raster := VRinit true (fun _ => 0) (-1) .VRwindow

/-- `ESC ^ M ; 0 ; 1 ; 2 ; w ; A B`: two bytes of a color map for the window `w`. -/
theorem map_command_safe : SafeAlong decimalOutside rasterStart
    [27, 94, 77, 59, 48, 59, 49, 59, 50, 59, 119, 59, 65, 66] :=
  ((raster_stream_over_runs (.init true (fun _ => 0) (-1) .VRwindow)).2 _).mpr (by decide)

/-- A color map whose count is zero, up to the first byte behind it. -/
def zeroCount : List UInt8 := [27, 94, 77, 59, 48, 59, 49, 59, 48, 59, 119, 59, 65]

/-- The same with a count of -1, up to the start of the data. -/
def minusCount : List UInt8 := [27, 94, 77, 59, 48, 59, 49, 59, 45, 49, 59, 119, 59]

/-- A count of zero with 1025 bytes behind it, a negative count, a seventh argument that a
delimiter ends, and an argument of 257 characters. -/
theorem raster_defects :
    ¬ SafeAlong decimalOutside rasterStart zeroCount ∧
    (VRwrite decimalOutside (VRwrite decimalOutside rasterStart zeroCount 0).2
      (List.replicate 1024 65) 0).2.stored = 1025 ∧
    ¬ SafeAlong decimalOutside rasterStart minusCount ∧
    ¬ SafeAlong decimalOutside rasterStart ([27, 94, 70] ++ List.replicate 8 59) ∧
    ¬ SafeAlong decimalOutside rasterStart ([27, 94, 68, 59] ++ List.replicate 257 119) := by
  obtain ⟨hs, hi, hn⟩ := init_safe (o := decimalOutside) true (fun _ => 0) (-1) .VRwindow
  have hiff := fun b => along_iff b hs hi hn
  refine ⟨fun h => ?_, ?_, fun h => ?_, fun h => ?_, fun h => ?_⟩
  · exact absurd ((hiff _).mp h) (by decide)
  · have hstores := negative_count_stores (o := decimalOutside) (List.replicate 1024 65)
      (s := (VRwrite decimalOutside rasterStart zeroCount 0).2) 0 (by decide) (by decide)
      (by decide) (by rw [List.length_replicate]; decide)
      (fun c hc => by rw [List.eq_of_mem_replicate hc]; decide)
    rw [hstores.2, List.length_replicate]
    decide
  · exact absurd ((hiff _).mp h) (by decide)
  · exact absurd ((hiff _).mp h) (by decide)
  · exact absurd ((hiff _).mp h) (by decide +kernel)

end Decimal

end VR
