import MacSSH.MacBinaryTrip

/-!
# What `MBclose` says about a file

The type, the creator, the flags and the dates of a received file are set when it is closed, from
the header, if a fork is still open then.
-/

namespace MacBinary

open MacVolume ByteFile

/-- The file under `key` is there, and was made at `cr`. -/
def MadeAt (v : Volume) (key : List UInt8) (cr : Vector UInt8 4) : Prop :=
  ∃ m, v.files key = some m ∧ m.crDat = cr

theorem crDat_withContents (m : MacFile) (bs : List UInt8) (fork : Fork) :
    (m.withContents bs fork).crDat = m.crDat := by
  cases fork <;> rfl

theorem write_madeAt {v : Volume} {key : List UInt8} {cr : Vector UInt8 4} (h : MadeAt v key cr)
    (fork : Fork) (pos : Nat) (bs : List UInt8) :
    ∃ m, v.FSWrite (some { key := key, fork := fork, pos := pos }) bs
        = (noErr, bs.length, v.put key (some m),
            some { key := key, fork := fork, pos := pos + bs.length }) ∧
      MadeAt (v.put key (some m)) key cr := by
  obtain ⟨m, hm, hcr⟩ := h
  refine ⟨_, Volume.write_open hm bs, _, Volume.put_files_self _ _ _, ?_⟩
  rw [crDat_withContents]
  exact hcr

theorem setEOF_madeAt {v : Volume} {key : List UInt8} {cr : Vector UInt8 4} (h : MadeAt v key cr)
    (fork : Fork) (pos : Nat) (n : Int) :
    ∃ v' pos', v.SetEOF (some { key := key, fork := fork, pos := pos }) n
        = (v', some { key := key, fork := fork, pos := pos' }) ∧
      v'.fold = v.fold ∧ MadeAt v' key cr := by
  by_cases hneg : n < 0
  · refine ⟨v, pos, ?_, rfl, h⟩
    rw [Volume.SetEOF]
    simp only [if_pos hneg]
  · obtain ⟨m, hm, hcr⟩ := h
    have hn : n = (n.toNat : Int) := by omega
    rw [hn]
    refine ⟨_, _, Volume.setEOF_open hm n.toNat, rfl, _, Volume.put_files_self _ _ _, ?_⟩
    rw [crDat_withContents]
    exact hcr

/-- A file received behind the header `p`, which is kept under `key`. -/
structure Carrying (key : List UInt8) (cr : Vector UInt8 4) (p : MBHead) (v : Volume)
    (out : MBFile) : Prop where
  binary : out.binary = true
  sector1 : out.sector1 = false
  disable : out.mode &&& MB_DISABLE = 0
  write : out.mode &&& MB_WRITE ≠ 0
  header : out.header = p
  rlen : out.rlen = longOf p.rflen
  fold : v.fold (pstr out.name) = key
  madeAt : MadeAt v key cr

theorem Carrying.keep {key : List UInt8} {cr : Vector UInt8 4} {p : MBHead} {v : Volume}
    {out : MBFile} (h : Carrying key cr p v out) {v' : Volume} (hfold : v'.fold = v.fold)
    (hmade : MadeAt v' key cr) (fork bytes : Int) (fd : Option Fd) :
    Carrying key cr p v' { out with fork := fork, bytes := bytes, fd := fd } :=
  ⟨h.binary, h.sector1, h.disable, h.write, h.header, h.rlen, by rw [hfold]; exact h.fold, hmade⟩

/-- The header counts no bytes of a resource fork. -/
def NoRsrc (p : MBHead) : Prop :=
  long (BLOCKS (longOf p.rflen) * 128) = 0

/-- Which fork of the file under `key` is open: the data fork only if the header counts bytes of
it, and none only behind a data fork with no resource fork to follow. -/
inductive Place (key : List UInt8) (p : MBHead) (out : MBFile) : Prop
  | data (pos : Nat) : long (BLOCKS (longOf p.dflen) * 128) ≠ 0 → out.fork = 0 →
      out.fd = some { key := key, fork := .data, pos := pos } → Place key p out
  | rsrc (pos : Nat) : out.fork = 1 →
      out.fd = some { key := key, fork := .rsrc, pos := pos } → Place key p out
  | closed : long (BLOCKS (longOf p.dflen) * 128) ≠ 0 → NoRsrc p → out.fork = 1 → out.bytes = 0 →
      out.fd = none → Place key p out

section Run
variable {key : List UInt8} {cr : Vector UInt8 4} {p : MBHead} {v : Volume} {out : MBFile}

/-- A fork ended leaves the file carrying. -/
theorem endFork_carrying (hc : Carrying key cr p v out) (hp : Place key p out) (error : Int)
    (rest : List UInt8) :
    Carrying key cr p (endFork v out error rest).2.1 (endFork v out error rest).2.2 ∧
      Place key p (endFork v out error rest).2.2 := by
  cases hp with
  | data pos hdata hfork hfd =>
    obtain ⟨v', pos', hset, hfold, hmade⟩ := setEOF_madeAt hc.madeAt .data pos out.dlen
    have hopen : v'.HOpen (pstr out.name) .rsrc = some { key := key, fork := .rsrc, pos := 0 } := by
      obtain ⟨m, hm, -⟩ := hmade
      have hkey : v'.fold (pstr out.name) = key := by rw [hfold, hc.fold]
      rw [← hkey] at hm ⊢
      exact Volume.open_of_file hm .rsrc
    rw [endFork, if_pos hfork]
    simp only [hfd, hset]
    by_cases hzero : long (BLOCKS out.rlen * 128) = 0
    · have hnone : NoRsrc p := by
        rw [NoRsrc, ← hc.rlen]
        exact hzero
      rw [if_neg (not_not_intro hzero)]
      exact ⟨hc.keep hfold hmade _ _ _, Place.closed hdata hnone rfl hzero rfl⟩
    · rw [if_pos hzero, hopen]
      by_cases hrest : rest = []
      · rw [if_neg (not_not_intro hrest)]
        exact ⟨hc.keep hfold hmade _ _ _, Place.rsrc 0 rfl rfl⟩
      · obtain ⟨m, hwrite, hmade'⟩ := write_madeAt hmade .rsrc 0 rest
        have hfold' : (v'.put key (some m)).fold = v.fold := hfold
        rw [if_pos hrest, hwrite]
        exact ⟨hc.keep hfold' hmade' _ _ _, Place.rsrc _ rfl rfl⟩
  | rsrc pos hfork hfd =>
    obtain ⟨v', pos', hset, hfold, hmade⟩ := setEOF_madeAt hc.madeAt .rsrc pos out.rlen
    have hne : ¬ out.fork = 0 := by omega
    rw [endFork, if_neg hne]
    simp only [hfd, hset]
    exact ⟨hc.keep hfold hmade out.fork out.bytes _, Place.rsrc pos' hfork rfl⟩
  | closed hdata hnone hfork hbytes hfd =>
    have hne : ¬ out.fork = 0 := by omega
    rw [endFork, if_neg hne]
    simp only [hfd, Volume.SetEOF]
    exact ⟨hc.keep rfl hc.madeAt out.fork out.bytes _, Place.closed hdata hnone hfork hbytes rfl⟩

/-- A write leaves the same fork open. -/
theorem write_carrying (hc : Carrying key cr p v out) (hp : Place key p out) (hdue : 0 < out.bytes)
    (bs : List UInt8) :
    ∃ error n v' fd, v.FSWrite out.fd bs = (error, n, v', fd) ∧ v'.fold = v.fold ∧
      MadeAt v' key cr ∧ ∀ bytes, Place key p { out with bytes := bytes, fd := fd } := by
  cases hp with
  | data pos hdata hfork hfd =>
    obtain ⟨m, hwrite, hmade⟩ := write_madeAt hc.madeAt .data pos bs
    rw [hfd, hwrite]
    exact ⟨_, _, _, _, rfl, rfl, hmade, fun bytes => Place.data _ hdata hfork rfl⟩
  | rsrc pos hfork hfd =>
    obtain ⟨m, hwrite, hmade⟩ := write_madeAt hc.madeAt .rsrc pos bs
    rw [hfd, hwrite]
    exact ⟨_, _, _, _, rfl, rfl, hmade, fun bytes => Place.rsrc _ hfork rfl⟩
  | closed _ _ _ hbytes => omega

theorem bwrite_carrying (hc : Carrying key cr p v out) (hp : Place key p out)
    (buffer : List UInt8) :
    Carrying key cr p (bwrite v out buffer).2.1 (bwrite v out buffer).2.2 ∧
      Place key p (bwrite v out buffer).2.2 := by
  by_cases hdue : out.bytes > 0
  swap
  · rw [bwrite_none_due hc.binary (by omega)]
    exact endFork_carrying hc hp noErr buffer
  rw [bwrite, if_pos hc.binary, if_pos hdue]
  dsimp only
  generalize (if out.bytes < (buffer.length : Int) then out.bytes.toNat else buffer.length) = len
  obtain ⟨error, n, v', fd, hwrite, hfold, hmade, hplace⟩ :=
    write_carrying hc hp hdue (buffer.take len)
  rw [hwrite]
  have hc' := hc.keep hfold hmade out.fork (long (out.bytes - n)) fd
  have hp' := hplace (long (out.bytes - n))
  dsimp only
  by_cases hend : long (out.bytes - n) ≤ 0
  · rw [if_pos hend]
    exact endFork_carrying hc' hp' error (buffer.drop n)
  · rw [if_neg hend]
    exact ⟨hc', hp'⟩

/-- Whatever comes behind the header, and however it is cut. -/
theorem MBwrites_carrying (h : Host) (buffers : List (List UInt8)) (hc : Carrying key cr p v out)
    (hp : Place key p out) :
    Carrying key cr p (MBwrites h v out buffers).1 (MBwrites h v out buffers).2 ∧
      Place key p (MBwrites h v out buffers).2 := by
  induction buffers generalizing v out with
  | nil => exact ⟨hc, hp⟩
  | cons buffer buffers ih =>
    rw [MBwrites]
    by_cases hne : 0 < buffer.length
    · have hstep := MBwrite_later h v hc.sector1 hne
      rw [hstep]
      obtain ⟨hc', hp'⟩ := bwrite_carrying hc hp buffer
      exact ih hc' hp'
    · have hnil : buffer = [] := List.length_eq_zero_iff.mp (by omega)
      rw [hnil, MBwrite_empty]
      exact ih hc hp

/-- A data fork with no resource fork to follow leaves nothing open once all its bytes are
written. -/
theorem bwrite_closes (hc : Carrying key cr p v out) {pos : Nat} (hfork : out.fork = 0)
    (hfd : out.fd = some { key := key, fork := .data, pos := pos }) (hnone : NoRsrc p)
    (hsmall : out.bytes < 2147483648) {buffer : List UInt8} (hall : out.bytes ≤ buffer.length) :
    (bwrite v out buffer).2.2.fd = none := by
  have hzero : long (BLOCKS out.rlen * 128) = 0 := by
    rw [hc.rlen]
    exact hnone
  have hends : ∀ (v' : Volume) (fd : Option Fd) (bytes error : Int) (rest : List UInt8),
      (endFork v' { out with fd := fd, bytes := bytes } error rest).2.2.fd = none := by
    intro v' fd bytes error rest
    rw [endFork, if_pos hfork]
    dsimp only
    rw [if_neg (not_not_intro hzero)]
  by_cases hdue : 0 < out.bytes
  · obtain ⟨m, hwrite, -⟩ := write_madeAt hc.madeAt .data pos (buffer.take out.bytes.toNat)
    have hlen : (buffer.take out.bytes.toNat).length = out.bytes.toNat := by
      rw [List.length_take]
      omega
    rw [hlen, ← hfd] at hwrite
    have hnomore : out.bytes - out.bytes.toNat ≤ 0 := by omega
    rw [bwrite_due buffer hc.binary hdue hsmall (by omega) hwrite, if_pos hnomore]
    apply hends
  · rw [bwrite_none_due hc.binary (by omega)]
    exact hends v out.fd out.bytes noErr buffer

/-- What `MBclose` sets of the Finder's information. -/
def headerInfo (p : MBHead) : FInfo :=
  { fdType := p.type, fdCreator := p.creator, fdFlagsHigh := p.flags &&& 0xFE
    fdFlagsLow := p.zero2 ||| p.flags2, fdLocation := p.location }

/-- A file that is closed with a fork open gets what the header says. -/
theorem MBclose_info (hc : Carrying key cr p v out) {fork : Fork} {pos : Nat}
    (hfd : out.fd = some { key := key, fork := fork, pos := pos }) :
    ∃ m, (MBclose v out).files key = some m ∧ m.fndrInfo = headerInfo p ∧ m.crDat = p.cdate ∧
      m.mdDat = p.mdate := by
  have hmode : out.mode &&& MB_DISABLE = 0 ∧ out.mode &&& MB_WRITE ≠ 0 := ⟨hc.disable, hc.write⟩
  obtain ⟨v', pos', hset, hfold, m, hm, -⟩ :=
    setEOF_madeAt hc.madeAt fork pos (if out.fork ≠ 0 then out.rlen else out.dlen)
  have hkey : v'.fold (pstr out.name) = key := by rw [hfold, hc.fold]
  have hfind : v'.find (pstr out.name) = some m := by rw [Volume.find, hkey, hm]
  rw [MBclose, hfd]
  simp only [if_pos hmode, hset, hfind, hkey, hc.header]
  exact ⟨_, Volume.put_files_self _ _ _, rfl, rfl, rfl⟩

end Run

/-- The received file is found, or made at once. -/
theorem openReceived_madeAt (v : Volume) (out : MBFile) (fork : Fork) :
    ∃ v' cr, openReceived v out fork
        = (v', some { key := v.fold (pstr out.name), fork := fork, pos := 0 }) ∧
      v'.fold = v.fold ∧ MadeAt v' (v.fold (pstr out.name)) cr ∧
      (v.files (v.fold (pstr out.name)) = none → cr = v.now) := by
  cases hfile : v.files (v.fold (pstr out.name)) with
  | some m =>
    refine ⟨v, m.crDat, ?_, rfl, ⟨m, hfile, rfl⟩, ?_⟩
    · rw [openReceived, Volume.open_of_file hfile]
    · intro hnone
      exact absurd hnone (Option.some_ne_none m)
  | none =>
    have hnot : v.HOpen (pstr out.name) fork = none := by
      rw [Volume.HOpen, Volume.find, hfile]
    simp only [openReceived, hnot, Volume.HCreate, Volume.find, hfile]
    exact ⟨_, v.now, Prod.ext rfl (Volume.open_of_file (Volume.put_files_self _ _ _) fork), rfl,
      ⟨_, Volume.put_files_self _ _ _, rfl⟩, fun _ => rfl⟩

/-- The file behind a header that is processed. -/
theorem ProcessMBHead_carrying {v : Volume} {out : MBFile} {p : MBHead} {nm : List UInt8}
    (hdisable : out.mode &&& MB_DISABLE = 0) (hwrite : out.mode &&& MB_WRITE ≠ 0)
    (hname : pstr (overwrite out.name 0 (p.nlen :: p.name.toList.take 31)) = nm) :
    ∃ cr v' out', ProcessMBHead v out p = (v', out') ∧ Carrying (v.fold nm) cr p v' out' ∧
      Place (v.fold nm) p out' ∧
      ((v.HDelete (pstr out.name)).files (v.fold nm) = none → cr = v.now) ∧
      (long (BLOCKS (longOf p.dflen) * 128) ≠ 0 → out'.fork = 0 ∧
        out'.fd = some { key := v.fold nm, fork := .data, pos := 0 } ∧
        out'.bytes = long (BLOCKS (longOf p.dflen) * 128)) := by
  generalize hout : takeHeader out p = out₁
  have hname₁ : pstr out₁.name = nm := by rw [← hout, takeHeader, hname]
  have hbytes : out₁.bytes = long (BLOCKS (longOf p.dflen) * 128) := by rw [← hout, takeHeader]
  have hfork : out₁.fork = 0 := by rw [← hout, takeHeader]
  have hcarry : ∀ cr v', v'.fold = v.fold → MadeAt v' (v.fold nm) cr →
      Carrying (v.fold nm) cr p v' out₁ := by
    intro cr v' hfold hmade
    refine ⟨by rw [← hout, takeHeader], by rw [← hout, takeHeader], ?_, ?_,
      by rw [← hout, takeHeader], by rw [← hout, takeHeader], by rw [hfold, hname₁], hmade⟩
    · rw [← hout, takeHeader]
      exact hdisable
    · rw [← hout, takeHeader]
      exact hwrite
  have hopen := fun fork => openReceived_madeAt (v.HDelete (pstr out.name)) out₁ fork
  rw [hname₁] at hopen
  rw [ProcessMBHead, hout]
  by_cases hzero : out₁.bytes = 0
  · obtain ⟨v', cr, hv', hfold, hmade, hnow⟩ := hopen .rsrc
    simp only [if_neg (not_not_intro hzero), hv']
    refine ⟨cr, v', _, rfl, (hcarry cr v' hfold hmade).keep rfl hmade _ _ _,
      Place.rsrc 0 rfl rfl, hnow, ?_⟩
    intro hdata
    rw [hbytes] at hzero
    exact absurd hzero hdata
  · obtain ⟨v', cr, hv', hfold, hmade, hnow⟩ := hopen .data
    simp only [if_pos hzero, hv']
    rw [hbytes] at hzero
    exact ⟨cr, v', _, rfl, (hcarry cr v' hfold hmade).keep rfl hmade _ _ _,
      Place.data 0 hzero hfork rfl, hnow, fun _ => ⟨hfork, rfl, hbytes⟩⟩

/-- The `Str255` that a file is sent under. -/
def sentName (h : Host) (file : List UInt8) : List UInt8 :=
  UInt8.ofNat (macName h file).length :: macName h file

/-- What the checksum is over does not depend on what lies behind the name. -/
theorem checked_sentName {h : Host} {file name : List UInt8} (hn : SentName h file name)
    (m : MacFile) : (sendHeader name m).checked = (sendHeader (sentName h file) m).checked := by
  have hlen : (macName h file).length = (name.headD 0).toNat := by
    have hfull := hn.full
    rw [← hn.pstr, pstr, List.length_take, List.length_drop]
    omega
  have hhead : name.headD 0 = (sentName h file).headD 0 := by
    rw [sentName, List.headD_cons, hlen, UInt8.ofNat_toNat]
  have hlong : ¬ ((sentName h file).headD 0).toNat > 31 := by
    have hfit := hn.le
    rw [← hhead]
    omega
  have hname : (sendHeader name m).name = (sendHeader (sentName h file) m).name := by
    have hchars (s : List UInt8) : (sendHeader s m).name = Vector.ofFn fun i : Fin 63 =>
        if i.val + 1 < (if (s.headD 0).toNat > 31 then 32 else (s.headD 0).toNat + 1) then
          s.getD (i + 1) 0 else 0 := rfl
    rw [hchars, hchars, hhead, if_neg hlong, ← hhead]
    congr 1
    funext i
    by_cases hi : i.val + 1 < (name.headD 0).toNat + 1
    · rw [if_pos hi, if_pos hi, sentName, List.getD_cons_succ, ← hn.pstr, pstr,
        List.getD_eq_getElem?_getD, List.getD_eq_getElem?_getD,
        List.getElem?_take_of_lt (Nat.lt_of_succ_lt_succ hi), List.getElem?_drop, Nat.add_comm]
    · rw [if_neg hi, if_neg hi]
  have hnlen : (sendHeader name m).nlen = (sendHeader (sentName h file) m).nlen := hhead
  rw [MBHead.checked, hname, hnlen]
  rfl

/-- The test for MacBinary II answers yes: the two bytes' address is the checksum, and the version
is not read as negative. -/
def TakenForII (h : Host) (p : MBHead) : Prop :=
  h.crcAddress = (CalculateCRC p.checked 124).toNat ∧ h.unsignedChars = true

/-- What is left of the second flags. -/
theorem accepted_flags2 (h : Host) {name : List UInt8} (m : MacFile)
    (hpos : 0 < (name.headD 0).toNat) (hle : (name.headD 0).toNat ≤ 31) :
    ∃ c, (isMacBinary h (sendHeader name m)).2 = { sendHeader name m with flags2 := c } ∧
      (c = m.fndrInfo.fdFlagsLow ↔
        m.fndrInfo.fdFlagsLow = 0 ∨ TakenForII h (sendHeader name m)) := by
  have hvers : h.char (sendHeader name m).mb2versnum > 128 ↔ h.unsignedChars = true := by
    rw [show (sendHeader name m).mb2versnum = 129 from rfl, Host.char]
    split_ifs with hu
    · exact iff_of_true (by decide) hu
    · exact iff_of_false (by decide) hu
  have htest : (h.crcAddress = (CalculateCRC (sendHeader name m).checked 124).toNat ∧
      h.char (sendHeader name m).mb2versnum > 128) ↔ TakenForII h (sendHeader name m) := by
    rw [hvers, TakenForII]
  rw [isMacBinary, if_pos (looks_sent h m hpos hle), if_neg (minvers_sent h name m)]
  by_cases hII : TakenForII h (sendHeader name m)
  · rw [if_pos (htest.mpr hII)]
    exact ⟨m.fndrInfo.fdFlagsLow, rfl, iff_of_true rfl (Or.inr hII)⟩
  · rw [if_neg fun hyes => hII (htest.mp hyes)]
    refine ⟨0, rfl, ?_⟩
    rw [eq_comm]
    exact (or_iff_left hII).symm

/-- The same type, creator and dates, and the same flags but for the one that says that the Finder
has seen the file. -/
structure SameInfo (m m' : MacFile) : Prop where
  fdType : m'.fndrInfo.fdType = m.fndrInfo.fdType
  fdCreator : m'.fndrInfo.fdCreator = m.fndrInfo.fdCreator
  fdFlagsHigh : m'.fndrInfo.fdFlagsHigh &&& 0xFE = m.fndrInfo.fdFlagsHigh &&& 0xFE
  fdFlagsLow : m'.fndrInfo.fdFlagsLow = m.fndrInfo.fdFlagsLow
  crDat : m'.crDat = m.crDat
  mdDat : m'.mdDat = m.mdDat

/-- The file `m`, sent from any volume and received on any under any name, in calls of any sizes,
ends up with the same information. -/
def KeepsInfo (h : Host) (file : List UInt8) (m : MacFile) : Prop :=
  ∀ v w up sent w', v.find (macName h file) = some m → Sends h v file sent →
    Receives h w up sent w' →
    ∃ m', w'.files (w.fold (macName h file)) = some m' ∧ SameInfo m m'

/-- The two flag bytes are all that a header can get wrong. -/
theorem sameInfo_iff {name : List UInt8} {m m' : MacFile} {c : UInt8}
    (hinfo : m'.fndrInfo = headerInfo { sendHeader name m with flags2 := c })
    (hcr : m'.crDat = (sendHeader name m).cdate) (hmd : m'.mdDat = (sendHeader name m).mdate) :
    SameInfo m m' ↔ c = m.fndrInfo.fdFlagsLow := by
  have hlow : m'.fndrInfo.fdFlagsLow = c := by
    rw [hinfo]
    exact UInt8.zero_or
  constructor
  · intro hsame
    rw [← hlow, hsame.fdFlagsLow]
  · intro hc
    refine ⟨by rw [hinfo]; rfl, by rw [hinfo]; rfl, ?_, hlow.trans hc, hcr, hmd⟩
    rw [hinfo]
    change m.fndrInfo.fdFlagsHigh &&& 0xFE &&& 0xFE = m.fndrInfo.fdFlagsHigh &&& 0xFE
    rw [UInt8.and_assoc, UInt8.and_self]

/-- A fork is counted no bytes only when it is empty. -/
theorem blocks_eq_zero {n : Nat} (hn : n < 2147483648) :
    long (BLOCKS (longOf (longBytes n)) * 128) = 0 ↔ n = 0 := by
  rw [longOf_longBytes]
  rcases Nat.lt_or_ge maxFork n with hover | hle
  · have hneg := long_blocks_neg hover hn
    rw [maxFork] at hover
    omega
  · rw [long_blocks hle]
    constructor
    · intro hzero
      have hge := le_sectors n
      omega
    · rintro rfl
      rfl

/-- The count is not above the number of bytes that are sent. -/
theorem blocks_le {n k : Nat} (hn : n < 2147483648) (hk : n ≤ maxFork → sectors n ≤ k) :
    long (BLOCKS (long n) * 128) ≤ k := by
  rcases Nat.lt_or_ge maxFork n with hover | hle
  · have hneg := long_blocks_neg hover hn
    omega
  · have hsent := hk hle
    rw [long_blocks hle]
    omega

/-- The file at the end of any way to receive what begins with its header. -/
theorem receives_carrying {h : Host} {w w' : Volume} {up name file tail : List UInt8} {m : MacFile}
    {c : UInt8} (hn : SentName h file name)
    (hc : (isMacBinary h (sendHeader name m)).2 = { sendHeader name m with flags2 := c })
    (hrec : Receives h w up ((sendHeader name m).toBytes ++ tail) w') :
    ∃ cr v out,
      Carrying (w.fold (macName h file)) cr { sendHeader name m with flags2 := c } v out ∧
      Place (w.fold (macName h file)) { sendHeader name m with flags2 := c } out ∧
      w' = MBclose v out := by
  obtain ⟨block, mode, w₁, out, buffer, buffers, hdisable, hwrite, hopen, hlen, hall, rfl⟩ := hrec
  obtain ⟨w₁', out', hopen', hs1, hmode, -, hfold, -, -, -⟩ :=
    @MBopen_write h block w up mode hwrite
  rw [hopen, Option.some.injEq, Prod.mk.injEq] at hopen'
  obtain ⟨rfl, rfl⟩ := hopen'
  rw [← hmode] at hdisable hwrite
  have hhead : (sendHeader name m).toBytes.length ≤ buffer.length := by
    rw [MBHead.length_toBytes]
    exact hlen
  obtain ⟨after, rfl, -⟩ := split_front hhead hall
  obtain ⟨cr, v₂, out₂, hproc, hcarry, hplace, -, -⟩ := ProcessMBHead_carrying (v := w₁)
    (p := { sendHeader name m with flags2 := c }) hdisable hwrite
    (pstr_received m out.name hn.le hn.full)
  rw [hfold, hn.pstr] at hcarry hplace
  have hbegun : ProcessMBHead w₁ out (isMacBinary h (sendHeader name m)).2 = (v₂, out₂) := by
    rw [hc, hproc]
  rw [MBwrites_first hs1 hdisable (accepts_sent h m hn.pos hn.le)
    (by rw [hbegun]; exact hcarry.sector1), hbegun]
  obtain ⟨hcarry', hplace'⟩ := MBwrites_carrying h (after :: buffers) hcarry hplace
  exact ⟨cr, _, _, hcarry', hplace', rfl⟩

/-- With a resource fork, or with no data fork, the header's information is set. -/
theorem receives_info {h : Host} {w w' : Volume} {up name file tail : List UInt8} {m : MacFile}
    {c : UInt8} (hd : m.data.length < 2147483648) (hr : m.rsrc.length < 2147483648)
    (hforks : m.data.length = 0 ∨ 0 < m.rsrc.length) (hn : SentName h file name)
    (hc : (isMacBinary h (sendHeader name m)).2 = { sendHeader name m with flags2 := c })
    (hrec : Receives h w up ((sendHeader name m).toBytes ++ tail) w') :
    ∃ m', w'.files (w.fold (macName h file)) = some m' ∧
      (SameInfo m m' ↔ c = m.fndrInfo.fdFlagsLow) := by
  obtain ⟨cr, v, out, hcarry, hplace, rfl⟩ := receives_carrying hn hc hrec
  have hset : ∀ fork pos, out.fd
      = some { key := w.fold (macName h file), fork := fork, pos := pos } →
      ∃ m', (MBclose v out).files (w.fold (macName h file)) = some m' ∧
        (SameInfo m m' ↔ c = m.fndrInfo.fdFlagsLow) := by
    intro fork pos hfd
    obtain ⟨m', hm', hinfo, hcr, hmd⟩ := MBclose_info hcarry hfd
    exact ⟨m', hm', sameInfo_iff hinfo hcr hmd⟩
  cases hplace with
  | data pos _ _ hfd => exact hset .data pos hfd
  | rsrc pos _ hfd => exact hset .rsrc pos hfd
  | closed hdata hnone =>
    have hsome : m.data.length ≠ 0 := fun hzero => hdata ((blocks_eq_zero hd).mpr hzero)
    have hempty : m.rsrc.length = 0 := (blocks_eq_zero hr).mp hnone
    omega

theorem exists_other_date (cr : Vector UInt8 4) : ∃ now, now ≠ cr := by
  by_cases hzero : cr = Vector.replicate 4 0
  · refine ⟨Vector.replicate 4 1, ?_⟩
    rw [hzero]
    decide
  · exact ⟨Vector.replicate 4 0, fun hsame => hzero hsame.symm⟩

/-- A file with a data fork and no resource fork loses its dates: they are those that the receiving
volume gives. -/
theorem keepsInfo_forks {h : Host} {file : List UInt8} {m : MacFile} (hname : macName h file ≠ [])
    (hd : m.data.length < 2147483648) (hk : KeepsInfo h file m) :
    m.data.length = 0 ∨ 0 < m.rsrc.length := by
  by_contra hforks
  obtain ⟨name, tail, hn, hs, hdata, hsome⟩ := sends_exists (v := volumeOf m) hname rfl
  have htail : tail ≠ [] := hsome (by omega)
  -- the file is sent to an empty volume, on which it is another day
  obtain ⟨now, hnow⟩ := exists_other_date m.crDat
  generalize hw : { emptyVolume with now := now } = w
  obtain ⟨w₁, out, hopen, hs1, hmode, hup, hfold, -, -, hclock⟩ :=
    @MBopen_write h (newBlock m) w file MB_WRITE (by decide)
  obtain ⟨c, hc, -⟩ := accepted_flags2 h m hn.pos hn.le
  have hdisable : out.mode &&& MB_DISABLE = 0 := by
    rw [hmode]
    decide
  have hwrite : out.mode &&& MB_WRITE ≠ 0 := by
    rw [hmode]
    decide
  obtain ⟨cr, v₂, out₂, hproc, hcarry, hplace, hmade, hfirst⟩ := ProcessMBHead_carrying (v := w₁)
    (p := { sendHeader name m with flags2 := c }) hdisable hwrite
    (pstr_received m out.name hn.le hn.full)
  rw [hfold, hn.pstr] at hcarry hplace hmade hfirst
  have hcr : cr = now := by
    have hgone : (w₁.HDelete (pstr out.name)).files (w.fold (macName h file)) = none := by
      rw [hup, ← hfold]
      exact Volume.put_files_self _ _ _
    rw [hmade hgone, hclock, ← hw]
  -- the data fork is open, and all that is due of it comes in the next call
  have hlong : m.data.length ≠ 0 := by omega
  obtain ⟨hfork, hfd, hbytes⟩ := hfirst fun hzero => hlong ((blocks_eq_zero hd).mp hzero)
  have hnone : NoRsrc { sendHeader name m with flags2 := c } :=
    (blocks_eq_zero (n := m.rsrc.length) (by omega)).mpr (by omega)
  have hlength : longOf (sendHeader name m).dflen = long m.data.length := longOf_longBytes _
  have hcount : out₂.bytes = long (BLOCKS (long m.data.length) * 128) := by
    rw [hbytes, ← hlength]
  have hall : out₂.bytes ≤ tail.length := by
    rw [hcount]
    apply blocks_le hd
    intro hle
    obtain ⟨tail', rfl⟩ := hdata hle
    rw [List.length_append, length_padded]
    exact Nat.le_add_right _ _
  have hsmall : out₂.bytes < 2147483648 := by
    rw [hcount]
    exact (long_range _).2
  -- without a resource fork the descriptor is gone before the dates could be set
  have hclosed := bwrite_closes hcarry hfork hfd hnone hsmall hall
  obtain ⟨hcarry', -⟩ := bwrite_carrying hcarry hplace tail
  have hrun : MBwrites h w₁ out [(sendHeader name m).toBytes ++ [], tail]
      = (bwrite v₂ out₂ tail).2 := by
    have hbegun : ProcessMBHead w₁ out (isMacBinary h (sendHeader name m)).2 = (v₂, out₂) := by
      rw [hc, hproc]
    rw [MBwrites_first hs1 hdisable (accepts_sent h m hn.pos hn.le)
      (by rw [hbegun]; exact hcarry.sector1), hbegun, MBwrites, MBwrite_empty, MBwrites,
      MBwrite_later h v₂ hcarry.sector1 (List.length_pos_iff.mpr htail), MBwrites]
  have hrec : Receives h w file ((sendHeader name m).toBytes ++ tail)
      (MBclose (bwrite v₂ out₂ tail).2.1 (bwrite v₂ out₂ tail).2.2) := by
    refine ⟨newBlock m, MB_WRITE, w₁, out, _, [tail], by decide, by decide, hopen, ?_, ?_,
      by rw [hrun]⟩
    · have hlen : ((sendHeader name m).toBytes ++ []).length = 128 := by
        rw [List.append_nil, MBHead.length_toBytes]
      exact Nat.le_of_eq hlen.symm
    · simp only [List.flatten_cons, List.flatten_nil, List.append_nil]
  obtain ⟨m', hm', hsame⟩ := hk (volumeOf m) w file _ _ rfl hs hrec
  obtain ⟨m'', hm'', hdate⟩ := hcarry'.madeAt
  rw [MBclose_none _ hclosed, hm'', Option.some.injEq] at hm'
  apply hnow
  calc now = cr := hcr.symm
    _ = m'.crDat := by rw [← hm', hdate]
    _ = m.crDat := hsame.crDat

/-- A file's information survives every trip exactly when the file has a resource fork or no data
fork, and its second flags are zero or the header passes for MacBinary II. -/
theorem keepsInfo_iff {h : Host} {file : List UInt8} {m : MacFile} (hname : macName h file ≠ [])
    (hd : m.data.length < 2147483648) (hr : m.rsrc.length < 2147483648) :
    KeepsInfo h file m ↔ (m.data.length = 0 ∨ 0 < m.rsrc.length) ∧
      (m.fndrInfo.fdFlagsLow = 0 ∨ TakenForII h (sendHeader (sentName h file) m)) := by
  have hsent : ∀ {name}, SentName h file name →
      (TakenForII h (sendHeader name m) ↔ TakenForII h (sendHeader (sentName h file) m)) := by
    intro name hn
    rw [TakenForII, checked_sentName hn, TakenForII]
  constructor
  · intro hk
    have hforks := keepsInfo_forks hname hd hk
    refine ⟨hforks, ?_⟩
    obtain ⟨name, tail, hn, hs, -⟩ := sends_exists (v := volumeOf m) hname rfl
    obtain ⟨c, hc, hflags⟩ := accepted_flags2 h m hn.pos hn.le
    obtain ⟨v₂, out₂, -, hrec⟩ := receives_two emptyVolume file (m := m) hn hd hr tail []
    rw [List.append_nil] at hrec
    obtain ⟨m', hm', hsame⟩ := hk (volumeOf m) emptyVolume file _ _ rfl hs hrec
    obtain ⟨m'', hm'', hiff⟩ := receives_info hd hr hforks hn hc hrec
    rw [hm', Option.some.injEq] at hm''
    rw [← hm''] at hiff
    rw [← hsent hn]
    exact hflags.mp (hiff.mp hsame)
  · rintro ⟨hforks, hflag⟩ v w up sent w' hm hs hrec
    obtain ⟨name, hn, ⟨tail, rfl⟩, -⟩ := sends_stream hname hm hs
    obtain ⟨c, hc, hflags⟩ := accepted_flags2 h m hn.pos hn.le
    obtain ⟨m', hm', hiff⟩ := receives_info hd hr hforks hn hc hrec
    rw [← hsent hn] at hflag
    exact ⟨m', hm', hiff.mpr (hflags.mpr hflag)⟩

/-- A file with both forks and no flags. -/
theorem both_forks_kept : KeepsInfo plainHost [65] (fileOf [7] [7]) :=
  (keepsInfo_iff (by decide) (by decide) (by decide)).mpr ⟨Or.inr (by decide), Or.inl rfl⟩

/-- A file with one byte of data and nothing else does not keep its dates. -/
theorem data_alone_not_kept : ¬ KeepsInfo plainHost [65] (fileOf [7] []) := by
  intro hk
  have hforks := keepsInfo_forks (by decide) (by decide) hk
  exact absurd hforks (by decide)

end MacBinary
