import MacSSH.MacBinaryTrip

/-!
# The buffer that `MBread` stores to

`MBread` is given a buffer and its size. The filling of the last block goes behind what was read of
the fork whether or not the buffer has room for it.
-/

namespace MacBinary

open MacVolume

/-- What the read of a fork leaves of `size`. -/
def forkLeft (v : Volume) (f : MBFile) (size : Int) : Int :=
  if size > 0 then
    let (err, got, _) := v.FSRead f.fd size.toNat
    let bytes := long (f.bytes - got.length)
    if err = eofErr ∨ bytes ≤ 0 then size - got.length - (if bytes < 0 then 0 else bytes)
    else size - got.length
  else size

/-- The value `MBread` returns: `rsize - size`, or -1. -/
def MBreadValue (v : Volume) (f : MBFile) (rsize : Int) : Int :=
  if f.fork < 0 then -1
  else if f.sector1 then
    match v.find (pstr f.name) with
    | none => -1
    | some finfo =>
      let f := { f with header := sendHeader f.name finfo
                        dlen := long finfo.data.length, rlen := long finfo.rsrc.length }
      if f.mode &&& MB_DISABLE = 0 then
        if rsize < 128 then -1
        else
          let f := { f with bytes := long (BLOCKS f.dlen * 128), binary := true, sector1 := false }
          long (rsize - forkLeft v f (rsize - 128))
      else
        let f := { f with bytes := f.dlen, rlen := 0, binary := false, sector1 := false }
        long (rsize - forkLeft v f rsize)
  else long (rsize - forkLeft v f rsize)

/-- The size is taken down by what is stored. -/
theorem forkLeft_eq (v : Volume) (f : MBFile) (size : Int) :
    forkLeft v f size = size - (readFork v f size).1.length := by
  rw [forkLeft, readFork]
  by_cases hsize : size > 0
  · simp only [if_pos hsize]
    generalize long (f.bytes - ((v.FSRead f.fd size.toNat).2.1.length : Int)) = bytes
    by_cases hend : (v.FSRead f.fd size.toNat).1 = eofErr ∨ bytes ≤ 0
    · rw [if_pos hend, if_pos hend, List.length_append, List.length_replicate]
      split_ifs <;> omega
    · rw [if_neg hend, if_neg hend]
  · rw [if_neg hsize, if_neg hsize, List.length_nil]
    omega

/-- What is returned counts what is stored, in every state. -/
theorem MBreadValue_eq (v : Volume) (f : MBFile) (size : Int) :
    MBreadValue v f size
      = (MBread v f size).1.elim (-1) fun stored => long stored.length := by
  have hfork (g : MBFile) (n : Int) : n - forkLeft v g n = (readFork v g n).1.length := by
    rw [forkLeft_eq]
    omega
  rw [MBreadValue, MBread]
  by_cases hopen : f.fork < 0
  · rw [if_pos hopen, if_pos hopen]
    rfl
  rw [if_neg hopen, if_neg hopen]
  by_cases hfirst : f.sector1
  swap
  · rw [if_neg hfirst, if_neg hfirst, hfork, Option.elim_some]
  rw [if_pos hfirst, if_pos hfirst]
  cases v.find (pstr f.name) with
  | none => rfl
  | some finfo =>
    dsimp only
    by_cases hmode : f.mode &&& MB_DISABLE = 0
    · rw [if_pos hmode, if_pos hmode]
      by_cases hshort : size < 128
      · rw [if_pos hshort, if_pos hshort]
        rfl
      · rw [if_neg hshort, if_neg hshort, Option.elim_some, List.length_append,
          MBHead.length_toBytes, forkLeft_eq]
        apply congrArg long
        omega
    · rw [if_neg hmode, if_neg hmode, hfork, Option.elim_some]

/-- A call stores no more than it is asked for and returns how much it stored, or it stores
nothing and returns -1. -/
def Kept (v : Volume) (f : MBFile) (size : Int) : Prop :=
  match (MBread v f size).1 with
  | none => MBreadValue v f size = -1
  | some stored => stored.length ≤ size.toNat ∧ MBreadValue v f size = stored.length

/-- Every call keeps to its buffer. -/
def Respects (v : Volume) : MBFile → List Int → Prop
  | _, [] => True
  | f, size :: sizes => Kept v f size ∧ Respects v (MBread v f size).2 sizes

/-- What is to be sent of a file that is just opened. -/
def image (f : MBFile) (m : MacFile) : List UInt8 :=
  if f.mode &&& MB_DISABLE = 0 then stream f.name m else m.data

/-- The calls store the front of the image, and all of it by the time the file is read out. -/
def SendsImage (v : Volume) (m : MacFile) (f : MBFile) (sizes : List Int) : Prop :=
  (MBreads v f sizes).1 <+: image f m ∧
    ((MBreads v f sizes).2.fork < 0 → (MBreads v f sizes).1 = image f m)

/-- A read of the open fork that goes past its end goes to the end of its last block. -/
def ForkFits (v : Volume) (f : MBFile) (size : Int) : Prop :=
  ∀ fd, f.fd = some fd → (v.contents fd).length < fd.pos + size.toNat →
    sectors (v.contents fd).length ≤ fd.pos + size.toNat

/-- What a call reads of the open fork fits, where blocks are filled at all. -/
def CallFits (v : Volume) (f : MBFile) (size : Int) : Prop :=
  f.mode &&& MB_DISABLE = 0 → 0 ≤ f.fork →
    ForkFits v f (if f.sector1 then size - 128 else size)

/-- Every call fits. -/
def AllFit (v : Volume) : MBFile → List Int → Prop
  | _, [] => True
  | f, size :: sizes => CallFits v f size ∧ AllFit v (MBread v f size).2 sizes

theorem kept_iff {v : Volume} {f : MBFile} {size : Int} (hlong : size < 2147483648) :
    Kept v f size ↔ ((MBread v f size).1.getD []).length ≤ size.toNat := by
  rw [Kept, MBreadValue_eq]
  cases (MBread v f size).1 with
  | none => exact iff_of_true (Option.elim_none _ _) (Nat.zero_le _)
  | some stored =>
    dsimp only
    rw [Option.elim_some, Option.getD_some]
    apply and_iff_left_of_imp
    intro hle
    exact long_eq (by omega) (by omega)

theorem mode_closeFork (v : Volume) (f : MBFile) : (closeFork v f).mode = f.mode := by
  rw [closeFork]
  dsimp only
  split_ifs <;> rfl

theorem mode_readFork (v : Volume) (f : MBFile) (size : Int) :
    (readFork v f size).2.mode = f.mode := by
  rw [readFork]
  by_cases hsize : size > 0
  swap
  · rw [if_neg hsize]
  rw [if_pos hsize]
  dsimp only
  generalize long (f.bytes - ((v.FSRead f.fd size.toNat).2.1.length : Int)) = bytes
  by_cases hend : (v.FSRead f.fd size.toNat).1 = eofErr ∨ bytes ≤ 0
  · rw [if_pos hend]
    apply mode_closeFork
  · rw [if_neg hend]

/-- A read of a counted fork stores no more than it is asked for exactly where it fits. -/
theorem readFork_room {v : Volume} {f : MBFile} {fd : Fd} {size : Int} {bs : List UInt8}
    (hfd : f.fd = some fd) (hbs : v.contents fd = bs) (hsmall : bs.length ≤ maxFork)
    (hpos : fd.pos ≤ bs.length) (hbytes : f.bytes = sectors bs.length - fd.pos) :
    (readFork v f size).1.length ≤ size.toNat ↔ ForkFits v f size := by
  have hle := le_sectors bs.length
  have hfits : ForkFits v f size ↔
      (bs.length < fd.pos + size.toNat → sectors bs.length ≤ fd.pos + size.toNat) := by
    rw [← hbs]
    constructor
    · intro h
      exact h fd hfd
    · intro h fd' hfd'
      rw [hfd, Option.some.injEq] at hfd'
      rw [← hfd']
      exact h
  rw [hfits]
  by_cases hsize : 0 < size
  case neg =>
    rw [readFork_nothing v f hsize, List.length_nil]
    omega
  rcases readFork_counted hfd hbs hsmall hpos hbytes hsize with
    ⟨k, hk, hin, -, hread⟩ | ⟨hend, fd', bytes', hread⟩
  · have hstored : (readFork v f size).1.length ≤ k := by
      rw [hread]
      exact List.length_take_le _ _
    omega
  · have hstored : (readFork v f size).1.length = sectors bs.length - fd.pos := by
      rw [hread, List.length_drop, length_padded]
    omega

/-- `f` is just opened, in either mode. -/
structure Fresh (v : Volume) (m : MacFile) (f : MBFile) : Prop where
  file : v.files (v.fold (pstr f.name)) = some m
  sector1 : f.sector1 = true
  fork : f.fork = 0
  fd : f.fd = some { key := v.fold (pstr f.name), fork := .data, pos := 0 }

/-- `f` is inside a data fork that is sent as it is, at `pos`. -/
structure InPlain (v : Volume) (m : MacFile) (f : MBFile) (pos : Nat) : Prop where
  file : v.files (v.fold (pstr f.name)) = some m
  at_ : InData v f pos
  le : pos ≤ m.data.length
  bytes : f.bytes = m.data.length - pos
  rlen : f.rlen = 0

/-- What the calls from `f` on have still to store. -/
inductive Ahead (v : Volume) (m : MacFile) (f : MBFile) : List UInt8 → Prop
  | fresh : Fresh v m f → Ahead v m f (image f m)
  | sending (rest : List UInt8) : f.mode &&& MB_DISABLE = 0 → Sending v m f → f.sector1 = false →
      Left v m f rest → Ahead v m f rest
  | plain (pos : Nat) : f.mode &&& MB_DISABLE ≠ 0 → InPlain v m f pos →
      Ahead v m f (m.data.drop pos)
  | done : f.fork = -1 → Ahead v m f []

/-- A call stores the front of what lies ahead, and keeps to the size exactly where it fits. -/
def Advances (v : Volume) (m : MacFile) (f : MBFile) (rest : List UInt8) (size : Int) : Prop :=
  ∃ rest', rest = (MBread v f size).1.getD [] ++ rest' ∧ Ahead v m (MBread v f size).2 rest' ∧
    (((MBread v f size).1.getD []).length ≤ size.toNat ↔ CallFits v f size)

theorem done_advances {v : Volume} {m : MacFile} {f : MBFile} (h : f.fork = -1) (size : Int) :
    Advances v m f [] size := by
  have hclosed : f.fork < 0 := by
    rw [h]
    decide
  rw [Advances, MBread_done hclosed]
  refine ⟨[], rfl, Ahead.done h, iff_of_true (Nat.zero_le _) ?_⟩
  intro _ hopen
  omega

/-- The read of a fork that is sent in blocks. -/
theorem readFork_advances {v : Volume} {m : MacFile} {f : MBFile} {rest : List UInt8}
    (hd : m.data.length ≤ maxFork) (hr : m.rsrc.length ≤ maxFork)
    (hmode : f.mode &&& MB_DISABLE = 0) (hs : Sending v m f) (hs1 : f.sector1 = false)
    (hl : Left v m f rest) (hopen : ¬ f.fork < 0) (size : Int) :
    ∃ rest', rest = (readFork v f size).1 ++ rest' ∧ Ahead v m (readFork v f size).2 rest' ∧
      ((readFork v f size).1.length ≤ size.toNat ↔ ForkFits v f size) := by
  obtain ⟨rest', hrest, hs', hs1', hl'⟩ := readFork_left hs hd hr hs1 hl hopen size
  have hmode' : (readFork v f size).2.mode &&& MB_DISABLE = 0 := by
    rw [mode_readFork]
    exact hmode
  refine ⟨rest', hrest, Ahead.sending rest' hmode' hs' hs1' hl', ?_⟩
  cases hl with
  | data pos hin hpos hbytes =>
    exact readFork_room hin.fd (contents_data hs.file pos) hd hpos hbytes
  | rsrc pos hin hpos hbytes =>
    exact readFork_room hin.fd (contents_rsrc hs.file pos) hr hpos hbytes
  | done hdone => omega

/-- The read of a data fork that is sent as it is. -/
theorem readFork_plain {v : Volume} {m : MacFile} {f : MBFile} {pos : Nat}
    (hd : m.data.length ≤ maxFork) (hmode : f.mode &&& MB_DISABLE ≠ 0) (h : InPlain v m f pos)
    (size : Int) :
    ∃ rest', m.data.drop pos = (readFork v f size).1 ++ rest' ∧
      Ahead v m (readFork v f size).2 rest' ∧ (readFork v f size).1.length ≤ size.toNat := by
  by_cases hsize : 0 < size
  case neg =>
    rw [readFork_nothing v f hsize]
    exact ⟨_, rfl, Ahead.plain pos hmode h, Nat.zero_le _⟩
  rw [maxFork] at hd
  have hle := h.le
  generalize hgot : (m.data.drop pos).take size.toNat = got
  have hlen : got.length = min size.toNat (m.data.length - pos) := by
    rw [← hgot, List.length_take, List.length_drop]
  have hcount : long (f.bytes - got.length) = m.data.length - (pos + got.length : Nat) := by
    rw [h.bytes, long_eq (by omega) (by omega)]
    omega
  have hroom : got.length ≤ size.toNat := by
    rw [hlen]
    exact Nat.min_le_left _ _
  have hin : pos + got.length ≤ m.data.length := by omega
  rcases readFork_cases h.at_.fd hsize (by rw [contents_data h.file]; exact hgot) hcount with
    ⟨hfull, hmore, hread⟩ | ⟨hend, fd', bytes', hread⟩
  · -- all that was asked for was there
    rw [hread]
    refine ⟨m.data.drop (pos + got.length), ?_, Ahead.plain (pos + got.length) hmode
      ⟨h.file, ⟨h.at_.sector1, h.at_.fork, rfl⟩, hin, rfl, h.rlen⟩, hroom⟩
    have hfront : (m.data.drop pos).take got.length = got := by
      rw [hfull, hgot]
    calc m.data.drop pos = (m.data.drop pos).take got.length ++ (m.data.drop pos).drop got.length :=
          (List.take_append_drop _ _).symm
      _ = got ++ m.data.drop (pos + got.length) := by rw [hfront, List.drop_drop]
  · -- nothing is counted beyond the end, so there is nothing to fill
    have hall : pos + got.length = m.data.length := by omega
    have hrest : got = m.data.drop pos := by
      rw [← hgot]
      apply List.take_of_length_le
      rw [List.length_drop]
      omega
    have hnone : ((m.data.length : Int) - (pos + got.length : Nat)).toNat = 0 := by omega
    have hclosed : (closeFork v { f with fd := fd', bytes := bytes' }).fork = -1 := by
      have hzero : long (BLOCKS f.rlen * 128) = 0 := by
        rw [h.rlen]
        rfl
      simp only [closeFork, if_pos h.at_.fork, hzero, ne_eq, not_true_eq_false, if_false]
    rw [hread, hnone]
    refine ⟨[], ?_, Ahead.done hclosed, ?_⟩
    · rw [List.replicate_zero, List.append_nil, List.append_nil, hrest]
    · rw [List.replicate_zero, List.append_nil]
      exact hroom

theorem fresh_open {v : Volume} {m : MacFile} {f : MBFile} (h : Fresh v m f) : ¬ f.fork < 0 := by
  rw [h.fork]
  decide

/-- The first call, where the header goes before what is read. -/
theorem fresh_fits {v : Volume} {m : MacFile} {f : MBFile} (h : Fresh v m f)
    (hmode : f.mode &&& MB_DISABLE = 0) (size : Int) :
    CallFits v f size ↔ ForkFits v f (size - 128) := by
  have hopen := fresh_open h
  rw [CallFits, if_pos h.sector1]
  exact ⟨fun hall => hall hmode (by omega), fun hfit _ _ => hfit⟩

/-- A first call that has no room for the header stores nothing. -/
theorem fresh_short {v : Volume} {m : MacFile} {f : MBFile} (h : Fresh v m f)
    (hmode : f.mode &&& MB_DISABLE = 0) {size : Int} (hshort : size < 128) :
    Advances v m f (image f m) size := by
  have hfind : v.find (pstr f.name) = some m := h.file
  generalize hg : { f with header := sendHeader f.name m, dlen := long m.data.length
                           rlen := long m.rsrc.length } = g
  have hread : MBread v f size = (none, g) := by
    rw [MBread, if_neg (fresh_open h), if_pos h.sector1, hfind]
    dsimp only
    rw [if_pos hmode, if_pos hshort, hg]
  have hagain : Fresh v m g := by
    rw [← hg]
    exact ⟨h.file, h.sector1, h.fork, h.fd⟩
  have himage : image g m = image f m := by
    rw [← hg]
    simp only [image]
  have hfits : ForkFits v f (size - 128) := by
    intro fd hfd hpast
    -- a file that is just opened is at its start
    rw [h.fd, Option.some.injEq] at hfd
    rw [← hfd] at hpast
    dsimp only at hpast
    omega
  rw [Advances, hread, fresh_fits h hmode, ← himage]
  exact ⟨_, rfl, Ahead.fresh hagain, iff_of_true (Nat.zero_le _) hfits⟩

/-- The first call for a file that is sent in blocks. -/
theorem fresh_blocks {v : Volume} {m : MacFile} {f : MBFile} (hd : m.data.length ≤ maxFork)
    (hr : m.rsrc.length ≤ maxFork) (h : Fresh v m f) (hmode : f.mode &&& MB_DISABLE = 0)
    {size : Int} (hsize : 128 ≤ size) : Advances v m f (image f m) size := by
  have hstart : AtStart v f := ⟨h.sector1, h.fork, h.fd, hmode⟩
  have hin := inData_afterHeader hstart m
  have hleft : Left v m (afterHeader f m) (padded m.data ++ padded m.rsrc) := by
    have hl := Left.data (m := m) 0 hin (Nat.zero_le _)
      (by simp only [afterHeader, long_blocks hd]; omega)
    simpa using hl
  have hs := sending_afterHeader (f := f) h.file
  have hopen : ¬ (afterHeader f m).fork < 0 := @fresh_open v m f h
  obtain ⟨rest', hrest, hahead, hroom⟩ := readFork_advances hd hr (f := afterHeader f m) hmode
    hs rfl hleft hopen (size - 128)
  have hsame : ForkFits v (afterHeader f m) (size - 128) ↔ ForkFits v f (size - 128) := Iff.rfl
  rw [Advances, MBread_first hstart h.file hsize, image, if_pos hmode, fresh_fits h hmode,
    ← hsame, ← hroom, Option.getD_some]
  refine ⟨rest', ?_, hahead, ?_⟩
  · rw [stream, hrest, List.append_assoc]
  · rw [List.length_append, MBHead.length_toBytes]
    omega

/-- The first call for a file that is sent as it is. -/
theorem fresh_plain {v : Volume} {m : MacFile} {f : MBFile} (hd : m.data.length ≤ maxFork)
    (h : Fresh v m f) (hmode : f.mode &&& MB_DISABLE ≠ 0) (size : Int) :
    Advances v m f (image f m) size := by
  have hfind : v.find (pstr f.name) = some m := h.file
  generalize hf : { f with header := sendHeader f.name m, dlen := long m.data.length, rlen := 0
                           bytes := long m.data.length, binary := false
                           sector1 := false } = g
  have hread : MBread v f size = (some (readFork v g size).1, (readFork v g size).2) := by
    rw [MBread, if_neg (fresh_open h), if_pos h.sector1, hfind]
    dsimp only
    rw [if_neg hmode, hf]
  have hplain : InPlain v m g 0 := by
    rw [← hf]
    have hcount : long m.data.length = m.data.length := by
      rw [maxFork] at hd
      apply long_eq <;> omega
    refine ⟨h.file, ⟨rfl, h.fork, h.fd⟩, Nat.zero_le _, ?_, rfl⟩
    rw [hcount, Int.natCast_zero, Int.sub_zero]
  have hmode' : g.mode &&& MB_DISABLE ≠ 0 := by
    rw [← hf]
    exact hmode
  obtain ⟨rest', hrest, hahead, hroom⟩ := readFork_plain hd hmode' hplain size
  rw [Advances, hread, image, if_neg hmode]
  exact ⟨rest', hrest, hahead, iff_of_true hroom fun hon => absurd hon hmode⟩

/-- Every call stores the front of what lies ahead. -/
theorem MBread_advances {v : Volume} {m : MacFile} {f : MBFile} {rest : List UInt8}
    (hd : m.data.length ≤ maxFork) (hr : m.rsrc.length ≤ maxFork) (h : Ahead v m f rest)
    (size : Int) : Advances v m f rest size := by
  cases h with
  | fresh h =>
    by_cases hmode : f.mode &&& MB_DISABLE = 0
    · rcases Int.lt_or_le size 128 with hshort | hsize
      · exact fresh_short h hmode hshort
      · exact fresh_blocks hd hr h hmode hsize
    · exact fresh_plain hd h hmode size
  | sending _ hmode hs hs1 hl =>
    by_cases hopen : f.fork < 0
    · have hdone : f.fork = -1 ∧ rest = [] := by
        cases hl with
        | data pos hin => exact absurd hopen (by rw [hin.fork]; decide)
        | rsrc pos hin => exact absurd hopen (by rw [hin.fork]; decide)
        | done hdone => exact ⟨hdone, rfl⟩
      rw [hdone.2]
      exact done_advances hdone.1 size
    · obtain ⟨rest', hrest, hahead, hroom⟩ := readFork_advances hd hr hmode hs hs1 hl hopen size
      have hcall : CallFits v f size ↔ ForkFits v f size := by
        have hlater : ¬ f.sector1 = true := by
          rw [hs1]
          exact Bool.false_ne_true
        rw [CallFits, if_neg hlater]
        exact ⟨fun hall => hall hmode (by omega), fun hfit _ _ => hfit⟩
      rw [Advances, MBread_later hs1 hopen, hcall]
      exact ⟨rest', hrest, hahead, hroom⟩
  | plain pos hmode hin =>
    have hopen : ¬ f.fork < 0 := by
      rw [hin.at_.fork]
      decide
    obtain ⟨rest', hrest, hahead, hroom⟩ := readFork_plain hd hmode hin size
    rw [Advances, MBread_later hin.at_.sector1 hopen]
    exact ⟨rest', hrest, hahead, iff_of_true hroom fun hon => absurd hon hmode⟩
  | done hdone => exact done_advances hdone size

/-- Nothing lies ahead of a file that is read out. -/
theorem ahead_nil {v : Volume} {m : MacFile} {f : MBFile} {rest : List UInt8}
    (h : Ahead v m f rest) (hclosed : f.fork < 0) : rest = [] := by
  cases h with
  | fresh h => exact absurd hclosed (by rw [h.fork]; decide)
  | sending _ _ _ _ hl =>
    cases hl with
    | data pos hin => exact absurd hclosed (by rw [hin.fork]; decide)
    | rsrc pos hin => exact absurd hclosed (by rw [hin.fork]; decide)
    | done => rfl
  | plain pos _ hin => exact absurd hclosed (by rw [hin.at_.fork]; decide)
  | done => rfl

/-- The calls store the front of what lies ahead, and they keep to their sizes exactly where all
of them fit. -/
theorem MBreads_ahead {v : Volume} {m : MacFile} (hd : m.data.length ≤ maxFork)
    (hr : m.rsrc.length ≤ maxFork) {sizes : List Int} (hlong : ∀ size ∈ sizes, size < 2147483648)
    {f : MBFile} {rest : List UInt8} (h : Ahead v m f rest) :
    (∃ rest', rest = (MBreads v f sizes).1 ++ rest' ∧ Ahead v m (MBreads v f sizes).2 rest') ∧
      (Respects v f sizes ↔ AllFit v f sizes) := by
  induction sizes generalizing f rest with
  | nil => exact ⟨⟨rest, rfl, h⟩, Iff.rfl⟩
  | cons size sizes ih =>
    obtain ⟨rest₁, hrest₁, h₁, hroom⟩ := MBread_advances hd hr h size
    obtain ⟨⟨rest₂, hrest₂, h₂⟩, hlater⟩ :=
      ih (fun later hmem => hlong later (List.mem_cons_of_mem _ hmem)) h₁
    rw [MBreads, Respects, AllFit, kept_iff (hlong size List.mem_cons_self)]
    refine ⟨⟨rest₂, ?_, h₂⟩, and_congr hroom hlater⟩
    rw [hrest₁, hrest₂, List.append_assoc]

/-- A file that is there, opened to be read in either mode. -/
theorem MBopen_fresh {h : Host} {block f : MBFile} {v v' : Volume} {file : List UInt8} {mode : Nat}
    {m : MacFile} (hm : v.find (macName h file) = some m) (happend : mode &&& MB_APPEND = 0)
    (hopen : MBopen h block v file mode = some (v', f)) : v' = v ∧ Fresh v m f := by
  have hle := length_macName h file
  have hfd := Volume.open_of_file (v := v) hm .data
  rw [MBopen] at hopen
  simp only [hfd, if_neg (not_not_intro happend), Option.some.injEq, Prod.mk.injEq] at hopen
  obtain ⟨hv, hf⟩ := hopen
  have hpstr : pstr f.name = macName h file := by
    rw [← hf]
    exact pstr_stored block.name hle
  refine ⟨hv.symm, by rw [hpstr]; exact hm, by rw [← hf], by rw [← hf], ?_⟩
  rw [hpstr, ← hf]

/-- In calls of any sizes for a file whose forks are counted right, every call keeps to its buffer
and the results are the image of the file exactly where each call that goes past the end of a fork
goes to the end of its last block. -/
theorem MBreads_respects {h : Host} {block f : MBFile} {v v' : Volume} {file : List UInt8}
    {mode : Nat} {m : MacFile} (hm : v.find (macName h file) = some m)
    (happend : mode &&& MB_APPEND = 0) (hopen : MBopen h block v file mode = some (v', f))
    (hd : m.data.length ≤ maxFork) (hr : m.rsrc.length ≤ maxFork) {sizes : List Int}
    (hlong : ∀ size ∈ sizes, size < 2147483648) :
    Respects v' f sizes ∧ SendsImage v' m f sizes ↔ AllFit v' f sizes := by
  obtain ⟨rfl, hfresh⟩ := MBopen_fresh hm happend hopen
  obtain ⟨⟨rest, hrest, hahead⟩, hfit⟩ := MBreads_ahead hd hr hlong (Ahead.fresh hfresh)
  rw [hfit]
  apply and_iff_left
  constructor
  · exact ⟨rest, hrest.symm⟩
  · intro hclosed
    rw [hrest, ahead_nil hahead hclosed, List.append_nil]

/-- The file `A`, just opened to be read. -/
def openedToRead (m : MacFile) : MBFile :=
  { newBlock m with name := [1, 65], fd := some { key := [65], fork := .data, pos := 0 }
                    sector1 := true }

theorem fresh_openedToRead (m : MacFile) : Fresh (volumeOf m) m (openedToRead m) :=
  ⟨rfl, rfl, rfl, rfl⟩

theorem opened_openedToRead (m : MacFile) :
    MBopen plainHost (newBlock m) (volumeOf m) [65] MB_READ = some (volumeOf m, openedToRead m) :=
  rfl

/-- A first call for the header alone. -/
theorem MBread_header (m : MacFile) :
    (MBread (volumeOf m) (openedToRead m) 128).2 = afterHeader (openedToRead m) m := by
  have hmode : MB_READ &&& MB_DISABLE = 0 := by decide
  have hstart : AtStart (volumeOf m) (openedToRead m) := ⟨rfl, rfl, rfl, hmode⟩
  rw [MBread_first hstart rfl (Int.le_refl 128), readFork_nothing _ _ (by decide)]

/-- A file with one byte of data, read into a buffer that holds its only block. -/
theorem one_byte_fits :
    Respects (volumeOf (fileOf [7] [])) (openedToRead (fileOf [7] [])) [128, 128] ∧
      SendsImage (volumeOf (fileOf [7] [])) (fileOf [7] []) (openedToRead (fileOf [7] []))
        [128, 128] := by
  have hfit : AllFit (volumeOf (fileOf [7] [])) (openedToRead (fileOf [7] [])) [128, 128] := by
    rw [AllFit, AllFit, MBread_header]
    refine ⟨?_, ?_, trivial⟩
    · intro _ _ fd hfd hpast
      rw [(fresh_openedToRead _).fd, Option.some.injEq] at hfd
      rw [← hfd] at hpast
      exact absurd hpast (by decide)
    · intro _ _ fd hfd _
      have hsame : some { key := [65], fork := Fork.data, pos := 0 } = some fd := hfd
      rw [Option.some.injEq] at hsame
      rw [← hsame]
      decide
  exact (MBreads_respects (m := fileOf [7] []) rfl (by decide) (opened_openedToRead _) (by decide)
    (by decide) (by decide)).mpr hfit

/-- What the server stores a file to. -/
def BUFFERS : Int := 8000

/-- A data fork that ends just before the server's buffer does: 8064 bytes are stored to 8000. -/
theorem padding_over_the_end :
    MBopen plainHost (newBlock (fileOf (List.replicate 7871 0) []))
        (volumeOf (fileOf (List.replicate 7871 0) [])) [65] MB_READ
      = some (volumeOf (fileOf (List.replicate 7871 0) []),
          openedToRead (fileOf (List.replicate 7871 0) [])) ∧
    ¬ Respects (volumeOf (fileOf (List.replicate 7871 0) []))
        (openedToRead (fileOf (List.replicate 7871 0) [])) [BUFFERS] := by
  generalize hm : fileOf (List.replicate 7871 0) [] = m
  have hdata : m.data.length = 7871 := by rw [← hm, fileOf, List.length_replicate]
  have hrsrc : m.rsrc.length = 0 := by rw [← hm, fileOf, List.length_nil]
  refine ⟨opened_openedToRead m, ?_⟩
  have hlong : ∀ size ∈ [BUFFERS], size < 2147483648 := by decide
  have hfits := (MBreads_ahead (by rw [hdata]; decide) (by rw [hrsrc]; decide) hlong
    (Ahead.fresh (fresh_openedToRead m))).2
  rw [hfits, AllFit]
  rintro ⟨hfit, -⟩
  have hmode : MB_READ &&& MB_DISABLE = 0 := by decide
  have hpast : ((volumeOf m).contents { key := [65], fork := .data, pos := 0 }).length
      < 0 + (BUFFERS - 128).toNat := by
    rw [contents_data rfl, hdata]
    decide
  have hblock : sectors ((volumeOf m).contents { key := [65], fork := .data, pos := 0 }).length
      ≤ 0 + (BUFFERS - 128).toNat := hfit hmode (Int.le_refl 0) _ rfl hpast
  rw [contents_data rfl, hdata] at hblock
  exact absurd hblock (by decide)

end MacBinary
