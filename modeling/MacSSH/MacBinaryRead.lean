import MacSSH.MacBinaryHead

/-!
# The bytes that `MBread` sends

Whatever the sizes it is called with, `MBread` sends the header and then each fork, filled to
whole blocks, and it comes to an end.
-/

namespace MacBinary

open MacVolume

/-- A fork as it is sent. -/
def padded (bs : List UInt8) : List UInt8 :=
  bs ++ List.replicate (sectors bs.length - bs.length) 0

@[simp] theorem length_padded (bs : List UInt8) : (padded bs).length = sectors bs.length := by
  have h := le_sectors bs.length
  rw [padded, List.length_append, List.length_replicate]
  omega

theorem take_padded (bs : List UInt8) : (padded bs).take bs.length = bs := by
  rw [padded, List.take_left]

/-- All that is sent for a file. -/
def stream (name : List UInt8) (m : MacFile) : List UInt8 :=
  (sendHeader name m).toBytes ++ (padded m.data ++ padded m.rsrc)

/-- What a read of an open fork does: it gets all it asks for and the fork stays open, or the
fork is closed. -/
theorem readFork_cases {v : Volume} {f : MBFile} {fd : Fd} {size : Int} (hfd : f.fd = some fd)
    (hsize : 0 < size) {got : List UInt8}
    (hgot : ((v.contents fd).drop fd.pos).take size.toNat = got)
    {bytes : Int} (hbytes : long (f.bytes - got.length) = bytes) :
    (got.length = size.toNat ∧ 0 < bytes ∧
      readFork v f size
        = (got, { f with fd := some { fd with pos := fd.pos + got.length }, bytes := bytes })) ∨
    ((got.length < size.toNat ∨ bytes ≤ 0) ∧
      ∃ fd' bytes', readFork v f size
        = (got ++ List.replicate bytes.toNat 0,
            closeFork v { f with fd := fd', bytes := bytes' })) := by
  have hlen : got.length ≤ size.toNat := by
    rw [← hgot]
    exact List.length_take_le _ _
  have herr : ((if got.length < size.toNat then eofErr else noErr) = eofErr)
      ↔ got.length < size.toNat := by
    by_cases h : got.length < size.toNat
    · simp [h]
    · simp [h, noErr, eofErr]
  rw [readFork, if_pos hsize, hfd, Volume.read_open]
  simp only [hgot, hbytes, herr]
  by_cases hend : got.length < size.toNat ∨ bytes ≤ 0
  · right
    refine ⟨hend, some { fd with pos := fd.pos + got.length }, if bytes < 0 then 0 else bytes, ?_⟩
    have hzero : (if bytes < 0 then 0 else bytes).toNat = bytes.toNat := by
      by_cases h : bytes < 0
      · rw [if_pos h]
        omega
      · rw [if_neg h]
    rw [if_pos hend, hzero]
  · left
    refine ⟨by omega, by omega, ?_⟩
    rw [if_neg hend]

/-- A read that asks for nothing. -/
theorem readFork_nothing (v : Volume) (f : MBFile) {size : Int} (h : ¬ 0 < size) :
    readFork v f size = ([], f) := by
  rw [readFork, if_neg h]

/-- The file `m` is on the volume under the name of `f`. -/
structure Sending (v : Volume) (m : MacFile) (f : MBFile) : Prop where
  file : v.files (v.fold (pstr f.name)) = some m
  rlen : f.sector1 = false → f.rlen = long m.rsrc.length

/-- `f` is inside the data fork, at `pos`. -/
structure InData (v : Volume) (f : MBFile) (pos : Nat) : Prop where
  sector1 : f.sector1 = false
  fork : f.fork = 0
  fd : f.fd = some { key := v.fold (pstr f.name), fork := .data, pos := pos }

/-- `f` is inside the resource fork, at `pos`. -/
structure InRsrc (v : Volume) (f : MBFile) (pos : Nat) : Prop where
  sector1 : f.sector1 = false
  fork : f.fork = 1
  fd : f.fd = some { key := v.fold (pstr f.name), fork := .rsrc, pos := pos }

/-- `f` is just opened. -/
structure AtStart (v : Volume) (f : MBFile) : Prop where
  sector1 : f.sector1 = true
  fork : f.fork = 0
  fd : f.fd = some { key := v.fold (pstr f.name), fork := .data, pos := 0 }
  mode : f.mode &&& MB_DISABLE = 0

/-- The data fork closed: the resource fork is opened at its start, unless it counts no bytes. -/
theorem closeFork_data {v : Volume} {m : MacFile} {f : MBFile}
    (hm : v.files (v.fold (pstr f.name)) = some m) (hr : f.rlen = long m.rsrc.length)
    (hfork : f.fork = 0) (hs : f.sector1 = false) :
    (closeFork v f).name = f.name ∧ (closeFork v f).rlen = f.rlen ∧
    (closeFork v f).sector1 = false ∧
    ((long (BLOCKS (long m.rsrc.length) * 128) ≠ 0 ∧ InRsrc v (closeFork v f) 0 ∧
        (closeFork v f).bytes = long (BLOCKS (long m.rsrc.length) * 128)) ∨
      (long (BLOCKS (long m.rsrc.length) * 128) = 0 ∧ (closeFork v f).fork = -1)) := by
  by_cases hzero : long (BLOCKS f.rlen * 128) = 0
  · have hclosed : closeFork v f
        = { f with fork := -1, bytes := long (BLOCKS f.rlen * 128), fd := none } := by
      simp only [closeFork, if_pos hfork, hzero, ne_eq, not_true_eq_false, if_false]
    rw [hclosed]
    rw [hr] at hzero
    exact ⟨rfl, rfl, hs, Or.inr ⟨hzero, rfl⟩⟩
  · have hclosed : closeFork v f = { f with fork := 1, bytes := long (BLOCKS f.rlen * 128)
                                            fd := v.HOpen (pstr f.name) .rsrc } := by
      simp only [closeFork, if_pos hfork, ne_eq, hzero, not_false_eq_true, if_true]
    rw [hclosed]
    refine ⟨rfl, rfl, hs, Or.inl ⟨by rwa [hr] at hzero, ⟨hs, rfl, ?_⟩, by rw [hr]⟩⟩
    exact Volume.open_of_file hm .rsrc

/-- The resource fork closed. -/
theorem closeFork_rsrc {v : Volume} {f : MBFile} (hfork : f.fork = 1) :
    closeFork v f = { f with fork := -1, fd := none } := by
  have hne : ¬ f.fork = 0 := by omega
  rw [closeFork, if_neg hne]

theorem contents_data {v : Volume} {key : List UInt8} {m : MacFile} (h : v.files key = some m)
    (pos : Nat) : v.contents { key := key, fork := .data, pos := pos } = m.data := by
  simp only [Volume.contents, h, MacFile.contents]

theorem contents_rsrc {v : Volume} {key : List UInt8} {m : MacFile} (h : v.files key = some m)
    (pos : Nat) : v.contents { key := key, fork := .rsrc, pos := pos } = m.rsrc := by
  simp only [Volume.contents, h, MacFile.contents]

/-- What `f` has still to send, for forks that the count of bytes is right for. -/
inductive Left (v : Volume) (m : MacFile) (f : MBFile) : List UInt8 → Prop
  | data (pos : Nat) : InData v f pos → pos ≤ m.data.length →
      f.bytes = sectors m.data.length - pos →
      Left v m f ((padded m.data).drop pos ++ padded m.rsrc)
  | rsrc (pos : Nat) : InRsrc v f pos → pos ≤ m.rsrc.length →
      f.bytes = sectors m.rsrc.length - pos → Left v m f ((padded m.rsrc).drop pos)
  | done : f.fork = -1 → Left v m f []

/-- A read of a fork whose count is right: either some of the contents, and the count goes down
with the mark, or all the rest with its filling, and the fork is closed. -/
theorem readFork_counted {v : Volume} {f : MBFile} {fd : Fd} {size : Int} {bs : List UInt8}
    (hfd : f.fd = some fd) (hbs : v.contents fd = bs) (hsmall : bs.length ≤ maxFork)
    (hpos : fd.pos ≤ bs.length) (hbytes : f.bytes = sectors bs.length - fd.pos)
    (hsize : 0 < size) :
    (∃ k, k = size.toNat ∧ fd.pos + k ≤ bs.length ∧ fd.pos + k < sectors bs.length ∧
      readFork v f size
        = ((bs.drop fd.pos).take k, { f with fd := some { fd with pos := fd.pos + k }
                                             bytes := sectors bs.length - (fd.pos + k : Nat) })) ∨
    ((bs.length < fd.pos + size.toNat ∨ sectors bs.length ≤ fd.pos + size.toNat) ∧
      ∃ fd' bytes', readFork v f size
        = ((padded bs).drop fd.pos, closeFork v { f with fd := fd', bytes := bytes' })) := by
  have hle := le_sectors bs.length
  have hmax : sectors bs.length ≤ maxFork := by
    rw [sectors, maxFork] at *
    omega
  rw [maxFork] at hmax
  generalize hgot : (bs.drop fd.pos).take size.toNat = got
  have hlen : got.length = min size.toNat (bs.length - fd.pos) := by
    rw [← hgot, List.length_take, List.length_drop]
  have hcount : long (f.bytes - got.length) = sectors bs.length - (fd.pos + got.length : Nat) := by
    rw [hbytes, long_eq (by omega) (by omega)]
    omega
  rcases readFork_cases hfd hsize (by rw [hbs]; exact hgot) hcount with
    ⟨hfull, hmore, hread⟩ | ⟨hend, fd', bytes', hread⟩
  · left
    refine ⟨got.length, hfull, by omega, by omega, ?_⟩
    rw [hread]
    have htake : (bs.drop fd.pos).take got.length = got := by
      rw [hfull, hgot]
    rw [htake]
  · right
    refine ⟨by omega, fd', bytes', ?_⟩
    -- the fork is read out, whichever of the two tests closed it
    have hall : fd.pos + got.length = bs.length := by omega
    have hrest : got = bs.drop fd.pos := by
      rw [← hgot]
      apply List.take_of_length_le
      rw [List.length_drop]
      omega
    rw [hread, hrest, padded, List.drop_append_of_le_length hpos]
    congr 3
    rw [← hrest]
    omega

/-- The fork after a counted data fork. -/
theorem left_after_data {v : Volume} {m : MacFile} {f : MBFile} (hs : Sending v m f)
    (hr : m.rsrc.length ≤ maxFork) (hfork : f.fork = 0) (hs1 : f.sector1 = false) :
    Sending v m (closeFork v f) ∧ (closeFork v f).sector1 = false ∧
      Left v m (closeFork v f) (padded m.rsrc) := by
  obtain ⟨hname, hrlen, hs1', hnext⟩ := closeFork_data hs.file (hs.rlen hs1) hfork hs1
  have hsend : Sending v m (closeFork v f) :=
    ⟨by rw [hname]; exact hs.file, fun _ => by rw [hrlen]; exact hs.rlen hs1⟩
  refine ⟨hsend, hs1', ?_⟩
  rw [long_blocks hr] at hnext
  rcases hnext with ⟨-, hin, hbytes⟩ | ⟨hzero, hdone⟩
  · have h := Left.rsrc (m := m) 0 hin (Nat.zero_le _) (by rw [hbytes]; omega)
    simpa using h
  · have hempty : padded m.rsrc = [] := by
      apply List.length_eq_zero_iff.mp
      rw [length_padded]
      omega
    rw [hempty]
    exact Left.done hdone

/-- One read sends the front of what is left. -/
theorem readFork_left {v : Volume} {m : MacFile} {f : MBFile} {rest : List UInt8}
    (hs : Sending v m f) (hd : m.data.length ≤ maxFork) (hr : m.rsrc.length ≤ maxFork)
    (hs1 : f.sector1 = false) (hl : Left v m f rest) (hopen : ¬ f.fork < 0) (size : Int) :
    ∃ rest', rest = (readFork v f size).1 ++ rest' ∧ Sending v m (readFork v f size).2 ∧
      (readFork v f size).2.sector1 = false ∧ Left v m (readFork v f size).2 rest' := by
  by_cases hsize : 0 < size
  case neg =>
    rw [readFork_nothing v f hsize]
    exact ⟨rest, rfl, hs, hs1, hl⟩
  cases hl with
  | data pos hin hpos hbytes =>
    rcases readFork_counted hin.fd (contents_data hs.file pos) hd hpos hbytes hsize with
      ⟨k, -, hk, -, hread⟩ | ⟨-, fd', bytes', hread⟩
    · rw [hread]
      refine ⟨(padded m.data).drop (pos + k) ++ padded m.rsrc, ?_, ⟨hs.file, hs.rlen⟩, hs1,
        Left.data (pos + k) ⟨hs1, hin.fork, rfl⟩ hk rfl⟩
      rw [← List.append_assoc, padded, List.drop_append_of_le_length hpos,
        List.drop_append_of_le_length hk, ← List.append_assoc, ← List.drop_drop,
        List.take_append_drop]
    · rw [hread]
      obtain ⟨hsend, hs1', hleft⟩ := left_after_data (f := { f with fd := fd', bytes := bytes' })
        ⟨hs.file, hs.rlen⟩ hr hin.fork hs1
      exact ⟨padded m.rsrc, rfl, hsend, hs1', hleft⟩
  | rsrc pos hin hpos hbytes =>
    rcases readFork_counted hin.fd (contents_rsrc hs.file pos) hr hpos hbytes hsize with
      ⟨k, -, hk, -, hread⟩ | ⟨-, fd', bytes', hread⟩
    · rw [hread]
      refine ⟨(padded m.rsrc).drop (pos + k), ?_, ⟨hs.file, hs.rlen⟩, hs1,
        Left.rsrc (pos + k) ⟨hs1, hin.fork, rfl⟩ hk rfl⟩
      rw [padded, List.drop_append_of_le_length hpos, List.drop_append_of_le_length hk,
        ← List.append_assoc, ← List.drop_drop, List.take_append_drop]
    · rw [hread, closeFork_rsrc (f := { f with fd := fd', bytes := bytes' }) hin.fork]
      exact ⟨[], (List.append_nil _).symm, ⟨hs.file, hs.rlen⟩, hs1, Left.done rfl⟩
  | done hdone => omega

/-- A call of `MBread` after the first. -/
theorem MBread_later {v : Volume} {f : MBFile} (hs1 : f.sector1 = false) (hopen : ¬ f.fork < 0)
    (size : Int) : MBread v f size = (some (readFork v f size).1, (readFork v f size).2) := by
  have hnot : ¬ f.sector1 = true := by
    rw [hs1]
    exact Bool.false_ne_true
  rw [MBread, if_neg hopen, if_neg hnot]

theorem MBread_done {v : Volume} {f : MBFile} (h : f.fork < 0) (size : Int) :
    MBread v f size = (none, f) := by
  rw [MBread, if_pos h]

/-- Calls of `MBread` after the first send the front of what is left. -/
theorem MBreads_left {v : Volume} {m : MacFile} (hd : m.data.length ≤ maxFork)
    (hr : m.rsrc.length ≤ maxFork) (sizes : List Int) {f : MBFile} {rest : List UInt8}
    (hs : Sending v m f) (hs1 : f.sector1 = false) (hl : Left v m f rest) :
    ∃ rest', rest = (MBreads v f sizes).1 ++ rest' ∧ Left v m (MBreads v f sizes).2 rest' := by
  induction sizes generalizing f rest with
  | nil => exact ⟨rest, rfl, hl⟩
  | cons size sizes ih =>
    rw [MBreads]
    by_cases hopen : f.fork < 0
    · rw [MBread_done hopen]
      exact ih hs hs1 hl
    · rw [MBread_later hs1 hopen]
      obtain ⟨rest₁, hrest, hs', hs1', hl'⟩ := readFork_left hs hd hr hs1 hl hopen size
      obtain ⟨rest₂, hrest', hl''⟩ := ih hs' hs1' hl'
      refine ⟨rest₂, ?_, hl''⟩
      rw [hrest, hrest']
      exact (List.append_assoc _ _ _).symm

/-- The file once its header is sent. -/
def afterHeader (f : MBFile) (m : MacFile) : MBFile :=
  { f with
    header := sendHeader f.name m, dlen := long m.data.length, rlen := long m.rsrc.length
    bytes := long (BLOCKS (long m.data.length) * 128), binary := true, sector1 := false }

/-- The first call of `MBread`. -/
theorem MBread_first {v : Volume} {m : MacFile} {f : MBFile} (h : AtStart v f)
    (hm : v.files (v.fold (pstr f.name)) = some m) {size : Int} (hsize : 128 ≤ size) :
    MBread v f size
      = (some ((sendHeader f.name m).toBytes ++ (readFork v (afterHeader f m) (size - 128)).1),
          (readFork v (afterHeader f m) (size - 128)).2) := by
  have hopen : ¬ f.fork < 0 := by
    rw [h.fork]
    decide
  have hshort : ¬ size < 128 := by omega
  have hfind : v.find (pstr f.name) = some m := hm
  rw [MBread, if_neg hopen, if_pos h.sector1, hfind]
  simp only [h.mode, if_true, if_neg hshort]
  rfl

theorem sending_afterHeader {v : Volume} {m : MacFile} {f : MBFile}
    (hm : v.files (v.fold (pstr f.name)) = some m) : Sending v m (afterHeader f m) := by
  constructor
  · exact hm
  · intro _
    simp only [afterHeader]

theorem inData_afterHeader {v : Volume} {f : MBFile} (h : AtStart v f) (m : MacFile) :
    InData v (afterHeader f m) 0 :=
  ⟨rfl, h.fork, h.fd⟩

/-- Whatever the sizes of the calls, what is sent by the time the file is read out is the stream of
the file. -/
theorem MBreads_stream {v : Volume} {m : MacFile} {f : MBFile} (h : AtStart v f)
    (hm : v.files (v.fold (pstr f.name)) = some m) (hd : m.data.length ≤ maxFork)
    (hr : m.rsrc.length ≤ maxFork) {size : Int} (hsize : 128 ≤ size) (sizes : List Int)
    (hdone : (MBreads v f (size :: sizes)).2.fork < 0) :
    (MBreads v f (size :: sizes)).1 = stream f.name m := by
  have hin := inData_afterHeader h m
  have hleft : Left v m (afterHeader f m) (padded m.data ++ padded m.rsrc) := by
    have hl := Left.data (m := m) 0 hin (Nat.zero_le _)
      (by simp only [afterHeader, long_blocks hd]; omega)
    simpa using hl
  obtain ⟨rest₁, hrest₁, hs, hs1, hl₁⟩ := readFork_left (sending_afterHeader hm) hd hr rfl hleft
    (by rw [hin.fork]; decide) (size - 128)
  obtain ⟨rest₂, hrest₂, hl₂⟩ := MBreads_left hd hr sizes hs hs1 hl₁
  rw [MBreads, MBread_first h hm hsize] at hdone ⊢
  have hnil : rest₂ = [] := by
    cases hl₂ with
    | data pos hin => exact absurd hdone (by rw [hin.fork]; decide)
    | rsrc pos hin => exact absurd hdone (by rw [hin.fork]; decide)
    | done => rfl
  rw [hnil, List.append_nil] at hrest₂
  rw [stream, hrest₁, hrest₂]
  simp only [Option.getD_some, List.append_assoc]

/-- A bound on the number of calls that it takes to read `f` out. -/
inductive Unread (v : Volume) (m : MacFile) (f : MBFile) : Nat → Prop
  | data (pos : Nat) : InData v f pos → Unread v m f (m.data.length - pos + (m.rsrc.length + 2))
  | rsrc (pos : Nat) : InRsrc v f pos → Unread v m f (m.rsrc.length - pos + 1)
  | done : f.fork = -1 → Unread v m f 0

/-- A call that asks for something comes nearer to the end. -/
theorem readFork_unread {v : Volume} {m : MacFile} {f : MBFile} {n : Nat} (hs : Sending v m f)
    (hs1 : f.sector1 = false) (hu : Unread v m f n) (hopen : ¬ f.fork < 0) {size : Int}
    (hsize : 0 < size) :
    ∃ n', n' < n ∧ Sending v m (readFork v f size).2 ∧ (readFork v f size).2.sector1 = false ∧
      Unread v m (readFork v f size).2 n' := by
  cases hu with
  | data pos hin =>
    rcases readFork_cases hin.fd hsize rfl rfl with ⟨hfull, -, hread⟩ | ⟨-, fd', bytes', hread⟩
    · rw [contents_data hs.file, List.length_take, List.length_drop] at hfull
      rw [hread]
      refine ⟨_, ?_, ⟨hs.file, hs.rlen⟩, hs1, Unread.data _ ⟨hs1, hin.fork, rfl⟩⟩
      rw [contents_data hs.file, List.length_take, List.length_drop]
      simp only at hfull ⊢
      omega
    · rw [hread]
      obtain ⟨hname, hrlen, hs1', hnext⟩ :=
        closeFork_data (f := { f with fd := fd', bytes := bytes' }) hs.file (hs.rlen hs1) hin.fork
          hs1
      have hsend : Sending v m (closeFork v { f with fd := fd', bytes := bytes' }) :=
        ⟨by rw [hname]; exact hs.file, fun _ => by rw [hrlen]; exact hs.rlen hs1⟩
      rcases hnext with ⟨-, hin', -⟩ | ⟨-, hdone⟩
      · exact ⟨_, by omega, hsend, hs1', Unread.rsrc 0 hin'⟩
      · exact ⟨0, by omega, hsend, hs1', Unread.done hdone⟩
  | rsrc pos hin =>
    rcases readFork_cases hin.fd hsize rfl rfl with ⟨hfull, -, hread⟩ | ⟨-, fd', bytes', hread⟩
    · rw [contents_rsrc hs.file, List.length_take, List.length_drop] at hfull
      rw [hread]
      refine ⟨_, ?_, ⟨hs.file, hs.rlen⟩, hs1, Unread.rsrc _ ⟨hs1, hin.fork, rfl⟩⟩
      rw [contents_rsrc hs.file, List.length_take, List.length_drop]
      simp only at hfull ⊢
      omega
    · rw [hread, closeFork_rsrc (f := { f with fd := fd', bytes := bytes' }) hin.fork]
      exact ⟨0, by omega, ⟨hs.file, hs.rlen⟩, hs1, Unread.done rfl⟩
  | done hdone => omega

/-- Enough calls that ask for something read the file out. -/
theorem MBreads_finish {v : Volume} {m : MacFile} (sizes : List Int) {f : MBFile} {n : Nat}
    (hs : Sending v m f) (hs1 : f.sector1 = false) (hu : Unread v m f n)
    (hn : n ≤ sizes.countP (0 < ·)) : (MBreads v f sizes).2.fork = -1 := by
  have hend : ∀ {f : MBFile}, Unread v m f 0 → f.fork = -1 := by
    intro f hu
    generalize hz : 0 = z at hu
    cases hu with
    | data => omega
    | rsrc => omega
    | done hdone => exact hdone
  induction sizes generalizing f n with
  | nil =>
    have hzero : n = 0 := by simpa using hn
    rw [hzero] at hu
    exact hend hu
  | cons size sizes ih =>
    rw [MBreads]
    by_cases hopen : f.fork < 0
    · rw [MBread_done hopen]
      have hdone : Unread v m f 0 := by
        cases hu with
        | data pos hin => exact absurd hopen (by rw [hin.fork]; decide)
        | rsrc pos hin => exact absurd hopen (by rw [hin.fork]; decide)
        | done hdone => exact Unread.done hdone
      exact ih hs hs1 hdone (Nat.zero_le _)
    · rw [MBread_later hs1 hopen]
      by_cases hsize : 0 < size
      · obtain ⟨n', hlt, hs', hs1', hu'⟩ := readFork_unread hs hs1 hu hopen hsize
        rw [List.countP_cons_of_pos (by simpa using hsize)] at hn
        exact ih hs' hs1' hu' (by omega)
      · rw [readFork_nothing v f hsize]
        rw [List.countP_cons_of_neg (by simpa using hsize)] at hn
        exact ih hs hs1 hu hn

/-- `MBread` comes to the end of every file: a bounded number of calls that ask for something
reads it out, whatever their sizes. -/
theorem MBreads_first_finish {v : Volume} {m : MacFile} {f : MBFile} (h : AtStart v f)
    (hm : v.files (v.fold (pstr f.name)) = some m) {size : Int} (hsize : 128 ≤ size)
    (sizes : List Int)
    (hn : m.data.length + m.rsrc.length + 2 ≤ sizes.countP (0 < ·)) :
    (MBreads v f (size :: sizes)).2.fork < 0 := by
  have hin := inData_afterHeader h m
  have hs := sending_afterHeader (f := f) hm
  have hu := Unread.data (m := m) 0 hin
  rw [MBreads, MBread_first h hm hsize]
  have hone : (MBreads v (readFork v (afterHeader f m) (size - 128)).2 sizes).2.fork = -1 := by
    by_cases hmore : 0 < size - 128
    · obtain ⟨n', hlt, hs', hs1', hu'⟩ := readFork_unread hs rfl hu (by rw [hin.fork]; decide) hmore
      exact MBreads_finish sizes hs' hs1' hu' (by omega)
    · rw [readFork_nothing _ _ hmore]
      exact MBreads_finish sizes hs rfl hu (by omega)
  simp only [hone]
  decide

end MacBinary
