import MacSSH.MacBinaryTrip

/-!
# Uploads that do not begin with a header

`MBwrite` looks for a header in every chunk until it finds one: `sector1` is only cleared by
`ProcessMBHead`.
-/

namespace MacBinary

open MacVolume ByteFile

/-- The bytes begin with 128 that `isMacBinary` accepts. -/
def HeaderLike (h : Host) (bs : List UInt8) : Prop :=
  128 ≤ bs.length ∧ (isMacBinary h (MBHead.ofBytes bs)).1 = true

theorem chars_front {n off : Nat} {bs : List UInt8} (rest : List UInt8)
    (h : off + n ≤ bs.length) : MBHead.chars n off (bs ++ rest) = MBHead.chars n off bs := by
  rw [MBHead.chars, MBHead.chars]
  congr 1
  ext i
  rw [List.getD_append _ _ _ _ (by omega)]

/-- What is in the header does not depend on what is behind it. -/
theorem ofBytes_front {bs : List UInt8} (rest : List UInt8) (h : 128 ≤ bs.length) :
    MBHead.ofBytes (bs ++ rest) = MBHead.ofBytes bs := by
  have hget : ∀ i < 128, (bs ++ rest).getD i 0 = bs.getD i 0 := by
    intro i hi
    exact List.getD_append _ _ _ _ (by omega)
  simp (disch := omega) only [MBHead.ofBytes, chars_front, hget]

theorem headerLike_append {h : Host} {bs : List UInt8} (rest : List UInt8)
    (hlike : HeaderLike h bs) : HeaderLike h (bs ++ rest) := by
  obtain ⟨hlen, haccept⟩ := hlike
  constructor
  · rw [List.length_append]
    omega
  · rw [ofBytes_front rest hlen]
    exact haccept

/-- `s` is in the data fork of the file `m`, over what was there, and nothing else has changed of
`m` or of `out₀`, which it was opened as on the volume `v₀`. -/
structure Storing (v₀ : Volume) (m : MacFile) (out₀ : MBFile) (s : List UInt8) (v : Volume)
    (out : MBFile) : Prop where
  fold : v.fold = v₀.fold
  file : v.files (v₀.fold (pstr out₀.name)) = some { m with data := s ++ m.data.drop s.length }
  out : out = { out₀ with fd := some { key := v₀.fold (pstr out₀.name), fork := .data
                                       pos := s.length } }

/-- A file just opened to be stored, where headers are looked for. -/
structure Stored (out : MBFile) : Prop where
  sector1 : out.sector1 = true
  binary : out.binary = false
  fork : out.fork = 0
  disable : out.mode &&& MB_DISABLE = 0
  write : out.mode &&& MB_WRITE ≠ 0

theorem storing_bwrite {v₀ v : Volume} {m : MacFile} {out₀ out : MBFile}
    {s : List UInt8} (h₀ : Stored out₀) (hs : Storing v₀ m out₀ s v out)
    (buffer : List UInt8) :
    Storing v₀ m out₀ (s ++ buffer) (bwrite v out buffer).2.1 (bwrite v out buffer).2.2 := by
  obtain ⟨hfold, hfile, rfl⟩ := hs
  have hplain : ¬ out₀.binary = true := by
    rw [h₀.binary]
    exact Bool.false_ne_true
  have hdata : overwrite (s ++ m.data.drop s.length) s.length buffer
      = (s ++ buffer) ++ m.data.drop (s ++ buffer).length := overwrite_at_mark s m.data buffer
  rw [bwrite, if_neg hplain]
  have hwritten := @Volume.write_open v ⟨v₀.fold (pstr out₀.name), .data, s.length⟩ _ hfile buffer
  simp only [hwritten]
  refine ⟨hfold, ?_, ?_⟩
  · rw [Volume.put_files_self, MacFile.withContents, MacFile.contents, hdata]
  · rw [List.length_append]

/-- A chunk that does not look like a header goes to the data fork. -/
theorem storing_MBwrite {h : Host} {v₀ v : Volume} {m : MacFile} {out₀ out : MBFile}
    {s : List UInt8} (h₀ : Stored out₀)
    (hs : Storing v₀ m out₀ s v out) {buffer : List UInt8} (hplain : ¬ HeaderLike h buffer) :
    Storing v₀ m out₀ (s ++ buffer) (MBwrite h v out buffer).2.1
      (MBwrite h v out buffer).2.2 := by
  have hwrite := storing_bwrite h₀ hs buffer
  rw [MBwrite]
  by_cases hsize : (buffer.length : Int) < 1
  · have hnil : buffer = [] := List.length_eq_zero_iff.mp (by omega)
    rw [if_pos hsize, hnil, List.append_nil]
    exact hs
  rw [if_neg hsize]
  by_cases hlook : out.sector1 = true ∧ buffer.length ≥ 128 ∧ out.mode &&& MB_DISABLE = 0
  · have hreject : ¬ (isMacBinary h (MBHead.ofBytes buffer)).1 = true := by
      intro haccept
      exact hplain ⟨hlook.2.1, haccept⟩
    rw [if_pos hlook, if_neg hreject]
    exact hwrite
  · rw [if_neg hlook]
    exact hwrite

theorem storing_MBwrites {h : Host} {v₀ v : Volume} {m : MacFile} {out₀ out : MBFile}
    (h₀ : Stored out₀) (buffers : List (List UInt8)) {s : List UInt8}
    (hs : Storing v₀ m out₀ s v out) (hplain : ∀ b ∈ buffers, ¬ HeaderLike h b) :
    Storing v₀ m out₀ (s ++ buffers.flatten) (MBwrites h v out buffers).1
      (MBwrites h v out buffers).2 := by
  induction buffers generalizing s v out with
  | nil =>
    rw [MBwrites, List.flatten_nil, List.append_nil]
    exact hs
  | cons buffer buffers ih =>
    rw [MBwrites, List.flatten_cons, ← List.append_assoc]
    apply ih
    · exact storing_MBwrite h₀ hs (hplain buffer List.mem_cons_self)
    · intro b hb
      exact hplain b (List.mem_cons_of_mem _ hb)

theorem binary_endFork (v : Volume) (out : MBFile) (error : Int) (rest : List UInt8) :
    (endFork v out error rest).2.2.binary = out.binary := by
  rw [endFork]
  dsimp only
  split_ifs <;> rfl

theorem binary_bwrite (v : Volume) (out : MBFile) (buffer : List UInt8) :
    (bwrite v out buffer).2.2.binary = out.binary := by
  rw [bwrite]
  by_cases hb : out.binary = true
  swap
  · rw [if_neg hb]
  rw [if_pos hb]
  by_cases hdue : out.bytes > 0
  swap
  · rw [if_neg hdue]
    apply binary_endFork
  rw [if_pos hdue]
  dsimp only
  generalize (if out.bytes < (buffer.length : Int) then out.bytes.toNat else buffer.length) = len
  split_ifs
  · apply binary_endFork
  · rfl

theorem binary_ProcessMBHead (v : Volume) (out : MBFile) (header : MBHead) :
    (ProcessMBHead v out header).2.binary = true := by
  rw [ProcessMBHead]
  dsimp only
  split_ifs <;> rfl

theorem binary_writeRest (v : Volume) (out : MBFile) (rest : List UInt8) (rsize : Int) :
    (writeRest v out rest rsize).2.2.binary = out.binary := by
  rw [writeRest]
  apply binary_bwrite

/-- A chunk that is looked at and looks like a header is taken for one. -/
theorem header_MBwrite {h : Host} (v : Volume) {out : MBFile} {buffer : List UInt8}
    (hs1 : out.sector1 = true) (hdisable : out.mode &&& MB_DISABLE = 0)
    (hlike : HeaderLike h buffer) : (MBwrite h v out buffer).2.2.binary = true := by
  have hsize : ¬ (buffer.length : Int) < 1 := by
    have := hlike.1
    omega
  have hbegun := binary_ProcessMBHead v out (isMacBinary h (MBHead.ofBytes buffer)).2
  rw [MBwrite, if_neg hsize, if_pos ⟨hs1, hlike.1, hdisable⟩, if_pos hlike.2]
  generalize ProcessMBHead v out (isMacBinary h (MBHead.ofBytes buffer)).2 = begun at hbegun ⊢
  by_cases hall : buffer.length - 128 < 1
  · rw [if_pos hall]
    exact hbegun
  · rw [if_neg hall, binary_writeRest]
    exact hbegun

/-- A file once taken for MacBinary stays it. -/
theorem binary_MBwrite (h : Host) (v : Volume) {out : MBFile} (hb : out.binary = true)
    (buffer : List UInt8) : (MBwrite h v out buffer).2.2.binary = true := by
  by_cases hlook : out.sector1 = true ∧ buffer.length ≥ 128 ∧ out.mode &&& MB_DISABLE = 0
  · by_cases haccept : (isMacBinary h (MBHead.ofBytes buffer)).1 = true
    · exact header_MBwrite v hlook.1 hlook.2.2 ⟨hlook.2.1, haccept⟩
    · have hsize : ¬ (buffer.length : Int) < 1 := by omega
      rw [MBwrite, if_neg hsize, if_pos hlook, if_neg haccept, binary_writeRest]
      exact hb
  · rw [MBwrite, if_neg hlook]
    by_cases hsize : (buffer.length : Int) < 1
    · rw [if_pos hsize]
      exact hb
    · rw [if_neg hsize, binary_writeRest]
      exact hb

theorem binary_MBwrites (h : Host) (buffers : List (List UInt8)) {v : Volume} {out : MBFile}
    (hb : out.binary = true) : (MBwrites h v out buffers).2.binary = true := by
  induction buffers generalizing v out with
  | nil => exact hb
  | cons buffer buffers ih => exact ih (binary_MBwrite h v hb buffer)

/-- Any chunk that looks like a header makes the file a MacBinary one. -/
theorem header_MBwrites {h : Host} {v₀ v : Volume} {m : MacFile} {out₀ out : MBFile}
    (h₀ : Stored out₀) (buffers : List (List UInt8)) {s : List UInt8}
    (hs : Storing v₀ m out₀ s v out) (hsome : ∃ b ∈ buffers, HeaderLike h b) :
    (MBwrites h v out buffers).2.binary = true := by
  induction buffers generalizing s v out with
  | nil =>
    obtain ⟨b, hb, -⟩ := hsome
    exact absurd hb List.not_mem_nil
  | cons buffer buffers ih =>
    rw [MBwrites]
    by_cases hlike : HeaderLike h buffer
    · apply binary_MBwrites
      apply header_MBwrite v ?_ ?_ hlike
      · rw [hs.out]
        exact h₀.sector1
      · rw [hs.out]
        exact h₀.disable
    · apply ih (storing_MBwrite h₀ hs hlike)
      obtain ⟨b, hb, hblike⟩ := hsome
      rcases List.mem_cons.mp hb with rfl | hb
      · exact absurd hblike hlike
      · exact ⟨b, hb, hblike⟩

/-- A file opened to be stored, new or not. -/
theorem MBopen_stored {h : Host} {block out : MBFile} {w w' : Volume} {up : List UInt8}
    {mode : Nat} (hdisable : mode &&& MB_DISABLE = 0) (hwrite : mode &&& MB_WRITE ≠ 0)
    (happend : mode &&& MB_APPEND = 0) (hopen : MBopen h block w up mode = some (w', out)) :
    Stored out ∧ out.dlen = block.dlen ∧
      ∃ m, w'.files (w'.fold (pstr out.name)) = some m ∧ Storing w' m out [] w' out := by
  have hpstr := pstr_stored block.name (length_macName h up)
  rw [MBopen] at hopen
  dsimp only at hopen
  generalize overwrite block.name 0 (UInt8.ofNat (macName h up).length :: macName h up) = name
    at hpstr hopen
  rw [← hpstr] at hopen
  -- the file is found in both cases, in the second one as it was just made
  have hopened : ∀ (v : Volume) (m : MacFile), v.files (v.fold (pstr name)) = some m →
      some (v, { block with
        name := name, mode := mode
        fd := some { key := v.fold (pstr name), fork := .data, pos := 0 }
        binary := false, sector1 := true, fork := 0 }) = some (w', out) →
      Stored out ∧ out.dlen = block.dlen ∧
        ∃ m, w'.files (w'.fold (pstr out.name)) = some m ∧ Storing w' m out [] w' out := by
    intro v m hfile heq
    rw [Option.some.injEq, Prod.mk.injEq] at heq
    obtain ⟨rfl, rfl⟩ := heq
    refine ⟨⟨rfl, rfl, rfl, hdisable, hwrite⟩, rfl, m, hfile, rfl, ?_, rfl⟩
    rw [List.nil_append, List.length_nil, List.drop_zero]
    exact hfile
  cases hfile : w.files (w.fold (pstr name)) with
  | some m =>
    simp only [Volume.open_of_file hfile, if_neg (not_not_intro happend)] at hopen
    exact hopened w m hfile hopen
  | none =>
    have hnot : w.HOpen (pstr name) .data = none := by
      rw [Volume.HOpen, Volume.find, hfile]
    have hfind : w.find (pstr name) = none := hfile
    simp only [hnot, if_pos hwrite, Volume.HCreate, hfind,
      Volume.open_of_file (Volume.put_files_self _ _ _), if_neg (not_not_intro happend)] at hopen
    exact hopened _ _ (Volume.put_files_self _ _ _) hopen

/-- Closing such a file moves the end of its data fork to what `dlen` holds. -/
theorem storing_MBclose {v₀ v : Volume} {m : MacFile} {out₀ out : MBFile} {s : List UInt8}
    (h₀ : Stored out₀) (hs : Storing v₀ m out₀ s v out) {n : Nat} (hdlen : out₀.dlen = n) :
    ∃ m', (MBclose v out).files (v₀.fold (pstr out₀.name)) = some m' ∧
      m'.data = resize v.fill (s ++ m.data.drop s.length) n := by
  obtain ⟨hfold, hfile, rfl⟩ := hs
  have hmode : out₀.mode &&& MB_DISABLE = 0 ∧ out₀.mode &&& MB_WRITE ≠ 0 := ⟨h₀.disable, h₀.write⟩
  generalize hkey : v₀.fold (pstr out₀.name) = key at hfile ⊢
  rw [← hfold] at hkey
  have hcut := @Volume.setEOF_open v ⟨key, .data, s.length⟩ _ hfile n
  rw [MBclose]
  simp only [if_pos hmode, if_neg (not_not_intro h₀.fork), hdlen, hcut]
  have hfind : ∀ m', (v.put key m').find (pstr out₀.name) = m' := by
    intro m'
    rw [Volume.find, Volume.put_fold, hkey, Volume.put_files_self]
  simp only [hfind, Volume.put_fold, hkey]
  exact ⟨_, Volume.put_files_self _ _ _, rfl⟩

/-- No chunk was taken for a header, and `s` was written to the data fork of the file `m`: nothing
else of the file has changed. -/
def WroteStream (key : List UInt8) (m : MacFile) (s : List UInt8) (v : Volume) (out : MBFile) :
    Prop :=
  out.binary = false ∧ v.files key = some { m with data := s ++ m.data.drop s.length }

/-- No chunk was taken for a header, and the data fork of the closed file is `s`. -/
def ClosedWith (key s : List UInt8) (v : Volume) (out : MBFile) : Prop :=
  out.binary = false ∧ ∃ m, (MBclose v out).files key = some m ∧ m.data = s

/-- Of a stream that does not begin with a header, the calls of `MBwrite` write all to the data
fork exactly when no chunk behind the first looks like a header. `MBclose` then cuts the fork to
nothing, since `dlen` is only set from a header. -/
theorem upload_without_header {h : Host} {block out : MBFile} {w w' : Volume} {up : List UInt8}
    {mode : Nat} (hdisable : mode &&& MB_DISABLE = 0) (hwrite : mode &&& MB_WRITE ≠ 0)
    (happend : mode &&& MB_APPEND = 0) (hclear : block.dlen = 0)
    (hopen : MBopen h block w up mode = some (w', out)) (buffers : List (List UInt8))
    (hfirst : ¬ HeaderLike h buffers.flatten) :
    ∃ m, w'.files (w'.fold (pstr out.name)) = some m ∧
      (WroteStream (w'.fold (pstr out.name)) m buffers.flatten (MBwrites h w' out buffers).1
          (MBwrites h w' out buffers).2 ↔ ∀ b ∈ buffers.tail, ¬ HeaderLike h b) ∧
      (ClosedWith (w'.fold (pstr out.name)) buffers.flatten (MBwrites h w' out buffers).1
          (MBwrites h w' out buffers).2 ↔ buffers.flatten = []) := by
  obtain ⟨h₀, hdlen, m, hm, hs⟩ := MBopen_stored hdisable hwrite happend hopen
  have hzero : out.dlen = (0 : Nat) := hdlen.trans hclear
  have htaken := header_MBwrites (h := h) h₀ buffers hs
  have hplain := storing_MBwrites (h := h) h₀ buffers hs
  rw [List.nil_append] at hplain
  -- a chunk that looks like a header sets `binary` for good
  have hnothing (hbinary : (MBwrites h w' out buffers).2.binary = false) :
      ∀ b ∈ buffers, ¬ HeaderLike h b := by
    intro b hb hlike
    have hyes := htaken ⟨b, hb, hlike⟩
    rw [hbinary] at hyes
    exact Bool.false_ne_true hyes
  refine ⟨m, hm, ?_, ?_⟩
  · constructor
    · rintro ⟨hbinary, -⟩ b hb
      exact hnothing hbinary b (List.mem_of_mem_tail hb)
    · intro hlater
      have hall : ∀ b ∈ buffers, ¬ HeaderLike h b := by
        cases buffers with
        | nil => exact fun b hb => absurd hb List.not_mem_nil
        | cons first buffers =>
          intro b hb hlike
          rcases List.mem_cons.mp hb with rfl | hb
          · -- the header at the start of the first chunk is at the start of the stream
            exact hfirst (headerLike_append buffers.flatten hlike)
          · exact hlater b hb hlike
      have hend := hplain hall
      constructor
      · rw [hend.out]
        exact h₀.binary
      · exact hend.file
  · constructor
    · rintro ⟨hbinary, m', hm', hdata⟩
      obtain ⟨m'', hm'', hcut⟩ := storing_MBclose h₀ (hplain (hnothing hbinary)) hzero
      rw [hm', Option.some.injEq] at hm''
      rw [← hm'', hdata] at hcut
      calc buffers.flatten = _ := hcut
        _ = [] := by rw [resize_of_le _ (Nat.zero_le _), List.take_zero]
    · intro hnone
      have hall : ∀ b ∈ buffers, ¬ HeaderLike h b := by
        intro b hb hlike
        rw [List.flatten_eq_nil_iff.mp hnone b hb] at hlike
        exact absurd hlike.1 (by decide)
      have hend := hplain hall
      obtain ⟨m', hm', hcut⟩ := storing_MBclose h₀ hend hzero
      refine ⟨?_, m', hm', ?_⟩
      · rw [hend.out]
        exact h₀.binary
      · rw [hcut, resize_of_le _ (Nat.zero_le _), List.take_zero, hnone]

/-- The file `A` made on an empty volume, and opened to be stored. -/
def volumeWithA : Volume :=
  emptyVolume.HCreate [65] plainHost.BinaryCreator plainHost.BinaryType

def openedToStore : MBFile :=
  { newBlock (fileOf [] []) with name := [1, 65], mode := MB_WRITE, sector1 := true
                                 fd := some { key := [65], fork := .data, pos := 0 } }

theorem opened_openedToStore : MBopen plainHost (newBlock (fileOf [] [])) emptyVolume [65] MB_WRITE
    = some (volumeWithA, openedToStore) := rfl

theorem three_bytes_written :
    ∃ m, volumeWithA.files [65] = some m ∧
      WroteStream [65] m [1, 2, 3] (MBwrites plainHost volumeWithA openedToStore [[1, 2], [3]]).1
        (MBwrites plainHost volumeWithA openedToStore [[1, 2], [3]]).2 := by
  have hshort : ¬ HeaderLike plainHost [[1, 2], [3]].flatten := by
    intro hlike
    exact absurd hlike.1 (by decide)
  obtain ⟨m, hm, hwrote, -⟩ := upload_without_header (by decide) (by decide) (by decide) rfl
    opened_openedToStore [[1, 2], [3]] hshort
  refine ⟨m, hm, hwrote.mpr ?_⟩
  intro b hb hlike
  rw [List.mem_singleton.mp hb] at hlike
  exact absurd hlike.1 (by decide)

/-- The header of a file that is sent with the name `B`. -/
def headerB : MBHead := sendHeader [1, 66] (fileOf [] [])

theorem openReceived_files (v : Volume) (out : MBFile) (fork : Fork) {key : List UInt8}
    (hne : key ≠ v.fold (pstr out.name)) :
    (openReceived v out fork).1.files key = v.files key := by
  rw [openReceived]
  cases v.HOpen (pstr out.name) fork with
  | some fd => rfl
  | none =>
    dsimp only
    rw [Volume.HCreate]
    cases v.find (pstr out.name) with
    | some m => rfl
    | none => exact Volume.put_files_of_ne _ _ hne

/-- A header with another name takes the file away that it came for. -/
theorem ProcessMBHead_deletes {v : Volume} {out : MBFile} {p : MBHead}
    (hne : v.fold (pstr out.name) ≠ v.fold (pstr (takeHeader out p).name)) :
    (ProcessMBHead v out p).1.files (v.fold (pstr out.name)) = none := by
  have hgone : (v.HDelete (pstr out.name)).files (v.fold (pstr out.name)) = none :=
    Volume.put_files_self _ _ _
  have hfiles := fun fork => openReceived_files (v.HDelete (pstr out.name)) (takeHeader out p) fork
    hne
  rw [ProcessMBHead]
  by_cases hdata : (takeHeader out p).bytes ≠ 0
  · simp only [if_pos hdata]
    rw [hfiles, hgone]
  · simp only [if_neg hdata]
    rw [hfiles, hgone]

/-- A chunk that is a header with another name does so wherever it comes. -/
theorem MBwrite_deletes {h : Host} {v : Volume} {out : MBFile} {buffer : List UInt8}
    (hs1 : out.sector1 = true) (hdisable : out.mode &&& MB_DISABLE = 0)
    (hlike : HeaderLike h buffer) (hlen : buffer.length = 128) {p : MBHead}
    (hp : MBHead.ofBytes buffer = p) {nm : List UInt8}
    (hname : pstr (overwrite out.name 0 (p.nlen :: p.name.toList.take 31)) = nm)
    (hne : v.fold (pstr out.name) ≠ v.fold nm) :
    (MBwrite h v out buffer).2.1.files (v.fold (pstr out.name)) = none := by
  have hsize : ¬ (buffer.length : Int) < 1 := by omega
  have hall : buffer.length - 128 < 1 := by omega
  obtain ⟨c, hc⟩ := isMacBinary_header h p
  have htaken : v.fold (pstr out.name)
      ≠ v.fold (pstr (takeHeader out { p with flags2 := c }).name) := by
    have hsame : (takeHeader out { p with flags2 := c }).name
        = overwrite out.name 0 (p.nlen :: p.name.toList.take 31) := by rw [takeHeader]
    rw [hsame, hname]
    exact hne
  have hstep : (MBwrite h v out buffer).2 = ProcessMBHead v out { p with flags2 := c } := by
    rw [MBwrite, if_neg hsize, if_pos ⟨hs1, hlike.1, hdisable⟩, if_pos hlike.2, if_pos hall, hp, hc]
  rw [hstep]
  exact ProcessMBHead_deletes htaken

/-- So does one behind chunks that were stored. -/
theorem storing_deletes {h : Host} {v₀ v : Volume} {m : MacFile} {out₀ out : MBFile}
    {s buffer : List UInt8} (h₀ : Stored out₀) (hs : Storing v₀ m out₀ s v out)
    (hlike : HeaderLike h buffer) (hlen : buffer.length = 128) {p : MBHead}
    (hp : MBHead.ofBytes buffer = p) {nm : List UInt8}
    (hname : pstr (overwrite out₀.name 0 (p.nlen :: p.name.toList.take 31)) = nm)
    (hne : v₀.fold (pstr out₀.name) ≠ v₀.fold nm) :
    (MBwrites h v out [buffer]).1.files (v₀.fold (pstr out₀.name)) = none := by
  obtain ⟨hfold, -, rfl⟩ := hs
  rw [← hfold] at hne ⊢
  exact MBwrite_deletes h₀.sector1 h₀.disable hlike hlen hp hname hne

theorem headerB_headerLike : HeaderLike plainHost headerB.toBytes ∧
    MBHead.ofBytes headerB.toBytes = headerB := by
  have hp : MBHead.ofBytes headerB.toBytes = headerB := by
    have hof := MBHead.ofBytes_toBytes headerB []
    rwa [List.append_nil] at hof
  rw [HeaderLike, MBHead.length_toBytes, hp]
  exact ⟨⟨Nat.le_refl 128, accepts_sent plainHost (fileOf [] []) (by decide) (by decide)⟩, rfl⟩

/-- Nothing that begins with zeros looks like a header. -/
theorem zeros_not_headerLike (h : Host) (rest : List UInt8) :
    ¬ HeaderLike h (List.replicate 6000 0 ++ rest) := by
  rintro ⟨-, haccept⟩
  have hnlen : (MBHead.ofBytes (List.replicate 6000 0 ++ rest)).nlen = 0 := by
    rw [MBHead.ofBytes, List.getD_append _ _ _ _ (by rw [List.length_replicate]; decide)]
    exact @List.getD_replicate UInt8 0 0 1 6000 (by decide)
  have hreject : ¬ h.char (MBHead.ofBytes (List.replicate 6000 0 ++ rest)).nlen > 0 := by
    rw [hnlen, char_of_lt h (by decide)]
    decide
  rw [isMacBinary, if_neg fun hall => hreject hall.1] at haccept
  exact Bool.false_ne_true haccept

/-- A chunk of zeros, and a second chunk that looks like a header: the file is deleted. -/
theorem later_chunk_deletes :
    MBopen plainHost (newBlock (fileOf [] [])) emptyVolume [65] MB_WRITE
      = some (volumeWithA, openedToStore) ∧
    ¬ HeaderLike plainHost [List.replicate 6000 0, headerB.toBytes].flatten ∧
    (MBwrites plainHost volumeWithA openedToStore
      [List.replicate 6000 0, headerB.toBytes]).1.files [65] = none := by
  obtain ⟨h₀, -, m, -, hs₀⟩ := MBopen_stored (by decide) (by decide) (by decide)
    opened_openedToStore
  have hzeros : ¬ HeaderLike plainHost (List.replicate 6000 0) := by
    have hnone := zeros_not_headerLike plainHost []
    rwa [List.append_nil] at hnone
  have hs₁ := storing_MBwrite h₀ hs₀ hzeros
  refine ⟨opened_openedToStore, ?_, ?_⟩
  · rw [List.flatten_cons]
    exact zeros_not_headerLike plainHost _
  · rw [MBwrites]
    have hname : pstr (overwrite openedToStore.name 0
        (headerB.nlen :: headerB.name.toList.take 31)) = pstr [1, 66] :=
      pstr_received (fileOf [] []) openedToStore.name (by decide) (by decide)
    have hkey : volumeWithA.fold (pstr openedToStore.name) = [65] := rfl
    have hne : volumeWithA.fold (pstr openedToStore.name) ≠ volumeWithA.fold (pstr [1, 66]) := by
      decide
    have hgone := storing_deletes h₀ hs₁ headerB_headerLike.1 (MBHead.length_toBytes headerB)
      headerB_headerLike.2 hname hne
    rw [hkey] at hgone
    exact hgone

end MacBinary
