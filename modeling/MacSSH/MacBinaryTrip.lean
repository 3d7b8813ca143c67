import MacSSH.MacBinaryWrite

/-!
# The round trip

A file is sent with `MBread` and received with `MBwrite`, in calls of any sizes on both sides.
-/

namespace MacBinary

open MacVolume ByteFile

theorem pstr_stored (old : List UInt8) {s : List UInt8} (h : s.length ≤ 31) :
    pstr (overwrite old 0 (UInt8.ofNat s.length :: s)) = s := by
  have hlen : (UInt8.ofNat s.length).toNat = s.length := by
    rw [UInt8.toNat_ofNat']
    omega
  rw [pstr_overwrite old (by omega), hlen, List.take_length]

theorem headD_stored (old : List UInt8) {s : List UInt8} (h : s.length ≤ 31) :
    ((overwrite old 0 (UInt8.ofNat s.length :: s)).headD 0).toNat = s.length := by
  rw [overwrite, List.take_zero, List.nil_append, List.cons_append, List.headD_cons,
    UInt8.toNat_ofNat']
  omega

theorem length_stored (old : List UInt8) (c : UInt8) (s : List UInt8) :
    s.length < (overwrite old 0 (c :: s)).length := by
  simp only [overwrite, List.length_append, List.length_cons]
  omega

/-- A file that is there, opened to be sent. -/
theorem MBopen_read {h : Host} {block f : MBFile} {v v' : Volume} {file : List UInt8} {mode : Nat}
    {m : MacFile} (hm : v.find (macName h file) = some m) (hdisable : mode &&& MB_DISABLE = 0)
    (happend : mode &&& MB_APPEND = 0) (hopen : MBopen h block v file mode = some (v', f)) :
    v' = v ∧ AtStart v f ∧ pstr f.name = macName h file ∧
      (f.name.headD 0).toNat = (macName h file).length ∧
      (macName h file).length < f.name.length := by
  have hle := length_macName h file
  have hfd := Volume.open_of_file (v := v) hm .data
  rw [MBopen] at hopen
  simp only [hfd, if_neg (not_not_intro happend), Option.some.injEq, Prod.mk.injEq] at hopen
  obtain ⟨hv, hf⟩ := hopen
  have hname : f.name
      = overwrite block.name 0 (UInt8.ofNat (macName h file).length :: macName h file) := by
    rw [← hf]
  have hpstr : pstr f.name = macName h file := by
    rw [hname, pstr_stored block.name hle]
  refine ⟨hv.symm, ⟨by rw [← hf], by rw [← hf], ?_, ?_⟩, hpstr, ?_, ?_⟩
  · rw [hpstr, ← hf]
  · rw [← hf]
    exact hdisable
  · rw [hname, headD_stored block.name hle]
  · rw [hname]
    exact length_stored _ _ _

/-- A file opened to be received: other files are not touched. -/
theorem MBopen_write {h : Host} {block : MBFile} {w : Volume} {up : List UInt8} {mode : Nat}
    (hwrite : mode &&& MB_WRITE ≠ 0) :
    ∃ w' out, MBopen h block w up mode = some (w', out) ∧ out.sector1 = true ∧ out.mode = mode ∧
      pstr out.name = macName h up ∧ w'.fold = w.fold ∧ w'.fill = w.fill ∧
      (∀ key, key ≠ w.fold (macName h up) → w'.files key = w.files key) ∧ w'.now = w.now := by
  have hpstr := pstr_stored block.name (length_macName h up)
  rw [MBopen]
  cases hfile : w.files (w.fold (macName h up)) with
  | some m =>
    rw [Volume.open_of_file hfile]
    exact ⟨_, _, rfl, rfl, rfl, hpstr, rfl, rfl, fun _ _ => rfl, rfl⟩
  | none =>
    have hnot : w.HOpen (macName h up) .data = none := by
      rw [Volume.HOpen, Volume.find, hfile]
    have hfind : w.find (macName h up) = none := hfile
    simp only [hnot, if_pos hwrite, Volume.HCreate, hfind]
    rw [Volume.open_of_file (Volume.put_files_self _ _ _)]
    exact ⟨_, _, rfl, rfl, rfl, hpstr, rfl, rfl, fun key hkey => Volume.put_files_of_ne _ _ hkey,
      rfl⟩

/-- The bytes of a file, as calls of `MBread` on it give them: the first call asks for at least a
header, and the last one finds that the file is read out. -/
def Sends (h : Host) (v : Volume) (file sent : List UInt8) : Prop :=
  ∃ block mode v' f size sizes, mode &&& MB_DISABLE = 0 ∧ mode &&& MB_APPEND = 0 ∧
    MBopen h block v file mode = some (v', f) ∧ (128 : Int) ≤ size ∧
    (MBreads v' f (size :: sizes)).2.fork < 0 ∧ (MBreads v' f (size :: sizes)).1 = sent

/-- The volume after the bytes are received under the name `up`, in calls of `MBwrite` of which
the first has at least a header. -/
def Receives (h : Host) (w : Volume) (up sent : List UInt8) (w' : Volume) : Prop :=
  ∃ block mode w₁ out buffer buffers, mode &&& MB_DISABLE = 0 ∧ mode &&& MB_WRITE ≠ 0 ∧
    MBopen h block w up mode = some (w₁, out) ∧ 128 ≤ buffer.length ∧
    (buffer :: buffers).flatten = sent ∧
    w' = MBclose (MBwrites h w₁ out (buffer :: buffers)).1
      (MBwrites h w₁ out (buffer :: buffers)).2

/-- What a fork of the file under the name `nm` holds when the file `up` is gone. -/
def stale (w : Volume) (up nm : List UInt8) (fork : Fork) : List UInt8 :=
  if w.fold nm = w.fold up then [] else w.contents { key := w.fold nm, fork := fork, pos := 0 }

theorem contents_deleted {w w₁ : Volume} {up nm : List UInt8} (hfold : w₁.fold = w.fold)
    (hfiles : ∀ key, key ≠ w.fold up → w₁.files key = w.files key) (fork : Fork) :
    (w₁.HDelete up).contents { key := w.fold nm, fork := fork, pos := 0 } = stale w up nm fork := by
  by_cases hsame : w.fold nm = w.fold up
  · rw [stale, if_pos hsame, Volume.contents, Volume.HDelete, hfold, hsame,
      Volume.put_files_self]
  · rw [stale, if_neg hsame, Volume.contents, Volume.HDelete, hfold,
      Volume.put_files_of_ne _ _ hsame, hfiles _ hsame, Volume.contents]

/-- A first call of `MBwrite` that starts with a header. -/
theorem MBwrite_header {h : Host} {v : Volume} {out : MBFile} {p : MBHead} {rest : List UInt8}
    (hs1 : out.sector1 = true) (hdisable : out.mode &&& MB_DISABLE = 0)
    (haccept : (isMacBinary h p).1 = true)
    (hlen : (p.toBytes ++ rest).length = 128 + rest.length) :
    MBwrite h v out (p.toBytes ++ rest)
      = if (p.toBytes ++ rest).length - 128 < 1 then
          (((p.toBytes ++ rest).length : Int), ProcessMBHead v out (isMacBinary h p).2)
        else writeRest (ProcessMBHead v out (isMacBinary h p).2).1
          (ProcessMBHead v out (isMacBinary h p).2).2 ((p.toBytes ++ rest).drop 128)
          (p.toBytes ++ rest).length := by
  have hsize : ¬ ((p.toBytes ++ rest).length : Int) < 1 := by omega
  have hhead : out.sector1 = true ∧ (p.toBytes ++ rest).length ≥ 128 ∧
      out.mode &&& MB_DISABLE = 0 := ⟨hs1, by omega, hdisable⟩
  rw [MBwrite, if_neg hsize, if_pos hhead, MBHead.ofBytes_toBytes, if_pos haccept]

/-- What follows the header in the first call is written like a later call. -/
theorem writeRest_header {h : Host} {begun : Volume × MBFile} (hbegun : begun.2.sector1 = false)
    {head rest : List UInt8} (hhead : head.length = 128) :
    (if (head ++ rest).length - 128 < 1 then (((head ++ rest).length : Int), begun)
      else writeRest begun.1 begun.2 ((head ++ rest).drop 128) (head ++ rest).length).2
      = (MBwrite h begun.1 begun.2 rest).2 := by
  have hdrop : (head ++ rest).drop 128 = rest := by
    rw [← hhead, List.drop_left]
  have hlen : (head ++ rest).length = 128 + rest.length := by
    rw [List.length_append, hhead]
  by_cases hne : 0 < rest.length
  · have hmore : ¬ (head ++ rest).length - 128 < 1 := by omega
    rw [if_neg hmore, MBwrite_later h _ hbegun hne, hdrop, writeRest]
  · have hnil : rest = [] := List.length_eq_zero_iff.mp (by omega)
    have hless : (head ++ rest).length - 128 < 1 := by omega
    rw [if_pos hless, hnil, MBwrite_empty]

/-- The first call of `MBwrite` takes the header off, and goes on with the rest. -/
theorem MBwrites_first {h : Host} {v : Volume} {out : MBFile} {p : MBHead}
    (hs1 : out.sector1 = true) (hdisable : out.mode &&& MB_DISABLE = 0)
    (haccept : (isMacBinary h p).1 = true)
    (hbegun : (ProcessMBHead v out (isMacBinary h p).2).2.sector1 = false)
    (rest : List UInt8) (buffers : List (List UInt8)) :
    MBwrites h v out ((p.toBytes ++ rest) :: buffers)
      = MBwrites h (ProcessMBHead v out (isMacBinary h p).2).1
          (ProcessMBHead v out (isMacBinary h p).2).2 (rest :: buffers) := by
  have hstep : (MBwrite h v out (p.toBytes ++ rest)).2
      = (MBwrite h (ProcessMBHead v out (isMacBinary h p).2).1
          (ProcessMBHead v out (isMacBinary h p).2).2 rest).2 := by
    rw [MBwrite_header hs1 hdisable haccept
      (by rw [List.length_append, MBHead.length_toBytes]),
      writeRest_header hbegun (MBHead.length_toBytes p)]
  simp only [MBwrites, hstep]

/-- The receiver once it has the header of `m`, sent under the name `nm`. -/
structure Begun (w : Volume) (up nm : List UInt8) (d r : Nat) (v : Volume) (out : MBFile) :
    Prop where
  receiving : Receiving w.fill (w.fold nm) d r v out
  opened : (long (BLOCKS d * 128) ≠ 0 ∧ out.fork = 0 ∧
      out.fd = some { key := w.fold nm, fork := .data, pos := 0 } ∧
      out.bytes = long (BLOCKS d * 128)) ∨
    (long (BLOCKS d * 128) = 0 ∧ out.fork = 1 ∧
      out.fd = some { key := w.fold nm, fork := .rsrc, pos := 0 } ∧
      out.bytes = long (BLOCKS r * 128))
  holds : Holds v (w.fold nm) (stale w up nm .data) (stale w up nm .rsrc)

/-- Receiving what starts with the header that `MBread` makes. -/
theorem receive_begun (h : Host) (block : MBFile) (w : Volume) (up : List UInt8)
    {name : List UInt8} {mode : Nat} {m : MacFile} (hdisable : mode &&& MB_DISABLE = 0)
    (hwrite : mode &&& MB_WRITE ≠ 0) (hpos : 0 < (name.headD 0).toNat)
    (hle : (name.headD 0).toNat ≤ 31) (hfull : (name.headD 0).toNat < name.length)
    (hd : m.data.length < 2147483648) (hr : m.rsrc.length < 2147483648) :
    ∃ w₁ out v₂ out₂, MBopen h block w up mode = some (w₁, out) ∧
      Begun w (macName h up) (pstr name) m.data.length m.rsrc.length v₂ out₂ ∧
      ∀ rest buffers, MBwrites h w₁ out (((sendHeader name m).toBytes ++ rest) :: buffers)
        = MBwrites h v₂ out₂ (rest :: buffers) := by
  obtain ⟨w₁, out, hopen, hs1, hmode, hup, hfold, hfill, hfiles, -⟩ := MBopen_write (h := h)
    (w := w) hwrite
  rw [← hmode] at hdisable hwrite
  obtain ⟨c, hc⟩ := isMacBinary_header h (sendHeader name m)
  have haccept := accepts_sent h m hpos hle
  have hdlen : longOf (sendHeader name m).dflen = m.data.length :=
    (longOf_longBytes _).trans (long_eq (by omega) (by omega))
  have hrlen : longOf (sendHeader name m).rflen = m.rsrc.length :=
    (longOf_longBytes _).trans (long_eq (by omega) (by omega))
  obtain ⟨v₂, out₂, hproc, hrec, hcases, hholds⟩ := ProcessMBHead_receiving (v := w₁)
    (p := { sendHeader name m with flags2 := c }) hdisable hwrite
    (pstr_received m out.name hle hfull) hdlen hrlen
  rw [hup, hfold, contents_deleted hfold hfiles, contents_deleted hfold hfiles] at hholds
  rw [hfold] at hcases
  rw [hfold, hfill] at hrec
  refine ⟨w₁, out, v₂, out₂, hopen, ⟨hrec, hcases, hholds⟩, ?_⟩
  intro rest buffers
  have hbegun : ProcessMBHead w₁ out (isMacBinary h (sendHeader name m)).2 = (v₂, out₂) := by
    rw [hc, hproc]
  rw [MBwrites_first hs1 hdisable haccept (by rw [hbegun]; exact hrec.sector1), hbegun]

/-- Nothing has come behind the header yet. -/
theorem written_nil {w : Volume} {up nm : List UInt8} {d r : Nat} {v : Volume} {out : MBFile}
    (hd : d ≤ maxFork) (hr : r ≤ maxFork) (hb : Begun w up nm d r v out) :
    Written (w.fold nm) (stale w up nm .data) (stale w up nm .rsrc) d r v out [] := by
  have hblocks : ∀ n : Nat, n ≤ maxFork → long (BLOCKS n * 128) = sectors n := by
    intro n hn
    rw [← long_blocks hn, long_eq (i := (n : Int)) (by omega) (by rw [maxFork] at hn; omega)]
  have hopened := hb.opened
  rw [hblocks d hd, hblocks r hr] at hopened
  rcases hopened with ⟨hne, hfork, hfd, hbytes⟩ | ⟨hzero, hfork, hfd, hbytes⟩
  · refine .data ⟨?_, hfork, hfd, ?_, hb.holds⟩
    · rw [List.length_nil]
      omega
    · rw [hbytes, List.length_nil]
      omega
  · have hd0 : d = 0 := by
      have hle := le_sectors d
      omega
    have hdata : receivedData d (stale w up nm .data) [] = stale w up nm .data := if_pos hd0
    have hdz : sectors d = 0 := by omega
    by_cases hr0 : r = 0
    · refine .ended 0 (stale w up nm .rsrc) (by omega) ?_ hfork hfd (by omega) ?_ ?_
      · rw [hdz, hr0]
        rfl
      · rw [hr0, List.take_zero, List.take_zero]
      · rw [hdata]
        exact hb.holds
    · have hpos := sectors_pos (Nat.pos_of_ne_zero hr0)
      refine .rsrc (by rw [hdz]; omega) ?_ hfork ?_ ?_ (by omega) ?_
      · rw [List.length_nil]
        omega
      · rw [hfd, List.length_nil, hdz]
      · rw [hbytes, List.length_nil]
        omega
      · rw [hdata, List.drop_nil, List.nil_append, List.length_nil, List.drop_zero]
        exact hb.holds

/-- The forks after `MBclose`, when all of a file has come. -/
theorem MBclose_written {fill : Nat → UInt8} {key D R : List UInt8} {m : MacFile} {v : Volume}
    {out : MBFile} (hrec : Receiving fill key m.data.length m.rsrc.length v out)
    (hw : Written key D R m.data.length m.rsrc.length v out (padded m.data ++ padded m.rsrc)) :
    Holds (MBclose v out) key (if m.data.length = 0 then D else m.data)
      (if m.rsrc.length = 0 ∧ 0 < m.data.length then R else m.rsrc) := by
  have hlen : (padded m.data ++ padded m.rsrc).length
      = sectors m.data.length + sectors m.rsrc.length := by
    rw [List.length_append, length_padded, length_padded]
  have hle := le_sectors m.data.length
  have hdata : receivedData m.data.length D (padded m.data ++ padded m.rsrc)
      = if m.data.length = 0 then D else m.data := by
    rw [receivedData, List.take_append_of_le_length (by rw [length_padded]; exact hle),
      take_padded]
  have hdrop : (padded m.data ++ padded m.rsrc).drop (sectors m.data.length) = padded m.rsrc := by
    rw [← length_padded m.data, List.drop_left]
  cases hw with
  | data hw =>
    have hshort := hw.short
    omega
  | rsrc hge hlt => omega
  | ended pos rsrc hsome hall hfork hfd hfit htake hh =>
    have hclose := MBclose_rsrc hrec hfork hfd hh
    rw [resize_of_le fill hfit, htake, hdrop, take_padded, hdata] at hclose
    rw [if_neg hsome]
    exact hclose
  | closed hzero hpos hall hfork hfd hh =>
    rw [hdata] at hh
    rw [MBclose_none v hfd, if_pos (And.intro hzero hpos)]
    exact hh

/-- The name that a file is sent under. -/
structure SentName (h : Host) (file name : List UInt8) : Prop where
  pstr : pstr name = macName h file
  pos : 0 < (name.headD 0).toNat
  le : (name.headD 0).toNat ≤ 31
  full : (name.headD 0).toNat < name.length

/-- The sent bytes start with the header, and are the whole stream when the lengths of the forks
are counted right. -/
theorem sends_stream {h : Host} {v : Volume} {file sent : List UInt8} {m : MacFile}
    (hname : macName h file ≠ []) (hm : v.find (macName h file) = some m)
    (hs : Sends h v file sent) :
    ∃ name, SentName h file name ∧ (∃ tail, sent = (sendHeader name m).toBytes ++ tail) ∧
      (m.data.length ≤ maxFork → m.rsrc.length ≤ maxFork → sent = stream name m) := by
  obtain ⟨block, mode, v', f, size, sizes, hdisable, happend, hopen, hsize, hdone, rfl⟩ := hs
  obtain ⟨rfl, hstart, hpstr, hhead, hfull⟩ := MBopen_read hm hdisable happend hopen
  have hm' : v'.files (v'.fold (pstr f.name)) = some m := by
    rw [hpstr]
    exact hm
  have hpos := List.length_pos_iff.mpr hname
  refine ⟨f.name, ⟨hpstr, by omega, ?_, by omega⟩, ?_, ?_⟩
  · rw [hhead]
    exact length_macName h file
  · rw [MBreads, MBread_first hstart hm' hsize]
    simp only [Option.getD_some, List.append_assoc]
    exact ⟨_, rfl⟩
  · intro hd hr
    exact MBreads_stream hstart hm' hd hr hsize sizes hdone

/-- The header that is sent is accepted. -/
theorem sends_accepted {h : Host} {v : Volume} {file sent : List UInt8} {m : MacFile}
    (hname : macName h file ≠ []) (hm : v.find (macName h file) = some m)
    (hs : Sends h v file sent) :
    128 ≤ sent.length ∧ (isMacBinary h (MBHead.ofBytes sent)).1 = true := by
  obtain ⟨name, hn, ⟨tail, rfl⟩, -⟩ := sends_stream hname hm hs
  constructor
  · rw [List.length_append, MBHead.length_toBytes]
    omega
  · rw [MBHead.ofBytes_toBytes]
    exact accepts_sent h m hn.pos hn.le

/-- Pieces of which the first is long enough to hold all of the front. -/
theorem split_front {front rest buffer : List UInt8} {buffers : List (List UInt8)}
    (hlen : front.length ≤ buffer.length)
    (hall : (buffer :: buffers).flatten = front ++ rest) :
    ∃ after, buffer = front ++ after ∧ (after :: buffers).flatten = rest := by
  rw [List.flatten_cons] at hall
  refine ⟨buffer.drop front.length, ?_, ?_⟩
  · have hfront : buffer.take front.length = front := by
      calc buffer.take front.length
          = (buffer ++ buffers.flatten).take front.length :=
            (List.take_append_of_le_length hlen).symm
        _ = front := by rw [hall, List.take_left]
    conv_rhs => rw [← hfront, List.length_take, Nat.min_eq_left hlen]
    exact (List.take_append_drop _ _).symm
  · calc (buffer.drop front.length :: buffers).flatten
        = (buffer ++ buffers.flatten).drop front.length := by
          rw [List.flatten_cons, List.drop_append_of_le_length hlen]
      _ = rest := by rw [hall, List.drop_left]

/-- The forks that are left, however the stream is cut into calls. -/
theorem receives_stream {h : Host} {w w' : Volume} {up name : List UInt8} {m : MacFile}
    (hpos : 0 < (name.headD 0).toNat) (hle : (name.headD 0).toNat ≤ 31)
    (hfull : (name.headD 0).toNat < name.length) (hd : m.data.length ≤ maxFork)
    (hr : m.rsrc.length ≤ maxFork) (hrec : Receives h w up (stream name m) w') :
    Holds w' (w.fold (pstr name))
      (if m.data.length = 0 then stale w (macName h up) (pstr name) .data else m.data)
      (if m.rsrc.length = 0 ∧ 0 < m.data.length then stale w (macName h up) (pstr name) .rsrc
        else m.rsrc) := by
  obtain ⟨block, mode, w₁, out, buffer, buffers, hdisable, hwrite, hopen, hlen, hall, rfl⟩ := hrec
  obtain ⟨w₁', out', v₂, out₂, hopen', hb, hrun⟩ := receive_begun h block w up
    (m := m) hdisable hwrite hpos hle hfull (by rw [maxFork] at hd; omega)
    (by rw [maxFork] at hr; omega)
  rw [hopen, Option.some.injEq, Prod.mk.injEq] at hopen'
  obtain ⟨rfl, rfl⟩ := hopen'
  -- the first buffer is the header and some of what follows it
  have hhead : (sendHeader name m).toBytes.length ≤ buffer.length := by
    rw [MBHead.length_toBytes]
    exact hlen
  obtain ⟨after, rfl, hrest⟩ := split_front hhead hall
  rw [hrun]
  obtain ⟨hrec', hw'⟩ := MBwrites_written h hd hr (after :: buffers) hb.receiving
    (written_nil hd hr hb) (by
      rw [hrest, List.length_append, length_padded, length_padded, List.length_nil]
      omega)
  rw [hrest, List.nil_append] at hw'
  exact MBclose_written hrec' hw'

/-- A file just made of a name, for the fields that `MBopen` does not set. -/
def newBlock (m : MacFile) : MBFile :=
  { name := [], fd := none, mode := 0, binary := false, sector1 := false, fork := 0, bytes := 0
    rlen := 0, dlen := 0, header := sendHeader [] m }

/-- A read of a fork that is not at its end stores something. -/
theorem readFork_stores {v : Volume} {f : MBFile} {fd : Fd} {size : Int} (hfd : f.fd = some fd)
    (hpos : fd.pos < (v.contents fd).length) (hsize : 0 < size) : (readFork v f size).1 ≠ [] := by
  have hgot : ((v.contents fd).drop fd.pos).take size.toNat ≠ [] := by
    apply List.length_pos_iff.mp
    rw [List.length_take, List.length_drop]
    omega
  rcases readFork_cases hfd hsize rfl rfl with ⟨-, -, hread⟩ | ⟨-, fd', bytes', hread⟩
  · rw [hread]
    exact hgot
  · rw [hread]
    exact List.append_ne_nil_of_left_ne_nil hgot _

/-- Every file can be sent. A data fork whose length is counted right comes whole behind the
header, whatever the resource fork is; some of it comes in any case. -/
theorem sends_exists {h : Host} {v : Volume} {file : List UInt8} {m : MacFile}
    (hname : macName h file ≠ []) (hm : v.find (macName h file) = some m) :
    ∃ name tail, SentName h file name ∧ Sends h v file ((sendHeader name m).toBytes ++ tail) ∧
      (m.data.length ≤ maxFork → ∃ tail', tail = padded m.data ++ tail') ∧
      (0 < m.data.length → tail ≠ []) := by
  have hopened : ∃ f, MBopen h (newBlock m) v file MB_READ = some (v, f) := by
    have hfd := Volume.open_of_file (v := v) hm .data
    rw [MBopen]
    simp only [hfd]
    exact ⟨_, rfl⟩
  obtain ⟨f, hopen⟩ := hopened
  obtain ⟨-, hstart, hpstr, hhead, hfull⟩ := MBopen_read hm (by decide) (by decide) hopen
  have hm' : v.files (v.fold (pstr f.name)) = some m := by
    rw [hpstr]
    exact hm
  have hpos := List.length_pos_iff.mpr hname
  have hle := length_macName h file
  -- the header alone, then a read of all the data fork, then single bytes
  generalize hall : ((max 1 (sectors m.data.length) : Nat) : Int) = all
  generalize hones : List.replicate (m.data.length + m.rsrc.length + 2) (1 : Int) = ones
  have hcount : m.data.length + m.rsrc.length + 2 ≤ (all :: ones).countP (0 < ·) := by
    have hinner : ones.countP (0 < ·) = m.data.length + m.rsrc.length + 2 := by
      rw [← hones, List.countP_replicate]
      rfl
    rw [List.countP_cons, hinner]
    omega
  have hdone := MBreads_first_finish hstart hm' (Int.le_refl 128) (all :: ones) hcount
  have hin := inData_afterHeader hstart m
  have hopen' : ¬ (afterHeader f m).fork < 0 := by
    rw [hin.fork]
    decide
  have hbytes : (MBreads v f (128 :: all :: ones)).1
      = (sendHeader f.name m).toBytes ++ (MBreads v (afterHeader f m) (all :: ones)).1 := by
    rw [MBreads, MBread_first hstart hm' (Int.le_refl 128), readFork_nothing _ _ (by decide)]
    simp only [Option.getD_some, List.append_nil]
  refine ⟨f.name, (MBreads v (afterHeader f m) (all :: ones)).1,
    ⟨hpstr, by omega, by omega, by omega⟩, ?_, ?_, ?_⟩
  · exact ⟨newBlock m, MB_READ, v, f, 128, all :: ones, by decide, by decide, hopen,
      Int.le_refl 128, hdone, hbytes⟩
  · intro hd
    have hcounted : (afterHeader f m).bytes = sectors m.data.length - (0 : Nat) := by
      simp only [afterHeader, long_blocks hd]
      omega
    rw [MBreads, MBread_later hin.sector1 hopen']
    have hask : 0 < all := by omega
    rcases readFork_counted hin.fd (contents_data hm' 0) hd (Nat.zero_le _) hcounted hask with
      ⟨k, hk, -, hless, -⟩ | ⟨-, fd', bytes', hread⟩
    · simp only at hless
      omega
    · rw [hread]
      exact ⟨_, rfl⟩
  · intro hsome hnil
    have hleft : 0 < (v.contents ⟨v.fold (pstr f.name), .data, 0⟩).length := by
      rwa [contents_data hm' 0]
    rw [MBreads, MBread_later hin.sector1 hopen', List.append_eq_nil_iff] at hnil
    exact readFork_stores hin.fd hleft (by omega : 0 < all) hnil.1

/-- Past `maxFork` the receiver takes the data fork for ended before it has any of it. -/
theorem data_lost {h : Host} {w : Volume} {up nm : List UInt8} {d r : Nat} {v : Volume}
    {out : MBFile} (hd : maxFork < d) (hd' : d < 2147483648) (hb : Begun w up nm d r v out)
    (tail : List UInt8) :
    ∃ R, Holds (MBclose (MBwrites h v out [tail]).1 (MBwrites h v out [tail]).2) (w.fold nm)
      (resize w.fill (stale w up nm .data) d) R := by
  have hneg : long (BLOCKS d * 128) < 0 := by
    have hlong := long_blocks_neg hd hd'
    rwa [long_eq (i := (d : Int)) (by omega) (by omega)] at hlong
  have hrec := hb.receiving
  rcases hb.opened with ⟨-, hfork, hfd, hbytes⟩ | ⟨hzero, -⟩
  swap
  · omega
  simp only [MBwrites]
  by_cases hne : 0 < tail.length
  · rw [MBwrite_later h v hrec.sector1 hne, bwrite_none_due hrec.binary (by omega)]
    obtain ⟨v', out', hend, hrec', hfork', -, hcases⟩ := endFork_data out hrec hb.holds hfork hfd
      tail
    rw [hend]
    rcases hcases with ⟨-, hfd', hh⟩ | ⟨-, hfd', hh⟩
    · exact ⟨_, MBclose_rsrc hrec' hfork' hfd' hh⟩
    · rw [MBclose_none v' hfd']
      exact ⟨_, hh⟩
  · have hnil : tail = [] := List.length_eq_zero_iff.mp (by omega)
    rw [hnil, MBwrite_empty]
    exact ⟨_, MBclose_data hrec hfork hfd hb.holds⟩

/-- Past `maxFork` the receiver takes the resource fork for ended before it has any of it. -/
theorem rsrc_lost (h : Host) {fill : Nat → UInt8} {key D R : List UInt8} {d r : Nat} {v : Volume}
    {out : MBFile} (hrec : Receiving fill key d r v out) (hbytes : out.bytes ≤ 0)
    (hfork : out.fork = 1) {pos : Nat}
    (hfd : out.fd = some { key := key, fork := .rsrc, pos := pos }) (hh : Holds v key D R)
    (tail : List UInt8) :
    Holds (MBclose (MBwrites h v out [tail]).1 (MBwrites h v out [tail]).2) key D
      (resize fill R r) := by
  simp only [MBwrites]
  by_cases hne : 0 < tail.length
  · rw [MBwrite_later h v hrec.sector1 hne, bwrite_none_due hrec.binary hbytes]
    obtain ⟨v', out', hend, hrec', hfork', hfd', hh'⟩ := endFork_rsrc out hrec hh hfork hfd tail
    rw [hend]
    have hclose := MBclose_rsrc hrec' hfork' hfd' hh'
    have hlen := length_resize fill R r
    have hsame : resize fill (resize fill R r) r = resize fill R r := by
      rw [resize_of_le fill (by omega), List.take_of_length_le (by omega)]
    rw [hsame] at hclose
    exact hclose
  · have hnil : tail = [] := List.length_eq_zero_iff.mp (by omega)
    rw [hnil, MBwrite_empty]
    exact MBclose_rsrc hrec hfork hfd hh

/-- Every file with forks of `d` and `r` bytes that is sent from any volume, and received on `w`
under the name `up`, has the same forks at the end. -/
def RoundTrips (h : Host) (w : Volume) (file up : List UInt8) (d r : Nat) : Prop :=
  ∀ v m sent w', v.find (macName h file) = some m → m.data.length = d → m.rsrc.length = r →
    Sends h v file sent → Receives h w up sent w' →
    Holds w' (w.fold (macName h file)) m.data m.rsrc

/-- No fork is lost to the count of its bytes, and an empty fork finds no older one in its place. -/
def Clear (h : Host) (w : Volume) (file up : List UInt8) (d r : Nat) : Prop :=
  d ≤ maxFork ∧ r ≤ maxFork ∧ ∀ old, w.find (macName h file) = some old →
    w.fold (macName h file) ≠ w.fold (macName h up) →
    (d = 0 → old.data = []) ∧ (r = 0 → 0 < d → old.rsrc = [])

theorem stale_none {w : Volume} {up nm : List UInt8} (h : w.find nm = none) (fork : Fork) :
    stale w up nm fork = [] := by
  have hfile : w.files (w.fold nm) = none := h
  rw [stale, Volume.contents]
  simp only [hfile, ite_self]

theorem stale_some {w : Volume} {up nm : List UInt8} {old : MacFile} (h : w.find nm = some old)
    (hne : w.fold nm ≠ w.fold up) (fork : Fork) : stale w up nm fork = old.contents fork := by
  have hfile : w.files (w.fold nm) = some old := h
  rw [stale, if_neg hne, Volume.contents]
  simp only [hfile]

/-- The clear case: whatever the calls, the forks are the same at the end. -/
theorem roundTrips_of_clear {h : Host} {w : Volume} {file up : List UInt8} {d r : Nat}
    (hname : macName h file ≠ []) (hc : Clear h w file up d r) : RoundTrips h w file up d r := by
  intro v m sent w' hm hd hr hs hrec
  obtain ⟨hdmax, hrmax, hold⟩ := hc
  rw [← hd] at hdmax hold
  rw [← hr] at hrmax hold
  obtain ⟨name, hn, -, hall⟩ := sends_stream hname hm hs
  rw [hall hdmax hrmax] at hrec
  have hh := receives_stream hn.pos hn.le hn.full hdmax hrmax hrec
  rw [hn.pstr] at hh
  have hstale : (m.data.length = 0 → stale w (macName h up) (macName h file) .data = []) ∧
      (m.rsrc.length = 0 → 0 < m.data.length →
        stale w (macName h up) (macName h file) .rsrc = []) := by
    by_cases hsame : w.fold (macName h file) = w.fold (macName h up)
    · exact ⟨fun _ => if_pos hsame, fun _ _ => if_pos hsame⟩
    · cases hfind : w.find (macName h file) with
      | none => exact ⟨fun _ => stale_none hfind .data, fun _ _ => stale_none hfind .rsrc⟩
      | some old =>
        rw [stale_some hfind hsame, stale_some hfind hsame]
        exact hold old hfind hsame
  have hdata : (if m.data.length = 0 then stale w (macName h up) (macName h file) .data
      else m.data) = m.data := by
    by_cases hzero : m.data.length = 0
    · rw [if_pos hzero, hstale.1 hzero, List.length_eq_zero_iff.mp hzero]
    · rw [if_neg hzero]
  have hrsrc : (if m.rsrc.length = 0 ∧ 0 < m.data.length then
      stale w (macName h up) (macName h file) .rsrc else m.rsrc) = m.rsrc := by
    by_cases hzero : m.rsrc.length = 0 ∧ 0 < m.data.length
    · rw [if_pos hzero, hstale.2 hzero.1 hzero.2, List.length_eq_zero_iff.mp hzero.1]
    · rw [if_neg hzero]
  rw [hdata, hrsrc] at hh
  exact hh

theorem Holds.unique {v : Volume} {key D R D' R' : List UInt8} (h : Holds v key D R)
    (h' : Holds v key D' R') : D = D' ∧ R = R' := by
  obtain ⟨m, hm, hd, hr⟩ := h
  obtain ⟨m', hm', hd', hr'⟩ := h'
  rw [hm, Option.some.injEq] at hm'
  rw [← hd, ← hr, ← hd', ← hr', hm']
  exact ⟨rfl, rfl⟩

/-- A file with given forks, and a volume that has it under every name. -/
def fileOf (data rsrc : List UInt8) : MacFile :=
  { data := data, rsrc := rsrc
    fndrInfo := { fdType := Vector.replicate 4 0, fdCreator := Vector.replicate 4 0
                  fdFlagsHigh := 0, fdFlagsLow := 0, fdLocation := Vector.replicate 6 0 }
    crDat := Vector.replicate 4 0, mdDat := Vector.replicate 4 0 }

def volumeOf (m : MacFile) : Volume :=
  { fold := id, fill := fun _ => 0, now := Vector.replicate 4 0, files := fun _ => some m }

/-- All that is sent, received in two calls. -/
theorem receives_two {h : Host} (w : Volume) (up : List UInt8) {name file : List UInt8}
    {m : MacFile} (hn : SentName h file name) (hd : m.data.length < 2147483648)
    (hr : m.rsrc.length < 2147483648) (first second : List UInt8) :
    ∃ v₂ out₂, Begun w (macName h up) (macName h file) m.data.length m.rsrc.length v₂ out₂ ∧
      Receives h w up ((sendHeader name m).toBytes ++ (first ++ second))
        (MBclose (MBwrites h v₂ out₂ [first, second]).1
          (MBwrites h v₂ out₂ [first, second]).2) := by
  obtain ⟨w₁, out, v₂, out₂, hopen, hb, hrun⟩ := receive_begun h (newBlock m) w up (m := m)
    (show MB_WRITE &&& MB_DISABLE = 0 by decide) (by decide) hn.pos hn.le hn.full hd hr
  rw [hn.pstr] at hb
  refine ⟨v₂, out₂, hb, newBlock m, MB_WRITE, w₁, out, _, [second], by decide, by decide, hopen,
    ?_, ?_, by rw [hrun first [second]]⟩
  · rw [List.length_append, MBHead.length_toBytes]
    omega
  · simp only [List.flatten_cons, List.flatten_nil, List.append_nil, List.append_assoc]

/-- No list of bytes is itself with each byte one up. -/
theorem map_succ_ne {bs : List UInt8} (h : 0 < bs.length) : bs.map (· + 1) ≠ bs := by
  intro hsame
  cases bs with
  | nil => exact absurd h (Nat.lt_irrefl 0)
  | cons c rest =>
    rw [List.map_cons, List.cons.injEq] at hsame
    have htoNat := congrArg UInt8.toNat hsame.1
    have hlt := c.toNat_lt
    rw [UInt8.toNat_add] at htoNat
    simp only [UInt8.reduceToNat] at htoNat
    omega

/-- The resource fork past `maxFork` is not received, behind a data fork that is. -/
theorem receives_rsrc_lost {h : Host} (w : Volume) (up : List UInt8) {name file : List UInt8}
    {m : MacFile} (tail : List UInt8) (hn : SentName h file name) (hd : m.data.length ≤ maxFork)
    (hr : maxFork < m.rsrc.length)
    (hr' : m.rsrc.length < 2147483648) :
    ∃ w' D, Receives h w up ((sendHeader name m).toBytes ++ (padded m.data ++ tail)) w' ∧
      Holds w' (w.fold (macName h file)) D
        (resize w.fill (stale w (macName h up) (macName h file) .rsrc) m.rsrc.length) := by
  have hdlt : m.data.length < 2147483648 := by
    rw [maxFork] at hd
    omega
  obtain ⟨v₂, out₂, hb, hreceives⟩ := receives_two w up (m := m) hn hdlt hr'
    (padded m.data) tail
  have hrec := hb.receiving
  have hneg : long (BLOCKS m.rsrc.length * 128) < 0 := by
    have hlong := long_blocks_neg hr hr'
    rwa [long_eq (i := (m.rsrc.length : Int)) (by omega) (by omega)] at hlong
  have hblocks : long (BLOCKS m.data.length * 128) = sectors m.data.length := by
    rw [← long_blocks hd, long_eq (i := (m.data.length : Int)) (by omega) (by omega)]
  refine ⟨_, ?_, hreceives, ?_⟩
  · exact if m.data.length = 0 then stale w (macName h up) (macName h file) .data else m.data
  rcases hb.opened with ⟨hne, hfork, hfd, hbytes⟩ | ⟨hzero, hfork, hfd, hbytes⟩
  · -- the data fork fills exactly, so the resource fork is open and empty-handed
    rw [hblocks] at hne hbytes
    have hpos : 0 < sectors m.data.length := by omega
    have hw : WritingData (w.fold (macName h file)) (stale w (macName h up) (macName h file) .data)
        (stale w (macName h up) (macName h file) .rsrc) m.data.length v₂ out₂ [] :=
      ⟨hpos, hfork, hfd, by rw [hbytes, List.length_nil]; omega, hb.holds⟩
    obtain ⟨v', out', rest, hrest, hwrite, hrec', hfork', hbytes', hcases⟩ :=
      bwrite_fills_data (padded m.data) hd hrec hw (by rw [length_padded]; omega)
    rw [List.nil_append, ← length_padded, List.drop_length] at hrest
    rcases hcases with ⟨-, hfd', hh⟩ | ⟨hzero, -⟩
    swap
    · omega
    have hstep : MBwrites h v₂ out₂ [padded m.data, tail] = MBwrites h v' out' [tail] := by
      rw [MBwrites, MBwrite_later h v₂ hrec.sector1 (by rw [length_padded]; omega), hwrite]
    rw [hrest, overwrite_nil, List.nil_append, take_padded] at hh
    have hlen : m.data.length ≠ 0 := by
      intro hzero
      rw [hzero] at hpos
      exact absurd hpos (Nat.lt_irrefl 0)
    rw [hstep, if_neg hlen]
    exact rsrc_lost h hrec' (by omega) hfork' hfd' hh tail
  · have hle := le_sectors m.data.length
    have hlen : m.data.length = 0 := by omega
    have hnil : padded m.data = [] := by
      apply List.length_eq_zero_iff.mp
      rw [length_padded, hlen]
      rfl
    have hstep : MBwrites h v₂ out₂ [padded m.data, tail] = MBwrites h v₂ out₂ [tail] := by
      rw [hnil, MBwrites, MBwrite_empty]
    rw [hstep, if_pos hlen]
    exact rsrc_lost h hrec (by omega) hfork hfd hb.holds tail

/-- When every file of these lengths survives, the case is clear. -/
theorem clear_of_roundTrips {h : Host} {w : Volume} {file up : List UInt8} {d r : Nat}
    (hname : macName h file ≠ []) (hd : d < 2147483648) (hr : r < 2147483648)
    (hrt : RoundTrips h w file up d r) : Clear h w file up d r := by
  have hdmax : d ≤ maxFork := by
    by_contra hover
    -- a data fork that differs from what the receiver makes up
    generalize hmade : resize w.fill (stale w (macName h up) (macName h file) .data) d = made
    have hlen : made.length = d := by rw [← hmade, length_resize]
    generalize hm : fileOf (made.map (· + 1)) (List.replicate r 0) = m
    have hmd : m.data = made.map (· + 1) := by rw [← hm, fileOf]
    have hdlen : m.data.length = d := by rw [hmd, List.length_map, hlen]
    have hrlen : m.rsrc.length = r := by rw [← hm, fileOf, List.length_replicate]
    obtain ⟨name, tail, hn, hs, -⟩ := sends_exists (v := volumeOf m) hname rfl
    obtain ⟨v₂, out₂, hb, hrec⟩ := receives_two w up (m := m) hn (by omega) (by omega)
      tail []
    rw [List.append_nil] at hrec
    have hstep : MBwrites h v₂ out₂ [tail, []] = MBwrites h v₂ out₂ [tail] := by
      simp only [MBwrites, MBwrite_empty]
    rw [hstep] at hrec
    obtain ⟨R, hlost⟩ := data_lost (by omega) (by omega) hb tail (h := h)
    have hkept := hrt (volumeOf m) m _ _ rfl hdlen hrlen hs hrec
    have hsame := (hkept.unique hlost).1
    rw [hdlen, hmade, hmd] at hsame
    exact map_succ_ne (by omega) hsame
  have hrmax : r ≤ maxFork := by
    by_contra hover
    generalize hmade : resize w.fill (stale w (macName h up) (macName h file) .rsrc) r = made
    have hlen : made.length = r := by rw [← hmade, length_resize]
    generalize hm : fileOf (List.replicate d 0) (made.map (· + 1)) = m
    have hmr : m.rsrc = made.map (· + 1) := by rw [← hm, fileOf]
    have hrlen : m.rsrc.length = r := by rw [hmr, List.length_map, hlen]
    have hdlen : m.data.length = d := by rw [← hm, fileOf, List.length_replicate]
    obtain ⟨name, tail, hn, hs, htail, -⟩ := sends_exists (v := volumeOf m) hname rfl
    obtain ⟨tail', rfl⟩ := htail (by omega)
    obtain ⟨w', D, hrec, hlost⟩ := receives_rsrc_lost w up (m := m) tail' hn
      (by omega) (by omega) (by omega)
    have hkept := hrt (volumeOf m) m _ _ rfl hdlen hrlen hs hrec
    have hsame := (hkept.unique hlost).2
    rw [hrlen, hmade, hmr] at hsame
    exact map_succ_ne (by omega) hsame
  refine ⟨hdmax, hrmax, ?_⟩
  intro old hold hne
  generalize hm : fileOf (List.replicate d 0) (List.replicate r 0) = m
  have hdlen : m.data.length = d := by rw [← hm, fileOf, List.length_replicate]
  have hrlen : m.rsrc.length = r := by rw [← hm, fileOf, List.length_replicate]
  obtain ⟨name, tail, hn, hs, -⟩ := sends_exists (v := volumeOf m) hname rfl
  obtain ⟨name', hn', -, hall⟩ := sends_stream hname rfl hs
  have hsent := hall (by omega) (by omega)
  obtain ⟨v₂, out₂, hb, hrec⟩ := receives_two w up (m := m) hn' (by omega) (by omega)
    (padded m.data ++ padded m.rsrc) []
  rw [List.append_nil] at hrec
  have hleft := receives_stream hn'.pos hn'.le hn'.full (by omega) (by omega) hrec
  rw [hsent] at hs
  have hkept := hrt (volumeOf m) m _ _ rfl hdlen hrlen hs hrec
  rw [hn'.pstr, stale_some hold hne, stale_some hold hne] at hleft
  obtain ⟨hdata, hrsrc⟩ := hkept.unique hleft
  constructor
  · intro hzero
    rw [if_pos (by omega)] at hdata
    calc old.data = m.data := hdata.symm
      _ = [] := List.length_eq_zero_iff.mp (by omega)
  · intro hzero hpos
    rw [if_pos ⟨by omega, by omega⟩] at hrsrc
    calc old.rsrc = m.rsrc := hrsrc.symm
      _ = [] := List.length_eq_zero_iff.mp (by omega)

/-- Sent and received in calls of any sizes, a file's forks come through for every contents of
given lengths exactly in the clear case; its header is always accepted, and enough calls of
`MBread` that ask for something read it out. -/
theorem fork_round_trip (h : Host) (w : Volume) (file up : List UInt8) (d r : Nat)
    (hname : macName h file ≠ []) (hd : d < 2147483648) (hr : r < 2147483648) :
    (RoundTrips h w file up d r ↔ Clear h w file up d r) ∧
    (∀ v m, v.find (macName h file) = some m →
      (∀ sent, Sends h v file sent →
        128 ≤ sent.length ∧ (isMacBinary h (MBHead.ofBytes sent)).1 = true) ∧
      ∀ block mode v' f size sizes, mode &&& MB_DISABLE = 0 → mode &&& MB_APPEND = 0 →
        MBopen h block v file mode = some (v', f) → (128 : Int) ≤ size →
        m.data.length + m.rsrc.length + 2 ≤ sizes.countP (0 < ·) →
        Sends h v file (MBreads v' f (size :: sizes)).1) := by
  refine ⟨⟨clear_of_roundTrips hname hd hr, roundTrips_of_clear hname⟩, ?_⟩
  intro v m hm
  refine ⟨fun sent hs => sends_accepted hname hm hs, ?_⟩
  intro block mode v' f size sizes hdisable happend hopen hsize hcount
  obtain ⟨rfl, hstart, hpstr, -, -⟩ := MBopen_read hm hdisable happend hopen
  have hm' : v'.files (v'.fold (pstr f.name)) = some m := by
    rw [hpstr]
    exact hm
  have hdone := MBreads_first_finish hstart hm' hsize sizes hcount
  exact ⟨block, mode, v', f, size, sizes, hdisable, happend, hopen, hsize, hdone, rfl⟩

/-- A host with plain names and signed characters. -/
def plainHost : Host :=
  { unsignedChars := false, crcAddress := 0, DoISOtranslation := false, trbuf_ftp_mac := id
    BinaryCreator := Vector.replicate 4 0, BinaryType := Vector.replicate 4 0
    TextCreator := Vector.replicate 4 0 }

/-- A volume that has no files. -/
def emptyVolume : Volume :=
  { fold := id, fill := fun _ => 0, now := Vector.replicate 4 0, files := fun _ => none }

theorem fork_round_trip_empty_volume :
    RoundTrips plainHost emptyVolume [65] [66] 200 0 ↔
      Clear plainHost emptyVolume [65] [66] 200 0 :=
  (fork_round_trip plainHost emptyVolume [65] [66] 200 0 (by decide) (by decide) (by decide)).1

/-- A file `A` whose resource fork has one byte and whose data fork is empty, received as `B` where
another `A` has one byte of data: that byte stays. -/
theorem empty_data_fork_not_cleared :
    ¬ RoundTrips plainHost (volumeOf (fileOf [7] [])) [65] [66] 0 1 := by
  intro hrt
  obtain ⟨-, -, hold⟩ := clear_of_roundTrips (by decide) (by decide) (by decide) hrt
  have hkept := (hold (fileOf [7] []) rfl (by decide)).1 rfl
  exact absurd hkept (by decide)

end MacBinary
