import MacSSH.MacBinaryRead

/-!
# The forks that `MBwrite` leaves

What the received file holds after each part of the stream, in whatever pieces it comes.
-/

namespace MacBinary

open MacVolume ByteFile

/-- The file under `key` has these forks. -/
def Holds (v : Volume) (key data rsrc : List UInt8) : Prop :=
  ∃ m, v.files key = some m ∧ m.data = data ∧ m.rsrc = rsrc

/-- A file whose header is processed: it is kept under `key`, and its forks are to have `d` and
`r` bytes. -/
structure Receiving (fill : Nat → UInt8) (key : List UInt8) (d r : Nat) (v : Volume)
    (out : MBFile) : Prop where
  binary : out.binary = true
  sector1 : out.sector1 = false
  disable : out.mode &&& MB_DISABLE = 0
  write : out.mode &&& MB_WRITE ≠ 0
  key : v.fold (pstr out.name) = key
  fill : v.fill = fill
  dlen : out.dlen = d
  rlen : out.rlen = r

/-- Writing moves the volume and the counters on, and leaves the rest. -/
theorem Receiving.keep {fill : Nat → UInt8} {key : List UInt8} {d r : Nat} {v : Volume}
    {out : MBFile} (h : Receiving fill key d r v out) (v' : Volume) (hfold : v'.fold = v.fold)
    (hfill : v'.fill = v.fill) (fork bytes : Int) (fd : Option Fd) :
    Receiving fill key d r v' { out with fork := fork, bytes := bytes, fd := fd } :=
  ⟨h.binary, h.sector1, h.disable, h.write, by rw [hfold]; exact h.key,
    by rw [hfill]; exact h.fill, h.dlen, h.rlen⟩

theorem write_data {v : Volume} {key data rsrc : List UInt8} (h : Holds v key data rsrc)
    (pos : Nat) (bs : List UInt8) :
    ∃ m, v.FSWrite (some { key := key, fork := .data, pos := pos }) bs
        = (noErr, bs.length, v.put key (some m),
            some { key := key, fork := .data, pos := pos + bs.length }) ∧
      Holds (v.put key (some m)) key (overwrite data pos bs) rsrc := by
  obtain ⟨m, hm, hd, hr⟩ := h
  refine ⟨_, Volume.write_open hm bs, _, Volume.put_files_self _ _ _, ?_, hr⟩
  simp only [MacFile.withContents, MacFile.contents, hd]

theorem write_rsrc {v : Volume} {key data rsrc : List UInt8} (h : Holds v key data rsrc)
    (pos : Nat) (bs : List UInt8) :
    ∃ m, v.FSWrite (some { key := key, fork := .rsrc, pos := pos }) bs
        = (noErr, bs.length, v.put key (some m),
            some { key := key, fork := .rsrc, pos := pos + bs.length }) ∧
      Holds (v.put key (some m)) key data (overwrite rsrc pos bs) := by
  obtain ⟨m, hm, hd, hr⟩ := h
  refine ⟨_, Volume.write_open hm bs, _, Volume.put_files_self _ _ _, hd, ?_⟩
  simp only [MacFile.withContents, MacFile.contents, hr]

theorem setEOF_data {v : Volume} {key data rsrc : List UInt8} (h : Holds v key data rsrc)
    (pos n : Nat) :
    ∃ m fd, v.SetEOF (some { key := key, fork := .data, pos := pos }) n
        = (v.put key (some m), fd) ∧
      Holds (v.put key (some m)) key (resize v.fill data n) rsrc := by
  obtain ⟨m, hm, hd, hr⟩ := h
  refine ⟨_, _, Volume.setEOF_open hm n, _, Volume.put_files_self _ _ _, ?_, hr⟩
  simp only [MacFile.withContents, MacFile.contents, hd]

theorem setEOF_rsrc {v : Volume} {key data rsrc : List UInt8} (h : Holds v key data rsrc)
    (pos n : Nat) :
    ∃ m, v.SetEOF (some { key := key, fork := .rsrc, pos := pos }) n
        = (v.put key (some m), some { key := key, fork := .rsrc, pos := min pos n }) ∧
      Holds (v.put key (some m)) key data (resize v.fill rsrc n) := by
  obtain ⟨m, hm, hd, hr⟩ := h
  refine ⟨_, Volume.setEOF_open hm n, _, Volume.put_files_self _ _ _, hd, ?_⟩
  simp only [MacFile.withContents, MacFile.contents, hr]

/-- What `bwrite` does while bytes are due: it writes what is due of the buffer, and then ends the
fork if nothing more is. -/
theorem bwrite_due {v v' : Volume} {out : MBFile} (buffer : List UInt8) {k : Nat}
    {fd : Option Fd} (hbin : out.binary = true) (hbytes : 0 < out.bytes)
    (hsmall : out.bytes < 2147483648)
    (hk : min out.bytes buffer.length = (k : Int))
    (hwrite : v.FSWrite out.fd (buffer.take k) = (noErr, k, v', fd)) :
    bwrite v out buffer
      = if out.bytes - k ≤ 0 then
          endFork v' { out with fd := fd, bytes := out.bytes - k } noErr (buffer.drop k)
        else (noErr, v', { out with fd := fd, bytes := out.bytes - k }) := by
  have hlen : (if out.bytes < buffer.length then out.bytes.toNat else buffer.length) = k := by
    by_cases h : out.bytes < buffer.length
    · rw [if_pos h]
      omega
    · rw [if_neg h]
      omega
  have hlong : long (out.bytes - k) = out.bytes - k := long_eq (by omega) (by omega)
  rw [bwrite, if_pos hbin, if_pos hbytes]
  simp only [hlen, hwrite, hlong]

/-- `bwrite` when no bytes are due. -/
theorem bwrite_none_due {v : Volume} {out : MBFile} {buffer : List UInt8}
    (hbin : out.binary = true) (hbytes : out.bytes ≤ 0) :
    bwrite v out buffer = endFork v out noErr buffer := by
  rw [bwrite, if_pos hbin, if_neg (by omega)]

/-- The data fork is ended: it is cut, or extended, to its length, and the resource fork is opened
unless it counts no bytes. -/
theorem endFork_data {fill : Nat → UInt8} {key : List UInt8} {d r : Nat} {v : Volume}
    (out : MBFile) (hrec : Receiving fill key d r v out) {data rsrc : List UInt8}
    (hh : Holds v key data rsrc) (hfork : out.fork = 0) {pos : Nat}
    (hfd : out.fd = some { key := key, fork := .data, pos := pos }) (rest : List UInt8) :
    ∃ v' out', endFork v out noErr rest = (noErr, v', out') ∧ Receiving fill key d r v' out' ∧
      out'.fork = 1 ∧ out'.bytes = long (BLOCKS r * 128) ∧
      ((long (BLOCKS r * 128) ≠ 0 ∧
          out'.fd = some { key := key, fork := .rsrc, pos := rest.length } ∧
          Holds v' key (resize fill data d) (overwrite rsrc 0 rest)) ∨
        (long (BLOCKS r * 128) = 0 ∧ out'.fd = none ∧
          Holds v' key (resize fill data d) rsrc)) := by
  obtain ⟨m, fd', hset, hh'⟩ := setEOF_data hh pos d
  rw [hrec.fill] at hh'
  have hput : (v.put key (some m)).files (v.fold (pstr out.name)) = some m := by
    rw [hrec.key]
    exact Volume.put_files_self _ _ _
  have hopen := Volume.open_of_file (v := v.put key (some m)) hput .rsrc
  rw [Volume.put_fold, hrec.key] at hopen
  rw [← hrec.dlen] at hset
  rw [← hrec.rlen]
  simp only [endFork, if_pos hfork, hfd, hset]
  by_cases hzero : long (BLOCKS out.rlen * 128) = 0
  · rw [if_neg (not_not_intro hzero)]
    exact ⟨_, _, rfl, hrec.keep _ (by rfl) (by rfl) _ _ _, rfl, rfl, Or.inr ⟨hzero, rfl, hh'⟩⟩
  · rw [if_pos hzero]
    by_cases hrest : rest = []
    · rw [if_neg (not_not_intro hrest), hopen]
      refine ⟨_, _, rfl, hrec.keep _ (by rfl) (by rfl) _ _ _, rfl, rfl, Or.inl ⟨hzero, ?_, ?_⟩⟩
      · rw [hrest]
        rfl
      · rw [hrest, overwrite_nil]
        exact hh'
    · rw [if_pos hrest, hopen]
      obtain ⟨m', hwrite, hh''⟩ := write_rsrc hh' 0 rest
      rw [hwrite]
      refine ⟨_, _, rfl, hrec.keep _ (by rfl) (by rfl) _ _ _, rfl, rfl, Or.inl ⟨hzero, ?_, hh''⟩⟩
      simp only [Nat.zero_add]

/-- The resource fork is ended. -/
theorem endFork_rsrc {fill : Nat → UInt8} {key : List UInt8} {d r : Nat} {v : Volume}
    (out : MBFile) (hrec : Receiving fill key d r v out) {data rsrc : List UInt8}
    (hh : Holds v key data rsrc) (hfork : out.fork = 1) {pos : Nat}
    (hfd : out.fd = some { key := key, fork := .rsrc, pos := pos }) (rest : List UInt8) :
    ∃ v' out', endFork v out noErr rest = (noErr, v', out') ∧ Receiving fill key d r v' out' ∧
      out'.fork = 1 ∧ out'.fd = some { key := key, fork := .rsrc, pos := min pos r } ∧
      Holds v' key data (resize fill rsrc r) := by
  obtain ⟨m, hset, hh'⟩ := setEOF_rsrc hh pos r
  rw [hrec.fill] at hh'
  have hne : ¬ out.fork = 0 := by omega
  rw [← hrec.rlen] at hset
  simp only [endFork, if_neg hne, hfd, hset]
  exact ⟨_, _, rfl, hrec.keep _ (by rfl) (by rfl) out.fork out.bytes _, hfork, rfl, hh'⟩

/-- Inside the data fork: `s` of it is written over the old contents `D`. -/
structure WritingData (key D R : List UInt8) (d : Nat) (v : Volume) (out : MBFile)
    (s : List UInt8) : Prop where
  short : s.length < sectors d
  fork : out.fork = 0
  fd : out.fd = some { key := key, fork := .data, pos := s.length }
  bytes : out.bytes = sectors d - s.length
  holds : Holds v key (s ++ D.drop s.length) R

/-- A piece that does not fill the data fork. -/
theorem bwrite_inside_data {fill : Nat → UInt8} {key D R s buffer : List UInt8} {d r : Nat}
    {v : Volume} {out : MBFile} (hd : d ≤ maxFork) (hrec : Receiving fill key d r v out)
    (hw : WritingData key D R d v out s) (hfit : s.length + buffer.length < sectors d) :
    ∃ v' out', bwrite v out buffer = (noErr, v', out') ∧ Receiving fill key d r v' out' ∧
      WritingData key D R d v' out' (s ++ buffer) := by
  have hmax : sectors d < 2147483648 := by
    rw [sectors, maxFork] at *
    omega
  have hshort := hw.short
  obtain ⟨m, hwrite, hh⟩ := write_data hw.holds s.length buffer
  have hbytes := hw.bytes
  have hdue := bwrite_due buffer (k := buffer.length) hrec.binary (by omega) (by omega)
    (by omega) (by rw [List.take_length, hw.fd]; exact hwrite)
  rw [if_neg (by omega)] at hdue
  refine ⟨_, _, hdue, hrec.keep _ (by rfl) (by rfl) _ _ _, ?_, hw.fork, ?_, ?_, ?_⟩
  · rw [List.length_append]
    exact hfit
  · simp only [List.length_append]
  · simp only [List.length_append]
    omega
  · rw [← overwrite_at_mark]
    exact hh

/-- A piece that fills the data fork: the rest of it goes to the resource fork. -/
theorem bwrite_fills_data {fill : Nat → UInt8} {key D R s : List UInt8}
    (buffer : List UInt8) {d r : Nat}
    {v : Volume} {out : MBFile} (hd : d ≤ maxFork) (hrec : Receiving fill key d r v out)
    (hw : WritingData key D R d v out s) (hfit : sectors d ≤ s.length + buffer.length) :
    ∃ v' out' rest, rest = (s ++ buffer).drop (sectors d) ∧
      bwrite v out buffer = (noErr, v', out') ∧ Receiving fill key d r v' out' ∧
      out'.fork = 1 ∧ out'.bytes = long (BLOCKS r * 128) ∧
      ((long (BLOCKS r * 128) ≠ 0 ∧
          out'.fd = some { key := key, fork := .rsrc, pos := rest.length } ∧
          Holds v' key ((s ++ buffer).take d) (overwrite R 0 rest)) ∨
        (long (BLOCKS r * 128) = 0 ∧ out'.fd = none ∧
          Holds v' key ((s ++ buffer).take d) R)) := by
  have hmax : sectors d < 2147483648 := by
    rw [sectors, maxFork] at *
    omega
  have hshort := hw.short
  have hle := le_sectors d
  generalize hk : sectors d - s.length = k
  obtain ⟨m, hwrite, hh⟩ := write_data hw.holds s.length (buffer.take k)
  rw [overwrite_at_mark] at hh
  have hlen : (buffer.take k).length = k := by
    rw [List.length_take]
    omega
  rw [hlen] at hwrite
  have hbytes := hw.bytes
  have hdue := bwrite_due buffer (k := k) hrec.binary (by omega) (by omega) (by omega)
    (by rw [hw.fd]; exact hwrite)
  rw [if_pos (by omega)] at hdue
  have hcut : resize fill ((s ++ buffer.take k) ++ D.drop (s ++ buffer.take k).length) d
      = (s ++ buffer).take d := by
    rw [resize_written fill (by rw [List.length_append]; omega)]
    have hfront : s ++ buffer.take k = (s ++ buffer).take (s.length + k) :=
      (List.take_length_add_append k).symm
    rw [hfront, List.take_take, Nat.min_eq_left (by omega)]
  have hrest : buffer.drop k = (s ++ buffer).drop (sectors d) := by
    rw [show sectors d = s.length + k by omega]
    exact (List.drop_length_add_append k).symm
  have hrec' := hrec.keep (v.put key (some m)) rfl rfl out.fork (out.bytes - k)
    (some { key := key, fork := .data, pos := s.length + k })
  have hend := endFork_data _ hrec' hh hw.fork rfl (buffer.drop k)
  rw [hcut] at hend
  obtain ⟨v', out', he, hrec'', hfork', hbytes', hcases⟩ := hend
  exact ⟨v', out', buffer.drop k, hrest, hdue.trans he, hrec'', hfork', hbytes', hcases⟩

/-- The data fork that is left: an empty one is not opened, and stays what it was. -/
def receivedData (d : Nat) (old s : List UInt8) : List UInt8 :=
  if d = 0 then old else s.take d

/-- Where the receiver is once `s` has come behind the header, with the old forks `D` and `R`. -/
inductive Written (key D R : List UInt8) (d r : Nat) (v : Volume) (out : MBFile)
    (s : List UInt8) : Prop
  | data : WritingData key D R d v out s → Written key D R d r v out s
  | rsrc : sectors d ≤ s.length → s.length < sectors d + sectors r → out.fork = 1 →
      out.fd = some { key := key, fork := .rsrc, pos := s.length - sectors d } →
      (sectors d + sectors r : Int) - s.length ≤ out.bytes → out.bytes ≤ sectors r →
      Holds v key (receivedData d D s) (s.drop (sectors d) ++ R.drop (s.drop (sectors d)).length) →
      Written key D R d r v out s
  | ended (pos : Nat) (rsrc : List UInt8) : ¬ (r = 0 ∧ 0 < d) →
      s.length = sectors d + sectors r → out.fork = 1 →
      out.fd = some { key := key, fork := .rsrc, pos := pos } → r ≤ rsrc.length →
      rsrc.take r = (s.drop (sectors d)).take r → Holds v key (receivedData d D s) rsrc →
      Written key D R d r v out s
  | closed : r = 0 → 0 < d → s.length = sectors d → out.fork = 1 → out.fd = none →
      Holds v key (receivedData d D s) R → Written key D R d r v out s

theorem receivedData_append {d : Nat} {old s : List UInt8} (buffer : List UInt8)
    (h : d ≤ s.length) :
    receivedData d old (s ++ buffer) = receivedData d old s := by
  rw [receivedData, receivedData, List.take_append_of_le_length h]

theorem long_BLOCKS_mul {r : Nat} (hr : r ≤ maxFork) : long (BLOCKS r * 128) = sectors r := by
  have hrle := le_sectors r
  rw [← long_blocks hr, long_eq (i := (r : Int)) (by omega) (by rw [maxFork] at hr; omega)]

/-- From inside the data fork a piece stays there, or fills it and goes on to the resource
fork, or to its end. -/
theorem bwrite_from_data {fill : Nat → UInt8} {key D R s buffer : List UInt8} {d r : Nat}
    {v : Volume} {out : MBFile} (hd : d ≤ maxFork) (hr : r ≤ maxFork)
    (hrec : Receiving fill key d r v out) (hw : WritingData key D R d v out s)
    (hfit : s.length + buffer.length ≤ sectors d + sectors r) :
    ∃ v' out', bwrite v out buffer = (noErr, v', out') ∧ Receiving fill key d r v' out' ∧
      Written key D R d r v' out' (s ++ buffer) := by
  have hdle := le_sectors d
  have hrle := le_sectors r
  by_cases hinside : s.length + buffer.length < sectors d
  · obtain ⟨v', out', hb, hrec', hw'⟩ := bwrite_inside_data hd hrec hw hinside
    exact ⟨v', out', hb, hrec', .data hw'⟩
  · obtain ⟨v', out', rest, hrest, hb, hrec', hfork', hbytes', hcases⟩ :=
      bwrite_fills_data buffer hd hrec hw (by omega)
    have hpos : d ≠ 0 := by
      intro hzero
      have hshort := hw.short
      rw [hzero] at hshort
      exact absurd hshort (Nat.not_lt_zero _)
    have hreceived : receivedData d D (s ++ buffer) = (s ++ buffer).take d := if_neg hpos
    have hlen : rest.length = s.length + buffer.length - sectors d := by
      rw [hrest, List.length_drop, List.length_append]
    rw [long_BLOCKS_mul hr] at hcases hbytes'
    rw [← hreceived] at hcases
    refine ⟨v', out', hb, hrec', ?_⟩
    rcases hcases with ⟨hsome, hfd', hh'⟩ | ⟨hnone, hfd', hh'⟩
    · have hover : overwrite R 0 rest = rest ++ R.drop rest.length := by
        rw [overwrite, List.take_zero, List.nil_append, Nat.zero_add]
      rw [hover] at hh'
      by_cases hall : s.length + buffer.length < sectors d + sectors r
      · refine .rsrc (by rw [List.length_append]; omega) (by rw [List.length_append]; omega)
          hfork' ?_ ?_ (by omega) ?_
        · rw [hfd', List.length_append, hlen]
        · rw [hbytes', List.length_append]
          omega
        · rw [← hrest]
          exact hh'
      · -- the same piece has all of the resource fork as well
        refine .ended rest.length _ (by rintro ⟨rfl, -⟩; exact hsome rfl)
          (by rw [List.length_append]; omega) hfork' hfd' ?_ ?_ hh'
        · rw [List.length_append]
          omega
        · rw [List.take_append_of_le_length (by omega), hrest]
    · -- there is no resource fork to open
      have hzero : r = 0 := by omega
      have hnil : sectors r = 0 := by
        rw [hzero]
        rfl
      exact .closed hzero (by omega) (by rw [List.length_append]; omega) hfork' hfd' hh'

/-- Inside the resource fork a piece stays there, or takes it to its end. -/
theorem bwrite_from_rsrc {fill : Nat → UInt8} {key D R s buffer : List UInt8} {d r : Nat}
    {v : Volume} {out : MBFile} (hr : r ≤ maxFork) (hrec : Receiving fill key d r v out)
    (hge : sectors d ≤ s.length) (hlt : s.length < sectors d + sectors r) (hfork : out.fork = 1)
    (hfd : out.fd = some { key := key, fork := .rsrc, pos := s.length - sectors d })
    (hlow : (sectors d + sectors r : Int) - s.length ≤ out.bytes) (hhigh : out.bytes ≤ sectors r)
    (hh : Holds v key (receivedData d D s)
      (s.drop (sectors d) ++ R.drop (s.drop (sectors d)).length))
    (hne : 0 < buffer.length) (hfit : s.length + buffer.length ≤ sectors d + sectors r) :
    ∃ v' out', bwrite v out buffer = (noErr, v', out') ∧ Receiving fill key d r v' out' ∧
      Written key D R d r v' out' (s ++ buffer) := by
  have hdle := le_sectors d
  have hrle := le_sectors r
  have hmaxr : sectors r < 2147483648 := by
    rw [sectors, maxFork] at *
    omega
  obtain ⟨m, hwrite, hh'⟩ := write_rsrc hh (s.drop (sectors d)).length buffer
  rw [overwrite_at_mark, ← List.drop_append_of_le_length hge] at hh'
  rw [← receivedData_append buffer (by omega)] at hh'
  have hmark : (s.drop (sectors d)).length = s.length - sectors d := List.length_drop
  rw [hmark] at hwrite
  have hdue := bwrite_due buffer (k := buffer.length) hrec.binary (by omega)
    (by omega) (by omega) (by rw [List.take_length, hfd]; exact hwrite)
  have hlen : (s ++ buffer).length = s.length + buffer.length := List.length_append
  have hdrop : ((s ++ buffer).drop (sectors d)).length
      = s.length + buffer.length - sectors d := by
    rw [List.length_drop, hlen]
  have hsome : ¬ (r = 0 ∧ 0 < d) := by
    rintro ⟨rfl, -⟩
    exact absurd hlt (by rw [sectors_zero]; omega)
  by_cases hend : out.bytes - buffer.length ≤ 0
  · -- the counter runs out: the fork is cut to its length
    rw [if_pos hend, List.drop_length] at hdue
    have hrec₁ := hrec.keep (v.put key (some m)) rfl rfl out.fork (out.bytes - buffer.length)
      (some { key := key, fork := .rsrc, pos := s.length - sectors d + buffer.length })
    obtain ⟨v', out', he, hrec', hfork', hfd', hh''⟩ := endFork_rsrc _ hrec₁ hh' hfork rfl []
    refine ⟨v', out', hdue.trans he, hrec', .ended _ _ hsome (by omega) hfork' hfd' ?_ ?_ hh''⟩
    · exact Nat.le_of_eq (length_resize fill _ r).symm
    · rw [resize_written fill (by omega), List.take_take, Nat.min_self]
  · -- the counter may still ask for more than the stream has
    rw [if_neg hend] at hdue
    refine ⟨_, _, hdue, hrec.keep _ (by rfl) (by rfl) _ _ _, ?_⟩
    by_cases hall : s.length + buffer.length < sectors d + sectors r
    · refine .rsrc (by omega) (by omega) hfork ?_ ?_ ?_ hh'
      · have hmark' : s.length - sectors d + buffer.length
            = (s ++ buffer).length - sectors d := by omega
        rw [← hmark']
      · simp only [hlen]
        omega
      · simp only
        omega
    · refine .ended _ _ hsome (by omega) hfork rfl ?_ ?_ hh'
      · rw [List.length_append]
        omega
      · rw [List.take_append_of_le_length (by omega)]

/-- Each piece of the stream takes the receiver on. -/
theorem bwrite_written {fill : Nat → UInt8} {key D R s buffer : List UInt8} {d r : Nat}
    {v : Volume} {out : MBFile} (hd : d ≤ maxFork) (hr : r ≤ maxFork)
    (hrec : Receiving fill key d r v out) (hw : Written key D R d r v out s)
    (hne : 0 < buffer.length) (hfit : s.length + buffer.length ≤ sectors d + sectors r) :
    ∃ v' out', bwrite v out buffer = (noErr, v', out') ∧ Receiving fill key d r v' out' ∧
      Written key D R d r v' out' (s ++ buffer) := by
  cases hw with
  | data hw => exact bwrite_from_data hd hr hrec hw hfit
  | rsrc hge hlt hfork hfd hlow hhigh hh =>
    exact bwrite_from_rsrc hr hrec hge hlt hfork hfd hlow hhigh hh hne hfit
  | ended pos rsrc _ hlen => omega
  | closed hzero hpos hlen =>
    have hnil : sectors r = 0 := by
      rw [hzero]
      rfl
    omega

/-- A call of `MBwrite` after the header is `bwrite`. -/
theorem MBwrite_later (h : Host) (v : Volume) {out : MBFile} (hs1 : out.sector1 = false)
    {buffer : List UInt8} (hne : 0 < buffer.length) :
    (MBwrite h v out buffer).2 = (bwrite v out buffer).2 := by
  have hsize : ¬ (buffer.length : Int) < 1 := by omega
  have hnot : ¬ (out.sector1 = true ∧ buffer.length ≥ 128 ∧ out.mode &&& MB_DISABLE = 0) := by
    intro hall
    rw [hs1] at hall
    exact Bool.false_ne_true hall.1
  rw [MBwrite, if_neg hsize, if_neg hnot, writeRest]

theorem MBwrite_empty (h : Host) (v : Volume) (out : MBFile) :
    MBwrite h v out [] = (0, v, out) := rfl

/-- All the pieces after the header. -/
theorem MBwrites_written (h : Host) {fill : Nat → UInt8} {key D R : List UInt8} {d r : Nat}
    (hd : d ≤ maxFork) (hr : r ≤ maxFork) (buffers : List (List UInt8)) {v : Volume}
    {out : MBFile} {s : List UInt8} (hrec : Receiving fill key d r v out)
    (hw : Written key D R d r v out s)
    (hfit : s.length + buffers.flatten.length ≤ sectors d + sectors r) :
    Receiving fill key d r (MBwrites h v out buffers).1 (MBwrites h v out buffers).2 ∧
      Written key D R d r (MBwrites h v out buffers).1 (MBwrites h v out buffers).2
        (s ++ buffers.flatten) := by
  induction buffers generalizing v out s with
  | nil => simpa [MBwrites] using And.intro hrec hw
  | cons buffer buffers ih =>
    rw [List.flatten_cons, List.length_append] at hfit
    rw [MBwrites, List.flatten_cons, ← List.append_assoc]
    by_cases hne : 0 < buffer.length
    · obtain ⟨v', out', hb, hrec', hw'⟩ := bwrite_written hd hr hrec hw hne (by omega)
      have hstep : (MBwrite h v out buffer).2 = (v', out') := by
        rw [MBwrite_later h v hrec.sector1 hne, hb]
      simp only [hstep]
      exact ih hrec' hw' (by rw [List.length_append]; omega)
    · have hnil : buffer = [] := List.length_eq_zero_iff.mp (by omega)
      rw [hnil, MBwrite_empty, List.append_nil]
      exact ih hrec hw (by omega)

theorem holds_put_info {v : Volume} {key data rsrc : List UInt8} (h : Holds v key data rsrc)
    (f : MacFile → MacFile) (hdata : ∀ m, (f m).data = m.data)
    (hrsrc : ∀ m, (f m).rsrc = m.rsrc) :
    Holds (match v.files key with
      | none => v
      | some m => v.put key (some (f m))) key data rsrc := by
  obtain ⟨m, hm, hd, hr⟩ := h
  rw [hm]
  exact ⟨f m, Volume.put_files_self _ _ _, by rw [hdata, hd], by rw [hrsrc, hr]⟩

/-- Closing inside the resource fork moves its end. -/
theorem MBclose_rsrc {fill : Nat → UInt8} {key data rsrc : List UInt8} {d r : Nat} {v : Volume}
    {out : MBFile} (hrec : Receiving fill key d r v out) (hfork : out.fork = 1) {pos : Nat}
    (hfd : out.fd = some { key := key, fork := .rsrc, pos := pos })
    (hh : Holds v key data rsrc) : Holds (MBclose v out) key data (resize fill rsrc r) := by
  obtain ⟨m, hset, hh'⟩ := setEOF_rsrc hh pos r
  rw [hrec.fill] at hh'
  have hne : out.fork ≠ 0 := by omega
  have hkey : (v.put key (some m)).fold (pstr out.name) = key := hrec.key
  have hmode : out.mode &&& MB_DISABLE = 0 ∧ out.mode &&& MB_WRITE ≠ 0 :=
    ⟨hrec.disable, hrec.write⟩
  rw [← hrec.rlen] at hset
  rw [MBclose, hfd]
  simp only [if_pos hmode, if_pos hne, hset, Volume.find, hkey]
  exact holds_put_info hh' _ (fun _ => rfl) (fun _ => rfl)

/-- Closing inside the data fork moves its end. -/
theorem MBclose_data {fill : Nat → UInt8} {key data rsrc : List UInt8} {d r : Nat} {v : Volume}
    {out : MBFile} (hrec : Receiving fill key d r v out) (hfork : out.fork = 0) {pos : Nat}
    (hfd : out.fd = some { key := key, fork := .data, pos := pos })
    (hh : Holds v key data rsrc) : Holds (MBclose v out) key (resize fill data d) rsrc := by
  obtain ⟨m, fd', hset, hh'⟩ := setEOF_data hh pos d
  rw [hrec.fill] at hh'
  have hkey : (v.put key (some m)).fold (pstr out.name) = key := hrec.key
  have hmode : out.mode &&& MB_DISABLE = 0 ∧ out.mode &&& MB_WRITE ≠ 0 :=
    ⟨hrec.disable, hrec.write⟩
  rw [← hrec.dlen] at hset
  rw [MBclose, hfd]
  simp only [if_pos hmode, if_neg (not_not_intro hfork), hset, Volume.find, hkey]
  exact holds_put_info hh' _ (fun _ => rfl) (fun _ => rfl)

/-- Closing when no fork is open. -/
theorem MBclose_none (v : Volume) {out : MBFile} (h : out.fd = none) : MBclose v out = v := by
  rw [MBclose, h]

/-- The received file is found, or made. -/
theorem openReceived_open (v : Volume) (out : MBFile) (fork : Fork) :
    ∃ v', openReceived v out fork
        = (v', some { key := v.fold (pstr out.name), fork := fork, pos := 0 }) ∧
      v'.fold = v.fold ∧ v'.fill = v.fill ∧
      Holds v' (v.fold (pstr out.name))
        (v.contents { key := v.fold (pstr out.name), fork := .data, pos := 0 })
        (v.contents { key := v.fold (pstr out.name), fork := .rsrc, pos := 0 }) := by
  cases hfile : v.files (v.fold (pstr out.name)) with
  | some m =>
    refine ⟨v, ?_, rfl, rfl, m, hfile, ?_, ?_⟩
    · rw [openReceived, Volume.open_of_file hfile]
    · rw [contents_data hfile]
    · rw [contents_rsrc hfile]
  | none =>
    have hnot : v.HOpen (pstr out.name) fork = none := by
      rw [Volume.HOpen, Volume.find, hfile]
    simp only [openReceived, hnot, Volume.HCreate, Volume.find, hfile, Volume.contents]
    refine ⟨_, Prod.ext rfl (Volume.open_of_file (Volume.put_files_self _ _ _) fork), rfl, rfl, _,
      Volume.put_files_self _ _ _, rfl, rfl⟩

/-- The header processed: which fork is opened first, and what the file under the header's name
holds then. -/
theorem ProcessMBHead_receiving {v : Volume} {out : MBFile} {p : MBHead} {nm : List UInt8}
    {d r : Nat} (hdisable : out.mode &&& MB_DISABLE = 0) (hwrite : out.mode &&& MB_WRITE ≠ 0)
    (hname : pstr (overwrite out.name 0 (p.nlen :: p.name.toList.take 31)) = nm)
    (hd : longOf p.dflen = d) (hr : longOf p.rflen = r) :
    ∃ v' out', ProcessMBHead v out p = (v', out') ∧
      Receiving v.fill (v.fold nm) d r v' out' ∧
      ((long (BLOCKS d * 128) ≠ 0 ∧ out'.fork = 0 ∧
          out'.fd = some { key := v.fold nm, fork := .data, pos := 0 } ∧
          out'.bytes = long (BLOCKS d * 128)) ∨
        (long (BLOCKS d * 128) = 0 ∧ out'.fork = 1 ∧
          out'.fd = some { key := v.fold nm, fork := .rsrc, pos := 0 } ∧
          out'.bytes = long (BLOCKS r * 128))) ∧
      Holds v' (v.fold nm)
        ((v.HDelete (pstr out.name)).contents { key := v.fold nm, fork := .data, pos := 0 })
        ((v.HDelete (pstr out.name)).contents { key := v.fold nm, fork := .rsrc, pos := 0 }) := by
  generalize hout : takeHeader out p = out₁
  have hname₁ : pstr out₁.name = nm := by rw [← hout, takeHeader, hname]
  have hrec : ∀ v' : Volume, v'.fold = v.fold → v'.fill = v.fill →
      Receiving v.fill (v.fold nm) d r v' out₁ := by
    intro v' hfold hfill
    refine ⟨by rw [← hout, takeHeader], by rw [← hout, takeHeader],
      by rw [← hout, takeHeader, hdisable], ?_, by rw [hfold, hname₁], hfill,
      by rw [← hout, takeHeader, hd], by rw [← hout, takeHeader, hr]⟩
    rw [← hout, takeHeader]
    exact hwrite
  have hbytes : out₁.bytes = long (BLOCKS d * 128) := by rw [← hout, takeHeader, hd]
  have hfork : out₁.fork = 0 := by rw [← hout, takeHeader]
  have hrlen : out₁.rlen = r := by rw [← hout, takeHeader, hr]
  have hopen := fun fork => openReceived_open (v.HDelete (pstr out.name)) out₁ fork
  rw [hname₁] at hopen
  rw [ProcessMBHead, hout]
  by_cases hzero : out₁.bytes = 0
  · obtain ⟨v', hv', hfold, hfill, hh⟩ := hopen .rsrc
    simp only [if_neg (not_not_intro hzero), hv']
    rw [hbytes] at hzero
    refine ⟨v', _, rfl, (hrec v' hfold hfill).keep _ (by rfl) (by rfl) _ _ _,
      Or.inr ⟨hzero, by simp only, by simp only; rfl, by simp only [hrlen]⟩, hh⟩
  · obtain ⟨v', hv', hfold, hfill, hh⟩ := hopen .data
    simp only [if_pos hzero, hv']
    rw [hbytes] at hzero
    refine ⟨v', _, rfl, (hrec v' hfold hfill).keep _ (by rfl) (by rfl) _ _ _,
      Or.inl ⟨hzero, hfork, by simp only; rfl, hbytes⟩, hh⟩

end MacBinary
