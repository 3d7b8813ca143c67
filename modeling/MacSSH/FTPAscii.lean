import Mathlib.Data.List.Basic
import Mathlib.Tactic.SplitIfs

/-! Transfers in ASCII mode. `Sfwrite` sends a CR of a file as CR LF, and `Sfread`
turns CR LF back; both work through a buffer of 1024 bytes. -/
namespace FTPAscii

/-- The end of a line in a file. -/
@[simp] abbrev EOLCHAR : UInt8 := 13

/-- Translation between the character sets, if it is done. -/
structure Translation where
  DoISOtranslation : Bool
  ftp_iso_mac : UInt8 → UInt8
  ftp_mac_iso : UInt8 → UInt8

/-- The bytes that `Sfread` stores for those it has read, and whether the last one
was a CR. -/
def readBytes (t : Translation) : Bool → List UInt8 → List UInt8 × Bool
  | crfound, [] => ([], crfound)
  | true, p :: l =>
    let r := readBytes t false l
    if p = 10 then (EOLCHAR :: r.1, r.2)
    else if p = 0 then (13 :: r.1, r.2)
    else r
  | false, p :: l =>
    if p = 13 then readBytes t true l
    else
      let r := readBytes t false l
      ((if t.DoISOtranslation then t.ftp_iso_mac p else p) :: r.1, r.2)

/-- What a call of `Sfread` returns and stores, the flag it leaves, and the results
of `netread` still to come. -/
structure SfreadResult where
  ret : Int
  stored : List UInt8
  crfound : Bool
  left : List (List UInt8)

/-- The loop of `Sfread`. `results` are the bytes that `netread` gives next, an empty
result meaning that none have come yet; after them it says that none have come, or
that the connection is closed. -/
def sfreadLoop (t : Translation) (closed : Bool) (nwant : Int) :
    List (List UInt8) → List UInt8 → Bool → SfreadResult
  | [], stored, crfound =>
    if (stored.length : Int) < nwant-1024 then
      ⟨if stored ≠ [] ∨ closed = false then stored.length else -1, stored, crfound, []⟩
    else ⟨stored.length, stored, crfound, []⟩
  | r :: results, stored, crfound =>
    if (stored.length : Int) < nwant-1024 then
      if r = [] then ⟨stored.length, stored, crfound, results⟩
      else
        let b := readBytes t crfound r
        sfreadLoop t closed nwant results (stored ++ b.1) b.2
    else ⟨stored.length, stored, crfound, r :: results⟩

def Sfread (t : Translation) (closed : Bool) (results : List (List UInt8)) (crfound : Bool)
    (nwant : Int) : SfreadResult :=
  if nwant < 1024 then ⟨-1, [], crfound, results⟩
  else sfreadLoop t closed nwant results [] crfound

/-- What `Sfwrite` sends for bytes of a file. -/
def writeBytes (t : Translation) (l : List UInt8) : List UInt8 :=
  l.flatMap fun p =>
    if p = EOLCHAR then [13, 10] else [if t.DoISOtranslation then t.ftp_mac_iso p else p]

/-- The loop of `Sfwrite`: the number of bytes processed, and what was sent. `rooms`
is what `netroom` answers. -/
def sfwriteLoop (t : Translation) : List ℕ → List UInt8 → ℕ → List UInt8 → ℕ × List UInt8
  | [], _, ndone, wire => (ndone, wire)
  | room :: rooms, buf, ndone, wire =>
    if ndone < buf.length then
      if room < 1024 then (ndone, wire)
      else
        let lim := if buf.length-ndone > 512 then 512 else buf.length-ndone
        sfwriteLoop t rooms buf (ndone+lim) (wire ++ writeBytes t ((buf.drop ndone).take lim))
    else (ndone, wire)

/-- Send the bytes of `buf`; there are no answers of `netroom` when the port has no
stream. -/
def Sfwrite (t : Translation) (buf : List UInt8) (rooms : Option (List ℕ)) : Int × List UInt8 :=
  match rooms with
  | none => if buf = [] then (0, []) else (-1, [])
  | some rooms =>
    let r := sfwriteLoop t rooms buf 0 []
    (r.1, r.2)

/-- A file sent by calls of `Sfwrite`, each for the next `n` bytes that are left:
what was sent, and the bytes that are left. -/
def sendFile (t : Translation) : List UInt8 → List (ℕ × Option (List ℕ)) →
    List UInt8 × List UInt8
  | f, [] => ([], f)
  | f, (n, rooms) :: calls =>
    let r := Sfwrite t (f.take n) rooms
    let s := sendFile t (f.drop r.1.toNat) calls
    (r.2 ++ s.1, s.2)

/-- What calls of `Sfread` store, and the results of `netread` that are left. -/
def receiveFile (t : Translation) (closed : Bool) :
    List (List UInt8) → Bool → List Int → List (List UInt8) × List (List UInt8)
  | results, _, [] => ([], results)
  | results, crfound, nwant :: calls =>
    let r := Sfread t closed results crfound nwant
    let s := receiveFile t closed r.left r.crfound calls
    (r.stored :: s.1, s.2)

section Reading
variable {t : Translation}

/-- Reading does not depend on where the bytes are cut. -/
theorem readBytes_append (crfound : Bool) (a b : List UInt8) :
    readBytes t crfound (a ++ b) =
      ((readBytes t crfound a).1 ++ (readBytes t (readBytes t crfound a).2 b).1,
        (readBytes t (readBytes t crfound a).2 b).2) := by
  induction a generalizing crfound with
  | nil => cases crfound <;> rfl
  | cons p a ih =>
    cases crfound with
    | true =>
      simp only [List.cons_append, readBytes, ih]
      split_ifs <;> rfl
    | false =>
      simp only [List.cons_append, readBytes, ih]
      split_ifs <;> rfl

theorem length_readBytes (crfound : Bool) (l : List UInt8) :
    (readBytes t crfound l).1.length ≤ l.length := by
  induction l generalizing crfound with
  | nil => cases crfound <;> exact Nat.le_refl 0
  | cons p l ih =>
    have hfalse := ih false
    have htrue := ih true
    cases crfound with
    | true =>
      simp only [readBytes]
      split_ifs <;> simp only [List.length_cons] <;> omega
    | false =>
      simp only [readBytes]
      split_ifs <;> simp only [List.length_cons] <;> omega

/-- What was sent for the bytes of a file is read as these bytes. -/
theorem readBytes_writeBytes (ht : t.DoISOtranslation = false) (f : List UInt8) :
    readBytes t false (writeBytes t f) = (f, false) := by
  induction f with
  | nil => rfl
  | cons p f ih =>
    have hcons : writeBytes t (p :: f) =
        (if p = EOLCHAR then [13, 10] else [if t.DoISOtranslation then t.ftp_mac_iso p else p]) ++
          writeBytes t f := rfl
    rw [hcons]
    split_ifs with hp hiso
    · simp [readBytes, ih, hp]
    · exact absurd (ht.symm.trans hiso) Bool.false_ne_true
    · have hne : p ≠ 13 := hp
      simp [readBytes, ih, hne, ht]

/-- What a call of `Sfread` keeps: the bytes it stores and those it leaves are read
as those there were, and it stores no more than it may. -/
structure Reads (t : Translation) (nwant : Int) (results : List (List UInt8)) (stored : List UInt8)
    (crfound : Bool) (r : SfreadResult) : Prop where
  bytes : r.stored ++ (readBytes t r.crfound r.left.flatten).1 =
    stored ++ (readBytes t crfound results.flatten).1
  bound : (r.stored.length : Int) ≤ nwant
  suffix : r.left <:+ results

theorem sfreadLoop_reads (closed : Bool) (nwant : Int) (results : List (List UInt8))
    (hsize : ∀ r ∈ results, r.length ≤ 1024) (stored : List UInt8) (crfound : Bool)
    (hstored : (stored.length : Int) ≤ nwant) :
    Reads t nwant results stored crfound (sfreadLoop t closed nwant results stored crfound) := by
  induction results generalizing stored crfound with
  | nil =>
    rw [sfreadLoop]
    split_ifs <;> exact ⟨rfl, hstored, List.suffix_refl _⟩
  | cons r results ih =>
    rw [List.forall_mem_cons] at hsize
    rw [sfreadLoop]
    split_ifs with hroom hnone
    · refine ⟨?_, hstored, List.suffix_cons r results⟩
      rw [hnone, List.flatten_cons, List.nil_append]
    · -- at most 1024 bytes are stored at once
      have hread := length_readBytes (t := t) crfound r
      have hnew : (((stored ++ (readBytes t crfound r).1).length : ℕ) : Int) ≤ nwant := by
        rw [List.length_append]
        have hr := hsize.1
        omega
      have h := ih hsize.2 (stored ++ (readBytes t crfound r).1) (readBytes t crfound r).2 hnew
      refine ⟨?_, h.bound, h.suffix.trans (List.suffix_cons r results)⟩
      rw [h.bytes, List.flatten_cons, readBytes_append, List.append_assoc]
    · exact ⟨rfl, hstored, List.suffix_refl _⟩

theorem Sfread_reads (closed : Bool) {results : List (List UInt8)}
    (hsize : ∀ r ∈ results, r.length ≤ 1024) (crfound : Bool) {nwant : Int} (hn : 1024 ≤ nwant) :
    Reads t nwant results [] crfound (Sfread t closed results crfound nwant) := by
  rw [Sfread, if_neg (by omega)]
  have hzero : (([] : List UInt8).length : Int) ≤ nwant := by
    simp only [List.length_nil]
    omega
  exact sfreadLoop_reads closed nwant results hsize [] crfound hzero

/-- A call that wants more than 1024 bytes takes at least one result. -/
theorem Sfread_takes (closed : Bool) (results : List (List UInt8)) (crfound : Bool) {nwant : Int}
    (hsize : ∀ r ∈ results, r.length ≤ 1024) (hn : 1024 < nwant) :
    (Sfread t closed results crfound nwant).left.length ≤ results.length-1 := by
  rw [Sfread, if_neg (by omega)]
  cases results with
  | nil =>
    rw [sfreadLoop]
    split_ifs <;> exact Nat.le_refl 0
  | cons r results =>
    have hroom : (([] : List UInt8).length : Int) < nwant-1024 := by
      simp only [List.length_nil]
      omega
    rw [List.forall_mem_cons] at hsize
    rw [sfreadLoop, if_pos hroom, List.length_cons, Nat.add_sub_cancel]
    split_ifs
    · exact Nat.le_refl _
    · have hread := length_readBytes (t := t) crfound r
      have hr := hsize.1
      have hnew :
          (((([] : List UInt8) ++ (readBytes t crfound r).1).length : ℕ) : Int) ≤ nwant := by
        rw [List.nil_append]
        omega
      exact (sfreadLoop_reads closed nwant results hsize.2 _ (readBytes t crfound r).2
        hnew).suffix.length_le

/-- What any calls of `Sfread` store and leave is read as what there was. -/
theorem receiveFile_bytes (closed : Bool) (calls : List Int) (hcalls : ∀ n ∈ calls, 1024 ≤ n)
    (results : List (List UInt8)) (hsize : ∀ r ∈ results, r.length ≤ 1024) (crfound : Bool) :
    ∃ cr, (receiveFile t closed results crfound calls).1.flatten ++
        (readBytes t cr (receiveFile t closed results crfound calls).2.flatten).1 =
      (readBytes t crfound results.flatten).1 := by
  induction calls generalizing results crfound with
  | nil => exact ⟨crfound, rfl⟩
  | cons nwant calls ih =>
    rw [List.forall_mem_cons] at hcalls
    have hr := Sfread_reads (t := t) closed hsize crfound hcalls.1
    simp only [receiveFile]
    generalize Sfread t closed results crfound nwant = r at hr ⊢
    obtain ⟨cr, h⟩ := ih hcalls.2 r.left (fun a ha => hsize a (hr.suffix.subset ha)) r.crfound
    refine ⟨cr, ?_⟩
    rw [List.flatten_cons, List.append_assoc, h, hr.bytes, List.nil_append]

/-- No call stores more than it may. -/
theorem receiveFile_bound (closed : Bool) (calls : List Int) (hcalls : ∀ n ∈ calls, 1024 ≤ n)
    (results : List (List UInt8)) (hsize : ∀ r ∈ results, r.length ≤ 1024) (crfound : Bool) :
    List.Forall₂ (fun nwant stored => (stored.length : Int) ≤ nwant) calls
      (receiveFile t closed results crfound calls).1 := by
  induction calls generalizing results crfound with
  | nil => exact List.Forall₂.nil
  | cons nwant calls ih =>
    rw [List.forall_mem_cons] at hcalls
    have hr := Sfread_reads (t := t) closed hsize crfound hcalls.1
    exact List.Forall₂.cons hr.bound
      (ih hcalls.2 _ (fun a ha => hsize a (hr.suffix.subset ha)) _)

/-- As many calls that want more than 1024 bytes as there are results take them all. -/
theorem receiveFile_left (closed : Bool) (calls : List Int) (hcalls : ∀ n ∈ calls, 1024 ≤ n)
    (results : List (List UInt8)) (hsize : ∀ r ∈ results, r.length ≤ 1024) (crfound : Bool) :
    (receiveFile t closed results crfound calls).2.length ≤
      results.length-(calls.filter fun n => 1024 < n).length := by
  induction calls generalizing results crfound with
  | nil => exact Nat.le_refl _
  | cons nwant calls ih =>
    rw [List.forall_mem_cons] at hcalls
    have hr := Sfread_reads (t := t) closed hsize crfound hcalls.1
    have hrest := ih hcalls.2 _ (fun a ha => hsize a (hr.suffix.subset ha))
      (Sfread t closed results crfound nwant).crfound
    have hshort := hr.suffix.length_le
    simp only [receiveFile]
    by_cases hn : 1024 < nwant
    · have htakes := Sfread_takes (t := t) closed results crfound hsize hn
      rw [List.filter_cons_of_pos (by simpa using hn), List.length_cons]
      omega
    · rw [List.filter_cons_of_neg (by simpa using hn)]
      omega

end Reading

section Writing
variable {t : Translation}

theorem writeBytes_append (a b : List UInt8) :
    writeBytes t (a ++ b) = writeBytes t a ++ writeBytes t b := List.flatMap_append

/-- `Sfwrite` sends what it says it has processed. -/
theorem sfwriteLoop_sent (rooms : List ℕ) (buf : List UInt8) (ndone : ℕ) (wire : List UInt8)
    (hdone : ndone ≤ buf.length) (hwire : wire = writeBytes t (buf.take ndone)) :
    (sfwriteLoop t rooms buf ndone wire).2 =
        writeBytes t (buf.take (sfwriteLoop t rooms buf ndone wire).1) ∧
      (sfwriteLoop t rooms buf ndone wire).1 ≤ buf.length := by
  induction rooms generalizing ndone wire with
  | nil => exact ⟨hwire, hdone⟩
  | cons room rooms ih =>
    simp only [sfwriteLoop]
    by_cases hmore : ndone < buf.length
    · by_cases hroom : room < 1024
      · rw [if_pos hmore, if_pos hroom]
        exact ⟨hwire, hdone⟩
      · rw [if_pos hmore, if_neg hroom]
        have hlim : ndone+(if buf.length-ndone > 512 then 512 else buf.length-ndone) ≤
            buf.length := by
          split_ifs <;> omega
        generalize (if buf.length-ndone > 512 then 512 else buf.length-ndone) = lim at hlim ⊢
        apply ih _ _ hlim
        rw [hwire, ← writeBytes_append, List.take_add]
    · rw [if_neg hmore]
      exact ⟨hwire, hdone⟩

theorem Sfwrite_sent (buf : List UInt8) (rooms : Option (List ℕ)) :
    (Sfwrite t buf rooms).2 = writeBytes t (buf.take (Sfwrite t buf rooms).1.toNat) ∧
      (Sfwrite t buf rooms).1.toNat ≤ buf.length := by
  cases rooms with
  | none =>
    simp only [Sfwrite]
    split_ifs <;> exact ⟨rfl, Nat.zero_le _⟩
  | some rooms => exact sfwriteLoop_sent rooms buf 0 [] (Nat.zero_le _) rfl

/-- What was sent is what the bytes that are not left become. -/
theorem sendFile_sent (f : List UInt8) (calls : List (ℕ × Option (List ℕ))) :
    ∃ done, done ++ (sendFile t f calls).2 = f ∧ (sendFile t f calls).1 = writeBytes t done := by
  induction calls generalizing f with
  | nil => exact ⟨[], rfl, rfl⟩
  | cons call calls ih =>
    obtain ⟨n, rooms⟩ := call
    obtain ⟨hsent, hle⟩ := Sfwrite_sent (t := t) (f.take n) rooms
    simp only [sendFile]
    generalize Sfwrite t (f.take n) rooms = r at hsent hle ⊢
    obtain ⟨done, hdone, hwire⟩ := ih (f.drop r.1.toNat)
    have htake : (f.take n).take r.1.toNat = f.take r.1.toNat := by
      rw [List.length_take] at hle
      rw [List.take_take, Nat.min_eq_left (by omega)]
    refine ⟨f.take r.1.toNat ++ done, ?_, ?_⟩
    · rw [List.append_assoc, hdone, List.take_append_drop]
    · rw [hsent, hwire, htake, writeBytes_append]

end Writing

/-- A file that is sent in ASCII mode, however `netread` cuts the bytes up, and read
back: no call stores more than it may, what is stored is a start of the file, and
it is the file when no bytes are left, as after enough calls. -/
theorem ascii_round_trip (t : Translation) (ht : t.DoISOtranslation = false) (f : List UInt8)
    (sends : List (ℕ × Option (List ℕ))) (hsent : (sendFile t f sends).2 = [])
    (results : List (List UInt8)) (hsplit : results.flatten = (sendFile t f sends).1)
    (hsize : ∀ r ∈ results, r.length ≤ 1024) (closed : Bool) (calls : List Int)
    (hcalls : ∀ n ∈ calls, 1024 ≤ n) :
    List.Forall₂ (fun nwant stored => (stored.length : Int) ≤ nwant) calls
        (receiveFile t closed results false calls).1 ∧
      (receiveFile t closed results false calls).1.flatten <+: f ∧
      ((receiveFile t closed results false calls).2 = [] →
        (receiveFile t closed results false calls).1.flatten = f) ∧
      (results.length ≤ (calls.filter fun n => 1024 < n).length →
        (receiveFile t closed results false calls).2 = []) := by
  obtain ⟨done, hdone, hwire⟩ := sendFile_sent (t := t) f sends
  rw [hsent, List.append_nil] at hdone
  obtain ⟨cr, hread⟩ := receiveFile_bytes (t := t) closed calls hcalls results hsize false
  rw [hsplit, hwire, hdone, readBytes_writeBytes ht] at hread
  refine ⟨receiveFile_bound closed calls hcalls results hsize false, ⟨_, hread⟩, ?_, ?_⟩
  · intro hleft
    rw [hleft, List.flatten_nil] at hread
    have hnone : (readBytes t cr []).1 = [] := by cases cr <;> rfl
    rw [hnone, List.append_nil] at hread
    exact hread
  · intro hmany
    have hleft := receiveFile_left (t := t) closed calls hcalls results hsize false
    exact List.eq_nil_of_length_eq_zero (by omega)

/-- Bytes as they are. -/
def noTranslation : Translation := ⟨false, id, id⟩

/-- The file CR LF, cut between the CR and the LF that were sent for the CR. -/
theorem ascii_round_trip_cr_lf :
    (receiveFile noTranslation true [[13], [10, 10]] false [1024, 2000]).1.flatten = [13, 10] := by
  have hsplit : [[13], [10, 10]].flatten =
      (sendFile noTranslation [13, 10] [(8000, some [1024])]).1 := by decide
  have htrip := ascii_round_trip noTranslation rfl [13, 10] [(8000, some [1024])] (by decide)
    [[13], [10, 10]] hsplit (by decide) true [1024, 2000] (by decide)
  exact htrip.2.2.1 (by decide)

end FTPAscii
