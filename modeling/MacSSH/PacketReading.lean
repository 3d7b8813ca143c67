import MacSSH.PacketStream

/-! The packets of a stream. However the network cuts it into pieces, the reader hands on
the packets that are found when the whole stream is parsed. -/
namespace Packets
open Ciphers Messages

section
variable {T M P : Type} (D : Cipher T) (A : Mac M)
variable (handler : ℕ × List UInt8 → P → Handled T M P)

/-- How a stream ends: in a packet of which `bytes` have come, or with an exception. -/
inductive Ending (T M P : Type)
  | waiting (c : ssh_connection T M P) (seq : ℕ) (bytes : List UInt8)
  | failed (error : String)

def Ending.error : Ending T M P → Option String
  | .waiting _ _ _ => none
  | .failed error => some error

/-- The packets of a stream. Each is parsed where the one before it ends, with the keys that
the handlers have installed by then, and nothing is handed on after an exception. -/
inductive Received : ssh_connection T M P → ℕ → List UInt8 → List (ℕ × List UInt8) →
    Ending T M P → Prop
  | waiting {c : ssh_connection T M P} {seq : ℕ} {y : List UInt8}
      (h : parse D A c seq y = .more) : Received c seq y [] (.waiting c seq y)
  | bad {c : ssh_connection T M P} {seq n : ℕ} {y : List UInt8} {error : String}
      (h : parse D A c seq y = .bad n error) : Received c seq y [] (.failed error)
  | refused {c c' : ssh_connection T M P} {seq n : ℕ} {y packet : List UInt8} {error : String}
      (h : parse D A c seq y = .packet n packet c')
      (he : (handler (seq, packet) c'.rest).error = some error) :
      Received c seq y [(seq, packet)] (.failed error)
  | packet {c c' : ssh_connection T M P} {seq n : ℕ} {y packet : List UInt8}
      {packets : List (ℕ × List UInt8)} {ending : Ending T M P}
      (h : parse D A c seq y = .packet n packet c')
      (he : (handler (seq, packet) c'.rest).error = none)
      (rest : Received ((handler (seq, packet) c'.rest).connection c') ((seq+1)%2^32)
        (y.drop n) packets ending) :
      Received c seq y ((seq, packet) :: packets) ending

variable {D A handler}
variable {c : ssh_connection T M P} {seq : ℕ} {x y d : List UInt8}
variable {packets : List (ℕ × List UInt8)} {ending : Ending T M P}

theorem Received.unique (h : Received D A handler c seq y packets ending) :
    ∀ {packets' : List (ℕ × List UInt8)} {ending' : Ending T M P},
      Received D A handler c seq y packets' ending' → packets = packets' ∧ ending = ending' := by
  induction h with
  | waiting h =>
    intro packets' ending' h'
    cases h' with
    | waiting _ => exact ⟨rfl, rfl⟩
    | bad h' => rw [h] at h'; cases h'
    | refused h' _ => rw [h] at h'; cases h'
    | packet h' _ _ => rw [h] at h'; cases h'
  | bad h =>
    intro packets' ending' h'
    cases h' with
    | waiting h' => rw [h] at h'; cases h'
    | bad h' => rw [h] at h'; cases h'; exact ⟨rfl, rfl⟩
    | refused h' _ => rw [h] at h'; cases h'
    | packet h' _ _ => rw [h] at h'; cases h'
  | refused h he =>
    intro packets' ending' h'
    cases h' with
    | waiting h' => rw [h] at h'; cases h'
    | bad h' => rw [h] at h'; cases h'
    | refused h' he' =>
      rw [h] at h'
      cases h'
      rw [he] at he'
      cases he'
      exact ⟨rfl, rfl⟩
    | packet h' he' _ =>
      rw [h] at h'
      cases h'
      rw [he] at he'
      cases he'
  | packet h he _ ih =>
    intro packets' ending' h'
    cases h' with
    | waiting h' => rw [h] at h'; cases h'
    | bad h' => rw [h] at h'; cases h'
    | refused h' he' =>
      rw [h] at h'
      cases h'
      rw [he] at he'
      cases he'
    | packet h' _ rest =>
      rw [h] at h'
      cases h'
      obtain ⟨hpackets, hending⟩ := ih rest
      exact ⟨congrArg _ hpackets, hending⟩

/-- A stream that ended with an exception ends with it however much follows. -/
theorem Received.failed_append (h : Received D A handler c seq y packets ending) :
    ∀ {error : String}, ending = .failed error → ∀ d : List UInt8,
      Received D A handler c seq (y ++ d) packets (.failed error) := by
  induction h with
  | waiting _ =>
    intro error herror
    cases herror
  | bad h =>
    intro error herror d
    cases herror
    exact .bad (bad_append h d)
  | refused h he =>
    intro error herror d
    cases herror
    exact .refused (packet_append h d) he
  | packet h he _ ih =>
    intro error herror d
    have hrest := ih herror d
    rw [← List.drop_append_of_le_length (parse_le h)] at hrest
    exact .packet (packet_append h d) he hrest

/-- A stream that ended in a packet goes on with it. -/
theorem Received.waiting_append (h : Received D A handler c seq y packets ending) :
    ∀ {c' : ssh_connection T M P} {seq' : ℕ} {r d : List UInt8}
      {packets' : List (ℕ × List UInt8)} {ending' : Ending T M P},
      ending = .waiting c' seq' r → Received D A handler c' seq' (r ++ d) packets' ending' →
      Received D A handler c seq (y ++ d) (packets ++ packets') ending' := by
  induction h with
  | waiting _ =>
    intro c' seq' r d packets' ending' hending hrest
    cases hending
    exact hrest
  | bad _ =>
    intro c' seq' r d packets' ending' hending
    cases hending
  | refused _ _ =>
    intro c' seq' r d packets' ending' hending
    cases hending
  | packet h he _ ih =>
    intro c' seq' r d packets' ending' hending hrest
    have hgo := ih hending hrest
    rw [← List.drop_append_of_le_length (parse_le h)] at hgo
    exact .packet (packet_append h d) he hgo

/-- Where a reading stands at the end of a stream. -/
def Ends (D : Cipher T) (A : Mac M) (reading : Reading T M P) : Ending T M P → Prop
  | .waiting c seq bytes => reading.error = none ∧ At D A c seq reading.closure bytes
  | .failed error => reading.error = some error

theorem do_buffered_read_nil (fuel : ℕ) (reading : Reading T M P) :
    do_buffered_read D A handler fuel reading [] = some reading := by
  rw [do_buffered_read.eq_def]
  exact if_pos (Or.inl rfl)

theorem do_buffered_read_failed (fuel : ℕ) {reading : Reading T M P}
    (h : reading.error ≠ none) (d : List UInt8) :
    do_buffered_read D A handler fuel reading d = some reading := by
  rw [do_buffered_read.eq_def]
  exact if_pos (Or.inr h)

theorem do_buffered_read_succ (fuel : ℕ) {reading : Reading T M P} (h : reading.error = none)
    (hd : d ≠ []) : do_buffered_read D A handler (fuel+1) reading d =
      do_buffered_read D A handler fuel (read_handler D A handler reading d).1
        (d.drop (read_handler D A handler reading d).2) := by
  rw [do_buffered_read.eq_def]
  apply if_neg
  rintro (hnil | herror)
  · exact hd hnil
  · exact herror h

variable (handler)

/-- The loop over one piece. -/
theorem do_buffered_read_received (hD : ∀ t, 8 ≤ D.block t) : ∀ (fuel : ℕ) (d : List UInt8)
    (reading : Reading T M P) {c : ssh_connection T M P} {seq : ℕ} {x : List UInt8},
    d.length ≤ fuel → reading.error = none → At D A c seq reading.closure x →
    ∃ reading' packets ending, do_buffered_read D A handler fuel reading d = some reading' ∧
      Received D A handler c seq (x ++ d) packets ending ∧
      reading'.packets = reading.packets ++ packets ∧ Ends D A reading' ending := by
  intro fuel
  induction fuel with
  | zero =>
    intro d reading c seq x hfuel herror hat
    have hd : d = [] := List.length_eq_zero_iff.mp (Nat.le_zero.mp hfuel)
    subst hd
    refine ⟨reading, [], .waiting c seq x, do_buffered_read_nil _ _, ?_,
      (List.append_nil _).symm, herror, hat⟩
    rw [List.append_nil]
    exact .waiting hat.more
  | succ fuel ih =>
    intro d reading c seq x hfuel herror hat
    by_cases hd : d = []
    · subst hd
      refine ⟨reading, [], .waiting c seq x, do_buffered_read_nil _ _, ?_,
        (List.append_nil _).symm, herror, hat⟩
      rw [List.append_nil]
      exact .waiting hat.more
    rw [do_buffered_read_succ fuel herror hd]
    have h8 : 4 ≤ blockSize D c.rec_crypto := by
      cases hc : c.rec_crypto with
      | none => exact (by norm_num : 4 ≤ 8)
      | some t => exact (by norm_num : 4 ≤ 8).trans (hD t)
    have hanswers : Answers D A c seq x.length (x ++ d) (do_read_packet D A reading.closure d)
        (parse D A c seq (x ++ d)) := do_read_packet_answers h8 hat
    have hpos : 0 < d.length := List.length_pos_iff.mpr hd
    cases hparse : parse D A c seq (x ++ d) with
    | more =>
      rw [hparse] at hanswers
      obtain ⟨htotal, hpacket, hnone, hstill⟩ := hanswers
      rw [List.length_append] at htotal
      simp only [read_handler, hpacket]
      rw [List.drop_of_length_le (by omega)]
      exact ⟨_, [], _, do_buffered_read_nil _ _, .waiting hparse, (List.append_nil _).symm,
        hnone, hstill⟩
    | bad n error =>
      rw [hparse] at hanswers
      obtain ⟨htotal, -, hpacket, hsome⟩ := hanswers
      simp only [read_handler, hpacket]
      refine ⟨_, [], _, do_buffered_read_failed _ ?_ _, .bad hparse, (List.append_nil _).symm,
        hsome⟩
      rw [hsome]
      exact Option.some_ne_none _
    | packet n packet c' =>
      rw [hparse] at hanswers
      obtain ⟨htotal, hlt, hpacket, -, hstate, hconnection, hseq⟩ := hanswers
      simp only [read_handler, hpacket, hconnection]
      cases he : (handler (seq, packet) c'.rest).error with
      | some error =>
        exact ⟨_, [(seq, packet)], _, do_buffered_read_failed _ (Option.some_ne_none _) _,
          .refused hparse he, rfl, rfl⟩
      | none =>
        have hdrop : (x ++ d).drop n =
            [] ++ d.drop (do_read_packet D A reading.closure d).total := by
          rw [List.drop_append, List.drop_of_length_le (by omega), ← htotal,
            Nat.add_sub_cancel_left]
        obtain ⟨reading', packets, ending, hrun, hreceived, hpackets, hends⟩ :=
          ih (d.drop (do_read_packet D A reading.closure d).total)
            ⟨{ (do_read_packet D A reading.closure d).closure with
                connection := (handler (seq, packet) c'.rest).connection c' },
              reading.packets ++ [(seq, packet)], none⟩
            (by rw [List.length_drop]; omega) rfl (.start hstate rfl hseq rfl)
        refine ⟨reading', (seq, packet) :: packets, ending, hrun, ?_, ?_, hends⟩
        · rw [← hdrop] at hreceived
          exact .packet hparse he hreceived
        · rw [hpackets, List.append_assoc]
          rfl

/-- All the pieces. -/
theorem buffered_reads_received (hD : ∀ t, 8 ≤ D.block t) : ∀ (pieces : List (List UInt8))
    (reading : Reading T M P) {c : ssh_connection T M P} {seq : ℕ} {x : List UInt8},
    reading.error = none → At D A c seq reading.closure x →
    ∃ reading' packets ending, buffered_reads D A handler reading pieces = some reading' ∧
      Received D A handler c seq (x ++ pieces.flatten) packets ending ∧
      reading'.packets = reading.packets ++ packets ∧ Ends D A reading' ending := by
  intro pieces
  induction pieces with
  | nil =>
    intro reading c seq x herror hat
    refine ⟨reading, [], .waiting c seq x, rfl, ?_, (List.append_nil _).symm, herror, hat⟩
    rw [List.flatten_nil, List.append_nil]
    exact .waiting hat.more
  | cons d pieces ih =>
    intro reading c seq x herror hat
    obtain ⟨reading', packets, ending, hrun, hreceived, hpackets, hends⟩ :=
      do_buffered_read_received handler hD d.length d reading le_rfl herror hat
    rw [buffered_reads, hrun, Option.bind_some, List.flatten_cons, ← List.append_assoc]
    cases ending with
    | waiting c' seq' r =>
      obtain ⟨herror', hat'⟩ := hends
      obtain ⟨reading'', packets', ending', hrun', hreceived', hpackets', hends'⟩ :=
        ih reading' herror' hat'
      refine ⟨reading'', packets ++ packets', ending', hrun',
        hreceived.waiting_append rfl hreceived', ?_, hends'⟩
      rw [hpackets', hpackets, List.append_assoc]
    | failed error =>
      have herror' : reading'.error = some error := hends
      have hstays : ∀ pieces : List (List UInt8),
          buffered_reads D A handler reading' pieces = some reading' := by
        intro pieces
        induction pieces with
        | nil => rfl
        | cons d pieces ih =>
          have hsome : reading'.error ≠ none := by
            rw [herror']
            exact Option.some_ne_none _
          rw [buffered_reads, do_buffered_read_failed _ hsome, Option.bind_some, ih]
      exact ⟨reading', packets, _, hstays pieces, hreceived.failed_append rfl _, hpackets, herror'⟩

variable {handler}

/-- The exceptions of the reader itself. -/
def readErrors : List String := ["Packet too large", "Invalid packet length", "MAC error"]

theorem parse_bad {n : ℕ} {error : String} (h : parse D A c seq y = .bad n error) :
    error ∈ readErrors := by
  simp only [parse] at h
  split at h
  · cases h
  split at h
  · cases h
    exact List.mem_cons_self
  split at h
  · cases h
    exact List.mem_cons_of_mem _ List.mem_cons_self
  split at h
  · cases h
  simp only [verify] at h
  split at h
  · cases h
  split at h
  · cases h
  split at h
  · cases h
    exact List.mem_cons_of_mem _ (List.mem_cons_of_mem _ List.mem_cons_self)
  · cases h

/-- An exception is one of the reader's, or one that the handler of a packet has raised. An
assertion is neither. -/
theorem Received.error_known (h : Received D A handler c seq y packets ending) :
    ∀ {error : String}, ending = .failed error → error ∈ readErrors ∨
      ∃ packet rest, (handler packet rest).error = some error := by
  induction h with
  | waiting _ =>
    intro error herror
    cases herror
  | bad h =>
    intro error herror
    cases herror
    exact Or.inl (parse_bad h)
  | refused _ he =>
    intro error herror
    cases herror
    exact Or.inr ⟨_, _, he⟩
  | packet _ _ _ ih => exact ih

variable (D A handler)

/-- For every stream there are packets and an ending that the reader comes to in whatever
pieces it gets the stream: those that are found when it is parsed as a whole. No assertion
fails on the way, whatever the bytes are. -/
theorem packets_of_stream (hD : ∀ t, 8 ≤ D.block t) (connection : ssh_connection T M P)
    (stream : List UInt8) :
    ∃ packets ending, Received D A handler connection 0 stream packets ending ∧
      (∀ error, ending.error = some error → error ∈ readErrors ∨
        ∃ packet rest, (handler packet rest).error = some error) ∧
      ∀ pieces : List (List UInt8), pieces.flatten = stream →
        ∃ reading, buffered_reads D A handler ⟨make_read_packet connection, [], none⟩ pieces =
            some reading ∧
          reading.packets = packets ∧ reading.error = ending.error := by
  have hreads : ∀ pieces : List (List UInt8), pieces.flatten = stream →
      ∃ reading ending, buffered_reads D A handler ⟨make_read_packet connection, [], none⟩
          pieces = some reading ∧
        Received D A handler connection 0 stream reading.packets ending ∧
        reading.error = ending.error := by
    intro pieces hpieces
    obtain ⟨reading, packets, ending, hrun, hreceived, hpackets, hends⟩ :=
      buffered_reads_received handler hD pieces ⟨make_read_packet connection, [], none⟩ rfl
        (.start rfl rfl rfl rfl : At D A connection 0 _ [])
    rw [List.nil_append, hpieces] at hreceived
    have hpackets : reading.packets = packets := hpackets
    rw [← hpackets] at hreceived
    refine ⟨reading, ending, hrun, hreceived, ?_⟩
    cases ending with
    | waiting c seq bytes => exact hends.1
    | failed error => exact hends
  obtain ⟨whole, ending, -, hwhole, -⟩ := hreads [stream] (by
    rw [List.flatten_cons, List.flatten_nil, List.append_nil])
  refine ⟨whole.packets, ending, hwhole, ?_, ?_⟩
  · intro error herror
    cases ending with
    | waiting c seq bytes => cases herror
    | failed error' =>
      cases herror
      exact hwhole.error_known rfl
  · intro pieces hpieces
    obtain ⟨reading, ending', hrun, hreceived, herror⟩ := hreads pieces hpieces
    obtain ⟨hpackets, hending⟩ := hreceived.unique hwhole
    exact ⟨reading, hrun, hpackets, herror.trans (congrArg _ hending)⟩

end

/-- A cipher and a code for the examples. -/
def counting : Cipher UInt8 := keystream (n := 8) (fun s => (s+1, s)) (Nat.succ_pos 7)

def summing : Mac UInt8 where
  size _ := 1
  update m x := x.foldl (· + ·) m
  digest m := (0, [m])
  size_pos _ := Nat.one_pos
  size_update _ _ := rfl
  length_digest _ := rfl
  update_append _ _ _ := List.foldl_append

/-- A handler that takes no packet. -/
def refusing : ℕ × List UInt8 → Unit → Handled UInt8 UInt8 Unit :=
  fun _ _ => ⟨(), none, some "Received empty packet."⟩

theorem packets_of_stream_refused :
    ∃ packets ending, Received counting summing refusing ⟨some 5, some 0, SSH_MAX_PACKET, ()⟩ 0
        [1, 2, 3, 4, 5, 6, 7, 8, 9] packets ending ∧
      (∀ error, ending.error = some error → error ∈ readErrors ∨
        ∃ packet rest, (refusing packet rest).error = some error) ∧
      ∀ pieces : List (List UInt8), pieces.flatten = [1, 2, 3, 4, 5, 6, 7, 8, 9] →
        ∃ reading, buffered_reads counting summing refusing
            ⟨make_read_packet ⟨some 5, some 0, SSH_MAX_PACKET, ()⟩, [], none⟩ pieces =
              some reading ∧
          reading.packets = packets ∧ reading.error = ending.error :=
  packets_of_stream counting summing refusing (fun _ => le_rfl) _ _

end Packets
