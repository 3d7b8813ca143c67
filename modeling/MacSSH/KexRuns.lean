import MacSSH.KexMeeting
import MacSSH.PacketReading
import Mathlib.Logic.Relation

/-! Runs of both ends. Each end may propose a new exchange whenever none goes on, packets
arrive in the order in which they have been written, and everything may be interleaved. -/
namespace KeyExchange
open Ciphers

section
variable {N S T M C : Type}

/-- An end, and the packets that are on their way to it. -/
structure Party (N S T M C : Type) where
  connection : ssh_connection N S T M C
  inbox : List (Packet S M C)
  error : Option Failure

/-- The end `i` goes on as `party`, and what it has sent is on its way to the other end. -/
def sends (parties : Mode → Party N S T M C) (i : Mode) (party : Party N S T M C)
    (sent : List (Packet S M C)) : Mode → Party N S T M C :=
  fun j => if j = i then party else { parties j with inbox := (parties j).inbox ++ sent }

variable (d : Meeting N S T M C)

def start : Mode → Party N S T M C :=
  fun _ => { connection := d.idle none, inbox := [], error := none }

inductive Step : (Mode → Party N S T M C) → (Mode → Party N S T M C) → Prop
  /-- A new exchange, when the end has not made a proposal yet. -/
  | propose {parties : Mode → Party N S T M C} (i : Mode) {cookie : List UInt8}
      {connection : ssh_connection N S T M C} {sent : List (Packet S M C)}
      (running : (parties i).error = none)
      (state : (parties i).connection.kex_state = .KEX_STATE_INIT)
      (fresh : (parties i).connection.kexinits i = none) (cookie_length : cookie.length = 16)
      (proposed : propose (d.closure i) cookie (parties i).connection = some (connection, sent)) :
      Step parties (sends parties i { parties i with connection := connection } sent)
  /-- A failed assertion in the proposal. -/
  | failed {parties : Mode → Party N S T M C} (i : Mode) {cookie : List UInt8}
      (running : (parties i).error = none)
      (state : (parties i).connection.kex_state = .KEX_STATE_INIT)
      (fresh : (parties i).connection.kexinits i = none) (cookie_length : cookie.length = 16)
      (proposed : propose (d.closure i) cookie (parties i).connection = none) :
      Step parties (sends parties i { parties i with error := some .fatal } [])
  /-- A message that asks for nothing. -/
  | say {parties : Mode → Party N S T M C} (i : Mode) {packet : List UInt8}
      (running : (parties i).error = none) (quiet : Quiet (d.closure i.other) packet) :
      Step parties (sends parties i (parties i) [{ payload := packet, newkeys := none }])
  /-- The next packet arrives. -/
  | deliver {parties : Mode → Party N S T M C} (i : Mode) (random : Random) (sequence_number : ℕ)
      {packet : Packet S M C} {inbox : List (Packet S M C)} {r : Handled N S T M C}
      (running : (parties i).error = none) (next : (parties i).inbox = packet :: inbox)
      (cookie_length : random.cookie.length = 16)
      (handled : r = connection_handle_packet (d.closure i) random (parties i).connection
        sequence_number packet.payload) :
      Step parties (sends parties i
        { connection := r.connection, inbox := inbox, error := r.error } r.sent)

def Reachable (parties : Mode → Party N S T M C) : Prop :=
  Relation.ReflTransGen (Step d) (start d) parties

/-! ### What is in flight -/

/-- A packet that says nothing about the exchange. -/
def Packet.idle (packet : Packet S M C) : Bool :=
  packet.payload.head? = some 2 ∨ packet.payload.head? = some 4

def heard (l : List (Packet S M C)) : List (Packet S M C) :=
  l.filter fun packet => !packet.idle

def plain (payload : List UInt8) : Packet S M C :=
  { payload := payload, newkeys := none }

def newkeys (send : Keys S M C) : Packet S M C :=
  { payload := [21], newkeys := some send }

/-- One value for the end `i`, another for the other end. -/
def sides {α : Type} (i : Mode) (a b : α) : Mode → α :=
  fun j => if j = i then a else b

/-- The stages that the two ends can be in together, with the packets between them that
belong to the exchange. -/
inductive Shape (R : S → T → Prop) (Z : C → C → Prop) : (Mode → Party N S T M C) → Prop
  | rest (s : Option (List UInt8)) :
      Shape R Z fun _ => { connection := d.idle s, inbox := [], error := none }
  | proposed (i : Mode) (s : Option (List UInt8)) {cookie : List UInt8}
      (hcookie : cookie.length = 16) :
      Shape R Z (sides i
        { connection := d.proposed i s cookie, inbox := [], error := none }
        { connection := d.idle s, inbox := [plain (d.kexinit_packet i cookie)], error := none })
  | both_proposed (s : Option (List UInt8)) {cookies : Mode → List UInt8}
      (hcookies : ∀ i, (cookies i).length = 16) :
      Shape R Z fun i =>
        { connection := d.proposed i s (cookies i)
          inbox := [plain (d.kexinit_packet i.other (cookies i.other))]
          error := none }
  | first (i : Mode) (s : Option (List UInt8)) {cookies : Mode → List UInt8} (random : ℕ)
      (hcookies : ∀ i, (cookies i).length = 16) :
      Shape R Z (sides i
        { connection := d.talking i s cookies random, inbox := [], error := none }
        { connection := d.proposed i.other s (cookies i.other)
          inbox := plain (d.kexinit_packet i (cookies i)) :: d.opened i random
          error := none })
  | talking (s : Option (List UInt8)) (cookies : Mode → List UInt8) (x y : ℕ) :
      Shape R Z (both
        { connection := d.talking .client s cookies x, inbox := [], error := none }
        { connection := d.talking .server s cookies y
          inbox := d.opened .client x
          error := none })
  | answered (s : Option (List UInt8)) (cookies : Mode → List UInt8) (x y : ℕ)
      {receive : Keys T M C} {send : Keys S M C}
      (hkeys : d.install .server s cookies x y = some (some (receive, send))) :
      Shape R Z (both
        { connection := d.talking .client s cookies x
          inbox := [plain (d.reply cookies x y), newkeys send]
          error := none }
        { connection := d.finished s cookies x y receive, inbox := [], error := none })
  | finished (s : Option (List UInt8)) (cookies : Mode → List UInt8) (x y : ℕ)
      (receive : Mode → Keys T M C) (send : Mode → Keys S M C)
      (hkeys : ∀ i, KeysMatch R Z (send i.other) (receive i)) :
      Shape R Z fun i =>
        { connection := d.finished s cookies x y (receive i)
          inbox := [newkeys (send i.other)]
          error := none }
  | again (i : Mode) (s : Option (List UInt8)) (cookies : Mode → List UInt8) (x y : ℕ)
      {receive : Keys T M C} {send : Keys S M C} (hkeys : KeysMatch R Z send receive) :
      Shape R Z (sides i
        { connection := d.idle (some (d.session s cookies x y)), inbox := [], error := none }
        { connection := d.finished s cookies x y receive, inbox := [newkeys send], error := none })
  | proposed_again (i : Mode) (s : Option (List UInt8)) (cookies : Mode → List UInt8) (x y : ℕ)
      {receive : Keys T M C} {send : Keys S M C} (hkeys : KeysMatch R Z send receive)
      {cookie : List UInt8} (hcookie : cookie.length = 16) :
      Shape R Z (sides i
        { connection := d.proposed i (some (d.session s cookies x y)) cookie
          inbox := []
          error := none }
        { connection := d.finished s cookies x y receive
          inbox := [newkeys send, plain (d.kexinit_packet i cookie)]
          error := none })
  | server_weak (s : Option (List UInt8)) (cookies : Mode → List UInt8) (x y : ℕ)
      (hweak : d.install .server s cookies x y = some none)
      (connection : ssh_connection N S T M C) (l l' : List (Packet S M C)) :
      Shape R Z (both
        { connection := d.talking .client s cookies x
          inbox := plain (d.reply cookies x y) :: l
          error := none }
        { connection := connection, inbox := l', error := some weak })
  | both_weak (parties : Mode → Party N S T M C)
      (hweak : ∀ i, (parties i).error = some weak) : Shape R Z parties

variable {d} {R : S → T → Prop} {Z : C → C → Prop} {parties : Mode → Party N S T M C}

theorem Shape.congr {parties' : Mode → Party N S T M C} (h : Shape d R Z parties)
    (hsame : ∀ i, parties i = parties' i) : Shape d R Z parties' := by
  have hfun : parties = parties' := funext hsame
  rwa [← hfun]

theorem other_other (i : Mode) : i.other.other = i := by
  cases i <;> rfl

theorem ne_other {i j : Mode} (h : j ≠ i) : i = j.other := by
  cases i <;> cases j <;> first | rfl | exact absurd rfl h

theorem plain_heard (msg : UInt8) (r : List UInt8) (h2 : msg ≠ 2) (h4 : msg ≠ 4)
    (newkeys : Option (Keys S M C)) :
    heard [{ payload := msg :: r, newkeys := newkeys }] =
      [{ payload := msg :: r, newkeys := newkeys }] := by
  apply List.filter_eq_self.mpr
  intro packet hpacket
  rw [List.mem_singleton.mp hpacket]
  simp [Packet.idle, h2, h4]

theorem Quiet.idle {closure : kexinit_handler N S T M C} {packet : List UInt8}
    (h : Quiet closure packet) (newkeys : Option (Keys S M C)) :
    ({ payload := packet, newkeys := newkeys } : Packet S M C).idle = true := by
  obtain ⟨msg, hhead, hkind, -, -⟩ := h
  rcases hkind with rfl | rfl <;> simp [Packet.idle, hhead]

theorem kexinit_heard (i : Mode) (cookie : List UInt8) :
    heard [plain (S := S) (M := M) (C := C) (d.kexinit_packet i cookie)] =
      [plain (d.kexinit_packet i cookie)] := by
  obtain ⟨r, hr⟩ : ∃ r, d.kexinit_packet i cookie = 20 :: r := kexinit_packet_cons
  rw [hr]
  exact plain_heard 20 r (by decide) (by decide) none

theorem opened_heard (i : Mode) (random : ℕ) : heard (d.opened i random) = d.opened i random := by
  cases i with
  | client => exact plain_heard 30 _ (by decide) (by decide) none
  | server => rfl

theorem heard_append (l l' : List (Packet S M C)) : heard (l ++ l') = heard l ++ heard l' :=
  List.filter_append _ _

/-- The word after NEWKEYS says nothing about the exchange. -/
theorem finish_heard (i : Mode) (send : Keys S M C) : heard (d.finish i send) = [newkeys send] := by
  have hnewkeys : heard [newkeys send] = [newkeys send] :=
    plain_heard 21 [] (by decide) (by decide) (some send)
  have hdebug : (plain (S := S) (M := M) (C := C) debug_packet).idle = true := by
    have hhead : debug_packet.head? = some 4 := by rfl
    simp [Packet.idle, plain, hhead]
  have hword : heard (if (d.closure i).verbose_flag then
      [plain (S := S) (M := M) (C := C) debug_packet] else []) = [] := by
    split_ifs
    · apply List.filter_eq_nil_iff.mpr
      intro packet hpacket
      rw [List.mem_singleton.mp hpacket, hdebug]
      simp
    · rfl
  have hsplit : d.finish i send = [newkeys send] ++
      if (d.closure i).verbose_flag then [plain debug_packet] else [] := rfl
  rw [hsplit, heard_append, hnewkeys, hword, List.append_nil]

/-- An end that runs is in a state that takes quiet packets. -/
theorem Shape.running (h : Shape d R Z parties) (i : Mode) (hrun : (parties i).error = none) :
    (parties i).connection.rec_max_packet = Packets.SSH_MAX_PACKET ∧
      (parties i).connection.kex_state ≠ .KEX_STATE_IGNORE := by
  have hinit : KexState.KEX_STATE_INIT ≠ .KEX_STATE_IGNORE := by decide
  have hnewkeys : KexState.KEX_STATE_NEWKEYS ≠ .KEX_STATE_IGNORE := by decide
  have htalking : d.kex_state ≠ .KEX_STATE_IGNORE := by
    rw [Meeting.kex_state]
    split_ifs <;> decide
  cases h with
  | rest s => exact ⟨rfl, hinit⟩
  | proposed j s hcookie => cases i <;> cases j <;> exact ⟨rfl, hinit⟩
  | both_proposed s hcookies => exact ⟨rfl, hinit⟩
  | first j s random hcookies =>
    cases i <;> cases j <;> first | exact ⟨rfl, htalking⟩ | exact ⟨rfl, hinit⟩
  | talking s cookies x y => cases i <;> exact ⟨rfl, htalking⟩
  | answered s cookies x y hkeys =>
    cases i with
    | client => exact ⟨rfl, htalking⟩
    | server => exact ⟨rfl, hnewkeys⟩
  | finished s cookies x y receive send hkeys => exact ⟨rfl, hnewkeys⟩
  | again j s cookies x y hkeys =>
    cases i <;> cases j <;> first | exact ⟨rfl, hnewkeys⟩ | exact ⟨rfl, hinit⟩
  | proposed_again j s cookies x y hkeys hcookie =>
    cases i <;> cases j <;> first | exact ⟨rfl, hnewkeys⟩ | exact ⟨rfl, hinit⟩
  | server_weak s cookies x y hweak connection l l' =>
    cases i with
    | client => exact ⟨rfl, htalking⟩
    | server => cases hrun
  | both_weak _ hweak =>
    rw [hweak i] at hrun
    cases hrun

/-- An end that has made no proposal is at rest, and can make one. -/
theorem Shape.propose (h : Shape d R Z parties) (i : Mode) (hrun : (parties i).error = none)
    (hstate : (parties i).connection.kex_state = .KEX_STATE_INIT)
    (hfresh : (parties i).connection.kexinits i = none) {cookie : List UInt8}
    (hcookie : cookie.length = 16) :
    ∃ s, (parties i).connection = d.idle s ∧
      Shape d R Z (sends parties i { parties i with connection := d.proposed i s cookie }
        [plain (d.kexinit_packet i cookie)]) := by
  cases h with
  | rest s =>
    refine ⟨s, rfl, (Shape.proposed i s hcookie).congr ?_⟩
    intro k
    cases i <;> cases k <;> rfl
  | @proposed j s cookie' hcookie' =>
    by_cases hij : i = j
    · subst hij
      cases i <;> cases hfresh
    · refine ⟨s, by rw [sides, if_neg hij], ?_⟩
      have hcookies : ∀ k : Mode, (if k = i then cookie else cookie').length = 16 := by
        intro k
        split_ifs <;> assumption
      refine (Shape.both_proposed s hcookies).congr ?_
      intro k
      cases i <;> cases j <;> first
        | exact absurd rfl hij
        | cases k <;> rfl
  | both_proposed s hcookies => cases i <;> cases hfresh
  | first j s random hcookies => cases i <;> cases j <;> cases hfresh
  | talking s cookies x y => cases i <;> cases hfresh
  | answered s cookies x y hkeys => cases i <;> cases hfresh
  | finished s cookies x y receive send hkeys => cases hfresh
  | again j s cookies x y hkeys =>
    by_cases hij : i = j
    · subst hij
      refine ⟨some (d.session s cookies x y), by rw [sides, if_pos rfl], ?_⟩
      refine (Shape.proposed_again i s cookies x y hkeys hcookie).congr ?_
      intro k
      cases i <;> cases k <;> rfl
    · cases i <;> cases j <;> first
        | exact absurd rfl hij
        | cases hstate
  | proposed_again j s cookies x y hkeys hcookie' =>
    cases i <;> cases j <;> cases hfresh
  | server_weak s cookies x y hweak connection l l' =>
    cases i with
    | client => cases hfresh
    | server => cases hrun
  | both_weak _ hweak =>
    rw [hweak i] at hrun
    cases hrun

/-- What an end writes besides the messages of the exchange is quiet. -/
def QuietSent (d : Meeting N S T M C) (i : Mode) (sent : List (Packet S M C)) : Prop :=
  ∀ packet ∈ sent, packet.idle → packet.newkeys = none ∧ Quiet (d.closure i.other) packet.payload

/-- The keys for receiving change when the ones for sending have changed. -/
def InStep (R : S → T → Prop) (Z : C → C → Prop) (packet : Packet S M C)
    (r : Handled N S T M C) : Prop :=
  r.error = some weak ∨
    r.error = none ∧ Option.Rel (KeysMatch R Z) packet.newkeys r.newkeys

theorem quiet_heard {i : Mode} {sent : List (Packet S M C)} (h : heard sent = sent) :
    QuietSent d i sent := by
  intro packet hpacket hidle
  rw [← h] at hpacket
  have hnot := (List.mem_filter.mp hpacket).2
  rw [hidle] at hnot
  cases hnot

/-- What an end writes before it gives up. -/
theorem weak_quiet (i : Mode) (rest : List UInt8) :
    QuietSent d i
      [{ payload := [21], newkeys := none }, { payload := 1 :: rest, newkeys := none }] := by
  apply quiet_heard
  have hsplit := heard_append (S := S) (M := M) (C := C) [{ payload := [21], newkeys := none }]
    [{ payload := 1 :: rest, newkeys := none }]
  rwa [plain_heard 21 [] (by decide) (by decide),
    plain_heard 1 rest (by decide) (by decide)] at hsplit

theorem QuietSent.append {i : Mode} {l l' : List (Packet S M C)} (h : QuietSent d i l)
    (h' : QuietSent d i l') : QuietSent d i (l ++ l') := by
  intro packet hpacket
  rcases List.mem_append.mp hpacket with hpacket | hpacket
  · exact h packet hpacket
  · exact h' packet hpacket

theorem finish_quiet (hd : d.Compatible R Z) (i : Mode) (send : Keys S M C) :
    QuietSent d i (d.finish i send) := by
  intro packet hpacket hidle
  rcases List.mem_cons.mp hpacket with rfl | hpacket
  · simp [Packet.idle] at hidle
  · split_ifs at hpacket with hverbose
    · rw [List.mem_singleton.mp hpacket]
      exact ⟨rfl, hd.debug i hverbose⟩
    · cases hpacket

/-- The answer to a packet of the exchange brings the ends to another stage. -/
theorem Shape.answered_by {target : Mode → Party N S T M C} (h : Shape d R Z target) (i : Mode)
    {packet : Packet S M C} {inbox : List (Packet S M C)} (hnone : packet.newkeys = none)
    {connection : ssh_connection N S T M C} {sent : List (Packet S M C)}
    (hheard : heard sent = sent) {r : Handled N S T M C} (hr : r = .done connection sent)
    (hsame : ∀ k, target k =
      sends parties i { connection := connection, inbox := inbox, error := none } sent k) :
    Shape d R Z (sends parties i { connection := r.connection, inbox := inbox, error := r.error }
      (heard r.sent)) ∧ QuietSent d i r.sent ∧ InStep R Z packet r := by
  subst hr
  refine ⟨?_, quiet_heard hheard, Or.inr ⟨rfl, ?_⟩⟩
  · show Shape d R Z (sends parties i
      { connection := connection, inbox := inbox, error := none } (heard sent))
    rw [hheard]
    exact h.congr hsame
  · rw [hnone]
    exact .none

/-- The next packet of the exchange. -/
theorem Shape.deliver (hd : d.Compatible R Z) (h : Shape d R Z parties) (i : Mode)
    (hrun : (parties i).error = none) {packet : Packet S M C} {inbox : List (Packet S M C)}
    (hnext : (parties i).inbox = packet :: inbox) (random : Random)
    (hcookie : random.cookie.length = 16) (sequence_number : ℕ) {r : Handled N S T M C}
    (hr : r = connection_handle_packet (d.closure i) random (parties i).connection
      sequence_number packet.payload) :
    Shape d R Z (sends parties i { connection := r.connection, inbox := inbox, error := r.error }
      (heard r.sent)) ∧ QuietSent d i r.sent ∧ InStep R Z packet r := by
  cases h with
  | rest s => cases hnext
  | @proposed j s cookie hcookie' =>
    by_cases hij : i = j
    · subst hij
      cases i <;> cases hnext
    · have hj : j = i.other := ne_other hij
      subst hj
      have hnext : [plain (d.kexinit_packet i.other cookie)] = packet :: inbox := by
        cases i <;> exact hnext
      cases hnext
      have hcookies : ∀ k : Mode, (if k = i then random.cookie else cookie).length = 16 := by
        intro k
        split_ifs <;> assumption
      have hrandom : random.cookie = if i = i then random.cookie else cookie := (if_pos rfl).symm
      have hhandled := kexinit_before_proposal hd i s hcookies random hrandom
        sequence_number
      have hr : r = .done (d.talking i s (fun k => if k = i then random.cookie else cookie)
          random.number)
            (plain (d.kexinit_packet i random.cookie) :: d.opened i random.number) := by
        cases i <;> exact hr.trans hhandled
      have hsplit := heard_append [plain (d.kexinit_packet i random.cookie)]
        (d.opened i random.number)
      rw [kexinit_heard, opened_heard] at hsplit
      apply (Shape.first i s random.number hcookies).answered_by i rfl hsplit hr
      intro k
      cases i <;> cases k <;> rfl
  | @both_proposed s cookies hcookies =>
    cases hnext
    have hhandled := kexinit_after_proposal hd i s hcookies random sequence_number
    apply (Shape.first i s random.number hcookies).answered_by i rfl
      (opened_heard i random.number) (hr.trans hhandled)
    intro k
    cases i <;> cases k <;> rfl
  | @first j s cookies random' hcookies =>
    by_cases hij : i = j
    · subst hij
      cases i <;> cases hnext
    · have hj : j = i.other := ne_other hij
      subst hj
      have hnext : plain (d.kexinit_packet i.other (cookies i.other)) :: d.opened i.other random' =
          packet :: inbox := by
        cases i <;> exact hnext
      cases hnext
      have hhandled := kexinit_after_proposal hd i s hcookies random sequence_number
      have hr : r = .done (d.talking i s cookies random.number) (d.opened i random.number) := by
        cases i <;> exact hr.trans hhandled
      have hheard := opened_heard (d := d) i random.number
      cases i with
      | client =>
        apply (Shape.talking s cookies random.number random').answered_by .client rfl hheard hr
        intro k
        cases k <;> rfl
      | server =>
        apply (Shape.talking s cookies random' random.number).answered_by .server rfl hheard hr
        intro k
        cases k <;> rfl
  | talking s cookies x y =>
    cases i with
    | client => cases hnext
    | server =>
      cases hnext
      have hhandled := hr.trans (dh_init_handled hd s cookies x y random sequence_number)
      have hreply : heard [plain (S := S) (M := M) (C := C) (d.reply cookies x y)] =
          [plain (d.reply cookies x y)] := plain_heard 31 _ (by decide) (by decide) none
      rcases install_keys_match hd (d.secret cookies x y) (d.session s cookies x y) with
        ⟨-, hweak⟩ | ⟨receive, send, receive', send', -, hkeys, -, -⟩
      · obtain ⟨connection, rest, hfinish⟩ := finish_weak hd .server
          (rfl : ({ d.talking .server s cookies y with exchange := none }
            : ssh_connection N S T M C).session_id = s)
          [plain (d.reply cookies x y)] hweak
        have hr := hhandled.trans hfinish
        refine ⟨?_, ?_, Or.inl (by rw [hr])⟩
        · obtain ⟨l, hheard⟩ : ∃ l, heard r.sent = plain (d.reply cookies x y) :: l := by
            rw [hr]
            show ∃ l, heard ([plain (d.reply cookies x y)] ++ _) = _
            rw [heard_append, hreply]
            exact ⟨_, rfl⟩
          rw [hheard, hr]
          refine (Shape.server_weak s cookies x y hweak connection l []).congr ?_
          intro k
          cases k <;> rfl
        · rw [hr]
          exact (quiet_heard hreply).append (weak_quiet .server rest)
      · have hfinish := finish_installed hd .server y [plain (d.reply cookies x y)] hkeys
        have hr := hhandled.trans hfinish
        have hheard : heard r.sent = [plain (d.reply cookies x y), newkeys send'] := by
          rw [hr]
          show heard ([plain (d.reply cookies x y)] ++ d.finish .server send') = _
          rw [heard_append, hreply, finish_heard]
          rfl
        refine ⟨?_, ?_, Or.inr ?_⟩
        · rw [hheard, hr]
          refine (Shape.answered s cookies x y hkeys).congr ?_
          intro k
          cases k <;> rfl
        · rw [hr]
          exact (quiet_heard hreply).append (finish_quiet hd .server send')
        · rw [hr]
          exact ⟨rfl, .none⟩
  | @answered s cookies x y receive' send' hkeys' =>
    cases i with
    | client =>
      cases hnext
      have hhandled := hr.trans (dh_reply_handled hd s cookies x y random sequence_number)
      rcases install_keys_match hd (d.secret cookies x y) (d.session s cookies x y) with
        ⟨-, hweak⟩ | ⟨receive, send, receive'', send'', hkeys, hserver, hto, hfrom⟩
      · have hnone := hweak.symm.trans hkeys'
        cases hnone
      · have hsame := hserver.symm.trans hkeys'
        cases hsame
        have hfinish := finish_installed hd .client x [] hkeys
        have hr := hhandled.trans hfinish
        have hheard : heard r.sent = [newkeys send] := by
          rw [hr]
          exact finish_heard .client send
        have hmatch : ∀ k : Mode,
            KeysMatch R Z (both send send' k.other) (both receive receive' k) := by
          intro k
          cases k with
          | client => exact hfrom
          | server => exact hto
        refine ⟨?_, ?_, Or.inr ?_⟩
        · rw [hheard, hr]
          refine (Shape.finished s cookies x y (both receive receive') (both send send')
            hmatch).congr ?_
          intro k
          cases k <;> rfl
        · rw [hr]
          exact finish_quiet hd .client send
        · rw [hr]
          exact ⟨rfl, .none⟩
    | server => cases hnext
  | finished s cookies x y receive send hkeys =>
    cases hnext
    have hr := hr.trans
      (newkeys_handled s cookies x y (receive i) (d.closure i) random sequence_number)
    rw [hr]
    refine ⟨?_, quiet_heard rfl, Or.inr ⟨rfl, .some (hkeys i)⟩⟩
    refine (Shape.again i s cookies x y (hkeys i.other)).congr ?_
    intro k
    cases i <;> cases k <;> rfl
  | @again j s cookies x y receive send hkeys =>
    by_cases hij : i = j
    · subst hij
      cases i <;> cases hnext
    · have hj : j = i.other := ne_other hij
      subst hj
      have hnext : [newkeys send] = packet :: inbox := by
        cases i <;> exact hnext
      cases hnext
      have hhandled :=
        @newkeys_handled _ _ _ _ _ d s cookies x y receive (d.closure i) random sequence_number
      have hr : r = d.ended (d.session s cookies x y) receive := by
        cases i <;> exact hr.trans hhandled
      rw [hr]
      refine ⟨?_, quiet_heard rfl, Or.inr ⟨rfl, .some hkeys⟩⟩
      refine (Shape.rest (some (d.session s cookies x y))).congr ?_
      intro k
      cases i <;> cases k <;> rfl
  | @proposed_again j s cookies x y receive send hkeys cookie hcookie' =>
    by_cases hij : i = j
    · subst hij
      cases i <;> cases hnext
    · have hj : j = i.other := ne_other hij
      subst hj
      have hnext : [newkeys send, plain (d.kexinit_packet i.other cookie)] = packet :: inbox := by
        cases i <;> exact hnext
      cases hnext
      have hhandled :=
        @newkeys_handled _ _ _ _ _ d s cookies x y receive (d.closure i) random sequence_number
      have hr : r = d.ended (d.session s cookies x y) receive := by
        cases i <;> exact hr.trans hhandled
      rw [hr]
      refine ⟨?_, quiet_heard rfl, Or.inr ⟨rfl, .some hkeys⟩⟩
      refine (Shape.proposed i.other (some (d.session s cookies x y)) hcookie').congr ?_
      intro k
      cases i <;> cases k <;> rfl
  | server_weak s cookies x y hweak' connection l l' =>
    cases i with
    | client =>
      cases hnext
      have hhandled := hr.trans (dh_reply_handled hd s cookies x y random sequence_number)
      rcases install_keys_match hd (d.secret cookies x y) (d.session s cookies x y) with
        ⟨hweak, -⟩ | ⟨receive, send, receive', send', -, hserver, -, -⟩
      · obtain ⟨connection', rest, hfinish⟩ := finish_weak hd .client
          (rfl : ({ d.talking .client s cookies x with exchange := none }
            : ssh_connection N S T M C).session_id = s) [] hweak
        have hr := hhandled.trans hfinish
        refine ⟨?_, ?_, Or.inl (by rw [hr])⟩
        · apply Shape.both_weak
          intro k
          cases k with
          | client => exact congrArg Handled.error hr
          | server => rfl
        · rw [hr]
          exact weak_quiet .client rest
      · have hnone := hserver.symm.trans hweak'
        cases hnone
    | server => cases hrun
  | both_weak _ hweak =>
    rw [hweak i] at hrun
    cases hrun

/-! ### Runs -/

/-- The packets of the exchange alone. -/
def listening (parties : Mode → Party N S T M C) : Mode → Party N S T M C :=
  fun i => { parties i with inbox := heard (parties i).inbox }

/-- What holds in every run. -/
structure Holds (d : Meeting N S T M C) (R : S → T → Prop) (Z : C → C → Prop)
    (parties : Mode → Party N S T M C) : Prop where
  shape : Shape d R Z (listening parties)
  quiet : ∀ i, ∀ packet ∈ (parties i).inbox, packet.idle →
    packet.newkeys = none ∧ Quiet (d.closure i) packet.payload

theorem listening_sends (parties : Mode → Party N S T M C) (i : Mode) (party : Party N S T M C)
    (sent : List (Packet S M C)) : listening (sends parties i party sent) =
      sends (listening parties) i { party with inbox := heard party.inbox } (heard sent) := by
  funext j
  by_cases hj : j = i
  · simp only [listening, sends, if_pos hj]
  · simp only [listening, sends, if_neg hj, heard_append]

/-- The packets in flight after a step. -/
theorem sends_quiet {i : Mode} {party : Party N S T M C} {sent : List (Packet S M C)}
    (h : Holds d R Z parties) (hsub : ∀ packet ∈ party.inbox, packet ∈ (parties i).inbox)
    (hsent : QuietSent d i sent) : ∀ j, ∀ packet ∈ (sends parties i party sent j).inbox,
      packet.idle → packet.newkeys = none ∧ Quiet (d.closure j) packet.payload := by
  intro j packet hpacket hidle
  by_cases hj : j = i
  · rw [sends, if_pos hj] at hpacket
    subst hj
    exact h.quiet j packet (hsub packet hpacket) hidle
  · rw [sends, if_neg hj] at hpacket
    rcases List.mem_append.mp hpacket with hpacket | hpacket
    · exact h.quiet j packet hpacket hidle
    · have hquiet := hsent packet hpacket hidle
      rwa [ne_other hj, other_other] at hquiet

theorem holds_start : Holds d R Z (start d) :=
  ⟨Shape.rest none, fun _ _ hpacket => absurd hpacket List.not_mem_nil⟩

/-- Any packet that arrives. -/
theorem Holds.deliver (hd : d.Compatible R Z) (h : Holds d R Z parties) (i : Mode)
    (hrun : (parties i).error = none) {packet : Packet S M C} {inbox : List (Packet S M C)}
    (hnext : (parties i).inbox = packet :: inbox) (random : Random)
    (hcookie : random.cookie.length = 16) (sequence_number : ℕ) {r : Handled N S T M C}
    (hr : r = connection_handle_packet (d.closure i) random (parties i).connection
      sequence_number packet.payload) :
    Holds d R Z (sends parties i { connection := r.connection, inbox := inbox, error := r.error }
      r.sent) ∧ InStep R Z packet r := by
  have hsub : ∀ packet ∈ inbox, packet ∈ (parties i).inbox := by
    intro packet' hpacket'
    rw [hnext]
    exact List.mem_cons_of_mem _ hpacket'
  cases hidle : packet.idle with
  | true =>
    obtain ⟨hnone, hquiet⟩ := h.quiet i packet (by rw [hnext]; exact List.mem_cons_self) hidle
    obtain ⟨hmax, hstate⟩ := h.shape.running i hrun
    have hr := hr.trans (quiet_handled (d.closure i) random sequence_number hquiet hmax hstate)
    have hheard : heard (parties i).inbox = heard inbox := by
      rw [hnext]
      exact List.filter_cons_of_neg (by rw [hidle]; simp)
    rw [hr]
    refine ⟨⟨?_, sends_quiet h hsub (quiet_heard rfl)⟩, Or.inr ⟨rfl, ?_⟩⟩
    · rw [listening_sends]
      refine h.shape.congr ?_
      intro k
      by_cases hk : k = i
      · subst hk
        simp only [listening, sends, if_pos, hheard, Handled.done]
        exact congrArg (fun error => Party.mk _ _ error) hrun
      · simp only [listening, sends, if_neg hk, Handled.done]
        exact congrArg (fun l => Party.mk _ l _) (List.append_nil _).symm
    · rw [hnone]
      exact .none
  | false =>
    have hheard : (listening parties i).inbox = packet :: heard inbox := by
      show heard (parties i).inbox = _
      rw [hnext]
      exact List.filter_cons_of_pos (by rw [hidle]; rfl)
    obtain ⟨hshape, hsent, hstep⟩ := h.shape.deliver hd i hrun hheard random hcookie
      sequence_number hr
    refine ⟨⟨?_, sends_quiet h hsub hsent⟩, hstep⟩
    rw [listening_sends]
    exact hshape

theorem Holds.step (hd : d.Compatible R Z) (h : Holds d R Z parties)
    {parties' : Mode → Party N S T M C} (hstep : Step d parties parties') :
    Holds d R Z parties' := by
  cases hstep with
  | @propose i cookie connection sent hrun hstate hfresh hcookie hpropose =>
    obtain ⟨s, hidle, hshape⟩ := h.shape.propose i hrun hstate hfresh hcookie
    have hidle : (parties i).connection = d.idle s := hidle
    rw [hidle, propose_idle hd] at hpropose
    cases hpropose
    have hheard := kexinit_heard (d := d) i cookie
    refine ⟨?_, sends_quiet h (fun _ hpacket => hpacket) (quiet_heard hheard)⟩
    rw [listening_sends]
    have hsent :
        heard [({ payload := d.kexinit_packet i cookie, newkeys := none } : Packet S M C)] =
        [plain (d.kexinit_packet i cookie)] := hheard
    rw [hsent]
    exact hshape
  | @failed i cookie hrun hstate hfresh hcookie hpropose =>
    obtain ⟨s, hidle, -⟩ := h.shape.propose i hrun hstate hfresh hcookie
    have hidle : (parties i).connection = d.idle s := hidle
    rw [hidle, propose_idle hd] at hpropose
    cases hpropose
  | @say i packet hrun hquiet =>
    have hidle : ({ payload := packet, newkeys := none } : Packet S M C).idle = true :=
      hquiet.idle none
    have hsent : QuietSent d i [{ payload := packet, newkeys := none }] := by
      intro packet' hpacket' _
      rw [List.mem_singleton.mp hpacket']
      exact ⟨rfl, hquiet⟩
    refine ⟨?_, sends_quiet h (fun _ hpacket => hpacket) hsent⟩
    rw [listening_sends]
    have hheard : heard [({ payload := packet, newkeys := none } : Packet S M C)] = [] :=
      List.filter_cons_of_neg (by rw [hidle]; simp)
    rw [hheard]
    refine h.shape.congr ?_
    intro k
    by_cases hk : k = i
    · simp only [sends, hk, listening, if_true]
    · simp only [sends, if_neg hk, List.append_nil]
  | @deliver i random sequence_number packet inbox r hrun hnext hcookie hr =>
    exact (h.deliver hd i hrun hnext random hcookie sequence_number hr).1

theorem Reachable.holds (hd : d.Compatible R Z) (h : Reachable d parties) :
    Holds d R Z parties := by
  induction h with
  | refl => exact holds_start
  | tail _ hstep ih => exact ih.step hd hstep

theorem Shape.error (h : Shape d R Z parties) (i : Mode) :
    (parties i).error = none ∨ (parties i).error = some weak := by
  cases h with
  | proposed j | first j | again j | proposed_again j =>
    left
    cases i <;> cases j <;> rfl
  | talking | answered =>
    left
    cases i <;> rfl
  | rest | both_proposed | finished => exact Or.inl rfl
  | server_weak =>
    cases i with
    | client => exact Or.inl rfl
    | server => exact Or.inr rfl
  | both_weak _ hweak => exact Or.inr (hweak i)

/-- With nothing in flight no exchange goes on. -/
theorem Shape.at_rest (h : Shape d R Z parties) (hrun : ∀ i, (parties i).error = none)
    (hempty : ∀ i, (parties i).inbox = []) : ∃ s, ∀ i, (parties i).connection = d.idle s := by
  cases h with
  | rest s => exact ⟨s, fun _ => rfl⟩
  | proposed j | first j | again j | proposed_again j =>
    have hother := hempty j.other
    cases j <;> cases hother
  | both_proposed | finished => cases hempty .client
  | talking => cases hempty .server
  | answered => cases hempty .client
  | server_weak => cases hrun .server
  | both_weak _ hweak =>
    have hclient := hrun .client
    rw [hweak] at hclient
    cases hclient

/-- In every run no end fails, unless both refuse a weak key; a packet after which the sender
has new keys makes the receiver install the matching ones, and no other packet does; and when
nothing is in flight both ends are through with the same exchanges. -/
theorem exchange_agrees (hd : d.Compatible R Z) (hrun : Reachable d parties) :
    (∀ i, (parties i).error = none ∨ (parties i).error = some weak) ∧
      (∀ i packet inbox random sequence_number, (parties i).error = none →
        (parties i).inbox = packet :: inbox → random.cookie.length = 16 →
          InStep R Z packet (connection_handle_packet (d.closure i) random
            (parties i).connection sequence_number packet.payload)) ∧
      ((∀ i, (parties i).error = none) → (∀ i, (parties i).inbox = []) →
        ∃ session_id, ∀ i, (parties i).connection = d.idle session_id) := by
  have h := hrun.holds hd
  refine ⟨h.shape.error, ?_, ?_⟩
  · intro i packet inbox random sequence_number hrunning hnext hcookie
    exact (h.deliver hd i hrunning hnext random hcookie sequence_number rfl).2
  · intro hrunning hempty
    apply h.shape.at_rest hrunning
    intro i
    show heard (parties i).inbox = []
    rw [hempty i]
    rfl

/-- An exchange that the client begins. -/
theorem exchange_reaches (hd : d.Compatible R Z) (hquiet : ∀ i, (d.closure i).verbose_flag = false)
    {cookies : Mode → List UInt8} (hcookies : ∀ i, (cookies i).length = 16) (x y : ℕ)
    {receive : Mode → Keys T M C} {send : Mode → Keys S M C}
    (hkeys : ∀ i, d.install i none cookies x y = some (some (receive i, send i))) :
    Reachable d fun i =>
      { connection := d.finished none cookies x y (receive i)
        inbox := [newkeys (send i.other)]
        error := none } := by
  have hto {parties parties' : Mode → Party N S T M C} (h : Reachable d parties)
      (hsame : ∀ i, parties i = parties' i) : Reachable d parties' := by
    rwa [← funext hsame]
  have hfinish (i : Mode) : d.finish i (send i) = [newkeys (send i)] := by
    rw [Meeting.finish, hquiet i]
    rfl
  -- the client proposes, and the server answers with its own proposal
  have hproposed : Reachable d (sides .client
      { connection := d.proposed .client none (cookies .client), inbox := [], error := none }
      { connection := d.idle none
        inbox := [plain (d.kexinit_packet .client (cookies .client))]
        error := none }) := by
    refine hto (Relation.ReflTransGen.single (.propose .client rfl rfl rfl (hcookies .client)
      (propose_idle hd .client none (cookies .client)))) fun i => ?_
    cases i <;> rfl
  have hfirst : Reachable d (sides .server
      { connection := d.talking .server none cookies y, inbox := [], error := none }
      { connection := d.proposed .client none (cookies .client)
        inbox := plain (d.kexinit_packet .server (cookies .server)) :: d.opened .server y
        error := none }) := by
    refine hto (hproposed.tail (.deliver .server ⟨cookies .server, y⟩ 0 rfl rfl (hcookies .server)
      (kexinit_before_proposal hd .server none hcookies ⟨cookies .server, y⟩ rfl 0).symm))
      fun i => ?_
    cases i <;> rfl
  have htalking : Reachable d (both
      { connection := d.talking .client none cookies x, inbox := [], error := none }
      { connection := d.talking .server none cookies y
        inbox := d.opened .client x
        error := none }) := by
    refine hto (hfirst.tail (.deliver .client ⟨cookies .client, x⟩ 0 rfl rfl (hcookies .client)
      (kexinit_after_proposal hd .client none hcookies ⟨cookies .client, x⟩ 0).symm)) fun i => ?_
    cases i <;> rfl
  -- the message of the client, the reply, and NEWKEYS from both ends
  have hanswered : Reachable d (both
      { connection := d.talking .client none cookies x
        inbox := [plain (d.reply cookies x y), newkeys (send .server)]
        error := none }
      { connection := d.finished none cookies x y (receive .server)
        inbox := []
        error := none }) := by
    have hhandled := (dh_init_handled hd none cookies x y ⟨cookies .server, y⟩ 0).trans
      (finish_installed hd .server y _ (hkeys .server))
    rw [hfinish] at hhandled
    refine hto (htalking.tail (.deliver .server ⟨cookies .server, y⟩ 0 rfl rfl (hcookies .server)
      hhandled.symm)) fun i => ?_
    cases i <;> rfl
  have hhandled := (dh_reply_handled hd none cookies x y ⟨cookies .client, x⟩ 0).trans
    (finish_installed hd .client x _ (hkeys .client))
  rw [hfinish] at hhandled
  refine hto (hanswered.tail (.deliver .client ⟨cookies .client, x⟩ 0 rfl rfl (hcookies .client)
    hhandled.symm)) fun i => ?_
  cases i <;> rfl

end

/-- Algorithms for an example: a group of eleven numbers, and keys of one octet. -/
def small_algorithms (atom : ℕ) : Option (Algorithm UInt8 UInt8 UInt8 Unit (dh_method UInt8)) :=
  if atom = 24 then
    some (.keyexchange
      { G := { modulo := 23, generator := 2, order := 11 }
        H := Packets.summing
        make_hash := 0 })
  else if atom = 17 then
    some (.crypto
      { key_size := 1
        iv_size := 0
        make_encrypt := fun key _ => some (key.headD 0)
        make_decrypt := fun key _ => some (key.headD 0) })
  else if atom = 20 then some (.mac { key_size := 1, make_mac := fun key => key.headD 0 })
  else none

def small_init : simple_kexinit :=
  { kex_algorithms := [24]
    hostkey_algorithms := [25]
    crypto_algorithms := [17]
    mac_algorithms := [20]
    compression_algorithms := [1]
    languages := [] }

def small_key : keypair :=
  { publicKey := [1, 2, 3], sign := fun _ x => x.take 20 }

def small_lookup (_ : ℕ) (key : List UInt8) : Option verifier :=
  if key = [1, 2, 3] then some fun _ x signature => signature == x.take 20 else none

def small_keys (atom : ℕ) : Option keypair :=
  if atom = 25 then some small_key else none

def small_handler (extra : Extra) : kexinit_handler UInt8 UInt8 UInt8 UInt8 Unit :=
  { init := small_init
    extra := extra
    algorithms := small_algorithms
    dispatch := initial_dispatch
    verbose_flag := false }

def small : Meeting UInt8 UInt8 UInt8 UInt8 Unit :=
  { client := small_handler (.verifiers small_lookup)
    server := small_handler (.keys small_keys)
    client_version := [83, 83, 72]
    server_version := [83, 83, 72]
    lookup := small_lookup
    keys := small_keys
    kex := 24
    method :=
      { G := { modulo := 23, generator := 2, order := 11 }
        H := Packets.summing
        make_hash := 0 }
    hostkey := 25
    key := small_key
    crypto := 17
    mac := 20
    compression := 1 }

theorem small_proper : small_init.Proper := by
  refine ⟨?_, by decide, ?_⟩
  · intro l hl
    simp only [small_init, List.mem_cons, List.not_mem_nil, or_false] at hl
    rcases hl with rfl | rfl | rfl | rfl | rfl | rfl <;>
      exact ⟨⟨by decide, by decide⟩, by decide⟩
  · intro cookie hcookie packet hformat
    rw [format_kex_eq rfl] at hformat
    have hword (n : ℕ) : (Messages.WRITE_UINT32 n).length = 4 := rfl
    have hlist (l : List ℕ) : (atom_list l).length = 4+(Messages.write_atoms 0 l).length := by
      rw [atom_list, List.length_append, hword]
    have hlists : (do_make_simple_kexinit small_init cookie).lists =
        [[24], [25], [17], [17], [20], [20], [1], [1], [], []] := rfl
    have hlength : ((do_make_simple_kexinit small_init cookie).lists.map atom_list).flatten.length ≤
        1000 := by
      rw [hlists]
      simp only [List.map_cons, List.map_nil, List.flatten_cons, List.flatten_nil,
        List.length_append, List.length_nil, hlist, Messages.length_write_atoms]
      decide
    have hsame : (do_make_simple_kexinit small_init cookie).cookie = cookie := rfl
    have hmax : Packets.SSH_MAX_PACKET = 32768 := rfl
    rw [← Option.some.inj hformat, List.length_cons, List.length_append, List.length_append,
      List.length_cons, hword, hsame, hcookie]
    omega

theorem small_compatible : small.Compatible Eq fun _ _ => True :=
  { client_extra := rfl
    server_extra := rfl
    table := rfl
    client_init := small_proper
    server_init := small_proper
    kex := Or.inl ⟨rfl, rfl⟩
    method := rfl
    group :=
      { modulo := by decide
        order := by decide
        generates := by
          have hall : ∀ r < 11, 0 < r → 1 < 2^r%23 := by decide
          exact fun r hpos hlt => hall r hlt hpos
        short := by decide }
    hostkey := ⟨by decide, rfl⟩
    key := rfl
    key_short := by decide
    signature_short := by
      intro x
      exact (List.length_take_le 20 x).trans (by norm_num)
    verified := ⟨fun _ x signature => signature == x.take 20, rfl, fun x => beq_self_eq_true _⟩
    crypto := ⟨by decide, rfl⟩
    mac := ⟨by decide, rfl⟩
    compression := ⟨by decide, rfl⟩
    debug := by
      intro i hverbose
      cases i <;> cases hverbose
    crypto_cast := by
      refine ⟨_, rfl, ?_⟩
      rintro algorithm ⟨⟩ key iv
      exact .some rfl
    mac_cast := ⟨_, rfl⟩
    compression_cast := ⟨none, rfl, fun algorithm halgorithm => by cases halgorithm⟩ }

/-- In an exchange each end comes to the packet that makes it install the keys which the other
end has for sending. -/
theorem exchange_agrees_small : ∃ parties, Reachable small parties ∧ ∀ i random sequence_number,
    random.cookie.length = 16 → ∃ (send : Keys UInt8 UInt8 Unit) (receive : Keys UInt8 UInt8 Unit),
      (parties i).inbox = [newkeys send] ∧
        (connection_handle_packet (small.closure i) random (parties i).connection
          sequence_number [21]).newkeys = some receive ∧
        KeysMatch Eq (fun _ _ => True) send receive := by
  have hcookie : (List.replicate 16 (0 : UInt8)).length = 16 := List.length_replicate
  have hinstalled : ∀ i, ∃ receive send, small.install i none (fun _ => List.replicate 16 0) 3 5 =
      some (some (receive, send)) := by
    intro i
    cases i <;> exact ⟨_, _, rfl⟩
  choose receive send hkeys using hinstalled
  have hrun := exchange_reaches small_compatible (fun i => by cases i <;> rfl)
    (fun _ => hcookie) 3 5 hkeys
  refine ⟨_, hrun, fun i random sequence_number hrandom =>
    ⟨send i.other, receive i, rfl, ?_⟩⟩
  have hinstall := (exchange_agrees small_compatible hrun).2.1 i (newkeys (send i.other)) [] random
    sequence_number rfl rfl hrandom
  rw [newkeys, newkeys_handled] at hinstall
  rw [newkeys_handled]
  rcases hinstall with hweak | ⟨-, hmatch⟩
  · cases hweak
  · cases hmatch with
    | some hmatch => exact ⟨rfl, hmatch⟩

end KeyExchange
