import MacSSH.ChannelPairs

/-! What holds between the two ends of a channel whatever the order of their steps: the
sender's window and the bytes on their way fit the receiver's window, nothing is
transmitted after EOF or CLOSE, no bytes are lost while the receiver is open, and the
number of a channel is given up only when nothing can arrive for it any more. -/
namespace Channels

/-! ### Orders of messages -/

@[simp] theorem passed_nil (x : Bool × Bool) : passed x [] = some x := rfl

theorem passed_cons (x : Bool × Bool) (m : channel_message) (l : List channel_message) :
    passed x (m :: l) = (m.after x).bind fun y => passed y l := by
  rw [passed, List.foldlM_cons]
  rfl

theorem passed_append (x : Bool × Bool) (l w : List channel_message) :
    passed x (l ++ w) = (passed x l).bind fun y => passed y w := by
  rw [passed, List.foldlM_append]
  rfl

/-- What a message does to the pair (EOF sent, CLOSE sent), when it may come at all. -/
theorem after_eq_some {m : channel_message} {e c : Bool} {y : Bool × Bool}
    (h : m.after (e, c) = some y) :
    c = false ∧
      ((∃ n size, m = .window_adjust n size ∧ y = (e, false)) ∨
        (0 ≤ m.use ∧ e = false ∧ y = (false, false) ∧
          ((∃ n data, m = .data n data) ∨ ∃ n type data, m = .extended_data n type data)) ∨
        (∃ n, m = .eof n ∧ e = false ∧ y = (true, false)) ∨
        (∃ n, m = .close n ∧ y = (e, true))) := by
  cases m <;> cases e <;> cases c <;> simp_all [channel_message.after, eq_comm]

theorem passed_mono {l : List channel_message} : ∀ {x y : Bool × Bool},
    passed x l = some y → (x.1 = true → y.1 = true) ∧ (x.2 = true → y.2 = true) := by
  induction l with
  | nil =>
    intro x y h
    cases h
    exact ⟨id, id⟩
  | cons m l ih =>
    intro x y h
    rw [passed_cons] at h
    obtain ⟨z, hz, hl⟩ := Option.bind_eq_some_iff.mp h
    obtain ⟨e, c⟩ := x
    have hrest := ih hl
    obtain ⟨hc, hcase⟩ := after_eq_some hz
    refine ⟨?_, ?_⟩
    · intro he
      apply hrest.1
      rcases hcase with ⟨_, _, _, rfl⟩ | ⟨_, he', rfl, _⟩ | ⟨_, _, _, rfl⟩ | ⟨_, _, rfl⟩
      · exact he
      · exact absurd he (by simp [he'])
      · rfl
      · exact he
    · intro h'
      exact absurd h' (by simp [hc])

/-- After CLOSE nothing comes. -/
theorem passed_closed {l : List channel_message} {e : Bool} {y : Bool × Bool}
    (h : passed (e, true) l = some y) : l = [] := by
  cases l with
  | nil => rfl
  | cons m l =>
    rw [passed_cons] at h
    obtain ⟨z, hz, -⟩ := Option.bind_eq_some_iff.mp h
    exact absurd (after_eq_some hz).1 (by simp)

/-- After EOF no data comes. -/
theorem carried_of_ended {l : List channel_message} : ∀ {c : Bool} {y : Bool × Bool},
    passed (true, c) l = some y → carried l = [] := by
  induction l with
  | nil => intros; rfl
  | cons m l ih =>
    intro c y h
    rw [passed_cons] at h
    obtain ⟨z, hz, hl⟩ := Option.bind_eq_some_iff.mp h
    obtain ⟨-, hcase⟩ := after_eq_some hz
    rcases hcase with ⟨_, _, rfl, rfl⟩ | ⟨_, he, _⟩ | ⟨_, _, he, _⟩ | ⟨_, rfl, rfl⟩
    · exact ih hl
    · exact absurd he (by simp)
    · exact absurd he (by simp)
    · exact ih hl

@[simp] theorem used_cons (m : channel_message) (l : List channel_message) :
    used (m :: l) = m.use+used l := rfl

@[simp] theorem granted_cons (m : channel_message) (l : List channel_message) :
    granted (m :: l) = m.grant+granted l := rfl

@[simp] theorem carried_cons (m : channel_message) (l : List channel_message) :
    carried (m :: l) = m.payload ++ carried l := rfl

@[simp] theorem used_append (l w : List channel_message) : used (l ++ w) = used l+used w := by
  rw [used, List.map_append, List.sum_append]
  rfl

@[simp] theorem granted_append (l w : List channel_message) :
    granted (l ++ w) = granted l+granted w := by
  rw [granted, List.map_append, List.sum_append]
  rfl

@[simp] theorem carried_append (l w : List channel_message) :
    carried (l ++ w) = carried l ++ carried w := List.flatMap_append

@[simp] theorem length_tagged (type : Stream) (data : List UInt8) :
    (tagged type data).length = data.length := List.length_map _

/-! ### The invariant -/

/-- A channel that closes at EOF has done so once EOF has gone both ways. -/
def Ended (c : ssh_channel) : Prop :=
  c.close_at_eof = true → c.sent_eof = true → c.received_eof = true → c.sent_close = true

/-- What holds at one end by itself. -/
structure Sound (e : ChannelEnd) : Prop where
  receive : e.channel.receive = true
  alive : e.alive = !(e.channel.sent_close && e.channel.received_close)
  answered : e.channel.received_close = true → e.channel.sent_close = true
  ended : Ended e.channel
  unheard : e.channel.eof = false → e.channel.received_eof = true →
    e.channel.sent_close = true
  room : e.channel.rec_window_size+e.unreported < 2^32
  error : e.error = none

/-- What holds between the sender `s` and the receiver `r`, with the messages `l` on their
way from `s` to `r` and `k` on their way back. -/
structure Flow (s r : ChannelEnd) (l k : List channel_message) : Prop where
  addressed : s.channel.channel_number = r.number
  recipients : ∀ m ∈ l, m.recipient = r.number
  order : passed (r.channel.received_eof, r.channel.received_close) l =
    some (s.channel.sent_eof, s.channel.sent_close)
  credit : s.channel.send_window_size+used l+granted k ≤ r.channel.rec_window_size
  exact : s.channel.sent_eof = false → s.channel.sent_close = false →
    r.channel.sent_close = false →
    r.channel.rec_window_size ≤ s.channel.send_window_size+used l+granted k
  packet : s.channel.send_max_packet ≤ r.channel.rec_max_packet
  packets : ∀ m ∈ l, m.use ≤ r.channel.rec_max_packet
  history : passed (false, false) s.written =
    some (s.channel.sent_eof, s.channel.sent_close)
  conserved : s.transmitted = r.received ++ r.ignored ++ carried l
  heeded : r.channel.sent_close = false → r.ignored = []

/-! ### What an end does by itself -/

/-- An end goes from `e` to `e'` writing `w`, and no message arrives meanwhile. -/
structure Acts (e e' : ChannelEnd) (w : List channel_message) : Prop where
  number : e'.number = e.number
  channel_number : e'.channel.channel_number = e.channel.channel_number
  rec_max_packet : e'.channel.rec_max_packet = e.channel.rec_max_packet
  send_max_packet : e'.channel.send_max_packet = e.channel.send_max_packet
  received_eof : e'.channel.received_eof = e.channel.received_eof
  received_close : e'.channel.received_close = e.channel.received_close
  received : e'.received = e.received
  ignored : e'.ignored = e.ignored
  written : e'.written = e.written ++ w
  transmitted : e'.transmitted = e.transmitted ++ carried w
  recipients : ∀ m ∈ w, m.recipient = e.channel.channel_number
  order : passed (e.channel.sent_eof, e.channel.sent_close) w =
    some (e'.channel.sent_eof, e'.channel.sent_close)
  send : e'.channel.send_window_size+used w = e.channel.send_window_size
  window : e'.channel.rec_window_size = e.channel.rec_window_size+granted w
  packets : ∀ m ∈ w, m.use ≤ e.channel.send_max_packet

section
variable {e e' s r : ChannelEnd} {l k w : List channel_message} {m : channel_message}

theorem Acts.close_mono (h : Acts e e' w) (hc : e.channel.sent_close = true) :
    e'.channel.sent_close = true := (passed_mono h.order).2 hc

theorem Acts.eof_mono (h : Acts e e' w) (hc : e.channel.sent_eof = true) :
    e'.channel.sent_eof = true := (passed_mono h.order).1 hc

theorem not_of_mono {a b : Bool} (h : a = true → b = true) (hb : b = false) : a = false := by
  cases a with
  | false => rfl
  | true => exact absurd (h rfl) (by simp [hb])

/-- The sender acts. -/
theorem Flow.acts_out (h : Flow s r l k) (ha : Acts s e' w) : Flow e' r (l ++ w) k where
  addressed := ha.channel_number.trans h.addressed
  recipients := by
    intro m hm
    rcases List.mem_append.mp hm with hm | hm
    · exact h.recipients m hm
    · exact (ha.recipients m hm).trans h.addressed
  order := by
    rw [passed_append, h.order, Option.bind_some]
    exact ha.order
  credit := by
    have := h.credit
    have := ha.send
    rw [used_append]
    omega
  exact := by
    intro he hc hr
    have := h.exact (not_of_mono ha.eof_mono he) (not_of_mono ha.close_mono hc) hr
    have := ha.send
    rw [used_append]
    omega
  packet := by
    rw [ha.send_max_packet]
    exact h.packet
  packets := by
    intro m hm
    rcases List.mem_append.mp hm with hm | hm
    · exact h.packets m hm
    · exact (ha.packets m hm).trans h.packet
  history := by
    rw [ha.written, passed_append, h.history, Option.bind_some]
    exact ha.order
  conserved := by
    rw [ha.transmitted, h.conserved, carried_append]
    simp only [List.append_assoc]
  heeded := h.heeded

/-- The receiver acts. -/
theorem Flow.acts_in (h : Flow s r l k) (ha : Acts r e' w) : Flow s e' l (k ++ w) where
  addressed := h.addressed.trans ha.number.symm
  recipients := by
    rw [ha.number]
    exact h.recipients
  order := by
    rw [ha.received_eof, ha.received_close]
    exact h.order
  credit := by
    have := h.credit
    have := ha.window
    rw [granted_append]
    omega
  exact := by
    intro he hc hr
    have := h.exact he hc (not_of_mono ha.close_mono hr)
    have := ha.window
    rw [granted_append]
    omega
  packet := by
    rw [ha.rec_max_packet]
    exact h.packet
  packets := by
    rw [ha.rec_max_packet]
    exact h.packets
  history := h.history
  conserved := by
    rw [ha.received, ha.ignored]
    exact h.conserved
  heeded := by
    intro hr
    rw [ha.ignored]
    exact h.heeded (not_of_mono ha.close_mono hr)

end

/-! ### What a call does to its channel -/

/-- A call that succeeds and receives nothing. -/
structure Calls (c : ssh_channel) (turn : Turn) : Prop where
  channel_number : turn.channel.channel_number = c.channel_number
  rec_max_packet : turn.channel.rec_max_packet = c.rec_max_packet
  send_max_packet : turn.channel.send_max_packet = c.send_max_packet
  received_eof : turn.channel.received_eof = c.received_eof
  received_close : turn.channel.received_close = c.received_close
  receive : turn.channel.receive = c.receive
  eof : turn.channel.eof = c.eof
  recipients : ∀ m ∈ turn.written, m.recipient = c.channel_number
  order : passed (c.sent_eof, c.sent_close) turn.written =
    some (turn.channel.sent_eof, turn.channel.sent_close)
  send : turn.channel.send_window_size+used turn.written = c.send_window_size
  packets : ∀ m ∈ turn.written, m.use ≤ c.send_max_packet
  ended : Ended c → Ended turn.channel
  received : turn.received = []
  finished : turn.finished = (!c.sent_close && turn.channel.sent_close && c.received_close)
  error : turn.error = none

/-- A call that does nothing. -/
theorem calls_nothing (c : ssh_channel) : Calls c (Turn.of c []) := by
  constructor <;> simp [Turn.of, used, Ended]

theorem channel_close_eq (c : ssh_channel) :
    channel_close c =
      { Turn.of { c with sent_close := true }
          (if c.sent_close then [] else [.close c.channel_number]) with
        finished := !c.sent_close && c.received_close } := by
  unfold channel_close
  cases hc : c.sent_close with
  | true =>
    have he : { c with sent_close := true } = c := by rw [← hc]
    simp [he, Turn.of]
  | false => simp

theorem calls_close (c : ssh_channel) : Calls c (channel_close c) := by
  rw [channel_close_eq]
  cases hc : c.sent_close <;>
    constructor <;>
    simp [Turn.of, used, Ended, passed_cons, channel_message.after, channel_message.use,
      channel_message.recipient, hc]

theorem calls_eof (c : ssh_channel) : Calls c (channel_eof c) := by
  unfold channel_eof
  split
  next hopen =>
    simp only [Bool.not_eq_eq_eq_not, Bool.not_true, Bool.or_eq_false_iff] at hopen
    obtain ⟨⟨he, hc⟩, hr⟩ := hopen
    dsimp only
    split <;>
      constructor <;>
      simp_all [channel_close_eq, Turn.of, used, Ended, passed_cons, channel_message.after,
        channel_message.use, channel_message.recipient]
  next => exact calls_nothing c

theorem calls_exit_shell (c : ssh_channel) : Calls c (do_exit_shell c) := by
  unfold do_exit_shell
  split
  next hopen =>
    simp only [Bool.not_eq_eq_eq_not, Bool.not_true] at hopen
    dsimp only
    split <;>
      constructor <;>
      simp_all [channel_close_eq, Turn.of, used, Ended, passed_cons, channel_message.after,
        channel_message.use, channel_message.recipient]
  next => exact calls_nothing c

theorem UINT32_of_lt {n : ℕ} (h : n < 2^32) : UINT32 n = n := Nat.mod_eq_of_lt h

theorem calls_window_adjust {c : ssh_channel} (hc : c.sent_close = false) (add : ℕ) :
    Calls c (prepare_window_adjust c add) := by
  unfold prepare_window_adjust
  constructor <;>
    simp [Turn.of, used, Ended, passed_cons, channel_message.after, channel_message.use,
      channel_message.recipient, hc]

/-- Both assertions hold for data that was asked for. -/
theorem transmit_of_query {c : ssh_channel} {data : List UInt8} {m : channel_message}
    (hpos : 0 < data.length) (hq : data.length ≤ do_read_data_query c) :
    c.sent_eof = false ∧ c.sent_close = false ∧ data.length ≤ c.send_window_size ∧
      data.length ≤ c.send_max_packet ∧
      transmit c data m =
        Turn.of { c with send_window_size := c.send_window_size-data.length } [m] := by
  unfold do_read_data_query at hq
  split at hq
  · omega
  next hopen =>
    simp only [Bool.or_eq_true, not_or, Bool.not_eq_true] at hopen
    obtain ⟨⟨-, hc⟩, he⟩ := hopen
    have hw : data.length ≤ c.send_window_size := hq.trans (min_le_right _ _)
    have hm : data.length ≤ c.send_max_packet := hq.trans (min_le_left _ _)
    refine ⟨he, hc, hw, hm, ?_⟩
    rw [transmit, if_neg (by omega), if_neg (by omega)]

theorem calls_transmit {c : ssh_channel} {data : List UInt8} {m : channel_message}
    (hpos : 0 < data.length) (hq : data.length ≤ do_read_data_query c)
    (hm : m = .data c.channel_number data ∨
      m = .extended_data c.channel_number SSH_EXTENDED_DATA_STDERR data) :
    Calls c (transmit c data m) := by
  obtain ⟨he, hc, hw, hmax, ht⟩ := transmit_of_query (m := m) hpos hq
  rw [ht]
  rcases hm with rfl | rfl <;>
  · constructor <;>
      simp [Turn.of, used, Ended, passed_cons, channel_message.after, channel_message.use,
        channel_message.recipient, he, hc, hmax]
    all_goals omega

/-! ### What an end does -/

section
variable {e e' : ChannelEnd} {w : List channel_message} {turn : Turn}

/-- The end after a call that received nothing. -/
structure Called (e e' : ChannelEnd) (turn : Turn) : Prop where
  number : e'.number = e.number
  channel : e'.channel = turn.channel
  alive : e'.alive = (e.alive && !turn.finished)
  received : e'.received = e.received
  ignored : e'.ignored = e.ignored
  written : e'.written = e.written ++ turn.written
  transmitted : e'.transmitted = e.transmitted ++ carried turn.written
  error : e'.error = e.error

theorem Called.acts (h : Called e e' turn) (hc : Calls e.channel turn)
    (hw : turn.channel.rec_window_size = e.channel.rec_window_size+granted turn.written) :
    Acts e e' turn.written where
  number := h.number
  channel_number := by rw [h.channel, hc.channel_number]
  rec_max_packet := by rw [h.channel, hc.rec_max_packet]
  send_max_packet := by rw [h.channel, hc.send_max_packet]
  received_eof := by rw [h.channel, hc.received_eof]
  received_close := by rw [h.channel, hc.received_close]
  received := h.received
  ignored := h.ignored
  written := h.written
  transmitted := h.transmitted
  recipients := hc.recipients
  order := by rw [hc.order, h.channel]
  send := by rw [h.channel, hc.send]
  window := by rw [h.channel, hw]
  packets := hc.packets

theorem Called.sound (h : Called e e' turn) (hc : Calls e.channel turn) (hs : Sound e)
    (hroom : e'.channel.rec_window_size+e'.unreported < 2^32) : Sound e' where
  receive := by rw [h.channel, hc.receive, hs.receive]
  alive := by
    rw [h.alive, h.channel, hs.alive, hc.finished, hc.received_close]
    have hmono := (passed_mono hc.order).2
    have hanswered := hs.answered
    cases hr : e.channel.received_close with
    | false => simp
    | true =>
      have hclosed : turn.channel.sent_close = true := hmono (hanswered hr)
      simp [hanswered hr, hclosed]
  answered := by
    rw [h.channel, hc.received_close]
    intro hr
    exact (passed_mono hc.order).2 (hs.answered hr)
  ended := by
    rw [h.channel]
    exact hc.ended hs.ended
  unheard := by
    rw [h.channel, hc.eof, hc.received_eof]
    intro he hr
    exact (passed_mono hc.order).2 (hs.unheard he hr)
  room := hroom
  error := by rw [h.error, hs.error]

theorem called_take (hc : Calls e.channel turn) (hcarried : carried turn.written = []) :
    Called e (e.take turn) turn where
  number := rfl
  channel := rfl
  alive := rfl
  received := by
    rw [ChannelEnd.take, hc.received]
    exact List.append_nil _
  ignored := rfl
  written := rfl
  transmitted := by
    rw [hcarried, List.append_nil]
    rfl
  error := by
    rw [ChannelEnd.take, hc.error]
    exact Option.or_none

theorem unreported_take (hc : Calls e.channel turn) : (e.take turn).unreported = e.unreported := by
  rw [ChannelEnd.take, hc.received]
  rfl

/-- Calls that write neither data nor window adjustments leave the window alone. -/
theorem close_written (c : ssh_channel) :
    carried (channel_close c).written = [] ∧ granted (channel_close c).written = 0 ∧
      (channel_close c).channel.rec_window_size = c.rec_window_size := by
  rw [channel_close_eq]
  cases hc : c.sent_close <;> exact ⟨rfl, rfl, rfl⟩

theorem eof_written (c : ssh_channel) :
    carried (channel_eof c).written = [] ∧ granted (channel_eof c).written = 0 ∧
      (channel_eof c).channel.rec_window_size = c.rec_window_size := by
  unfold channel_eof
  split
  · dsimp only
    split
    · obtain ⟨hcarried, hgranted, hwindow⟩ := close_written { c with sent_eof := true }
      refine ⟨?_, ?_, hwindow⟩
      · rw [carried_cons, hcarried]
        rfl
      · rw [granted_cons, hgranted]
        rfl
    · exact ⟨rfl, rfl, rfl⟩
  · exact ⟨rfl, rfl, rfl⟩

theorem exit_shell_written (c : ssh_channel) :
    carried (do_exit_shell c).written = [] ∧ granted (do_exit_shell c).written = 0 ∧
      (do_exit_shell c).channel.rec_window_size = c.rec_window_size := by
  unfold do_exit_shell
  split
  · dsimp only
    split
    · exact close_written { c with no_wait_for_eof := true, close_at_eof := true }
    · exact ⟨rfl, rfl, rfl⟩
  · exact ⟨rfl, rfl, rfl⟩

/-- An end that makes such a call acts, and stays sound. -/
theorem acts_take (hs : Sound e) (hc : Calls e.channel turn)
    (hw : carried turn.written = [] ∧ granted turn.written = 0 ∧
      turn.channel.rec_window_size = e.channel.rec_window_size) :
    Acts e (e.take turn) turn.written ∧ Sound (e.take turn) := by
  obtain ⟨hcarried, hgranted, hwindow⟩ := hw
  have hcalled := called_take hc hcarried
  refine ⟨hcalled.acts hc (by rw [hwindow, hgranted, Nat.add_zero]), ?_⟩
  apply hcalled.sound hc hs
  rw [unreported_take hc]
  show turn.channel.rec_window_size+e.unreported < 2^32
  rw [hwindow]
  exact hs.room

theorem transmit_spec (hs : Sound e) {data : List UInt8} {type : Stream}
    {m : channel_message} (hpos : 0 < data.length)
    (hq : data.length ≤ do_read_data_query e.channel)
    (hm : m = .data e.channel.channel_number data ∨
      m = .extended_data e.channel.channel_number SSH_EXTENDED_DATA_STDERR data)
    (hpayload : m.payload = tagged type data) :
    Acts e { e.take (transmit e.channel data m) with
        transmitted := e.transmitted ++ tagged type data } (transmit e.channel data m).written ∧
      Sound { e.take (transmit e.channel data m) with
        transmitted := e.transmitted ++ tagged type data } := by
  have hc := calls_transmit hpos hq hm
  have ht := (transmit_of_query (m := m) hpos hq).2.2.2.2
  have hcalled : Called e { e.take (transmit e.channel data m) with
      transmitted := e.transmitted ++ tagged type data } (transmit e.channel data m) :=
    { number := rfl
      channel := rfl
      alive := rfl
      received := by
        show e.received ++ _ = _
        rw [hc.received]
        exact List.append_nil _
      ignored := rfl
      written := rfl
      transmitted := by
        rw [ht]
        show _ = e.transmitted ++ (m.payload ++ [])
        rw [hpayload, List.append_nil]
      error := by
        show e.error.or _ = _
        rw [hc.error]
        exact Option.or_none }
  have hgrant : m.grant = 0 := by
    rcases hm with rfl | rfl <;> rfl
  refine ⟨hcalled.acts hc ?_, hcalled.sound hc hs ?_⟩
  · rw [ht]
    show _ = e.channel.rec_window_size+(m.grant+0)
    rw [hgrant]
    rfl
  · show (transmit e.channel data m).channel.rec_window_size+(e.take _).unreported < _
    rw [unreported_take hc, ht]
    exact hs.room

/-- A window adjustment, on a channel that is not closed. -/
theorem adjust_spec (hs : Sound e) (hopen : e.channel.sent_close = false) {add n : ℕ}
    (hroom : e.channel.rec_window_size+add+n < 2^32) :
    Acts e { e.take (prepare_window_adjust e.channel add) with unreported := n }
        (prepare_window_adjust e.channel add).written ∧
      Sound { e.take (prepare_window_adjust e.channel add) with unreported := n } := by
  have hc := calls_window_adjust hopen add
  have hcalled : Called e { e.take (prepare_window_adjust e.channel add) with unreported := n }
      (prepare_window_adjust e.channel add) :=
    { called_take hc rfl with }
  have hwindow : (prepare_window_adjust e.channel add).channel.rec_window_size =
      e.channel.rec_window_size+add := UINT32_of_lt (by omega)
  refine ⟨hcalled.acts hc ?_, hcalled.sound hc hs ?_⟩
  · rw [hwindow]
    rfl
  · show (prepare_window_adjust e.channel add).channel.rec_window_size+n < _
    rw [hwindow]
    exact hroom

/-- Nothing but a report that is not announced. -/
theorem quiet_spec (hs : Sound e) {n : ℕ} (hn : n ≤ e.unreported) :
    Acts e { e.take (Turn.of e.channel []) with unreported := n } [] ∧
      Sound { e.take (Turn.of e.channel []) with unreported := n } := by
  have hc := calls_nothing e.channel
  have hcalled : Called e { e.take (Turn.of e.channel []) with unreported := n }
      (Turn.of e.channel []) :=
    { called_take hc rfl with }
  refine ⟨hcalled.acts hc rfl, hcalled.sound hc hs ?_⟩
  have := hs.room
  show e.channel.rec_window_size+n < 2^32
  omega

theorem report_spec (hs : Sound e) {written : ℕ} (hle : written ≤ e.unreported) :
    Acts e { e.take (adjust_rec_window e.channel written) with
        unreported := e.unreported-written } (adjust_rec_window e.channel written).written ∧
      Sound { e.take (adjust_rec_window e.channel written) with
        unreported := e.unreported-written } := by
  unfold adjust_rec_window
  split
  next hopen =>
    simp only [Bool.not_eq_eq_eq_not, Bool.not_true, Bool.or_eq_false_iff] at hopen
    apply adjust_spec hs hopen.2
    have := hs.room
    omega
  next => exact quiet_spec hs (Nat.sub_le _ _)

theorem start_receive_spec (hs : Sound e) (hopen : e.channel.sent_close = false) {size : ℕ}
    (hsize : size+e.unreported < 2^32) :
    Acts e (e.take (channel_start_receive e.channel size))
        (channel_start_receive e.channel size).written ∧
      Sound (e.take (channel_start_receive e.channel size)) := by
  unfold channel_start_receive
  split
  next hlt =>
    exact adjust_spec hs hopen (n := e.unreported) (by omega)
  next => exact quiet_spec hs (Nat.le_refl _)

/-- Whatever an end does by itself, it acts and stays sound. -/
theorem act_spec (hs : Sound e) {a : Action} (h : act e a = some (e', w)) :
    Acts e e' w ∧ Sound e' := by
  cases a with
  | transmit type data =>
    simp only [act] at h
    split at h
    next hguard =>
      cases type with
      | CHANNEL_DATA =>
        obtain ⟨rfl, rfl⟩ := Prod.mk.inj (Option.some.inj h)
        exact transmit_spec hs hguard.1 hguard.2 (.inl rfl) rfl
      | CHANNEL_STDERR_DATA =>
        obtain ⟨rfl, rfl⟩ := Prod.mk.inj (Option.some.inj h)
        exact transmit_spec hs hguard.1 hguard.2 (.inr rfl) rfl
    next => cases h
  | eof =>
    cases h
    exact acts_take hs (calls_eof _) (eof_written _)
  | close =>
    cases h
    exact acts_take hs (calls_close _) (close_written _)
  | report written =>
    simp only [act] at h
    split at h
    next hle =>
      obtain ⟨rfl, rfl⟩ := Prod.mk.inj (Option.some.inj h)
      exact report_spec hs hle
    next => cases h
  | start_receive size =>
    simp only [act] at h
    split at h
    next hguard =>
      obtain ⟨rfl, rfl⟩ := Prod.mk.inj (Option.some.inj h)
      simp only [Bool.and_eq_true, Bool.not_eq_eq_eq_not, Bool.not_true,
        decide_eq_true_eq] at hguard
      exact start_receive_spec hs hguard.1 hguard.2
    next => cases h
  | exit_shell =>
    cases h
    exact acts_take hs (calls_exit_shell _) (exit_shell_written _)

end

/-! ### What an end does when a message arrives -/

/-- Whether EOF or CLOSE was received, as message by message. -/
def channel_message.is_eof : channel_message → Bool
  | .eof _ => true
  | _ => false

def channel_message.is_close : channel_message → Bool
  | .close _ => true
  | _ => false

theorem after_eq {m : channel_message} {e c : Bool} {y : Bool × Bool}
    (h : m.after (e, c) = some y) :
    c = false ∧ y = (e || m.is_eof, m.is_close) ∧ (m.is_eof = true → e = false) := by
  cases m <;> cases e <;> cases c <;>
    simp_all [channel_message.after, channel_message.is_eof, channel_message.is_close, eq_comm]

/-- The end when it has taken a message in and not yet answered it. -/
def ChannelEnd.absorb (e : ChannelEnd) (m : channel_message) : ChannelEnd :=
  { e with
    channel :=
      { e.channel with
        rec_window_size := e.channel.rec_window_size-if e.channel.sent_close then 0 else m.use
        send_window_size := e.channel.send_window_size+
          if e.channel.sent_close || e.channel.sent_eof then 0 else m.grant
        received_eof := e.channel.received_eof || m.is_eof
        received_close := e.channel.received_close || m.is_close }
    unreported := e.unreported+if e.channel.sent_close then 0 else m.payload.length
    received := e.received ++ if e.channel.sent_close then [] else m.payload
    ignored := e.ignored ++ if e.channel.sent_close then m.payload else [] }

section
variable {e e' s r : ChannelEnd} {l k w : List channel_message} {m : channel_message}

theorem length_payload_le (m : channel_message) : m.payload.length ≤ m.use := by
  cases m with
  | window_adjust => exact Nat.le_refl _
  | data n bytes =>
    rw [channel_message.payload, length_tagged]
    exact Nat.le_refl _
  | extended_data n type bytes =>
    rw [channel_message.payload]
    split
    · rw [length_tagged]
      exact Nat.le_refl _
    · exact Nat.zero_le _
  | eof => exact Nat.le_refl _
  | close => exact Nat.le_refl _

/-- The receiver takes in the oldest message. -/
theorem Flow.absorb_in (h : Flow s r (m :: l) k) : Flow s (r.absorb m) l k where
  addressed := h.addressed
  recipients := fun m' hm' => h.recipients m' (List.mem_cons_of_mem _ hm')
  order := by
    have horder := h.order
    rw [passed_cons] at horder
    obtain ⟨y, hy, hl⟩ := Option.bind_eq_some_iff.mp horder
    obtain ⟨hopen, rfl, -⟩ := after_eq hy
    show passed (r.channel.received_eof || m.is_eof,
      r.channel.received_close || m.is_close) l = _
    rw [hopen, Bool.false_or]
    exact hl
  credit := by
    have hcredit := h.credit
    rw [used_cons] at hcredit
    show _ ≤ r.channel.rec_window_size-if r.channel.sent_close then 0 else m.use
    split <;> omega
  exact := by
    intro he hc hr
    have hcredit := h.credit
    have hexact := h.exact he hc hr
    have hr : r.channel.sent_close = false := hr
    rw [used_cons] at hcredit hexact
    show (r.channel.rec_window_size-if r.channel.sent_close then 0 else m.use) ≤ _
    rw [hr]
    simp only [Bool.false_eq_true, if_false]
    omega
  packet := h.packet
  packets := fun m' hm' => h.packets m' (List.mem_cons_of_mem _ hm')
  history := h.history
  conserved := by
    have hconserved := h.conserved
    rw [carried_cons] at hconserved
    show _ = (r.received ++ if r.channel.sent_close then [] else m.payload) ++
      (r.ignored ++ if r.channel.sent_close then m.payload else []) ++ carried l
    rw [hconserved]
    cases hc : r.channel.sent_close with
    | true => simp
    | false => simp [h.heeded hc]
  heeded := by
    intro hr
    have hr : r.channel.sent_close = false := hr
    show (r.ignored ++ if r.channel.sent_close then m.payload else []) = []
    rw [h.heeded hr, hr]
    rfl

/-- The sender takes in the oldest message that came back. -/
theorem Flow.absorb_out (h : Flow s r l (m :: k)) : Flow (s.absorb m) r l k where
  addressed := h.addressed
  recipients := h.recipients
  order := h.order
  credit := by
    have hcredit := h.credit
    rw [granted_cons] at hcredit
    show s.channel.send_window_size+
      (if s.channel.sent_close || s.channel.sent_eof then 0 else m.grant)+_+_ ≤ _
    split <;> omega
  exact := by
    intro he hc hr
    have he : s.channel.sent_eof = false := he
    have hc : s.channel.sent_close = false := hc
    have hexact := h.exact he hc hr
    rw [granted_cons] at hexact
    show _ ≤ s.channel.send_window_size+
      (if s.channel.sent_close || s.channel.sent_eof then 0 else m.grant)+_+_
    rw [he, hc]
    simp only [Bool.or_self, Bool.false_eq_true, if_false]
    omega
  packet := h.packet
  packets := h.packets
  history := h.history
  conserved := h.conserved
  heeded := h.heeded

/-- An end that has taken a message in and writes nothing. -/
structure Settled (a e' : ChannelEnd) : Prop where
  number : e'.number = a.number
  channel : e'.channel = a.channel
  received : e'.received = a.received
  ignored : e'.ignored = a.ignored
  written : e'.written = a.written
  transmitted : e'.transmitted = a.transmitted

theorem Settled.acts (h : Settled e e') : Acts e e' [] where
  number := h.number
  channel_number := by rw [h.channel]
  rec_max_packet := by rw [h.channel]
  send_max_packet := by rw [h.channel]
  received_eof := by rw [h.channel]
  received_close := by rw [h.channel]
  received := h.received
  ignored := h.ignored
  written := h.written.trans (List.append_nil _).symm
  transmitted := h.transmitted.trans (List.append_nil _).symm
  recipients := fun m hm => absurd hm List.not_mem_nil
  order := by rw [h.channel]; rfl
  send := by rw [h.channel]; rfl
  window := by rw [h.channel]; rfl
  packets := fun m hm => absurd hm List.not_mem_nil

/-- The data a handler passes on. -/
def Turn.data (turn : Turn) : List (Stream × UInt8) :=
  turn.received.flatMap fun r => tagged r.1 r.2

/-- Arrival at the right number. -/
theorem arrive_eq (halive : e.alive = true) (hto : m.recipient = e.number) :
    arrive e m =
      ({ e.take (handler e.channel m) with
          ignored := e.ignored ++ m.payload.drop (handler e.channel m).data.length },
        (handler e.channel m).written) := by
  rw [arrive, if_pos (by simp [halive, hto])]
  rfl

/-- A message that only has to be taken in: a window adjustment or data. -/
theorem arrive_settled (hs : Sound e) (halive : e.alive = true) (hto : m.recipient = e.number)
    (hturn : handler e.channel m =
      { Turn.of (e.absorb m).channel [] with received := (handler e.channel m).received })
    (hdata : (handler e.channel m).data = if e.channel.sent_close then [] else m.payload)
    (he : m.is_eof = false) (hc : m.is_close = false)
    (huse : m.use ≤ e.channel.rec_window_size) :
    Acts (e.absorb m) (arrive e m).1 (arrive e m).2 ∧ Sound (arrive e m).1 := by
  have hchannel : (handler e.channel m).channel = (e.absorb m).channel := by
    rw [hturn]
    rfl
  have hsettled : Settled (e.absorb m) (arrive e m).1 := by
    rw [arrive_eq halive hto]
    refine ⟨rfl, hchannel, ?_, ?_, ?_, rfl⟩
    · show e.received ++ (handler e.channel m).data = _
      rw [hdata]
      rfl
    · show e.ignored ++ m.payload.drop (handler e.channel m).data.length = e.ignored ++ _
      rw [hdata]
      cases e.channel.sent_close with
      | true => rfl
      | false => exact congrArg (e.ignored ++ ·) (List.drop_length)
    · show e.written ++ (handler e.channel m).written = e.written
      rw [hturn]
      exact List.append_nil _
  have hwritten : (arrive e m).2 = [] := by
    rw [arrive_eq halive hto]
    show (handler e.channel m).written = []
    rw [hturn]
    rfl
  refine ⟨by rw [hwritten]; exact hsettled.acts, ?_⟩
  have hflags : (arrive e m).1.channel = (e.absorb m).channel := hsettled.channel
  have heof : (e.absorb m).channel.received_eof = e.channel.received_eof := by
    show (e.channel.received_eof || m.is_eof) = _
    rw [he, Bool.or_false]
  have hclose : (e.absorb m).channel.received_close = e.channel.received_close := by
    show (e.channel.received_close || m.is_close) = _
    rw [hc, Bool.or_false]
  exact
    { receive := by rw [hflags]; exact hs.receive
      alive := by
        rw [hflags, hclose]
        show _ = !(e.channel.sent_close && _)
        rw [← hs.alive, arrive_eq halive hto]
        show (e.alive && !(handler e.channel m).finished) = e.alive
        rw [hturn]
        exact Bool.and_true _
      answered := by rw [hflags, hclose]; exact hs.answered
      ended := by
        rw [hflags]
        intro hca hse hre
        rw [heof] at hre
        exact hs.ended hca hse hre
      unheard := by rw [hflags, heof]; exact hs.unheard
      room := by
        rw [hflags, arrive_eq halive hto]
        show (e.channel.rec_window_size-if e.channel.sent_close then 0 else m.use)+
          (e.unreported+(handler e.channel m).data.length) < 2^32
        rw [hdata]
        have := hs.room
        have := length_payload_le m
        cases e.channel.sent_close with
        | true =>
          simp only [if_true, List.length_nil]
          omega
        | false =>
          simp only [Bool.false_eq_true, if_false]
          omega
      error := by
        rw [arrive_eq halive hto]
        show e.error.or (handler e.channel m).error = none
        rw [hs.error, hturn]
        rfl }

theorem truncated_of_le {c : ssh_channel} {bytes : List UInt8}
    (hmax : bytes.length ≤ c.rec_max_packet) (hw : bytes.length ≤ c.rec_window_size) :
    truncated c bytes = bytes := by
  rw [truncated, List.take_of_length_le hmax, List.take_of_length_le hw]

/-- Data that fits is received whole, unless the channel is closing. -/
theorem data_handler_fitting {c : ssh_channel} {bytes : List UInt8}
    (deliver : List UInt8 → List (Stream × List UInt8)) (hreceive : c.receive = true)
    (he : c.received_eof = false) (hc : c.received_close = false)
    (hmax : bytes.length ≤ c.rec_max_packet) (hw : bytes.length ≤ c.rec_window_size) :
    data_handler c bytes deliver =
      if c.sent_close || decide (bytes.length = 0) then Turn.of c []
      else
        { Turn.of { c with rec_window_size := c.rec_window_size-bytes.length } [] with
          received := deliver bytes } := by
  unfold data_handler
  rw [truncated_of_le hmax hw, hreceive, he, hc]
  cases c.sent_close <;> by_cases hz : bytes.length = 0 <;> simp [hz]

theorem arrive_adjust (hs : Sound e) (halive : e.alive = true) {n size : ℕ}
    (hto : n = e.number) (hopen : e.channel.received_close = false)
    (hsize : e.channel.send_window_size+size < 2^32) :
    Acts (e.absorb (.window_adjust n size)) (arrive e (.window_adjust n size)).1
        (arrive e (.window_adjust n size)).2 ∧
      Sound (arrive e (.window_adjust n size)).1 := by
  have hturn : handler e.channel (.window_adjust n size) =
      Turn.of (e.absorb (.window_adjust n size)).channel [] := by
    show window_adjust_handler e.channel size = _
    have hboth : window_adjust_handler e.channel size =
        Turn.of { e.channel with
          send_window_size := e.channel.send_window_size+
            if e.channel.sent_close || e.channel.sent_eof then 0 else size } [] := by
      unfold window_adjust_handler
      rw [if_pos (by simp [hopen]), UINT32_of_lt hsize]
      cases hclosed : e.channel.sent_close || e.channel.sent_eof <;> rfl
    rw [hboth]
    simp only [ChannelEnd.absorb, channel_message.is_eof, channel_message.is_close,
      channel_message.use, channel_message.grant, ite_self, Bool.or_false, Nat.sub_zero]
  apply arrive_settled (m := .window_adjust n size) hs halive hto
  · rw [hturn, Turn.of]
  · rw [hturn]
    exact (ite_self _).symm
  · rfl
  · rfl
  · exact Nat.zero_le _

/-- Both kinds of data. -/
theorem arrive_data (hs : Sound e) (halive : e.alive = true) {bytes : List UInt8}
    (deliver : List UInt8 → List (Stream × List UInt8)) (hto : m.recipient = e.number)
    (hhandler : handler e.channel m = data_handler e.channel bytes deliver)
    (huse : m.use = bytes.length) (hpayload : m.payload = (deliver bytes).flatMap fun r =>
      tagged r.1 r.2)
    (hgrant : m.grant = 0) (hie : m.is_eof = false) (hic : m.is_close = false)
    (he : e.channel.received_eof = false) (hc : e.channel.received_close = false)
    (hmax : bytes.length ≤ e.channel.rec_max_packet)
    (hw : bytes.length ≤ e.channel.rec_window_size) :
    Acts (e.absorb m) (arrive e m).1 (arrive e m).2 ∧ Sound (arrive e m).1 := by
  have hfit := data_handler_fitting deliver hs.receive he hc hmax hw
  have hchannel : (e.absorb m).channel = { e.channel with
      rec_window_size := e.channel.rec_window_size-
        if e.channel.sent_close then 0 else bytes.length } := by
    unfold ChannelEnd.absorb
    rw [huse, hgrant, hie, hic, ite_self, Bool.or_false, Bool.or_false]
    rfl
  have hempty : bytes.length = 0 → m.payload = [] := by
    intro hz
    have := length_payload_le m
    rw [huse, hz] at this
    exact List.length_eq_zero_iff.mp (by omega)
  apply arrive_settled hs halive hto _ _ hie hic (by omega)
  · rw [hhandler, hfit, hchannel]
    cases hsc : e.channel.sent_close with
    | true => rfl
    | false =>
      by_cases hz : bytes.length = 0
      · simp [hz, Turn.of]
      · simp [hz, hsc, Turn.of]
  · rw [hhandler, hfit]
    cases e.channel.sent_close with
    | true => rfl
    | false =>
      by_cases hz : bytes.length = 0
      · rw [hempty hz]
        simp [hz, Turn.of, Turn.data]
      · rw [hpayload]
        simp [hz, Turn.data]

/-- The end after EOF or CLOSE was taken in and answered by a call. -/
theorem called_arrive (halive : e.alive = true) (hto : m.recipient = e.number)
    (hpayload : m.payload = []) (hcalls : Calls (e.absorb m).channel (handler e.channel m))
    (hcarried : carried (handler e.channel m).written = []) (he : e.error = none) :
    Called (e.absorb m) (arrive e m).1 (handler e.channel m) := by
  rw [arrive_eq halive hto]
  exact
    { number := rfl
      channel := rfl
      alive := rfl
      received := by
        show e.received ++ (handler e.channel m).received.flatMap _ = e.received ++ _
        rw [hcalls.received, hpayload, ite_self]
        rfl
      ignored := by
        show e.ignored ++ m.payload.drop _ = e.ignored ++ _
        rw [hpayload, ite_self, List.drop_nil]
      written := rfl
      transmitted := by
        rw [hcarried]
        exact (List.append_nil _).symm
      error := by
        show e.error.or (handler e.channel m).error = e.error
        rw [hcalls.error, he]
        rfl }

theorem arrive_eof (hs : Sound e) (halive : e.alive = true) {n : ℕ}
    (hto : (channel_message.eof n).recipient = e.number)
    (hopen : e.channel.received_close = false) (he : e.channel.received_eof = false) :
    Acts (e.absorb (.eof n)) (arrive e (.eof n)).1 (arrive e (.eof n)).2 ∧
      Sound (arrive e (.eof n)).1 := by
  have hchannel : (e.absorb (.eof n)).channel = { e.channel with received_eof := true } := by
    simp only [ChannelEnd.absorb, channel_message.is_eof, channel_message.is_close,
      channel_message.use, channel_message.grant, ite_self, Bool.or_false, Bool.or_true,
      Nat.sub_zero, Nat.add_zero]
  have hclose := close_written { e.channel with received_eof := true }
  -- the channel is closed, or neither the callback nor EOF asks for that
  obtain ⟨hcalls, hwritten, hended, hunheard⟩ :
      Calls (e.absorb (.eof n)).channel (handler e.channel (.eof n)) ∧
        (carried (handler e.channel (.eof n)).written = [] ∧
          granted (handler e.channel (.eof n)).written = 0 ∧
          (handler e.channel (.eof n)).channel.rec_window_size =
            e.channel.rec_window_size) ∧
        Ended (handler e.channel (.eof n)).channel ∧
        (e.channel.eof = false → (handler e.channel (.eof n)).channel.sent_close = true) := by
    rw [hchannel]
    show Calls _ (channel_eof_handler e.channel) ∧ _ ∧ Ended (channel_eof_handler _).channel ∧ _
    simp only [handler, channel_eof_handler]
    rw [if_neg (by simp [hopen, he])]
    by_cases hcb : e.channel.eof = true
    · rw [if_pos hcb]
      by_cases hse : (e.channel.sent_eof && e.channel.close_at_eof) = true
      · rw [if_pos hse]
        refine ⟨calls_close _, hclose, ?_, fun _ => ?_⟩
        · rw [channel_close_eq]
          exact fun _ _ _ => rfl
        · rw [channel_close_eq]
          rfl
      · rw [if_neg hse]
        refine ⟨calls_nothing _, ⟨rfl, rfl, rfl⟩, ?_, fun h => absurd hcb (by simp [h])⟩
        intro hca hs' _
        have hca : e.channel.close_at_eof = true := hca
        have hs' : e.channel.sent_eof = true := hs'
        exact absurd (by rw [hca, hs']; rfl) hse
    · rw [if_neg hcb]
      refine ⟨calls_close _, hclose, ?_, fun _ => ?_⟩
      · rw [channel_close_eq]
        exact fun _ _ _ => rfl
      · rw [channel_close_eq]
        rfl
  have hcalled := called_arrive halive hto rfl hcalls hwritten.1 hs.error
  have harrive : (arrive e (.eof n)).2 = (handler e.channel (.eof n)).written := by
    rw [arrive_eq halive hto]
  refine ⟨?_, ?_⟩
  · rw [harrive]
    apply hcalled.acts hcalls
    rw [hwritten.2.2, hwritten.2.1, hchannel]
    rfl
  · have hrc : (arrive e (.eof n)).1.channel.received_close = false := by
      rw [hcalled.channel, hcalls.received_close, hchannel]
      exact hopen
    exact
      { receive := by
          rw [hcalled.channel, hcalls.receive, hchannel]
          exact hs.receive
        alive := by
          rw [hrc, hcalled.alive, hcalls.finished, hchannel]
          show (e.alive && !(_ && e.channel.received_close)) = _
          rw [hopen, halive]
          simp
        answered := fun h => absurd h (by simp [hrc])
        ended := by
          rw [hcalled.channel]
          exact hended
        unheard := by
          rw [hcalled.channel, hcalls.eof, hchannel]
          intro hcb _
          exact hunheard hcb
        room := by
          have hunreported : (arrive e (.eof n)).1.unreported = e.unreported := by
            rw [arrive_eq halive hto]
            show e.unreported+((handler e.channel (.eof n)).received.flatMap _).length = _
            rw [hcalls.received]
            rfl
          rw [hcalled.channel, hwritten.2.2, hunreported]
          exact hs.room
        error := by
          rw [hcalled.error]
          exact hs.error }

theorem arrive_close (hs : Sound e) (halive : e.alive = true) {n : ℕ}
    (hto : (channel_message.close n).recipient = e.number)
    (hopen : e.channel.received_close = false) :
    Acts (e.absorb (.close n)) (arrive e (.close n)).1 (arrive e (.close n)).2 ∧
      Sound (arrive e (.close n)).1 := by
  have hchannel : (e.absorb (.close n)).channel =
      { e.channel with received_close := true } := by
    simp only [ChannelEnd.absorb, channel_message.is_eof, channel_message.is_close,
      channel_message.use, channel_message.grant, ite_self, Bool.or_false, Bool.or_true,
      Nat.sub_zero, Nat.add_zero]
  -- whether CLOSE was sent before or is sent now, the channel is finished
  have hturn : handler e.channel (.close n) =
      { Turn.of { e.channel with received_close := true, sent_close := true }
          (if e.channel.sent_close then [] else [.close e.channel.channel_number]) with
        finished := true } := by
    simp only [handler, channel_close_handler]
    rw [if_neg (by simp [hopen])]
    by_cases hsc : e.channel.sent_close = true
    · rw [if_pos hsc, if_pos hsc]
      have hsame : { e.channel with received_close := true, sent_close := true } =
          { e.channel with received_close := true } := by
        rw [← hsc]
      rw [hsame]
    · rw [if_neg hsc, if_neg hsc, channel_close_eq, if_neg hsc]
      simp [hsc]
  have hchannel' : (arrive e (.close n)).1.channel =
      { e.channel with received_close := true, sent_close := true } := by
    rw [arrive_eq halive hto]
    show (handler e.channel (.close n)).channel = _
    rw [hturn]
    rfl
  have hsame : (arrive e (.close n)).1.unreported = e.unreported+0 ∧
      (arrive e (.close n)).1.error = e.error.or none ∧
      (arrive e (.close n)).1.alive = (e.alive && !true) := by
    rw [arrive_eq halive hto, hturn]
    exact ⟨rfl, rfl, rfl⟩
  obtain ⟨hunreported, herror, halive'⟩ := hsame
  refine ⟨?_, ?_⟩
  · cases hsc : e.channel.sent_close with
    | true =>
      have hsettled : Settled (e.absorb (.close n)) (arrive e (.close n)).1 := by
        refine ⟨by rw [arrive_eq halive hto]; rfl, ?_, ?_, ?_, ?_,
          by rw [arrive_eq halive hto]; rfl⟩
        · rw [hchannel', hchannel, ← hsc]
        · rw [arrive_eq halive hto, hturn]
          show e.received ++ [] = e.received ++ _
          simp only [channel_message.payload, ite_self]
        · rw [arrive_eq halive hto, hturn]
          show e.ignored ++ [] = e.ignored ++ _
          simp only [channel_message.payload, ite_self]
        · rw [arrive_eq halive hto, hturn, if_pos hsc]
          exact List.append_nil _
      have hwritten : (arrive e (.close n)).2 = [] := by
        rw [arrive_eq halive hto, hturn]
        exact if_pos hsc
      rw [hwritten]
      exact hsettled.acts
    | false =>
      have hclose : handler e.channel (.close n) = channel_close (e.absorb (.close n)).channel := by
        rw [hchannel]
        simp only [handler, channel_close_handler]
        rw [if_neg (by simp [hopen]), if_neg (by simp [hsc])]
      have hcalls : Calls (e.absorb (.close n)).channel (handler e.channel (.close n)) := by
        rw [hclose]
        exact calls_close _
      obtain ⟨hcarried, hgranted, hwindow⟩ := close_written (e.absorb (.close n)).channel
      rw [← hclose] at hcarried hgranted hwindow
      have hcalled := called_arrive halive hto rfl hcalls hcarried hs.error
      have hwritten : (arrive e (.close n)).2 = (handler e.channel (.close n)).written := by
        rw [arrive_eq halive hto]
      rw [hwritten]
      exact hcalled.acts hcalls (by rw [hwindow, hgranted, Nat.add_zero])
  · exact
      { receive := by
          rw [hchannel']
          exact hs.receive
        alive := by
          rw [halive', hchannel', Bool.not_true, Bool.and_false]
          rfl
        answered := fun _ => by rw [hchannel']
        ended := by
          rw [hchannel']
          exact fun _ _ _ => rfl
        unheard := fun _ _ => by rw [hchannel']
        room := by
          rw [hchannel', hunreported]
          exact hs.room
        error := by
          rw [herror, hs.error]
          rfl }

/-- A message that the other end has sent in order and within the window is taken in and
answered, and the end stays sound. -/
theorem arrive_spec (hs : Sound e) (hr : Sound r) (hin : Flow r e (m :: l) k)
    (hout : Flow e r k (m :: l)) :
    Acts (e.absorb m) (arrive e m).1 (arrive e m).2 ∧ Sound (arrive e m).1 := by
  have hto : m.recipient = e.number := hin.recipients m List.mem_cons_self
  have hmax : m.use ≤ e.channel.rec_max_packet := hin.packets m List.mem_cons_self
  have horder := hin.order
  rw [passed_cons] at horder
  obtain ⟨y, hy, -⟩ := Option.bind_eq_some_iff.mp horder
  obtain ⟨hopen, -, hieof⟩ := after_eq hy
  have halive : e.alive = true := by
    rw [hs.alive, hopen, Bool.and_false]
    rfl
  have huse : m.use ≤ e.channel.rec_window_size := by
    have := hin.credit
    rw [used_cons] at this
    omega
  have hgrant : e.channel.send_window_size+m.grant < 2^32 := by
    have := hout.credit
    have := hr.room
    rw [granted_cons] at *
    omega
  cases m with
  | window_adjust n size => exact arrive_adjust hs halive hto hopen hgrant
  | eof n => exact arrive_eof hs halive hto hopen (hieof rfl)
  | close n => exact arrive_close hs halive hto hopen
  | data n bytes =>
    have he : e.channel.received_eof = false := by
      cases h : e.channel.received_eof with
      | false => rfl
      | true =>
        rw [h, hopen] at hy
        cases hy
    exact arrive_data hs halive (fun data => [(.CHANNEL_DATA, data)]) hto rfl rfl
      (List.append_nil _).symm rfl rfl rfl he hopen hmax huse
  | extended_data n type bytes =>
    have he : e.channel.received_eof = false := by
      cases h : e.channel.received_eof with
      | false => rfl
      | true =>
        rw [h, hopen] at hy
        cases hy
    have hpayload : (channel_message.extended_data n type bytes).payload =
        (if type = SSH_EXTENDED_DATA_STDERR then [(Stream.CHANNEL_STDERR_DATA, bytes)]
          else []).flatMap fun r => tagged r.1 r.2 := by
      rw [channel_message.payload]
      split
      · exact (List.append_nil _).symm
      · rfl
    exact arrive_data hs halive (fun data =>
        if type = SSH_EXTENDED_DATA_STDERR then [(.CHANNEL_STDERR_DATA, data)] else [])
      hto rfl rfl hpayload rfl rfl rfl he hopen hmax huse

end

end Channels
