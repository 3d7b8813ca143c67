import MacSSH.ChannelFlow

/-! Whole runs of the two ends of a channel, in any order of steps. -/
namespace Channels

/-- A channel that has just been opened: each end knows the number, the window and the
largest packet of the other. -/
structure Opened (p : Pair) : Prop where
  left_fresh : p.left.channel.sent_close = false ∧ p.left.channel.received_close = false ∧
    p.left.channel.sent_eof = false ∧ p.left.channel.received_eof = false
  right_fresh : p.right.channel.sent_close = false ∧ p.right.channel.received_close = false ∧
    p.right.channel.sent_eof = false ∧ p.right.channel.received_eof = false
  receive : p.left.channel.receive = true ∧ p.right.channel.receive = true
  alive : p.left.alive = true ∧ p.right.alive = true
  numbers : p.left.channel.channel_number = p.right.number ∧
    p.right.channel.channel_number = p.left.number
  windows : p.left.channel.send_window_size = p.right.channel.rec_window_size ∧
    p.right.channel.send_window_size = p.left.channel.rec_window_size
  window_bound : p.left.channel.rec_window_size < 2^32 ∧ p.right.channel.rec_window_size < 2^32
  packets : p.left.channel.send_max_packet ≤ p.right.channel.rec_max_packet ∧
    p.right.channel.send_max_packet ≤ p.left.channel.rec_max_packet
  left_history : p.left.unreported = 0 ∧ p.left.written = [] ∧ p.left.transmitted = [] ∧
    p.left.received = [] ∧ p.left.ignored = [] ∧ p.left.error = none
  right_history : p.right.unreported = 0 ∧ p.right.written = [] ∧ p.right.transmitted = [] ∧
    p.right.received = [] ∧ p.right.ignored = [] ∧ p.right.error = none
  links : p.to_right = [] ∧ p.to_left = []

/-- What holds of both ends and both links at any time. -/
structure Joined (p : Pair) : Prop where
  left : Sound p.left
  right : Sound p.right
  rightward : Flow p.left p.right p.to_right p.to_left
  leftward : Flow p.right p.left p.to_left p.to_right

section
variable {e s r : ChannelEnd}

theorem sound_fresh (hflags : e.channel.sent_close = false ∧ e.channel.received_close = false ∧
      e.channel.sent_eof = false ∧ e.channel.received_eof = false)
    (hreceive : e.channel.receive = true) (halive : e.alive = true)
    (hroom : e.channel.rec_window_size < 2^32) (hunreported : e.unreported = 0)
    (herror : e.error = none) : Sound e where
  receive := hreceive
  alive := by
    rw [halive, hflags.1]
    rfl
  answered := fun h => absurd h (by simp [hflags.2.1])
  ended := fun _ h _ => absurd h (by simp [hflags.2.2.1])
  unheard := fun _ h => absurd h (by simp [hflags.2.2.2])
  room := by
    rw [hunreported]
    exact hroom
  error := herror

theorem flow_fresh (hs : s.channel.sent_close = false ∧ s.channel.sent_eof = false)
    (hr : r.channel.received_close = false ∧ r.channel.received_eof = false)
    (hnumber : s.channel.channel_number = r.number)
    (hwindow : s.channel.send_window_size = r.channel.rec_window_size)
    (hpacket : s.channel.send_max_packet ≤ r.channel.rec_max_packet)
    (hwritten : s.written = []) (htransmitted : s.transmitted = [])
    (hreceived : r.received = []) (hignored : r.ignored = []) : Flow s r [] [] where
  addressed := hnumber
  recipients := fun m hm => absurd hm List.not_mem_nil
  order := by rw [hs.1, hs.2, hr.1, hr.2, passed_nil]
  credit := le_of_eq hwindow
  exact := fun _ _ _ => le_of_eq hwindow.symm
  packet := hpacket
  packets := fun m hm => absurd hm List.not_mem_nil
  history := by rw [hwritten, hs.1, hs.2, passed_nil]
  conserved := by
    rw [htransmitted, hreceived, hignored]
    rfl
  heeded := fun _ => hignored

end

section
variable {p p' : Pair} {e : ChannelEnd}

theorem Opened.joined (h : Opened p) : Joined p where
  left := sound_fresh h.left_fresh h.receive.1 h.alive.1 h.window_bound.1 h.left_history.1
    h.left_history.2.2.2.2.2
  right := sound_fresh h.right_fresh h.receive.2 h.alive.2 h.window_bound.2 h.right_history.1
    h.right_history.2.2.2.2.2
  rightward := by
    rw [h.links.1, h.links.2]
    exact flow_fresh ⟨h.left_fresh.1, h.left_fresh.2.2.1⟩
      ⟨h.right_fresh.2.1, h.right_fresh.2.2.2⟩ h.numbers.1 h.windows.1 h.packets.1
      h.left_history.2.1 h.left_history.2.2.1 h.right_history.2.2.2.1
      h.right_history.2.2.2.2.1
  leftward := by
    rw [h.links.1, h.links.2]
    exact flow_fresh ⟨h.right_fresh.1, h.right_fresh.2.2.1⟩
      ⟨h.left_fresh.2.1, h.left_fresh.2.2.2⟩ h.numbers.2 h.windows.2 h.packets.2
      h.right_history.2.1 h.right_history.2.2.1 h.left_history.2.2.2.1
      h.left_history.2.2.2.2.1

/-- Either end acts. -/
theorem Joined.act_left (h : Joined p) {a : Action} {r : ChannelEnd × List channel_message}
    (ha : act p.left a = some r) :
    Joined { p with left := r.1, to_right := p.to_right ++ r.2 } := by
  obtain ⟨hacts, hsound⟩ := act_spec h.left ha
  exact ⟨hsound, h.right, h.rightward.acts_out hacts, h.leftward.acts_in hacts⟩

theorem Joined.act_right (h : Joined p) {a : Action} {r : ChannelEnd × List channel_message}
    (ha : act p.right a = some r) :
    Joined { p with right := r.1, to_left := p.to_left ++ r.2 } := by
  obtain ⟨hacts, hsound⟩ := act_spec h.right ha
  exact ⟨h.left, hsound, h.rightward.acts_in hacts, h.leftward.acts_out hacts⟩

/-- Either end takes the oldest message on its way to it. -/
theorem Joined.deliver_right (h : Joined p) {m : channel_message}
    {rest : List channel_message} (hm : p.to_right = m :: rest) :
    Joined { p with
      right := (arrive p.right m).1
      to_right := rest
      to_left := p.to_left ++ (arrive p.right m).2 } := by
  have hin := h.rightward
  have hout := h.leftward
  rw [hm] at hin hout
  obtain ⟨hacts, hsound⟩ := arrive_spec h.right h.left hin hout
  exact ⟨h.left, hsound, hin.absorb_in.acts_in hacts, hout.absorb_out.acts_out hacts⟩

theorem Joined.deliver_left (h : Joined p) {m : channel_message}
    {rest : List channel_message} (hm : p.to_left = m :: rest) :
    Joined { p with
      left := (arrive p.left m).1
      to_left := rest
      to_right := p.to_right ++ (arrive p.left m).2 } := by
  have hin := h.leftward
  have hout := h.rightward
  rw [hm] at hin hout
  obtain ⟨hacts, hsound⟩ := arrive_spec h.left h.right hin hout
  exact ⟨hsound, h.right, hout.absorb_out.acts_out hacts, hin.absorb_in.acts_in hacts⟩

theorem Joined.step (h : Joined p) {s : Step} (hs : p.step s = some p') : Joined p' := by
  cases s with
  | left a =>
    obtain ⟨r, hr, rfl⟩ := Option.map_eq_some_iff.mp hs
    exact h.act_left hr
  | right a =>
    obtain ⟨r, hr, rfl⟩ := Option.map_eq_some_iff.mp hs
    exact h.act_right hr
  | deliver_right =>
    simp only [Pair.step] at hs
    split at hs
    · cases hs
    next m rest hm =>
      cases hs
      exact h.deliver_right hm
  | deliver_left =>
    simp only [Pair.step] at hs
    split at hs
    · cases hs
    next m rest hm =>
      cases hs
      exact h.deliver_left hm

theorem Joined.run (h : Joined p) {steps : List Step} (hs : p.run steps = some p') :
    Joined p' := by
  induction steps generalizing p with
  | nil =>
    cases hs
    exact h
  | cons s steps ih =>
    obtain ⟨q, hq, hrest⟩ := Option.bind_eq_some_iff.mp hs
    exact ih (h.step hq) hrest

/-- An end that has got EOF and not closed has received all. -/
theorem ended_received {s r : ChannelEnd} {l k : List channel_message} (h : Flow s r l k)
    (he : r.channel.received_eof = true) (hc : r.channel.sent_close = false) :
    r.received = s.transmitted ∧ s.channel.sent_eof = true := by
  have horder := h.order
  rw [he] at horder
  refine ⟨?_, (passed_mono horder).1 rfl⟩
  rw [h.conserved, h.heeded hc, carried_of_ended horder, List.append_nil, List.append_nil]

/-- In no run does either end fail an assertion or raise a protocol error. What is on its
way never exceeds the window or the largest packet of the end it goes to, whatever window
adjustments are on their way back; and while the channel is open both ways, the two ends
account for the same window exactly. -/
theorem windows_agree (h : Opened p) {steps : List Step} (hs : p.run steps = some p') :
    p'.left.error = none ∧ p'.right.error = none ∧
      p'.left.channel.send_window_size+used p'.to_right+granted p'.to_left ≤
        p'.right.channel.rec_window_size ∧
      p'.right.channel.send_window_size+used p'.to_left+granted p'.to_right ≤
        p'.left.channel.rec_window_size ∧
      (∀ m ∈ p'.to_right, m.use ≤ p'.right.channel.rec_max_packet) ∧
      (∀ m ∈ p'.to_left, m.use ≤ p'.left.channel.rec_max_packet) ∧
      (p'.left.channel.sent_eof = false → p'.left.channel.sent_close = false →
        p'.right.channel.sent_close = false →
        p'.left.channel.send_window_size+used p'.to_right+granted p'.to_left =
          p'.right.channel.rec_window_size) ∧
      (p'.right.channel.sent_eof = false → p'.right.channel.sent_close = false →
        p'.left.channel.sent_close = false →
        p'.right.channel.send_window_size+used p'.to_left+granted p'.to_right =
          p'.left.channel.rec_window_size) := by
  have hj := h.joined.run hs
  refine ⟨hj.left.error, hj.right.error, hj.rightward.credit, hj.leftward.credit,
    hj.rightward.packets, hj.leftward.packets, ?_, ?_⟩
  · intro he hc hr
    exact le_antisymm hj.rightward.credit (hj.rightward.exact he hc hr)
  · intro he hc hr
    exact le_antisymm hj.leftward.credit (hj.leftward.exact he hc hr)

/-- In every run the bytes transmitted at one end are, in order, those received at the
other, those that it ignored, and those on their way. It ignores none before it has itself
closed the channel; so when it has got EOF on a channel it has not closed, it has received
all there will ever be. -/
theorem data_arrives (h : Opened p) {steps : List Step} (hs : p.run steps = some p') :
    p'.left.transmitted = p'.right.received ++ p'.right.ignored ++ carried p'.to_right ∧
      p'.right.transmitted = p'.left.received ++ p'.left.ignored ++ carried p'.to_left ∧
      (p'.right.channel.sent_close = false → p'.right.ignored = []) ∧
      (p'.left.channel.sent_close = false → p'.left.ignored = []) ∧
      (p'.right.channel.received_eof = true → p'.right.channel.sent_close = false →
        p'.right.received = p'.left.transmitted ∧ p'.left.channel.sent_eof = true) ∧
      (p'.left.channel.received_eof = true → p'.left.channel.sent_close = false →
        p'.left.received = p'.right.transmitted ∧ p'.right.channel.sent_eof = true) := by
  have hj := h.joined.run hs
  refine ⟨hj.rightward.conserved, hj.leftward.conserved, hj.rightward.heeded,
    hj.leftward.heeded, ?_, ?_⟩
  · exact fun he hc => ended_received hj.rightward he hc
  · exact fun he hc => ended_received hj.leftward he hc

/-- Nothing can arrive any more at an end that has deallocated its channel. -/
theorem dead_empty {s r : ChannelEnd} {l k : List channel_message} (h : Flow s r l k)
    (hr : Sound r) (hdead : r.alive = false) : l = [] ∧ s.channel.sent_close = true := by
  have hclosed : r.channel.received_close = true := by
    have halive := hr.alive
    rw [hdead] at halive
    cases hc : r.channel.received_close with
    | true => rfl
    | false =>
      rw [hc, Bool.and_false] at halive
      cases halive
  have horder := h.order
  rw [hclosed] at horder
  exact ⟨passed_closed horder, (passed_mono horder).2 rfl⟩

/-- When nothing is on its way, each end has heard of all the other has sent. -/
theorem heard_all {s r : ChannelEnd} {k : List channel_message} (h : Flow s r [] k) :
    r.channel.received_eof = s.channel.sent_eof ∧
      r.channel.received_close = s.channel.sent_close :=
  Prod.mk.inj (Option.some.inj h.order)

theorem Sound.dead (h : Sound e) (hclose : e.channel.received_close = true) :
    e.channel.sent_close = true ∧ e.alive = false := by
  have hsent := h.answered hclose
  refine ⟨hsent, ?_⟩
  rw [h.alive, hsent, hclose]
  rfl

/-- Once either end has sent CLOSE, both are dead as soon as all messages have arrived. -/
theorem Joined.both_dead (h : Joined p) (hr : p.to_right = []) (hl : p.to_left = [])
    (hclose : p.left.channel.sent_close = true ∨ p.right.channel.sent_close = true) :
    p.left.alive = false ∧ p.right.alive = false := by
  have hright := h.rightward
  have hleft := h.leftward
  rw [hr, hl] at hright hleft
  have hheard := (heard_all hright).2
  have hheard' := (heard_all hleft).2
  rcases hclose with hc | hc
  · rw [hc] at hheard
    have hdead := h.right.dead hheard
    rw [hdead.1] at hheard'
    exact ⟨(h.left.dead hheard').2, hdead.2⟩
  · rw [hc] at hheard'
    have hdead := h.left.dead hheard'
    rw [hdead.1] at hheard
    exact ⟨hdead.2, (h.right.dead hheard).2⟩

/-- In every run each end writes its messages in order: EOF and CLOSE at most once, no data
after EOF and nothing after CLOSE. A channel is deallocated only when both ends have sent
CLOSE and nothing is on its way to the number that is given up. And when all messages have
arrived, both ends are deallocated if either has sent CLOSE, or if both have sent EOF and
one of them closes at EOF. -/
theorem channel_closes (h : Opened p) {steps : List Step} (hs : p.run steps = some p') :
    passed (false, false) p'.left.written =
        some (p'.left.channel.sent_eof, p'.left.channel.sent_close) ∧
      passed (false, false) p'.right.written =
        some (p'.right.channel.sent_eof, p'.right.channel.sent_close) ∧
      (p'.left.alive = false → p'.to_left = [] ∧ p'.left.channel.sent_close = true ∧
        p'.right.channel.sent_close = true) ∧
      (p'.right.alive = false → p'.to_right = [] ∧ p'.right.channel.sent_close = true ∧
        p'.left.channel.sent_close = true) ∧
      (p'.to_right = [] → p'.to_left = [] →
        (p'.left.channel.sent_close = true ∨ p'.right.channel.sent_close = true ∨
          p'.left.channel.sent_eof = true ∧ p'.right.channel.sent_eof = true ∧
            (p'.left.channel.close_at_eof = true ∨ p'.right.channel.close_at_eof = true)) →
        p'.left.alive = false ∧ p'.right.alive = false) := by
  have hj := h.joined.run hs
  have hsent {e : ChannelEnd} (he : Sound e) (hdead : e.alive = false) :
      e.channel.sent_close = true := by
    have halive := he.alive
    rw [hdead] at halive
    cases hc : e.channel.sent_close with
    | true => rfl
    | false =>
      rw [hc] at halive
      cases halive
  refine ⟨hj.rightward.history, hj.leftward.history, ?_, ?_, ?_⟩
  · intro hdead
    obtain ⟨hlink, hother⟩ := dead_empty hj.leftward hj.left hdead
    exact ⟨hlink, hsent hj.left hdead, hother⟩
  · intro hdead
    obtain ⟨hlink, hother⟩ := dead_empty hj.rightward hj.right hdead
    exact ⟨hlink, hsent hj.right hdead, hother⟩
  · intro hr hl hcase
    apply hj.both_dead hr hl
    rcases hcase with hc | hc | ⟨hle, hre, hca⟩
    · exact Or.inl hc
    · exact Or.inr hc
    · have hright := hj.rightward
      have hleft := hj.leftward
      rw [hr, hl] at hright hleft
      rcases hca with hca | hca
      · exact Or.inl (hj.left.ended hca hle ((heard_all hleft).1.trans hre))
      · exact Or.inr (hj.right.ended hca hre ((heard_all hright).1.trans hle))

end

/-! A forwarded connection: some data one way, and then EOF both ways. -/

def forwardedEnd (number remote : ℕ) : ChannelEnd :=
  { number := number
    channel :=
      { channel_number := remote
        rec_window_size := 10000
        rec_max_packet := 32668
        send_window_size := 10000
        send_max_packet := 32668
        sent_close := false
        received_close := false
        sent_eof := false
        received_eof := false
        close_at_eof := true
        no_wait_for_eof := false
        receive := true
        eof := true }
    alive := true
    unreported := 0
    written := []
    transmitted := []
    received := []
    ignored := []
    error := none }

def forwardedPair : Pair :=
  { left := forwardedEnd 0 7, right := forwardedEnd 7 0, to_right := [], to_left := [] }

theorem opened_forwarded : Opened forwardedPair where
  left_fresh := ⟨rfl, rfl, rfl, rfl⟩
  right_fresh := ⟨rfl, rfl, rfl, rfl⟩
  receive := ⟨rfl, rfl⟩
  alive := ⟨rfl, rfl⟩
  numbers := ⟨rfl, rfl⟩
  windows := ⟨rfl, rfl⟩
  window_bound := ⟨by decide, by decide⟩
  packets := ⟨Nat.le_refl _, Nat.le_refl _⟩
  left_history := ⟨rfl, rfl, rfl, rfl, rfl, rfl⟩
  right_history := ⟨rfl, rfl, rfl, rfl, rfl, rfl⟩
  links := ⟨rfl, rfl⟩

def forwardedSteps : List Step :=
  [.left (.transmit .CHANNEL_DATA [104, 105]), .deliver_right, .right (.report 2), .left .eof,
    .deliver_left, .deliver_right, .right .eof, .deliver_left, .deliver_right, .deliver_left]

theorem windows_agree_forwarded : ∃ p, forwardedPair.run forwardedSteps = some p ∧
    p.left.error = none ∧ p.right.error = none := by
  have h := @windows_agree forwardedPair _ opened_forwarded forwardedSteps rfl
  exact ⟨_, rfl, h.1, h.2.1⟩

theorem data_arrives_forwarded : ∃ p, forwardedPair.run (forwardedSteps.take 6) = some p ∧
    p.right.received = p.left.transmitted := by
  have h := @data_arrives forwardedPair _ opened_forwarded (forwardedSteps.take 6) rfl
  exact ⟨_, rfl, (h.2.2.2.2.1 rfl rfl).1⟩

theorem channel_closes_forwarded : ∃ p, forwardedPair.run forwardedSteps = some p ∧
    p.left.alive = false ∧ p.right.alive = false := by
  have h := @channel_closes forwardedPair _ opened_forwarded forwardedSteps rfl
  exact ⟨_, rfl, h.2.2.2.2 rfl rfl (Or.inl rfl)⟩

end Channels
