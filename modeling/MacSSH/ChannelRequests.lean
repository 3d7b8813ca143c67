import Mathlib.Data.List.Basic
import Mathlib.Data.List.Range
import Mathlib.Data.List.Forall2
import Mathlib.Data.List.Nodup
import Mathlib.Tactic

/-! Requests on a channel, or on the whole connection, and their replies. A reply does not
say which request it answers, so replies are sent in the order of the requests, whenever
the requests themselves are done. -/
namespace Channels

/-- The two kinds of requests. -/
inductive RequestKind
  | channel
  | global
  deriving DecidableEq, Repr

/-- The end that asks, the end that answers, and what is on its way. Requests whose replies
are wanted are numbered in the order they are made; the numbers are history, and so are
`made`, `answers` and `outcomes`: how many there were, what each was answered, and which
continuation was called with which result. -/
structure Requests where
  pending_requests : List ℕ
  requests : List (Option ℕ × Bool)
  active_requests : List (ℕ × Option Bool)
  replies : List Bool
  made : ℕ
  answers : ℕ → Option Bool
  outcomes : List (ℕ × Bool)

/-- Send the replies at the head of the queue whose status is known. -/
def send_request_responses : List (ℕ × Option Bool) → List Bool × List (ℕ × Option Bool)
  | (n, status) :: q =>
    match status with
    | some b => (b :: (send_request_responses q).1, (send_request_responses q).2)
    | none => ([], (n, status) :: q)
  | [] => ([], [])

/-- A request is made, known to the other end or not; it arrives; it is done, with success
or failure; a reply arrives. -/
inductive RequestStep
  | make (want_reply known : Bool)
  | request
  | done (n : ℕ) (status : Bool)
  | reply
  deriving DecidableEq, Repr

/-- The request at the head of the link arrives. An unknown one is refused at once: on a
channel if a reply is wanted, on the connection always. -/
def request_handler (kind : RequestKind) (s : Requests) (wanted : Option ℕ) (known : Bool) :
    Requests :=
  match known, wanted with
  | true, some n => { s with active_requests := s.active_requests ++ [(n, none)] }
  | true, none => s
  | false, some n =>
    { s with
      replies := s.replies ++ [false]
      answers := Function.update s.answers n (some false) }
  | false, none =>
    if kind = .global then { s with replies := s.replies ++ [false] } else s

/-- The status of a request becomes known. -/
def request_response (s : Requests) (n : ℕ) (status : Bool) : Requests :=
  let q := s.active_requests.map fun a => if a.1 = n then (n, some status) else a
  { s with
    active_requests := (send_request_responses q).2
    replies := s.replies ++ (send_request_responses q).1
    answers := Function.update s.answers n (some status) }

def Requests.step (kind : RequestKind) (s : Requests) : RequestStep → Option Requests
  | .make want_reply known =>
    some
      (if want_reply then
        { s with
          pending_requests := s.pending_requests ++ [s.made]
          requests := s.requests ++ [(some s.made, known)]
          made := s.made+1 }
      else { s with requests := s.requests ++ [(none, known)] })
  | .request =>
    s.requests.head?.map fun r =>
      request_handler kind { s with requests := s.requests.tail } r.1 r.2
  | .done n status =>
    -- assert(self->active->status == -1)
    if (n, none) ∈ s.active_requests then some (request_response s n status) else none
  | .reply =>
    s.replies.head?.map fun b =>
      { s with
        replies := s.replies.tail
        pending_requests := s.pending_requests.tail
        outcomes := s.outcomes ++ (s.pending_requests.head?.map fun n => (n, b)).toList }

/-- An unknown request is refused out of turn unless nothing else waits for an answer. -/
def InTurn (kind : RequestKind) (s : Requests) : RequestStep → Prop
  | .request => ∀ wanted, s.requests.head? = some (wanted, false) →
      (wanted ≠ none → s.active_requests = []) ∧ (wanted = none → kind = .channel)
  | _ => True

/-- A run all of whose unknown requests are refused in turn. -/
inductive RequestRun (kind : RequestKind) : Requests → Requests → Prop
  | nil (s : Requests) : RequestRun kind s s
  | cons {s t u : Requests} {a : RequestStep} (hturn : InTurn kind s a)
      (hstep : s.step kind a = some t) (hrun : RequestRun kind t u) : RequestRun kind s u

/-- No requests yet. -/
def no_requests : Requests :=
  { pending_requests := []
    requests := []
    active_requests := []
    replies := []
    made := 0
    answers := fun _ => none
    outcomes := [] }

/-- The requests pending at one end are those whose replies are on their way, then those
the other end is busy with, then those that are on their way themselves. -/
structure InOrder (s : Requests) : Prop where
  numbered : s.outcomes.map Prod.fst ++ s.pending_requests = List.range s.made
  pending : ∃ replied, s.pending_requests =
      replied ++ s.active_requests.map Prod.fst ++ s.requests.filterMap Prod.fst ∧
    List.Forall₂ (fun n b => s.answers n = some b) replied s.replies
  active : ∀ a ∈ s.active_requests, s.answers a.1 = a.2
  unanswered : ∀ n ∈ s.requests.filterMap Prod.fst, s.answers n = none
  unmade : ∀ n, s.made ≤ n → s.answers n = none
  outcomes : ∀ o ∈ s.outcomes, s.answers o.1 = some o.2

section
variable {kind : RequestKind} {s t : Requests}

/-- What is sent is the answered part at the head of the queue. -/
theorem send_request_responses_spec (q : List (ℕ × Option Bool)) :
    ∃ front : List (ℕ × Option Bool), q = front ++ (send_request_responses q).2 ∧
      front.map Prod.snd = (send_request_responses q).1.map some := by
  induction q with
  | nil => exact ⟨[], rfl, rfl⟩
  | cons a q ih =>
    obtain ⟨n, status⟩ := a
    cases status with
    | none => exact ⟨[], rfl, rfl⟩
    | some b =>
      obtain ⟨front, hq, hstatus⟩ := ih
      refine ⟨(n, some b) :: front, ?_, ?_⟩
      · exact congrArg ((n, some b) :: ·) hq
      · exact congrArg (some b :: ·) hstatus

theorem forall₂_of_map {answers : ℕ → Option Bool} : ∀ {front : List (ℕ × Option Bool)}
    {bs : List Bool}, front.map Prod.snd = bs.map some →
    (∀ a ∈ front, answers a.1 = a.2) →
    List.Forall₂ (fun n b => answers n = some b) (front.map Prod.fst) bs := by
  intro front
  induction front with
  | nil =>
    intro bs hmap _
    rw [List.map_nil] at hmap
    rw [List.map_eq_nil_iff.mp hmap.symm]
    exact List.Forall₂.nil
  | cons a front ih =>
    intro bs hmap ha
    cases bs with
    | nil => cases hmap
    | cons b bs =>
      obtain ⟨hhead, htail⟩ := List.cons.inj hmap
      apply List.Forall₂.cons
      · rw [ha a List.mem_cons_self, hhead]
      · exact ih htail fun a' ha' => ha a' (List.mem_cons_of_mem _ ha')

/-- Answering a request that had no answer changes no answer that was given. -/
theorem update_answered {answers : ℕ → Option Bool} {n i : ℕ} {b : Bool} (status : Bool)
    (hn : answers n = none) (hi : answers i = some b) :
    Function.update answers n (some status) i = some b := by
  have hne : i ≠ n := by
    intro he
    rw [he, hn] at hi
    cases hi
  rw [Function.update_of_ne hne, hi]

theorem InOrder.pending_nodup (h : InOrder s) : s.pending_requests.Nodup := by
  have hrange := List.nodup_range (n := s.made)
  rw [← h.numbered] at hrange
  exact (List.nodup_append.mp hrange).2.1

theorem InOrder.pending_lt (h : InOrder s) {n : ℕ} (hn : n ∈ s.pending_requests) :
    n < s.made := by
  rw [← List.mem_range, ← h.numbered]
  exact List.mem_append_right _ hn

theorem InOrder.make (h : InOrder s) (want_reply known : Bool) :
    ∀ t, s.step kind (.make want_reply known) = some t → InOrder t := by
  intro t ht
  cases ht
  cases want_reply with
  | false =>
    obtain ⟨replied, hpending, hreplied⟩ := h.pending
    refine ⟨h.numbered, ⟨replied, ?_, hreplied⟩, h.active, ?_, h.unmade, h.outcomes⟩
    · show s.pending_requests = _ ++ (s.requests ++ [(none, known)]).filterMap Prod.fst
      rw [List.filterMap_append]
      simpa using hpending
    · intro n hn
      have hn : n ∈ (s.requests ++ [(none, known)]).filterMap Prod.fst := hn
      rw [List.filterMap_append] at hn
      exact h.unanswered n (by simpa using hn)
  | true =>
    obtain ⟨replied, hpending, hreplied⟩ := h.pending
    refine ⟨?_, ⟨replied, ?_, hreplied⟩, h.active, ?_, ?_, h.outcomes⟩
    · show s.outcomes.map Prod.fst ++ (s.pending_requests ++ [s.made]) = List.range (s.made+1)
      rw [← List.append_assoc, h.numbered, List.range_succ]
    · show s.pending_requests ++ [s.made] = replied ++ s.active_requests.map Prod.fst ++
        (s.requests ++ [(some s.made, known)]).filterMap Prod.fst
      rw [List.filterMap_append, ← List.append_assoc, ← hpending]
      rfl
    · intro n hn
      have hn : n ∈ (s.requests ++ [(some s.made, known)]).filterMap Prod.fst := hn
      rw [List.filterMap_append] at hn
      rcases List.mem_append.mp hn with hn | hn
      · exact h.unanswered n hn
      · have hn : n = s.made := by simpa using hn
        rw [hn]
        exact h.unmade _ (Nat.le_refl _)
    · intro n hn
      have hn : s.made+1 ≤ n := hn
      exact h.unmade n (by omega)

/-- A request arrives. -/
theorem InOrder.request (h : InOrder s) (hturn : InTurn kind s .request) :
    ∀ t, s.step kind .request = some t → InOrder t := by
  intro t ht
  obtain ⟨⟨wanted, known⟩, hhead, rfl⟩ := Option.map_eq_some_iff.mp ht
  obtain ⟨rest, hreq⟩ := List.head?_eq_some_iff.mp hhead
  obtain ⟨replied, hpending, hreplied⟩ := h.pending
  have hunanswered := h.unanswered
  have hnodup := h.pending_nodup
  rw [hreq] at hpending hunanswered ⊢
  rw [List.tail_cons]
  cases wanted with
  | none =>
    have hsame : InOrder { s with requests := rest } :=
      ⟨h.numbered, ⟨replied, hpending, hreplied⟩, h.active, hunanswered, h.unmade, h.outcomes⟩
    cases known with
    | true => exact hsame
    | false =>
      have hkind := (hturn none hhead).2 rfl
      simp only [request_handler]
      rw [if_neg (by simp [hkind])]
      exact hsame
  | some n =>
    have hcons : ((some n, known) :: rest).filterMap Prod.fst =
        n :: rest.filterMap Prod.fst := rfl
    rw [hcons] at hpending hunanswered
    have hn : s.answers n = none := hunanswered n List.mem_cons_self
    have hrest : ∀ i ∈ rest.filterMap Prod.fst, s.answers i = none := fun i hi =>
      hunanswered i (List.mem_cons_of_mem _ hi)
    cases known with
    | true =>
      refine ⟨h.numbered, ⟨replied, ?_, hreplied⟩, ?_, hrest, h.unmade, h.outcomes⟩
      · show s.pending_requests = replied ++ (s.active_requests ++ [(n, none)]).map Prod.fst ++
          rest.filterMap Prod.fst
        rw [hpending, List.map_append]
        simp
      · intro a ha
        rcases List.mem_append.mp ha with ha | ha
        · exact h.active a ha
        · rw [List.mem_singleton.mp ha]
          exact hn
    | false =>
      -- the refusal overtakes nothing, since no other request is waiting
      have hactive := (hturn (some n) hhead).1 (by simp)
      rw [hactive, List.map_nil, List.append_nil] at hpending
      have hother : ∀ i ∈ rest.filterMap Prod.fst, i ≠ n := by
        rw [hpending] at hnodup
        intro i hi he
        have hcons := (List.nodup_append.mp hnodup).2.1
        rw [he] at hi
        exact (List.nodup_cons.mp hcons).1 hi
      have hlt : n < s.made := h.pending_lt (by rw [hpending]; simp)
      refine ⟨h.numbered, ⟨replied ++ [n], ?_, ?_⟩, ?_, ?_, ?_, ?_⟩
      · show s.pending_requests = replied ++ [n] ++ s.active_requests.map Prod.fst ++
          rest.filterMap Prod.fst
        rw [hpending, hactive]
        simp
      · apply List.rel_append
        · exact hreplied.imp fun i b hi => update_answered false hn hi
        · exact List.Forall₂.cons (Function.update_self _ _ _) List.Forall₂.nil
      · intro a ha
        have ha : a ∈ s.active_requests := ha
        rw [hactive] at ha
        exact absurd ha List.not_mem_nil
      · intro i hi
        show Function.update s.answers n (some false) i = none
        rw [Function.update_of_ne (hother i hi)]
        exact hrest i hi
      · intro i hi
        have hi : s.made ≤ i := hi
        show Function.update s.answers n (some false) i = none
        rw [Function.update_of_ne (by omega)]
        exact h.unmade i hi
      · exact fun o ho => update_answered false hn (h.outcomes o ho)

/-- A request is done; it and all behind it that are already done are answered. -/
theorem InOrder.done (h : InOrder s) (n : ℕ) (status : Bool) :
    ∀ t, s.step kind (.done n status) = some t → InOrder t := by
  intro t ht
  simp only [Requests.step] at ht
  split at ht
  swap
  · cases ht
  next hmem =>
    cases ht
    have hn : s.answers n = none := h.active _ hmem
    obtain ⟨replied, hpending, hreplied⟩ := h.pending
    have hnodup := h.pending_nodup
    have hlt : n < s.made := by
      apply h.pending_lt
      rw [hpending]
      exact List.mem_append_left _
        (List.mem_append_right _ (List.mem_map_of_mem (f := Prod.fst) hmem))
    have hother : ∀ i ∈ s.requests.filterMap Prod.fst, i ≠ n := by
      rw [hpending] at hnodup
      intro i hi he
      refine (List.nodup_append.mp hnodup).2.2 n ?_ i hi he.symm
      exact List.mem_append_right _ (List.mem_map_of_mem (f := Prod.fst) hmem)
    generalize hq : (s.active_requests.map fun a => if a.1 = n then (n, some status) else a) = q
    have hqfst : q.map Prod.fst = s.active_requests.map Prod.fst := by
      rw [← hq, List.map_map]
      apply List.map_congr_left
      intro a _
      show (if a.1 = n then (n, some status) else a).1 = a.1
      split
      next he => exact he.symm
      next => rfl
    have hqanswers : ∀ a ∈ q, Function.update s.answers n (some status) a.1 = a.2 := by
      intro a ha
      rw [← hq] at ha
      obtain ⟨a', ha', rfl⟩ := List.mem_map.mp ha
      split
      next => exact Function.update_self _ _ _
      next hne =>
        rw [Function.update_of_ne hne]
        exact h.active a' ha'
    obtain ⟨front, hsplit, hstatus⟩ := send_request_responses_spec q
    have hfront : ∀ a ∈ front, Function.update s.answers n (some status) a.1 = a.2 := by
      intro a ha
      apply hqanswers
      rw [hsplit]
      exact List.mem_append_left _ ha
    simp only [request_response, hq]
    refine ⟨h.numbered, ⟨replied ++ front.map Prod.fst, ?_, ?_⟩, ?_, ?_, ?_, ?_⟩
    · show s.pending_requests = replied ++ front.map Prod.fst ++
        (send_request_responses q).2.map Prod.fst ++ s.requests.filterMap Prod.fst
      rw [hpending, ← hqfst]
      conv_lhs => rw [hsplit, List.map_append]
      simp only [List.append_assoc]
    · apply List.rel_append
      · exact hreplied.imp fun i b hi => update_answered status hn hi
      · exact forall₂_of_map hstatus hfront
    · intro a ha
      apply hqanswers
      rw [hsplit]
      exact List.mem_append_right _ ha
    · intro i hi
      show Function.update s.answers n (some status) i = none
      rw [Function.update_of_ne (hother i hi)]
      exact h.unanswered i hi
    · intro i hi
      have hi : s.made ≤ i := hi
      show Function.update s.answers n (some status) i = none
      rw [Function.update_of_ne (by omega)]
      exact h.unmade i hi
    · exact fun o ho => update_answered status hn (h.outcomes o ho)

/-- A reply arrives; it belongs to the oldest pending request. -/
theorem InOrder.reply (h : InOrder s) :
    ∀ t, s.step kind .reply = some t → InOrder t := by
  intro t ht
  obtain ⟨b, hhead, rfl⟩ := Option.map_eq_some_iff.mp ht
  obtain ⟨rest, hrep⟩ := List.head?_eq_some_iff.mp hhead
  obtain ⟨replied, hpending, hreplied⟩ := h.pending
  rw [hrep] at hreplied ⊢
  obtain ⟨n, later, hn, hlater, rfl⟩ := List.forall₂_cons_right_iff.mp hreplied
  have hcons : s.pending_requests = n :: (later ++ s.active_requests.map Prod.fst ++
      s.requests.filterMap Prod.fst) := by
    rw [hpending]
    rfl
  rw [hcons]
  refine ⟨?_, ⟨later, rfl, hlater⟩, h.active, h.unanswered, h.unmade, ?_⟩
  · have hnumbered := h.numbered
    rw [hcons] at hnumbered
    show (s.outcomes ++ [(n, b)]).map Prod.fst ++ _ = _
    rw [List.map_append, List.append_assoc]
    exact hnumbered
  · intro o ho
    have ho : o ∈ s.outcomes ++ [(n, b)] := ho
    rcases List.mem_append.mp ho with ho | ho
    · exact h.outcomes o ho
    · rw [List.mem_singleton.mp ho]
      exact hn

theorem InOrder.step (h : InOrder s) {a : RequestStep} (hturn : InTurn kind s a)
    (hstep : s.step kind a = some t) : InOrder t := by
  cases a with
  | make want_reply known => exact h.make want_reply known t hstep
  | request => exact h.request hturn t hstep
  | done n status => exact h.done n status t hstep
  | reply => exact h.reply t hstep

theorem InOrder.run (h : InOrder s) (hrun : RequestRun kind s t) : InOrder t := by
  induction hrun with
  | nil s => exact h
  | cons hturn hstep _ ih => exact ih (h.step hturn hstep)

theorem in_order_none : InOrder no_requests where
  numbered := rfl
  pending := ⟨[], rfl, List.Forall₂.nil⟩
  active := fun _ ha => absurd ha List.not_mem_nil
  unanswered := fun _ hn => absurd hn List.not_mem_nil
  unmade := fun _ _ => rfl
  outcomes := fun _ ho => absurd ho List.not_mem_nil

/-- In every run all of whose unknown requests are refused in turn, the continuations are
called in the order of the requests, each with what its own request was answered, in
whatever order the other end gets them done. When nothing is on its way and the other end
is busy with none, none is pending. -/
theorem replies_in_order (hrun : RequestRun kind no_requests t) :
    t.outcomes.map Prod.fst ++ t.pending_requests = List.range t.made ∧
      (∀ o ∈ t.outcomes, t.answers o.1 = some o.2) ∧
      (t.requests = [] → t.active_requests = [] → t.replies = [] →
        t.pending_requests = []) := by
  have h := in_order_none.run hrun
  refine ⟨h.numbered, h.outcomes, ?_⟩
  intro hreq hactive hrep
  obtain ⟨replied, hpending, hreplied⟩ := h.pending
  rw [hrep] at hreplied
  rw [hpending, hactive, hreq, List.forall₂_nil_right_iff.mp hreplied]
  rfl

/-- Two requests, done in the other order. -/
theorem replies_in_order_swapped : ∃ t, RequestRun .channel no_requests t ∧
    t.outcomes = [(0, true), (1, false)] ∧
    t.outcomes.map Prod.fst ++ t.pending_requests = List.range t.made := by
  obtain ⟨t, hrun, hout⟩ : ∃ t, RequestRun .channel no_requests t ∧
      t.outcomes = [(0, true), (1, false)] := by
    refine ⟨?t, ?run, ?out⟩
    case run =>
      apply RequestRun.cons (a := .make true true) trivial rfl
      apply RequestRun.cons (a := .make true true) trivial rfl
      apply RequestRun.cons (a := .request) (by simp [InTurn, no_requests]) rfl
      apply RequestRun.cons (a := .request) (by simp [InTurn, no_requests, request_handler]) rfl
      apply RequestRun.cons (a := .done 1 false) trivial rfl
      apply RequestRun.cons (a := .done 0 true) trivial rfl
      apply RequestRun.cons (a := .reply) trivial rfl
      apply RequestRun.cons (a := .reply) trivial rfl
      exact RequestRun.nil _
    case out => rfl
  exact ⟨t, hrun, hout, (replies_in_order hrun).1⟩

end

end Channels
