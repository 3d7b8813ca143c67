import MacSSH.Shorts
import Mathlib.Data.List.Nodup
import Mathlib.Logic.Function.Basic

/-! The queue of network events. Its elements come from a pool of free ones that
grows and shrinks with the connections; two counters keep the size of the pool
and the number of elements in use. -/
namespace NetEvent

open VS

/-- The address of a queue element. -/
abbrev QElemPtr := ℕ

/-- What a queue element carries. -/
structure InternalEvent where
  eclass : Int
  event : Int
  data1 : Int
  data2 : Int
  deriving DecidableEq, Repr, Inhabited

/-- The globals of the queue. A queue header is the list of its elements. `brk` is
the next address that memory is granted at. -/
structure Queues where
  elem : QElemPtr → InternalEvent
  brk : QElemPtr
  gEventsQueue : List QElemPtr
  gEventsFreeQueue : List QElemPtr
  gQueueLength : Int
  gQueueInUse : Int
  gQueueError : Bool

/-- Elements of the first pool. -/
@[simp] abbrev NEVENTS : Int := 50

/-- Put an element at the end of a queue. -/
def Enqueue (e : QElemPtr) (q : List QElemPtr) : List QElemPtr := q ++ [e]

/-- Take an element out of a queue, and whether it was there. -/
def Dequeue (e : QElemPtr) (q : List QElemPtr) : Bool × List QElemPtr := (e ∈ q, q.erase e)

/-- The loop that takes the first element off a queue: it tries until the element
it has seen at the head was still there. -/
def takeFirst : ℕ → List QElemPtr → Option QElemPtr × List QElemPtr
  | 0, q => (none, q)
  | fuel+1, q =>
    match q.head? with
    | none => (none, q)
    | some e =>
      if (Dequeue e q).1 then (some e, (Dequeue e q).2) else takeFirst fuel (Dequeue e q).2

/-- Add `n` elements to the pool. `grants` says which requests for memory succeed,
and `stray` what a queue is after the null pointer has been put into it. -/
def grow (stray : List QElemPtr → List QElemPtr) : ℕ → List Bool → Queues → Queues
  | 0, _, s => s
  | n+1, grants, s =>
    let s := if grants.headD false
      then { s with gEventsFreeQueue := Enqueue s.brk s.gEventsFreeQueue, brk := s.brk+1 }
      else { s with gEventsFreeQueue := stray s.gEventsFreeQueue }
    grow stray n grants.tail { s with gQueueLength := short (s.gQueueLength+1) }

/-- Take `n` elements out of the pool. -/
def shrink : ℕ → Queues → Queues
  | 0, s => s
  | n+1, s =>
    let s := match s.gEventsFreeQueue.head? with
      -- the null pointer is not in the queue
      | none => s
      | some e => { s with gEventsFreeQueue := (Dequeue e s.gEventsFreeQueue).2 }
    shrink n { s with gQueueLength := short (s.gQueueLength-1) }

def ChangeQueueLength (s : Queues) (delta : Int) (grants : List Bool)
    (stray : List QElemPtr → List QElemPtr) : Queues :=
  if delta > 0 then grow stray delta.toNat grants s else shrink (-delta).toNat s

/-- Set up the queues. -/
def neteventinit (s : Queues) (grants : List Bool)
    (stray : List QElemPtr → List QElemPtr) : Queues :=
  { ChangeQueueLength { s with gEventsQueue := [], gEventsFreeQueue := [] } NEVENTS grants stray
    with gQueueLength := NEVENTS }

/-- The next event, or `none` for the -1 that says there is none. -/
def netgetevent (s : Queues) : Option InternalEvent × Queues :=
  match takeFirst (s.gEventsQueue.length+1) s.gEventsQueue with
  | (none, q) => (none, { s with gEventsQueue := q })
  | (some e, q) =>
    (some (s.elem e), { s with
      gEventsQueue := q
      gEventsFreeQueue := Enqueue e s.gEventsFreeQueue
      gQueueInUse := short (s.gQueueInUse-1) })

/-- Add an event; -1 when no element is free. -/
def netputevent (s : Queues) (v : InternalEvent) : Int × Queues :=
  match takeFirst (s.gEventsFreeQueue.length+1) s.gEventsFreeQueue with
  | (none, q) => (-1, { s with gEventsFreeQueue := q, gQueueError := true })
  | (some e, q) =>
    (0, { s with
      gEventsFreeQueue := q
      gQueueInUse := short (s.gQueueInUse+1)
      elem := Function.update s.elem e v
      gEventsQueue := Enqueue e s.gEventsQueue })

/-- The walk along the queue for an event like `v`. -/
def findLike (s : Queues) (v : InternalEvent) : List QElemPtr → Bool
  | [] => false
  | e :: q =>
    if (s.elem e).eclass ≠ v.eclass ∨ (s.elem e).event ≠ v.event ∨ (s.elem e).data1 ≠ v.data1 ∨
      (s.elem e).data2 ≠ v.data2 then findLike s v q
    else true

/-- Add an event unless one like it is queued. -/
def netputuev (s : Queues) (v : InternalEvent) : Int × Queues :=
  if findLike s v s.gEventsQueue then (0, s) else netputevent s v

/-- The calls on the queues. -/
inductive QueueOp where
  | put (v : InternalEvent)
  | putUnique (v : InternalEvent)
  | get
  | change (delta : Int) (grants : List Bool) (stray : List QElemPtr → List QElemPtr)

/-- The queues with the events that `netputevent` has accepted and those that
`netgetevent` has returned, in order. -/
structure History where
  queues : Queues
  accepted : List InternalEvent
  returned : List InternalEvent

def History.put (h : History) (v : InternalEvent) : History :=
  let r := netputevent h.queues v
  { h with queues := r.2, accepted := if r.1 = 0 then h.accepted ++ [v] else h.accepted }

def History.step (h : History) : QueueOp → History
  | .put v => h.put v
  | .putUnique v =>
    let found := findLike h.queues v h.queues.gEventsQueue
    { if found then h else h.put v with queues := (netputuev h.queues v).2 }
  | .get =>
    let r := netgetevent h.queues
    { h with queues := r.2, returned := h.returned ++ r.1.toList }
  | .change delta grants stray => { h with queues := ChangeQueueLength h.queues delta grants stray }

/-- The elements of the pool, free and in use. -/
def Queues.pool (s : Queues) : List QElemPtr := s.gEventsQueue ++ s.gEventsFreeQueue

/-- The events that wait in the queue. -/
def Queues.queued (s : Queues) : List InternalEvent := s.gEventsQueue.map s.elem

/-- A change of the pool finds the memory it asks for and leaves the pool small
enough for its counter, or takes no more elements than are free. -/
def QueueOp.Fits : QueueOp → Queues → Prop
  | change delta grants _, s =>
    if delta > 0 then (s.pool.length : Int)+delta ≤ 32767 ∧
      grants.take delta.toNat = List.replicate delta.toNat true
    else -delta ≤ s.gEventsFreeQueue.length
  | _, _ => True

/-- The queues after any calls that each meet `P`. -/
inductive Run (P : QueueOp → Queues → Prop) : History → Prop
  | start (elem : QElemPtr → InternalEvent) (brk : QElemPtr)
      (stray : List QElemPtr → List QElemPtr) :
      Run P ⟨neteventinit ⟨elem, brk, [], [], 0, 0, false⟩ (List.replicate 50 true) stray, [], []⟩
  | step {h : History} (op : QueueOp) : Run P h → P op h.queues → Run P (h.step op)

/-- The queue hands out what it was given, in order, takes no event twice when
asked not to, and its counters are right. -/
structure FirstInFirstOut (h : History) : Prop where
  order : h.accepted = h.returned ++ h.queues.queued
  unique : ∀ v, (netputuev h.queues v).2.queued ≠ h.queues.queued → v ∉ h.queues.queued
  inUse : h.queues.gQueueInUse = h.queues.gEventsQueue.length
  free : h.queues.gQueueLength-h.queues.gQueueInUse = h.queues.gEventsFreeQueue.length

/-- The elements of the pool are distinct and below the next address, and the
counters count them. -/
structure Pooled (s : Queues) : Prop where
  nodup : s.pool.Nodup
  live : ∀ e ∈ s.pool, e < s.brk
  inUse : s.gQueueInUse = s.gEventsQueue.length
  length : s.gQueueLength = s.pool.length
  small : s.pool.length ≤ 32767

theorem takeFirst_nil (fuel : ℕ) : takeFirst (fuel+1) [] = (none, []) := rfl

theorem takeFirst_cons (fuel : ℕ) (e : QElemPtr) (q : List QElemPtr) :
    takeFirst (fuel+1) (e :: q) = (some e, q) := by
  simp [takeFirst, Dequeue]

theorem length_pool (s : Queues) :
    s.pool.length = s.gEventsQueue.length+s.gEventsFreeQueue.length := List.length_append

section Pool
variable {s : Queues}

/-- One more element in the pool. -/
theorem Pooled.add (h : Pooled s) (hs : s.pool.length < 32767) :
    Pooled { s with
      gEventsFreeQueue := Enqueue s.brk s.gEventsFreeQueue
      brk := s.brk+1
      gQueueLength := short (s.gQueueLength+1) } := by
  have hlen := h.length
  have hpool : ({ s with
      gEventsFreeQueue := Enqueue s.brk s.gEventsFreeQueue
      brk := s.brk+1
      gQueueLength := short (s.gQueueLength+1) } : Queues).pool = s.pool ++ [s.brk] := by
    simp only [Queues.pool, Enqueue, List.append_assoc]
  refine ⟨?_, ?_, h.inUse, ?_, ?_⟩
  · rw [hpool]
    apply h.nodup.append (List.nodup_singleton _)
    intro e he hb
    have hlt := h.live e he
    rw [List.mem_singleton.mp hb] at hlt
    exact Nat.lt_irrefl _ hlt
  · intro e he
    rw [hpool] at he
    rcases List.mem_append.mp he with he | he
    · exact Nat.lt_succ_of_lt (h.live e he)
    · rw [List.mem_singleton.mp he]
      exact Nat.lt_succ_self s.brk
  · rw [hpool, List.length_append, List.length_singleton]
    change short (s.gQueueLength+1) = _
    rw [hlen, short_eq (by omega) (by omega)]
    omega
  · rw [hpool, List.length_append, List.length_singleton]
    omega

theorem grow_pooled (stray : List QElemPtr → List QElemPtr) (n : ℕ) {grants : List Bool}
    (hg : grants.take n = List.replicate n true) (h : Pooled s)
    (hs : s.pool.length+n ≤ 32767) :
    Pooled (grow stray n grants s) ∧ (grow stray n grants s).queued = s.queued ∧
      (grow stray n grants s).pool.length = s.pool.length+n := by
  induction n generalizing s grants with
  | zero => exact ⟨h, rfl, rfl⟩
  | succ n ih =>
    cases grants with
    | nil => simp [List.replicate_succ] at hg
    | cons g grants =>
      rw [List.take_succ_cons, List.replicate_succ, List.cons.injEq] at hg
      obtain ⟨rfl, hg⟩ := hg
      have hadd := h.add (by omega)
      have hlen : ({ s with
          gEventsFreeQueue := Enqueue s.brk s.gEventsFreeQueue
          brk := s.brk+1
          gQueueLength := short (s.gQueueLength+1) } : Queues).pool.length = s.pool.length+1 := by
        simp only [length_pool, Enqueue, List.length_append, List.length_singleton, Nat.add_assoc]
      obtain ⟨hp, hq, hl⟩ := ih hg hadd (by omega)
      refine ⟨hp, hq, hl.trans ?_⟩
      omega

/-- One element less in the pool. -/
theorem Pooled.drop {e : QElemPtr} {q : List QElemPtr} (h : Pooled s)
    (hq : s.gEventsFreeQueue = e :: q) :
    Pooled { s with gEventsFreeQueue := q, gQueueLength := short (s.gQueueLength-1) } := by
  have hsub : (s.gEventsQueue ++ q).Sublist s.pool := by
    rw [Queues.pool, hq]
    exact (List.sublist_cons_self e q).append_left _
  have hlen : s.pool.length = (s.gEventsQueue ++ q).length+1 := by
    rw [Queues.pool, hq, List.length_append, List.length_append, List.length_cons, Nat.add_assoc]
  have hsmall := h.small
  have hcount := h.length
  refine ⟨h.nodup.sublist hsub, fun e he => h.live e (hsub.subset he), h.inUse, ?_, ?_⟩
  · change short (s.gQueueLength-1) = ((s.gEventsQueue ++ q).length : Int)
    rw [hcount, short_eq (by omega) (by omega)]
    omega
  · change (s.gEventsQueue ++ q).length ≤ 32767
    omega

theorem shrink_pooled (n : ℕ) (h : Pooled s) (hn : n ≤ s.gEventsFreeQueue.length) :
    Pooled (shrink n s) ∧ (shrink n s).queued = s.queued := by
  induction n generalizing s with
  | zero => exact ⟨h, rfl⟩
  | succ n ih =>
    cases hq : s.gEventsFreeQueue with
    | nil =>
      rw [hq] at hn
      exact absurd hn (by simp)
    | cons e q =>
      have hdrop := h.drop hq
      rw [hq, List.length_cons] at hn
      simp only [shrink, hq, List.head?_cons, Dequeue, List.erase_cons_head]
      exact ih hdrop (Nat.le_of_succ_le_succ hn)

theorem ChangeQueueLength_pooled {delta : Int} {grants : List Bool}
    {stray : List QElemPtr → List QElemPtr} (h : Pooled s)
    (hf : (QueueOp.change delta grants stray).Fits s) :
    Pooled (ChangeQueueLength s delta grants stray) ∧
      (ChangeQueueLength s delta grants stray).queued = s.queued := by
  rw [QueueOp.Fits] at hf
  rw [ChangeQueueLength]
  split_ifs at hf ⊢ with hd
  · obtain ⟨hp, hq, -⟩ := grow_pooled stray _ hf.2 h (by omega)
    exact ⟨hp, hq⟩
  · exact shrink_pooled _ h (by omega)

/-- Putting an event fails only for want of a free element, and then changes
neither queue. -/
theorem netputevent_nil (v : InternalEvent) (hq : s.gEventsFreeQueue = []) :
    netputevent s v = (-1, { s with gQueueError := true }) := by
  rw [netputevent, hq, takeFirst_nil, ← hq]

theorem netputevent_cons {e : QElemPtr} {q : List QElemPtr} (v : InternalEvent)
    (hq : s.gEventsFreeQueue = e :: q) :
    netputevent s v = (0, { s with
      gEventsFreeQueue := q
      gQueueInUse := short (s.gQueueInUse+1)
      elem := Function.update s.elem e v
      gEventsQueue := s.gEventsQueue ++ [e] }) := by
  rw [netputevent, hq, takeFirst_cons]
  rfl

theorem netgetevent_nil (hq : s.gEventsQueue = []) : netgetevent s = (none, s) := by
  rw [netgetevent, hq, takeFirst_nil, ← hq]

theorem netgetevent_cons {e : QElemPtr} {q : List QElemPtr} (hq : s.gEventsQueue = e :: q) :
    netgetevent s = (some (s.elem e), { s with
      gEventsQueue := q
      gEventsFreeQueue := s.gEventsFreeQueue ++ [e]
      gQueueInUse := short (s.gQueueInUse-1) }) := by
  rw [netgetevent, hq, takeFirst_cons]
  rfl

/-- Elements that move between the two queues leave the pool as it is. -/
theorem Pooled.move {t : Queues} (h : Pooled s) (hp : t.pool.Perm s.pool) (hb : t.brk = s.brk)
    (hl : t.gQueueLength = s.gQueueLength) (hu : t.gQueueInUse = t.gEventsQueue.length) :
    Pooled t := by
  refine ⟨hp.nodup_iff.mpr h.nodup, ?_, hu, ?_, ?_⟩
  · intro e he
    rw [hb]
    exact h.live e (hp.subset he)
  · rw [hl, hp.length_eq]
    exact h.length
  · rw [hp.length_eq]
    exact h.small

/-- What a put does: it is refused, or the event is queued last. -/
theorem netputevent_pooled (v : InternalEvent) (h : Pooled s) :
    Pooled (netputevent s v).2 ∧
      (((netputevent s v).1 = -1 ∧ (netputevent s v).2.queued = s.queued) ∨
        ((netputevent s v).1 = 0 ∧ (netputevent s v).2.queued = s.queued ++ [v])) := by
  have hcount := h.inUse
  have hsmall := h.small
  rw [length_pool] at hsmall
  cases hq : s.gEventsFreeQueue with
  | nil =>
    rw [netputevent_nil v hq]
    exact ⟨h.move (List.Perm.refl _) rfl rfl h.inUse, Or.inl ⟨rfl, rfl⟩⟩
  | cons e q =>
    rw [netputevent_cons v hq]
    rw [hq, List.length_cons] at hsmall
    refine ⟨h.move ?_ rfl rfl ?_, Or.inr ⟨rfl, ?_⟩⟩
    · simp only [Queues.pool, hq, List.append_assoc, List.singleton_append]
      exact List.Perm.refl _
    · change short (s.gQueueInUse+1) = ((s.gEventsQueue ++ [e]).length : Int)
      rw [hcount, short_eq (by omega) (by omega), List.length_append, List.length_singleton]
      omega
    · -- the element was free, so no queued event is overwritten
      have he : e ∉ s.gEventsQueue := by
        intro hmem
        have hdis := List.disjoint_of_nodup_append h.nodup
        exact hdis hmem (by rw [hq]; exact List.mem_cons_self)
      simp only [Queues.queued, List.map_append, List.map_singleton, Function.update_self]
      congr 1
      apply List.map_congr_left
      intro a ha
      have hae : a ≠ e := ne_of_mem_of_not_mem ha he
      exact Function.update_of_ne hae v s.elem

/-- What a get does: the first event leaves the queue. -/
theorem netgetevent_pooled (h : Pooled s) :
    Pooled (netgetevent s).2 ∧
      s.queued = (netgetevent s).1.toList ++ (netgetevent s).2.queued := by
  have hcount := h.inUse
  have hsmall := h.small
  rw [length_pool] at hsmall
  cases hq : s.gEventsQueue with
  | nil =>
    rw [netgetevent_nil hq]
    exact ⟨h, rfl⟩
  | cons e q =>
    rw [netgetevent_cons hq]
    rw [hq, List.length_cons] at hsmall hcount
    refine ⟨h.move ?_ rfl rfl ?_, ?_⟩
    · simp only [Queues.pool, hq]
      rw [← List.append_assoc]
      exact List.perm_append_singleton e _
    · change short (s.gQueueInUse-1) = (q.length : Int)
      rw [hcount, short_eq (by omega) (by omega)]
      omega
    · rw [Queues.queued, hq]
      rfl

theorem findLike_iff (v : InternalEvent) (q : List QElemPtr) :
    findLike s v q = true ↔ v ∈ q.map s.elem := by
  induction q with
  | nil => simp [findLike]
  | cons e q ih =>
    rw [findLike, List.map_cons, List.mem_cons]
    split_ifs with hne
    · rw [ih]
      have hv : v ≠ s.elem e := by
        rintro rfl
        simp at hne
      simp only [hv, false_or]
    · push Not at hne
      obtain ⟨h1, h2, h3, h4⟩ := hne
      have hv : v = s.elem e := by
        cases v
        simp only at h1 h2 h3 h4
        simp only [← h1, ← h2, ← h3, ← h4]
      simp only [hv, true_or]

theorem netputuev_unique (v : InternalEvent) (hne : (netputuev s v).2.queued ≠ s.queued) :
    v ∉ s.queued := by
  intro hv
  apply hne
  rw [netputuev, if_pos ((findLike_iff v _).mpr hv)]

end Pool

/-- The order of the events and the counters, as every call keeps them. -/
structure Kept (h : History) : Prop where
  pooled : Pooled h.queues
  order : h.accepted = h.returned ++ h.queues.queued

theorem Kept.put {h : History} (hk : Kept h) (v : InternalEvent) : Kept (h.put v) := by
  obtain ⟨hp, ⟨hr, hq⟩ | ⟨hr, hq⟩⟩ := netputevent_pooled v hk.pooled
  · refine ⟨hp, ?_⟩
    simp only [History.put, hr, hq]
    exact hk.order
  · refine ⟨hp, ?_⟩
    simp only [History.put, hr, hq, if_true]
    rw [hk.order, List.append_assoc]

theorem Kept.step {h : History} (hk : Kept h) (op : QueueOp) (hf : op.Fits h.queues) :
    Kept (h.step op) := by
  cases op with
  | put v => exact hk.put v
  | putUnique v =>
    simp only [History.step, netputuev]
    split_ifs with hfound
    · exact hk
    · exact hk.put v
  | get =>
    obtain ⟨hp, hq⟩ := netgetevent_pooled hk.pooled
    refine ⟨hp, ?_⟩
    simp only [History.step]
    rw [hk.order, hq, List.append_assoc]
  | change delta grants stray =>
    obtain ⟨hp, hq⟩ := ChangeQueueLength_pooled hk.pooled hf
    refine ⟨hp, ?_⟩
    simp only [History.step, hq]
    exact hk.order

theorem neteventinit_kept (elem : QElemPtr → InternalEvent) (brk : QElemPtr)
    (stray : List QElemPtr → List QElemPtr) :
    Kept
      ⟨neteventinit ⟨elem, brk, [], [], 0, 0, false⟩ (List.replicate 50 true) stray, [], []⟩ := by
  have hempty : Pooled ⟨elem, brk, [], [], 0, 0, false⟩ :=
    ⟨List.nodup_nil, fun _ he => absurd he List.not_mem_nil, rfl, rfl, Nat.zero_le _⟩
  have hgrants : (List.replicate 50 true).take 50 = List.replicate 50 true := rfl
  obtain ⟨hp, hq, hl⟩ := grow_pooled stray 50 hgrants hempty (by simp [length_pool])
  have hpos : NEVENTS > 0 := by decide
  rw [neteventinit, ChangeQueueLength, if_pos hpos]
  change Kept ⟨{ grow stray 50 _ _ with gQueueLength := NEVENTS }, [], []⟩
  generalize grow stray 50 _ _ = t at hp hq hl ⊢
  refine ⟨⟨hp.nodup, hp.live, hp.inUse, ?_, hp.small⟩, hq.symm⟩
  -- the counter is set to what it already is
  exact congrArg Nat.cast hl.symm

theorem kept_run {h : History} (hr : Run QueueOp.Fits h) : Kept h := by
  induction hr with
  | start elem brk stray => exact neteventinit_kept elem brk stray
  | step op _ hf ih => exact ih.step op hf

/-- After any calls that find the memory and the free elements they ask for, the
queue has handed out what it was given in the order it was given, without the
events that were already there, and both counters are right. -/
theorem event_queue_over_runs (h : History) (hr : Run QueueOp.Fits h) : FirstInFirstOut h := by
  have hk := kept_run hr
  have hlen := hk.pooled.length
  have huse := hk.pooled.inUse
  rw [length_pool] at hlen
  exact ⟨hk.order, netputuev_unique, huse, by omega⟩

/-- The queues at start-up, with no event yet. -/
def started : History :=
  ⟨neteventinit ⟨fun _ => default, 1, [], [], 0, 0, false⟩ (List.replicate 50 true) id, [], []⟩

/-- An event that was put and taken again. -/
theorem event_queue_put_get :
    FirstInFirstOut ((started.step (.put ⟨1, 2, 3, 4⟩)).step .get) :=
  event_queue_over_runs _ ((Run.step _ (Run.start _ _ _) trivial).step _ trivial)

/-- Taking more elements out of the pool than are free leaves its counter wrong. -/
theorem shrinking_below_free_miscounts :
    ∃ h, Run (fun _ _ => True) h ∧ h = started.step (.change (-51) [] id) ∧ ¬FirstInFirstOut h := by
  refine ⟨_, (Run.start _ _ _).step _ trivial, rfl, ?_⟩
  exact fun h => absurd h.free (by decide +kernel)

end NetEvent
