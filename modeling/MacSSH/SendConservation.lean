import MacSSH.SendBuffer
import Mathlib.Algebra.BigOperators.Group.List.Basic
import Mathlib.Algebra.Order.Group.Multiset
import Mathlib.Data.List.GetD

/-! Where the bytes of the send buffer are. Every call moves ranges between the free
table, the sends in flight and the reclaim table; the bytes are the same unless
a table overflows or the driver refuses a send. -/
namespace SendBuffer

/-- The bytes of a slot. -/
def WdsEntry.bytes (e : WdsEntry) : Multiset ℕ :=
  if e.ptr = 0 then 0 else List.range' e.ptr e.length

def bytes (l : List WdsEntry) : Multiset ℕ := (l.map WdsEntry.bytes).sum

/-- The bytes that wait to be reclaimed. -/
def bytesUsed (l : List Exfds) : Multiset ℕ :=
  (l.map fun x => if x.inuse then x.fds.bytes else 0).sum

/-- The bytes of the buffer that no send holds. -/
def StreamRec.free (p : StreamRec) : Multiset ℕ := bytes p.fds+bytesUsed p.exFDS

def StreamRec.inFlight (p : StreamRec) : Multiset ℕ := (p.sends.map bytes).sum

section Bytes

@[simp] theorem bytes_empty : WdsEntry.empty.bytes = 0 := rfl

@[simp] theorem bytes_nil : bytes [] = 0 := rfl

@[simp] theorem bytes_cons (e : WdsEntry) (l : List WdsEntry) :
    bytes (e :: l) = e.bytes+bytes l := List.sum_cons

@[simp] theorem bytes_append (l l' : List WdsEntry) : bytes (l ++ l') = bytes l+bytes l' := by
  rw [bytes, List.map_append, List.sum_append, bytes, bytes]

@[simp] theorem bytes_replicate (n : ℕ) : bytes (List.replicate n WdsEntry.empty) = 0 := by
  induction n with
  | zero => rfl
  | succ n ih => rw [List.replicate_succ, bytes_cons, ih, bytes_empty, add_zero]

theorem bytesUsed_used {x : Exfds} {xs : List Exfds} (hx : x.inuse = true) :
    bytesUsed (x :: xs) = x.fds.bytes+bytesUsed xs := by
  rw [bytesUsed, List.map_cons, List.sum_cons, if_pos hx, bytesUsed]

theorem bytesUsed_unused {x : Exfds} {xs : List Exfds} (hx : x.inuse = false) :
    bytesUsed (x :: xs) = bytesUsed xs := by
  rw [bytesUsed, List.map_cons, List.sum_cons, hx, if_neg Bool.false_ne_true, zero_add, bytesUsed]

theorem bytes_filter (l : List WdsEntry) : bytes (l.filter fun e => e.ptr ≠ 0) = bytes l := by
  induction l with
  | nil => rfl
  | cons e l ih =>
    by_cases he : e.ptr = 0
    · rw [List.filter_cons_of_neg (by simp [he]), ih, bytes_cons, WdsEntry.bytes, if_pos he,
        zero_add]
    · rw [List.filter_cons_of_pos (by simp [he]), bytes_cons, bytes_cons, ih]

/-- Writing slot `n` trades what its old entry adds to a sum for what the new one
does. -/
theorem sum_set {M : Type} [AddCommMonoid M] (f : WdsEntry → M) (l : List WdsEntry) (n : ℕ)
    (x : WdsEntry) (hn : n < l.length) :
    ((l.set n x).map f).sum+f (entry l n) = (l.map f).sum+f x := by
  induction l generalizing n with
  | nil => exact absurd hn (Nat.not_lt_zero n)
  | cons e l ih =>
    cases n with
    | zero =>
      rw [List.set_cons_zero, List.map_cons, List.map_cons, List.sum_cons, List.sum_cons, entry,
        List.getD_cons_zero]
      ac_rfl
    | succ n =>
      have h := ih n (Nat.lt_of_succ_lt_succ hn)
      rw [List.set_cons_succ, List.map_cons, List.map_cons, List.sum_cons, List.sum_cons, entry,
        List.getD_cons_succ, add_assoc, add_assoc, ← h, entry]

theorem bytes_set (l : List WdsEntry) (n : ℕ) (x : WdsEntry) (hn : n < l.length) :
    bytes (l.set n x)+(entry l n).bytes = bytes l+x.bytes :=
  sum_set WdsEntry.bytes l n x hn

/-- The number of used slots. -/
def used (l : List WdsEntry) : ℕ := (l.map fun e => if e.ptr = 0 then 0 else 1).sum

theorem entry_set_ne (l : List WdsEntry) {n m : ℕ} (x : WdsEntry) (h : n ≠ m) :
    entry (l.set n x) m = entry l m := by
  simp [entry, List.getD_eq_getElem?_getD, List.getElem?_set_ne h]

/-- Adjacent ranges have together the bytes of the joined one. -/
theorem bytes_join {em en : WdsEntry} (h0 : em.ptr ≠ 0) (h : em.ptr+em.length = en.ptr) :
    (⟨en.length+em.length, em.ptr⟩ : WdsEntry).bytes = en.bytes+em.bytes := by
  have hn : en.ptr ≠ 0 := by omega
  simp only [WdsEntry.bytes, if_neg h0, if_neg hn]
  rw [add_comm en.length, ← List.range'_append_1, ← h, ← Multiset.coe_add, add_comm]

/-- A range is cut into two. -/
theorem bytes_split {e : WdsEntry} {k : ℕ} (h0 : e.ptr ≠ 0) (hk : k ≤ e.length) :
    (⟨e.length-k, e.ptr+k⟩ : WdsEntry).bytes+(⟨k, e.ptr⟩ : WdsEntry).bytes = e.bytes := by
  have hfirst : (⟨k, e.ptr⟩ : WdsEntry).ptr ≠ 0 := h0
  have hjoin := bytes_join hfirst (show _ = (⟨e.length-k, e.ptr+k⟩ : WdsEntry).ptr from rfl)
  rw [← hjoin, Nat.sub_add_cancel hk]

end Bytes

section Compress
variable {fds : List WdsEntry}

theorem joinPair_bytes {n m : ℕ} {r : List WdsEntry × Bool} (hn : n < r.1.length)
    (hm : m < r.1.length) :
    bytes (joinPair n r m).1 = bytes r.1 ∧ (joinPair n r m).1.length = r.1.length := by
  simp only [joinPair]
  split_ifs with h
  · refine ⟨?_, by simp⟩
    obtain ⟨h0, hadj⟩ := h
    have hjoin := bytes_join h0 hadj
    have hfirst := bytes_set r.1 n ⟨(entry r.1 n).length+(entry r.1 m).length, (entry r.1 m).ptr⟩ hn
    by_cases hnm : n = m
    · -- a slot is joined to itself only when its range is empty
      subst hnm
      have hlen : (entry r.1 n).length = 0 := by omega
      have hnone : (entry r.1 n).bytes = 0 := by
        rw [WdsEntry.bytes, if_neg h0, hlen]
        rfl
      have h := bytes_set r.1 n WdsEntry.empty hn
      rw [hnone, bytes_empty, add_zero, add_zero] at h
      rw [List.set_set, h]
    · have hsecond := bytes_set (r.1.set n
          ⟨(entry r.1 n).length+(entry r.1 m).length, (entry r.1 m).ptr⟩) m WdsEntry.empty
        (by simpa using hm)
      rw [entry_set_ne _ _ hnm, bytes_empty, add_zero] at hsecond
      rw [hjoin, ← hsecond] at hfirst
      have hsum : bytes ((r.1.set n ⟨(entry r.1 n).length+(entry r.1 m).length,
          (entry r.1 m).ptr⟩).set m WdsEntry.empty)+((entry r.1 n).bytes+(entry r.1 m).bytes) =
          bytes r.1+((entry r.1 n).bytes+(entry r.1 m).bytes) := by
        rw [← hfirst]
        ac_rfl
      exact add_right_cancel hsum
  · exact ⟨rfl, rfl⟩

theorem entry_set_self {l : List WdsEntry} {n : ℕ} (x : WdsEntry) (hn : n < l.length) :
    entry (l.set n x) n = x := by
  rw [entry, List.getD_eq_getElem _ _ (by simpa using hn), List.getElem_set_self]

/-- A join empties one more slot. -/
theorem joinPair_used {n m : ℕ} {r : List WdsEntry × Bool} (hn : n < r.1.length)
    (hm : m < r.1.length) :
    joinPair n r m = r ∨ (used (joinPair n r m).1 < used r.1 ∧ (joinPair n r m).2 = false) := by
  simp only [joinPair]
  split_ifs with h
  · refine Or.inr ⟨?_, rfl⟩
    obtain ⟨h0, hadj⟩ := h
    have hn0 : (entry r.1 n).ptr ≠ 0 := by omega
    let x : WdsEntry := ⟨(entry r.1 n).length+(entry r.1 m).length, (entry r.1 m).ptr⟩
    have hx : x.ptr ≠ 0 := h0
    have hfirst := sum_set (fun e => if e.ptr = 0 then 0 else 1) r.1 n x hn
    have hm' : m < (r.1.set n x).length := by simpa using hm
    have hsecond := sum_set (fun e => if e.ptr = 0 then 0 else 1) (r.1.set n x) m WdsEntry.empty hm'
    have hslot : (entry (r.1.set n x) m).ptr ≠ 0 := by
      by_cases hnm : n = m
      · subst hnm
        rw [entry_set_self x hn]
        exact hx
      · rw [entry_set_ne _ _ hnm]
        exact h0
    rw [if_neg hn0, if_neg hx] at hfirst
    rw [if_neg hslot, if_pos (show WdsEntry.empty.ptr = 0 from rfl)] at hsecond
    change used ((r.1.set n x).set m WdsEntry.empty) < used r.1
    simp only [used]
    omega
  · exact Or.inl rfl

/-- No slot that is empty gets used. -/
theorem joinPair_stays_empty {n m : ℕ} {r : List WdsEntry × Bool} (j : ℕ)
    (hj : (entry r.1 j).ptr = 0) : (entry (joinPair n r m).1 j).ptr = 0 := by
  simp only [joinPair]
  split_ifs with h
  · have hnj : n ≠ j := by
      rintro rfl
      omega
    have hmj : m ≠ j := by
      rintro rfl
      exact h.1 hj
    rw [entry_set_ne _ _ hmj, entry_set_ne _ _ hnj]
    exact hj
  · exact hj

/-- A table whose adjacent ranges were joined: it has the same bytes, and the slots
that were empty still are. -/
structure Joins (l l' : List WdsEntry) : Prop where
  bytes_eq : bytes l' = bytes l
  length_eq : l'.length = l.length
  stays_empty : ∀ j, (entry l j).ptr = 0 → (entry l' j).ptr = 0

theorem Joins.refl (l : List WdsEntry) : Joins l l := ⟨rfl, rfl, fun _ h => h⟩

theorem Joins.trans {l l' l'' : List WdsEntry} (h : Joins l l') (h' : Joins l' l'') : Joins l l'' :=
  ⟨h'.bytes_eq.trans h.bytes_eq, h'.length_eq.trans h.length_eq,
    fun j hj => h'.stays_empty j (h.stays_empty j hj)⟩

/-- What a part of a pass does: nothing has changed, or a slot was emptied and the
flag has fallen. -/
structure Passed (r r' : List WdsEntry × Bool) : Prop where
  joins : Joins r.1 r'.1
  progress : r' = r ∨ (used r'.1 < used r.1 ∧ r'.2 = false)

theorem Passed.trans {r r' r'' : List WdsEntry × Bool} (h : Passed r r') (h' : Passed r' r'') :
    Passed r r'' := by
  refine ⟨h.joins.trans h'.joins, ?_⟩
  rcases h'.progress with he | ⟨hlt, hf⟩
  · rw [he]
    exact h.progress
  · rcases h.progress with he | ⟨hlt', -⟩
    · rw [he] at hlt
      exact Or.inr ⟨hlt, hf⟩
    · exact Or.inr ⟨hlt.trans hlt', hf⟩

theorem passed_foldl {f : List WdsEntry × Bool → ℕ → List WdsEntry × Bool} (l : List ℕ)
    (hf : ∀ r, r.1.length = MAX_FDS_ELEMS → ∀ i ∈ l, Passed r (f r i))
    (r : List WdsEntry × Bool) (hr : r.1.length = MAX_FDS_ELEMS) : Passed r (l.foldl f r) := by
  induction l generalizing r with
  | nil => exact ⟨Joins.refl _, Or.inl rfl⟩
  | cons i l ih =>
    have hi := hf r hr i List.mem_cons_self
    have hl := ih (fun r hr j hj => hf r hr j (List.mem_cons_of_mem i hj)) (f r i)
      (hi.joins.length_eq.trans hr)
    exact hi.trans hl

theorem joinPass_passed (hl : fds.length = MAX_FDS_ELEMS) : Passed (fds, true) (joinPass fds) := by
  apply passed_foldl (List.range MAX_FDS_ELEMS) _ _ hl
  intro r hr n hn
  rw [joinSlot]
  split_ifs
  · apply passed_foldl _ _ _ hr
    intro r hr m hm
    have hn' : n < r.1.length := by rw [hr]; exact List.mem_range.mp hn
    have hm' : m < r.1.length := by rw [hr]; exact List.mem_range.mp (List.mem_reverse.mp hm)
    obtain ⟨hb, hlen⟩ := joinPair_bytes hn' hm'
    exact ⟨⟨hb, hlen, joinPair_stays_empty⟩, joinPair_used hn' hm'⟩
  · exact ⟨Joins.refl _, Or.inl rfl⟩

/-- With a turn for every used slot the loop ends by itself. -/
theorem joinRanges_spec (fuel : ℕ) (hl : fds.length = MAX_FDS_ELEMS) (hf : used fds < fuel) :
    Joins fds (joinRanges fuel fds) ∧
      joinPass (joinRanges fuel fds) = (joinRanges fuel fds, true) := by
  induction fuel generalizing fds with
  | zero => exact absurd hf (Nat.not_lt_zero _)
  | succ fuel ih =>
    have hp := joinPass_passed hl
    rw [joinRanges]
    rcases hp.progress with he | ⟨hlt, hflag⟩
    · rw [he, if_pos rfl]
      exact ⟨Joins.refl fds, he⟩
    · rw [hflag, if_neg Bool.false_ne_true]
      have hless : used (joinPass fds).1 < used fds := hlt
      obtain ⟨hj, hend⟩ := ih (hp.joins.length_eq.trans hl) (by omega)
      exact ⟨hp.joins.trans hj, hend⟩

theorem used_le_length (l : List WdsEntry) : used l ≤ l.length := by
  induction l with
  | nil => exact le_rfl
  | cons e l ih =>
    have hcons : used (e :: l) = (if e.ptr = 0 then 0 else 1)+used l := List.sum_cons
    rw [hcons, List.length_cons]
    split_ifs <;> omega

theorem joined_spec (hl : fds.length = MAX_FDS_ELEMS) :
    Joins fds (joined fds) ∧ joinPass (joined fds) = (joined fds, true) := by
  have hu := used_le_length fds
  exact joinRanges_spec _ hl (by omega)

/-- The used slots of a table. -/
def usedSlots (l : List WdsEntry) : List WdsEntry := l.filter fun e => e.ptr ≠ 0

theorem entry_append (l l' : List WdsEntry) (j : ℕ) :
    entry (l ++ l') (l.length+j) = entry l' j := by
  rw [entry, List.getD_append_right _ _ _ _ (Nat.le_add_right _ _), Nat.add_sub_cancel_left, entry]

theorem skipGap_eq (k fuel i : ℕ) (hk : k ≤ fuel)
    (hgap : ∀ j, i ≤ j → j < i+k → (entry fds j).ptr = 0 ∧ j < MAX_FDS_ELEMS)
    (hstop : i+k = MAX_FDS_ELEMS ∨ (entry fds (i+k)).ptr ≠ 0) : skipGap fds fuel i = i+k := by
  induction k generalizing i fuel with
  | zero =>
    cases fuel with
    | zero => rfl
    | succ fuel =>
      rw [skipGap, if_neg]
      · rfl
      rintro ⟨h0, hlt⟩
      rcases hstop with h | h
      · omega
      · exact h h0
  | succ k ih =>
    cases fuel with
    | zero => exact absurd hk (by omega)
    | succ fuel =>
      rw [skipGap, if_pos (hgap i le_rfl (by omega))]
      have hshift : i+1+k = i+(k+1) := by omega
      rw [ih fuel (i+1) (by omega) (fun j h1 h2 => hgap j (by omega) (by omega)) (hshift ▸ hstop),
        hshift]

/-- A list up to its first used slot. -/
theorem split_first_used (l : List WdsEntry) :
    (∀ e ∈ l, e.ptr = 0) ∨
      ∃ gap y rest, l = gap ++ y :: rest ∧ (∀ e ∈ gap, e.ptr = 0) ∧ y.ptr ≠ 0 := by
  induction l with
  | nil => exact Or.inl (fun e he => absurd he List.not_mem_nil)
  | cons x l ih =>
    by_cases hx : x.ptr = 0
    · rcases ih with hall | ⟨gap, y, rest, rfl, hgap, hy⟩
      · exact Or.inl (List.forall_mem_cons.mpr ⟨hx, hall⟩)
      · exact Or.inr ⟨x :: gap, y, rest, rfl, List.forall_mem_cons.mpr ⟨hx, hgap⟩, hy⟩
    · exact Or.inr ⟨[], x, l, rfl, fun e he => absurd he List.not_mem_nil, hx⟩

theorem entry_mem {l : List WdsEntry} {j : ℕ} (hj : j < l.length) : entry l j ∈ l := by
  rw [entry, List.getD_eq_getElem _ _ hj]
  exact List.getElem_mem hj

/-- Empty slots are passed over. -/
theorem skipGap_append {front gap behind : List WdsEntry} (hgap : ∀ e ∈ gap, e.ptr = 0)
    (hlen : front.length+gap.length ≤ MAX_FDS_ELEMS)
    (hstop : front.length+gap.length = MAX_FDS_ELEMS ∨ (entry behind 0).ptr ≠ 0) :
    skipGap (front ++ (gap ++ behind)) MAX_FDS_ELEMS front.length = front.length+gap.length := by
  apply skipGap_eq gap.length _ _ (by omega)
  · intro j h1 h2
    obtain ⟨i, rfl⟩ := Nat.exists_eq_add_of_le h1
    have hi : i < gap.length := by omega
    rw [entry_append]
    refine ⟨?_, by omega⟩
    rw [entry, List.getD_append _ _ _ _ hi]
    exact hgap _ (entry_mem hi)
  · rw [entry_append]
    rcases hstop with hend | hused
    · exact Or.inl hend
    · exact Or.inr ((entry_append gap behind 0).symm ▸ hused)

theorem usedSlots_empty {l : List WdsEntry} (h : ∀ e ∈ l, e.ptr = 0) : usedSlots l = [] := by
  rw [usedSlots, List.filter_eq_nil_iff]
  intro e he
  simp [h e he]

theorem usedSlots_first {skipped rest : List WdsEntry} {y : WdsEntry}
    (hskip : ∀ e ∈ skipped, e.ptr = 0) (hy : y.ptr ≠ 0) :
    usedSlots (skipped ++ y :: rest) = y :: usedSlots rest := by
  have hnone := usedSlots_empty hskip
  rw [usedSlots] at hnone
  rw [usedSlots, List.filter_append, hnone, List.nil_append, List.filter_cons_of_pos (by simp [hy]),
    usedSlots]

/-- A turn of the loop that closes the gaps moves a used slot down to the gap. -/
theorem closeGaps_moves (fuel : ℕ) {filled gap skipped behind : List WdsEntry} {y : WdsEntry}
    (hskip : ∀ e ∈ skipped, e.ptr = 0) (hy : y.ptr ≠ 0)
    (hlen : filled.length+gap.length+skipped.length < MAX_FDS_ELEMS) :
    ∃ gap' : List WdsEntry, gap'.length = gap.length+skipped.length ∧
      closeGaps (fuel+1) filled.length gap.length (filled ++ gap ++ (skipped ++ y :: behind)) =
        closeGaps fuel (filled ++ [y]).length gap'.length (filled ++ [y] ++ gap' ++ behind) := by
  have hfront : filled.length+gap.length = (filled ++ gap).length := List.length_append.symm
  have hfound : skipGap (filled ++ gap ++ (skipped ++ y :: behind)) MAX_FDS_ELEMS
      (filled.length+gap.length) = filled.length+gap.length+skipped.length := by
    rw [hfront]
    apply skipGap_append hskip
    · omega
    · exact Or.inr hy
  have hfirst : entry (filled ++ gap ++ (skipped ++ y :: behind))
      (filled.length+gap.length+skipped.length) = y := by
    rw [hfront, entry_append]
    exact entry_append skipped _ 0
  -- the slot to fill is the first of the gap, or the used slot itself
  obtain ⟨w, gap', hgap'⟩ : ∃ w gap', gap ++ skipped ++ [y] = w :: gap' :=
    List.exists_cons_of_ne_nil (by simp)
  have hsize : gap'.length = gap.length+skipped.length := by
    have h := congrArg List.length hgap'
    simp only [List.length_append, List.length_cons, List.length_nil] at h
    omega
  have hset : (filled ++ gap ++ (skipped ++ y :: behind)).set filled.length y =
      filled ++ [y] ++ gap' ++ behind := by
    have hform : filled ++ gap ++ (skipped ++ y :: behind) =
        filled ++ ((gap ++ skipped ++ [y]) ++ behind) := by simp
    rw [hform, hgap', List.set_append_right _ _ le_rfl, Nat.sub_self]
    simp
  have hwidth : filled.length+gap.length+skipped.length-filled.length = gap'.length := by omega
  have hnext : filled.length+1 = (filled ++ [y]).length := by simp
  refine ⟨gap', hsize, ?_⟩
  rw [closeGaps, if_pos (by omega)]
  simp only [hfound, hfirst]
  rw [if_pos hlen, hset, hwidth, hnext]

theorem closeGaps_ends {fuel n m : ℕ} (h : ¬ n+m < MAX_FDS_ELEMS) :
    closeGaps fuel n m fds = (n, fds) := by
  cases fuel with
  | zero => rfl
  | succ fuel => rw [closeGaps, if_neg h]

/-- The loop that closes the gaps moves the used slots down in their order. It counts one
slot more than are used before the last one. -/
theorem closeGaps_spec (fuel : ℕ) (filled gap rest : List WdsEntry) (z : WdsEntry)
    (hlen : filled.length+gap.length+rest.length+1 = MAX_FDS_ELEMS) (hf : rest.length+1 < fuel) :
    ∃ left, closeGaps fuel filled.length gap.length (filled ++ gap ++ (rest ++ [z])) =
      (filled.length+(usedSlots rest).length+1, filled ++ usedSlots rest ++ left) := by
  induction fuel generalizing filled gap rest with
  | zero => exact absurd hf (Nat.not_lt_zero _)
  | succ fuel ih =>
    rcases split_first_used rest with hall | ⟨skipped, y, rest, rfl, hskip, hy⟩
    · -- only empty slots are left before the last one
      rw [usedSlots_empty hall, List.append_nil]
      by_cases hz : z.ptr = 0
      · have hempty : ∀ e ∈ rest ++ [z], e.ptr = 0 :=
          List.forall_mem_append.mpr ⟨hall, List.forall_mem_singleton.mpr hz⟩
        have hfront : filled.length+gap.length = (filled ++ gap).length := List.length_append.symm
        have hcount : (rest ++ [z]).length = rest.length+1 := List.length_append
        have hend : (filled ++ gap).length+(rest ++ [z]).length = MAX_FDS_ELEMS := by omega
        have hpassed := @skipGap_append (filled ++ gap) (rest ++ [z]) [] hempty hend.le
          (Or.inl hend)
        rw [List.append_nil, ← hfront] at hpassed
        refine ⟨gap ++ (rest ++ [z]), ?_⟩
        rw [closeGaps, if_pos (by omega)]
        simp only [hpassed]
        rw [if_neg (by omega), closeGaps_ends (by omega), List.append_assoc]
        rfl
      · -- the last slot is moved, and the loop ends behind it
        obtain ⟨gap', hsize, hturn⟩ := @closeGaps_moves fuel filled gap rest [] z hall hz (by omega)
        have hcount : (filled ++ [z]).length = filled.length+1 := List.length_append
        refine ⟨z :: gap', ?_⟩
        rw [hturn, closeGaps_ends (by omega), List.append_nil, List.append_assoc, hcount]
        rfl
    · have hcount : (skipped ++ y :: rest).length = skipped.length+(rest.length+1) :=
        List.length_append
      have hmoved : (filled ++ [y]).length = filled.length+1 := List.length_append
      obtain ⟨gap', hsize, hturn⟩ :=
        @closeGaps_moves fuel filled gap skipped (rest ++ [z]) y hskip hy (by omega)
      obtain ⟨left, hleft⟩ := ih (filled ++ [y]) gap' rest (by omega) (by omega)
      refine ⟨left, ?_⟩
      rw [usedSlots_first hskip hy, List.append_assoc skipped, List.cons_append, hturn,
        hleft, hmoved,
        List.length_cons, List.append_assoc filled, List.singleton_append]
      congr 1
      omega

/-- Compressing moves the used slots together, and empties the last slot. -/
theorem compressfds_dropLast (hl : fds.length = MAX_FDS_ELEMS) :
    compressfds fds = usedSlots (joined fds).dropLast ++
      List.replicate (MAX_FDS_ELEMS-(usedSlots (joined fds).dropLast).length) WdsEntry.empty := by
  have hlen := (joined_spec hl).1.length_eq.trans hl
  simp only [compressfds]
  generalize joined fds = l at hlen ⊢
  have hl0 : l ≠ [] := by
    intro h
    rw [h] at hlen
    exact absurd hlen (by decide)
  obtain ⟨rest, z, rfl⟩ : ∃ rest z, l = rest ++ [z] :=
    ⟨_, _, (List.dropLast_append_getLast hl0).symm⟩
  have hr : rest.length = 31 := by simpa using hlen
  obtain ⟨left, hleft⟩ := closeGaps_spec (MAX_FDS_ELEMS+1) [] [] rest z
    (by simp [hr]) (by simp [hr])
  simp only [List.nil_append, List.length_nil, Nat.zero_add] at hleft
  rw [hleft, List.dropLast_concat, Nat.add_sub_cancel, List.take_left]

/-- The last slot of a table is apart from the others. -/
theorem split_last {l : List WdsEntry} (hl : l.length = MAX_FDS_ELEMS) :
    l = l.dropLast ++ [entry l 31] := by
  have hl0 : l ≠ [] := by
    intro h
    rw [h] at hl
    exact absurd hl (by decide)
  have hlast : entry l 31 = l.getLast hl0 := by
    have h31 : 31 = l.length-1 := congrArg (· - 1) hl.symm
    rw [entry, List.getLast_eq_getElem, List.getD_eq_getElem _ _ (by rw [hl]; decide)]
    exact getElem_congr_idx h31
  rw [hlast, List.dropLast_append_getLast]

/-- The used slots are all kept when the last slot is empty once adjacent ranges are joined;
a used last slot is lost. -/
theorem compressfds_eq (hl : fds.length = MAX_FDS_ELEMS) (hlast : (entry (joined fds) 31).ptr = 0) :
    compressfds fds = usedSlots (joined fds) ++
      List.replicate (MAX_FDS_ELEMS-(usedSlots (joined fds)).length) WdsEntry.empty := by
  have hslots : usedSlots (joined fds) = usedSlots (joined fds).dropLast := by
    have hsplit := split_last ((joined_spec hl).1.length_eq.trans hl)
    have hend : usedSlots [entry (joined fds) 31] = [] :=
      List.filter_cons_of_neg (by simp [hlast])
    calc usedSlots (joined fds)
        = usedSlots ((joined fds).dropLast ++ [entry (joined fds) 31]) := congrArg _ hsplit
      _ = usedSlots (joined fds).dropLast ++ usedSlots [entry (joined fds) 31] :=
        List.filter_append _ _
      _ = usedSlots (joined fds).dropLast := by rw [hend, List.append_nil]
  rw [hslots]
  exact compressfds_dropLast hl

/-- A table whose used slots come first and leave the last slot empty. -/
structure Compact (fds : List WdsEntry) : Prop where
  length : fds.length = MAX_FDS_ELEMS
  last : (entry fds 31).ptr = 0
  behind : ∀ j, (fds.takeWhile fun e => e.ptr ≠ 0).length ≤ j → (entry fds j).ptr = 0

theorem usedSlots_length {l : List WdsEntry} (hl : l.length = MAX_FDS_ELEMS)
    (hlast : (entry l 31).ptr = 0) : (usedSlots l).length < MAX_FDS_ELEMS := by
  rw [usedSlots, ← hl]
  apply lt_of_le_of_ne (List.length_filter_le _ _)
  intro h
  have hall := List.length_filter_eq_length_iff.mp h
  have hmem : entry l 31 ∈ l := entry_mem (by rw [hl]; decide)
  have hused := hall _ hmem
  rw [hlast] at hused
  exact absurd hused (by decide)

theorem entry_replicate (n j : ℕ) :
    (entry (List.replicate n WdsEntry.empty) j).ptr = 0 := by
  by_cases hj : j < n
  · rw [entry, List.getD_replicate _ hj]
    rfl
  · rw [entry, List.getD_eq_default _ _ (by simpa using hj)]
    rfl

theorem takeWhile_replicate (n : ℕ) :
    (List.replicate n WdsEntry.empty).takeWhile (fun e => e.ptr ≠ 0) = [] := by
  cases n with
  | zero => rfl
  | succ n => rfl

theorem compressfds_spec (hl : fds.length = MAX_FDS_ELEMS)
    (hlast : (entry (joined fds) 31).ptr = 0) :
    bytes (compressfds fds) = bytes fds ∧ Compact (compressfds fds) := by
  have hjoin := (joined_spec hl).1
  have hlen := usedSlots_length (hjoin.length_eq.trans hl) hlast
  have h32 : MAX_FDS_ELEMS = 32 := rfl
  rw [compressfds_eq hl hlast]
  have hused : ∀ e ∈ usedSlots (joined fds), e.ptr ≠ 0 := fun e he => by
    simpa using (List.mem_filter.mp he).2
  refine ⟨?_, ⟨?_, ?_, ?_⟩⟩
  · rw [bytes_append, bytes_replicate, add_zero, usedSlots, bytes_filter, hjoin.bytes_eq]
  · rw [List.length_append, List.length_replicate]
    omega
  · obtain ⟨k, hk⟩ := Nat.exists_eq_add_of_le (show (usedSlots (joined fds)).length ≤ 31 by omega)
    rw [hk, entry_append]
    exact entry_replicate _ _
  · intro j hj
    rw [List.takeWhile_append_of_pos (fun e he => by simpa using hused e he), takeWhile_replicate,
      List.append_nil] at hj
    obtain ⟨k, rfl⟩ := Nat.exists_eq_add_of_le hj
    rw [entry_append]
    exact entry_replicate _ _

end Compress

section Tables
variable {fds : List WdsEntry}

/-- Reclaiming moves bytes from one table to the other. -/
theorem reclaimFrom_spec (xs : List Exfds) (offset : ℕ) (hl : fds.length = MAX_FDS_ELEMS)
    (hempty : ∀ j, offset ≤ j → (entry fds j).ptr = 0) :
    bytes (reclaimFrom offset xs fds).1+bytesUsed (reclaimFrom offset xs fds).2 =
        bytes fds+bytesUsed xs ∧
      (reclaimFrom offset xs fds).1.length = MAX_FDS_ELEMS ∧
      (reclaimFrom offset xs fds).2.length = xs.length := by
  induction xs generalizing offset fds with
  | nil => exact ⟨rfl, hl, rfl⟩
  | cons x xs ih =>
    rw [reclaimFrom]
    split_ifs with h
    · obtain ⟨hoff, hx⟩ := h
      have hempty' : ∀ j, offset+1 ≤ j → (entry (fds.set offset x.fds) j).ptr = 0 := by
        intro j hj
        rw [entry_set_ne _ _ (by omega)]
        exact hempty j (by omega)
      obtain ⟨hb, hl1, hl2⟩ := ih (offset+1) (by simpa using hl) hempty'
      have hset := bytes_set fds offset x.fds (by rw [hl]; exact hoff)
      have hnone : (entry fds offset).bytes = 0 := by
        rw [WdsEntry.bytes, if_pos (hempty offset le_rfl)]
      rw [hnone, add_zero] at hset
      refine ⟨?_, hl1, by simp [hl2]⟩
      rw [bytesUsed_unused rfl, hb, hset, bytesUsed_used hx, add_assoc]
    · obtain ⟨hb, hl1, hl2⟩ := ih offset hl hempty
      refine ⟨?_, hl1, by simp [hl2]⟩
      cases hx : x.inuse with
      | true => rw [bytesUsed_used hx, bytesUsed_used hx, add_left_comm, hb, add_left_comm]
      | false => rw [bytesUsed_unused hx, bytesUsed_unused hx, hb]

/-- Unused slots of the reclaim table. -/
def unusedSlots (l : List Exfds) : ℕ := l.countP fun x => !x.inuse

/-- Ranges that find slots in the reclaim table are all kept. -/
theorem giveRanges_spec (xs : List Exfds) (ws : List WdsEntry) (h : ws.length ≤ unusedSlots xs) :
    bytesUsed (giveRanges xs ws) = bytesUsed xs+bytes ws ∧
      (giveRanges xs ws).length = xs.length := by
  induction xs generalizing ws with
  | nil =>
    have hnil : ws = [] := List.eq_nil_of_length_eq_zero (Nat.le_zero.mp h)
    rw [hnil]
    exact ⟨(add_zero _).symm, rfl⟩
  | cons x xs ih =>
    cases ws with
    | nil => exact ⟨(add_zero _).symm, rfl⟩
    | cons w ws =>
      rw [giveRanges]
      split_ifs with hx
      · have hle : (w :: ws).length ≤ unusedSlots xs := by
          simpa [unusedSlots, hx] using h
        obtain ⟨hb, hl⟩ := ih (w :: ws) hle
        refine ⟨?_, by simp [hl]⟩
        rw [bytesUsed_used hx, hb, bytesUsed_used hx, add_assoc]
      · have hle : ws.length ≤ unusedSlots xs := by
          simpa [unusedSlots, hx] using h
        obtain ⟨hb, hl⟩ := ih ws hle
        refine ⟨?_, by simp [hl]⟩
        rw [bytesUsed_used rfl, hb, bytesUsed_unused (Bool.eq_false_iff.mpr hx), bytes_cons,
          add_left_comm]

/-- The ranges taken and those left have the bytes there were. -/
theorem takeRanges_spec (fds : List WdsEntry) (remaining : Int) :
    bytes (takeRanges fds remaining).1+bytes (takeRanges fds remaining).2.1 = bytes fds ∧
      (((takeRanges fds remaining).2.1.map WdsEntry.length).sum : Int) =
        remaining-(takeRanges fds remaining).2.2 ∧
      (∀ e ∈ (takeRanges fds remaining).2.1, e.ptr ≠ 0) ∧
      (takeRanges fds remaining).1.length = fds.length ∧
      ∀ j, (entry fds j).ptr = 0 → (entry (takeRanges fds remaining).1 j).ptr = 0 := by
  induction fds generalizing remaining with
  | nil => simp [takeRanges]
  | cons e fds ih =>
    rw [takeRanges]
    split_ifs with h hpart
    · obtain ⟨h0, hpos⟩ := h
      have hk : (remaining.toNat : Int) = remaining := Int.toNat_of_nonneg (by omega)
      have hle : remaining.toNat ≤ e.length := by omega
      have hjoin := bytes_split h0 hle
      refine ⟨?_, by simp [hk], ?_, by simp, ?_⟩
      · simp only [bytes_cons, bytes_nil, add_zero]
        rw [add_right_comm, hjoin]
      · intro a ha
        rw [List.mem_singleton.mp ha]
        exact h0
      · intro j hj
        cases j with
        | zero => exact absurd hj h0
        | succ j => exact hj
    · obtain ⟨hb, hlen, hused, hl, hempty⟩ := ih (remaining-e.length)
      refine ⟨?_, ?_, ?_, by simp [hl], ?_⟩
      · simp only [bytes_cons, bytes_empty, zero_add]
        rw [add_left_comm, hb]
      · simp only [List.map_cons, List.sum_cons]
        rw [Int.natCast_add, hlen]
        omega
      · exact List.forall_mem_cons.mpr ⟨h.1, hused⟩
      · intro j hj
        cases j with
        | zero => rfl
        | succ j => exact hempty j hj
    · simp

end Tables

end SendBuffer
