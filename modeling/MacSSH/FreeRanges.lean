import MacSSH.SendConservation

/-! The table of free ranges after it was compressed: the ranges with a gap between any two,
the empty slots behind them. -/
namespace SendBuffer

/-- Disjoint ranges of a send buffer, none without a byte, and empty slots between them. -/
structure FreeTable (sbuffer : ℕ) (fds : List WdsEntry) : Prop where
  length : fds.length = MAX_FDS_ELEMS
  filled : ∀ e ∈ fds, e.ptr ≠ 0 → 0 < e.length
  disjoint : (bytes fds).Nodup
  inside : ∀ b ∈ bytes fds, sbuffer ≤ b ∧ b < sbuffer+TCPBUFSIZ

/-- The loops end by themselves: with more turns they do no more. -/
structure Settles (fds : List WdsEntry) : Prop where
  joins : ∀ more, joinRanges (MAX_FDS_ELEMS+1+more) fds = joined fds
  gaps : ∀ more, closeGaps (MAX_FDS_ELEMS+1+more) 0 0 (joined fds) =
    closeGaps (MAX_FDS_ELEMS+1) 0 0 (joined fds)
  skips : ∀ l i more, skipGap l (MAX_FDS_ELEMS+more) i = skipGap l MAX_FDS_ELEMS i

/-- The same bytes in ranges that are not adjacent, before the empty slots. The lengths are
those of sixteen bits. -/
structure Compacted (fds out : List WdsEntry) : Prop where
  length : out.length = MAX_FDS_ELEMS
  bytes_eq : bytes out = bytes fds
  apart : ∀ e ∈ out, ∀ e' ∈ out, e.ptr ≠ 0 → e.ptr+e.length ≠ e'.ptr
  front : ∀ i j, i < j → (entry out j).ptr ≠ 0 → (entry out i).ptr ≠ 0
  lengths : ∀ e ∈ out, e.length < 2^16

/-- Some range begins where the range of the last slot ends, or that slot is empty. -/
def Followed (fds : List WdsEntry) : Prop :=
  (entry fds 31).ptr = 0 ∨ ∃ e ∈ fds, e.ptr = (entry fds 31).ptr+(entry fds 31).length

section Loops
variable {fds l : List WdsEntry}

theorem skipGap_more (fuel i : ℕ) (h : MAX_FDS_ELEMS ≤ fuel+i) (more : ℕ) :
    skipGap l (fuel+more) i = skipGap l fuel i := by
  induction fuel generalizing i with
  | zero =>
    cases more with
    | zero => rfl
    | succ more =>
      rw [Nat.zero_add] at h
      rw [Nat.zero_add, skipGap, skipGap, if_neg fun hlt => Nat.not_lt.mpr h hlt.2]
  | succ fuel ih =>
    rw [Nat.add_right_comm, skipGap, skipGap, ih (i+1) (by omega)]

theorem skipGap_le (fuel i : ℕ) : i ≤ skipGap l fuel i := by
  induction fuel generalizing i with
  | zero => exact le_rfl
  | succ fuel ih =>
    rw [skipGap]
    split_ifs
    · exact (Nat.le_succ i).trans (ih (i+1))
    · exact le_rfl

theorem closeGaps_more (fuel n m : ℕ) (h : MAX_FDS_ELEMS < fuel+(n+m)) (more : ℕ) :
    closeGaps (fuel+more) n m l = closeGaps fuel n m l := by
  induction fuel generalizing n m l with
  | zero =>
    cases more with
    | zero => rfl
    | succ more =>
      rw [Nat.zero_add] at h
      rw [Nat.zero_add, closeGaps, closeGaps, if_neg (Nat.not_lt.mpr h.le)]
  | succ fuel ih =>
    have hle := @skipGap_le l MAX_FDS_ELEMS (n+m)
    rw [Nat.add_right_comm, closeGaps, closeGaps]
    split_ifs with hlt
    · exact ih (n+1) _ (by omega)
    · rfl

theorem joinRanges_more (fuel : ℕ) (hl : fds.length = MAX_FDS_ELEMS) (hf : used fds < fuel)
    (more : ℕ) : joinRanges (fuel+more) fds = joinRanges fuel fds := by
  induction fuel generalizing fds with
  | zero => exact absurd hf (Nat.not_lt_zero _)
  | succ fuel ih =>
    have hp := joinPass_passed hl
    rw [Nat.add_right_comm, joinRanges, joinRanges]
    rcases hp.progress with he | ⟨hlt, hflag⟩
    · rw [he, if_pos rfl, if_pos rfl]
    · have hless : used (joinPass fds).1 < used fds := hlt
      rw [hflag, if_neg Bool.false_ne_true, if_neg Bool.false_ne_true]
      exact ih (hp.joins.length_eq.trans hl) (by omega)

theorem compressfds_settles (hl : fds.length = MAX_FDS_ELEMS) : Settles fds := by
  have hu := used_le_length fds
  refine ⟨joinRanges_more _ hl (by omega), closeGaps_more _ 0 0 (by omega), ?_⟩
  intro l i more
  exact skipGap_more _ i (by omega) more

theorem foldl_keeps {P : List WdsEntry → Prop} {f : List WdsEntry × Bool → ℕ → List WdsEntry × Bool}
    (is : List ℕ) (hf : ∀ r, P r.1 → ∀ i ∈ is, P (f r i).1) (r : List WdsEntry × Bool)
    (hr : P r.1) : P (is.foldl f r).1 := by
  induction is generalizing r with
  | nil => exact hr
  | cons i is ih =>
    rw [List.foldl_cons]
    apply ih fun r hr j hj => hf r hr j (List.mem_cons_of_mem i hj)
    exact hf r hr i List.mem_cons_self

/-- What every join keeps is so of the joined table. -/
theorem joined_keeps {P : List WdsEntry → Prop}
    (hstep : ∀ r : List WdsEntry × Bool, P r.1 → ∀ n < MAX_FDS_ELEMS, ∀ m < MAX_FDS_ELEMS,
      P (joinPair n r m).1) (hfds : P fds) : P (joined fds) := by
  have hpass : ∀ fds, P fds → P (joinPass fds).1 := by
    intro fds hfds
    apply foldl_keeps _ _ (fds, true) hfds
    intro r hr n hn
    rw [joinSlot]
    split_ifs
    · apply foldl_keeps _ _ r hr
      intro r hr m hm
      exact hstep r hr n (List.mem_range.mp hn) m (List.mem_range.mp (List.mem_reverse.mp hm))
    · exact hr
  rw [joined]
  generalize MAX_FDS_ELEMS+1 = fuel
  induction fuel generalizing fds with
  | zero => exact hfds
  | succ fuel ih =>
    rw [joinRanges]
    split_ifs
    · exact hpass fds hfds
    · exact ih (hpass fds hfds)

/-- A fold that has changed nothing has changed nothing on the way. -/
theorem foldl_fixed {f : List WdsEntry × Bool → ℕ → List WdsEntry × Bool} (is : List ℕ)
    (hf : ∀ r, r.1.length = MAX_FDS_ELEMS → ∀ i ∈ is, Passed r (f r i))
    {r : List WdsEntry × Bool} (hr : r.1.length = MAX_FDS_ELEMS) (hfix : is.foldl f r = r) :
    ∀ i ∈ is, f r i = r := by
  induction is with
  | nil => exact fun i hi => absurd hi List.not_mem_nil
  | cons i is ih =>
    have hfi := hf r hr i List.mem_cons_self
    have hrest : ∀ r, r.1.length = MAX_FDS_ELEMS → ∀ j ∈ is, Passed r (f r j) :=
      fun r hr j hj => hf r hr j (List.mem_cons_of_mem i hj)
    rw [List.foldl_cons] at hfix
    have hsame : f r i = r := by
      rcases hfi.progress with hsame | ⟨hless, -⟩
      · exact hsame
      · have hpassed := passed_foldl is hrest (f r i) (hfi.joins.length_eq.trans hr)
        rw [hfix] at hpassed
        rcases hpassed.progress with hback | ⟨hmore, -⟩
        · rw [← hback] at hless
          exact absurd hless (lt_irrefl _)
        · exact absurd (hmore.trans hless) (lt_irrefl _)
    rw [hsame] at hfix
    exact List.forall_mem_cons.mpr ⟨hsame, ih hrest hfix⟩

theorem joinPair_passed {r : List WdsEntry × Bool} (hr : r.1.length = MAX_FDS_ELEMS) {n m : ℕ}
    (hn : n < MAX_FDS_ELEMS) (hm : m < MAX_FDS_ELEMS) : Passed r (joinPair n r m) := by
  obtain ⟨hbytes, hlen⟩ := joinPair_bytes (hr ▸ hn) (hr ▸ hm)
  exact ⟨⟨hbytes, hlen, joinPair_stays_empty⟩, joinPair_used (hr ▸ hn) (hr ▸ hm)⟩

/-- No range of the joined table ends where another begins. -/
theorem joined_apart (hl : fds.length = MAX_FDS_ELEMS) {n m : ℕ} (hn : n < MAX_FDS_ELEMS)
    (hm : m < MAX_FDS_ELEMS) (hused : (entry (joined fds) m).ptr ≠ 0) :
    (entry (joined fds) m).ptr+(entry (joined fds) m).length ≠ (entry (joined fds) n).ptr := by
  obtain ⟨hjoins, hend⟩ := joined_spec hl
  have hlen := hjoins.length_eq.trans hl
  generalize joined fds = l at hused hend hlen ⊢
  intro hadj
  have hslot : joinSlot (l, true) n = (l, true) := by
    apply foldl_fixed (List.range MAX_FDS_ELEMS) _ hlen hend n (List.mem_range.mpr hn)
    intro r hr i hi
    rw [joinSlot]
    split_ifs
    · apply passed_foldl _ _ r hr
      intro r hr j hj
      exact joinPair_passed hr (List.mem_range.mp hi) (List.mem_range.mp (List.mem_reverse.mp hj))
    · exact ⟨Joins.refl _, Or.inl rfl⟩
  have hn0 : (entry l n).ptr ≠ 0 := by omega
  rw [joinSlot, if_pos hn0] at hslot
  have hpair : joinPair n (l, true) m = (l, true) := by
    apply foldl_fixed _ _ hlen hslot m (List.mem_reverse.mpr (List.mem_range.mpr hm))
    intro r hr j hj
    exact joinPair_passed hr hn (List.mem_range.mp (List.mem_reverse.mp hj))
  simp only [joinPair] at hpair
  rw [if_pos ⟨hused, hadj⟩] at hpair
  exact absurd (Prod.mk.inj hpair).2 Bool.false_ne_true

end Loops

section Table
variable {sbuffer : ℕ} {fds l : List WdsEntry}

theorem mem_entry_bytes {e : WdsEntry} {b : ℕ} :
    b ∈ e.bytes ↔ e.ptr ≠ 0 ∧ e.ptr ≤ b ∧ b < e.ptr+e.length := by
  rw [WdsEntry.bytes]
  split_ifs with h
  · exact iff_of_false (Multiset.notMem_zero b) fun hb => hb.1 h
  · rw [Multiset.mem_coe, List.mem_range'_1]
    exact (and_iff_right h).symm

/-- Two slots have no byte in common. -/
theorem entries_disjoint (hl : (bytes l).Nodup) {i j b : ℕ} (hi : i < l.length)
    (hj : j < l.length) (hne : i ≠ j) (hb : b ∈ (entry l i).bytes) : b ∉ (entry l j).bytes := by
  have hfirst := bytes_set l i WdsEntry.empty hi
  have hsecond := bytes_set (l.set i WdsEntry.empty) j WdsEntry.empty (by simpa using hj)
  rw [bytes_empty, add_zero] at hfirst hsecond
  rw [entry_set_ne _ _ hne] at hsecond
  rw [← hfirst, ← hsecond, Multiset.nodup_add] at hl
  intro hboth
  exact Multiset.disjoint_left.mp hl.2.2 (Multiset.mem_add.mpr (Or.inr hboth)) hb

theorem FreeTable.entry_filled (h : FreeTable sbuffer fds) {j : ℕ} (hj : j < MAX_FDS_ELEMS)
    (hused : (entry fds j).ptr ≠ 0) : 0 < (entry fds j).length :=
  h.filled _ (entry_mem (h.length ▸ hj)) hused

/-- Two ranges do not end at the same place. -/
theorem FreeTable.ends_apart (h : FreeTable sbuffer fds) {i j : ℕ} (hi : i < MAX_FDS_ELEMS)
    (hj : j < MAX_FDS_ELEMS) (hne : i ≠ j) (hused : (entry fds i).ptr ≠ 0)
    (hused' : (entry fds j).ptr ≠ 0) :
    (entry fds i).ptr+(entry fds i).length ≠ (entry fds j).ptr+(entry fds j).length := by
  intro hend
  have hilen := h.entry_filled hi hused
  have hjlen := h.entry_filled hj hused'
  have hlast : (entry fds i).ptr+(entry fds i).length-1 ∈ (entry fds i).bytes :=
    mem_entry_bytes.mpr ⟨hused, by omega, by omega⟩
  apply entries_disjoint h.disjoint (h.length ▸ hi) (h.length ▸ hj) hne hlast
  exact mem_entry_bytes.mpr ⟨hused', by omega, by omega⟩

theorem FreeTable.joinPair {r : List WdsEntry × Bool} (h : FreeTable sbuffer r.1) {n m : ℕ}
    (hn : n < MAX_FDS_ELEMS) (hm : m < MAX_FDS_ELEMS) :
    FreeTable sbuffer (SendBuffer.joinPair n r m).1 := by
  obtain ⟨hbytes, hlen⟩ := joinPair_bytes (h.length ▸ hn : n < r.1.length) (h.length ▸ hm)
  refine ⟨hlen.trans h.length, ?_, hbytes ▸ h.disjoint, hbytes ▸ h.inside⟩
  simp only [SendBuffer.joinPair]
  split_ifs with hadj
  · intro e he hused
    rcases List.mem_or_eq_of_mem_set he with he | rfl
    · rcases List.mem_or_eq_of_mem_set he with he | rfl
      · exact h.filled e he hused
      · have hlen := h.entry_filled hm hadj.1
        exact Nat.add_pos_right _ hlen
    · exact absurd rfl hused
  · exact h.filled

theorem followed_iff (hl : l.length = MAX_FDS_ELEMS) : Followed l ↔ (entry l 31).ptr = 0 ∨
    ∃ k < MAX_FDS_ELEMS, (entry l k).ptr = (entry l 31).ptr+(entry l 31).length := by
  rw [Followed]
  apply or_congr_right
  constructor
  · rintro ⟨e, he, hstart⟩
    obtain ⟨k, hk, rfl⟩ := List.getElem_of_mem he
    refine ⟨k, hl ▸ hk, ?_⟩
    rw [← hstart, entry, List.getD_eq_getElem _ _ hk]
  · rintro ⟨k, hk, hstart⟩
    exact ⟨entry l k, entry_mem (hl ▸ hk), hstart⟩

/-- A join leaves the last slot followed, or not. -/
theorem joinPair_followed {r : List WdsEntry × Bool} (h : FreeTable sbuffer r.1) {n m : ℕ}
    (hn : n < MAX_FDS_ELEMS) (hm : m < MAX_FDS_ELEMS) :
    Followed (joinPair n r m).1 ↔ Followed r.1 := by
  have hnew := h.joinPair hn hm
  rw [followed_iff hnew.length, followed_iff h.length]
  simp only [joinPair]
  split_ifs with hadj
  swap
  · exact Iff.rfl
  obtain ⟨hm0, hends⟩ := hadj
  have hmlen := h.entry_filled hm hm0
  have hn0 : (entry r.1 n).ptr ≠ 0 := by omega
  have hnlen := h.entry_filled hn hn0
  have hnm : n ≠ m := by
    rintro rfl
    omega
  -- slot `n` takes over the range of slot `m`, which is emptied
  generalize hx : (⟨(entry r.1 n).length+(entry r.1 m).length, (entry r.1 m).ptr⟩ : WdsEntry) = x
  have hxptr : x.ptr = (entry r.1 m).ptr := by rw [← hx]
  have hxlen : x.length = (entry r.1 n).length+(entry r.1 m).length := by rw [← hx]
  have hm_new : entry ((r.1.set n x).set m WdsEntry.empty) m = WdsEntry.empty :=
    entry_set_self _ (by simpa [h.length] using hm)
  have hn_new : entry ((r.1.set n x).set m WdsEntry.empty) n = x := by
    rw [entry_set_ne _ _ hnm.symm, entry_set_self _ (h.length ▸ hn)]
  have hrest : ∀ k, k ≠ n → k ≠ m →
      entry ((r.1.set n x).set m WdsEntry.empty) k = entry r.1 k := by
    intro k hkn hkm
    rw [entry_set_ne _ _ hkm.symm, entry_set_ne _ _ hkn.symm]
  have h31 : 31 < MAX_FDS_ELEMS := by decide
  rcases Decidable.eq_or_ne m 31 with rfl | hm31
  · -- the last slot goes into the one that follows it
    rw [hm_new]
    exact iff_of_true (Or.inl rfl) (Or.inr ⟨n, hn, hends.symm⟩)
  rcases Decidable.eq_or_ne n 31 with rfl | hn31
  · -- another slot goes into the last one, which still ends where it did
    have hend : x.ptr+x.length = (entry r.1 31).ptr+(entry r.1 31).length := by omega
    rw [hn_new, hend, hxptr]
    refine or_congr (iff_of_false hm0 hn0) (exists_congr fun k => and_congr_right fun hk => ?_)
    rcases Decidable.eq_or_ne k 31 with rfl | hk31
    · rw [hn_new, hxptr]
      omega
    rcases Decidable.eq_or_ne k m with rfl | hkm
    · rw [hm_new]
      have hzero : WdsEntry.empty.ptr = 0 := rfl
      omega
    · rw [hrest k hk31 hkm]
  · -- the last slot stays, and the ranges begin where they did, except behind slot `m`
    rw [hrest 31 hn31.symm hm31.symm]
    by_cases hused : (entry r.1 31).ptr = 0
    · exact iff_of_true (Or.inl hused) (Or.inl hused)
    apply or_congr_right
    have hothers := h.ends_apart hm h31 hm31 hm0 hused
    have hzero : WdsEntry.empty.ptr = 0 := rfl
    constructor
    · rintro ⟨k, hk, hstart⟩
      rcases Decidable.eq_or_ne k n with rfl | hkn
      · rw [hn_new, hxptr] at hstart
        exact ⟨m, hm, hstart⟩
      rcases Decidable.eq_or_ne k m with rfl | hkm
      · rw [hm_new] at hstart
        omega
      · rw [hrest k hkn hkm] at hstart
        exact ⟨k, hk, hstart⟩
    · rintro ⟨k, hk, hstart⟩
      rcases Decidable.eq_or_ne k n with rfl | hkn
      · exact absurd (hends.trans hstart) hothers
      rcases Decidable.eq_or_ne k m with rfl | hkm
      · exact ⟨n, hn, by rw [hn_new, hxptr, hstart]⟩
      · exact ⟨k, hk, by rw [hrest k hkn hkm, hstart]⟩

theorem joined_table (h : FreeTable sbuffer fds) :
    FreeTable sbuffer (joined fds) ∧ (Followed (joined fds) ↔ Followed fds) := by
  apply joined_keeps (P := fun l => FreeTable sbuffer l ∧ (Followed l ↔ Followed fds))
  · rintro r ⟨hr, hfollowed⟩ n hn m hm
    exact ⟨hr.joinPair hn hm, (joinPair_followed hr hn hm).trans hfollowed⟩
  · exact ⟨h, Iff.rfl⟩

/-- The last slot is emptied by joining where its range is followed. -/
theorem last_empty_iff (h : FreeTable sbuffer fds) :
    (entry (joined fds) 31).ptr = 0 ↔ Followed fds := by
  obtain ⟨htable, hfollowed⟩ := joined_table h
  rw [← hfollowed, followed_iff htable.length]
  constructor
  · exact Or.inl
  · rintro (hempty | ⟨k, hk, hstart⟩)
    · exact hempty
    · by_contra hused
      exact joined_apart h.length hk (by decide) hused hstart.symm

/-- The bytes are kept exactly where the last slot is empty after joining. -/
theorem bytes_compressfds (h : FreeTable sbuffer fds) :
    bytes (compressfds fds) = bytes fds ↔ (entry (joined fds) 31).ptr = 0 := by
  have htable := (joined_table h).1
  have hlast : bytes (joined fds).dropLast+(entry (joined fds) 31).bytes = bytes fds := by
    have hsplit := congrArg bytes (split_last htable.length)
    rw [bytes_append, bytes_cons, bytes_nil, add_zero, (joined_spec h.length).1.bytes_eq] at hsplit
    exact hsplit.symm
  rw [compressfds_dropLast h.length, bytes_append, bytes_replicate, add_zero, usedSlots,
    bytes_filter, ← hlast, left_eq_add]
  constructor
  · intro hnone
    by_contra hused
    have hlen := htable.entry_filled (by decide) hused
    generalize entry (joined fds) 31 = z at hnone hused hlen
    have hfirst : z.ptr ∈ z.bytes :=
      mem_entry_bytes.mpr ⟨hused, le_rfl, Nat.lt_add_of_pos_right hlen⟩
    rw [hnone] at hfirst
    exact Multiset.notMem_zero _ hfirst
  · intro hempty
    rw [WdsEntry.bytes, if_pos hempty]

theorem mem_bytes {b : ℕ} : b ∈ bytes l ↔ ∃ e ∈ l, b ∈ e.bytes := by
  induction l with
  | nil => exact iff_of_false (Multiset.notMem_zero b) fun ⟨e, he, _⟩ => List.not_mem_nil he
  | cons e l ih => rw [bytes_cons, Multiset.mem_add, ih, List.exists_mem_cons_iff]

/-- A range of the buffer is not longer than the buffer. -/
theorem FreeTable.length_le (h : FreeTable sbuffer fds) {e : WdsEntry} (he : e ∈ fds)
    (hused : e.ptr ≠ 0) : e.length ≤ TCPBUFSIZ := by
  have hlen := h.filled e he hused
  have hfirst := h.inside e.ptr
    (mem_bytes.mpr ⟨e, he, mem_entry_bytes.mpr ⟨hused, le_rfl, by omega⟩⟩)
  have hlast := h.inside (e.ptr+e.length-1)
    (mem_bytes.mpr ⟨e, he, mem_entry_bytes.mpr ⟨hused, by omega, by omega⟩⟩)
  omega

theorem mem_usedSlots {e : WdsEntry} (he : e ∈ usedSlots l) : e ∈ l ∧ e.ptr ≠ 0 := by
  obtain ⟨hmem, hused⟩ := List.mem_filter.mp he
  exact ⟨hmem, of_decide_eq_true hused⟩

/-- The table that is left where the last slot was empty after joining. -/
theorem compacted_of (h : FreeTable sbuffer fds) (hlast : (entry (joined fds) 31).ptr = 0) :
    Compacted fds (compressfds fds) := by
  have htable := (joined_table h).1
  -- after joining no range begins where another ends
  have hapart : ∀ e ∈ joined fds, ∀ e' ∈ joined fds, e.ptr ≠ 0 → e.ptr+e.length ≠ e'.ptr := by
    intro e he e' he' hused
    obtain ⟨m, hm, rfl⟩ := List.getElem_of_mem he
    obtain ⟨n, hn, rfl⟩ := List.getElem_of_mem he'
    have hdisjoint := @joined_apart fds h.length n m (htable.length ▸ hn) (htable.length ▸ hm)
    rw [entry, entry, List.getD_eq_getElem _ _ hm, List.getD_eq_getElem _ _ hn] at hdisjoint
    exact hdisjoint hused
  have hbytes := (bytes_compressfds h).mpr hlast
  obtain ⟨-, hcompact⟩ := compressfds_spec h.length hlast
  have hout : ∀ e ∈ compressfds fds, e = WdsEntry.empty ∨ (e ∈ joined fds ∧ e.ptr ≠ 0) := by
    intro e he
    rw [compressfds_eq h.length hlast] at he
    rcases List.mem_append.mp he with hused | hempty
    · exact Or.inr (mem_usedSlots hused)
    · exact Or.inl (List.eq_of_mem_replicate hempty)
  refine ⟨hcompact.length, hbytes, ?_, ?_, ?_⟩
  · intro e he e' he' hused
    rcases hout e he with rfl | ⟨hmem, -⟩
    · exact absurd rfl hused
    rcases hout e' he' with rfl | ⟨hmem', -⟩
    · have hzero : WdsEntry.empty.ptr = 0 := rfl
      omega
    · exact hapart e hmem e' hmem' hused
  · intro i j hij hj
    rw [compressfds_eq h.length hlast] at hj ⊢
    -- the slots in use come first, so one before a slot in use is in use
    rcases Nat.lt_or_ge j (usedSlots (joined fds)).length with hin | hbehind
    · have hi := hij.trans hin
      rw [entry, List.getD_append _ _ _ _ hi, List.getD_eq_getElem _ _ hi]
      exact (mem_usedSlots (List.getElem_mem hi)).2
    · obtain ⟨k, rfl⟩ := Nat.exists_eq_add_of_le hbehind
      rw [entry_append] at hj
      exact absurd (entry_replicate _ k) hj
  · intro e he
    rcases hout e he with rfl | ⟨hmem, hused⟩
    · exact Nat.two_pow_pos 16
    · exact (htable.length_le hmem hused).trans_lt (by decide)

/-- Compressing ends, and it leaves the bytes in ranges that are not adjacent, before the
empty slots, exactly where the last slot is empty or another range begins where its range
ends. -/
theorem compressfds_iff (h : FreeTable sbuffer fds) :
    Settles fds ∧ (Compacted fds (compressfds fds) ↔ Followed fds) := by
  refine ⟨compressfds_settles h.length, ?_⟩
  rw [← last_empty_iff h, ← bytes_compressfds h]
  constructor
  · exact Compacted.bytes_eq
  · intro hbytes
    exact compacted_of h ((bytes_compressfds h).mp hbytes)

end Table

/-- Two adjacent ranges, the second one in the last slot but one. -/
def twoRanges : List WdsEntry :=
  List.replicate 10 WdsEntry.empty ++ [⟨4, 105⟩] ++ List.replicate 19 WdsEntry.empty ++
    [⟨5, 100⟩, WdsEntry.empty]

/-- The last range, in the last slot. -/
def lastRange : List WdsEntry := List.replicate 31 WdsEntry.empty ++ [⟨4, 100⟩]

theorem bytes_lastRange : bytes lastRange = List.range' 100 4 := by
  rw [lastRange, bytes_append, bytes_replicate, zero_add, bytes_cons, bytes_nil, add_zero]
  rfl

theorem bytes_twoRanges : bytes twoRanges = List.range' 105 4+List.range' 100 5 := by
  rw [twoRanges, bytes_append, bytes_append, bytes_append, bytes_replicate, bytes_replicate,
    zero_add, add_zero, bytes_cons, bytes_nil, add_zero, bytes_cons, bytes_cons, bytes_nil]
  rfl

theorem two_ranges_joined : Settles twoRanges ∧ Compacted twoRanges (compressfds twoRanges) := by
  have htable : FreeTable 100 twoRanges := by
    refine ⟨rfl, by decide, ?_, ?_⟩
    · rw [bytes_twoRanges]
      decide
    · rw [bytes_twoRanges]
      decide
  obtain ⟨hsettles, hiff⟩ := compressfds_iff htable
  exact ⟨hsettles, hiff.mpr (Or.inl rfl)⟩

/-- The range in the last slot is dropped. -/
theorem last_range_dropped : ¬ ∀ (sbuffer : ℕ) (fds : List WdsEntry), FreeTable sbuffer fds →
    Compacted fds (compressfds fds) := by
  intro hall
  have htable : FreeTable 100 lastRange := by
    refine ⟨rfl, by decide, ?_, ?_⟩
    · rw [bytes_lastRange]
      decide
    · rw [bytes_lastRange]
      decide
  have hempty := (bytes_compressfds htable).mp (hall 100 lastRange htable).bytes_eq
  rcases (last_empty_iff htable).mp hempty with hnone | ⟨e, he, hstart⟩
  · exact absurd hnone (by decide)
  · revert e
    decide

end SendBuffer
