import MacSSH.FreeRanges
import MacSSH.SendRuns

/-! The descriptor that a write fills from the free table. It has sixteen slots, the last
of which ends it, while the free table may have more ranges than that. -/
namespace SendBuffer
attribute [local irreducible] compressfds joined

/-- A table and a reclaim table whose ranges do not overlap. -/
structure Tables (p : StreamRec) : Prop where
  length : p.fds.length = MAX_FDS_ELEMS
  disjoint : p.free.Nodup

/-- Whether a write fills a descriptor. -/
def Fills (p : StreamRec) (nsend : Int) (ssh : Bool) : Prop :=
  nsend ≠ 0 ∧ ssh = false ∧ (entry (ready p).fds 0).ptr ≠ 0

/-- What the descriptor of a write is: with its end it has no more slots than there are, its
ranges were free and are no more, and their bytes, as many as are reported, are the first of
the caller. -/
structure Described (p : StreamRec) (buffer : ℕ → UInt8) (nsend : Int)
    (kencrypt : ℕ → UInt8 → UInt8) (accepted : Bool) (swds : List WdsEntry) : Prop where
  bound : swds.length+1 ≤ MAX_SWDS_ELEMS
  were_free : bytes swds ≤ p.free
  removed : Disjoint (bytes swds) (Rnetwrite p buffer nsend kencrypt false accepted).2.free
  sent : accepted = true →
    (Rnetwrite p buffer nsend kencrypt false accepted).2.sends = p.sends ++ [swds] ∧
    (Rnetwrite p buffer nsend kencrypt false accepted).1 = ((swds.map WdsEntry.length).sum : ℕ)
  content : (addresses swds).map (Rnetwrite p buffer nsend kencrypt false accepted).2.mem =
    (List.range (swds.map WdsEntry.length).sum).map fun i => kencrypt i (buffer i)

/-- The ranges of a table before its first empty slot. -/
def ranges (fds : List WdsEntry) : List WdsEntry := fds.takeWhile fun e => e.ptr ≠ 0

/-- The free table has no more ranges than a descriptor takes, or the first of them have all
the bytes to send. -/
def FewRanges (fds : List WdsEntry) (nsend : Int) : Prop :=
  (ranges fds).length < MAX_SWDS_ELEMS ∨
    nsend ≤ ((((ranges fds).take (MAX_SWDS_ELEMS-1)).map WdsEntry.length).sum : ℕ)

section Taken
variable {p : StreamRec} {fds : List WdsEntry}

/-- How many ranges are taken. -/
theorem length_takeRanges (fds : List WdsEntry) (remaining : Int) (k : ℕ) :
    (takeRanges fds remaining).2.1.length ≤ k ↔ (ranges fds).length ≤ k ∨
      remaining ≤ ((((ranges fds).take k).map WdsEntry.length).sum : ℕ) := by
  induction fds generalizing remaining k with
  | nil => exact iff_of_true (Nat.zero_le k) (Or.inl (Nat.zero_le k))
  | cons e fds ih =>
    rw [takeRanges]
    by_cases hused : e.ptr = 0
    · have hnone : ranges (e :: fds) = [] := List.takeWhile_cons_of_neg (by simp [hused])
      rw [if_neg fun h => h.1 hused, hnone]
      exact iff_of_true (Nat.zero_le k) (Or.inl (Nat.zero_le k))
    have hcons : ranges (e :: fds) = e :: ranges fds := List.takeWhile_cons_of_pos (by simp [hused])
    rw [hcons, List.length_cons]
    by_cases hpos : remaining > 0
    swap
    · rw [if_neg fun h => hpos h.2]
      apply iff_of_true (Nat.zero_le k)
      right
      omega
    rw [if_pos ⟨hused, hpos⟩]
    cases k with
    | zero =>
      have hfalse : ¬ ((ranges fds).length+1 ≤ 0 ∨
          remaining ≤ ((((e :: ranges fds).take 0).map WdsEntry.length).sum : ℕ)) := by
        rw [List.take_zero, List.map_nil, List.sum_nil]
        omega
      split_ifs
      · exact iff_of_false (Nat.not_succ_le_zero 0) hfalse
      · exact iff_of_false (Nat.not_succ_le_zero _) hfalse
    | succ k =>
      rw [List.take_succ_cons, List.map_cons, List.sum_cons, Nat.cast_add]
      split_ifs with hpart
      · apply iff_of_true (Nat.succ_le_succ (Nat.zero_le k))
        right
        omega
      · rw [List.length_cons, Nat.succ_le_succ_iff, ih]
        apply or_congr Nat.succ_le_succ_iff.symm
        omega

theorem reclaimFrom_le (xs : List Exfds) (offset : ℕ) (hl : fds.length = MAX_FDS_ELEMS) :
    bytes (reclaimFrom offset xs fds).1+bytesUsed (reclaimFrom offset xs fds).2 ≤
        bytes fds+bytesUsed xs ∧
      (reclaimFrom offset xs fds).1.length = MAX_FDS_ELEMS := by
  induction xs generalizing offset fds with
  | nil => exact ⟨le_rfl, hl⟩
  | cons x xs ih =>
    rw [reclaimFrom]
    split_ifs with h
    · obtain ⟨hoff, hx⟩ := h
      obtain ⟨hb, hlen⟩ := @ih (fds.set offset x.fds) (offset+1) (by simpa using hl)
      have hset := bytes_set fds offset x.fds (by rw [hl]; exact hoff)
      refine ⟨?_, hlen⟩
      rw [bytesUsed_unused rfl, bytesUsed_used hx, ← add_assoc, ← hset]
      exact hb.trans (add_le_add_left (Multiset.le_add_right _ _) _)
    · obtain ⟨hb, hlen⟩ := @ih fds offset hl
      refine ⟨?_, hlen⟩
      cases hx : x.inuse with
      | true =>
        rw [bytesUsed_used hx, bytesUsed_used hx, add_left_comm, add_left_comm (bytes fds)]
        exact add_le_add_right hb _
      | false =>
        rw [bytesUsed_unused hx, bytesUsed_unused hx]
        exact hb

/-- Compressing adds no byte. -/
theorem compressfds_le (hl : fds.length = MAX_FDS_ELEMS) :
    bytes (compressfds fds) ≤ bytes fds ∧ (compressfds fds).length = MAX_FDS_ELEMS := by
  have hlen := (joined_spec hl).1.length_eq.trans hl
  have hsplit := congrArg bytes (split_last hlen)
  rw [bytes_append, (joined_spec hl).1.bytes_eq] at hsplit
  have hshort : (usedSlots (joined fds).dropLast).length ≤ (joined fds).dropLast.length :=
    List.length_filter_le _ _
  rw [List.length_dropLast, hlen] at hshort
  rw [compressfds_dropLast hl]
  constructor
  · rw [bytes_append, bytes_replicate, add_zero, usedSlots, bytes_filter, hsplit]
    exact Multiset.le_add_right _ _
  · rw [List.length_append, List.length_replicate]
    omega

/-- Nothing is free that was not before. -/
theorem ready_le (hl : p.fds.length = MAX_FDS_ELEMS) :
    (ready p).free ≤ p.free ∧ (ready p).fds.length = MAX_FDS_ELEMS := by
  obtain ⟨hb, hlen⟩ := reclaimFrom_le p.exFDS (p.fds.takeWhile fun e => e.ptr ≠ 0).length hl
  obtain ⟨hcomp, hlen'⟩ := compressfds_le hlen
  exact ⟨(add_le_add_left hcomp _).trans hb, hlen'⟩

/-- The bytes of the ranges taken and those that are free afterwards. -/
theorem taken_le (h : Tables p) (buffer : ℕ → UInt8) (nsend : Int) (kencrypt : ℕ → UInt8 → UInt8) :
    bytes (rangesTaken p nsend)+(afterWrite (ready p) buffer nsend kencrypt).free ≤ p.free := by
  obtain ⟨hready, hlen⟩ := ready_le h.length
  obtain ⟨hb, -, -, hl, -⟩ := takeRanges_spec (ready p).fds nsend
  obtain ⟨hcomp, -⟩ := compressfds_le (hl.trans hlen)
  calc bytes (rangesTaken p nsend)+(afterWrite (ready p) buffer nsend kencrypt).free
      = bytes (rangesTaken p nsend)+(bytes (compressfds (takeRanges (ready p).fds nsend).1)+
          bytesUsed (ready p).exFDS) := rfl
    _ ≤ bytes (rangesTaken p nsend)+(bytes (takeRanges (ready p).fds nsend).1+
          bytesUsed (ready p).exFDS) := add_le_add_right (add_le_add_left hcomp _) _
    _ = (ready p).free := by
        rw [StreamRec.free, ← hb, rangesTaken]
        ac_rfl
    _ ≤ p.free := hready

/-- Every write that fills a descriptor, apart from the number of slots. -/
theorem described_of (h : Tables p) (buffer : ℕ → UInt8) {nsend : Int}
    (kencrypt : ℕ → UInt8 → UInt8) (accepted : Bool) (hfills : Fills p nsend false)
    (hbound : (rangesTaken p nsend).length+1 ≤ MAX_SWDS_ELEMS) :
    Described p buffer nsend kencrypt accepted (rangesTaken p nsend) := by
  obtain ⟨-, hlen, hused, -⟩ := takeRanges_spec (ready p).fds nsend
  have hle := taken_le h buffer nsend kencrypt
  have hfree : bytes (rangesTaken p nsend) ≤ p.free := (Multiset.le_add_right _ _).trans hle
  have hdisjoint := (Multiset.nodup_add.mp (Multiset.nodup_of_le hle h.disjoint)).2.2
  have hcontent : (addresses (rangesTaken p nsend)).map
      (afterWrite (ready p) buffer nsend kencrypt).mem =
      (List.range ((rangesTaken p nsend).map WdsEntry.length).sum).map
        fun i => kencrypt i (buffer i) := by
    have hnodup : (addresses (rangesTaken p nsend)).Nodup := by
      have hbytes := Multiset.nodup_of_le hfree h.disjoint
      rw [rangesTaken, bytes_eq_addresses hused] at hbytes
      exact Multiset.coe_nodup.mp hbytes
    rw [← length_addresses, List.range_eq_range']
    exact copyInto_read kencrypt buffer _ 0 _ hnodup
  rcases Rnetwrite_cases p buffer kencrypt accepted hfills.1 with
    ⟨hempty, -⟩ | ⟨hacc, hres⟩ | ⟨hacc, hres⟩
  · exact absurd hempty hfills.2.2
  · refine ⟨hbound, hfree, by rw [hres]; exact hdisjoint, fun _ => ?_, by rw [hres]; exact hcontent⟩
    rw [hres]
    refine ⟨rfl, ?_⟩
    rw [rangesTaken]
    omega
  · refine ⟨hbound, hfree, by rw [hres]; exact hdisjoint, fun hyes => ?_,
      by rw [hres]; exact hcontent⟩
    rw [hacc] at hyes
    exact absurd hyes Bool.false_ne_true

/-- The descriptor of every write is right exactly where the ranges before the last slot of
it are enough. -/
theorem Rnetwrite_descriptor_iff (h : Tables p) (buffer : ℕ → UInt8) (nsend : Int)
    (kencrypt : ℕ → UInt8 → UInt8) (ssh accepted : Bool) :
    (Fills p nsend ssh → Described p buffer nsend kencrypt accepted (rangesTaken p nsend)) ↔
      (Fills p nsend ssh → FewRanges (ready p).fds nsend) := by
  apply imp_congr_right
  intro hfills
  have hssh := hfills.2.1
  subst hssh
  have hcount : (rangesTaken p nsend).length+1 ≤ MAX_SWDS_ELEMS ↔
      FewRanges (ready p).fds nsend := by
    rw [FewRanges, Nat.lt_succ_iff]
    exact Nat.succ_le_succ_iff.trans (length_takeRanges (ready p).fds nsend 15)
  constructor
  · exact fun hdescribed => hcount.mp hdescribed.bound
  · exact fun hfew => described_of h buffer kencrypt accepted hfills (hcount.mpr hfew)

end Taken

theorem bytesUsed_unused_all (n : ℕ) :
    bytesUsed (List.replicate n ⟨false, WdsEntry.empty⟩) = 0 := by
  induction n with
  | zero => rfl
  | succ n ih => rw [List.replicate_succ, bytesUsed_unused rfl, ih]

/-- Ten bytes from a new buffer. -/
theorem ten_bytes_described :
    Described newStream (fun _ => 7) 10 (fun _ b => b) true (rangesTaken newStream 10) := by
  have htables : Tables newStream := by
    refine ⟨rfl, ?_⟩
    change (bytes (⟨8192, 1⟩ :: List.replicate 31 WdsEntry.empty)+
      bytesUsed (List.replicate 32 ⟨false, WdsEntry.empty⟩)).Nodup
    rw [bytesUsed_unused_all, add_zero, bytes_cons, bytes_replicate, add_zero, WdsEntry.bytes,
      if_neg (by decide)]
    exact Multiset.coe_nodup.mpr List.nodup_range'
  have hfills : Fills newStream 10 false := ⟨by decide, rfl, by decide +kernel⟩
  apply (Rnetwrite_descriptor_iff htables (fun _ => 7) 10 (fun _ b => b) false true).mpr _ hfills
  exact fun _ => Or.inl (by decide +kernel)

/-- A buffer whose first bytes are free one by one, with one in use between any two. -/
def scattered : StreamRec :=
  { sbuffer := 1
    mem := fun _ => 0
    fds := (List.range 16).map (fun i => ⟨1, 2*i+1⟩) ++ List.replicate 16 WdsEntry.empty
    exFDS := List.replicate 32 ⟨false, WdsEntry.empty⟩
    sends := [] }

/-- Sixteen bytes take sixteen ranges, and the end is put behind the descriptor. -/
theorem descriptor_overflows : ¬ ∀ (p : StreamRec) (nsend : Int), Tables p →
    Fills p nsend false →
      Described p (fun _ => 7) nsend (fun _ b => b) true (rangesTaken p nsend) := by
  intro hall
  have htables : Tables scattered := by
    refine ⟨rfl, ?_⟩
    have hbytes : bytes ((List.range 16).map fun i => (⟨1, 2*i+1⟩ : WdsEntry)) =
        ((List.range 16).map fun i => 2*i+1 : List ℕ) := by
      decide +kernel
    change (bytes ((List.range 16).map (fun i => (⟨1, 2*i+1⟩ : WdsEntry)) ++
      List.replicate 16 WdsEntry.empty)+
      bytesUsed (List.replicate 32 ⟨false, WdsEntry.empty⟩)).Nodup
    rw [bytesUsed_unused_all, add_zero, bytes_append, bytes_replicate, add_zero, hbytes]
    exact Multiset.coe_nodup.mpr (by decide)
  have hfills : Fills scattered 16 false := ⟨by decide, rfl, by decide +kernel⟩
  have hbound := (hall scattered 16 htables hfills).bound
  have hsixteen : (rangesTaken scattered 16).length = 16 := by decide +kernel
  rw [hsixteen] at hbound
  exact absurd hbound (by decide)

end SendBuffer
