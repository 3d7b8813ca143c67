import MacSSH.Shorts
import Mathlib.Data.List.Basic
import Mathlib.Data.Nat.Bitwise
import Mathlib.Tactic.Common

/-! Run-length coded lines of a raster picture: a count below 128 stands before that many
bytes, and one from 128 on before a byte that is repeated. -/
namespace VR

open VS

/-- Copy bytes while the count lasts and there is room. -/
def uniques (buf : ℕ → UInt8) (p : ℕ) : ℕ → ℕ → List UInt8
  | 0, _ => []
  | _+1, 0 => []
  | cnt+1, room+1 => buf p :: uniques buf (p+1) cnt room

/-- Copy one byte while the count lasts and there is room. -/
def repeats (buf : ℕ → UInt8) (p : ℕ) : ℕ → ℕ → List UInt8
  | 0, _ => []
  | _+1, 0 => []
  | cnt+1, room+1 => buf p :: repeats buf p cnt room

/-- The loop of `unrleit` from `p` on: the bytes stored, and the places read. -/
def unrle (buf : ℕ → UInt8) (inlen p room : ℕ) : List UInt8 × List ℕ :=
  if p < inlen ∧ 0 < room then
    let cnt := buf p
    if cnt &&& 128 = 0 then
      let run := uniques buf (p+1) cnt.toNat room
      let rest := unrle buf inlen (p+1+run.length) (room-run.length)
      (run ++ rest.1, p :: (List.range' (p+1) run.length ++ rest.2))
    else
      let run := repeats buf (p+1) (cnt &&& 127).toNat room
      let rest := unrle buf inlen (p+2) (room-run.length)
      (run ++ rest.1, p :: (List.replicate run.length (p+1) ++ rest.2))
  else ([], [])
termination_by inlen-p
decreasing_by all_goals omega

/-- What `unrleit` returns, the bytes that it stores, and the places that it reads. -/
def unrleit (buf : ℕ → UInt8) (inlen outlen : ℕ) : Int × List UInt8 × List ℕ :=
  let r := unrle buf inlen 0 outlen
  (short r.1.length, r)

/-- The memory that begins with the data. -/
def placed (data : List UInt8) (behind : ℕ → UInt8) (i : ℕ) : UInt8 := data.getD i (behind i)

/-- Runs that code a row. -/
inductive Encodes : List UInt8 → List UInt8 → Prop
  | nil : Encodes [] []
  | uniques {cnt : UInt8} {s row data : List UInt8} : cnt.toNat < 128 → s.length = cnt.toNat →
    Encodes row data → Encodes (s ++ row) (cnt :: (s ++ data))
  | repeats {cnt c : UInt8} {row data : List UInt8} : 128 ≤ cnt.toNat → Encodes row data →
    Encodes (List.replicate (cnt.toNat-128) c ++ row) (cnt :: c :: data)

/-- The runs of the data end within it, as far as there is room for them. -/
inductive Whole : List UInt8 → ℕ → Prop
  | full (data : List UInt8) : Whole data 0
  | nil (room : ℕ) : Whole [] room
  | uniques {cnt : UInt8} {s data : List UInt8} {room : ℕ} : cnt.toNat < 128 →
    s.length = min cnt.toNat room → Whole data (room-s.length) → Whole (cnt :: (s ++ data)) room
  | repeats {cnt c : UInt8} {data : List UInt8} {room : ℕ} : 128 ≤ cnt.toNat →
    Whole data (room-(cnt.toNat-128)) → Whole (cnt :: c :: data) room
  | none {room : ℕ} : Whole [128] room

/-- Nothing is read behind the data, and no more is stored than there is room for, which is
the number returned. -/
structure ExpandsInside (buf : ℕ → UInt8) (inlen outlen : ℕ) : Prop where
  reads : ∀ p ∈ (unrleit buf inlen outlen).2.2, p < inlen
  stored : (unrleit buf inlen outlen).2.1.length ≤ outlen
  returned : (unrleit buf inlen outlen).1 = (unrleit buf inlen outlen).2.1.length

section Runs
variable {buf : ℕ → UInt8} {p cnt room : ℕ}

theorem count_uniques {c : UInt8} : c &&& 128 = 0 ↔ c.toNat < 128 := by
  have hbits : (c &&& 128).toNat = 2^7*(c.toNat / 2^7 % 2) := by
    have hand : (c &&& 128).toNat = c.toNat &&& 2^7 := UInt8.toNat_and c 128
    rw [hand, Nat.and_comm, Nat.two_pow_and, Nat.toNat_testBit]
  have hlt := c.toNat_lt
  constructor
  · intro h
    rw [h] at hbits
    change 0 = _ at hbits
    omega
  · intro h
    apply UInt8.toNat.inj
    rw [hbits]
    change _ = 0
    omega

theorem count_repeats {c : UInt8} (h : ¬ c &&& 128 = 0) : (c &&& 127).toNat = c.toNat-128 := by
  have hand : (c &&& 127).toNat = c.toNat &&& 2^7-1 := UInt8.toNat_and c 127
  have hlt := c.toNat_lt
  rw [count_uniques] at h
  rw [hand, Nat.and_two_pow_sub_one_eq_mod]
  omega

theorem length_uniques : (uniques buf p cnt room).length = min cnt room := by
  induction cnt generalizing p room with
  | zero => rw [uniques, Nat.zero_min]; rfl
  | succ cnt ih =>
    cases room with
    | zero => rw [uniques, Nat.min_zero]; rfl
    | succ room => rw [uniques, List.length_cons, ih]; omega

theorem repeats_eq : repeats buf p cnt room = List.replicate (min cnt room) (buf p) := by
  induction cnt generalizing room with
  | zero => rw [repeats, Nat.zero_min]; rfl
  | succ cnt ih =>
    cases room with
    | zero => rw [repeats, Nat.min_zero]; rfl
    | succ room =>
      have hmin : min (cnt+1) (room+1) = min cnt room+1 := by omega
      rw [repeats, ih, hmin, List.replicate_succ]

/-- The loop stops at the end of the data, or when there is no room. -/
theorem unrle_stop {inlen : ℕ} (h : ¬ (p < inlen ∧ 0 < room)) :
    unrle buf inlen p room = ([], []) := by
  rw [unrle, if_neg h]

/-- No more is stored than there is room for. -/
theorem length_unrle (inlen : ℕ) : (unrle buf inlen p room).1.length ≤ room := by
  fun_induction unrle buf inlen p room with
  | case1 p room h cnt hcnt run rest ih =>
    have hrun : run.length = min cnt.toNat room := length_uniques
    have hrest : rest.1.length ≤ room-run.length := ih
    rw [List.length_append]
    omega
  | case2 p room h cnt hcnt run rest ih =>
    have hrun : run.length = min (cnt &&& 127).toNat room := by
      rw [show run = _ from repeats_eq, List.length_replicate]
    have hrest : rest.1.length ≤ room-run.length := ih
    rw [List.length_append]
    omega
  | case3 => exact Nat.zero_le _

end Runs

section Placed
variable {data rest : List UInt8} {behind : ℕ → UInt8} {p cnt room : ℕ} {c : UInt8}

theorem placed_head (h : data.drop p = c :: rest) : placed data behind p = c := by
  have hget : data[p]? = some c := by
    rw [← List.head?_drop, h]
    rfl
  rw [placed, List.getD_eq_getElem?_getD, hget]
  rfl

theorem drop_succ_of (h : data.drop p = c :: rest) : data.drop (p+1) = rest := by
  rw [← List.drop_drop, h]
  rfl

theorem drop_add_of {n : ℕ} (h : data.drop p = rest) : data.drop (p+n) = rest.drop n := by
  rw [← List.drop_drop, h]

theorem lt_of_drop (h : data.drop p = c :: rest) : p+rest.length+1 = data.length := by
  have hlen := congrArg List.length h
  rw [List.length_drop, List.length_cons] at hlen
  omega

/-- What is copied of a run that is all there. -/
theorem uniques_placed (hcnt : min cnt room ≤ (data.drop p).length) :
    uniques (placed data behind) p cnt room = (data.drop p).take (min cnt room) := by
  induction cnt generalizing p room with
  | zero => rw [uniques, Nat.zero_min, List.take_zero]
  | succ cnt ih =>
    cases room with
    | zero => rw [uniques, Nat.min_zero, List.take_zero]
    | succ room =>
      have hmin : min (cnt+1) (room+1) = min cnt room+1 := by omega
      rw [hmin] at hcnt ⊢
      obtain ⟨c, rest, hdrop⟩ := List.exists_cons_of_length_pos (Nat.zero_lt_of_lt hcnt)
      have hnext := drop_succ_of hdrop
      rw [hdrop, List.length_cons] at hcnt
      rw [uniques, placed_head hdrop, hdrop, List.take_succ_cons, ih (by rw [hnext]; omega), hnext]

/-- One turn of the loop. -/
theorem unrle_uniques (h : data.drop p = c :: rest) (hroom : 0 < room) (hc : c.toNat < 128) :
    unrle (placed data behind) data.length p room =
      let run := uniques (placed data behind) (p+1) c.toNat room
      let next := unrle (placed data behind) data.length (p+1+min c.toNat room)
        (room-min c.toNat room)
      (run ++ next.1, p :: (List.range' (p+1) (min c.toNat room) ++ next.2)) := by
  have hlt := lt_of_drop h
  rw [unrle, if_pos ⟨by omega, hroom⟩, placed_head h, if_pos (count_uniques.mpr hc)]
  dsimp only
  rw [length_uniques]

theorem unrle_repeats (h : data.drop p = c :: rest) (hroom : 0 < room) (hc : ¬ c.toNat < 128) :
    unrle (placed data behind) data.length p room =
      let n := min (c.toNat-128) room
      let next := unrle (placed data behind) data.length (p+2) (room-n)
      (List.replicate n (placed data behind (p+1)) ++ next.1,
        p :: (List.replicate n (p+1) ++ next.2)) := by
  have hlt := lt_of_drop h
  have hcount := fun h => hc (count_uniques.mp h)
  rw [unrle, if_pos ⟨by omega, hroom⟩, placed_head h, if_neg hcount]
  dsimp only
  rw [repeats_eq, count_repeats hcount, List.length_replicate]

theorem whole_uniques (hroom : 0 < room) (hc : c.toNat < 128) : Whole (c :: rest) room ↔
    min c.toNat room ≤ rest.length ∧
      Whole (rest.drop (min c.toNat room)) (room-min c.toNat room) := by
  constructor
  · intro h
    generalize hlist : c :: rest = list at h
    cases h with
    | full => exact absurd hroom (Nat.lt_irrefl 0)
    | nil => exact absurd hlist (List.cons_ne_nil c rest)
    | uniques _ hs hmore =>
      obtain ⟨rfl, rfl⟩ := List.cons.inj hlist
      rw [← hs, List.drop_left, List.length_append]
      exact ⟨Nat.le_add_right _ _, hmore⟩
    | repeats hge _ =>
      rw [(List.cons.inj hlist).1] at hc
      omega
    | none =>
      rw [(List.cons.inj hlist).1] at hc
      exact absurd hc (Nat.lt_irrefl 128)
  · rintro ⟨hfits, hmore⟩
    have htake : (rest.take (min c.toNat room)).length = min c.toNat room := by
      rw [List.length_take, Nat.min_eq_left hfits]
    rw [← List.take_append_drop (min c.toNat room) rest]
    apply Whole.uniques hc htake
    rw [htake]
    exact hmore

theorem whole_repeats {d : UInt8} (hroom : 0 < room) (hc : ¬ c.toNat < 128) :
    Whole (c :: d :: rest) room ↔ Whole rest (room-(c.toNat-128)) := by
  constructor
  · intro h
    generalize hlist : c :: d :: rest = list at h
    cases h with
    | full => exact absurd hroom (Nat.lt_irrefl 0)
    | nil => exact absurd hlist (List.cons_ne_nil c _)
    | uniques hlt _ _ =>
      rw [(List.cons.inj hlist).1] at hc
      exact absurd hlt hc
    | repeats _ hmore =>
      obtain ⟨rfl, htail⟩ := List.cons.inj hlist
      rw [(List.cons.inj htail).2]
      exact hmore
    | none => exact absurd (List.cons.inj hlist).2 (List.cons_ne_nil d rest)
  · exact Whole.repeats (by omega)

theorem whole_last (hroom : 0 < room) (hc : ¬ c.toNat < 128) :
    Whole [c] room ↔ c.toNat = 128 := by
  constructor
  · intro h
    generalize hlist : [c] = list at h
    cases h with
    | full => exact absurd hroom (Nat.lt_irrefl 0)
    | nil => exact absurd hlist (List.cons_ne_nil c _)
    | uniques hlt _ _ =>
      rw [(List.cons.inj hlist).1] at hc
      exact absurd hlt hc
    | repeats _ _ => exact absurd (List.cons.inj hlist).2.symm (List.cons_ne_nil _ _)
    | none => exact congrArg UInt8.toNat (List.cons.inj hlist).1
  · intro h
    rw [show c = 128 from UInt8.toNat.inj h]
    exact .none

/-- Nothing behind the data is read exactly where its runs end within it. -/
theorem reads_inside_iff : ∀ {rest : List UInt8} {p room : ℕ}, data.drop p = rest →
    ((∀ q ∈ (unrle (placed data behind) data.length p room).2, q < data.length) ↔
      Whole rest room) := by
  intro rest
  -- by the length of what is left, since a run is taken in one step
  induction hlen : rest.length using Nat.strongRecOn generalizing rest with
  | _ n ih =>
    intro p room hdrop
    rcases Nat.eq_zero_or_pos room with rfl | hroom
    · rw [unrle_stop (by omega)]
      exact iff_of_true (fun q hq => absurd hq List.not_mem_nil) (.full rest)
    cases rest with
    | nil =>
      have hend : data.length ≤ p := List.drop_eq_nil_iff.mp hdrop
      rw [unrle_stop (by omega)]
      exact iff_of_true (fun q hq => absurd hq List.not_mem_nil) (.nil room)
    | cons c rest =>
      have hlt := lt_of_drop hdrop
      have hnext := drop_succ_of hdrop
      rw [List.length_cons] at hlen
      by_cases hc : c.toNat < 128
      · rw [unrle_uniques hdrop hroom hc, whole_uniques hroom hc]
        dsimp only
        rw [List.forall_mem_cons, List.forall_mem_append, and_iff_right (by omega)]
        generalize min c.toNat room = k
        rcases Nat.lt_or_ge rest.length k with hshort | hfits
        · -- the run crosses the end
          apply iff_of_false
          · intro h
            have hread := h.1 (p+1+rest.length) (List.mem_range'_1.mpr (by omega))
            omega
          · intro h
            omega
        · have hless : (rest.drop k).length < n := by
            rw [List.length_drop]
            omega
          rw [ih _ hless rfl (drop_add_of hnext)]
          apply and_congr_left'
          apply iff_of_true _ hfits
          intro q hq
          have hrange := List.mem_range'_1.mp hq
          omega
      · rw [unrle_repeats hdrop hroom hc]
        dsimp only
        rw [List.forall_mem_cons, List.forall_mem_append, and_iff_right (by omega)]
        cases rest with
        | nil =>
          -- the count stands last: the byte to repeat is behind the data
          rw [List.length_nil] at hlt
          rw [unrle_stop (by omega), whole_last hroom hc,
            and_iff_left fun q hq => absurd hq List.not_mem_nil]
          constructor
          · intro h
            by_contra hne
            have hread := h (p+1) (List.mem_replicate.mpr ⟨by omega, rfl⟩)
            omega
          · intro h q hq
            rw [h, Nat.sub_self, Nat.zero_min] at hq
            exact absurd hq List.not_mem_nil
        | cons d rest =>
          rw [List.length_cons] at hlt hlen
          have hdata : data.drop (p+2) = rest := drop_succ_of hnext
          have hmin : room-min (c.toNat-128) room = room-(c.toNat-128) := by omega
          rw [ih _ (by omega) rfl hdata, hmin, whole_repeats hroom hc]
          apply and_iff_right
          intro q hq
          rw [(List.mem_replicate.mp hq).2]
          omega

/-- The runs that code a row are expanded to as much of it as there is room for. -/
theorem unrle_encoded {row rest : List UInt8} (h : Encodes row rest) :
    ∀ {p room : ℕ}, data.drop p = rest →
      (unrle (placed data behind) data.length p room).1 = row.take room := by
  induction h with
  | nil =>
    intro p room hdrop
    have hend : data.length ≤ p := List.drop_eq_nil_iff.mp hdrop
    rw [unrle_stop (by omega), List.take_nil]
  | @uniques cnt s row rest hcnt hs _ ih =>
    intro p room hdrop
    rcases Nat.eq_zero_or_pos room with rfl | hroom
    · rw [unrle_stop (by omega), List.take_zero]
    have hnext := drop_succ_of hdrop
    rw [unrle_uniques hdrop hroom hcnt]
    dsimp only
    rw [uniques_placed (by rw [hnext, List.length_append]; omega), hnext, ← hs,
      List.take_append_of_le_length (Nat.min_le_left _ _), List.take_append]
    -- the run is copied whole, or as far as there is room and nothing after it
    rcases Nat.le_total s.length room with hfits | hcut
    · rw [Nat.min_eq_left hfits, List.take_length, List.take_of_length_le hfits]
      rw [ih (by rw [drop_add_of hnext, List.drop_left])]
    · rw [Nat.min_eq_right hcut, Nat.sub_self, Nat.sub_eq_zero_of_le hcut, List.take_zero,
        unrle_stop (by omega)]
  | @repeats cnt c row rest hcnt _ ih =>
    intro p room hdrop
    rcases Nat.eq_zero_or_pos room with rfl | hroom
    · rw [unrle_stop (by omega), List.take_zero]
    have hnext := drop_succ_of hdrop
    have hdata : data.drop (p+2) = rest := drop_succ_of hnext
    have hmin : room-min (cnt.toNat-128) room = room-(cnt.toNat-128) := by omega
    rw [unrle_repeats hdrop hroom (by omega)]
    dsimp only
    rw [placed_head hnext, ih hdata, List.take_append, List.take_replicate,
      List.length_replicate, hmin, Nat.min_comm]

/-- The expansion stays in the data exactly where its runs do, and gives of every row as
much as there is room for. -/
theorem unrleit_iff (data : List UInt8) (behind : ℕ → UInt8) {outlen : ℕ}
    (hout : outlen ≤ 32767) :
    (ExpandsInside (placed data behind) data.length outlen ↔ Whole data outlen) ∧
      ∀ row, Encodes row data →
        (unrleit (placed data behind) data.length outlen).2.1 = row.take outlen := by
  constructor
  · constructor
    · intro h
      exact (reads_inside_iff rfl).mp h.reads
    · intro h
      have hstored := @length_unrle (placed data behind) 0 outlen data.length
      refine ⟨(reads_inside_iff rfl).mpr h, hstored, ?_⟩
      dsimp only [unrleit]
      apply short_eq
      · omega
      · omega
  · intro row hrow
    exact unrle_encoded hrow rfl

/-- Two bytes as they stand, and four of one byte, into a row of five. -/
theorem two_runs_expanded :
    (unrleit (placed [2, 7, 8, 132, 9] fun _ => 0) 5 5).2.1 = [7, 8, 9, 9, 9] := by
  have hcode : Encodes [7, 8, 9, 9, 9, 9] [2, 7, 8, 132, 9] :=
    @Encodes.uniques 2 [7, 8] _ _ (by decide) rfl
      (@Encodes.repeats 132 9 [] [] (by decide) .nil)
  exact (@unrleit_iff [2, 7, 8, 132, 9] (fun _ => 0) 5 (by decide)).2 _ hcode

/-- A count of one at the end of the data: the byte behind it is read. -/
theorem run_over_the_end : ¬ ∀ (data : List UInt8) (behind : ℕ → UInt8) (outlen : ℕ),
    outlen ≤ 32767 → ExpandsInside (placed data behind) data.length outlen := by
  intro hall
  have hreads := (reads_inside_iff rfl).mp (hall [1] (fun _ => 0) 5 (by decide)).reads
  have hruns := (whole_uniques (by decide) (by decide)).mp hreads
  exact absurd hruns.1 (by decide)

end Placed

end VR
