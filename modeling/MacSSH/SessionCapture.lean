import Mathlib.Data.List.Basic
import Mathlib.Logic.Basic

/-! The capture of a session in a file. -/
namespace VS

/-- The capture of one screen: its file is open or not, with what has been written. -/
structure Capture where
  captureRN : Bool
  file : List UInt8

/-- What is captured of the text that the host sends. -/
def captured (c : UInt8) : Bool := c ≥ 32 || c = 13 || c = 9

/-- The loop of the capture, with `len` octets read and `ln` to go for: what has been put
into the buffer, `ln` behind the loop, and what has not been read. -/
def captureLoop (captbuf : List UInt8) (len ln : ℕ) : List UInt8 → List UInt8 × ℕ × List UInt8
  | [] => (captbuf, ln, [])
  | c :: ptr2 =>
    if len < ln then
      if captured c then captureLoop (captbuf ++ [c]) (len+1) ln ptr2
      -- an octet that is dropped counts twice
      else captureLoop captbuf (len+1) (ln-1) ptr2
    else (captbuf, ln, c :: ptr2)

/-- Capture octets. `stale` is what is in the buffer before it is used, `written` says
whether the file takes them; if it does not, it is closed. -/
def VScapture (debug : Bool) (stale : ℕ → UInt8) (written : Bool) (v : Capture)
    (ptr : List UInt8) : Capture :=
  if v.captureRN then
    let (captbuf, ln, _) := if debug then (ptr, ptr.length, []) else captureLoop [] 0 ptr.length ptr
    if ln > 0 then
      if written then
        { v with file := v.file ++ (List.range ln).map fun i => captbuf.getD i (stale i) }
      else { v with captureRN := false }
    else v
  else v

/-- The octets that are captured are written, in order and completely, and no others. -/
def CapturesText (ptr : List UInt8) : Prop :=
  ∀ stale file, VScapture false stale true ⟨true, file⟩ ptr = ⟨true, file ++ ptr.filter captured⟩

section Loop
variable {captbuf ptr : List UInt8} {len ln : ℕ}

/-- What the loop has counted: each octet that is put into the buffer, and twice each one
that is not. -/
theorem captureLoop_count (h : len+ptr.length = ln+(len-captbuf.length))
    (hle : captbuf.length ≤ len) :
    (captureLoop captbuf len ln ptr).2.1 =
      (captureLoop captbuf len ln ptr).1.length+(captureLoop captbuf len ln ptr).2.2.length := by
  induction ptr generalizing captbuf len ln with
  | nil =>
    simp only [captureLoop, List.length_nil] at *
    omega
  | cons c ptr ih =>
    rw [List.length_cons] at h
    rw [captureLoop]
    split_ifs
    · apply ih
      · rw [List.length_append, List.length_singleton]
        omega
      · rw [List.length_append, List.length_singleton]
        omega
    · apply ih <;> omega
    · simp only [List.length_cons]
      omega

/-- As long as nothing is dropped, everything is read. -/
theorem captureLoop_keep {a b : List UInt8} (ha : ∀ c ∈ a, captured c = true)
    (h : len+(a ++ b).length = ln) : captureLoop captbuf len ln (a ++ b) =
      captureLoop (captbuf ++ a) (len+a.length) ln b := by
  induction a generalizing captbuf len with
  | nil => rw [List.append_nil]; rfl
  | cons c a ih =>
    rw [List.cons_append, List.length_cons] at h
    have hnext := @ih (captbuf ++ [c]) (len+1) (fun d hd => ha d (List.mem_cons_of_mem c hd))
      (by omega)
    rw [List.cons_append, captureLoop, if_pos (by omega), if_pos (ha c List.mem_cons_self), hnext,
      List.append_assoc, List.length_cons, Nat.add_assoc, Nat.add_comm 1]
    rfl

/-- Once an octet has been dropped, the last one is not read. -/
theorem captureLoop_unread (h : ln < len+ptr.length) (hne : ptr ≠ []) :
    (captureLoop captbuf len ln ptr).2.2 ≠ [] := by
  induction ptr generalizing captbuf len ln with
  | nil => exact absurd rfl hne
  | cons c ptr ih =>
    rw [List.length_cons] at h
    rw [captureLoop]
    by_cases hlt : len < ln
    · have hmore : ptr ≠ [] := by
        rintro rfl
        rw [List.length_nil] at h
        omega
      rw [if_pos hlt]
      split_ifs
      · exact ih (by omega) hmore
      · exact ih (by omega) hmore
    · rw [if_neg hlt]
      exact List.cons_ne_nil c ptr

end Loop

section Written

/-- The octets that are written. -/
theorem VScapture_open (stale : ℕ → UInt8) (file ptr : List UInt8) :
    VScapture false stale true ⟨true, file⟩ ptr = ⟨true, file ++
      (List.range (captureLoop [] 0 ptr.length ptr).2.1).map fun i =>
        (captureLoop [] 0 ptr.length ptr).1.getD i (stale i)⟩ := by
  simp only [VScapture, if_true, Bool.false_eq_true, if_false]
  by_cases hpos : (captureLoop [] 0 ptr.length ptr).2.1 > 0
  · rw [if_pos hpos]
  · have hzero : (captureLoop [] 0 ptr.length ptr).2.1 = 0 := by omega
    rw [if_neg hpos, hzero, List.range_zero, List.map_nil, List.append_nil]

/-- A buffer that is full is written as it is. -/
theorem written_full (stale : ℕ → UInt8) (l : List UInt8) :
    (List.range l.length).map (fun i => l.getD i (stale i)) = l := by
  apply List.ext_getElem
  · rw [List.length_map, List.length_range]
  · intro i _ hi
    rw [List.getElem_map, List.getElem_range, List.getD_eq_getElem?_getD,
      List.getElem?_eq_getElem hi, Option.getD_some]

/-- What is behind the octets in the buffer is written as well. -/
theorem captures_nothing_stale {ptr : List UInt8} (h : CapturesText ptr) :
    (captureLoop [] 0 ptr.length ptr).2.1 ≤ (captureLoop [] 0 ptr.length ptr).1.length := by
  have hzero := h (fun _ => 0) []
  have hone := h (fun _ => 1) []
  rw [VScapture_open] at hzero hone
  generalize captureLoop [] 0 ptr.length ptr = r at *
  obtain ⟨captbuf, ln, rest⟩ := r
  simp only [List.nil_append, Capture.mk.injEq, true_and] at hzero hone ⊢
  by_contra hlt
  have hsame := hzero.trans hone.symm
  have hat := congrArg (fun l : List UInt8 => l[captbuf.length]?) hsame
  simp only [List.getElem?_map] at hat
  rw [List.getElem?_range (by omega)] at hat
  simp at hat

/-- The first octet that is dropped before the last octet. -/
theorem first_dropped {ptr : List UInt8} (h : ∃ c ∈ ptr.dropLast, captured c = false) :
    ∃ a c b, ptr = a ++ c :: b ∧ (∀ d ∈ a, captured d = true) ∧ captured c = false ∧ b ≠ [] := by
  induction ptr with
  | nil =>
    obtain ⟨c, hc, -⟩ := h
    cases hc
  | cons c ptr ih =>
    cases ptr with
    | nil =>
      obtain ⟨d, hd, -⟩ := h
      cases hd
    | cons d ptr =>
      cases hcaptured : captured c with
      | false => exact ⟨[], c, d :: ptr, rfl, by simp, hcaptured, List.cons_ne_nil d ptr⟩
      | true =>
        obtain ⟨c', hc', hdropped⟩ := h
        rcases List.mem_cons.mp hc' with rfl | hc'
        · rw [hcaptured] at hdropped
          cases hdropped
        · obtain ⟨a, e, b, hptr, ha, he, hb⟩ := ih ⟨c', hc', hdropped⟩
          refine ⟨c :: a, e, b, ?_, ?_, he, hb⟩
          · rw [hptr]
            rfl
          · intro x hx
            rcases List.mem_cons.mp hx with rfl | hx
            · exact hcaptured
            · exact ha x hx

/-- An octet that is dropped before the last one: octets are left unread, and as many are
written that were in the buffer before. -/
theorem dropped_writes_stale {ptr : List UInt8} (h : ∃ c ∈ ptr.dropLast, captured c = false) :
    (captureLoop [] 0 ptr.length ptr).1.length < (captureLoop [] 0 ptr.length ptr).2.1 := by
  obtain ⟨a, c, b, rfl, ha, hc, hb⟩ := first_dropped h
  have hcount := @captureLoop_count [] (a ++ c :: b) 0 (a ++ c :: b).length (by simp)
    (Nat.le_refl 0)
  have hkeep := @captureLoop_keep [] 0 _ a (c :: b) ha (Nat.zero_add _)
  have hlen : (a ++ c :: b).length = a.length+b.length+1 := by
    rw [List.length_append, List.length_cons]
    omega
  have hunread : (captureLoop [] 0 (a ++ c :: b).length (a ++ c :: b)).2.2 ≠ [] := by
    rw [hkeep, captureLoop, if_pos (by omega), hc, hlen]
    exact captureLoop_unread (by omega) hb
  have hpos := List.length_pos_iff.mpr hunread
  omega

/-- Text in which no octet is dropped but the last. -/
theorem captures_all {ptr : List UInt8} (h : ∀ c ∈ ptr.dropLast, captured c = true) :
    CapturesText ptr := by
  intro stale file
  rw [VScapture_open]
  rcases List.eq_nil_or_concat ptr with rfl | ⟨a, c, rfl⟩
  · rfl
  · rw [List.concat_eq_append] at h ⊢
    rw [List.dropLast_concat] at h
    have hkeep := @captureLoop_keep [] 0 _ a [c] h (Nat.zero_add _)
    have hfilter : a.filter captured = a := List.filter_eq_self.mpr h
    have hlen : (a ++ [c]).length = a.length+1 := by
      rw [List.length_append, List.length_singleton]
    rw [hkeep, hlen, List.filter_append, hfilter, Nat.zero_add, List.nil_append, captureLoop,
      if_pos (Nat.lt_succ_self _)]
    cases hc : captured c with
    | true =>
      have hone : [c].filter captured = [c] := by rw [List.filter_singleton, hc]; rfl
      have hfull := written_full stale (a ++ [c])
      rw [hlen] at hfull
      simp only [if_true, captureLoop, hone]
      rw [hfull]
    | false =>
      have hnone : [c].filter captured = [] := by rw [List.filter_singleton, hc]; rfl
      simp only [Bool.false_eq_true, if_false, captureLoop, hnone, Nat.add_sub_cancel,
        List.append_nil]
      rw [written_full]

/-- The text is captured as it should, whatever was in the buffer before, if and only if no
octet of it is dropped but perhaps the last. -/
theorem capture_exact_iff (ptr : List UInt8) :
    CapturesText ptr ↔ ∀ c ∈ ptr.dropLast, captured c = true := by
  constructor
  · intro h
    by_contra hno
    have hdropped : ∃ c ∈ ptr.dropLast, captured c = false := by
      by_contra hall
      apply hno
      intro c hc
      by_contra hfalse
      exact hall ⟨c, hc, Bool.not_eq_true _ ▸ hfalse⟩
    have hstale := dropped_writes_stale hdropped
    have hexact := captures_nothing_stale h
    omega
  · exact captures_all

/-- A line feed in the middle: the letter behind it is lost, and an old octet is written. -/
theorem capture_line_feed :
    (VScapture false (fun _ => 0x21) true ⟨true, []⟩ [0x41, 0x0a, 0x42]).file = [0x41, 0x21] ∧
      ¬CapturesText [0x41, 0x0a, 0x42] := by
  refine ⟨by decide, ?_⟩
  intro h
  have hexact := captures_nothing_stale h
  exact absurd hexact (by decide)

end Written

end VS
