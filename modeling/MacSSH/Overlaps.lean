import Mathlib.Data.List.Infix
import Mathlib.Data.Nat.Find

/-! How far a word that is looked for overlaps the end of a text, and how a shorter
overlap is found where a longer one is broken off. -/
namespace Overlaps

variable {α : Type*} {w s : List α} {c : α} {k p q : ℕ}

theorem suffix_eq_of_length {t w pre : List α} (h : t.length = w.length) :
    t <:+ pre ++ w ↔ t = w := by
  constructor
  · intro ht
    have hw : w <:+ pre ++ w := List.suffix_append _ _
    exact (List.suffix_of_suffix_length_le ht hw (Nat.le_of_eq h)).eq_of_length h
  · rintro rfl
    exact List.suffix_append _ _

/-- A word that ends behind a letter which only could be its last one starts behind that
letter. -/
theorem suffix_behind {t l s : List α} {d : α} (hd : d ∉ t.dropLast) (hs : s ≠ []) :
    t <:+ l ++ d :: s ↔ t <:+ s := by
  constructor
  · intro ht
    rcases Nat.lt_or_ge s.length t.length with hlen | hlen
    · exfalso
      -- otherwise `d :: s` ends the word
      have hds : d :: s <:+ t :=
        List.suffix_of_suffix_length_le (List.suffix_append _ _) ht hlen
      obtain ⟨u, rfl⟩ := hds
      apply hd
      rw [List.dropLast_append_of_ne_nil (List.cons_ne_nil _ _), List.dropLast_cons_of_ne_nil hs]
      simp
    · exact List.suffix_of_suffix_length_le ht
        ((List.suffix_cons d s).trans (List.suffix_append _ _)) hlen
  · intro ht
    exact ht.trans ((List.suffix_cons d s).trans (List.suffix_append _ _))

theorem concat_suffix_concat {u l : List α} {x c : α} :
    u ++ [x] <:+ l ++ [c] ↔ x = c ∧ u <:+ l := by
  constructor
  · rintro ⟨v, hv⟩
    rw [← List.append_assoc] at hv
    obtain ⟨hl, hc⟩ := List.append_inj' hv rfl
    exact ⟨by simpa using hc, v, hl⟩
  · rintro ⟨rfl, v, rfl⟩
    exact ⟨v, by simp⟩

/-- The first `k` letters of the word are at the end of the text. -/
def IsOverlap (w s : List α) (k : ℕ) : Prop := k ≤ w.length ∧ w.take k <:+ s

instance [DecidableEq α] (w s : List α) : DecidablePred (IsOverlap w s) :=
  fun _ => inferInstanceAs (Decidable (_ ∧ _))

theorem isOverlap_zero (w s : List α) : IsOverlap w s 0 := by
  refine ⟨Nat.zero_le _, ?_⟩
  rw [List.take_zero]
  exact List.nil_suffix

theorem IsOverlap.length_take (h : IsOverlap w s k) : (w.take k).length = k := by
  rw [List.length_take]
  exact Nat.min_eq_left h.1

theorem IsOverlap.le_length (h : IsOverlap w s k) : k ≤ s.length := by
  have hlen := h.2.length_le
  rwa [h.length_take] at hlen

/-- An overlap grows with the text by the letter that comes next in the word. -/
theorem isOverlap_succ_iff : IsOverlap w (s ++ [c]) (k+1) ↔
    w[k]? = some c ∧ IsOverlap w s k := by
  constructor
  · intro ⟨hle, hsuffix⟩
    rw [List.take_succ_eq_append_getElem hle] at hsuffix
    obtain ⟨front, heq⟩ := hsuffix
    rw [← List.append_assoc] at heq
    obtain ⟨hfront, hlast⟩ := List.append_inj' heq rfl
    refine ⟨?_, Nat.le_of_succ_le hle, front, hfront⟩
    rw [List.getElem?_eq_getElem hle, List.singleton_inj.mp hlast]
  · intro ⟨hletter, _, front, heq⟩
    obtain ⟨hlt, hval⟩ := List.getElem?_eq_some_iff.mp hletter
    refine ⟨hlt, front, ?_⟩
    rw [List.take_succ_eq_append_getElem hlt, hval, ← List.append_assoc, heq]

/-- What overlaps an overlap overlaps the text. -/
theorem IsOverlap.trans (h : IsOverlap w s q) (hk : IsOverlap w (w.take q) k) :
    IsOverlap w s k :=
  ⟨hk.1, hk.2.trans h.2⟩

/-- A shorter overlap of the text is one of the longer. -/
theorem IsOverlap.of_le (h : IsOverlap w s q) (hk : IsOverlap w s k) (hle : k ≤ q) :
    IsOverlap w (w.take q) k := by
  refine ⟨hk.1, List.suffix_of_suffix_length_le hk.2 h.2 ?_⟩
  rwa [hk.length_take, h.length_take]

/-- The longest overlap of the word with the end of the text. -/
structure Longest (w s : List α) (q : ℕ) : Prop where
  overlap : IsOverlap w s q
  max : ∀ k, IsOverlap w s k → k ≤ q

/-- An overlap not shorter than any that the next letter makes longer. -/
structure Candidate (w s : List α) (c : α) (p : ℕ) : Prop where
  overlap : IsOverlap w s p
  max : ∀ k, IsOverlap w s k → w[k]? = some c → k ≤ p

theorem Longest.unique (h : Longest w s p) (h' : Longest w s q) : p = q :=
  Nat.le_antisymm (h'.max p h.overlap) (h.max q h'.overlap)

theorem Longest.candidate (h : Longest w s q) (c : α) : Candidate w s c q :=
  ⟨h.overlap, fun k hk _ => h.max k hk⟩

/-- The word is at the end of the text where it overlaps as a whole. -/
theorem Longest.suffix_iff (h : Longest w s q) : w <:+ s ↔ q = w.length := by
  constructor
  · intro hsuffix
    have hfull : IsOverlap w s w.length := ⟨Nat.le_refl _, by rwa [List.take_length]⟩
    exact Nat.le_antisymm h.overlap.1 (h.max _ hfull)
  · intro hq
    have hsuffix := h.overlap.2
    rwa [hq, List.take_length] at hsuffix

/-- The letter that was looked for makes the candidate longer. -/
theorem Candidate.grow (h : Candidate w s c p) (hletter : w[p]? = some c) :
    Longest w (s ++ [c]) (p+1) := by
  refine ⟨isOverlap_succ_iff.mpr ⟨hletter, h.overlap⟩, fun k hk => ?_⟩
  cases k with
  | zero => exact Nat.zero_le _
  | succ k =>
    obtain ⟨hnext, hover⟩ := isOverlap_succ_iff.mp hk
    exact Nat.succ_le_succ (h.max k hover hnext)

/-- Where not even the first letter fits nothing overlaps. -/
theorem Candidate.drop (h : Candidate w s c 0) (hletter : w[0]? ≠ some c) :
    Longest w (s ++ [c]) 0 := by
  refine ⟨isOverlap_zero w _, fun k hk => ?_⟩
  cases k with
  | zero => exact Nat.le_refl 0
  | succ k =>
    obtain ⟨hnext, hover⟩ := isOverlap_succ_iff.mp hk
    obtain rfl := Nat.le_zero.mp (h.max k hover hnext)
    exact absurd hnext hletter

section Border
variable [DecidableEq α]

/-- The longest shorter overlap of the first `q` letters of the word with themselves. -/
def border (w : List α) (q : ℕ) : ℕ := Nat.findGreatest (IsOverlap w (w.take q)) (q-1)

theorem border_isOverlap (w : List α) (q : ℕ) : IsOverlap w (w.take q) (border w q) :=
  Nat.findGreatest_spec (P := IsOverlap w (w.take q)) (Nat.zero_le _) (isOverlap_zero w _)

theorem border_le (w : List α) (q : ℕ) : border w q ≤ q-1 := Nat.findGreatest_le _

theorem le_border (hk : k < q) (h : IsOverlap w (w.take q) k) : k ≤ border w q :=
  Nat.le_findGreatest (by omega) h

/-- Where the next letter does not fit, the border is the next candidate. -/
theorem Candidate.fall (h : Candidate w s c p) (hletter : w[p]? ≠ some c) :
    Candidate w s c (border w p) := by
  refine ⟨h.overlap.trans (border_isOverlap w p), fun k hk hnext => ?_⟩
  have hle := h.max k hk hnext
  have hne : k ≠ p := by
    rintro rfl
    exact hletter hnext
  exact le_border (by omega) (h.overlap.of_le hk hle)

/-- The border of the first letters is their longest overlap without the first one. -/
theorem border_longest (hq : 0 < q) (hle : q ≤ w.length) :
    Longest w (w.tail.take (q-1)) (border w q) := by
  cases w with
  | nil =>
    rw [List.length_nil] at hle
    omega
  | cons a w =>
    obtain ⟨n, rfl⟩ : ∃ n, q = n+1 := ⟨q-1, by omega⟩
    have hn : n ≤ w.length := Nat.le_of_succ_le_succ hle
    have hlen : (w.take n).length = n := by rw [List.length_take, Nat.min_eq_left hn]
    have hiff : ∀ k, k ≤ n → (IsOverlap (a :: w) ((a :: w).take (n+1)) k ↔
        IsOverlap (a :: w) (w.take n) k) := by
      intro k hk
      rw [IsOverlap, IsOverlap, List.take_succ_cons, List.suffix_cons_iff]
      apply and_congr_right
      intro hkw
      apply or_iff_right
      -- a proper overlap is too short for the whole
      intro hwhole
      have hlens := congrArg List.length hwhole
      rw [List.length_take, Nat.min_eq_left hkw, List.length_cons, hlen] at hlens
      omega
    have hborder : border (a :: w) (n+1) ≤ n := border_le _ _
    refine ⟨(hiff _ hborder).mp (border_isOverlap _ _), fun k hk => ?_⟩
    have hkn : k ≤ n := hlen ▸ hk.le_length
    exact le_border (by omega) ((hiff k hkn).mpr hk)

end Border

end Overlaps
