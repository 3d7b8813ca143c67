import MacSSH.TekDraw
import Mathlib.Data.List.TakeWhile

/-! The stored characters of a Tektronix window draw its picture again. -/
namespace Tek

open VGWINTYPE

def PREDCOUNT : ℕ := 50

/-- The windows by number, and whether no redraw of them is going on. -/
structure Windows where
  VGwin : ℕ → VGWINTYPE
  drawing : ℕ → Bool

def Windows.set (g : Windows) (vw : ℕ) (w : VGWINTYPE) : Windows :=
  { g with VGwin := fun i => if i = vw then w else g.VGwin i }

def Windows.setDrawing (g : Windows) (vw : ℕ) (d : Bool) : Windows :=
  { g with drawing := fun i => if i = vw then d else g.drawing i }

/-- The store of a window. -/
def Windows.VGstore (g : Windows) (vw : ℕ) : TEKSTORE := (g.VGwin vw).store

def Windows.setStore (g : Windows) (vw : ℕ) (s : TEKSTORE) : Windows :=
  g.set vw { g.VGwin vw with store := s }

/-- A window takes a character from another program. -/
def Windows.draw (font : Font) (g : Windows) (vw : ℕ) (c : UInt8) : Windows :=
  g.set vw ((g.VGwin vw).VGdraw font c)

/-- Read at most `n` characters from the store of window `vw` and draw them in window
`dest`. Gives the characters passed on and whether the end was reported. -/
def replay (font : Font) (vw dest : ℕ) : ℕ → Windows → List UInt8 × Bool × Windows
  | 0, g => ([], false, g)
  | n+1, g =>
    let next := nextTEKitem (g.VGstore vw)
    let g := g.setStore vw next.2
    if next.1 = -1 then ([], true, g)
    else
      let c : UInt8 := (Int8.ofInt next.1).toUInt8
      let r := replay font vw dest n (g.draw font dest c)
      (c :: r.1, r.2)

/-- Draw the stored characters of window `vw` in window `dest`. Every character that is
drawn removes some of the store or moves the cursor on, so that the bound is enough. -/
def VGredraw (font : Font) (g : Windows) (vw dest : ℕ) : List UInt8 × Bool × Windows :=
  let g := g.setStore vw (topTEKstore (g.VGstore vw))
  replay font vw dest (2*(g.VGstore vw).data.length+2) g

/-- Draw some of the stored characters of window `vw` in window `dest`; the first call
begins at the top. Gives the characters passed on and whether the picture is complete. -/
def VGpred (font : Font) (g : Windows) (vw dest : ℕ) : List UInt8 × Bool × Windows :=
  let g := if g.drawing vw then
      (g.setStore vw (topTEKstore (g.VGstore vw))).setDrawing vw false
    else g
  let r := replay font vw dest (PREDCOUNT-1) g
  let g := if r.2.1 then r.2.2.setDrawing vw true else r.2.2
  (r.1, g.drawing vw, g)

/-- Call `VGpred` until the picture is complete, at most `k` times. -/
def predRun (font : Font) (vw dest : ℕ) : ℕ → Windows → List UInt8 × Bool × Windows
  | 0, g => ([], false, g)
  | k+1, g =>
    let r := VGpred font g vw dest
    if r.2.1 then r
    else
      let r' := predRun font vw dest k r.2.2
      (r.1 ++ r'.1, r'.2)

/-- While the next `n` characters are drawn again, the drawing leaves the store alone. -/
def Undisturbed (font : Font) (vw dest : ℕ) : ℕ → Windows → Prop
  | 0, _ => True
  | n+1, g =>
    let next := nextTEKitem (g.VGstore vw)
    let g := g.setStore vw next.2
    let drawn := g.draw font dest (Int8.ofInt next.1).toUInt8
    next.1 = -1 ∨ (drawn.VGstore vw = next.2 ∧ Undisturbed font vw dest n drawn)

/-- A redraw, in one go or in pieces, passes on all stored characters, in order and once
each, and comes to its end. -/
structure Replays (font : Font) (g : Windows) (vw dest : ℕ) : Prop where
  redraw : (VGredraw font g vw dest).1 = (g.VGstore vw).data ∧
    (VGredraw font g vw dest).2.1 = true
  pieces : ∃ k, (predRun font vw dest k g).1 = (g.VGstore vw).data ∧
    (predRun font vw dest k g).2.1 = true

section Replay
variable {font : Font} {g : Windows} {vw dest : ℕ}

theorem charValue_ne {c : UInt8} : TEKSTORE.charValue c = -1 ↔ c = 0xff := by
  constructor
  · intro h
    have hc : c.toInt8 = -1 := Int8.toInt_inj.mp (h.trans (by decide))
    calc c = c.toInt8.toUInt8 := (UInt8.toUInt8_toInt8 c).symm
      _ = 0xff := by rw [hc]; decide
  · rintro rfl
    decide

theorem charValue_back (c : UInt8) : (Int8.ofInt (TEKSTORE.charValue c)).toUInt8 = c := by
  rw [TEKSTORE.charValue, Int8.ofInt_toInt, UInt8.toUInt8_toInt8]

theorem setStore_VGstore (g : Windows) (vw : ℕ) (s : TEKSTORE) :
    (g.setStore vw s).VGstore vw = s := by
  simp only [Windows.VGstore, Windows.setStore, Windows.set, if_pos]

/-- Drawing in another window leaves the store alone. -/
theorem undisturbed_of_ne (h : dest ≠ vw) (n : ℕ) : Undisturbed font vw dest n g := by
  induction n generalizing g with
  | zero => trivial
  | succ n ih =>
    refine Or.inr ⟨?_, ih⟩
    rw [Windows.draw, Windows.VGstore, Windows.set]
    change (if vw = dest then _ else _ : VGWINTYPE).store = _
    rw [if_neg h.symm]
    exact setStore_VGstore g vw _

/-- The characters that a redraw gets before it sees the end: those before the first one
that is read as -1. -/
def readable (cs : List UInt8) : List UInt8 := cs.takeWhile (· ≠ 0xff)

theorem readable_eq_iff (cs : List UInt8) : readable cs = cs ↔ 0xff ∉ cs := by
  rw [readable, List.takeWhile_eq_self_iff]
  constructor
  · intro h hmem
    exact absurd (h _ hmem) (by decide)
  · intro h c hc
    rw [decide_eq_true_eq]
    rintro rfl
    exact h hc

/-- What is read from a cursor inside the store. -/
theorem nextTEKitem_inside {s : TEKSTORE} {k : ℕ} (hk : s.thiselnum = k)
    (h : k < s.data.length) :
    nextTEKitem s = (TEKSTORE.charValue s.data[k], { s with thiselnum := (k+1 : ℕ) }) := by
  rw [nextTEKitem, hk, if_neg (by rw [TEKSTORE.size]; omega), byte_inside h]
  rfl

theorem nextTEKitem_end {s : TEKSTORE} (h : s.thiselnum = s.size) : nextTEKitem s = (-1, s) :=
  if_pos h

/-- Reading on from the cursor `k` passes on the readable characters, and ends when they
are fewer than asked for. -/
theorem replay_passes (n : ℕ) {s : TEKSTORE} {k : ℕ} (hs : g.VGstore vw = s)
    (hk : s.thiselnum = k) (hle : k ≤ s.data.length) (hu : Undisturbed font vw dest n g) :
    (replay font vw dest n g).1 = (readable (s.data.drop k)).take n ∧
      ((replay font vw dest n g).2.1 = true ↔ (readable (s.data.drop k)).length < n) := by
  induction n generalizing g s k with
  | zero => exact ⟨(List.take_zero).symm, iff_of_false Bool.false_ne_true (Nat.not_lt_zero _)⟩
  | succ n ih =>
    rw [replay, hs]
    rw [Undisturbed, hs] at hu
    rcases Nat.lt_or_eq_of_le hle with hlt | heq
    · have hdrop : s.data.drop k = s.data[k] :: s.data.drop (k+1) := List.drop_eq_getElem_cons hlt
      rw [nextTEKitem_inside hk hlt] at hu ⊢
      by_cases hend : s.data[k] = 0xff
      · -- the character is taken for the end
        have hnone : readable (s.data.drop k) = [] := by
          rw [hdrop, readable, List.takeWhile_cons_of_neg (by simp [hend])]
        rw [if_pos (charValue_ne.mpr hend), hnone]
        exact ⟨rfl, iff_of_true rfl (Nat.succ_pos n)⟩
      · have hread : readable (s.data.drop k) = s.data[k] :: readable (s.data.drop (k+1)) := by
          rw [hdrop, readable, List.takeWhile_cons_of_pos (by simp [hend])]
          rfl
        have hne : TEKSTORE.charValue s.data[k] ≠ -1 := fun h => hend (charValue_ne.mp h)
        obtain ⟨hstore, hrest⟩ := hu.resolve_left hne
        obtain ⟨hpass, hdone⟩ := ih hstore rfl hlt hrest
        rw [if_neg hne, hread]
        constructor
        · rw [List.take_succ_cons, ← hpass, charValue_back]
        · rw [List.length_cons, Nat.add_lt_add_iff_right]
          exact hdone
    · have hnone : s.data.drop k = [] := List.drop_eq_nil_of_le heq.ge
      rw [nextTEKitem_end (by rw [hk, heq, TEKSTORE.size]), if_pos rfl, hnone]
      exact ⟨rfl, iff_of_true rfl (Nat.succ_pos n)⟩

/-- Reading on in two parts. -/
theorem replay_add (m n : ℕ) (g : Windows) : replay font vw dest (m+n) g =
    if (replay font vw dest m g).2.1 then replay font vw dest m g
    else ((replay font vw dest m g).1 ++ (replay font vw dest n (replay font vw dest m g).2.2).1,
      (replay font vw dest n (replay font vw dest m g).2.2).2) := by
  induction m generalizing g with
  | zero =>
    rw [Nat.zero_add]
    rfl
  | succ m ih =>
    rw [Nat.succ_add_eq_add_succ, Nat.add_succ, replay, replay]
    by_cases hend : (nextTEKitem (g.VGstore vw)).1 = -1
    · simp only [if_pos hend, if_true]
    · simp only [if_neg hend, ih]
      split_ifs <;> rfl

/-- A redraw from the top passes on the readable characters. -/
theorem VGredraw_passes
    (hu : ∀ n, Undisturbed font vw dest n (g.setStore vw (topTEKstore (g.VGstore vw)))) :
    (VGredraw font g vw dest).1 = readable (g.VGstore vw).data ∧
      (VGredraw font g vw dest).2.1 = true := by
  have hlen : (readable (g.VGstore vw).data).length ≤ (g.VGstore vw).data.length :=
    (List.takeWhile_prefix _).length_le
  have hstore := setStore_VGstore g vw (topTEKstore (g.VGstore vw))
  obtain ⟨hpass, hend⟩ := replay_passes (2*(g.VGstore vw).data.length+2) hstore
    (k := 0) rfl (Nat.zero_le _) (hu _)
  rw [VGredraw]
  simp only [hstore]
  change (replay font vw dest (2*(g.VGstore vw).data.length+2) _).1 = _ ∧ _
  constructor
  · rw [hpass]
    exact List.take_of_length_le (by
      change (readable (g.VGstore vw).data).length ≤ _
      omega)
  · apply hend.mpr
    change (readable (g.VGstore vw).data).length < _
    omega

theorem replay_drawing (n : ℕ) (g : Windows) :
    (replay font vw dest n g).2.2.drawing = g.drawing := by
  induction n generalizing g with
  | zero => rfl
  | succ n ih =>
    rw [replay]
    split_ifs
    · rfl
    · exact ih _

/-- A piece of a redraw that is going on is complete when the end was reported. -/
theorem VGpred_going (hd : g.drawing vw = false) :
    (VGpred font g vw dest).1 = (replay font vw dest (PREDCOUNT-1) g).1 ∧
      (VGpred font g vw dest).2.1 = (replay font vw dest (PREDCOUNT-1) g).2.1 ∧
      ((replay font vw dest (PREDCOUNT-1) g).2.1 = false →
        (VGpred font g vw dest).2.2 = (replay font vw dest (PREDCOUNT-1) g).2.2) := by
  have hkeep := congrFun (@replay_drawing font vw dest (PREDCOUNT-1) g) vw
  rw [VGpred, if_neg (by rw [hd]; exact Bool.false_ne_true)]
  generalize replay font vw dest (PREDCOUNT-1) g = r at hkeep
  cases hend : r.2.1 with
  | true =>
    refine ⟨rfl, ?_, nofun⟩
    simp only [if_pos, Windows.setDrawing]
  | false =>
    refine ⟨rfl, ?_, fun _ => rfl⟩
    exact hkeep.trans hd

/-- Pieces of a redraw that is going on make up the redraw. -/
theorem predRun_going (k : ℕ) (hd : g.drawing vw = false) :
    (predRun font vw dest k g).1 = (replay font vw dest ((PREDCOUNT-1)*k) g).1 ∧
      (predRun font vw dest k g).2.1 = (replay font vw dest ((PREDCOUNT-1)*k) g).2.1 := by
  induction k generalizing g with
  | zero => exact ⟨rfl, rfl⟩
  | succ k ih =>
    obtain ⟨hpass, hflag, hgo⟩ := @VGpred_going font g vw dest hd
    rw [predRun, Nat.mul_succ, Nat.add_comm, replay_add]
    cases hend : (replay font vw dest (PREDCOUNT-1) g).2.1 with
    | true =>
      rw [if_pos (by rw [hflag, hend]), if_pos rfl]
      exact ⟨hpass, hflag.trans hend ▸ hflag⟩
    | false =>
      have hd' : (VGpred font g vw dest).2.2.drawing vw = false := by
        rw [hgo hend, replay_drawing]
        exact hd
      obtain ⟨hrest, hflag'⟩ := ih hd'
      rw [if_neg (by rw [hflag, hend]; exact Bool.false_ne_true), if_neg Bool.false_ne_true]
      rw [hgo hend] at hrest hflag'
      rw [hgo hend]
      constructor
      · change (VGpred font g vw dest).1 ++ (predRun font vw dest k _).1 = _
        rw [hpass, hrest]
      · exact hflag'

theorem undisturbed_setDrawing (n : ℕ) (d : Bool) (h : Undisturbed font vw dest n g) :
    Undisturbed font vw dest n (g.setDrawing vw d) := by
  induction n generalizing g with
  | zero => trivial
  | succ n ih =>
    rcases h with hend | ⟨hstore, hrest⟩
    · exact Or.inl hend
    · exact Or.inr ⟨hstore, ih hrest⟩

/-- The redraw in pieces passes on the readable characters too. -/
theorem predRun_passes (hd : g.drawing vw = true)
    (hu : ∀ n, Undisturbed font vw dest n (g.setStore vw (topTEKstore (g.VGstore vw)))) :
    ∃ k, (predRun font vw dest k g).1 = readable (g.VGstore vw).data ∧
      (predRun font vw dest k g).2.1 = true := by
  let g₀ := (g.setStore vw (topTEKstore (g.VGstore vw))).setDrawing vw false
  have hlen : (readable (g.VGstore vw).data).length ≤ (g.VGstore vw).data.length :=
    (List.takeWhile_prefix _).length_le
  have hd₀ : g₀.drawing vw = false := if_pos rfl
  -- the first call begins at the top
  have hfirst (k : ℕ) : predRun font vw dest (k+1) g = predRun font vw dest (k+1) g₀ := by
    have hpred : VGpred font g vw dest = VGpred font g₀ vw dest := by
      have hgoing : ¬g₀.drawing vw = true := by
        rw [hd₀]
        exact Bool.false_ne_true
      simp only [VGpred, if_pos hd, if_neg hgoing]
      rfl
    rw [predRun, predRun, hpred]
  have hstore : g₀.VGstore vw = topTEKstore (g.VGstore vw) := setStore_VGstore g vw _
  obtain ⟨hpass, hend⟩ := replay_passes ((PREDCOUNT-1)*((g.VGstore vw).data.length+1)) hstore
    (k := 0) rfl (Nat.zero_le _) (undisturbed_setDrawing _ false (hu _))
  obtain ⟨hrun, hflag⟩ := @predRun_going font g₀ vw dest
    ((g.VGstore vw).data.length+1) hd₀
  refine ⟨(g.VGstore vw).data.length+1, ?_, ?_⟩
  · rw [hfirst, hrun, hpass]
    apply List.take_of_length_le
    change (readable (g.VGstore vw).data).length ≤ 49*_
    omega
  · rw [hfirst, hflag]
    apply hend.mpr
    change (readable (g.VGstore vw).data).length < 49*_
    omega

end Replay

/-- A store reached without removing its only character has its cursor inside, and
is drawn again completely, in one go and in pieces, exactly when it does not hold the
character 0xFF. -/
theorem tek_store_over_runs (s : TEKSTORE) (h : StoreRun StoreOp.KeepsSome s) :
    CursorInside s ∧ ∀ (font : Font) (g : Windows) (vw dest : ℕ), g.VGstore vw = s →
      g.drawing vw = true →
      (∀ n, Undisturbed font vw dest n (g.setStore vw (topTEKstore s))) →
      (Replays font g vw dest ↔ 0xff ∉ s.data) := by
  refine ⟨cursorInside_run h, ?_⟩
  rintro font g vw dest rfl hd hu
  constructor
  · intro hr
    rw [← readable_eq_iff, ← (VGredraw_passes hu).1]
    exact hr.redraw.1
  · intro hff
    have hall := (readable_eq_iff _).mpr hff
    obtain ⟨k, hpass, hend⟩ := predRun_passes hd hu
    exact ⟨⟨(VGredraw_passes hu).1.trans hall, (VGredraw_passes hu).2⟩,
      k, hpass.trans hall, hend⟩

/-- A window whose store holds the characters `cs`, all asked for again in another one. -/
def storedWindow (cs : List UInt8) : Windows where
  VGwin := fun _ =>
    { VGnewwin false true (fun _ => 0) [] with store := ⟨cs, 0, fun _ => 0⟩ }
  drawing := fun _ => true

theorem two_characters_replayed :
    Replays (fun _ _ => []) (storedWindow [65, 66]) 0 1 :=
  ((tek_store_over_runs ⟨[65, 66], 0, fun _ => 0⟩
    (.op (.add 66 true) (.op (.add 65 true) (.new _) trivial) trivial)).2 (fun _ _ => [])
    (storedWindow [65, 66]) 0 1 rfl rfl (fun n => undisturbed_of_ne (by decide) n)).mpr
    (by decide)

/-- Removing the only character puts the cursor before the store, and the character 0xFF
ends a redraw. -/
theorem tek_store_defects :
    (∃ s, StoreRun (fun _ _ => True) s ∧ s.thiselnum = -1) ∧
      ∃ s, StoreRun (fun _ _ => True) s ∧ (storedWindow [65, 0xff, 66]).VGstore 0 = s ∧
        (VGredraw (fun _ _ => []) (storedWindow [65, 0xff, 66]) 0 1).1 = [65] := by
  refine ⟨⟨_, .op (.unstore true) (.op (.add 65 true) (.new (fun _ => 0)) trivial) trivial, rfl⟩,
    _, .op (.add 66 true) (.op (.add 0xff true) (.op (.add 65 true) (.new (fun _ => 0)) trivial)
      trivial) trivial, rfl, ?_⟩
  decide

end Tek
