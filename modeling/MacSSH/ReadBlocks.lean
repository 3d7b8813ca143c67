import MacSSH.Shorts
import Mathlib.Logic.Function.Basic
import Mathlib.Tactic.Common

/-! The buffer that all sessions read their connections into. Each session has a block
size of its own, and the buffer is made longer when a session needs more. -/
namespace NetEvent

open VS

/-- The buffer, as the bytes it has, and the block sizes of the sessions. -/
structure ReadSpace where
  gReadspace : Option ℕ
  gBlocksize : ℕ → Int

/-- Before the first session. -/
def ReadSpace.start : ReadSpace := ⟨none, fun _ => 0⟩

/-- A block of memory, where the request is granted. -/
def myNewPtrCritical (len : Int) (granted : Bool) : Option ℕ :=
  if granted ∧ 0 ≤ len then some len.toNat else none

/-- Set the block size of a session. `granted` says of the two requests for memory whether
they succeed. -/
def setReadBlockSize (s : ReadSpace) (tosize : Int) (scrn : ℕ) (granted : Bool × Bool) :
    Int × ReadSpace :=
  let gBlocksize := Function.update s.gBlocksize scrn (if tosize < 512 then 512 else tosize)
  match s.gReadspace with
  | none =>
    match myNewPtrCritical (tosize+100) granted.1 with
    | none => (-1, ⟨none, gBlocksize⟩)
    | some n => (0, ⟨some n, gBlocksize⟩)
  | some n =>
    let currentSize := short n
    if currentSize < tosize+100 then
      match myNewPtrCritical (tosize+100) granted.1 with
      | some n => (0, ⟨some n, gBlocksize⟩)
      | none =>
        -- try to get the old size
        match myNewPtrCritical currentSize granted.2 with
        | none => (-1, ⟨none, gBlocksize⟩)
        | some n => (0, ⟨some n, Function.update gBlocksize scrn currentSize⟩)
    else (0, ⟨some n, gBlocksize⟩)

/-- A call: the size and the session, and which requests for memory are granted. -/
structure SizeCall where
  tosize : Int
  scrn : ℕ
  granted : Bool × Bool

/-- Calls that return 0, each made where a condition holds. -/
inductive SizeRun (fits : ReadSpace → SizeCall → Prop) : ReadSpace → Prop
  | start : SizeRun fits .start
  | call {s s' : ReadSpace} (c : SizeCall) : SizeRun fits s → fits s c →
    setReadBlockSize s c.tosize c.scrn c.granted = (0, s') → SizeRun fits s'

/-- The bytes of the buffer. -/
def ReadSpace.room (s : ReadSpace) : ℕ := s.gReadspace.getD 0

/-- A block of any session fits into the buffer. -/
def ReadSpace.Covers (s : ReadSpace) : Prop := ∀ scrn, s.gBlocksize scrn ≤ s.room

/-- The size makes a buffer for the smallest block, or there is one, and the one there is
has a size that a short holds. -/
def Roomy (s : ReadSpace) (c : SizeCall) : Prop :=
  (412 ≤ c.tosize ∨ 512 ≤ s.room) ∧ s.room ≤ 32767

section Calls
variable {s s' : ReadSpace} {tosize : Int} {scrn : ℕ} {granted : Bool × Bool}

theorem myNewPtrCritical_some {len : Int} {g : Bool} {n : ℕ}
    (h : myNewPtrCritical len g = some n) : (n : Int) = len := by
  rw [myNewPtrCritical] at h
  split_ifs at h with hg
  have hn := Option.some.inj h
  omega

/-- A call that returns 0 leaves a buffer: the old one, a longer one, or, where memory ran
out, one of the old size. -/
theorem setReadBlockSize_cases (h : setReadBlockSize s tosize scrn granted = (0, s')) :
    (s'.gBlocksize = Function.update s.gBlocksize scrn (if tosize < 512 then 512 else tosize) ∧
      ((s.gReadspace = s'.gReadspace ∧ ∃ n, s.gReadspace = some n ∧ tosize+100 ≤ short n) ∨
        ((s'.room : Int) = tosize+100 ∧ ∀ n, s.gReadspace = some n → short n < tosize+100))) ∨
    ∃ n, s.gReadspace = some n ∧ (s'.room : Int) = short n ∧
      s'.gBlocksize = Function.update s.gBlocksize scrn (short n) := by
  rw [setReadBlockSize] at h
  dsimp only at h
  split at h
  next hnone =>
    -- the first buffer
    split at h
    next => exact absurd (Prod.mk.inj h).1 (by decide)
    next n hn =>
      have hs' := (Prod.mk.inj h).2
      rw [← hs']
      refine Or.inl ⟨rfl, Or.inr ⟨myNewPtrCritical_some hn, fun m hm => ?_⟩⟩
      exact absurd (hnone.symm.trans hm) (Option.some_ne_none m).symm
  next m hm =>
    split at h
    next hsmall =>
      -- the buffer is too small: a longer one, or one of the old size when memory ran out
      split at h
      next n hn =>
        have hs' := (Prod.mk.inj h).2
        rw [← hs']
        refine Or.inl ⟨rfl, Or.inr ⟨myNewPtrCritical_some hn, fun k hk => ?_⟩⟩
        rw [← Option.some.inj (hm.symm.trans hk)]
        exact hsmall
      next =>
        split at h
        next => exact absurd (Prod.mk.inj h).1 (by decide)
        next n hn =>
          have hs' := (Prod.mk.inj h).2
          rw [← hs']
          exact Or.inr ⟨m, hm, myNewPtrCritical_some hn, Function.update_idem _ _ _⟩
    next hlarge =>
      have hs' := (Prod.mk.inj h).2
      rw [← hs']
      exact Or.inl ⟨rfl, Or.inl ⟨hm, m, hm, by omega⟩⟩

/-- Another size for one session. -/
theorem forall_update {blocks : ℕ → Int} {size bound : Int} (hsize : size ≤ bound)
    (hblocks : ∀ i, blocks i ≤ bound) : ∀ i, Function.update blocks scrn size i ≤ bound := by
  intro i
  rcases Decidable.eq_or_ne i scrn with rfl | hne
  · rw [Function.update_self]
    exact hsize
  · rw [Function.update_of_ne hne]
    exact hblocks i

theorem setReadBlockSize_covers {c : SizeCall} (hs : s.Covers) (hroomy : Roomy s c)
    (h : setReadBlockSize s c.tosize c.scrn c.granted = (0, s')) : s'.Covers := by
  obtain ⟨hsize, hshort⟩ := hroomy
  have hroom : ∀ n, s.gReadspace = some n → s.room = n := by
    intro n hn
    rw [ReadSpace.room, hn]
    rfl
  have hshort_eq : ∀ n, s.gReadspace = some n → short n = s.room := by
    intro n hn
    have hn' := hroom n hn
    rw [hn']
    apply short_eq
    · omega
    · omega
  dsimp only [ReadSpace.Covers]
  rcases setReadBlockSize_cases h with ⟨hblocks, ⟨hkept, n, hn, hlarge⟩ | ⟨hnew, hsmall⟩⟩ |
    ⟨n, hn, hold, hblocks⟩
  · -- the old buffer is kept, for it was long enough
    have hsame : s'.room = s.room := by rw [ReadSpace.room, ReadSpace.room, hkept]
    have hn' := hshort_eq n hn
    rw [hblocks, hsame]
    apply forall_update _ hs
    split_ifs
    · omega
    · omega
  · -- the new buffer has all that the old one had
    have hgrows : s.room ≤ s'.room ∧ (s.room = 0 ∨ s.room < s'.room) := by
      cases hspace : s.gReadspace with
      | none =>
        have hnone : s.room = 0 := by rw [ReadSpace.room, hspace]; rfl
        omega
      | some n =>
        have hless := hsmall n hspace
        rw [hshort_eq n hspace, ← hnew] at hless
        omega
    rw [hblocks]
    apply forall_update
    · split_ifs
      · omega
      · omega
    · intro i
      have hi := hs i
      omega
  · -- the size asked for is given up, and the old one is set for this session
    have hn' := hshort_eq n hn
    rw [hblocks, hold, hn']
    exact forall_update (Int.le_refl _) hs

/-- Every block fits after calls that return 0, each made where there is room. -/
theorem readspace_covers (h : SizeRun Roomy s) : s.Covers := by
  induction h with
  | start => exact fun scrn => Int.le_refl 0
  | call c _ hroomy hcall ih => exact setReadBlockSize_covers ih hroomy hcall

end Calls

/-- Two sessions, where the memory for the longer block of the second is not granted. -/
theorem two_sessions_covered : ∃ s, SizeRun Roomy s ∧ s.gReadspace = some 1124 ∧
    s.gBlocksize 0 = 1024 ∧ s.gBlocksize 1 = 1124 ∧ s.Covers := by
  let first : ReadSpace := ⟨some 1124, Function.update ReadSpace.start.gBlocksize 0 1024⟩
  let both : ReadSpace := ⟨some 1124, Function.update first.gBlocksize 1 1124⟩
  have hfirst : SizeRun Roomy first :=
    .call ⟨1024, 0, (true, true)⟩ .start ⟨Or.inl (by decide), by decide⟩ rfl
  have hboth : SizeRun Roomy both := by
    apply SizeRun.call ⟨4096, 1, (false, true)⟩ hfirst ⟨Or.inl (by decide), by decide⟩
    exact congrArg (fun b => (0, ReadSpace.mk (some 1124) b)) (Function.update_idem _ _ _)
  exact ⟨both, hboth, rfl, rfl, rfl, readspace_covers hboth⟩

/-- Sizes of 32700 and 600: the size of the first buffer is negative as a short, and the
second session makes it shorter. -/
theorem block_over_the_buffer : ¬ ∀ s, SizeRun (fun _ _ => True) s → s.Covers := by
  intro hall
  let first : ReadSpace := ⟨some 32800, Function.update ReadSpace.start.gBlocksize 0 32700⟩
  let both : ReadSpace := ⟨some 700, Function.update first.gBlocksize 1 600⟩
  have hfirst : SizeRun (fun _ _ => True) first :=
    .call ⟨32700, 0, (true, true)⟩ .start trivial rfl
  have hboth : SizeRun (fun _ _ => True) both :=
    .call ⟨600, 1, (true, true)⟩ hfirst trivial rfl
  exact absurd (hall both hboth 0) (by decide)

end NetEvent
