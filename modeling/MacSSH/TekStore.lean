import MacSSH.Shorts
import Mathlib.Tactic.Common

/-! The store that keeps the characters sent to a Tektronix window, from which the
picture is drawn again. -/
namespace Tek

open VS

/-- The characters, in one block, and the read cursor. `outside` is what the memory
around the block holds. -/
structure TEKSTORE where
  data : List UInt8
  thiselnum : Int
  outside : Int → UInt8

namespace TEKSTORE

def size (s : TEKSTORE) : Int := s.data.length

/-- The byte at an offset of the block. -/
def byte (s : TEKSTORE) (i : Int) : UInt8 :=
  if 0 ≤ i ∧ i < s.size then s.data.getD i.toNat 0 else s.outside i

/-- A `char` as the `short` that it is read as. -/
def charValue (c : UInt8) : Int := c.toInt8.toInt

end TEKSTORE

def newTEKstore (outside : Int → UInt8) : TEKSTORE where
  data := []
  thiselnum := 0
  outside := outside

/-- Add a character; `granted` says whether the block can grow. -/
def addTEKstore (s : TEKSTORE) (d : UInt8) (granted : Bool) : Int × TEKSTORE :=
  if granted then (0, { s with data := s.data ++ [d] }) else (-1, s)

/-- The read cursor goes to the first character. -/
def topTEKstore (s : TEKSTORE) : TEKSTORE := { s with thiselnum := 0 }

/-- Read the next character, or -1 at the end. -/
def nextTEKitem (s : TEKSTORE) : Int × TEKSTORE :=
  if s.thiselnum = s.size then (-1, s)
  else (TEKSTORE.charValue (s.byte s.thiselnum), { s with thiselnum := s.thiselnum+1 })

/-- Remove the last character; `granted` says whether the block can shrink. -/
def TEKunstore (s : TEKSTORE) (granted : Bool) : Int × TEKSTORE :=
  if s.size = 0 then (-1, s)
  else if granted then
    let handlesize := s.size-1
    let s := { s with data := s.data.dropLast }
    (0, if s.thiselnum ≥ handlesize then { s with thiselnum := handlesize-1 } else s)
  else (-1, s)

/-- The read cursor is inside the store. -/
def CursorInside (s : TEKSTORE) : Prop := 0 ≤ s.thiselnum ∧ s.thiselnum ≤ s.size

inductive StoreOp where
  | add (d : UInt8) (granted : Bool)
  | unstore (granted : Bool)
  | top
  | next
  | clear

def StoreOp.apply (s : TEKSTORE) : StoreOp → TEKSTORE
  | add d granted => (addTEKstore s d granted).2
  | unstore granted => (TEKunstore s granted).2
  | top => topTEKstore s
  | next => (nextTEKitem s).2
  | clear => newTEKstore s.outside

/-- The operation does not remove the only character of the store. -/
def StoreOp.KeepsSome (s : TEKSTORE) : StoreOp → Prop
  | unstore granted => granted = true → s.size ≠ 1
  | _ => True

/-- The stores reached from a new one by operations that meet `P`. -/
inductive StoreRun (P : TEKSTORE → StoreOp → Prop) : TEKSTORE → Prop
  | new (outside : Int → UInt8) : StoreRun P (newTEKstore outside)
  | op {s : TEKSTORE} (o : StoreOp) : StoreRun P s → P s o → StoreRun P (o.apply s)

section Cursor
variable {s : TEKSTORE}

theorem byte_inside {i : ℕ} (h : i < s.data.length) : s.byte i = s.data[i] := by
  rw [TEKSTORE.byte, TEKSTORE.size, if_pos (by omega), Int.toNat_natCast,
    List.getD_eq_getElem?_getD, List.getElem?_eq_getElem h, Option.getD_some]

theorem size_nonneg (s : TEKSTORE) : 0 ≤ s.size := Int.natCast_nonneg _

theorem TEKunstore_refused : (TEKunstore s false).2 = s := by
  rw [TEKunstore, if_neg Bool.false_ne_true]
  split_ifs <;> rfl

theorem TEKunstore_empty (h : s.size = 0) (granted : Bool) : (TEKunstore s granted).2 = s := by
  rw [TEKunstore, if_pos h]

theorem TEKunstore_granted (h : s.size ≠ 0) : (TEKunstore s true).2 = { s with
    data := s.data.dropLast
    thiselnum := if s.thiselnum ≥ s.size-1 then s.size-2 else s.thiselnum } := by
  rw [TEKunstore, if_neg h, if_pos rfl]
  have htwo : s.size-1-1 = s.size-2 := by omega
  simp only [htwo]
  split_ifs <;> rfl

/-- An operation keeps the cursor inside exactly when it does not remove the only
character. -/
theorem cursorInside_step (hs : CursorInside s) (o : StoreOp) :
    CursorInside (o.apply s) ↔ o.KeepsSome s := by
  have hsize := size_nonneg s
  cases o with
  | add d granted =>
    apply iff_of_true _ trivial
    cases granted with
    | false => exact hs
    | true =>
      refine ⟨hs.1, ?_⟩
      have h1 : s.thiselnum ≤ s.data.length := hs.2
      change s.thiselnum ≤ ((s.data ++ [d]).length : Int)
      rw [List.length_append, List.length_singleton]
      omega
  | top =>
    apply iff_of_true _ trivial
    exact ⟨Int.le_refl 0, hsize⟩
  | next =>
    apply iff_of_true _ trivial
    change CursorInside (nextTEKitem s).2
    obtain ⟨h0, h1⟩ := hs
    rw [nextTEKitem]
    split_ifs with hend
    · exact ⟨h0, h1⟩
    · change 0 ≤ s.thiselnum+1 ∧ s.thiselnum+1 ≤ s.size
      omega
  | clear => exact iff_of_true ⟨Int.le_refl 0, Int.le_refl 0⟩ trivial
  | unstore granted =>
    change CursorInside (TEKunstore s granted).2 ↔ (granted = true → s.size ≠ 1)
    cases granted with
    | false => exact iff_of_true (TEKunstore_refused.symm ▸ hs) nofun
    | true =>
      by_cases hempty : s.size = 0
      · exact iff_of_true ((TEKunstore_empty hempty true).symm ▸ hs) (fun _ => by omega)
      have hcut : ((s.data.dropLast).length : Int) = s.size-1 := by
        rw [TEKSTORE.size] at hempty ⊢
        rw [List.length_dropLast]
        omega
      obtain ⟨h0, h1⟩ := hs
      rw [TEKunstore_granted hempty, CursorInside]
      change (0 ≤ (if s.thiselnum ≥ s.size-1 then s.size-2 else s.thiselnum) ∧
        (if s.thiselnum ≥ s.size-1 then s.size-2 else s.thiselnum) ≤
          (s.data.dropLast.length : Int)) ↔ _
      rw [hcut, imp_iff_right rfl]
      split_ifs <;> omega

/-- In every run that never removes the only character the cursor is inside. -/
theorem cursorInside_run (h : StoreRun StoreOp.KeepsSome s) : CursorInside s := by
  induction h with
  | new outside => exact ⟨Int.le_refl 0, Int.le_refl 0⟩
  | op o _ ho ih => exact (cursorInside_step ih o).mpr ho

end Cursor

end Tek
