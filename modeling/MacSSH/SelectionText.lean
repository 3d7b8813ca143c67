import MacSSH.SelectionRows
import MacSSH.SelectionCopy
import MacSSH.Emulation
import MacSSH.InsertChars
import Mathlib.Algebra.GroupWithZero.Nat

/-! The text of a selection: what is copied of each row, within the room that is left. -/
namespace VS

open Linked

/-- `n` characters of a line from column `x` on. -/
def VSbuf.textFrom (b : VSbuf) (p : Ptr) (x n : Int) : List UInt8 :=
  (List.range n.toNat).map fun i : ℕ => b.mem.text p (x+i)

def VSiswrap (lattr : BitVec 16) : Bool := lattr &&& kVSwrap != 0

/-- What is asked of a copy: the room in the buffer, the end-of-line sequence, the least run of
blanks that becomes a tab, and whether trailing blanks are dropped. For a single line the
preferences must say so too. -/
structure CopyRequest where
  max : Int
  EOLS : List UInt8
  table : Int
  clipspaces : Bool
  clipTrailingSpaces : Bool

namespace VSscrn

/-- `*charp++ = *EOLS` -/
def putEOL (EOLS : List UInt8) (out : Out) : Out := out.put (EOLS.headD 0)

/-- The lines between the first and the last one, with the old scrollback. -/
def oldMiddle (s : VSscrn) (r : CopyRequest) (noClip : Bool) (ly : Int) :
    ℕ → Int → Ptr → Out → Option (Ptr × Out)
  | 0, _, t, out => some (t, out)
  | turns+1, uy, t, out =>
    if uy < ly ∧ uy < s.buf.lines then do
      let len := if s.maxwidth+1 < r.max then s.maxwidth+1 else r.max-out.text.length
      let out ← VSIstrcopy (s.buf.textFrom t 0 (short len)) out r.table noClip
      oldMiddle s r noClip ly turns (uy+1) (s.buf.mem.advance t) (putEOL r.EOLS out)
    else some (t, out)

/-- Copy the text of a selection, with the old scrollback. -/
def VSOgettext (s : VSscrn) (x1 y1 x2 y2 : Int) (r : CopyRequest) : Option Out :=
  let maxwid := s.maxwidth
  -- the lower and upper bounds are put in order, columns and rows each for themselves
  let (ux, lx) := if x1 < x2 then (x1, x2) else (x2, x1)
  let (uy, ly) := if y1 < y2 then (y1, y2) else (y2, y1)
  let (ux, uy) := if uy < -s.buf.numlines then (-1, -s.buf.numlines) else (ux, uy)
  let ly := if ly < -s.buf.numlines then -s.buf.numlines else ly
  let out : Out := ⟨[], 0⟩
  let t := VSIGetLineStart s.buf uy
  if uy = ly then do
    let noClip := !(r.clipspaces && r.clipTrailingSpaces)
    let len := if lx-ux < r.max then lx-ux else r.max
    let out ← VSIstrcopy (s.buf.textFrom t (ux+1) (short len)) out r.table noClip
    return if lx = maxwid then putEOL r.EOLS out else out
  else do
    let noClip := !r.clipspaces
    let len := if maxwid-ux < r.max then maxwid-ux else r.max
    let out ← VSIstrcopy (s.buf.textFrom t (ux+1) (short len)) out r.table noClip
    let (t, out) ← s.oldMiddle r noClip ly (ly-uy-1).toNat (uy+1) (s.buf.mem.advance t)
      (putEOL r.EOLS out)
    let lx := if ly > s.buf.lines then maxwid else lx
    let len := if lx+1 < r.max then lx+1 else r.max-out.text.length
    let out ← VSIstrcopy (s.buf.textFrom t 0 (short len)) out r.table noClip
    return if lx ≥ maxwid then putEOL r.EOLS out else out

/-- The loop over the rows from `y1` to `ly`, of which `ypt` is the line. -/
def gettextLoop (s : VSscrn) (r : CopyRequest) (clipspaces : Bool) (lx ly : Int) :
    ℕ → Int → Int → Ptr → Int → Out → Option Out
  | 0, _, _, _, _, out => some out
  | turns+1, y1, x1, ypt, max, out =>
    let elen := short r.EOLS.length
    if y1 ≤ ly ∧ max ≥ elen then
      -- get text from on-screen buffer
      let ypt := if y1 = 0 then s.buf.row 0 else ypt
      let x2 := if y1 = ly then lx else s.maxwidth
      let outlen := short (x2-x1+1)
      let outlen := if outlen > max then short max else outlen
      let wraps := VSiswrap (s.buf.mem.lattr ypt)
      match VSIstrcopy (s.buf.textFrom ypt x1 outlen) out r.table (!clipspaces || wraps) with
      | none => none
      | some copied =>
        let max := max-(copied.text.length-out.text.length)
        if max ≥ elen ∧ wraps = false ∧ y1 ≠ ly then
          gettextLoop s r clipspaces lx ly turns (y1+1) 0 (s.buf.next ypt) (max-elen)
            (copied.strcpy r.EOLS)
        else gettextLoop s r clipspaces lx ly turns (y1+1) 0 (s.buf.next ypt) max copied
    else some out

/-- Copy the text of a selection; `none` when the copy does not end. -/
def VSgettext (s : VSscrn) (x1 y1 x2 y2 : Int) (r : CopyRequest) : Option Out :=
  if s.buf.oldScrollback then s.VSOgettext x1 y1 x2 y2 r
  else
    let d := s.bounds x1 y1 x2 y2
    let clipspaces := if d.uy = d.ly then r.clipspaces && r.clipTrailingSpaces else r.clipspaces
    s.gettextLoop r clipspaces d.lx d.ly (d.ly-d.uy+1).toNat d.uy (d.ux+1)
      (VSIGetLineStart s.buf d.uy) r.max ⟨[], 0⟩

end VSscrn

/-- What is selected of one row, and whether the row is wrapped. -/
structure Part where
  cells : List UInt8
  wraps : Bool

/-- The columns of row `y` that are selected. -/
def Bounds.columnsOf (d : Bounds) (maxwidth y : Int) : Int × Int :=
  (if y = d.uy then d.ux+1 else 0, if y = d.ly then d.lx else maxwidth)

/-- What is selected of row `y`. -/
def VSscrn.part (s : VSscrn) (d : Bounds) (y : Int) : Part :=
  let (first, last) := d.columnsOf s.maxwidth y
  ⟨s.buf.textFrom (s.buf.viewLine y) first (last-first+1),
    VSiswrap (s.buf.mem.lattr (s.buf.viewLine y))⟩

/-- What is selected, row by row. -/
def VSscrn.parts (s : VSscrn) (d : Bounds) : List Part := (loopRange d.uy d.ly).map (s.part d)

/-- Whether trailing blanks are to be dropped. -/
def CopyRequest.clips (r : CopyRequest) (d : Bounds) : Bool :=
  if d.uy = d.ly then r.clipspaces && r.clipTrailingSpaces else r.clipspaces

/-- The text of one row; that of a wrapped row keeps its trailing blanks. -/
def CopyRequest.textOf (r : CopyRequest) (clips : Bool) (p : Part) : List UInt8 :=
  partText r.table (!clips || p.wraps) p.cells

/-- The text of the rows, with line ends after all but the last one and the wrapped ones. -/
def CopyRequest.textOfAll (r : CopyRequest) (clips : Bool) : List Part → List UInt8
  | [] => []
  | [p] => r.textOf clips p
  | p :: ps => r.textOf clips p ++ (if p.wraps then [] else r.EOLS) ++ r.textOfAll clips ps

/-- The room that the rows may need. -/
def CopyRequest.roomFor (r : CopyRequest) (ps : List Part) : ℕ :=
  (ps.map fun p => p.cells.length+r.EOLS.length).sum

/-- The text of a selection is right: the copy ends, stores no more than `max` bytes, is the
text that is selected when there is room for it, and does not depend on the order of the end
points. -/
structure CopiesSelection (s : VSscrn) (x1 y1 x2 y2 : Int) (r : CopyRequest) : Prop where
  ends : ∃ out, s.VSgettext x1 y1 x2 y2 r = some out ∧ out.reach ≤ r.max.toNat ∧
    (r.roomFor (s.parts (s.bounds x1 y1 x2 y2)) ≤ r.max →
      out.text = r.textOfAll (r.clips (s.bounds x1 y1 x2 y2)) (s.parts (s.bounds x1 y1 x2 y2)))
  swap : s.VSgettext x2 y2 x1 y1 r = s.VSgettext x1 y1 x2 y2 r

/-- The part of a row that there is room for. -/
def Part.within (p : Part) (room : Int) : Part := ⟨p.cells.take room.toNat, p.wraps⟩

/-- The bytes that are left behind the text of a row. -/
def CopyRequest.left (r : CopyRequest) (clips : Bool) (p : Part) (room : Int) : Int :=
  room-(r.textOf clips (p.within room)).length

/-- The bytes that are left behind a line end, when there is room for it. -/
def CopyRequest.leftBehind (r : CopyRequest) (room : Int) : Int :=
  if r.EOLS.length ≤ room then room-r.EOLS.length else room

/-- With `room` bytes left, no row is copied that ends in a lone blank, and no line end takes
just the bytes that are left. -/
def CopyRequest.Fits (r : CopyRequest) (clips : Bool) : List Part → Int → Prop
  | [], _ => True
  | p :: ps, room =>
    room < r.EOLS.length ∨ CopyEnds r.table (!clips || p.wraps) (p.within room).cells ∧
      if p.wraps = true ∨ ps = [] then r.Fits clips ps (r.left clips p room)
      else r.left clips p room ≠ r.EOLS.length ∧
        r.Fits clips ps (r.leftBehind (r.left clips p room))

instance CopyRequest.decidableFits (r : CopyRequest) (clips : Bool) :
    (ps : List Part) → (room : Int) → Decidable (r.Fits clips ps room)
  | [], _ => isTrue trivial
  | p :: ps, room =>
    have (room : Int) : Decidable (r.Fits clips ps room) := decidableFits r clips ps room
    inferInstanceAs (Decidable (room < r.EOLS.length ∨
      CopyEnds r.table (!clips || p.wraps) (p.within room).cells ∧
        if p.wraps = true ∨ ps = [] then r.Fits clips ps (r.left clips p room)
        else r.left clips p room ≠ r.EOLS.length ∧
          r.Fits clips ps (r.leftBehind (r.left clips p room))))

/-- The loop over the rows, on what is selected of them. -/
def CopyRequest.copyParts (r : CopyRequest) (clips : Bool) : List Part → Int → Out → Option Out
  | [], _, out => some out
  | p :: ps, room, out =>
    if room ≥ r.EOLS.length then
      match VSIstrcopy (p.within room).cells out r.table (!clips || p.wraps) with
      | none => none
      | some copied =>
        let left := room-(copied.text.length-out.text.length)
        if left ≥ r.EOLS.length ∧ p.wraps = false ∧ ps ≠ [] then
          r.copyParts clips ps (left-r.EOLS.length) (copied.strcpy r.EOLS)
        else r.copyParts clips ps left copied
    else some out

section Walk
variable {s : VSscrn} {r : CopyRequest} {d : Bounds}

theorem textFrom_take (b : VSbuf) (p : Ptr) (x : Int) {n room : Int} (hroom : 0 ≤ room) :
    b.textFrom p x (if n > room then room else n) = (b.textFrom p x n).take room.toNat := by
  rw [VSbuf.textFrom, VSbuf.textFrom, ← List.map_take, List.take_range]
  congr 2
  split_ifs <;> omega

/-- The length that is copied is cut to the room that is left. -/
theorem cut_eq {n room : Int} (hn : 0 ≤ n) (hn' : n ≤ 32767) (hroom : 0 ≤ room) :
    (if short n > room then short room else short n) = if n > room then room else n := by
  rw [short_eq (by omega) hn']
  split_ifs with hbig
  · exact short_eq (by omega) (by omega)
  · rfl

theorem loopRange_nil {first last : Int} (h : last < first) : loopRange first last = [] := by
  rw [loopRange, show (last-first+1).toNat = 0 by omega]
  rfl

theorem columnsOf_range (h : Selectable s) (hd : d.Inside s) (y : Int) :
    0 ≤ (d.columnsOf s.maxwidth y).1 ∧
      (d.columnsOf s.maxwidth y).1 ≤ (d.columnsOf s.maxwidth y).2+1 ∧
      (d.columnsOf s.maxwidth y).2 ≤ s.maxwidth := by
  obtain ⟨hux, hlx, -, -, -, hcolumns⟩ := hd
  have hwidth := h.width
  simp only [Bounds.columnsOf]
  split_ifs with hfirst hlast hlast
  · have hxs := hcolumns (hfirst.symm.trans hlast)
    omega
  · omega
  · omega
  · omega

/-- The lines that the loop walks along are those of the rows. -/
theorem gettextLoop_parts (h : Selectable s) (hd : d.Inside s) (hE : r.EOLS.length ≤ 32767)
    (clips : Bool) (n : ℕ) {y : Int} (hn : n = (d.ly-y+1).toNat) (hy : d.uy ≤ y) (room : Int)
    (out : Out) {ypt : Ptr} (hypt : y ≤ d.ly → ypt = s.buf.viewLine y) :
    s.gettextLoop r clips d.lx d.ly n y (d.columnsOf s.maxwidth y).1 ypt room out =
      r.copyParts clips ((loopRange y d.ly).map (s.part d)) room out := by
  have hwidth := h.width
  induction n generalizing y room out ypt with
  | zero =>
    rw [loopRange_nil (by omega)]
    rfl
  | succ n ih =>
    have hle : y ≤ d.ly := by omega
    have hly := hd.ly
    have huy := hd.uy
    obtain ⟨hcol, hcol', hcol''⟩ := columnsOf_range h hd y
    have helen : short r.EOLS.length = r.EOLS.length := short_eq (by omega) (by omega)
    -- the line is that of the row, on the screen too
    have hline : (if y = 0 then s.buf.row 0 else ypt) = s.buf.viewLine y := by
      split_ifs with hzero
      · rw [hzero, h.followed.viewLine_zero]
      · exact hypt hle
    have hlast : (if y = d.ly then d.lx else s.maxwidth) = (d.columnsOf s.maxwidth y).2 := rfl
    rw [loopRange_cons hle, List.map_cons, VSscrn.gettextLoop, CopyRequest.copyParts]
    simp only [helen, hline, hlast]
    by_cases hroom : room ≥ r.EOLS.length
    · have hpos : 0 ≤ room := le_trans (Int.natCast_nonneg _) hroom
      have hcut := @cut_eq ((d.columnsOf s.maxwidth y).2-(d.columnsOf s.maxwidth y).1+1) room
        (by omega) (by omega) hpos
      have hcells : s.buf.textFrom (s.buf.viewLine y) (d.columnsOf s.maxwidth y).1
          (if (d.columnsOf s.maxwidth y).2-(d.columnsOf s.maxwidth y).1+1 > room then room
            else (d.columnsOf s.maxwidth y).2-(d.columnsOf s.maxwidth y).1+1) =
          ((s.part d y).within room).cells := textFrom_take _ _ _ hpos
      have hwraps : VSiswrap (s.buf.mem.lattr (s.buf.viewLine y)) = (s.part d y).wraps := rfl
      rw [if_pos ⟨hle, hroom⟩, if_pos hroom, hcut, hcells, hwraps]
      cases VSIstrcopy ((s.part d y).within room).cells out r.table
        (!clips || (s.part d y).wraps) with
      | none => rfl
      | some copied =>
        have hnext : (d.columnsOf s.maxwidth (y+1)).1 = 0 := by
          simp only [Bounds.columnsOf]
          rw [if_neg (by omega)]
        have hmore : (loopRange (y+1) d.ly).map (s.part d) ≠ [] ↔ y ≠ d.ly := by
          constructor
          · rintro hne rfl
            rw [loopRange_nil (by omega)] at hne
            exact hne rfl
          · intro hne
            rw [loopRange_cons (by omega)]
            exact List.cons_ne_nil _ _
        have hline' : y+1 ≤ d.ly → s.buf.next (s.buf.viewLine y) = s.buf.viewLine (y+1) :=
          fun hlt => (h.followed.next_viewLine (by omega) (by omega)).1
        have hrest (room : Int) (out : Out) := ih (by omega) (by omega) room out hline'
        rw [hnext] at hrest
        simp only [hmore]
        split_ifs
        · exact hrest _ _
        · exact hrest _ _
    · rw [if_neg (fun hboth => hroom hboth.2), if_neg hroom]

/-- A copy from a screen is one of the parts of its rows. -/
theorem VSgettext_parts (h : Selectable s) (hE : r.EOLS.length ≤ 32767) (x1 y1 x2 y2 : Int) :
    s.VSgettext x1 y1 x2 y2 r =
      r.copyParts (r.clips (s.bounds x1 y1 x2 y2)) (s.parts (s.bounds x1 y1 x2 y2)) r.max
        ⟨[], 0⟩ := by
  have hd := bounds_inside h x1 y1 x2 y2
  have hlinked : ¬s.buf.oldScrollback = true := by
    rw [h.followed.linked]
    exact Bool.false_ne_true
  rw [VSscrn.VSgettext, if_neg hlinked]
  generalize s.bounds x1 y1 x2 y2 = d at hd ⊢
  have hrows := hd.rows
  have hly := hd.ly
  have hloop := @gettextLoop_parts s r d h hd hE (r.clips d) (d.ly-d.uy+1).toNat d.uy rfl le_rfl
    r.max ⟨[], 0⟩ (VSIGetLineStart s.buf d.uy)
    (fun _ => h.followed.lineStart h.counted hd.uy (by omega))
  have hfirst : (d.columnsOf s.maxwidth d.uy).1 = d.ux+1 := if_pos rfl
  rw [hfirst] at hloop
  exact hloop

end Walk

section Budget
variable {r : CopyRequest} {clips : Bool}

@[simp] theorem strcpy_text (dest : Out) (l : List UInt8) : (dest.strcpy l).text = dest.text ++ l :=
  put_text dest l

theorem strcpy_reach (dest : Out) (l : List UInt8) : dest.reach ≤ (dest.strcpy l).reach ∧
    dest.text.length+l.length+1 ≤ (dest.strcpy l).reach ∧
    (dest.strcpy l).reach ≤ max dest.reach (dest.text.length+l.length+1) := by
  obtain ⟨hlow, hhigh⟩ := put_reach dest l
  simp only [Out.strcpy, put_text, List.length_append]
  omega

/-- The copy of a part that there is room for. -/
theorem within_copied {p : Part} {room : Int} (hroom : 0 ≤ room)
    (hends : CopyEnds r.table (!clips || p.wraps) (p.within room).cells) (out : Out) :
    ∃ copied, VSIstrcopy (p.within room).cells out r.table (!clips || p.wraps) = some copied ∧
      copied.text = out.text ++ r.textOf clips (p.within room) ∧ out.reach ≤ copied.reach ∧
      (copied.reach : Int) ≤ max (out.reach : Int) (out.text.length+room) ∧
      ((r.textOf clips (p.within room)).length : Int) ≤ room := by
  obtain ⟨copied, hrun, htext, hlow, hhigh⟩ := VSIstrcopy_ends hends out
  have hcut : (p.within room).cells.length ≤ room.toNat := List.length_take_le _ _
  have hshort : (r.textOf clips (p.within room)).length ≤ (p.within room).cells.length :=
    partText_length _ _ _
  exact ⟨copied, hrun, htext, hlow, by omega, by omega⟩

theorem copyParts_mono {ps : List Part} {room : Int} {out out' : Out}
    (h : r.copyParts clips ps room out = some out') : out.reach ≤ out'.reach := by
  induction ps generalizing room out with
  | nil => exact (congrArg Out.reach (Option.some.inj h)).le
  | cons p ps ih =>
    rw [CopyRequest.copyParts] at h
    split_ifs at h with hroom
    · have hpos : 0 ≤ room := le_trans (Int.natCast_nonneg _) hroom
      by_cases hends : CopyEnds r.table (!clips || p.wraps) (p.within room).cells
      · obtain ⟨copied, hrun, -, hlow, -⟩ := within_copied hpos hends out
        rw [hrun] at h
        simp only at h
        split_ifs at h
        · exact hlow.trans ((strcpy_reach copied r.EOLS).1.trans (ih h))
        · exact hlow.trans (ih h)
      · rw [VSIstrcopy_stuck hends] at h
        exact absurd h (Option.some_ne_none out').symm
    · exact (congrArg Out.reach (Option.some.inj h)).le

/-- The copy ends within its room exactly when the parts fit. -/
theorem copyParts_fits (ps : List Part) {room : Int} {out : Out} {all : Int}
    (hall : 0 ≤ room → out.text.length+room = all) (hreach : out.reach ≤ all.toNat) :
    (∃ out', r.copyParts clips ps room out = some out' ∧ out'.reach ≤ all.toNat) ↔
      r.Fits clips ps room := by
  induction ps generalizing room out with
  | nil => exact iff_of_true ⟨out, rfl, hreach⟩ trivial
  | cons p ps ih =>
    rw [CopyRequest.copyParts, CopyRequest.Fits]
    simp only [CopyRequest.leftBehind]
    by_cases hroom : room ≥ r.EOLS.length
    · have hpos : 0 ≤ room := le_trans (Int.natCast_nonneg _) hroom
      have htotal := hall hpos
      rw [if_pos hroom, or_iff_right (not_lt.mpr hroom)]
      by_cases hends : CopyEnds r.table (!clips || p.wraps) (p.within room).cells
      · obtain ⟨copied, hrun, htext, hlow, hhigh, hshort⟩ := within_copied hpos hends out
        have hlen :
            copied.text.length = out.text.length+(r.textOf clips (p.within room)).length := by
          rw [htext, List.length_append]
        have hleft : room-((copied.text.length : Int)-out.text.length) = r.left clips p room := by
          rw [CopyRequest.left]
          omega
        have hbound : copied.reach ≤ all.toNat := by omega
        rw [hrun, and_iff_right hends]
        simp only [hleft]
        by_cases hplain : p.wraps = true ∨ ps = []
        · have hno : ¬(r.left clips p room ≥ r.EOLS.length ∧ p.wraps = false ∧ ps ≠ []) := by
            rintro ⟨-, hwraps, hne⟩
            rcases hplain with htrue | hnil
            · exact Bool.false_ne_true (hwraps.symm.trans htrue)
            · exact hne hnil
          rw [if_neg hno, if_pos hplain]
          exact ih (fun _ => by omega) hbound
        · rw [if_neg hplain]
          rw [not_or, Bool.not_eq_true] at hplain
          by_cases henough : (r.EOLS.length : Int) ≤ r.left clips p room
          · rw [if_pos ⟨henough, hplain⟩, if_pos henough]
            obtain ⟨-, hstored, hstored'⟩ := strcpy_reach copied r.EOLS
            by_cases hjust : r.left clips p room = r.EOLS.length
            · -- the NUL behind the line end is beyond the room
              refine iff_of_false ?_ (fun hfits => hfits.1 hjust)
              rintro ⟨out', hout', hreach'⟩
              have hmono := copyParts_mono hout'
              omega
            · rw [and_iff_right hjust]
              apply ih
              · intro _
                rw [strcpy_text, List.length_append]
                omega
              · omega
          · rw [if_neg (fun hall => henough hall.1), if_neg henough,
              and_iff_right (fun hjust => henough hjust.ge)]
            exact ih (fun _ => by omega) hbound
      · rw [VSIstrcopy_stuck hends]
        refine iff_of_false ?_ (fun hboth => hends hboth.1)
        rintro ⟨out', hout', -⟩
        exact absurd hout' (Option.some_ne_none out').symm
    · rw [if_neg hroom]
      exact iff_of_true ⟨out, rfl, hreach⟩ (Or.inl (not_le.mp hroom))

theorem textOfAll_cons (r : CopyRequest) (clips : Bool) (p : Part) (ps : List Part) :
    r.textOfAll clips (p :: ps) = r.textOf clips p ++
      ((if p.wraps = false ∧ ps ≠ [] then r.EOLS else []) ++ r.textOfAll clips ps) := by
  cases ps with
  | nil =>
    rw [if_neg (fun h => h.2 rfl)]
    exact (List.append_nil _).symm
  | cons q ps =>
    rw [CopyRequest.textOfAll, List.append_assoc]
    · cases p.wraps with
      | false => rw [if_neg Bool.false_ne_true, if_pos ⟨rfl, List.cons_ne_nil _ _⟩]
      | true => rw [if_pos rfl, if_neg (fun h => Bool.false_ne_true h.1.symm)]
    · exact List.cons_ne_nil _ _

/-- With room for all of them, the text of all parts is copied. -/
theorem copyParts_text {ps : List Part} {room : Int} {out out' : Out}
    (hroom : r.roomFor ps ≤ room) (h : r.copyParts clips ps room out = some out') :
    out'.text = out.text ++ r.textOfAll clips ps := by
  induction ps generalizing room out with
  | nil =>
    rw [← Option.some.inj h]
    exact (List.append_nil _).symm
  | cons p ps ih =>
    have hsum : r.roomFor (p :: ps) = p.cells.length+r.EOLS.length+r.roomFor ps := by
      rw [CopyRequest.roomFor, List.map_cons, List.sum_cons]
      rfl
    rw [hsum] at hroom
    have hwhole : p.within room = p := by
      rw [Part.within, List.take_of_length_le (by omega)]
    rw [CopyRequest.copyParts, if_pos (by omega)] at h
    by_cases hends : CopyEnds r.table (!clips || p.wraps) (p.within room).cells
    · obtain ⟨copied, hrun, htext, -⟩ := within_copied (by omega) hends out
      rw [hwhole] at htext
      have hlen : copied.text.length = out.text.length+(r.textOf clips p).length := by
        rw [htext, List.length_append]
      have hshort : (r.textOf clips p).length ≤ p.cells.length := partText_length _ _ _
      rw [hrun] at h
      simp only at h
      rw [textOfAll_cons]
      split_ifs at h with hmore
      · have hrest := ih (by omega) h
        rw [hrest, strcpy_text, htext, if_pos hmore.2]
        simp only [List.append_assoc]
      · have hno : ¬(p.wraps = false ∧ ps ≠ []) := fun hboth => hmore ⟨by omega, hboth⟩
        have hrest := ih (by omega) h
        rw [hrest, htext, if_neg hno, List.nil_append, List.append_assoc]
    · rw [VSIstrcopy_stuck hends] at h
      exact absurd h (Option.some_ne_none out').symm

end Budget

/-- The text of a selection is right if and only if, within `max`, no line end takes just the
bytes that are left and, with a table, no row that keeps its trailing blanks ends in a lone
one. -/
theorem selection_text_iff (s : VSscrn) (x1 y1 x2 y2 : Int) (r : CopyRequest) (h : Selectable s)
    (hE : r.EOLS.length ≤ 32767) :
    CopiesSelection s x1 y1 x2 y2 r ↔
      r.Fits (r.clips (s.bounds x1 y1 x2 y2)) (s.parts (s.bounds x1 y1 x2 y2)) r.max := by
  have hrun := VSgettext_parts h hE x1 y1 x2 y2
  have hswap := VSgettext_parts h hE x2 y2 x1 y1
  rw [bounds_swap, ← hrun] at hswap
  have hfits := @copyParts_fits r (r.clips (s.bounds x1 y1 x2 y2))
    (s.parts (s.bounds x1 y1 x2 y2)) r.max ⟨[], 0⟩ r.max (fun _ => Int.zero_add _) (Nat.zero_le _)
  rw [← hrun] at hfits
  rw [← hfits]
  constructor
  · rintro ⟨⟨out, hout, hreach, -⟩, -⟩
    exact ⟨out, hout, hreach⟩
  · rintro ⟨out, hout, hreach⟩
    refine ⟨⟨out, hout, hreach, ?_⟩, hswap⟩
    intro hroom
    rw [hrun] at hout
    exact copyParts_text hroom hout

/-- A screen of three rows with a letter each, four columns wide. -/
def abcScreen : VSscrn := { threeRowsFull 0 with buf := letteredRows, maxwidth := 3 }

theorem letteredRows_followed : Followed letteredRows where
  list := by
    have hstrand : Strand NULL letteredRows.mem.links (some NULL) (List.range' 1 3) :=
      chainLinks_strand _ Nat.one_pos 3
    have hth : Threaded letteredRows (some NULL) [] [] := by
      refine ⟨hstrand, by decide, by decide, by decide, by decide, ?_⟩
      intro p hp
      rw [← Option.some.inj hp]
      decide
    refine ⟨some NULL, [], [], Or.inl rfl, hth, ?_, ?_⟩
    · constructor <;> decide
    · constructor <;> decide
  linked := rfl
  lines_lt := by decide

theorem abcScreen_selectable : Selectable abcScreen :=
  ⟨letteredRows_followed, by decide, by decide⟩

/-- What is selected from the start of the first row to the letter of the second one, with room
for `max` bytes. -/
def twoLetters (max : Int) : CopyRequest := ⟨max, [13], 0, true, true⟩

theorem two_letters_copied : CopiesSelection abcScreen (-1) 0 0 1 (twoLetters 10) :=
  (selection_text_iff abcScreen (-1) 0 0 1 (twoLetters 10) abcScreen_selectable
    (by decide)).mpr (by decide +kernel)

/-- A line end that takes just the bytes that are left is followed by a NUL beyond them, and the
copy of a lone blank at the end does not come to an end. -/
theorem line_end_overruns :
    abcScreen.VSgettext (-1) 0 0 1 (twoLetters 2) = some ⟨[65, 13], 3⟩ ∧
      abcScreen.VSgettext (-1) 0 1 0 ⟨10, [13], 2, false, false⟩ = none ∧
      ¬CopiesSelection abcScreen (-1) 0 0 1 (twoLetters 2) := by
  have hover : abcScreen.VSgettext (-1) 0 0 1 (twoLetters 2) = some ⟨[65, 13], 3⟩ := by
    decide +kernel
  refine ⟨hover, by decide +kernel, ?_⟩
  rintro ⟨⟨out, hout, hreach, -⟩, -⟩
  rw [hover] at hout
  rw [← Option.some.inj hout] at hreach
  exact absurd hreach (by decide)

end VS
