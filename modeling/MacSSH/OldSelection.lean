import MacSSH.SelectionText

/-! The text of a selection as the old scrollback copies it, and where it is what the linked
scrollback copies. -/
namespace VS

open Linked

/-- The end point is in the buffer. -/
structure InBuffer (s : VSscrn) (x y : Int) : Prop where
  column : -1 ≤ x ∧ x ≤ s.maxwidth
  row : -s.buf.numlines ≤ y ∧ y ≤ s.buf.lines

/-- The bounds when rows and columns are put in order each for themselves. -/
def oldBounds (x1 y1 x2 y2 : Int) : Bounds := ⟨min x1 x2, min y1 y2, max x1 x2, max y1 y2⟩

/-- The screen with other characters in its lines. -/
def VSscrn.withText (s : VSscrn) (text : Ptr → Int → UInt8) : VSscrn :=
  { s with buf.mem.text := text }

/-- With enough room, the readers of both scrollbacks copy the same text, apart from a line end
behind the last column. -/
def ReadersAgree (s : VSscrn) (x1 y1 x2 y2 : Int) (r : CopyRequest) : Prop :=
  ∃ enough : Int, ∀ max ≥ enough, ∃ new old,
    s.VSgettext x1 y1 x2 y2 { r with max := max } = some new ∧
      s.VSOgettext x1 y1 x2 y2 { r with max := max } = some old ∧
      old.text = new.text ++ if (s.bounds x1 y1 x2 y2).lx = s.maxwidth then r.EOLS else []

/-- The old reader stores no more than it is allowed to. -/
def StoresWithin (s : VSscrn) (x1 y1 x2 y2 : Int) (r : CopyRequest) : Prop :=
  ∀ max ≥ 0, ∀ old, s.VSOgettext x1 y1 x2 y2 { r with max := max } = some old →
    (old.reach : Int) ≤ max

/-- The rows of a selection one after the other, with line ends between them. -/
def CopyRequest.copyAll (r : CopyRequest) (noClip : Bool) : List Part → Out → Option Out
  | [], out => some out
  | [p], out => VSIstrcopy p.cells out r.table noClip
  | p :: ps, out =>
    (VSIstrcopy p.cells out r.table noClip).bind fun out =>
      r.copyAll noClip ps (VSscrn.putEOL r.EOLS out)

section Rows
variable {s : VSscrn} {r : CopyRequest} {d : Bounds} {noClip : Bool}

theorem copyAll_cons (p : Part) {ps : List Part} (hne : ps ≠ []) (out : Out) :
    r.copyAll noClip (p :: ps) out = (VSIstrcopy p.cells out r.table noClip).bind fun out =>
      r.copyAll noClip ps (VSscrn.putEOL r.EOLS out) := by
  cases ps with
  | nil => exact absurd rfl hne
  | cons q ps => rfl

/-- Rows below the first one start with their first column. -/
theorem part_below {y : Int} (hy : y ≠ d.uy) : (s.part d y).cells =
    s.buf.textFrom (s.buf.viewLine y) 0 ((if y = d.ly then d.lx else s.maxwidth)+1) := by
  simp only [VSscrn.part, Bounds.columnsOf]
  rw [if_neg hy, Int.sub_zero]

/-- The first row starts behind the first end point. -/
theorem part_first : (s.part d d.uy).cells = s.buf.textFrom (s.buf.viewLine d.uy) (d.ux+1)
    ((if d.uy = d.ly then d.lx else s.maxwidth)-d.ux) := by
  simp only [VSscrn.part, Bounds.columnsOf, if_true]
  congr 1
  omega

theorem oldMiddle_copies (h : Selectable s) (hd : d.Inside s) (hmax : s.maxwidth+1 < r.max)
    (n : ℕ) {y : Int} (hn : n = (d.ly-y).toNat) (hy : d.uy < y) (hy' : y ≤ d.ly) (out : Out) :
    ((s.oldMiddle r noClip d.ly n y (s.buf.viewLine y) out).bind fun p =>
      VSIstrcopy (s.buf.textFrom p.1 0 (short (d.lx+1))) p.2 r.table noClip) =
      r.copyAll noClip ((loopRange y d.ly).map (s.part d)) out := by
  obtain ⟨hux, hlx, huy, hly, -, -⟩ := hd
  have hwidth := h.width
  -- by the rows before the last one, which is copied behind the loop
  induction n generalizing y out with
  | zero =>
    have hlast : y = d.ly := by omega
    have hshort : short (d.lx+1) = d.lx+1 := short_eq (by omega) (by omega)
    rw [hlast, loopRange_cons le_rfl, loopRange_nil (by omega), hshort]
    have hcells := @part_below s d d.ly (by omega)
    rw [if_pos rfl] at hcells
    change VSIstrcopy _ out r.table noClip = VSIstrcopy (s.part d d.ly).cells out r.table noClip
    rw [hcells]
  | succ n ih =>
    have hlt : y < d.ly := by omega
    have hshort : short (s.maxwidth+1) = s.maxwidth+1 := short_eq (by omega) (by omega)
    have hcells := @part_below s d y (by omega)
    rw [if_neg hlt.ne] at hcells
    have hmore : (loopRange (y+1) d.ly).map (s.part d) ≠ [] := by
      rw [loopRange_cons (by omega)]
      exact List.cons_ne_nil _ _
    have hnext := (h.followed.next_viewLine (by omega : -s.buf.numlines ≤ y) (by omega)).2
    rw [loopRange_cons hy', List.map_cons, copyAll_cons _ hmore, VSscrn.oldMiddle,
      if_pos ⟨hlt, by omega⟩, if_pos hmax]
    simp only [hshort, hnext, hcells]
    change Option.bind (Option.bind _ _) _ = _
    rw [Option.bind_assoc]
    congr 1
    funext out
    exact ih (by omega) (by omega) (by omega) _

/-- The bounds are inside the buffer with both end points. -/
theorem oldBounds_inside {x1 y1 x2 y2 : Int} (h1 : InBuffer s x1 y1) (h2 : InBuffer s x2 y2) :
    (oldBounds x1 y1 x2 y2).Inside s := by
  obtain ⟨hx1, hy1⟩ := h1
  obtain ⟨hx2, hy2⟩ := h2
  refine ⟨?_, ?_, ?_, ?_, ?_, ?_⟩ <;> simp only [oldBounds] <;> omega

/-- The old reader, from its bounds on. -/
theorem VSOgettext_bounds (h : Selectable s) {x1 y1 x2 y2 : Int} (h1 : InBuffer s x1 y1)
    (h2 : InBuffer s x2 y2) (hd : oldBounds x1 y1 x2 y2 = d) :
    s.VSOgettext x1 y1 x2 y2 r =
      if d.uy = d.ly then
        (VSIstrcopy (s.buf.textFrom (s.buf.viewLine d.uy) (d.ux+1)
          (short (if d.lx-d.ux < r.max then d.lx-d.ux else r.max))) ⟨[], 0⟩ r.table
            (!r.clips d)).map fun out =>
              if d.lx = s.maxwidth then VSscrn.putEOL r.EOLS out else out
      else
        ((VSIstrcopy (s.buf.textFrom (s.buf.viewLine d.uy) (d.ux+1)
          (short (if s.maxwidth-d.ux < r.max then s.maxwidth-d.ux else r.max))) ⟨[], 0⟩ r.table
            (!r.clips d)).bind fun out =>
          (s.oldMiddle r (!r.clips d) d.ly (d.ly-d.uy-1).toNat (d.uy+1)
            (s.buf.viewLine (d.uy+1)) (VSscrn.putEOL r.EOLS out)).bind fun p =>
              VSIstrcopy (s.buf.textFrom p.1 0
                (short (if d.lx+1 < r.max then d.lx+1 else r.max-p.2.text.length))) p.2 r.table
                (!r.clips d)).map fun out =>
                  if d.lx = s.maxwidth then VSscrn.putEOL r.EOLS out else out := by
  have hxs : (if x1 < x2 then (x1, x2) else (x2, x1)) = (d.ux, d.lx) := by
    rw [← hd]
    split_ifs <;> simp only [oldBounds, Prod.mk.injEq] <;> omega
  have hys : (if y1 < y2 then (y1, y2) else (y2, y1)) = (d.uy, d.ly) := by
    rw [← hd]
    split_ifs <;> simp only [oldBounds, Prod.mk.injEq] <;> omega
  have hinside := oldBounds_inside h1 h2
  rw [hd] at hinside
  obtain ⟨-, hlx, huy, hly, hrows, -⟩ := hinside
  have hlow : ¬d.uy < -s.buf.numlines := not_lt.mpr huy
  have hhigh : ¬d.ly < -s.buf.numlines := not_lt.mpr (huy.trans hrows)
  have hline := h.followed.lineStart h.counted huy (hrows.trans hly)
  rw [VSscrn.VSOgettext]
  simp only [hxs, hys, if_neg hlow, if_neg hhigh, hline, if_neg (not_lt.mpr hly)]
  by_cases hrow : d.uy = d.ly
  · have hclips : r.clips d = (r.clipspaces && r.clipTrailingSpaces) := if_pos hrow
    rw [if_pos hrow, if_pos hrow, hclips]
    change Option.bind _ _ = Option.map _ _
    rw [Option.map_eq_bind]
    rfl
  · have hclips : r.clips d = r.clipspaces := if_neg hrow
    have hnext := (h.followed.next_viewLine huy (by omega)).2
    have hge : (d.lx ≥ s.maxwidth) = (d.lx = s.maxwidth) :=
      propext ⟨fun hge => le_antisymm hlx.2 hge, fun heq => heq.ge⟩
    rw [if_neg hrow, if_neg hrow, hclips, hnext]
    simp only [hge]
    rw [Option.map_eq_bind, Option.bind_assoc]
    congr 1
    funext out
    rw [Option.bind_assoc]
    rfl

/-- With enough room, the old reader copies row after row, and a line end behind the last
column. -/
theorem VSOgettext_copies (h : Selectable s) {x1 y1 x2 y2 : Int} (h1 : InBuffer s x1 y1)
    (h2 : InBuffer s x2 y2) (hd : oldBounds x1 y1 x2 y2 = d) (hmax : s.maxwidth+1 < r.max) :
    s.VSOgettext x1 y1 x2 y2 r =
      (r.copyAll (!r.clips d) (s.parts d) ⟨[], 0⟩).map fun out =>
        if d.lx = s.maxwidth then VSscrn.putEOL r.EOLS out else out := by
  have hwidth := h.width
  have hinside := oldBounds_inside h1 h2
  rw [hd] at hinside
  obtain ⟨hux, hlx, huy, hly, hrows, hcolumns⟩ := hinside
  rw [VSOgettext_bounds h h1 h2 hd, VSscrn.parts, loopRange_cons hrows, List.map_cons]
  have hcells := @part_first s d
  by_cases hrow : d.uy = d.ly
  · have hordered := hcolumns hrow
    have hshort : short (d.lx-d.ux) = d.lx-d.ux := short_eq (by omega) (by omega)
    rw [if_pos hrow] at hcells
    rw [if_pos hrow, if_pos (by omega), hshort, ← hcells, loopRange_nil (by omega)]
    rfl
  · have hshort : short (s.maxwidth-d.ux) = s.maxwidth-d.ux := short_eq (by omega) (by omega)
    have hmore : (loopRange (d.uy+1) d.ly).map (s.part d) ≠ [] := by
      rw [loopRange_cons (by omega)]
      exact List.cons_ne_nil _ _
    rw [if_neg hrow] at hcells
    have hlast (n : ℕ) : (if d.lx+1 < r.max then d.lx+1 else r.max-n) = d.lx+1 :=
      if_pos (by omega)
    rw [if_neg hrow, if_pos (by omega), hshort, ← hcells, copyAll_cons _ hmore]
    simp only [hlast]
    congr 2
    funext out
    exact oldMiddle_copies h ⟨hux, hlx, huy, hly, hrows, hcolumns⟩ hmax _ (by omega) (by omega)
      (by omega) _

end Rows

section Parts
variable {r : CopyRequest} {clips : Bool}

/-- The old reader copies what is to be copied, where each row can be copied. -/
theorem copyAll_text {eol : UInt8} (hE : r.EOLS = [eol]) {ps : List Part}
    (hplain : ∀ p ∈ ps, p.wraps = false)
    (hends : ∀ p ∈ ps, CopyEnds r.table (!clips) p.cells) (out : Out) :
    ∃ out', r.copyAll (!clips) ps out = some out' ∧
      out'.text = out.text ++ r.textOfAll clips ps := by
  induction ps generalizing out with
  | nil => exact ⟨out, rfl, (List.append_nil _).symm⟩
  | cons p ps ih =>
    obtain ⟨copied, hrun, htext, -⟩ := VSIstrcopy_ends (hends p List.mem_cons_self) out
    have hwraps := hplain p List.mem_cons_self
    have hpart : partText r.table (!clips) p.cells = r.textOf clips p := by
      rw [CopyRequest.textOf, hwraps, Bool.or_false]
    rw [hpart] at htext
    rw [textOfAll_cons]
    by_cases hnil : ps = []
    · subst hnil
      refine ⟨copied, hrun, ?_⟩
      rw [htext, if_neg (fun hboth => hboth.2 rfl), List.nil_append]
      exact congrArg (out.text ++ ·) (List.append_nil _).symm
    · obtain ⟨out', hrest, htext'⟩ := ih (fun q hq => hplain q (List.mem_cons_of_mem p hq))
        (fun q hq => hends q (List.mem_cons_of_mem p hq)) (VSscrn.putEOL r.EOLS copied)
      refine ⟨out', ?_, ?_⟩
      · rw [copyAll_cons p hnil, hrun]
        exact hrest
      · have hput : (VSscrn.putEOL r.EOLS copied).text = copied.text ++ r.EOLS := by
          rw [hE]
          rfl
        rw [htext', hput, htext, if_pos ⟨hwraps, hnil⟩]
        simp only [List.append_assoc]

/-- With room for all parts, the new reader comes to an end just when every row can be
copied. -/
theorem copyParts_large {ps : List Part} {room : Int} (hroom : r.roomFor ps ≤ room) (out : Out) :
    (∃ out', r.copyParts clips ps room out = some out') ↔
      ∀ p ∈ ps, CopyEnds r.table (!clips || p.wraps) p.cells := by
  induction ps generalizing room out with
  | nil => exact iff_of_true ⟨out, rfl⟩ nofun
  | cons p ps ih =>
    have hsum : r.roomFor (p :: ps) = p.cells.length+r.EOLS.length+r.roomFor ps := by
      rw [CopyRequest.roomFor, List.map_cons, List.sum_cons]
      rfl
    rw [hsum] at hroom
    have hwhole : p.within room = p := by
      rw [Part.within, List.take_of_length_le (by omega)]
    rw [CopyRequest.copyParts, if_pos (by omega), List.forall_mem_cons, hwhole]
    by_cases hends : CopyEnds r.table (!clips || p.wraps) p.cells
    · obtain ⟨copied, hrun, htext, -⟩ := VSIstrcopy_ends hends out
      have hshort := partText_length r.table (!clips || p.wraps) p.cells
      have hlen : copied.text.length =
          out.text.length+(partText r.table (!clips || p.wraps) p.cells).length := by
        rw [htext, List.length_append]
      rw [hrun, and_iff_right hends]
      simp only
      split_ifs
      · exact ih (by omega) _
      · exact ih (by omega) _
    · rw [VSIstrcopy_stuck hends]
      refine iff_of_false ?_ (fun hall => hends hall.1)
      rintro ⟨out', hout'⟩
      exact absurd hout' (Option.some_ne_none out').symm

end Parts

/-- The number of characters in all parts. -/
def cellCount (ps : List Part) : ℕ := (ps.map fun p => p.cells.length).sum

@[simp] theorem cellCount_nil : cellCount [] = 0 := rfl

@[simp] theorem cellCount_cons (p : Part) (ps : List Part) :
    cellCount (p :: ps) = p.cells.length+cellCount ps := by
  rw [cellCount, List.map_cons, List.sum_cons]
  rfl

section Ends
variable {s : VSscrn} {r : CopyRequest} {d d' : Bounds} {x1 y1 x2 y2 : Int}

theorem bounds_inBuffer (h1 : InBuffer s x1 y1) (h2 : InBuffer s x2 y2) :
    s.bounds x1 y1 x2 y2 = VSscrn.orderEnds (x1, y1) (x2, y2) := by
  have hlimit {x y : Int} (h : InBuffer s x y) : s.limitEnd x y = (x, y) := by
    obtain ⟨hx, hy⟩ := h
    simp only [VSscrn.limitEnd]
    rw [if_neg (not_lt.mpr hy.1), if_neg (not_lt.mpr hy.2), if_neg (not_lt.mpr hx.1),
      if_neg (not_lt.mpr hx.2)]
  rw [VSscrn.bounds, hlimit h1, hlimit h2]

/-- Where the earlier end point is not to the right of the later one, the order of the columns
is that of the end points. -/
theorem oldBounds_ordered (h1 : InBuffer s x1 y1) (h2 : InBuffer s x2 y2)
    (hd : s.bounds x1 y1 x2 y2 = d) (hordered : d.ux ≤ d.lx) : oldBounds x1 y1 x2 y2 = d := by
  rw [bounds_inBuffer h1 h2] at hd
  subst hd
  simp only [VSscrn.orderEnds] at hordered ⊢
  split_ifs at hordered ⊢ <;> simp only [oldBounds, Bounds.mk.injEq] at hordered ⊢ <;> omega

/-- Otherwise the columns change places. -/
theorem oldBounds_crossed (h1 : InBuffer s x1 y1) (h2 : InBuffer s x2 y2)
    (hd : s.bounds x1 y1 x2 y2 = d) (hcrossed : d.lx < d.ux) :
    oldBounds x1 y1 x2 y2 = ⟨d.lx, d.uy, d.ux, d.ly⟩ ∧ d.uy < d.ly := by
  rw [bounds_inBuffer h1 h2] at hd
  subst hd
  simp only [VSscrn.orderEnds] at hcrossed ⊢
  split_ifs at hcrossed ⊢ <;> simp only [oldBounds, Bounds.mk.injEq] at hcrossed ⊢ <;> omega

/-- In a selection without wrapped rows that are all copied, both readers get the same text
when the columns are in order. -/
theorem readers_agree (h : Selectable s) (h1 : InBuffer s x1 y1) (h2 : InBuffer s x2 y2)
    {eol : UInt8} (hE : r.EOLS = [eol]) (hd : s.bounds x1 y1 x2 y2 = d) (hordered : d.ux ≤ d.lx)
    (hplain : ∀ p ∈ s.parts d, p.wraps = false)
    (hends : ∀ p ∈ s.parts d, CopyEnds r.table (!r.clips d) p.cells) :
    ReadersAgree s x1 y1 x2 y2 r := by
  refine ⟨s.maxwidth+2+r.roomFor (s.parts d), ?_⟩
  intro max hmax
  let r' : CopyRequest := { r with max := max }
  have hroom : r'.roomFor (s.parts d) ≤ max := by
    have hsame : r'.roomFor (s.parts d) = r.roomFor (s.parts d) := rfl
    have hwidth := h.width
    omega
  have hends' : ∀ p ∈ s.parts d, CopyEnds r'.table (!r.clips d || p.wraps) p.cells := by
    intro p hp
    rw [hplain p hp, Bool.or_false]
    exact hends p hp
  obtain ⟨new, hnew⟩ := (copyParts_large hroom ⟨[], 0⟩).mpr hends'
  have hnewText := copyParts_text hroom hnew
  obtain ⟨old, hold, holdText⟩ := @copyAll_text r' (r.clips d) eol hE (s.parts d) hplain hends
    ⟨[], 0⟩
  have hone : r'.EOLS.length ≤ 32767 := by
    rw [show r'.EOLS = [eol] from hE]
    exact Nat.le_of_ble_eq_true rfl
  have hparts := @VSgettext_parts s r' h hone x1 y1 x2 y2
  rw [hd] at hparts
  have hcopies := @VSOgettext_copies s r' d h x1 y1 x2 y2 h1 h2
    (oldBounds_ordered h1 h2 hd hordered)
    (show s.maxwidth+1 < max by omega)
  refine ⟨new, if d.lx = s.maxwidth then VSscrn.putEOL r.EOLS old else old, hparts.trans hnew,
    ?_, ?_⟩
  · rw [hcopies, show r'.clips d = r.clips d from rfl, hold]
    rfl
  · have hsame : new.text = old.text := hnewText.trans holdText.symm
    rw [hd, hsame]
    by_cases hlast : d.lx = s.maxwidth
    · rw [if_pos hlast, if_pos hlast]
      change old.text ++ [r.EOLS.headD 0] = old.text ++ r.EOLS
      rw [hE]
      rfl
    · rw [if_neg hlast, if_neg hlast, List.append_nil]

theorem withText_selectable (h : Selectable s) (text : Ptr → Int → UInt8) :
    Selectable (s.withText text) := by
  refine ⟨followed_other h.followed ?_, h.counted, h.width⟩
  exact ⟨⟨⟨rfl, rfl, rfl, rfl, rfl, rfl⟩, ⟨rfl, rfl⟩, rfl, rfl⟩, rfl, rfl, rfl⟩

theorem part_plain (hplain : ∀ p, VSiswrap (s.buf.mem.lattr p) = false) {p : Part}
    (hp : p ∈ s.parts d) : p.wraps = false := by
  obtain ⟨y, -, rfl⟩ := List.mem_map.mp hp
  exact hplain _

/-- A blank in the last of the columns is a lone one when there are letters before it. -/
theorem lone_in_last_column {b : VSbuf} {p : Ptr} {first last : Int} (hle : first ≤ last)
    (htext : ∀ j, b.mem.text p j = if j = last then 32 else 120) :
    EndsInLoneBlank (b.textFrom p first (last-first+1)) := by
  have hn : (last-first+1).toNat = (last-first).toNat+1 := by omega
  have hend : b.mem.text p (first+((last-first).toNat : ℕ)) = 32 := by
    rw [htext, if_pos (by omega)]
  rw [VSbuf.textFrom, hn, List.range_succ, List.map_append, List.map_singleton, EndsInLoneBlank,
    List.getLast?_concat, List.dropLast_concat, hend]
  refine ⟨rfl, ?_⟩
  intro hblank
  obtain ⟨i, hi, hchar⟩ := List.mem_map.mp (List.mem_of_getLast? hblank)
  have hlt := List.mem_range.mp hi
  rw [htext, if_neg (by omega)] at hchar
  exact absurd hchar (by decide)

/-- When something is selected, one of its rows has columns and reaches the last column that
the first row reaches. -/
theorem row_to_last (h : Selectable s) (hd : d.Inside s) (hordered : d.ux ≤ d.lx)
    (hsome : ¬(d.uy = d.ly ∧ d.ux = d.lx)) :
    ∃ y, d.uy ≤ y ∧ y ≤ d.ly ∧
      (d.columnsOf s.maxwidth y).1 ≤ (d.columnsOf s.maxwidth y).2 ∧
      (d.columnsOf s.maxwidth y).2 = if d.uy = d.ly then d.lx else s.maxwidth := by
  have hwidth := h.width
  obtain ⟨hux, hlx, -, -, hrows, -⟩ := hd
  simp only [Bounds.columnsOf]
  by_cases hrow : d.uy = d.ly
  · refine ⟨d.uy, le_rfl, hrows, ?_, ?_⟩
    · rw [if_pos rfl, if_pos hrow]
      omega
    · rw [if_pos hrow]
  · by_cases hfull : d.ux < s.maxwidth
    · refine ⟨d.uy, le_rfl, hrows, ?_, ?_⟩
      · rw [if_pos rfl, if_neg hrow]
        omega
      · rw [if_neg hrow]
    · -- nothing of the first row is selected, and all of the second one is
      have hlast : d.lx = s.maxwidth := by omega
      refine ⟨d.uy+1, by omega, by omega, ?_, ?_⟩
      · rw [if_neg (by omega), hlast, ite_self]
        exact hwidth.1
      · rw [if_neg hrow, hlast, ite_self]

/-- Unless blanks are clipped or kept as they are, some contents stop the copy of a selection
that is not empty. -/
theorem contents_that_stop (h : Selectable s) (hd : d.Inside s) (hordered : d.ux ≤ d.lx)
    (htable : r.table ≠ 0) (hclips : r.clips d = false) (hsome : ¬(d.uy = d.ly ∧ d.ux = d.lx)) :
    ∃ text, ∃ p ∈ (s.withText text).parts d, ¬CopyEnds r.table (!r.clips d || p.wraps) p.cells := by
  obtain ⟨y, hy, hy', hcolumns, hlast⟩ := row_to_last h hd hordered hsome
  refine ⟨fun _ j => if j = (d.columnsOf s.maxwidth y).2 then 32 else 120, _,
    List.mem_map.mpr ⟨y, mem_loopRange.mpr ⟨hy, hy'⟩, rfl⟩, ?_⟩
  have hlone := @lone_in_last_column (s.withText fun _ j =>
    if j = (d.columnsOf s.maxwidth y).2 then 32 else 120).buf (s.buf.viewLine y) _ _ hcolumns
    (fun _ => rfl)
  rw [hclips, CopyEnds, not_or, not_or, not_not]
  exact ⟨htable, by simp, hlone⟩

theorem textOfAll_letters {clips : Bool} (hE : r.EOLS.length = 1) {ps : List Part}
    (hplain : ∀ p ∈ ps, p.wraps = false) (hletters : ∀ p ∈ ps, ∀ c ∈ p.cells, c ≠ 32) :
    (r.textOfAll clips ps).length = cellCount ps+(ps.length-1) := by
  induction ps with
  | nil => rfl
  | cons p ps ih =>
    have hp := hletters p List.mem_cons_self
    have hwraps := hplain p List.mem_cons_self
    have hrest := ih (fun q hq => hplain q (List.mem_cons_of_mem p hq))
      (fun q hq => hletters q (List.mem_cons_of_mem p hq))
    have hclip : p.cells.rdropWhile (· = 32) = p.cells := by
      rw [List.rdropWhile_eq_self_iff]
      intro hne hblank
      exact hp _ (List.getLast_mem hne) (of_decide_eq_true hblank)
    have htext : r.textOf clips p = p.cells := by
      rw [CopyRequest.textOf, partText, hclip, ite_self]
      split_ifs
      · rfl
      · have htabbed := @tabbed_word r.table p.cells hp []
        rw [List.append_nil] at htabbed
        exact htabbed.trans (List.append_nil _)
    rw [textOfAll_cons, htext, List.length_append, List.length_append, hrest,
      cellCount_cons, List.length_cons]
    by_cases hnil : ps = []
    · rw [if_neg (fun hboth => hboth.2 hnil), hnil]
      rfl
    · have hpos := List.length_pos_iff.mpr hnil
      rw [if_pos ⟨hwraps, hnil⟩, hE]
      omega

theorem textFrom_length (b : VSbuf) (p : Ptr) (x n : Int) :
    (b.textFrom p x n).length = n.toNat := by
  rw [VSbuf.textFrom, List.length_map, List.length_range]

/-- The columns of the rows below the first one depend on the last column only. -/
theorem rows_below_length (hlx : -1 ≤ d.lx) (hlx' : -1 ≤ d'.lx) (huy : d'.uy = d.uy)
    (hly : d'.ly = d.ly) (n : ℕ) {y : Int} (hn : n = (d.ly-y).toNat) (hy : d.uy < y)
    (hy' : y ≤ d.ly) :
    (cellCount ((loopRange y d.ly).map (s.part d')) : Int) =
      cellCount ((loopRange y d.ly).map (s.part d))+(d'.lx-d.lx) := by
  have hrow {d : Bounds} {y : Int} (hy : y ≠ d.uy) : ((s.part d y).cells.length : Int) =
      ((if y = d.ly then d.lx else s.maxwidth)+1).toNat := by
    rw [part_below hy, textFrom_length]
  induction n generalizing y with
  | zero =>
    have hlast : y = d.ly := by omega
    have hthis := hrow (show y ≠ d.uy by omega)
    have hthis' := hrow (show y ≠ d'.uy by omega)
    rw [if_pos hlast] at hthis
    rw [if_pos (hlast.trans hly.symm)] at hthis'
    rw [← hlast, loopRange_cons le_rfl, loopRange_nil (by omega)]
    simp only [List.map_cons, List.map_nil, cellCount_cons, cellCount_nil, Nat.add_zero]
    omega
  | succ n ih =>
    have hthis := hrow (show y ≠ d.uy by omega)
    have hthis' := hrow (show y ≠ d'.uy by omega)
    rw [if_neg (by omega)] at hthis
    rw [if_neg (by omega)] at hthis'
    have hrest := ih (by omega : n = (d.ly-(y+1)).toNat) (by omega) (by omega)
    rw [loopRange_cons hy']
    simp only [List.map_cons, cellCount_cons, Int.natCast_add]
    omega

/-- When the columns change places, both selections have different sizes. -/
theorem crossed_length (hd : d.Inside s) (hcrossed : d.lx < d.ux)
    (hrows : d.uy < d.ly) :
    (cellCount (s.parts d) : Int)+2*(d.ux-d.lx) =
      cellCount (s.parts ⟨d.lx, d.uy, d.ux, d.ly⟩) := by
  obtain ⟨hux, hlx, -, -, -, -⟩ := hd
  have hbelow := @rows_below_length s d ⟨d.lx, d.uy, d.ux, d.ly⟩ hlx.1 hux.1 rfl rfl _ (d.uy+1) rfl
    (by omega) (by omega)
  change (cellCount _ : Int) = cellCount _+(d.ux-d.lx) at hbelow
  have hfirst := congrArg (fun l => (l.length : Int)) (@part_first s d)
  have hfirst' := congrArg (fun l => (l.length : Int)) (@part_first s ⟨d.lx, d.uy, d.ux, d.ly⟩)
  simp only [textFrom_length] at hfirst hfirst'
  rw [if_neg hrows.ne] at hfirst hfirst'
  rw [VSscrn.parts, VSscrn.parts, loopRange_cons hrows.le]
  simp only [List.map_cons, cellCount_cons, Int.natCast_add]
  omega

theorem crossed_disagree (h : Selectable s) (h1 : InBuffer s x1 y1) (h2 : InBuffer s x2 y2)
    {eol : UInt8} (hE : r.EOLS = [eol]) (hplain : ∀ p, VSiswrap (s.buf.mem.lattr p) = false)
    (hd : s.bounds x1 y1 x2 y2 = d) (hcrossed : d.lx < d.ux) :
    ¬ReadersAgree (s.withText fun _ _ => 120) x1 y1 x2 y2 r := by
  -- with letters everywhere nothing is clipped or replaced: what is copied is as long as the parts
  generalize hS : s.withText (fun _ _ => 120) = S
  have hsel : Selectable S := hS ▸ withText_selectable h _
  have h1' : InBuffer S x1 y1 := by rw [← hS]; exact ⟨h1.column, h1.row⟩
  have h2' : InBuffer S x2 y2 := by rw [← hS]; exact ⟨h2.column, h2.row⟩
  have hplain' : ∀ p, VSiswrap (S.buf.mem.lattr p) = false := by rw [← hS]; exact hplain
  have hd' : S.bounds x1 y1 x2 y2 = d := by rw [← hS]; exact hd
  have hletters (d : Bounds) : ∀ p ∈ S.parts d, ∀ c ∈ p.cells, c ≠ 32 := by
    intro p hp c hc
    obtain ⟨y, -, rfl⟩ := List.mem_map.mp hp
    obtain ⟨i, -, rfl⟩ := List.mem_map.mp hc
    rw [← hS]
    change (120 : UInt8) ≠ 32
    decide
  have hends (d : Bounds) (table : Int) (noClip : Bool) :
      ∀ p ∈ S.parts d, CopyEnds table noClip p.cells := by
    intro p hp
    refine Or.inr (Or.inr fun hlone => ?_)
    exact hletters d p hp 32 (List.mem_of_getLast? hlone.1) rfl
  obtain ⟨hold, hrows⟩ := oldBounds_crossed h1' h2' hd' hcrossed
  have hinside := bounds_inside hsel x1 y1 x2 y2
  rw [hd'] at hinside
  rintro ⟨enough, hagree⟩
  let room : Int := max enough (S.maxwidth+2+r.roomFor (S.parts d))
  obtain ⟨new, old, hnew, holdRun, htext⟩ := hagree room (le_max_left _ _)
  have hroom : S.maxwidth+2+r.roomFor (S.parts d) ≤ room := le_max_right _ _
  let r' : CopyRequest := { r with max := room }
  have hE' : r'.EOLS = [eol] := hE
  have hone : r'.EOLS.length = 1 := by rw [hE', List.length_singleton]
  have hwidth := hsel.width
  -- the new reader copies the rows of `d`
  have hparts := @VSgettext_parts S r' hsel (by omega) x1 y1 x2 y2
  rw [show ({ r with max := room } : CopyRequest) = r' from rfl, hparts, hd'] at hnew
  have hnewText := @copyParts_text r' (r.clips d) (S.parts d) room ⟨[], 0⟩ new
    (show (r.roomFor (S.parts d) : Int) ≤ room by omega) hnew
  have hnewLen : new.text.length =
      cellCount (S.parts d)+((S.parts d).length-1) := by
    rw [hnewText, List.nil_append]
    exact textOfAll_letters hone (fun p hp => part_plain hplain' hp) (hletters d)
  -- the old reader copies those of the crossed bounds
  obtain ⟨copied, hcopied, hcopiedText⟩ := @copyAll_text r' (r.clips ⟨d.lx, d.uy, d.ux, d.ly⟩) eol
    hE' (S.parts ⟨d.lx, d.uy, d.ux, d.ly⟩) (fun p hp => part_plain hplain' hp) (hends _ _ _)
    ⟨[], 0⟩
  have hcopies := @VSOgettext_copies S r' _ hsel x1 y1 x2 y2 h1' h2' hold
    (show S.maxwidth+1 < room by omega)
  rw [show r'.clips ⟨d.lx, d.uy, d.ux, d.ly⟩ = r.clips ⟨d.lx, d.uy, d.ux, d.ly⟩ from rfl, hcopied,
    Option.map_some] at hcopies
  have hsame := Option.some.inj (hcopies.symm.trans holdRun)
  have holdLen : copied.text.length =
      cellCount (S.parts ⟨d.lx, d.uy, d.ux, d.ly⟩)+
        ((S.parts ⟨d.lx, d.uy, d.ux, d.ly⟩).length-1) := by
    rw [hcopiedText, List.nil_append]
    exact textOfAll_letters hone (fun p hp => part_plain hplain' hp) (hletters _)
  have hcount : (S.parts ⟨d.lx, d.uy, d.ux, d.ly⟩).length = (S.parts d).length := by
    rw [VSscrn.parts, VSscrn.parts, List.length_map, List.length_map]
  have hmore := crossed_length hinside hcrossed hrows
  have hlonger : copied.text.length ≤ old.text.length := by
    rw [← hsame]
    split_ifs
    · rw [VSscrn.putEOL, Out.put, List.length_append]
      exact Nat.le_add_right _ _
    · exact le_rfl
  have hux := hinside.ux
  rw [hd', if_neg (by omega), List.append_nil] at htext
  rw [htext] at hlonger
  omega

/-- Without any room the old reader stores line ends all the same. -/
theorem oldMiddle_without_room (hmax : r.max = 0) (hwidth : 0 ≤ s.maxwidth) (noClip : Bool)
    {ly : Int} (hly : ly ≤ s.buf.lines) (n : ℕ) {y : Int} (hn : n = (ly-y).toNat) (t : Ptr)
    {out : Out} (hout : out.text.length+n ≤ 32768) :
    ∃ t' out', s.oldMiddle r noClip ly n y t out = some (t', out') ∧ out.reach ≤ out'.reach ∧
      out'.text.length = out.text.length+n := by
  induction n generalizing y t out with
  | zero => exact ⟨t, out, rfl, le_rfl, rfl⟩
  | succ n ih =>
    have hlen : (if s.maxwidth+1 < r.max then s.maxwidth+1 else r.max-out.text.length) =
        -out.text.length := by
      rw [if_neg (by omega), hmax, Int.zero_sub]
    have hshort : short (-out.text.length) = -out.text.length := short_eq (by omega) (by omega)
    have hnothing : s.buf.textFrom t 0 (-out.text.length) = [] := by
      rw [VSbuf.textFrom, show (-(out.text.length : Int)).toNat = 0 by omega]
      rfl
    have hcopy : VSIstrcopy [] out r.table noClip = some out := by
      cases noClip <;> rfl
    obtain ⟨t', out', hrest, hreach, hlen'⟩ := @ih (y+1) (by omega) (s.buf.mem.advance t)
      (VSscrn.putEOL r.EOLS out) (by
        rw [VSscrn.putEOL, Out.put, List.length_append, List.length_singleton]
        omega)
    refine ⟨t', out', ?_, ?_, ?_⟩
    · rw [VSscrn.oldMiddle, if_pos ⟨by omega, by omega⟩]
      simp only [hlen, hshort, hnothing, hcopy]
      exact hrest
    · exact le_trans (Nat.le_max_left _ _) hreach
    · rw [hlen', VSscrn.putEOL, Out.put, List.length_append, List.length_singleton]
      omega

/-- The old reader keeps to its room only where it stores no line end. -/
theorem storesWithin_iff (h : Selectable s) (h1 : InBuffer s x1 y1) (h2 : InBuffer s x2 y2) :
    StoresWithin s x1 y1 x2 y2 r ↔ y1 = y2 ∧ max x1 x2 < s.maxwidth := by
  generalize hd : oldBounds x1 y1 x2 y2 = d
  have hwidth := h.width
  have hcounted := h.counted
  have hinside := oldBounds_inside h1 h2
  rw [hd] at hinside
  obtain ⟨hux, hlx, huy, hly, hrows, hcolumns⟩ := hinside
  have hrow : y1 = y2 ↔ d.uy = d.ly := by
    rw [← hd]
    simp only [oldBounds]
    omega
  have hlast : max x1 x2 = d.lx := by rw [← hd, oldBounds]
  have hcopy {table : Int} {noClip : Bool} (out : Out) :
      VSIstrcopy [] out table noClip = some out := by
    cases noClip <;> rfl
  have hnothing {t : Ptr} {x n : Int} (hn : n ≤ 0) : s.buf.textFrom t x n = [] := by
    rw [VSbuf.textFrom, Int.toNat_of_nonpos hn]
    rfl
  have hbounds (max : Int) := @VSOgettext_bounds s { r with max := max } d h x1 y1 x2 y2 h1 h2 hd
  rw [StoresWithin, hrow, hlast]
  have hput (out : Out) : 0 < (VSscrn.putEOL r.EOLS out).reach :=
    lt_of_lt_of_le (Nat.succ_pos _) (Nat.le_max_right _ _)
  constructor
  · intro hwithin
    -- what happens without any room
    have hzero := hbounds 0
    dsimp only at hzero
    by_cases hsingle : d.uy = d.ly
    · have hordered := hcolumns hsingle
      rw [if_pos hsingle, if_neg (by omega), hnothing (show short 0 ≤ 0 from le_rfl), hcopy,
        Option.map_some] at hzero
      refine ⟨hsingle, ?_⟩
      by_contra hfull
      have hstored := hwithin 0 le_rfl _ hzero
      rw [if_pos (by omega)] at hstored
      have hpos := hput ⟨[], 0⟩
      omega
    · -- a line end is stored behind the first row, whatever the room
      exfalso
      obtain ⟨t', out', hmiddle, hreach, hlen⟩ := @oldMiddle_without_room s { r with max := 0 } rfl
        hwidth.1 (!r.clips d) d.ly hly (d.ly-d.uy-1).toNat (d.uy+1) (by omega)
        (s.buf.viewLine (d.uy+1)) (VSscrn.putEOL r.EOLS ⟨[], 0⟩)
        (by
          rw [VSscrn.putEOL, Out.put, List.length_append, List.length_singleton, List.length_nil]
          omega)
      have hone : (VSscrn.putEOL r.EOLS ⟨[], 0⟩).text.length = 1 := rfl
      have hneg : short (0-out'.text.length) ≤ 0 := by
        rw [short_eq (by omega) (by omega)]
        omega
      rw [if_neg hsingle, if_neg (by omega), hnothing (show short 0 ≤ 0 from le_rfl), hcopy,
        Option.bind_some] at hzero
      rw [show ({ r with max := 0 } : CopyRequest).clips d = r.clips d from rfl, hmiddle,
        Option.bind_some, if_neg (by omega), hnothing hneg, hcopy, Option.map_some] at hzero
      have hstored := hwithin 0 le_rfl _ hzero
      change ((if d.lx = s.maxwidth then VSscrn.putEOL r.EOLS out' else out').reach : Int) ≤ 0
        at hstored
      have hpos := hput ⟨[], 0⟩
      split_ifs at hstored
      · have hpos' := hput out'
        omega
      · omega
  · rintro ⟨hsingle, hshort⟩ room hroom old hold
    have hordered := hcolumns hsingle
    rw [hbounds room, if_pos hsingle, Option.map_eq_some_iff] at hold
    obtain ⟨copied, hcopied, rfl⟩ := hold
    rw [if_neg hshort.ne]
    generalize hlen : (if d.lx-d.ux < room then d.lx-d.ux else room) = len at hcopied
    have hlen' : 0 ≤ len ∧ len ≤ room ∧ len ≤ 32767 := by
      rw [← hlen]
      split_ifs <;> omega
    have hsame : short len = len := short_eq (by omega) hlen'.2.2
    rw [hsame] at hcopied
    by_cases hends : CopyEnds r.table (!r.clips d)
        (s.buf.textFrom (s.buf.viewLine d.uy) (d.ux+1) len)
    · obtain ⟨out, hout, -, -, hreach⟩ := VSIstrcopy_ends hends ⟨[], 0⟩
      have heq : out = copied := Option.some.inj (hout.symm.trans hcopied)
      rw [heq, textFrom_length, List.length_nil] at hreach
      change copied.reach ≤ max 0 (0+len.toNat) at hreach
      omega
    · have hstuck := VSIstrcopy_stuck hends ⟨[], 0⟩
      exact absurd (hcopied.symm.trans hstuck) (Option.some_ne_none copied)

end Ends

/-- The readers of both scrollbacks copy the same text, whatever the contents, if and only if
the earlier end point is not to the right of the later one and no copy can be stopped by a
lone blank; and the old one keeps to its room if and only if a single row is selected, but
not its last column. -/
theorem selection_readers_iff (s : VSscrn) (x1 y1 x2 y2 : Int) (r : CopyRequest)
    (h : Selectable s) (h1 : InBuffer s x1 y1) (h2 : InBuffer s x2 y2)
    (hplain : ∀ p, VSiswrap (s.buf.mem.lattr p) = false) (hE : r.EOLS.length = 1) :
    ((∀ text, ReadersAgree (s.withText text) x1 y1 x2 y2 r) ↔
      (s.bounds x1 y1 x2 y2).ux ≤ (s.bounds x1 y1 x2 y2).lx ∧
        (r.table = 0 ∨ r.clips (s.bounds x1 y1 x2 y2) = true ∨ (x1, y1) = (x2, y2))) ∧
      ∀ text, StoresWithin (s.withText text) x1 y1 x2 y2 r ↔
        y1 = y2 ∧ max x1 x2 < s.maxwidth := by
  obtain ⟨eol, heol⟩ := List.length_eq_one_iff.mp hE
  generalize hd : s.bounds x1 y1 x2 y2 = d
  have hinside := bounds_inside h x1 y1 x2 y2
  rw [hd] at hinside
  have hinBuffer {x y : Int} (text : Ptr → Int → UInt8) (h : InBuffer s x y) :
      InBuffer (s.withText text) x y := ⟨h.column, h.row⟩
  have hends : (x1, y1) = (x2, y2) ↔ d.uy = d.ly ∧ d.ux = d.lx := by
    rw [bounds_inBuffer h1 h2] at hd
    rw [← hd, Prod.mk.injEq]
    simp only [VSscrn.orderEnds]
    split_ifs <;> simp only <;> omega
  rw [hends]
  constructor
  · constructor
    · intro hagree
      -- crossed columns differ on a screen full of letters
      have hordered : d.ux ≤ d.lx := by
        by_contra hcrossed
        exact crossed_disagree h h1 h2 heol hplain hd (not_le.mp hcrossed) (hagree _)
      -- and a blank in the last column stops the copy that keeps it
      refine ⟨hordered, ?_⟩
      by_contra hnone
      rw [not_or, not_or, Bool.not_eq_true] at hnone
      obtain ⟨htable, hclips, hsome⟩ := hnone
      obtain ⟨text, p, hp, hstops⟩ := contents_that_stop h hinside hordered htable hclips hsome
      obtain ⟨enough, hall⟩ := hagree text
      let room : Int := max enough (r.roomFor ((s.withText text).parts d))
      obtain ⟨new, -, hnew, -⟩ := hall room (le_max_left _ _)
      have hparts := @VSgettext_parts (s.withText text) { r with max := room }
        (withText_selectable h text) (show r.EOLS.length ≤ 32767 by omega) x1 y1 x2 y2
      rw [hparts, show (s.withText text).bounds x1 y1 x2 y2 = d from hd] at hnew
      have hcopied := (@copyParts_large { r with max := room } (r.clips d)
        ((s.withText text).parts d) room (le_max_right _ _) ⟨[], 0⟩).mp ⟨new, hnew⟩
      exact hstops (hcopied p hp)
    · rintro ⟨hordered, hstops⟩ text
      have hplain' : ∀ p, VSiswrap ((s.withText text).buf.mem.lattr p) = false := hplain
      apply readers_agree (withText_selectable h text) (hinBuffer text h1) (hinBuffer text h2) heol
        hd hordered (fun p hp => part_plain hplain' hp)
      intro p hp
      rcases hstops with htable | hclips | ⟨hrow, hcolumn⟩
      · exact Or.inl htable
      · rw [hclips]
        exact Or.inr (Or.inl rfl)
      · -- nothing is selected
        refine Or.inr (Or.inr ?_)
        obtain ⟨y, hy, rfl⟩ := List.mem_map.mp hp
        have hy' := mem_loopRange.mp hy
        have hfirst : y = d.uy := by omega
        rw [hfirst, part_first, if_pos hrow, hcolumn, Int.sub_self]
        exact fun hlone => Option.some_ne_none _ hlone.1.symm
  · intro text
    exact storesWithin_iff (withText_selectable h text) (hinBuffer text h1) (hinBuffer text h2)

theorem abcScreen_inBuffer {x y : Int} (hx : -1 ≤ x ∧ x ≤ 3) (hy : 0 ≤ y ∧ y ≤ 2) :
    InBuffer abcScreen x y := ⟨hx, hy⟩

theorem abcScreen_plain (p : Ptr) : VSiswrap (abcScreen.buf.mem.lattr p) = false := by
  change VSiswrap 0 = false
  decide

/-- From the start of the first row to the third column of the second one both readers agree,
and for a part of one row the old one keeps to its room. -/
theorem readers_agree_downwards :
    (∀ text, ReadersAgree (abcScreen.withText text) (-1) 0 2 1 (twoLetters 0)) ∧
      ∀ text, StoresWithin (abcScreen.withText text) (-1) 0 2 0 (twoLetters 0) :=
  ⟨(selection_readers_iff abcScreen (-1) 0 2 1 (twoLetters 0) abcScreen_selectable
      (abcScreen_inBuffer (by decide) (by decide)) (abcScreen_inBuffer (by decide) (by decide))
      abcScreen_plain rfl).1.mpr ⟨by decide, Or.inl rfl⟩,
    fun text => ((selection_readers_iff abcScreen (-1) 0 2 0 (twoLetters 0) abcScreen_selectable
      (abcScreen_inBuffer (by decide) (by decide)) (abcScreen_inBuffer (by decide) (by decide))
      abcScreen_plain rfl).2 text).mpr ⟨rfl, by decide⟩⟩

/-- A screen that is full of letters. -/
def fullScreen : VSscrn := abcScreen.withText fun _ _ => 120

/-- A selection from the right of a row to the left of the next one is another one for the old
reader, and a line end is stored without room for it. -/
theorem crossed_columns_differ :
    (fullScreen.VSgettext 2 0 0 1 (twoLetters 50)).map Out.text = some [120, 13, 120] ∧
      (fullScreen.VSOgettext 2 0 0 1 (twoLetters 50)).map Out.text =
        some [120, 120, 120, 13, 120, 120, 120] ∧
      ¬ReadersAgree fullScreen 2 0 0 1 (twoLetters 50) ∧
      fullScreen.VSOgettext (-1) 0 3 0 (twoLetters 0) = some ⟨[13], 1⟩ ∧
      ¬StoresWithin fullScreen (-1) 0 3 0 (twoLetters 0) := by
  have hstored : fullScreen.VSOgettext (-1) 0 3 0 (twoLetters 0) = some ⟨[13], 1⟩ := by
    decide +kernel
  refine ⟨by decide +kernel, by decide +kernel, ?_, hstored, ?_⟩
  · exact crossed_disagree abcScreen_selectable
      (abcScreen_inBuffer (by decide) (by decide)) (abcScreen_inBuffer (by decide) (by decide))
      (rfl : (twoLetters 50).EOLS = [13]) abcScreen_plain rfl (by decide)
  · intro hwithin
    exact absurd (hwithin 0 le_rfl _ hstored) (by decide)

end VS
