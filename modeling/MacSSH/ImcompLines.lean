import MacSSH.RasterStream
import Mathlib.Logic.Function.Basic
import Mathlib.Tactic.Common

/-! Compressed raster lines: four bytes stand for a tile of four by four pixels, a pattern of
sixteen bits and the two colours that it chooses from. -/
namespace VR

open VS

/-- A run of pixels drawn at a place, and the corner of what is to be redrawn. -/
structure RasterLine where
  x1 : Int
  y1 : Int
  x2 : Int
  y2 : Int
  data : List UInt8
deriving DecidableEq

/-- `(in[k] << 8) | in[k+1]` -/
def bitmap (line : ℕ → UInt8) (k : ℕ) : BitVec 16 :=
  BitVec.ofNat 16 ((line k).toNat <<< 8) ||| BitVec.ofNat 16 (line (k+1)).toNat

/-- Store a row of a tile, the bits taken from the left. -/
def storeRow (hi_color lo_color : UInt8) : ℕ → BitVec 16 → ℕ → (ℕ → UInt8) → ℕ → UInt8
  | 0, _, _, out => out
  | n+1, temp, at_, out =>
    storeRow hi_color lo_color n (temp <<< 1) (at_+1)
      (Function.update out at_ (if temp &&& 8 = 8 then hi_color else lo_color))

/-- Store the rows of the tile at `x`, from row `i` on. -/
def storeRows (line : ℕ → UInt8) (xdim x : ℕ) : ℕ → ℕ → (ℕ → UInt8) → ℕ → UInt8
  | 0, _, out => out
  | n+1, i, out =>
    storeRows line xdim x n (i+1)
      (storeRow (line (x+2)) (line (x+3)) 4 ((bitmap line x).sshiftRight ((3-i)*4)) (i*xdim+x) out)

/-- Store the tiles from `x` on. -/
def storeTiles (line : ℕ → UInt8) (xdim x : ℕ) (out : ℕ → UInt8) : ℕ → UInt8 :=
  if x < xdim then storeTiles line xdim (x+4) (storeRows line xdim x 4 0 out) else out
termination_by xdim-x
decreasing_by omega

/-- The expanded image, in what was there before. -/
def unimcomp (line out : ℕ → UInt8) (xdim xmax : ℕ) : ℕ → UInt8 :=
  storeTiles line (if xmax < xdim then xmax else xdim) 0 out

/-- Pixels that are repeated along a line, and the place behind the last. -/
def widen (sp2 : ℕ → UInt8) (expansion : ℕ) : ℕ → ℕ → ℕ → List UInt8 × ℕ
  | 0, _, p => ([], p)
  | n+1, i, p =>
    let rest := widen sp2 expansion n (i+1) (if (i+1)%expansion = 0 then p+1 else p)
    (sp2 p :: rest.1, rest.2)

/-- The loop of `VRimp` over the lines of the image, from line `j` on. -/
def drawLines (sp2 : ℕ → UInt8) (x y : Int) (expansion len lim i : ℕ) : ℕ → ℕ → ℕ → List RasterLine
  | 0, _, _ => []
  | n+1, j, p =>
    if 1 < expansion then
      let q := widen sp2 expansion lim 0 p
      (List.range expansion).map (fun k =>
          ⟨x, short (y+k+j*expansion), short (x+len), short (y+k+j*expansion), q.1⟩) ++
        drawLines sp2 x y expansion len lim i n (j+1) (q.2+1)
    else
      ⟨x, short (y+j), short (x+len), short (y+j), (List.range i).map fun c => sp2 (p+c)⟩ ::
        drawLines sp2 x y expansion len lim i n (j+1) (p+len)

/-- What `VRimp` draws in a window that was found. -/
def VRimp (x y : Int) (expansion len : ℕ) (line : ℕ → UInt8) (width : ℕ) (sp2 : ℕ → UInt8) :
    List RasterLine :=
  let lim := min (short (len*expansion)) width
  drawLines (unimcomp line sp2 len width) x y expansion len lim.toNat (min len width) 4 0 0

/-- The pixel of the coded block. -/
def pixel (line : ℕ → UInt8) (row col : ℕ) : UInt8 :=
  let k := col/4*4
  if (bitmap line k).getLsbD (15-4*row-col%4) then line (k+2) else line (k+3)

/-- The four lines of the block, as far as the window goes. -/
def block (x y : Int) (len : ℕ) (line : ℕ → UInt8) (width : ℕ) : List RasterLine :=
  (List.range 4).map fun row : ℕ => ⟨x, short (y+row), short (x+len), short (y+row),
    (List.range (min len width)).map (pixel line row)⟩

section Tiles
variable {line out : ℕ → UInt8} {xdim x a : ℕ}

theorem and_eight (temp : BitVec 16) : temp &&& 8 = 8 ↔ temp.getLsbD 3 = true := by
  have height : (8 : BitVec 16) = BitVec.twoPow 16 3 := by decide
  rw [height, BitVec.and_twoPow]
  split_ifs with h
  · exact iff_of_true rfl h
  · exact iff_of_false (by decide) h

theorem storeRow_out {hi lo : UInt8} {n at_ : ℕ} {temp : BitVec 16}
    (h : ¬ (at_ ≤ a ∧ a < at_+n)) : storeRow hi lo n temp at_ out a = out a := by
  induction n generalizing temp at_ out with
  | zero => rw [storeRow]
  | succ n ih =>
    rw [storeRow, ih (by omega), Function.update_of_ne (by omega)]

theorem storeRow_in {hi lo : UInt8} {n c at_ : ℕ} {temp : BitVec 16} (hc : c < n) (hn : n ≤ 4) :
    storeRow hi lo n temp at_ out (at_+c) = if temp.getLsbD (3-c) then hi else lo := by
  induction n generalizing temp at_ out c with
  | zero => exact absurd hc (Nat.not_lt_zero c)
  | succ n ih =>
    rw [storeRow]
    cases c with
    | zero =>
      rw [storeRow_out (by omega), Nat.add_zero, Function.update_self]
      exact if_congr (and_eight temp) rfl rfl
    | succ c =>
      have hshift : (temp <<< 1).getLsbD (3-c) = temp.getLsbD (3-(c+1)) := by
        rw [BitVec.getLsbD_shiftLeft, decide_eq_true (by omega : 3-c < 16),
          decide_eq_false (by omega : ¬ 3-c < 1), Nat.sub_add_eq]
        rfl
      have hat : at_+(c+1) = at_+1+c := by omega
      rw [hat, ih (by omega) (by omega), hshift]

/-- The place is not stored to by a row of the tile. -/
def Beside (xdim x a row : ℕ) : Prop := ¬ (row*xdim+x ≤ a ∧ a < row*xdim+x+4)

theorem storeRows_beside {n i : ℕ} (h : ∀ row, i ≤ row → row < i+n → Beside xdim x a row) :
    storeRows line xdim x n i out a = out a := by
  induction n generalizing i out with
  | zero => rw [storeRows]
  | succ n ih =>
    rw [storeRows, ih fun row hi hn => h row (by omega) (by omega)]
    exact storeRow_out (h i (Nat.le_refl _) (by omega))

/-- A row of a tile is stored from the left. -/
theorem storeRow_pixel {row c : ℕ} (hrow : row < 4) (hc : c < 4) (hx : 4 ∣ x) :
    storeRow (line (x+2)) (line (x+3)) 4 ((bitmap line x).sshiftRight ((3-row)*4))
      (row*xdim+x) out (row*xdim+x+c) = pixel line row (x+c) := by
  have hbit : ((bitmap line x).sshiftRight ((3-row)*4)).getLsbD (3-c) =
      (bitmap line x).getLsbD (15-4*row-c) := by
    have hplace : (3-row)*4+(3-c) = 15-4*row-c := by omega
    rw [BitVec.getLsbD_sshiftRight, hplace, if_pos (by omega),
      decide_eq_false (by omega : ¬ 16 ≤ 3-c)]
    rfl
  have htile : (x+c)/4*4 = x := by omega
  have hcol : (x+c)%4 = c := by omega
  rw [storeRow_in hc (Nat.le_refl 4), hbit]
  dsimp only [pixel]
  rw [htile, hcol]

/-- The last row of the tile that stores to a place decides. -/
theorem storeRows_last {n i row c : ℕ} (hi : i ≤ row) (hrow : row < i+n) (hin : i+n = 4)
    (hc : c < 4) (hx : 4 ∣ x)
    (hlater : ∀ row', row < row' → row' < 4 → Beside xdim x (row*xdim+x+c) row') :
    storeRows line xdim x n i out (row*xdim+x+c) = pixel line row (x+c) := by
  induction n generalizing i out with
  | zero => omega
  | succ n ih =>
    rw [storeRows]
    rcases Nat.eq_or_lt_of_le hi with rfl | hlt
    · rw [storeRows_beside fun row' hl hr => hlater row' (by omega) (by omega)]
      exact storeRow_pixel (by omega) hc hx
    · exact ih (by omega) (by omega) (by omega)

/-- What a tile leaves at a place was there, or is a pixel of it. -/
theorem storeRows_of {n i : ℕ} (hin : i+n = 4) (hx : 4 ∣ x) :
    storeRows line xdim x n i out a = out a ∨ ∃ row < 4, ∃ col,
      a = row*xdim+col ∧ storeRows line xdim x n i out a = pixel line row col := by
  induction n generalizing i out with
  | zero => exact Or.inl rfl
  | succ n ih =>
    rw [storeRows]
    rcases @ih (storeRow (line (x+2)) (line (x+3)) 4 ((bitmap line x).sshiftRight ((3-i)*4))
      (i*xdim+x) out) (i+1) (by omega) with hkept | hset
    · rw [hkept]
      by_cases hat : i*xdim+x ≤ a ∧ a < i*xdim+x+4
      · obtain ⟨c, rfl⟩ := Nat.exists_eq_add_of_le hat.1
        refine Or.inr ⟨i, by omega, x+c, Nat.add_assoc _ _ _, ?_⟩
        exact storeRow_pixel (by omega) (by omega) hx
      · exact Or.inl (storeRow_out hat)
    · exact Or.inr hset

theorem rows_apart {row row' : ℕ} (h : row < row') : row*xdim+xdim ≤ row'*xdim := by
  calc row*xdim+xdim = (row+1)*xdim := (Nat.succ_mul row xdim).symm
    _ ≤ row'*xdim := Nat.mul_le_mul_right xdim h

theorem storeTiles_stop (h : ¬ x < xdim) : storeTiles line xdim x out = out := by
  rw [storeTiles, if_neg h]

theorem storeTiles_step (h : x < xdim) :
    storeTiles line xdim x out =
      storeTiles line xdim (x+4) (storeRows line xdim x 4 0 out) := by
  rw [storeTiles, if_pos h]

/-- Where the tiles fill the lines, each stays in its own. -/
theorem storeTiles_whole (hdim : 4 ∣ xdim) (hx : 4 ∣ x) (hle : x ≤ xdim)
    (hout : ∀ row < 4, ∀ col < x, out (row*xdim+col) = pixel line row col) :
    ∀ row < 4, ∀ col < xdim, storeTiles line xdim x out (row*xdim+col) = pixel line row col := by
  fun_induction storeTiles line xdim x out with
  | case1 x out hlt ih =>
    apply ih (by omega) (by omega)
    intro row hrow col hcol
    -- a tile ends in its line: another line's places are beside it
    have hothers : ∀ row', row ≠ row' → Beside xdim x (row*xdim+col) row' := by
      rintro row' hne ⟨hlow, hup⟩
      rcases Nat.lt_or_gt_of_ne hne with h | h
      · have := @rows_apart xdim _ _ h
        omega
      · have := @rows_apart xdim _ _ h
        omega
    rcases Nat.lt_or_ge col x with hbefore | hin
    · rw [storeRows_beside, hout row hrow col hbefore]
      intro row' _ _
      rcases Decidable.eq_or_ne row row' with rfl | hne
      · rintro ⟨hlow, -⟩
        omega
      · exact hothers row' hne
    · obtain ⟨c, rfl⟩ := Nat.exists_eq_add_of_le hin
      rw [← Nat.add_assoc]
      apply storeRows_last (Nat.zero_le row) (by omega) rfl (by omega) hx
      intro row' hlater _
      rw [Nat.add_assoc]
      exact hothers row' (Nat.ne_of_lt hlater)
  | case2 x out hge =>
    intro row hrow col hcol
    exact hout row hrow col (by omega)

/-- One tile alone: a line is stored over what the one before it left there. -/
theorem storeTiles_single (hdim : xdim < 4) :
    ∀ row < 4, ∀ col < xdim, storeTiles line xdim 0 out (row*xdim+col) = pixel line row col := by
  intro row hrow col hcol
  rw [storeTiles_step (by omega), storeTiles_stop (by omega)]
  have hlast := @storeRows_last line out xdim 0 4 0 row col (Nat.zero_le row) (by omega) rfl
    (by omega) (Nat.dvd_zero 4)
  rw [Nat.add_zero, Nat.zero_add] at hlast
  apply hlast
  rintro row' hlater - ⟨hlow, -⟩
  have := @rows_apart xdim _ _ hlater
  omega

/-- The last tile of lines that it crosses the end of, left behind in the next line. -/
theorem storeTiles_crossed (hx : 4 ∣ x) (hdim : ¬ 4 ∣ xdim) (hbefore : x < xdim)
    (hfour : 4 < xdim) : storeTiles line xdim x out xdim = pixel line 0 xdim := by
  fun_induction storeTiles line xdim x out with
  | case1 x out hlt ih =>
    rcases Nat.lt_or_ge (x+4) xdim with hmore | hlast
    · exact ih (by omega) hmore
    · rw [storeTiles_stop (by omega)]
      have hset := @storeRows_last line out xdim x 4 0 0 (xdim-x) (Nat.le_refl 0) (by omega) rfl
        (by omega) hx
      have hat : 0*xdim+x+(xdim-x) = xdim := by omega
      have hcol : x+(xdim-x) = xdim := by omega
      rw [hat, hcol] at hset
      apply hset
      rintro row' hlater - ⟨hlow, -⟩
      have := @rows_apart xdim _ _ hlater
      omega
  | case2 x out hge => exact absurd hbefore hge

theorem storeTiles_of (hx : 4 ∣ x) :
    storeTiles line xdim x out a = out a ∨ ∃ row < 4, ∃ col,
      a = row*xdim+col ∧ storeTiles line xdim x out a = pixel line row col := by
  fun_induction storeTiles line xdim x out with
  | case1 x out hlt ih =>
    rcases ih (by omega) with hkept | hset
    · rw [hkept]
      exact storeRows_of rfl hx
    · exact Or.inr hset
  | case2 x out hge => exact Or.inl rfl

/-- A line with one bit, the first of the second row, that chooses the color 1. -/
def firstBelow (k : ℕ) : UInt8 := if k = 0 then 8 else if k = 2 then 1 else 0

theorem pixel_firstBelow {row col : ℕ} (hrow : row < 4) :
    pixel firstBelow row col = if row = 1 ∧ col = 0 then 1 else 0 := by
  dsimp only [pixel]
  rcases Nat.lt_or_ge col 4 with hfirst | hother
  · have htile : col/4*4 = 0 := by omega
    have hcol : col%4 = col := by omega
    have hall : ∀ row < 4, ∀ col < 4, (if (bitmap firstBelow 0).getLsbD (15-4*row-col) then
        firstBelow (0+2) else firstBelow (0+3)) = if row = 1 ∧ col = 0 then 1 else 0 := by
      decide
    rw [htile, hcol]
    exact hall row hrow col hfirst
  · have hhi : firstBelow (col/4*4+2) = 0 := by
      rw [firstBelow, if_neg (by omega), if_neg (by omega)]
    have hlo : firstBelow (col/4*4+3) = 0 := by
      rw [firstBelow, if_neg (by omega), if_neg (by omega)]
    rw [hhi, hlo, ite_self, if_neg (by omega)]

/-- A line with the upper row of its last tile in the color 1. -/
def lastAbove (len k : ℕ) : UInt8 :=
  if k = len/4*4 then 255 else if k = len/4*4+2 then 1 else 0

theorem pixel_lastAbove : pixel (lastAbove xdim) 0 xdim = 1 := by
  have hpattern : lastAbove xdim (xdim/4*4) = 255 := if_pos rfl
  have hnext : lastAbove xdim (xdim/4*4+1) = 0 := by
    rw [lastAbove, if_neg (by omega), if_neg (by omega)]
  have hhi : lastAbove xdim (xdim/4*4+2) = 1 := by
    rw [lastAbove, if_neg (by omega), if_pos rfl]
  have hbits : ∀ c < 4, ((BitVec.ofNat 16 (255 <<< 8)) ||| BitVec.ofNat 16 0).getLsbD
      (15-4*0-c) = true := by
    decide
  dsimp only [pixel]
  rw [bitmap, hpattern, hnext, hhi]
  exact if_pos (hbits (xdim%4) (Nat.mod_lt _ (by decide)))

theorem pixel_lastAbove_below (h : 4 < xdim) : pixel (lastAbove xdim) 1 0 = 0 := by
  have hhi : lastAbove xdim (0/4*4+2) = 0 := by
    rw [lastAbove, if_neg (by omega), if_neg (by omega)]
  have hlo : lastAbove xdim (0/4*4+3) = 0 := by
    rw [lastAbove, if_neg (by omega), if_neg (by omega)]
  dsimp only [pixel]
  rw [hhi, hlo, ite_self]

end Tiles

section Lines
variable {line sp2 : ℕ → UInt8} {x y : Int} {len width : ℕ}

theorem drawLines_one {lim i n j p : ℕ} : drawLines sp2 x y 1 len lim i n j p =
    (List.range' j n).map fun row : ℕ => ⟨x, short (y+row), short (x+len), short (y+row),
      (List.range i).map fun col => sp2 (p+(row-j)*len+col)⟩ := by
  induction n generalizing j p with
  | zero => rfl
  | succ n ih =>
    rw [drawLines, if_neg (by decide), ih, List.range'_succ, List.map_cons, Nat.sub_self,
      Nat.zero_mul, Nat.add_zero]
    apply congrArg (List.cons _)
    apply List.map_congr_left
    intro row hrow
    have hbehind : row-j = row-(j+1)+1 := by
      have := List.mem_range'_1.mp hrow
      omega
    have hplace : p+(row-j)*len = p+len+(row-(j+1))*len := by
      rw [hbehind, Nat.succ_mul]
      omega
    rw [hplace]

/-- What is drawn is the block where the image has its pixels. -/
theorem VRimp_block : VRimp x y 1 len line width sp2 = block x y len line width ↔
    ∀ row < 4, ∀ col < min len width,
      unimcomp line sp2 len width (row*len+col) = pixel line row col := by
  rw [VRimp, drawLines_one, block, ← @List.range_eq_range' 4, List.map_inj_left]
  apply forall_congr'
  intro row
  rw [List.mem_range]
  apply imp_congr_right
  intro _
  rw [RasterLine.mk.injEq]
  constructor
  · rintro ⟨-, -, -, -, hdata⟩ col hcol
    have hcell := List.map_inj_left.mp hdata col (List.mem_range.mpr hcol)
    rw [Nat.sub_zero, Nat.zero_add] at hcell
    exact hcell
  · intro h
    refine ⟨rfl, rfl, rfl, rfl, List.map_inj_left.mpr fun col hcol => ?_⟩
    rw [Nat.sub_zero, Nat.zero_add]
    exact h col (List.mem_range.mp hcol)

/-- The lines are right for every code exactly where the window is not narrower than they
are, and they end with a tile or have only one. -/
theorem VRimp_iff (x y : Int) {len width : ℕ} :
    (∀ line sp2, VRimp x y 1 len line width sp2 = block x y len line width) ↔
      width = 0 ∨ (len ≤ width ∧ (4 ∣ len ∨ len < 4)) := by
  constructor
  · intro hall
    by_contra hbad
    rcases Nat.lt_or_ge width len with hwide | hfits
    · -- the second line is drawn from behind the place where it begins
      have hrow := VRimp_block.mp (hall firstBelow fun _ => 0) 1 (by decide) 0 (by omega)
      rw [pixel_firstBelow (by decide), unimcomp, if_pos hwide] at hrow
      rcases @storeTiles_of firstBelow (fun _ => 0) width 0 (1*len+0) (Nat.dvd_zero 4) with
        hkept | ⟨row, hlt, col, hat, hset⟩
      · rw [hkept] at hrow
        exact absurd hrow (by decide)
      · rw [hset, pixel_firstBelow hlt] at hrow
        by_cases hfirst : row = 1 ∧ col = 0
        · rw [hfirst.1, hfirst.2] at hat
          omega
        · rw [if_neg hfirst] at hrow
          exact absurd hrow (by decide)
    · -- the last tile goes on where the second line begins
      have hrow := VRimp_block.mp (hall (lastAbove len) fun _ => 0) 1 (by decide) 0 (by omega)
      rw [unimcomp, if_neg (Nat.not_lt.mpr hfits), Nat.one_mul, Nat.add_zero,
        storeTiles_crossed (Nat.dvd_zero 4) (by omega) (by omega) (by omega), pixel_lastAbove,
        pixel_lastAbove_below (by omega)] at hrow
      exact absurd hrow (by decide)
  · intro h line sp2
    rw [VRimp_block]
    rcases h with rfl | ⟨hfits, hwhole | hsingle⟩
    · intro row _ col hcol
      omega
    · rw [unimcomp, if_neg (Nat.not_lt.mpr hfits), Nat.min_eq_left hfits]
      apply storeTiles_whole hwhole (Nat.dvd_zero 4) (Nat.zero_le len)
      intro row _ col hcol
      omega
    · rw [unimcomp, if_neg (Nat.not_lt.mpr hfits), Nat.min_eq_left hfits]
      exact storeTiles_single hsingle

/-- A line of two tiles in a window that has room for more. -/
theorem two_tiles_drawn : ∀ line sp2, VRimp 0 0 1 8 line 20 sp2 = block 0 0 8 line 20 :=
  (@VRimp_iff 0 0 8 20).mpr (by decide)

/-- Five pixels: the second tile leaves the last three of its first row in the next line. -/
theorem tile_over_the_end : ¬ ∀ (len width : ℕ) (line sp2 : ℕ → UInt8), (width : Int) ≤ LINEMAX →
    VRimp 0 0 1 len line width sp2 = block 0 0 len line width := by
  intro hall
  have hrow := VRimp_block.mp (hall 5 5 (lastAbove 5) (fun _ => 0) (by decide)) 1 (by decide) 0
    (by decide)
  rw [unimcomp, if_neg (by decide), Nat.one_mul, Nat.add_zero,
    storeTiles_crossed (Nat.dvd_zero 4) (by decide) (by decide) (by decide), pixel_lastAbove,
    pixel_lastAbove_below (by decide)] at hrow
  exact absurd hrow (by decide)

end Lines

end VR
