import MacSSH.ScreenScrolled
import Mathlib.Dynamics.PeriodicPts.Defs

/-! The array of screen rows and the list of lines agree, and scrolling, saving,
inserting and deleting keep them in agreement. -/
namespace VS

open Linked

/-- The list of lines from `buftop` on has `k` lines: the walk along `next` meets
only lines in use and `prev` undoes it. -/
structure ListFrom (b : VSbuf) (k : ℕ) : Prop where
  pos : 0 < k
  live : ∀ i < k, b.next^[i] b.buftop ≠ NULL ∧ b.next^[i] b.buftop < b.mem.brk
  prev : ∀ i, i+1 < k → b.prev (b.next^[i+1] b.buftop) = b.next^[i] b.buftop

/-- The list ends with `NULL`, and a line before `buftop` is linked to it both
ways. -/
structure NullEnded (b : VSbuf) (k : ℕ) : Prop extends ListFrom b k where
  last : b.next^[k] b.buftop = NULL
  before : b.prev b.buftop < b.mem.brk
  back : b.prev b.buftop = NULL ∨ b.next (b.prev b.buftop) = b.buftop
  reached : b.numlines < k

/-- The list comes back to `buftop`, and not earlier. -/
structure Circular (b : VSbuf) (k : ℕ) : Prop extends ListFrom b k where
  closed : b.next^[k] b.buftop = b.buftop
  back : b.prev b.buftop = b.next^[k-1] b.buftop
  first : ∀ i, 0 < i → i < k → b.next^[i] b.buftop ≠ b.buftop

/-- The array of rows agrees with the list of lines: row by row it follows the
links both ways from `scrntop`, its lines are distinct, and `scrntop` is
`numlines` links after the start of the list. -/
structure WellFormed (b : VSbuf) : Prop where
  lines_nonneg : 0 ≤ b.lines
  lines_lt : b.lines < 32767
  length : (b.linest.length : Int) = b.lines+1
  top : b.row 0 = b.scrntop
  next : ∀ i, 0 ≤ i → i < b.lines → b.row (i+1) = b.next (b.row i)
  prev : ∀ i, 0 ≤ i → i < b.lines → b.prev (b.row (i+1)) = b.row i
  distinct : ∀ i j, 0 ≤ i → i < j → j ≤ b.lines → b.row i ≠ b.row j
  node : ∀ i, 0 ≤ i → i ≤ b.lines → b.row i ≠ NULL
  list : ∃ k, NullEnded b k ∨ Circular b k
  numlines_nonneg : 0 ≤ b.numlines
  scrntop : b.next^[b.numlines.toNat] b.buftop = b.scrntop

/-- The array of rows is the walk from `scrntop`, `prev` and `next` undo each
other along it, and no line is in it twice. -/
structure RowsAgree (b : VSbuf) : Prop where
  walk : b.linest = List.iterate b.next b.scrntop (b.lines+1).toNat
  links : ∀ i, 0 ≤ i → i < b.lines →
    b.next (b.row i) = b.row (i+1) ∧ b.prev (b.row (i+1)) = b.row i
  distinct : b.linest.Nodup

section Agree
variable {b : VSbuf} {e : Option Ptr} {pre post : List Ptr}

theorem Threaded.rowsAgree (h : Threaded b e pre post) : RowsAgree b := by
  have hlen := h.length
  refine ⟨?_, ?_, h.strand.nodup.of_append_left.of_append_right⟩
  · have hwalk := h.strand.walk h.linest_ne_nil
    have hn : (b.lines+1).toNat = b.linest.length := by omega
    rw [h.top, hn]
    exact hwalk.symm
  · intro i h0 hi
    have hi' : i.toNat+1 < b.linest.length := by omega
    have hlinks := seg_links h.strand.middle i.toNat hi'
    have hrow : b.row i = b.linest[i.toNat] := by
      rw [VSbuf.row, List.getD_eq_getElem?_getD, List.getElem?_eq_getElem (by omega),
        Option.getD_some]
    have hrow' : b.row (i+1) = b.linest[i.toNat+1] := by
      rw [row_toNat b (by omega : (i+1).toNat = i.toNat+1), List.getD_eq_getElem?_getD,
        List.getElem?_eq_getElem hi', Option.getD_some]
    rw [hrow, hrow']
    exact hlinks

/-- The rows are the walk from `scrntop`. -/
theorem WellFormed.row_iterate (h : WellFormed b) (i : ℕ) (hi : (i : Int) ≤ b.lines) :
    b.row i = b.next^[i] b.scrntop := by
  induction i with
  | zero => exact h.top
  | succ i ih =>
    have hrow := h.next i (by omega) (by omega)
    rw [ih (by omega)] at hrow
    rw [Function.iterate_succ_apply']
    exact hrow

theorem WellFormed.linest_eq (h : WellFormed b) :
    b.linest = List.iterate b.next b.scrntop (b.lines+1).toNat := by
  have hlen := h.length
  apply List.ext_getElem
  · rw [List.length_iterate]
    omega
  · intro i hi hi'
    rw [List.getElem_iterate, ← h.row_iterate i (by omega), VSbuf.row, Int.toNat_natCast,
      List.getD_eq_getElem?_getD, List.getElem?_eq_getElem hi, Option.getD_some]

/-- Rows that start a part of the list which is long enough are its first lines. -/
theorem WellFormed.threaded_of (h : WellFormed b) {M : List Ptr}
    (hs : Strand NULL b.mem.links e (pre ++ M)) (hhead : b.scrntop = M.headD NULL)
    (hlen : b.lines+1 ≤ M.length) (hlive : ∀ a ∈ pre ++ M, a < b.mem.brk)
    (he : ∀ p ∈ e, p < b.mem.brk) :
    Threaded b e pre (M.drop (b.lines+1).toNat) := by
  have h0 := h.lines_nonneg
  have hM : M ≠ [] := by
    intro hn
    rw [hn, List.length_nil] at hlen
    omega
  have hwalk : List.iterate b.next b.scrntop M.length = M := by
    have hs' : Strand NULL b.mem.links e (pre ++ M ++ []) := by rwa [List.append_nil]
    rw [hhead]
    exact hs'.walk hM
  have hrows : b.linest = M.take (b.lines+1).toNat := by
    rw [h.linest_eq, ← hwalk]
    apply List.ext_getElem
    · simp only [List.length_iterate, List.length_take]
      omega
    · intro i hi hi'
      simp only [List.getElem_iterate, List.getElem_take]
  have hall : pre ++ b.linest ++ M.drop (b.lines+1).toNat = pre ++ M := by
    rw [hrows, List.append_assoc, List.take_append_drop]
  refine ⟨?_, h.length, h0, ?_, ?_, he⟩
  · rw [hall]
    exact hs
  · rw [← h.top, row_zero]
  · rw [hall]
    exact hlive

theorem ListFrom.mem {k : ℕ} (h : ListFrom b k) {a : Ptr}
    (ha : a ∈ List.iterate b.next b.buftop k) : a ≠ NULL ∧ a < b.mem.brk := by
  obtain ⟨i, hi, rfl⟩ := List.mem_iterate.mp ha
  exact h.live i hi

/-- The list of a screen that ends with `NULL`, as one open list. -/
theorem NullEnded.strand {k : ℕ} (h : NullEnded b k) :
    Strand NULL b.mem.links (some (b.prev b.buftop)) (List.iterate b.next b.buftop k) := by
  have hseg := seg_walk b.mem.links b.buftop k h.prev
  have hlast : b.mem.links.next^[k] b.buftop = NULL := h.last
  rw [hlast] at hseg
  refine ⟨hseg, ?_, ?_, ?_⟩
  · exact nodup_walk_null b.mem.links b.buftop k (fun i hi => (h.live i hi).1) hlast
  · exact fun hn => (h.mem hn).1 rfl
  · intro p hp hmem
    rw [← Option.some.inj hp] at hmem
    rcases h.back with hnull | hnext
    · exact (h.mem hmem).1 hnull
    obtain ⟨i, hi, hpi⟩ := List.mem_iterate.mp hmem
    -- the line before `buftop` would be in the list, and `buftop` in it twice
    have hcycle : b.next^[i+1] b.buftop = b.buftop := by
      rw [Function.iterate_succ_apply', ← hpi]
      exact hnext
    apply (h.live (k-(i+1)) (by omega)).1
    have hk : k-(i+1)+(i+1) = k := by omega
    rw [← h.last, ← hk, Function.iterate_add_apply, hcycle, hk]

theorem Circular.strand {k : ℕ} (h : Circular b k) :
    Strand NULL b.mem.links none (List.iterate b.next b.buftop k) := by
  have hseg := seg_walk b.mem.links b.buftop k h.prev
  have hclosed : b.mem.links.next^[k] b.buftop = b.buftop := h.closed
  obtain ⟨k, rfl⟩ : ∃ j, k = j+1 := ⟨k-1, by have := h.pos; omega⟩
  have hlast : (List.iterate b.next b.buftop (k+1)).getLastD NULL = b.prev b.buftop := by
    rw [h.back, Nat.add_sub_cancel, List.getLastD_eq_getLast?, List.getLast?_eq_getElem?,
      List.length_iterate, Nat.add_sub_cancel, List.getElem?_iterate _ _ _ _ (Nat.lt_succ_self k),
      Option.getD_some]
  rw [hclosed] at hseg
  refine ⟨?_, ?_, fun hn => (h.mem hn).1 rfl, nofun⟩
  · rw [before_none, hlast]
    exact hseg
  · exact nodup_walk_first b.mem.links b.buftop (k+1) h.prev h.first

theorem headD_iterate {f : Ptr → Ptr} {a : Ptr} {k : ℕ} (hk : 0 < k) :
    (List.iterate f a k).headD NULL = a := by
  obtain ⟨k, rfl⟩ := Nat.exists_eq_succ_of_ne_zero hk.ne'
  rfl

/-- A well-formed screen whose list ends with `NULL`. -/
theorem WellFormed.threaded_open (h : WellFormed b) {k : ℕ} (hk : NullEnded b k) :
    ∃ e pre post, Threaded b e pre post ∧ Anchored b e pre := by
  have hnum := h.numlines_nonneg
  have hreach := hk.reached
  have h0 := h.lines_nonneg
  have hN : b.numlines.toNat+(k-b.numlines.toNat) = k := by omega
  have hstr := hk.strand
  rw [← hN, List.iterate_add, h.scrntop] at hstr
  have hlen : b.lines+1 ≤ (List.iterate b.next b.scrntop (k-b.numlines.toNat)).length := by
    rw [List.length_iterate]
    by_contra hlt
    -- the row behind the last line of the list would be `NULL`
    have hrow := h.row_iterate (k-b.numlines.toNat) (by omega)
    rw [← h.scrntop, ← Function.iterate_add_apply, Nat.add_comm, hN, hk.last] at hrow
    exact h.node _ (by omega) (by omega) hrow
  have hmem : ∀ a ∈ List.iterate b.next b.buftop b.numlines.toNat ++
      List.iterate b.next b.scrntop (k-b.numlines.toNat), a < b.mem.brk := by
    intro a ha
    rw [← h.scrntop, ← List.iterate_add, hN] at ha
    exact (hk.mem ha).2
  have hth := h.threaded_of hstr (headD_iterate (by omega)).symm hlen hmem
    (fun p hp => Option.some.inj hp ▸ hk.before)
  refine ⟨_, _, _, hth, fun _ => ?_⟩
  have hfirst := h.scrntop
  rcases Nat.eq_zero_or_pos b.numlines.toNat with hz | hz
  · rw [hz] at hfirst ⊢
    have htop : b.linest.headD NULL = b.scrntop := by rw [← row_zero, h.top]
    have hnil : List.iterate b.next b.buftop 0 = [] := rfl
    rw [hnil, List.nil_append, htop]
    exact hfirst
  · have hne : List.iterate b.next b.buftop b.numlines.toNat ≠ [] := by
      rw [Ne, List.iterate_eq_nil]
      omega
    rw [headD_append_of_ne_nil NULL hne, headD_iterate hz]

/-- A well-formed screen whose list is a ring. -/
theorem WellFormed.threaded_ring (h : WellFormed b) {k : ℕ} (hk : Circular b k) :
    ∃ e pre post, Threaded b e pre post ∧ Anchored b e pre := by
  have h0 := h.lines_nonneg
  have hpos := hk.pos
  have hper : Function.IsPeriodicPt b.next k b.buftop := hk.closed
  generalize hn : b.numlines.toNat%k = n
  have hlt : n < k := by
    rw [← hn]
    exact Nat.mod_lt _ hpos
  have hscr : b.next^[n] b.buftop = b.scrntop := by
    rw [← hn, hper.iterate_mod_apply, h.scrntop]
  have hN : n+(k-n) = k := by omega
  have hstr := hk.strand
  rw [← hN, List.iterate_add, hscr] at hstr
  have hrot : Strand NULL b.mem.links none ([] ++ (List.iterate b.next b.scrntop (k-n) ++
      List.iterate b.next b.buftop n)) := by
    rw [List.nil_append]
    exact hstr.rotate
  have hlen : b.lines+1 ≤ (List.iterate b.next b.scrntop (k-n) ++
      List.iterate b.next b.buftop n).length := by
    rw [List.length_append, List.length_iterate, List.length_iterate]
    by_contra hshort
    -- the walk along the rows would come back to the first one
    apply h.distinct 0 k le_rfl (by omega) (by omega)
    rw [h.top, h.row_iterate k (by omega), ← hscr, ← Function.iterate_add_apply, Nat.add_comm,
      Function.iterate_add_apply, hk.closed]
  have hhead : b.scrntop = (List.iterate b.next b.scrntop (k-n) ++
      List.iterate b.next b.buftop n).headD NULL := by
    rw [headD_append_of_ne_nil, headD_iterate (by omega)]
    rw [Ne, List.iterate_eq_nil]
    omega
  have hmem : ∀ a ∈ [] ++ (List.iterate b.next b.scrntop (k-n) ++
      List.iterate b.next b.buftop n), a < b.mem.brk := by
    intro a ha
    apply (hk.mem _).2
    rw [← hN, List.iterate_add, hscr]
    simp only [List.nil_append, List.mem_append] at ha ⊢
    exact ha.symm
  exact ⟨none, [], _, h.threaded_of hrot hhead hlen hmem nofun, fun hne => absurd rfl hne⟩

theorem WellFormed.threaded (h : WellFormed b) :
    ∃ e pre post, Threaded b e pre post ∧ Anchored b e pre := by
  obtain ⟨k, hk | hk⟩ := h.list
  · exact h.threaded_open hk
  · exact h.threaded_ring hk

end Agree

/-- From a well-formed screen, with a scrolling region of at least two rows,
whichever allocations succeed, scrolling, saving the screen and deleting or
inserting any number of lines at any row leave the array of rows and the list of
lines in agreement. -/
theorem rows_agree_after_line_operations (b : VSbuf) (r : VSregion) (h : WellFormed b)
    (hlinked : b.oldScrollback = false)
    (hregion : 0 ≤ r.top ∧ r.top < r.bottom ∧ r.bottom ≤ b.lines) :
    RowsAgree (VSIscroll r b) ∧ RowsAgree (VSIscroff r b) ∧
      ∀ n s, 1 ≤ n → 0 ≤ startRow r s → startRow r s ≤ b.lines →
        RowsAgree (VSIdellines r b n s) ∧ RowsAgree (VSIinslines r b n s) := by
  obtain ⟨e, pre, post, hth, hbuf⟩ := h.threaded
  obtain ⟨htop, hlt, hbottom⟩ := hregion
  have hlegal : Legal r b := ⟨htop, hlt.le, hbottom, Or.inr (by omega), h.lines_lt⟩
  refine ⟨?_, ?_, ?_⟩
  · obtain ⟨e', pre', post', hth', -⟩ := VSIscroll_keeps hth hlinked hbuf hlegal
    exact hth'.rowsAgree
  · obtain ⟨e', pre', post', hkeep⟩ := VSIscroff_spec r hth hlinked hbuf h.lines_lt
    exact hkeep.threaded.rowsAgree
  · intro n s hn hs hs'
    have hon : OnScreen r b s := ⟨hs, hs', by omega, hbottom, h.lines_lt⟩
    exact ⟨(VSIdellines_rows hth hlinked hon hn).2.rowsAgree,
      (VSIinslines_rows hth hlinked hon hn).2.rowsAgree⟩

/-- A screen of two rows with one unused line below it. -/
def twoRows : VSbuf where
  mem := { links := chainLinks ⟨fun _ => 0, fun _ => 0⟩ 1 3, text := fun _ _ => 32,
           attr := fun _ _ => 0, lattr := fun _ => 0, brk := 4, grants := [true] }
  scrntop := 1
  buftop := 1
  vistop := 1
  linest := [1, 2]
  attrst := []
  lines := 1
  maxlines := 48
  numlines := 0
  allwidth := 255
  savelines := true
  oldScrollback := false
  Rtop := 0
  Rbottom := 1
  Rleft := 0
  Rright := 79

/-- The whole screen of two rows as the scrolling region. -/
def twoRowsRegion : VSregion where
  vtemulation := .vt100
  y := 1
  top := 0
  bottom := 1
  maxwidth := 79
  attrib := 0

theorem twoRows_wellFormed : WellFormed twoRows := by
  have hone : ∀ i : Int, 0 ≤ i → i < twoRows.lines → i = 0 := by
    intro i h0 h1
    have : twoRows.lines = 1 := rfl
    omega
  refine ⟨by decide, by decide, by decide, by decide, ?_, ?_, ?_, ?_, ⟨3, Or.inl ?_⟩, by decide,
    by decide⟩
  · intro i h0 h1
    rw [hone i h0 h1]
    decide
  · intro i h0 h1
    rw [hone i h0 h1]
    decide
  · intro i j h0 hij hj
    have hl : twoRows.lines = 1 := rfl
    have hi : i = 0 := by omega
    have hj : j = 1 := by omega
    rw [hi, hj]
    decide
  · intro i h0 h1
    have hl : twoRows.lines = 1 := rfl
    have hi : i = 0 ∨ i = 1 := by omega
    rcases hi with rfl | rfl <;> decide
  · refine ⟨⟨by decide, by decide, ?_⟩, by decide, by decide, by decide, by decide⟩
    intro i hi
    have hi' : i = 0 ∨ i = 1 := by omega
    rcases hi' with rfl | rfl <;> decide

/-- The agreement after every operation on the screen of two rows. -/
theorem rows_agree_two_rows :
    RowsAgree (VSIscroll twoRowsRegion twoRows) ∧ RowsAgree (VSIscroff twoRowsRegion twoRows) ∧
      RowsAgree (VSIdellines twoRowsRegion twoRows 1 0) ∧
      RowsAgree (VSIinslines twoRowsRegion twoRows 1 (-1)) := by
  obtain ⟨hscroll, hscroff, hedit⟩ := rows_agree_after_line_operations twoRows twoRowsRegion
    twoRows_wellFormed rfl (by decide)
  exact ⟨hscroll, hscroff, (hedit 1 0 (by decide) (by decide) (by decide)).1,
    (hedit 1 (-1) (by decide) (by decide) (by decide)).2⟩

end VS
