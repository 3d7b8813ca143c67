import MacSSH.LinkedSegments
import Mathlib.Data.List.Iterate
import Mathlib.Data.List.Perm.Lattice

/-! Whole lists of doubly linked memory, open or closed into a ring, and the
exchange of two adjacent blocks inside one. -/
namespace Linked

variable {α : Type*} {null : α} {m m' : Links α} {e : Option α}

/-- The node before the first of `l`: the given one when the list is open, the
last of `l` when it is a ring. -/
def before (null : α) (e : Option α) (l : List α) : α := e.getD (l.getLastD null)

/-- The node after the last of `l`: none when the list is open, the first of `l`
when it is a ring. -/
def after (null : α) (e : Option α) (l : List α) : α := if e.isSome then null else l.headD null

/-- The nodes of `l` are one linked list: a ring when `e` is `none`, else an open
list behind the node that `e` gives. -/
structure Strand (null : α) (m : Links α) (e : Option α) (l : List α) : Prop where
  seg : Seg m (before null e l) l (after null e l)
  nodup : l.Nodup
  null_mem : null ∉ l
  outside : ∀ p ∈ e, p ∉ l

@[simp] theorem before_some (p : α) (l : List α) : before null (some p) l = p := rfl

@[simp] theorem after_some (p : α) (l : List α) : after null (some p) l = null := rfl

@[simp] theorem before_none (l : List α) : before null none l = l.getLastD null := rfl

@[simp] theorem after_none (l : List α) : after null none l = l.headD null := rfl

/-- A ring of two arcs is two segments that see each other's ends. -/
theorem ring_append {A B : List α} (hA : A ≠ []) (hB : B ≠ []) :
    Seg m (before null none (A ++ B)) (A ++ B) (after null none (A ++ B)) ↔
      Seg m (B.getLastD null) A (B.headD null) ∧ Seg m (A.getLastD null) B (A.headD null) := by
  rw [before_none, after_none, getLastD_append_of_ne_nil null hB,
    headD_append_of_ne_nil null hA, seg_append, headD_default _ null hB,
    getLastD_default _ null hA]

/-- A ring can be read from any of its nodes. -/
theorem Strand.rotate {A B : List α} (h : Strand null m none (A ++ B)) :
    Strand null m none (B ++ A) := by
  refine ⟨?_, List.nodup_append_comm.mp h.nodup, ?_, nofun⟩
  · rcases eq_or_ne A [] with rfl | hA
    · simpa using h.seg
    rcases eq_or_ne B [] with rfl | hB
    · simpa using h.seg
    rw [ring_append hB hA]
    exact ((ring_append hA hB).mp h.seg).symm
  · have hn := h.null_mem
    simp only [List.mem_append] at hn ⊢
    tauto

/-- The part of a strand from one node to another, with its two neighbours. -/
theorem Strand.middle {A M B : List α} (h : Strand null m e (A ++ M ++ B)) :
    Seg m (A.getLastD (before null e (A ++ M ++ B))) M
      (B.headD (after null e (A ++ M ++ B))) := by
  obtain ⟨hAM, -⟩ := (seg_append m _ _ (A ++ M) B).mp h.seg
  exact ((seg_append m _ _ A M).mp hAM).2

/-- The node before a block is not in it, unless the block is a whole ring. -/
theorem Strand.before_not_mem {A M B : List α} (h : Strand null m e (A ++ M ++ B))
    (hne : e ≠ none ∨ A ++ B ≠ []) :
    A.getLastD (before null e (A ++ M ++ B)) ∉ M := by
  intro hm
  have hnd := h.nodup
  rw [List.append_assoc] at hnd
  rcases eq_or_ne A [] with rfl | hA
  · cases e with
    | some p =>
      apply h.outside p rfl
      simpa using Or.inl hm
    | none =>
      have hB : B ≠ [] := by simpa using hne
      rw [List.getLastD_nil, before_none, getLastD_append_of_ne_nil null hB] at hm
      exact List.disjoint_of_nodup_append hnd.of_append_right hm (getLastD_mem null hB)
  · exact List.disjoint_of_nodup_append hnd (getLastD_mem _ hA) (List.mem_append_left B hm)

/-- The node after a block is not in it, unless the block is a whole ring. -/
theorem Strand.after_not_mem {A M B : List α} (h : Strand null m e (A ++ M ++ B))
    (hne : e ≠ none ∨ A ++ B ≠ []) :
    B.headD (after null e (A ++ M ++ B)) ∉ M := by
  intro hm
  have hnd := h.nodup
  rcases eq_or_ne B [] with rfl | hB
  · cases e with
    | some p =>
      apply h.null_mem
      simpa using Or.inr hm
    | none =>
      have hA : A ≠ [] := by simpa using hne
      rw [List.headD_nil, after_none, List.append_nil, headD_append_of_ne_nil null hA] at hm
      rw [List.append_nil] at hnd
      exact List.disjoint_of_nodup_append hnd (headD_mem null hA) hm
  · exact List.disjoint_of_nodup_append hnd (List.mem_append_right A hm) (headD_mem _ hB)

/-- Two adjacent blocks of a strand that are not the whole of a ring. -/
theorem Strand.adjacent {A X Y B : List α} (h : Strand null m e (A ++ (X ++ Y) ++ B))
    (hX : X ≠ []) (hY : Y ≠ []) (hne : e ≠ none ∨ A ++ B ≠ []) :
    Adjacent null m (A.getLastD (before null e (A ++ (X ++ Y) ++ B))) X Y
      (B.headD (after null e (A ++ (X ++ Y) ++ B))) where
  seg := h.middle
  nodup := h.nodup.of_append_left.of_append_right
  null_mem := fun hn => h.null_mem (List.mem_append_left B (List.mem_append_right A hn))
  left_mem := h.before_not_mem hne
  right_mem := h.after_not_mem hne
  left_ne := hX
  right_ne := hY

/-- Walking the `next` links from the first node of a block visits the block. -/
theorem Strand.walk {A M B : List α} (h : Strand null m e (A ++ M ++ B)) (hM : M ≠ []) :
    List.iterate m.next (M.headD null) M.length = M := by
  apply List.ext_getElem (List.length_iterate ..)
  intro i hi hi'
  rw [List.getElem_iterate, headD_default null _ hM]
  exact seg_iterate h.middle i hi'

/-- In a ring a node follows every node. -/
theorem Strand.next_mem {a : α} {l : List α} (h : Strand null m none l) (ha : a ∈ l) :
    m.next a ∈ l := by
  obtain ⟨A, B, rfl⟩ := List.append_of_mem ha
  have h' : Strand null m none (A ++ [a] ++ B) := by simpa using h
  have hn : m.next a = B.headD ((A ++ [a] ++ B).headD null) := h'.middle.2.1
  rw [hn]
  rcases eq_or_ne B [] with rfl | hB
  · have hne : A ++ [a] ++ [] ≠ [] := by simp
    simpa using headD_mem null hne
  · have hmem := headD_mem ((A ++ [a] ++ B).headD null) hB
    simp only [List.mem_append, List.mem_cons]
    exact Or.inr (Or.inr hmem)

/-- A ring seen from the node after its first one. -/
theorem Strand.turn {a : α} {A M : List α} (h : Strand null m none (a :: A ++ M)) :
    Strand null m none (A ++ M ++ [a]) := by
  have h' : Strand null m none ([a] ++ (A ++ M)) := by simpa using h
  exact h'.rotate

section Walk

/-- A walk along `next` that `prev` undoes is a segment. -/
theorem seg_walk (m : Links α) (a : α) (k : ℕ)
    (hprev : ∀ i, i+1 < k → m.prev (m.next^[i+1] a) = m.next^[i] a) :
    Seg m (m.prev a) (List.iterate m.next a k) (m.next^[k] a) := by
  induction k generalizing a with
  | zero => trivial
  | succ k ih =>
    have htail := ih (m.next a) (fun i hi => hprev (i+1) (by omega))
    refine ⟨rfl, ?_, ?_⟩
    · cases k <;> rfl
    · cases k with
      | zero => trivial
      | succ k =>
        have hback : m.prev (m.next a) = a := hprev 0 (by omega)
        rw [hback] at htail
        exact htail

theorem nodup_iterate {f : α → α} {a : α} {k : ℕ}
    (hlt : ∀ i j, i < j → j < k → f^[i] a ≠ f^[j] a) : (List.iterate f a k).Nodup := by
  rw [List.nodup_iff_getElem?_ne_getElem?]
  intro i j hij hj
  rw [List.length_iterate] at hj
  rw [List.getElem?_iterate f a k i (hij.trans hj), List.getElem?_iterate f a k j hj]
  exact fun he => hlt i j hij hj (Option.some.inj he)

/-- A walk that ends at `null` meets no node twice. -/
theorem nodup_walk_null (m : Links α) (a : α) (k : ℕ)
    (hne : ∀ i < k, m.next^[i] a ≠ null) (hend : m.next^[k] a = null) :
    (List.iterate m.next a k).Nodup := by
  have hlt : ∀ i j, i < j → j < k → m.next^[i] a ≠ m.next^[j] a := by
    intro i j hij hjk he
    apply hne (k-j+i) (by omega)
    rw [Function.iterate_add_apply, he, ← Function.iterate_add_apply]
    have hk : k-j+j = k := by omega
    rw [hk, hend]
  exact nodup_iterate hlt

/-- A walk along which `prev` undoes `next` and that does not come back to its
start meets no node twice. -/
theorem nodup_walk_first (m : Links α) (a : α) (k : ℕ)
    (hprev : ∀ i, i+1 < k → m.prev (m.next^[i+1] a) = m.next^[i] a)
    (hne : ∀ i, 0 < i → i < k → m.next^[i] a ≠ a) :
    (List.iterate m.next a k).Nodup := by
  have hlt : ∀ i j, i < j → j < k → m.next^[i] a ≠ m.next^[j] a := by
    intro i
    induction i with
    | zero => exact fun j hj hjk he => hne j hj hjk he.symm
    | succ i ih =>
      intro j hij hjk he
      obtain ⟨j, rfl⟩ : ∃ j', j = j'+1 := ⟨j-1, by omega⟩
      apply ih j (by omega) (by omega)
      rw [← hprev i (by omega), ← hprev j hjk, he]
  exact nodup_iterate hlt

end Walk

section Slice

/-- The entries of a list from the `i`-th up to, but not with, the `j`-th. -/
def slice (i j : ℕ) (l : List α) : List α := (l.take j).drop i

theorem slice_split (l : List α) {i j k : ℕ} (hij : i ≤ j) (hjk : j ≤ k) :
    l.take i ++ (slice i j l ++ slice j k l) ++ l.drop k = l := by
  have hi : l.take i = (l.take j).take i := by rw [List.take_take, min_eq_left hij]
  have hj : l.take j = (l.take k).take j := by rw [List.take_take, min_eq_left hjk]
  calc l.take i ++ (slice i j l ++ slice j k l) ++ l.drop k
      = ((l.take j).take i ++ (l.take j).drop i) ++ slice j k l ++ l.drop k := by
        rw [hi]
        simp only [slice, List.append_assoc]
    _ = ((l.take k).take j ++ (l.take k).drop j) ++ l.drop k := by
        rw [List.take_append_drop, hj]
        rfl
    _ = l := by rw [List.take_append_drop, List.take_append_drop]

theorem length_slice (l : List α) {i j : ℕ} (hj : j ≤ l.length) : (slice i j l).length = j-i := by
  rw [slice, List.length_drop, List.length_take, min_eq_left hj]

theorem slice_ne_nil {l : List α} {i j : ℕ} (hij : i < j) (hj : j ≤ l.length) :
    slice i j l ≠ [] := by
  apply List.ne_nil_of_length_pos
  rw [length_slice l hj]
  omega

theorem slice_headD (l : List α) {i j : ℕ} (d : α) (hij : i < j) :
    (slice i j l).headD d = l.getD i d := by
  rw [slice, List.headD_eq_head?_getD, List.head?_drop, List.getElem?_take_of_lt hij,
    List.getD_eq_getElem?_getD]

theorem slice_getLastD (l : List α) {i j : ℕ} (d : α) (hij : i < j) (hj : j ≤ l.length) :
    (slice i j l).getLastD d = l.getD (j-1) d := by
  rw [List.getLastD_eq_getLast?, List.getLast?_eq_getElem?, length_slice l hj, slice,
    List.getElem?_drop, List.getElem?_take_of_lt (by omega), List.getD_eq_getElem?_getD]
  congr 2
  omega

end Slice

section Ends
variable [DecidableEq α]

/-- Link the nodes `a` and `b`, in this order. -/
def Links.join (m : Links α) (a b : α) : Links α := (m.setNext a b).setPrev b a

@[simp] theorem join_next (a b c : α) :
    (m.join a b).next c = if c = a then b else m.next c := by
  rw [Links.join, setPrev_next, setNext_next]

@[simp] theorem join_prev (a b c : α) :
    (m.join a b).prev c = if c = b then a else m.prev c := by
  rw [Links.join, setPrev_prev, setNext_prev]

/-- Joining the two ends of an open list makes it a ring. -/
theorem Strand.close {p : α} {l : List α} (h : Strand null m (some p) l) (hl : l ≠ []) :
    Strand null (m.join (l.getLastD null) (l.headD null)) none l := by
  refine ⟨seg_relink h.nodup ?_ ?_ h.seg, h.nodup, h.null_mem, nofun⟩
  · intro a _
    rw [join_next, getLastD_default (before null (some p) l) null hl, after_none]
  · intro a _
    rw [join_prev, headD_default (after null (some p) l) null hl, before_none]

/-- Joining a second open list to the end of a first one. -/
theorem Strand.extend {p : α} {l F : List α} (h : Strand null m (some p) l)
    (hF : Strand null m (some null) F) (hl : l ≠ []) (hne : F ≠ []) (hd : l.Disjoint F)
    (hp : p ∉ F) : Strand null (m.join (l.getLastD null) (F.headD null)) (some p) (l ++ F) := by
  have hlast := getLastD_mem null hl
  have hhead := headD_mem null hne
  refine ⟨?_, h.nodup.append hF.nodup hd, ?_, ?_⟩
  · rw [seg_append]
    constructor
    · refine seg_relink h.nodup ?_ ?_ h.seg
      · intro a _
        rw [join_next, getLastD_default (before null (some p) l) null hl,
          headD_default (after null (some p) (l ++ F)) null hne]
      · intro a ha
        have haF : a ≠ F.headD null := fun he => hd ha (he ▸ hhead)
        rw [join_prev, if_neg haF]
        split_ifs with hah
        · rw [hah]
          exact seg_prev_headD h.seg hl
        · rfl
    · refine seg_relink hF.nodup ?_ ?_ hF.seg
      · intro a ha
        have hal : a ≠ l.getLastD null := fun he => hd hlast (he ▸ ha)
        rw [join_next, if_neg hal]
        split_ifs with hah
        · rw [hah]
          exact seg_next_getLastD hF.seg hne
        · rfl
      · intro a _
        rw [join_prev, headD_default (after null (some null) F) null hne,
          getLastD_default (before null (some p) (l ++ F)) null hl]
  · intro hn
    rcases List.mem_append.mp hn with hn | hn
    · exact h.null_mem hn
    · exact hF.null_mem hn
  · intro p' hp' hn
    rcases List.mem_append.mp hn with hn | hn
    · exact h.outside p' hp' hn
    · exact hp (Option.some.inj hp' ▸ hn)

omit [DecidableEq α] in
/-- A strand only depends on the links of its own nodes. -/
theorem Strand.congr {l : List α} (h : Strand null m e l)
    (hm : ∀ a ∈ l, m'.next a = m.next a ∧ m'.prev a = m.prev a) : Strand null m' e l :=
  ⟨seg_congr hm h.seg, h.nodup, h.null_mem, h.outside⟩

/-- `m'` is `m` with the list from `x` to `x'` linked in between `a` and its
follower `q`. -/
structure Spliced (null : α) (m m' : Links α) (a x x' q : α) : Prop where
  next_eq : ∀ c, c ≠ null → m'.next c = if c = a then x else if c = x' then q else m.next c
  prev_eq : ∀ c, c ≠ null → m'.prev c = if c = x then a else if c = q then x' else m.prev c

/-- A list that is linked in becomes a segment between its two new neighbours. -/
theorem Spliced.seg_inner {F : List α} {a q : α}
    (hs : Spliced null m m' a (F.headD null) (F.getLastD null) q)
    (hF : Strand null m (some null) F) (hne : F ≠ []) (ha : a ∉ F) (hq : q ∉ F) :
    Seg m' a F q := by
  refine seg_relink hF.nodup ?_ ?_ hF.seg
  · intro c hc
    have hcn : c ≠ null := fun he => hF.null_mem (he ▸ hc)
    have hca : c ≠ a := fun he => ha (he ▸ hc)
    rw [hs.next_eq c hcn, if_neg hca, getLastD_default (before null (some null) F) null hne]
  · intro c hc
    have hcn : c ≠ null := fun he => hF.null_mem (he ▸ hc)
    have hcq : c ≠ q := fun he => hq (he ▸ hc)
    rw [hs.prev_eq c hcn, if_neg hcq, headD_default (after null (some null) F) null hne]

/-- A segment that the new list follows; in a ring it may also be the one that
follows the new list. -/
theorem Spliced.seg_left {A : List α} {x x' p q : α}
    (hs : Spliced null m m' (A.getLastD null) x x' q) (hA : Seg m p A q) (hnd : A.Nodup)
    (hn : null ∉ A) (hne : A ≠ []) (hx : x ∉ A) (hx' : x' ∉ A) (hq : q ∈ A → q = A.headD null) :
    Seg m' (if A.headD null = q then x' else p) A x := by
  refine seg_relink hnd ?_ ?_ hA
  · intro c hc
    have hcx' : c ≠ x' := fun he => hx' (he ▸ hc)
    rw [hs.next_eq c (fun he => hn (he ▸ hc)), if_neg hcx', getLastD_default p null hne]
  · intro c hc
    have hcx : c ≠ x := fun he => hx (he ▸ hc)
    rw [hs.prev_eq c (fun he => hn (he ▸ hc)), if_neg hcx, headD_default q null hne]
    by_cases hch : c = A.headD null
    · rw [if_pos hch, hch]
      split_ifs
      · rfl
      · rw [headD_default null q hne]
        exact seg_prev_headD hA hne
    · have hcq : c ≠ q := fun he => hch (he.trans (hq (he ▸ hc)))
      rw [if_neg hch, if_neg hcq]

/-- A segment that follows the new list. -/
theorem Spliced.seg_right {B : List α} {a x x' s : α}
    (hs : Spliced null m m' a x x' (B.headD s)) (hB : Seg m a B s) (hnd : B.Nodup) (hn : null ∉ B)
    (ha : a ∉ B) (hx : x ∉ B) (hx' : x' ∉ B) : Seg m' x' B s := by
  rcases eq_or_ne B [] with rfl | hne
  · trivial
  refine seg_relink hnd ?_ ?_ hB
  · intro c hc
    have hca : c ≠ a := fun he => ha (he ▸ hc)
    have hcx' : c ≠ x' := fun he => hx' (he ▸ hc)
    rw [hs.next_eq c (fun he => hn (he ▸ hc)), if_neg hca, if_neg hcx']
    split_ifs with hl
    · rw [hl]
      exact seg_next_getLastD hB hne
    · rfl
  · intro c hc
    have hcx : c ≠ x := fun he => hx (he ▸ hc)
    rw [hs.prev_eq c (fun he => hn (he ▸ hc)), if_neg hcx]

omit [DecidableEq α] in
/-- A list linked in behind the first nodes does not change what follows the last. -/
theorem after_splice (null : α) (e : Option α) {A : List α} (F B : List α) (hA : A ≠ []) :
    after null e (A ++ F ++ B) = after null e (A ++ B) := by
  cases e with
  | some p => rfl
  | none =>
    rw [after_none, after_none, List.append_assoc, headD_append_of_ne_nil null hA,
      headD_append_of_ne_nil null hA]

/-- What precedes the first node: the new list when the ring ended with `A`. -/
theorem before_splice (e : Option α) {A F B : List α} (hA : A ≠ []) (hne : F ≠ [])
    (hnull : null ∉ A) (hAB : A.Disjoint B) :
    before null e (A ++ F ++ B) =
      if A.headD null = B.headD (after null e (A ++ B)) then F.getLastD null
      else before null e (A ++ B) := by
  rcases eq_or_ne B [] with rfl | hB
  · cases e with
    | some p =>
      have hne' : A.headD null ≠ null := fun hc => hnull (hc ▸ headD_mem null hA)
      rw [List.headD_nil, after_some, if_neg hne']
      rfl
    | none =>
      rw [List.headD_nil, after_none, headD_append_of_ne_nil null hA, if_pos rfl, before_none,
        List.append_nil, getLastD_append_of_ne_nil null hne]
  · have hne' : A.headD null ≠ B.headD (after null e (A ++ B)) :=
      fun hc => hAB (headD_mem null hA) (hc ▸ headD_mem _ hB)
    rw [if_neg hne']
    cases e with
    | some p => rfl
    | none =>
      rw [before_none, before_none, getLastD_append_of_ne_nil null hB,
        getLastD_append_of_ne_nil null hB]

omit [DecidableEq α] in
/-- Among the first nodes, only the first can follow the last of them. -/
theorem follower_eq_head {e : Option α} {A B : List α} (hA : A ≠ []) (hnull : null ∉ A)
    (hAB : A.Disjoint B) (hc : B.headD (after null e (A ++ B)) ∈ A) :
    B.headD (after null e (A ++ B)) = A.headD null := by
  rcases eq_or_ne B [] with rfl | hB
  · cases e with
    | some p => exact absurd hc hnull
    | none => rw [List.headD_nil, after_none, headD_append_of_ne_nil null hA]
  · exact absurd (headD_mem _ hB) (hAB hc)

omit [DecidableEq α] in
/-- No node of another list follows the first nodes. -/
theorem follower_not_mem {e : Option α} {A F B : List α} (hA : A ≠ []) (hnull : null ∉ F)
    (hd : (A ++ B).Disjoint F) : B.headD (after null e (A ++ B)) ∉ F := by
  rcases eq_or_ne B [] with rfl | hB
  · cases e with
    | some p => exact hnull
    | none =>
      rw [List.headD_nil, after_none, headD_append_of_ne_nil null hA]
      exact hd (List.mem_append_left _ (headD_mem null hA))
  · exact hd (List.mem_append_right A (headD_mem _ hB))

/-- The links and the ends of a list, with a second list linked in. -/
theorem Strand.splice {A F B : List α} (h : Strand null m e (A ++ B)) (hA : A ≠ [])
    (hF : Strand null m (some null) F) (hne : F ≠ []) (hd : (A ++ B).Disjoint F)
    (he : ∀ p ∈ e, p ∉ F)
    (hs : Spliced null m m' (A.getLastD null) (F.headD null) (F.getLastD null)
      (m.next (A.getLastD null))) :
    Strand null m' e (A ++ F ++ B) := by
  have hx := headD_mem null hne
  have hx' := getLastD_mem null hne
  have hl := getLastD_mem null hA
  have hnd := h.nodup
  have hAB := List.disjoint_of_nodup_append hnd
  have hdA : ∀ c ∈ F, c ∉ A := fun c hc hcA => hd (List.mem_append_left B hcA) hc
  have hdB : ∀ c ∈ F, c ∉ B := fun c hc hcB => hd (List.mem_append_right A hcB) hc
  have hnull : null ∉ A ∧ null ∉ B := by simpa only [List.mem_append, not_or] using h.null_mem
  obtain ⟨hsA, hsB⟩ := (seg_append m _ _ A B).mp h.seg
  have hq : m.next (A.getLastD null) = B.headD (after null e (A ++ B)) := by
    rw [getLastD_default null (before null e (A ++ B)) hA]
    exact seg_next_getLastD hsA hA
  rw [hq] at hs
  have hperm : (A ++ F ++ B).Perm (A ++ B ++ F) := by
    rw [List.append_assoc, List.append_assoc]
    exact List.perm_append_comm.append_left A
  refine ⟨?_, hperm.nodup_iff.mpr (hnd.append hF.nodup hd), ?_, ?_⟩
  · -- the three runs of links, joined at `A`, `F` and `B`
    have hAF : A ++ F ≠ [] := List.append_ne_nil_of_left_ne_nil hA F
    have hqF := follower_not_mem (e := e) hA hF.null_mem hd
    have hqA := follower_eq_head (e := e) hA hnull.1 hAB
    have hleft := hs.seg_left hsA hnd.of_append_left hnull.1 hA (hdA _ hx) (hdA _ hx') hqA
    have hinner := hs.seg_inner hF hne (fun hc => hdA _ hc hl) hqF
    rw [getLastD_default _ null hA] at hsB
    have hright := hs.seg_right hsB hnd.of_append_right hnull.2 (hAB hl) (hdB _ hx) (hdB _ hx')
    rw [seg_append, seg_append, after_splice null e F B hA,
      getLastD_default (before null e (A ++ F ++ B)) null hA, headD_default _ null hne,
      getLastD_default (before null e (A ++ F ++ B)) null hAF, getLastD_append_of_ne_nil null hne]
    refine ⟨⟨?_, hinner⟩, hright⟩
    rw [before_splice e hA hne hnull.1 hAB]
    exact hleft
  · intro hc
    rcases List.mem_append.mp (hperm.mem_iff.mp hc) with hc | hc
    · exact h.null_mem hc
    · exact hF.null_mem hc
  · intro p hp hc
    rcases List.mem_append.mp (hperm.mem_iff.mp hc) with hc | hc
    · exact h.outside p hp hc
    · exact he p hp hc

end Ends

section Exchange
variable [DecidableEq α]

omit [DecidableEq α] in
theorem exchange_perm (A X Y B : List α) :
    (A ++ (Y ++ X) ++ B).Perm (A ++ (X ++ Y) ++ B) :=
  (List.perm_append_comm.append_left A).append_right B

/-- Exchanging two blocks of an open list. -/
theorem Strand.exchange_open {A X Y B : List α} {p : α}
    (h : Strand null m (some p) (A ++ (X ++ Y) ++ B)) (hX : X ≠ []) (hY : Y ≠ [])
    (hs : Swapped null m m' (A.getLastD p) (X.headD null) (X.getLastD null)
      (Y.headD null) (Y.getLastD null) (B.headD null)) :
    Seg m' p (A ++ (Y ++ X) ++ B) null := by
  have hadj := h.adjacent hX hY (Or.inl (Option.some_ne_none p))
  obtain ⟨hAM, hB⟩ := (seg_append m _ _ (A ++ (X ++ Y)) B).mp h.seg
  have hA := ((seg_append m _ _ A (X ++ Y)).mp hAM).1
  have hnd := h.nodup
  have hMB := List.disjoint_of_nodup_append hnd
  have hAM' := List.disjoint_of_nodup_append hnd.of_append_left
  have hx := headD_mem null hX
  have hx' := getLastD_mem null hX
  have hy := headD_mem null hY
  have hy' := getLastD_mem null hY
  have hXY : X ++ Y ≠ [] := List.append_ne_nil_of_left_ne_nil hX Y
  have hYX : Y ++ X ≠ [] := List.append_ne_nil_of_left_ne_nil hY X
  have hinner := hs.seg_inner hadj
  rw [seg_append, seg_append, headD_default _ null hYX, headD_append_of_ne_nil null hY,
    getLastD_append_of_ne_nil p hYX, getLastD_default p null hYX,
    getLastD_append_of_ne_nil null hX]
  refine ⟨⟨?_, hinner⟩, ?_⟩
  -- the nodes before the blocks: only their last link changes
  · rcases eq_or_ne A [] with rfl | hAne
    · trivial
    have hq : B.headD null ∉ A := by
      rcases eq_or_ne B [] with rfl | hBne
      · exact fun hn => h.null_mem (List.mem_append_left [] (List.mem_append_left _ hn))
      · exact fun hn => hMB (List.mem_append_left _ hn) (headD_mem null hBne)
    have hA' := hs.seg_outer hnd.of_append_left.of_append_left
      (fun hn => h.null_mem (List.mem_append_left B (List.mem_append_left _ hn)))
      ⟨fun hn => hAM' hn (List.mem_append_left Y hx),
        fun hn => hAM' hn (List.mem_append_left Y hx')⟩
      ⟨fun hn => hAM' hn (List.mem_append_right X hy),
        fun hn => hAM' hn (List.mem_append_right X hy')⟩
      (fun _ => rfl) (fun hn => absurd hn hq) hA
    have hhead : A.headD ((X ++ Y).headD (B.headD null)) ≠ B.headD null :=
      fun he => hq (he ▸ headD_mem _ hAne)
    rw [after_some, if_neg hhead, if_pos rfl] at hA'
    exact hA'
  -- the nodes after the blocks: only the first link back changes
  · rcases eq_or_ne B [] with rfl | hBne
    · trivial
    have hp : A.getLastD p ∉ B := by
      rcases eq_or_ne A [] with rfl | hAne
      · exact fun hn => h.outside p rfl (List.mem_append_right _ hn)
      · exact fun hn => hMB (List.mem_append_left _ (getLastD_mem p hAne)) hn
    have hB' := hs.seg_outer hnd.of_append_right
      (fun hn => h.null_mem (List.mem_append_right _ hn))
      ⟨fun hn => hMB (List.mem_append_right A (List.mem_append_left Y hx)) hn,
        fun hn => hMB (List.mem_append_right A (List.mem_append_left Y hx')) hn⟩
      ⟨fun hn => hMB (List.mem_append_right A (List.mem_append_right X hy)) hn,
        fun hn => hMB (List.mem_append_right A (List.mem_append_right X hy')) hn⟩
      (fun hn => absurd hn hp) (fun _ => headD_default _ _ hBne) hB
    have hlast : B.getLastD ((A ++ (X ++ Y)).getLastD p) ≠ A.getLastD p :=
      fun he => hp (he ▸ getLastD_mem _ hBne)
    rw [after_some, if_pos rfl, before_some, if_neg hlast] at hB'
    exact hB'

/-- Exchanging two blocks at the start of a ring that has more nodes. -/
theorem Strand.exchange_ring {X Y R : List α} (h : Strand null m none (X ++ Y ++ R))
    (hX : X ≠ []) (hY : Y ≠ []) (hR : R ≠ [])
    (hs : Swapped null m m' (R.getLastD null) (X.headD null) (X.getLastD null)
      (Y.headD null) (Y.getLastD null) (R.headD null)) :
    Strand null m' none (Y ++ X ++ R) := by
  have hXY : X ++ Y ≠ [] := List.append_ne_nil_of_left_ne_nil hX Y
  have hYX : Y ++ X ≠ [] := List.append_ne_nil_of_left_ne_nil hY X
  obtain ⟨hM, hR'⟩ := (ring_append hXY hR).mp h.seg
  have hd := List.disjoint_of_nodup_append h.nodup
  have hadj : Adjacent null m (R.getLastD null) X Y (R.headD null) :=
    ⟨hM, h.nodup.of_append_left, fun hn => h.null_mem (List.mem_append_left R hn),
      fun hn => hd hn (getLastD_mem null hR), fun hn => hd hn (headD_mem null hR), hX, hY⟩
  have hx := List.mem_append_left Y (headD_mem null hX)
  have hx' := List.mem_append_left Y (getLastD_mem null hX)
  have hy := List.mem_append_right X (headD_mem null hY)
  have hy' := List.mem_append_right X (getLastD_mem null hY)
  have houter := hs.seg_outer h.nodup.of_append_right
    (fun hn => h.null_mem (List.mem_append_right _ hn)) ⟨hd hx, hd hx'⟩ ⟨hd hy, hd hy'⟩
    (fun _ => getLastD_default _ _ hR) (fun _ => headD_default _ _ hR) hR'
  rw [if_pos (headD_default _ _ hR), if_pos (getLastD_default _ _ hR)] at houter
  have hperm : (Y ++ X ++ R).Perm (X ++ Y ++ R) := List.perm_append_comm.append_right R
  refine ⟨?_, hperm.nodup_iff.mpr h.nodup, fun hn => h.null_mem (hperm.mem_iff.mp hn), nofun⟩
  rw [ring_append hYX hR, getLastD_append_of_ne_nil null hX, headD_append_of_ne_nil null hY]
  exact ⟨hs.seg_inner hadj, houter⟩

omit [DecidableEq α] in
/-- The neighbours of two adjacent blocks, read off the links. -/
theorem Strand.neighbours {A X Y B : List α} (h : Strand null m e (A ++ (X ++ Y) ++ B))
    (hX : X ≠ []) (hY : Y ≠ []) (hne : e ≠ none ∨ A ++ B ≠ []) :
    Ends null m (m.prev (X.headD null)) (X.headD null) (X.getLastD null) (Y.headD null)
      (Y.getLastD null) (m.next (Y.getLastD null)) := by
  have hends := (h.adjacent hX hY hne).ends
  rw [hends.prev_x, hends.next_y]
  exact hends

/-- Exchanging two adjacent blocks of a strand gives a strand of the same kind. -/
theorem Strand.exchange {A X Y B : List α} (h : Strand null m e (A ++ (X ++ Y) ++ B))
    (hX : X ≠ []) (hY : Y ≠ []) (hne : e ≠ none ∨ A ++ B ≠ [])
    (hs : Swapped null m m' (m.prev (X.headD null)) (X.headD null) (X.getLastD null)
      (Y.headD null) (Y.getLastD null) (m.next (Y.getLastD null))) :
    Strand null m' e (A ++ (Y ++ X) ++ B) := by
  have hends := (h.adjacent hX hY hne).ends
  rw [hends.prev_x, hends.next_y] at hs
  have hperm := exchange_perm A X Y B
  cases e with
  | some p =>
    refine ⟨?_, hperm.nodup_iff.mpr h.nodup, fun hn => h.null_mem (hperm.mem_iff.mp hn), ?_⟩
    · rw [before_some, after_some] at hs ⊢
      exact h.exchange_open hX hY hs
    · intro p' hp' hn
      exact h.outside p' hp' (hperm.mem_iff.mp hn)
  | none =>
    have hR : B ++ A ≠ [] := by
      intro hn
      simp_all
    -- read the ring from the first block on, exchange, and read it from `A` again
    have hrot : Strand null m none (X ++ Y ++ (B ++ A)) := by
      rw [← List.append_assoc]
      exact Strand.rotate (by simpa only [List.append_assoc] using h)
    have hp : A.getLastD (before null none (A ++ (X ++ Y) ++ B)) = (B ++ A).getLastD null := by
      rcases eq_or_ne A [] with rfl | hA
      · have hB : B ≠ [] := by simpa using hR
        rw [List.getLastD_nil, before_none, getLastD_append_of_ne_nil null hB, List.append_nil]
      · rw [getLastD_append_of_ne_nil null hA, getLastD_default _ null hA]
    have hq : B.headD (after null none (A ++ (X ++ Y) ++ B)) = (B ++ A).headD null := by
      rcases eq_or_ne B [] with rfl | hB
      · have hA : A ≠ [] := by simpa using hR
        rw [List.headD_nil, after_none, List.append_nil, headD_append_of_ne_nil null hA,
          List.nil_append]
      · rw [headD_append_of_ne_nil null hB, headD_default _ null hB]
    rw [hp, hq] at hs
    have hswap := hrot.exchange_ring hX hY hR hs
    rw [← List.append_assoc] at hswap
    simpa only [List.append_assoc] using hswap.rotate

end Exchange

end Linked
