import Mathlib.Data.List.Basic
import Mathlib.Data.List.Nodup
import Mathlib.Logic.Function.Iterate
import Mathlib.Tactic.Tauto
import Mathlib.Data.List.GetD

/-! Segments of doubly linked memory. A segment is read as a list of nodes
together with the two nodes just outside it, so that splitting, relinking and
moving a block of nodes become statements about list append. -/
namespace Linked

variable {α : Type*}

/-- The two link fields of every node of a memory. -/
structure Links (α : Type*) where
  next : α → α
  prev : α → α

/-- The nodes of `l` are linked in order, after `p` and before `q`. -/
def Seg (m : Links α) : α → List α → α → Prop
  | _, [], _ => True
  | p, a :: l, q => m.prev a = p ∧ m.next a = l.headD q ∧ Seg m a l q

@[simp] theorem seg_nil (m : Links α) (p q : α) : Seg m p [] q := trivial

@[simp] theorem seg_cons (m : Links α) (p q a : α) (l : List α) :
    Seg m p (a :: l) q ↔ m.prev a = p ∧ m.next a = l.headD q ∧ Seg m a l q := Iff.rfl

theorem getLastD_mem {l : List α} (p : α) (hl : l ≠ []) : l.getLastD p ∈ l := by
  rw [List.getLastD_eq_getLast?, List.getLast?_eq_getLast_of_ne_nil hl]
  exact List.getLast_mem hl

theorem headD_mem {l : List α} (q : α) (hl : l ≠ []) : l.headD q ∈ l := by
  cases l with
  | nil => exact absurd rfl hl
  | cons a l => exact List.mem_cons_self

theorem getLastD_append_of_ne_nil {l₁ l₂ : List α} (p : α) (hl : l₂ ≠ []) :
    (l₁ ++ l₂).getLastD p = l₂.getLastD p := by
  simp only [List.getLastD_eq_getLast?, List.getLast?_append,
    List.getLast?_eq_getLast_of_ne_nil hl, Option.some_or, Option.getD_some]

theorem headD_append_of_ne_nil {l₁ l₂ : List α} (q : α) (hl : l₁ ≠ []) :
    (l₁ ++ l₂).headD q = l₁.headD q := by
  cases l₁ with
  | nil => exact absurd rfl hl
  | cons a l => rfl

theorem headD_append (q : α) (l₁ l₂ : List α) :
    (l₁ ++ l₂).headD q = l₁.headD (l₂.headD q) := by
  cases l₁ <;> rfl

theorem seg_append (m : Links α) (p q : α) (l₁ l₂ : List α) :
    Seg m p (l₁ ++ l₂) q ↔ Seg m p l₁ (l₂.headD q) ∧ Seg m (l₁.getLastD p) l₂ q := by
  induction l₁ generalizing p with
  | nil => simp
  | cons a l ih =>
    have hl : (a :: l).getLastD p = l.getLastD a := by
      cases l <;> rfl
    rw [List.cons_append, seg_cons, seg_cons, ih, headD_append, hl]
    tauto

theorem seg_congr {m m' : Links α} {p q : α} {l : List α}
    (h : ∀ a ∈ l, m'.next a = m.next a ∧ m'.prev a = m.prev a) (hs : Seg m p l q) :
    Seg m' p l q := by
  induction l generalizing p with
  | nil => trivial
  | cons a l ih =>
    obtain ⟨hp, hn, ht⟩ := hs
    obtain ⟨hna, hpa⟩ := h a List.mem_cons_self
    exact ⟨hpa.trans hp, hna.trans hn, ih (fun b hb => h b (List.mem_cons_of_mem a hb)) ht⟩

/-- Links that do not leave a set of nodes have all of a segment in it, or none. -/
theorem seg_all_or_none {m : Links α} {A : α → Prop} (hnext : ∀ a, A a → A (m.next a))
    (hprev : ∀ a, A a → A (m.prev a)) {p q : α} {l : List α} (hs : Seg m p l q) :
    (∀ a ∈ l, A a) ∨ ∀ a ∈ l, ¬A a := by
  induction l generalizing p with
  | nil => exact Or.inl nofun
  | cons a l ih =>
    obtain ⟨-, hn, ht⟩ := hs
    cases l with
    | nil =>
      by_cases ha : A a
      · exact Or.inl fun b hb => List.mem_singleton.mp hb ▸ ha
      · exact Or.inr fun b hb => List.mem_singleton.mp hb ▸ ha
    | cons b l =>
      have hb : m.prev b = a := ht.1
      have hn' : m.next a = b := hn
      rcases ih ht with hall | hnone
      · left
        intro c hc
        rcases List.mem_cons.mp hc with rfl | hc
        · rw [← hb]
          exact hprev b (hall b List.mem_cons_self)
        · exact hall c hc
      · right
        intro c hc hin
        rcases List.mem_cons.mp hc with rfl | hc
        · exact hnone b List.mem_cons_self (hn' ▸ hnext c hin)
        · exact hnone c hc hin

/-- Walking the `next` links of a segment visits its nodes in order. -/
theorem seg_iterate {m : Links α} {p q : α} {l : List α} (hs : Seg m p l q) (i : ℕ)
    (hi : i < l.length) : m.next^[i] (l.headD q) = l[i] := by
  induction l generalizing p i with
  | nil => simp at hi
  | cons a l ih =>
    obtain ⟨-, hn, ht⟩ := hs
    cases i with
    | zero => rfl
    | succ i =>
      have hi' : i < l.length := by simpa using hi
      rw [Function.iterate_succ_apply, List.headD_cons, hn, ih ht i hi']
      rfl

theorem seg_next_getLastD {m : Links α} {p q : α} {l : List α} (hs : Seg m p l q)
    (hl : l ≠ []) : m.next (l.getLastD p) = q := by
  induction l generalizing p with
  | nil => exact absurd rfl hl
  | cons a l ih =>
    obtain ⟨-, hn, ht⟩ := hs
    cases l with
    | nil => exact hn
    | cons b l => exact ih ht (List.cons_ne_nil b l)

theorem seg_prev_headD {m : Links α} {p q : α} {l : List α} (hs : Seg m p l q)
    (hl : l ≠ []) : m.prev (l.headD q) = p := by
  cases l with
  | nil => exact absurd rfl hl
  | cons a l => exact hs.1

/-- Consecutive nodes of a segment are linked both ways. -/
theorem seg_links {m : Links α} {p q : α} {l : List α} (hs : Seg m p l q) (i : ℕ)
    (hi : i+1 < l.length) : m.next l[i] = l[i+1] ∧ m.prev l[i+1] = l[i] := by
  induction l generalizing p i with
  | nil => simp at hi
  | cons a l ih =>
    obtain ⟨-, hn, ht⟩ := hs
    cases i with
    | zero =>
      cases l with
      | nil => simp at hi
      | cons b l => exact ⟨hn, ht.1⟩
    | succ i => exact ih ht i (by simpa using hi)

/-- Walking forward inside a segment. -/
theorem seg_next_iterate {m : Links α} {p q : α} {l : List α} (hs : Seg m p l q) (d : α) (i k : ℕ)
    (hi : i+k < l.length) : m.next^[k] (l.getD i d) = l.getD (i+k) d := by
  induction k with
  | zero => rfl
  | succ k ih =>
    have hi' : i+k+1 < l.length := hi
    have hlink := (seg_links hs (i+k) hi').1
    rw [Function.iterate_succ_apply', ih (by omega), List.getD_eq_getElem _ _ (by omega), hlink]
    exact (List.getD_eq_getElem _ _ hi').symm

/-- Walking back inside a segment. -/
theorem seg_prev_iterate {m : Links α} {p q : α} {l : List α} (hs : Seg m p l q) (d : α) (i k : ℕ)
    (hi : i+k < l.length) : m.prev^[k] (l.getD (i+k) d) = l.getD i d := by
  induction k with
  | zero => rfl
  | succ k ih =>
    have hi' : i+k+1 < l.length := hi
    have hlink := (seg_links hs (i+k) hi').2
    have hlast : l.getD (i+(k+1)) d = l[i+k+1] := List.getD_eq_getElem _ _ hi'
    rw [Function.iterate_succ_apply, hlast, hlink, ← List.getD_eq_getElem _ d (by omega),
      ih (by omega)]

theorem getLastD_default {l : List α} (a b : α) (hl : l ≠ []) : l.getLastD a = l.getLastD b := by
  simp only [List.getLastD_eq_getLast?, List.getLast?_eq_getLast_of_ne_nil hl, Option.getD_some]

theorem headD_default {l : List α} (a b : α) (hl : l ≠ []) : l.headD a = l.headD b := by
  cases l with
  | nil => exact absurd rfl hl
  | cons c l => rfl

/-- Two adjacent nonempty blocks of one memory, with neighbours outside both. -/
structure Adjacent (null : α) (m : Links α) (p : α) (X Y : List α) (q : α) : Prop where
  seg : Seg m p (X ++ Y) q
  nodup : (X ++ Y).Nodup
  null_mem : null ∉ X ++ Y
  left_mem : p ∉ X ++ Y
  right_mem : q ∉ X ++ Y
  left_ne : X ≠ []
  right_ne : Y ≠ []

/-- Two adjacent blocks as their end nodes see them: the first runs from `x` to
`x'`, the second from `y` to `y'`. -/
structure Ends (null : α) (m : Links α) (p x x' y y' q : α) : Prop where
  prev_x : m.prev x = p
  next_x : m.next x' = y
  prev_y : m.prev y = x'
  next_y : m.next y' = q
  first : x ≠ y
  last : x' ≠ y'
  left : p ≠ x' ∧ p ≠ y'
  right : q ≠ x ∧ q ≠ y
  null_x : x ≠ null ∧ x' ≠ null
  null_y : y ≠ null ∧ y' ≠ null

section Adjacent
variable {null : α} {m : Links α} {p q : α} {X Y : List α}

theorem Adjacent.ends (h : Adjacent null m p X Y q) :
    Ends null m p (X.headD null) (X.getLastD null) (Y.headD null) (Y.getLastD null) q := by
  have hx := List.mem_append_left Y (headD_mem null h.left_ne)
  have hx' := List.mem_append_left Y (getLastD_mem null h.left_ne)
  have hy := List.mem_append_right X (headD_mem null h.right_ne)
  have hy' := List.mem_append_right X (getLastD_mem null h.right_ne)
  have hd := List.disjoint_of_nodup_append h.nodup
  have hn : ∀ a ∈ X ++ Y, a ≠ null := fun a ha he => h.null_mem (he ▸ ha)
  obtain ⟨hX, hY⟩ := (seg_append m p q X Y).mp h.seg
  refine ⟨?_, ?_, ?_, ?_, ?_, ?_, ?_, ?_, ⟨hn _ hx, hn _ hx'⟩, ⟨hn _ hy, hn _ hy'⟩⟩
  · rw [headD_default null (Y.headD q) h.left_ne]
    exact seg_prev_headD hX h.left_ne
  · rw [getLastD_default null p h.left_ne, headD_default null q h.right_ne]
    exact seg_next_getLastD hX h.left_ne
  · rw [headD_default null q h.right_ne, getLastD_default null p h.left_ne]
    exact seg_prev_headD hY h.right_ne
  · rw [getLastD_default null (X.getLastD p) h.right_ne]
    exact seg_next_getLastD hY h.right_ne
  · exact fun he => hd (headD_mem null h.left_ne) (he ▸ headD_mem null h.right_ne)
  · exact fun he => hd (getLastD_mem null h.left_ne) (he ▸ getLastD_mem null h.right_ne)
  · exact ⟨fun he => h.left_mem (he ▸ hx'), fun he => h.left_mem (he ▸ hy')⟩
  · exact ⟨fun he => h.right_mem (he ▸ hx), fun he => h.right_mem (he ▸ hy)⟩

end Adjacent

section Relink
variable [DecidableEq α]

/-- Only the two outer links of a segment mention its neighbours. -/
theorem seg_relink {m m' : Links α} {p q p' q' : α} {l : List α} (hl : l.Nodup)
    (hn : ∀ a ∈ l, m'.next a = if a = l.getLastD p then q' else m.next a)
    (hp : ∀ a ∈ l, m'.prev a = if a = l.headD q then p' else m.prev a)
    (hs : Seg m p l q) : Seg m' p' l q' := by
  induction l generalizing p p' with
  | nil => trivial
  | cons a l ih =>
    obtain ⟨-, hna, ht⟩ := hs
    obtain ⟨hal, hnd⟩ := List.nodup_cons.mp hl
    have hpa : m'.prev a = p' := by
      rw [hp a List.mem_cons_self, List.headD_cons, if_pos rfl]
    cases l with
    | nil =>
      refine ⟨hpa, ?_, trivial⟩
      rw [hn a List.mem_cons_self]
      exact if_pos rfl
    | cons b l =>
      have hlast : (a :: b :: l).getLastD p = (b :: l).getLastD a := rfl
      have hmem : (b :: l).getLastD a ∈ b :: l := getLastD_mem a (List.cons_ne_nil b l)
      have hne : a ≠ (b :: l).getLastD a := fun h => hal (h ▸ hmem)
      refine ⟨hpa, ?_, ih hnd ?_ ?_ ht⟩
      · rw [hn a List.mem_cons_self, hlast, if_neg hne, hna]
        rfl
      · intro c hc
        rw [hn c (List.mem_cons_of_mem a hc), hlast]
      · intro c hc
        have hca : c ≠ a := fun h => hal (h ▸ hc)
        rw [hp c (List.mem_cons_of_mem a hc), List.headD_cons, if_neg hca]
        by_cases hcb : c = b
        · rw [if_pos (by simpa using hcb), hcb]
          exact ht.1
        · rw [if_neg (by simpa using hcb)]

/-- Write the `next` field of one node. -/
def Links.setNext (m : Links α) (a v : α) : Links α :=
  { m with next := Function.update m.next a v }

/-- Write the `prev` field of one node. -/
def Links.setPrev (m : Links α) (a v : α) : Links α :=
  { m with prev := Function.update m.prev a v }

@[simp] theorem setNext_next (m : Links α) (a v b : α) :
    (m.setNext a v).next b = if b = a then v else m.next b := Function.update_apply ..

@[simp] theorem setNext_prev (m : Links α) (a v : α) : (m.setNext a v).prev = m.prev := rfl

@[simp] theorem setPrev_prev (m : Links α) (a v b : α) :
    (m.setPrev a v).prev b = if b = a then v else m.prev b := Function.update_apply ..

@[simp] theorem setPrev_next (m : Links α) (a v : α) : (m.setPrev a v).next = m.next := rfl

/-- Unlink the block from `td` to `bd` and link it again between `ti` and `bi`;
a `null` neighbour has no link to write. -/
def moveBlock (null : α) (m : Links α) (td bd ti bi : α) : Links α :=
  let m := if m.prev td ≠ null then m.setNext (m.prev td) (m.next bd) else m
  let m := if m.next bd ≠ null then m.setPrev (m.next bd) (m.prev td) else m
  let m := m.setPrev td ti
  let m := m.setNext bd bi
  let m := if ti ≠ null then m.setNext ti td else m
  if bi ≠ null then m.setPrev bi bd else m

/-- `m'` is `m` with the block from `x` to `x'` and the block from `y` to `y'`
exchanged; `p` and `q` are the nodes before the first and after the second. -/
structure Swapped (null : α) (m m' : Links α) (p x x' y y' q : α) : Prop where
  next_eq : ∀ a, a ≠ null → m'.next a = if a = x' then q
    else if a = y' then x else if a = p then y else m.next a
  prev_eq : ∀ a, a ≠ null → m'.prev a = if a = x then y'
    else if a = y then p else if a = q then x' else m.prev a

section Blocks
variable {null : α} {m m' : Links α} {p q x x' y y' : α}

section Guarded
variable {a b v : α}

/-- A guarded write, seen from a node that is there. -/
theorem guarded_next (hb : b ≠ null) :
    (if a ≠ null then m.setNext a v else m).next b = if b = a then v else m.next b := by
  by_cases ha : a ≠ null
  · rw [if_pos ha, setNext_next]
  · have hne : b ≠ a := fun hba => hb (hba.trans (not_not.mp ha))
    rw [if_neg ha, if_neg hne]

theorem guarded_prev (hb : b ≠ null) :
    (if a ≠ null then m.setPrev a v else m).prev b = if b = a then v else m.prev b := by
  by_cases ha : a ≠ null
  · rw [if_pos ha, setPrev_prev]
  · have hne : b ≠ a := fun hba => hb (hba.trans (not_not.mp ha))
    rw [if_neg ha, if_neg hne]

theorem guarded_setNext_prev : (if a ≠ null then m.setNext a v else m).prev = m.prev := by
  split <;> rfl

theorem guarded_setPrev_next : (if a ≠ null then m.setPrev a v else m).next = m.next := by
  split <;> rfl

end Guarded

section Moved
variable {td bd ti bi a : α}

/-- The links forward behind a move: what is written last is what is read. -/
theorem moveBlock_next (hbd : bd ≠ null) (hne : m.prev td ≠ bd) (ha : a ≠ null) :
    (moveBlock null m td bd ti bi).next a =
      if a = ti then td else if a = bd then bi
        else if a = m.prev td then m.next bd else m.next a := by
  simp only [moveBlock, guarded_setNext_prev, guarded_next hbd, if_neg hne.symm]
  rw [guarded_setPrev_next, guarded_next ha, setNext_next, setPrev_next, guarded_setPrev_next,
    guarded_next ha]

theorem moveBlock_prev (hbd : bd ≠ null) (hne : m.prev td ≠ bd) (ha : a ≠ null) :
    (moveBlock null m td bd ti bi).prev a =
      if a = bi then bd else if a = td then ti
        else if a = m.next bd then m.prev td else m.prev a := by
  simp only [moveBlock, guarded_setNext_prev, guarded_next hbd, if_neg hne.symm]
  rw [guarded_prev ha, guarded_setNext_prev, setNext_prev, setPrev_prev, guarded_prev ha,
    guarded_setNext_prev]

end Moved

/-- Moving the left block behind the right one exchanges the two. -/
theorem moveBlock_right (h : Ends null m p x x' y y' q) :
    Swapped null m (moveBlock null m x x' y' q) p x x' y y' q := by
  have hne : m.prev x ≠ x' := by
    rw [h.prev_x]
    exact h.left.1
  constructor
  · intro a ha
    rw [moveBlock_next h.null_x.2 hne ha, h.prev_x, h.next_x]
    by_cases hlast : a = x'
    · rw [if_pos hlast, if_pos hlast, if_neg (hlast ▸ h.last)]
    · rw [if_neg hlast, if_neg hlast]
  · intro a ha
    rw [moveBlock_prev h.null_x.2 hne ha, h.prev_x, h.next_x]
    by_cases hright : a = q
    · rw [if_pos hright, if_pos hright, if_neg (hright ▸ h.right.1), if_neg (hright ▸ h.right.2)]
    · rw [if_neg hright, if_neg hright]

/-- Moving the right block before the left one exchanges the two. -/
theorem moveBlock_left (h : Ends null m p x x' y y' q) :
    Swapped null m (moveBlock null m y y' p x) p x x' y y' q := by
  have hne : m.prev y ≠ y' := by
    rw [h.prev_y]
    exact h.last
  constructor
  · intro a ha
    rw [moveBlock_next h.null_y.2 hne ha, h.prev_y, h.next_y]
    by_cases hleft : a = p
    · rw [if_pos hleft, if_pos hleft, if_neg (hleft ▸ h.left.1), if_neg (hleft ▸ h.left.2)]
    · rw [if_neg hleft, if_neg hleft]
      by_cases hlast : a = x'
      · rw [if_pos hlast, if_pos hlast, if_neg (hlast ▸ h.last)]
      · rw [if_neg hlast, if_neg hlast]
  · intro a ha
    rw [moveBlock_prev h.null_y.2 hne ha, h.prev_y, h.next_y]

/-- The exchanged blocks are linked in their new order. -/
theorem Swapped.seg_inner {X Y : List α} (hs : Swapped null m m' p (X.headD null)
    (X.getLastD null) (Y.headD null) (Y.getLastD null) q) (h : Adjacent null m p X Y q) :
    Seg m' p (Y ++ X) q := by
  have hd := List.disjoint_of_nodup_append h.nodup
  obtain ⟨hXn, hYn, -⟩ := List.nodup_append.mp h.nodup
  obtain ⟨hX, hY⟩ := (seg_append m p q X Y).mp h.seg
  have hn : ∀ a ∈ X ++ Y, a ≠ null := fun a ha he => h.null_mem (he ▸ ha)
  have hp : ∀ a ∈ X ++ Y, a ≠ p := fun a ha he => h.left_mem (he ▸ ha)
  have hq : ∀ a ∈ X ++ Y, a ≠ q := fun a ha he => h.right_mem (he ▸ ha)
  rw [seg_append, headD_default q null h.left_ne, getLastD_default p null h.right_ne]
  constructor
  · refine seg_relink hYn ?_ ?_ hY
    · intro a ha
      have ha' := List.mem_append_right X ha
      have hx : a ≠ X.getLastD null := fun he => hd (getLastD_mem null h.left_ne) (he ▸ ha)
      rw [hs.next_eq a (hn a ha'), if_neg hx, if_neg (hp a ha'),
        getLastD_default (X.getLastD p) null h.right_ne]
    · intro a ha
      have ha' := List.mem_append_right X ha
      have hx : a ≠ X.headD null := fun he => hd (headD_mem null h.left_ne) (he ▸ ha)
      rw [hs.prev_eq a (hn a ha'), if_neg hx, if_neg (hq a ha'), headD_default q null h.right_ne]
  · refine seg_relink hXn ?_ ?_ hX
    · intro a ha
      have ha' := List.mem_append_left Y ha
      have hy : a ≠ Y.getLastD null := fun he => hd ha (he ▸ getLastD_mem null h.right_ne)
      rw [hs.next_eq a (hn a ha'), if_neg hy, if_neg (hp a ha'), getLastD_default p null h.left_ne]
    · intro a ha
      have ha' := List.mem_append_left Y ha
      have hy : a ≠ Y.headD null := fun he => hd ha (he ▸ headD_mem null h.right_ne)
      rw [hs.prev_eq a (hn a ha'), if_neg hy, if_neg (hq a ha'),
        headD_default (Y.headD q) null h.left_ne]

/-- A segment outside two exchanged blocks keeps its links, except that it sees
the other block where it ended at one of them. -/
theorem Swapped.seg_outer (hs : Swapped null m m' p x x' y y' q) {r s : α} {R : List α}
    (hR : R.Nodup) (hn : null ∉ R) (hx : x ∉ R ∧ x' ∉ R) (hy : y ∉ R ∧ y' ∉ R)
    (hp : p ∈ R → p = R.getLastD r) (hq : q ∈ R → q = R.headD s) (h : Seg m r R s) :
    Seg m' (if R.headD s = q then x' else r) R (if R.getLastD r = p then y else s) := by
  rcases eq_or_ne R [] with rfl | hne
  · trivial
  refine seg_relink hR ?_ ?_ h
  · intro a ha
    have hax' : a ≠ x' := fun he => hx.2 (he ▸ ha)
    have hay' : a ≠ y' := fun he => hy.2 (he ▸ ha)
    rw [hs.next_eq a (fun he => hn (he ▸ ha)), if_neg hax', if_neg hay']
    by_cases hap : a = p
    · have hl : a = R.getLastD r := hap.trans (hp (hap ▸ ha))
      rw [if_pos hap, if_pos hl, if_pos (hl.symm.trans hap)]
    · rw [if_neg hap]
      by_cases hl : a = R.getLastD r
      · rw [if_pos hl, if_neg (fun he => hap (hl.trans he)), hl]
        exact seg_next_getLastD h hne
      · rw [if_neg hl]
  · intro a ha
    have hax : a ≠ x := fun he => hx.1 (he ▸ ha)
    have hay : a ≠ y := fun he => hy.1 (he ▸ ha)
    rw [hs.prev_eq a (fun he => hn (he ▸ ha)), if_neg hax, if_neg hay]
    by_cases haq : a = q
    · have hh : a = R.headD s := haq.trans (hq (haq ▸ ha))
      rw [if_pos haq, if_pos hh, if_pos (hh.symm.trans haq)]
    · rw [if_neg haq]
      by_cases hh : a = R.headD s
      · rw [if_pos hh, if_neg (fun he => haq (hh.trans he)), hh]
        exact seg_prev_headD h hne
      · rw [if_neg hh]

end Blocks

end Relink

end Linked
