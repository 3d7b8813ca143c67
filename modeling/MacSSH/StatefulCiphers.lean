import Mathlib.Data.List.Basic
import Mathlib.Data.List.Forall2
import Mathlib.Algebra.GCDMonoid.Nat
import Mathlib.Tactic

/-! Ciphers that keep a state between calls. A cipher works on whole blocks, and two calls in
a row do what one call does on both messages together. One cipher inverts another when
related states stay related and the plain text comes back. -/
namespace Ciphers

/-- A cipher with states in `S`. Nothing is said of messages that are not whole blocks. -/
structure Cipher (S : Type) where
  block : S → ℕ
  crypt : S → List UInt8 → S × List UInt8
  block_pos : ∀ s, 0 < block s
  crypt_nil : ∀ s, crypt s [] = (s, [])
  length_crypt : ∀ s x, block s ∣ x.length → (crypt s x).2.length = x.length
  block_crypt : ∀ s x, block s ∣ x.length → block (crypt s x).1 = block s
  crypt_append : ∀ s x y, block s ∣ x.length → block s ∣ y.length →
    crypt s (x ++ y) =
      ((crypt (crypt s x).1 y).1, (crypt s x).2 ++ (crypt (crypt s x).1 y).2)

variable {S T : Type}

/-- `D` inverts `E` from states related by `R`. -/
structure Inverse (E : Cipher S) (D : Cipher T) (R : S → T → Prop) : Prop where
  block : ∀ {s t}, R s t → E.block s = D.block t
  plain : ∀ {s t x}, R s t → E.block s ∣ x.length → (D.crypt t (E.crypt s x).2).2 = x
  related : ∀ {s t x}, R s t → E.block s ∣ x.length →
    R (E.crypt s x).1 (D.crypt t (E.crypt s x).2).1

/-! ### Ciphers without state, on blocks of `n` bytes -/

section
variable {n : ℕ}

/-- A function on blocks that keeps their length. -/
structure BlockMap (n : ℕ) where
  map : List UInt8 → List UInt8
  length_map : ∀ x, x.length = n → (map x).length = n

/-- The function on the first `k` blocks. -/
def BlockMap.blocks (f : BlockMap n) : ℕ → List UInt8 → List UInt8
  | 0, _ => []
  | k+1, x => f.map (x.take n) ++ f.blocks k (x.drop n)

theorem BlockMap.length_blocks (f : BlockMap n) : ∀ (k : ℕ) (x : List UInt8),
    x.length = k*n → (f.blocks k x).length = k*n := by
  intro k
  induction k with
  | zero =>
    intro x _
    rw [Nat.zero_mul]
    rfl
  | succ k ih =>
    intro x hx
    rw [Nat.succ_mul] at hx ⊢
    rw [blocks, List.length_append, f.length_map _ (by rw [List.length_take]; omega),
      ih _ (by rw [List.length_drop]; omega)]
    omega

theorem BlockMap.blocks_append (f : BlockMap n) (m : ℕ) : ∀ (k : ℕ) (x y : List UInt8),
    x.length = k*n → f.blocks (k+m) (x ++ y) = f.blocks k x ++ f.blocks m y := by
  intro k
  induction k with
  | zero =>
    intro x y hx
    rw [Nat.zero_mul] at hx
    rw [List.length_eq_zero_iff.mp hx, Nat.zero_add]
    rfl
  | succ k ih =>
    intro x y hx
    rw [Nat.succ_mul] at hx
    rw [Nat.succ_add_eq_add_succ, Nat.add_succ, blocks, blocks,
      List.take_append_of_le_length (by omega), List.drop_append_of_le_length (by omega),
      ih _ _ (by rw [List.length_drop]; omega), List.append_assoc]

/-- Each block by itself. -/
def ecb (hn : 0 < n) (f : BlockMap n) : Cipher Unit where
  block _ := n
  crypt _ x := ((), f.blocks (x.length/n) x)
  block_pos _ := hn
  crypt_nil _ := by rw [List.length_nil, Nat.zero_div]; rfl
  length_crypt _ x hx := by
    have hmul : x.length/n*n = x.length := Nat.div_mul_cancel hx
    rw [f.length_blocks _ _ hmul.symm, hmul]
  block_crypt _ _ _ := rfl
  crypt_append _ x y hx _ := by
    rw [List.length_append, Nat.add_div_of_dvd_right hx,
      f.blocks_append _ _ _ _ (Nat.div_mul_cancel hx).symm]

theorem ecb_inverse (hn : 0 < n) {f g : BlockMap n}
    (hfg : ∀ x, x.length = n → g.map (f.map x) = x) :
    Inverse (ecb hn f) (ecb hn g) fun _ _ => True where
  block _ := rfl
  plain := by
    intro _ _ x _ hx
    have hx : n ∣ x.length := hx
    have hmul : x.length/n*n = x.length := Nat.div_mul_cancel hx
    have hback (k : ℕ) : ∀ x : List UInt8, x.length = k*n → g.blocks k (f.blocks k x) = x := by
      induction k with
      | zero =>
        intro x h
        rw [Nat.zero_mul] at h
        rw [List.length_eq_zero_iff.mp h]
        rfl
      | succ k ih =>
        intro x h
        rw [Nat.succ_mul] at h
        have htake : (x.take n).length = n := by
          rw [List.length_take]
          omega
        have hblock : (f.map (x.take n)).length = n := f.length_map _ htake
        have hrest : (x.drop n).length = k*n := by
          rw [List.length_drop]
          omega
        rw [BlockMap.blocks, BlockMap.blocks, List.take_append_of_le_length (le_of_eq hblock.symm),
          List.drop_append_of_le_length (le_of_eq hblock.symm),
          List.take_of_length_le (le_of_eq hblock), List.drop_of_length_le (le_of_eq hblock),
          List.nil_append, hfg _ htake, ih _ hrest, List.take_append_drop]
    show g.blocks ((f.blocks (x.length/n) x).length/n) (f.blocks (x.length/n) x) = x
    rw [f.length_blocks _ _ hmul.symm, hmul]
    exact hback _ x hmul.symm
  related _ _ := trivial

end

/-! ### Key streams -/

section
variable (next : S → S × UInt8)

/-- Every byte is combined with the next byte of the key stream. -/
def streamed : S → List UInt8 → S × List UInt8
  | s, [] => (s, [])
  | s, b :: x =>
    ((streamed (next s).1 x).1, (b ^^^ (next s).2) :: (streamed (next s).1 x).2)

theorem length_streamed : ∀ (x : List UInt8) (s : S), (streamed next s x).2.length = x.length := by
  intro x
  induction x with
  | nil => intro s; rfl
  | cons b x ih =>
    intro s
    exact congrArg (·+1) (ih _)

theorem streamed_append : ∀ (x y : List UInt8) (s : S), streamed next s (x ++ y) =
    ((streamed next (streamed next s x).1 y).1,
      (streamed next s x).2 ++ (streamed next (streamed next s x).1 y).2) := by
  intro x
  induction x with
  | nil => intro y s; rfl
  | cons b x ih =>
    intro y s
    rw [List.cons_append, streamed, ih]
    rfl

/-- Combining twice gives the plain text back, and the states move together. -/
theorem streamed_twice : ∀ (x : List UInt8) (s : S),
    streamed next s (streamed next s x).2 = ((streamed next s x).1, x) := by
  intro x
  induction x with
  | nil => intro s; rfl
  | cons b x ih =>
    intro s
    rw [streamed, streamed, ih]
    simp only [UInt8.xor_assoc, UInt8.xor_self, UInt8.xor_zero]

def keystream {n : ℕ} (hn : 0 < n) : Cipher S where
  block _ := n
  crypt := streamed next
  block_pos _ := hn
  crypt_nil _ := rfl
  length_crypt s x _ := length_streamed next x s
  block_crypt _ _ _ := rfl
  crypt_append s x y _ _ := streamed_append next x y s

theorem keystream_inverse {n : ℕ} (hn : 0 < n) :
    Inverse (keystream next hn) (keystream next hn) Eq where
  block _ := rfl
  plain := by
    rintro s _ x rfl _
    exact congrArg Prod.snd (streamed_twice next x s)
  related := by
    rintro s _ x rfl _
    exact (congrArg Prod.fst (streamed_twice next x s)).symm

end

/-! ### Several ciphers one after the other -/

section
variable (C : Cipher S)

/-- The smallest length that is whole blocks for all. -/
def commonBlock (l : List S) : ℕ := (l.map C.block).foldr Nat.lcm 1

def chained : List S → List UInt8 → List S × List UInt8
  | [], x => ([], x)
  | s :: l, x =>
    ((C.crypt s x).1 :: (chained l (C.crypt s x).2).1, (chained l (C.crypt s x).2).2)

variable {C}

theorem commonBlock_pos (l : List S) : 0 < commonBlock C l := by
  induction l with
  | nil => exact Nat.one_pos
  | cons s l ih => exact Nat.lcm_pos (C.block_pos s) ih

theorem head_dvd {s : S} {l : List S} {n : ℕ} (h : commonBlock C (s :: l) ∣ n) : C.block s ∣ n :=
  (Nat.dvd_lcm_left _ _).trans h

theorem tail_dvd {s : S} {l : List S} {n : ℕ} (h : commonBlock C (s :: l) ∣ n) :
    commonBlock C l ∣ n :=
  (Nat.dvd_lcm_right _ _).trans h

theorem length_chained : ∀ (l : List S) (x : List UInt8), commonBlock C l ∣ x.length →
    (chained C l x).2.length = x.length := by
  intro l
  induction l with
  | nil => intro x _; rfl
  | cons s l ih =>
    intro x hx
    have hlen := C.length_crypt s x (head_dvd hx)
    rw [chained, ih _ (by rw [hlen]; exact tail_dvd hx), hlen]

theorem commonBlock_chained : ∀ (l : List S) (x : List UInt8), commonBlock C l ∣ x.length →
    commonBlock C (chained C l x).1 = commonBlock C l := by
  intro l
  induction l with
  | nil => intro x _; rfl
  | cons s l ih =>
    intro x hx
    have hlen := C.length_crypt s x (head_dvd hx)
    have hrest := ih _ (by rw [hlen]; exact tail_dvd hx)
    show Nat.lcm (C.block (C.crypt s x).1) (commonBlock C (chained C l (C.crypt s x).2).1) = _
    rw [C.block_crypt s x (head_dvd hx), hrest]
    rfl

theorem chained_append : ∀ (l : List S) (x y : List UInt8), commonBlock C l ∣ x.length →
    commonBlock C l ∣ y.length → chained C l (x ++ y) =
      ((chained C (chained C l x).1 y).1,
        (chained C l x).2 ++ (chained C (chained C l x).1 y).2) := by
  intro l
  induction l with
  | nil => intro x y _ _; rfl
  | cons s l ih =>
    intro x y hx hy
    have happend := C.crypt_append s x y (head_dvd hx) (head_dvd hy)
    have hlen := C.length_crypt s x (head_dvd hx)
    have hlen' := C.length_crypt (C.crypt s x).1 y
      (by rw [C.block_crypt s x (head_dvd hx)]; exact head_dvd hy)
    rw [chained, happend, ih _ _ (by rw [hlen]; exact tail_dvd hx)
      (by rw [hlen']; exact tail_dvd hy)]
    rfl

theorem chained_nil (l : List S) : chained C l [] = (l, []) := by
  induction l with
  | nil => rfl
  | cons s l ih => rw [chained, C.crypt_nil, ih]

variable (C)

def cascade : Cipher (List S) where
  block := commonBlock C
  crypt := chained C
  block_pos := commonBlock_pos
  crypt_nil := chained_nil
  length_crypt := length_chained
  block_crypt := commonBlock_chained
  crypt_append := chained_append

end

section
variable {E : Cipher S} {D : Cipher T} {R : S → T → Prop}

theorem chained_concat (m : List T) (t : T) : ∀ (y : List UInt8),
    chained D (m ++ [t]) y =
      ((chained D m y).1 ++ [(D.crypt t (chained D m y).2).1],
        (D.crypt t (chained D m y).2).2) := by
  induction m with
  | nil => intro y; rfl
  | cons s m ih =>
    intro y
    rw [List.cons_append, chained, ih]
    rfl

theorem commonBlock_reverse (m : List T) : commonBlock D m.reverse = commonBlock D m := by
  unfold commonBlock
  apply List.Perm.foldr_eq
  exact (List.reverse_perm m).map _

/-- The inverses in the other order invert the ciphers one after the other. -/
theorem cascade_inverse (h : Inverse E D R) :
    Inverse (cascade E) (cascade D) fun l m => List.Forall₂ R l m.reverse := by
  have hblock : ∀ {l : List S} {m : List T}, List.Forall₂ R l m →
      commonBlock E l = commonBlock D m := by
    intro l m hlm
    induction hlm with
    | nil => rfl
    | cons hst _ ih =>
      show Nat.lcm _ _ = Nat.lcm _ _
      rw [h.block hst]
      exact congrArg _ ih
  have hback : ∀ {l : List S} {m : List T} (x : List UInt8), List.Forall₂ R l m →
      commonBlock E l ∣ x.length →
      (chained D m.reverse (chained E l x).2).2 = x ∧
        List.Forall₂ R (chained E l x).1 (chained D m.reverse (chained E l x).2).1.reverse := by
    intro l m x hlm
    induction hlm generalizing x with
    | nil =>
      intro _
      exact ⟨rfl, List.Forall₂.nil⟩
    | @cons s t l m hst _ ih =>
      intro hx
      have hlen := E.length_crypt s x (head_dvd hx)
      obtain ⟨hplain, hrelated⟩ := ih (E.crypt s x).2 (by rw [hlen]; exact tail_dvd hx)
      rw [List.reverse_cons, chained_concat, chained, hplain]
      refine ⟨h.plain hst (head_dvd hx), ?_⟩
      rw [List.reverse_concat]
      exact List.Forall₂.cons (h.related hst (head_dvd hx)) hrelated
  exact
    { block := by
        intro l m hlm
        have hlm : List.Forall₂ R l m.reverse := hlm
        exact (hblock hlm).trans (commonBlock_reverse m)
      plain := by
        intro l m x hlm hx
        have := hback x hlm hx
        rw [List.reverse_reverse] at this
        exact this.1
      related := by
        intro l m x hlm hx
        have := hback x hlm hx
        rw [List.reverse_reverse] at this
        exact this.2 }

end

/-! ### Ciphers of two kinds -/

section
variable {S' T' : Type}

/-- A cipher that is of one kind or of another. -/
def Cipher.sum (C : Cipher S) (C' : Cipher S') : Cipher (S ⊕ S') where
  block s := s.elim C.block C'.block
  crypt s x := s.elim (fun s => (.inl (C.crypt s x).1, (C.crypt s x).2))
    fun s => (.inr (C'.crypt s x).1, (C'.crypt s x).2)
  block_pos s := by
    cases s with
    | inl s => exact C.block_pos s
    | inr s => exact C'.block_pos s
  crypt_nil s := by
    cases s with
    | inl s => simp only [Sum.elim_inl, C.crypt_nil]
    | inr s => simp only [Sum.elim_inr, C'.crypt_nil]
  length_crypt s x hx := by
    cases s with
    | inl s => exact C.length_crypt s x hx
    | inr s => exact C'.length_crypt s x hx
  block_crypt s x hx := by
    cases s with
    | inl s => exact C.block_crypt s x hx
    | inr s => exact C'.block_crypt s x hx
  crypt_append s x y hx hy := by
    cases s with
    | inl s =>
      simp only [Sum.elim_inl] at hx hy ⊢
      rw [C.crypt_append s x y hx hy]
    | inr s =>
      simp only [Sum.elim_inr] at hx hy ⊢
      rw [C'.crypt_append s x y hx hy]

theorem Inverse.sum {E : Cipher S} {D : Cipher T} {R : S → T → Prop} {E' : Cipher S'}
    {D' : Cipher T'} {R' : S' → T' → Prop} (h : Inverse E D R) (h' : Inverse E' D' R') :
    Inverse (E.sum E') (D.sum D') (Sum.LiftRel R R') where
  block hst := by
    cases hst with
    | inl hst => exact h.block hst
    | inr hst => exact h'.block hst
  plain hst hx := by
    cases hst with
    | inl hst => exact h.plain hst hx
    | inr hst => exact h'.plain hst hx
  related hst hx := by
    cases hst with
    | inl hst => exact .inl (h.related hst hx)
    | inr hst => exact .inr (h'.related hst hx)

end

/-! ### Messages one after the other -/

/-- Messages passed to a cipher one by one. -/
def Cipher.messages (C : Cipher S) : S → List (List UInt8) → S × List (List UInt8)
  | s, [] => (s, [])
  | s, x :: xs =>
    ((C.messages (C.crypt s x).1 xs).1, (C.crypt s x).2 :: (C.messages (C.crypt s x).1 xs).2)

/-- Only the bytes matter, not where one message ends and the next begins. -/
theorem Cipher.messages_flatten (C : Cipher S) : ∀ (xs : List (List UInt8)) (s : S),
    (∀ x ∈ xs, C.block s ∣ x.length) →
    C.block s ∣ xs.flatten.length ∧
      C.crypt s xs.flatten = ((C.messages s xs).1, (C.messages s xs).2.flatten) := by
  intro xs
  induction xs with
  | nil =>
    intro s _
    exact ⟨Nat.dvd_zero _, C.crypt_nil s⟩
  | cons x xs ih =>
    intro s hxs
    have hx := hxs x List.mem_cons_self
    obtain ⟨hdvd, hrest⟩ := ih (C.crypt s x).1 (by
      rw [C.block_crypt s x hx]
      exact fun y hy => hxs y (List.mem_cons_of_mem _ hy))
    rw [C.block_crypt s x hx] at hdvd
    refine ⟨?_, ?_⟩
    · rw [List.flatten_cons, List.length_append]
      exact dvd_add hx hdvd
    · rw [List.flatten_cons, C.crypt_append s x _ hx hdvd, hrest]
      rfl

theorem Cipher.length_messages (C : Cipher S) {s : S} {xs : List (List UInt8)}
    (hxs : ∀ x ∈ xs, C.block s ∣ x.length) :
    (C.messages s xs).2.flatten.length = xs.flatten.length := by
  obtain ⟨hdvd, henc⟩ := C.messages_flatten xs s hxs
  have hlen := C.length_crypt s xs.flatten hdvd
  rw [henc] at hlen
  exact hlen

/-- Messages are encrypted one by one; however the cipher text is cut into whole blocks
again, decrypting the pieces one by one gives the same bytes back. -/
theorem Inverse.messages {E : Cipher S} {D : Cipher T} {R : S → T → Prop} (h : Inverse E D R)
    {s : S} {t : T} (hst : R s t) {xs ys : List (List UInt8)}
    (hxs : ∀ x ∈ xs, E.block s ∣ x.length) (hys : ∀ y ∈ ys, E.block s ∣ y.length)
    (hcut : ys.flatten = (E.messages s xs).2.flatten) :
    (D.messages t ys).2.flatten = xs.flatten ∧ R (E.messages s xs).1 (D.messages t ys).1 := by
  obtain ⟨hdvd, henc⟩ := E.messages_flatten xs s hxs
  obtain ⟨-, hdec⟩ := D.messages_flatten ys t (by rw [← h.block hst]; exact hys)
  have hplain := h.plain hst hdvd
  have hrelated := h.related hst hdvd
  rw [henc, ← hcut, hdec] at hplain hrelated
  exact ⟨hplain, hrelated⟩

/-! ### Authentication -/

/-- A message authentication code that takes its message in pieces. Taking the digest makes
it ready for the next message. -/
structure Mac (M : Type) where
  size : M → ℕ
  update : M → List UInt8 → M
  digest : M → M × List UInt8
  size_pos : ∀ m, 0 < size m
  size_update : ∀ m x, size (update m x) = size m
  length_digest : ∀ m, (digest m).2.length = size m
  update_append : ∀ m x y, update m (x ++ y) = update (update m x) y

end Ciphers
