import MacSSH.StatefulCiphers

/-! How the block ciphers are used: chained in CBC mode, several in a cascade, and the
stream cipher arcfour. -/
namespace Crypt
open Ciphers

section
variable {S T : Type}

/-- Combine the first `n` bytes of `src` into `dst`. -/
def memxor (dst src : List UInt8) (n : ℕ) : List UInt8 :=
  List.zipWith (· ^^^ ·) (dst.take n) (src.take n) ++ dst.drop n

/-- The loop of `do_cbc_encrypt`, over `k` blocks of `bs` bytes. -/
def cbc_encrypt_blocks (C : Cipher S) (bs : ℕ) :
    ℕ → S → List UInt8 → List UInt8 → (S × List UInt8) × List UInt8
  | 0, inner, iv, _ => ((inner, iv), [])
  | k+1, inner, iv, src =>
    let iv := memxor iv src bs
    let dst := (C.crypt inner iv).2
    let rest := cbc_encrypt_blocks C bs k (C.crypt inner iv).1 dst (src.drop bs)
    (rest.1, dst ++ rest.2)

/-- The body of `do_cbc_decrypt`. -/
def cbc_decrypt_blocks (C : Cipher S) (bs : ℕ) (inner : S) (iv src : List UInt8) :
    (S × List UInt8) × List UInt8 :=
  if src.length = 0 then ((inner, iv), [])
  else
    -- Decrypt in ECB mode
    let r := C.crypt inner src
    -- XOR the cryptotext, shifted one block
    let dst := memxor r.2 iv bs
    let dst := dst.take bs ++ memxor (dst.drop bs) src (src.length-bs)
    ((r.1, src.drop (src.length-bs)), dst)

theorem zipWith_xor_twice : ∀ (x y : List UInt8), x.length = y.length →
    List.zipWith (· ^^^ ·) (List.zipWith (· ^^^ ·) x y) x = y := by
  intro x
  induction x with
  | nil =>
    intro y h
    rw [List.length_eq_zero_iff.mp h.symm]
    rfl
  | cons a x ih =>
    intro y h
    cases y with
    | nil => cases h
    | cons b y =>
      rw [List.zipWith_cons_cons, List.zipWith_cons_cons, ih y (Nat.succ.inj h)]
      congr 1
      rw [UInt8.xor_comm a b, UInt8.xor_assoc, UInt8.xor_self, UInt8.xor_zero]

theorem memxor_block {iv src : List UInt8} {bs : ℕ} (hiv : iv.length = bs) :
    memxor iv src bs = List.zipWith (· ^^^ ·) iv (src.take bs) := by
  rw [memxor, List.take_of_length_le (le_of_eq hiv), List.drop_of_length_le (le_of_eq hiv),
    List.append_nil]

variable {C : Cipher S}

/-- Lengths in the loop of `do_cbc_encrypt`. -/
theorem cbc_encrypt_lengths {bs : ℕ} : ∀ (k : ℕ) (inner : S) (iv src : List UInt8),
    C.block inner = bs → iv.length = bs → src.length = k*bs →
    (cbc_encrypt_blocks C bs k inner iv src).2.length = k*bs ∧
      (cbc_encrypt_blocks C bs k inner iv src).1.2.length = bs ∧
      C.block (cbc_encrypt_blocks C bs k inner iv src).1.1 = bs := by
  intro k
  induction k with
  | zero =>
    intro inner iv src hb hiv _
    exact ⟨(Nat.zero_mul bs).symm, hiv, hb⟩
  | succ k ih =>
    intro inner iv src hb hiv hsrc
    rw [Nat.succ_mul] at hsrc
    have hx : (memxor iv src bs).length = bs := by
      rw [memxor_block hiv, List.length_zipWith, List.length_take]
      omega
    have hdvd : C.block inner ∣ (memxor iv src bs).length := by rw [hx, hb]
    have hdst : (C.crypt inner (memxor iv src bs)).2.length = bs := by
      rw [C.length_crypt _ _ hdvd, hx]
    have hrest := ih (C.crypt inner (memxor iv src bs)).1 (C.crypt inner (memxor iv src bs)).2
      (src.drop bs) (by rw [C.block_crypt _ _ hdvd, hb]) hdst
      (by rw [List.length_drop]; omega)
    refine ⟨?_, hrest.2⟩
    rw [cbc_encrypt_blocks, List.length_append, hdst, hrest.1, Nat.succ_mul, Nat.add_comm]

theorem cbc_encrypt_append {bs : ℕ} (m : ℕ) : ∀ (k : ℕ) (inner : S) (iv x y : List UInt8),
    x.length = k*bs → cbc_encrypt_blocks C bs (k+m) inner iv (x ++ y) =
      let first := cbc_encrypt_blocks C bs k inner iv x
      let second := cbc_encrypt_blocks C bs m first.1.1 first.1.2 y
      (second.1, first.2 ++ second.2) := by
  intro k
  induction k with
  | zero =>
    intro inner iv x y hx
    rw [Nat.zero_mul] at hx
    rw [List.length_eq_zero_iff.mp hx, Nat.zero_add]
    rfl
  | succ k ih =>
    intro inner iv x y hx
    rw [Nat.succ_mul] at hx
    have hblock : memxor iv (x ++ y) bs = memxor iv x bs := by
      rw [memxor, memxor, List.take_append_of_le_length (by omega)]
    rw [Nat.succ_add_eq_add_succ, Nat.add_succ, cbc_encrypt_blocks, hblock,
      List.drop_append_of_le_length (by omega), ih _ _ _ _ (by rw [List.length_drop]; omega)]
    simp only [cbc_encrypt_blocks, List.append_assoc]

/-- On at least one block, the plain text is what the inner cipher gives, combined with the
vector followed by the cipher text. -/
theorem cbc_decrypt_eq {bs : ℕ} (hbs : 0 < bs) {inner : S} {iv src : List UInt8}
    (hiv : iv.length = bs) (hsrc : bs ≤ src.length)
    (hp : (C.crypt inner src).2.length = src.length) :
    cbc_decrypt_blocks C bs inner iv src =
      (((C.crypt inner src).1, src.drop (src.length-bs)),
        List.zipWith (· ^^^ ·) (C.crypt inner src).2 (iv ++ src.take (src.length-bs))) := by
  rw [cbc_decrypt_blocks, if_neg (by omega)]
  generalize C.crypt inner src = r at hp ⊢
  have hsplit : memxor r.2 iv bs = List.zipWith (· ^^^ ·) (r.2.take bs) iv ++ r.2.drop bs := by
    rw [memxor, List.take_of_length_le (le_of_eq hiv)]
  have hlen : (List.zipWith (· ^^^ ·) (r.2.take bs) iv).length = bs := by
    rw [List.length_zipWith, List.length_take]
    omega
  have hrest : memxor (r.2.drop bs) src (src.length-bs) =
      List.zipWith (· ^^^ ·) (r.2.drop bs) (src.take (src.length-bs)) := by
    have hdrop : (r.2.drop bs).length = src.length-bs := by
      rw [List.length_drop, hp]
    rw [memxor, List.take_of_length_le (le_of_eq hdrop), List.drop_of_length_le (le_of_eq hdrop),
      List.append_nil]
  simp only [hsplit]
  rw [List.take_append_of_le_length (le_of_eq hlen.symm),
    List.take_of_length_le (le_of_eq hlen), List.drop_append_of_le_length (le_of_eq hlen.symm),
    List.drop_of_length_le (le_of_eq hlen), List.nil_append, hrest]
  have hboth : List.zipWith (· ^^^ ·) (r.2.take bs ++ r.2.drop bs)
      (iv ++ src.take (src.length-bs)) =
      List.zipWith (· ^^^ ·) (r.2.take bs) iv ++
        List.zipWith (· ^^^ ·) (r.2.drop bs) (src.take (src.length-bs)) := by
    apply List.zipWith_append
    rw [List.length_take]
    omega
  rw [List.take_append_drop] at hboth
  rw [hboth]

theorem cbc_decrypt_nil {bs : ℕ} (inner : S) (iv : List UInt8) :
    cbc_decrypt_blocks C bs inner iv [] = ((inner, iv), []) := by
  rw [cbc_decrypt_blocks, List.length_nil, if_pos rfl]

theorem block_le {bs : ℕ} {x : List UInt8} (hx : bs ∣ x.length) (hne : x ≠ []) :
    bs ≤ x.length :=
  Nat.le_of_dvd (List.length_pos_of_ne_nil hne) hx

theorem cbc_decrypt_lengths {bs : ℕ} (hbs : 0 < bs) {inner : S} {iv src : List UInt8}
    (hb : C.block inner = bs) (hiv : iv.length = bs) (hsrc : bs ∣ src.length) :
    (cbc_decrypt_blocks C bs inner iv src).2.length = src.length ∧
      (cbc_decrypt_blocks C bs inner iv src).1.2.length = bs ∧
      C.block (cbc_decrypt_blocks C bs inner iv src).1.1 = bs := by
  by_cases hne : src = []
  · rw [hne, cbc_decrypt_nil]
    exact ⟨rfl, hiv, hb⟩
  · have hle := block_le hsrc hne
    have hdvd : C.block inner ∣ src.length := by rwa [hb]
    have hp := C.length_crypt inner src hdvd
    rw [cbc_decrypt_eq hbs hiv hle hp]
    refine ⟨?_, ?_, ?_⟩
    · rw [List.length_zipWith, List.length_append, List.length_take]
      omega
    · rw [List.length_drop]
      omega
    · rw [C.block_crypt inner src hdvd, hb]

theorem cbc_decrypt_append {bs : ℕ} (hbs : 0 < bs) {inner : S} {iv x y : List UInt8}
    (hb : C.block inner = bs) (hiv : iv.length = bs) (hx : bs ∣ x.length) (hy : bs ∣ y.length) :
    cbc_decrypt_blocks C bs inner iv (x ++ y) =
      let first := cbc_decrypt_blocks C bs inner iv x
      let second := cbc_decrypt_blocks C bs first.1.1 first.1.2 y
      (second.1, first.2 ++ second.2) := by
  by_cases hxe : x = []
  · subst hxe
    rw [cbc_decrypt_nil]
    rfl
  by_cases hye : y = []
  · subst hye
    rw [List.append_nil]
    simp only [cbc_decrypt_nil, List.append_nil]
  have hxle := block_le hx hxe
  have hyle := block_le hy hye
  have hdx : C.block inner ∣ x.length := by rwa [hb]
  have hdy : C.block inner ∣ y.length := by rwa [hb]
  have hlenx := C.length_crypt inner x hdx
  have hleny := C.length_crypt (C.crypt inner x).1 y (by rwa [C.block_crypt inner x hdx])
  have happend := C.crypt_append inner x y hdx hdy
  have hlen : (C.crypt inner (x ++ y)).2.length = (x ++ y).length := by
    rw [happend, List.length_append, List.length_append, hlenx, hleny]
  have hiv' : (x.drop (x.length-bs)).length = bs := by
    rw [List.length_drop]
    omega
  rw [cbc_decrypt_eq hbs hiv (by rw [List.length_append]; omega) hlen,
    cbc_decrypt_eq hbs hiv hxle hlenx]
  dsimp only
  rw [cbc_decrypt_eq hbs hiv' hyle hleny, happend]
  -- the shifted cipher text of both is that of the one followed by that of the other
  have htake : (x ++ y).take ((x ++ y).length-bs) =
      x.take (x.length-bs) ++ (x.drop (x.length-bs) ++ y.take (y.length-bs)) := by
    rw [← List.append_assoc, List.take_append_drop, List.length_append,
      Nat.add_sub_assoc hyle, List.take_length_add_append]
  have hdrop : (x ++ y).drop ((x ++ y).length-bs) = y.drop (y.length-bs) := by
    rw [List.length_append, Nat.add_sub_assoc hyle, List.drop_length_add_append]
  rw [htake, hdrop, ← List.append_assoc, List.zipWith_append]
  rw [List.length_append, List.length_take, hlenx]
  omega

/-- An instance of CBC: the inner cipher and a vector of one block. -/
structure cbc_instance (C : Cipher S) where
  inner : S
  iv : List UInt8
  iv_length : iv.length = C.block inner

variable (C)

/-- A length that is not a number of blocks is refused with an assertion. -/
def do_cbc_encrypt (self : cbc_instance C) (src : List UInt8) :
    cbc_instance C × List UInt8 :=
  if h : C.block self.inner ∣ src.length then
    let r := cbc_encrypt_blocks C (C.block self.inner) (src.length/C.block self.inner)
      self.inner self.iv src
    have hr := cbc_encrypt_lengths (src.length/C.block self.inner) self.inner self.iv src rfl
      self.iv_length (Nat.div_mul_cancel h).symm
    (⟨r.1.1, r.1.2, hr.2.1.trans hr.2.2.symm⟩, r.2)
  else (self, [])

def do_cbc_decrypt (self : cbc_instance C) (src : List UInt8) :
    cbc_instance C × List UInt8 :=
  if h : C.block self.inner ∣ src.length then
    let r := cbc_decrypt_blocks C (C.block self.inner) self.inner self.iv src
    have hr := cbc_decrypt_lengths (C.block_pos self.inner) rfl self.iv_length h
    (⟨r.1.1, r.1.2, hr.2.1.trans hr.2.2.symm⟩, r.2)
  else (self, [])

variable {C}

theorem do_cbc_encrypt_eq (self : cbc_instance C) (src : List UInt8)
    (h : C.block self.inner ∣ src.length) :
    let r := cbc_encrypt_blocks C (C.block self.inner) (src.length/C.block self.inner)
      self.inner self.iv src
    (do_cbc_encrypt C self src).2 = r.2 ∧ (do_cbc_encrypt C self src).1.inner = r.1.1 ∧
      (do_cbc_encrypt C self src).1.iv = r.1.2 := by
  rw [do_cbc_encrypt, dif_pos h]
  exact ⟨rfl, rfl, rfl⟩

theorem do_cbc_decrypt_eq (self : cbc_instance C) (src : List UInt8)
    (h : C.block self.inner ∣ src.length) :
    let r := cbc_decrypt_blocks C (C.block self.inner) self.inner self.iv src
    (do_cbc_decrypt C self src).2 = r.2 ∧ (do_cbc_decrypt C self src).1.inner = r.1.1 ∧
      (do_cbc_decrypt C self src).1.iv = r.1.2 := by
  rw [do_cbc_decrypt, dif_pos h]
  exact ⟨rfl, rfl, rfl⟩

theorem cbc_instance.ext_fields {a b : cbc_instance C} (hinner : a.inner = b.inner)
    (hiv : a.iv = b.iv) : a = b := by
  cases a
  cases b
  simp_all

variable (C)

def cbc_encrypt : Cipher (cbc_instance C) where
  block s := C.block s.inner
  crypt := do_cbc_encrypt C
  block_pos s := C.block_pos s.inner
  crypt_nil s := by
    have h := do_cbc_encrypt_eq s [] (Nat.dvd_zero _)
    simp only [List.length_nil, Nat.zero_div] at h
    exact Prod.ext (cbc_instance.ext_fields h.2.1 h.2.2) h.1
  length_crypt s x hx := by
    rw [(do_cbc_encrypt_eq _ _ hx).1, (cbc_encrypt_lengths _ _ _ _ rfl s.iv_length
      (Nat.div_mul_cancel hx).symm).1, Nat.div_mul_cancel hx]
  block_crypt s x hx := by
    rw [(do_cbc_encrypt_eq _ _ hx).2.1, (cbc_encrypt_lengths _ _ _ _ rfl s.iv_length
      (Nat.div_mul_cancel hx).symm).2.2]
  crypt_append s x y hx hy := by
    have hxy : C.block s.inner ∣ (x ++ y).length := by
      rw [List.length_append]
      exact dvd_add hx hy
    have hlen := cbc_encrypt_lengths _ _ _ _ rfl s.iv_length (Nat.div_mul_cancel hx).symm
    have hfirst := do_cbc_encrypt_eq _ _ hx
    have hsecond := do_cbc_encrypt_eq (do_cbc_encrypt C s x).1 y
      (by rw [hfirst.2.1, hlen.2.2]; exact hy)
    have hboth := do_cbc_encrypt_eq _ _ hxy
    have happend := cbc_encrypt_append (C := C) (y.length/C.block s.inner) _ s.inner s.iv x y
      (Nat.div_mul_cancel hx).symm
    rw [List.length_append, Nat.add_div_of_dvd_right hx, happend] at hboth
    rw [hfirst.2.1, hfirst.2.2, hlen.2.2] at hsecond
    refine Prod.ext (cbc_instance.ext_fields ?_ ?_) ?_
    · exact hboth.2.1.trans hsecond.2.1.symm
    · exact hboth.2.2.trans hsecond.2.2.symm
    · show (do_cbc_encrypt C s (x ++ y)).2 = _ ++ _
      rw [hboth.1, hfirst.1, hsecond.1]

def cbc_decrypt : Cipher (cbc_instance C) where
  block s := C.block s.inner
  crypt := do_cbc_decrypt C
  block_pos s := C.block_pos s.inner
  crypt_nil s := by
    have h := do_cbc_decrypt_eq s [] (Nat.dvd_zero _)
    simp only [cbc_decrypt_nil] at h
    exact Prod.ext (cbc_instance.ext_fields h.2.1 h.2.2) h.1
  length_crypt s x hx := by
    rw [(do_cbc_decrypt_eq _ _ hx).1]
    exact (cbc_decrypt_lengths (C.block_pos _) rfl s.iv_length hx).1
  block_crypt s x hx := by
    rw [(do_cbc_decrypt_eq _ _ hx).2.1]
    exact (cbc_decrypt_lengths (C.block_pos _) rfl s.iv_length hx).2.2
  crypt_append s x y hx hy := by
    have hxy : C.block s.inner ∣ (x ++ y).length := by
      rw [List.length_append]
      exact dvd_add hx hy
    have hlen := cbc_decrypt_lengths (C.block_pos _) rfl s.iv_length hx
    have hfirst := do_cbc_decrypt_eq _ _ hx
    have hsecond := do_cbc_decrypt_eq (do_cbc_decrypt C s x).1 y
      (by rw [hfirst.2.1, hlen.2.2]; exact hy)
    have hboth := do_cbc_decrypt_eq _ _ hxy
    rw [cbc_decrypt_append (C.block_pos _) rfl s.iv_length hx hy] at hboth
    rw [hfirst.2.1, hfirst.2.2, hlen.2.2] at hsecond
    refine Prod.ext (cbc_instance.ext_fields ?_ ?_) ?_
    · exact hboth.2.1.trans hsecond.2.1.symm
    · exact hboth.2.2.trans hsecond.2.2.symm
    · show (do_cbc_decrypt C s (x ++ y)).2 = _ ++ _
      rw [hboth.1, hfirst.1, hsecond.1]

variable {C}
variable {E : Cipher S} {D : Cipher T} {R : S → T → Prop}

theorem cbc_blocks_inverse (h : Inverse E D R) {bs : ℕ} (hbs : 0 < bs) : ∀ (k : ℕ) (s : S) (t : T)
    (iv x : List UInt8), R s t → E.block s = bs → iv.length = bs → x.length = k*bs →
    let c := cbc_encrypt_blocks E bs k s iv x
    let p := cbc_decrypt_blocks D bs t iv c.2
    p.2 = x ∧ R c.1.1 p.1.1 ∧ p.1.2 = c.1.2 := by
  intro k
  induction k with
  | zero =>
    intro s t iv x hr _ _ hx
    rw [Nat.zero_mul] at hx
    rw [List.length_eq_zero_iff.mp hx]
    simp only [cbc_encrypt_blocks, cbc_decrypt_nil]
    exact ⟨trivial, hr, trivial⟩
  | succ k ih =>
    intro s t iv x hr hb hiv hx
    have htb : D.block t = bs := (h.block hr).symm.trans hb
    rw [Nat.succ_mul] at hx
    have hblock : memxor iv x bs = List.zipWith (· ^^^ ·) iv (x.take bs) := memxor_block hiv
    have hlen : (memxor iv x bs).length = bs := by
      rw [hblock, List.length_zipWith, List.length_take]
      omega
    have hdvd : E.block s ∣ (memxor iv x bs).length := by rw [hlen, hb]
    have hc := E.length_crypt s _ hdvd
    rw [hlen] at hc
    have hplain := h.plain hr hdvd
    have hrelated := h.related hr hdvd
    have hb' : E.block (E.crypt s (memxor iv x bs)).1 = bs := by
      rw [E.block_crypt s _ hdvd, hb]
    have hrest : (x.drop bs).length = k*bs := by
      rw [List.length_drop]
      omega
    -- the first block alone
    have hfirst : cbc_decrypt_blocks D bs t iv (E.crypt s (memxor iv x bs)).2 =
        (((D.crypt t (E.crypt s (memxor iv x bs)).2).1, (E.crypt s (memxor iv x bs)).2),
          x.take bs) := by
      rw [cbc_decrypt_eq hbs hiv (le_of_eq hc.symm) (by rw [hplain, hlen, hc]), hplain, hc,
        Nat.sub_self, List.take_zero, List.append_nil, List.drop_zero, hblock,
        zipWith_xor_twice]
      rw [List.length_take]
      omega
    have hlens := cbc_encrypt_lengths k (E.crypt s (memxor iv x bs)).1
      (E.crypt s (memxor iv x bs)).2 (x.drop bs) hb' hc hrest
    obtain ⟨hp, hr', hiv'⟩ := ih (E.crypt s (memxor iv x bs)).1
      (D.crypt t (E.crypt s (memxor iv x bs)).2).1 (E.crypt s (memxor iv x bs)).2 (x.drop bs)
      hrelated hb' hc hrest
    simp only [cbc_encrypt_blocks]
    rw [cbc_decrypt_append hbs htb hiv (by rw [hc]) (by rw [hlens.1]; exact dvd_mul_left _ _),
      hfirst]
    refine ⟨?_, hr', hiv'⟩
    show x.take bs ++ _ = x
    rw [hp, List.take_append_drop]

/-- CBC decryption with the same vector inverts CBC encryption. The inner ciphers may keep
states of their own, so CBC may be nested. -/
theorem cbc_inverse (h : Inverse E D R) :
    Inverse (cbc_encrypt E) (cbc_decrypt D) fun s t => R s.inner t.inner ∧ s.iv = t.iv where
  block hst := h.block hst.1
  plain := by
    intro s t x hst hx
    have hx : E.block s.inner ∣ x.length := hx
    have he := do_cbc_encrypt_eq _ _ hx
    have hlen := cbc_encrypt_lengths _ _ _ _ rfl s.iv_length (Nat.div_mul_cancel hx).symm
    have hd := do_cbc_decrypt_eq t (do_cbc_encrypt E s x).2
      (by rw [he.1, hlen.1, ← h.block hst.1]; exact dvd_mul_left _ _)
    have hback := cbc_blocks_inverse h (E.block_pos s.inner) _ s.inner t.inner s.iv x hst.1 rfl
      s.iv_length (Nat.div_mul_cancel hx).symm
    show (do_cbc_decrypt D t (do_cbc_encrypt E s x).2).2 = x
    rw [hd.1, he.1, ← hst.2, ← h.block hst.1]
    exact hback.1
  related := by
    intro s t x hst hx
    have hx : E.block s.inner ∣ x.length := hx
    have he := do_cbc_encrypt_eq _ _ hx
    have hlen := cbc_encrypt_lengths _ _ _ _ rfl s.iv_length (Nat.div_mul_cancel hx).symm
    have hd := do_cbc_decrypt_eq t (do_cbc_encrypt E s x).2
      (by rw [he.1, hlen.1, ← h.block hst.1]; exact dvd_mul_left _ _)
    have hback := cbc_blocks_inverse h (E.block_pos s.inner) _ s.inner t.inner s.iv x hst.1 rfl
      s.iv_length (Nat.div_mul_cancel hx).symm
    rw [he.1, ← hst.2, ← h.block hst.1] at hd
    refine ⟨?_, ?_⟩
    · show R (do_cbc_encrypt E s x).1.inner
        (do_cbc_decrypt D t (do_cbc_encrypt E s x).2).1.inner
      rw [he.2.1, he.1, hd.2.1]
      exact hback.2.1
    · show (do_cbc_encrypt E s x).1.iv = (do_cbc_decrypt D t (do_cbc_encrypt E s x).2).1.iv
      rw [he.2.2, he.1, hd.2.2]
      exact hback.2.2.symm

end

/-! ### Cascades -/

section
variable {S : Type}

/-- The ciphers of a cascade, made from those of the algorithms: in their order to
encrypt, in the other to decrypt. -/
def do_make_cascade (encrypt : Bool) (instances : List S) : List S :=
  let l := instances.length
  (List.range l).filterMap fun j => instances[if encrypt then j else l-j-1]?

/-- One cipher after the other. -/
def do_cascade_crypt (C : Cipher S) (cascade : List S) (src : List UInt8) :
    List S × List UInt8 := chained C cascade src

def crypto_cascade (C : Cipher S) : Cipher (List S) :=
  { cascade C with crypt := do_cascade_crypt C }

end

section
variable {S T : Type}

theorem do_make_cascade_encrypt (l : List S) : do_make_cascade true l = l := by
  have hall : ∀ k ≤ l.length, (List.range k).filterMap (fun j => l[j]?) = l.take k := by
    intro k
    induction k with
    | zero => intro _; rfl
    | succ k ih =>
      intro hk
      rw [List.range_succ, List.filterMap_append, ih (by omega), List.take_add_one]
      congr 1
  have h := hall l.length (Nat.le_refl _)
  rw [List.take_length] at h
  exact h

theorem do_make_cascade_decrypt (l : List S) : do_make_cascade false l = l.reverse := by
  have h := do_make_cascade_encrypt l.reverse
  rw [← h]
  unfold do_make_cascade
  rw [List.length_reverse]
  apply List.filterMap_congr
  intro j hj
  have hj : j < l.length := List.mem_range.mp hj
  simp only [if_true, Bool.false_eq_true, if_false]
  rw [List.getElem?_reverse hj, Nat.sub_right_comm]

end

/-! ### Arcfour -/

structure arcfour_ctx where
  S : UInt8 → UInt8
  i : UInt8
  j : UInt8

def SWAP (S : UInt8 → UInt8) (a b : UInt8) : UInt8 → UInt8 :=
  fun x => if x = a then S b else if x = b then S a else S x

/-- The state after `k` steps of the second loop of `arcfour_set_key`, with `i`, `j` and the
index of the key byte. -/
def arcfour_schedule (key : List UInt8) :
    ℕ → (UInt8 → UInt8) × UInt8 × ℕ → (UInt8 → UInt8) × UInt8 × ℕ
  | 0, state => state
  | n+1, (S, j, k) =>
    let i := UInt8.ofNat (256-(n+1))
    let j := j+S i+key.getD k 0
    -- Repeat key as needed
    arcfour_schedule key n (SWAP S i j, j, (k+1)%key.length)

def arcfour_set_key (key : List UInt8) : arcfour_ctx :=
  { S := (arcfour_schedule key 256 (id, 0, 0)).1, i := 0, j := 0 }

/-- One round of the loop of `arcfour_crypt`. -/
def arcfour_next (ctx : arcfour_ctx) : arcfour_ctx × UInt8 :=
  let i := ctx.i+1
  let j := ctx.j+ctx.S i
  let S := SWAP ctx.S i j
  (⟨S, i, j⟩, S (S i+S j))

def arcfour_crypt (ctx : arcfour_ctx) (src : List UInt8) : arcfour_ctx × List UInt8 :=
  streamed arcfour_next ctx src

def arcfour_cipher : Cipher arcfour_ctx :=
  { keystream arcfour_next (n := 8) (by norm_num) with crypt := arcfour_crypt }

/-! ### All together -/

section
variable {S T : Type} {E : Cipher S} {D : Cipher T} {R : S → T → Prop}

/-- An instance of an algorithm: a block cipher in CBC mode, or arcfour. -/
def algorithms_encrypt (E : Cipher S) : Cipher (cbc_instance E ⊕ arcfour_ctx) :=
  (cbc_encrypt E).sum arcfour_cipher

def algorithms_decrypt (D : Cipher T) : Cipher (cbc_instance D ⊕ arcfour_ctx) :=
  (cbc_decrypt D).sum arcfour_cipher

/-- Two instances made from the same key and vector. -/
def SameKeys (R : S → T → Prop) :
    cbc_instance E ⊕ arcfour_ctx → cbc_instance D ⊕ arcfour_ctx → Prop :=
  Sum.LiftRel (fun s t => R s.inner t.inner ∧ s.iv = t.iv) Eq

theorem algorithms_inverse (h : Inverse E D R) :
    Inverse (algorithms_encrypt E) (algorithms_decrypt D) (SameKeys R) :=
  (cbc_inverse h).sum (keystream_inverse arcfour_next (by norm_num))

/-- A cascade of algorithms decrypts what the cascade of the same algorithms with the same
keys has encrypted, message after message, and however the cipher text is cut into whole
blocks on the way. -/
theorem cascade_decrypts (h : Inverse E D R) {s : List (cbc_instance E ⊕ arcfour_ctx)}
    {t : List (cbc_instance D ⊕ arcfour_ctx)} (hst : List.Forall₂ (SameKeys R) s t)
    {xs ys : List (List UInt8)}
    (hxs : ∀ x ∈ xs, commonBlock (algorithms_encrypt E) s ∣ x.length)
    (hys : ∀ y ∈ ys, commonBlock (algorithms_encrypt E) s ∣ y.length)
    (hcut : ys.flatten =
      ((crypto_cascade (algorithms_encrypt E)).messages (do_make_cascade true s) xs).2.flatten) :
    ((crypto_cascade (algorithms_decrypt D)).messages (do_make_cascade false t) ys).2.flatten =
      xs.flatten := by
  rw [do_make_cascade_encrypt] at hcut
  rw [do_make_cascade_decrypt]
  refine ((cascade_inverse (algorithms_inverse h)).messages ?_ hxs hys hcut).1
  rw [List.reverse_reverse]
  exact hst

end

/-- A block cipher for the example below. -/
def flipped : BlockMap 8 where
  map x := x.map (· ^^^ 0x5a)
  length_map x hx := by rw [List.length_map, hx]

def flippedBlocks : Cipher Unit := ecb (n := 8) (by norm_num) flipped

def flippedCascade : List (cbc_instance flippedBlocks ⊕ arcfour_ctx) :=
  [.inl ⟨(), [1, 2, 3, 4, 5, 6, 7, 8], rfl⟩, .inr (arcfour_set_key [107, 101, 121])]

theorem cascade_decrypts_flipped :
    ((crypto_cascade (algorithms_decrypt flippedBlocks)).messages
      (do_make_cascade false flippedCascade)
      [((crypto_cascade (algorithms_encrypt flippedBlocks)).messages
        (do_make_cascade true flippedCascade) [[104, 101, 108, 108, 111, 33, 33, 33]]).2.flatten]
      ).2.flatten = [104, 101, 108, 108, 111, 33, 33, 33] := by
  have hinverse : Inverse flippedBlocks flippedBlocks fun _ _ => True := by
    apply ecb_inverse
    intro x _
    show (x.map (· ^^^ 0x5a)).map (· ^^^ 0x5a) = x
    have hflip : ((· ^^^ 0x5a) ∘ (· ^^^ 0x5a) : UInt8 → UInt8) = id := by
      funext a
      rw [Function.comp_apply, UInt8.xor_assoc, UInt8.xor_self, UInt8.xor_zero]
      rfl
    rw [List.map_map, hflip, List.map_id]
  have hsame : List.Forall₂ (SameKeys fun _ _ => True) flippedCascade flippedCascade := by
    refine .cons (.inl ⟨trivial, rfl⟩) (.cons (.inr rfl) .nil)
  have hblock : commonBlock (algorithms_encrypt flippedBlocks) flippedCascade = 8 := rfl
  have hwhole : ∀ x ∈ [[104, 101, 108, 108, 111, 33, 33, 33]],
      commonBlock (algorithms_encrypt flippedBlocks) flippedCascade ∣
        (x : List UInt8).length := by
    intro x hx
    rw [List.mem_singleton.mp hx, hblock]
    decide
  refine cascade_decrypts hinverse hsame hwhole ?_ ?_
  · intro y hy
    rw [List.mem_singleton.mp hy, do_make_cascade_encrypt,
      (crypto_cascade (algorithms_encrypt flippedBlocks)).length_messages hwhole, hblock]
    decide
  · rw [List.flatten_cons, List.flatten_nil, List.append_nil]

end Crypt
