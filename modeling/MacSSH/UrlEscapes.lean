import MacSSH.UrlLogins

/-! Percent encoding on its own: any text, in any memory, is decoded in place. -/
namespace GURL

open CStrings

/-- A digit for a value below sixteen. -/
def hexDigit (upper : Bool) (v : UInt8) : UInt8 :=
  if v < 10 then v+48 else if upper then v-10+65 else v-10+97

/-- A string and an encoding of it: every percent sign is written as an escape, and so are
any other bytes that the writer chooses, each digit in the case that the writer chooses. -/
inductive PercentEncoded : List UInt8 → List UInt8 → Prop
  | nil : PercentEncoded [] []
  | plain {s enc : List UInt8} (c : UInt8) (hc : c ≠ 37) (h : PercentEncoded s enc) :
      PercentEncoded (c :: s) (c :: enc)
  | escaped {s enc : List UInt8} (c : UInt8) (upper upper' : Bool) (h : PercentEncoded s enc) :
      PercentEncoded (c :: s) (37 :: hexDigit upper (c/16) :: hexDigit upper' (c%16) :: enc)

/-- `ProcessURLEscapeCodes` on the string at `url`, in `n` rounds of its loop: the memory, and
what `end` is set to. -/
def processAt (n : ℕ) (m : Int → UInt8) (url : Int) : (Int → UInt8) × Int :=
  let r := unescape n m url url
  (Function.update r.1 r.2 0, r.2-1)

/-- The text of a login has no more than 255 bytes, and it is decoded in as many rounds. -/
theorem ProcessURLEscapeCodes_processAt (t : Text) :
    ProcessURLEscapeCodes t = { t with
      URLString := (processAt 255 t.URLString t.beg).1
      last := (processAt 255 t.URLString t.beg).2 } := rfl

section Digits

theorem hexDigit_digit {v : UInt8} (h : v.toNat < 16) (upper : Bool) :
    isxdigit (tolower (hexDigit upper v)) = true ∧ digit (tolower (hexDigit upper v)) = v := by
  have htable : ∀ k < 16, ∀ upper,
      isxdigit (tolower (hexDigit upper (UInt8.ofNat k))) = true ∧
      digit (tolower (hexDigit upper (UInt8.ofNat k))) = UInt8.ofNat k := by decide
  have hv := htable v.toNat h upper
  rwa [UInt8.ofNat_toNat] at hv

/-- A byte is put together from its halves. -/
theorem halves (c : UInt8) : (c/16) <<< 4+c%16 = c := by
  have hbyte := c.toNat_lt
  apply UInt8.toNat_inj.mp
  rw [UInt8.toNat_add, UInt8.toNat_shiftLeft, UInt8.toNat_div, UInt8.toNat_mod,
    Nat.shiftLeft_eq]
  change (c.toNat/16*2^4%2^8+c.toNat%16)%2^8 = c.toNat
  omega

/-- The encodings are among those that the loop is known to undo. -/
theorem PercentEncoded.encodes {s enc : List UInt8} (h : PercentEncoded s enc)
    (hs : ∀ c ∈ s, c ≠ 0) : Encodes (fun c => c ≠ 37 ∧ c ≠ 0) s enc := by
  induction h with
  | nil => exact .nil
  | @plain s enc c hc _ ih =>
    obtain ⟨hzero, hs⟩ := List.forall_mem_cons.mp hs
    exact .literal ⟨hc, hzero⟩ (ih hs)
  | @escaped s enc c upper upper' _ ih =>
    obtain ⟨-, hs⟩ := List.forall_mem_cons.mp hs
    have hbyte := c.toNat_lt
    have hhigh : (c/16).toNat < 16 := by
      rw [UInt8.toNat_div]
      change c.toNat/16 < 16
      omega
    have hlow : (c%16).toNat < 16 := by
      rw [UInt8.toNat_mod]
      exact Nat.mod_lt _ (by decide)
    obtain ⟨hdigit, hvalue⟩ := hexDigit_digit hhigh upper
    obtain ⟨hdigit', hvalue'⟩ := hexDigit_digit hlow upper'
    -- the loop puts the halves together again
    have hcode := Encodes.code hdigit hdigit' (ih hs)
    rwa [hvalue, hvalue', halves] at hcode

end Digits

/-- The loop writes where `q` goes along, and nowhere else. -/
theorem unescape_outside (n : ℕ) (m : Int → UInt8) (p q : Int) :
    q ≤ (unescape n m p q).2 ∧
    ∀ i, i < q ∨ (unescape n m p q).2 ≤ i → (unescape n m p q).1 i = m i := by
  induction n generalizing m p q with
  | zero => exact ⟨le_refl q, fun i _ => rfl⟩
  | succ n ih =>
    -- whatever byte a round writes at `q`, the later ones write behind it
    have hround : ∀ c p', q ≤ (unescape n (Function.update m q c) p' (q+1)).2 ∧
        ∀ i, i < q ∨ (unescape n (Function.update m q c) p' (q+1)).2 ≤ i →
          (unescape n (Function.update m q c) p' (q+1)).1 i = m i := by
      intro c p'
      obtain ⟨hle, hsame⟩ := ih (Function.update m q c) p' (q+1)
      refine ⟨by omega, fun i hi => ?_⟩
      rw [hsame i (by omega), Function.update_of_ne (by omega)]
    rw [unescape]
    by_cases hzero : m p ≠ 0
    · rw [if_pos hzero]
      split
      · exact hround _ _
      · exact hround _ _
    · rw [if_neg hzero]
      exact ⟨le_refl q, fun i _ => rfl⟩

/-- The loop ends in as many rounds as the encoding has bytes and one; the string lies where
its encoding was and is terminated, `end` is its last character, and the rest of the memory is
as before. -/
theorem ProcessURLEscapeCodes_decodes {s enc : List UInt8} (hs : ∀ c ∈ s, c ≠ 0)
    (h : PercentEncoded s enc) {m : Int → UInt8} {url : Int} (hm : At m url (enc ++ [0]))
    {n : ℕ} (hn : enc.length < n) :
    At (processAt n m url).1 url (s ++ [0]) ∧
    (processAt n m url).2 = url+s.length-1 ∧
    ∀ i, i < url ∨ url+s.length < i → (processAt n m url).1 i = m i := by
  obtain ⟨henc, hzero, -⟩ := (at_append enc [0]).mp hm
  obtain ⟨hend, hstring, -⟩ :=
    unescape_spec (h.encodes hs) n m url url henc hzero (le_refl url) hn
  obtain ⟨-, houtside⟩ := unescape_outside n m url url
  -- behind the loop the end of the string is written, and `end` set in front of it
  have hresult : processAt n m url =
      (Function.update (unescape n m url url).1 (url+s.length) 0, url+s.length-1) := by
    rw [← hend]
    rfl
  rw [hresult]
  refine ⟨?_, rfl, ?_⟩
  · rw [at_append]
    exact ⟨hstring.update (.inr (le_refl _)) 0, Function.update_self .., trivial⟩
  · intro i hi
    have hi' : i < url ∨ (unescape n m url url).2 ≤ i := by omega
    exact (Function.update_of_ne (by omega) ..).trans (houtside i hi')

/-- An encoded percent sign in front of two digits is not decoded twice. -/
theorem ProcessURLEscapeCodes_decodes_percent :
    let m : Int → UInt8 := store (fun _ => 0) 0 [37, 50, 53, 52, 49]
    At (processAt 6 m 0).1 0 [37, 52, 49, 0] ∧ (processAt 6 m 0).2 = 2 := by
  have hs : ∀ c ∈ [(37 : UInt8), 52, 49], c ≠ 0 := by simp
  have henc : PercentEncoded [37, 52, 49] [37, 50, 53, 52, 49] :=
    .escaped 37 false false (.plain 52 (by decide) (.plain 49 (by decide) .nil))
  have hm : At (store (fun _ => (0 : UInt8)) 0 [37, 50, 53, 52, 49]) 0
      ([37, 50, 53, 52, 49] ++ [0]) := by decide
  obtain ⟨hat, hend, -⟩ := ProcessURLEscapeCodes_decodes hs henc hm (show 5 < 6 by decide)
  exact ⟨hat, hend⟩

end GURL
