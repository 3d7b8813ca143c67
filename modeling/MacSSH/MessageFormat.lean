import MacSSH.Atoms
import MacSSH.Bignums

/-! Messages are put together from a format string in two passes: the first computes the
length of the buffer, the second fills it. -/
namespace Messages
open Atoms Bignums

def WRITE_UINT32 (n : ℕ) : List UInt8 :=
  [UInt8.ofNat (n/2^24), UInt8.ofNat (n/2^16), UInt8.ofNat (n/2^8), UInt8.ofNat n]

def READ_UINT32 (data : List UInt8) : ℕ :=
  (data.getD 0 0).toNat*2^24+(data.getD 1 0).toNat*2^16+(data.getD 2 0).toNat*2^8+
    (data.getD 3 0).toNat

/-! ### Decimals -/

/-- Table of 10^(2^n). -/
def powers : List ℕ := [10, 100, 10000, 100000000]

def format_size_in_decimal (n : ℕ) : ℕ :=
  ([3, 2, 1, 0].foldl (fun (s : ℕ × ℕ) i =>
    if powers.getD i 0 ≤ s.1 then (s.1/powers.getD i 0, s.2+2^i) else s) (n, 0)).2+1

def format_decimal : ℕ → ℕ → List UInt8
  | 0, _ => []
  | length+1, n => format_decimal length (n/10) ++ [UInt8.ofNat (48+n%10)]

def write_decimal_length (n : ℕ) : List UInt8 :=
  format_decimal (format_size_in_decimal n) n ++ [58]

def hexchars : List UInt8 := chars "0123456789abcdef"

def format_hex_string (data : List UInt8) : List UInt8 :=
  data.flatMap fun b => [hexchars.getD (b.toNat/16) 0, hexchars.getD (b.toNat%16) 0]

/-! ### Directives -/

/-- The options before the letter of a directive; `f` frees a string and writes nothing. -/
structure Options where
  literal : Bool
  decimal : Bool
  hex : Bool
  unsigned_form : Bool

def no_options : Options :=
  { literal := false, decimal := false, hex := false, unsigned_form := false }

def Options.add (o : Options) (c : Char) : Option Options :=
  if c = 'l' then some { o with literal := true }
  else if c = 'd' then some { o with decimal := true }
  else if c = 'f' then some o
  else if c = 'u' then some { o with unsigned_form := true }
  else if c = 'x' then some { o with hex := true }
  else none

/-- The arguments. The space that `%r` reserves is given with what the caller puts there. -/
inductive Arg
  | char (c : ℕ)
  | int (i : ℕ)
  | string (data : List UInt8)
  | cstring (data : List UInt8)
  | space (data : List UInt8)
  | atom (atom : ℕ)
  | atoms (l : List ℕ)
  | bignum (n : ℤ)

/-- Whether a letter takes the argument. -/
def Arg.fits (c : Char) : Arg → Bool
  | .char _ => c = 'c'
  | .int _ => c = 'i'
  | .string _ => c = 's' || c = 'S'
  | .cstring _ => c = 'z'
  | .space _ => c = 'r'
  | .atom _ => c = 'a'
  | .atoms _ => c = 'A'
  | .bignum _ => c = 'n'

/-- The octets of a limb. -/
def sizeof_mp_limb_t : ℕ := 4

/-- The length of what stands before a string of length `l`. -/
def counted_length (o : Options) (l : ℕ) : ℕ :=
  if o.decimal then format_size_in_decimal l+1 else if o.literal then 0 else 4

/-- The case of a directive in the first pass; `none` is a fatal error. -/
def directive_length (o : Options) : Arg → Option ℕ
  | .char _ => some 1
  | .int i => some (if o.decimal then format_size_in_decimal i else 4)
  | .string data =>
    let l := data.length
    some (l+(if o.hex then l else 0)+counted_length o l)
  | .cstring data => some (data.length+counted_length o data.length)
  | .space data => some (data.length+counted_length o data.length)
  | .atom atom =>
    if atom = 0 then none
    else some (get_atom_length atom+counted_length o (get_atom_length atom))
  | .atoms l =>
    if o.decimal then none
    else
      let l := l.filter (· ≠ 0)
      -- One ','-character less than the number of atoms
      some ((l.map get_atom_length).sum+(l.length-1)+if o.literal then 0 else 4)
  | .bignum n =>
    if o.decimal then none
    else
      let length :=
        if o.unsigned_form then bignum_format_u_length n else some (bignum_format_s_length n)
      length.map fun l => l+if o.literal then 0 else 4

/-- What stands before a string of length `l`. -/
def write_counted (o : Options) (l : ℕ) : List UInt8 :=
  if o.decimal then write_decimal_length l else if o.literal then [] else WRITE_UINT32 l

/-- Names with commas between them; unknown atoms are left out. -/
def write_atoms : ℕ → List ℕ → List UInt8
  | _, [] => []
  | n, atom :: l =>
    if atom = 0 then write_atoms n l
    else (if n = 0 then [] else [44]) ++ get_atom_name atom ++ write_atoms (n+1) l

/-- The case of a directive in the second pass. -/
def directive_write (o : Options) : Arg → Option (List UInt8)
  | .char c => some [UInt8.ofNat c]
  | .int i =>
    some (if o.decimal then format_decimal (format_size_in_decimal i) i else WRITE_UINT32 i)
  | .string data =>
    let length := if o.hex then 2*data.length else data.length
    some (write_counted o length ++ if o.hex then format_hex_string data else data)
  | .cstring data =>
    some ((if o.decimal then write_decimal_length data.length else []) ++
      (if o.literal then [] else WRITE_UINT32 data.length) ++ data)
  | .space data => some (write_counted o data.length ++ data)
  | .atom atom =>
    if atom = 0 then none
    else some (write_counted o (get_atom_length atom) ++ get_atom_name atom)
  | .atoms l =>
    if o.decimal then none
    else
      let names := write_atoms 0 l
      some ((if o.literal then [] else WRITE_UINT32 names.length) ++ names)
  | .bignum n =>
    if o.decimal then none
    else
      let octets :=
        if o.unsigned_form then bignum_format_u sizeof_mp_limb_t n
        else some (bignum_format_s sizeof_mp_limb_t n)
      octets.map fun s => (if o.literal then [] else WRITE_UINT32 s.length) ++ s

/-! ### The two passes -/

/-- A pass over the format string, outside of a directive or after some options of one. What
the pass makes of letters and directives is added up. -/
def vformat {α : Type} (zero : α) (add : α → α → α) (letter : UInt8 → α)
    (directive : Options → Arg → Option α) :
    Option Options → List Char → List Arg → Option α
  | none, [], _ => some zero
  | none, c :: f, args =>
    if c = '%' then vformat zero add letter directive (some no_options) f args
    else (vformat zero add letter directive none f args).map (add (letter (UInt8.ofNat c.toNat)))
  | some _, [], _ => none
  | some o, c :: f, args =>
    match o.add c with
    | some o => vformat zero add letter directive (some o) f args
    | none =>
      if o.literal && o.decimal then none
      else if c = '%' then
        (vformat zero add letter directive none f args).map (add (letter 37))
      else
        match args with
        | [] => none
        | arg :: args =>
          if arg.fits c then
            (directive o arg).bind fun part =>
              (vformat zero add letter directive none f args).map (add part)
          else none

def ssh_vformat_length (f : String) (args : List Arg) : Option ℕ :=
  vformat 0 (· + ·) (fun _ => 1) directive_length none f.toList args

def ssh_vformat_write (f : String) (args : List Arg) : Option (List UInt8) :=
  vformat [] (· ++ ·) (fun c => [c]) directive_write none f.toList args

/-- `none` is a fatal error or a failed assertion: the second pass has to end where the first
has said. -/
def ssh_format (f : String) (args : List Arg) : Option (List UInt8) :=
  (ssh_vformat_length f args).bind fun length =>
    (ssh_vformat_write f args).bind fun buffer =>
      if buffer.length = length then some buffer else none

/-! ### Where the passes agree -/

/-- What the second pass writes and the first has not counted: the length of a string in
hexadecimal is counted before it is doubled, and a NUL-terminated string with a decimal
length gets a binary one too. -/
def directive_excess (o : Options) : Arg → ℕ
  | .string data =>
    if o.hex && o.decimal then
      format_size_in_decimal (2*data.length)-format_size_in_decimal data.length
    else 0
  | .cstring _ => if o.decimal then 4 else 0
  | _ => 0

def ssh_vformat_excess (f : String) (args : List Arg) : Option ℕ :=
  vformat 0 (· + ·) (fun _ => 0)
    (fun o arg => (directive_length o arg).map fun _ => directive_excess o arg) none f.toList args

section
variable {α β : Type} {zero : α} {add : α → α → α} {letter : UInt8 → α}
variable {directive : Options → Arg → Option α}
variable {zero' : β} {add' : β → β → β} {letter' : UInt8 → β}
variable {directive' : Options → Arg → Option β}

/-- Two passes stay related when their parts are. -/
theorem vformat_related {r : α → β → Prop} (hzero : r zero zero')
    (hadd : ∀ {a b a' b'}, r a b → r a' b' → r (add a a') (add' b b'))
    (hletter : ∀ c, r (letter c) (letter' c))
    (hdirective : ∀ o arg, (o.literal && o.decimal) = false →
      Option.Rel r (directive o arg) (directive' o arg)) :
    ∀ (f : List Char) (mode : Option Options) (args : List Arg),
      Option.Rel r (vformat zero add letter directive mode f args)
        (vformat zero' add' letter' directive' mode f args) := by
  have hmap : ∀ {a : α} {b : β} {x : Option α} {y : Option β}, r a b → Option.Rel r x y →
      Option.Rel r (x.map (add a)) (y.map (add' b)) := by
    intro a b x y hab hxy
    cases hxy with
    | none => exact .none
    | some hxy => exact .some (hadd hab hxy)
  intro f
  induction f with
  | nil =>
    intro mode args
    cases mode with
    | none => exact .some hzero
    | some o => exact .none
  | cons c f ih =>
    intro mode args
    cases mode with
    | none =>
      simp only [vformat]
      by_cases hc : c = '%'
      · rw [if_pos hc, if_pos hc]
        exact ih _ _
      · rw [if_neg hc, if_neg hc]
        exact hmap (hletter _) (ih _ _)
    | some o =>
      simp only [vformat]
      cases o.add c with
      | some o => exact ih _ _
      | none =>
        dsimp only
        cases hfatal : (o.literal && o.decimal) with
        | true => exact .none
        | false =>
          simp only [Bool.false_eq_true, if_false]
          by_cases hc : c = '%'
          · rw [if_pos hc, if_pos hc]
            exact hmap (hletter _) (ih _ _)
          · rw [if_neg hc, if_neg hc]
            cases args with
            | nil => exact .none
            | cons arg args =>
              dsimp only
              by_cases hfits : arg.fits c
              · rw [if_pos hfits, if_pos hfits]
                have hpart := hdirective o arg hfatal
                generalize directive o arg = part at hpart ⊢
                generalize directive' o arg = part' at hpart ⊢
                cases hpart with
                | none => exact .none
                | some hpart => exact hmap hpart (ih _ _)
              · rw [if_neg hfits, if_neg hfits]
                exact .none

end

theorem length_format_decimal : ∀ (length n : ℕ), (format_decimal length n).length = length := by
  intro length
  induction length with
  | zero => intro n; rfl
  | succ length ih =>
    intro n
    rw [format_decimal, List.length_append, ih]
    rfl

theorem length_write_decimal_length (n : ℕ) :
    (write_decimal_length n).length = format_size_in_decimal n+1 := by
  rw [write_decimal_length, List.length_append, length_format_decimal]
  rfl

theorem length_format_hex_string (data : List UInt8) :
    (format_hex_string data).length = 2*data.length := by
  rw [format_hex_string, List.length_flatMap]
  simp [Nat.mul_comm]

theorem length_write_atoms : ∀ (l : List ℕ) (n : ℕ), (write_atoms n l).length =
    ((l.filter (· ≠ 0)).map get_atom_length).sum+
      ((l.filter (· ≠ 0)).length-if n = 0 then 1 else 0) := by
  intro l
  induction l with
  | nil =>
    intro n
    simp [write_atoms]
  | cons atom l ih =>
    intro n
    rw [write_atoms]
    by_cases hatom : atom = 0
    · rw [if_pos hatom, ih, List.filter_cons_of_neg (by simpa using hatom)]
    · rw [if_neg hatom, List.filter_cons_of_pos (by simpa using hatom), List.map_cons,
        List.sum_cons, List.length_append, List.length_append, length_name, ih,
        if_neg (Nat.succ_ne_zero n), List.length_cons]
      split_ifs <;> simp only [List.length_nil, List.length_cons] <;> omega

/-- The number of digits, as far as the table of powers goes. -/
theorem format_size_spec (n : ℕ) :
    (format_size_in_decimal n = 1 ∨ 10^(format_size_in_decimal n-1) ≤ n) ∧
      (format_size_in_decimal n = 16 ∨ n < 10^format_size_in_decimal n) ∧
      1 ≤ format_size_in_decimal n ∧ format_size_in_decimal n ≤ 16 := by
  simp only [format_size_in_decimal, powers, List.foldl_cons, List.foldl_nil,
    List.getD_cons_succ, List.getD_cons_zero]
  split_ifs <;> dsimp only at * <;>
    refine ⟨?_, ?_, by norm_num, by norm_num⟩ <;> first | left; rfl | right; omega

theorem format_size_mono {m n : ℕ} (h : m ≤ n) :
    format_size_in_decimal m ≤ format_size_in_decimal n := by
  obtain ⟨hlow, -, -, hm⟩ := format_size_spec m
  obtain ⟨-, hhigh, hn, -⟩ := format_size_spec n
  by_contra hlt
  have hpow : 10^format_size_in_decimal n ≤ 10^(format_size_in_decimal m-1) :=
    Nat.pow_le_pow_right (by norm_num) (by omega)
  have hlow := hlow.resolve_left (by omega)
  have hhigh := hhigh.resolve_left (by omega)
  omega

/-- A directive writes what has been counted for it, and its excess. -/
theorem directive_written (o : Options) (arg : Arg) (ho : (o.literal && o.decimal) = false) :
    Option.Rel (fun (out : List UInt8) (n : ℕ × ℕ) => out.length = n.1+n.2)
      (directive_write o arg)
      ((directive_length o arg).map fun n => (n, directive_excess o arg)) := by
  have hcounted (l : ℕ) : (write_counted o l).length = counted_length o l := by
    unfold write_counted counted_length
    split_ifs
    · exact length_write_decimal_length l
    · rfl
    · rfl
  have hword (n : ℕ) : (WRITE_UINT32 n).length = 4 := rfl
  have hprefix (n : ℕ) : (if o.literal then [] else WRITE_UINT32 n).length =
      if o.literal then 0 else 4 := by
    split_ifs <;> rfl
  cases arg with
  | char c => exact .some rfl
  | int i =>
    apply Option.Rel.some
    simp only [directive_excess, Nat.add_zero]
    split_ifs
    · exact length_format_decimal _ _
    · rfl
  | string data =>
    apply Option.Rel.some
    simp only [directive_excess, List.length_append, hcounted]
    have hmono := format_size_mono (by omega : data.length ≤ 2*data.length)
    cases hhex : o.hex with
    | false =>
      simp only [Bool.false_eq_true, if_false, Bool.false_and]
      omega
    | true =>
      simp only [if_true, length_format_hex_string, Bool.true_and, counted_length]
      split_ifs <;> omega
  | cstring data =>
    apply Option.Rel.some
    simp only [directive_excess, List.length_append, counted_length, hprefix]
    cases hdecimal : o.decimal with
    | false =>
      simp only [Bool.false_eq_true, if_false, List.length_nil]
      omega
    | true =>
      rw [hdecimal, Bool.and_true] at ho
      simp only [ho, if_true, length_write_decimal_length, Bool.false_eq_true, if_false]
      omega
  | space data =>
    apply Option.Rel.some
    simp only [directive_excess, List.length_append, hcounted]
    omega
  | atom atom =>
    simp only [directive_write, directive_length, directive_excess]
    split_ifs
    · exact .none
    · apply Option.Rel.some
      simp only [List.length_append, hcounted, length_name]
      omega
  | atoms l =>
    simp only [directive_write, directive_length, directive_excess]
    split_ifs <;> first
      | exact .none
      | apply Option.Rel.some
        simp only [List.length_append, length_write_atoms, hword, List.length_nil, if_true]
        omega
  | bignum n =>
    simp only [directive_write, directive_length, directive_excess]
    cases o.decimal with
    | true => exact .none
    | false =>
      simp only [Bool.false_eq_true, if_false]
      cases o.unsigned_form with
      | false =>
        simp only [Bool.false_eq_true, if_false, Option.map_some]
        apply Option.Rel.some
        simp only [List.length_append, hprefix, length_format_s (by decide : 0 < sizeof_mp_limb_t)]
        omega
      | true =>
        simp only [if_true, bignum_format_u_length_eq (by decide : 0 < sizeof_mp_limb_t)]
        cases bignum_format_u sizeof_mp_limb_t n with
        | none => exact .none
        | some octets =>
          apply Option.Rel.some
          simp only [List.length_append, hprefix]
          omega

theorem related_some {α β : Type} {r : α → β → Prop} {x : Option α} {b : β}
    (h : Option.Rel r x (some b)) : ∃ a, x = some a ∧ r a b := by
  cases h with
  | some h => exact ⟨_, rfl, h⟩

theorem related_none {α β : Type} {r : α → β → Prop} {x : Option α}
    (h : Option.Rel r x none) : x = none := by
  cases h
  rfl

/-- Both passes fail, or what is written is what has been counted and the excess. -/
theorem passes_counted (f : String) (args : List Arg) :
    ssh_vformat_length f args = none ∧ ssh_vformat_write f args = none ∨
      ∃ length excess out, ssh_vformat_length f args = some length ∧
        ssh_vformat_excess f args = some excess ∧ ssh_vformat_write f args = some out ∧
        out.length = length+excess := by
  obtain ⟨pass, hpass⟩ : ∃ pass : Option (ℕ × ℕ), pass =
      vformat (0, 0) (fun a b => (a.1+b.1, a.2+b.2)) (fun _ => (1, 0)) (fun o arg =>
        (directive_length o arg).map fun n => (n, directive_excess o arg)) none f.toList args :=
    ⟨_, rfl⟩
  have hwrite : Option.Rel (fun (out : List UInt8) (n : ℕ × ℕ) => out.length = n.1+n.2)
      (ssh_vformat_write f args) pass := by
    rw [hpass]
    apply vformat_related
    · rfl
    · intro a b a' b' hab hab'
      rw [List.length_append]
      dsimp only
      omega
    · intro c
      rfl
    · exact directive_written
  have hlength : Option.Rel (fun (m : ℕ) (n : ℕ × ℕ) => m = n.1)
      (ssh_vformat_length f args) pass := by
    rw [hpass]
    apply vformat_related
    · rfl
    · intro a b a' b' hab hab'
      dsimp only
      omega
    · intro c
      rfl
    · intro o arg _
      cases directive_length o arg with
      | none => exact .none
      | some n => exact .some rfl
  have hexcess : Option.Rel (fun (m : ℕ) (n : ℕ × ℕ) => m = n.2)
      (ssh_vformat_excess f args) pass := by
    rw [hpass]
    apply vformat_related
    · rfl
    · intro a b a' b' hab hab'
      dsimp only
      omega
    · intro c
      rfl
    · intro o arg _
      cases directive_length o arg with
      | none => exact .none
      | some n => exact .some rfl
  clear hpass
  cases pass with
  | none => exact Or.inl ⟨related_none hlength, related_none hwrite⟩
  | some counted =>
    obtain ⟨out, hwrite, hout⟩ := related_some hwrite
    obtain ⟨length, hlength, rfl⟩ := related_some hlength
    obtain ⟨excess, hexcess, rfl⟩ := related_some hexcess
    exact Or.inr ⟨counted.1, counted.2, out, hlength, hexcess, hwrite, hout⟩

/-- Both passes fail, or the second ends where the first has said exactly when no directive
has an excess; with an excess it writes past the end of the buffer. -/
theorem passes_agree (f : String) (args : List Arg) :
    ssh_vformat_length f args = none ∧ ssh_vformat_write f args = none ∨
      ∃ length excess out, ssh_vformat_length f args = some length ∧
        ssh_vformat_excess f args = some excess ∧ ssh_vformat_write f args = some out ∧
        out.length = length+excess ∧ (ssh_format f args = some out ↔ excess = 0) := by
  rcases passes_counted f args with hnone | ⟨length, excess, out, hlength, hexcess, hwrite, hout⟩
  · exact Or.inl hnone
  · refine Or.inr ⟨length, excess, out, hlength, hexcess, hwrite, hout, ?_⟩
    rw [ssh_format, hlength, Option.bind_some, hwrite, Option.bind_some,
      Option.ite_none_right_eq_some, and_iff_left rfl]
    omega

theorem excess_plain : ∀ (f : List Char) (mode : Option Options) (args : List Arg) {e : ℕ},
    'd' ∉ f → (∀ o, mode = some o → o.decimal = false) →
    vformat 0 (· + ·) (fun _ => 0)
      (fun o arg => (directive_length o arg).map fun _ => directive_excess o arg) mode f args =
        some e → e = 0 := by
  intro f
  induction f with
  | nil =>
    intro mode args e _ _ h
    cases mode with
    | none => exact (Option.some.inj h).symm
    | some o => cases h
  | cons c f ih =>
    intro mode args e hd hmode h
    have hf : 'd' ∉ f := fun hmem => hd (List.mem_cons_of_mem _ hmem)
    have hnone : ∀ o : Options, none = some o → o.decimal = false := by
      intro o h
      cases h
    cases mode with
    | none =>
      simp only [vformat] at h
      split_ifs at h
      · exact ih _ _ hf (by rintro o ⟨⟩; rfl) h
      · obtain ⟨rest, hrest, rfl⟩ := Option.map_eq_some_iff.mp h
        rw [ih _ _ hf hnone hrest]
    | some o =>
      have ho := hmode o rfl
      simp only [vformat] at h
      cases hadd : o.add c with
      | some o' =>
        rw [hadd] at h
        refine ih _ _ hf ?_ h
        rintro o'' ⟨⟩
        have hc : c ≠ 'd' := fun hc => hd (by rw [hc]; exact List.mem_cons_self)
        unfold Options.add at hadd
        rw [if_neg hc] at hadd
        split_ifs at hadd <;> cases hadd <;> exact ho
      | none =>
        rw [hadd] at h
        dsimp only at h
        rw [ho, Bool.and_false] at h
        simp only [Bool.false_eq_true, if_false] at h
        split_ifs at h
        · obtain ⟨rest, hrest, rfl⟩ := Option.map_eq_some_iff.mp h
          rw [ih _ _ hf hnone hrest]
        · cases args with
          | nil => cases h
          | cons arg args =>
            dsimp only at h
            split_ifs at h
            obtain ⟨part, hpart, h⟩ := Option.bind_eq_some_iff.mp h
            obtain ⟨rest, hrest, rfl⟩ := Option.map_eq_some_iff.mp h
            obtain ⟨_, _, rfl⟩ := Option.map_eq_some_iff.mp hpart
            rw [ih _ _ hf hnone hrest]
            unfold directive_excess
            rw [ho, Bool.and_false]
            split <;> rfl

/-- Without decimals the message is what the second pass writes. -/
theorem ssh_format_plain {f : String} (hf : 'd' ∉ f.toList) (args : List Arg) :
    ssh_format f args = ssh_vformat_write f args := by
  rcases passes_counted f args with ⟨hlength, hwrite⟩ | ⟨length, excess, out, hl, he, hw, hout⟩
  · rw [ssh_format, hlength, hwrite]
    rfl
  · have hexcess : excess = 0 := by
      refine excess_plain _ none _ hf ?_ he
      intro o h
      cases h
    rw [ssh_format, hl, hw, Option.bind_some, Option.bind_some, if_pos (by omega)]

end Messages
