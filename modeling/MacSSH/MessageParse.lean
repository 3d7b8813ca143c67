import MacSSH.MessageFormat

/-! Messages are taken apart piece by piece. A buffer is what is left of it; each piece is
described by the strings it is found at the beginning of. -/
namespace Messages
open Atoms Bignums Octets

def parse_uint8 : List UInt8 → Option (ℕ × List UInt8)
  | [] => none
  | c :: b => some (c.toNat, b)

/-- Any octet is taken for a boolean, and kept as it is. -/
def parse_boolean (b : List UInt8) : Option (ℕ × List UInt8) := parse_uint8 b

def parse_uint32 (b : List UInt8) : Option (ℕ × List UInt8) :=
  if b.length < 4 then none else some (READ_UINT32 b, b.drop 4)

def parse_octets (length : ℕ) (b : List UInt8) : Option (List UInt8 × List UInt8) :=
  if b.length < length then none else some (b.take length, b.drop length)

def parse_string (b : List UInt8) : Option (List UInt8 × List UInt8) :=
  (parse_uint32 b).bind fun l => parse_octets l.1 l.2

/-- A number of at most `limit` octets and one for the sign; a limit of zero is none. -/
def parse_bignum (limit : ℕ) (b : List UInt8) : Option (ℤ × List UInt8) :=
  (parse_string b).bind fun s =>
    if limit ≠ 0 ∧ limit+1 < s.1.length then none else some (bignum_parse_s s.1, s.2)

/-- The place of the next comma or of the end; a name has at most 64 characters. -/
def next_comma : ℕ → List UInt8 → Option ℕ
  | i, [] => some i
  | i, c :: b => if c = 44 then some i else if i = 64 then none else next_comma (i+1) b

/-- Empty atoms are unknown. The comma is skipped, and at the end of the buffer its place. -/
def parse_next_atom (b : List UInt8) : Option (ℕ × List UInt8) :=
  (next_comma 0 b).map fun i =>
    (if i = 0 then 0 else lookup_atom (b.take i), b.drop (i+1))

def parse_names : ℕ → List UInt8 → Option (List ℕ)
  | 0, _ => some []
  | count+1, b => (parse_next_atom b).bind fun r => (parse_names count r.2).map (r.1 :: ·)

def parse_atoms (limit : ℕ) (b : List UInt8) : Option (List ℕ) :=
  if b = [] then some []
  else if limit ≤ b.count 44 then none
  else parse_names (b.count 44+1) b

def parse_atom_list (limit : ℕ) (b : List UInt8) : Option (List ℕ × List UInt8) :=
  (parse_string b).bind fun s => (parse_atoms limit s.1).map fun l => (l, s.2)

/-- A single name. -/
def parse_atom (b : List UInt8) : Option (ℕ × List UInt8) :=
  (parse_string b).bind fun s => if 64 < s.1.length then none else some (lookup_atom s.1, s.2)

def parse_eod (b : List UInt8) : Bool := b.isEmpty

section
variable {b r x : List UInt8} {n limit : ℕ}

/-! ### Integers and strings -/

theorem READ_WRITE_UINT32 (hn : n < 2^32) (x : List UInt8) :
    READ_UINT32 (WRITE_UINT32 n ++ x) = n := by
  simp only [READ_UINT32, WRITE_UINT32, List.cons_append, List.getD_cons_zero,
    List.getD_cons_succ, UInt8.toNat_ofNat']
  omega

theorem READ_UINT32_take (hn : 4 ≤ n) (x : List UInt8) :
    READ_UINT32 (x.take n) = READ_UINT32 x := by
  have hget (i : ℕ) (hi : i < 4) : (x.take n).getD i 0 = x.getD i 0 := by
    rw [List.getD_eq_getElem?_getD, List.getElem?_take_of_lt (hi.trans_le hn),
      ← List.getD_eq_getElem?_getD]
  simp only [READ_UINT32, hget 0 (by omega), hget 1 (by omega), hget 2 (by omega),
    hget 3 (by omega)]

theorem WRITE_READ_UINT32 (hb : 4 ≤ b.length) :
    READ_UINT32 b < 2^32 ∧ b = WRITE_UINT32 (READ_UINT32 b) ++ b.drop 4 := by
  obtain ⟨c₁, b, rfl⟩ := List.exists_cons_of_length_pos (by omega : 0 < b.length)
  rw [List.length_cons] at hb
  obtain ⟨c₂, b, rfl⟩ := List.exists_cons_of_length_pos (by omega : 0 < b.length)
  rw [List.length_cons] at hb
  obtain ⟨c₃, b, rfl⟩ := List.exists_cons_of_length_pos (by omega : 0 < b.length)
  rw [List.length_cons] at hb
  obtain ⟨c₄, b, rfl⟩ := List.exists_cons_of_length_pos (by omega : 0 < b.length)
  have h₁ := c₁.toNat_lt
  have h₂ := c₂.toNat_lt
  have h₃ := c₃.toNat_lt
  have h₄ := c₄.toNat_lt
  have hread : READ_UINT32 (c₁ :: c₂ :: c₃ :: c₄ :: b) =
      c₁.toNat*2^24+c₂.toNat*2^16+c₃.toNat*2^8+c₄.toNat := rfl
  have hbyte (c : UInt8) (m : ℕ) (hm : m%256 = c.toNat) : UInt8.ofNat m = c := by
    apply UInt8.toNat_inj.mp
    rw [UInt8.toNat_ofNat']
    exact hm
  rw [hread]
  refine ⟨by omega, ?_⟩
  rw [WRITE_UINT32, hbyte c₁ _ (by omega), hbyte c₂ _ (by omega), hbyte c₃ _ (by omega),
    hbyte c₄ _ (by omega)]
  rfl

theorem parse_uint8_iff : parse_uint8 b = some (n, r) ↔ n < 256 ∧ b = UInt8.ofNat n :: r := by
  cases b with
  | nil => simp [parse_uint8]
  | cons c b =>
    simp only [parse_uint8, Option.some.injEq, Prod.mk.injEq, List.cons.injEq]
    constructor
    · rintro ⟨rfl, rfl⟩
      exact ⟨c.toNat_lt, UInt8.ofNat_toNat.symm, rfl⟩
    · rintro ⟨hn, rfl, rfl⟩
      exact ⟨UInt8.toNat_ofNat_of_lt' hn, rfl⟩

theorem parse_uint32_iff : parse_uint32 b = some (n, r) ↔ n < 2^32 ∧ b = WRITE_UINT32 n ++ r := by
  rw [parse_uint32]
  constructor
  · intro h
    split_ifs at h with hb
    cases h
    exact WRITE_READ_UINT32 (Nat.not_lt.mp hb)
  · rintro ⟨hn, rfl⟩
    have hlen : (WRITE_UINT32 n ++ r).length = 4+r.length := by
      rw [List.length_append]
      rfl
    rw [if_neg (by omega), READ_WRITE_UINT32 hn]
    rfl

theorem parse_octets_iff : parse_octets n b = some (x, r) ↔ x.length = n ∧ b = x ++ r := by
  rw [parse_octets]
  constructor
  · intro h
    split_ifs at h with hb
    cases h
    exact ⟨List.length_take_of_le (Nat.not_lt.mp hb), (List.take_append_drop n b).symm⟩
  · rintro ⟨hx, rfl⟩
    rw [if_neg (by rw [List.length_append]; omega), List.take_left' hx, List.drop_left' hx]

theorem parse_string_iff : parse_string b = some (x, r) ↔
    x.length < 2^32 ∧ b = WRITE_UINT32 x.length ++ (x ++ r) := by
  rw [parse_string, Option.bind_eq_some_iff]
  constructor
  · rintro ⟨⟨l, b'⟩, hl, hx⟩
    obtain ⟨hlt, rfl⟩ := parse_uint32_iff.mp hl
    obtain ⟨rfl, hb'⟩ := parse_octets_iff.mp hx
    exact ⟨hlt, congrArg _ hb'⟩
  · rintro ⟨hlt, rfl⟩
    exact ⟨(x.length, x ++ r), parse_uint32_iff.mpr ⟨hlt, rfl⟩, parse_octets_iff.mpr ⟨rfl, rfl⟩⟩

theorem parse_bignum_iff {z : ℤ} : parse_bignum limit b = some (z, r) ↔
    ∃ x, parse_string b = some (x, r) ∧ (limit ≠ 0 → x.length ≤ limit+1) ∧
      bignum_parse_s x = z := by
  rw [parse_bignum, Option.bind_eq_some_iff]
  constructor
  · rintro ⟨⟨x, r'⟩, hx, h⟩
    split_ifs at h with hlimit
    cases h
    refine ⟨x, hx, ?_, rfl⟩
    intro h0
    by_contra hlt
    exact hlimit ⟨h0, Nat.lt_of_not_le hlt⟩
  · rintro ⟨x, hx, hle, rfl⟩
    refine ⟨(x, r), hx, ?_⟩
    rw [if_neg]
    rintro ⟨h0, hlt⟩
    exact absurd (hle h0) (Nat.not_le.mpr hlt)

/-! ### Names -/

theorem next_comma_end : ∀ (x : List UInt8) (i : ℕ), 44 ∉ x → i ≤ 64 →
    next_comma i x = if i+x.length ≤ 64 then some (i+x.length) else none := by
  intro x
  induction x with
  | nil =>
    intro i _ hi
    exact (if_pos hi).symm
  | cons c x ih =>
    intro i hx hi
    have hc : c ≠ 44 := fun h => hx (by rw [h]; exact List.mem_cons_self)
    rw [next_comma, if_neg hc, List.length_cons]
    by_cases h64 : i = 64
    · rw [if_pos h64, if_neg (by omega)]
    · rw [if_neg h64, ih _ (fun h => hx (List.mem_cons_of_mem _ h)) (by omega)]
      have hsum : i+1+x.length = i+(x.length+1) := by omega
      rw [hsum]

theorem next_comma_inside : ∀ (x r : List UInt8) (i : ℕ), 44 ∉ x → i ≤ 64 →
    next_comma i (x ++ 44 :: r) = if i+x.length ≤ 64 then some (i+x.length) else none := by
  intro x
  induction x with
  | nil =>
    intro r i _ hi
    exact (if_pos hi).symm
  | cons c x ih =>
    intro r i hx hi
    have hc : c ≠ 44 := fun h => hx (by rw [h]; exact List.mem_cons_self)
    rw [List.cons_append, next_comma, if_neg hc, List.length_cons]
    by_cases h64 : i = 64
    · rw [if_pos h64, if_neg (by omega)]
    · rw [if_neg h64, ih _ _ (fun h => hx (List.mem_cons_of_mem _ h)) (by omega)]
      have hsum : i+1+x.length = i+(x.length+1) := by omega
      rw [hsum]

theorem lookup_atom_nil : lookup_atom [] = 0 := rfl

/-- The names that commas separate, looked up; none may be too long. -/
theorem parse_names_eq : ∀ {names : List (List UInt8)}, names ≠ [] →
    (∀ name ∈ names, 44 ∉ name) → parse_names names.length ([44].intercalate names) =
      if ∀ name ∈ names, name.length ≤ 64 then some (names.map lookup_atom) else none := by
  have hlookup (x : List UInt8) : (if x.length = 0 then 0 else lookup_atom x) = lookup_atom x := by
    split_ifs with h
    · rw [List.length_eq_zero_iff.mp h, lookup_atom_nil]
    · rfl
  intro names
  induction names with
  | nil =>
    intro h
    exact absurd rfl h
  | cons x names ih =>
    intro _ hnames
    have hx := hnames x List.mem_cons_self
    have hrest : ∀ name ∈ names, 44 ∉ name := fun name h => hnames name (List.mem_cons_of_mem _ h)
    simp only [List.length_cons, parse_names, parse_next_atom, List.forall_mem_cons]
    by_cases hempty : names = []
    · subst hempty
      rw [List.intercalate_singleton, next_comma_end x 0 hx (Nat.zero_le _), Nat.zero_add]
      by_cases hlong : x.length ≤ 64
      · rw [if_pos hlong, if_pos ⟨hlong, by simp⟩, Option.map_some, Option.bind_some,
          List.take_length, hlookup]
        rfl
      · rw [if_neg hlong, if_neg fun h => hlong h.1]
        rfl
    · rw [List.intercalate_cons_of_ne_nil hempty, List.append_assoc, List.singleton_append,
        next_comma_inside x _ 0 hx (Nat.zero_le _), Nat.zero_add]
      by_cases hlong : x.length ≤ 64
      · have hdrop : (x ++ 44 :: [44].intercalate names).drop (x.length+1) =
            [44].intercalate names := by
          rw [← List.drop_drop, List.drop_left]
          rfl
        rw [if_pos hlong, Option.map_some, Option.bind_some]
        dsimp only
        rw [List.take_left, hlookup, hdrop, ih hempty hrest]
        by_cases hall : ∀ name ∈ names, name.length ≤ 64
        · rw [if_pos hall, if_pos ⟨hlong, hall⟩]
          rfl
        · rw [if_neg hall, if_neg fun h => hall h.2]
          rfl
      · rw [if_neg hlong, if_neg fun h => hlong h.1]
        rfl

theorem exists_names (b : List UInt8) : ∃ names : List (List UInt8), names ≠ [] ∧
    (∀ name ∈ names, 44 ∉ name) ∧ [44].intercalate names = b := by
  induction b with
  | nil => exact ⟨[[]], by simp, by simp, rfl⟩
  | cons c b ih =>
    obtain ⟨names, hne, hnames, rfl⟩ := ih
    obtain ⟨x, names, rfl⟩ := List.exists_cons_of_ne_nil hne
    by_cases hc : c = 44
    · refine ⟨[] :: x :: names, by simp, ?_, ?_⟩
      · intro name hname
        rcases List.mem_cons.mp hname with rfl | hname
        · exact List.not_mem_nil
        · exact hnames name hname
      · rw [List.intercalate_cons_of_ne_nil (by simp), hc]
        rfl
    · refine ⟨(c :: x) :: names, by simp, ?_, ?_⟩
      · intro name hname
        rcases List.mem_cons.mp hname with rfl | hname
        · intro h
          rcases List.mem_cons.mp h with h | h
          · exact hc h.symm
          · exact hnames x List.mem_cons_self h
        · exact hnames name (List.mem_cons_of_mem _ hname)
      · by_cases hempty : names = []
        · subst hempty
          rw [List.intercalate_singleton, List.intercalate_singleton]
        · rw [List.intercalate_cons_of_ne_nil hempty, List.intercalate_cons_of_ne_nil hempty]
          rfl

theorem count_intercalate : ∀ {names : List (List UInt8)}, names ≠ [] →
    (∀ name ∈ names, 44 ∉ name) → ([44].intercalate names).count 44+1 = names.length := by
  intro names
  induction names with
  | nil =>
    intro h
    exact absurd rfl h
  | cons x names ih =>
    intro _ hnames
    have hx := List.count_eq_zero_of_not_mem (hnames x List.mem_cons_self)
    by_cases hempty : names = []
    · subst hempty
      rw [List.intercalate_singleton, hx]
      rfl
    · have hrest := ih hempty fun name h => hnames name (List.mem_cons_of_mem _ h)
      rw [List.intercalate_cons_of_ne_nil hempty, List.count_append, List.count_append, hx,
        List.length_cons, ← hrest]
      simp
      omega

/-- What a list of names is read as. -/
theorem parse_atoms_eq {names : List (List UInt8)} (hne : names ≠ [])
    (hnames : ∀ name ∈ names, 44 ∉ name) :
    parse_atoms limit ([44].intercalate names) =
      if [44].intercalate names = [] then some []
      else if limit < names.length then none
      else if ∀ name ∈ names, name.length ≤ 64 then some (names.map lookup_atom) else none := by
  have hcount := count_intercalate hne hnames
  rw [parse_atoms, hcount, parse_names_eq hne hnames]
  by_cases hlimit : limit < names.length
  · have hcommas : limit ≤ ([44].intercalate names).count 44 := by omega
    rw [if_pos hlimit, if_pos hcommas]
  · have hcommas : ¬ limit ≤ ([44].intercalate names).count 44 := by omega
    rw [if_neg hlimit, if_neg hcommas]

end

end Messages
