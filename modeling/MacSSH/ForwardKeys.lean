import Mathlib.Data.Finset.Card
import MacSSH.TelnetSuboptions

/-! The forward mask: which characters a received mask stands for, and when they become
the keys that forward the line. -/
namespace Telnet

namespace WindRec

/-- The indices at which `maskLoop` reads the suboption. -/
def maskReads (d : ℕ → UInt8) : ℕ → ℕ → List ℕ
  | 0, i => [i]
  | fuel+1, i =>
    i :: if d i ≠ 0 ∧ i < 35 then
      if d i = 255 then
        -- the octet after the next is looked at, and the next one taken
        (i+2) :: if d (i+2) = TEL_SE then [] else (i+1) :: maskReads d fuel (i+2)
      else maskReads d fuel (i+1)
    else []

/-- The entries that are made in the table. -/
def forwarded (tw : WindRec) : List UInt8 :=
  (List.range (tw.setForwardMask.line.numForwardKeys-1)).map tw.setForwardMask.line.forwardKeys

/-- Bit `b` of octet `i` of the mask stands for character `8*i+b`. -/
def InMask (tw : WindRec) (c : ℕ) : Prop :=
  3+c/8 < tw.parseIndex ∧ (tw.parsedat (3+c/8)).toNat.testBit (c%8)

instance (tw : WindRec) (c : ℕ) : Decidable (tw.InMask c) := inferInstanceAs (Decidable (_ ∧ _))

/-- The characters of the mask. -/
def maskChars (tw : WindRec) : Finset ℕ :=
  (Finset.range (8*tw.parseIndex)).filter fun c => tw.InMask c

/-- The table gets the characters of the mask, each once and no more than it has room for,
from octets that have been received. -/
structure MaskStored (tw : WindRec) : Prop where
  keys : ∀ c : ℕ, c ∈ tw.forwarded.map UInt8.toNat ↔ tw.InMask c
  once : tw.forwarded.Nodup
  reads : ∀ i ∈ maskReads tw.parsedat 32 3, i < tw.parseIndex
  fits : tw.forwarded.length ≤ 32

/-- From octet `i` on there are some of the octets that the probe masks read right, up to
the last that is looked at, then a zero octet, and no other behind it. -/
def Readable (d : ℕ → UInt8) (n i : ℕ) : Prop :=
  ∃ k, i+k < n ∧ i+k ≤ 35 ∧ (∀ j < k, d (i+j) = 250 ∨ d (i+j) = 252 ∨ d (i+j) = 254) ∧
    ∀ j, i+k ≤ j → j < n → d j = 0

/-- The mask is one of the few that are read right, and stands for at most 32 characters. -/
def MaskReadable (tw : WindRec) : Prop :=
  Readable tw.parsedat tw.parseIndex 3 ∧ tw.maskChars.card ≤ 32

section Octet

theorem probe_nat : ∀ n < 256, (∀ b < 8, n.testBit b = true ↔ n &&& b*2 ≠ 0) →
    n = 0 ∨ n = 250 ∨ n = 252 ∨ n = 254 := by
  decide +kernel

theorem probe_toNat (x : UInt8) {b : ℕ} (hb : b < 8) :
    x &&& UInt8.ofNat (b*2) ≠ 0 ↔ x.toNat &&& b*2 ≠ 0 := by
  have hmask : (UInt8.ofNat (b*2)).toNat = b*2 := UInt8.toNat_ofNat_of_lt (by
    change b*2 < 256
    omega)
  rw [ne_eq, ← UInt8.toNat_inj, UInt8.toNat_and, hmask]
  rfl

/-- The octets whose bits are those that the probes find. -/
theorem octet_right_iff (x : UInt8) :
    (∀ b < 8, x.toNat.testBit b = true ↔ x &&& UInt8.ofNat (b*2) ≠ 0) ↔
      x = 0 ∨ x = 250 ∨ x = 252 ∨ x = 254 := by
  constructor
  · intro h
    have hnat := probe_nat x.toNat x.toNat_lt fun b hb => (h b hb).trans (probe_toNat x hb)
    simp only [← UInt8.toNat_inj]
    exact hnat
  · rintro (rfl | rfl | rfl | rfl) <;> decide +kernel

end Octet

section Loop
variable {d : ℕ → UInt8}

/-- The keys of an octet inside the mask. -/
theorem mem_maskKeys {i c : ℕ} (h3 : 3 ≤ i) (h : i < 35) :
    c ∈ (maskKeys d i).map UInt8.toNat ↔
      3+c/8 = i ∧ d i &&& UInt8.ofNat (c%8*2) ≠ 0 := by
  have hkey : ∀ j < 8, (UInt8.ofNat ((i-3)*8+j)).toNat = (i-3)*8+j := fun j hj =>
    UInt8.toNat_ofNat_of_lt (by change _ < 256; omega)
  rw [maskKeys]
  simp only [List.mem_map, List.mem_filter, List.mem_range, decide_eq_true_eq,
    exists_exists_and_eq_and]
  constructor
  · rintro ⟨j, ⟨hj, hprobe⟩, rfl⟩
    rw [hkey j hj]
    have hmod : ((i-3)*8+j)%8 = j := by omega
    exact ⟨by omega, by rwa [hmod]⟩
  · rintro ⟨hplace, hprobe⟩
    have hmod : c%8 < 8 := Nat.mod_lt c (by decide)
    refine ⟨c%8, ⟨hmod, hprobe⟩, ?_⟩
    rw [hkey _ hmod]
    omega

theorem maskKeys_nodup (i : ℕ) : ((maskKeys d i).map UInt8.toNat).Nodup := by
  rw [maskKeys, List.map_map]
  apply List.Nodup.map_on _ (List.nodup_range.filter _)
  intro j hj k hk hsame
  have hj' : j < 8 := List.mem_range.mp (List.mem_filter.mp hj).1
  have hk' : k < 8 := List.mem_range.mp (List.mem_filter.mp hk).1
  simp only [Function.comp_apply, UInt8.toNat_ofNat'] at hsame
  omega

/-- No probe is for the lowest bit, so no key is a multiple of eight. -/
theorem maskKeys_mod {i c : ℕ} (h : c ∈ (maskKeys d i).map UInt8.toNat) : c%8 ≠ 0 := by
  rw [maskKeys] at h
  simp only [List.mem_map, List.mem_filter, List.mem_range, decide_eq_true_eq,
    exists_exists_and_eq_and] at h
  obtain ⟨j, ⟨hj, hprobe⟩, rfl⟩ := h
  have hne : j ≠ 0 := by
    rintro rfl
    exact hprobe UInt8.and_zero
  rw [UInt8.toNat_ofNat']
  omega

theorem maskLoop_mod (fuel : ℕ) : ∀ {i c : ℕ}, c ∈ (maskLoop d fuel i).map UInt8.toNat →
    c%8 ≠ 0 := by
  induction fuel with
  | zero => exact fun h => absurd h List.not_mem_nil
  | succ fuel ih =>
    intro i c h
    rw [maskLoop] at h
    split_ifs at h
    · exact absurd h List.not_mem_nil
    · rw [List.map_append] at h
      exact (List.mem_append.mp h).elim maskKeys_mod ih
    · rw [List.map_append] at h
      exact (List.mem_append.mp h).elim maskKeys_mod ih
    · exact absurd h List.not_mem_nil

/-- Without an octet 255 the loop takes one octet after the other. -/
theorem maskLoop_step {fuel i : ℕ} (hzero : d i ≠ 0) (hin : i < 35) (hiac : d i ≠ 255) :
    maskLoop d (fuel+1) i = maskKeys d i ++ maskLoop d fuel (i+1) := by
  rw [maskLoop, if_pos ⟨hzero, hin⟩, if_neg hiac]

theorem maskReads_step {fuel i : ℕ} (hzero : d i ≠ 0) (hin : i < 35) (hiac : d i ≠ 255) :
    maskReads d (fuel+1) i = i :: maskReads d fuel (i+1) := by
  rw [maskReads, if_pos ⟨hzero, hin⟩, if_neg hiac]

theorem maskLoop_zero {fuel i : ℕ} (h : d i = 0) : maskLoop d fuel i = [] := by
  cases fuel with
  | zero => rfl
  | succ fuel => rw [maskLoop, if_neg (fun hne => hne.1 h)]

theorem maskReads_zero {fuel i : ℕ} (h : d i = 0) : maskReads d fuel i = [i] := by
  cases fuel with
  | zero => rfl
  | succ fuel => rw [maskReads, if_neg (fun hne => hne.1 h)]

theorem maskReads_ge (fuel : ℕ) : ∀ {i r : ℕ}, r ∈ maskReads d fuel i → i ≤ r := by
  induction fuel with
  | zero => exact fun h => Nat.le_of_eq (List.mem_singleton.mp h).symm
  | succ fuel ih =>
    intro i r h
    rw [maskReads] at h
    rcases List.mem_cons.mp h with rfl | h
    · exact Nat.le_refl r
    split_ifs at h
    · exact Nat.le_of_lt (by rw [List.mem_singleton.mp h]; omega)
    · rcases List.mem_cons.mp h with rfl | h
      · omega
      · rcases List.mem_cons.mp h with rfl | h
        · omega
        · have := ih h
          omega
    · have := ih h
      omega
    · exact absurd h List.not_mem_nil

/-- The keys from an octet on are in order, where no octet read is 255. -/
theorem maskLoop_sorted (fuel : ℕ) : ∀ {i : ℕ}, 3 ≤ i → fuel+i = 35 →
    (∀ r ∈ maskReads d fuel i, d r ≠ 255) →
    ((maskLoop d fuel i).map UInt8.toNat).Nodup ∧
      ∀ c ∈ (maskLoop d fuel i).map UInt8.toNat, 8*(i-3) ≤ c := by
  induction fuel with
  | zero => exact fun _ _ _ => ⟨List.nodup_nil, fun c h => absurd h List.not_mem_nil⟩
  | succ fuel ih =>
    intro i h3 hfuel hreads
    by_cases hzero : d i = 0
    · rw [maskLoop_zero hzero]
      exact ⟨List.nodup_nil, fun c h => absurd h List.not_mem_nil⟩
    have hin : i < 35 := by omega
    have hiac : d i ≠ 255 := hreads i (by rw [maskReads]; exact List.mem_cons_self)
    rw [maskReads_step hzero hin hiac] at hreads
    obtain ⟨hnodup, hge⟩ := ih (i := i+1) (by omega) (by omega)
      fun r hr => hreads r (List.mem_cons_of_mem i hr)
    rw [maskLoop_step hzero hin hiac, List.map_append]
    constructor
    · refine List.nodup_append'.mpr ⟨?_, hnodup, fun c hkey hlater => ?_⟩
      · exact maskKeys_nodup i
      · have hplace := ((mem_maskKeys h3 hin).mp hkey).1
        have := hge c hlater
        omega
    · intro c hc
      rcases List.mem_append.mp hc with hkey | hlater
      · have hplace := ((mem_maskKeys h3 hin).mp hkey).1
        omega
      · have := hge c hlater
        omega

/-- What the loop stores from octet `i` on is what the mask has there, and no octet is
read that was not received. -/
def ExactFrom (d : ℕ → UInt8) (n fuel i : ℕ) : Prop :=
  (∀ r ∈ maskReads d fuel i, r < n) ∧
    ∀ c, 8*(i-3) ≤ c → (c ∈ (maskLoop d fuel i).map UInt8.toNat ↔
      3+c/8 < n ∧ (d (3+c/8)).toNat.testBit (c%8))

theorem octet_zero_of_bits {x : UInt8} (h : ∀ b < 8, x.toNat.testBit b = false) : x = 0 := by
  apply UInt8.toNat_inj.mp
  apply Nat.eq_of_testBit_eq
  intro b
  rw [UInt8.toNat_zero, Nat.zero_testBit]
  rcases Nat.lt_or_ge b 8 with hlt | hge
  · exact h b hlt
  · apply Nat.testBit_lt_two_pow
    calc x.toNat < 2^8 := x.toNat_lt
      _ ≤ 2^b := Nat.pow_le_pow_right (by decide) hge

/-- Where the loop ends there must be nothing left. -/
theorem exactFrom_end {n fuel i : ℕ} (h3 : 3 ≤ i) (hreads : maskReads d fuel i = [i])
    (hloop : maskLoop d fuel i = []) :
    ExactFrom d n fuel i ↔ i < n ∧ ∀ j, i ≤ j → j < n → d j = 0 := by
  rw [ExactFrom, hreads, hloop]
  constructor
  · intro hall
    refine ⟨hall.1 i (List.mem_singleton_self i), fun j hij hjn => ?_⟩
    apply octet_zero_of_bits
    intro b hb
    have hplace : 3+(8*(j-3)+b)/8 = j := by omega
    have hmod : (8*(j-3)+b)%8 = b := by omega
    have hchar := hall.2 (8*(j-3)+b) (by omega)
    rw [hplace, hmod] at hchar
    exact Bool.eq_false_iff.mpr fun hbit => absurd (hchar.mpr ⟨hjn, hbit⟩) List.not_mem_nil
  · intro hall
    refine ⟨fun r hr => List.mem_singleton.mp hr ▸ hall.1, fun c hc => ⟨?_, fun hin => ?_⟩⟩
    · exact fun hmem => absurd hmem List.not_mem_nil
    · have hbit := hin.2
      rw [hall.2 _ (by omega) hin.1, UInt8.toNat_zero, Nat.zero_testBit] at hbit
      exact absurd hbit Bool.false_ne_true

theorem readable_end {n i : ℕ} (hi : i ≤ 35) (h : d i = 0 ∨ i = 35) :
    Readable d n i ↔ i < n ∧ ∀ j, i ≤ j → j < n → d j = 0 := by
  constructor
  · rintro ⟨k, hk, hle, hocts, hzeros⟩
    cases k with
    | zero => exact ⟨hk, hzeros⟩
    | succ k =>
      have h : d i = 0 := h.resolve_right (by omega)
      have hfirst := hocts 0 (Nat.succ_pos k)
      rw [Nat.add_zero, h] at hfirst
      exact absurd hfirst (by decide)
  · exact fun hall => ⟨0, hall.1, hi, fun j hj => absurd hj (Nat.not_lt_zero j), hall.2⟩

theorem readable_step {n i : ℕ} (hzero : d i ≠ 0) : Readable d n i ↔
    (d i = 250 ∨ d i = 252 ∨ d i = 254) ∧ Readable d n (i+1) := by
  constructor
  · rintro ⟨k, hk, hle, hocts, hzeros⟩
    cases k with
    | zero => exact absurd (hzeros i (Nat.le_refl i) hk) hzero
    | succ k =>
      refine ⟨hocts 0 (Nat.succ_pos k), k, by omega, by omega, fun j hj => ?_, fun j hj => ?_⟩
      · have hplace : i+1+j = i+(j+1) := by omega
        rw [hplace]
        exact hocts (j+1) (by omega)
      · exact hzeros j (by omega)
  · rintro ⟨hfirst, k, hk, hle, hocts, hzeros⟩
    refine ⟨k+1, by omega, by omega, fun j hj => ?_, fun j hj => hzeros j (by omega)⟩
    cases j with
    | zero => exact hfirst
    | succ j =>
      have hplace : i+(j+1) = i+1+j := by omega
      rw [hplace]
      exact hocts j (by omega)

/-- An octet that is not zero is stored exactly where it is one of those that the probes
read right; then the rest goes on. -/
theorem exactFrom_step {n fuel i : ℕ} (h3 : 3 ≤ i) (hfuel : fuel+1+i = 35) (hzero : d i ≠ 0)
    (hiac : ∀ o, 3 ≤ o → o < n → d o ≠ 255) (hin : i < n) : ExactFrom d n (fuel+1) i ↔
      (d i = 250 ∨ d i = 252 ∨ d i = 254) ∧ ExactFrom d n fuel (i+1) := by
  have hlt : i < 35 := by omega
  have hhere := hiac i h3 hin
  have hplace : ∀ b < 8, 3+(8*(i-3)+b)/8 = i ∧ (8*(i-3)+b)%8 = b := fun b hb => by omega
  rw [ExactFrom, maskReads_step hzero hlt hhere, maskLoop_step hzero hlt hhere, List.map_append]
  have hge : (∀ r ∈ maskReads d fuel (i+1), r < n) →
      ∀ c ∈ (maskLoop d fuel (i+1)).map UInt8.toNat, 8*(i+1-3) ≤ c := fun hreads =>
    (maskLoop_sorted fuel (by omega) (by omega) fun r hr =>
      hiac r (by have := maskReads_ge fuel hr; omega) (hreads r hr)).2
  constructor
  · rintro ⟨hreads, hchars⟩
    have hlater : ∀ r ∈ maskReads d fuel (i+1), r < n := fun r hr =>
      hreads r (List.mem_cons_of_mem i hr)
    refine ⟨?_, hlater, fun c hc => ?_⟩
    · have hright := (octet_right_iff (d i)).mp fun b hb => by
        obtain ⟨ho, hm⟩ := hplace b hb
        have hchar := hchars (8*(i-3)+b) (by omega)
        rw [List.mem_append, mem_maskKeys h3 hlt, ho, hm] at hchar
        constructor
        · intro hbit
          rcases hchar.mpr ⟨hin, hbit⟩ with hkey | hmem
          · exact hkey.2
          · have := hge hlater _ hmem
            omega
        · exact fun hprobe => (hchar.mp (.inl ⟨rfl, hprobe⟩)).2
      exact hright.resolve_left hzero
    · rw [← hchars c (by omega), List.mem_append, mem_maskKeys h3 hlt]
      exact ⟨.inr, fun hmem => hmem.resolve_left fun hkey => by omega⟩
  · rintro ⟨hright, hreads, hchars⟩
    refine ⟨fun r hr => ?_, fun c hc => ?_⟩
    · rcases List.mem_cons.mp hr with rfl | hr
      · exact hin
      · exact hreads r hr
    rw [List.mem_append, mem_maskKeys h3 hlt]
    by_cases hoct : 3+c/8 = i
    · have hbit := (octet_right_iff (d i)).mpr (.inr hright) (c%8) (Nat.mod_lt c (by decide))
      rw [hoct]
      constructor
      · rintro (hkey | hmem)
        · exact ⟨hin, hbit.mpr hkey.2⟩
        · have := hge hreads c hmem
          omega
      · exact fun hmask => .inl ⟨rfl, hbit.mp hmask.2⟩
    · rw [← hchars c (by omega)]
      exact ⟨fun hmem => hmem.resolve_left fun hkey => hoct hkey.1, .inr⟩

/-- Where no octet is 255 the loop is exact just for the masks that are read right. -/
theorem exactFrom_iff {n : ℕ} (hiac : ∀ o, 3 ≤ o → o < n → d o ≠ 255) (fuel : ℕ) :
    ∀ {i : ℕ}, 3 ≤ i → fuel+i = 35 → (ExactFrom d n fuel i ↔ Readable d n i) := by
  induction fuel with
  | zero =>
    intro i h3 hfuel
    rw [exactFrom_end h3 rfl rfl, readable_end (by omega) (.inr (by omega))]
  | succ fuel ih =>
    intro i h3 hfuel
    by_cases hzero : d i = 0
    · rw [exactFrom_end h3 (maskReads_zero hzero) (maskLoop_zero hzero),
        readable_end (by omega) (.inl hzero)]
    by_cases hin : i < n
    · rw [exactFrom_step h3 hfuel hzero hiac hin, readable_step hzero,
        ih (by omega) (by omega)]
    · constructor
      · exact fun hall => absurd (hall.1 i (by rw [maskReads]; exact List.mem_cons_self)) hin
      · rintro ⟨k, hk, _⟩
        omega

end Loop

section Window
variable (tw : WindRec)

theorem forwarded_eq : tw.forwarded = maskLoop tw.parsedat 32 3 := by
  rw [forwarded, setForwardMask, setForwardKeys]
  apply List.ext_getElem
  · rw [List.length_map, List.length_range, Nat.add_sub_cancel]
  · intro i hi hi'
    rw [List.getElem_map, List.getElem_range]
    dsimp only
    rw [if_pos hi', List.getD_eq_getElem?_getD, List.getElem?_eq_getElem hi', Option.getD_some]

/-- An octet 255 has the lowest bit, for which there is no probe. -/
theorem MaskStored.no_iac (h : tw.MaskStored) : ∀ o, 3 ≤ o → o < tw.parseIndex →
    tw.parsedat o ≠ 255 := by
  intro o h3 ho hiac
  have hplace : 3+8*(o-3)/8 = o := by omega
  have hmod : 8*(o-3)%8 = 0 := by omega
  have hkey : 8*(o-3) ∈ tw.forwarded.map UInt8.toNat := by
    rw [h.keys, InMask, hplace, hmod, hiac]
    exact ⟨ho, rfl⟩
  rw [forwarded_eq] at hkey
  exact maskLoop_mod 32 hkey hmod

theorem Readable.no_iac {d : ℕ → UInt8} {n i : ℕ} (h : Readable d n i) :
    ∀ o, i ≤ o → o < n → d o ≠ 255 := by
  obtain ⟨k, hk, _, hocts, hzeros⟩ := h
  intro o hi ho
  rcases Nat.lt_or_ge o (i+k) with hlt | hge
  · have hplace : i+(o-i) = o := by omega
    have hoct := hocts (o-i) (by omega)
    rw [hplace] at hoct
    rcases hoct with hoct | hoct | hoct <;> rw [hoct] <;> decide
  · rw [hzeros o hge ho]
    decide

theorem mem_maskChars (c : ℕ) : c ∈ tw.maskChars ↔ tw.InMask c := by
  rw [maskChars, Finset.mem_filter, Finset.mem_range]
  refine ⟨fun h => h.2, fun h => ⟨?_, h⟩⟩
  have := h.1
  omega

/-- A table with exactly the characters of the mask has as many entries as there are. -/
theorem length_forwarded (hkeys : ∀ c : ℕ, c ∈ tw.forwarded.map UInt8.toNat ↔ tw.InMask c)
    (honce : (tw.forwarded.map UInt8.toNat).Nodup) :
    tw.forwarded.length = tw.maskChars.card := by
  have hset : (tw.forwarded.map UInt8.toNat).toFinset = tw.maskChars := by
    ext c
    rw [List.mem_toFinset, hkeys, mem_maskChars]
  rw [← hset, List.toFinset_card_of_nodup honce, List.length_map]

/-- A forward mask is stored as it should be just where it is one that is read right. -/
theorem setForwardMask_iff : tw.MaskStored ↔ tw.MaskReadable := by
  constructor
  · intro h
    have hexact : ExactFrom tw.parsedat tw.parseIndex 32 3 := by
      refine ⟨h.reads, fun c _ => ?_⟩
      rw [← forwarded_eq]
      exact h.keys c
    have honce := h.once.map fun a b hab => UInt8.toNat_inj.mp hab
    refine ⟨(exactFrom_iff (h.no_iac tw) 32 (by decide) (by decide)).mp hexact, ?_⟩
    rw [← tw.length_forwarded h.keys honce]
    exact h.fits
  · intro h
    have hiac := h.1.no_iac
    obtain ⟨hreads, hchars⟩ := (exactFrom_iff hiac 32 (by decide) (by decide)).mpr h.1
    have hkeys : ∀ c : ℕ, c ∈ tw.forwarded.map UInt8.toNat ↔ tw.InMask c := fun c => by
      rw [forwarded_eq]
      exact hchars c (Nat.zero_le c)
    have honce := (maskLoop_sorted 32 (Nat.le_refl 3) (by decide) fun r hr =>
      hiac r (maskReads_ge 32 hr) (hreads r hr)).1
    rw [← forwarded_eq] at honce
    refine ⟨hkeys, honce.of_map, hreads, ?_⟩
    rw [tw.length_forwarded hkeys honce]
    exact h.2

end Window

/-- Of the mask for the return character nothing is stored. -/
theorem return_mask_lost : ¬({ newConnection plainSession with
    parsedat := fun i => [N_LINEMODE, TEL_DOTEL, L_FORWARDMASK, 0, 32].getD i 0
    parseIndex := 5 } : WindRec).MaskStored := by
  intro h
  have hkey := h.keys 13
  revert hkey
  decide +kernel

end WindRec

end Telnet
