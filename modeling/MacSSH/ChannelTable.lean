import Mathlib.Data.List.Basic
import Mathlib.Data.List.Range
import Mathlib.Data.Finset.Card
import Mathlib.Order.Bounds.Basic
import Mathlib.Data.Finset.Range
import Mathlib.Tactic

/-! The table of an ssh connection's channels. Local channel numbers are handed out
the way descriptors of files are: always the smallest one that is free. The arrays
grow by doubling, and `next_channel` remembers where the search for a free number
may begin. -/
namespace Channels

/-- Values used in the `in_use` array. -/
inductive InUse
  | CHANNEL_FREE
  | CHANNEL_RESERVED
  | CHANNEL_IN_USE
  deriving DecidableEq, Repr

/-- The table, as far as it deals with channel numbers. `channels` and `in_use` are
the two arrays with all their allocated entries, used or not. -/
structure channel_table (C : Type) where
  channels : List (Option C)
  in_use : List InUse
  allocated_channels : ℕ
  used_channels : ℕ
  next_channel : ℕ
  channel_count : ℕ
  max_channels : ℕ
  deriving DecidableEq, Repr

def INITIAL_CHANNELS : ℕ := 32

def MAX_CHANNELS : ℕ := 2^17

section
variable {C : Type} (junk : ℕ → Option C) (junk_use : ℕ → InUse)

/-- Fresh memory holds anything. -/
def lsh_space_alloc {α : Type} (fresh : ℕ → α) (size : ℕ) : List α :=
  (List.range size).map fresh

def make_channel_table : channel_table C :=
  { channels := lsh_space_alloc junk INITIAL_CHANNELS
    in_use := lsh_space_alloc junk_use INITIAL_CHANNELS
    allocated_channels := INITIAL_CHANNELS
    used_channels := 0
    next_channel := 0
    channel_count := 0
    max_channels := MAX_CHANNELS }

/-- The first free number from `next_channel` on, among the numbers already used. -/
def channel_table.scan (table : channel_table C) : Option ℕ :=
  (List.range' table.next_channel (table.used_channels-table.next_channel)).find?
    fun i => table.in_use[i]? = some .CHANNEL_FREE

/-- Both arrays double; their used entries are copied. -/
def channel_table.grow (table : channel_table C) : channel_table C :=
  let new_size := table.allocated_channels*2
  { table with
    channels := table.channels.take table.used_channels ++
      (lsh_space_alloc junk new_size).drop table.used_channels
    in_use := table.in_use.take table.used_channels ++
      (lsh_space_alloc junk_use new_size).drop table.used_channels
    allocated_channels := new_size }

/-- A new local channel number, or `-1` (here `none`) when there is none left. The
outer `none` is a failed assertion or a write outside the arrays. -/
def alloc_channel (table : channel_table C) : Option (Option ℕ × channel_table C) :=
  match table.scan with
  | some i =>
    match table.channels[i]? with
    | some none =>
      some (some i,
        { table with
          in_use := table.in_use.set i .CHANNEL_RESERVED
          next_channel := i+1
          channel_count := table.channel_count+1 })
    | _ => none -- assert(!table->channels[i])
  | none =>
    let i := max table.next_channel table.used_channels
    if i = table.max_channels then some (none, table)
    else
      let table := if i = table.allocated_channels then table.grow junk junk_use else table
      if i < table.in_use.length ∧ i < table.channels.length then
        some (some i,
          { table with
            channels := table.channels.set i none
            in_use := table.in_use.set i .CHANNEL_RESERVED
            used_channels := i+1
            next_channel := i+1
            channel_count := table.channel_count+1 })
      else none

end

section
variable {C : Type}

def dealloc_channel (table : channel_table C) (i : ℕ) : Option (channel_table C) :=
  -- assert( (unsigned) i < table->used_channels); assert(table->channel_count);
  if i < table.used_channels ∧ table.channel_count ≠ 0 then
    some { table with
      channels := table.channels.set i none
      in_use := table.in_use.set i .CHANNEL_FREE
      channel_count := table.channel_count-1
      next_channel := if i < table.next_channel then i else table.next_channel }
  else none

def use_channel (table : channel_table C) (local_channel_number : ℕ) :
    Option (channel_table C) :=
  match table.in_use[local_channel_number]?, table.channels[local_channel_number]? with
  | some .CHANNEL_RESERVED, some (some _) =>
    some { table with in_use := table.in_use.set local_channel_number .CHANNEL_IN_USE }
  | _, _ => none

def register_channel (table : channel_table C) (local_channel_number : ℕ) (channel : C)
    (take_into_use : Bool) : Option (channel_table C) :=
  match table.in_use[local_channel_number]?, table.channels[local_channel_number]? with
  | some .CHANNEL_RESERVED, some none =>
    let table := { table with
      channels := table.channels.set local_channel_number (some channel) }
    if take_into_use then use_channel table local_channel_number else some table
  | _, _ => none

def lookup_channel (table : channel_table C) (i : ℕ) : Option C :=
  if i < table.used_channels ∧ table.in_use[i]? = some .CHANNEL_IN_USE then
    (table.channels[i]?).join
  else none

end

/-! ### The table as a function of the number -/

/-- What a channel number stands for. -/
inductive Slot (C : Type)
  | free
  | reserved (channel : Option C)
  | in_use (channel : C)
  deriving DecidableEq, Repr

def Slot.taken {C : Type} : Slot C → Bool
  | .free => false
  | _ => true

/-- The slot of a number, from its entries in the two arrays. -/
def Slot.ofEntries {C : Type} : Option InUse → Option (Option C) → Slot C
  | some .CHANNEL_RESERVED, some c => .reserved c
  | some .CHANNEL_IN_USE, some (some c) => .in_use c
  | _, _ => .free

/-- Operations on the table. -/
inductive Op (C : Type)
  | alloc
  | register (number : ℕ) (channel : C) (take_into_use : Bool)
  | use (number : ℕ)
  | dealloc (number : ℕ)
  deriving DecidableEq, Repr

section
variable {C : Type}

def channel_table.slot (table : channel_table C) (i : ℕ) : Slot C :=
  if i < table.used_channels then Slot.ofEntries table.in_use[i]? table.channels[i]? else .free

/-- The operations on numbers as they are meant: a new number is the least one that
is free, and there is none only when all are taken. -/
inductive Numbered (f : ℕ → Slot C) : Op C → Option ℕ → (ℕ → Slot C) → Prop
  | alloc {n : ℕ} (hn : IsLeast {i | f i = .free} n) (hmax : n < MAX_CHANNELS) :
      Numbered f .alloc (some n) (Function.update f n (.reserved none))
  | full (hf : ∀ i < MAX_CHANNELS, f i ≠ .free) : Numbered f .alloc none f
  | register {n : ℕ} {c : C} (hn : f n = .reserved none) :
      Numbered f (.register n c false) none (Function.update f n (.reserved (some c)))
  | register_use {n : ℕ} {c : C} (hn : f n = .reserved none) :
      Numbered f (.register n c true) none (Function.update f n (.in_use c))
  | use {n : ℕ} {c : C} (hn : f n = .reserved (some c)) :
      Numbered f (.use n) none (Function.update f n (.in_use c))
  | dealloc {n : ℕ} (hn : f n ≠ .free) :
      Numbered f (.dealloc n) none (Function.update f n .free)

/-- Runs of the operations as they are meant, with the numbers handed out. -/
inductive NumberedRun : (ℕ → Slot C) → List (Op C) → List (Option ℕ) → (ℕ → Slot C) → Prop
  | nil (f : ℕ → Slot C) : NumberedRun f [] [] f
  | cons {f g h : ℕ → Slot C} {op : Op C} {ops : List (Op C)} {r : Option ℕ}
      {rs : List (Option ℕ)} (hop : Numbered f op r g) (hops : NumberedRun g ops rs h) :
      NumberedRun f (op :: ops) (r :: rs) h

variable (junk : ℕ → Option C) (junk_use : ℕ → InUse)

/-- One operation on the table. -/
def perform (table : channel_table C) : Op C → Option (Option ℕ × channel_table C)
  | .alloc => alloc_channel junk junk_use table
  | .register n c take => (register_channel table n c take).map fun t => (none, t)
  | .use n => (use_channel table n).map fun t => (none, t)
  | .dealloc n => (dealloc_channel table n).map fun t => (none, t)

/-- A run of operations on the table. -/
def perform_all (table : channel_table C) :
    List (Op C) → Option (List (Option ℕ) × channel_table C)
  | [] => some ([], table)
  | op :: ops =>
    (perform junk junk_use table op).bind fun r =>
      (perform_all r.2 ops).map fun rs => (r.1 :: rs.1, rs.2)

end

/-! ### What every operation keeps -/

section
variable {C : Type} {table : channel_table C}

structure WellFormed (table : channel_table C) : Prop where
  max : table.max_channels = MAX_CHANNELS
  size : ∃ k ≤ 17, table.allocated_channels = 2^k
  used_le : table.used_channels ≤ table.allocated_channels
  next_le : table.next_channel ≤ table.used_channels
  channels_length : table.channels.length = table.allocated_channels
  in_use_length : table.in_use.length = table.allocated_channels
  below : ∀ i < table.next_channel, table.slot i ≠ .free
  empty : ∀ i < table.used_channels, table.in_use[i]? = some .CHANNEL_FREE →
    table.channels[i]? = some none
  present : ∀ i < table.used_channels, table.in_use[i]? = some .CHANNEL_IN_USE →
    ∃ c, table.channels[i]? = some (some c)
  count : table.channel_count =
    ((Finset.range MAX_CHANNELS).filter fun i => (table.slot i).taken).card

theorem WellFormed.allocated_le (h : WellFormed table) :
    table.allocated_channels ≤ MAX_CHANNELS := by
  obtain ⟨k, hk, he⟩ := h.size
  rw [he]
  exact Nat.pow_le_pow_right (by norm_num) hk

/-- The arrays can double as long as there are numbers left. -/
theorem WellFormed.double (h : WellFormed table)
    (hlt : table.allocated_channels ≠ MAX_CHANNELS) :
    ∃ k ≤ 17, table.allocated_channels*2 = 2^k := by
  obtain ⟨k, hk, he⟩ := h.size
  have hne : k ≠ 17 := by
    intro hk
    rw [he, hk] at hlt
    exact hlt rfl
  exact ⟨k+1, by omega, by rw [he, pow_succ]⟩

theorem slot_of_used {i : ℕ} (hi : i < table.used_channels) :
    table.slot i = Slot.ofEntries table.in_use[i]? table.channels[i]? := by
  rw [channel_table.slot, if_pos hi]

theorem slot_of_unused {i : ℕ} (hi : table.used_channels ≤ i) : table.slot i = .free := by
  rw [channel_table.slot, if_neg (by omega)]

/-- A number below `used_channels` is free when its entry says so. -/
theorem WellFormed.slot_free_iff (h : WellFormed table) {i : ℕ} (hi : i < table.used_channels) :
    table.slot i = .free ↔ table.in_use[i]? = some .CHANNEL_FREE := by
  have hlt : i < table.in_use.length := by
    have := h.used_le
    have := h.in_use_length
    omega
  rw [slot_of_used hi, List.getElem?_eq_getElem hlt]
  cases hu : table.in_use[i] with
  | CHANNEL_FREE => simp [Slot.ofEntries]
  | CHANNEL_RESERVED =>
    have hc : i < table.channels.length := by
      have := h.used_le
      have := h.channels_length
      omega
    rw [List.getElem?_eq_getElem hc]
    simp [Slot.ofEntries]
  | CHANNEL_IN_USE =>
    obtain ⟨c, hc⟩ := h.present i hi (by rw [List.getElem?_eq_getElem hlt, hu])
    rw [hc]
    simp [Slot.ofEntries]

/-- How the number of taken slots changes with one slot. -/
theorem card_taken_update (f : ℕ → Slot C) {n m : ℕ} (hn : n < m) (s : Slot C) :
    ((Finset.range m).filter fun i => (Function.update f n s i).taken).card +
        (if (f n).taken then 1 else 0) =
      ((Finset.range m).filter fun i => (f i).taken).card + (if s.taken then 1 else 0) := by
  have hsplit (g : ℕ → Slot C) : ((Finset.range m).filter fun i => (g i).taken).card =
      (if (g n).taken then 1 else 0) +
        (((Finset.range m).erase n).filter fun i => (g i).taken).card := by
    have hmem : n ∈ Finset.range m := Finset.mem_range.mpr hn
    rw [← Finset.insert_erase hmem, Finset.filter_insert, Finset.erase_insert_eq_erase,
      Finset.erase_idem]
    split
    · rw [Finset.card_insert_of_notMem (by simp), Nat.add_comm]
    · rw [Nat.zero_add]
  have hrest : (((Finset.range m).erase n).filter fun i => (Function.update f n s i).taken) =
      ((Finset.range m).erase n).filter fun i => (f i).taken := by
    apply Finset.filter_congr
    intro i hi
    rw [Function.update_of_ne (Finset.ne_of_mem_erase hi)]
  rw [hsplit, hsplit f, hrest, Function.update_self]
  omega

theorem scan_eq_some {i : ℕ} (hs : table.scan = some i) :
    table.next_channel ≤ i ∧ i < table.used_channels ∧
      table.in_use[i]? = some .CHANNEL_FREE ∧
      ∀ j, table.next_channel ≤ j → j < i → table.in_use[j]? ≠ some .CHANNEL_FREE := by
  obtain ⟨hfree, hmem, hbefore⟩ := List.find?_range'_eq_some.mp hs
  rw [List.mem_range'_1] at hmem
  refine ⟨hmem.1, by omega, of_decide_eq_true hfree, ?_⟩
  intro j hj hji
  have := hbefore j hj hji
  simpa using this

theorem scan_eq_none (hs : table.scan = none) :
    ∀ j, table.next_channel ≤ j → j < table.used_channels →
      table.in_use[j]? ≠ some .CHANNEL_FREE := by
  intro j hj hju
  have hmem : j ∈ List.range' table.next_channel
      (table.used_channels-table.next_channel) := by
    rw [List.mem_range'_1]
    omega
  simpa using List.find?_eq_none.mp hs j hmem

/-- A table whose slot `n` alone differs from a well-formed one. -/
structure Rewritten (table t : channel_table C) (n : ℕ) (u : InUse) (c : Option C) : Prop where
  max : t.max_channels = table.max_channels
  size : ∃ k ≤ 17, t.allocated_channels = 2^k
  used_le : t.used_channels ≤ t.allocated_channels
  used : n < t.used_channels
  others : ∀ i ≠ n, (i < t.used_channels ↔ i < table.used_channels)
  channels_length : t.channels.length = t.allocated_channels
  in_use_length : t.in_use.length = t.allocated_channels
  channels : ∀ i < t.used_channels, t.channels[i]? =
    if i = n then some c else table.channels[i]?
  in_use : ∀ i < t.used_channels, t.in_use[i]? = if i = n then some u else table.in_use[i]?

theorem Rewritten.slot_eq {t : channel_table C} {n : ℕ} {u : InUse} {c : Option C}
    (hr : Rewritten table t n u c) :
    t.slot = Function.update table.slot n (Slot.ofEntries (some u) (some c)) := by
  funext i
  by_cases hi : i = n
  · subst hi
    rw [Function.update_self, slot_of_used hr.used, hr.in_use i hr.used,
      hr.channels i hr.used, if_pos rfl, if_pos rfl]
  · rw [Function.update_of_ne hi]
    by_cases hlt : i < t.used_channels
    · rw [slot_of_used hlt, slot_of_used ((hr.others i hi).mp hlt), hr.in_use i hlt,
        hr.channels i hlt, if_neg hi, if_neg hi]
    · rw [slot_of_unused (by omega), slot_of_unused (by have := hr.others i hi; omega)]

/-- Rewriting one slot keeps the table well formed, when the count and the hint follow. -/
theorem WellFormed.rewritten (h : WellFormed table) {t : channel_table C} {n : ℕ}
    {u : InUse} {c : Option C} (hr : Rewritten table t n u c)
    (hempty : u = .CHANNEL_FREE → c = none) (hpresent : u = .CHANNEL_IN_USE → c ≠ none)
    (hnext : t.next_channel ≤ t.used_channels)
    (hbelow : ∀ i < t.next_channel, t.slot i ≠ .free)
    (hcount : t.channel_count + (if (table.slot n).taken then 1 else 0) =
      table.channel_count +
        (if (Slot.ofEntries (some u) (some c)).taken then 1 else 0)) :
    WellFormed t where
  max := hr.max.trans h.max
  size := hr.size
  used_le := hr.used_le
  next_le := hnext
  channels_length := hr.channels_length
  in_use_length := hr.in_use_length
  below := hbelow
  empty := by
    intro i hi hu
    rw [hr.in_use i hi] at hu
    rw [hr.channels i hi]
    split at hu
    · next he =>
      rw [if_pos he, hempty (Option.some.inj hu)]
    · next he =>
      rw [if_neg he]
      exact h.empty i ((hr.others i he).mp hi) hu
  present := by
    intro i hi hu
    rw [hr.in_use i hi] at hu
    rw [hr.channels i hi]
    split at hu
    · next he =>
      rw [if_pos he]
      obtain ⟨c', hc'⟩ := Option.ne_none_iff_exists'.mp (hpresent (Option.some.inj hu))
      exact ⟨c', by rw [hc']⟩
    · next he =>
      rw [if_neg he]
      exact h.present i ((hr.others i he).mp hi) hu
  count := by
    have hmax : n < MAX_CHANNELS := by
      obtain ⟨k, hk, he⟩ := hr.size
      have hle : t.allocated_channels ≤ MAX_CHANNELS := by
        rw [he]
        exact Nat.pow_le_pow_right (by norm_num) hk
      have := hr.used
      have := hr.used_le
      omega
    have hcard := card_taken_update table.slot hmax (Slot.ofEntries (some u) (some c))
    rw [← hr.slot_eq, ← h.count] at hcard
    omega

/-! ### The operations one by one -/

variable (junk : ℕ → Option C) (junk_use : ℕ → InUse)

/-- A table with room for one more entry, and otherwise as before. -/
structure Roomy (table t : channel_table C) : Prop where
  max : t.max_channels = table.max_channels
  size : ∃ k ≤ 17, t.allocated_channels = 2^k
  used : t.used_channels = table.used_channels
  next : t.next_channel = table.next_channel
  count : t.channel_count = table.channel_count
  room : table.used_channels < t.allocated_channels
  channels_length : t.channels.length = t.allocated_channels
  in_use_length : t.in_use.length = t.allocated_channels
  channels : ∀ i < table.used_channels, t.channels[i]? = table.channels[i]?
  in_use : ∀ i < table.used_channels, t.in_use[i]? = table.in_use[i]?

theorem getElem?_copied {α : Type} (old fresh : List α) {used i : ℕ} (hi : i < used)
    (hle : used ≤ old.length) : (old.take used ++ fresh)[i]? = old[i]? := by
  rw [List.getElem?_append_left (by rw [List.length_take]; omega), List.getElem?_take_of_lt hi]

theorem length_copied {α : Type} (old : List α) (fresh : ℕ → α) {used size : ℕ}
    (hle : used ≤ old.length) (hsize : used ≤ size) :
    (old.take used ++ (lsh_space_alloc fresh size).drop used).length = size := by
  rw [List.length_append, List.length_take, List.length_drop, lsh_space_alloc,
    List.length_map, List.length_range]
  omega

theorem WellFormed.roomy (h : WellFormed table)
    (hne : table.used_channels ≠ table.max_channels) :
    Roomy table (if table.used_channels = table.allocated_channels
      then table.grow junk junk_use else table) := by
  have hcl := h.channels_length
  have hul := h.in_use_length
  have hle := h.used_le
  by_cases he : table.used_channels = table.allocated_channels
  · rw [if_pos he]
    have hlt : table.allocated_channels ≠ MAX_CHANNELS := by
      rw [← he, ← h.max]
      exact hne
    have hpos : 0 < table.allocated_channels := by
      obtain ⟨k, -, hk⟩ := h.size
      rw [hk]
      exact Nat.two_pow_pos k
    exact
      { max := rfl
        size := h.double hlt
        used := rfl
        next := rfl
        count := rfl
        room := by
          show table.used_channels < table.allocated_channels*2
          omega
        channels_length := length_copied _ _ (by omega) (by omega)
        in_use_length := length_copied _ _ (by omega) (by omega)
        channels := fun i hi => getElem?_copied _ _ hi (by omega)
        in_use := fun i hi => getElem?_copied _ _ hi (by omega) }
  · rw [if_neg he]
    exact
      { max := rfl, size := h.size, used := rfl, next := rfl, count := rfl
        room := by omega
        channels_length := hcl
        in_use_length := hul
        channels := fun i _ => rfl
        in_use := fun i _ => rfl }

/-- The number found by the scan is the least free one. -/
theorem WellFormed.scan_least (h : WellFormed table) {i : ℕ} (hs : table.scan = some i) :
    IsLeast {j | table.slot j = .free} i := by
  obtain ⟨-, hiu, hfree, hbefore⟩ := scan_eq_some hs
  refine ⟨(h.slot_free_iff hiu).mpr hfree, ?_⟩
  intro j hj
  by_contra hlt
  have hju : j < table.used_channels := by omega
  by_cases hjn : j < table.next_channel
  · exact h.below j hjn hj
  · exact hbefore j (by omega) (by omega) ((h.slot_free_iff hju).mp hj)

/-- When the scan finds nothing, every number used so far is taken. -/
theorem WellFormed.scan_none (h : WellFormed table) (hs : table.scan = none) :
    ∀ j < table.used_channels, table.slot j ≠ .free := by
  intro j hj hfree
  by_cases hjn : j < table.next_channel
  · exact h.below j hjn hfree
  · exact scan_eq_none hs j (by omega) hj ((h.slot_free_iff hj).mp hfree)

theorem set_same {α : Type} {l : List α} {n : ℕ} {a : α} (h : l[n]? = some a) :
    l.set n a = l := by
  apply List.ext_getElem?
  intro i
  by_cases hi : n = i
  · rw [← hi, h, List.getElem?_set_self (List.getElem?_eq_some_iff.mp h).1]
  · rw [List.getElem?_set_ne hi]

/-- Setting both entries of a used number rewrites its slot. -/
theorem WellFormed.set_entries (h : WellFormed table) {n : ℕ} (hn : n < table.used_channels)
    (u : InUse) (c : Option C) (next count : ℕ) :
    Rewritten table
      { table with
        channels := table.channels.set n c
        in_use := table.in_use.set n u
        next_channel := next
        channel_count := count } n u c := by
  have hle := h.used_le
  have hcl := h.channels_length
  have hul := h.in_use_length
  exact
    { max := rfl
      size := h.size
      used_le := hle
      used := hn
      others := fun j _ => Iff.rfl
      channels_length := by
        rw [List.length_set]
        exact hcl
      in_use_length := by
        rw [List.length_set]
        exact hul
      channels := by
        intro j _
        split
        · next he => rw [he, List.getElem?_set_self (by omega)]
        · next he => rw [List.getElem?_set_ne (Ne.symm he)]
      in_use := by
        intro j _
        split
        · next he => rw [he, List.getElem?_set_self (by omega)]
        · next he => rw [List.getElem?_set_ne (Ne.symm he)] }

theorem alloc_scanned (h : WellFormed table) {i : ℕ} (hs : table.scan = some i) :
    ∃ t, alloc_channel junk junk_use table = some (some i, t) ∧
      t.slot = Function.update table.slot i (.reserved none) ∧ WellFormed t := by
  obtain ⟨-, hiu, hfree, -⟩ := scan_eq_some hs
  have hnone := h.empty i hiu hfree
  have hr := h.set_entries hiu .CHANNEL_RESERVED none (i+1) (table.channel_count+1)
  rw [set_same hnone] at hr
  refine ⟨_, by rw [alloc_channel, hs]; simp only [hnone], hr.slot_eq, ?_⟩
  apply h.rewritten hr (by simp) (by simp)
  · exact hiu
  · intro j hj
    rw [hr.slot_eq]
    by_cases hji : j = i
    · rw [hji, Function.update_self]
      simp [Slot.ofEntries]
    · rw [Function.update_of_ne hji]
      intro hjf
      have : i ≤ j := (h.scan_least hs).2 hjf
      have hj : j < i+1 := hj
      omega
  · rw [(h.scan_least hs).1]
    rfl

theorem alloc_fresh (h : WellFormed table) (hs : table.scan = none)
    (hne : table.used_channels ≠ table.max_channels) :
    ∃ t, alloc_channel junk junk_use table = some (some table.used_channels, t) ∧
      t.slot = Function.update table.slot table.used_channels (.reserved none) ∧
      WellFormed t := by
  have hmax : max table.next_channel table.used_channels = table.used_channels :=
    Nat.max_eq_right h.next_le
  have hroom := h.roomy junk junk_use hne
  generalize hg : (if table.used_channels = table.allocated_channels
      then table.grow junk junk_use else table) = g at hroom
  have hcl : table.used_channels < g.channels.length := by
    rw [hroom.channels_length]
    exact hroom.room
  have hul : table.used_channels < g.in_use.length := by
    rw [hroom.in_use_length]
    exact hroom.room
  refine ⟨{ g with
      channels := g.channels.set table.used_channels none
      in_use := g.in_use.set table.used_channels .CHANNEL_RESERVED
      used_channels := table.used_channels+1
      next_channel := table.used_channels+1
      channel_count := g.channel_count+1 }, ?_, ?_⟩
  · rw [alloc_channel, hs]
    simp only [hmax, if_neg hne, hg]
    rw [if_pos ⟨hul, hcl⟩]
  have hr : Rewritten table
      { g with
        channels := g.channels.set table.used_channels none
        in_use := g.in_use.set table.used_channels .CHANNEL_RESERVED
        used_channels := table.used_channels+1
        next_channel := table.used_channels+1
        channel_count := g.channel_count+1 } table.used_channels .CHANNEL_RESERVED none :=
    { max := hroom.max
      size := hroom.size
      used_le := hroom.room
      used := Nat.lt_succ_self _
      others := by
        intro j hj
        show j < table.used_channels+1 ↔ j < table.used_channels
        omega
      channels_length := by
        rw [List.length_set]
        exact hroom.channels_length
      in_use_length := by
        rw [List.length_set]
        exact hroom.in_use_length
      channels := by
        intro j hj
        have hj : j < table.used_channels+1 := hj
        split
        · next he => rw [he, List.getElem?_set_self hcl]
        · next he =>
          rw [List.getElem?_set_ne (Ne.symm he)]
          exact hroom.channels j (by omega)
      in_use := by
        intro j hj
        have hj : j < table.used_channels+1 := hj
        split
        · next he => rw [he, List.getElem?_set_self hul]
        · next he =>
          rw [List.getElem?_set_ne (Ne.symm he)]
          exact hroom.in_use j (by omega) }
  refine ⟨hr.slot_eq, ?_⟩
  apply h.rewritten hr (by simp) (by simp)
  · exact Nat.le_refl _
  · intro j hj
    have hj : j < table.used_channels+1 := hj
    rw [hr.slot_eq]
    by_cases hji : j = table.used_channels
    · rw [hji, Function.update_self]
      simp [Slot.ofEntries]
    · rw [Function.update_of_ne hji]
      exact h.scan_none hs j (by omega)
  · rw [slot_of_unused (Nat.le_refl _)]
    show g.channel_count+1+0 = table.channel_count+1
    rw [hroom.count]

/-- Allocation never fails an assertion; it hands out the least free number, and none
only when all are taken. -/
theorem alloc_spec (h : WellFormed table) :
    ∃ r t, alloc_channel junk junk_use table = some (r, t) ∧
      Numbered table.slot .alloc r t.slot ∧ WellFormed t := by
  cases hs : table.scan with
  | some i =>
    obtain ⟨t, ha, hslot, ht⟩ := alloc_scanned junk junk_use h hs
    refine ⟨some i, t, ha, ?_, ht⟩
    rw [hslot]
    have hi := (scan_eq_some hs).2.1
    exact .alloc (h.scan_least hs) (lt_of_lt_of_le hi (h.used_le.trans h.allocated_le))
  | none =>
    by_cases hne : table.used_channels = table.max_channels
    · refine ⟨none, table, ?_, ?_, h⟩
      · rw [alloc_channel, hs]
        simp only [Nat.max_eq_right h.next_le, if_pos hne]
      · apply Numbered.full
        rw [← h.max, ← hne]
        exact h.scan_none hs
    · obtain ⟨t, ha, hslot, ht⟩ := alloc_fresh junk junk_use h hs hne
      refine ⟨some table.used_channels, t, ha, ?_, ht⟩
      rw [hslot]
      refine .alloc ⟨slot_of_unused (Nat.le_refl _), ?_⟩ ?_
      · intro j hj
        by_contra hlt
        exact h.scan_none hs j (by omega) hj
      · have := h.used_le.trans h.allocated_le
        rw [h.max] at hne
        omega

/-- The slot of a number that is not free, read back from its entries. -/
theorem entries_of_slot {n : ℕ} (hn : table.slot n ≠ .free) :
    n < table.used_channels ∧
      (∀ c, table.slot n = .reserved c → table.in_use[n]? = some .CHANNEL_RESERVED ∧
        table.channels[n]? = some c) ∧
      (∀ c, table.slot n = .in_use c → table.in_use[n]? = some .CHANNEL_IN_USE ∧
        table.channels[n]? = some (some c)) := by
  have hu : n < table.used_channels := by
    by_contra hge
    exact hn (slot_of_unused (by omega))
  refine ⟨hu, ?_, ?_⟩ <;>
  · intro c hc
    rw [slot_of_used hu] at hc
    unfold Slot.ofEntries at hc
    split at hc <;> simp_all

/-- A slot that stays taken keeps the hint and the count. -/
theorem WellFormed.retaken (h : WellFormed table) {n : ℕ} {u : InUse} {c : Option C}
    (hn : table.slot n ≠ .free) (hu : u ≠ .CHANNEL_FREE)
    (hpresent : u = .CHANNEL_IN_USE → c ≠ none) :
    WellFormed { table with
      channels := table.channels.set n c
      in_use := table.in_use.set n u } := by
  have hr := h.set_entries (entries_of_slot hn).1 u c table.next_channel table.channel_count
  have htaken : (Slot.ofEntries (some u) (some c)).taken := by
    cases u with
    | CHANNEL_FREE => exact absurd rfl hu
    | CHANNEL_RESERVED => rfl
    | CHANNEL_IN_USE =>
      obtain ⟨c', hc⟩ := Option.ne_none_iff_exists'.mp (hpresent rfl)
      rw [hc]
      rfl
  apply h.rewritten hr (fun he => absurd he hu) hpresent h.next_le
  · intro j hj
    rw [hr.slot_eq]
    by_cases hji : j = n
    · rw [hji, Function.update_self]
      intro hf
      rw [hf] at htaken
      cases htaken
    · rw [Function.update_of_ne hji]
      exact h.below j hj
  · have hold : (table.slot n).taken := by
      cases hs : table.slot n with
      | free => exact absurd hs hn
      | reserved => rfl
      | in_use => rfl
    rw [if_pos hold, if_pos htaken]

theorem use_spec (h : WellFormed table) {n : ℕ} {c : C}
    (hn : table.slot n = .reserved (some c)) :
    ∃ t, use_channel table n = some t ∧
      t.slot = Function.update table.slot n (.in_use c) ∧ WellFormed t := by
  have htaken : table.slot n ≠ .free := by
    rw [hn]
    simp
  obtain ⟨hlt, hres, -⟩ := entries_of_slot htaken
  obtain ⟨hu, hc⟩ := hres (some c) hn
  have hr := h.set_entries hlt .CHANNEL_IN_USE (some c) table.next_channel table.channel_count
  have hw := h.retaken (u := .CHANNEL_IN_USE) (c := some c) htaken (by simp) (by simp)
  rw [set_same hc] at hr hw
  refine ⟨_, by rw [use_channel, hu, hc], hr.slot_eq, hw⟩

theorem register_spec (h : WellFormed table) {n : ℕ} (c : C) (take_into_use : Bool)
    (hn : table.slot n = .reserved none) :
    ∃ t, register_channel table n c take_into_use = some t ∧
      t.slot = Function.update table.slot n
        (if take_into_use then .in_use c else .reserved (some c)) ∧ WellFormed t := by
  have htaken : table.slot n ≠ .free := by
    rw [hn]
    simp
  obtain ⟨hlt, hres, -⟩ := entries_of_slot htaken
  obtain ⟨hu, hc⟩ := hres none hn
  have hr := h.set_entries hlt .CHANNEL_RESERVED (some c) table.next_channel
    table.channel_count
  have hw := h.retaken (u := .CHANNEL_RESERVED) (c := some c) htaken (by simp) (by simp)
  rw [set_same hu] at hr hw
  cases take_into_use with
  | false => exact ⟨_, by rw [register_channel, hu, hc]; rfl, hr.slot_eq, hw⟩
  | true =>
    have hslot : (channel_table.slot
        { table with channels := table.channels.set n (some c) }) n =
        .reserved (some c) := by
      rw [hr.slot_eq, Function.update_self]
      rfl
    obtain ⟨t, ht, hts, htw⟩ := use_spec hw hslot
    refine ⟨t, by rw [register_channel, hu, hc]; exact ht, ?_, htw⟩
    rw [hts, hr.slot_eq, Function.update_idem]
    rfl

theorem dealloc_spec (h : WellFormed table) {n : ℕ} (hn : table.slot n ≠ .free) :
    ∃ t, dealloc_channel table n = some t ∧
      t.slot = Function.update table.slot n .free ∧ WellFormed t := by
  have hlt := (entries_of_slot hn).1
  have htaken : (table.slot n).taken := by
    cases hs : table.slot n with
    | free => exact absurd hs hn
    | reserved => rfl
    | in_use => rfl
  -- the number itself is counted, so the count is not zero
  have hcount : table.channel_count ≠ 0 := by
    have hmax : n < MAX_CHANNELS := lt_of_lt_of_le hlt (h.used_le.trans h.allocated_le)
    rw [h.count]
    apply Finset.card_ne_zero_of_mem
    exact Finset.mem_filter.mpr ⟨Finset.mem_range.mpr hmax, htaken⟩
  have hr := h.set_entries hlt .CHANNEL_FREE none
    (if n < table.next_channel then n else table.next_channel) (table.channel_count-1)
  refine ⟨_, by rw [dealloc_channel, if_pos ⟨hlt, hcount⟩], hr.slot_eq, ?_⟩
  apply h.rewritten hr (by simp) (by simp)
  · have := h.next_le
    show (if n < table.next_channel then n else table.next_channel) ≤ table.used_channels
    split <;> omega
  · intro j hj
    have hj : j < if n < table.next_channel then n else table.next_channel := hj
    have hjn : j ≠ n ∧ j < table.next_channel := by
      split at hj <;> omega
    rw [hr.slot_eq, Function.update_of_ne hjn.1]
    exact h.below j hjn.2
  · rw [if_pos htaken]
    show table.channel_count-1+1 = table.channel_count+0
    omega

theorem lookup_eq_some {n : ℕ} {c : C} :
    lookup_channel table n = some c ↔ table.slot n = .in_use c := by
  unfold lookup_channel channel_table.slot Slot.ofEntries
  by_cases hn : n < table.used_channels
  · cases table.in_use[n]? with
    | none => simp
    | some u =>
      cases u <;> rcases table.channels[n]? with _ | _ | c' <;> simp [hn]
  · simp [hn]

/-! ### Whole runs -/

theorem well_formed_made : WellFormed (make_channel_table junk junk_use) where
  max := rfl
  size := ⟨5, by norm_num, rfl⟩
  used_le := Nat.zero_le _
  next_le := Nat.le_refl _
  channels_length := by
    show (lsh_space_alloc junk INITIAL_CHANNELS).length = INITIAL_CHANNELS
    rw [lsh_space_alloc, List.length_map, List.length_range]
  in_use_length := by
    show (lsh_space_alloc junk_use INITIAL_CHANNELS).length = INITIAL_CHANNELS
    rw [lsh_space_alloc, List.length_map, List.length_range]
  below := fun i hi => absurd hi (Nat.not_lt_zero i)
  empty := fun i hi => absurd hi (Nat.not_lt_zero i)
  present := fun i hi => absurd hi (Nat.not_lt_zero i)
  count := by
    have hfree (i : ℕ) : (make_channel_table junk junk_use).slot i = .free :=
      slot_of_unused (Nat.zero_le i)
    rw [Finset.filter_false_of_mem (by simp [hfree, Slot.taken])]
    rfl

/-- The least free number is one number, and there is none when all are taken. -/
theorem Numbered.unique_alloc {f g g' : ℕ → Slot C} {r r' : Option ℕ}
    (h : Numbered f .alloc r g) (h' : Numbered f .alloc r' g') : r = r' ∧ g = g' := by
  cases h with
  | alloc hn hmax =>
    cases h' with
    | alloc hn' _ =>
      cases hn.unique hn'
      exact ⟨rfl, rfl⟩
    | full hf => exact absurd hn.1 (hf _ hmax)
  | full hf =>
    cases h' with
    | alloc hn' hmax => exact absurd hn'.1 (hf _ hmax)
    | full _ => exact ⟨rfl, rfl⟩

theorem perform_spec (h : WellFormed table) {op : Op C} {r : Option ℕ} {g : ℕ → Slot C}
    (hop : Numbered table.slot op r g) :
    ∃ t, perform junk junk_use table op = some (r, t) ∧ t.slot = g ∧ WellFormed t := by
  cases op with
  | alloc =>
    obtain ⟨r', t, ha, hnum, hw⟩ := alloc_spec junk junk_use h
    obtain ⟨hr, hg⟩ := hop.unique_alloc hnum
    subst hr
    exact ⟨t, ha, hg.symm, hw⟩
  | register n c take_into_use =>
    have hn : table.slot n = .reserved none := by
      cases hop <;> assumption
    obtain ⟨t, ht, hslot, hw⟩ := register_spec h c take_into_use hn
    cases hop <;> exact ⟨t, by rw [perform, ht]; rfl, hslot, hw⟩
  | use n =>
    cases hop with
    | use hn =>
      obtain ⟨t, ht, hslot, hw⟩ := use_spec h hn
      exact ⟨t, by rw [perform, ht]; rfl, hslot, hw⟩
  | dealloc n =>
    cases hop with
    | dealloc hn =>
      obtain ⟨t, ht, hslot, hw⟩ := dealloc_spec h hn
      exact ⟨t, by rw [perform, ht]; rfl, hslot, hw⟩

theorem perform_all_spec {f g : ℕ → Slot C} {ops : List (Op C)} {rs : List (Option ℕ)}
    (hrun : NumberedRun f ops rs g) (h : WellFormed table) (hf : table.slot = f) :
    ∃ t, perform_all junk junk_use table ops = some (rs, t) ∧ t.slot = g ∧ WellFormed t := by
  induction hrun generalizing table with
  | nil f => exact ⟨table, rfl, hf, h⟩
  | cons hop _ ih =>
    subst hf
    obtain ⟨t, hp, hslot, hw⟩ := perform_spec junk junk_use h hop
    obtain ⟨t', hps, hslot', hw'⟩ := ih hw hslot
    refine ⟨t', ?_, hslot', hw'⟩
    rw [perform_all, hp, Option.bind_some, hps]
    rfl

/-- Every run of the operations as they are meant is run by the table: no assertion
fails, no entry outside the arrays is written, the same numbers are handed out, and
afterwards each number stands for the same and the count is right. -/
theorem table_numbers_channels {g : ℕ → Slot C} {ops : List (Op C)}
    {rs : List (Option ℕ)} (hrun : NumberedRun (fun _ => Slot.free) ops rs g) :
    ∃ t, perform_all junk junk_use (make_channel_table junk junk_use) ops = some (rs, t) ∧
      t.slot = g ∧ (∀ n c, lookup_channel t n = some c ↔ g n = .in_use c) ∧
      t.channel_count = ((Finset.range MAX_CHANNELS).filter fun i => (g i).taken).card := by
  have hfree : (make_channel_table junk junk_use).slot = fun _ => .free :=
    funext fun i => slot_of_unused (Nat.zero_le i)
  obtain ⟨t, hp, hslot, hw⟩ :=
    perform_all_spec junk junk_use hrun (well_formed_made junk junk_use) hfree
  subst hslot
  exact ⟨t, hp, rfl, fun n c => lookup_eq_some, hw.count⟩

theorem Numbered.alloc_first {f : ℕ → Slot C} {n : ℕ} (hn : f n = .free)
    (hbelow : ∀ i < n, f i ≠ .free) (hmax : n < MAX_CHANNELS) :
    Numbered f .alloc (some n) (Function.update f n (.reserved none)) := by
  apply Numbered.alloc _ hmax
  refine ⟨hn, ?_⟩
  intro i hi
  by_contra hlt
  exact hbelow i (by omega) hi

/-- Two numbers are taken, the first is given back and then handed out again. -/
theorem table_numbers_channels_reused :
    ∃ t, perform_all (fun _ => some true) (fun _ => .CHANNEL_IN_USE)
        (make_channel_table (fun _ => some true) fun _ => .CHANNEL_IN_USE)
        [.alloc, .alloc, .dealloc 0, .alloc] = some ([some 0, some 1, none, some 0], t) := by
  obtain ⟨g, hrun⟩ : ∃ g : ℕ → Slot Bool, NumberedRun (fun _ => Slot.free)
      [.alloc, .alloc, .dealloc 0, .alloc] [some 0, some 1, none, some 0] g := by
    apply Exists.intro
    apply NumberedRun.cons (Numbered.alloc_first rfl (by simp) (by decide))
    apply NumberedRun.cons (Numbered.alloc_first (by simp) (by simp) (by decide))
    apply NumberedRun.cons (.dealloc (by simp))
    apply NumberedRun.cons (Numbered.alloc_first (by simp) (by simp) (by decide))
    exact NumberedRun.nil _
  obtain ⟨t, ht, -⟩ :=
    table_numbers_channels (fun _ => some true) (fun _ => .CHANNEL_IN_USE) hrun
  exact ⟨t, ht⟩

end

end Channels
