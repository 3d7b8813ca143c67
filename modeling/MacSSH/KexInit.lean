import MacSSH.MessageParse

/-! The message that opens a key exchange: what each end proposes, and the choice that both
make from the two proposals. -/
namespace KeyExchange
open Atoms Messages

def SSH_MSG_KEXINIT : ℕ := 20

def KEX_PARAMETERS : ℕ := 6

def NLISTS : ℕ := 10

def KEXINIT_MAX_ALGORITMS : ℕ := 1024

structure kexinit where
  cookie : List UInt8
  kex_algorithms : List ℕ
  server_hostkey_algorithms : List ℕ
  -- encryption, authentication and compression, each from the client to the server and back
  parameters : List (List ℕ)
  languages_client_to_server : List ℕ
  languages_server_to_client : List ℕ
  first_kex_packet_follows : ℕ
  deriving DecidableEq

def parse_lists : ℕ → List UInt8 → Option (List (List ℕ) × List UInt8)
  | 0, b => some ([], b)
  | n+1, b =>
    (parse_atom_list KEXINIT_MAX_ALGORITMS b).bind fun l =>
      (parse_lists n l.2).map fun r => (l.1 :: r.1, r.2)

def parse_kexinit (packet : List UInt8) : Option kexinit :=
  (parse_uint8 packet).bind fun msg_number =>
    if msg_number.1 ≠ SSH_MSG_KEXINIT then none
    else
      (parse_octets 16 msg_number.2).bind fun cookie =>
        (parse_lists NLISTS cookie.2).bind fun lists =>
          (parse_boolean lists.2).bind fun first_kex_packet_follows =>
            (parse_uint32 first_kex_packet_follows.2).bind fun reserved =>
              if reserved.1 ≠ 0 ∨ ¬ parse_eod reserved.2 then none
              else some
                { cookie := cookie.1
                  kex_algorithms := lists.1.getD 0 []
                  server_hostkey_algorithms := lists.1.getD 1 []
                  parameters := (List.range KEX_PARAMETERS).map fun i => lists.1.getD (2+i) []
                  languages_client_to_server := lists.1.getD 8 []
                  languages_server_to_client := lists.1.getD 9 []
                  first_kex_packet_follows := first_kex_packet_follows.1 }

def format_kex (kex : kexinit) : Option (List UInt8) :=
  ssh_format "%c%ls%A%A%A%A%A%A%A%A%A%A%c%i"
    [.char SSH_MSG_KEXINIT, .string kex.cookie, .atoms kex.kex_algorithms,
      .atoms kex.server_hostkey_algorithms, .atoms (kex.parameters.getD 0 []),
      .atoms (kex.parameters.getD 1 []), .atoms (kex.parameters.getD 2 []),
      .atoms (kex.parameters.getD 3 []), .atoms (kex.parameters.getD 4 []),
      .atoms (kex.parameters.getD 5 []), .atoms kex.languages_client_to_server,
      .atoms kex.languages_server_to_client, .char kex.first_kex_packet_follows, .int 0]

/-- The first algorithm of the client that the server has too; zero if there is none. -/
def select_algorithm (client_list server_list : List ℕ) : ℕ :=
  match client_list with
  | [] => 0
  | a :: client_list =>
    -- an unknown algorithm is passed over
    if a ≠ 0 ∧ a ∈ server_list then a else select_algorithm client_list server_list

/-! ### Lists of names -/

/-- A list as it is written, with the length before it. -/
def atom_list (l : List ℕ) : List UInt8 :=
  WRITE_UINT32 (write_atoms 0 l).length ++ write_atoms 0 l

/-- A name is not empty, has no comma and is not long. -/
theorem names_plain : ∀ entry ∈ atom_table,
    chars entry.1 ≠ [] ∧ 44 ∉ chars entry.1 ∧ (chars entry.1).length ≤ 64 := by
  decide +kernel

theorem name_plain {atom : ℕ} (hatom : atom < 116) :
    get_atom_name atom ≠ [] ∧ 44 ∉ get_atom_name atom ∧ (get_atom_name atom).length ≤ 64 := by
  have hlen : atom < atom_table.length := hatom
  have hentry : atom_table.getD atom ("", 0) ∈ atom_table := by
    rw [List.getD_eq_getElem _ _ hlen]
    exact List.getElem_mem hlen
  exact names_plain _ hentry

theorem write_atoms_succ : ∀ (l : List ℕ) (n : ℕ), write_atoms (n+1) l =
    ((l.filter (· ≠ 0)).map fun atom => 44 :: get_atom_name atom).flatten := by
  intro l
  induction l with
  | nil => intro n; rfl
  | cons atom l ih =>
    intro n
    rw [write_atoms]
    by_cases hatom : atom = 0
    · rw [if_pos hatom, ih, List.filter_cons_of_neg (by simpa using hatom)]
    · rw [if_neg hatom, if_neg (Nat.succ_ne_zero n), ih,
        List.filter_cons_of_pos (by simpa using hatom), List.map_cons, List.flatten_cons]
      rfl

theorem write_atoms_eq (l : List ℕ) :
    write_atoms 0 l = [44].intercalate ((l.filter (· ≠ 0)).map get_atom_name) := by
  have hmore : ∀ {names : List (List UInt8)} (x : List UInt8),
      [44].intercalate (x :: names) = x ++ (names.map fun name => 44 :: name).flatten := by
    intro names
    induction names with
    | nil =>
      intro x
      rw [List.intercalate_singleton, List.map_nil, List.flatten_nil, List.append_nil]
    | cons y names ih =>
      intro x
      rw [List.intercalate_cons_of_ne_nil (List.cons_ne_nil y names), ih, List.append_assoc]
      rfl
  induction l with
  | nil => rfl
  | cons atom l ih =>
    rw [write_atoms]
    by_cases hatom : atom = 0
    · rw [if_pos hatom, ih, List.filter_cons_of_neg (by simpa using hatom)]
    · rw [if_neg hatom, if_pos rfl, List.filter_cons_of_pos (by simpa using hatom),
        List.map_cons, hmore, write_atoms_succ, List.map_map]
      rfl

/-- What is sent of a list: unknown atoms are left out. -/
def known (l : List ℕ) : List ℕ := l.filter (· ≠ 0)

/-- A list that can be sent. -/
structure Sendable (l : List ℕ) : Prop where
  atoms : ∀ atom ∈ l, atom < 116
  short : (known l).length ≤ KEXINIT_MAX_ALGORITMS

theorem lookup_names {l : List ℕ} (hl : ∀ atom ∈ l, atom < 116 ∧ atom ≠ 0) :
    (l.map get_atom_name).map lookup_atom = l := by
  rw [List.map_map]
  conv_rhs => rw [← List.map_id l]
  apply List.map_congr_left
  intro atom hatom
  obtain ⟨hlt, hne⟩ := hl atom hatom
  exact (lookup_atom_iff _ hne).mpr ⟨hlt, rfl⟩

theorem Sendable.known_atoms {l : List ℕ} (h : Sendable l) :
    ∀ atom ∈ known l, atom < 116 ∧ atom ≠ 0 := by
  intro atom hatom
  obtain ⟨hmem, hne⟩ := List.mem_filter.mp hatom
  exact ⟨h.atoms atom hmem, by simpa using hne⟩

theorem Sendable.parse_atoms {l : List ℕ} (h : Sendable l) :
    parse_atoms KEXINIT_MAX_ALGORITMS (write_atoms 0 l) = some (known l) := by
  have hknown := h.known_atoms
  rw [write_atoms_eq]
  by_cases hempty : known l = []
  · have hfilter : l.filter (· ≠ 0) = [] := hempty
    rw [hfilter, hempty]
    rfl
  · obtain ⟨atom, l', hl'⟩ := List.exists_cons_of_ne_nil hempty
    have hfilter : l.filter (· ≠ 0) = known l := rfl
    have hnames : ∀ name ∈ (known l).map get_atom_name, 44 ∉ name ∧ name.length ≤ 64 := by
      intro name hname
      obtain ⟨atom, hatom, rfl⟩ := List.mem_map.mp hname
      exact (name_plain (hknown atom hatom).1).2
    have hne : (known l).map get_atom_name ≠ [] := by simpa using hempty
    have hwritten : [44].intercalate ((known l).map get_atom_name) ≠ [] := by
      have hfirst : get_atom_name atom ≠ [] :=
        (name_plain (hknown atom (by rw [hl']; exact List.mem_cons_self)).1).1
      rw [hl', List.map_cons]
      by_cases hone : l'.map get_atom_name = []
      · rw [hone, List.intercalate_singleton]
        exact hfirst
      · rw [List.intercalate_cons_of_ne_nil hone]
        simp [hfirst]
    rw [hfilter, parse_atoms_eq hne fun name hname => (hnames name hname).1, if_neg hwritten,
      if_neg (by rw [List.length_map]; exact Nat.not_lt.mpr h.short),
      if_pos fun name hname => (hnames name hname).2, lookup_names hknown]

theorem length_write_atoms_le {l : List ℕ} (h : Sendable l) :
    (write_atoms 0 l).length < 2^32 := by
  have hbound : ∀ {l : List ℕ}, (∀ atom ∈ l, atom < 116) →
      (l.map get_atom_length).sum ≤ 64*l.length := by
    intro l
    induction l with
    | nil =>
      intro _
      exact Nat.le_refl 0
    | cons atom l ih =>
      intro hl
      have hatom := (name_plain (hl atom List.mem_cons_self)).2.2
      rw [length_name] at hatom
      have hrest := ih fun atom hmem => hl atom (List.mem_cons_of_mem _ hmem)
      rw [List.map_cons, List.sum_cons, List.length_cons]
      omega
  have hsum := hbound fun atom hatom => (h.known_atoms atom hatom).1
  have hshort : (known l).length ≤ 1024 := h.short
  unfold known at hsum hshort
  rw [length_write_atoms]
  omega

theorem Sendable.parse_atom_list {l : List ℕ} (h : Sendable l) (r : List UInt8) :
    parse_atom_list KEXINIT_MAX_ALGORITMS (atom_list l ++ r) = some (known l, r) := by
  have hstring : parse_string (atom_list l ++ r) = some (write_atoms 0 l, r) := by
    rw [parse_string_iff, atom_list, List.append_assoc]
    exact ⟨length_write_atoms_le h, rfl⟩
  rw [Messages.parse_atom_list, hstring, Option.bind_some, h.parse_atoms]
  rfl

/-- What is read as a list without unknown atoms can be sent, and is sent as it was. -/
theorem parse_atom_list_known {b r : List UInt8} {l : List ℕ}
    (h : parse_atom_list KEXINIT_MAX_ALGORITMS b = some (l, r)) :
    Sendable l ∧ (0 ∉ l → b = atom_list l ++ r) := by
  obtain ⟨⟨x, r'⟩, hstring, hmap⟩ := Option.bind_eq_some_iff.mp h
  obtain ⟨l', hatoms, hpair⟩ := Option.map_eq_some_iff.mp hmap
  cases hpair
  obtain ⟨-, rfl⟩ := parse_string_iff.mp hstring
  obtain ⟨names, hne, hnames, rfl⟩ := exists_names x
  have hatoms : parse_atoms KEXINIT_MAX_ALGORITMS ([44].intercalate names) = some l := hatoms
  rw [parse_atoms_eq hne hnames] at hatoms
  split_ifs at hatoms with hempty hlong hall
  · cases hatoms
    refine ⟨⟨by simp, Nat.zero_le _⟩, ?_⟩
    intro _
    rw [hempty]
    rfl
  · cases hatoms
    have hlt : ∀ atom ∈ names.map lookup_atom, atom < 116 := by
      intro atom hatom
      obtain ⟨name, -, rfl⟩ := List.mem_map.mp hatom
      by_cases h0 : lookup_atom name = 0
      · rw [h0]
        norm_num
      · exact ((lookup_atom_iff name h0).mp rfl).1
    refine ⟨⟨hlt, ?_⟩, ?_⟩
    · have hfilter := List.length_filter_le (· ≠ 0) (names.map lookup_atom)
      rw [List.length_map] at hfilter
      exact hfilter.trans (Nat.not_lt.mp hlong)
    · intro h0
      have hfilter : (names.map lookup_atom).filter (· ≠ 0) = names.map lookup_atom := by
        apply List.filter_eq_self.mpr
        intro atom hatom
        have : atom ≠ 0 := fun h => h0 (h ▸ hatom)
        simpa using this
      have hback : (names.map lookup_atom).map get_atom_name = names := by
        rw [List.map_map]
        conv_rhs => rw [← List.map_id names]
        apply List.map_congr_left
        intro name hname
        have hne : lookup_atom name ≠ 0 := fun h =>
          h0 (h ▸ List.mem_map_of_mem hname)
        exact ((lookup_atom_iff name hne).mp rfl).2
      have hwritten : write_atoms 0 (names.map lookup_atom) = [44].intercalate names := by
        rw [write_atoms_eq, hfilter, hback]
      rw [atom_list, hwritten, List.append_assoc]

/-! ### The whole message -/

def kexinit.lists (kex : kexinit) : List (List ℕ) :=
  kex.kex_algorithms :: kex.server_hostkey_algorithms ::
    (kex.parameters ++ [kex.languages_client_to_server, kex.languages_server_to_client])

/-- What can be sent, and what is accepted. -/
structure WellFormed (kex : kexinit) : Prop where
  cookie : kex.cookie.length = 16
  parameters : kex.parameters.length = KEX_PARAMETERS
  lists : ∀ l ∈ kex.lists, Sendable l
  follows : kex.first_kex_packet_follows < 256

/-- The message without the unknown atoms. -/
def kexinit.known (kex : kexinit) : kexinit :=
  { kex with
    kex_algorithms := KeyExchange.known kex.kex_algorithms
    server_hostkey_algorithms := KeyExchange.known kex.server_hostkey_algorithms
    parameters := kex.parameters.map KeyExchange.known
    languages_client_to_server := KeyExchange.known kex.languages_client_to_server
    languages_server_to_client := KeyExchange.known kex.languages_server_to_client }

theorem six_parameters {parameters : List (List ℕ)} (h : parameters.length = KEX_PARAMETERS) :
    ∃ p₀ p₁ p₂ p₃ p₄ p₅, parameters = [p₀, p₁, p₂, p₃, p₄, p₅] := by
  obtain ⟨p₀, l₀, rfl⟩ := List.exists_cons_of_length_eq_add_one h
  obtain ⟨p₁, l₁, rfl⟩ := List.exists_cons_of_length_eq_add_one (Nat.succ.inj h)
  obtain ⟨p₂, l₂, rfl⟩ := List.exists_cons_of_length_eq_add_one (Nat.succ.inj (Nat.succ.inj h))
  have h : l₂.length = 3 := by
    simp only [List.length_cons, KEX_PARAMETERS] at h
    omega
  obtain ⟨p₃, p₄, p₅, rfl⟩ := List.length_eq_three.mp h
  exact ⟨p₀, p₁, p₂, p₃, p₄, p₅, rfl⟩

theorem format_kex_eq {kex : kexinit} (h : kex.parameters.length = KEX_PARAMETERS) :
    format_kex kex = some (20 :: (kex.cookie ++ ((kex.lists.map atom_list).flatten ++
      (UInt8.ofNat kex.first_kex_packet_follows :: WRITE_UINT32 0)))) := by
  obtain ⟨p₀, p₁, p₂, p₃, p₄, p₅, hp⟩ := six_parameters h
  rw [format_kex, ssh_format_plain (by decide)]
  simp [ssh_vformat_write, vformat, Options.add, no_options, Arg.fits, directive_write,
    write_counted, kexinit.lists, hp, atom_list, SSH_MSG_KEXINIT]

theorem parse_lists_written : ∀ {lists : List (List ℕ)} (r : List UInt8),
    (∀ l ∈ lists, Sendable l) → parse_lists lists.length ((lists.map atom_list).flatten ++ r) =
      some (lists.map known, r) := by
  intro lists
  induction lists with
  | nil =>
    intro r _
    rfl
  | cons l lists ih =>
    intro r hl
    have hrest := ih r fun l hmem => hl l (List.mem_cons_of_mem _ hmem)
    rw [List.map_cons, List.flatten_cons, List.append_assoc, List.length_cons, parse_lists,
      (hl l List.mem_cons_self).parse_atom_list, Option.bind_some, hrest]
    rfl

theorem parse_lists_known : ∀ {n : ℕ} {b r : List UInt8} {lists : List (List ℕ)},
    parse_lists n b = some (lists, r) → lists.length = n ∧ (∀ l ∈ lists, Sendable l) ∧
      ((∀ l ∈ lists, 0 ∉ l) → b = (lists.map atom_list).flatten ++ r) := by
  intro n
  induction n with
  | zero =>
    intro b r lists h
    cases h
    exact ⟨rfl, by simp, fun _ => rfl⟩
  | succ n ih =>
    intro b r lists h
    obtain ⟨⟨l, b'⟩, hl, h⟩ := Option.bind_eq_some_iff.mp h
    obtain ⟨⟨lists', r'⟩, hlists, hpair⟩ := Option.map_eq_some_iff.mp h
    cases hpair
    obtain ⟨hsend, hwritten⟩ := parse_atom_list_known hl
    obtain ⟨hlen, hsends, hrest⟩ := ih hlists
    refine ⟨congrArg (·+1) hlen, ?_, ?_⟩
    · intro l' hl'
      rcases List.mem_cons.mp hl' with rfl | hl'
      · exact hsend
      · exact hsends l' hl'
    · intro h0
      rw [hwritten (h0 l List.mem_cons_self), List.map_cons, List.flatten_cons,
        List.append_assoc, ← hrest fun l' hl' => h0 l' (List.mem_cons_of_mem _ hl')]

theorem ten_lists {lists : List (List ℕ)} (h : lists.length = NLISTS) :
    lists = lists.getD 0 [] :: lists.getD 1 [] ::
      ((List.range KEX_PARAMETERS).map (fun i => lists.getD (2+i) []) ++
        [lists.getD 8 [], lists.getD 9 []]) := by
  apply List.ext_getElem
  · rw [h]
    rfl
  · intro i hi hi'
    rw [h] at hi
    have hget : lists[i] = lists.getD i [] := (List.getD_eq_getElem _ _ _).symm
    rw [hget]
    unfold NLISTS at hi
    interval_cases i <;> rfl

/-- What is accepted is one octet, the cookie, ten lists and five octets. -/
theorem parse_kexinit_known {packet : List UInt8} {kex : kexinit}
    (h : parse_kexinit packet = some kex) :
    WellFormed kex ∧ ((∀ l ∈ kex.lists, 0 ∉ l) → format_kex kex = some packet) := by
  obtain ⟨⟨msg_number, r₁⟩, hnumber, h⟩ := Option.bind_eq_some_iff.mp h
  by_cases hkexinit : msg_number = SSH_MSG_KEXINIT
  swap
  · rw [if_pos hkexinit] at h
    cases h
  rw [if_neg (not_not.mpr hkexinit)] at h
  obtain ⟨⟨cookie, r₂⟩, hcookie, h⟩ := Option.bind_eq_some_iff.mp h
  obtain ⟨⟨lists, r₃⟩, hlists, h⟩ := Option.bind_eq_some_iff.mp h
  obtain ⟨⟨follows, r₄⟩, hfollows, h⟩ := Option.bind_eq_some_iff.mp h
  obtain ⟨⟨reserved, r₅⟩, hreserved, h⟩ := Option.bind_eq_some_iff.mp h
  by_cases hend : reserved ≠ 0 ∨ ¬ parse_eod r₅
  · rw [if_pos hend] at h
    cases h
  rw [if_neg hend] at h
  obtain ⟨hzero, heod⟩ := not_or.mp hend
  obtain ⟨-, rfl⟩ := parse_uint8_iff.mp hnumber
  obtain ⟨hlen, rfl⟩ := parse_octets_iff.mp hcookie
  obtain ⟨hten, hsend, hwritten⟩ := parse_lists_known hlists
  obtain ⟨hbyte, rfl⟩ := parse_uint8_iff.mp hfollows
  obtain ⟨-, rfl⟩ := parse_uint32_iff.mp hreserved
  have hr₅ : r₅ = [] := by simpa [parse_eod] using heod
  have hsame : kex.lists = lists := by
    cases h
    exact (ten_lists hten).symm
  have hparameters : kex.parameters.length = KEX_PARAMETERS := by
    cases h
    rfl
  rw [hsame]
  refine ⟨⟨?_, hparameters, hsame ▸ hsend, ?_⟩, ?_⟩
  · cases h
    exact hlen
  · cases h
    exact hbyte
  · intro hknown
    have hrest : r₂ = (lists.map atom_list).flatten ++
        UInt8.ofNat follows :: (WRITE_UINT32 reserved ++ r₅) := hwritten hknown
    rw [format_kex_eq hparameters, hsame, hrest, not_not.mp hzero, hkexinit, hr₅]
    cases h
    rw [List.append_nil]
    rfl

/-- What is sent is read as it was, but for the unknown atoms. -/
theorem parse_format_kex {kex : kexinit} (h : WellFormed kex) :
    ∃ packet, format_kex kex = some packet ∧ parse_kexinit packet = some kex.known := by
  refine ⟨_, format_kex_eq h.parameters, ?_⟩
  obtain ⟨p₀, p₁, p₂, p₃, p₄, p₅, hp⟩ := six_parameters h.parameters
  have hlen : kex.lists.length = NLISTS := by
    rw [kexinit.lists, hp]
    rfl
  have hlists := parse_lists_written
    (UInt8.ofNat kex.first_kex_packet_follows :: WRITE_UINT32 0) h.lists
  rw [hlen] at hlists
  have hcookie (r : List UInt8) : parse_octets 16 (kex.cookie ++ r) = some (kex.cookie, r) :=
    parse_octets_iff.mpr ⟨h.cookie, rfl⟩
  have hnumber (r : List UInt8) : parse_uint8 (20 :: r) = some (20, r) := rfl
  have hfollows : parse_boolean (UInt8.ofNat kex.first_kex_packet_follows :: WRITE_UINT32 0) =
      some (kex.first_kex_packet_follows, WRITE_UINT32 0) :=
    parse_uint8_iff.mpr ⟨h.follows, rfl⟩
  have hreserved : parse_uint32 (WRITE_UINT32 0) = some (0, []) :=
    parse_uint32_iff.mpr ⟨by norm_num, (List.append_nil _).symm⟩
  rw [parse_kexinit, hnumber, Option.bind_some, if_neg (by simp [SSH_MSG_KEXINIT]), hcookie,
    Option.bind_some, hlists, Option.bind_some, hfollows, Option.bind_some, hreserved,
    Option.bind_some, if_neg (by simp [parse_eod])]
  simp [kexinit.lists, kexinit.known, hp, KEX_PARAMETERS, List.range_succ]

/-- What is sent is read as it was, but for the unknown atoms; what is accepted could have
been sent, and without unknown atoms it is sent octet by octet as it was read. -/
theorem kexinit_round_trip :
    (∀ kex, WellFormed kex → ∃ packet, format_kex kex = some packet ∧
      parse_kexinit packet = some kex.known) ∧
    ∀ packet kex, parse_kexinit packet = some kex → WellFormed kex ∧
      ((∀ l ∈ kex.lists, 0 ∉ l) → format_kex kex = some packet) :=
  ⟨fun _ => parse_format_kex, fun _ _ => parse_kexinit_known⟩

/-- A proposal with an unknown algorithm among the ciphers. -/
def unknown_cipher : kexinit where
  cookie := List.replicate 16 0
  kex_algorithms := [24]
  server_hostkey_algorithms := [25]
  parameters := [[17, 0], [17], [20], [20], [1], [1]]
  languages_client_to_server := []
  languages_server_to_client := []
  first_kex_packet_follows := 0

theorem kexinit_round_trip_unknown : ∃ packet, format_kex unknown_cipher = some packet ∧
    parse_kexinit packet = some
      { unknown_cipher with parameters := [[17], [17], [20], [20], [1], [1]] } := by
  refine kexinit_round_trip.1 unknown_cipher ⟨List.length_replicate, rfl, ?_, by decide⟩
  intro l hl
  have hlists : unknown_cipher.lists =
      [[24], [25], [17, 0], [17], [20], [20], [1], [1], [], []] := rfl
  rw [hlists] at hl
  simp only [List.mem_cons, List.not_mem_nil, or_false] at hl
  rcases hl with rfl | rfl | rfl | rfl | rfl | rfl | rfl | rfl | rfl | rfl <;>
    exact ⟨by decide, by decide⟩

end KeyExchange
