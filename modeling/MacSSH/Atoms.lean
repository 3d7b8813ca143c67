import Mathlib.Data.List.GetD

/-! The names of algorithms, services and requests. A table gives the name of an atom, and a
hash function without collisions leads from a name to its atom. -/
namespace Atoms

def chars (s : String) : List UInt8 :=
  s.toUTF8.data.toList

/-- Name and length of each atom. -/
def atom_table : List (String × ℕ) :=
  [("UNKNOWN", 7), ("none", 4), ("zlib", 4), ("3des-cbc", 8), ("blowfish-cbc", 12),
   ("twofish256-cbc", 14), ("twofish-cbc", 11), ("twofish192-cbc", 14), ("twofish128-cbc", 14),
   ("aes256-cbc", 10), ("aes192-cbc", 10), ("aes128-cbc", 10), ("serpent256-cbc", 14),
   ("serpent192-cbc", 14), ("serpent128-cbc", 14), ("rijndael-cbc@lysator.liu.se", 27),
   ("serpent-cbc@lysator.liu.se", 26), ("arcfour", 7), ("idea-cbc", 8), ("cast128-cbc", 11),
   ("hmac-sha1", 9), ("hmac-sha1-96", 12), ("hmac-md5", 8), ("hmac-md5-96", 11),
   ("diffie-hellman-group1-sha1", 26), ("ssh-dss", 7), ("ssh-rsa", 7), ("x509v3-sign-rsa", 15),
   ("x509v3-sign-dss", 15), ("spki-sign-rsa", 13), ("spki-sign-dss", 13), ("pgp-sign-rsa", 12),
   ("pgp-sign-dss", 12), ("ssh-dss-kludge@lysator.liu.se", 29), ("ssh-userauth", 12),
   ("ssh-connection", 14), ("publickey", 9), ("password", 8), ("hostbased", 9), ("session", 7),
   ("pty-req", 7), ("x11-req", 7), ("x11", 3), ("auth-agent-req", 14), ("auth-agent", 10),
   ("auth-ssh1-agent-req", 19), ("auth-ssh1-agent", 15), ("env", 3), ("shell", 5), ("exec", 4),
   ("subsystem", 9), ("window-change", 13), ("xon-xoff", 8), ("signal", 6),
   ("exit-status", 11), ("exit-signal", 11), ("tcpip-forward", 13),
   ("cancel-tcpip-forward", 20), ("forwarded-tcpip", 15), ("direct-tcpip", 12), ("ABRT", 4),
   ("ALRM", 4), ("FPE", 3), ("HUP", 3), ("ILL", 3), ("INT", 3), ("KILL", 4), ("PIPE", 4),
   ("QUIT", 4), ("SEGV", 4), ("TERM", 4), ("USR1", 4), ("USR2", 4),
   ("signal-unknown@lysator.liu.se", 29), ("private-key", 11), ("public-key", 10), ("dsa", 3),
   ("p", 1), ("q", 1), ("g", 1), ("y", 1), ("x", 1), ("r", 1), ("s", 1),
   ("rsa-pkcs1-sha1", 14), ("rsa-pkcs1-md5", 13), ("n", 1), ("e", 1), ("d", 1), ("a", 1),
   ("b", 1), ("c", 1), ("hash", 4), ("md5", 3), ("sha1", 4), ("password-encrypted", 18),
   ("Xpkcs5v2", 8), ("iterations", 10), ("salt", 4), ("data", 4), ("iv", 2), ("sequence", 8),
   ("certificate", 11), ("signature", 9), ("name", 4), ("acl", 3), ("version", 7),
   ("entry", 5), ("propagate", 9), ("tag", 3), ("prefix", 6), ("set", 3), ("*", 1),
   ("srp-ring1-sha1@lysator.liu.se", 29), ("srp-verifier", 12), ("ssh-ring1", 9)]

def get_atom_length (atom : ℕ) : ℕ :=
  (atom_table.getD atom ("", 0)).2

def get_atom_name (atom : ℕ) : List UInt8 :=
  chars (atom_table.getD atom ("", 0)).1

def MIN_WORD_LENGTH : ℕ := 1

def MAX_WORD_LENGTH : ℕ := 29

def MAX_HASH_VALUE : ℕ := 488

def asso_values : List ℕ :=
  [489, 489, 489, 489, 489, 489, 489, 489, 489, 489, 489, 489, 489, 489, 489, 489, 489, 489,
   489, 489, 489, 489, 489, 489, 489, 489, 489, 489, 489, 489, 489, 489, 489, 489, 489, 489,
   489, 489, 489, 489, 489, 489, 5, 489, 489, 0, 489, 489, 0, 30, 45, 20, 489, 10, 50, 489, 20,
   0, 489, 489, 489, 489, 489, 489, 489, 12, 489, 489, 489, 35, 5, 55, 40, 35, 489, 50, 5, 10,
   489, 489, 0, 15, 0, 0, 0, 60, 0, 489, 5, 489, 489, 489, 489, 489, 489, 489, 489, 40, 85,
   108, 90, 125, 50, 60, 0, 65, 0, 125, 5, 35, 65, 10, 75, 25, 45, 0, 0, 25, 0, 10, 80, 105,
   35, 489, 489, 489, 489, 489, 489, 489, 489, 489, 489, 489, 489, 489, 489, 489, 489, 489,
   489, 489, 489, 489, 489, 489, 489, 489, 489, 489, 489, 489, 489, 489, 489, 489, 489, 489,
   489, 489, 489, 489, 489, 489, 489, 489, 489, 489, 489, 489, 489, 489, 489, 489, 489, 489,
   489, 489, 489, 489, 489, 489, 489, 489, 489, 489, 489, 489, 489, 489, 489, 489, 489, 489,
   489, 489, 489, 489, 489, 489, 489, 489, 489, 489, 489, 489, 489, 489, 489, 489, 489, 489,
   489, 489, 489, 489, 489, 489, 489, 489, 489, 489, 489, 489, 489, 489, 489, 489, 489, 489,
   489, 489, 489, 489, 489, 489, 489, 489, 489, 489, 489, 489, 489, 489, 489, 489, 489, 489,
   489, 489, 489, 489, 489, 489, 489, 489]

def lengthtable : List ℕ :=
  [0, 1, 0, 3, 4, 0, 0, 7, 0, 4, 0, 1, 0, 0, 4, 0, 4, 0, 0, 0, 0, 0, 0, 0, 0, 0, 4, 0, 0, 0, 0,
   0, 0, 0, 0, 0, 0, 12, 3, 4, 0, 0, 0, 3, 0, 0, 0, 7, 3, 0, 0, 1, 0, 3, 4, 15, 0, 0, 3, 4, 0,
   0, 0, 0, 4, 0, 0, 2, 0, 0, 0, 0, 0, 0, 4, 0, 6, 0, 3, 9, 0, 1, 7, 0, 19, 0, 0, 0, 0, 0, 10,
   1, 0, 8, 4, 0, 0, 0, 0, 0, 0, 0, 12, 0, 9, 0, 0, 0, 0, 4, 0, 0, 0, 0, 0, 0, 0, 0, 0, 14, 0,
   1, 0, 3, 0, 0, 0, 7, 3, 9, 0, 1, 0, 0, 4, 5, 11, 0, 13, 9, 0, 0, 0, 3, 0, 0, 0, 0, 0, 0, 0,
   1, 14, 0, 0, 0, 0, 0, 0, 29, 0, 1, 0, 0, 0, 0, 0, 0, 0, 0, 0, 1, 0, 3, 0, 15, 0, 14, 13, 0,
   0, 1, 14, 8, 0, 0, 0, 0, 13, 4, 0, 0, 0, 8, 9, 0, 0, 14, 0, 0, 10, 0, 0, 0, 0, 0, 0, 0, 0,
   0, 0, 1, 0, 8, 11, 15, 0, 1, 0, 0, 0, 0, 0, 8, 0, 7, 11, 0, 0, 4, 15, 0, 0, 13, 0, 5, 0, 0,
   0, 0, 0, 0, 0, 0, 0, 0, 11, 0, 0, 0, 0, 1, 14, 0, 14, 0, 0, 0, 0, 4, 0, 0, 0, 13, 0, 0, 0,
   7, 0, 0, 0, 0, 0, 0, 0, 0, 0, 14, 0, 9, 0, 0, 14, 0, 0, 0, 10, 0, 0, 0, 0, 0, 0, 0, 29, 0,
   0, 12, 0, 0, 0, 0, 0, 0, 0, 0, 0, 0, 0, 0, 0, 10, 12, 0, 0, 0, 10, 12, 18, 0, 0, 0, 12, 0,
   0, 0, 26, 0, 0, 0, 0, 0, 0, 0, 0, 0, 0, 7, 0, 11, 0, 0, 0, 0, 29, 27, 26, 0, 0, 0, 0, 0, 0,
   0, 0, 0, 0, 11, 0, 0, 0, 0, 4, 20, 0, 0, 6, 0, 0, 8, 0, 0, 0, 0, 0, 0, 0, 0, 0, 0, 0, 11, 9,
   0, 0, 0, 0, 0, 12, 0, 0, 0, 0, 0, 0, 0, 0, 0, 0, 0, 0, 0, 0, 0, 0, 0, 0, 0, 0, 0, 0, 0, 0,
   0, 8, 0, 0, 0, 0, 0, 0, 0, 0, 0, 0, 0, 0, 0, 0, 0, 0, 0, 0, 0, 0, 0, 0, 0, 0, 0, 0, 0, 0, 0,
   0, 0, 0, 0, 0, 0, 0, 0, 0, 0, 0, 0, 0, 0, 0, 0, 0, 0, 0, 0, 0, 0, 0, 0, 0, 0, 0, 0, 0, 0, 0,
   0, 0, 0, 0, 0, 0, 0, 0, 0, 0, 0, 0, 0, 10]

/-- The words, each at its hash value, with their atoms. -/
def wordlist : List (String × ℕ) :=
  [("", 0), ("s", 83), ("", 0), ("set", 111), ("hash", 92), ("", 0), ("", 0), ("ssh-dss", 25),
   ("", 0), ("salt", 98), ("", 0), ("*", 112), ("", 0), ("", 0), ("TERM", 70), ("", 0),
   ("ABRT", 60), ("", 0), ("", 0), ("", 0), ("", 0), ("", 0), ("", 0), ("", 0), ("", 0),
   ("", 0), ("ALRM", 61), ("", 0), ("", 0), ("", 0), ("", 0), ("", 0), ("", 0), ("", 0),
   ("", 0), ("", 0), ("", 0), ("ssh-userauth", 34), ("INT", 65), ("PIPE", 67), ("", 0),
   ("", 0), ("", 0), ("HUP", 63), ("", 0), ("", 0), ("", 0), ("ssh-rsa", 26), ("ILL", 64),
   ("", 0), ("", 0), ("q", 78), ("", 0), ("acl", 105), ("QUIT", 68), ("auth-ssh1-agent", 46),
   ("", 0), ("", 0), ("md5", 93), ("SEGV", 69), ("", 0), ("", 0), ("", 0), ("", 0),
   ("KILL", 66), ("", 0), ("", 0), ("iv", 100), ("", 0), ("", 0), ("", 0), ("", 0), ("", 0),
   ("", 0), ("sha1", 94), ("", 0), ("signal", 53), ("", 0), ("FPE", 62), ("hmac-sha1", 20),
   ("", 0), ("a", 89), ("session", 39), ("", 0), ("auth-ssh1-agent-req", 45), ("", 0), ("", 0),
   ("", 0), ("", 0), ("", 0), ("auth-agent", 44), ("r", 82), ("", 0), ("hmac-md5", 22),
   ("USR1", 71), ("", 0), ("", 0), ("", 0), ("", 0), ("", 0), ("", 0), ("", 0),
   ("hmac-sha1-96", 21), ("", 0), ("ssh-ring1", 115), ("", 0), ("", 0), ("", 0), ("", 0),
   ("USR2", 72), ("", 0), ("", 0), ("", 0), ("", 0), ("", 0), ("", 0), ("", 0), ("", 0),
   ("", 0), ("auth-agent-req", 43), ("", 0), ("g", 79), ("", 0), ("tag", 109), ("", 0),
   ("", 0), ("", 0), ("version", 106), ("env", 47), ("subsystem", 50), ("", 0), ("n", 86),
   ("", 0), ("", 0), ("data", 99), ("shell", 48), ("hmac-md5-96", 23), ("", 0),
   ("spki-sign-dss", 30), ("hostbased", 38), ("", 0), ("", 0), ("", 0), ("x11", 42), ("", 0),
   ("", 0), ("", 0), ("", 0), ("", 0), ("", 0), ("", 0), ("p", 77), ("twofish128-cbc", 8),
   ("", 0), ("", 0), ("", 0), ("", 0), ("", 0), ("", 0), ("ssh-dss-kludge@lysator.liu.se", 33),
   ("", 0), ("x", 81), ("", 0), ("", 0), ("", 0), ("", 0), ("", 0), ("", 0), ("", 0), ("", 0),
   ("", 0), ("b", 90), ("", 0), ("dsa", 76), ("", 0), ("x509v3-sign-dss", 28), ("", 0),
   ("twofish192-cbc", 7), ("spki-sign-rsa", 29), ("", 0), ("", 0), ("d", 88),
   ("twofish256-cbc", 5), ("password", 37), ("", 0), ("", 0), ("", 0), ("", 0),
   ("tcpip-forward", 56), ("zlib", 2), ("", 0), ("", 0), ("", 0), ("Xpkcs5v2", 96),
   ("signature", 103), ("", 0), ("", 0), ("ssh-connection", 35), ("", 0), ("", 0),
   ("iterations", 97), ("", 0), ("", 0), ("", 0), ("", 0), ("", 0), ("", 0), ("", 0), ("", 0),
   ("", 0), ("", 0), ("y", 80), ("", 0), ("xon-xoff", 52), ("twofish-cbc", 6),
   ("x509v3-sign-rsa", 27), ("", 0), ("c", 91), ("", 0), ("", 0), ("", 0), ("", 0), ("", 0),
   ("sequence", 101), ("", 0), ("arcfour", 17), ("exit-status", 54), ("", 0), ("", 0),
   ("name", 104), ("forwarded-tcpip", 58), ("", 0), ("", 0), ("rsa-pkcs1-md5", 85), ("", 0),
   ("entry", 107), ("", 0), ("", 0), ("", 0), ("", 0), ("", 0), ("", 0), ("", 0), ("", 0),
   ("", 0), ("", 0), ("exit-signal", 55), ("", 0), ("", 0), ("", 0), ("", 0), ("e", 87),
   ("serpent128-cbc", 14), ("", 0), ("rsa-pkcs1-sha1", 84), ("", 0), ("", 0), ("", 0), ("", 0),
   ("none", 1), ("", 0), ("", 0), ("", 0), ("window-change", 51), ("", 0), ("", 0), ("", 0),
   ("x11-req", 41), ("", 0), ("", 0), ("", 0), ("", 0), ("", 0), ("", 0), ("", 0), ("", 0),
   ("", 0), ("serpent192-cbc", 13), ("", 0), ("propagate", 108), ("", 0), ("", 0),
   ("serpent256-cbc", 12), ("", 0), ("", 0), ("", 0), ("aes128-cbc", 11), ("", 0), ("", 0),
   ("", 0), ("", 0), ("", 0), ("", 0), ("", 0), ("srp-ring1-sha1@lysator.liu.se", 113),
   ("", 0), ("", 0), ("direct-tcpip", 59), ("", 0), ("", 0), ("", 0), ("", 0), ("", 0),
   ("", 0), ("", 0), ("", 0), ("", 0), ("", 0), ("", 0), ("", 0), ("", 0), ("aes192-cbc", 10),
   ("pgp-sign-rsa", 31), ("", 0), ("", 0), ("", 0), ("aes256-cbc", 9), ("pgp-sign-dss", 32),
   ("password-encrypted", 95), ("", 0), ("", 0), ("", 0), ("srp-verifier", 114), ("", 0),
   ("", 0), ("", 0), ("diffie-hellman-group1-sha1", 24), ("", 0), ("", 0), ("", 0), ("", 0),
   ("", 0), ("", 0), ("", 0), ("", 0), ("", 0), ("", 0), ("pty-req", 40), ("", 0),
   ("certificate", 102), ("", 0), ("", 0), ("", 0), ("", 0),
   ("signal-unknown@lysator.liu.se", 73), ("rijndael-cbc@lysator.liu.se", 15),
   ("serpent-cbc@lysator.liu.se", 16), ("", 0), ("", 0), ("", 0), ("", 0), ("", 0), ("", 0),
   ("", 0), ("", 0), ("", 0), ("", 0), ("cast128-cbc", 19), ("", 0), ("", 0), ("", 0), ("", 0),
   ("exec", 49), ("cancel-tcpip-forward", 57), ("", 0), ("", 0), ("prefix", 110), ("", 0),
   ("", 0), ("3des-cbc", 3), ("", 0), ("", 0), ("", 0), ("", 0), ("", 0), ("", 0), ("", 0),
   ("", 0), ("", 0), ("", 0), ("", 0), ("private-key", 74), ("publickey", 36), ("", 0),
   ("", 0), ("", 0), ("", 0), ("", 0), ("blowfish-cbc", 4), ("", 0), ("", 0), ("", 0), ("", 0),
   ("", 0), ("", 0), ("", 0), ("", 0), ("", 0), ("", 0), ("", 0), ("", 0), ("", 0), ("", 0),
   ("", 0), ("", 0), ("", 0), ("", 0), ("", 0), ("", 0), ("", 0), ("", 0), ("", 0), ("", 0),
   ("", 0), ("idea-cbc", 18), ("", 0), ("", 0), ("", 0), ("", 0), ("", 0), ("", 0), ("", 0),
   ("", 0), ("", 0), ("", 0), ("", 0), ("", 0), ("", 0), ("", 0), ("", 0), ("", 0), ("", 0),
   ("", 0), ("", 0), ("", 0), ("", 0), ("", 0), ("", 0), ("", 0), ("", 0), ("", 0), ("", 0),
   ("", 0), ("", 0), ("", 0), ("", 0), ("", 0), ("", 0), ("", 0), ("", 0), ("", 0), ("", 0),
   ("", 0), ("", 0), ("", 0), ("", 0), ("", 0), ("", 0), ("", 0), ("", 0), ("", 0), ("", 0),
   ("", 0), ("", 0), ("", 0), ("", 0), ("", 0), ("", 0), ("", 0), ("", 0), ("", 0), ("", 0),
   ("", 0), ("", 0), ("", 0), ("", 0), ("", 0), ("", 0), ("", 0), ("", 0), ("", 0), ("", 0),
   ("", 0), ("", 0), ("", 0), ("", 0), ("", 0), ("", 0), ("public-key", 75)]

/-- The cases of the switch fall through to the shorter ones. -/
def hash (str : List UInt8) : ℕ :=
  let asso (i : ℕ) : ℕ := asso_values.getD (str.getD i 0).toNat 0
  let len := str.length
  let hval := len
  let hval := if len = 0 ∨ 10 ≤ len then hval+asso 9 else hval
  let hval := if len = 0 ∨ 6 ≤ len then hval+asso 5 else hval
  let hval := if len = 0 ∨ 3 ≤ len then hval+asso 2 else hval
  let hval := hval+asso 0
  hval+asso (len-1)

/-- Whether `strncmp` finds the first `n` characters equal; the strings end with a NUL. -/
def strncmp : ℕ → List UInt8 → List UInt8 → Bool
  | 0, _, _ => true
  | n+1, s, t => s.headD 0 == t.headD 0 && (s.headD 0 == 0 || strncmp n s.tail t.tail)

def gperf_atom (str : List UInt8) : Option (String × ℕ) :=
  if str.length ≤ MAX_WORD_LENGTH ∧ MIN_WORD_LENGTH ≤ str.length then
    let key := hash str
    if key ≤ MAX_HASH_VALUE then
      if str.length = lengthtable.getD key 0 then
        let pair := wordlist.getD key ("", 0)
        let s := chars pair.1
        if str.headD 0 = s.headD 0 ∧ strncmp (str.length-1) str.tail s.tail then some pair
        else none
      else none
    else none
  else none

def lookup_atom (name : List UInt8) : ℕ :=
  match gperf_atom name with
  | none => 0
  | some pair => pair.2

/-! ### The tables -/

/-- How the tables go together. -/
structure TablesAgree : Prop where
  /-- A word of the list has the name of its atom, no NUL in it, and the length that the other
  table gives. -/
  named : ∀ entry ∈ wordlist.zip lengthtable, entry.1.2 ≠ 0 →
    entry.1.2 < 116 ∧ (atom_table.getD entry.1.2 ("", 0)).1 = entry.1.1 ∧
      (chars entry.1.1).length = entry.2 ∧ MIN_WORD_LENGTH ≤ entry.2 ∧
      entry.2 ≤ MAX_WORD_LENGTH ∧ 0 ∉ chars entry.1.1
  counted : ∀ entry ∈ atom_table, (chars entry.1).length = entry.2
  /-- A word stands at its hash value. -/
  hashed : ∀ entry ∈ wordlist.zipIdx, entry.1.2 ≠ 0 → hash (chars entry.1.1) = entry.2
  listed : ∀ atom < 116, atom ≠ 0 → atom ∈ wordlist.map Prod.snd
  length_wordlist : wordlist.length = MAX_HASH_VALUE+1
  length_lengthtable : lengthtable.length = MAX_HASH_VALUE+1

/-- What stands in the tables at a hash value. -/
theorem word_at (h : TablesAgree) {key : ℕ} (hkey : key ≤ MAX_HASH_VALUE) :
    (wordlist.getD key ("", 0), lengthtable.getD key 0) ∈ wordlist.zip lengthtable ∧
      (wordlist.getD key ("", 0), key) ∈ wordlist.zipIdx := by
  have hword : key < wordlist.length := by
    rw [h.length_wordlist]
    omega
  have hlength : key < lengthtable.length := by
    rw [h.length_lengthtable]
    omega
  rw [List.getD_eq_getElem _ _ hword, List.getD_eq_getElem _ _ hlength]
  constructor
  · apply List.mem_iff_getElem.mpr
    refine ⟨key, ?_, ?_⟩
    · rw [List.length_zip]
      omega
    · rw [List.getElem_zip]
  · apply List.mk_mem_zipIdx_iff_getElem?.mpr
    exact List.getElem?_eq_getElem hword

theorem strncmp_self : ∀ (n : ℕ) (s : List UInt8), strncmp n s s = true := by
  intro n
  induction n with
  | zero =>
    intro s
    rfl
  | succ n ih =>
    intro s
    simp only [strncmp, ih, beq_self_eq_true, Bool.or_true, Bool.and_self]

theorem strncmp_eq : ∀ (n : ℕ) {s t : List UInt8}, s.length = n → t.length = n → 0 ∉ t →
    strncmp n s t = true → s = t := by
  intro n
  induction n with
  | zero =>
    intro s t hs ht _ _
    rw [List.length_eq_zero_iff.mp hs, List.length_eq_zero_iff.mp ht]
  | succ n ih =>
    intro s t hs ht h0 h
    obtain ⟨a, s, rfl⟩ := List.exists_cons_of_length_eq_add_one hs
    obtain ⟨b, t, rfl⟩ := List.exists_cons_of_length_eq_add_one ht
    simp only [strncmp, List.headD_cons, List.tail_cons, Bool.and_eq_true, Bool.or_eq_true,
      beq_iff_eq] at h
    obtain ⟨rfl, hrest⟩ := h
    have ha : a ≠ 0 := fun ha => h0 (by rw [ha]; exact List.mem_cons_self)
    have htail := ih (Nat.succ.inj hs) (Nat.succ.inj ht)
      (fun hmem => h0 (List.mem_cons_of_mem _ hmem)) (hrest.resolve_left ha)
    rw [htail]

/-- The word that stands at a hash value is found, if it is one. -/
theorem gperf_atom_word (h : TablesAgree) {key : ℕ} (hkey : key ≤ MAX_HASH_VALUE)
    (hatom : (wordlist.getD key ("", 0)).2 ≠ 0) :
    gperf_atom (chars (wordlist.getD key ("", 0)).1) = some (wordlist.getD key ("", 0)) := by
  obtain ⟨hzip, hidx⟩ := word_at h hkey
  obtain ⟨-, -, hlen, hmin, hmax, -⟩ := h.named _ hzip hatom
  have hhash : hash (chars (wordlist.getD key ("", 0)).1) = key := h.hashed _ hidx hatom
  have hlen : (chars (wordlist.getD key ("", 0)).1).length = lengthtable.getD key 0 := hlen
  simp only [gperf_atom, hhash]
  rw [if_pos ⟨by rw [hlen]; exact hmax, by rw [hlen]; exact hmin⟩, if_pos hkey, if_pos hlen]
  exact if_pos ⟨trivial, strncmp_self _ _⟩

/-- What is found is a word of the list, and the string is that word. -/
theorem gperf_atom_found (htables : TablesAgree) {str : List UInt8} {pair : String × ℕ}
    (hatom : pair.2 ≠ 0) (h : gperf_atom str = some pair) :
    pair.2 < 116 ∧ get_atom_name pair.2 = str := by
  simp only [gperf_atom] at h
  split at h
  case isFalse => cases h
  case isTrue hbounds =>
  split at h
  case isFalse => cases h
  case isTrue hkey =>
  split at h
  case isFalse => cases h
  case isTrue hsize =>
  split at h
  case isFalse => cases h
  case isTrue hsame =>
  have hword : wordlist.getD (hash str) ("", 0) = pair := Option.some.inj h
  obtain ⟨hlt, hname, hlen, hmin, -, hzero⟩ := htables.named _ (word_at htables hkey).1
    (by rw [hword]; exact hatom)
  rw [hword] at hlt hname hlen hzero hsame
  obtain ⟨hhead, htail⟩ := hsame
  have hlen : (chars pair.1).length = str.length := hlen.trans hsize.symm
  refine ⟨hlt, ?_⟩
  have hchars : get_atom_name pair.2 = chars pair.1 := congrArg chars hname
  rw [hchars]
  -- the first characters are compared apart from the others
  obtain ⟨a, s, rfl⟩ := List.exists_cons_of_length_pos (hbounds.2 : 0 < str.length)
  obtain ⟨b, t, hbt⟩ := List.exists_cons_of_length_pos
    (by rw [hlen]; exact Nat.succ_pos _ : 0 < (chars pair.1).length)
  rw [hbt] at hhead htail hlen hzero ⊢
  have htails : s = t := strncmp_eq s.length rfl (Nat.succ.inj hlen)
    (fun hmem => hzero (List.mem_cons_of_mem _ hmem)) htail
  have hheads : a = b := hhead
  rw [hheads, htails]

theorem tables_agree : TablesAgree := by
  constructor <;> decide +kernel

/-- The length of a name is the one in the table, also outside of the table. -/
theorem length_name (atom : ℕ) : (get_atom_name atom).length = get_atom_length atom := by
  by_cases hatom : atom < atom_table.length
  · have hentry : atom_table.getD atom ("", 0) ∈ atom_table := by
      rw [List.getD_eq_getElem _ _ hatom]
      exact List.getElem_mem hatom
    exact tables_agree.counted _ hentry
  · have hnone : atom_table.getD atom ("", 0) = ("", 0) :=
      List.getD_eq_default _ _ (Nat.not_lt.mp hatom)
    rw [get_atom_name, get_atom_length, hnone]
    rfl

/-- A name leads to an atom exactly when it is the name of that atom. -/
theorem lookup_atom_iff (name : List UInt8) {atom : ℕ} (hatom : atom ≠ 0) :
    lookup_atom name = atom ↔ atom < 116 ∧ get_atom_name atom = name := by
  constructor
  · intro h
    cases hpair : gperf_atom name with
    | none =>
      rw [lookup_atom, hpair] at h
      exact absurd h.symm hatom
    | some pair =>
      rw [lookup_atom, hpair] at h
      have h : pair.2 = atom := h
      rw [← h] at hatom ⊢
      exact gperf_atom_found tables_agree hatom hpair
  · rintro ⟨hlt, rfl⟩
    obtain ⟨entry, hentry, rfl⟩ := List.mem_map.mp (tables_agree.listed atom hlt hatom)
    obtain ⟨key, hkey, rfl⟩ := List.mem_iff_getElem.mp hentry
    have hle : key ≤ MAX_HASH_VALUE := by
      rw [tables_agree.length_wordlist] at hkey
      omega
    have hword : wordlist.getD key ("", 0) = wordlist[key] := List.getD_eq_getElem _ _ hkey
    obtain ⟨-, hname, -⟩ := tables_agree.named _ (word_at tables_agree hle).1
      (by rw [hword]; exact hatom)
    have hfound := gperf_atom_word tables_agree hle (by rw [hword]; exact hatom)
    rw [hword] at hname hfound
    have hchars : get_atom_name wordlist[key].2 = chars wordlist[key].1 := congrArg chars hname
    rw [hchars, lookup_atom, hfound]

/-- The hash function finds what a search through the table of names would find. -/
theorem lookup_atom_searched (name : List UInt8) :
    lookup_atom name =
      ((List.range 116).find? fun atom => atom ≠ 0 ∧ get_atom_name atom = name).getD 0 := by
  cases hfind : (List.range 116).find? fun atom => atom ≠ 0 ∧ get_atom_name atom = name with
  | none =>
    by_cases h0 : lookup_atom name = 0
    · exact h0
    · have hfound := (lookup_atom_iff name h0).mp rfl
      have hnone := List.find?_eq_none.mp hfind _ (List.mem_range.mpr hfound.1)
      exact absurd (decide_eq_true ⟨h0, hfound.2⟩) hnone
  | some atom =>
    have htrue := @List.find?_some _
      (fun atom => decide (atom ≠ 0 ∧ get_atom_name atom = name)) _ _ hfind
    have hsome : atom ≠ 0 ∧ get_atom_name atom = name := of_decide_eq_true htrue
    have hlt := List.mem_range.mp (List.mem_of_find?_eq_some hfind)
    exact (lookup_atom_iff name hsome.1).mpr ⟨hlt, hsome.2⟩

end Atoms
