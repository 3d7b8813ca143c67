import Mathlib.Algebra.GroupWithZero.Nat
import MacSSH.TelnetSuboptions

/-! The replies with environment variables: what the host reads in them, and their
length. -/
namespace Telnet

open WindRec

/-- Variables of the protocol, their values, and the quote of an octet. -/
abbrev NEW_ENV_VAR : UInt8 := 0
abbrev NEW_ENV_VALUE : UInt8 := 1
abbrev ENV_ESC : UInt8 := 2
abbrev ENV_USERVAR : UInt8 := 3

abbrev OPT_REPLY_SIZE : ℕ := 256

def env_opt_start : List UInt8 := [TEL_IAC, TEL_SB, N_NEW_ENVIRON, TNQ_IS]

def env_opt_end : List UInt8 := [TEL_IAC, TEL_SE]

/-- The octets that are stored for the variables `vars`, from first to last. -/
def env_opt_octets (vars : List (List UInt8 × List UInt8)) : List UInt8 :=
  env_opt_start ++ vars.flatMap (fun v => env_opt_add v.1 v.2) ++ env_opt_end

/-- `*opt_replyp++ = c`, with the octets of `opt_reply` before `opt_replyp`. The code does not
test for the end of the array, and nothing is promised of what a store behind it meets. -/
def env_opt_store (reply : List UInt8) (c : UInt8) : Option (List UInt8) :=
  if reply.length < OPT_REPLY_SIZE then some (reply ++ [c]) else none

/-- The stores one call makes. -/
def env_opt_stores (reply octets : List UInt8) : Option (List UInt8) :=
  octets.foldlM env_opt_store reply

/-- The reply for the variables `vars`, when no store is behind the end of `opt_reply`. -/
def env_opt_reply (vars : List (List UInt8 × List UInt8)) : Option (List UInt8) := do
  let reply ← env_opt_stores [] env_opt_start
  let reply ← vars.foldlM (fun reply v => env_opt_stores reply (env_opt_add v.1 v.2)) reply
  env_opt_stores reply env_opt_end

theorem newEnvironReply_eq (tw : WindRec) : newEnvironReply tw =
    env_opt_octets [([85, 83, 69, 82], tw.cfg.username.takeWhile (· ≠ 0))] := by
  rw [env_opt_octets, List.flatMap_singleton]
  rfl

/-- A variable as the host reads it; `known` ones are named by the protocol. -/
structure EnvVar where
  known : Bool
  name : List UInt8
  value : Option (List UInt8)
  deriving DecidableEq

/-- What an octet means, once its quote has been undone. -/
inductive EnvToken where
  | variable (known : Bool)
  | value
  | octet (c : UInt8)
  deriving DecidableEq

/-- An octet more of what was read last, the value or the name. -/
def EnvVar.push (v : EnvVar) (c : UInt8) : EnvVar :=
  match v.value with
  | none => { v with name := v.name ++ [c] }
  | some value => { v with value := some (value ++ [c]) }

/-- Undo the doubling of `IAC` up to the end of a suboption. Any other octet behind an
`IAC` is an error, and so is anything behind the end. -/
def undouble : List UInt8 → Option (List UInt8)
  | [] => none
  | [_] => none
  | c :: d :: rest =>
    if c = TEL_IAC then
      if d = TEL_IAC then (undouble rest).map (TEL_IAC :: ·)
      else if d = TEL_SE ∧ rest = [] then some []
      else none
    else (undouble (d :: rest)).map (c :: ·)

/-- Undo the quotes. -/
def unquote : List UInt8 → Option (List EnvToken)
  | [] => some []
  | c :: rest =>
    if c = NEW_ENV_VAR then (unquote rest).map (.variable true :: ·)
    else if c = ENV_USERVAR then (unquote rest).map (.variable false :: ·)
    else if c = NEW_ENV_VALUE then (unquote rest).map (.value :: ·)
    else if c = ENV_ESC then
      match rest with
      | [] => none
      | d :: rest => (unquote rest).map (.octet d :: ·)
    else (unquote rest).map (.octet c :: ·)

/-- The variables of a list of tokens, behind the variable `v` that is being read. -/
def readVars (v : Option EnvVar) : List EnvToken → Option (List EnvVar)
  | [] => some v.toList
  | .variable known :: ts =>
    (readVars (some ⟨known, [], none⟩) ts).map (v.toList ++ ·)
  | .value :: ts =>
    match v with
    | some ⟨known, name, none⟩ => readVars (some ⟨known, name, some []⟩) ts
    | _ => none
  | .octet c :: ts =>
    match v with
    | some v => readVars (some (v.push c)) ts
    | none => none

/-- The variables of a suboption, up to its end. -/
def readEnviron (body : List UInt8) : Option (List EnvVar) :=
  ((undouble body).bind unquote).bind (readVars none)

/-- The variables of a reply. -/
def readReply : List UInt8 → Option (List EnvVar)
  | a :: b :: c :: d :: body =>
    if [a, b, c, d] = env_opt_start then readEnviron body else none
  | _ => none

/-- Every `IAC` is followed by another one. -/
def Doubled : List UInt8 → Prop
  | [] => True
  | [c] => c ≠ TEL_IAC
  | c :: d :: rest => if c = TEL_IAC then d = TEL_IAC ∧ Doubled rest else Doubled (d :: rest)

section Quoting

/-- The two layers of quotes: the octets that mean something in the suboption, and `IAC`. -/
def escape (c : UInt8) : List UInt8 := if c = 0 ∨ c = 1 ∨ c = 2 ∨ c = 3 then [ENV_ESC, c] else [c]

def double (c : UInt8) : List UInt8 := if c = TEL_IAC then [TEL_IAC, c] else [c]

theorem env_quote_layers (c : UInt8) : env_quote c = (escape c).flatMap double := by
  rw [env_quote, escape]
  by_cases hiac : c = TEL_IAC
  · subst hiac
    rfl
  · rw [if_neg hiac]
    have hsingle : double c = [c] := if_neg hiac
    split_ifs
    · rw [List.flatMap_cons, List.flatMap_singleton, hsingle]
      rfl
    · rw [List.flatMap_singleton, hsingle]

theorem quoted_layers (text : List UInt8) :
    text.flatMap env_quote = (text.flatMap escape).flatMap double := by
  rw [List.flatMap_assoc]
  exact List.flatMap_congr fun c _ => env_quote_layers c

/-- The octets of a variable before `IAC` is doubled. -/
def plainVar (v : List UInt8 × List UInt8) : List UInt8 :=
  (if opt_welldefined v.1 then NEW_ENV_VAR else ENV_USERVAR) :: v.1.flatMap escape ++
    NEW_ENV_VALUE :: v.2.flatMap escape

theorem env_opt_add_layers (name value : List UInt8) :
    env_opt_add name value = (plainVar (name, value)).flatMap double := by
  rw [env_opt_add, plainVar, quoted_layers, quoted_layers, List.flatMap_append, List.flatMap_cons,
    List.flatMap_cons]
  split_ifs <;> rfl

theorem env_opt_body (vars : List (List UInt8 × List UInt8)) :
    vars.flatMap (fun v => env_opt_add v.1 v.2) = (vars.flatMap plainVar).flatMap double := by
  rw [List.flatMap_assoc]
  exact List.flatMap_congr fun v _ => env_opt_add_layers v.1 v.2

/-- Whatever is doubled is read back, up to the end of the suboption. -/
theorem undouble_doubled (text : List UInt8) :
    undouble (text.flatMap double ++ env_opt_end) = some text := by
  induction text with
  | nil => rfl
  | cons c text ih =>
    rw [List.flatMap_cons, List.append_assoc]
    by_cases hiac : c = TEL_IAC
    · subst hiac
      have hdouble : double TEL_IAC = [TEL_IAC, TEL_IAC] := rfl
      rw [hdouble]
      simp only [List.cons_append, List.nil_append, undouble, if_true]
      rw [ih]
      rfl
    · have hsingle : double c = [c] := if_neg hiac
      rw [hsingle, List.singleton_append]
      -- there is an octet behind this one: the end of the suboption at the least
      cases hrest : text.flatMap double ++ env_opt_end with
      | nil => simp [env_opt_end] at hrest
      | cons d rest =>
        rw [undouble, if_neg hiac, ← hrest, ih]
        rfl

theorem doubled_double (text : List UInt8) : Doubled (text.flatMap double) := by
  induction text with
  | nil => trivial
  | cons c text ih =>
    rw [List.flatMap_cons]
    by_cases hiac : c = TEL_IAC
    · subst hiac
      have hdouble : double TEL_IAC = [TEL_IAC, TEL_IAC] := rfl
      rw [hdouble]
      simp only [List.cons_append, List.nil_append, Doubled, if_true]
      exact ⟨trivial, ih⟩
    · have hsingle : double c = [c] := if_neg hiac
      rw [hsingle, List.singleton_append]
      cases hrest : text.flatMap double with
      | nil => exact hiac
      | cons d rest =>
        rw [hrest] at ih
        rw [Doubled, if_neg hiac]
        exact ih

end Quoting

section Reading

@[simp] theorem unquote_var (rest : List UInt8) :
    unquote (NEW_ENV_VAR :: rest) = (unquote rest).map (.variable true :: ·) := by
  cases rest <;> rfl

@[simp] theorem unquote_uservar (rest : List UInt8) :
    unquote (ENV_USERVAR :: rest) = (unquote rest).map (.variable false :: ·) := by
  cases rest <;> rfl

@[simp] theorem unquote_value (rest : List UInt8) :
    unquote (NEW_ENV_VALUE :: rest) = (unquote rest).map (.value :: ·) := by
  cases rest <;> rfl

@[simp] theorem unquote_esc (c : UInt8) (rest : List UInt8) :
    unquote (ENV_ESC :: c :: rest) = (unquote rest).map (.octet c :: ·) := by
  rw [unquote.eq_def]
  rfl

theorem unquote_octet {c : UInt8} (hc : ¬(c = 0 ∨ c = 1 ∨ c = 2 ∨ c = 3)) (rest : List UInt8) :
    unquote (c :: rest) = (unquote rest).map (.octet c :: ·) := by
  simp only [not_or] at hc
  rw [unquote.eq_def]
  simp only
  rw [if_neg hc.1, if_neg hc.2.2.2, if_neg hc.2.1, if_neg hc.2.2.1]

/-- Quoted text is read as its octets. -/
theorem unquote_escaped (text rest : List UInt8) {ts : List EnvToken}
    (hrest : unquote rest = some ts) :
    unquote (text.flatMap escape ++ rest) = some (text.map .octet ++ ts) := by
  induction text with
  | nil => exact hrest
  | cons c text ih =>
    rw [List.flatMap_cons, List.append_assoc, escape]
    split_ifs with hmark
    · rw [List.cons_append, List.singleton_append, unquote_esc, ih]
      rfl
    · rw [List.singleton_append, unquote_octet hmark, ih]
      rfl

/-- The tokens of a variable. -/
def varTokens (v : List UInt8 × List UInt8) : List EnvToken :=
  .variable (opt_welldefined v.1) :: v.1.map .octet ++ .value :: v.2.map .octet

theorem unquote_plainVar (v : List UInt8 × List UInt8) {rest : List UInt8} {ts : List EnvToken}
    (hrest : unquote rest = some ts) : unquote (plainVar v ++ rest) = some (varTokens v ++ ts) := by
  have hvalue := unquote_escaped v.2 rest hrest
  have hmark : unquote (NEW_ENV_VALUE :: (v.2.flatMap escape ++ rest)) =
      some (.value :: (v.2.map .octet ++ ts)) := by
    rw [unquote_value, hvalue]
    rfl
  have hname := unquote_escaped v.1 _ hmark
  rw [plainVar, varTokens, List.cons_append, List.append_assoc, List.cons_append]
  cases hknown : opt_welldefined v.1 with
  | true =>
    simp only [if_true, List.cons_append, List.append_assoc]
    rw [unquote_var, hname]
    rfl
  | false =>
    simp only [Bool.false_eq_true, if_false, List.cons_append, List.append_assoc]
    rw [unquote_uservar, hname]
    rfl

theorem unquote_vars (vars : List (List UInt8 × List UInt8)) :
    unquote (vars.flatMap plainVar) = some (vars.flatMap varTokens) := by
  induction vars with
  | nil => rfl
  | cons v vars ih =>
    rw [List.flatMap_cons, List.flatMap_cons]
    exact unquote_plainVar v ih

/-- A variable as it was given. -/
def EnvVar.of (v : List UInt8 × List UInt8) : EnvVar := ⟨opt_welldefined v.1, v.1, some v.2⟩

theorem readVars_name (known : Bool) (name text : List UInt8) (ts : List EnvToken) :
    readVars (some ⟨known, name, none⟩) (text.map .octet ++ ts) =
      readVars (some ⟨known, name ++ text, none⟩) ts := by
  induction text generalizing name with
  | nil => rw [List.append_nil]; rfl
  | cons c text ih =>
    rw [List.map_cons, List.cons_append, readVars]
    simp only [EnvVar.push]
    rw [ih, List.append_assoc]
    rfl

theorem readVars_value (known : Bool) (name value text : List UInt8) (ts : List EnvToken) :
    readVars (some ⟨known, name, some value⟩) (text.map .octet ++ ts) =
      readVars (some ⟨known, name, some (value ++ text)⟩) ts := by
  induction text generalizing value with
  | nil => rw [List.append_nil]; rfl
  | cons c text ih =>
    rw [List.map_cons, List.cons_append, readVars]
    simp only [EnvVar.push]
    rw [ih, List.append_assoc]
    rfl

theorem readVars_vars (cur : Option EnvVar) (vars : List (List UInt8 × List UInt8)) :
    readVars cur (vars.flatMap varTokens) = some (cur.toList ++ vars.map EnvVar.of) := by
  induction vars generalizing cur with
  | nil => rw [List.map_nil, List.append_nil]; rfl
  | cons v vars ih =>
    rw [List.flatMap_cons, varTokens, List.cons_append, List.cons_append, List.append_assoc,
      readVars, readVars_name, List.nil_append, List.cons_append, readVars, readVars_value,
      List.nil_append, ih]
    rfl

end Reading

/-- The host reads the variables of a reply as they were given, whatever octets their names
and values have. -/
theorem readReply_octets (vars : List (List UInt8 × List UInt8)) :
    readReply (env_opt_octets vars) = some (vars.map EnvVar.of) := by
  have hreply : readReply (env_opt_octets vars) =
      readEnviron (vars.flatMap (fun v => env_opt_add v.1 v.2) ++ env_opt_end) := by
    rw [env_opt_octets, List.append_assoc, env_opt_start]
    simp only [List.cons_append, List.nil_append, readReply]
    exact if_pos rfl
  rw [hreply, readEnviron, env_opt_body, undouble_doubled]
  simp only [Option.bind_some]
  rw [unquote_vars]
  simp only [Option.bind_some]
  rw [readVars_vars]
  rfl

/-- There is no `IAC` but in pairs before the end of a reply. -/
theorem doubled_octets (vars : List (List UInt8 × List UInt8)) :
    ∃ body, env_opt_octets vars = env_opt_start ++ body ++ env_opt_end ∧ Doubled body := by
  refine ⟨_, rfl, ?_⟩
  rw [env_opt_body]
  exact doubled_double _

section Stores

/-- A call stores all its octets, or some store of it is behind the end. -/
theorem env_opt_stores_eq (octets : List UInt8) {reply : List UInt8}
    (hreply : reply.length ≤ OPT_REPLY_SIZE) : env_opt_stores reply octets =
      if reply.length + octets.length ≤ OPT_REPLY_SIZE then some (reply ++ octets) else none := by
  induction octets generalizing reply with
  | nil =>
    rw [List.length_nil, Nat.add_zero, if_pos hreply, List.append_nil]
    rfl
  | cons c octets ih =>
    rw [env_opt_stores, List.foldlM_cons, env_opt_store]
    by_cases hroom : reply.length < OPT_REPLY_SIZE
    · have hnext : (reply ++ [c]).length ≤ OPT_REPLY_SIZE := by
        rw [List.length_append, List.length_singleton]
        exact hroom
      have hlater := ih hnext
      rw [List.length_append, List.length_singleton, List.append_assoc, List.singleton_append,
        Nat.add_assoc, Nat.add_comm 1] at hlater
      rw [if_pos hroom, List.length_cons]
      exact hlater
    · have hfull : ¬reply.length + (c :: octets).length ≤ OPT_REPLY_SIZE := by
        rw [List.length_cons]
        omega
      rw [if_neg hroom, if_neg hfull]
      rfl

/-- Calls one after the other store what one call with all the octets does. -/
theorem env_opt_stores_append (reply first second : List UInt8) :
    env_opt_stores reply (first ++ second) =
      (env_opt_stores reply first).bind (env_opt_stores · second) :=
  List.foldlM_append ..

theorem env_opt_stores_vars (vars : List (List UInt8 × List UInt8)) (reply : List UInt8) :
    vars.foldlM (fun reply v => env_opt_stores reply (env_opt_add v.1 v.2)) reply =
      env_opt_stores reply (vars.flatMap (fun v => env_opt_add v.1 v.2)) := by
  induction vars generalizing reply with
  | nil => rfl
  | cons v vars ih =>
    rw [List.foldlM_cons, List.flatMap_cons, env_opt_stores_append]
    exact congrArg _ (funext fun reply => ih reply)

theorem env_opt_reply_eq (vars : List (List UInt8 × List UInt8)) : env_opt_reply vars =
    if (env_opt_octets vars).length ≤ OPT_REPLY_SIZE then some (env_opt_octets vars) else none := by
  have hstores : env_opt_reply vars = env_opt_stores [] (env_opt_octets vars) := by
    rw [env_opt_octets, List.append_assoc, env_opt_stores_append, env_opt_reply]
    refine congrArg _ (funext fun reply => ?_)
    rw [env_opt_stores_append, env_opt_stores_vars]
    rfl
  rw [hstores, env_opt_stores_eq _ (Nat.zero_le _), List.length_nil, Nat.zero_add,
    List.nil_append]

end Stores

section Length

/-- The octets of a name that are quoted in a reply. -/
def Quoted (c : UInt8) : Prop := c = TEL_IAC ∨ c = 0 ∨ c = 1 ∨ c = 2 ∨ c = 3

instance (c : UInt8) : Decidable (Quoted c) := inferInstanceAs (Decidable (_ ∨ _))

theorem env_quote_length (c : UInt8) :
    (env_quote c).length = 1+if Quoted c then 1 else 0 := by
  rw [env_quote]
  by_cases hiac : c = TEL_IAC
  · have hquoted : Quoted c := Or.inl hiac
    rw [if_pos hiac, if_pos hquoted]
    rfl
  · rw [if_neg hiac]
    by_cases hmark : c = 0 ∨ c = 1 ∨ c = 2 ∨ c = 3
    · have hquoted : Quoted c := Or.inr hmark
      rw [if_pos hmark, if_pos hquoted]
      rfl
    · have hplain : ¬Quoted c := not_or.mpr ⟨hiac, hmark⟩
      rw [if_neg hmark, if_neg hplain]
      rfl

theorem quoted_length (text : List UInt8) :
    (text.flatMap env_quote).length = text.length+text.countP (Quoted ·) := by
  induction text with
  | nil => rfl
  | cons c text ih =>
    rw [List.flatMap_cons, List.length_append, ih, env_quote_length, List.length_cons,
      List.countP_cons]
    simp only [decide_eq_true_eq]
    omega

/-- The octets stored for a variable: the two marks, its name and its value, with those
octets counted twice that are quoted. -/
def varLength (v : List UInt8 × List UInt8) : ℕ :=
  2+(v.1.length+v.1.countP (Quoted ·))+(v.2.length+v.2.countP (Quoted ·))

theorem env_opt_add_length (name value : List UInt8) :
    (env_opt_add name value).length = varLength (name, value) := by
  rw [env_opt_add, varLength]
  simp only [List.length_append, List.length_cons, quoted_length]
  omega

theorem env_opt_octets_length (vars : List (List UInt8 × List UInt8)) :
    (env_opt_octets vars).length = 6+(vars.map varLength).sum := by
  have hvars : (vars.flatMap fun v => env_opt_add v.1 v.2).length = (vars.map varLength).sum := by
    rw [List.length_flatMap]
    exact congrArg List.sum (List.map_congr_left fun v _ => env_opt_add_length v.1 v.2)
  have hstart : env_opt_start.length = 4 := rfl
  have hend : env_opt_end.length = 2 := rfl
  rw [env_opt_octets, List.length_append, List.length_append, hvars, hstart, hend]
  omega

/-- The reply is read as the variables that were given, with no `IAC` but in pairs before its
end, if and only if the octets stored are no more than `opt_reply` has. -/
theorem env_reply_round_trip_iff (vars : List (List UInt8 × List UInt8)) :
    (∃ reply, env_opt_reply vars = some reply ∧ readReply reply = some (vars.map EnvVar.of) ∧
        ∃ body, reply = env_opt_start ++ body ++ env_opt_end ∧ Doubled body) ↔
      6+(vars.map varLength).sum ≤ OPT_REPLY_SIZE := by
  rw [env_opt_reply_eq, env_opt_octets_length]
  constructor
  · rintro ⟨reply, hreply, -⟩
    by_contra hlong
    rw [if_neg hlong] at hreply
    exact absurd hreply (by simp)
  · intro hfits
    rw [if_pos hfits]
    exact ⟨_, rfl, readReply_octets vars, doubled_octets vars⟩

/-- The variable `USER` with a value of 255 letters is stored behind the end of the array. -/
theorem long_value_not_stored :
    env_opt_reply [([85, 83, 69, 82], List.replicate 255 0x61)] = none ∧
      ¬∀ vars : List (List UInt8 × List UInt8), (∀ v ∈ vars, 0 ∉ v.1 ∧ 0 ∉ v.2) →
        ∃ reply, env_opt_reply vars = some reply ∧ readReply reply = some (vars.map EnvVar.of) ∧
          ∃ body, reply = env_opt_start ++ body ++ env_opt_end ∧ Doubled body := by
  have hlong : env_opt_reply [([85, 83, 69, 82], List.replicate 255 0x61)] = none := by
    have hlength : (env_opt_octets [([85, 83, 69, 82], List.replicate 255 0x61)]).length = 267 := by
      rw [env_opt_octets_length, List.map_singleton, List.sum_singleton, varLength,
        List.length_replicate, List.countP_replicate]
      decide
    rw [env_opt_reply_eq, hlength]
    rfl
  refine ⟨hlong, fun h => ?_⟩
  obtain ⟨reply, hreply, -⟩ := h [([85, 83, 69, 82], List.replicate 255 0x61)] (by
    intro v hv
    rw [List.mem_singleton.mp hv, List.mem_replicate]
    decide)
  rw [hlong] at hreply
  exact absurd hreply (by simp)

/-- The name of the user as far as it is sent. -/
def WindRec.sentName (tw : WindRec) : List UInt8 := tw.cfg.username.takeWhile (· ≠ 0)

theorem newEnvironReply_length (tw : WindRec) : (newEnvironReply tw).length =
    12+(tw.sentName.length+tw.sentName.countP (Quoted ·)) := by
  have hname : ([85, 83, 69, 82] : List UInt8).countP (Quoted ·) = 0 := by decide
  rw [newEnvironReply_eq, env_opt_octets_length, List.map_singleton, List.sum_singleton, varLength,
    hname, WindRec.sentName]
  simp only [List.length_cons, List.length_nil]
  omega

/-- The reply with the name of the user fits into `opt_reply`, if and only if the name has at
most 244 octets, with those counted twice that are quoted. -/
theorem environ_reply_fits_iff (tw : WindRec) :
    (newEnvironReply tw).length ≤ OPT_REPLY_SIZE ↔
      tw.sentName.length+tw.sentName.countP (Quoted ·) ≤ 244 := by
  rw [newEnvironReply_length, OPT_REPLY_SIZE]
  omega

/-- A session with a user of this name. -/
def namedUser (name : List UInt8) : WindRec := newConnection { plainSession with username := name }

theorem namedUser_length (n : ℕ) {c : UInt8} (hc : c ≠ 0) :
    (newEnvironReply (namedUser (List.replicate n c))).length =
      12+(n+if Quoted c then n else 0) := by
  have hname : (namedUser (List.replicate n c)).sentName = List.replicate n c := by
    rw [WindRec.sentName]
    change (List.replicate n c).takeWhile _ = _
    rw [List.takeWhile_replicate, if_pos (by simpa using hc)]
  rw [newEnvironReply_length, hname, List.length_replicate, List.countP_replicate]
  simp only [decide_eq_true_eq]

/-- A name of 255 letters does not fit, nor one of 123 octets that are quoted. -/
theorem long_name_overruns :
    (newEnvironReply (namedUser (List.replicate 255 0x61))).length = 267 ∧
      (newEnvironReply (namedUser (List.replicate 123 0xff))).length = 258 ∧
      ¬∀ name : List UInt8, name.length ≤ 255 →
        (newEnvironReply (namedUser name)).length ≤ OPT_REPLY_SIZE := by
  have hlong : (newEnvironReply (namedUser (List.replicate 255 0x61))).length = 267 := by
    rw [namedUser_length 255 (by decide)]
    decide
  refine ⟨hlong, ?_, ?_⟩
  · rw [namedUser_length 123 (by decide)]
    decide
  · intro h
    have hfits := h (List.replicate 255 0x61) (Nat.le_of_eq List.length_replicate)
    rw [hlong] at hfits
    exact absurd hfits (by decide)

end Length

end Telnet
