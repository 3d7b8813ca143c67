import MacSSH.WaitString

/-! The streams in which the search for a string goes wrong: what the string and the stream
say of it, up to the end of the first occurrence, and what the arrays do behind that. -/
namespace WaitString

open Overlaps

/-- As long as the string has not come, no byte breaks off an overlap whose border has more than
127 characters. `seen` has come before the stream. -/
def SearchFrom (w seen stream : List UInt8) : Prop :=
  ∀ mid c rest, stream = mid ++ c :: rest → ¬w <:+: seen ++ mid →
    ∀ q, Longest w (seen ++ mid) q → q = 0 ∨ w[q]? = some c ∨ border w q ≤ 127

def SearchFine (w stream : List UInt8) : Prop := SearchFrom w [] stream

/-- The first occurrence of the string ends where the text does. -/
def FirstEnd (w text : List UInt8) : Prop := w <:+: text ∧ ¬w <:+: text.dropLast

/-- The place that the letter leads to from another: behind the first place, over the entries,
where the letter stands, or the start. -/
inductive Leads (string : Int → UInt8) (table : Int → Int) (c : UInt8) : ℕ → ℕ → Prop
  | fits {p : ℕ} : string p = c → Leads string table c p (p+1)
  | start : string 0 ≠ c → Leads string table c 0 0
  | falls {p b q : ℕ} : string (p+1 : ℕ) ≠ c → table p = b → Leads string table c b q →
    Leads string table c (p+1) q

/-- The letters lead from place to place, all inside the arrays and over no negative entry. -/
def Readable (string : Int → UInt8) (table : Int → Int) : ℕ → List UInt8 → Prop
  | _, [] => True
  | p, c :: tail => p < 256 ∧ ∃ q, Leads string table c p q ∧ Readable string table q tail

/-- What comes behind the first occurrence in its chunk can be read on the arrays, from the place
behind the string. -/
def BehindFrom (string : Int → UInt8) (table : Int → Int) (w seen : List UInt8)
    (chunks : List (List UInt8)) : Prop :=
  ∀ front last tail rest, chunks = front ++ (last ++ tail) :: rest → last ≠ [] →
    FirstEnd w (seen ++ front.flatten ++ last) → Readable string table w.length tail

/-- The table of the string, in front of what is left of older ones. -/
def leftTable (tw : WindRec) (w : List UInt8) (i : Int) : Int :=
  if 0 ≤ i ∧ i < w.length then char (border w (i.toNat+1)) else tw.waPrefixFunction i

/-- What comes behind the first occurrence in its chunk can be read on the arrays as the wait
leaves them: the string and its table, and behind them what they held before. -/
def TailFine (tw : WindRec) (w : List UInt8) (chunks : List (List UInt8)) : Prop :=
  BehindFrom (moved tw w) (leftTable tw w) w [] chunks

section Reading
variable {string : Int → UInt8} {table : Int → Int} {c : UInt8} {p q : ℕ}

theorem Leads.unique {q' : ℕ} (h : Leads string table c p q) (h' : Leads string table c p q') :
    q = q' := by
  induction h with
  | fits hfit =>
    cases h' with
    | fits => rfl
    | start hnot => exact absurd hfit hnot
    | falls hnot => exact absurd hfit hnot
  | start hnot =>
    cases h' with
    | fits hfit => exact absurd hfit hnot
    | start => rfl
  | falls hnot hentry _ ih =>
    cases h' with
    | fits hfit => exact absurd hfit hnot
    | falls _ hentry' hleads =>
      rw [hentry] at hentry'
      obtain rfl := Int.ofNat_inj.mp hentry'
      exact ih hleads

/-- A place from which the letter leads on holds it, or has an entry before it that is not
negative. -/
theorem Leads.fine (h : Leads string table c p q) :
    p = 0 ∨ string p = c ∨ 0 ≤ table ((p : Int)-1) := by
  cases h with
  | fits hfit => exact .inr (.inl hfit)
  | start => exact .inl rfl
  | @falls p b _ _ hentry _ =>
    have hplace : ((p+1 : ℕ) : Int)-1 = p := by omega
    rw [hplace, hentry]
    exact .inr (.inr (Int.natCast_nonneg b))

/-- A place that holds the letter is not left. -/
theorem fallBack_fits (h : string p = c) (fuel : ℕ) :
    (fallBack string table c fuel p).1 = p := by
  cases fuel with
  | zero => rfl
  | succ n =>
    rw [fallBack]
    split_ifs
    · exact absurd h ‹_›
    · rfl
    · rfl

/-- Another place is left for its entry. -/
theorem fallBack_falls (h : string (p+1 : ℕ) ≠ c) (n : ℕ) :
    (fallBack string table c (n+1) (p+1 : ℕ)).1 = (fallBack string table c n (table p)).1 := by
  have hplace : ((p+1 : ℕ) : Int)-1 = p := by omega
  rw [fallBack, if_pos (by omega), if_pos h, hplace]

/-- Where falling back ends the letter leads on. -/
theorem fallBack_leads (hsane : Sane table) (fuel : ℕ) : ∀ p : ℕ, p ≤ fuel → p ≤ 255 →
    (p = 0 ∨ string p = c ∨ 0 ≤ table ((p : Int)-1)) →
    ∃ q : ℕ, Leads string table c p q ∧
      (if c = string (fallBack string table c fuel p).1 then
        (fallBack string table c fuel p).1+1 else 0) = q := by
  induction fuel with
  | zero =>
    intro p hp _ _
    obtain rfl := Nat.le_zero.mp hp
    rw [fallBack]
    by_cases hfit : string (0 : ℕ) = c
    · exact ⟨1, .fits hfit, if_pos hfit.symm⟩
    · exact ⟨0, .start hfit, if_neg (Ne.symm hfit)⟩
  | succ n ih =>
    intro p hp h255 hfine
    by_cases hfit : string p = c
    · rw [fallBack_fits hfit, if_pos hfit.symm]
      exact ⟨p+1, .fits hfit, by omega⟩
    cases p with
    -- at the start there is nothing to fall back to
    | zero =>
      have hstay : (fallBack string table c (n+1) (0 : ℕ)).1 = (0 : ℕ) := by
        rw [fallBack, if_neg (by omega)]
      rw [hstay, if_neg (Ne.symm hfit)]
      exact ⟨0, .start hfit, rfl⟩
    | succ p =>
      have hplace : ((p+1 : ℕ) : Int)-1 = p := by omega
      have hentry : 0 ≤ table p := by
        have hcut := (hfine.resolve_left (Nat.succ_ne_zero p)).resolve_left hfit
        rwa [hplace] at hcut
      obtain ⟨b, hb⟩ := Int.eq_ofNat_of_zero_le hentry
      obtain ⟨hle, h127, -, -⟩ := hsane p (Int.natCast_nonneg p) (by omega)
      -- an entry leads to a place of at most 127, behind whose entries none is cut off
      have hagain : b = 0 ∨ string b = c ∨ 0 ≤ table ((b : Int)-1) := by
        by_cases hb0 : b = 0
        · exact .inl hb0
        · exact .inr (.inr ((hsane ((b : Int)-1) (by omega) (by omega)).2.2.1 (by omega)))
      obtain ⟨q, hleads, hend⟩ := ih b (by omega) (by omega) hagain
      rw [fallBack_falls hfit, hb]
      exact ⟨q, .falls hfit hb hleads, hend⟩

variable {tw : WindRec}

theorem waitByte_waWaitString (tw : WindRec) (c : UInt8) :
    (waitByte tw c).waWaitString = tw.waWaitString := by
  rw [waitByte]
  dsimp only
  split_ifs <;> rfl

/-- Where the search is after a byte. -/
theorem waitByte_waWaitPos (tw : WindRec) (c : UInt8) : (waitByte tw c).waWaitPos =
    if c = tw.waWaitString (fallBack tw.waWaitString tw.waPrefixFunction c tw.waWaitPos.toNat
        tw.waWaitPos).1 then
      (fallBack tw.waWaitString tw.waPrefixFunction c tw.waWaitPos.toNat tw.waWaitPos).1+1
    else 0 := by
  rw [waitByte]
  dsimp only
  split_ifs <;> rfl

/-- A chunk is fine just where it can be read on the arrays. -/
theorem chunkFine_readable (chunk : List UInt8) : ∀ {tw : WindRec} {p : ℕ},
    Sane tw.waPrefixFunction → tw.waWaitPos = p →
    (ChunkFine tw chunk ↔ Readable tw.waWaitString tw.waPrefixFunction p chunk) := by
  induction chunk with
  | nil => exact fun _ _ => Iff.rfl
  | cons c chunk ih =>
    intro tw p hsane hp
    have hnext {q : ℕ} (h255 : p ≤ 255)
        (hleads : Leads tw.waWaitString tw.waPrefixFunction c p q) :
        ChunkFine (waitByte tw c) chunk ↔
          Readable tw.waWaitString tw.waPrefixFunction q chunk := by
      obtain ⟨q', hleads', hend⟩ := fallBack_leads hsane p p (Nat.le_refl p) h255 hleads.fine
      have hpos : (waitByte tw c).waWaitPos = q := by
        rw [waitByte_waWaitPos, hp, Int.toNat_natCast, hend, hleads.unique hleads']
      have hlater := @ih (waitByte tw c) q (by rwa [waitByte_prefixFunction]) hpos
      rwa [waitByte_prefixFunction, waitByte_waWaitString] at hlater
    -- the letter leads on exactly where its byte is fine, and then to where the search goes on
    rw [ChunkFine, Readable, ByteFine, hp]
    constructor
    · rintro ⟨⟨h255, hfine⟩, hrest⟩
      have hfine' : p = 0 ∨ tw.waWaitString p = c ∨ 0 ≤ tw.waPrefixFunction ((p : Int)-1) :=
        hfine.imp_left Int.natCast_eq_zero.mp
      obtain ⟨q, hleads, -⟩ := fallBack_leads hsane p p (Nat.le_refl p) (by omega) hfine'
      exact ⟨by omega, q, hleads, (hnext (by omega) hleads).mp hrest⟩
    · rintro ⟨h256, q, hleads, hrest⟩
      exact ⟨⟨by omega, hleads.fine.imp_left fun h0 => by rw [h0]; rfl⟩,
        (hnext (by omega) hleads).mpr hrest⟩

end Reading

section Splitting
variable {string : Int → UInt8} {table : Int → Int} {w seen a b chunk : List UInt8}

theorem searchFrom_append : SearchFrom w seen (a ++ b) ↔
    SearchFrom w seen a ∧ SearchFrom w (seen ++ a) b := by
  constructor
  · intro h
    constructor
    · rintro mid c rest rfl
      exact h mid c (rest ++ b) (by rw [List.append_assoc]; rfl)
    · rintro mid c rest rfl
      rw [List.append_assoc]
      exact h (a ++ mid) c rest (by rw [List.append_assoc])
  · rintro ⟨hfirst, hlater⟩ mid c rest heq
    -- the letter stands in the second part, or in the first
    rcases List.append_eq_append_iff.mp heq with ⟨more, rfl, hb⟩ | ⟨more, rfl, hrest⟩
    · rw [← List.append_assoc]
      exact hlater more c rest hb
    · cases more with
      | nil =>
        have hb := hlater [] c rest hrest.symm
        rwa [List.append_nil, List.append_nil] at hb
      | cons d more =>
        obtain ⟨rfl, -⟩ := List.cons.inj hrest
        exact hfirst mid c more rfl

/-- Once the string has come the stream says nothing. -/
theorem searchFrom_found (h : w <:+: seen) : SearchFrom w seen a :=
  fun _ _ _ _ hnot => absurd (h.trans (List.prefix_append _ _).isInfix) hnot

theorem not_firstEnd (h : w <:+: seen) (hb : b ≠ []) : ¬FirstEnd w (seen ++ b) := by
  rintro ⟨-, hnot⟩
  rw [List.dropLast_append_of_ne_nil hb] at hnot
  exact hnot (h.trans (List.prefix_append _ _).isInfix)

theorem behindFrom_cons {chunks : List (List UInt8)} :
    BehindFrom string table w seen (chunk :: chunks) ↔
      BehindFrom string table w seen [chunk] ∧
        BehindFrom string table w (seen ++ chunk) chunks := by
  constructor
  · intro h
    constructor
    · intro front last tail rest heq hlast hend
      cases front with
      | nil =>
        obtain ⟨rfl, -⟩ := List.cons.inj heq
        exact h [] last tail chunks rfl hlast hend
      | cons d front =>
        have hlen := congrArg List.length heq
        rw [List.length_singleton, List.length_append, List.length_cons, List.length_cons] at hlen
        omega
    · rintro front last tail rest rfl hlast hend
      apply h (chunk :: front) last tail rest rfl hlast
      rwa [List.flatten_cons, ← List.append_assoc]
  · rintro ⟨hone, hlater⟩ front last tail rest heq hlast hend
    cases front with
    | nil =>
      obtain ⟨rfl, -⟩ := List.cons.inj heq
      exact hone [] last tail [] rfl hlast hend
    | cons d front =>
      obtain ⟨rfl, hchunks⟩ := List.cons.inj heq
      apply hlater front last tail rest hchunks hlast
      rwa [List.flatten_cons, ← List.append_assoc] at hend

theorem behindFrom_nil : BehindFrom string table w seen [] := by
  intro front last tail rest heq
  cases front <;> cases heq

theorem behindFrom_found {chunks : List (List UInt8)} (h : w <:+: seen) :
    BehindFrom string table w seen chunks := by
  intro front last tail rest _ hlast hend
  rw [List.append_assoc] at hend
  exact absurd hend (not_firstEnd h fun hnil => hlast (List.append_eq_nil_iff.mp hnil).2)

/-- One chunk: the string ends somewhere in it. -/
theorem behindFrom_singleton : BehindFrom string table w seen [chunk] ↔
    ∀ last tail, chunk = last ++ tail → last ≠ [] → FirstEnd w (seen ++ last) →
      Readable string table w.length tail := by
  constructor
  · rintro h last tail rfl hlast hend
    exact h [] last tail [] rfl hlast (by rwa [List.flatten_nil, List.append_nil])
  · intro h front last tail rest heq hlast hend
    cases front with
    | nil =>
      obtain ⟨rfl, -⟩ := List.cons.inj heq
      rw [List.flatten_nil, List.append_nil] at hend
      exact h last tail rfl hlast hend
    | cons d front =>
      have hlen := congrArg List.length heq
      rw [List.length_singleton, List.length_append, List.length_cons, List.length_cons] at hlen
      omega

end Splitting

section Streams
variable {tw : WindRec} {w seen : List UInt8} {c : UInt8} {r : ℕ}

theorem searchFrom_singleton : SearchFrom w seen [c] ↔ (¬w <:+: seen →
    ∀ q, Longest w seen q → q = 0 ∨ w[q]? = some c ∨ border w q ≤ 127) := by
  constructor
  · intro h
    have hone := h [] c [] rfl
    rwa [List.append_nil] at hone
  · rintro h mid d rest heq
    cases mid with
    | nil =>
      obtain ⟨rfl, -⟩ := List.cons.inj heq
      rwa [List.append_nil]
    | cons e mid =>
      have hlen := congrArg List.length heq
      rw [List.length_singleton, List.length_append, List.length_cons, List.length_cons] at hlen
      omega

/-- While the string is looked for, a byte is fine just where the overlap fits that, or its
border is not cut off. -/
theorem Looking.byteFine_iff (hlook : Looking w seen tw) (hlen : w.length < 256)
    (hnot : ¬w <:+: seen) : ByteFine tw c ↔ SearchFrom w seen [c] := by
  obtain ⟨q, hq, hlt, hlong⟩ := hlook.position
  have hfit : w[q]? = some c ↔ tw.waWaitString tw.waWaitPos = c := by
    rw [hlook.agree q hlt, hq]
    exact Option.some_inj
  rw [searchFrom_singleton, imp_iff_right hnot]
  -- the search stands at the longest overlap, and there is one
  have hall : (∀ k, Longest w seen k → k = 0 ∨ w[k]? = some c ∨ border w k ≤ 127) ↔
      q = 0 ∨ w[q]? = some c ∨ border w q ≤ 127 :=
    ⟨fun h => h q hlong, fun h k hk => hk.unique hlong ▸ h⟩
  rw [hall, ByteFine, hfit]
  constructor
  · rintro ⟨-, hzero | hletter | hentry⟩
    · exact .inl (by omega)
    · exact .inr (.inl hletter)
    · by_cases h0 : q = 0
      · exact .inl h0
      · exact .inr (.inr ((hlook.entry hlen hq (by omega) hlt).mp hentry))
  · intro h
    refine ⟨by omega, ?_⟩
    rcases h with rfl | hletter | hsmall
    · exact .inl hq
    · exact .inr (.inl hletter)
    · by_cases h0 : q = 0
      · exact .inl (by omega)
      · exact .inr (.inr ((hlook.entry hlen hq (by omega) hlt).mpr hsmall))

/-- The place of the search when the string has come. -/
theorem Looking.found_position (hlook : Looking w seen tw) (hlen : w.length < 256)
    (hnot : ¬w <:+: seen) (hfine : ByteFine tw c) (hfound : w <:+: seen ++ [c]) :
    (waitByte tw c).waWaitPos = w.length := by
  obtain ⟨p', hfell, hlt, hcand, hstop⟩ := hlook.fallBack hlen hfine
  have hletter := hlook.agree p' hlt
  rw [waitByte_waWaitPos, hfell]
  by_cases hgrow : c = tw.waWaitString p'
  · have hlong := hcand.grow (by rw [hletter, hgrow])
    rw [if_pos hgrow, ← (found_iff hnot hlong).mp hfound]
    rfl
  · -- without the letter no overlap is left
    obtain rfl := hstop.resolve_right (Ne.symm hgrow)
    have hlong := hcand.drop (by
      rw [hletter]
      exact fun heq => hgrow (Option.some.inj heq).symm)
    have := (found_iff hnot hlong).mp hfound
    omega

/-- One more byte before the chunk. -/
theorem behindFrom_byte {string : Int → UInt8} {table : Int → Int} {chunk : List UInt8}
    (hnot : ¬w <:+: seen) : BehindFrom string table w seen [c :: chunk] ↔
      (w <:+: seen ++ [c] → Readable string table w.length chunk) ∧
        BehindFrom string table w (seen ++ [c]) [chunk] := by
  rw [behindFrom_singleton, behindFrom_singleton]
  constructor
  · intro h
    refine ⟨fun hcome => ?_, ?_⟩
    · refine h [c] chunk rfl (List.cons_ne_nil c []) ⟨hcome, ?_⟩
      rwa [List.dropLast_concat]
    · rintro last tail rfl _ hend
      apply h (c :: last) tail rfl (List.cons_ne_nil c last)
      rwa [← List.singleton_append, ← List.append_assoc]
  · rintro ⟨hbyte, hlater⟩ last tail heq hlast hend
    cases last with
    | nil => exact absurd rfl hlast
    | cons d last =>
      obtain ⟨rfl, rfl⟩ := List.cons.inj heq
      by_cases hnil : last = []
      · subst hnil
        exact hbyte hend.1
      · apply hlater last tail rfl hnil
        rwa [List.append_assoc, List.singleton_append]

/-- While the string is looked for, a chunk is fine where the search is, and what comes behind
the string can be read. -/
theorem chunkFine_iff (hlen : w.length < 256) (chunk : List UInt8) :
    ∀ {tw : WindRec} {seen : List UInt8}, Progress w r seen tw → ¬w <:+: seen →
      (ChunkFine tw chunk ↔ SearchFrom w seen chunk ∧
        BehindFrom tw.waWaitString tw.waPrefixFunction w seen [chunk]) := by
  induction chunk with
  | nil =>
    intro tw seen _ _
    refine iff_of_true trivial ⟨?_, behindFrom_singleton.mpr ?_⟩
    · intro mid c rest heq
      exact absurd heq.symm (List.append_ne_nil_of_right_ne_nil mid (List.cons_ne_nil c rest))
    · intro last tail heq hlast
      exact absurd (List.append_eq_nil_iff.mp heq.symm).1 hlast
  | cons c chunk ih =>
    intro tw seen h hnot
    obtain ⟨-, hlook⟩ := h.phase.resolve_right fun hfound => hnot hfound.1
    have hsplit : SearchFrom w seen (c :: chunk) ↔
        SearchFrom w seen [c] ∧ SearchFrom w (seen ++ [c]) chunk :=
      @searchFrom_append w seen [c] chunk
    rw [ChunkFine, hlook.byteFine_iff hlen hnot, behindFrom_byte hnot, hsplit, and_assoc]
    apply and_congr_right
    intro hsearch
    have hfine := (hlook.byteFine_iff hlen hnot).mpr hsearch
    have hnext := waitByte_progress hlen h hfine
    -- up to the end of the string borders decide, behind it the arrays
    by_cases hcome : w <:+: seen ++ [c]
    · -- the byte that ends the string: the rest of the chunk is searched too
      rw [chunkFine_readable chunk hnext.sane (hlook.found_position hlen hnot hfine hcome),
        waitByte_waWaitString, waitByte_prefixFunction, imp_iff_right hcome]
      constructor
      · exact fun hread => ⟨searchFrom_found hcome, hread, behindFrom_found hcome⟩
      · exact fun hall => hall.2.1
    · rw [ih hnext hcome, waitByte_waWaitString, waitByte_prefixFunction]
      constructor
      · exact fun hall => ⟨hall.1, fun hno => absurd hno hcome, hall.2⟩
      · exact fun hall => ⟨hall.1, hall.2.2⟩

theorem handlewait_waWaitString (chunk : List UInt8) : ∀ tw : WindRec,
    (handlewait tw chunk).waWaitString = tw.waWaitString := by
  induction chunk with
  | nil => exact fun tw => rfl
  | cons c chunk ih => exact fun tw => (ih _).trans (waitByte_waWaitString tw c)

/-- A window that does not wait takes any stream. -/
theorem streamFine_idle (hidle : ¬tw.waWaiting) (chunks : List (List UInt8)) :
    StreamFine tw chunks := by
  induction chunks with
  | nil => trivial
  | cons chunk chunks ih =>
    refine ⟨fun hwait => absurd hwait hidle, ?_⟩
    rwa [receive, if_neg hidle]

/-- A stream is fine where its search is, and what comes behind the string in its chunk can be
read. -/
theorem streamFine_iff (hlen : w.length < 256) (chunks : List (List UInt8)) :
    ∀ {tw : WindRec} {seen : List UInt8}, Progress w r seen tw →
      (StreamFine tw chunks ↔ SearchFrom w seen chunks.flatten ∧
        BehindFrom tw.waWaitString tw.waPrefixFunction w seen chunks) := by
  induction chunks with
  | nil =>
    intro tw seen _
    refine iff_of_true trivial ⟨?_, behindFrom_nil⟩
    intro mid c rest heq
    exact absurd heq.symm (List.append_ne_nil_of_right_ne_nil mid (List.cons_ne_nil c rest))
  | cons chunk chunks ih =>
    intro tw seen h
    rcases h.phase with ⟨hnot, hlook⟩ | ⟨hcome, hfound⟩
    · have hreceive : receive tw chunk = handlewait tw chunk := if_pos hlook.waiting
      rw [StreamFine, imp_iff_right hlook.waiting, List.flatten_cons, searchFrom_append,
        behindFrom_cons]
      constructor
      · rintro ⟨hchunk, hrest⟩
        have hnext := (handlewait_spec hlen chunk h).2 hchunk
        obtain ⟨hsearch, hbehind⟩ := (chunkFine_iff hlen chunk h hnot).mp hchunk
        rw [hreceive, ih hnext, handlewait_waWaitString, handlewait_prefixFunction] at hrest
        exact ⟨⟨hsearch, hrest.1⟩, hbehind, hrest.2⟩
      · rintro ⟨⟨hsearch, hsearch'⟩, hbehind, hbehind'⟩
        have hchunk := (chunkFine_iff hlen chunk h hnot).mpr ⟨hsearch, hbehind⟩
        have hnext := (handlewait_spec hlen chunk h).2 hchunk
        rw [hreceive, ih hnext, handlewait_waWaitString, handlewait_prefixFunction]
        exact ⟨hchunk, hsearch', hbehind'⟩
    · -- the string has come in an earlier chunk: the window does not wait any more
      have hidle : ¬tw.waWaiting := by
        rw [hfound.waiting]
        exact Bool.false_ne_true
      exact iff_of_true (streamFine_idle hidle _) ⟨searchFrom_found hcome, behindFrom_found hcome⟩

end Streams

section Waiting
variable {tw : WindRec} {w : List UInt8} {isSuspended : Bool}

/-- The turns change the entries they come to. -/
theorem made_outside (string : Int → UInt8) (start : Table) (n : ℕ) {i : Int}
    (hi : i < 1 ∨ n < i) : (made string start n).prefixFunction i = start.prefixFunction i := by
  induction n with
  | zero => rfl
  | succ n ih =>
    rw [made_succ, prefixStep]
    dsimp only
    rw [Function.update_of_ne (by omega), ih (by omega)]

/-- The arrays of a window that waits. -/
theorem setup_table (hpos : w ≠ [])
    (hborders : HasBorders (MyHandleWait tw w isSuspended).waPrefixFunction w w.length) :
    (MyHandleWait tw w isSuspended).waPrefixFunction = leftTable tw w := by
  funext i
  rw [leftTable]
  split_ifs with hi
  · have hentry := hborders i.toNat (by omega)
    rwa [Int.toNat_of_nonneg hi.1] at hentry
  · have hlong := List.length_pos_iff.mpr hpos
    rw [setup_eq hpos]
    dsimp only
    rw [made_outside _ _ _ (by omega)]
    exact Function.update_of_ne (by omega) _ _

/-- A wait for a string goes on as it should just where no border is cut off that is fallen back
to, neither when the table is made nor before the string has come, and what comes behind it in
its chunk can be read on the arrays. -/
theorem wait_iff (h : Used tw) (hpos : w ≠ []) (hlen : w.length < 256) (isSuspended : Bool)
    (chunks : List (List UInt8)) : Awaited tw w isSuspended chunks ↔
      BordersFine w ∧ SearchFine w chunks.flatten ∧ TailFine tw w chunks := by
  rw [awaited_iff h hpos hlen]
  apply and_congr_right
  intro hborders
  have hprogress := (setup_spec (used_sane h) hpos hlen isSuspended).2 hborders
  have hnone : ¬w <:+: [] := fun hnil => hpos (List.infix_nil.mp hnil)
  obtain ⟨-, hlook⟩ := hprogress.phase.resolve_right fun hfound => hnone hfound.1
  have hstring : (MyHandleWait tw w isSuspended).waWaitString = moved tw w := by
    rw [setup_eq hpos]
  rw [streamFine_iff hlen chunks hprogress, hstring, setup_table hpos hlook.borders]
  rfl

/-- A string of up to 128 letters has no border that is cut off. -/
theorem bordersFine_short (h : w.length ≤ 128) : BordersFine w := by
  intro i hi
  have hle := border_le w i
  have hle' := border_le w (border w i)
  exact .inr (by omega)

theorem searchFrom_short {seen stream : List UInt8} (h : w.length ≤ 128) :
    SearchFrom w seen stream := by
  intro mid c rest _ _ q hlong
  have hfit := hlong.overlap.1
  have hle := border_le w q
  exact .inr (.inr (by omega))

end Waiting

/-- A window that has not waited yet. -/
def idle : WindRec where
  waWeHaveAppleEvent := false
  waWaiting := false
  waWaitPos := 0
  waWasEnabled := true
  enabled := true
  waWaitLength := 0
  waWaitString _ := 0
  waPrefixFunction _ := 0
  resumed := 0
  places := []

/-- A prompt of two letters in two chunks. -/
theorem prompt_in_two_chunks : Awaited idle [36, 32] true [[36], [32]] := by
  apply (wait_iff (.start fun _ => rfl) (by decide) (by decide) true _).mpr
  refine ⟨bordersFine_short (by decide), searchFrom_short (by decide), ?_⟩
  intro front last tail rest heq hlast _
  -- a chunk of one letter has nothing behind its first
  have hmem : last ++ tail ∈ [[36], [32]] := by
    rw [heq]
    exact List.mem_append_right _ List.mem_cons_self
  have hone : (last ++ tail).length = 1 := by
    rcases List.mem_pair.mp hmem with hchunk | hchunk <;> rw [hchunk] <;> rfl
  have hpos := List.length_pos_iff.mpr hlast
  rw [List.length_append] at hone
  rw [List.eq_nil_of_length_eq_zero (show tail.length = 0 by omega)]
  trivial

/-- The same letter over and over. -/
def run (n : ℕ) : List UInt8 := List.replicate n 97

theorem isOverlap_run {m n k : ℕ} (hk : k ≤ m) (hkn : k ≤ n) : IsOverlap (run m) (run n) k := by
  rw [IsOverlap, run, run, List.length_replicate, List.take_replicate, Nat.min_eq_left hk]
  refine ⟨hk, List.replicate (n-k) 97, ?_⟩
  rw [List.replicate_append_replicate]
  congr 1
  omega

theorem getElem_run {n i : ℕ} (h : i < n) : (run n)[i]? = some 97 := by
  rw [run, List.getElem?_replicate, if_pos h]

/-- The border of a run is one letter shorter. -/
theorem border_run {m n : ℕ} (h : n+1 ≤ m) : border (run m) (n+1) = n := by
  apply Nat.le_antisymm (border_le _ _)
  apply le_border (Nat.lt_succ_self n)
  have htake : (run m).take (n+1) = run (n+1) := by
    rw [run, run, List.take_replicate, Nat.min_eq_left h]
  rw [htake]
  exact isOverlap_run (by omega) (Nat.le_succ n)

/-- A run of 129 of the 130 letters that are waited for is broken off. -/
theorem long_run_broken_off : ¬Awaited idle (run 130) true [run 129 ++ [98]] := by
  have hlen : (run 130).length = 130 := List.length_replicate
  have hseen : (run 129).length = 129 := List.length_replicate
  have hused : Used idle := .start fun _ => rfl
  have hpos : run 130 ≠ [] := List.ne_nil_of_length_pos (by omega)
  intro h
  obtain ⟨hborders, hstream⟩ := (awaited_iff hused hpos (by omega) true _).mp h
  have hprogress := (setup_spec (used_sane hused) hpos (by omega) true).2 hborders
  have hsearch := ((streamFine_iff (by omega) _ hprogress).mp hstream).1
  have hnot : ¬run 130 <:+: [] ++ run 129 := fun hinside => by
    have hle := hinside.length_le
    rw [List.nil_append] at hle
    omega
  have hlong : Longest (run 130) ([] ++ run 129) 129 :=
    ⟨isOverlap_run (by decide) (Nat.le_refl 129), fun k hk => hseen ▸ hk.le_length⟩
  rcases hsearch (run 129) 98 [] (List.flatten_singleton) hnot 129 hlong with
    hzero | hletter | hborder
  · exact absurd hzero (by decide)
  · rw [getElem_run (by decide)] at hletter
    exact absurd hletter (by decide)
  · rw [border_run (by decide)] at hborder
    exact absurd hborder (by decide)

end WaitString
