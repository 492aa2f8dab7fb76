import DistributedKV.Lib.Utf8

/-!
# Strings in JSON texts

How `encoding/json` of Go writes a string between quotation marks and reads it back. The writer
goes through the string character by character: a byte at which no character starts becomes
`\ufffd`, the characters that mean something to JSON, HTML or JavaScript are escaped, all others
are copied. The reader undoes the escapes and makes whatever it copies UTF-8.
-/

namespace DistributedKV.Json

open List Option

open Utf8

/-! ## Hexadecimal digits -/

/-- A digit as the writer has it. -/
def hexDigit (n : Nat) : UInt8 := if n < 10 then .ofNat (0x30 + n) else .ofNat (0x57 + n)

/-- The value of a digit. -/
def hexValue (a : UInt8) : Option Nat :=
  if 0x30 ≤ a && a ≤ 0x39 then some (a.toNat - 0x30)
  else if 0x61 ≤ a && a ≤ 0x66 then some (a.toNat - 0x57)
  else if 0x41 ≤ a && a ≤ 0x46 then some (a.toNat - 0x37)
  else none

variable {n : Nat} {a : UInt8} {s t : List UInt8}

theorem hexValue_hexDigit (h : n < 16) : hexValue (hexDigit n) = some n := by
  revert n
  decide

/-- The number that four digits stand for. -/
def codeUnit : List UInt8 → Option Nat
  | a :: b :: c :: d :: _ => do
    let a ← hexValue a
    let b ← hexValue b
    let c ← hexValue c
    let d ← hexValue d
    some (a * 4096 + b * 256 + c * 16 + d)
  | _ => none

/-! ## Writing -/

/-- `\u` and four digits. -/
def escapeUnit (c : Nat) : List UInt8 :=
  [0x5C, 0x75, hexDigit (c / 4096 % 16), hexDigit (c / 256 % 16), hexDigit (c / 16 % 16),
    hexDigit (c % 16)]

/-- The letter that follows the backslash in a short escape. -/
def shortEscape (a : UInt8) : Option UInt8 :=
  if a = 0x5C || a = 0x22 then some a
  else if a = 0x08 then some 0x62
  else if a = 0x0C then some 0x66
  else if a = 0x0A then some 0x6E
  else if a = 0x0D then some 0x72
  else if a = 0x09 then some 0x74
  else none

/-- An ASCII character: control characters, quotation mark, backslash and `<`, `>`, `&` are
escaped. -/
def quoteByte (a : UInt8) : List UInt8 :=
  match shortEscape a with
  | some e => [0x5C, e]
  | none =>
    if a < 0x20 || a = 0x3C || a = 0x3E || a = 0x26 then escapeUnit a.toNat else [a]

/-- What is written for the first byte `a` of a string, with the rest of its character. -/
def quoteHead (a : UInt8) (s : List UInt8) : List UInt8 :=
  match tailLength a s with
  | none => escapeUnit 0xFFFD
  | some 0 => quoteByte a
  | some (n + 1) =>
    -- the two line separators of JavaScript
    if a :: s.take (n + 1) = [0xE2, 0x80, 0xA8] then escapeUnit 0x2028
    else if a :: s.take (n + 1) = [0xE2, 0x80, 0xA9] then escapeUnit 0x2029
    else a :: s.take (n + 1)

/-- What is written after the first `skip` bytes of a string. -/
def quoteFrom : (skip : Nat) → List UInt8 → List UInt8
  | _, [] => []
  | skip + 1, _ :: s => quoteFrom skip s
  | 0, a :: s => quoteHead a s ++ quoteFrom ((tailLength a s).getD 0) s

/-- The text of a string between the quotation marks (`appendString` with HTML escapes). -/
def quote (s : List UInt8) : List UInt8 := quoteFrom 0 s

/-! ## Reading -/

/-- What the letter after a backslash stands for. -/
def shortUnescape (e : UInt8) : Option UInt8 :=
  if e = 0x22 || e = 0x5C || e = 0x2F || e = 0x27 then some e
  else if e = 0x62 then some 0x08
  else if e = 0x66 then some 0x0C
  else if e = 0x6E then some 0x0A
  else if e = 0x72 then some 0x0D
  else if e = 0x74 then some 0x09
  else none

def isSurrogate (c : Nat) : Bool := 0xD800 ≤ c && c ≤ 0xDFFF

/-- The second half of a surrogate pair, if it follows. -/
def pairedUnit (c : Nat) : List UInt8 → Option Nat
  | 0x5C :: 0x75 :: s =>
    match codeUnit s with
    | some d =>
      if c < 0xDC00 && 0xDC00 ≤ d && d ≤ 0xDFFF then
        some ((c - 0xD800) * 1024 + (d - 0xDC00) + 0x10000)
      else none
    | none => none
  | _ => none

/-- What `\u` stands for with the text `s` behind it, and how many bytes of `s` it takes. Half
of a surrogate pair becomes the replacement character. -/
def unescapeUnit (s : List UInt8) : Option (List UInt8 × Nat) :=
  (codeUnit s).map fun c =>
    if isSurrogate c then
      match pairedUnit c (s.drop 4) with
      | some rune => (encodeRune rune, 10)
      | none => (replacement, 4)
    else (encodeRune c, 4)

/-- What the byte `a` of a text stands for, and how many of the bytes `s` behind it takes. -/
def unescape (a : UInt8) (s : List UInt8) : Option (List UInt8 × Nat) :=
  if a = 0x5C then
    match s with
    | [] => none
    | e :: s =>
      if e = 0x75 then (unescapeUnit s).map fun r => (r.1, r.2 + 1)
      else (shortUnescape e).map fun b => ([b], 1)
  else if a = 0x22 || a < 0x20 then none
  else
    match tailLength a s with
    | some n => some (a :: s.take n, n)
    | none => some (replacement, 0)

/-- The string that the text after the first `skip` bytes stands for. -/
def unquoteFrom : (skip : Nat) → List UInt8 → Option (List UInt8)
  | _, [] => some []
  | skip + 1, _ :: s => unquoteFrom skip s
  | 0, a :: s =>
    match unescape a s with
    | some (out, n) => (unquoteFrom n s).map (out ++ ·)
    | none => none

/-- The string that a text between quotation marks stands for (`unquoteBytes`). -/
def unquote (s : List UInt8) : Option (List UInt8) := unquoteFrom 0 s

-- `é`, `<`, a line end, a byte that is not UTF-8, and U+1F600 as a surrogate pair
example : quote [0xC3, 0xA9, 0x3C, 0x0A, 0xFF] =
    [0xC3, 0xA9] ++ escapeUnit 0x3C ++ [0x5C, 0x6E] ++ escapeUnit 0xFFFD := by decide
example : unquote (escapeUnit 0xD83D ++ escapeUnit 0xDE00) = some [0xF0, 0x9F, 0x98, 0x80] := by
  decide

/-! ## One character -/

section Character

variable {a e b : UInt8} {s r : List UInt8} {n : Nat}

theorem unquoteFrom_eq (skip : Nat) (s : List UInt8) :
    unquoteFrom skip s = unquote (s.drop skip) := by
  induction s generalizing skip with
  | nil => cases skip <;> rfl
  | cons a s ih =>
    cases skip with
    | zero => rfl
    | succ skip => exact ih skip

theorem quoteFrom_eq (skip : Nat) (s : List UInt8) : quoteFrom skip s = quote (s.drop skip) := by
  induction s generalizing skip with
  | nil => cases skip <;> rfl
  | cons a s ih =>
    cases skip with
    | zero => rfl
    | succ skip => exact ih skip

theorem quote_cons (a : UInt8) (s : List UInt8) :
    quote (a :: s) = quoteHead a s ++ quote (s.drop ((tailLength a s).getD 0)) := by
  rw [← quoteFrom_eq]
  rfl

theorem unquote_cons {out : List UInt8} (h : unescape a s = some (out, n)) :
    unquote (a :: s) = (unquote (s.drop n)).map (out ++ ·) := by
  rw [← unquoteFrom_eq]
  simp only [unquote, unquoteFrom, h]

theorem codeUnit_escapeUnit {c : Nat} (h : c < 65536) (r : List UInt8) :
    codeUnit (hexDigit (c / 4096 % 16) :: hexDigit (c / 256 % 16) :: hexDigit (c / 16 % 16) ::
      hexDigit (c % 16) :: r) = some c := by
  simp only [codeUnit, hexValue_hexDigit (Nat.mod_lt _ (by decide : 16 > 0)), bind_eq_bind,
    bind_some]
  congr 1
  omega

theorem unquote_escapeUnit {c : Nat} (h : c < 65536) (hc : isSurrogate c = false) (r : List UInt8) :
    unquote (escapeUnit c ++ r) = (unquote r).map (encodeRune c ++ ·) := by
  have hstep : unescape 0x5C (0x75 :: hexDigit (c / 4096 % 16) :: hexDigit (c / 256 % 16) ::
      hexDigit (c / 16 % 16) :: hexDigit (c % 16) :: r) = some (encodeRune c, 5) := by
    simp [unescape, unescapeUnit, codeUnit_escapeUnit h, hc]
  exact unquote_cons hstep

theorem unquote_char (hslash : a ≠ 0x5C) (hmark : a ≠ 0x22) (hcontrol : ¬a < 0x20)
    (h : tailLength a s = some n) (r : List UInt8) :
    unquote (a :: (s.take n ++ r)) = (unquote r).map (a :: s.take n ++ ·) := by
  have hlen : (s.take n).length = n := by
    rw [length_take]
    have := tailLength_le h
    omega
  have hstep : unescape a (s.take n ++ r) = some (a :: s.take n, n) := by
    simp only [unescape, hslash, hmark, hcontrol, tailLength_take_append h r, take_append, hlen]
    simp
  rw [unquote_cons hstep, drop_append_of_le_length (by omega),
    drop_of_length_le (by omega), nil_append]

end Character

/-! ## Reading back what was written -/

theorem shortUnescape_of_shortEscape {e : UInt8} (h : shortEscape a = some e) :
    e ≠ 0x75 ∧ shortUnescape e = some a := by
  unfold shortEscape at h
  split_ifs at h with hself hb hf hn hr ht <;> obtain rfl := some.inj h
  · rcases Bool.or_eq_true_iff.mp hself with ha | ha <;> obtain rfl := of_decide_eq_true ha <;>
      decide
  all_goals subst a; decide

theorem encodeRune_toNat (ha : a < 0x80) : encodeRune a.toNat = [a] := by
  have hnat : a.toNat < 0x80 := UInt8.lt_iff_toNat_lt.mp ha
  rw [encodeRune, if_pos hnat, UInt8.ofNat_toNat]

theorem unquote_quoteByte (ha : a < 0x80) (r : List UInt8) :
    unquote (quoteByte a ++ r) = (unquote r).map (a :: ·) := by
  have hnat : a.toNat < 0x80 := UInt8.lt_iff_toNat_lt.mp ha
  unfold quoteByte
  cases hshort : shortEscape a with
  | some e =>
    obtain ⟨hunit, hback⟩ := shortUnescape_of_shortEscape hshort
    have hstep : unescape 0x5C (e :: r) = some ([a], 1) := by
      simp [unescape, hunit, hback]
    exact unquote_cons hstep
  | none =>
    dsimp only
    split
    · have hsurrogate : isSurrogate a.toNat = false := by
        simp only [isSurrogate, Bool.and_eq_false_iff, decide_eq_false_iff_not]
        omega
      rw [unquote_escapeUnit (by omega) hsurrogate, encodeRune_toNat ha]
      rfl
    · next hplain =>
      simp only [Bool.or_eq_true, decide_eq_true_eq, not_or] at hplain
      have hslash : a ≠ 0x5C := by
        rintro rfl
        cases hshort
      have hmark : a ≠ 0x22 := by
        rintro rfl
        cases hshort
      exact unquote_char hslash hmark hplain.1.1.1 (tailLength_ascii ha []) r

/-- What a copy with replacements has for the first byte of a string. -/
def repairHead (a : UInt8) (s : List UInt8) : List UInt8 :=
  match tailLength a s with
  | some n => a :: s.take n
  | none => replacement

theorem repair_cons (a : UInt8) (s : List UInt8) :
    repair (a :: s) = repairHead a s ++ repair (s.drop ((tailLength a s).getD 0)) := by
  unfold repairHead
  cases htail : tailLength a s with
  | some n => exact repair_cons_of_char htail
  | none => exact repair_cons_of_none htail

/-- What the writer makes of one character is read back as the character, or the replacement
character. -/
theorem unquote_quoteHead (a : UInt8) (s r : List UInt8) :
    unquote (quoteHead a s ++ r) = (unquote r).map (repairHead a s ++ ·) := by
  unfold quoteHead repairHead
  cases htail : tailLength a s with
  | none => exact unquote_escapeUnit (by decide) (by decide) r
  | some n =>
    by_cases ha : a < 0x80
    · obtain rfl : n = 0 := some.inj (htail.symm.trans (tailLength_ascii ha s))
      exact unquote_quoteByte ha r
    cases n with
    | zero => exact absurd (ascii_of_tailLength htail) ha
    | succ n =>
      dsimp only
      split_ifs with hline hparagraph
      · rw [hline]
        exact unquote_escapeUnit (by decide) (by decide) r
      · rw [hparagraph]
        exact unquote_escapeUnit (by decide) (by decide) r
      · -- a byte of a character of several is none that the reader treats specially
        refine unquote_char ?_ ?_ (fun hlt => ha (UInt8.lt_trans hlt (by decide))) htail r <;>
          rintro rfl <;> exact ha (by decide)

/-- A string is quoted character by character. -/
theorem quote_induction {p : List UInt8 → Prop} (nil : p [])
    (cons : ∀ a s, p (s.drop ((tailLength a s).getD 0)) → p (a :: s)) (s : List UInt8) : p s := by
  induction hn : s.length using Nat.strong_induction_on generalizing s with
  | _ n ih =>
    cases s with
    | nil => exact nil
    | cons a s =>
      refine cons a s (ih _ ?_ _ rfl)
      rw [length_drop, ← hn, length_cons]
      omega

/-- **Writing and reading a string** replaces the bytes at which no character starts, and
nothing else. -/
theorem unquote_quote (s : List UInt8) : unquote (quote s) = some (repair s) := by
  induction s using quote_induction with
  | nil => rfl
  | cons a s ih =>
    rw [quote_cons, unquote_quoteHead, ih, repair_cons, map_some]

/-! ## Whatever is read is UTF-8 -/

theorem valid_of_unescapeUnit {out : List UInt8} (h : unescapeUnit s = some (out, n)) :
    Valid out := by
  obtain ⟨c, -, hc⟩ := map_eq_some_iff.mp h
  split at hc
  · split at hc <;> obtain ⟨rfl, -⟩ := Prod.mk.inj hc
    · exact valid_encodeRune _
    · decide
  · obtain ⟨rfl, -⟩ := Prod.mk.inj hc
    exact valid_encodeRune _

theorem shortUnescape_ascii {e b : UInt8} (h : shortUnescape e = some b) : Valid [b] := by
  unfold shortUnescape at h
  split_ifs at h with hself <;> obtain rfl := some.inj h
  · simp only [Bool.or_eq_true, decide_eq_true_eq] at hself
    rcases hself with ((rfl | rfl) | rfl) | rfl <;> decide
  all_goals decide

theorem valid_of_unescape {out : List UInt8} (h : unescape a s = some (out, n)) : Valid out := by
  unfold unescape at h
  split_ifs at h with hslash hrefused
  · cases s with
    | nil => cases h
    | cons e s =>
      dsimp only at h
      split_ifs at h with hunit
      · obtain ⟨r, hr, heq⟩ := map_eq_some_iff.mp h
        obtain ⟨rfl, -⟩ := Prod.mk.inj heq
        exact valid_of_unescapeUnit hr
      obtain ⟨b, hb, heq⟩ := map_eq_some_iff.mp h
      obtain ⟨rfl, -⟩ := Prod.mk.inj heq
      exact shortUnescape_ascii hb
  · cases htail : tailLength a s with
    | some k =>
      simp only [htail] at h
      obtain ⟨rfl, -⟩ := Prod.mk.inj (some.inj h)
      exact valid_char htail
    | none =>
      simp only [htail] at h
      obtain ⟨rfl, -⟩ := Prod.mk.inj (some.inj h)
      decide

theorem valid_unquoteFrom {skip : Nat} (h : unquoteFrom skip s = some t) : Valid t := by
  induction s generalizing skip t with
  | nil =>
    obtain rfl : [] = t := by cases skip <;> exact some.inj h
    rfl
  | cons a s ih =>
    cases skip with
    | succ skip => exact ih h
    | zero =>
      unfold unquoteFrom at h
      cases hstep : unescape a s with
      | none => simp [hstep] at h
      | some r =>
        obtain ⟨out, n⟩ := r
        simp only [hstep] at h
        obtain ⟨u, hu, rfl⟩ := map_eq_some_iff.mp h
        exact (valid_of_unescape hstep).append (ih hu)

/-- **A string that is read is UTF-8**, whatever the text is. -/
theorem valid_unquote (h : unquote s = some t) : Valid t :=
  valid_unquoteFrom h

/-! ## The scanner inside a string -/

/-- Where the scanner is in a string: between characters, behind a backslash, or with
hexadecimal digits to come after the next one. -/
inductive StrState where
  | plain
  | escape
  | digits (more : Nat)
deriving DecidableEq, Repr

/-- The letters of the escapes without digits. -/
def isShort (e : UInt8) : Bool :=
  e = 0x62 || e = 0x66 || e = 0x6E || e = 0x72 || e = 0x74 || e = 0x5C || e = 0x2F || e = 0x22

/-- What a byte does: `none` if it is not allowed, `some none` if it ends the string. -/
def StrState.step : StrState → UInt8 → Option (Option StrState)
  | .plain, a =>
    if a = 0x22 then some none
    else if a = 0x5C then some (some .escape)
    else if a < 0x20 then none
    else some (some .plain)
  | .escape, a =>
    if isShort a then some (some .plain)
    else if a = 0x75 then some (some (.digits 3))
    else none
  | .digits more, a =>
    if (hexValue a).isSome then
      match more with
      | 0 => some (some .plain)
      | more + 1 => some (some (.digits more))
    else none

/-- The state behind a text that neither ends the string nor is refused. -/
def StrState.run (q : StrState) : List UInt8 → Option StrState
  | [] => some q
  | a :: s =>
    match q.step a with
    | some (some q') => q'.run s
    | _ => none

/-- A text that can stand between quotation marks. -/
def WellQuoted (body : List UInt8) : Prop := StrState.plain.run body = some .plain

instance (body : List UInt8) : Decidable (WellQuoted body) :=
  inferInstanceAs (Decidable (_ = _))

open StrState

theorem run_append (q : StrState) (s t : List UInt8) :
    q.run (s ++ t) = (q.run s).bind fun q' => q'.run t := by
  induction s generalizing q with
  | nil => rfl
  | cons a s ih =>
    rw [cons_append, run, run]
    match q.step a with
    | some (some q') => exact ih q'
    | some none => rfl
    | none => rfl

theorem WellQuoted.append (hs : WellQuoted s) (ht : WellQuoted t) : WellQuoted (s ++ t) := by
  unfold WellQuoted
  rw [run_append, hs]
  exact ht

theorem wellQuoted_singleton (hslash : a ≠ 0x5C) (hmark : a ≠ 0x22) (hcontrol : ¬a < 0x20) :
    WellQuoted [a] := by
  simp [WellQuoted, run, step, hslash, hmark, hcontrol]

theorem wellQuoted_of_not_ascii (h : ∀ a ∈ s, ¬a < 0x80) : WellQuoted s := by
  induction s with
  | nil => rfl
  | cons a s ih =>
    have ha : ¬a < 0x80 := h a mem_cons_self
    refine WellQuoted.append (s := [a]) (wellQuoted_singleton ?_ ?_ ?_)
      (ih fun b hb => h b (mem_cons_of_mem _ hb))
    · rintro rfl
      exact ha (by decide)
    · rintro rfl
      exact ha (by decide)
    · exact fun hlt => ha (UInt8.lt_trans hlt (by decide))

theorem wellQuoted_escapeUnit (c : Nat) : WellQuoted (escapeUnit c) := by
  have hdigit : ∀ n, (hexValue (hexDigit (n % 16))).isSome = true := fun n => by
    rw [hexValue_hexDigit (Nat.mod_lt _ (by decide))]
    rfl
  simp [WellQuoted, escapeUnit, run, step, isShort, hdigit]

theorem wellQuoted_quoteByte (a : UInt8) : WellQuoted (quoteByte a) := by
  unfold quoteByte
  cases hshort : shortEscape a with
  | some e =>
    have hletter : isShort e = true := by
      unfold shortEscape at hshort
      split_ifs at hshort with hself <;> obtain rfl := some.inj hshort
      · rcases Bool.or_eq_true_iff.mp hself with ha | ha <;> obtain rfl := of_decide_eq_true ha <;>
          decide
      all_goals decide
    simp [WellQuoted, run, step, hletter]
  | none =>
    dsimp only
    split
    · exact wellQuoted_escapeUnit _
    next hplain =>
      simp only [Bool.or_eq_true, decide_eq_true_eq, not_or] at hplain
      refine wellQuoted_singleton ?_ ?_ hplain.1.1.1 <;> rintro rfl <;> cases hshort

theorem wellQuoted_quoteHead (a : UInt8) (s : List UInt8) : WellQuoted (quoteHead a s) := by
  unfold quoteHead
  cases htail : tailLength a s with
  | none => exact wellQuoted_escapeUnit _
  | some n =>
    cases n with
    | zero => exact wellQuoted_quoteByte a
    | succ n =>
      have ha : ¬a < 0x80 := fun hlt => by
        cases htail.symm.trans (tailLength_ascii hlt s)
      dsimp only
      split_ifs
      · exact wellQuoted_escapeUnit _
      · exact wellQuoted_escapeUnit _
      refine wellQuoted_of_not_ascii fun b hb => ?_
      rcases mem_cons.mp hb with rfl | hb
      · exact ha
      · exact not_ascii_of_mem_tail htail hb

/-- What the writer makes of a string can stand between quotation marks. -/
theorem wellQuoted_quote (s : List UInt8) : WellQuoted (quote s) := by
  induction s using quote_induction with
  | nil => rfl
  | cons a s ih =>
    rw [quote_cons]
    exact (wellQuoted_quoteHead a s).append ih

end DistributedKV.Json
