import DistributedKV.Lib.GoMap
import DistributedKV.Lib.Json
import Mathlib.Data.List.Sort
import Mathlib.Data.List.TakeWhile

/-!
# Data in JSON texts

How `encoding/json` of Go stores a JSON value into a variable, and writes it. A `Decoder` is given
the old value of the variable, because a value need not set all of it: `null` leaves a string or a
number as it is, an object sets the fields it names, the later of two members wins, and a member
that names no field is skipped. Names of fields are compared exactly first and then without regard
to case. `none` stands for an error.
-/

namespace DistributedKV.Json

open List Option

open Utf8

/-- The bytes of a text. -/
def bytes (s : String) : List UInt8 := s.toByteArray.data.toList

/-! ## Integers -/

def formatNat (n : Nat) : List UInt8 := (Nat.toDigits 10 n).map fun c => .ofNat c.toNat

def formatInt64 (n : Int64) : List UInt8 :=
  if n.toInt < 0 then 0x2D :: formatNat n.toInt.natAbs else formatNat n.toInt.natAbs

/-- A number of digits. -/
def parseDigits (s : List UInt8) : Option Nat :=
  if !s.isEmpty && s.all isDigit then
    some (s.foldl (fun n a => 10 * n + (a.toNat - 0x30)) 0)
  else none

/-- An integer, if it has 64 bits. -/
def toInt64 (n : Int) : Option Int64 :=
  if -2 ^ 63 ≤ n ∧ n < 2 ^ 63 then some (.ofInt n) else none

/-- A decimal integer of 64 bits. -/
def parseInt64 : List UInt8 → Option Int64
  | 0x2D :: s => (parseDigits s).bind fun n => toInt64 (-n)
  | 0x2B :: s => (parseDigits s).bind fun n => toInt64 n
  | s => (parseDigits s).bind fun n => toInt64 n

section Integers

theorem toNat_ofNat_of_isDigit {c : Char} (h : c.isDigit = true) :
    (UInt8.ofNat c.toNat).toNat = c.toNat ∧ 0x30 ≤ c.toNat ∧ c.toNat ≤ 0x39 := by
  have hrange : 0x30 ≤ c.toNat ∧ c.toNat ≤ 0x39 := by
    simp only [Char.isDigit, Bool.and_eq_true, decide_eq_true_eq] at h
    exact ⟨UInt32.le_iff_toNat_le.mp h.1, UInt32.le_iff_toNat_le.mp h.2⟩
  refine ⟨?_, hrange⟩
  rw [UInt8.toNat_ofNat']
  omega

theorem isDigit_formatNat {n : Nat} : ∀ a ∈ formatNat n, isDigit a = true := by
  intro a ha
  obtain ⟨c, hc, rfl⟩ := mem_map.mp ha
  obtain ⟨hnat, hlow, hhigh⟩ :=
    toNat_ofNat_of_isDigit (Nat.isDigit_of_mem_toDigits (by decide) (by decide) hc)
  rw [isDigit, Bool.and_eq_true, decide_eq_true_eq, decide_eq_true_eq, UInt8.le_iff_toNat_le,
    UInt8.le_iff_toNat_le, hnat]
  exact ⟨hlow, hhigh⟩

theorem formatNat_ne_nil (n : Nat) : formatNat n ≠ [] := by
  rw [formatNat, Ne, map_eq_nil_iff]
  exact Nat.toDigits_ne_nil

theorem foldl_digits {l : List Char} (h : ∀ c ∈ l, c.isDigit = true) (init : Nat) :
    (l.map fun c => UInt8.ofNat c.toNat).foldl (fun n a => 10 * n + (a.toNat - 0x30)) init =
      Nat.ofDigitChars 10 l init := by
  induction l generalizing init with
  | nil => rfl
  | cons c l ih =>
    rw [map_cons, foldl_cons, ih fun d hd => h d (mem_cons_of_mem _ hd),
      (toNat_ofNat_of_isDigit (h c mem_cons_self)).1]
    rfl

theorem parseDigits_formatNat (n : Nat) : parseDigits (formatNat n) = some n := by
  have hdigits : (!(formatNat n).isEmpty && (formatNat n).all isDigit) = true := by
    rw [Bool.and_eq_true, List.all_eq_true]
    exact ⟨by simp [formatNat_ne_nil], isDigit_formatNat⟩
  rw [parseDigits, if_pos hdigits, formatNat,
    foldl_digits fun c hc => Nat.isDigit_of_mem_toDigits (by decide) (by decide) hc,
    Nat.ofDigitChars_toDigits (by decide) (by decide)]

theorem toInt64_toInt (n : Int64) : toInt64 n.toInt = some n := by
  rw [toInt64, if_pos ⟨Int64.le_toInt n, Int64.toInt_lt n⟩, Int64.ofInt_toInt]

theorem parseInt64_digits {s : List UInt8} (h : ∀ a ∈ s, isDigit a = true) :
    parseInt64 s = (parseDigits s).bind fun n => toInt64 n := by
  match s with
  | [] => rfl
  | a :: s =>
    have ha : isDigit a = true := h a mem_cons_self
    rw [parseInt64.eq_3]
    all_goals
      rintro t heq
      rw [(List.cons.inj heq).1] at ha
      exact absurd ha (by decide)

theorem parseInt64_formatInt64 (n : Int64) : parseInt64 (formatInt64 n) = some n := by
  unfold formatInt64
  split_ifs with hsign
  · rw [parseInt64, parseDigits_formatNat, bind_some,
      show -((n.toInt.natAbs : Nat) : Int) = n.toInt by omega]
    exact toInt64_toInt n
  rw [parseInt64_digits isDigit_formatNat, parseDigits_formatNat, bind_some,
    show ((n.toInt.natAbs : Nat) : Int) = n.toInt by omega]
  exact toInt64_toInt n

/-- Only zero is written with a zero in front. -/
theorem head_formatNat {n : Nat} (hn : n ≠ 0) : (formatNat n).head? ≠ some 0x30 := by
  induction n using Nat.strong_induction_on with
  | _ n ih =>
    by_cases hlt : n < 10
    · have hdigit : ∀ n < 10, n ≠ 0 → (formatNat n).head? ≠ some 0x30 := by decide
      exact hdigit n hlt hn
    have hne : formatNat (n / 10) ≠ [] := formatNat_ne_nil _
    have hcut : formatNat n = formatNat (n / 10) ++ [.ofNat (n % 10).digitChar.toNat] := by
      rw [formatNat, Nat.toDigits_of_base_le (by decide) (by omega), map_append]
      rfl
    rw [hcut, head?_append_of_ne_nil _ hne]
    exact ih (n / 10) (by omega) (by omega)

theorem isNumberByte_of_isDigit {a : UInt8} (h : isDigit a = true) : isNumberByte a = true := by
  simp [isNumberByte, h]

theorem isMagnitude_formatNat (n : Nat) : isMagnitude (formatNat n) = true := by
  by_cases hn : n = 0
  · subst hn
    decide
  have hdigits : ∀ a ∈ formatNat n, isDigit a = true := isDigit_formatNat
  have hhead := head_formatNat hn
  match hs : formatNat n with
  | [] => exact absurd hs (formatNat_ne_nil n)
  | a :: s =>
    rw [hs] at hdigits hhead
    rw [isMagnitude.eq_2 _ (by rintro t heq; exact hhead (by rw [heq]; rfl)), digitsThen,
      hdigits a mem_cons_self,
      dropWhile_eq_nil_iff.mpr fun b hb => hdigits b (mem_cons_of_mem _ hb)]
    rfl

theorem isNumber_formatNat (n : Nat) : isNumber (formatNat n) = true := by
  match hs : formatNat n with
  | [] => exact absurd hs (formatNat_ne_nil _)
  | a :: s =>
    have ha : isDigit a = true := isDigit_formatNat a (by rw [hs]; exact mem_cons_self)
    rw [isNumber.eq_2]
    · rw [← hs]
      exact isMagnitude_formatNat _
    rintro t heq
    rw [(List.cons.inj heq).1] at ha
    exact absurd ha (by decide)

theorem isNumber_formatInt64 (n : Int64) : isNumber (formatInt64 n) = true := by
  unfold formatInt64
  split_ifs with hsign
  · exact isMagnitude_formatNat _
  · exact isNumber_formatNat _

theorem isNumberByte_formatInt64 (n : Int64) : ∀ a ∈ formatInt64 n, isNumberByte a = true := by
  unfold formatInt64
  intro a ha
  split_ifs at ha with hsign
  · rcases mem_cons.mp ha with rfl | ha
    · decide
    · exact isNumberByte_of_isDigit (isDigit_formatNat a ha)
  · exact isNumberByte_of_isDigit (isDigit_formatNat a ha)

end Integers

/-! ## Reading -/

/-- How a value is stored into a variable with an old value. -/
abbrev Decoder (α : Type) := Value → α → Option α

def decodeString : Decoder (List UInt8)
  | .null, old => some old
  | .string body, _ => unquote body
  | _, _ => none

def decodeInt64 : Decoder Int64
  | .null, old => some old
  | .number literal, _ => parseInt64 literal
  | _, _ => none

def decodeBool : Decoder Bool
  | .null, old => some old
  | .bool b, _ => some b
  | _, _ => none

/-- The items of an array, each into a new variable. -/
def decodeSlice {α : Type} (zero : α) (decode : Decoder α) : Decoder (List α)
  | .null, _ => some []
  | .array items, _ => items.mapM fun v => decode v zero
  | _, _ => none

/-- A name in capital letters. U+212A belongs to `K` and U+017F to `S`. -/
def foldName : List UInt8 → List UInt8
  | 0xE2 :: 0x84 :: 0xAA :: s => 0x4B :: foldName s
  | 0xC5 :: 0xBF :: s => 0x53 :: foldName s
  | a :: s => (if 0x61 ≤ a && a ≤ 0x7A then a - 0x20 else a) :: foldName s
  | [] => []

/-- A field of a record, and how it is set. -/
structure RecordField (α : Type) where
  name : List UInt8
  decode : Decoder α

/-- A field that holds a part of the record. -/
def RecordField.part {α β : Type} (name : List UInt8) (decode : Decoder β) (get : α → β)
    (set : α → β → α) : RecordField α :=
  ⟨name, fun v a => (decode v (get a)).map (set a)⟩

/-- The field that a name means. -/
def findField {α : Type} (fields : List (RecordField α)) (name : List UInt8) :
    Option (RecordField α) :=
  match fields.find? fun f => f.name = name with
  | some f => some f
  | none => fields.find? fun f => foldName f.name = foldName name

variable {α : Type} {d : Nat} {v : Value}

theorem mem_of_findField {fields : List (RecordField α)} {name : List UInt8} {f : RecordField α}
    (h : findField fields name = some f) : f ∈ fields := by
  unfold findField at h
  split at h
  · next hfind =>
    cases h
    exact mem_of_find?_eq_some hfind
  · exact mem_of_find?_eq_some h

/-- The members of an object, one after the other. -/
def decodeMembers {α : Type} (store : List UInt8 → Decoder α) :
    List (List UInt8 × Value) → α → Option α
  | [], a => some a
  | (name, v) :: members, a =>
    match unquote name with
    | some name =>
      match store name v a with
      | some a => decodeMembers store members a
      | none => none
    | none => none

/-- A member of an object for a record. -/
def storeField {α : Type} (fields : List (RecordField α)) (name : List UInt8) : Decoder α :=
  fun v a =>
    match findField fields name with
    | some f => f.decode v a
    | none => some a

def decodeStruct {α : Type} (fields : List (RecordField α)) : Decoder α
  | .null, old => some old
  | .object members, old => decodeMembers (storeField fields) members old
  | _, _ => none

/-- A member of an object for a map. -/
def storeEntry {α : Type} (zero : α) (decode : Decoder α) (name : List UInt8) :
    Decoder (GoMap (List UInt8) α) :=
  -- the old entry of the key has no influence on the new one
  fun v m => (decode v zero).map fun a => m.insert name a

def decodeMap {α : Type} (zero : α) (decode : Decoder α) : Decoder (GoMap (List UInt8) α)
  -- a map, unlike a string or a record, is set by `null`: to a nil map, which has no entries
  | .null, _ => some ∅
  | .object members, old => decodeMembers (storeEntry zero decode) members old
  | _, _ => none

/-- `json.Unmarshal` into a variable that holds `zero`. -/
def unmarshal {α : Type} (decode : Decoder α) (zero : α) (text : List UInt8) : Option α :=
  (parse text).bind fun v => decode v zero

/-! ## Writing -/

def encodeString (s : List UInt8) : Value := .string (quote s)

def encodeInt64 (n : Int64) : Value := .number (formatInt64 n)

def encodeNat (n : Nat) : Value := .number (formatNat n)

/-- A member of an object. -/
def member (name : String) (v : Value) : List UInt8 × Value := (quote (bytes name), v)

/-- A member that is left out if its value is empty. -/
def omitEmpty (empty : Bool) (name : String) (v : Value) : List (List UInt8 × Value) :=
  if empty then [] else [member name v]

/-- The members of an object; the first value that cannot be written ends it. -/
def encodeMembers {ε α : Type} (encode : α → Except ε Value) :
    List (List UInt8 × α) → Except ε (List (List UInt8 × Value))
  | [] => .ok []
  | (name, a) :: rest => do
    let v ← encode a
    let members ← encodeMembers encode rest
    return (quote name, v) :: members

/-- The entries of a map in the order of their keys. -/
def sortedEntries {α : Type} (m : GoMap (List UInt8) α) : List (List UInt8 × α) :=
  (m.entries.map fun e => (e.1, e.2)).insertionSort fun a b => a.1 ≤ b.1

def encodeMap {ε α : Type} (encode : α → Except ε Value) (m : GoMap (List UInt8) α) :
    Except ε Value := do
  let members ← encodeMembers encode (sortedEntries m)
  return .object members

theorem bind_eq_ok {ε β : Type} {x : Except ε α} {f : α → Except ε β} {b : β} :
    (x >>= f) = .ok b ↔ ∃ a, x = .ok a ∧ f a = .ok b := by
  cases x with
  | error e =>
    constructor
    · intro h
      cases h
    · rintro ⟨a, h, -⟩
      cases h
  | ok a =>
    constructor
    · intro h
      exact ⟨a, rfl, h⟩
    rintro ⟨a', h, hf⟩
    cases h
    exact hf

/-! ## What can be written -/

/-- The value can be written, and the text has no more than `d` open arrays and objects. -/
def Fits (d : Nat) (v : Value) : Prop := WellFormed v ∧ depth v ≤ d

theorem Fits.mono {d' : Nat} (h : Fits d v) (hd : d ≤ d') : Fits d' v :=
  ⟨h.1, h.2.trans hd⟩

theorem fits_string {body : List UInt8} (h : WellQuoted body) : Fits 0 (.string body) :=
  ⟨h, Nat.le_refl 0⟩

theorem fits_encodeString (s : List UInt8) : Fits 0 (encodeString s) :=
  fits_string (wellQuoted_quote s)

theorem fits_encodeInt64 (n : Int64) : Fits 0 (encodeInt64 n) :=
  ⟨⟨isNumber_formatInt64 n, isNumberByte_formatInt64 n⟩, Nat.le_refl 0⟩

theorem fits_encodeNat (n : Nat) : Fits 0 (encodeNat n) :=
  ⟨⟨isNumber_formatNat n, fun a ha => isNumberByte_of_isDigit (isDigit_formatNat a ha)⟩,
    Nat.le_refl 0⟩

theorem fits_bool (b : Bool) : Fits 0 (.bool b) := ⟨trivial, Nat.le_refl 0⟩

theorem fits_array {items : List Value} (h : ∀ v ∈ items, Fits d v) :
    Fits (d + 1) (.array items) := by
  have hitems : WellFormedItems items ∧ depthItems items ≤ d := by
    induction items with
    | nil => exact ⟨trivial, Nat.zero_le d⟩
    | cons v items ih =>
      obtain ⟨hwf, hdepth⟩ := h v mem_cons_self
      obtain ⟨hrest, hmax⟩ := ih fun w hw => h w (mem_cons_of_mem _ hw)
      exact ⟨⟨hwf, hrest⟩, max_le hdepth hmax⟩
  exact ⟨hitems.1, Nat.succ_le_succ hitems.2⟩

theorem fits_object {members : List (List UInt8 × Value)}
    (h : ∀ e ∈ members, WellQuoted e.1 ∧ Fits d e.2) : Fits (d + 1) (.object members) := by
  have hmembers : WellFormedMembers members ∧ depthMembers members ≤ d := by
    induction members with
    | nil => exact ⟨trivial, Nat.zero_le d⟩
    | cons e members ih =>
      obtain ⟨hname, hwf, hdepth⟩ := h e mem_cons_self
      obtain ⟨hrest, hmax⟩ := ih fun e' he' => h e' (mem_cons_of_mem _ he')
      exact ⟨⟨hname, hwf, hrest⟩, max_le hdepth hmax⟩
  exact ⟨hmembers.1, Nat.succ_le_succ hmembers.2⟩

/-- What was written is read as it was. -/
theorem unmarshal_render {decode : Decoder α} {zero : α} (h : Fits d v) (hd : d ≤ maxDepth) :
    unmarshal decode zero (render v) = decode v zero := by
  rw [unmarshal, parse_render h.1 (h.2.trans hd), bind_some]

theorem unmarshal_line {decode : Decoder α} {zero : α} (h : Fits d v) (hd : d ≤ maxDepth) :
    unmarshal decode zero (render v ++ [0x0A]) = decode v zero := by
  rw [unmarshal, parse_render_line h.1 (h.2.trans hd), bind_some]

theorem fits_member (name : String) (h : Fits d v) :
    WellQuoted (member name v).1 ∧ Fits d (member name v).2 :=
  ⟨wellQuoted_quote _, h⟩

theorem fits_omitEmpty {empty : Bool} {name : String} (h : Fits d v) :
    ∀ e ∈ omitEmpty empty name v, WellQuoted e.1 ∧ Fits d e.2 := by
  intro e he
  cases empty with
  | true => cases he
  | false =>
    rw [mem_singleton.mp he]
    exact fits_member name h

/-! ## Round trips -/

theorem decodeString_encodeString {s : List UInt8} (old : List UInt8) :
    decodeString (encodeString s) old = some (repair s) :=
  unquote_quote s

theorem decodeInt64_encodeInt64 (n old : Int64) : decodeInt64 (encodeInt64 n) old = some n :=
  parseInt64_formatInt64 n

theorem valid_decodeString {old s : List UInt8} (hold : Valid old)
    (h : decodeString v old = some s) : Valid s := by
  match v with
  | .null =>
    cases h
    exact hold
  | .string body => exact valid_unquote h
  | .bool _ | .number _ | .array _ | .object _ => cases h

section Members

variable {ε α β : Type}

variable {store : List UInt8 → Decoder α} {v : Value} {members : List (List UInt8 × Value)}
  {pairs : List (List UInt8 × α)} {m : GoMap (List UInt8) α}

theorem decodeMembers_cons {name : List UInt8} {a a' : α} (hname : Valid name)
    (h : store name v a = some a') (members : List (List UInt8 × Value)) :
    decodeMembers store ((quote name, v) :: members) a = decodeMembers store members a' := by
  rw [decodeMembers, unquote_quote, hname.repair_eq]
  simp only [h]

/-- A member that names a field sets it. -/
theorem decodeMembers_part (fields : List (RecordField α)) (name : List UInt8)
    {decode : Decoder β} {get : α → β} {set : α → β → α} (hname : Valid name)
    (hfield : findField fields name = some (.part name decode get set)) {a : α} {b : β}
    (h : decode v (get a) = some b) (members : List (List UInt8 × Value)) :
    decodeMembers (storeField fields) ((quote name, v) :: members) a =
      decodeMembers (storeField fields) members (set a b) := by
  refine decodeMembers_cons hname ?_ members
  rw [storeField, hfield]
  show (decode v (get a)).map (set a) = some (set a b)
  rw [h, map_some]

/-- A member that names no field is skipped. -/
theorem decodeMembers_skip (fields : List (RecordField α)) (name : String)
    (hname : Valid (bytes name)) (hfield : findField fields (bytes name) = none) (v : Value)
    (members : List (List UInt8 × Value)) (a : α) :
    decodeMembers (storeField fields) (member name v :: members) a =
      decodeMembers (storeField fields) members a := by
  refine decodeMembers_cons hname ?_ members
  rw [storeField, hfield]

theorem decodeSlice_map {encode : β → Value} {zero : α} {decode : Decoder α} {f : β → α}
    (h : ∀ b, decode (encode b) zero = some (f b)) (items : List β) (old : List α) :
    decodeSlice zero decode (.array (items.map encode)) old = some (items.map f) := by
  show (items.map encode).mapM (fun v => decode v zero) = some (items.map f)
  induction items with
  | nil => rfl
  | cons b items ih =>
    rw [map_cons, mapM_cons, h, ih]
    rfl

/-- What every single member preserves, an object preserves. -/
theorem decodeMembers_induction {P : α → Prop}
    (hstore : ∀ name v a a', Valid name → P a → store name v a = some a' → P a') {a a' : α}
    (ha : P a) (h : decodeMembers store members a = some a') : P a' := by
  induction members generalizing a with
  | nil =>
    cases h
    exact ha
  | cons e members ih =>
    rw [decodeMembers] at h
    match hname : unquote e.1 with
    | none => simp [hname] at h
    | some name =>
      match hstep : store name e.2 a with
      | none => simp [hname, hstep] at h
      | some a₁ =>
        simp only [hname, hstep] at h
        exact ih (hstore name e.2 a a₁ (valid_unquote hname) ha hstep) h

variable {encode : α → Except ε Value} {zero : β} {decode : Decoder β} {f : α → β}

theorem encodeMembers_cons_eq_ok {e : List UInt8 × α} :
    encodeMembers encode (e :: pairs) = .ok members ↔
      ∃ v, encode e.2 = .ok v ∧ ∃ rest, encodeMembers encode pairs = .ok rest ∧
        (quote e.1, v) :: rest = members := by
  rw [encodeMembers, bind_eq_ok]
  simp only [bind_eq_ok, pure, Except.pure, Except.ok.injEq]

/-- Members that were written for a map are stored one after the other. -/
theorem decodeMembers_encodeMembers (hvalid : ∀ e ∈ pairs, Valid e.1)
    (hdecode : ∀ e ∈ pairs, ∀ v, encode e.2 = .ok v → decode v zero = some (f e.2))
    (h : encodeMembers encode pairs = .ok members) (m : GoMap (List UInt8) β) :
    decodeMembers (storeEntry zero decode) members m =
      some (m.putAll (pairs.map fun e => (e.1, f e.2))) := by
  induction pairs generalizing members m with
  | nil =>
    cases h
    rfl
  | cons e pairs ih =>
    obtain ⟨v, hv, rest, hrest, rfl⟩ := encodeMembers_cons_eq_ok.mp h
    have hstore : storeEntry zero decode e.1 v m = some (m.insert e.1 (f e.2)) := by
      rw [storeEntry, hdecode e mem_cons_self v hv]
      rfl
    rw [decodeMembers_cons (hvalid e mem_cons_self) hstore,
      ih (fun d hd => hvalid d (mem_cons_of_mem _ hd))
        (fun d hd => hdecode d (mem_cons_of_mem _ hd)) hrest]
    rfl

theorem mem_sortedEntries {k : List UInt8} {a : α} :
    (k, a) ∈ sortedEntries m ↔ m.lookup k = some a := by
  have hperm := perm_insertionSort (fun a b : List UInt8 × α => a.1 ≤ b.1)
    (m.entries.map fun e => (e.1, e.2))
  rw [sortedEntries, hperm.mem_iff, List.mem_map]
  constructor
  · rintro ⟨⟨k', a'⟩, hmem, heq⟩
    cases heq
    exact AList.mem_lookup_iff.mpr hmem
  · intro h
    exact ⟨⟨k, a⟩, AList.mem_lookup_iff.mp h, rfl⟩

theorem nodup_sortedEntries (m : GoMap (List UInt8) α) :
    ((sortedEntries m).map Prod.fst).Nodup := by
  have hperm := perm_insertionSort (fun a b : List UInt8 × α => a.1 ≤ b.1)
    (m.entries.map fun e => (e.1, e.2))
  rw [sortedEntries, (hperm.map Prod.fst).nodup_iff, List.map_map]
  exact m.nodupKeys

theorem encodeMap_eq_ok : encodeMap encode m = .ok v ↔
      ∃ members, encodeMembers encode (sortedEntries m) = .ok members ∧ .object members = v := by
  rw [encodeMap, bind_eq_ok]
  simp only [pure, Except.pure, Except.ok.injEq]

/-- A map is read back with the same keys, each with the value that is read back for it. -/
theorem decodeMap_encodeMap (hvalid : ∀ k ∈ m, Valid k)
    (hdecode : ∀ k a w, m.lookup k = some a → encode a = .ok w → decode w zero = some (f a))
    (h : encodeMap encode m = .ok v) :
    ∃ m', decodeMap zero decode v ∅ = some m' ∧ ∀ k, m'.lookup k = (m.lookup k).map f := by
  obtain ⟨members, hmembers, rfl⟩ := encodeMap_eq_ok.mp h
  refine ⟨_, decodeMembers_encodeMembers
    (fun e he => hvalid e.1 (GoMap.mem_of_lookup (mem_sortedEntries.mp he)))
    (fun e he w hw => hdecode e.1 e.2 w (mem_sortedEntries.mp he) hw) hmembers ∅, fun k => ?_⟩
  have hkeys : ((sortedEntries m).map fun e => (e.1, f e.2)).map Prod.fst =
      (sortedEntries m).map Prod.fst := by
    rw [List.map_map]
    rfl
  cases hk : m.lookup k with
  | none =>
    rw [GoMap.lookup_putAll_of_notMem, AList.lookup_empty]
    · rfl
    rw [hkeys, List.mem_map]
    rintro ⟨e, he, rfl⟩
    rw [mem_sortedEntries.mp he] at hk
    cases hk
  | some a =>
    exact GoMap.lookup_putAll (hkeys ▸ nodup_sortedEntries m)
      (mem_map.mpr ⟨(k, a), mem_sortedEntries.mpr hk, rfl⟩)

/-- A map can be written if its values can. -/
theorem exists_encodeMap (h : ∀ k a, m.lookup k = some a → ∃ v, encode a = .ok v) :
    ∃ v, encodeMap encode m = .ok v := by
  have hmembers : ∀ pairs : List (List UInt8 × α), (∀ e ∈ pairs, ∃ v, encode e.2 = .ok v) →
      ∃ members, encodeMembers encode pairs = .ok members := by
    intro pairs hpairs
    induction pairs with
    | nil => exact ⟨[], rfl⟩
    | cons e pairs ih =>
      obtain ⟨v, hv⟩ := hpairs e mem_cons_self
      obtain ⟨rest, hrest⟩ := ih fun d hd => hpairs d (mem_cons_of_mem _ hd)
      exact ⟨_, encodeMembers_cons_eq_ok.mpr ⟨v, hv, rest, hrest, rfl⟩⟩
  obtain ⟨members, hok⟩ :=
    hmembers (sortedEntries m) fun e he => h e.1 e.2 (mem_sortedEntries.mp he)
  exact ⟨_, encodeMap_eq_ok.mpr ⟨members, hok, rfl⟩⟩

theorem fits_encodeMap {d : Nat} (hencode : ∀ a v, encode a = .ok v → Fits d v)
    (h : encodeMap encode m = .ok v) : Fits (d + 1) v := by
  obtain ⟨members, hmembers, rfl⟩ := encodeMap_eq_ok.mp h
  refine fits_object ?_
  clear h
  -- the members in the order in which they are written
  generalize sortedEntries m = pairs at hmembers
  induction pairs generalizing members with
  | nil =>
    cases hmembers
    simp
  | cons e pairs ih =>
    obtain ⟨v, hv, rest, hrest, rfl⟩ := encodeMembers_cons_eq_ok.mp hmembers
    exact forall_mem_cons.mpr ⟨⟨wellQuoted_quote _, hencode _ _ hv⟩, ih rest hrest⟩

end Members

end DistributedKV.Json
