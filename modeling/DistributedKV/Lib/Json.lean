import DistributedKV.Lib.JsonText

/-!
# JSON texts

Values, the scanner that reads them and the writer, as `encoding/json` of Go has them. The scanner
looks at one byte after the other. What it has read of the arrays and objects around its position
is a stack of frames, of which it allows a limited number; a text is read when the scanner is at
the end of a value with nothing around it (`parse`). Strings and numbers are kept as they stand in
the text.

The round trip `parse_render` rests on `run_render`, by induction over the value: wherever the
scanner expects a value, the text of one takes it to the place behind that value.
-/

namespace DistributedKV.Json

open List

/-- A JSON value. Strings, names and numbers are the bytes of the text. -/
inductive Value where
  | null
  | bool (b : Bool)
  | number (literal : List UInt8)
  | string (body : List UInt8)
  | array (items : List Value)
  | object (members : List (List UInt8 × Value))

/-! ## Numbers -/

def isDigit (a : UInt8) : Bool := 0x30 ≤ a && a ≤ 0x39

/-- The bytes of which numbers are made. -/
def isNumberByte (a : UInt8) : Bool :=
  isDigit a || a = 0x2B || a = 0x2D || a = 0x2E || a = 0x65 || a = 0x45

/-- At least one digit, and then what is expected behind the digits. -/
def digitsThen (next : List UInt8 → Bool) : List UInt8 → Bool
  | [] => false
  | a :: s => isDigit a && next (s.dropWhile isDigit)

/-- The exponent of a number, or nothing. -/
def isExponent : List UInt8 → Bool
  | [] => true
  | e :: s =>
    (e = 0x65 || e = 0x45) &&
      match s with
      | 0x2B :: s => digitsThen List.isEmpty s
      | 0x2D :: s => digitsThen List.isEmpty s
      | s => digitsThen List.isEmpty s

/-- The fraction and the exponent of a number, or nothing. -/
def isFraction : List UInt8 → Bool
  | 0x2E :: s => digitsThen isExponent s
  | s => isExponent s

/-- A number without its sign: no zero stands before other digits. -/
def isMagnitude : List UInt8 → Bool
  | 0x30 :: s => isFraction s
  | s => digitsThen isFraction s

/-- A number of a JSON text. -/
def isNumber : List UInt8 → Bool
  | 0x2D :: s => isMagnitude s
  | s => isMagnitude s

/-! ## The scanner -/

/-- An array or object that has begun: what it has so far, the last first, and the last name. -/
inductive Frame where
  | array (items : List Value)
  | object (members : List (List UInt8 × Value)) (name : List UInt8)

/-- Where the scanner is. -/
inductive State where
  /-- A value begins. -/
  | value (stack : List Frame)
  /-- Behind the bracket that opens an array. -/
  | firstItem (stack : List Frame)
  /-- Behind the brace that opens an object. -/
  | firstName (stack : List Frame)
  /-- Behind a comma in an object. -/
  | nextName (stack : List Frame)
  /-- Behind a name. -/
  | colon (stack : List Frame)
  | string (isName : Bool) (q : StrState) (body : List UInt8) (stack : List Frame)
  | number (literal : List UInt8) (stack : List Frame)
  /-- In `true`, `false` or `null`, with `rest` to come. -/
  | word (rest : List UInt8) (v : Value) (stack : List Frame)
  /-- Behind a value in an array or object. -/
  | behind (stack : List Frame)
  /-- Behind the value of the text. -/
  | done (v : Value)

/-- How many arrays and objects may be open at once. -/
def maxDepth : Nat := 10000

def isSpace (a : UInt8) : Bool := a = 0x20 || a = 0x09 || a = 0x0A || a = 0x0D

/-- A value is complete. -/
def finish (v : Value) : List Frame → State
  | [] => .done v
  | .array items :: stack => .behind (.array (v :: items) :: stack)
  | .object members name :: stack => .behind (.object ((name, v) :: members) name :: stack)

/-- The innermost array or object is complete. -/
def close : List Frame → Option State
  | [] => none
  | .array items :: stack => some (finish (.array items.reverse) stack)
  | .object members _ :: stack => some (finish (.object members.reverse) stack)

/-- An array or object begins. -/
def push (frame : Frame) (next : List Frame → State) (stack : List Frame) : Option State :=
  -- "exceeded max depth" otherwise
  if stack.length < maxDepth then some (next (frame :: stack)) else none

/-- A name is complete. -/
def named (name : List UInt8) : List Frame → Option State
  | .object members _ :: stack => some (.colon (.object members name :: stack))
  | _ => none

/-- The first byte of a value. -/
def beginValue (stack : List Frame) (c : UInt8) : Option State :=
  -- a quotation mark, a bracket, a brace, then `true`, `false` and `null`
  if c = 0x22 then some (.string false .plain [] stack)
  else if c = 0x5B then push (.array []) .firstItem stack
  else if c = 0x7B then push (.object [] []) .firstName stack
  else if c = 0x74 then some (.word [0x72, 0x75, 0x65] (.bool true) stack)
  else if c = 0x66 then some (.word [0x61, 0x6C, 0x73, 0x65] (.bool false) stack)
  else if c = 0x6E then some (.word [0x75, 0x6C, 0x6C] .null stack)
  else if isDigit c || c = 0x2D then some (.number [c] stack)
  else none

/-- A byte behind a value. -/
def stepBehind : State → UInt8 → Option State
  | .behind (.array items :: stack), c =>
    if isSpace c then some (.behind (.array items :: stack))
    else if c = 0x2C then some (.value (.array items :: stack))
    else if c = 0x5D then close (.array items :: stack)
    else none
  | .behind (.object members name :: stack), c =>
    if isSpace c then some (.behind (.object members name :: stack))
    else if c = 0x2C then some (.nextName (.object members name :: stack))
    else if c = 0x7D then close (.object members name :: stack)
    else none
  | .done v, c => if isSpace c then some (.done v) else none
  | _, _ => none

/-- One byte; `none` if the text is refused. -/
def step : State → UInt8 → Option State
  | .value stack, c => if isSpace c then some (.value stack) else beginValue stack c
  | .firstItem stack, c =>
    if isSpace c then some (.firstItem stack)
    else if c = 0x5D then close stack
    else beginValue stack c
  | .firstName stack, c =>
    if isSpace c then some (.firstName stack)
    else if c = 0x22 then some (.string true .plain [] stack)
    else if c = 0x7D then close stack
    else none
  | .nextName stack, c =>
    if isSpace c then some (.nextName stack)
    else if c = 0x22 then some (.string true .plain [] stack)
    else none
  | .colon stack, c =>
    if isSpace c then some (.colon stack)
    else if c = 0x3A then some (.value stack)
    else none
  | .string isName q body stack, c =>
    match q.step c with
    | none => none
    | some (some q') => some (.string isName q' (c :: body) stack)
    | some none =>
      if isName then named body.reverse stack else some (finish (.string body.reverse) stack)
  | .number literal stack, c =>
    if isNumberByte c then some (.number (c :: literal) stack)
    else if isNumber literal.reverse then
      -- the byte belongs to what is behind the number
      stepBehind (finish (.number literal.reverse) stack) c
    else none
  | .word [] _ _, _ => none
  | .word [a] v stack, c => if c = a then some (finish v stack) else none
  | .word (a :: rest) v stack, c => if c = a then some (.word rest v stack) else none
  | .behind stack, c => stepBehind (.behind stack) c
  | .done v, c => stepBehind (.done v) c

/-- The end of the text counts as a space. -/
def eof (s : State) : Option Value :=
  match step s 0x20 with
  | some (.done v) => some v
  | _ => none

/-- The value that is read from here on. -/
def run (s : State) : List UInt8 → Option Value
  | [] => eof s
  | c :: text =>
    match step s c with
    | some s' => run s' text
    | none => none

/-- The value of a text. -/
def parse (text : List UInt8) : Option Value := run (.value []) text

/-! ## The writer -/

mutual

/-- The text of a value, without spaces. -/
def render : Value → List UInt8
  | .null => [0x6E, 0x75, 0x6C, 0x6C]
  | .bool true => [0x74, 0x72, 0x75, 0x65]
  | .bool false => [0x66, 0x61, 0x6C, 0x73, 0x65]
  | .number literal => literal
  | .string body => 0x22 :: (body ++ [0x22])
  | .array items => 0x5B :: (renderItems [] items ++ [0x5D])
  | .object members => 0x7B :: (renderMembers [] members ++ [0x7D])

/-- The items of an array; `sep` stands before the first of them. -/
def renderItems : List UInt8 → List Value → List UInt8
  | _, [] => []
  | sep, v :: rest => sep ++ (render v ++ renderItems [0x2C] rest)

/-- The members of an object. -/
def renderMembers : List UInt8 → List (List UInt8 × Value) → List UInt8
  | _, [] => []
  | sep, (name, v) :: rest =>
    sep ++ 0x22 :: (name ++ 0x22 :: 0x3A :: (render v ++ renderMembers [0x2C] rest))

end

mutual

/-- The strings, names and numbers of the value can stand in a text. -/
def WellFormed : Value → Prop
  | .number literal => isNumber literal = true ∧ ∀ a ∈ literal, isNumberByte a = true
  | .string body => WellQuoted body
  | .array items => WellFormedItems items
  | .object members => WellFormedMembers members
  | _ => True

def WellFormedItems : List Value → Prop
  | [] => True
  | v :: rest => WellFormed v ∧ WellFormedItems rest

def WellFormedMembers : List (List UInt8 × Value) → Prop
  | [] => True
  | (name, v) :: rest => WellQuoted name ∧ WellFormed v ∧ WellFormedMembers rest

end

mutual

/-- How many arrays and objects are open at once in the text. -/
def depth : Value → Nat
  | .array items => depthItems items + 1
  | .object members => depthMembers members + 1
  | _ => 0

def depthItems : List Value → Nat
  | [] => 0
  | v :: rest => max (depth v) (depthItems rest)

def depthMembers : List (List UInt8 × Value) → Nat
  | [] => 0
  | (_, v) :: rest => max (depth v) (depthMembers rest)

end

/-! ## Reading strings and numbers -/

section Leaves

variable {stack : List Frame} {text : List UInt8}

theorem run_of_step {s s' : State} {c : UInt8} (h : step s c = some s') (text : List UInt8) :
    run s (c :: text) = run s' text := by
  rw [run, h]

/-- The scanner passes over a part of a string that does not end it. -/
theorem run_string {isName : Bool} {q q' : StrState} {part : List UInt8}
    (h : q.run part = some q') (body : List UInt8) (text : List UInt8) :
    run (.string isName q body stack) (part ++ text) =
      run (.string isName q' (part.reverse ++ body) stack) text := by
  induction part generalizing q body with
  | nil =>
    cases h
    rfl
  | cons a part ih =>
    rw [StrState.run] at h
    cases hstep : q.step a with
    | none => simp [hstep] at h
    | some next =>
      cases next with
      | none => simp [hstep] at h
      | some q'' =>
        rw [hstep] at h
        have hnext : step (.string isName q body stack) a =
            some (.string isName q'' (a :: body) stack) := by
          simp only [step, hstep]
        rw [cons_append, run_of_step hnext, ih h, reverse_cons, append_assoc, singleton_append]

theorem run_name {name : List UInt8} (h : WellQuoted name)
    (members : List (List UInt8 × Value)) (last : List UInt8) (stack : List Frame)
    (text : List UInt8) :
    run (.string true .plain [] (.object members last :: stack)) (name ++ 0x22 :: text) =
      run (.colon (.object members name :: stack)) text := by
  rw [run_string h, append_nil]
  have hend : step (.string true .plain name.reverse (.object members last :: stack)) 0x22 =
      some (.colon (.object members name :: stack)) := by
    simp [step, StrState.step, named]
  exact run_of_step hend _

/-- Behind a value the text ends, or goes on with something that is not part of a number. -/
def Apart (text : List UInt8) : Prop := ∀ c ∈ text.head?, isNumberByte c = false

theorem run_number_of_apart {literal : List UInt8} (hnumber : isNumber literal.reverse = true)
    (h : Apart text) :
    run (.number literal stack) text = run (finish (.number literal.reverse) stack) text := by
  have hstep : ∀ c, isNumberByte c = false →
      step (.number literal stack) c = step (finish (.number literal.reverse) stack) c := by
    intro c hc
    have hbehind : step (finish (.number literal.reverse) stack) c =
        stepBehind (finish (.number literal.reverse) stack) c := by
      match stack with
      | [] | .array _ :: _ | .object _ _ :: _ => rfl
    rw [hbehind]
    simp [step, hc, hnumber]
  cases text with
  | nil => rw [run, run, eof, eof, hstep 0x20 (by decide)]
  | cons c text => rw [run, run, hstep c (h c rfl)]

theorem run_digits {more : List UInt8} (h : ∀ a ∈ more, isNumberByte a = true)
    (literal text : List UInt8) : run (.number literal stack) (more ++ text) =
      run (.number (more.reverse ++ literal) stack) text := by
  induction more generalizing literal with
  | nil => rfl
  | cons a more ih =>
    have hstep : step (.number literal stack) a = some (.number (a :: literal) stack) := by
      simp [step, h a mem_cons_self]
    rw [cons_append, run_of_step hstep, ih fun b hb => h b (mem_cons_of_mem _ hb),
      reverse_cons, append_assoc, singleton_append]

end Leaves

/-! ## The round trip -/

variable {literal : List UInt8} {c : UInt8} {v : Value}

theorem exists_cons_of_isNumber (h : isNumber literal = true) :
    ∃ c more, literal = c :: more ∧ (isDigit c = true ∨ c = 0x2D) := by
  match literal with
  | [] => simp [isNumber, isMagnitude, digitsThen] at h
  | c :: more =>
    refine ⟨c, more, rfl, ?_⟩
    by_cases hsign : c = 0x2D
    · exact Or.inr hsign
    by_cases hzero : c = 0x30
    · exact Or.inl (by rw [hzero]; decide)
    rw [isNumber.eq_2 (c :: more) (by simpa using hsign),
      isMagnitude.eq_2 (c :: more) (by simpa using hzero), digitsThen, Bool.and_eq_true] at h
    exact Or.inl h.1

/-- The first byte of a number begins a value and nothing else. -/
theorem beginValue_number (h : isDigit c = true ∨ c = 0x2D) (stack : List Frame) :
    isSpace c = false ∧ c ≠ 0x5D ∧ beginValue stack c = some (.number [c] stack) := by
  rcases h with h | rfl
  · have hrange : 0x30 ≤ c ∧ c ≤ 0x39 := by simpa [isDigit] using h
    have hne : ∀ d : UInt8, d < 0x30 ∨ 0x39 < d → c ≠ d := by
      rintro d hd rfl
      rcases hd with hd | hd
      · exact absurd hrange.1 (UInt8.not_le.2 hd)
      · exact absurd hrange.2 (UInt8.not_le.2 hd)
    refine ⟨?_, hne _ (by decide), ?_⟩
    · simp [isSpace, hne 0x20 (by decide), hne 0x09 (by decide), hne 0x0A (by decide),
        hne 0x0D (by decide)]
    · simp [beginValue, h, hne 0x22 (by decide), hne 0x5B (by decide), hne 0x7B (by decide),
        hne 0x74 (by decide), hne 0x66 (by decide), hne 0x6E (by decide)]
  · exact ⟨by decide, by decide, rfl⟩

/-- The first item of an array is read as any other value. -/
theorem run_firstItem (h : WellFormed v) (stack : List Frame) (text : List UInt8) :
    run (.firstItem stack) (render v ++ text) = run (.value stack) (render v ++ text) := by
  have hsame : ∀ c more, isSpace c = false → c ≠ 0x5D →
      run (.firstItem stack) (c :: more) = run (.value stack) (c :: more) := by
    intro c more hspace hclose
    rw [run, run, step, step, hspace]
    simp [hclose]
  match v with
  | .null | .bool true | .bool false | .string _ | .array _ | .object _ =>
    exact hsame _ _ (by decide) (by decide)
  | .number literal =>
    obtain ⟨c, more, rfl, hc⟩ := exists_cons_of_isNumber h.1
    obtain ⟨hspace, hclose, -⟩ := beginValue_number hc stack
    exact hsame c _ hspace hclose

theorem run_render_number (h : WellFormed (.number literal)) (stack : List Frame)
    {text : List UInt8} (htext : Apart text) :
    run (.value stack) (literal ++ text) = run (finish (.number literal) stack) text := by
  obtain ⟨c, more, rfl, hc⟩ := exists_cons_of_isNumber h.1
  obtain ⟨hspace, -, hbegin⟩ := beginValue_number hc stack
  have hstep : step (.value stack) c = some (.number [c] stack) := by
    rw [step, hspace]
    exact hbegin
  have hback : (more.reverse ++ [c]).reverse = c :: more := by simp
  rw [cons_append, run_of_step hstep, run_digits fun a ha => h.2 a (mem_cons_of_mem _ ha),
    run_number_of_apart (hback ▸ h.1) htext, hback]

theorem push_of_le {frame : Frame} {next : List Frame → State} {stack : List Frame} {d : Nat}
    (h : d + 1 + stack.length ≤ maxDepth) :
    push frame next stack = some (next (frame :: stack)) := by
  rw [push, if_pos (by omega)]

theorem apart_cons (h : isNumberByte c = false) (text : List UInt8) : Apart (c :: text) := by
  intro d hd
  cases hd
  exact h

theorem apart_append (hc : isNumberByte c = false) {more : List UInt8}
    (h : ∀ d ∈ more.head?, d = 0x2C) (text : List UInt8) : Apart (more ++ c :: text) := by
  match more with
  | [] => exact apart_cons hc text
  | d :: more =>
    obtain rfl := h d rfl
    exact apart_cons (by decide) _

theorem head_renderItems (items : List Value) :
    ∀ d ∈ (renderItems [0x2C] items).head?, d = 0x2C := by
  cases items <;> simp [renderItems]

theorem head_renderMembers (members : List (List UInt8 × Value)) :
    ∀ d ∈ (renderMembers [0x2C] members).head?, d = 0x2C := by
  match members with
  | [] => simp [renderMembers]
  | (_, _) :: _ => simp [renderMembers]

-- By recursion over the value. The stack is arbitrary, because the items of an array are
-- read with one more frame; `Apart` is what stops a number at the end of its text.
mutual

/-- Where a value is expected, the text of a value leads behind that value. -/
theorem run_render : ∀ (v : Value), WellFormed v → ∀ stack : List Frame,
    depth v + stack.length ≤ maxDepth → ∀ text : List UInt8, Apart text →
      run (.value stack) (render v ++ text) = run (finish v stack) text
  | .null, _, _, _, _, _ => rfl
  | .bool true, _, _, _, _, _ => rfl
  | .bool false, _, _, _, _, _ => rfl
  | .number _, h, stack, _, _, htext => run_render_number h stack htext
  | .string body, h, stack, _, text, _ => by
    have hbegin : step (.value stack) 0x22 = some (.string false .plain [] stack) := rfl
    have hend : step (.string false .plain body.reverse stack) 0x22 =
        some (finish (.string body) stack) := by
      simp [step, StrState.step]
    rw [render, cons_append, run_of_step hbegin, append_assoc, run_string h, append_nil]
    exact run_of_step hend text
  | .array [], _, stack, hdepth, text, _ => by
    have hbegin : step (.value stack) 0x5B = some (.firstItem (.array [] :: stack)) :=
      push_of_le hdepth
    exact run_of_step hbegin _
  | .array (v :: rest), h, stack, hdepth, text, _ => by
    rw [depth, depthItems] at hdepth
    have hbegin : step (.value stack) 0x5B = some (.firstItem (.array [] :: stack)) :=
      push_of_le hdepth
    have hv := run_render v h.1 (.array [] :: stack) (by rw [length_cons]; omega) _
      (apart_append (c := 0x5D) (by decide) (head_renderItems rest) text)
    have hrest := run_renderItems rest h.2 [v] stack (by omega) text
    rw [render, renderItems, cons_append, run_of_step hbegin, nil_append,
      append_assoc, append_assoc, run_firstItem h.1]
    exact hv.trans hrest
  | .object [], _, stack, hdepth, text, _ => by
    have hbegin : step (.value stack) 0x7B = some (.firstName (.object [] [] :: stack)) :=
      push_of_le hdepth
    exact run_of_step hbegin _
  | .object ((name, v) :: rest), h, stack, hdepth, text, _ => by
    rw [depth, depthMembers] at hdepth
    have hbegin : step (.value stack) 0x7B = some (.firstName (.object [] [] :: stack)) :=
      push_of_le hdepth
    have hv := run_render v h.2.1 (.object [] name :: stack) (by rw [length_cons]; omega) _
      (apart_append (c := 0x7D) (by decide) (head_renderMembers rest) text)
    have hrest := run_renderMembers rest h.2.2 [(name, v)] name stack (by omega) text
    have hname := run_name h.1 [] [] stack
      (0x3A :: (render v ++ (renderMembers [0x2C] rest ++ 0x7D :: text)))
    rw [render, renderMembers, cons_append, run_of_step hbegin]
    simp only [nil_append, cons_append, append_assoc]
    exact hname.trans (hv.trans hrest)

/-- Behind an item, the text of the other items leads behind their array. -/
theorem run_renderItems : ∀ (items : List Value), WellFormedItems items →
    ∀ (before : List Value) (stack : List Frame), depthItems items + 1 + stack.length ≤ maxDepth →
      ∀ text : List UInt8,
        run (.behind (.array before :: stack)) (renderItems [0x2C] items ++ 0x5D :: text) =
          run (finish (.array (before.reverse ++ items)) stack) text
  | [], _, before, stack, _, text => by
    rw [append_nil]
    rfl
  | v :: rest, h, before, stack, hdepth, text => by
    rw [depthItems] at hdepth
    have hv := run_render v h.1 (.array before :: stack) (by rw [length_cons]; omega) _
      (apart_append (c := 0x5D) (by decide) (head_renderItems rest) text)
    have hrest := run_renderItems rest h.2 (v :: before) stack (by omega) text
    rw [reverse_cons, append_assoc] at hrest
    rw [renderItems, append_assoc, append_assoc]
    exact hv.trans hrest

/-- Behind a member, the text of the other members leads behind their object. -/
theorem run_renderMembers : ∀ (members : List (List UInt8 × Value)), WellFormedMembers members →
    ∀ (before : List (List UInt8 × Value)) (last : List UInt8) (stack : List Frame),
      depthMembers members + 1 + stack.length ≤ maxDepth → ∀ text : List UInt8,
        run (.behind (.object before last :: stack))
            (renderMembers [0x2C] members ++ 0x7D :: text) =
          run (finish (.object (before.reverse ++ members)) stack) text
  | [], _, before, last, stack, _, text => by
    rw [append_nil]
    rfl
  | (name, v) :: rest, h, before, last, stack, hdepth, text => by
    rw [depthMembers] at hdepth
    have hv := run_render v h.2.1 (.object before name :: stack) (by rw [length_cons]; omega) _
      (apart_append (c := 0x7D) (by decide) (head_renderMembers rest) text)
    have hrest := run_renderMembers rest h.2.2 ((name, v) :: before) name stack (by omega) text
    rw [reverse_cons, append_assoc] at hrest
    have hname := run_name h.1 before last stack
      (0x3A :: (render v ++ (renderMembers [0x2C] rest ++ 0x7D :: text)))
    rw [renderMembers]
    simp only [cons_append, append_assoc]
    exact hname.trans (hv.trans hrest)

end

/-- What the writer makes of a value is read as that value. -/
theorem parse_render (h : WellFormed v) (hdepth : depth v ≤ maxDepth) :
    parse (render v) = some v := by
  have hread := run_render v h [] hdepth [] (by intro c hc; simp at hc)
  rw [append_nil] at hread
  exact hread

theorem parse_render_line (h : WellFormed v) (hdepth : depth v ≤ maxDepth) :
    parse (render v ++ [0x0A]) = some v :=
  run_render v h [] hdepth [0x0A] (apart_cons (by decide) [])

end DistributedKV.Json
