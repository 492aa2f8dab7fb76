import Mathlib.Data.List.Chain
import Mathlib.Data.List.Nodup

/-!
# Doubly linked lists in a heap

A heap gives every address a cell: some data, and the two links of an intrusive doubly linked list.
A link may be null, and the operations return `none` where they would follow a null link.

`Strung h head tail ps` says that the cells between the sentinels `head` and `tail` are those at
`ps`, each linked to its neighbours both ways. The results are what the operations do to `ps`, and
that a list is read forwards and backwards as `ps` and its reverse.

A list may also have no sentinels, and two variables for its ends: `Linked h head tail ps`. Then the
first cell has no link back and the last one none forward. The results are what the assignments for
each position of a cell that is taken out, and for a new first cell, do to `ps`, and that `walk`,
which follows a link until there is none, reads `ps` forwards and backwards.
-/

namespace DistributedKV

open List Option

universe u

/-- A cell of an intrusive doubly linked list. -/
structure Cell (P α : Type u) where
  data : α
  prev : Option P
  next : Option P

/-- A heap: the cell at each address. -/
abbrev Heap (P α : Type u) := P → Cell P α

namespace Heap

variable {P α : Type u} [DecidableEq P]

/-! ## Assignments through a pointer -/

def setCell (h : Heap P α) (p : P) (c : Cell P α) : Heap P α :=
  fun q => if q = p then c else h q

def setData (h : Heap P α) (p : P) (d : α) : Heap P α :=
  h.setCell p { h p with data := d }

def setPrev (h : Heap P α) (p : P) (l : Option P) : Heap P α :=
  h.setCell p { h p with prev := l }

def setNext (h : Heap P α) (p : P) (l : Option P) : Heap P α :=
  h.setCell p { h p with next := l }

variable (h : Heap P α) (p q : P) (d : α) (l : Option P)

theorem setCell_self (c : Cell P α) : h.setCell p c p = c := if_pos rfl

theorem setCell_of_ne (c : Cell P α) {p q : P} (hne : q ≠ p) : h.setCell p c q = h q :=
  if_neg hne

@[simp] theorem data_setPrev : (h.setPrev p l q).data = (h q).data := by
  unfold setPrev setCell
  split <;> simp [*]

@[simp] theorem data_setNext : (h.setNext p l q).data = (h q).data := by
  unfold setNext setCell
  split <;> simp [*]

@[simp] theorem next_setPrev : (h.setPrev p l q).next = (h q).next := by
  unfold setPrev setCell
  split <;> simp [*]

@[simp] theorem prev_setNext : (h.setNext p l q).prev = (h q).prev := by
  unfold setNext setCell
  split <;> simp [*]

@[simp] theorem next_setData : (h.setData p d q).next = (h q).next := by
  unfold setData setCell
  split <;> simp [*]

@[simp] theorem prev_setData : (h.setData p d q).prev = (h q).prev := by
  unfold setData setCell
  split <;> simp [*]

theorem prev_setPrev : (h.setPrev p l q).prev = if q = p then l else (h q).prev := by
  unfold setPrev setCell
  split <;> rfl

theorem next_setNext : (h.setNext p l q).next = if q = p then l else (h q).next := by
  unfold setNext setCell
  split <;> rfl

theorem data_setData : (h.setData p d q).data = if q = p then d else (h q).data := by
  unfold setData setCell
  split <;> rfl

/-! ## The list operations -/

/-- Take `p` out of its list: its two neighbours are linked to each other. -/
def unlink (h : Heap P α) (p : P) : Option (Heap P α) := do
  let before ← (h p).prev
  let h := h.setNext before (h p).next
  let after ← (h p).next
  return h.setPrev after (h p).prev

/-- Put `p` between `head` and the cell behind it. -/
def pushAfter (h : Heap P α) (head p : P) : Option (Heap P α) := do
  let h := h.setPrev p (some head)
  let h := h.setNext p (h head).next
  let first ← (h head).next
  let h := h.setPrev first (some p)
  return h.setNext head (some p)

/-- The addresses read by following `link` until `stop`, in at most `n` steps. -/
def follow (link : P → Option P) (stop : P) : Nat → P → Option (List P)
  | 0, _ => none
  | n + 1, p =>
    match link p with
    | none => none
    | some q => if q = stop then some [] else (follow link stop n q).map (q :: ·)

/-! ## Lists between two sentinels -/

/-- `b` is the cell behind `a`, by both links. -/
def Adjacent (h : Heap P α) (a b : P) : Prop :=
  (h a).next = some b ∧ (h b).prev = some a

/-- The cells between the sentinels `head` and `tail` are those at `ps`. -/
structure Strung (h : Heap P α) (head tail : P) (ps : List P) : Prop where
  chain : List.IsChain h.Adjacent (head :: (ps ++ [tail]))
  nodup : (head :: (ps ++ [tail])).Nodup

variable {h p q d l}

variable {ps : List P} {link : P → Option P}

/-- Writing the forward link of a cell leaves every chain it does not continue. -/
theorem isChain_setNext (hps : List.IsChain h.Adjacent ps) (hp : p ∉ ps.dropLast) :
    List.IsChain (h.setNext p l).Adjacent ps := by
  induction ps with
  | nil => exact .nil
  | cons a ps ih =>
    cases ps with
    | nil => exact .singleton a
    | cons b ps =>
      rw [isChain_cons_cons] at hps ⊢
      rw [dropLast_cons_cons, mem_cons, not_or] at hp
      refine ⟨⟨?_, by simpa using hps.1.2⟩, ih hps.2 hp.2⟩
      rw [next_setNext, if_neg (Ne.symm hp.1)]
      exact hps.1.1

/-- Writing the backward link of a cell leaves every chain that does not lead to it. -/
theorem isChain_setPrev (hps : List.IsChain h.Adjacent ps) (hp : p ∉ ps.tail) :
    List.IsChain (h.setPrev p l).Adjacent ps := by
  refine IsChain.imp_of_mem_tail_imp ?_ hps
  intro a b _ hb hab
  refine ⟨by simpa using hab.1, ?_⟩
  rw [prev_setPrev, if_neg (by rintro rfl; exact hp hb)]
  exact hab.2

/-- Following a link along a chain reads the chain up to `stop`. -/
theorem follow_eq {stop : P} {n : Nat}
    (hps : List.IsChain (fun a b => link a = some b) (p :: (ps ++ [stop]))) (hstop : stop ∉ ps)
    (hn : ps.length < n) : follow link stop n p = some ps := by
  induction ps generalizing p n with
  | nil =>
    obtain ⟨m, rfl⟩ := Nat.exists_eq_add_of_lt hn
    have hlink : link p = some stop := by simpa using hps
    simp [follow, hlink]
  | cons q ps ih =>
    obtain ⟨m, rfl⟩ := Nat.exists_eq_succ_of_ne_zero (Nat.ne_zero_of_lt hn)
    rw [cons_append, isChain_cons_cons] at hps
    rw [mem_cons, not_or] at hstop
    have hrest : follow link stop m q = some ps := ih hps.2 hstop.2 (by simpa using hn)
    simp only [follow, hps.1, if_neg (Ne.symm hstop.1), hrest, map_some]

namespace Strung

variable {head tail : P} {ps as bs : List P}

/-- Links only: a chain does not see what the cells hold. -/
theorem setData (hs : h.Strung head tail ps) : (h.setData p d).Strung head tail ps :=
  ⟨hs.chain.imp fun a b hab => ⟨by simpa using hab.1, by simpa using hab.2⟩, hs.nodup⟩

theorem nil (hne : head ≠ tail) :
    ((h.setNext head (some tail)).setPrev tail (some head)).Strung head tail [] := by
  refine ⟨?_, by simpa using hne⟩
  rw [nil_append, isChain_pair]
  exact ⟨by simp [next_setNext], by simp [prev_setPrev]⟩

theorem setCell (hs : h.Strung head tail ps) (hp : p ∉ head :: (ps ++ [tail])) {c : Cell P α} :
    (h.setCell p c).Strung head tail ps := by
  refine ⟨hs.chain.imp_of_mem_imp fun a b ha hb hab => ?_, hs.nodup⟩
  have hap : a ≠ p := fun heq => hp (heq ▸ ha)
  have hbp : b ≠ p := fun heq => hp (heq ▸ hb)
  unfold Adjacent
  rw [setCell_of_ne h c hap, setCell_of_ne h c hbp]
  exact hab

omit [DecidableEq P] in
/-- The cell at `p` has a neighbour on each side, one of them perhaps a sentinel. -/
theorem neighbours (hs : h.Strung head tail (as ++ p :: bs)) :
    ∃ l x y r, head :: as = l ++ [x] ∧ bs ++ [tail] = y :: r ∧
      head :: ((as ++ p :: bs) ++ [tail]) = l ++ x :: p :: y :: r ∧
      h.Adjacent x p ∧ h.Adjacent p y := by
  obtain ⟨l, x, hl⟩ := eq_nil_or_concat' (head :: as) |>.resolve_left (cons_ne_nil _ _)
  obtain ⟨y, r, hr⟩ := exists_cons_of_ne_nil
    (append_ne_nil_of_right_ne_nil bs (cons_ne_nil tail []))
  have heq : head :: ((as ++ p :: bs) ++ [tail]) = l ++ x :: p :: y :: r := by
    calc head :: ((as ++ p :: bs) ++ [tail]) = (head :: as) ++ p :: (bs ++ [tail]) := by simp
      _ = l ++ x :: p :: y :: r := by rw [hl, hr]; simp
  have hchain := heq ▸ hs.chain
  rw [isChain_append_cons_cons, isChain_cons_cons] at hchain
  exact ⟨l, x, y, r, hl, hr, heq, hchain.2.1, hchain.2.2.1⟩

omit [DecidableEq P] in
/-- The cell before the tail sentinel is the last of the list. -/
theorem prev_tail (hs : h.Strung head tail (ps ++ [p])) : (h tail).prev = some p := by
  have hchain := hs.chain
  rw [append_assoc, singleton_append, ← cons_append, isChain_append_cons_cons] at hchain
  exact hchain.2.1.2

theorem unlink (hs : h.Strung head tail (as ++ p :: bs)) :
    ∃ h', h.unlink p = some h' ∧ h'.Strung head tail (as ++ bs) ∧
      ∀ q, (h' q).data = (h q).data := by
  obtain ⟨l, x, y, r, hl, hr, heq, hxp, hpy⟩ := hs.neighbours
  have hnd : (l ++ x :: p :: y :: r).Nodup := heq ▸ hs.nodup
  have hchain := heq ▸ hs.chain
  refine ⟨(h.setNext x (some y)).setPrev y (some x), ?_, ⟨?_, ?_⟩, fun q => by simp⟩
  · simp [Heap.unlink, hxp.2, hpy.1, next_setNext]
  · -- The chain is cut at `x` and at `y` and closed again between them.
    have hnew : head :: ((as ++ bs) ++ [tail]) = l ++ x :: y :: r := by
      calc head :: ((as ++ bs) ++ [tail]) = (head :: as) ++ (bs ++ [tail]) := by simp
        _ = l ++ x :: y :: r := by rw [hl, hr]; simp
    rw [hnew, isChain_append_cons_cons]
    rw [isChain_append_cons_cons, isChain_cons_cons] at hchain
    refine ⟨isChain_setPrev (isChain_setNext hchain.1 ?_) ?_, ⟨?_, ?_⟩,
      isChain_setPrev (isChain_setNext hchain.2.2.2 ?_) ?_⟩
    · grind
    · grind
    · simp [next_setNext]
    · simp [prev_setPrev]
    · grind
    · grind
  · have hsub : (head :: ((as ++ bs) ++ [tail])).Sublist (head :: ((as ++ p :: bs) ++ [tail])) := by
      simp
    exact hs.nodup.sublist hsub

theorem pushAfter (hs : h.Strung head tail ps) (hp : p ∉ head :: (ps ++ [tail])) :
    ∃ h', h.pushAfter head p = some h' ∧ h'.Strung head tail (p :: ps) ∧
      ∀ q, (h' q).data = (h q).data := by
  obtain ⟨y, r, hr⟩ := exists_cons_of_ne_nil
    (append_ne_nil_of_right_ne_nil ps (cons_ne_nil tail []))
  have hchain := hs.chain
  have hnd := hs.nodup
  rw [hr] at hchain hnd hp
  rw [isChain_cons_cons] at hchain
  have hhp : head ≠ p := by grind
  refine ⟨(((h.setPrev p (some head)).setNext p (some y)).setPrev y (some p)).setNext head (some p),
    ?_, ⟨?_, ?_⟩, fun q => by simp⟩
  · simp [Heap.pushAfter, hchain.1.1, next_setNext, hhp]
  · rw [cons_append, hr, isChain_cons_cons, isChain_cons_cons]
    refine ⟨⟨?_, ?_⟩, ⟨?_, ?_⟩, isChain_setNext (isChain_setPrev
      (isChain_setNext (isChain_setPrev hchain.2 ?_) ?_) ?_) ?_⟩
    · simp [next_setNext]
    · simp only [prev_setNext, prev_setPrev]
      grind
    · simp only [next_setNext, next_setPrev]
      grind
    · simp [prev_setPrev]
    · grind
    · grind
    · grind
    · grind
  · grind

theorem follow_next (hs : h.Strung head tail ps) {n : Nat} (hn : ps.length < n) :
    follow (fun a => (h a).next) tail n head = some ps := by
  refine follow_eq (hs.chain.imp fun _ _ hab => hab.1) ?_ hn
  have hnd := hs.nodup
  grind

theorem follow_prev (hs : h.Strung head tail ps) {n : Nat} (hn : ps.length < n) :
    follow (fun a => (h a).prev) head n tail = some ps.reverse := by
  have hrev : tail :: (ps.reverse ++ [head]) = (head :: (ps ++ [tail])).reverse := by simp
  refine follow_eq ?_ ?_ (by simpa using hn)
  · rw [hrev, isChain_reverse]
    exact hs.chain.imp fun _ _ hab => hab.2
  · have hnd := hs.nodup
    grind

end Strung

/-! ## Lists without sentinels -/

/-- The cells between the ends `head` and `tail` are those at `ps`. -/
structure Linked (h : Heap P α) (head tail : Option P) (ps : List P) : Prop where
  chain : List.IsChain h.Adjacent ps
  nodup : ps.Nodup
  head_eq : head = ps.head?
  tail_eq : tail = ps.getLast?
  prev_head : ∀ p ∈ ps.head?, (h p).prev = none
  next_tail : ∀ p ∈ ps.getLast?, (h p).next = none

/-- The addresses read by following `link` until there is none, in at most `n` steps. -/
def walk (link : P → Option P) : Nat → Option P → Option (List P)
  | _, none => some []
  | 0, some _ => none
  | n + 1, some p => (walk link n (link p)).map (p :: ·)

omit [DecidableEq P] in
theorem walk_eq (hps : List.IsChain (fun a b => link a = some b) ps)
    (hend : ∀ p ∈ ps.getLast?, link p = none) : walk link ps.length ps.head? = some ps := by
  induction ps with
  | nil => rfl
  | cons p ps ih =>
    show (walk link ps.length (link p)).map (p :: ·) = _
    cases ps with
    | nil =>
      rw [hend p rfl]
      rfl
    | cons q ps =>
      rw [isChain_cons_cons] at hps
      have hrest : walk link (q :: ps).length (some q) = some (q :: ps) := ih hps.2 hend
      rw [hps.1, hrest]
      rfl

omit [DecidableEq P] in
/-- What is read starts at the first address. -/
theorem head_of_walk {n : Nat} (h : walk link n (some p) = some ps) : ∃ rest, ps = p :: rest := by
  cases n with
  | zero => cases h
  | succ n =>
    obtain ⟨rest, -, hps⟩ := map_eq_some_iff.mp h
    exact ⟨rest, hps.symm⟩

omit [DecidableEq P] in
/-- What is read ends where there is no link. -/
theorem link_of_walk {n : Nat} {start : Option P} (h : walk link n start = some (ps ++ [q])) :
    link q = none := by
  induction n generalizing start ps with
  | zero =>
    cases start with
    | none => simp [walk] at h
    | some p => cases h
  | succ n ih =>
    cases start with
    | none => simp [walk] at h
    | some p =>
      obtain ⟨rest, hrest, hps⟩ := map_eq_some_iff.mp h
      cases ps with
      | nil =>
        rw [nil_append, List.cons.injEq] at hps
        rw [hps.2] at hrest
        rw [← hps.1]
        cases hlink : link p with
        | none => rfl
        | some next =>
          rw [hlink] at hrest
          obtain ⟨_, hcons⟩ := head_of_walk hrest
          cases hcons
      | cons _ ps =>
        rw [cons_append, List.cons.injEq] at hps
        rw [hps.2] at hrest
        exact ih hrest

namespace Linked

variable {head tail : Option P} {ps as bs : List P} {x y : P}

omit [DecidableEq P] in
theorem walk_next (hs : h.Linked head tail ps) :
    walk (fun a => (h a).next) ps.length head = some ps := by
  rw [hs.head_eq]
  exact walk_eq (hs.chain.imp fun _ _ hab => hab.1) hs.next_tail

omit [DecidableEq P] in
theorem walk_prev (hs : h.Linked head tail ps) :
    walk (fun a => (h a).prev) ps.length tail = some ps.reverse := by
  rw [hs.tail_eq, ← length_reverse, ← head?_reverse]
  refine walk_eq ?_ ?_
  · rw [isChain_reverse]
    exact hs.chain.imp fun _ _ hab => hab.2
  · rw [getLast?_reverse]
    exact hs.prev_head

omit [DecidableEq P] in
theorem links (hs : h.Linked head tail (as ++ p :: bs)) :
    (h p).prev = as.getLast? ∧ (h p).next = bs.head? := by
  have hchain := hs.chain
  constructor
  · rcases eq_nil_or_concat' as with rfl | ⟨as, x, rfl⟩
    · exact hs.prev_head p rfl
    rw [append_assoc, singleton_append, isChain_append_cons_cons] at hchain
    rw [getLast?_concat]
    exact hchain.2.1.2
  cases bs with
  | nil => exact hs.next_tail p getLast?_concat
  | cons y bs =>
    rw [isChain_append_cons_cons] at hchain
    exact hchain.2.1.1

omit [DecidableEq P] in
theorem nil : h.Linked none none [] :=
  ⟨.nil, .nil, rfl, rfl, nofun, nofun⟩

theorem remove_first (hs : h.Linked head tail (p :: y :: bs)) :
    (h.setPrev y none).Linked (some y) tail (y :: bs) := by
  have hnodup := hs.nodup
  have hchain := hs.chain
  rw [isChain_cons_cons] at hchain
  refine ⟨isChain_setPrev hchain.2 ?_, hnodup.of_cons, rfl, ?_, ?_, ?_⟩
  · grind
  · rw [hs.tail_eq, getLast?_cons_cons]
  · intro q hq
    cases hq
    rw [prev_setPrev, if_pos rfl]
  intro q hq
  rw [next_setPrev]
  exact hs.next_tail q (by rwa [getLast?_cons_cons])

theorem remove_last (hs : h.Linked head tail (as ++ [x] ++ [p])) :
    (h.setNext x none).Linked head (some x) (as ++ [x]) := by
  have hnodup := hs.nodup
  have hchain := hs.chain.left_of_append
  refine ⟨isChain_setNext hchain ?_, (nodup_append.mp hnodup).1, ?_, ?_, ?_, ?_⟩
  · grind
  · rw [hs.head_eq]
    grind
  · rw [getLast?_concat]
  · intro q hq
    rw [prev_setNext]
    exact hs.prev_head q (by grind)
  intro q hq
  rw [getLast?_concat] at hq
  cases hq
  rw [next_setNext, if_pos rfl]

theorem remove_between (hs : h.Linked head tail (as ++ x :: p :: y :: bs)) :
    ((h.setNext x (some y)).setPrev y (some x)).Linked head tail (as ++ x :: y :: bs) := by
  have hsplit : as ++ x :: p :: y :: bs = (as ++ [x]) ++ p :: y :: bs := by simp
  obtain ⟨hfront, hback, hapart⟩ := nodup_append.mp (hsplit ▸ hs.nodup)
  have hxmem : x ∈ as ++ [x] := mem_append_right as (mem_singleton_self x)
  have hymem : y ∈ p :: y :: bs := mem_cons_of_mem p mem_cons_self
  have hchain := hs.chain
  rw [isChain_append_cons_cons, isChain_cons_cons] at hchain
  have hhead : (as ++ x :: p :: y :: bs).head? = (as ++ x :: y :: bs).head? := by
    cases as <;> rfl
  have hlast : (as ++ x :: p :: y :: bs).getLast? = (as ++ x :: y :: bs).getLast? := by
    simp [getLast?_append]
  refine ⟨?_, ?_, hs.head_eq.trans hhead, hs.tail_eq.trans hlast, ?_, ?_⟩
  · -- the chain is cut at `x` and at `y` and closed again between them
    rw [isChain_append_cons_cons]
    refine ⟨isChain_setPrev (isChain_setNext hchain.1 ?_) ?_, ⟨?_, ?_⟩,
      isChain_setPrev (isChain_setNext hchain.2.2.2 ?_) ?_⟩
    · rw [dropLast_concat]
      exact fun hmem => (nodup_append.mp hfront).2.2 x hmem x (mem_singleton_self x) rfl
    · exact fun hmem => hapart y (mem_of_mem_tail hmem) y hymem rfl
    · simp [next_setNext]
    · simp [prev_setPrev]
    · exact fun hmem =>
        hapart x hxmem x (mem_cons_of_mem p (dropLast_subset _ hmem)) rfl
    · exact (nodup_cons.mp hback.of_cons).1
  · exact hs.nodup.sublist ((sublist_cons_self p (y :: bs)).cons_cons x |>.append_left as)
  · intro q hq
    have hbefore : q ∈ as ++ [x] := by
      cases as with
      | nil => exact mem_singleton.mpr (some.inj hq).symm
      | cons a as =>
        rw [← some.inj hq]
        exact mem_cons_self
    rw [prev_setPrev, if_neg (hapart q hbefore y hymem), prev_setNext]
    exact hs.prev_head q (hhead ▸ hq)
  · intro q hq
    have hbehind : q ∈ y :: bs := by
      refine mem_of_getLast? ?_
      simpa using hq
    have hne : q ≠ x := (hapart x hxmem q (mem_cons_of_mem p hbehind)).symm
    rw [next_setPrev, next_setNext, if_neg hne]
    exact hs.next_tail q (hlast ▸ hq)

/-- A cell outside the list may be overwritten. -/
theorem setCell (hs : h.Linked head tail ps) (hp : p ∉ ps) {c : Cell P α} :
    (h.setCell p c).Linked head tail ps := by
  have hother : ∀ q ∈ ps, h.setCell p c q = h q := fun q hq =>
    setCell_of_ne h c fun heq => hp (heq ▸ hq)
  refine ⟨hs.chain.imp_of_mem_imp fun a b ha hb hab => ?_, hs.nodup, hs.head_eq, hs.tail_eq,
    fun q hq => ?_, fun q hq => ?_⟩
  · unfold Adjacent
    rw [hother a ha, hother b hb]
    exact hab
  · rw [hother q (mem_of_mem_head? hq)]
    exact hs.prev_head q hq
  · rw [hother q (mem_of_getLast? hq)]
    exact hs.next_tail q hq

omit [DecidableEq P] in
theorem single (hprev : (h p).prev = none) (hnext : (h p).next = none) :
    h.Linked (some p) (some p) [p] := by
  refine ⟨.singleton p, nodup_singleton p, rfl, rfl, fun q hq => ?_, fun q hq => ?_⟩
  · cases hq
    exact hprev
  · cases hq
    exact hnext

theorem push (hs : h.Linked head tail (y :: bs)) (hp : p ∉ y :: bs) (hprev : (h p).prev = none) :
    ((h.setNext p (some y)).setPrev y (some p)).Linked (some p) tail (p :: y :: bs) := by
  have hnodup := hs.nodup
  refine ⟨?_, nodup_cons.mpr ⟨hp, hnodup⟩, rfl, ?_, ?_, ?_⟩
  · rw [isChain_cons_cons]
    refine ⟨⟨?_, ?_⟩, isChain_setPrev (isChain_setNext hs.chain ?_) ?_⟩
    · simp [next_setNext]
    · simp [prev_setPrev]
    · exact fun hmem => hp (dropLast_subset _ hmem)
    · exact (nodup_cons.mp hnodup).1
  · rw [hs.tail_eq, getLast?_cons_cons]
  · intro q hq
    cases hq
    have hne : p ≠ y := fun heq => hp (heq ▸ mem_cons_self)
    rw [prev_setPrev, if_neg hne, prev_setNext, hprev]
  · intro q hq
    have hne : q ≠ p := fun heq => hp (heq ▸ mem_of_getLast? hq)
    rw [next_setPrev, next_setNext, if_neg hne]
    exact hs.next_tail q hq

end Linked

end Heap

end DistributedKV
