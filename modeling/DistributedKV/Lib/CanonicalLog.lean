import Mathlib.Data.List.Infix
import Mathlib.Data.List.TakeWhile
import Mathlib.Order.Lattice

/-!
# Replicated logs with one writer per key

Logs are lists of entries, and each entry has a key (the term it was created in). For every key
there is a *canonical* log `canon κ`: the log of the one writer that creates the entries of that
key. A log is **coherent** when, at each of its entries, its prefix up to there is a prefix of the
canonical log of the entry's key. Coherent logs **match**: where two of them hold entries of one
key at one position, they are equal up to it. Coherence survives taking prefixes, extending a
canonical log and naming a new one.

`merge` is the way a receiver takes in a log: keep what agrees by key, replace everything from the
first disagreement on.
-/

namespace DistributedKV.Lib

open Function List

universe u v

variable {α : Type u} {κ : Type v}

/-! ## Positions and prefixes -/

theorem take_succ_of_getElem? {l : List α} {k : Nat} {e : α} (h : l[k]? = some e) :
    l.take (k + 1) = l.take k ++ [e] := by
  rw [take_add_one, h]
  rfl

theorem prefix_take_eq {a l : List α} {k : Nat} (h : a <+: l) (hk : k ≤ a.length) :
    a.take k = l.take k := by
  rw [prefix_iff_eq_take.mp h, take_take, Nat.min_eq_left hk]

theorem prefix_getElem? {a l : List α} {k : Nat} {e : α} (ha : a <+: l)
    (h : a[k]? = some e) : l[k]? = some e := by
  obtain ⟨t, rfl⟩ := ha
  rw [List.getElem?_append_left (List.getElem?_eq_some_iff.mp h).1, h]

/-! ## Matching and merging -/

section Merge

variable (key : α → κ)

/-- Entries of one key at one position bring equal prefixes with them. -/
def Matching (xs ys : List α) : Prop :=
  ∀ k x y, xs[k]? = some x → ys[k]? = some y → key x = key y →
    xs.take (k + 1) = ys.take (k + 1)

variable [DecidableEq κ]

/-- Take in `ys` on top of `xs`: keep `xs` as long as the keys agree. -/
def merge : List α → List α → List α
  | [], ys => ys
  | x :: xs, [] => x :: xs
  | x :: xs, y :: ys => if key x = key y then x :: merge xs ys else y :: ys

@[simp] theorem merge_nil_left (ys : List α) : merge key [] ys = ys := rfl

@[simp] theorem merge_nil_right (xs : List α) : merge key xs [] = xs := by
  cases xs <;> rfl

theorem merge_cons (x y : α) (xs ys : List α) :
    merge key (x :: xs) (y :: ys) = if key x = key y then x :: merge key xs ys else y :: ys :=
  rfl

variable {key}

theorem length_le_merge (xs ys : List α) : ys.length ≤ (merge key xs ys).length := by
  induction xs generalizing ys with
  | nil => simp
  | cons x xs ih =>
    cases ys with
    | nil => simp
    | cons y ys =>
      rw [merge_cons]
      split_ifs
      · simpa using ih ys
      · simp

variable {xs ys : List α}

/-- Merging never just appends: an entry is either kept once or replaced. -/
theorem length_merge_lt (hx : xs ≠ []) (hy : ys ≠ []) :
    (merge key xs ys).length < xs.length + ys.length := by
  have hle : ∀ xs ys : List α, (merge key xs ys).length ≤ xs.length + ys.length := by
    intro xs
    induction xs with
    | nil => simp
    | cons x xs ih =>
      intro ys
      cases ys with
      | nil => simp
      | cons y ys =>
        have := ih ys
        rw [merge_cons]
        split_ifs
        · simp only [length_cons]
          omega
        · omega
  obtain ⟨x, xs, rfl⟩ := exists_cons_of_ne_nil hx
  obtain ⟨y, ys, rfl⟩ := exists_cons_of_ne_nil hy
  have := hle xs ys
  rw [merge_cons]
  split_ifs <;> simp only [length_cons] <;> omega

/-- Position by position, the result has an entry of one of the two sides. -/
theorem getElem?_merge {k : Nat} {e : α} (h : (merge key xs ys)[k]? = some e) :
    xs[k]? = some e ∨ ys[k]? = some e := by
  induction xs generalizing ys k with
  | nil => exact Or.inr h
  | cons x xs ih =>
    cases ys with
    | nil => exact Or.inl h
    | cons y ys =>
      rw [merge_cons] at h
      split_ifs at h
      · cases k with
        | zero => exact Or.inl h
        | succ k =>
          exact ih h
      · exact Or.inr h

/-- Where the incoming log has an entry, the result has one of the same key. -/
theorem key_getElem?_merge {k : Nat} {y : α} (h : ys[k]? = some y) :
    ∃ e, (merge key xs ys)[k]? = some e ∧ key e = key y := by
  induction xs generalizing ys k with
  | nil => exact ⟨y, h, rfl⟩
  | cons x xs ih =>
    cases ys with
    | nil => simp at h
    | cons y' ys =>
      rw [merge_cons]
      split_ifs with hkey
      · cases k with
        | zero =>
          obtain rfl : y' = y := by simpa using h
          exact ⟨x, rfl, hkey⟩
        | succ k =>
          exact ih h
      · exact ⟨y, h, rfl⟩

/-- **Without a disagreement** the old log stays and is extended. -/
theorem merge_of_agree (h : ∀ (k : Nat) x y, xs[k]? = some x → ys[k]? = some y → key x = key y) :
    merge key xs ys = xs ++ ys.drop xs.length := by
  induction xs generalizing ys with
  | nil => simp
  | cons x xs ih =>
    cases ys with
    | nil => simp
    | cons y ys =>
      have htail : merge key xs ys = xs ++ ys.drop xs.length :=
        ih fun k a b ha hb => h (k + 1) a b ha hb
      rw [merge_cons, if_pos (h 0 x y rfl rfl), htail]
      simp

/-- **From the first disagreement on** the old log is replaced. -/
theorem merge_of_disagree {k : Nat} {x y : α} (hx : xs[k]? = some x) (hy : ys[k]? = some y)
    (hne : key x ≠ key y)
    (hbelow : ∀ j < k, ∀ a b, xs[j]? = some a → ys[j]? = some b → key a = key b) :
    merge key xs ys = xs.take k ++ ys.drop k := by
  induction k generalizing xs ys with
  | zero =>
    cases xs with
    | nil => simp at hx
    | cons a xs =>
      cases ys with
      | nil => simp at hy
      | cons b ys =>
        obtain rfl : a = x := by simpa using hx
        obtain rfl : b = y := by simpa using hy
        rw [merge_cons, if_neg hne]
        rfl
  | succ k ih =>
    cases xs with
    | nil => simp at hx
    | cons a xs =>
      cases ys with
      | nil => simp at hy
      | cons b ys =>
        have htail : merge key xs ys = xs.take k ++ ys.drop k :=
          ih hx hy fun j hj c d hc hd => hbelow (j + 1) (by omega) c d hc hd
        rw [merge_cons, if_pos (hbelow 0 (by omega) a b rfl rfl), htail]
        rfl

omit [DecidableEq κ] in
theorem Matching.tail {x y : α} (h : Matching key (x :: xs) (y :: ys)) : Matching key xs ys := by
  intro k a b ha hb hab
  have := h (k + 1) a b (by simpa using ha) (by simpa using hb) hab
  simpa using (List.cons.inj (by simpa using this)).2

/-- **Merging matching logs.** The incoming log is a prefix of the old one, which stays, or it
is the result. -/
theorem merge_cases (h : Matching key xs ys) :
    (ys <+: xs ∧ merge key xs ys = xs) ∨ merge key xs ys = ys := by
  induction xs generalizing ys with
  | nil => exact Or.inr rfl
  | cons x xs ih =>
    cases ys with
    | nil => exact Or.inl ⟨List.nil_prefix, rfl⟩
    | cons y ys =>
      rw [merge_cons]
      split_ifs with hxy
      · obtain rfl : x = y := by simpa using h 0 x y rfl rfl hxy
        rcases ih h.tail with ⟨hp, hm⟩ | hm
        · exact Or.inl ⟨(prefix_cons_inj x).mpr hp, by rw [hm]⟩
        · exact Or.inr (by rw [hm])
      · exact Or.inr rfl

theorem prefix_merge (h : Matching key xs ys) : ys <+: merge key xs ys := by
  rcases merge_cases h with ⟨hp, hm⟩ | hm <;> rw [hm]
  exact hp

theorem merge_of_extends (h : ys <+: xs) : merge key xs ys = xs := by
  obtain ⟨zs, rfl⟩ := h
  induction ys with
  | nil => simp
  | cons y ys ih => rw [cons_append, merge_cons, if_pos rfl, ih]

/-- **What both sides agree on survives.** A prefix of the old log on the line of the incoming
log is still there afterwards. -/
theorem prefix_merge_of_common {p c : List α} (hmatch : Matching key xs ys) (hpx : p <+: xs)
    (hpc : p <+: c) (hyc : ys <+: c) : p <+: merge key xs ys := by
  rcases prefix_or_prefix_of_prefix hpc hyc with hpy | hyp
  · exact hpy.trans (prefix_merge hmatch)
  · rw [merge_of_extends (hyp.trans hpx)]
    exact hpx

/-- Merging keeps a common prefix and only works on the rest. -/
theorem merge_eq_take_append {p : Nat} (h : xs.take p = ys.take p) (hx : p ≤ xs.length)
    (hy : p ≤ ys.length) : merge key xs ys = xs.take p ++ merge key (xs.drop p) (ys.drop p) := by
  induction p generalizing xs ys with
  | zero => simp
  | succ p ih =>
    cases xs with
    | nil => simp at hx
    | cons x xs =>
      cases ys with
      | nil => simp at hy
      | cons y ys =>
        simp only [take_succ_cons, List.cons.injEq] at h
        obtain ⟨rfl, htail⟩ := h
        rw [merge_cons, if_pos rfl,
          ih htail (Nat.le_of_succ_le_succ hx) (Nat.le_of_succ_le_succ hy)]
        rfl

end Merge

/-! ## Coherence -/

section Coherent

variable (key : α → κ) (canon : κ → List α)

/-- Every prefix of the log that ends in an entry of key `κ` is a prefix of
`canon κ`. -/
def Coherent (log : List α) : Prop :=
  ∀ k e, log[k]? = some e → log.take (k + 1) <+: canon (key e)

variable {key canon}

theorem Coherent.nil : Coherent key canon [] := by
  intro k e h
  simp at h

variable {xs : List α} {e : α}

/-- **Coherent logs match.** -/
theorem Coherent.matching {ys : List α} (hx : Coherent key canon xs) (hy : Coherent key canon ys) :
    Matching key xs ys := by
  intro k x y hxk hyk hxy
  have hxp := hx k x hxk
  have hyp := hy k y hyk
  rw [← hxy] at hyp
  have hxl := (List.getElem?_eq_some_iff.mp hxk).1
  have hyl := (List.getElem?_eq_some_iff.mp hyk).1
  have hx := prefix_take_eq hxp (k := k + 1) (by rw [length_take]; omega)
  have hy := prefix_take_eq hyp (k := k + 1) (by rw [length_take]; omega)
  simpa [take_take] using hx.trans hy.symm

theorem Coherent.restrict {ys : List α} (h : Coherent key canon ys) (hp : xs <+: ys) :
    Coherent key canon xs := by
  intro k e hk
  have hkl := (List.getElem?_eq_some_iff.mp hk).1
  have := h k e (prefix_getElem? hp hk)
  rwa [← prefix_take_eq hp (k := k + 1) (by omega)] at this

section

variable (h : Coherent key canon xs)
include h

theorem Coherent.mono {canon' : κ → List α}
    (hc : ∀ q, canon q <+: canon' q) : Coherent key canon' xs :=
  fun k e hk => (h k e hk).trans (hc _)

/-- An entry of key `q` may be added to a coherent log that then is a prefix of the canonical
log of `q`. -/
theorem Coherent.concat (hc : xs ++ [e] <+: canon (key e)) : Coherent key canon (xs ++ [e]) := by
  intro k e' hk
  by_cases hkl : k < xs.length
  · rw [getElem?_append_left hkl] at hk
    rw [take_append_of_le_length (by omega)]
    exact h k e' hk
  have hlen := (List.getElem?_eq_some_iff.mp hk).1
  rw [length_append, length_singleton] at hlen
  obtain rfl : k = xs.length := by omega
  obtain rfl : e = e' := by simpa using hk
  rw [take_of_length_le (by simp)]
  exact hc

/-- No coherent log holds an entry of a key whose canonical log is empty. -/
theorem Coherent.key_ne {q : κ} (hq : canon q = []) (he : e ∈ xs) :
    key e ≠ q := by
  rintro rfl
  obtain ⟨k, hk⟩ := getElem?_of_mem he
  have hp := h k e hk
  rw [hq, prefix_nil, take_succ_of_getElem? hk] at hp
  simp at hp

/-- A coherent log that ends in an entry of key `q` is a prefix of `canon q`. -/
theorem Coherent.prefix_of_last (hlast : xs.getLast? = some e) : xs <+: canon (key e) := by
  rw [getLast?_eq_getElem?] at hlast
  have := h _ e hlast
  rwa [take_of_length_le (by omega)] at this

/-- A coherent log is empty or a prefix of a canonical log. -/
theorem Coherent.nil_or_canon : xs = [] ∨ ∃ e ∈ xs, xs <+: canon (key e) := by
  cases hlast : xs.getLast? with
  | none => exact Or.inl (getLast?_eq_none_iff.mp hlast)
  | some e => exact Or.inr ⟨e, mem_of_getLast? hlast, h.prefix_of_last hlast⟩

end

end Coherent

/-! ## Systems of canonical logs

The keys are ordered, and a writer only takes over entries of smaller keys. -/

section Canonical

variable [LinearOrder κ] (key : α → κ) (canon : κ → List α)

/-- The canonical logs are coherent, hold no key above their own, and never step back to a
smaller key. -/
structure Canonical : Prop where
  coherent : ∀ q, Coherent key canon (canon q)
  bounded : ∀ q, ∀ e ∈ canon q, key e ≤ q
  sorted : ∀ q, (canon q).Pairwise fun a b => key a ≤ key b

variable {key canon}

/-- Every coherent log is sorted. -/
theorem Canonical.sorted_of_coherent (h : Canonical key canon) {xs : List α}
    (hx : Coherent key canon xs) : xs.Pairwise fun a b => key a ≤ key b := by
  rcases hx.nil_or_canon with rfl | ⟨e, -, hp⟩
  · exact List.Pairwise.nil
  · exact (h.sorted (key e)).sublist hp.sublist

variable {q : κ} {log : List α} {e : α}

/-- Changing one canonical log only by growth changes all of them by growth. -/
theorem prefix_update (hgrow : canon q <+: log) :
    ∀ r, canon r <+: Function.update canon q log r :=
  (forall_update_iff canon fun r log => canon r <+: log).mpr ⟨hgrow, fun _ _ => prefix_rfl⟩

/-- One canonical log may grow to a coherent log of its own keys. -/
theorem Canonical.update (h : Canonical key canon) (hgrow : canon q <+: log)
    (hcoh : Coherent key (Function.update canon q log) log) (hbound : ∀ e ∈ log, key e ≤ q)
    (hsorted : log.Pairwise fun a b => key a ≤ key b) :
    Canonical key (Function.update canon q log) where
  coherent := (forall_update_iff canon fun _ => Coherent key _).mpr
    ⟨hcoh, fun r _ => (h.coherent r).mono (prefix_update hgrow)⟩
  bounded := (forall_update_iff canon fun r log => ∀ e ∈ log, key e ≤ r).mpr
    ⟨hbound, fun r _ => h.bounded r⟩
  sorted := (forall_update_iff canon fun _ log => log.Pairwise fun a b => key a ≤ key b).mpr
    ⟨hsorted, fun r _ => h.sorted r⟩

/-- **A new writer** of key `q` starts from a coherent log. -/
theorem Canonical.name (h : Canonical key canon) (hq : canon q = [])
    (hlog : Coherent key canon log) (hbound : ∀ e ∈ log, key e ≤ q) :
    Canonical key (Function.update canon q log) := by
  have hgrow : canon q <+: log := by
    rw [hq]
    exact nil_prefix
  exact h.update hgrow (hlog.mono (prefix_update hgrow)) hbound (h.sorted_of_coherent hlog)

/-- **A writer appends** an entry of its own key. -/
theorem Canonical.extend (h : Canonical key canon) (he : key e = q) :
    Canonical key (Function.update canon q (canon q ++ [e])) := by
  have hgrow : canon q <+: canon q ++ [e] := prefix_append _ _
  refine h.update hgrow ?_ ?_ ?_
  · refine ((h.coherent q).mono (prefix_update hgrow)).concat ?_
    rw [he, update_self]
  · exact forall_mem_append.mpr ⟨h.bounded q, forall_mem_singleton.mpr he.le⟩
  refine pairwise_append.mpr ⟨h.sorted q, pairwise_singleton _ _, ?_⟩
  intro a ha b hb
  rw [mem_singleton.mp hb, he]
  exact h.bounded q a ha

/-- What the writer of `q` started from: its canonical log up to its first own
entry. -/
def inherited (key : α → κ) (canon : κ → List α) (q : κ) : List α :=
  (canon q).takeWhile fun e => decide (key e ≠ q)

theorem inherited_sub (q : κ) : inherited key canon q <+: canon q := takeWhile_prefix _

/-- Own entries do not change what was inherited. -/
theorem inherited_concat {canon' : κ → List α} (hc : canon' q = canon q ++ [e]) (he : key e = q) :
    inherited key canon' q = inherited key canon q := by
  unfold inherited
  rw [hc, takeWhile_append]
  split_ifs with hall
  · -- everything so far was inherited, and the new entry is not
    have hself : (canon q).takeWhile (fun e => decide (key e ≠ q)) = canon q :=
      (List.takeWhile_prefix _).eq_of_length hall
    rw [hself, takeWhile_cons_of_neg (by simp [he]), append_nil]
  · rfl

/-- What was inherited lies before every own entry. -/
theorem length_inherited_le {k : Nat} (hk : (canon q)[k]? = some e) (he : key e = q) :
    (inherited key canon q).length ≤ k := by
  by_contra hlt
  rw [Nat.not_le] at hlt
  have hmem : e ∈ inherited key canon q := by
    have hk' := prefix_getElem? (@inherited_sub _ _ _ key canon q) (getElem?_eq_getElem hlt)
    rw [hk] at hk'
    rw [Option.some.inj hk']
    exact getElem_mem hlt
  have := mem_takeWhile_imp hmem
  exact absurd he (by simpa using this)

/-- A log on the line of `q` that ends in an entry of `q` holds all that its writer inherited.
-/
theorem inherited_of_last (hlog : log <+: canon q) (hlast : log.getLast? = some e)
    (he : key e = q) : inherited key canon q <+: log := by
  rw [getLast?_eq_getElem?] at hlast
  have hle := length_inherited_le (prefix_getElem? hlog hlast) he
  exact prefix_of_prefix_length_le (inherited_sub q) hlog (by omega)

end Canonical

end DistributedKV.Lib
