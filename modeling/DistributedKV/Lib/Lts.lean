import Mathlib.Data.List.Infix

/-!
# Runs of a partial step function

A system is a partial step function `step : σ → α → Option σ`: `step s a = none` says that the
action `a` cannot happen in `s`. A run is a list of actions. `trace` has the states it visits, up to
the first action that is not enabled. `Along step ok s as`: every action of the run satisfies `ok`
in the state in which it is taken. This is how assumptions on the environment, and the conditions
under which a system behaves, are put on a run.
-/

namespace DistributedKV.Lts

open List Option

universe u v

variable {σ : Type u} {α : Type v} (step : σ → α → Option σ)

/-- The state after a run. -/
def exec (s : σ) : List α → Option σ
  | [] => some s
  | a :: as => (step s a).bind fun t => exec t as

/-- The states a run visits. -/
def trace (s : σ) : List α → List σ
  | [] => [s]
  | a :: as => s :: ((step s a).map fun t => trace t as).getD []

/-- Every action of the run is taken in a state where it satisfies `ok`. -/
def Along (ok : σ → α → Prop) (s : σ) : List α → Prop
  | [] => True
  | a :: as => ok s a ∧ ∀ t ∈ step s a, Along ok t as

/-- `Along` only looks at the states the run visits, so it can be evaluated. -/
instance decidableAlong (ok : σ → α → Prop) [∀ s a, Decidable (ok s a)] :
    ∀ (s : σ) (as : List α), Decidable (Along step ok s as)
  | _, [] => .isTrue trivial
  | s, a :: as =>
    match hs : step s a with
    | none => decidable_of_iff (ok s a) (by simp [Along, hs])
    | some t =>
      have := decidableAlong ok t as
      decidable_of_iff (ok s a ∧ Along step ok t as) (by simp [Along, hs])

variable {step}

@[simp] theorem exec_nil (s : σ) : exec step s [] = some s := rfl

theorem exec_append (s : σ) (as bs : List α) :
    exec step s (as ++ bs) = (exec step s as).bind fun t => exec step t bs := by
  induction as generalizing s with
  | nil => rfl
  | cons a as ih =>
    show (step s a).bind _ = ((step s a).bind _).bind _
    cases step s a with
    | none => rfl
    | some t => exact ih t

theorem exec_concat (s : σ) (as : List α) (a : α) :
    exec step s (as ++ [a]) = (exec step s as).bind fun t => step t a := by
  rw [exec_append]
  congr 1
  funext t
  show (step t a).bind _ = step t a
  cases step t a <;> rfl

variable {s : σ} {as bs : List α} {ok ok' : σ → α → Prop}

theorem exec_concat_eq_some {u : σ} {a : α} :
    exec step s (as ++ [a]) = some u ↔ ∃ t, exec step s as = some t ∧ step t a = some u := by
  rw [exec_concat]
  exact bind_eq_some_iff

/-- The visited states are the results of the prefixes of the run. -/
theorem mem_trace_iff {t : σ} :
    t ∈ trace step s as ↔ ∃ pre, pre <+: as ∧ exec step s pre = some t := by
  induction as generalizing s with
  | nil =>
    constructor
    · intro h
      obtain rfl : t = s := by simpa [trace] using h
      exact ⟨[], prefix_refl _, rfl⟩
    rintro ⟨pre, hpre, h⟩
    obtain rfl : pre = [] := prefix_nil.mp hpre
    cases h
    simp [trace]
  | cons a as ih =>
    constructor
    · intro h
      rcases mem_cons.mp h with rfl | h
      · exact ⟨[], nil_prefix, rfl⟩
      cases hs : step s a with
      | none => simp [hs] at h
      | some u =>
        obtain ⟨pre, hpre, he⟩ := ih.mp (by simpa [hs] using h)
        exact ⟨a :: pre, (prefix_cons_inj a).mpr hpre, by simpa [exec, hs] using he⟩
    rintro ⟨pre, hpre, he⟩
    cases pre with
    | nil =>
      cases he
      simp [trace]
    | cons b pre =>
      obtain ⟨rfl, htail⟩ := cons_prefix_cons.mp hpre
      cases hs : step s b with
      | none => simp [exec, hs] at he
      | some u =>
        have hu := ih.mpr ⟨pre, htail, by simpa [exec, hs] using he⟩
        simpa [trace, hs] using Or.inr hu

theorem exec_mem_trace {t : σ} (h : exec step s as = some t) : t ∈ trace step s as :=
  mem_trace_iff.mpr ⟨as, prefix_refl _, h⟩

theorem trace_subset (h : as <+: bs) : trace step s as ⊆ trace step s bs := by
  intro t ht
  obtain ⟨pre, hpre, he⟩ := mem_trace_iff.mp ht
  exact mem_trace_iff.mpr ⟨pre, hpre.trans h, he⟩

theorem trace_concat {t u : σ} {a : α} (h : exec step s as = some t) (hstep : step t a = some u) :
    trace step s (as ++ [a]) = trace step s as ++ [u] := by
  induction as generalizing s with
  | nil =>
    cases h
    simp [trace, hstep]
  | cons b as ih =>
    cases hs : step s b with
    | none => simp [exec, hs] at h
    | some v =>
      have hv := ih (s := v) (by simpa [exec, hs] using h)
      simp [trace, hs, hv]

theorem trace_concat_none {a : α} (h : exec step s (as ++ [a]) = none) :
    trace step s (as ++ [a]) = trace step s as := by
  induction as generalizing s with
  | nil =>
    have hs : step s a = none := by simpa [exec] using h
    simp [trace, hs]
  | cons b as ih =>
    cases hs : step s b with
    | none => simp [trace, hs]
    | some v => simp [trace, hs, ih (s := v) (by simpa [exec, hs] using h)]

/-- The enabled part of a run reaches its last state and visits all of its states. -/
theorem exists_enabled_part (s : σ) (as : List α) :
    ∃ pre t, pre <+: as ∧ exec step s pre = some t ∧ trace step s as = trace step s pre := by
  induction as using List.reverseRecOn with
  | nil => exact ⟨[], s, prefix_refl _, rfl, rfl⟩
  | append_singleton as a ih =>
    cases hu : exec step s (as ++ [a]) with
    | some u => exact ⟨as ++ [a], u, prefix_refl _, hu, rfl⟩
    | none =>
      obtain ⟨pre, t, hpre, hexec, htrace⟩ := ih
      exact ⟨pre, t, hpre.trans (prefix_append _ _), hexec, (trace_concat_none hu).trans htrace⟩

theorem along_append : Along step ok s (as ++ bs) ↔
      Along step ok s as ∧ ∀ t ∈ exec step s as, Along step ok t bs := by
  induction as generalizing s with
  | nil => simp [Along, exec]
  | cons a as ih =>
    simp only [cons_append, Along, ih, exec]
    cases step s a with
    | none => simp
    | some t => simp [and_assoc]

theorem Along.restrict (h : Along step ok s bs) (hp : as <+: bs) : Along step ok s as := by
  obtain ⟨cs, rfl⟩ := hp
  exact (along_append.mp h).1

/-- A condition on the actions alone. -/
theorem Along.of_forall (h : ∀ a ∈ as, ∀ s, ok s a) (s : σ) : Along step ok s as := by
  induction as generalizing s with
  | nil => trivial
  | cons a as ih =>
    exact ⟨h a mem_cons_self s, fun t _ => ih (fun b hb => h b (mem_cons_of_mem _ hb)) t⟩

theorem Along.mono (himp : ∀ s a, ok s a → ok' s a) (h : Along step ok s as) :
    Along step ok' s as := by
  induction as generalizing s with
  | nil => trivial
  | cons a as ih => exact ⟨himp _ _ h.1, fun t ht => ih (h.2 t ht)⟩

theorem Along.and (h : Along step ok s as) (h' : Along step ok' s as) :
    Along step (fun s a => ok s a ∧ ok' s a) s as := by
  induction as generalizing s with
  | nil => trivial
  | cons a as ih => exact ⟨⟨h.1, h'.1⟩, fun t ht => ih (h.2 t ht) (h'.2 t ht)⟩

/-- What an invariant and one condition give for a step, they give along the run. -/
theorem Along.mono_of_inv (inv : σ → Prop)
    (himp : ∀ s a, inv s → ok s a → ok' s a ∧ ∀ t ∈ step s a, inv t) (hs : inv s)
    (h : Along step ok s as) : Along step ok' s as := by
  induction as generalizing s with
  | nil => trivial
  | cons a as ih =>
    obtain ⟨hok', hinv⟩ := himp s a hs h.1
    exact ⟨hok', fun t ht => ih (hinv t ht) (h.2 t ht)⟩

/-- **Induction along a run.** `P as t` may speak of the run `as` that led to `t`; it holds
along every run whose steps satisfy `ok` if it holds at the start and one `ok` step preserves
it. -/
theorem trace_induction {P : List α → σ → Prop} (h₀ : P [] s)
    (hstep : ∀ as a t u, Along step ok s as → exec step s as = some t → P as t → ok t a →
      step t a = some u → P (as ++ [a]) u) :
    ∀ as t, Along step ok s as → exec step s as = some t → P as t := by
  intro as
  induction as using List.reverseRecOn with
  | nil =>
    intro t _ h
    cases h
    exact h₀
  | append_singleton as a ih =>
    intro u halong h
    obtain ⟨t, ht, htu⟩ := exec_concat_eq_some.mp h
    obtain ⟨hpre, hlast⟩ := along_append.mp halong
    exact hstep as a t u hpre ht (ih t hpre ht) (hlast t ht).1 htu

/-- **Invariants.** What `ok` steps preserve holds in all states of a run of such steps. -/
theorem Along.forall_trace (h : Along step ok s as) {P : σ → Prop} (hs : P s)
    (hstep : ∀ t a u, P t → ok t a → step t a = some u → P u) : ∀ t ∈ trace step s as, P t := by
  intro t ht
  obtain ⟨pre, hpre, hexec⟩ := mem_trace_iff.mp ht
  exact trace_induction (P := fun _ t => P t) hs (fun _ a t u _ _ => hstep t a u) pre t
    (h.restrict hpre) hexec

/-- What every step preserves holds in all states of a run. -/
theorem forall_trace {P : σ → Prop} (hs : P s) (hstep : ∀ t a u, P t → step t a = some u → P u)
    (as : List α) : ∀ t ∈ trace step s as, P t := by
  have hany : Along step (fun _ _ => True) s as := .of_forall (fun _ _ _ => trivial) s
  exact hany.forall_trace hs fun t a u ht _ => hstep t a u ht

/-- **A condition that decides what is seen.** If `ok` steps keep an invariant from which `seen`
follows, and every other step is taken and breaks `seen`, then `seen` holds in all states of a
run exactly when all its steps are `ok`. -/
theorem forall_trace_seen_iff_along {inv seen : σ → Prop} (hseen : ∀ s, inv s → seen s)
    (hkeep : ∀ s a t, inv s → ok s a → step s a = some t → inv t)
    (hbreak : ∀ s a, inv s → ¬ok s a → ∃ t, step s a = some t ∧ ¬seen t) :
    ∀ (as : List α) (s : σ), inv s → ((∀ t ∈ trace step s as, seen t) ↔ Along step ok s as) := by
  intro as
  induction as with
  | nil =>
    intro s hs
    simp [trace, Along, hseen s hs]
  | cons a as ih =>
    intro s hs
    constructor
    · intro hall
      by_cases hok : ok s a
      · refine ⟨hok, fun t ht => ?_⟩
        have hstep : step s a = some t := ht
        refine (ih t (hkeep s a t hs hok hstep)).mp ?_
        intro u hu
        exact hall u (by simp [trace, hstep, hu])
      · obtain ⟨t, hstep, hbad⟩ := hbreak s a hs hok
        refine absurd (hall t ?_) hbad
        rw [trace, hstep]
        exact mem_cons_of_mem _ (mem_trace_iff.mpr ⟨[], nil_prefix, rfl⟩)
    · rintro ⟨hok, hrest⟩ t ht
      rcases mem_cons.mp ht with rfl | ht
      · exact hseen _ hs
      cases hstep : step s a with
      | none => simp [hstep] at ht
      | some u =>
        exact (ih u (hkeep s a u hs hok hstep)).mpr (hrest u hstep) t (by simpa [hstep] using ht)

/-- **A condition that decides a property.** If `ok` steps keep `good` and every other step is
taken and breaks it, then `good` holds in all states of a run exactly when all its steps are
`ok`. `inv` may be used on the way. -/
theorem forall_trace_iff_along {inv good : σ → Prop}
    (hinv : ∀ s a t, inv s → step s a = some t → inv t)
    (hkeep : ∀ s a t, inv s → good s → ok s a → step s a = some t → good t)
    (hbreak : ∀ s a, inv s → good s → ¬ok s a → ∃ t, step s a = some t ∧ ¬good t) :
    ∀ (as : List α) (s : σ), inv s → good s →
      ((∀ t ∈ trace step s as, good t) ↔ Along step ok s as) := by
  intro as s hs hgood
  have hboth : inv s ∧ good s := ⟨hs, hgood⟩
  refine forall_trace_seen_iff_along (fun t (h : inv t ∧ good t) => h.2) ?_ ?_ as s hboth
  · rintro s a t ⟨hs, hgood⟩ hok hstep
    exact ⟨hinv s a t hs hstep, hkeep s a t hs hgood hok hstep⟩
  · rintro s a ⟨hs, hgood⟩ hok
    exact hbreak s a hs hgood hok

/-- **Order along a run.** A reflexive and transitive relation that every step of a run respects
relates any two of its states, in order. -/
theorem trace_pairwise {R : σ → σ → Prop} (hrefl : ∀ t, R t t)
    (htrans : ∀ t u v, R t u → R u v → R t v) :
    ∀ as, (∀ pre a t u, pre ++ [a] <+: as → exec step s pre = some t → step t a = some u →
      R t u) → (trace step s as).Pairwise R := by
  -- the last state is above all others, which is what the next step extends
  suffices h : ∀ as, (∀ pre a t u, pre ++ [a] <+: as → exec step s pre = some t →
      step t a = some u → R t u) → (trace step s as).Pairwise R ∧
        ∀ t ∈ exec step s as, ∀ r ∈ trace step s as, R r t from fun as has => (h as has).1
  intro as
  induction as using List.reverseRecOn with
  | nil => simp [trace, hrefl]
  | append_singleton as a ih =>
    intro has
    obtain ⟨hpw, hlast⟩ := ih fun pre b t u hp =>
      has pre b t u (hp.trans (prefix_append _ _))
    cases hu : exec step s (as ++ [a]) with
    | none =>
      rw [trace_concat_none hu]
      exact ⟨hpw, fun t ht => by simp at ht⟩
    | some u =>
      obtain ⟨t, ht, htu⟩ := exec_concat_eq_some.mp hu
      have hR : R t u := has as a t u (prefix_refl _) ht htu
      have hall : ∀ r ∈ trace step s as, R r u := fun r hr =>
        htrans r t u (hlast t ht r hr) hR
      rw [trace_concat ht htu]
      refine ⟨pairwise_append.mpr ⟨hpw, pairwise_singleton _ _, ?_⟩, ?_⟩
      · intro r hr v hv
        rw [mem_singleton.mp hv]
        exact hall r hr
      rintro v ⟨⟩
      exact forall_mem_append.mpr ⟨hall, forall_mem_singleton.mpr (hrefl u)⟩

end DistributedKV.Lts
