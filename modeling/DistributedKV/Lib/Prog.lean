import Mathlib.Data.List.Basic

/-!
# Programs of atomic calls

A program is a tree: it makes an atomic call and goes on with the answer, or it returns. What a
call does is given by a handler on a state, so one text of a program has two meanings: it runs
alone, from its first call to its result (`Prog.run`, with `Ends` for total correctness and one rule
for each construct), or several clients run programs on one state, and each step of the pool is
one call of one of them (`Pool.step`).
-/

namespace DistributedKV

/-- A program that makes calls `c : E`, each answered in `A c`, and returns an `α`. -/
inductive Prog (E : Type) (A : E → Type) (α : Type) where
  | ret (a : α)
  | call (c : E) (k : A c → Prog E A α)

namespace Prog

variable {E : Type} {A : E → Type} {α β γ σ : Type}

/-- Sequential composition. -/
def bind : Prog E A α → (α → Prog E A β) → Prog E A β
  | .ret a, f => f a
  | .call c k, f => .call c fun r => (k r).bind f

theorem bind_assoc (p : Prog E A α) (f : α → Prog E A β) (g : β → Prog E A γ) :
    (p.bind f).bind g = p.bind fun a => (f a).bind g := by
  induction p with
  | ret a => rfl
  | call c k ih => exact congrArg (Prog.call c) (funext ih)

instance : Monad (Prog E A) where
  pure := .ret
  bind := bind

/-- The program of one call. -/
def perform (c : E) : Prog E A (A c) := .call c .ret

/-- The program run for each element of a list, in order. -/
def each (f : γ → Prog E A Unit) : List γ → Prog E A Unit
  | [] => .ret ()
  | x :: xs => (f x).bind fun _ => each f xs

/-- All calls that a program can make satisfy `P`. -/
def Only (P : E → Prop) : Prog E A α → Prop
  | .ret _ => True
  | .call c k => P c ∧ ∀ r, Only P (k r)

theorem Only.bind {P : E → Prop} {p : Prog E A α} {f : α → Prog E A β} (hp : p.Only P)
    (hf : ∀ a, (f a).Only P) : (p.bind f).Only P := by
  induction p with
  | ret a => exact hf a
  | call c k ih => exact ⟨hp.1, fun r => ih r (hp.2 r)⟩

/-! ## A program on its own -/

section Run

variable (handle : σ → (c : E) → Option (σ × A c))

/-- The run of a program, `none` if a call fails. -/
def run (s : σ) : Prog E A α → Option (σ × α)
  | .ret a => some (s, a)
  | .call c k => (handle s c).bind fun r => run r.1 (k r.2)

/-- The program runs to its end and establishes `Q`. -/
def Ends (s : σ) (p : Prog E A α) (Q : σ → α → Prop) : Prop :=
  ∃ t a, run handle s p = some (t, a) ∧ Q t a

variable {handle} {s t : σ} {p : Prog E A α} {Q R : σ → α → Prop}

theorem Ends.ret {a : α} (h : Q s a) : Ends handle s (.ret a) Q :=
  ⟨s, a, rfl, h⟩

theorem Ends.call {c : E} {k : A c → Prog E A α} {r : A c} (hc : handle s c = some (t, r))
    (h : Ends handle t (k r) Q) : Ends handle s (.call c k) Q := by
  obtain ⟨u, a, hrun, hq⟩ := h
  exact ⟨u, a, by simpa [run, hc] using hrun, hq⟩

theorem Ends.mono (h : Ends handle s p Q) (hqr : ∀ t a, Q t a → R t a) : Ends handle s p R := by
  obtain ⟨t, a, hrun, hq⟩ := h
  exact ⟨t, a, hrun, hqr t a hq⟩

theorem run_bind (s : σ) (p : Prog E A α) (f : α → Prog E A β) :
    run handle s (p.bind f) = (run handle s p).bind fun r => run handle r.1 (f r.2) := by
  induction p generalizing s with
  | ret a => rfl
  | call c k ih =>
    show (handle s c).bind _ = ((handle s c).bind _).bind _
    cases handle s c with
    | none => rfl
    | some r => exact ih r.2 r.1

theorem Ends.bind {f : α → Prog E A β} {Q : σ → β → Prop}
    (h : Ends handle s p fun t a => Ends handle t (f a) Q) : Ends handle s (p.bind f) Q := by
  obtain ⟨t, a, hrun, u, b, hrun', hq⟩ := h
  exact ⟨u, b, by rw [run_bind, hrun]; exact hrun', hq⟩

theorem Ends.perform {c : E} {r : A c} {Q : σ → A c → Prop} (hc : handle s c = some (t, r))
    (hq : Q t r) : Ends handle s (perform c) Q :=
  .call hc (.ret hq)

/-- The rule of the loop, for an invariant about a value that the loop folds over the list. -/
theorem Ends.each {f : γ → Prog E A Unit} {I : β → σ → Prop} {g : β → γ → β} {xs : List γ}
    (hstep : ∀ x ∈ xs, ∀ b s, I b s → Ends handle s (f x) fun t _ => I (g b x) t) {b : β}
    (h : I b s) : Ends handle s (each f xs) fun t _ => I (xs.foldl g b) t := by
  induction xs generalizing s b with
  | nil => exact .ret h
  | cons x xs ih =>
    refine .bind ((hstep x List.mem_cons_self b s h).mono fun t _ ht => ?_)
    exact ih (fun y hy => hstep y (List.mem_cons_of_mem _ hy)) ht

end Run

end Prog

/-! ## Several programs on one state -/

/-- A shared state, and the rest of the program each client is running. -/
structure Pool (ι E : Type) (A : E → Type) (α σ : Type) where
  shared : σ
  running : ι → Option (Prog E A α)

namespace Pool

variable {ι E : Type} {A : E → Type} {α σ κ ν : Type} [DecidableEq ι]

/-- A client begins a request, makes its next call under the circumstances `env`, or returns. -/
inductive Action (ι κ ν : Type) where
  | begin (i : ι) (request : κ)
  | advance (i : ι) (env : ν)
  | finish (i : ι)

variable (code : κ → Prog E A α) (handle : ν → σ → (c : E) → Option (σ × A c))

/-- One step of the pool. -/
def step (s : Pool ι E A α σ) : Action ι κ ν → Option (Pool ι E A α σ)
  | .begin i request =>
    match s.running i with
    | none => some { s with running := Function.update s.running i (some (code request)) }
    | some _ => none
  | .advance i env =>
    match s.running i with
    | some (.call c k) => (handle env s.shared c).map fun r =>
        { shared := r.1, running := Function.update s.running i (some (k r.2)) }
    | _ => none
  | .finish i =>
    match s.running i with
    | some (.ret _) => some { s with running := Function.update s.running i none }
    | _ => none

/-- No client is running anything. -/
def Idle (s : Pool ι E A α σ) : Prop := ∀ i, (s.running i).isNone = true

variable {code handle} {s t : Pool ι E A α σ}

theorem step_cases {a : Action ι κ ν} (h : step code handle s a = some t) :
    (∃ i request, a = .begin i request ∧ s.running i = none ∧
      t = { s with running := Function.update s.running i (some (code request)) }) ∨
    (∃ i env c k r, a = .advance i env ∧ s.running i = some (.call c k) ∧
      handle env s.shared c = some r ∧
      t = { shared := r.1, running := Function.update s.running i (some (k r.2)) }) ∨
    (∃ i x, a = .finish i ∧ s.running i = some (.ret x) ∧
      t = { s with running := Function.update s.running i none }) := by
  cases a with
  | begin i request =>
    cases hi : s.running i with
    | some p => simp [step, hi] at h
    | none => exact .inl ⟨i, request, rfl, hi, by simpa [step, hi] using h.symm⟩
  | advance i env =>
    cases hi : s.running i with
    | none => simp [step, hi] at h
    | some p =>
      cases p with
      | ret x => simp [step, hi] at h
      | call c k =>
        simp only [step, hi] at h
        obtain ⟨r, hr, rfl⟩ := Option.map_eq_some_iff.1 h
        exact .inr (.inl ⟨i, env, c, k, r, rfl, hi, hr, rfl⟩)
  | finish i =>
    cases hi : s.running i with
    | none => simp [step, hi] at h
    | some p =>
      cases p with
      | call c k => simp [step, hi] at h
      | ret x => exact .inr (.inr ⟨i, x, rfl, hi, by simpa [step, hi] using h.symm⟩)

end Pool

end DistributedKV
