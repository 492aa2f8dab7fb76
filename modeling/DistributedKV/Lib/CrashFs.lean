import Mathlib.Data.Countable.Defs
import DistributedKV.Lib.Prog

/-!
# Files under crashes

A directory is a function from paths to contents. A program works on it by whole-file writes,
renames and removals (`Prog`), and each call meets a fate: it is done, it fails and the program goes
on with the error, or the machine stops in the middle of it. A write that is cut off leaves the
first bytes of its data in its target, or has not touched it yet; a rename and a removal are
atomic, and have not happened if they fail.

`run` plays a program against a list of fates. `Safe` says that whatever the fates are, the files
satisfy one condition if the machine stops and another if the program ends; it has one rule for
each construct of a program, and one for the usual way to replace a file (`replaceFile_safe`).
-/

namespace DistributedKV.CrashFs

open Function

variable {P B E A : Type} [DecidableEq P]

/-- The contents of the files; `none` for a path at which there is none. -/
abbrev Files (P B : Type) := P → Option (List B)

/-- The calls of a program. -/
inductive FsCall (P B : Type) where
  | writeFile (path : P) (data : List B)
  | rename (source target : P)
  | remove (path : P)

/-- A program on files. A call answers with an error or none. -/
abbrev FsProg (P B E A : Type) := Prog (FsCall P B) (fun _ => Option E) A

/-- What a call does. A rename of a file that is not there does nothing. -/
def FsCall.effect (files : Files P B) : FsCall P B → Files P B
  | .writeFile path data => Function.update files path (some data)
  | .rename source target =>
    match files source with
    | none => files
    | some data => Function.update (Function.update files source none) target (some data)
  | .remove path => Function.update files path none

/-- How much of a call has happened when it is cut off. Of a write that has begun `n` bytes have
arrived. -/
inductive Cut where
  | untouched
  | begun (n : Nat)

/-- What a call that fails leaves. -/
def FsCall.failed (files : Files P B) : Cut → FsCall P B → Files P B
  | .begun n, .writeFile path data => Function.update files path (some (data.take n))
  | _, _ => files

/-- What a call leaves in which the machine stops. -/
def FsCall.stopped (files : Files P B) : Cut → FsCall P B → Files P B
  | .untouched, _ => files
  | .begun n, .writeFile path data => Function.update files path (some (data.take n))
  | .begun _, call => call.effect files

/-- What happens to a call. -/
inductive Fate (E : Type) where
  | done
  | fails (err : E) (cut : Cut)
  | stops (cut : Cut)

/-- The files a program leaves and its result, none if the machine stopped, as it does after the
last fate. -/
def run : FsProg P B E A → Files P B → List (Fate E) → Files P B × Option A
  | .ret a, files, _ => (files, some a)
  | .call _ _, files, [] => (files, none)
  | .call c k, files, .done :: fates => run (k none) (c.effect files) fates
  | .call c k, files, .fails err cut :: fates => run (k (some err)) (c.failed files cut) fates
  | .call c _, files, .stops cut :: _ => (c.stopped files cut, none)

/-- Whatever the fates, a program that is stopped leaves files that satisfy `I`, and one that
ends leaves files and a result that satisfy `Q`. -/
def Safe (files : Files P B) (p : FsProg P B E A) (I : Files P B → Prop)
    (Q : Files P B → A → Prop) : Prop :=
  ∀ fates, match run p files fates with
    | (files', none) => I files'
    | (files', some a) => Q files' a

section Rules

variable {files : Files P B} {I J : Files P B → Prop} {Q R : Files P B → A → Prop}
  {p : FsProg P B E A}

theorem Safe.ret {a : A} (h : Q files a) : Safe (E := E) files (.ret a) I Q :=
  fun _ => h

/-- The rule of a call: what it leaves if the machine stops in it, and what follows if it is
done or fails. -/
theorem Safe.call {c : FsCall P B} {k : Option E → FsProg P B E A}
    (hstops : ∀ cut, I (c.stopped files cut)) (hdone : Safe (c.effect files) (k none) I Q)
    (hfails : ∀ err cut, Safe (c.failed files cut) (k (some err)) I Q) :
    Safe files (.call c k) I Q := by
  intro fates
  match fates with
  | [] => exact hstops .untouched
  | .done :: fates => exact hdone fates
  | .fails err cut :: fates => exact hfails err cut fates
  | .stops cut :: _ => exact hstops cut

theorem Safe.mono (h : Safe files p I Q) (hI : ∀ f, I f → J f) (hQ : ∀ f a, Q f a → R f a) :
    Safe files p J R := by
  intro fates
  have hrun := h fates
  split
  · next f heq => exact hI f (by rwa [heq] at hrun)
  · next f a heq => exact hQ f a (by rwa [heq] at hrun)

theorem Safe.left {G : Files P B → Prop} (h : Safe files p I Q) (hI : ∀ f, I f → G f)
    (hQ : ∀ f a, Q f a → G f) (fates : List (Fate E)) : G (run p files fates).1 := by
  have hrun := h fates
  split at hrun
  · next f heq =>
    rw [heq]
    exact hI f hrun
  next f a heq =>
    rw [heq]
    exact hQ f a hrun

theorem Safe.bind {A' : Type} {f : A → FsProg P B E A'} {Q : Files P B → A' → Prop}
    (h : Safe files p I fun files' a => Safe files' (f a) I Q) : Safe files (p.bind f) I Q := by
  induction p generalizing files with
  | ret a => exact h []
  | call c k ih =>
    refine .call (fun cut => h [.stops cut]) (ih none fun fates => h (.done :: fates)) ?_
    exact fun err cut => ih (some err) fun fates => h (.fails err cut :: fates)

theorem run_bind_ret {A' : Type} (f : A → A') (p : FsProg P B E A) (files : Files P B)
    (fates : List (Fate E)) : run (p.bind fun a => .ret (f a)) files fates =
      ((run p files fates).1, (run p files fates).2.map f) := by
  induction p generalizing files fates with
  | ret a => rfl
  | call c k ih =>
    match fates with
    | [] => rfl
    | .done :: fates => exact ih none _ fates
    | .fails err cut :: fates => exact ih (some err) _ fates
    | .stops cut :: _ => rfl

end Rules

/-! ## Replacing a file -/

/-- Write the new content to `temp` and rename it to `target`. A failing rename is followed by
the removal of `temp`, whose error is dropped. The result is the error and its call. -/
def replaceFile (temp target : P) (data : List B) : FsProg P B E (Option (FsCall P B × E)) :=
  .call (.writeFile temp data) fun
    | some err => .ret (some (.writeFile temp data, err))
    | none => .call (.rename temp target) fun
      | some err => .call (.remove temp) fun _ => .ret (some (.rename temp target, err))
      | none => .ret none

/-- The files are as they were, except for `temp`, about which nothing is said. -/
def SameBut (temp : P) (files files' : Files P B) : Prop := ∀ p, p ≠ temp → files' p = files p

/-- The files are as they were, except for `temp` and for `target`, which has the new content.
-/
def Replaced (temp target : P) (data : List B) (files files' : Files P B) : Prop :=
  files' target = some data ∧ ∀ p, p ≠ temp → p ≠ target → files' p = files p

section Replace

variable {temp target : P} {data : List B} {files : Files P B}

open Function

theorem sameBut_update (content : Option (List B)) :
    SameBut temp files (update files temp content) :=
  fun _ hp => update_of_ne hp _ _

open FsCall

theorem SameBut.stopped_writeFile (data : List B) (cut : Cut) :
    SameBut temp files ((writeFile temp data).stopped files cut) := by
  cases cut with
  | untouched => exact fun _ _ => rfl
  | begun n => exact sameBut_update _

theorem SameBut.failed_writeFile (data : List B) (cut : Cut) :
    SameBut temp files ((writeFile temp data).failed files cut) := by
  cases cut with
  | untouched => exact fun _ _ => rfl
  | begun n => exact sameBut_update _

theorem sameBut_removed (content : Option (List B)) :
    SameBut temp files ((remove temp).effect (update files temp content)) := by
  show SameBut temp files (update (update files temp content) temp none)
  rw [update_idem]
  exact sameBut_update _

theorem failed_rename (cut : Cut) : (rename temp target).failed files cut = files := by
  cases cut <;> rfl

theorem replaced_rename : Replaced temp target data files
      ((rename temp target).effect (update files temp (some data))) := by
  simp only [effect, update_self]
  constructor
  · exact update_self ..
  · intro p htemp htarget
    rw [update_of_ne htarget, update_of_ne htemp, update_of_ne htemp]

/-- **Replacing a file is atomic.** If the machine stops, the target has its old content or the
new one; if the program ends it has the new one exactly when there was no error. No other file
changes, apart from `temp`. -/
theorem replaceFile_safe :
    Safe (E := E) files (replaceFile temp target data)
      (fun files' => SameBut temp files files' ∨ Replaced temp target data files files')
      (fun files' result => match result with
        | none => Replaced temp target data files files'
        | some _ => SameBut temp files files') := by
  have htemp : SameBut temp files (update files temp (some data)) := sameBut_update _
  refine .call (fun cut => .inl (.stopped_writeFile data cut)) ?_
    fun err cut => .ret (.failed_writeFile data cut)
  -- the copy is complete; the rename either has happened or not
  refine .call ?_ (.ret replaced_rename) fun err cut => ?_
  · rintro (_ | n)
    · exact .inl htemp
    · exact .inr replaced_rename
  -- the rename failed: what is left to do concerns `temp` only
  rw [failed_rename]
  refine .call ?_ (.ret (sameBut_removed _)) fun err' cut' => .ret ?_
  · rintro (_ | n)
    · exact .inl htemp
    · exact .inl (sameBut_removed _)
  · cases cut' <;> exact htemp

/-- The fates under which the target is replaced: the copy is written and renamed. -/
def replaces : List (Fate E) → Bool
  | .done :: .done :: _ => true
  | .done :: .stops (.begun _) :: _ => true
  | _ => false

/-- What exactly `replaceFile` leaves under given fates. -/
theorem run_replaceFile (temp target : P) (data : List B) (files : Files P B)
    (fates : List (Fate E)) :
    if replaces fates then
      Replaced temp target data files (run (replaceFile temp target data) files fates).1
    else SameBut temp files (run (replaceFile temp target data) files fates).1 := by
  have htemp : SameBut temp files (update files temp (some data)) := sameBut_update _
  match fates with
  | [] => exact fun _ _ => rfl
  | .fails err cut :: _ => exact .failed_writeFile data cut
  | .stops cut :: _ => exact .stopped_writeFile data cut
  | [.done] => exact htemp
  | .done :: .done :: _ => exact replaced_rename
  | .done :: .stops .untouched :: _ => exact htemp
  | .done :: .stops (.begun _) :: _ => exact replaced_rename
  | .done :: .fails err cut :: fates =>
    -- after a failing rename the program is about `temp` only
    show SameBut temp files (run (.call (.remove temp) _) (failed _ _ _) fates).1
    rw [failed_rename]
    match fates with
    | [] => exact htemp
    | .done :: _ => exact sameBut_removed _
    | .fails _ .untouched :: _ => exact htemp
    | .fails _ (.begun _) :: _ => exact htemp
    | .stops .untouched :: _ => exact htemp
    | .stops (.begun _) :: _ => exact sameBut_removed _

end Replace

/-! ## Contents -/

/-- How values are written to files and read back. -/
structure Codec (B T : Type) where
  marshal : T → List B
  unmarshal : List B → Option T
  round_trip : ∀ x, unmarshal (marshal x) = some x

/-- No proper first part of a marshalled value can be read: a file whose write was cut off is
recognised. -/
def Codec.Delimited {T : Type} (codec : Codec B T) : Prop :=
  ∀ x n, n < (codec.marshal x).length → codec.unmarshal ((codec.marshal x).take n) = none

/-- The numbers in unary, closed by a zero. -/
def unary (n : Nat) : List UInt8 := List.replicate n 1 ++ [0]

theorem length_unary (n : Nat) : (unary n).length = n + 1 := by
  simp [unary]

theorem take_unary_ne {m n k : Nat} (hk : k < (unary n).length) : (unary n).take k ≠ unary m := by
  rw [length_unary] at hk
  intro heq
  have hmem : (0 : UInt8) ∈ (unary n).take k := by
    rw [heq]
    exact List.mem_append_right _ (List.mem_singleton.mpr rfl)
  rw [unary, List.take_append_of_le_length (by rw [List.length_replicate]; omega)] at hmem
  have hone := List.eq_of_mem_replicate (List.mem_of_mem_take hmem)
  cases hone

/-- Read back a value that is written as its number in unary. -/
noncomputable def readUnary {T : Type} (number : T → Nat) (bytes : List UInt8) : Option T :=
  open Classical in if h : ∃ x, unary (number x) = bytes then some h.choose else none

/-- There is such a codec for every countable type. -/
theorem exists_codec (T : Type) [Countable T] : ∃ codec : Codec UInt8 T, codec.Delimited := by
  obtain ⟨number, hinj⟩ := exists_injective_nat T
  refine ⟨⟨fun x => unary (number x), readUnary number, fun x => ?_⟩, fun x n hn => ?_⟩
  · have hex : ∃ y, unary (number y) = unary (number x) := ⟨x, rfl⟩
    have hlength := congrArg List.length hex.choose_spec
    rw [length_unary, length_unary] at hlength
    rw [readUnary, dif_pos hex]
    exact congrArg some (hinj (by omega))
  · exact dif_neg fun ⟨y, hy⟩ => take_unary_ne hn hy.symm

end DistributedKV.CrashFs
