import DistributedKV.Security.AccessDecision

/-!
# Access decisions and the order of the policies

`getApplicablePolicies` collects the policies from a map, in an order that the program does not
choose, and sorts them by priority, so each policy can be the first of its priority. The answer is
that of the first policy that says something.
-/

namespace DistributedKV.Security.Rbac

open List

namespace RBACManager

variable {α : Type} (equal : α → α → Except Fault Bool) (rbac : RBACManager α)
  (request : AccessRequest α)

/-- The answer of a check. -/
def answer (order : IterationOrder ((_ : String) × Policy α)) : Except Fault Bool :=
  (rbac.checkAccess equal order request).map AccessResult.granted

/-- What a policy says on its own: nothing, if none of its rules matches. -/
def policyAnswer (policy : Policy α) : Option (Except Fault Bool) :=
  match rbac.evaluatePolicy equal policy request with
  | .error fault => some (.error fault)
  | .ok evaluation =>
    if evaluation.granted then some (.ok true)
    else if evaluation.matchedRules ≠ [] then some (.ok false)
    else none

/-- What a check makes of a decision: with a permission goes the list of all permissions. -/
def conclude : Except Fault Bool → Except Fault Bool
  | .error fault => .error fault
  | .ok false => .ok false
  | .ok true =>
    match getUserPermissions rbac.roles rbac.config.enableInheritance [] request.roles with
    | none => .error .stackOverflow
    | some _ => .ok true

/-- An active policy with something to say, and none of a lower priority has. -/
structure FirstToSpeak (policy : Policy α) (said : Except Fault Bool) : Prop where
  active : policy ∈ rbac.active
  speaks : rbac.policyAnswer equal request policy = some said
  least : ∀ p ∈ rbac.active, rbac.policyAnswer equal request p ≠ none →
    policy.priority ≤ p.priority

/-- The policies that can be the first to say something lead to the same answer. -/
def Unanimous : Prop :=
  ∀ p q said said', rbac.FirstToSpeak equal request p said →
    rbac.FirstToSpeak equal request q said' →
      rbac.conclude request said = rbac.conclude request said'

section Answers

variable {equal rbac request} {order : IterationOrder ((_ : String) × Policy α)}

theorem policyLoop_granted {policies : List (Policy α)} {matchedRules failedRules : List String} :
    (rbac.policyLoop equal request policies matchedRules failedRules).map Evaluation.granted =
      (policies.findSome? (rbac.policyAnswer equal request)).getD
        (.ok !rbac.config.defaultDenyAll) := by
  induction policies generalizing matchedRules failedRules with
  | nil =>
    rw [policyLoop]
    cases rbac.config.defaultDenyAll <;> rfl
  | cons policy policies ih =>
    rw [policyLoop, findSome?_cons, policyAnswer]
    cases rbac.evaluatePolicy equal policy request with
    | error fault => rfl
    | ok evaluation =>
      dsimp only
      split
      · rfl
      split
      · rfl
      · exact ih

/-- **The answer of a check** is that of the first policy that says something, or the
default. -/
theorem answer_eq : rbac.answer equal request order =
    rbac.conclude request (((rbac.getApplicablePolicies order).findSome?
      (rbac.policyAnswer equal request)).getD (.ok !rbac.config.defaultDenyAll)) := by
  rw [← policyLoop_granted, answer, checkAccess]
  show _ = rbac.conclude request ((rbac.evaluatePolicies equal order request).map _)
  cases rbac.evaluatePolicies equal order request with
  | error fault => rfl
  | ok evaluation =>
    obtain ⟨granted, reason, matchedRules, failedRules⟩ := evaluation
    cases granted with
    | false => rfl
    | true =>
      show Except.map _ _ = rbac.conclude request (.ok true)
      rw [conclude]
      cases getUserPermissions rbac.roles rbac.config.enableInheritance [] request.roles <;> rfl

/-- The first policy that says something has the lowest priority of those that do. -/
theorem firstToSpeak_of_findSome {said : Except Fault Bool}
    (h : (rbac.getApplicablePolicies order).findSome? (rbac.policyAnswer equal request) =
      some said) : ∃ policy, rbac.FirstToSpeak equal request policy said := by
  obtain ⟨front, policy, back, hsplit, hsays, hfront⟩ := findSome?_eq_some_iff.mp h
  have hmem : policy ∈ rbac.getApplicablePolicies order := by
    rw [hsplit]
    exact mem_append_right _ mem_cons_self
  refine ⟨policy, (mem_getApplicablePolicies order).mp hmem, hsays, fun p hp hspeaks => ?_⟩
  by_contra hlt
  exact hspeaks (hfront p (mem_front order hsplit hp (not_le.mp hlt)))

end Answers

section Orders

variable {equal rbac request}

/-- Active entries with one of them in front of all that are not below it are sorted. -/
theorem sorted_around {entry : (_ : String) × Policy α} {rest : List ((_ : String) × Policy α)} :
    (exchangeSort (·.2.priority) (rest.filter fun e => e.2.priority < entry.2.priority) ++
      entry :: exchangeSort (·.2.priority)
        (rest.filter fun e => !decide (e.2.priority < entry.2.priority))).Pairwise
      fun d e => d.2.priority ≤ e.2.priority := by
  have hlow : ∀ e ∈ exchangeSort (·.2.priority)
      (rest.filter fun e => e.2.priority < entry.2.priority), e.2.priority < entry.2.priority := by
    intro e he
    exact of_decide_eq_true (mem_filter.mp ((exchangeSort_perm _).mem_iff.mp he)).2
  have hhigh : ∀ e ∈ exchangeSort (·.2.priority)
      (rest.filter fun e => !decide (e.2.priority < entry.2.priority)),
      entry.2.priority ≤ e.2.priority := by
    intro e he
    have hnot := (mem_filter.mp ((exchangeSort_perm _).mem_iff.mp he)).2
    rw [Bool.not_eq_true', decide_eq_false_iff_not] at hnot
    exact not_lt.mp hnot
  refine pairwise_append.mpr ⟨exchangeSort_sorted _,
    pairwise_cons.mpr ⟨hhigh, exchangeSort_sorted _⟩, fun d hd e he => ?_⟩
  rcases mem_cons.mp he with rfl | he
  · exact (hlow d hd).le
  · exact (hlow d hd).le.trans (hhigh e he)

/-- **Each policy can be the first of its priority.** -/
theorem exists_order_front {policy : Policy α} (hpolicy : policy ∈ rbac.active) :
    ∃ (order : IterationOrder ((_ : String) × Policy α)) (front back : List (Policy α)),
      rbac.getApplicablePolicies order = front ++ policy :: back ∧
      ∀ p ∈ front, p.priority < policy.priority := by
  obtain ⟨hmem, hactive⟩ := mem_filter.mp hpolicy
  obtain ⟨entry, hentry, rfl⟩ := mem_map.mp hmem
  obtain ⟨before, after, hsplit⟩ := append_of_mem (mem_filter.mpr ⟨hentry, hactive⟩ :
      entry ∈ rbac.policies.entries.filter fun e => e.2.isActive)
  -- the entry goes in front of those that are not below it, the inactive ones come last
  let low := exchangeSort (·.2.priority)
    ((before ++ after).filter fun e => e.2.priority < entry.2.priority)
  let high := exchangeSort (·.2.priority)
    ((before ++ after).filter fun e => !decide (e.2.priority < entry.2.priority))
  have hperm : (low ++ entry :: high).Perm
      (rbac.policies.entries.filter fun e => e.2.isActive) := by
    rw [hsplit]
    refine perm_middle.trans (.trans (.cons entry ?_) perm_middle.symm)
    exact ((exchangeSort_perm _).append (exchangeSort_perm _)).trans (filter_append_perm _ _)
  obtain ⟨order, horder⟩ := IterationOrder.exists_pick_eq ((hperm.append_right _).trans
      (filter_append_perm (fun e => e.2.isActive) rbac.policies.entries))
  have hactives : ∀ e ∈ low ++ entry :: high, e.2.isActive = true :=
    fun e he => (mem_filter.mp (hperm.mem_iff.mp he)).2
  have hcollect : activePolicies (order.pick rbac.policies.entries) =
      (low ++ entry :: high).map Sigma.snd := by
    have hself : (low ++ entry :: high).filter (Policy.isActive ∘ Sigma.snd) =
        low ++ entry :: high := filter_eq_self.mpr hactives
    have hnone : (rbac.policies.entries.filter fun e => !e.2.isActive).filter
        (Policy.isActive ∘ Sigma.snd) = [] := by
      refine filter_eq_nil_iff.mpr fun e he => ?_
      rw [mem_filter, Bool.not_eq_true'] at he
      show ¬e.2.isActive = true
      rw [he.2]
      exact Bool.false_ne_true
    rw [horder, activePolicies, filter_map, filter_append, hself, hnone, append_nil]
  refine ⟨order, low.map Sigma.snd, high.map Sigma.snd, ?_, ?_⟩
  · rw [getApplicablePolicies, hcollect, exchangeSort,
      exchangeRounds_eq_self _ (pairwise_map.mpr sorted_around), map_append, map_cons]
  intro p hp
  obtain ⟨e, he, rfl⟩ := mem_map.mp hp
  exact of_decide_eq_true (mem_filter.mp ((exchangeSort_perm _).mem_iff.mp he)).2

theorem FirstToSpeak.exists_answer {policy : Policy α} {said : Except Fault Bool}
    (h : rbac.FirstToSpeak equal request policy said) :
    ∃ order, rbac.answer equal request order = rbac.conclude request said := by
  obtain ⟨order, front, back, hsplit, hfront⟩ := exists_order_front h.active
  refine ⟨order, ?_⟩
  have hsilent : ∀ p ∈ front, rbac.policyAnswer equal request p = none := by
    intro p hp
    have hmem : p ∈ rbac.getApplicablePolicies order := by
      rw [hsplit]
      exact mem_append_left _ hp
    by_contra hspeaks
    exact absurd (h.least p ((mem_getApplicablePolicies order).mp hmem) hspeaks)
      (not_le.mpr (hfront p hp))
  have hfirst : (rbac.getApplicablePolicies order).findSome? (rbac.policyAnswer equal request) =
      some said := findSome?_eq_some_iff.mpr ⟨front, policy, back, hsplit, h.speaks, hsilent⟩
  rw [answer_eq, hfirst, Option.getD_some]

theorem Unanimous.answer_eq_answer (h : rbac.Unanimous equal request)
    (order order' : IterationOrder ((_ : String) × Policy α)) :
    rbac.answer equal request order = rbac.answer equal request order' := by
  rw [answer_eq, answer_eq]
  cases hfirst : (rbac.getApplicablePolicies order).findSome?
      (rbac.policyAnswer equal request) with
  | none =>
    -- no policy says anything, in whichever order
    have hnone : (rbac.getApplicablePolicies order').findSome?
        (rbac.policyAnswer equal request) = none := by
      rw [findSome?_eq_none_iff] at hfirst ⊢
      intro p hp
      rw [mem_getApplicablePolicies] at hp
      exact hfirst p ((mem_getApplicablePolicies order).mpr hp)
    rw [hnone]
  | some said =>
    obtain ⟨p, hp⟩ := firstToSpeak_of_findSome hfirst
    cases hfirst' : (rbac.getApplicablePolicies order').findSome?
        (rbac.policyAnswer equal request) with
    | none =>
      have hsilent := findSome?_eq_none_iff.mp hfirst' p
        ((mem_getApplicablePolicies order').mpr hp.active)
      exact absurd (hp.speaks.symm.trans hsilent) nofun
    | some said' =>
      obtain ⟨q, hq⟩ := firstToSpeak_of_findSome hfirst'
      exact h p q said said' hp hq

end Orders

/-- **The order of the map.** A check has the same answer for every order of the map exactly if
the policies that can be the first to say something lead to the same answer. -/
theorem order_independent_iff :
    (∀ order order', rbac.answer equal request order = rbac.answer equal request order') ↔
      rbac.Unanimous equal request := by
  refine ⟨fun h p q said said' hp hq => ?_, fun h order order' => h.answer_eq_answer order order'⟩
  obtain ⟨order, horder⟩ := hp.exists_answer
  obtain ⟨order', horder'⟩ := hq.exists_answer
  rw [← horder, ← horder']
  exact h order order'

/-- A policy that denies every request. -/
def denyAll (priority : Int) : Policy Nat :=
  ⟨"closed", [ruleForAll "closed" .deny []], priority, true⟩

/-- Of two policies with the same priority the one that the map gives first decides. -/
theorem order_counterexample :
    ∃ (rbac : RBACManager Nat) (order order' : IterationOrder ((_ : String) × Policy Nat)),
      rbac.answer equalNat bobsRequest order = .ok true ∧
      rbac.answer equalNat bobsRequest order' = .ok false :=
  ⟨withPolicies (((∅ : GoMap String _).insert "closed" (denyAll 1)).insert "open" (allowAll 1)),
    .asGiven, ⟨List.reverse, fun l => l.reverse_perm⟩, by decide +kernel, by decide +kernel⟩

end RBACManager

end DistributedKV.Security.Rbac
