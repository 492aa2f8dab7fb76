import DistributedKV.Security.Rbac

/-!
# Access decisions

The law that the policies are meant to express: the first rule, by the priority of the policies
and then by the order of the rules, that matches and whose conditions hold decides, and without
one the default does. `evaluatePolicies` takes a policy with a matching rule whose conditions fail
for an explicit denial, and does not look at the policies after it.
-/

namespace DistributedKV.Security.Rbac

open List

/-- Some element of the list satisfies `q`, and those before it `p`. -/
def FirstIs {β : Type} (p q : β → Prop) (l : List β) : Prop :=
  ∃ before x after, l = before ++ x :: after ∧ (∀ y ∈ before, p y) ∧ q x

section Lists

variable {β : Type} {p q : β → Prop} {x : β} {l : List β}

theorem not_firstIs_nil : ¬FirstIs p q [] := by
  rintro ⟨before, x, after, h, -⟩
  cases before <;> cases h

theorem firstIs_cons : FirstIs p q (x :: l) ↔ q x ∨ (p x ∧ FirstIs p q l) := by
  constructor
  · rintro ⟨before, y, after, h, hbefore, hy⟩
    cases before with
    | nil =>
      cases h
      exact Or.inl hy
    | cons z before =>
      cases h
      rw [forall_mem_cons] at hbefore
      exact Or.inr ⟨hbefore.1, before, y, after, rfl, hbefore.2, hy⟩
  · rintro (hx | ⟨hx, before, y, after, rfl, hbefore, hy⟩)
    · exact ⟨[], x, l, rfl, nofun, hx⟩
    · exact ⟨x :: before, y, after, rfl, forall_mem_cons.mpr ⟨hx, hbefore⟩, hy⟩

/-- The first element with a property, and what is before it, is determined. -/
theorem first_unique {before before' after after' : List β} {y y' : β}
    (h : before ++ y :: after = before' ++ y' :: after') (hbefore : ∀ z ∈ before, ¬q z)
    (hy : q y) (hbefore' : ∀ z ∈ before', ¬q z) (hy' : q y') : before = before' ∧ y = y' := by
  induction before generalizing before' with
  | nil =>
    cases before' with
    | nil =>
      cases h
      exact ⟨rfl, rfl⟩
    | cons z before' =>
      cases h
      exact absurd hy (hbefore' y mem_cons_self)
  | cons w before ih =>
    cases before' with
    | nil =>
      cases h
      exact absurd hy' (hbefore y' mem_cons_self)
    | cons z before' =>
      injection h with hw htail
      subst hw
      rw [forall_mem_cons] at hbefore hbefore'
      obtain ⟨rfl, rfl⟩ := ih htail hbefore.2 hbefore'.2
      exact ⟨rfl, rfl⟩

end Lists

namespace RBACManager

variable {α : Type} (equal : α → α → Except Fault Bool) (rbac : RBACManager α)
  (request : AccessRequest α)

/-! ## The law -/

/-- The active policies. -/
def active : List (Policy α) := activePolicies rbac.policies.entries

/-- A rule matches the request and its conditions hold. -/
structure Applies (rule : PolicyRule α) : Prop where
  matching : rbac.Matches rule request
  conditions : ∀ condition ∈ rule.conditions,
    rbac.evaluateCondition equal condition request = .ok true

/-- The rule after the rules `before` of a policy is the first one that applies. -/
structure FirstRule (policy : Policy α) (before : List (PolicyRule α)) (rule : PolicyRule α)
    (after : List (PolicyRule α)) : Prop where
  active : policy ∈ rbac.active
  rules : policy.rules = before ++ rule :: after
  applies : rbac.Applies equal request rule
  inPolicy : ∀ r ∈ before, ¬rbac.Applies equal request r
  ahead : ∀ p ∈ rbac.active, p.priority < policy.priority →
    ∀ r ∈ p.rules, ¬rbac.Applies equal request r

/-- **The law**: the first rule that applies allows the request, or the default if none applies.
-/
def Permitted : Prop :=
  (∃ policy before rule after, rbac.FirstRule equal request policy before rule after ∧
    rule.effect = .allow) ∨
  ((∀ policy ∈ rbac.active, ∀ rule ∈ policy.rules, ¬rbac.Applies equal request rule) ∧
    rbac.config.defaultDenyAll = false)

/-! ## The check -/

/-- The check grants the request. -/
def Grants (order : IterationOrder ((_ : String) × Policy α)) : Prop :=
  ∃ result, rbac.checkAccess equal order request = .ok result ∧ result.granted = true

/-- The rule is found not to match. -/
def Silent (rule : PolicyRule α) : Prop := rbac.ruleMatches rule request = .ok false

/-- The rule is found to match, and its conditions not to hold. -/
def Fails (rule : PolicyRule α) : Prop :=
  rbac.ruleMatches rule request = .ok true ∧
    rbac.evaluateConditions equal request rule.conditions = .ok false

/-- The rule is found to match, and its conditions to hold. -/
def Fires (rule : PolicyRule α) : Prop :=
  rbac.ruleMatches rule request = .ok true ∧
    rbac.evaluateConditions equal request rule.conditions = .ok true

/-- The way to the decision is free: the rules of the policies ahead do not match, the rules
before it in its policy do not match or fail, and nothing on the way ends in a fault. -/
structure Unhindered : Prop where
  first : ∀ policy before rule after, rbac.FirstRule equal request policy before rule after →
    (∀ p ∈ rbac.active, p.priority < policy.priority → ∀ r ∈ p.rules, rbac.Silent request r) ∧
    (∀ r ∈ before, rbac.Silent request r ∨ rbac.Fails equal request r) ∧
    rbac.Fires equal request rule
  default : (∀ policy ∈ rbac.active, ∀ rule ∈ policy.rules, ¬rbac.Applies equal request rule) →
    ∀ policy ∈ rbac.active, ∀ rule ∈ policy.rules, rbac.Silent request rule
  permissions : (getUserPermissions rbac.roles rbac.config.enableInheritance []
    request.roles).isSome

section Rules

variable {equal rbac request} {rule : PolicyRule α}

theorem Silent.not_applies (h : rbac.Silent request rule) : ¬rbac.Applies equal request rule :=
  fun happlies => absurd ((ruleMatches_iff h).mpr happlies.matching) nofun

theorem Fails.not_applies (h : rbac.Fails equal request rule) :
    ¬rbac.Applies equal request rule := by
  intro happlies
  have htrue := evaluateConditions_eq_true_iff.mpr happlies.conditions
  exact absurd (h.2.symm.trans htrue) nofun

theorem Fires.applies (h : rbac.Fires equal request rule) : rbac.Applies equal request rule :=
  ⟨(ruleMatches_iff h.1).mp rfl, evaluateConditions_eq_true_iff.mp h.2⟩

end Rules

/-! ## The loops -/

/-- The rules of a policy are all found not to match. -/
def SilentPolicy (policy : Policy α) : Prop := ∀ rule ∈ policy.rules, rbac.Silent request rule

/-- A policy grants the request. -/
def GrantingPolicy (policy : Policy α) : Prop :=
  FirstIs (fun rule => rbac.Silent request rule ∨ rbac.Fails equal request rule)
    (fun rule => rbac.Fires equal request rule ∧ rule.effect = .allow) policy.rules

section Loops

variable {equal rbac request} {rules : List (PolicyRule α)} {policy : Policy α}

variable {matchedRules failedRules : List String}

/-- A policy grants by its first matching rule whose conditions hold. -/
theorem ruleLoop_grants_iff :
    (∃ e, rbac.ruleLoop equal request rules matchedRules failedRules = .ok e ∧ e.granted = true) ↔
      FirstIs (fun rule => rbac.Silent request rule ∨ rbac.Fails equal request rule)
        (fun rule => rbac.Fires equal request rule ∧ rule.effect = .allow) rules := by
  induction rules generalizing matchedRules failedRules with
  | nil =>
    refine iff_of_false ?_ not_firstIs_nil
    rintro ⟨e, h, hgranted⟩
    cases h
    cases hgranted
  | cons rule rules ih =>
    rw [firstIs_cons, ruleLoop, Silent, Fails, Fires]
    cases hmatch : rbac.ruleMatches rule request with
    | error fault => simp
    | ok matching =>
      cases matching with
      | false => simpa using ih
      | true =>
        cases hcond : rbac.evaluateConditions equal request rule.conditions with
        | error fault => simp
        | ok holds =>
          cases holds with
          | false => simpa using ih
          | true =>
            by_cases heffect : rule.effect = .allow <;> simp [heffect]

theorem ruleLoop_matchedRules_ne_nil {e : Evaluation} (hne : matchedRules ≠ [])
    (h : rbac.ruleLoop equal request rules matchedRules failedRules = .ok e) :
    e.matchedRules ≠ [] := by
  induction rules generalizing matchedRules failedRules with
  | nil =>
    cases h
    exact hne
  | cons rule rules ih =>
    rw [ruleLoop] at h
    split at h
    · cases h
    · exact ih hne h
    split at h
    · cases h
    · split at h <;> cases h <;> exact concat_ne_nil _ _
    · exact ih (concat_ne_nil _ _) h

/-- A policy has nothing to say exactly if none of its rules matches. -/
theorem ruleLoop_passes_iff :
    (∃ e, rbac.ruleLoop equal request rules [] failedRules = .ok e ∧ e.granted = false ∧
        e.matchedRules = []) ↔ ∀ rule ∈ rules, rbac.Silent request rule := by
  induction rules generalizing failedRules with
  | nil => exact ⟨fun _ => nofun, fun _ => ⟨_, rfl, rfl, rfl⟩⟩
  | cons rule rules ih =>
    rw [forall_mem_cons, ruleLoop, Silent]
    cases hmatch : rbac.ruleMatches rule request with
    | error fault => simp
    | ok matching =>
      cases matching with
      | false => simpa using ih
      | true =>
        refine iff_of_false ?_ (fun h => absurd h.1 nofun)
        rintro ⟨e, he, -, hnil⟩
        dsimp only at he
        split at he
        · cases he
        · split at he <;> cases he <;> cases hnil
        · exact ruleLoop_matchedRules_ne_nil (concat_ne_nil _ _) he hnil

/-- The first policy with a matching rule decides, and the default if there is none. -/
theorem policyLoop_grants_iff {policies : List (Policy α)}
    (hactive : ∀ p ∈ policies, p.isActive = true) :
    (∃ e, rbac.policyLoop equal request policies matchedRules failedRules = .ok e ∧
        e.granted = true) ↔
      FirstIs (rbac.SilentPolicy request) (rbac.GrantingPolicy equal request) policies ∨
      ((∀ p ∈ policies, rbac.SilentPolicy request p) ∧ rbac.config.defaultDenyAll = false) := by
  induction policies generalizing matchedRules failedRules with
  | nil =>
    rw [policyLoop]
    cases rbac.config.defaultDenyAll with
    | true => simp [not_firstIs_nil]
    | false => simp
  | cons policy policies ih =>
    rw [forall_mem_cons] at hactive
    rw [firstIs_cons, forall_mem_cons, policyLoop, evaluatePolicy, if_pos hactive.1]
    rw [GrantingPolicy, SilentPolicy,
      ← @ruleLoop_grants_iff _ equal rbac request policy.rules [] [],
      ← @ruleLoop_passes_iff _ equal rbac request policy.rules []]
    cases hpolicy : rbac.ruleLoop equal request policy.rules [] [] with
    | error fault => simp
    | ok e =>
      cases hgranted : e.granted with
      | true => simp [hgranted]
      | false =>
        by_cases hnil : e.matchedRules = []
        · simpa [hgranted, hnil, and_assoc] using ih hactive.2
        · simp [hgranted, hnil]

/-- **What a check grants**, in terms of the policies as they are gone through. -/
theorem grants_iff_policyLoop {order : IterationOrder ((_ : String) × Policy α)} :
    rbac.Grants equal request order ↔
      (∃ e, rbac.evaluatePolicies equal order request = .ok e ∧ e.granted = true) ∧
      (getUserPermissions rbac.roles rbac.config.enableInheritance [] request.roles).isSome := by
  rw [Grants, checkAccess]
  cases hpolicies : rbac.evaluatePolicies equal order request with
  | error fault => simp
  | ok e =>
    obtain ⟨granted, reason, matchedRules, failedRules⟩ := e
    cases granted with
    | false => simp
    | true =>
      cases hperms : getUserPermissions rbac.roles rbac.config.enableInheritance []
          request.roles with
      | none => simp
      | some permissions => simp

end Loops

/-! ## The order of the policies -/

section Order

variable {rbac} (order : IterationOrder ((_ : String) × Policy α))

theorem getApplicablePolicies_perm : (rbac.getApplicablePolicies order).Perm rbac.active :=
  (exchangeSort_perm _).trans (((order.perm _).map _).filter _)

theorem getApplicablePolicies_sorted :
    (rbac.getApplicablePolicies order).Pairwise fun p q => p.priority ≤ q.priority :=
  exchangeSort_sorted _

theorem mem_getApplicablePolicies {policy : Policy α} :
    policy ∈ rbac.getApplicablePolicies order ↔ policy ∈ rbac.active :=
  (getApplicablePolicies_perm order).mem_iff

theorem isActive_of_mem (policy : Policy α) (h : policy ∈ rbac.getApplicablePolicies order) :
    policy.isActive = true :=
  (mem_filter.mp ((mem_getApplicablePolicies order).mp h)).2

theorem mem_front {front back : List (Policy α)} {policy p : Policy α}
    (hsplit : rbac.getApplicablePolicies order = front ++ policy :: back) (hp : p ∈ rbac.active)
    (hlt : p.priority < policy.priority) : p ∈ front := by
  have hsorted : (rbac.getApplicablePolicies order).Pairwise _ := getApplicablePolicies_sorted order
  have hmem : p ∈ rbac.getApplicablePolicies order := (mem_getApplicablePolicies order).mpr hp
  rw [hsplit] at hsorted hmem
  rw [pairwise_append, pairwise_cons] at hsorted
  rcases mem_append.mp hmem with hfront | hback
  · exact hfront
  rcases mem_cons.mp hback with rfl | hback
  · exact absurd hlt (lt_irrefl _)
  · exact absurd (hsorted.2.1.1 p hback) (not_le.mpr hlt)

end Order

/-! ## The law and the check -/

section Decision

variable {equal rbac request} {order : IterationOrder ((_ : String) × Policy α)}

theorem Unhindered.grants (h : rbac.Unhindered equal request)
    (hdistinct : (rbac.active.map Policy.priority).Nodup)
    (hpermitted : rbac.Permitted equal request) : rbac.Grants equal request order := by
  refine grants_iff_policyLoop.mpr
    ⟨(policyLoop_grants_iff (isActive_of_mem order)).mpr ?_, h.permissions⟩
  rcases hpermitted with ⟨policy, before, rule, after, hfirst, heffect⟩ | ⟨hnone, hdefault⟩
  · obtain ⟨hahead, hbefore, hfires⟩ := h.first policy before rule after hfirst
    obtain ⟨front, back, hsplit⟩ :=
      append_of_mem ((mem_getApplicablePolicies order).mpr hfirst.active)
    refine Or.inl ⟨front, policy, back, hsplit, fun p hp => ?_,
      before, rule, after, hfirst.rules, hbefore, hfires, heffect⟩
    -- the policies in front have lower priorities
    have hnodup : ((rbac.getApplicablePolicies order).map Policy.priority).Nodup :=
      ((getApplicablePolicies_perm order).map _).nodup_iff.mpr hdistinct
    rw [List.Nodup, pairwise_map] at hnodup
    have hstrict := (getApplicablePolicies_sorted order).imp₂
      (fun p q hle hne => lt_of_le_of_ne hle hne) hnodup
    have hmem : p ∈ rbac.getApplicablePolicies order := by
      rw [hsplit]
      exact mem_append_left _ hp
    rw [hsplit, pairwise_append] at hstrict
    exact hahead p ((mem_getApplicablePolicies order).mp hmem)
      (hstrict.2.2 p hp policy mem_cons_self)
  · exact Or.inr ⟨fun p hp => h.default hnone p ((mem_getApplicablePolicies order).mp hp), hdefault⟩

variable {policy : Policy α} {before after : List (PolicyRule α)} {rule : PolicyRule α}

theorem FirstRule.mem (h : rbac.FirstRule equal request policy before rule after) :
    rule ∈ policy.rules := by
  rw [h.rules]
  exact mem_append_right _ mem_cons_self

/-- With distinct priorities there is one first rule. -/
theorem FirstRule.unique (hdistinct : (rbac.active.map Policy.priority).Nodup)
    {policy' : Policy α} {before' after' : List (PolicyRule α)} {rule' : PolicyRule α}
    (h : rbac.FirstRule equal request policy before rule after)
    (h' : rbac.FirstRule equal request policy' before' rule' after') :
    policy = policy' ∧ before = before' ∧ rule = rule' := by
  have hpolicy : policy = policy' := by
    rcases lt_trichotomy policy.priority policy'.priority with hlt | heq | hlt
    · exact absurd h.applies (h'.ahead policy h.active hlt rule h.mem)
    · exact inj_on_of_nodup_map hdistinct h.active h'.active heq
    · exact absurd h'.applies (h.ahead policy' h'.active hlt rule' h'.mem)
  subst hpolicy
  exact ⟨rfl, first_unique (h.rules.symm.trans h'.rules) h.inPolicy h.applies h'.inPolicy
    h'.applies⟩

/-- **What a check grants**: what the law permits if the way to the decision is free. -/
theorem grants_iff (hdistinct : (rbac.active.map Policy.priority).Nodup) :
    rbac.Grants equal request order ↔
      rbac.Permitted equal request ∧ rbac.Unhindered equal request := by
  refine ⟨fun h => ?_, fun h => h.2.grants hdistinct h.1⟩
  obtain ⟨hpolicies, hpermissions⟩ := grants_iff_policyLoop.mp h
  rcases (policyLoop_grants_iff (isActive_of_mem order)).mp hpolicies with
    ⟨front, policy, back, hsplit, hsilent, before, rule, after, hrules, hbefore, hfires, heffect⟩ |
    ⟨hsilent, hdefault⟩
  · have hmem : policy ∈ rbac.getApplicablePolicies order := by
      rw [hsplit]
      exact mem_append_right _ mem_cons_self
    have hfirst : rbac.FirstRule equal request policy before rule after := by
      refine ⟨(mem_getApplicablePolicies order).mp hmem, hrules, hfires.applies,
        fun r hr => (hbefore r hr).elim Silent.not_applies Fails.not_applies, ?_⟩
      intro p hp hlt r hr
      exact (hsilent p (mem_front order hsplit hp hlt) r hr).not_applies
    refine ⟨Or.inl ⟨policy, before, rule, after, hfirst, heffect⟩, ?_, ?_, hpermissions⟩
    · intro policy' before' rule' after' hfirst'
      obtain ⟨rfl, rfl, rfl⟩ := hfirst.unique hdistinct hfirst'
      exact ⟨fun p hp hlt => hsilent p (mem_front order hsplit hp hlt), hbefore, hfires⟩
    · exact fun hnone => absurd hfires.applies (hnone policy hfirst.active rule hfirst.mem)
  have hquiet : ∀ p ∈ rbac.active, ∀ r ∈ p.rules, rbac.Silent request r :=
    fun p hp => hsilent p ((mem_getApplicablePolicies order).mpr hp)
  refine ⟨Or.inr ⟨fun p hp r hr => (hquiet p hp r hr).not_applies, hdefault⟩, ?_,
    fun _ => hquiet, hpermissions⟩
  intro policy before rule after hfirst
  exact absurd hfirst.applies (hquiet policy hfirst.active rule hfirst.mem).not_applies

end Decision

/-- **The law of the decisions.** For active policies with different priorities, a check grants
exactly what the law permits if and only if the way to the decision is free where the law
permits. -/
theorem decision_law_iff (hdistinct : (rbac.active.map Policy.priority).Nodup)
    (order : IterationOrder ((_ : String) × Policy α)) :
    (rbac.Grants equal request order ↔ rbac.Permitted equal request) ↔
      (rbac.Permitted equal request → rbac.Unhindered equal request) := by
  rw [grants_iff hdistinct]
  constructor
  · exact fun h hpermitted => (h.mpr hpermitted).2
  · exact fun h => ⟨fun hboth => hboth.1, fun hpermitted => ⟨hpermitted, h hpermitted⟩⟩

/-- A rule for every request, with some conditions. -/
def ruleForAll (id : String) (effect : PermissionEffect) (conditions : List (Condition Nat)) :
    PolicyRule Nat :=
  ⟨id, effect, "*", "*", "*", conditions⟩

/-- A policy that allows every request. -/
def allowAll (priority : Int) : Policy Nat :=
  ⟨"open", [ruleForAll "open" .allow []], priority, true⟩

/-- A policy that allows every request of the owner. -/
def allowOwner : Policy Nat :=
  ⟨"owner", [ruleForAll "owner" .allow [⟨.attr, "owner", .equals, .string "alice", []⟩]], 1, true⟩

/-- A manager with some policies that denies by default. -/
def withPolicies (policies : GoMap String (Policy Nat)) : RBACManager Nat :=
  ⟨⟨true, true⟩, ∅, policies, ∅⟩

/-- A request about something of another owner. -/
def bobsRequest : AccessRequest Nat :=
  ⟨"bob", "bob", [], "data/1", "read", none, ⟨12, 0⟩,
    (∅ : GoMap String (Interface Nat)).insert "owner" (.string "carol")⟩

/-- Numbers are compared without a fault. -/
def equalNat (m n : Nat) : Except Fault Bool := .ok (m = n)

/-- A manager whose first policy is about writes only and whose second has the rule for owners
before the one for all. -/
def openManager : RBACManager Nat :=
  withPolicies (((∅ : GoMap String _).insert "writes"
    ⟨"writes", [{ ruleForAll "writes" .deny [] with action := "write" }], 1, true⟩).insert "open"
    ⟨"open", allowOwner.rules ++ (allowAll 2).rules, 2, true⟩)

theorem decision_law_open : (openManager.active.map Policy.priority).Nodup ∧
    (openManager.Grants equalNat bobsRequest .asGiven ↔
      openManager.Permitted equalNat bobsRequest) := by
  have hdistinct : (openManager.active.map Policy.priority).Nodup := by decide +kernel
  have hgrants : openManager.Grants equalNat bobsRequest .asGiven := ⟨_, rfl, by decide +kernel⟩
  exact ⟨hdistinct, (decision_law_iff equalNat openManager bobsRequest hdistinct .asGiven).mpr
    fun _ => ((grants_iff hdistinct).mp hgrants).2⟩

/-- The rule of the first policy matches and fails; the second would allow and is not looked at.
-/
theorem decision_law_counterexample :
    ∃ rbac : RBACManager Nat, (rbac.active.map Policy.priority).Nodup ∧
      rbac.Permitted equalNat bobsRequest ∧ rbac.checkAccess equalNat .asGiven bobsRequest =
        .ok ⟨false, .deny, "Access denied by policy: owner - No matching rules", ["owner"],
          ["owner"], []⟩ := by
  let rbac := withPolicies
    (((∅ : GoMap String _).insert "owner" allowOwner).insert "open" (allowAll 2))
  have hfires : rbac.Fires equalNat bobsRequest (ruleForAll "open" .allow []) := ⟨rfl, rfl⟩
  have hfails : ∀ r ∈ allowOwner.rules, rbac.Fails equalNat bobsRequest r := by
    intro r hr
    rw [mem_singleton.mp hr]
    exact ⟨rfl, by decide +kernel⟩
  refine ⟨rbac, by decide +kernel, Or.inl ⟨allowAll 2, [], ruleForAll "open" .allow [], [],
    ⟨mem_cons_self, rfl, hfires.applies, nofun, fun p hp hlt r hr => ?_⟩, rfl⟩,
    by decide +kernel⟩
  rcases mem_cons.mp hp with rfl | hp
  · exact absurd hlt (lt_irrefl _)
  · rw [mem_singleton.mp hp] at hr
    exact (hfails r hr).not_applies

end RBACManager

end DistributedKV.Security.Rbac
