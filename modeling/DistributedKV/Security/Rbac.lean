import DistributedKV.Lib.ExchangeSort
import DistributedKV.Lib.GoMap
import DistributedKV.Lib.Recursion

/-!
# Role-based access control (`rbac.go`)

`CheckAccess` goes through the active policies by priority and through the rules of each. A rule
is compared with the subject, the resource and the action of the request, and then its conditions
are evaluated; the roles of the subject count with all their ancestors.

A condition may assert that a value is a string or compare values that cannot be compared
(`Fault.panic`), and the ancestors of a role are searched without looking for cycles
(`Fault.stackOverflow`), modelled by the number of levels that suffices: the searches satisfy the
equations of the source, and one that is cut off does not return at all.

The cache, which answers nothing, the metrics and the audit log are left out.
-/

namespace DistributedKV.Security.Rbac

variable (roles : GoMap String Role)

/-- How a check ends without an answer. -/
inductive Fault where
  | panic
  | stackOverflow
deriving DecidableEq, Repr

/-- An `interface{}`: nil, a string or a value of another type. -/
inductive Interface (α : Type) where
  | nil
  | string (s : String)
  | other (value : α)

/-- `PermissionEffect`. -/
inductive PermissionEffect where
  | allow
  | deny
  | other (effect : String)
deriving DecidableEq, Repr

/-- `ConditionType`. -/
inductive ConditionType where
  | time
  | ip
  | location
  | attr
  | resource
  | other (type : String)

/-- `ConditionOperator`. -/
inductive ConditionOperator where
  | equals
  | notEquals
  | isIn
  | notIn
  | greater
  | less
  | contains
  | matching
  | other (operator : String)

/-- `Condition`. -/
structure Condition (α : Type) where
  type : ConditionType
  attr : String
  operator : ConditionOperator
  value : Interface α
  values : List (Interface α)

/-- `PolicyRule`. -/
structure PolicyRule (α : Type) where
  id : String
  effect : PermissionEffect
  subject : String
  resource : String
  action : String
  conditions : List (Condition α)

/-- `Policy`. -/
structure Policy (α : Type) where
  name : String
  rules : List (PolicyRule α)
  priority : Int
  isActive : Bool

/-- `Role`. -/
structure Role where
  permissions : List String
  parentRoles : List String
  isActive : Bool

/-- `Location`. -/
structure Location where
  country : String
  region : String
  city : String

/-- The hour and the minute of a time. -/
structure ClockTime where
  hour : Nat
  minute : Nat

/-- `AccessContext`. -/
structure AccessContext (α : Type) where
  ipAddress : String
  location : Option Location
  attributes : GoMap String (Interface α)

/-- `AccessRequest`. `CheckAccess` sets the time of a request that has none. -/
structure AccessRequest (α : Type) where
  userID : String
  username : String
  roles : List String
  resource : String
  action : String
  context : Option (AccessContext α)
  requestedAt : ClockTime
  metadata : GoMap String (Interface α)

/-- `RBACConfig`. -/
structure RBACConfig where
  defaultDenyAll : Bool
  enableInheritance : Bool

/-- `RBACManager`. A resource is given by its attributes. -/
structure RBACManager (α : Type) where
  config : RBACConfig
  roles : GoMap String Role
  policies : GoMap String (Policy α)
  resources : GoMap String (GoMap String (Interface α))

/-- `AccessResult`. -/
structure AccessResult where
  granted : Bool
  effect : PermissionEffect
  reason : String
  matchedRules : List String
  failedRules : List String
  permissions : List String
deriving DecidableEq, Repr

/-- What `evaluatePolicy` and `evaluatePolicies` return. -/
structure Evaluation where
  granted : Bool
  reason : String
  matchedRules : List String
  failedRules : List String

/-! ## Strings -/

/-- `strings.HasPrefix`. -/
def startsWith (s start : String) : Bool := start.toList.isPrefixOf s.toList

/-- `strings.TrimPrefix`, of a string that has the prefix. -/
def trimStart (s start : String) : String := String.ofList (s.toList.drop start.toList.length)

/-- `strings.Contains`. -/
def containsText (s part : String) : Bool := decide (part.toList <:+: s.toList)

/-- A digit and its value. -/
def digit (c : Char) : Option Nat := if c.isDigit then some (c.toNat - '0'.toNat) else none

/-- The minutes in `time.Parse("15:04", …)`: two digits, and nothing after them. -/
def parseMinute : List Char → Option Nat
  | [tens, ones] => do
    let minute := 10 * (← digit tens) + (← digit ones)
    if minute < 60 then some minute else none
  | _ => none

/-- `time.Parse("15:04", value)`: the hour has one or two digits, the minute two. -/
def parseClock (value : String) : Option ClockTime :=
  match value.toList with
  | ones :: ':' :: rest => do
    let hour ← digit ones
    return ⟨hour, ← parseMinute rest⟩
  | tens :: ones :: ':' :: rest => do
    let hour := 10 * (← digit tens) + (← digit ones)
    if hour < 24 then return ⟨hour, ← parseMinute rest⟩ else none
  | _ => none

/-- `After` of two times of the same day. -/
def ClockTime.after (t u : ClockTime) : Bool :=
  decide (u.hour < t.hour ∨ (u.hour = t.hour ∧ u.minute < t.minute))

/-! ## Conditions -/

section Conditions

variable {α : Type} (equal : α → α → Except Fault Bool)

/-- `==` of two interfaces. Values of other types are compared by `equal`, which may panic. -/
def Interface.equals : Interface α → Interface α → Except Fault Bool
  | .nil, .nil => .ok true
  | .string s, .string t => .ok (s = t)
  | .other v, .other w => equal v w
  | _, _ => .ok false

/-- The type assertion `v.(string)`. -/
def Interface.asString : Interface α → Except Fault String
  | .string s => .ok s
  | _ => .error .panic

/-- The loop over `expectedList`. -/
def isAmong (actual : Interface α) : List (Interface α) → Except Fault Bool
  | [] => .ok false
  | val :: vals => do
    if ← actual.equals equal val then .ok true else isAmong actual vals

/-- `compareValue`. -/
def compareValue (actual : Interface α) (operator : ConditionOperator) (expected : Interface α)
    (expectedList : List (Interface α)) : Except Fault Bool :=
  match operator with
  | .equals => actual.equals equal expected
  | .notEquals => (actual.equals equal expected).map not
  | .isIn => isAmong equal actual expectedList
  | .notIn => (isAmong equal actual expectedList).map not
  | .contains =>
    match actual, expected with
    | .string s, .string part => .ok (containsText s part)
    | _, _ => .ok false
  | .matching =>
    match actual, expected with
    | .string s, .string t => .ok (s = t)
    | _, _ => .ok false
  | _ => .ok false

/-- `evaluateTimeCondition`. -/
def evaluateTimeCondition (condition : Condition α) (request : AccessRequest α) : Bool :=
  match condition.operator, condition.value with
  | .greater, .string timeValue =>
    match parseClock timeValue with
    | some condTime => request.requestedAt.after condTime
    | none => false
  | .less, .string timeValue =>
    match parseClock timeValue with
    | some condTime => condTime.after request.requestedAt
    | none => false
  | _, _ => false

/-- The loop over the addresses of an IP condition. -/
def isAddressAmong (userIP : String) : List (Interface α) → Except Fault Bool
  | [] => .ok false
  | ip :: ips => do
    if userIP = (← ip.asString) then .ok true else isAddressAmong userIP ips

/-- `evaluateIPCondition`. -/
def evaluateIPCondition (condition : Condition α) (request : AccessRequest α) :
    Except Fault Bool :=
  match request.context with
  | none => .ok false
  | some context =>
    match condition.operator with
    | .equals => condition.value.asString.map fun value => decide (context.ipAddress = value)
    | .isIn => isAddressAmong context.ipAddress condition.values
    | .contains => condition.value.asString.map (containsText context.ipAddress)
    | _ => .ok false

/-- `evaluateLocationCondition`. -/
def evaluateLocationCondition (condition : Condition α) (request : AccessRequest α) :
    Except Fault Bool :=
  match request.context.bind AccessContext.location with
  | none => .ok false
  | some location =>
    let compare (actual : String) :=
      compareValue equal (.string actual) condition.operator condition.value condition.values
    match condition.attr with
    | "country" => compare location.country
    | "region" => compare location.region
    | "city" => compare location.city
    | _ => .ok false

/-- The value of an attribute: of the context, or else of the metadata of the request. -/
def attributeValue (request : AccessRequest α) (attr : String) : Interface α :=
  let fromContext :=
    match request.context with
    | some context => (context.attributes.lookup attr).getD .nil
    | none => .nil
  match fromContext with
  | .nil => (request.metadata.lookup attr).getD .nil
  | value => value

/-- The variables that stand for the user in an expected value. -/
def substitute (request : AccessRequest α) (expected : Interface α) : Interface α :=
  match expected with
  | .string "$\x7buser.id\x7d" => .string request.userID
  | .string "$\x7buser.username\x7d" => .string request.username
  | _ => expected

/-- `evaluateAttributeCondition`. -/
def evaluateAttributeCondition (condition : Condition α) (request : AccessRequest α) :
    Except Fault Bool :=
  compareValue equal (attributeValue request condition.attr) condition.operator
    (substitute request condition.value) condition.values

namespace RBACManager

variable (rbac : RBACManager α)

/-- `evaluateResourceCondition`. -/
def evaluateResourceCondition (condition : Condition α) (request : AccessRequest α) :
    Except Fault Bool :=
  match (rbac.resources.lookup request.resource).bind (·.lookup condition.attr) with
  | none => .ok false
  | some val => compareValue equal val condition.operator condition.value condition.values

/-- `evaluateCondition`. -/
def evaluateCondition (condition : Condition α) (request : AccessRequest α) :
    Except Fault Bool :=
  match condition.type with
  | .time => .ok (evaluateTimeCondition condition request)
  | .ip => evaluateIPCondition condition request
  | .location => evaluateLocationCondition equal condition request
  | .attr => evaluateAttributeCondition equal condition request
  | .resource => rbac.evaluateResourceCondition equal condition request
  | .other _ => .ok false

/-- `evaluateConditions`. -/
def evaluateConditions (request : AccessRequest α) : List (Condition α) → Except Fault Bool
  | [] => .ok true
  | condition :: conditions =>
    match rbac.evaluateCondition equal condition request with
    | .error fault => .error fault
    | .ok false => .ok false
    | .ok true => evaluateConditions request conditions

end RBACManager

end Conditions

/-! ## Roles -/

/-- The loop of `hasInheritedRole` over the parents, with the calls answered by `self`. -/
def anyParent (targetRole : String) (self : String → Option Bool) : List String → Option Bool
  | [] => some false
  | parentRole :: parentRoles =>
    if parentRole = targetRole then some true
    else
      match self parentRole with
      | none => none
      | some true => some true
      | some false => anyParent targetRole self parentRoles

/-- The body of `hasInheritedRole`. -/
def inheritedRoleBody (targetRole : String)
    (self : String → Option Bool) (userRole : String) : Option Bool :=
  match roles.lookup userRole with
  | none => some false
  | some role => anyParent targetRole self role.parentRoles

/-- `hasInheritedRole`: nothing, if the search goes round in a cycle. -/
def hasInheritedRole (userRole targetRole : String) : Option Bool :=
  Recursion.nested (inheritedRoleBody roles targetRole) (roles.len + 1) userRole

/-- The permissions with those added that have not been seen. -/
def addUnseen (permissions new : List String) : List String :=
  new.foldl (fun seen perm => if perm ∈ seen then seen else seen ++ [perm]) permissions

/-- The loop over the parents in `getUserPermissions`. -/
def addParents (self : String → Option (List String)) :
    List String → List String → Option (List String)
  | permissions, [] => some permissions
  | permissions, parentRole :: parentRoles =>
    match self parentRole with
    | none => none
    | some parentPerms => addParents self (addUnseen permissions parentPerms) parentRoles

/-- One role in the loop of `getUserPermissions`. -/
def addRole (enableInheritance : Bool)
    (self : String → Option (List String)) (permissions : List String) (roleID : String) :
    Option (List String) :=
  match roles.lookup roleID with
  | none => some permissions
  | some role =>
    if role.isActive then
      let permissions := addUnseen permissions role.permissions
      if enableInheritance then addParents self permissions role.parentRoles
      else some permissions
    else some permissions

/-- `getUserPermissions` of a single role, as the function calls itself. -/
def permissionsOf (enableInheritance : Bool) (roleID : String) :
    Option (List String) :=
  Recursion.nested (fun self => addRole roles enableInheritance self []) (roles.len + 1) roleID

/-- `getUserPermissions`. -/
def getUserPermissions (roles : GoMap String Role) (enableInheritance : Bool) :
    List String → List String → Option (List String)
  | permissions, [] => some permissions
  | permissions, roleID :: userRoles =>
    match addRole roles enableInheritance (permissionsOf roles enableInheritance) permissions
        roleID with
    | none => none
    | some permissions => getUserPermissions roles enableInheritance permissions userRoles

/-! ## Rules and policies -/

/-- `resourceMatches`. -/
def resourceMatches (pattern resource : String) : Bool :=
  if pattern = "*" then true
  else if pattern.toList.getLast? = some '*' then
    pattern.toList.dropLast.isPrefixOf resource.toList
  else pattern = resource

/-- `actionMatches`. -/
def actionMatches (pattern action : String) : Bool := pattern = "*" ∨ pattern = action

section Policies

variable {α : Type} (equal : α → α → Except Fault Bool)

namespace RBACManager

variable (rbac : RBACManager α)

/-- The loop of `subjectMatches` over the roles of the request. -/
def anyRole (roleID : String) : List String → Except Fault Bool
  | [] => .ok false
  | userRole :: userRoles =>
    if userRole = roleID then .ok true
    else if rbac.config.enableInheritance then
      match hasInheritedRole rbac.roles userRole roleID with
      | none => .error .stackOverflow
      | some true => .ok true
      | some false => anyRole roleID userRoles
    else anyRole roleID userRoles

/-- `subjectMatches`. -/
def subjectMatches (subject : String) (request : AccessRequest α) : Except Fault Bool :=
  if subject = "*" then .ok true
  else if startsWith subject "role:" then rbac.anyRole (trimStart subject "role:") request.roles
  else if startsWith subject "user:" then .ok (trimStart subject "user:" = request.userID)
  else .ok (subject = request.username ∨ subject = request.userID)

/-- `ruleMatches`. -/
def ruleMatches (rule : PolicyRule α) (request : AccessRequest α) : Except Fault Bool :=
  match rbac.subjectMatches rule.subject request with
  | .error fault => .error fault
  | .ok false => .ok false
  | .ok true =>
    .ok (resourceMatches rule.resource request.resource && actionMatches rule.action request.action)

/-- The loop of `evaluatePolicy` over the rules. -/
def ruleLoop (request : AccessRequest α) :
    List (PolicyRule α) → List String → List String → Except Fault Evaluation
  | [], matchedRules, failedRules => .ok ⟨false, "No matching rules", matchedRules, failedRules⟩
  | rule :: rules, matchedRules, failedRules =>
    match rbac.ruleMatches rule request with
    | .error fault => .error fault
    | .ok false => ruleLoop request rules matchedRules failedRules
    | .ok true =>
      match rbac.evaluateConditions equal request rule.conditions with
      | .error fault => .error fault
      | .ok true =>
        if rule.effect = .allow then
          .ok ⟨true, "Rule granted access", matchedRules ++ [rule.id], failedRules⟩
        else .ok ⟨false, "Rule denied access", matchedRules ++ [rule.id], failedRules⟩
      | .ok false => ruleLoop request rules (matchedRules ++ [rule.id]) (failedRules ++ [rule.id])

/-- `evaluatePolicy`. -/
def evaluatePolicy (policy : Policy α) (request : AccessRequest α) : Except Fault Evaluation :=
  if policy.isActive then rbac.ruleLoop equal request policy.rules [] []
  else .ok ⟨false, "Policy inactive", [], []⟩

/-- The active policies, in the order in which the map is gone through. -/
def activePolicies (entries : List ((_ : String) × Policy α)) : List (Policy α) :=
  (entries.map Sigma.snd).filter Policy.isActive

/-- `getApplicablePolicies`. -/
def getApplicablePolicies (order : IterationOrder ((_ : String) × Policy α)) : List (Policy α) :=
  exchangeSort Policy.priority (activePolicies (order.pick rbac.policies.entries))

/-- The loop of `evaluatePolicies`. -/
def policyLoop (request : AccessRequest α) :
    List (Policy α) → List String → List String → Except Fault Evaluation
  | [], matchedRules, failedRules =>
    if rbac.config.defaultDenyAll then
      .ok ⟨false, "Default deny - no matching allow rules", matchedRules, failedRules⟩
    else .ok ⟨true, "Default allow", matchedRules, failedRules⟩
  | policy :: policies, matchedRules, failedRules =>
    match rbac.evaluatePolicy equal policy request with
    | .error fault => .error fault
    | .ok evaluation =>
      let matchedRules := matchedRules ++ evaluation.matchedRules
      let failedRules := failedRules ++ evaluation.failedRules
      if evaluation.granted then
        .ok ⟨true, "Access granted by policy: " ++ policy.name, matchedRules, failedRules⟩
      else if evaluation.matchedRules ≠ [] then
        .ok ⟨false, "Access denied by policy: " ++ policy.name ++ " - " ++ evaluation.reason,
          matchedRules, failedRules⟩
      else policyLoop request policies matchedRules failedRules

/-- `evaluatePolicies`. -/
def evaluatePolicies (order : IterationOrder ((_ : String) × Policy α))
    (request : AccessRequest α) : Except Fault Evaluation :=
  rbac.policyLoop equal request (rbac.getApplicablePolicies order) [] []

/-- `CheckAccess`. -/
def checkAccess (order : IterationOrder ((_ : String) × Policy α))
    (request : AccessRequest α) : Except Fault AccessResult :=
  match rbac.evaluatePolicies equal order request with
  | .error fault => .error fault
  | .ok ⟨true, reason, matchedRules, failedRules⟩ =>
    match getUserPermissions rbac.roles rbac.config.enableInheritance [] request.roles with
    | none => .error .stackOverflow
    | some permissions => .ok ⟨true, .allow, reason, matchedRules, failedRules, permissions⟩
  | .ok ⟨false, reason, matchedRules, failedRules⟩ =>
    .ok ⟨false, .deny, reason, matchedRules, failedRules, []⟩

end RBACManager

end Policies

/-! ## The searches -/

section Searches

variable {roles : GoMap String Role} {userRole targetRole : String}

theorem card_keys (m : GoMap String Role) : m.keys.toFinset.card = m.len :=
  List.toFinset_card_of_nodup m.keys_nodup

theorem lookup_eq_none_of_notMem (h : userRole ∉ roles.keys.toFinset) :
    roles.lookup userRole = none :=
  AList.lookup_eq_none.mpr fun hmem => h (List.mem_toFinset.mpr hmem)

theorem anyParent_below {f g : String → Option Bool} (hfg : Recursion.Below f g)
    {parentRoles : List String} {b : Bool} (h : anyParent targetRole f parentRoles = some b) :
    anyParent targetRole g parentRoles = some b := by
  induction parentRoles with
  | nil => exact h
  | cons parentRole parentRoles ih =>
    rw [anyParent] at h ⊢
    split
    · next heq => rwa [if_pos heq] at h
    next hne =>
      rw [if_neg hne] at h
      cases hf : f parentRole with
      | none =>
        rw [hf] at h
        cases h
      | some found =>
        rw [hf] at h
        rw [hfg _ _ hf]
        cases found with
        | true => exact h
        | false => exact ih h

theorem inheritedRoleBody_continuing (roles : GoMap String Role) (targetRole : String) :
    Recursion.Continuing (inheritedRoleBody roles targetRole) := by
  intro f g hfg userRole b h
  rw [inheritedRoleBody] at h ⊢
  cases hrole : roles.lookup userRole with
  | none => rwa [hrole] at h
  | some role =>
    rw [hrole] at h
    exact anyParent_below hfg h

theorem inheritedRoleBody_callsWithin (roles : GoMap String Role) (targetRole : String) :
    Recursion.CallsWithin (inheritedRoleBody roles targetRole) roles.keys.toFinset := by
  intro userRole hnot
  refine ⟨false, fun f => ?_⟩
  rw [inheritedRoleBody, lookup_eq_none_of_notMem hnot]

open Recursion

/-- **The search for an ancestor** satisfies the equation of the source. -/
theorem hasInheritedRole_eq (roles : GoMap String Role) (userRole targetRole : String) :
    hasInheritedRole roles userRole targetRole =
      inheritedRoleBody roles targetRole (hasInheritedRole roles · targetRole) userRole := by
  have hfix := body_nested (inheritedRoleBody_continuing roles targetRole)
    (inheritedRoleBody_callsWithin roles targetRole)
  rw [card_keys] at hfix
  exact (congrFun hfix userRole).symm

theorem addParents_below {f g : String → Option (List String)} (hfg : Recursion.Below f g)
    {permissions parentRoles result : List String}
    (h : addParents f permissions parentRoles = some result) :
    addParents g permissions parentRoles = some result := by
  induction parentRoles generalizing permissions with
  | nil => exact h
  | cons parentRole parentRoles ih =>
    rw [addParents] at h ⊢
    cases hf : f parentRole with
    | none =>
      rw [hf] at h
      cases h
    | some parentPerms =>
      rw [hf] at h
      rw [hfg _ _ hf]
      exact ih h

theorem addRole_continuing (roles : GoMap String Role) (enableInheritance : Bool) :
    Recursion.Continuing fun self => addRole roles enableInheritance self [] := by
  intro f g hfg roleID result h
  simp only [addRole] at h ⊢
  cases hrole : roles.lookup roleID with
  | none => rwa [hrole] at h
  | some role =>
    rw [hrole] at h
    dsimp only at h ⊢
    split
    · next hactive =>
      rw [if_pos hactive] at h
      split
      · next hinherit =>
        rw [if_pos hinherit] at h
        exact addParents_below hfg h
      · next hinherit => rwa [if_neg hinherit] at h
    · next hactive => rwa [if_neg hactive] at h

theorem addRole_callsWithin (roles : GoMap String Role) (enableInheritance : Bool) :
    Recursion.CallsWithin (fun self => addRole roles enableInheritance self [])
      roles.keys.toFinset := by
  intro roleID hnot
  refine ⟨[], fun f => ?_⟩
  show addRole roles enableInheritance f [] roleID = some []
  rw [addRole, lookup_eq_none_of_notMem hnot]

/-- **The permissions of a role** satisfy the equation of the source. -/
theorem permissionsOf_eq (roles : GoMap String Role) (enableInheritance : Bool) (roleID : String) :
    permissionsOf roles enableInheritance roleID =
      addRole roles enableInheritance (permissionsOf roles enableInheritance) [] roleID := by
  have hfix := body_nested (addRole_continuing roles enableInheritance)
    (addRole_callsWithin roles enableInheritance)
  rw [card_keys] at hfix
  exact (congrFun hfix roleID).symm

/-! ## Ancestors -/

/-- A role and one of its parents. -/
def Parent (roles : GoMap String Role) (userRole parentRole : String) : Prop :=
  ∃ role, roles.lookup userRole = some role ∧ parentRole ∈ role.parentRoles

/-- A role and one of its ancestors. -/
def Inherits (roles : GoMap String Role) : String → String → Prop :=
  Relation.TransGen (Parent roles)

theorem inherits_iff : Inherits roles userRole targetRole ↔
    ∃ parentRole, Parent roles userRole parentRole ∧
      (parentRole = targetRole ∨ Inherits roles parentRole targetRole) := by
  rw [Inherits, Relation.TransGen.head'_iff]
  refine exists_congr fun parentRole => and_congr_right fun _ => ?_
  exact Relation.reflTransGen_iff_eq_or_transGen.trans (or_congr_left eq_comm)

theorem anyParent_iff {self : String → Option Bool}
    (hself : ∀ r b, self r = some b → (b = true ↔ Inherits roles r targetRole))
    {parentRoles : List String} {b : Bool} (h : anyParent targetRole self parentRoles = some b) :
    b = true ↔ ∃ r ∈ parentRoles, r = targetRole ∨ Inherits roles r targetRole := by
  induction parentRoles with
  | nil =>
    cases h
    exact ⟨nofun, nofun⟩
  | cons parentRole parentRoles ih =>
    rw [List.exists_mem_cons_iff]
    rw [anyParent] at h
    split at h
    · next heq =>
      cases h
      exact ⟨fun _ => Or.inl (Or.inl heq), fun _ => rfl⟩
    next hne =>
      cases hcall : self parentRole with
      | none =>
        rw [hcall] at h
        cases h
      | some found =>
        rw [hcall] at h
        have hfound := hself parentRole found hcall
        cases found with
        | true =>
          cases h
          exact ⟨fun _ => Or.inl (Or.inr (hfound.mp rfl)), fun _ => rfl⟩
        | false =>
          have hnot : ¬(parentRole = targetRole ∨ Inherits roles parentRole targetRole) :=
            fun hor => absurd (hfound.mpr (hor.resolve_left hne)) nofun
          rw [ih h]
          exact (or_iff_right hnot).symm

/-- **A search that returns** finds the ancestors of the role. -/
theorem inherits_iff_of_hasInheritedRole {b : Bool}
    (h : hasInheritedRole roles userRole targetRole = some b) :
    b = true ↔ Inherits roles userRole targetRole := by
  -- by induction on how deep the calls go
  have hnested : ∀ n r b, nested (inheritedRoleBody roles targetRole) n r = some b →
      (b = true ↔ Inherits roles r targetRole) := by
    intro n
    induction n with
    | zero =>
      intro r b h
      cases h
    | succ n ih =>
      intro r b h
      rw [nested, inheritedRoleBody] at h
      rw [inherits_iff]
      cases hrole : roles.lookup r with
      | none =>
        rw [hrole] at h
        cases h
        refine iff_of_false Bool.false_ne_true ?_
        rintro ⟨parentRole, ⟨role, hlook, -⟩, -⟩
        rw [hrole] at hlook
        cases hlook
      | some role =>
        rw [hrole] at h
        rw [anyParent_iff ih h]
        refine exists_congr fun parentRole => and_congr_left fun _ => ?_
        constructor
        · exact fun hmem => ⟨role, hrole, hmem⟩
        · rintro ⟨role', hlook, hmem⟩
          rwa [Option.some.inj (hrole.symm.trans hlook)]
  exact hnested _ _ _ h

end Searches

/-! ## Matching -/

section Matching

variable {α : Type} {rbac : RBACManager α} {request : AccessRequest α}

/-- The subject of a rule is the user of the request, or one of their roles or its ancestors. -/
def RBACManager.SubjectMatches (rbac : RBACManager α) (subject : String)
    (request : AccessRequest α) : Prop :=
  if subject = "*" then True
  else if startsWith subject "role:" then
    ∃ userRole ∈ request.roles, userRole = trimStart subject "role:" ∨
      (rbac.config.enableInheritance ∧
        Inherits rbac.roles userRole (trimStart subject "role:"))
  else if startsWith subject "user:" then trimStart subject "user:" = request.userID
  else subject = request.username ∨ subject = request.userID

/-- A rule is about the request. -/
structure RBACManager.Matches (rbac : RBACManager α) (rule : PolicyRule α)
    (request : AccessRequest α) : Prop where
  subject : rbac.SubjectMatches rule.subject request
  resource : resourceMatches rule.resource request.resource = true
  action : actionMatches rule.action request.action = true

theorem anyRole_iff {roleID : String} {userRoles : List String} {b : Bool}
    (h : rbac.anyRole roleID userRoles = .ok b) :
    b = true ↔ ∃ userRole ∈ userRoles, userRole = roleID ∨
      (rbac.config.enableInheritance ∧ Inherits rbac.roles userRole roleID) := by
  induction userRoles with
  | nil =>
    cases h
    exact ⟨nofun, nofun⟩
  | cons userRole userRoles ih =>
    rw [List.exists_mem_cons_iff]
    rw [RBACManager.anyRole] at h
    split at h
    · next heq =>
      cases h
      exact ⟨fun _ => Or.inl (Or.inl heq), fun _ => rfl⟩
    · next hne =>
      split at h
      · next hinherit =>
        cases hsearch : hasInheritedRole rbac.roles userRole roleID with
        | none =>
          rw [hsearch] at h
          cases h
        | some found =>
          rw [hsearch] at h
          have hfound := inherits_iff_of_hasInheritedRole hsearch
          cases found with
          | true =>
            cases h
            exact ⟨fun _ => Or.inl (Or.inr ⟨hinherit, hfound.mp rfl⟩), fun _ => rfl⟩
          | false =>
            rw [ih h]
            refine (or_iff_right ?_).symm
            rintro (heq | ⟨-, hinherits⟩)
            · exact hne heq
            · exact absurd (hfound.mpr hinherits) nofun
      · next hinherit =>
        rw [ih h]
        refine (or_iff_right ?_).symm
        rintro (heq | ⟨henabled, -⟩)
        · exact hne heq
        · exact hinherit henabled

theorem subjectMatches_iff {subject : String} {b : Bool}
    (h : rbac.subjectMatches subject request = .ok b) :
    b = true ↔ rbac.SubjectMatches subject request := by
  rw [RBACManager.subjectMatches] at h
  rw [RBACManager.SubjectMatches]
  split
  · next heq =>
    rw [if_pos heq] at h
    exact ⟨fun _ => trivial, fun _ => (Except.ok.inj h).symm⟩
  · next hne =>
    rw [if_neg hne] at h
    split
    · next hrole =>
      rw [if_pos hrole] at h
      exact anyRole_iff h
    · next hrole =>
      rw [if_neg hrole] at h
      split
      · next huser =>
        rw [if_pos huser] at h
        rw [← Except.ok.inj h, decide_eq_true_iff]
      · next huser =>
        rw [if_neg huser] at h
        rw [← Except.ok.inj h, decide_eq_true_iff]

/-- **A comparison that returns** says whether the rule matches. -/
theorem ruleMatches_iff {rule : PolicyRule α} {b : Bool}
    (h : rbac.ruleMatches rule request = .ok b) : b = true ↔ rbac.Matches rule request := by
  rw [RBACManager.ruleMatches] at h
  cases hsubject : rbac.subjectMatches rule.subject request with
  | error fault =>
    rw [hsubject] at h
    cases h
  | ok found =>
    rw [hsubject] at h
    have hfound := subjectMatches_iff hsubject
    cases found with
    | false =>
      cases h
      exact ⟨nofun, fun hmatch => absurd (hfound.mpr hmatch.subject) nofun⟩
    | true =>
      rw [← Except.ok.inj h, Bool.and_eq_true]
      exact ⟨fun hboth => ⟨hfound.mp rfl, hboth.1, hboth.2⟩, fun hmatch => ⟨hmatch.2, hmatch.3⟩⟩

/-- The conditions hold exactly if each of them is evaluated to true. -/
theorem evaluateConditions_eq_true_iff {equal : α → α → Except Fault Bool}
    {conditions : List (Condition α)} :
    rbac.evaluateConditions equal request conditions = .ok true ↔
      ∀ condition ∈ conditions, rbac.evaluateCondition equal condition request = .ok true := by
  induction conditions with
  | nil => exact ⟨fun _ => nofun, fun _ => rfl⟩
  | cons condition conditions ih =>
    rw [List.forall_mem_cons, RBACManager.evaluateConditions]
    cases hcondition : rbac.evaluateCondition equal condition request with
    | error fault => exact ⟨nofun, fun h => absurd h.1 nofun⟩
    | ok holds =>
      cases holds with
      | false => exact ⟨nofun, fun h => absurd h.1 nofun⟩
      | true => exact ih.trans (and_iff_right rfl).symm

end Matching

end DistributedKV.Security.Rbac
