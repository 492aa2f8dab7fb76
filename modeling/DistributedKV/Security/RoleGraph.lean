import DistributedKV.Security.Rbac
import Mathlib.Data.Fintype.EquivFin
import Mathlib.Order.WellFoundedSet

/-!
# Roles and their parents

`CreateRole` takes any parents, and the searches through them do not look for cycles. So they return
exactly if there is no cycle. `getUserPermissions` stops at an inactive role; `hasInheritedRole`,
and with it the subject of a rule, does not look whether a role is active.
-/

namespace DistributedKV.Security.Rbac

open List Recursion

/-- `CreateRole`, given the permissions that exist. -/
def createRole (permissions : List String) (roles : GoMap String Role) (id : String)
    (role : Role) : Except String (GoMap String Role) :=
  if id = "" then .error "role ID is required"
  else if id ∈ roles then .error "role already exists"
  else
    match role.permissions.find? (· ∉ permissions) with
    | some permID => .error ("permission not found: " ++ permID)
    | none => .ok (roles.insert id role)

section Cycles

variable {roles : GoMap String Role} {targetRole : String} {self : String → Option Bool}
  {parentRoles : List String}

/-- Without a cycle nothing goes on from parent to parent for ever. -/
theorem not_of_parents (hacyclic : ∀ r, ¬Inherits roles r r) {P : String → Prop}
    (hP : ∀ a, P a → ∃ b, Parent roles a b ∧ P b) (a : String) : ¬P a := by
  let above (p a : String) : Prop := Inherits roles a p
  have : IsStrictOrder String above := { irrefl := hacyclic, trans := fun _ _ _ h h' => h'.trans h }
  have hwf : {a | a ∈ roles}.WellFoundedOn above :=
    ((finite_toSet roles.keys).subset fun _ h => h).wellFoundedOn
  have hkey : ∀ a, P a → a ∈ roles := fun a ha => by
    obtain ⟨b, ⟨role, hrole, -⟩, -⟩ := hP a ha
    exact GoMap.mem_of_lookup hrole
  intro ha
  refine hwf.induction (P := fun a => ¬P a) (hkey a ha) (fun a _ ih ha => ?_) ha
  obtain ⟨b, hb, hPb⟩ := hP a ha
  exact ih b (hkey b hPb) (.single hb) hPb

theorem anyParent_eq_none (h : anyParent targetRole self parentRoles = none) :
    ∃ r ∈ parentRoles, self r = none := by
  induction parentRoles with
  | nil => cases h
  | cons r parentRoles ih =>
    rw [anyParent] at h
    grind

theorem anyParent_eq_false (h : anyParent targetRole self parentRoles = some false) :
    ∀ r ∈ parentRoles, self r = some false := by
  induction parentRoles with
  | nil => exact nofun
  | cons r parentRoles ih =>
    rw [anyParent] at h
    grind

theorem addParents_eq_none {self : String → Option (List String)} {permissions : List String}
    (h : addParents self permissions parentRoles = none) : ∃ r ∈ parentRoles, self r = none := by
  induction parentRoles generalizing permissions with
  | nil => cases h
  | cons r parentRoles ih =>
    rw [addParents] at h
    grind

theorem parent_of_addRole {enableInheritance : Bool} {self : String → Option (List String)}
    {permissions : List String} {a : String}
    (h : addRole roles enableInheritance self permissions a = none) :
    ∃ b, Parent roles a b ∧ self b = none := by
  simp only [addRole] at h
  split at h
  · cases h
  · next role hrole =>
    obtain ⟨b, hb, hnone⟩ : ∃ b ∈ role.parentRoles, self b = none := by
      grind [addParents_eq_none]
    exact ⟨b, ⟨role, hrole, hb⟩, hnone⟩

/-- A search that finds nothing has been to all ancestors, each time with fewer levels left. -/
theorem nested_of_inherits {n : Nat} {a b : String}
    (h : nested (inheritedRoleBody roles targetRole) n a = some false)
    (hinherits : Inherits roles a b) :
    ∃ m < n, nested (inheritedRoleBody roles targetRole) m b = some false := by
  have hstep : ∀ {n a b}, nested (inheritedRoleBody roles targetRole) n a = some false →
      Parent roles a b →
      ∃ m < n, nested (inheritedRoleBody roles targetRole) m b = some false := by
    rintro (_ | n) a b h ⟨role, hrole, hb⟩
    · cases h
    · rw [nested, inheritedRoleBody, hrole] at h
      exact ⟨n, Nat.lt_succ_self n, anyParent_eq_false h b hb⟩
  induction hinherits with
  | single hb => exact hstep h hb
  | tail _ hb ih =>
    obtain ⟨m, hm, hfalse⟩ := ih
    obtain ⟨m', hm', hfalse'⟩ := hstep hfalse hb
    exact ⟨m', hm'.trans hm, hfalse'⟩

theorem exists_not_inherited (roles : GoMap String Role) : ∃ t, ∀ a, ¬Inherits roles a t := by
  obtain ⟨t, ht⟩ := Infinite.exists_notMem_finset
    (roles.entries.flatMap fun e => e.2.parentRoles).toFinset
  refine ⟨t, fun a h => ht ?_⟩
  obtain ⟨b, -, role, hrole, hmem⟩ := Relation.TransGen.tail'_iff.mp h
  rw [mem_toFinset, mem_flatMap]
  exact ⟨⟨b, role⟩, AList.mem_lookup_iff.mp hrole, hmem⟩

/-- **The searches return**, with the ancestors, exactly if there is no cycle. -/
theorem searches_return_iff (roles : GoMap String Role) :
    ((∀ a b, ∃ found, hasInheritedRole roles a b = some found ∧
        (found = true ↔ Inherits roles a b)) ∧ ∀ enableInheritance userRoles,
        getUserPermissions roles enableInheritance [] userRoles ≠ none) ↔
    ∀ r, ¬Inherits roles r r := by
  constructor
  · rintro ⟨hsearch, -⟩ r hcycle
    obtain ⟨t, ht⟩ := exists_not_inherited roles
    obtain ⟨found, hfound, hiff⟩ := hsearch r t
    obtain rfl : found = false := Bool.eq_false_iff.mpr fun h => ht r (hiff.mp h)
    have hnone : ∀ n, nested (inheritedRoleBody roles t) n r ≠ some false := by
      intro n
      induction n using Nat.strong_induction_on with
      | _ n ih =>
        intro h
        obtain ⟨m, hm, hfalse⟩ := nested_of_inherits h hcycle
        exact ih m hm hfalse
    exact hnone _ hfound
  intro hacyclic
  refine ⟨fun a b => ?_, fun enableInheritance userRoles => ?_⟩
  · have hreturns := not_of_parents hacyclic
      (P := fun a => hasInheritedRole roles a b = none) fun a ha => by
        rw [hasInheritedRole_eq, inheritedRoleBody] at ha
        split at ha
        · cases ha
        next role hrole =>
          obtain ⟨p, hp, hnone⟩ := anyParent_eq_none ha
          exact ⟨p, ⟨role, hrole, hp⟩, hnone⟩
    obtain ⟨found, hfound⟩ := Option.ne_none_iff_exists'.mp (hreturns a)
    exact ⟨found, hfound, inherits_iff_of_hasInheritedRole hfound⟩
  have hreturns := not_of_parents hacyclic
    (P := fun a => permissionsOf roles enableInheritance a = none) fun a ha => by
      rw [permissionsOf_eq] at ha
      exact parent_of_addRole ha
  generalize ([] : List String) = permissions
  induction userRoles generalizing permissions with
  | nil => exact Option.some_ne_none permissions
  | cons roleID userRoles ih =>
    rw [getUserPermissions]
    split
    · next hnone =>
      obtain ⟨b, -, hb⟩ := parent_of_addRole hnone
      exact absurd hb (hreturns b)
    · exact ih _

end Cycles

/-- A role may be created as its own parent, and the search for any other then never returns. -/
theorem not_searches_return : ((createRole [] ∅ "a" ⟨[], ["a"], true⟩).toOption.map fun roles =>
      (hasInheritedRole roles "a" "b", getUserPermissions roles true [] ["a"])) =
        some (none, none) := by
  decide +kernel

/-! ## Inactive roles -/

/-- A role that reaches another through active roles, both of them included. -/
inductive ActiveReach (roles : GoMap String Role) (enableInheritance : Bool) :
    String → String → Prop
  | self {a : String} {role : Role} (hrole : roles.lookup a = some role)
      (hactive : role.isActive = true) : ActiveReach roles enableInheritance a a
  | parent {a b c : String} {role : Role} (hrole : roles.lookup a = some role)
      (hactive : role.isActive = true) (henabled : enableInheritance = true)
      (hb : b ∈ role.parentRoles) (hreach : ActiveReach roles enableInheritance b c) :
      ActiveReach roles enableInheritance a c

/-- A permission of a role that is reached. -/
def Grants (roles : GoMap String Role) (enableInheritance : Bool) (a perm : String) : Prop :=
  ∃ b role, ActiveReach roles enableInheritance a b ∧ roles.lookup b = some role ∧
    perm ∈ role.permissions

section Inactive

variable {roles : GoMap String Role} {enableInheritance : Bool}
  {self : String → Option (List String)} {permissions result : List String} {a perm : String}

theorem grants_iff {role : Role} (hrole : roles.lookup a = some role) :
    Grants roles enableInheritance a perm ↔ role.isActive = true ∧
      (perm ∈ role.permissions ∨ enableInheritance = true ∧
        ∃ b ∈ role.parentRoles, Grants roles enableInheritance b perm) := by
  constructor
  · rintro ⟨b, role', hreach, hlook, hperm⟩
    cases hreach with
    | self h hactive => grind
    | parent h hactive henabled hb hreach =>
      obtain rfl := Option.some.inj (hrole.symm.trans h)
      exact ⟨hactive, Or.inr ⟨henabled, _, hb, _, role', hreach, hlook, hperm⟩⟩
  · rintro ⟨hactive, hperm | ⟨henabled, b, hb, c, role', hreach, hlook, hperm⟩⟩
    · exact ⟨a, role, .self hrole hactive, hrole, hperm⟩
    · exact ⟨c, role', .parent hrole hactive henabled hb hreach, hlook, hperm⟩

theorem mem_addUnseen {new : List String} :
    perm ∈ addUnseen permissions new ↔ perm ∈ permissions ∨ perm ∈ new := by
  rw [addUnseen]
  induction new generalizing permissions with
  | nil => simp
  | cons p new ih =>
    grind

variable (hself : ∀ b ps, self b = some ps →
  ∀ perm, perm ∈ ps ↔ Grants roles enableInheritance b perm)

include hself

theorem mem_addParents {parentRoles : List String}
    (h : addParents self permissions parentRoles = some result) : perm ∈ result ↔
      perm ∈ permissions ∨ ∃ b ∈ parentRoles, Grants roles enableInheritance b perm := by
  induction parentRoles generalizing permissions with
  | nil =>
    cases h
    simp
  | cons b parentRoles ih =>
    rw [addParents] at h
    split at h
    · cases h
    · next ps hps => rw [ih h, mem_addUnseen, hself b ps hps, exists_mem_cons_iff, or_assoc]

theorem mem_addRole (h : addRole roles enableInheritance self permissions a = some result) :
    perm ∈ result ↔ perm ∈ permissions ∨ Grants roles enableInheritance a perm := by
  simp only [addRole] at h
  split at h
  · next hnone =>
    cases h
    refine (or_iff_left ?_).symm
    rintro ⟨b, role, hreach, -⟩
    cases hreach <;> simp_all
  next role hrole =>
    have hparents (ps : List String) (h : addParents self ps role.parentRoles = some result) :
        perm ∈ result ↔ _ := mem_addParents hself h
    rw [grants_iff hrole]
    grind [mem_addUnseen]

omit hself in
/-- **The permissions of a user** are those of the roles that are reached. -/
theorem mem_getUserPermissions {userRoles : List String}
    (h : getUserPermissions roles enableInheritance permissions userRoles = some result) :
    perm ∈ result ↔
      perm ∈ permissions ∨ ∃ a ∈ userRoles, Grants roles enableInheritance a perm := by
  have hnested : ∀ n b ps,
      Recursion.nested (fun self => addRole roles enableInheritance self []) n b = some ps →
        ∀ perm, perm ∈ ps ↔ Grants roles enableInheritance b perm := by
    intro n
    induction n with
    | zero => exact nofun
    | succ n ih => exact fun b ps h perm => (mem_addRole ih h).trans (by simp)
  induction userRoles generalizing permissions with
  | nil =>
    cases h
    simp
  | cons a userRoles ih =>
    rw [getUserPermissions] at h
    split at h
    · cases h
    next ps hps =>
      refine (ih h).trans ?_
      rw [mem_addRole (hnested _) hps, exists_mem_cons_iff, or_assoc]

end Inactive

/-- The rules for a role are about those who reach it through active roles. -/
def ActiveSubject {α : Type} (rbac : RBACManager α) (request : AccessRequest α) (r : String) :
    Prop :=
  ∃ a ∈ request.roles, ActiveReach rbac.roles rbac.config.enableInheritance a r

theorem subjectMatches_role {α : Type} (rbac : RBACManager α) (request : AccessRequest α)
    (r : String) : rbac.subjectMatches ("role:" ++ r) request = rbac.anyRole r request.roles := by
  have hstar : "role:" ++ r ≠ "*" := fun h => by simpa using congrArg String.toList h
  have hstart : startsWith ("role:" ++ r) "role:" = true := by simp [startsWith]
  have htrim : trimStart ("role:" ++ r) "role:" = r := by simp [trimStart]
  rw [RBACManager.subjectMatches, if_neg hstar, if_pos hstart, htrim]

/-- The role exists and is active. -/
def IsActive (roles : GoMap String Role) (a : String) : Prop :=
  ∃ role, roles.lookup a = some role ∧ role.isActive = true

theorem ActiveReach.isActive {roles : GoMap String Role} {enableInheritance : Bool} {a b : String}
    (h : ActiveReach roles enableInheritance a b) : IsActive roles b := by
  induction h with
  | self hrole hactive => exact ⟨_, hrole, hactive⟩
  | parent _ _ _ _ _ ih => exact ih

/-- If a role and all its ancestors are active, it reaches each of them. -/
theorem activeReach_of_inherits {roles : GoMap String Role} {a b : String}
    (h : Inherits roles a b) (hself : IsActive roles a)
    (hancestors : ∀ c, Inherits roles a c → IsActive roles c) : ActiveReach roles true a b := by
  induction h using Relation.TransGen.head_induction_on with
  | single hparent =>
    obtain ⟨role, hrole, hb⟩ := hparent
    obtain ⟨role', hrole', hactive⟩ := hself
    obtain rfl := Option.some.inj (hrole.symm.trans hrole')
    obtain ⟨_, hrole', hactive'⟩ := hancestors b (.single ⟨role, hrole, hb⟩)
    exact .parent hrole hactive rfl hb (.self hrole' hactive')
  | head hparent _ ih =>
    obtain ⟨role, hrole, hc⟩ := hparent
    obtain ⟨role', hrole', hactive⟩ := hself
    obtain rfl := Option.some.inj (hrole.symm.trans hrole')
    exact .parent hrole hactive rfl hc (ih (hancestors _ (.single ⟨role, hrole, hc⟩))
      fun d hd => hancestors d (.head ⟨role, hrole, hc⟩ hd))

/-- Without a cycle, the subject of a rule matches exactly if its role is requested or, with
inheritance, an ancestor of a requested one. -/
theorem subjectMatches_role_iff {α : Type} {rbac : RBACManager α} (request : AccessRequest α)
    (hacyclic : ∀ r, ¬Inherits rbac.roles r r) (r : String) :
    rbac.subjectMatches ("role:" ++ r) request = .ok true ↔ ∃ a ∈ request.roles, a = r ∨
      rbac.config.enableInheritance = true ∧ Inherits rbac.roles a r := by
  obtain ⟨hsearch, -⟩ := (searches_return_iff rbac.roles).mpr hacyclic
  rw [subjectMatches_role]
  obtain ⟨b, hb⟩ : ∃ b, rbac.anyRole r request.roles = .ok b := by
    induction request.roles with
    | nil => exact ⟨false, rfl⟩
    | cons a roles ih =>
      obtain ⟨found, hfound, -⟩ := hsearch a r
      rw [RBACManager.anyRole, hfound]
      grind
  rw [hb, ← anyRole_iff hb, Except.ok.injEq]

/-- **Inactive roles confer nothing**: no permissions, and no rules exactly if all requested roles
and, with inheritance, all their ancestors exist and are active. -/
theorem inactive_iff {α : Type} (rbac : RBACManager α) (request : AccessRequest α)
    (hacyclic : ∀ r, ¬Inherits rbac.roles r r) :
    (∃ perms, getUserPermissions rbac.roles rbac.config.enableInheritance [] request.roles =
        some perms ∧ ∀ perm, perm ∈ perms ↔ ∃ b role, ActiveSubject rbac request b ∧
          rbac.roles.lookup b = some role ∧ perm ∈ role.permissions) ∧
    ((∀ r, rbac.subjectMatches ("role:" ++ r) request = .ok true →
        ActiveSubject rbac request r) ↔
      ∀ a ∈ request.roles, IsActive rbac.roles a ∧ (rbac.config.enableInheritance = true →
        ∀ b, Inherits rbac.roles a b → IsActive rbac.roles b)) := by
  obtain ⟨-, hpermissions⟩ := (searches_return_iff rbac.roles).mpr hacyclic
  constructor
  · obtain ⟨perms, hperms⟩ := Option.ne_none_iff_exists'.mp
      (hpermissions rbac.config.enableInheritance request.roles)
    refine ⟨perms, hperms, fun perm => (mem_getUserPermissions hperms).trans ?_⟩
    simp only [Grants, ActiveSubject]
    grind
  simp only [subjectMatches_role_iff request hacyclic]
  constructor
  · -- the rules for a requested role, and for its ancestors, match
    intro h a ha
    refine ⟨?_, fun henabled b hb => ?_⟩
    · obtain ⟨_, -, hreach⟩ := h a ⟨a, ha, .inl rfl⟩
      exact hreach.isActive
    · obtain ⟨_, -, hreach⟩ := h b ⟨a, ha, .inr ⟨henabled, hb⟩⟩
      exact hreach.isActive
  · rintro h r ⟨a, ha, rfl | ⟨henabled, hinherits⟩⟩
    · obtain ⟨role, hrole, hactive⟩ := (h a ha).1
      exact ⟨a, ha, .self hrole hactive⟩
    · refine ⟨a, ha, ?_⟩
      rw [henabled]
      exact activeReach_of_inherits hinherits (h a ha).1 ((h a ha).2 henabled)

/-- An inactive role, and an active one with an active parent. -/
def retired : RBACManager Unit where
  config := ⟨true, true⟩
  roles := AList.insert "old" ⟨["read"], [], false⟩
    (AList.insert "new" ⟨["read"], ["base"], true⟩ (AList.insert "base" ⟨["list"], [], true⟩ ∅))
  policies := ∅
  resources := ∅

theorem retired_parent {a b : String} (h : Parent retired.roles a b) : a = "new" ∧ b = "base" := by
  obtain ⟨role, hrole, hb⟩ := h
  simp only [retired, GoMap.lookup_insert_eq_some] at hrole
  grind [AList.lookup_empty]

theorem retired_inherits {a b : String} (h : Inherits retired.roles a b) :
    a = "new" ∧ b = "base" := by
  obtain ⟨c, hparent, rfl | hinherits⟩ := inherits_iff.mp h
  · exact retired_parent hparent
  · obtain ⟨-, rfl⟩ := retired_parent hparent
    obtain ⟨_, hparent', -⟩ := inherits_iff.mp hinherits
    exact absurd (retired_parent hparent').1 (by decide)

theorem retired_acyclic (r : String) : ¬Inherits retired.roles r r := by
  intro h
  obtain ⟨hnew, hbase⟩ := retired_inherits h
  exact absurd (hnew.symm.trans hbase) (by decide)

/-- A request with the role. -/
def requestAs (role : String) : AccessRequest Unit :=
  ⟨"", "", [role], "", "", none, ⟨0, 0⟩, ∅⟩

/-- The rules for the parent of an active role. -/
theorem inactive_iff_new :
    retired.subjectMatches ("role:" ++ "base") (requestAs "new") = .ok true ∧
      ActiveSubject retired (requestAs "new") "base" := by
  have hmatches : retired.subjectMatches ("role:" ++ "base") (requestAs "new") = .ok true := by
    decide +kernel
  refine ⟨hmatches, (inactive_iff retired (requestAs "new") retired_acyclic).2.mpr ?_ _ hmatches⟩
  intro a ha
  obtain rfl := mem_singleton.mp ha
  refine ⟨⟨_, rfl, rfl⟩, fun _ b hb => ?_⟩
  obtain ⟨-, rfl⟩ := retired_inherits hb
  exact ⟨_, rfl, rfl⟩

/-- A user whose only role is inactive has no permissions, but is the subject of its rules. -/
theorem not_inactive : (∀ r, ¬Inherits retired.roles r r) ∧
    getUserPermissions retired.roles true [] ["old"] = some [] ∧
    retired.subjectMatches ("role:" ++ "old") (requestAs "old") = .ok true ∧
    ¬ActiveSubject retired (requestAs "old") "old" := by
  refine ⟨retired_acyclic, by decide +kernel, by decide +kernel, ?_⟩
  rintro ⟨a, ha, hreach⟩
  obtain rfl := mem_singleton.mp ha
  cases hreach with
  | self hrole hactive | parent hrole hactive =>
    cases hrole
    cases hactive

end DistributedKV.Security.Rbac
