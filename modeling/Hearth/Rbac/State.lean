import Hearth.Base.Fallible
import Mathlib.Data.List.Nodup
import Mathlib.Data.String.Basic

/-!
# The RBAC graph of a realm

Roles with their parents, groups with their members, role assignments, extra
organization roles (stored by role name), direct permission grants and the
registry's archived permissions. The indexes the engine keeps beside its primary
rows are read off the rows here: a row is stored together with its index entries.
-/

namespace Hearth.Rbac

open List

/-- A lookup by a key that no two rows share. -/
theorem find?_key_eq_some {α κ : Type} [DecidableEq κ] {key : α → κ} {rows : List α} {k : κ} {a : α}
    (h : (rows.map key).Nodup) : rows.find? (fun x => key x = k) = some a ↔ a ∈ rows ∧ key a = k := by
  constructor
  · intro hf
    exact ⟨mem_of_find?_eq_some hf, by simpa using find?_some hf⟩
  · rintro ⟨ha, rfl⟩
    have hfound : (rows.find? fun x => key x = key a).isSome :=
      find?_isSome.2 ⟨a, ha, decide_eq_true rfl⟩
    obtain ⟨b, hb⟩ := Option.isSome_iff_exists.1 hfound
    have hkey : key b = key a := by simpa using find?_some hb
    rw [hb, inj_on_of_nodup_map h (mem_of_find?_eq_some hb) ha hkey]

/-- Identifiers are UUIDs, whose text order is the order of the numbers. -/
structure UserId where
  uuid : Nat
  deriving DecidableEq, Repr

structure GroupId where
  uuid : Nat
  deriving DecidableEq, Repr

structure RoleId where
  uuid : Nat
  deriving DecidableEq, Repr

structure OrganizationId where
  uuid : Nat
  deriving DecidableEq, Repr

structure AssignmentId where
  uuid : Nat
  deriving DecidableEq, Repr

/-- A permission, as its dotted name. -/
abbrev Permission := String

inductive RoleStatus
  | active
  | archived
  deriving DecidableEq, Repr

inductive RoleScopeKind
  | realm
  | organization
  | any
  deriving DecidableEq, Repr

structure Role where
  id : RoleId
  name : String
  permissions : List Permission
  parentRoles : List RoleId
  scopeKind : RoleScopeKind
  status : RoleStatus
  yamlManaged : Bool
  deriving DecidableEq, Repr

inductive GroupMember
  | user (id : UserId)
  | group (id : GroupId)
  deriving DecidableEq, Repr

inductive Subject
  | user (id : UserId)
  | group (id : GroupId)
  deriving DecidableEq, Repr

inductive Scope
  | realm
  | org (id : OrganizationId)
  deriving DecidableEq, Repr

structure RoleAssignment where
  id : AssignmentId
  subject : Subject
  roleId : RoleId
  scope : Scope
  deriving DecidableEq, Repr

structure UserPermissionGrant where
  userId : UserId
  permission : Permission
  scope : Scope
  deriving DecidableEq, Repr

/-- An `rba:org_role:{realm}:{org}:{user}:{role}` row. -/
structure OrgRole where
  org : OrganizationId
  user : UserId
  role : String
  deriving DecidableEq, Repr

structure Group where
  id : GroupId
  name : String
  slug : String
  yamlManaged : Bool
  deriving DecidableEq, Repr

structure Membership where
  group : GroupId
  member : GroupMember
  deriving DecidableEq, Repr

/-- The stored graph. A role has one row under its id and one under its name, a
group one under its id and one under its slug. -/
structure Graph where
  roles : List Role
  groups : List Group
  members : List Membership
  assignments : List RoleAssignment
  orgRoles : List OrgRole
  grants : List UserPermissionGrant
  archived : List Permission
  nodup_ids : (roles.map Role.id).Nodup
  nodup_names : (roles.map Role.name).Nodup
  nodup_groups : (groups.map Group.id).Nodup
  nodup_slugs : (groups.map Group.slug).Nodup
  nodup_members : members.Nodup
  nodup_assignments : (assignments.map RoleAssignment.id).Nodup
  deriving DecidableEq

namespace Graph

def empty : Graph := ⟨[], [], [], [], [], [], [], .nil, .nil, .nil, .nil, .nil, .nil⟩

variable (G : Graph)

def getRole (roleId : RoleId) : Option Role := G.roles.find? fun r => r.id = roleId

def getRoleIdByName (name : String) : Option RoleId :=
  (G.roles.find? fun r => r.name = name).map Role.id

/-- The groups that hold `member` directly. -/
def parentGroupsOf (member : GroupMember) : List GroupId :=
  (G.members.filter fun e => e.member = member).map Membership.group

def userAssignments (user : UserId) : List RoleAssignment :=
  G.assignments.filter fun a => a.subject = .user user

variable (group : GroupId)

def groupAssignments : List RoleAssignment := G.assignments.filter fun a => a.subject = .group group

def userPermissions (user : UserId) : List UserPermissionGrant :=
  G.grants.filter fun e => e.userId = user

def additionalRoles (org : OrganizationId) (user : UserId) : List String :=
  (G.orgRoles.filter fun e => e.org = org ∧ e.user = user).map OrgRole.role

def permissionArchived (permission : Permission) : Bool := permission ∈ G.archived

def getGroup : Option Group := G.groups.find? fun g => g.id = group

def getGroupSlug : Option String := (G.getGroup group).map Group.slug

variable {G} {r : Role} {i : RoleId} {name : String}

theorem getRole_eq_some : G.getRole i = some r ↔ r ∈ G.roles ∧ r.id = i :=
  find?_key_eq_some G.nodup_ids

theorem getRoleIdByName_eq_some :
    G.getRoleIdByName name = some i ↔ ∃ r ∈ G.roles, r.name = name ∧ r.id = i := by
  unfold getRoleIdByName
  simp [find?_key_eq_some G.nodup_names, and_assoc]

theorem mem_additionalRoles {org user name} : name ∈ G.additionalRoles org user ↔
    ∃ e, (e ∈ G.orgRoles ∧ e.org = org ∧ e.user = user) ∧ e.role = name := by
  simp [additionalRoles]

@[simp] theorem mem_parentGroupsOf {member g} :
    g ∈ G.parentGroupsOf member ↔ ⟨g, member⟩ ∈ G.members := by
  unfold parentGroupsOf
  simp only [mem_map, mem_filter, decide_eq_true_eq]
  constructor
  · rintro ⟨e, ⟨he, rfl⟩, rfl⟩
    exact he
  · intro h
    exact ⟨_, ⟨h, rfl⟩, rfl⟩

end Graph

/-! ## Errors -/

inductive TraversalKind
  | groupMembership
  | roleComposition
  deriving DecidableEq, Repr

/-- The errors of the modelled functions. A cycle is one of roles or of groups, and
names the role or group it closes on. -/
inductive RbacError
  | roleNotFound
  | groupNotFound
  | assignmentNotFound
  | duplicateRoleName
  | duplicateGroupSlug
  | invalidRoleName (reason : String)
  | invalidGroupSlug (reason : String)
  | roleCycle (entity : RoleId)
  | groupCycle (entity : GroupId)
  | depthExceeded (kind : TraversalKind) (limit : Nat)
  | breadthExceeded (kind : TraversalKind) (limit : Nat)
  | tokenSizeExceeded (limit : String) (limitValue actual : Nat)
  | reservedNamespace (permission : Permission)
  | roleArchived
  | roleInUse (assignments childRoles orgRoles : Nat)
  | yamlManaged (kind : String)
  | invalidScope (reason : String)
  deriving DecidableEq, Repr

end Hearth.Rbac
