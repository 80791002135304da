import Hearth.Rbac.Resolve

/-!
# The operations of the RBAC engine

Each operation takes the graph to the graph its writes leave behind, or refuses.
Identifiers the engine generates are arguments, with the fact that nothing in the
graph uses them yet.

A role change is checked upwards only: `checkRoleParentsNoCycle` walks from the new
parents and counts the depth from there. A nesting is checked downwards only:
`checkGroupNoCycle` walks the members of the group that is added.
-/

namespace Hearth.Rbac

open Base List

/-! ## Requests -/

structure CreateRoleRequest where
  name : String
  permissions : List Permission
  parentRoles : List RoleId
  scopeKind : RoleScopeKind
  allowReservedPermissions : Bool

/-- A field left `none` is unchanged. -/
structure UpdateRoleRequest where
  name : Option String
  permissions : Option (List Permission)
  parentRoles : Option (List RoleId)
  scopeKind : Option RoleScopeKind
  status : Option RoleStatus
  allowReservedPermissions : Bool

structure CreateGroupRequest where
  name : String
  slug : String

structure UpdateGroupRequest where
  name : Option String
  slug : Option String

structure AssignRoleRequest where
  subject : Subject
  roleId : RoleId
  scope : Scope

/-! ## Validation -/

def isRoleNameChar (c : Char) : Bool := c.isAlphanum || c = '.' || c = '_' || c = '-'

def validateRoleName (name : String) : Except RbacError Unit := do
  failIf (name = "") (.invalidRoleName "role name must not be empty")
  failIf (name.utf8ByteSize > 128) (.invalidRoleName "role name exceeds 128 chars")
  match name.toList.find? fun c => !isRoleNameChar c with
  | some c => .error (.invalidRoleName s!"role name contains invalid char '{c}'")
  | none => .ok ()

def isSlugChar (c : Char) : Bool := c.isLower || c.isDigit || c = '-' || c = '_'

def validateGroupSlug (slug : String) : Except RbacError Unit := do
  failIf (slug = "") (.invalidGroupSlug "slug must not be empty")
  failIf (slug.utf8ByteSize > 128) (.invalidGroupSlug "slug exceeds 128 chars")
  match slug.toList.find? fun c => !isSlugChar c with
  | some c => .error (.invalidGroupSlug s!"slug contains invalid char '{c}' (a-z, 0-9, -, _)")
  | none => .ok ()

/-- The reserved `hearth.*` namespace. -/
def isReserved (p : Permission) : Bool := "hearth.".toList.isPrefixOf p.toList

def validatePermissionsForOperator (perms : List Permission) : Except RbacError Unit :=
  match perms.find? isReserved with
  | some p => .error (.reservedNamespace p)
  | none => .ok ()

/-- The permissions of a request, unless it may name reserved ones. -/
def validatePermissions (allowReserved : Bool) (perms : List Permission) : Except RbacError Unit :=
  if allowReserved then .ok () else validatePermissionsForOperator perms

/-! ## Cycle and depth checks -/

section

variable (G : Graph)

/-- `walk_role_parents` at the depth that leaves this many levels; returns the
visited set. -/
def walkRoleParents (start : RoleId) : Nat → RoleId → Finset RoleId → Except RbacError (Finset RoleId)
  | 0, _, _ => .error (.depthExceeded .roleComposition maxRoleDepth)
  | levels + 1, current, visited =>
    if current ∈ visited then .ok visited
    else match G.getRole current with
      | none => .ok (insert current visited)
      | some role =>
        role.parentRoles.foldlM (fun visited parent =>
          if parent = start then .error (.roleCycle start)
          else walkRoleParents start levels parent visited) (insert current visited)

/-- The walk from each parent starts at depth one. -/
def checkRoleParentsNoCycle (start : RoleId) (parents : List RoleId) : Except RbacError Unit := do
  let _ ← parents.foldlM (fun visited p =>
    if p = start then .error (.roleCycle start)
    else walkRoleParents G start maxRoleDepth p visited) ∅
  .ok ()

def childGroups (group : GroupId) : List GroupId :=
  (G.members.filter fun e => e.group = group).filterMap fun e => match e.member with
    | .user _ => none
    | .group g => some g

/-- The stack of `check_group_no_cycle`: its top is its head. -/
def groupCycleLoop (target : GroupId) :
    Nat → List (GroupId × Nat) → Finset GroupId → Except RbacError Unit
  | 0, _, _ | _ + 1, [], _ => .ok ()
  | n + 1, (cur, depth) :: stack, visited =>
    if depth > maxGroupDepth then .error (.depthExceeded .groupMembership maxGroupDepth)
    else if cur ∈ visited then groupCycleLoop target n stack visited
    else if target ∈ childGroups G cur then .error (.groupCycle target)
    else
      groupCycleLoop target n (((childGroups G cur).map fun child => (child, depth + 1)).reverse ++ stack)
        (insert cur visited)

/-- Every membership row is pushed at most once. -/
def checkGroupNoCycle (target : GroupId) : GroupMember → Except RbacError Unit
  | .user _ => .ok ()
  | .group member =>
    if member = target then .error (.groupCycle target)
    else groupCycleLoop G target (G.members.length + 1) [(member, 0)] ∅

end

/-! ## Rows -/

namespace Graph

variable (G : Graph)

/-- Nothing uses the id yet. -/
def FreshRole (i : RoleId) : Prop :=
  (∀ r ∈ G.roles, r.id ≠ i ∧ i ∉ r.parentRoles) ∧ ∀ a ∈ G.assignments, a.roleId ≠ i

def FreshGroup (g : GroupId) : Prop :=
  (∀ k ∈ G.groups, k.id ≠ g) ∧ (∀ e ∈ G.members, e.group ≠ g ∧ e.member ≠ .group g) ∧
    ∀ a ∈ G.assignments, a.subject ≠ .group g

def FreshAssignment (i : AssignmentId) : Prop := ∀ a ∈ G.assignments, a.id ≠ i

theorem freshRole_empty (i : RoleId) : empty.FreshRole i := ⟨nofun, nofun⟩

variable {G}

theorem notMem_names {name} (h : ¬ (G.getRoleIdByName name).isSome) : name ∉ G.roles.map Role.name := by
  intro hin
  obtain ⟨r, hr, rfl⟩ := mem_map.1 hin
  have := getRoleIdByName_eq_some.2 ⟨r, hr, rfl, rfl⟩
  exact h (by rw [this]; rfl)

theorem nodup_concat {α κ : Type} {key : α → κ} {rows : List α} {a : α} (h : (rows.map key).Nodup)
    (ha : key a ∉ rows.map key) : ((rows ++ [a]).map key).Nodup := by
  rw [map_append]
  exact nodup_append.2 ⟨h, nodup_singleton _, fun b hb c hc =>
    mem_singleton.1 hc ▸ fun he => ha (he ▸ hb)⟩

def insertRole (G : Graph) (role : Role) (hid : role.id ∉ G.roles.map Role.id)
    (hname : role.name ∉ G.roles.map Role.name) : Graph :=
  { G with
    roles := G.roles ++ [role]
    nodup_ids := nodup_concat G.nodup_ids hid
    nodup_names := nodup_concat G.nodup_names hname }

/-- A row rewritten in place. -/
def rewriteBy {α κ : Type} [DecidableEq κ] (key : α → κ) (a r : α) : α := if key r = key a then a else r

section

variable {α κ ν : Type} [DecidableEq κ] {key : α → κ} {name : α → ν} {rows : List α} {a : α}

theorem key_rewriteBy (r : α) : key (rewriteBy key a r) = key r := by
  unfold rewriteBy
  split
  · next h => exact h.symm
  · rfl

theorem nodup_key_rewriteBy (hkeys : (rows.map key).Nodup) :
    ((rows.map (rewriteBy key a)).map key).Nodup := by
  simpa only [map_map, Function.comp_def, key_rewriteBy] using hkeys

theorem nodup_name_rewriteBy (hkeys : (rows.map key).Nodup) (hnames : (rows.map name).Nodup)
    (hname : ∀ r ∈ rows, name r = name a → key r = key a) :
    ((rows.map (rewriteBy key a)).map name).Nodup := by
  rw [map_map]
  refine .map_on (fun r hr s hs he => ?_) (hkeys.of_map _)
  refine inj_on_of_nodup_map hkeys hr hs ?_
  simp only [Function.comp_apply, rewriteBy] at he
  split at he <;> split at he
  · next h h' => rw [h, h']
  · next h h' => exact absurd (hname s hs he.symm) h'
  · next h h' => exact absurd (hname r hr he) h
  · next h h' => rw [inj_on_of_nodup_map hnames hr hs he]

end

def replaceRole (G : Graph) (role : Role)
    (hname : ∀ r ∈ G.roles, r.name = role.name → r.id = role.id) : Graph :=
  { G with
    roles := G.roles.map (rewriteBy Role.id role)
    nodup_ids := nodup_key_rewriteBy G.nodup_ids
    nodup_names := nodup_name_rewriteBy G.nodup_ids G.nodup_names hname }

def replaceGroup (G : Graph) (group : Group)
    (hslug : ∀ g ∈ G.groups, g.slug = group.slug → g.id = group.id) : Graph :=
  { G with
    groups := G.groups.map (rewriteBy Group.id group)
    nodup_groups := nodup_key_rewriteBy G.nodup_groups
    nodup_slugs := nodup_name_rewriteBy G.nodup_groups G.nodup_slugs hslug }

end Graph

/-! ## Operations -/

section

variable (G : Graph)

/-- Every parent exists. -/
def requireRoles (parents : List RoleId) : Except RbacError Unit :=
  failIf (parents.any fun p => (G.getRole p).isNone) .roleNotFound

def CreateRoleRequest.role (req : CreateRoleRequest) (id : RoleId) : Role :=
  { id := id, name := req.name, permissions := req.permissions, parentRoles := req.parentRoles,
    scopeKind := req.scopeKind, status := .active, yamlManaged := false }

def createRole (id : RoleId) (hid : G.FreshRole id) (req : CreateRoleRequest) : Except RbacError Graph := do
  validateRoleName req.name
  validatePermissions req.allowReservedPermissions req.permissions
  if hname : (G.getRoleIdByName req.name).isSome then .error .duplicateRoleName
  else do
    requireRoles G req.parentRoles
    checkRoleParentsNoCycle G id req.parentRoles
    .ok (G.insertRole (req.role id) (fun h => by
        obtain ⟨r, hr, he⟩ := List.mem_map.1 h
        exact (hid.1 r hr).1 he)
      (Graph.notMem_names hname))

variable {G' : Graph} {req : UpdateRoleRequest} {G} in
theorem createRole_eq_ok {id hid req} (h : createRole G id hid req = .ok G') :
    checkRoleParentsNoCycle G id req.parentRoles = .ok () ∧
      ∃ hnew hname, G' = G.insertRole (req.role id) hnew hname := by
  unfold createRole at h
  obtain ⟨-, -, h⟩ := bind_eq_ok.1 h
  obtain ⟨-, -, h⟩ := bind_eq_ok.1 h
  split at h
  · cases h
  · obtain ⟨_, -, h⟩ := bind_eq_ok.1 h
    obtain ⟨_, hcycle, h⟩ := bind_eq_ok.1 h
    cases h
    exact ⟨hcycle, _, _, rfl⟩

def Role.update (role : Role) (req : UpdateRoleRequest) : Role :=
  { role with
    name := req.name.getD role.name
    permissions := req.permissions.getD role.permissions
    parentRoles := req.parentRoles.getD role.parentRoles
    scopeKind := req.scopeKind.getD role.scopeKind
    status := req.status.getD role.status }

/-- A role `hearth.yaml` declares. An archived one is no longer declared. -/
def refuseYamlManagedRole (role : Role) : Except RbacError Unit :=
  failIf (role.yamlManaged && role.status ≠ .archived) (.yamlManaged "role")

variable {G} in
theorem Graph.update_name_free {role} (hrole : role ∈ G.roles)
    (hfree : ¬ (req.name.getD role.name ≠ role.name ∧
      (G.getRoleIdByName (req.name.getD role.name)).isSome)) :
    ∀ r ∈ G.roles, r.name = (role.update req).name → r.id = (role.update req).id := by
  intro r hr he
  change r.name = req.name.getD role.name at he
  by_cases hsame : req.name.getD role.name = role.name
  · have heq : r = role := inj_on_of_nodup_map G.nodup_names hr hrole (he.trans hsame)
    rw [heq, Role.update]
  · exact absurd (mem_map.2 ⟨r, hr, he⟩) (Graph.notMem_names fun h => hfree ⟨hsame, h⟩)

/-- A field of an update is checked where it is given. -/
def checkGiven {α : Type} (field : Option α) (check : α → Except RbacError Unit) : Except RbacError Unit :=
  match field with
  | some a => check a
  | none => .ok ()

def checkParents (roleId : RoleId) (parents : List RoleId) : Except RbacError Unit := do
  requireRoles G parents
  checkRoleParentsNoCycle G roleId parents

def updateRole (roleId : RoleId) (req : UpdateRoleRequest) : Except RbacError Graph :=
  match hrole : G.getRole roleId with
  | none => .error .roleNotFound
  | some role => do
    refuseYamlManagedRole role
    checkGiven req.name validateRoleName
    if hname : req.name.getD role.name ≠ role.name ∧
        (G.getRoleIdByName (req.name.getD role.name)).isSome then .error .duplicateRoleName
    else do
      checkGiven req.permissions (validatePermissions req.allowReservedPermissions)
      checkGiven req.parentRoles (checkParents G roleId)
      .ok (G.replaceRole (role.update req)
        (Graph.update_name_free (Graph.getRole_eq_some.1 hrole).1 hname))

variable {G} in
theorem updateRole_eq_ok {roleId : RoleId} (h : updateRole G roleId req = .ok G') :
    ∃ role, G.getRole roleId = some role ∧
      (∀ parents, req.parentRoles = some parents → checkRoleParentsNoCycle G roleId parents = .ok ()) ∧
      ∃ hname, G' = G.replaceRole (role.update req) hname := by
  unfold updateRole at h
  split at h
  · cases h
  · next role hrole =>
    obtain ⟨-, -, h⟩ := bind_eq_ok.1 h
    obtain ⟨-, -, h⟩ := bind_eq_ok.1 h
    split at h
    · cases h
    · obtain ⟨-, -, h⟩ := bind_eq_ok.1 h
      obtain ⟨_, hpars, h⟩ := bind_eq_ok.1 h
      cases h
      refine ⟨role, hrole, fun parents hp => ?_, _, rfl⟩
      rw [hp] at hpars
      obtain ⟨_, -, hcycle⟩ := bind_eq_ok.1 hpars
      exact hcycle

/-- The graph without a role, its assignments, the extra roles of its name, and the
edges to it. -/
def Graph.withoutRole (role : Role) : Graph :=
  { G with
    roles := (G.roles.filter fun r => r.id ≠ role.id).map fun r =>
      { r with parentRoles := r.parentRoles.filter fun p => p ≠ role.id }
    assignments := G.assignments.filter fun a => a.roleId ≠ role.id
    orgRoles := G.orgRoles.filter fun row => row.role ≠ role.name
    nodup_ids := by
      rw [List.map_map]
      exact G.nodup_ids.sublist (List.filter_sublist.map _)
    nodup_names := by
      rw [List.map_map]
      exact G.nodup_names.sublist (List.filter_sublist.map _)
    nodup_assignments := G.nodup_assignments.sublist (List.filter_sublist.map _) }

def deleteRole (roleId : RoleId) (cascade : Bool) : Except RbacError Graph :=
  match G.getRole roleId with
  | none => .error .roleNotFound
  | some role => do
    refuseYamlManagedRole role
    let assignments := G.assignments.countP fun a => a.roleId = roleId
    let children := G.roles.countP fun r => roleId ∈ r.parentRoles
    let orgRows := G.orgRoles.countP fun row => row.role = role.name
    failIf (!cascade && (assignments ≠ 0 || children ≠ 0 || orgRows ≠ 0))
      (.roleInUse assignments children orgRows)
    .ok (G.withoutRole role)

def createGroup (id : GroupId) (hid : G.FreshGroup id) (req : CreateGroupRequest) :
    Except RbacError Graph := do
  validateGroupSlug req.slug
  failIf (req.name = "") (.invalidGroupSlug "group name must not be empty")
  if hslug : req.slug ∈ G.groups.map Group.slug then .error .duplicateGroupSlug
  else
    .ok { G with
      groups := G.groups ++ [⟨id, req.name, req.slug, false⟩]
      nodup_groups := Graph.nodup_concat G.nodup_groups (fun h => by
        obtain ⟨g, hg, he⟩ := List.mem_map.1 h
        exact hid.1 g hg he)
      nodup_slugs := Graph.nodup_concat G.nodup_slugs hslug }

variable {G} in
theorem createGroup_eq_ok {id : GroupId} {hid : G.FreshGroup id} {req}
    (h : createGroup G id hid req = .ok G') : G'.roles = G.roles ∧ G'.members = G.members := by
  obtain ⟨-, -, h⟩ := bind_eq_ok.1 h
  obtain ⟨-, -, h⟩ := bind_eq_ok.1 h
  split at h
  · cases h
  · cases h
    exact ⟨rfl, rfl⟩

variable (group : GroupId)

def updateGroup (req : UpdateGroupRequest) : Except RbacError Graph :=
  match hgroup : G.getGroup group with
  | none => .error .groupNotFound
  | some g => do
    failIf g.yamlManaged (.yamlManaged "group")
    checkGiven req.slug validateGroupSlug
    if hslug : req.slug.getD g.slug ≠ g.slug ∧ req.slug.getD g.slug ∈ G.groups.map Group.slug then
      .error .duplicateGroupSlug
    else
      .ok (G.replaceGroup { g with name := req.name.getD g.name, slug := req.slug.getD g.slug } (by
        intro k hk he
        by_cases hsame : req.slug.getD g.slug = g.slug
        · have heq : k = g := List.inj_on_of_nodup_map G.nodup_slugs hk
            (List.mem_of_find?_eq_some hgroup) (he.trans hsame)
          rw [heq]
        · exact absurd ⟨hsame, List.mem_map.2 ⟨k, hk, he⟩⟩ hslug))

/-- The graph without a group, its memberships both ways, and its assignments. -/
def Graph.withoutGroup : Graph :=
  { G with
    groups := G.groups.filter fun g => g.id ≠ group
    members := G.members.filter fun e => e.group ≠ group ∧ e.member ≠ .group group
    assignments := G.assignments.filter fun a => a.subject ≠ .group group
    nodup_groups := G.nodup_groups.sublist (List.filter_sublist.map _)
    nodup_slugs := G.nodup_slugs.sublist (List.filter_sublist.map _)
    nodup_members := G.nodup_members.filter _
    nodup_assignments := G.nodup_assignments.sublist (List.filter_sublist.map _) }

def deleteGroup : Except RbacError Graph :=
  match G.getGroup group with
  | none => .error .groupNotFound
  | some g => do
    failIf g.yamlManaged (.yamlManaged "group")
    .ok (G.withoutGroup group)

def requireGroup : Except RbacError Unit := failIf (G.getGroup group).isNone .groupNotFound

/-- Users are not looked up. -/
def requireMember : GroupMember → Except RbacError Unit
  | .group g => requireGroup G g
  | .user _ => .ok ()

def addGroupMember (member : GroupMember) : Except RbacError Graph := do
  requireGroup G group
  requireMember G member
  checkGroupNoCycle G group member
  .ok { G with
    members := G.members.insert ⟨group, member⟩
    nodup_members := G.nodup_members.insert }

variable {G} in
theorem addGroupMember_eq_ok {group member} (h : addGroupMember G group member = .ok G') :
    checkGroupNoCycle G group member = .ok () ∧ G'.roles = G.roles ∧
      ∀ e, e ∈ G'.members ↔ e = ⟨group, member⟩ ∨ e ∈ G.members := by
  obtain ⟨-, -, h⟩ := bind_eq_ok.1 h
  obtain ⟨-, -, h⟩ := bind_eq_ok.1 h
  obtain ⟨_, hcycle, h⟩ := bind_eq_ok.1 h
  cases h
  exact ⟨hcycle, rfl, fun e => mem_insert_iff⟩

def removeGroupMember (group : GroupId) (member : GroupMember) : Graph :=
  { G with
    members := G.members.filter fun e => e ≠ ⟨group, member⟩
    nodup_members := G.nodup_members.filter _ }

/-- A group must exist; a user is not looked up. -/
def requireSubject : Subject → Except RbacError Unit
  | .group g => requireGroup G g
  | .user _ => .ok ()

/-- An assignment that exists already is returned as it is. -/
def assignRole (id : AssignmentId) (hid : G.FreshAssignment id) (req : AssignRoleRequest) :
    Except RbacError Graph :=
  match G.getRole req.roleId with
  | none => .error .roleNotFound
  | some role => do
    failIf (role.status ≠ .active) .roleArchived
    requireSubject G req.subject
    if G.assignments.any fun a => a.subject = req.subject ∧ a.roleId = req.roleId ∧ a.scope = req.scope then
      .ok G
    else
      .ok { G with
        assignments := G.assignments ++ [⟨id, req.subject, req.roleId, req.scope⟩]
        nodup_assignments := Graph.nodup_concat G.nodup_assignments (fun h => by
          obtain ⟨a, ha, he⟩ := List.mem_map.1 h
          exact hid a ha he) }

variable {G} in
theorem assignRole_eq_ok {id : AssignmentId} {hid req} (h : assignRole G id hid req = .ok G') :
    G'.roles = G.roles ∧ G'.members = G.members := by
  unfold assignRole at h
  split at h
  · cases h
  · obtain ⟨-, -, h⟩ := bind_eq_ok.1 h
    obtain ⟨-, -, h⟩ := bind_eq_ok.1 h
    split at h <;> cases h <;> exact ⟨rfl, rfl⟩

def unassignRole (id : AssignmentId) : Except RbacError Graph := do
  failIf (!G.assignments.any fun a => a.id = id) .assignmentNotFound
  .ok { G with
    assignments := G.assignments.filter fun a => a.id ≠ id
    nodup_assignments := G.nodup_assignments.sublist (List.filter_sublist.map _) }

variable (grant : UserPermissionGrant)

/-- A grant row is keyed by its user, scope and permission. -/
def seedUserPermissionUnchecked : Graph := { G with grants := G.grants.insert grant }

def grantUserPermission : Except RbacError Graph := do
  failIf (isReserved grant.permission) (.reservedNamespace grant.permission)
  .ok (seedUserPermissionUnchecked G grant)

def revokeUserPermission : Graph := { G with grants := G.grants.filter fun e => e ≠ grant }

/-- Neither the organization nor a membership of it is looked up. -/
def addAdditionalRole (row : OrgRole) : Except RbacError Graph := do
  failIf (row.role = "") (.invalidRoleName "role name must not be empty")
  failIf (G.getRoleIdByName row.role).isNone .roleNotFound
  .ok { G with orgRoles := G.orgRoles.insert row }

def removeAdditionalRole (row : OrgRole) : Graph :=
  { G with orgRoles := G.orgRoles.filter fun e => e ≠ row }

def purgeOrgRolesForUser (org : OrganizationId) (user : UserId) : Graph :=
  { G with orgRoles := G.orgRoles.filter fun e => ¬ (e.org = org ∧ e.user = user) }

def purgeOrgRolesForOrg (org : OrganizationId) : Graph :=
  { G with orgRoles := G.orgRoles.filter fun e => e.org ≠ org }

def purgeUserFromRealm (user : UserId) : Graph :=
  { G with
    assignments := G.assignments.filter fun a => a.subject ≠ .user user
    members := G.members.filter fun e => e.member ≠ .user user
    orgRoles := G.orgRoles.filter fun e => e.user ≠ user
    nodup_members := G.nodup_members.filter _
    nodup_assignments := G.nodup_assignments.sublist (List.filter_sublist.map _) }

end

/-! ## Runs -/

/-- The operations of the engine, without the imports, the seeding and the reconciliation of a
configured realm: `import_role` looks for no cycle. -/
inductive Op
  | createRole (id : RoleId) (req : CreateRoleRequest)
  | updateRole (roleId : RoleId) (req : UpdateRoleRequest)
  | deleteRole (roleId : RoleId) (cascade : Bool)
  | createGroup (id : GroupId) (req : CreateGroupRequest)
  | updateGroup (group : GroupId) (req : UpdateGroupRequest)
  | deleteGroup (group : GroupId)
  | addGroupMember (group : GroupId) (member : GroupMember)
  | removeGroupMember (group : GroupId) (member : GroupMember)
  | assignRole (id : AssignmentId) (req : AssignRoleRequest)
  | unassignRole (id : AssignmentId)
  | seedUserPermissionUnchecked (grant : UserPermissionGrant)
  | grantUserPermission (grant : UserPermissionGrant)
  | revokeUserPermission (grant : UserPermissionGrant)
  | addAdditionalRole (row : OrgRole)
  | removeAdditionalRole (row : OrgRole)
  | purgeOrgRolesForUser (org : OrganizationId) (user : UserId)
  | purgeOrgRolesForOrg (org : OrganizationId)
  | purgeUserFromRealm (user : UserId)

/-- What an operation does. One that generates an id needs a fresh one. -/
def Runs (G : Graph) : Op → Except RbacError Graph → Prop
  | .createRole id req, out => ∃ hid, out = createRole G id hid req
  | .updateRole roleId req, out => out = updateRole G roleId req
  | .deleteRole roleId cascade, out => out = deleteRole G roleId cascade
  | .createGroup id req, out => ∃ hid, out = createGroup G id hid req
  | .updateGroup group req, out => out = updateGroup G group req
  | .deleteGroup group, out => out = deleteGroup G group
  | .addGroupMember group member, out => out = addGroupMember G group member
  | .removeGroupMember group member, out => out = .ok (removeGroupMember G group member)
  | .assignRole id req, out => ∃ hid, out = assignRole G id hid req
  | .unassignRole id, out => out = unassignRole G id
  | .seedUserPermissionUnchecked grant, out => out = .ok (seedUserPermissionUnchecked G grant)
  | .grantUserPermission grant, out => out = grantUserPermission G grant
  | .revokeUserPermission grant, out => out = .ok (revokeUserPermission G grant)
  | .addAdditionalRole row, out => out = addAdditionalRole G row
  | .removeAdditionalRole row, out => out = .ok (removeAdditionalRole G row)
  | .purgeOrgRolesForUser org user, out => out = .ok (purgeOrgRolesForUser G org user)
  | .purgeOrgRolesForOrg org, out => out = .ok (purgeOrgRolesForOrg G org)
  | .purgeUserFromRealm user, out => out = .ok (purgeUserFromRealm G user)

/-- One call: accepted, or refused with the graph as it was. -/
inductive Call (op : Op) (G : Graph) : Graph → Prop
  | accepted {G' : Graph} : Runs G op (.ok G') → Call op G G'
  | refused {e} : Runs G op (.error e) → Call op G G

end Hearth.Rbac
