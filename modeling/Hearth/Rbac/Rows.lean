import Hearth.Base.Reads
import Hearth.Rbac.Resolve
import Mathlib.Data.List.Sort

/-!
# The rows of the graph

A membership has a row under the group and one under the member; an assignment has
one under its id and index rows under its subject and its role. Resolution reads
some of them, one read after another.

* `resolveFullReads`: resolution, read by read;
* `Graph.resolveFull_rows`: on the rows of a graph it is the graph's resolution.
-/

namespace Hearth.Rbac

open Base List Reads

structure Rows where
  forward : List (GroupId × GroupMember)
  reverse : List (GroupMember × GroupId)
  assignments : List RoleAssignment
  userIndex : List (UserId × AssignmentId)
  groupIndex : List (GroupId × AssignmentId)
  roleIndex : List (RoleId × AssignmentId)
  roles : List Role
  roleNames : List (String × RoleId)
  groups : List Group
  slugs : List (String × GroupId)
  grants : List UserPermissionGrant
  archived : List Permission
  orgRoles : List OrgRole

/-! ## Reads -/

/-- The values under a key in an index. -/
def valuesOf {κ α : Type} [DecidableEq κ] (rows : List (κ × α)) (key : κ) : List α :=
  (rows.filter fun e => e.1 = key).map Prod.snd

/-- One `get` or `scan` of the storage. -/
inductive RowQuery
  | forwardEdges (group : GroupId)
  | reverseEdges (member : GroupMember)
  | assignment (id : AssignmentId)
  | userIndex (user : UserId)
  | groupIndex (group : GroupId)
  | role (id : RoleId)
  | roleIdByName (name : String)
  | group (id : GroupId)
  | userPermissions (user : UserId)
  | permissionArchived (permission : Permission)
  | additionalRoles (org : OrganizationId) (user : UserId)

@[reducible] def RowQuery.Answer : RowQuery → Type
  | .forwardEdges _ => List GroupMember
  | .reverseEdges _ => List GroupId
  | .assignment _ => Option RoleAssignment
  | .userIndex _ | .groupIndex _ => List AssignmentId
  | .role _ => Option Role
  | .roleIdByName _ => Option RoleId
  | .group _ => Option Group
  | .userPermissions _ => List UserPermissionGrant
  | .permissionArchived _ => Bool
  | .additionalRoles _ _ => List String

def Rows.answer (rows : Rows) : (q : RowQuery) → q.Answer
  | .forwardEdges group => valuesOf rows.forward group
  | .reverseEdges member => valuesOf rows.reverse member
  | .assignment id => rows.assignments.find? fun a => a.id = id
  | .userIndex user => valuesOf rows.userIndex user
  | .groupIndex group => valuesOf rows.groupIndex group
  | .role id => rows.roles.find? fun r => r.id = id
  | .roleIdByName name => (valuesOf rows.roleNames name).head?
  | .group id => rows.groups.find? fun g => g.id = id
  | .userPermissions user => rows.grants.filter fun e => e.userId = user
  | .permissionArchived permission => decide (permission ∈ rows.archived)
  | .additionalRoles org user => (rows.orgRoles.filter fun e => e.org = org ∧ e.user = user).map OrgRole.role

/-- A computation over the rows that may end in an error. -/
abbrev RowM := ExceptT RbacError (Reads RowQuery.Answer)

def ask (q : RowQuery) : RowM q.Answer := .query q

/-! ## Resolution, read by read -/

def bfsLoopReads : Nat → List (GroupMember × Nat) → List GroupId → RowM (List GroupId)
  | 0, _, visited | _ + 1, [], visited => pure visited
  | n + 1, (member, depth) :: queue, visited => do
    let parents ← ask (.reverseEdges member)
    let found ← .ofExcept (parents.foldlM (bfsPush (depth + 1)) (visited, queue))
    bfsLoopReads n found.2 found.1

variable (user : UserId)

def bfsGroupsReads : RowM (List GroupId) := bfsLoopReads (maxGroupBreadth + 1) [(.user user, 0)] []

/-- The assignments of an index, without those whose own row is gone. -/
def loadAssignment (out : List RoleAssignment) (id : AssignmentId) : RowM (List RoleAssignment) := do
  let row ← ask (.assignment id)
  pure (out ++ row.toList)

def userAssignmentsReads : RowM (List RoleAssignment) := do
  let ids ← ask (.userIndex user)
  ids.foldlM loadAssignment []

def groupAssignmentsReads (group : GroupId) : RowM (List RoleAssignment) := do
  let ids ← ask (.groupIndex group)
  ids.foldlM loadAssignment []

def reachableAssignmentsReads (groups : List GroupId) : RowM (List RoleAssignment) := do
  let own ← userAssignmentsReads user
  groups.foldlM (fun out g => do
    let assigned ← groupAssignmentsReads g
    pure (out ++ assigned)) own

def expandRoleReads : Nat → RoleId → RoleWalk → RowM RoleWalk
  | 0, _, _ => throw (.depthExceeded .roleComposition maxRoleDepth)
  | levels + 1, roleId, walk =>
    if roleId ∈ walk.path then throw (.roleCycle roleId)
    else if roleId ∈ walk.visited then pure walk
    else do
      let found ← ask (.role roleId)
      match found with
      | none => pure (walk.orphan (.missingRole roleId))
      | some role =>
        if role.status = .archived then pure (walk.orphan (.archivedRole role.name))
        else do
          let walk ← role.parentRoles.foldlM (fun walk parent => expandRoleReads levels parent walk)
            (walk.enter role)
          pure (walk.leave roleId)

def expandByNameReads (walk : RoleWalk) (name : String) : RowM RoleWalk := do
  let found ← ask (.roleIdByName name)
  match found with
  | some rid => expandRoleReads (maxRoleDepth + 1) rid walk
  | none => pure (walk.orphan (.roleName name))

def expandOrgRolesReads (org : Option OrganizationId) (walk : RoleWalk) : RowM RoleWalk :=
  match org with
  | some oid => do
    let names ← ask (.additionalRoles oid user)
    names.foldlM expandByNameReads walk
  | none => pure walk

/-- The elements in ascending order, as an ordered set yields them. -/
def ascending (s : Finset String) : List String :=
  Quot.liftOn s.val (.insertionSort (· ≤ ·)) fun _ _ h =>
    List.Perm.eq_of_pairwise (fun _ _ _ _ => le_antisymm) (List.pairwise_insertionSort ..)
      (List.pairwise_insertionSort ..)
      ((List.perm_insertionSort ..).trans (h.trans (List.perm_insertionSort ..).symm))

def archivedReads (perms : Finset Permission) : RowM (Finset Permission) :=
  (ascending perms).foldlM (fun out p => do
    let archived ← ask (.permissionArchived p)
    pure (if archived then insert p out else out)) ∅

def slugsReads (groups : List GroupId) : RowM (Finset String) :=
  groups.foldlM (fun out g => do
    let row ← ask (.group g)
    pure (out ∪ (row.map Group.slug).toList.toFinset)) ∅

def addGrantsOf (grants : List UserPermissionGrant) (org : Option OrganizationId) (walk : RoleWalk) : RoleWalk :=
  { walk with
    perms := walk.perms ∪
      ((grants.filter (extraApplies · org)).map UserPermissionGrant.permission).toFinset }

def resolveFullReadsIn (org : Option OrganizationId) (order : List GroupId → List GroupId) :
    RowM ResolvedPermissions := do
  let visited ← bfsGroupsReads user
  let groups := order visited
  let reachable ← reachableAssignmentsReads user groups
  let assignments := reachable.filter (assignmentApplies · org)
  let walk ← assignments.foldlM (fun walk ra => expandRoleReads (maxRoleDepth + 1) ra.roleId walk)
    .empty
  let grants ← ask (.userPermissions user)
  let walk ← expandOrgRolesReads user org (addGrantsOf grants org walk)
  let archived ← archivedReads walk.perms
  let slugs ← slugsReads groups
  pure {
    roles := walk.roleNames
    groups := slugs
    permissions := walk.perms \ archived
    orphans := walk.orphans ∪ archived.image .permission }

def resolveFullReads (org : Option OrganizationId) : RowM ResolvedPermissions :=
  resolveFullReadsIn user org id

/-! ## The rows of a graph -/

def RoleAssignment.userRow (a : RoleAssignment) : Option (UserId × AssignmentId) :=
  match a.subject with
  | .user u => some (u, a.id)
  | .group _ => none

def RoleAssignment.groupRow (a : RoleAssignment) : Option (GroupId × AssignmentId) :=
  match a.subject with
  | .user _ => none
  | .group g => some (g, a.id)

open RoleAssignment (groupRow userRow)

def Graph.rows (G : Graph) : Rows where
  forward := G.members.map fun e => (e.group, e.member)
  reverse := G.members.map fun e => (e.member, e.group)
  assignments := G.assignments
  userIndex := G.assignments.filterMap userRow
  groupIndex := G.assignments.filterMap groupRow
  roleIndex := G.assignments.map fun a => (a.roleId, a.id)
  roles := G.roles
  roleNames := G.roles.map fun r => (r.name, r.id)
  groups := G.groups
  slugs := G.groups.map fun g => (g.slug, g.id)
  grants := G.grants
  archived := G.archived
  orgRoles := G.orgRoles

section

variable {G : Graph} {user : UserId} {org : Option OrganizationId}

theorem valuesOf_map {α κ β : Type} [DecidableEq κ] (key : α → κ) (value : α → β) (rows : List α) (k : κ) :
    valuesOf (rows.map fun a => (key a, value a)) k = (rows.filter fun a => key a = k).map value := by
  unfold valuesOf
  rw [filter_map, map_map]
  rfl

/-- Where every step answers, the loop is a plain fold. -/
theorem foldlM_pure_step {ε α β : Type} {f : β → α → Except ε β} {g : β → α → β}
    (h : ∀ b a, f b a = .ok (g b a)) (l : List α) (b : β) : l.foldlM f b = .ok (l.foldl g b) := by
  induction l generalizing b with
  | nil => rfl
  | cons a l ih =>
    rw [foldlM_cons, h]
    exact ih _

theorem bfsLoopReads_eval (n : Nat) (queue visited) :
    evalE G.rows.answer (bfsLoopReads n queue visited) = bfsLoop G n queue visited := by
  induction n generalizing queue visited with
  | zero => rfl
  | succ n ih =>
    cases queue with
    | nil => rfl
    | cons x queue =>
      obtain ⟨member, depth⟩ := x
      have hpars : G.rows.answer (.reverseEdges member) = G.parentGroupsOf member :=
        valuesOf_map _ _ _ _
      unfold bfsLoopReads bfsLoop
      simp only [evalE_bind, ask, evalE_query, hpars, ih]
      rfl

theorem loadAssignment_eval {assigned : List RoleAssignment} (hsub : ∀ a ∈ assigned, a ∈ G.assignments) :
    evalE G.rows.answer ((assigned.map RoleAssignment.id).foldlM loadAssignment []) = .ok assigned := by
  have hstep : ∀ out id, evalE G.rows.answer (loadAssignment out id) =
      .ok (out ++ (G.assignments.find? fun a => a.id = id).toList) := fun _ _ => rfl
  rw [evalE_foldlM, foldlM_pure_step hstep, foldl_append_eq_append, ← flatMap_def, nil_append]
  congr 1
  induction assigned with
  | nil => rfl
  | cons a l ih =>
    obtain ⟨ha, hl⟩ := forall_mem_cons.1 hsub
    have hfound : (G.assignments.find? fun b => b.id = a.id) = some a :=
      (find?_key_eq_some G.nodup_assignments).2 ⟨ha, rfl⟩
    rw [map_cons, flatMap_cons, hfound, ih hl]
    rfl

/-- An index that has a row for some of the elements, under different keys. -/
theorem valuesOf_filterMap {α κ β : Type} [DecidableEq κ] {row} {value : α → β}
    {p : α → Bool} {k : κ} (hin : ∀ a, p a = true → row a = some (k, value a))
    (hout : ∀ a, p a = false → ∀ x, row a = some x → x.1 ≠ k) (l : List α) :
    valuesOf (l.filterMap row) k = (l.filter p).map value := by
  unfold valuesOf
  induction l with
  | nil => rfl
  | cons a l ih =>
    cases hp : p a with
    | true => simp [hin a hp, hp, ih]
    | false =>
      cases hrow : row a with
      | none => simp [hrow, hp, ih]
      | some x => simp [hrow, hp, hout a hp x hrow, ih]

theorem userIndex_rows : G.rows.answer (.userIndex user) = (G.userAssignments user).map RoleAssignment.id := by
  refine valuesOf_filterMap (fun a ha => ?_) (fun a ha x hx => ?_) _
  · rw [userRow, of_decide_eq_true ha]
  · unfold userRow at hx
    split at hx
    · next u hu =>
      cases hx
      exact fun he => of_decide_eq_false ha (he ▸ hu)
    · cases hx

theorem groupIndex_rows {group : GroupId} :
    G.rows.answer (.groupIndex group) = (G.groupAssignments group).map RoleAssignment.id := by
  refine valuesOf_filterMap (fun a ha => ?_) (fun a ha x hx => ?_) _
  · rw [groupRow, of_decide_eq_true ha]
  · unfold groupRow at hx
    split at hx
    · cases hx
    · next g hg =>
      cases hx
      exact fun he => of_decide_eq_false ha (he ▸ hg)

theorem reachableAssignmentsReads_eval (groups) :
    evalE G.rows.answer (reachableAssignmentsReads user groups) =
      .ok (reachableAssignments G user groups) := by
  have huser : evalE G.rows.answer (userAssignmentsReads user) = .ok (G.userAssignments user) := by
    unfold userAssignmentsReads ask
    rw [evalE_bind, evalE_query, userIndex_rows]
    exact loadAssignment_eval fun a ha => (mem_filter.1 ha).1
  have hgroup : ∀ g, evalE G.rows.answer (groupAssignmentsReads g) = .ok (G.groupAssignments g) := by
    intro g
    unfold groupAssignmentsReads ask
    rw [evalE_bind, evalE_query, groupIndex_rows]
    exact loadAssignment_eval fun a ha => (mem_filter.1 ha).1
  unfold reachableAssignmentsReads
  rw [evalE_bind, huser]
  change evalE G.rows.answer (groups.foldlM _ (G.userAssignments user)) = _
  rw [evalE_foldlM, foldlM_pure_step, foldl_append_eq_append, ← flatMap_def]
  · rfl
  · intro out g
    rw [evalE_bind, hgroup]
    rfl

theorem expandRoleReads_eval (levels : Nat) (roleId : RoleId) (walk : RoleWalk) :
    evalE G.rows.answer (expandRoleReads levels roleId walk) = expandRole G levels roleId walk := by
  induction levels generalizing roleId walk with
  | zero => rfl
  | succ levels ih =>
    unfold expandRoleReads expandRole
    split
    · rfl
    · split
      · rfl
      · have hrole : G.rows.answer (.role roleId) = G.getRole roleId := rfl
        rw [evalE_bind, ask, evalE_query, hrole, ok_bind]
        cases G.getRole roleId with
        | none => rfl
        | some role =>
          dsimp only
          by_cases harch : role.status = .archived
          · rw [if_pos harch, if_pos harch]
            rfl
          · rw [if_neg harch, if_neg harch, evalE_bind, evalE_foldlM]
            exact bind_eq_bind (foldlM_congr_mem (fun parent _ => ih _) _) fun _ => rfl

theorem roleIdByName_rows {name} : G.rows.answer (.roleIdByName name) = G.getRoleIdByName name := by
  change (valuesOf (G.roles.map fun r => (r.name, r.id)) name).head? = _
  rw [valuesOf_map, head?_map, head?_filter]
  rfl

theorem expandOrgRolesReads_eval (walk : RoleWalk) :
    evalE G.rows.answer (expandOrgRolesReads user org walk) = expandOrgRoles G user org walk := by
  cases org with
  | none => rfl
  | some oid =>
    change evalE G.rows.answer ((G.additionalRoles oid user).foldlM expandByNameReads walk) = _
    rw [evalE_foldlM]
    refine foldlM_congr_mem (fun name _ walk => ?_) walk
    unfold expandByNameReads expandByName
    rw [evalE_bind, ask, evalE_query, roleIdByName_rows]
    cases G.getRoleIdByName name with
    | none => rfl
    | some rid => exact expandRoleReads_eval ..

theorem mem_ascending {s a} : a ∈ ascending s ↔ a ∈ s := by
  obtain ⟨⟨l⟩, hs⟩ := s
  exact mem_insertionSort _

theorem archivedReads_eval (perms : Finset Permission) :
    evalE G.rows.answer (archivedReads perms) = .ok (perms.filter fun p => G.permissionArchived p) := by
  have hfold : ∀ (l : List Permission) (out : Finset Permission),
      l.foldl (fun out p => if G.permissionArchived p then insert p out else out) out =
        out ∪ l.toFinset.filter fun p => G.permissionArchived p := by
    intro l
    induction l with
    | nil => intro out; simp
    | cons p l ih =>
      intro out
      rw [foldl_cons, ih, toFinset_cons, Finset.filter_insert]
      split
      · rw [Finset.insert_union, Finset.union_insert]
      · rfl
  have hsame : (ascending perms).toFinset = perms := by
    ext p
    rw [mem_toFinset, mem_ascending]
  unfold archivedReads
  rw [evalE_foldlM]
  refine (foldlM_pure_step (g := fun out p => if G.permissionArchived p then insert p out else out)
    (fun _ _ => rfl) _ _).trans ?_
  rw [hfold, Finset.empty_union, hsame]

theorem slugsReads_eval (groups) :
    evalE G.rows.answer (slugsReads groups) = .ok (groups.filterMap G.getGroupSlug).toFinset := by
  have hfold : ∀ (l : List GroupId) (out : Finset String),
      l.foldl (fun out g => out ∪ (G.getGroupSlug g).toList.toFinset) out =
        out ∪ (l.filterMap G.getGroupSlug).toFinset := by
    intro l
    induction l with
    | nil => intro out; simp
    | cons g l ih =>
      intro out
      rw [foldl_cons, ih, filterMap_cons]
      cases G.getGroupSlug g with
      | none | some slug => simp
  unfold slugsReads
  rw [evalE_foldlM]
  refine (foldlM_pure_step (g := fun out g => out ∪ (G.getGroupSlug g).toList.toFinset)
    (fun _ _ => rfl) _ _).trans ?_
  rw [hfold, Finset.empty_union]

/-- Read without anything in between, the rows of a graph resolve as the graph does, whatever the
order of the visited groups. -/
theorem Graph.resolveFull_rows (G : Graph) (user : UserId) (org : Option OrganizationId)
    (order : List GroupId → List GroupId) :
    evalE G.rows.answer (resolveFullReadsIn user org order) = resolveFullIn G user org order := by
  unfold resolveFullReadsIn resolveFullIn
  rw [evalE_bind]
  refine bind_eq_bind (bfsLoopReads_eval _ _ _) fun visited => ?_
  rw [evalE_bind, reachableAssignmentsReads_eval]
  change evalE G.rows.answer (_ >>= _) = _
  rw [evalE_bind, evalE_foldlM]
  refine bind_eq_bind (foldlM_congr_mem (fun ra _ walk => expandRoleReads_eval _ _ _) _) fun walk => ?_
  rw [evalE_bind]
  change evalE G.rows.answer (_ >>= _) = _
  rw [evalE_bind]
  refine bind_eq_bind (expandOrgRolesReads_eval _) fun walk => ?_
  rw [evalE_bind, archivedReads_eval]
  change evalE G.rows.answer (_ >>= _) = _
  rw [evalE_bind, slugsReads_eval]
  rfl

end

end Hearth.Rbac
