import Hearth.Rbac.State
import Mathlib.Data.Finset.Card
import Mathlib.Data.Finset.Union

/-!
# Permission resolution

`resolveFull` is the traversal of `resolve.rs`: the groups a user is in by
`bfsGroups`, the assignments that apply in the requested organization, the role
composition by `expandRole`, direct grants, and the extra roles of the
organization, without the permissions the registry has archived.

What it computes is said by `Source`, over the graph alone: `MemberOf` is
membership through nested groups and `RoleGrants` what a role grants itself or
through its parents. `resolveFull_permissions` connects the two.
-/

namespace Hearth.Rbac

open Base List Relation Rbac.Graph

def maxGroupDepth : Nat := 10
def maxGroupBreadth : Nat := 1000
def maxRoleDepth : Nat := 10
def maxPermissionsPerToken : Nat := 100
def maxRolesPerToken : Nat := 50
def maxGroupsPerToken : Nat := 50

/-- A reference resolution met and skipped: its kind and what it names. -/
inductive OrphanRef
  | missingRole (id : RoleId)
  | archivedRole (name : String)
  | roleName (name : String)
  | permission (name : Permission)
  deriving DecidableEq, Repr

structure ResolvedPermissions where
  roles : Finset String
  groups : Finset String
  permissions : Finset Permission
  orphans : Finset OrphanRef
  deriving DecidableEq

/-- Whether a scope applies in the requested organization, if any. -/
def Scope.applies : Scope → Option OrganizationId → Bool
  | .realm, _ => true
  | .org oid, some requested => requested = oid
  | .org _, none => false

def Scope.orgId : Scope → Option OrganizationId
  | .realm => none
  | .org oid => some oid

@[simp] theorem Scope.orgId_eq_some {s : Scope} {o : OrganizationId} :
    s.orgId = some o ↔ s = .org o := by
  cases s <;> simp [orgId]

def assignmentApplies (ra : RoleAssignment) (org : Option OrganizationId) : Bool :=
  ra.scope.applies org

def extraApplies (extra : UserPermissionGrant) (org : Option OrganizationId) : Bool :=
  extra.scope.applies org

/-! ## The groups of a user -/

section

variable (G : Graph)

/-- One parent of the member just popped: the groups visited and the queue. -/
def bfsPush (nextDepth : Nat) (found : List GroupId × List (GroupMember × Nat)) (parent : GroupId) :
    Except RbacError (List GroupId × List (GroupMember × Nat)) :=
  if parent ∈ found.1 then .ok found
  else if found.1.length + 1 > maxGroupBreadth then
    .error (.breadthExceeded .groupMembership maxGroupBreadth)
  else if nextDepth > maxGroupDepth then .error (.depthExceeded .groupMembership maxGroupDepth)
  else .ok (found.1 ++ [parent], found.2 ++ [(.group parent, nextDepth)])

def bfsLoop : Nat → List (GroupMember × Nat) → List GroupId → Except RbacError (List GroupId)
  | 0, _, visited | _ + 1, [], visited => .ok visited
  | n + 1, (member, depth) :: queue, visited => do
    let found ← (G.parentGroupsOf member).foldlM (bfsPush (depth + 1)) (visited, queue)
    bfsLoop n found.2 found.1

/-- Every group is queued once, so a pop for the user and one for each group is
all the loop needs. -/
def bfsGroups (user : UserId) : Except RbacError (List GroupId) :=
  bfsLoop G (maxGroupBreadth + 1) [(.user user, 0)] []

/-- Membership, directly or through nested groups. -/
inductive MemberOf (member : GroupMember) : GroupId → Prop
  | direct {g} : ⟨g, member⟩ ∈ G.members → MemberOf member g
  | nested {g h} : MemberOf member h → ⟨g, .group h⟩ ∈ G.members → MemberOf member g

end

/-! ## Role composition -/

/-- The mutable state of one role-composition walk. -/
structure RoleWalk where
  roleNames : Finset String
  perms : Finset Permission
  visited : Finset RoleId
  path : Finset RoleId
  orphans : Finset OrphanRef

def RoleWalk.empty : RoleWalk := ⟨∅, ∅, ∅, ∅, ∅⟩

variable (walk : RoleWalk)

def RoleWalk.enter (role : Role) : RoleWalk where
  roleNames := insert role.name walk.roleNames
  perms := walk.perms ∪ role.permissions.toFinset
  visited := insert role.id walk.visited
  path := insert role.id walk.path
  orphans := walk.orphans

def RoleWalk.leave (roleId : RoleId) : RoleWalk := { walk with path := walk.path.erase roleId }

def RoleWalk.orphan (ref : OrphanRef) : RoleWalk := { walk with orphans := insert ref walk.orphans }

/-- `expand_role` at the depth that leaves this many levels. -/
def expandRole (G : Graph) : Nat → RoleId → RoleWalk → Except RbacError RoleWalk
  | 0, _, _ => .error (.depthExceeded .roleComposition maxRoleDepth)
  | levels + 1, roleId, walk =>
    -- a role on the path closes a cycle; a role visited earlier is a diamond
    if roleId ∈ walk.path then .error (.roleCycle roleId)
    else if roleId ∈ walk.visited then .ok walk
    else match G.getRole roleId with
      | none => .ok (walk.orphan (.missingRole roleId))
      | some role =>
        if role.status = .archived then .ok (walk.orphan (.archivedRole role.name))
        else do
          let walk ← role.parentRoles.foldlM (fun walk parent => expandRole G levels parent walk)
            (walk.enter role)
          .ok (walk.leave roleId)

def expandRoot (G : Graph) (roleId : RoleId) (walk : RoleWalk) : Except RbacError RoleWalk :=
  expandRole G (maxRoleDepth + 1) roleId walk

/-- What `resolve_role_permissions` returns: a role's transitive permissions, as
resolution would grant them. -/
def expandRolePermissions (G : Graph) (roleId : RoleId) : Except RbacError (Finset Permission) := do
  let walk ← expandRoot G roleId .empty
  .ok (walk.perms.filter fun p => !G.permissionArchived p)

/-! ## Resolution -/

section

variable (G : Graph) (user : UserId) (org : Option OrganizationId)

/-- The assignments of the user and of its groups, in any scope. -/
def reachableAssignments (groups : List GroupId) : List RoleAssignment :=
  G.userAssignments user ++ groups.flatMap G.groupAssignments

variable (walk : RoleWalk)

def addGrants : RoleWalk :=
  { walk with
    perms := walk.perms ∪ (((G.userPermissions user).filter (extraApplies · org)).map
        UserPermissionGrant.permission).toFinset }

/-- One extra role of the organization, which is stored by its name. -/
def expandByName (name : String) : Except RbacError RoleWalk :=
  match G.getRoleIdByName name with
  | some rid => expandRoot G rid walk
  | none => .ok (walk.orphan (.roleName name))

def expandOrgRoles : Except RbacError RoleWalk :=
  match org with
  | some oid => (G.additionalRoles oid user).foldlM (expandByName G) walk
  | none => .ok walk

/-- Resolution where the set of the visited groups is iterated in the order given: it decides
which of a role's ways is walked first, and so whether one is too long. -/
def resolveFullIn (order : List GroupId → List GroupId) : Except RbacError ResolvedPermissions := do
  let visited ← bfsGroups G user
  let groups := order visited
  let assignments := (reachableAssignments G user groups).filter (assignmentApplies · org)
  let walk ← assignments.foldlM (fun walk ra => expandRoot G ra.roleId walk) .empty
  let walk ← expandOrgRoles G user org (addGrants G user org walk)
  let archived := walk.perms.filter fun p => G.permissionArchived p
  .ok {
    roles := walk.roleNames
    groups := (groups.filterMap G.getGroupSlug).toFinset
    permissions := walk.perms \ archived
    orphans := walk.orphans ∪ archived.image .permission }

/-- Resolution in the order of the walk. -/
def resolveFull : Except RbacError ResolvedPermissions := resolveFullIn G user org id

/-- Every organization an org-scoped assignment or grant of the user names. -/
def orgContexts : Except RbacError (List OrganizationId) := do
  let groups ← bfsGroups G user
  let scopes := (reachableAssignments G user groups).map RoleAssignment.scope ++
    (G.userPermissions user).map UserPermissionGrant.scope
  .ok (scopes.filterMap Scope.orgId).dedup

end

def enforceTokenCaps (r : ResolvedPermissions) : Except RbacError Unit := do
  failIf (r.permissions.card > maxPermissionsPerToken)
    (.tokenSizeExceeded "permissions_per_token" maxPermissionsPerToken r.permissions.card)
  failIf (r.roles.card > maxRolesPerToken)
    (.tokenSizeExceeded "roles_per_token" maxRolesPerToken r.roles.card)
  failIf (r.groups.card > maxGroupsPerToken)
    (.tokenSizeExceeded "groups_per_token" maxGroupsPerToken r.groups.card)

/-- `resolve_permissions` without a requested scope. -/
def resolvePermissions (G : Graph) (user : UserId) (org : Option OrganizationId) :
    Except RbacError ResolvedPermissions := do
  let r ← resolveFull G user org
  enforceTokenCaps r
  .ok r

/-! ## What the group walk finds -/

section

variable {G : Graph} {user : UserId} {n depth : Nat} {parents visited visited' : List GroupId}
  {queue queue' : List (GroupMember × Nat)}

/-- What pushing `parents` does to the groups visited and to the queue. -/
structure Pushed (depth : Nat) (parents visited : List GroupId) (queue : List (GroupMember × Nat))
    (visited' : List GroupId) (queue' : List (GroupMember × Nat)) : Prop where
  mem_iff : ∀ g, g ∈ visited' ↔ g ∈ visited ∨ g ∈ parents
  keeps : ∀ x ∈ queue, x ∈ queue'
  queued : ∀ g ∈ visited', g ∈ visited ∨ (.group g, depth) ∈ queue'
  pushed : ∀ x ∈ queue', x ∈ queue ∨ ∃ g ∈ visited', x.1 = .group g
  length : queue'.length + visited.length = queue.length + visited'.length
  bound : visited.length ≤ maxGroupBreadth → visited'.length ≤ maxGroupBreadth

theorem bfsPush_cases {parent} (h : bfsPush depth (visited, queue) parent = .ok (visited', queue')) :
    (parent ∈ visited ∧ visited' = visited ∧ queue' = queue) ∨
      (visited.length + 1 ≤ maxGroupBreadth ∧ visited' = visited ++ [parent] ∧
        queue' = queue ++ [(.group parent, depth)]) := by
  unfold bfsPush at h
  split at h
  · next hp => cases h; exact .inl ⟨hp, rfl, rfl⟩
  · split at h
    · cases h
    · next hb =>
      split at h
      · cases h
      · cases h; exact .inr ⟨not_lt.1 hb, rfl, rfl⟩

theorem bfsPush_fold (h : parents.foldlM (bfsPush depth) (visited, queue) = .ok (visited', queue')) :
    Pushed depth parents visited queue visited' queue' := by
  induction parents generalizing visited queue with
  | nil =>
    cases h
    exact ⟨by simp, fun _ hx => hx, fun _ => .inl, fun _ => .inl, rfl, id⟩
  | cons parent parents ih =>
    obtain ⟨⟨v1, q1⟩, h1, h⟩ := bind_eq_ok.1 h
    have P := ih h
    rcases bfsPush_cases h1 with ⟨hp, rfl, rfl⟩ | ⟨hb, rfl, rfl⟩
    · refine { P with mem_iff := fun g => ?_ }
      rw [P.mem_iff, mem_cons]
      constructor
      · rintro (hg | hg)
        · exact .inl hg
        · exact .inr (.inr hg)
      · rintro (hg | rfl | hg)
        · exact .inl hg
        · exact .inl hp
        · exact .inr hg
    · constructor
      case mem_iff =>
        intro g
        rw [P.mem_iff, mem_append, mem_singleton, mem_cons, or_assoc]
      case keeps => exact fun x hx => P.keeps x (mem_append_left _ hx)
      case queued =>
        intro g hg
        rcases P.queued g hg with hv | hq
        · rcases mem_append.1 hv with hv | hv
          · exact .inl hv
          · rw [mem_singleton.1 hv]
            exact .inr (P.keeps _ (mem_append_right _ mem_cons_self))
        · exact .inr hq
      case pushed =>
        intro x hx
        rcases P.pushed x hx with hq | hq
        · rcases mem_append.1 hq with hq | hq
          · exact .inl hq
          · rw [mem_singleton.1 hq]
            exact .inr ⟨parent, (P.mem_iff _).2 (.inl (by simp)), rfl⟩
        · exact .inr hq
      case length =>
        have := P.length
        simp only [length_append, length_singleton] at this
        omega
      case bound =>
        intro _
        refine P.bound ?_
        rw [length_append]
        exact hb

/-- The loop's invariant. Every member met is in the queue still, or its groups
have been visited. -/
structure BfsInv (G : Graph) (user : UserId) (queue : List (GroupMember × Nat))
    (visited : List GroupId) : Prop where
  member : ∀ g ∈ visited, MemberOf G (.user user) g
  queued : ∀ x ∈ queue, x.1 = .user user ∨ ∃ g ∈ visited, x.1 = .group g
  covered : ∀ m, m = .user user ∨ (∃ g ∈ visited, m = .group g) →
    (∃ d, (m, d) ∈ queue) ∨ ∀ g, ⟨g, m⟩ ∈ G.members → g ∈ visited
  bound : visited.length ≤ maxGroupBreadth

theorem BfsInv.start : BfsInv G user [(.user user, 0)] [] where
  member := by simp
  queued := by simp
  covered := by
    rintro m (rfl | ⟨g, hg, -⟩)
    · exact .inl ⟨0, mem_cons_self⟩
    · exact absurd hg not_mem_nil
  bound := Nat.zero_le _

theorem BfsInv.pop {m} (I : BfsInv G user ((m, depth) :: queue) visited)
    (P : Pushed (depth + 1) (G.parentGroupsOf m) visited queue visited' queue') :
    BfsInv G user queue' visited' where
  member := by
    intro g hg
    rcases (P.mem_iff g).1 hg with hv | hp
    · exact I.member g hv
    · rw [mem_parentGroupsOf] at hp
      have hpopped : m = .user user ∨ ∃ h ∈ visited, m = .group h := I.queued _ mem_cons_self
      rcases hpopped with rfl | ⟨h, hh, rfl⟩
      · exact .direct hp
      · exact .nested (I.member h hh) hp
  queued := by
    intro x hx
    rcases P.pushed x hx with hq | hq
    · rcases I.queued x (mem_cons_of_mem _ hq) with hu | ⟨g, hg, hxg⟩
      · exact .inl hu
      · exact .inr ⟨g, (P.mem_iff g).2 (.inl hg), hxg⟩
    · exact .inr hq
  covered := by
    intro x hx
    have hfresh : ∀ g ∈ visited', x = .group g → g ∉ visited → ∃ d, (x, d) ∈ queue' := by
      rintro g hg rfl hnew
      exact ⟨_, (P.queued g hg).resolve_left hnew⟩
    have hmet : x = .user user ∨ (∃ g ∈ visited, x = .group g) ∨
        ∃ g ∈ visited', x = .group g ∧ g ∉ visited := by
      rcases hx with hx | ⟨g, hg, hx⟩
      · exact .inl hx
      · by_cases hv : g ∈ visited
        · exact .inr (.inl ⟨g, hv, hx⟩)
        · exact .inr (.inr ⟨g, hg, hx, hv⟩)
    rcases or_assoc.2 hmet with hold | ⟨g, hg, hxg, hnew⟩
    · rcases I.covered x hold with ⟨d, hd⟩ | hall
      · rcases mem_cons.1 hd with heq | hd
        · cases heq
          refine .inr fun g hg => (P.mem_iff g).2 (.inr ?_)
          exact mem_parentGroupsOf.2 hg
        · exact .inl ⟨d, P.keeps _ hd⟩
      · exact .inr fun g hg => (P.mem_iff g).2 (.inl (hall g hg))
    · exact .inl (hfresh g hg hxg hnew)
  bound := P.bound I.bound

theorem bfsLoop_inv (I : BfsInv G user queue visited)
    (hn : queue.length + (maxGroupBreadth - visited.length) ≤ n)
    (h : bfsLoop G n queue visited = .ok visited') : BfsInv G user [] visited' := by
  induction n generalizing queue visited with
  | zero =>
    cases h
    have hnil : queue = [] := eq_nil_of_length_eq_zero (by omega)
    exact hnil ▸ I
  | succ n ih =>
    cases queue with
    | nil => cases h; exact I
    | cons x queue =>
      obtain ⟨⟨v1, q1⟩, h1, h⟩ := bind_eq_ok.1 h
      have P := bfsPush_fold h1
      have hlen := P.length
      have hbound := P.bound I.bound
      rw [length_cons] at hn
      exact ih (I.pop P) (by omega) h

/-- `bfs_groups` finds the groups the user is in, through any nesting. -/
theorem mem_bfsGroups {groups} (h : bfsGroups G user = .ok groups) {g} :
    g ∈ groups ↔ MemberOf G (.user user) g := by
  have I : BfsInv G user [] groups := bfsLoop_inv .start (by simp; omega) h
  constructor
  · exact I.member g
  · intro hm
    induction hm with
    | direct hd => exact ((I.covered _ (.inl rfl)).resolve_left (by simp)) _ hd
    | nested _ hd ih => exact ((I.covered _ (.inr ⟨_, ih, rfl⟩)).resolve_left (by simp)) _ hd

end

/-! ## What the role walk collects -/

section

/-- A role that resolution expands. -/
def Active (G : Graph) (i : RoleId) (role : Role) : Prop :=
  G.getRole i = some role ∧ role.status ≠ .archived

/-- An edge resolution follows. -/
def Composes (G : Graph) (i q : RoleId) : Prop := ∃ role, Active G i role ∧ q ∈ role.parentRoles

/-- What a role grants, itself or through its parents, before archived permissions
are dropped. -/
inductive RoleGrants (G : Graph) : RoleId → Permission → Prop
  | own {i} {role : Role} {p} : Active G i role → p ∈ role.permissions → RoleGrants G i p
  | inherited {i parent} {role : Role} {p} :
      Active G i role → parent ∈ role.parentRoles → RoleGrants G parent p → RoleGrants G i p

variable {G : Graph} {i j : RoleId} {role role' : Role} {walk walk' : RoleWalk} {p : Permission}
  {levels : Nat}

theorem Active.unique (h : Active G i role) (h' : Active G i role') : role = role' :=
  Option.some.inj (h.1.symm.trans h'.1)

theorem Active.id_eq (h : Active G i role) : role.id = i := (getRole_eq_some.1 h.1).2

theorem RoleGrants.active (h : RoleGrants G i p) : ∃ role, Active G i role := by
  cases h with
  | own ha _ | inherited ha _ _ => exact ⟨_, ha⟩

/-- A visited role has its own permissions in the result; one that has left the
path has its parents visited, and off the path, as well. -/
structure RoleWalk.Inv (G : Graph) (walk : RoleWalk) : Prop where
  own : ∀ v ∈ walk.visited, ∃ role, Active G v role ∧ ∀ p ∈ role.permissions, p ∈ walk.perms
  closed : ∀ v ∈ walk.visited, v ∉ walk.path → ∀ role, Active G v role →
    ∀ q ∈ role.parentRoles, (∃ r, Active G q r) → q ∈ walk.visited ∧ q ∉ walk.path

/-- What expanding the roles `roots` does to a walk. -/
structure Expanded (G : Graph) (roots : List RoleId) (walk walk' : RoleWalk) : Prop where
  inv : walk'.Inv G
  path : walk'.path = walk.path
  visited : walk.visited ⊆ walk'.visited
  perms : walk.perms ⊆ walk'.perms
  reached : ∀ i ∈ roots, (∃ role, Active G i role) → i ∈ walk'.visited ∧ i ∉ walk.path
  sound : ∀ p ∈ walk'.perms, p ∈ walk.perms ∨ ∃ i ∈ roots, RoleGrants G i p

theorem Expanded.nil (h : walk.Inv G) : Expanded G [] walk walk :=
  ⟨h, rfl, subset_rfl, subset_rfl, by simp, fun _ => .inl⟩

theorem Expanded.append {walk1 roots roots'}
    (h1 : Expanded G roots walk walk1) (h2 : Expanded G roots' walk1 walk') :
    Expanded G (roots ++ roots') walk walk' where
  inv := h2.inv
  path := h2.path.trans h1.path
  visited := h1.visited.trans h2.visited
  perms := h1.perms.trans h2.perms
  reached := by
    intro i hi ha
    rcases mem_append.1 hi with hi | hi
    · obtain ⟨hv, hp⟩ := h1.reached i hi ha
      exact ⟨h2.visited hv, hp⟩
    · rw [← h1.path]
      exact h2.reached i hi ha
  sound := by
    intro p hp
    rcases h2.sound p hp with hp | ⟨i, hi, hg⟩
    · rcases h1.sound p hp with hp | ⟨i, hi, hg⟩
      · exact .inl hp
      · exact .inr ⟨i, mem_append_left _ hi, hg⟩
    · exact .inr ⟨i, mem_append_right _ hi, hg⟩

theorem Expanded.fold {α : Type} {expand : RoleWalk → α → Except RbacError RoleWalk}
    {roots : α → List RoleId}
    (hstep : ∀ a walk walk', walk.Inv G → expand walk a = .ok walk' → Expanded G (roots a) walk walk')
    {l : List α} (hI : walk.Inv G) (h : l.foldlM expand walk = .ok walk') :
    Expanded G (l.flatMap roots) walk walk' := by
  induction l generalizing walk with
  | nil => cases h; exact .nil hI
  | cons a l ih =>
    obtain ⟨walk1, h1, h⟩ := bind_eq_ok.1 h
    have e1 := hstep a walk _ hI h1
    exact e1.append (ih e1.inv h)

theorem RoleWalk.Inv.enter (hI : walk.Inv G) (ha : Active G i role) (hv : i ∉ walk.visited) :
    (walk.enter role).Inv G := by
  have hid : role.id = i := ha.id_eq
  constructor
  case own =>
    intro v hvis
    rcases Finset.mem_insert.1 hvis with rfl | hvis
    · exact ⟨role, hid ▸ ha, fun p hp => Finset.mem_union_right _ (mem_toFinset.2 hp)⟩
    · obtain ⟨r, hr, hperms⟩ := hI.own v hvis
      exact ⟨r, hr, fun p hp => Finset.mem_union_left _ (hperms p hp)⟩
  case closed =>
    intro v hvis hpath r hr q hq hqa
    have hpath' : v ≠ role.id ∧ v ∉ walk.path := by
      rwa [RoleWalk.enter, Finset.mem_insert, not_or] at hpath
    have hvis' := (Finset.mem_insert.1 hvis).resolve_left hpath'.1
    obtain ⟨hqv, hqp⟩ := hI.closed v hvis' hpath'.2 r hr q hq hqa
    refine ⟨Finset.mem_insert_of_mem hqv, ?_⟩
    rw [RoleWalk.enter, Finset.mem_insert, not_or]
    -- a parent that was visited before is not the role that is entered now
    exact ⟨fun he => hv (hid ▸ he ▸ hqv), hqp⟩

theorem expanded_of_parents (ha : Active G i role) (hpath : i ∉ walk.path)
    (e : Expanded G role.parentRoles (walk.enter role) walk') :
    Expanded G [i] walk (walk'.leave i) := by
  have hid : role.id = i := ha.id_eq
  have hpath' : walk'.path = insert i walk.path := by rw [e.path, RoleWalk.enter, hid]
  have hin : i ∈ walk'.visited := e.visited (by rw [← hid]; exact Finset.mem_insert_self ..)
  have herase : (walk'.leave i).path = walk.path := by
    rw [RoleWalk.leave, hpath', Finset.erase_insert hpath]
  constructor
  case inv =>
    refine ⟨e.inv.own, fun v hv hvp r hr q hq hqa => ?_⟩
    rw [herase] at hvp ⊢
    have hoff : q ∈ walk'.visited ∧ q ∉ walk'.path := by
      by_cases hvi : v = i
      · subst hvi
        rw [e.path]
        exact e.reached q (ha.unique hr ▸ hq) hqa
      · refine e.inv.closed v hv ?_ r hr q hq hqa
        rw [hpath', Finset.mem_insert, not_or]
        exact ⟨hvi, hvp⟩
    rw [hpath', Finset.mem_insert, not_or] at hoff
    exact ⟨hoff.1, hoff.2.2⟩
  case path => exact herase
  case visited => exact fun v hv => e.visited (Finset.mem_insert_of_mem hv)
  case perms => exact fun p hp => e.perms (Finset.mem_union_left _ hp)
  case reached =>
    intro k hk _
    rw [mem_singleton.1 hk]
    exact ⟨hin, hpath⟩
  case sound =>
    intro p hp
    rcases e.sound p hp with hp | ⟨q, hq, hg⟩
    · rcases Finset.mem_union.1 hp with hp | hp
      · exact .inl hp
      · exact .inr ⟨i, mem_cons_self, .own ha (mem_toFinset.1 hp)⟩
    · exact .inr ⟨i, mem_cons_self, .inherited ha hq hg⟩

theorem RoleWalk.Inv.expanded_orphan {ref roots} (hI : walk.Inv G)
    (hroots : ∀ i ∈ roots, ¬ ∃ role, Active G i role) : Expanded G roots walk (walk.orphan ref) where
  inv := { hI with }
  path := rfl
  visited := subset_rfl
  perms := subset_rfl
  reached := fun i hi ha => absurd ha (hroots i hi)
  sound := fun _ => .inl

/-- `expand_role`, by recursion on the levels left. -/
theorem expandRole_spec (hI : walk.Inv G) (h : expandRole G levels i walk = .ok walk') :
    Expanded G [i] walk walk' := by
  induction levels generalizing i walk walk' with
  | zero => cases h
  | succ levels ih =>
    unfold expandRole at h
    split at h
    · cases h
    · next hpath =>
      split at h
      · next hv =>
        cases h
        refine { Expanded.nil hI with reached := ?_, sound := fun _ => .inl }
        intro k hk _
        rw [mem_singleton.1 hk]
        exact ⟨hv, hpath⟩
      · next hv =>
        split at h
        · next hnone =>
          cases h
          refine hI.expanded_orphan (forall_mem_singleton.2 ?_)
          rintro ⟨_, ha⟩
          exact nomatch hnone.symm.trans ha.1
        · next role hsome =>
          split at h
          · next harch =>
            cases h
            refine hI.expanded_orphan (forall_mem_singleton.2 ?_)
            rintro ⟨r, ha⟩
            exact ha.2 (Option.some.inj (hsome.symm.trans ha.1) ▸ harch)
          · next harch =>
            have ha : Active G i role := ⟨hsome, harch⟩
            obtain ⟨walk1, h1, h⟩ := bind_eq_ok.1 h
            cases h
            have e := Expanded.fold (fun q w w' hw hq => ih hw hq) (hI.enter ha hv) h1
            rw [flatMap_singleton'] at e
            exact expanded_of_parents ha hpath e

/-- What entering, leaving and skipping a role keep, `expand_role` keeps. -/
theorem expandRole_invariant {P : RoleWalk → Prop}
    (henter : ∀ walk i role, P walk → Active G i role → P (walk.enter role))
    (hleave : ∀ walk i, P walk → P (walk.leave i))
    (horphan : ∀ walk ref, P walk → P (walk.orphan ref)) (hw : P walk)
    (h : expandRole G levels i walk = .ok walk') : P walk' := by
  induction levels generalizing i walk walk' with
  | zero => cases h
  | succ levels ih =>
    unfold expandRole at h
    split at h
    · cases h
    · split at h
      · cases h; exact hw
      · split at h
        · cases h; exact horphan _ _ hw
        · next role hsome =>
          split at h
          · cases h; exact horphan _ _ hw
          · next harch =>
            obtain ⟨walk1, h1, h⟩ := bind_eq_ok.1 h
            cases h
            refine hleave _ _ (foldlM_invariant (fun w q w' => ih) ?_ h1)
            exact henter _ i _ hw ⟨hsome, harch⟩

/-- A walk between two roots: nothing is in progress. -/
def RoleWalk.Complete (G : Graph) (walk : RoleWalk) : Prop := walk.Inv G ∧ walk.path = ∅

theorem RoleWalk.Complete.empty : empty.Complete G :=
  ⟨⟨by simp [RoleWalk.empty], by simp [RoleWalk.empty]⟩, rfl⟩

theorem RoleWalk.Complete.mem_perms (hw : walk.Complete G) (hv : i ∈ walk.visited)
    (hg : RoleGrants G i p) : p ∈ walk.perms := by
  induction hg with
  | own ha hp =>
    obtain ⟨r, hr, hperms⟩ := hw.1.own _ hv
    exact hperms _ (ha.unique hr ▸ hp)
  | inherited ha hq hg ih =>
    exact ih (hw.1.closed _ hv (by simp [hw.2]) _ ha _ hq hg.active).1

theorem Expanded.complete {roots} (hw : walk.Complete G) (e : Expanded G roots walk walk') :
    walk'.Complete G ∧ ∀ p, p ∈ walk'.perms ↔ p ∈ walk.perms ∨ ∃ i ∈ roots, RoleGrants G i p := by
  have hw' : walk'.Complete G := ⟨e.inv, e.path.trans hw.2⟩
  refine ⟨hw', fun p => ⟨e.sound p, ?_⟩⟩
  rintro (hp | ⟨i, hi, hg⟩)
  · exact e.perms hp
  · exact hw'.mem_perms (e.reached i hi hg.active).1 hg

theorem mem_expandRolePermissions {perms} (h : expandRolePermissions G i = .ok perms) :
    p ∈ perms ↔ RoleGrants G i p ∧ G.permissionArchived p = false := by
  obtain ⟨walk, hw, h⟩ := bind_eq_ok.1 h
  cases h
  have hc := (Expanded.complete .empty (expandRole_spec RoleWalk.Complete.empty.1 hw)).2 p
  rw [Finset.mem_filter, hc]
  simp [RoleWalk.empty]

end

/-! ## What resolution grants -/

section

def Subject.Covers (G : Graph) : Subject → UserId → Prop
  | .user u, target => u = target
  | .group g, target => MemberOf G (.user target) g

/-- Where a user gets a permission from in the requested organization. -/
inductive Source (G : Graph) (user : UserId) (org : Option OrganizationId) : Permission → Prop
  | assigned {a p} : a ∈ G.assignments → a.subject.Covers G user →
      a.scope.applies org → RoleGrants G a.roleId p → Source G user org p
  | granted {e} : e ∈ G.grants → e.userId = user → e.scope.applies org →
      Source G user org e.permission
  | extra {row i p} : row ∈ G.orgRoles → org = some row.org →
      row.user = user → G.getRoleIdByName row.role = some i → RoleGrants G i p → Source G user org p

/-- The name of a role that `i` leads to. -/
def RoleNamed (G : Graph) (i : RoleId) (name : String) : Prop :=
  ∃ v role, ReflTransGen (Composes G) i v ∧ Active G v role ∧ role.name = name

inductive RootRole (G : Graph) (user : UserId) (org : Option OrganizationId) : RoleId → Prop
  | assigned {a} : a ∈ G.assignments → a.subject.Covers G user → a.scope.applies org →
      RootRole G user org a.roleId
  | extra {row i} : row ∈ G.orgRoles → org = some row.org → row.user = user →
      G.getRoleIdByName row.role = some i → RootRole G user org i

variable {G : Graph} {user : UserId} {org : Option OrganizationId} {p : Permission}
  {walk walk' : RoleWalk} {groups : List GroupId}

theorem mem_reachableAssignments (h : bfsGroups G user = .ok groups) {a} :
    a ∈ reachableAssignments G user groups ↔ a ∈ G.assignments ∧ a.subject.Covers G user := by
  unfold reachableAssignments userAssignments groupAssignments
  simp only [mem_append, mem_filter, mem_flatMap, decide_eq_true_eq]
  constructor
  · rintro (⟨ha, hs⟩ | ⟨g, hg, ha, hs⟩)
    · exact ⟨ha, by rw [hs]; rfl⟩
    · exact ⟨ha, by rw [hs]; exact (mem_bfsGroups h).1 hg⟩
  · rintro ⟨ha, hs⟩
    cases hsub : a.subject with
    | user u =>
      have hu : u = user := by rwa [hsub] at hs
      exact .inl ⟨ha, hu ▸ rfl⟩
    | group g =>
      rw [hsub] at hs
      exact .inr ⟨g, (mem_bfsGroups h).2 hs, ha, rfl⟩

/-- The roles an extra role name leads to: one, or none. -/
def rootsOfName (G : Graph) (name : String) : List RoleId := (G.getRoleIdByName name).toList

theorem expandByName_spec {name} (hI : walk.Inv G)
    (h : expandByName G walk name = .ok walk') : Expanded G (rootsOfName G name) walk walk' := by
  unfold expandByName at h
  unfold rootsOfName
  split at h
  · next rid hrid =>
    rw [hrid]
    exact expandRole_spec hI h
  · next hnone =>
    cases h
    rw [hnone]
    exact hI.expanded_orphan (by simp)

theorem expandOrgRoles_spec (hI : walk.Inv G) (h : expandOrgRoles G user org walk = .ok walk') :
    ∃ roots, Expanded G roots walk walk' ∧ ∀ i, i ∈ roots ↔ ∃ row ∈ G.orgRoles,
      org = some row.org ∧ row.user = user ∧ G.getRoleIdByName row.role = some i := by
  unfold expandOrgRoles at h
  split at h
  · refine ⟨_, .fold (fun name w w' hw hn => expandByName_spec hw hn) hI h, fun i => ⟨?_, ?_⟩⟩
    · intro hi
      obtain ⟨name, hname, hroot⟩ := mem_flatMap.1 hi
      obtain ⟨row, ⟨hrow, horg, huser⟩, rfl⟩ := mem_additionalRoles.1 hname
      exact ⟨row, hrow, congrArg some horg.symm, huser, Option.mem_toList.1 hroot⟩
    · rintro ⟨row, hrow, horg, huser, hi⟩
      refine mem_flatMap.2 ⟨row.role, ?_, Option.mem_toList.2 hi⟩
      exact mem_additionalRoles.2 ⟨row, ⟨hrow, (Option.some.inj horg).symm, huser⟩, rfl⟩
  · cases h
    exact ⟨[], .nil hI, by simp⟩

theorem mem_addGrants : p ∈ (addGrants G user org walk).perms ↔ p ∈ walk.perms ∨
      ∃ e ∈ G.grants, e.userId = user ∧ e.scope.applies org ∧ e.permission = p := by
  unfold addGrants userPermissions extraApplies
  simp only [Finset.mem_union, mem_toFinset, mem_map, mem_filter, decide_eq_true_eq, and_assoc]

theorem RoleWalk.Complete.addGrants (hw : walk.Complete G) :
    (addGrants G user org walk).Complete G := by
  refine ⟨⟨fun v hv => ?_, hw.1.closed⟩, hw.2⟩
  obtain ⟨role, ha, hperms⟩ := hw.1.own v hv
  exact ⟨role, ha, fun p hp => Finset.mem_union_left _ (hperms p hp)⟩

/-- What resolution returns, when it returns: the permissions with a source that
the registry has not archived. -/
theorem resolveFull_permissions {r : ResolvedPermissions} (h : resolveFull G user org = .ok r) :
    p ∈ r.permissions ↔ Source G user org p ∧ G.permissionArchived p = false := by
  obtain ⟨groups, hgrps, h⟩ := bind_eq_ok.1 h
  obtain ⟨w1, hw1, h⟩ := bind_eq_ok.1 h
  obtain ⟨w2, hw2, h⟩ := bind_eq_ok.1 h
  cases h
  have hstep : ∀ (a : RoleAssignment) w w', RoleWalk.Inv G w → expandRoot G a.roleId w = .ok w' →
      Expanded G [a.roleId] w w' := fun _ _ _ => expandRole_spec
  have e := Expanded.fold hstep RoleWalk.Complete.empty.1 hw1
  obtain ⟨hc1, hp1⟩ := e.complete .empty
  obtain ⟨roots, e2, hroots⟩ := expandOrgRoles_spec hc1.addGrants.1 hw2
  have hsource : p ∈ w2.perms ↔ Source G user org p := by
    rw [(e2.complete hc1.addGrants).2, mem_addGrants, hp1]
    constructor
    · rintro (((hp | ⟨i, hi, hg⟩) | ⟨e, he, hu, happ, rfl⟩) | ⟨i, hi, hg⟩)
      · simp [RoleWalk.empty] at hp
      · obtain ⟨a, ha, hroot⟩ := mem_flatMap.1 hi
        obtain ⟨hreach, happ⟩ := mem_filter.1 ha
        obtain ⟨hmem, hcov⟩ := (mem_reachableAssignments hgrps).1 hreach
        exact .assigned hmem hcov happ (mem_singleton.1 hroot ▸ hg)
      · exact .granted he hu happ
      · obtain ⟨row, hrow, horg, hu, hi⟩ := (hroots i).1 hi
        exact .extra hrow horg hu hi hg
    · intro hs
      cases hs with
      | @assigned a _ hmem hcov happ hg =>
        have hreach := (mem_reachableAssignments hgrps).2 ⟨hmem, hcov⟩
        refine .inl (.inl (.inr ⟨a.roleId, mem_flatMap.2 ⟨a, ?_, mem_singleton_self _⟩, hg⟩))
        exact mem_filter.2 ⟨hreach, happ⟩
      | granted he hu happ => exact .inl (.inr ⟨_, he, hu, happ, rfl⟩)
      | extra hrow horg hu hi hg => exact .inr ⟨_, (hroots _).2 ⟨_, hrow, horg, hu, hi⟩, hg⟩
  rw [Finset.mem_sdiff, Finset.mem_filter, hsource]
  simp only [not_and, Bool.not_eq_true]
  constructor
  · rintro ⟨hs, harch⟩
    exact ⟨hs, harch hs⟩
  · rintro ⟨hs, harch⟩
    exact ⟨hs, fun _ => harch⟩

theorem mem_orgContexts {orgs} (h : orgContexts G user = .ok orgs) {o : OrganizationId} :
    o ∈ orgs ↔ (∃ a ∈ G.assignments, a.subject.Covers G user ∧ a.scope = .org o) ∨
      ∃ e ∈ G.grants, e.userId = user ∧ e.scope = .org o := by
  obtain ⟨groups, hgrps, h⟩ := bind_eq_ok.1 h
  cases h
  simp only [mem_dedup, mem_filterMap, mem_append, mem_map, or_and_right,
    exists_or, Scope.orgId_eq_some]
  refine or_congr ⟨?_, ?_⟩ ⟨?_, ?_⟩
  · rintro ⟨s, ⟨a, ha, rfl⟩, hs⟩
    obtain ⟨hmem, hcov⟩ := (mem_reachableAssignments hgrps).1 ha
    exact ⟨a, hmem, hcov, hs⟩
  · rintro ⟨a, hmem, hcov, hs⟩
    exact ⟨_, ⟨a, (mem_reachableAssignments hgrps).2 ⟨hmem, hcov⟩, rfl⟩, hs⟩
  · rintro ⟨s, ⟨e, he, rfl⟩, hs⟩
    obtain ⟨hmem, hu⟩ := mem_filter.1 he
    exact ⟨e, hmem, by simpa using hu, hs⟩
  · rintro ⟨e, hmem, hu, hs⟩
    exact ⟨_, ⟨e, mem_filter.2 ⟨hmem, by simpa using hu⟩, rfl⟩, hs⟩

end

end Hearth.Rbac
