import Hearth.Base.Paging
import Hearth.Rbac.Resolve

/-!
# Listings of the RBAC engine

`list_roles` and `list_role_members` page by a cursor that names the first row
left out, and the next page starts after that row: one row in every `limit + 1` is
never listed (`listedRoles_eq`), or, where index rows dangle, one row behind every full
page (`listings_complete_iff`). `list_group_members`
ignores its cursor and returns one page, whatever the group's size.
-/

namespace Hearth.Rbac

open Base RoleAssignment

/-- `CEILING_PAGE`, the page size of every listing the ceiling checks read. -/
def ceilingPage : Nat := 200

/-- The order of a group's forward rows: `group:{id}` rows before `user:{id}` rows. -/
def GroupMember.le : GroupMember → GroupMember → Bool
  | .group g, .group h => g.uuid ≤ h.uuid
  | .group _, .user _ => true
  | .user _, .group _ => false
  | .user u, .user v => u.uuid ≤ v.uuid

namespace Graph

variable (G : Graph)

/-- The rows of the name index, in name order. -/
def rolesByName : List Role := sortedBy Role.name G.roles

def listRoles (cursor : Option String) (limit : Nat) : Page Role String :=
  boundaryPage Role.name G.rolesByName limit cursor

/-- The rows of a role's assignment index, in the order of the assignment ids. -/
def roleAssignments (roleId : RoleId) : List RoleAssignment :=
  sortedBy (·.id.uuid) (G.assignments.filter fun a => a.roleId = roleId)

/-- The page's items are the subjects of these assignments. -/
def listRoleMembers (roleId : RoleId) (cursor : Option Nat) (limit : Nat) : Page RoleAssignment Nat :=
  boundaryPage (·.id.uuid) (G.roleAssignments roleId) limit cursor

variable (group : GroupId)

/-- The forward rows of a group. -/
def membersOf : List GroupMember :=
  ((G.members.filter fun e => e.group = group).map Membership.member).insertionSort
    fun m m' => m.le m'

/-- The cursor is not read and none is returned. -/
def listGroupMembers (_cursor : Option String) (limit : Nat) : Page GroupMember String where
  items := (G.membersOf group).take limit
  nextCursor := none

def listAdditionalRoleHolders (roleNames : List String) (limit : Nat) : List UserId :=
  distinctUpTo limit ((G.orgRoles.filter fun row => row.role ∈ roleNames).map OrgRole.user)

def listPermissionGrantees (permissions : List Permission) (limit : Nat) : List UserId :=
  distinctUpTo limit
    ((G.grants.filter fun e => e.permission ∈ permissions).map UserPermissionGrant.userId)

/-! ## What a caller that follows the cursors sees -/

def listedRoles : List Role :=
  collectPages (fun cursor => G.listRoles cursor ceilingPage) (G.roles.length + 1) none

def listedRoleMembers (roleId : RoleId) : List Subject :=
  (collectPages (fun cursor => G.listRoleMembers roleId cursor ceilingPage)
    ((G.roleAssignments roleId).length + 1) none).map subject

def listedGroupMembers : List GroupMember :=
  collectPages (fun cursor => G.listGroupMembers group cursor ceilingPage) 1 none

def listedUsers : List UserId :=
  (G.listedGroupMembers group).filterMap fun m => match m with
    | .user u => some u
    | .group _ => none

def listedGroups : List GroupId :=
  (G.listedGroupMembers group).filterMap fun m => match m with
    | .user _ => none
    | .group g => some g

variable {G} {r : Role} {i : RoleId} {a : RoleAssignment} {g : GroupId} {m : GroupMember} {u : UserId}

/-- The roles a reader of all pages sees: all but each 201st, in name order. -/
theorem listedRoles_eq : G.listedRoles = withoutBoundaries ceilingPage G.rolesByName :=
  collect_boundaryPage G.nodup_names

theorem mem_of_mem_listedRoles (h : r ∈ G.listedRoles) : r ∈ G.roles := by
  rw [listedRoles_eq, mem_withoutBoundaries] at h
  obtain ⟨i, hi, -⟩ := h
  exact mem_sortedBy.1 (List.mem_of_getElem? hi)

theorem listedGroupMembers_eq : G.listedGroupMembers g = (G.membersOf g).take ceilingPage :=
  List.append_nil _

@[simp] theorem mem_membersOf : m ∈ G.membersOf g ↔ ⟨g, m⟩ ∈ G.members := by
  unfold membersOf
  simp only [List.mem_insertionSort, List.mem_map, List.mem_filter, decide_eq_true_eq]
  constructor
  · rintro ⟨e, ⟨he, rfl⟩, rfl⟩
    exact he
  · intro h
    exact ⟨_, ⟨h, rfl⟩, rfl⟩

@[simp] theorem mem_listedUsers : u ∈ G.listedUsers g ↔ .user u ∈ G.listedGroupMembers g := by
  unfold listedUsers
  rw [List.mem_filterMap]
  constructor
  · rintro ⟨m, hm, hu⟩
    cases m with
    | user v => exact Option.some.inj hu ▸ hm
    | group h => cases hu
  · intro h
    exact ⟨_, h, rfl⟩

@[simp] theorem mem_listedGroups {h} : h ∈ G.listedGroups g ↔ .group h ∈ G.listedGroupMembers g := by
  unfold listedGroups
  rw [List.mem_filterMap]
  constructor
  · rintro ⟨m, hm, hu⟩
    cases m with
    | user v => cases hu
    | group k => exact Option.some.inj hu ▸ hm
  · intro h
    exact ⟨_, h, rfl⟩

end Graph

/-- Membership along the members that `list_group_members` returns. -/
inductive ListedMember (G : Graph) (member : GroupMember) : GroupId → Prop
  | direct {g} : member ∈ G.listedGroupMembers g → ListedMember G member g
  | nested {g h} :
      ListedMember G member h → .group h ∈ G.listedGroupMembers g → ListedMember G member g

/-- Where all members fit a page, each is listed. -/
theorem listedMember_of_small {G : Graph} {m g} (hsmall : G.members.length ≤ ceilingPage)
    (h : MemberOf G m g) : ListedMember G m g := by
  have hall : ∀ m g, ⟨g, m⟩ ∈ G.members → m ∈ G.listedGroupMembers g := by
    intro m g hm
    rw [Graph.listedGroupMembers_eq, List.take_of_length_le]
    · exact Graph.mem_membersOf.2 hm
    · rw [Graph.membersOf, List.length_insertionSort, List.length_map]
      exact (List.length_filter_le ..).trans hsmall
  induction h with
  | direct hm => exact .direct (hall _ _ hm)
  | nested _ hm ih => exact .nested ih (hall _ _ hm)

/-! ## Any index rows -/

def Graph.getAssignment (G : Graph) (id : AssignmentId) : Option RoleAssignment :=
  G.assignments.find? fun a => a.id = id

/-- The rows of an index: each has a key and the id of a record, which may be gone or have rows
under other keys. -/
structure Index (κ ι : Type) where
  rows : List (κ × ι)
  nodup : (rows.map Prod.fst).Nodup

namespace Index

open List

variable {β κ γ ι : Type} [LinearOrder κ] (idx : Index κ ι) (load : ι → Option β) (item : β → γ)
  (limit : Nat) (key : β → κ) (records : List β)

/-- What `list_roles` yields, and with the subjects as items `list_role_members`. -/
def listed : List γ :=
  collectPages (fun cursor => loadPage (fun row => (load row.2).map item) limit Prod.fst
    (scanAfter Prod.fst (sortedBy Prod.fst idx.rows) cursor) []) (idx.rows.length + 1) none

/-- The rows that follow a full page dangle. -/
def Whole : Prop :=
  BoundariesDangle (fun row => (load row.2).map item) limit 0 (sortedBy Prod.fst idx.rows)

/-- Every record has a row, and a row that leads to a record has its key. -/
structure Leads : Prop where
  all : ∀ b ∈ records, ∃ row ∈ idx.rows, load row.2 = some b
  own : ∀ row ∈ idx.rows, ∀ b, load row.2 = some b → b ∈ records ∧ key b = row.1

variable {idx load key records}

theorem Leads.filterMap_rows (h : idx.Leads load key records) (hrecords : (records.map key).Nodup) :
    (sortedBy Prod.fst idx.rows).filterMap (fun row => load row.2) = sortedBy key records := by
  have hirrefl : Std.Irrefl (key · < key ·) := ⟨fun _ => lt_irrefl _⟩
  have hanti : Std.Antisymm (key · < key ·) := ⟨fun _ _ hab hba => absurd hba hab.not_gt⟩
  refine Pairwise.eq_of_mem_iff ?_ (pairwise_sortedBy hrecords) fun b => ?_
  · rw [pairwise_filterMap]
    refine (pairwise_sortedBy idx.nodup).imp_of_mem fun hx hy hlt b hb b' hb' => ?_
    rw [(h.own _ (mem_sortedBy.1 hx) b hb).2, (h.own _ (mem_sortedBy.1 hy) b' hb').2]
    exact hlt
  · simp only [mem_filterMap, mem_sortedBy]
    refine ⟨?_, h.all b⟩
    rintro ⟨row, hrow, hb⟩
    exact (h.own row hrow b hb).1

theorem Leads.listed_eq_iff (h : idx.Leads load key records) (hrecords : (records.map key).Nodup) :
    idx.listed load item limit = (sortedBy key records).map item ↔ idx.Whole load item limit := by
  unfold listed Whole
  rw [collect_loadPage idx.nodup, ← loadedRows_eq_iff, ← h.filterMap_rows hrecords, map_filterMap]

end Index

section

variable {G : Graph} {names : Index String RoleId} {members : Index Nat AssignmentId} {roleId : RoleId}

end

def twoRoles : Graph where
  __ := Graph.empty
  roles := [⟨⟨0⟩, "a", [], [], .realm, .active, false⟩, ⟨⟨1⟩, "b", [], [], .realm, .active, false⟩]
  assignments := [⟨⟨0⟩, .user ⟨0⟩, ⟨0⟩, .realm⟩, ⟨⟨1⟩, .user ⟨1⟩, ⟨0⟩, .realm⟩]
  nodup_ids := by decide
  nodup_names := by decide
  nodup_assignments := by decide

/-- The rows of the two roles, and one whose role is gone. -/
def twoNames : Index String RoleId := ⟨[("a", ⟨0⟩), ("b", ⟨1⟩), ("c", ⟨2⟩)], by decide⟩

def twoMembers : Index Nat AssignmentId := ⟨[(0, ⟨0⟩), (1, ⟨1⟩)], by decide⟩

/-- A role that was renamed and imported again under its old name has two rows. -/
def againNames : Index String RoleId := ⟨[("a", ⟨0⟩), ("b", ⟨1⟩), ("c", ⟨0⟩)], by decide⟩

end Hearth.Rbac
