import Hearth.Base.Run
import Hearth.Rbac.Mutate

/-!
# What creating a role changes

A role is referred to by its id in an assignment and in a composition, and by its
name in an extra role of an organization. The id of a new role is new. Its name
need not be: a rename leaves the rows under the old name, so `create_role` with
that name gives the new role to whoever they name.

`resolveFull_insertRole`: nothing changes for a user and an organization with no
row of that name.
-/

namespace Hearth.Rbac

open Base List Rbac.Graph

/-! ## Lookups -/

section

variable {G : Graph} {role : Role} {hid : role.id ∉ G.roles.map Role.id}
  {hname : role.name ∉ G.roles.map Role.name} {i : RoleId} {name : String}

theorem getRole_insertRole (hi : i ≠ role.id) :
    (G.insertRole role hid hname).getRole i = G.getRole i := by
  unfold getRole insertRole
  rw [find?_append, find?_singleton, if_neg (by simpa using hi.symm), Option.or_none]

theorem getRole_insertRole_self : (G.insertRole role hid hname).getRole role.id = some role :=
  getRole_eq_some.2 ⟨mem_append_right _ (mem_singleton_self _), rfl⟩

theorem getRoleIdByName_insertRole (hn : name ≠ role.name) :
    (G.insertRole role hid hname).getRoleIdByName name = G.getRoleIdByName name := by
  unfold getRoleIdByName insertRole
  rw [find?_append, find?_singleton, if_neg (by simpa using hn.symm), Option.or_none]

end

/-! ## The frame -/

section

variable {G G' : Graph} {role : Role} {hid : role.id ∉ G.roles.map Role.id}
  {hname : role.name ∉ G.roles.map Role.name} {user : UserId} {org : Option OrganizationId}

section

variable (hgroup : ∀ g, G'.parentGroupsOf (.group g) = G.parentGroupsOf (.group g))

include hgroup

/-- The walk reads the parents of what is queued, and queues groups. -/
theorem bfsLoop_congr {n queue visited} (h : ∀ x ∈ queue, G'.parentGroupsOf x.1 = G.parentGroupsOf x.1) :
    bfsLoop G' n queue visited = bfsLoop G n queue visited := by
  induction n generalizing queue visited with
  | zero => rfl
  | succ n ih =>
    cases queue with
    | nil => rfl
    | cons x queue =>
      obtain ⟨hx, hqueue⟩ := forall_mem_cons.1 h
      simp only [bfsLoop, hx]
      cases hfold : (G.parentGroupsOf x.1).foldlM (bfsPush (x.2 + 1)) (visited, queue) with
      | error => rfl
      | ok found =>
        refine ih fun y hy => ?_
        rcases (bfsPush_fold hfold).pushed y hy with hy | ⟨g, -, hy⟩
        · exact hqueue y hy
        · rw [hy]
          exact hgroup g

theorem bfsGroups_congr (huser : G'.parentGroupsOf (.user user) = G.parentGroupsOf (.user user)) :
    bfsGroups G' user = bfsGroups G user :=
  bfsLoop_congr hgroup (forall_mem_singleton.2 huser)

end

/-- No role of the graph is composed of the new one. -/
theorem expandRole_insertRole (hfresh : G.FreshRole role.id) {levels i walk} (hi : i ≠ role.id) :
    expandRole (G.insertRole role hid hname) levels i walk = expandRole G levels i walk := by
  induction levels generalizing i walk with
  | zero => rfl
  | succ levels ih =>
    unfold expandRole
    rw [getRole_insertRole hi]
    cases hget : G.getRole i with
    | none => rfl
    | some r =>
      have hpars : ∀ parent ∈ r.parentRoles, ∀ walk,
          expandRole (G.insertRole role hid hname) levels parent walk = expandRole G levels parent walk :=
        fun parent hp walk => ih fun he =>
          (hfresh.1 r (getRole_eq_some.1 hget).1).2 (he ▸ hp)
      simp [foldlM_congr_mem hpars]

theorem mem_assignments_of_reachable {groups a}
    (ha : a ∈ reachableAssignments G user groups) : a ∈ G.assignments := by
  unfold reachableAssignments userAssignments groupAssignments at ha
  simp only [mem_append, mem_filter, mem_flatMap] at ha
  rcases ha with ⟨ha, -⟩ | ⟨_, -, ha, -⟩ <;> exact ha

section

variable (hfresh : G.FreshRole role.id) (hrows : ∀ row ∈ G.orgRoles, row.user = user → org = some row.org → row.role ≠ role.name)

include hfresh hrows

theorem expandOrgRoles_insertRole (walk : RoleWalk) :
    expandOrgRoles (G.insertRole role hid hname) user org walk = expandOrgRoles G user org walk := by
  cases org with
  | none => rfl
  | some oid =>
    refine foldlM_congr_mem (fun name hn walk => ?_) walk
    have hne : name ≠ role.name := by
      obtain ⟨row, ⟨hrow, horg, huser⟩, rfl⟩ := mem_additionalRoles.1 hn
      exact hrows row hrow huser (congrArg some horg.symm)
    unfold expandByName
    rw [getRoleIdByName_insertRole hne]
    cases hid' : G.getRoleIdByName name with
    | none => rfl
    | some rid =>
      obtain ⟨r, hr, -, rfl⟩ := getRoleIdByName_eq_some.1 hid'
      exact expandRole_insertRole hfresh (hfresh.1 r hr).1

/-- A new role changes nothing where no extra role has its name. -/
theorem resolveFull_insertRole :
    resolveFull (G.insertRole role hid hname) user org = resolveFull G user org := by
  refine bind_eq_bind (bfsGroups_congr (fun _ => rfl) rfl) fun groups => ?_
  refine bind_eq_bind (foldlM_congr_mem (fun a ha walk => ?_) _) fun walk => ?_
  · have hmem := mem_assignments_of_reachable (mem_filter.1 ha).1
    exact expandRole_insertRole hfresh (hfresh.2 a hmem)
  · exact bind_eq_bind (expandOrgRoles_insertRole hfresh hrows _) fun _ => rfl

end

end

/-! ## The names of the roles -/

section

/-- A walk has collected the names of the roles it visited. -/
def RoleWalk.Named (G : Graph) (walk : RoleWalk) : Prop :=
  ∀ v ∈ walk.visited, ∀ role, Active G v role → role.name ∈ walk.roleNames

variable {G : Graph} {walk walk' : RoleWalk} {role : Role} {i : RoleId} {user : UserId}
  {org : Option OrganizationId}

theorem RoleWalk.Named.empty : empty.Named G := by simp [Named, RoleWalk.empty]

theorem RoleWalk.Named.enter (hw : walk.Named G) (ha : Active G i role) : (walk.enter role).Named G := by
  intro v hv r hr
  rcases Finset.mem_insert.1 hv with rfl | hv
  · rw [ha.id_eq] at hr
    rw [← ha.unique hr]
    exact Finset.mem_insert_self ..
  · exact Finset.mem_insert_of_mem (hw v hv r hr)

theorem expandRole_named {levels} (hw : walk.Named G)
    (h : expandRole G levels i walk = .ok walk') : walk'.Named G := by
  refine expandRole_invariant ?_ ?_ ?_ hw h
  · exact fun _ _ _ hw => hw.enter
  · exact fun _ _ hw => hw
  · exact fun _ _ hw => hw

theorem expandByName_named {name} (hw : walk.Named G)
    (h : expandByName G walk name = .ok walk') : walk'.Named G := by
  unfold expandByName at h
  split at h
  · exact expandRole_named hw h
  · cases h
    exact hw

theorem expandOrgRoles_named (hw : walk.Named G) (h : expandOrgRoles G user org walk = .ok walk') :
    walk'.Named G := by
  unfold expandOrgRoles at h
  split at h
  · exact foldlM_invariant (fun _ _ _ => expandByName_named) hw h
  · cases h
    exact hw

/-- A complete walk that has visited `i` names whatever it leads to. -/
theorem RoleWalk.Complete.mem_roleNames {name} (hw : walk.Complete G) (hN : walk.Named G)
    (hi : (∃ role, Active G i role) → i ∈ walk.visited) (h : RoleNamed G i name) :
    name ∈ walk.roleNames := by
  obtain ⟨v, role, hpath, ha, rfl⟩ := h
  refine hN v ?_ role ha
  induction hpath generalizing role with
  | refl => exact hi ⟨role, ha⟩
  | tail _ hedge ih =>
    obtain ⟨r, hr, hq⟩ := hedge
    exact (hw.1.closed _ (ih r hr) (by simp [hw.2]) r hr _ hq ⟨role, ha⟩).1

theorem resolveFull_roles {r i name} (h : resolveFull G user org = .ok r)
    (hroot : RootRole G user org i) (hname : RoleNamed G i name) : name ∈ r.roles := by
  obtain ⟨groups, hgrps, h⟩ := bind_eq_ok.1 h
  obtain ⟨w1, hw1, h⟩ := bind_eq_ok.1 h
  obtain ⟨w2, hw2, h⟩ := bind_eq_ok.1 h
  cases h
  have hstep : ∀ (a : RoleAssignment) w w', RoleWalk.Inv G w → expandRoot G a.roleId w = .ok w' →
      Expanded G [a.roleId] w w' := fun _ _ _ => expandRole_spec
  have e1 := Expanded.fold hstep RoleWalk.Complete.empty.1 hw1
  have hc1 : (addGrants G user org w1).Complete G := (e1.complete .empty).1.addGrants
  obtain ⟨roots, e2, hroots⟩ := expandOrgRoles_spec hc1.1 hw2
  have hN1 : w1.Named G := foldlM_invariant (fun _ _ _ => expandRole_named) .empty hw1
  have hN1' : (addGrants G user org w1).Named G := hN1
  have hN2 := expandOrgRoles_named hN1' hw2
  refine (e2.complete hc1).1.mem_roleNames hN2 (fun hi => ?_) hname
  cases hroot with
  | @assigned a hmem hcov happ =>
    have hreach := (mem_reachableAssignments hgrps).2 ⟨hmem, hcov⟩
    refine e2.visited (e1.reached _ (mem_flatMap.2 ⟨a, ?_, mem_singleton_self _⟩) hi).1
    exact mem_filter.2 ⟨hreach, happ⟩
  | extra hrow horg hu hid => exact (e2.reached i ((hroots i).2 ⟨_, hrow, horg, hu, hid⟩) hi).1

end

/-! ## Creating a role -/

section

variable {G G' : Graph} {id : RoleId} {hid : G.FreshRole id} {req : CreateRoleRequest}

/-- Creating a role leaves every resolution as it was, refusals and orphans included, where no
extra role has its name. -/
theorem create_role_grants_nothing (h : createRole G id hid req = .ok G')
    (hrows : ∀ row ∈ G.orgRoles, row.role ≠ req.name) (user : UserId) (org : Option OrganizationId) :
    resolveFull G' user org = resolveFull G user org := by
  obtain ⟨-, hnew, hname, rfl⟩ := createRole_eq_ok h
  exact resolveFull_insertRole hid fun row hrow _ _ => hrows row hrow

def emptyRole (id : Nat) (name : String) : Role := ⟨⟨id⟩, name, [], [], .realm, .active, false⟩

/-- One role, which user 1 has as an extra role of the organization 7 under the name
`held`. -/
def oneExtra (role : Role) (held : String) : Graph where
  __ := Graph.empty
  roles := [role]
  orgRoles := [⟨⟨7⟩, ⟨1⟩, held⟩]
  nodup_ids := nodup_singleton _
  nodup_names := nodup_singleton _

theorem freshRole_oneExtra {name held : String} : (oneExtra (emptyRole 0 name) held).FreshRole ⟨1⟩ :=
  ⟨fun _ hr => mem_singleton.1 hr ▸ ⟨by simp [emptyRole], not_mem_nil⟩, nofun⟩

/-- After the role `editor` was given and renamed, the row still says `editor`. -/
theorem renamed_reachable : Reachable (· = .empty) (fun G G' => ∃ op, Call op G G')
    (oneExtra (emptyRole 0 "writer") "editor") := by
  have h0 : Reachable (· = .empty) (fun G G' => ∃ op, Call op G G') .empty := .start rfl
  have hcreate : createRole .empty ⟨0⟩ (freshRole_empty _) ⟨"editor", [], [], .realm, false⟩ =
      .ok (empty.insertRole (emptyRole 0 "editor") nofun nofun) := by decide +kernel
  have hadd : addAdditionalRole (empty.insertRole (emptyRole 0 "editor") nofun nofun)
      ⟨⟨7⟩, ⟨1⟩, "editor"⟩ = .ok (oneExtra (emptyRole 0 "editor") "editor") := by decide +kernel
  have hrename : updateRole (oneExtra (emptyRole 0 "editor") "editor") ⟨0⟩
      ⟨some "writer", none, none, none, none, false⟩ =
      .ok (oneExtra (emptyRole 0 "writer") "editor") := by decide +kernel
  have h1 := h0.next ⟨.createRole ⟨0⟩ _, .accepted ⟨freshRole_empty _, hcreate.symm⟩⟩
  have h2 := h1.next ⟨.addAdditionalRole _, .accepted hadd.symm⟩
  exact h2.next ⟨.updateRole ⟨0⟩ _, .accepted hrename.symm⟩

theorem create_role_grants_nothing_viewer :
    ∃ G' hid, createRole (oneExtra (emptyRole 0 "editor") "editor") ⟨1⟩ hid
        ⟨"viewer", ["docs.read"], [], .realm, false⟩ = .ok G' ∧
      resolveFull G' ⟨1⟩ (some ⟨7⟩) = .ok ⟨{"editor"}, ∅, ∅, ∅⟩ ∧
      ∀ user org, resolveFull G' user org =
        resolveFull (oneExtra (emptyRole 0 "editor") "editor") user org := by
  have hok : createRole (oneExtra (emptyRole 0 "editor") "editor") ⟨1⟩ freshRole_oneExtra
      ⟨"viewer", ["docs.read"], [], .realm, false⟩ =
      .ok ((oneExtra (emptyRole 0 "editor") "editor").insertRole
        ⟨⟨1⟩, "viewer", ["docs.read"], [], .realm, .active, false⟩ (by decide) (by decide)) := rfl
  exact ⟨_, _, hok, by decide +kernel, create_role_grants_nothing hok (by decide)⟩

/-- Creating `editor` again gives user 1 its permissions. -/
theorem create_role_grants_renamed_row :
    ∃ G G' hid, Reachable (· = .empty) (fun G G' => ∃ op, Call op G G') G ∧
      createRole G ⟨1⟩ hid ⟨"editor", ["docs.write"], [], .realm, false⟩ = .ok G' ∧
      resolveFull G ⟨1⟩ (some ⟨7⟩) = .ok ⟨∅, ∅, ∅, {.roleName "editor"}⟩ ∧
      resolveFull G' ⟨1⟩ (some ⟨7⟩) = .ok ⟨{"editor"}, ∅, {"docs.write"}, ∅⟩ := by
  refine ⟨oneExtra _ "editor", (oneExtra (emptyRole 0 "writer") "editor").insertRole
      ⟨⟨1⟩, "editor", ["docs.write"], [], .realm, .active, false⟩ (by decide) (by decide),
    freshRole_oneExtra, renamed_reachable, ?_, ?_, ?_⟩
  · rfl
  · decide +kernel
  · decide +kernel

end

end Hearth.Rbac
