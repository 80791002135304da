import Hearth.Base.VersionedCache
import Hearth.Rbac.Rows

/-!
# The decision cache

`resolve_full_cached` keeps what resolution computed under the generation of the
realm, and every write is meant to be followed by a bump of the generation. The
rows, the generation and the entries are those of one realm.

Some writes are not: `delete_group`, `unassign_role` and `purge_user_from_realm`
delete rows straight from the storage. Where such a write is the last one, or the
write after it fails, the operation ends with an entry in the cache that was
computed before it.

* `resolution_cache_fresh`: what a call returns is what resolution computes at some
  moment after the last operation that had returned when the call began, in every
  run in which operations return only once every write has been followed by a bump,
  and no write changes a row that a resolution under way has still to read;
* `deleted_group_stays_cached`: without that, a deleted group stays in the answers.
-/

namespace Hearth.Rbac

open Base RowQuery

abbrev RowScript := Script Answer (Rows → Rows)

/-! ## Deletes -/

variable (group : GroupId)

def dropForward (member : GroupMember) (rows : Rows) : Rows :=
  { rows with forward := rows.forward.filter fun e => e ≠ (group, member) }

def dropReverse (member : GroupMember) (group : GroupId) (rows : Rows) : Rows :=
  { rows with reverse := rows.reverse.filter fun e => e ≠ (member, group) }

def dropAssignment (id : AssignmentId) (rows : Rows) : Rows :=
  { rows with assignments := rows.assignments.filter fun a => a.id ≠ id }

def dropSubjectIndex (subject : Subject) (id : AssignmentId) (rows : Rows) : Rows :=
  match subject with
  | .user u => { rows with userIndex := rows.userIndex.filter fun e => e ≠ (u, id) }
  | .group g => { rows with groupIndex := rows.groupIndex.filter fun e => e ≠ (g, id) }

def dropRoleIndex (roleId : RoleId) (id : AssignmentId) (rows : Rows) : Rows :=
  { rows with roleIndex := rows.roleIndex.filter fun e => e ≠ (roleId, id) }

def dropGroup (rows : Rows) : Rows :=
  { rows with groups := rows.groups.filter fun g => g.id ≠ group }

def dropSlug (slug : String) (rows : Rows) : Rows :=
  { rows with slugs := rows.slugs.filter fun e => e.1 ≠ slug }

/-! ## An operation with deletes of its own -/

/-- An assignment of a subject that goes: its row and the index row under its role,
deleted as they are, and then the index row under the subject. -/
def purgeAssignment (subject : Subject) (id : AssignmentId) (rest : RowScript) : RowScript :=
  .ask (.assignment id) fun row =>
    let last := .write (dropSubjectIndex subject id) true rest
    match row with
    | some a => .write (dropAssignment id) false (.write (dropRoleIndex a.roleId id) false last)
    | none => last

def deleteGroupScript : RowScript :=
  .ask (.group group) fun
    | none => .done
    | some g =>
      if g.yamlManaged then .done
      else
        -- the group's own rows go last, deleted as they are
        let rows := .write (dropGroup group) false (.write (dropSlug g.slug) false .done)
        let assignments := .ask (.groupIndex group) fun ids =>
          .forEach (purgeAssignment (.group group)) rows ids
        let parents := .ask (.reverseEdges (.group group)) fun parents =>
          .forEach (fun parent rest =>
            .write (dropReverse (.group group) parent) true
              (.write (dropForward parent (.group group)) true rest)) assignments parents
        .ask (.forwardEdges group) fun members =>
          .forEach (fun member rest =>
            .write (dropForward group member) true (.write (dropReverse member group) false rest))
            parents members

/-! ## The cache -/

/-- Entries are kept by user and organization; only answers are kept. -/
def resolutionCache : CacheSpec Answer Rows (UserId × Option OrganizationId)
    (Except RbacError ResolvedPermissions) (Rows → Rows) where
  answer := Rows.answer
  apply := fun w => w
  compute := fun key => (resolveFullReads key.1 key.2).run
  cacheable := Except.isOk

abbrev CacheState := CacheSystem Answer Rows (UserId × Option OrganizationId)
  (Except RbacError ResolvedPermissions) (Rows → Rows)

/-- What `resolve_full` computes on the rows. -/
def Rows.resolveFull (rows : Rows) (user : UserId) (org : Option OrganizationId) :
    Except RbacError ResolvedPermissions :=
  Reads.evalE rows.answer (resolveFullReads user org)

def CacheRun (cond : CacheEvent Answer (UserId × Option OrganizationId) (Rows → Rows) →
    CacheState → Prop) (rows : Rows) : CacheState → Prop :=
  Reachable (· = .init rows) (LabelledWith (fun ev s s' => cacheStep resolutionCache s ev = some s') cond)

/-- The operations are any scripts of reads and writes, so those of the engine among
them. -/
theorem resolution_cache_fresh {rows : Rows} {s : CacheState} {c since : Nat} {user : UserId}
    {org : Option OrganizationId} {r : Except RbacError ResolvedPermissions}
    (h : CacheRun (CacheGuard resolutionCache) rows s)
    (hret : s.reads c = .returned (user, org) since r) :
    ∃ t, since ≤ t ∧ t ≤ s.now ∧ r = (s.storeAt t).resolveFull user org :=
  (cacheInv_reachable h).holds hret

/-! ## A deleted group -/

/-- A group with one member. -/
def staffRows : Rows where
  forward := [(⟨1⟩, .user ⟨1⟩)]
  reverse := [(.user ⟨1⟩, ⟨1⟩)]
  assignments := []
  userIndex := []
  groupIndex := []
  roleIndex := []
  roles := []
  roleNames := []
  groups := [⟨⟨1⟩, "Staff", "staff", false⟩]
  slugs := [("staff", ⟨1⟩)]
  grants := []
  archived := []
  orgRoles := []

/-- The row under the member is deleted and bumped for, and the member is resolved
after that; the row under the group goes while the resolution reads. -/
theorem resolution_cache_fresh_staff :
    ∃ (s : CacheState) (r : Except RbacError ResolvedPermissions),
      CacheRun (CacheGuard resolutionCache) staffRows s ∧ s.reads 0 = .returned (⟨1⟩, none) 1 r ∧
        ∃ t, 1 ≤ t ∧ t ≤ s.now ∧ r = (s.storeAt t).resolveFull ⟨1⟩ none := by
  have h0 : CacheRun (CacheGuard resolutionCache) staffRows (.init staffRows) := .start rfl
  have h1 := h0.next ⟨.begin 0 (.write (dropReverse (.user ⟨1⟩) ⟨1⟩) true .done), trivial, rfl⟩
  have h2 := h1.next ⟨.write 0, nofun, rfl⟩
  have h3 := h2.next ⟨.bump 0, trivial, rfl⟩
  have h4 := h3.next ⟨.finishWrite 0, rfl, rfl⟩
  have h5 := h4.next ⟨.start 0 (⟨1⟩, none), trivial, rfl⟩
  have h6 := h5.next ⟨.loadVersion 0, trivial, rfl⟩
  have h7 := h6.next ⟨.loadEntry 0, trivial, rfl⟩
  have h8 := (h7.next ⟨.capture 0, trivial, rfl⟩).next ⟨.read 0, trivial, rfl⟩
  have h9 := h8.next ⟨.begin 1 (.write (dropForward ⟨1⟩ (.user ⟨1⟩)) false .done), trivial, rfl⟩
  have h10 := h9.next ⟨.write 1, fun _ _ _ hw => (by
    unfold Unmixed
    cases hw
    intro c key since version rest hc
    cases c with
    | zero => cases hc; exact .inr ⟨rfl, rfl, trivial⟩
    | succ c => cases hc), rfl⟩
  have h11 := (h10.next ⟨.read 0, trivial, rfl⟩).next ⟨.read 0, trivial, rfl⟩
  have h12 := (h11.next ⟨.finish 0, trivial, rfl⟩).next ⟨.recheck 0, trivial, rfl⟩
  have h13 := h12.next ⟨.fill 0, trivial, rfl⟩
  obtain ⟨s, hs, hret⟩ : ∃ s : CacheState, CacheRun (CacheGuard resolutionCache) staffRows s ∧
      s.reads 0 = .returned (⟨1⟩, none) 1 (.ok ⟨∅, ∅, ∅, ∅⟩) := ⟨_, h13, rfl⟩
  exact ⟨s, _, hs, hret, resolution_cache_fresh hs hret⟩

/-- The member is resolved between the bump for the row under the group and the
delete of the row under the member; nothing is bumped after that. -/
def staleEvents : List (CacheEvent Answer (UserId × Option OrganizationId) (Rows → Rows)) :=
  [.begin 0 (deleteGroupScript ⟨1⟩), .readRow 0, .readRow 0, .write 0, .bump 0,
    .start 0 (⟨1⟩, none), .loadVersion 0, .loadEntry 0, .capture 0, .read 0, .read 0, .read 0, .read 0,
    .read 0, .read 0, .finish 0, .recheck 0, .fill 0,
    .write 0, .readRow 0, .readRow 0, .write 0, .write 0, .finishWrite 0,
    .start 1 (⟨1⟩, none), .loadVersion 1, .loadEntry 1]

theorem staleEvents_run :
    (staleEvents.foldlM (cacheStep resolutionCache) (.init staffRows)).isSome := by
  decide +kernel

def staleState : CacheState := (staleEvents.foldlM (cacheStep resolutionCache) (.init staffRows)).get staleEvents_run

/-- The call began after the group was gone, and answers with it. -/
theorem deleted_group_stays_cached : CacheRun (fun _ _ => True) staffRows staleState ∧
      staleState.reads 1 = .returned (⟨1⟩, none) 4 (.ok ⟨∅, {"staff"}, ∅, ∅⟩) ∧
      ∀ t, 4 ≤ t → t ≤ staleState.now → (staleState.storeAt t).resolveFull ⟨1⟩ none = .ok ⟨∅, ∅, ∅, ∅⟩ := by
  refine ⟨?_, rfl, fun t ht htn => ?_⟩
  · exact .of_events (.start rfl) (Option.some_get _).symm
  · obtain rfl : t = 4 := le_antisymm htn ht
    decide +kernel

end Hearth.Rbac
