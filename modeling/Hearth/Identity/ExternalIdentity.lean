import Mathlib.Data.List.AList
import Hearth.Base.Run

/-!
# Links to external identities

A login by an identity provider looks its subject up in one row family
(`fed:ext:{idp}:{sub}`). Unlinking, listing and the deletion of a user work from
another (`fed:ext_fwd:{user}:{idp}`), which has room for one subject of a user at a
provider.

Results:
1. `external_identities_cut_off`: as long as no user is linked at a provider under a
   second subject, or under an empty one, the two families are inverse, and what was
   unlinked or deleted no longer resolves.
2. `unlinked_identity_resolves`: a second link hides the first from `unlink`.
-/

namespace Hearth.Identity

open Base AList Option

inductive LinkError
  | federationAlreadyLinked
  | federationNotLinked
  | userNotFound
  deriving DecidableEq

/-- The users that have a record, and the two families of link rows. -/
structure LinkRows (U P : Type) where
  users : U → Bool
  ext : AList fun _ : P × String => U
  fwd : AList fun _ : U × P => String

namespace LinkRows

variable {U P : Type} [DecidableEq U] [DecidableEq P] (rows : LinkRows U P)

def findUserByExternalIdentity (idp : P) (sub : String) : Option U := rows.ext.lookup (idp, sub)

variable (user : U)

def listExternalIdentitiesForUser : List (P × String) :=
  (rows.fwd.entries.filter fun e => e.1.1 = user).map fun e => (e.1.2, e.2)

def linkExternalIdentity (idp : P) (sub : String) : Except LinkError Unit × LinkRows U P :=
  match rows.ext.lookup (idp, sub) with
  | some existing =>
    if existing ≠ user then (.error .federationAlreadyLinked, rows) else (.ok (), put)
  | none => (.ok (), put)
where
  put := { rows with ext := rows.ext.insert (idp, sub) user, fwd := rows.fwd.insert (user, idp) sub }

def unlinkExternalIdentity (idp : P) : Except LinkError Unit × LinkRows U P :=
  match rows.fwd.lookup (user, idp) with
  | none => (.error .federationNotLinked, rows)
  | some sub =>
    (.ok (), { rows with ext := rows.ext.erase (idp, sub), fwd := rows.fwd.erase (user, idp) })

/-- One row of the loop of `cascade_user_links`. -/
def dropLink (rows : LinkRows U P) (link : P × String) : LinkRows U P :=
  { rows with
    ext := if link.2 = "" then rows.ext else rows.ext.erase link
    fwd := rows.fwd.erase (user, link.1) }

def cascadeUserLinks : LinkRows U P :=
  (rows.listExternalIdentitiesForUser user).foldl (dropLink user) rows

/-- Without a record the rows are swept all the same. -/
def deleteUser : Except LinkError Unit × LinkRows U P :=
  let swept := rows.cascadeUserLinks user
  if rows.users user then (.ok (), { swept with users := Function.update swept.users user false })
  else (.error .userNotFound, swept)

/-! ## The two families are inverse -/

structure Inverse : Prop where
  iff : ∀ {user idp sub}, rows.fwd.lookup (user, idp) = some sub ↔ rows.ext.lookup (idp, sub) = some user
  nonempty : ∀ {user idp}, rows.fwd.lookup (user, idp) ≠ some ""

variable {rows} {user : U} {idp : P} {sub : String}

theorem mem_listExternalIdentitiesForUser :
    (idp, sub) ∈ rows.listExternalIdentitiesForUser user ↔ rows.fwd.lookup (user, idp) = some sub := by
  refine trans ?_ mem_lookup_iff.symm
  simp only [listExternalIdentitiesForUser, List.mem_map, List.mem_filter, decide_eq_true_eq, Prod.mk.injEq]
  constructor
  · rintro ⟨⟨⟨_, _⟩, _⟩, ⟨he, rfl⟩, rfl, rfl⟩
    exact he
  · exact fun he => ⟨_, ⟨he, rfl⟩, rfl, rfl⟩

/-- The user is linked at the provider under this subject or not at all. -/
def Fits (rows : LinkRows U P) (user : U) (link : P × String) : Prop :=
  link.2 ≠ "" ∧ ∀ old, rows.fwd.lookup (user, link.1) = some old → old = link.2

theorem Inverse.put (h : rows.Inverse) (hfits : rows.Fits user (idp, sub))
    (hext : ∀ v, rows.ext.lookup (idp, sub) = some v → v = user) :
    (linkExternalIdentity.put rows user idp sub).Inverse := by
  obtain ⟨hiff, hne⟩ := h
  obtain ⟨hsub, hfwd⟩ := hfits
  constructor <;> simp only [linkExternalIdentity.put] <;> grind [lookup_insert, lookup_insert_ne]

theorem Inverse.dropLink {link} (h : rows.Inverse) (hfits : rows.Fits user link)
    (hext : ∀ v, rows.ext.lookup link = some v → v = user) : (rows.dropLink user link).Inverse := by
  obtain ⟨hiff, hne⟩ := h
  obtain ⟨hsub, hfwd⟩ := hfits
  constructor <;> simp only [LinkRows.dropLink] <;> grind [lookup_erase, lookup_erase_ne]

theorem lookup_dropLink (rows : LinkRows U P) (user : U) (link : P × String) (k : U × P) :
    (rows.dropLink user link).fwd.lookup k = if k = (user, link.1) then none else rows.fwd.lookup k := by
  simp only [dropLink]
  grind [lookup_erase, lookup_erase_ne]

theorem ext_dropLink {link k} {v : U} (h : (rows.dropLink user link).ext.lookup k = some v) :
    rows.ext.lookup k = some v := by
  simp only [dropLink] at h
  grind [lookup_erase, lookup_erase_ne]

theorem Inverse.foldl_dropLink (links : List (P × String)) (h : rows.Inverse)
    (hfits : ∀ link ∈ links, rows.Fits user link ∧ ∀ v, rows.ext.lookup link = some v → v = user) :
    (links.foldl (.dropLink user) rows).Inverse ∧
      ∀ k, rows.fwd.lookup k = none ∨ (∃ link ∈ links, k = (user, link.1)) →
        (links.foldl (.dropLink user) rows).fwd.lookup k = none := by
  induction links generalizing rows with
  | nil => exact ⟨h, fun k hk => hk.resolve_right (by simp)⟩
  | cons link links ih =>
    obtain ⟨⟨hlink, hown⟩, hlinks⟩ := List.forall_mem_cons.1 hfits
    have hget : ∀ k old, (rows.dropLink user link).fwd.lookup k = some old → rows.fwd.lookup k = some old := by
      intro k old hold
      rw [lookup_dropLink] at hold
      exact (ite_none_left_eq_some.1 hold).2
    obtain ⟨hinv, hnone⟩ := ih (h.dropLink hlink hown) fun other hother =>
      ⟨⟨(hlinks _ hother).1.1, fun old hold => (hlinks _ hother).1.2 old (hget _ _ hold)⟩,
        fun v hv => (hlinks _ hother).2 v (ext_dropLink hv)⟩
    refine ⟨hinv, fun k hk => hnone k ?_⟩
    rw [lookup_dropLink]
    rcases hk with hk | ⟨other, hother, rfl⟩
    · simp [hk]
    · rcases List.mem_cons.1 hother with rfl | hother
      · simp
      · exact .inr ⟨other, hother, rfl⟩

theorem Inverse.cascade (h : rows.Inverse) (user : U) :
    (rows.cascadeUserLinks user).Inverse ∧ ∀ k, rows.fwd.lookup k = none ∨ k.1 = user →
      (rows.cascadeUserLinks user).fwd.lookup k = none := by
  have hmem : ∀ link ∈ rows.listExternalIdentitiesForUser user, rows.fwd.lookup (user, link.1) = some link.2 :=
    fun _ => mem_listExternalIdentitiesForUser.1
  obtain ⟨hinv, hnone⟩ := h.foldl_dropLink _ fun link hlink =>
    ⟨⟨fun he => h.nonempty (he ▸ hmem link hlink), fun _ hold => some.inj (hold.symm.trans (hmem link hlink))⟩,
      fun v hv => some.inj (hv.symm.trans (h.iff.1 (hmem link hlink)))⟩
  refine ⟨hinv, fun k hk => hnone k ?_⟩
  -- a row of the user is in the list, under its subject
  cases hget : rows.fwd.lookup k with
  | none => exact .inl rfl
  | some sub =>
    obtain ⟨_, idp⟩ := k
    obtain rfl := hk.resolve_left (by simp [hget])
    exact .inr ⟨(idp, sub), mem_listExternalIdentitiesForUser.2 hget, rfl⟩

end LinkRows

/-! ## Runs -/

inductive LinkEvent (U P : Type)
  | link (user : U) (idp : P) (sub : String)
  | unlink (user : U) (idp : P)
  | delete (user : U)

/-- The rows, and what was cut off by an unlink or a deletion and not linked since. -/
structure LinkSys (U P : Type) where
  rows : LinkRows U P
  cut : U → P → Bool

namespace LinkSys

variable {U P : Type} [DecidableEq U] [DecidableEq P] {s : LinkSys U P}

def next (s : LinkSys U P) : LinkEvent U P → LinkSys U P
  | .link user idp sub =>
    let r := s.rows.linkExternalIdentity user idp sub
    ⟨r.2, fun u p => s.cut u p && !(r.1.isOk && (u, p) = (user, idp))⟩
  | .unlink user idp =>
    let r := s.rows.unlinkExternalIdentity user idp
    ⟨r.2, fun u p => s.cut u p || r.1.isOk && (u, p) = (user, idp)⟩
  | .delete user =>
    let r := s.rows.deleteUser user
    ⟨r.2, fun u p => s.cut u p || r.1.isOk && u = user⟩

def Step (ev : LinkEvent U P) (s s' : LinkSys U P) : Prop := s' = s.next ev

def Unlinked (s : LinkSys U P) : Prop := s.rows.ext = ∅ ∧ s.rows.fwd = ∅ ∧ ∀ u p, s.cut u p = false

/-- The links that are asked for fit those that are there. -/
def Fitting : LinkEvent U P → LinkSys U P → Prop
  | .link user idp sub, s => s.rows.Fits user (idp, sub)
  | _, _ => True

structure Inv (s : LinkSys U P) : Prop where
  rows : s.rows.Inverse
  cut : ∀ {u p}, s.cut u p = true → s.rows.fwd.lookup (u, p) = none

theorem Inv.put (h : s.Inv) {user : U} {idp : P} {sub} (hfit : s.rows.Fits user (idp, sub))
    (hext : ∀ v, s.rows.ext.lookup (idp, sub) = some v → v = user) :
    Inv ⟨LinkRows.linkExternalIdentity.put s.rows user idp sub,
      fun u p => s.cut u p && !(true && (u, p) = (user, idp))⟩ := by
  refine ⟨h.rows.put hfit hext, fun {u p} hc => ?_⟩
  simp only [Bool.true_and, Bool.and_eq_true, Bool.not_eq_true', decide_eq_false_iff_not] at hc
  exact (lookup_insert_ne hc.2).trans (h.cut hc.1)

theorem Inv.next (h : s.Inv) {ev} (hfit : Fitting ev s) : (s.next ev).Inv := by
  cases ev with
  | link user idp sub =>
    simp only [LinkSys.next, LinkRows.linkExternalIdentity]
    split
    · next existing hext =>
      split
      · exact ⟨h.rows, fun hc => h.cut (by simpa [Except.toBool] using hc)⟩
      · next heq => exact h.put hfit fun v hv => some.inj (hv.symm.trans hext) ▸ not_not.1 heq
    · next hext => exact h.put hfit fun v hv => nomatch hext.symm.trans hv
  | unlink user idp =>
    simp only [LinkSys.next, LinkRows.unlinkExternalIdentity]
    split
    · exact ⟨h.rows, fun hc => h.cut (by simpa [Except.toBool] using hc)⟩
    · next sub hsub =>
      have hne : sub ≠ "" := fun he => h.rows.nonempty (he ▸ hsub)
      have hdrop := h.rows.dropLink ⟨hne, fun _ hold => some.inj (hold.symm.trans hsub)⟩
        fun v hv => some.inj (hv.symm.trans (h.rows.iff.1 hsub))
      have hget := s.rows.lookup_dropLink user (idp, sub)
      simp only [LinkRows.dropLink, if_neg hne] at hdrop hget
      refine ⟨hdrop, fun {u p} hc => ?_⟩
      grind [h.cut]
  | delete user =>
    obtain ⟨hinv, hnone⟩ := h.rows.cascade user
    simp only [LinkSys.next, LinkRows.deleteUser]
    split
    · refine ⟨{ hinv with }, fun {u p} hc => hnone _ ?_⟩
      exact (Bool.or_eq_true_iff.1 hc).imp h.cut fun hu => by simpa [Except.toBool] using hu
    · exact ⟨hinv, fun hc => hnone _ (.inl (h.cut (by simpa [Except.toBool] using hc)))⟩

theorem Inv.of_run (h : Reachable Unlinked (LabelledWith Step Fitting) s) : s.Inv := by
  refine h.invariant ?_ ?_
  · rintro s ⟨hext, hfwd, hcut⟩
    exact ⟨⟨by simp [hext, hfwd], by simp [hfwd]⟩, by simp [hcut]⟩
  · rintro s _ - hinv ⟨ev, hfit, rfl⟩
    exact hinv.next hfit

end LinkSys

theorem external_identities_cut_off {U P : Type} [DecidableEq U] [DecidableEq P] {s : LinkSys U P}
    (h : Reachable LinkSys.Unlinked (LabelledWith LinkSys.Step LinkSys.Fitting) s) :
    (∀ u p, s.cut u p = true → ∀ sub, s.rows.findUserByExternalIdentity p sub ≠ some u) ∧
      ∀ u p sub, (p, sub) ∈ s.rows.listExternalIdentitiesForUser u ↔
        s.rows.findUserByExternalIdentity p sub = some u := by
  have hinv := LinkSys.Inv.of_run h
  constructor
  · intro u p hcut sub hfind
    cases (hinv.cut hcut).symm.trans (hinv.rows.iff.2 hfind)
  · exact fun u p sub => LinkRows.mem_listExternalIdentitiesForUser.trans hinv.rows.iff

/-- The rows before the first call. -/
def LinkSys.empty : LinkSys Nat Nat := ⟨⟨fun _ => true, ∅, ∅⟩, fun _ _ => false⟩

theorem external_identities_cut_off_unlinked :
    ∃ s : LinkSys Nat Nat, s.cut 7 1 = true ∧ s.rows.findUserByExternalIdentity 1 "a" ≠ some 7 := by
  have hempty : Reachable LinkSys.Unlinked (LabelledWith LinkSys.Step LinkSys.Fitting) .empty :=
    .start ⟨rfl, rfl, fun _ _ => rfl⟩
  have hrun := (hempty.next ⟨.link 7 1 "a", ⟨by decide, nofun⟩, rfl⟩).next ⟨.unlink 7 1, trivial, rfl⟩
  exact ⟨_, rfl, (external_identities_cut_off hrun).1 7 1 rfl "a"⟩

/-- User 7 links two subjects of one provider and unlinks the provider: the first subject
still resolves to the user, and no list shows it. -/
theorem unlinked_identity_resolves :
    ∃ s : LinkSys Nat Nat, Reachable LinkSys.Unlinked (LabelledWith LinkSys.Step fun _ _ => True) s ∧
      s.cut 7 1 = true ∧ s.rows.findUserByExternalIdentity 1 "a" = some 7 ∧
      s.rows.listExternalIdentitiesForUser 7 = [] := by
  have hempty : Reachable LinkSys.Unlinked (LabelledWith LinkSys.Step fun _ _ => True) .empty :=
    .start ⟨rfl, rfl, fun _ _ => rfl⟩
  exact ⟨_, ((hempty.next ⟨.link 7 1 "a", trivial, rfl⟩).next ⟨.link 7 1 "b", trivial, rfl⟩).next
    ⟨.unlink 7 1, trivial, rfl⟩, by decide⟩

end Hearth.Identity
