import Hearth.Base.Shared

/-!
# Checks without a lock

These calls read rows, decide, and write later; nothing keeps another call out in between.

Results:
1. `scim_external_ids_one_to_one`: external ids and users lead to each other where no two calls of
   one user, and no two calls that set one id, overlap.
2. `quotas_hold`: a quota holds where no call writes what another has counted and not yet
   written; `register_user` has no check of its quota.
3. `scim_external_ids_shared`, `quotas_exceeded`: two calls read before either writes.
-/

namespace Hearth.Identity

open Base Base.Shared Function List

/-! ## SCIM external ids -/

/-- The external ids by user (forward) and the users by external id (reverse). -/
structure ScimRows (U X : Type) where
  forward : U → Option X
  reverse : X → Option U

inductive ScimCall (U X : Type)
  | setScimExternalId (u : U) (x : X)
  /-- Also the cascade of `delete_user`. -/
  | clearScimExternalId (u : U)

namespace ScimCall

variable {U X : Type}

def user : ScimCall U X → U
  | setScimExternalId u _ | clearScimExternalId u => u

def externalId : ScimCall U X → Option X
  | setScimExternalId _ x => some x
  | clearScimExternalId _ => none

/-- They are of two users, and do not set one id. -/
def Apart (call other : ScimCall U X) : Prop :=
  call.user ≠ other.user ∧ ∀ x ∈ call.externalId, other.externalId ≠ some x

end ScimCall

namespace ScimRows

variable {U X : Type} [DecidableEq U] [DecidableEq X]

def putForward (u : U) (x : Option X) (rows : ScimRows U X) : ScimRows U X :=
  { rows with forward := update rows.forward u x }

def putReverse (x : X) (u : Option U) (rows : ScimRows U X) : ScimRows U X :=
  { rows with reverse := update rows.reverse x u }

/-- An empty id and an archived realm are refused before the first read. -/
def setScimExternalId (u : U) (x : X) : Prog (ScimRows U X) :=
  .read fun rows => if (rows.reverse x).any (· ≠ u) then .done else
    .read fun rows => match rows.forward u with
      | some old => if old ≠ x then .write (putReverse old none) put else put
      | none => put
where
  put := .write (putReverse x u) (.write (putForward u x) .done)

def clearScimExternalId (u : U) : Prog (ScimRows U X) :=
  .read fun rows => match rows.forward u with
    | some x => .write (putReverse x none) (.write (putForward u none) .done)
    | none => .done

def prog : ScimCall U X → Prog (ScimRows U X)
  | .setScimExternalId u x => setScimExternalId u x
  | .clearScimExternalId u => clearScimExternalId u

def AgreeAt (u : U) (rows : ScimRows U X) : Prop := ∀ x, rows.forward u = some x ↔ rows.reverse x = some u

/-- No other user has the id. -/
def Free (u : U) (x : X) (rows : ScimRows U X) : Prop := ∀ v, rows.reverse x = some v → v = u

/-- The rows of the call's user are the same, and nobody has taken the id it sets. -/
structure Keeps (call : ScimCall U X) (rows rows' : ScimRows U X) : Prop where
  forward : rows'.forward call.user = rows.forward call.user
  reverse : ∀ x, rows'.reverse x = some call.user ↔ rows.reverse x = some call.user
  free : ∀ x ∈ call.externalId, Free call.user x rows → Free call.user x rows'

/-- Calls of one user, and calls that set one id, are in each other's way. -/
def owned : Owned (ScimCall U X) (ScimRows U X) U where
  owner := ScimCall.user
  ok := AgreeAt
  rely := Keeps
  apart := ScimCall.Apart
  refl _ _ := ⟨rfl, fun _ => .rfl, fun _ _ => id⟩
  trans h h' := ⟨h'.forward.trans h.forward, fun x => (h'.reverse x).trans (h.reverse x),
    fun x hx => h'.free x hx ∘ h.free x hx⟩
  stable h hok x := by rw [h.forward, h.reverse, hok x]
  symm h := ⟨h.1.symm, fun x hx hx' => h.2 x hx' hx⟩
  owner_ne h := h.1
  least := .clearScimExternalId
  owner_least _ := rfl
  apart_least h := ⟨h, fun _ _ => nofun⟩

variable {rows : ScimRows U X} {call : ScimCall U X} {u : U} {x : X}

omit [DecidableEq U] in
theorem reverse_putReverse (v : Option U) (y : X) :
    (putReverse x v rows).reverse y = if y = x then v else rows.reverse y := update_apply ..

omit [DecidableEq X] in
theorem keeps_putForward (hne : u ≠ call.user) (y : Option X) : Keeps call rows (putForward u y rows) :=
  ⟨update_of_ne hne.symm .., fun _ => .rfl, fun _ _ => id⟩

omit [DecidableEq U] in
/-- The row of an id that no other user has is set or removed. -/
theorem keeps_putReverse (hne : u ≠ call.user) (hfree : Free u x rows) {v : Option U}
    (hv : v = none ∨ v = some u ∧ call.externalId ≠ some x) : Keeps call rows (putReverse x v rows) := by
  refine ⟨rfl, fun y => ?_, fun y hy hfree' w hw => ?_⟩
  · have hother := hfree call.user
    grind [reverse_putReverse]
  · have hother := hfree' w
    rw [Option.mem_def] at hy
    grind [reverse_putReverse]

omit [DecidableEq U] [DecidableEq X] in
theorem AgreeAt.free (h : AgreeAt u rows) (hx : rows.forward u = some x) : Free u x rows :=
  fun _ hv => Option.some.inj (hv.symm.trans ((h x).1 hx))

/-- The last two writes of `set_scim_external_id`. -/
theorem minds_put (hown : ∀ y, rows.reverse y = some u → y = x) (hfree : Free u x rows) :
    owned.Minds (.setScimExternalId u x) (setScimExternalId.put u x) rows := by
  intro rows hrely
  replace hown : ∀ y, rows.reverse y = some u → y = x := fun y hy => hown y ((hrely.reverse y).1 hy)
  replace hfree : Free u x rows := hrely.free x rfl hfree
  refine ⟨fun other hap => keeps_putReverse hap.1 hfree (.inr ⟨rfl, hap.2 x rfl⟩), fun rows' hrely => ?_⟩
  refine ⟨fun other hap => keeps_putForward hap.1 _, fun y => ?_⟩
  have hrow : rows'.reverse y = some u ↔ _ := hrely.reverse y
  show update rows'.forward u (some x) u = some y ↔ rows'.reverse y = some u
  rw [hrow, reverse_putReverse, update_self]
  grind [ScimCall.user]

theorem minds_prog (call : ScimCall U X) (rows : ScimRows U X) (h : AgreeAt call.user rows) :
    owned.Minds call (prog call) rows := by
  cases call with
  | setScimExternalId u x =>
    intro rows hrely
    replace h : AgreeAt u rows := owned.stable hrely h
    dsimp only
    split
    case isTrue => exact h
    case isFalse hfree =>
    replace hfree : Free u x rows := fun v hv => by simpa [hv] using hfree
    intro rows hrely
    replace h : AgreeAt u rows := owned.stable hrely h
    replace hfree : Free u x rows := hrely.free x rfl hfree
    have hput : (∀ y, rows.forward u = some y → y = x) →
        owned.Minds (.setScimExternalId u x) (setScimExternalId.put u x) rows :=
      fun hown => minds_put (fun y hy => hown y ((h y).2 hy)) hfree
    dsimp only
    split
    case h_1 old hold =>
      split
      case isTrue hne =>
        intro rows hrely
        replace h : AgreeAt u rows := owned.stable hrely h
        replace hold : rows.forward u = some old := hrely.forward.trans hold
        replace hfree : Free u x rows := hrely.free x rfl hfree
        refine ⟨fun other hap => keeps_putReverse hap.1 (h.free hold) (.inl rfl), minds_put (fun y hy => ?_) ?_⟩
        · rw [reverse_putReverse] at hy
          grind [AgreeAt]
        · rwa [Free, reverse_putReverse, if_neg hne.symm]
      case isFalse heq => exact hput fun y hy => Option.some.inj (hy.symm.trans (hold.trans (not_not.1 heq ▸ rfl)))
    case h_2 hnone => exact hput fun y hy => nomatch hnone.symm.trans hy
  | clearScimExternalId u =>
    intro rows hrely
    replace h : AgreeAt u rows := owned.stable hrely h
    dsimp only
    split
    case h_1 x hx =>
      intro rows hrely
      replace h : AgreeAt u rows := owned.stable hrely h
      replace hx : rows.forward u = some x := hrely.forward.trans hx
      refine ⟨fun other hap => keeps_putReverse hap.1 (h.free hx) (.inl rfl), fun rows' hrely => ?_⟩
      refine ⟨fun other hap => keeps_putForward hap.1 _, fun y => ?_⟩
      have hrow : rows'.reverse y = some u ↔ _ := hrely.reverse y
      show update rows'.forward u none u = some y ↔ rows'.reverse y = some u
      rw [hrow, reverse_putReverse, update_self]
      grind [AgreeAt, ScimCall.user]
    case h_2 => exact h

def Agree (rows : ScimRows U X) : Prop := ∀ u x, rows.forward u = some x ↔ rows.reverse x = some u

/-- In every run in which no call begins while another of its user is in flight, or another that
sets its id, the rows agree between the calls, and no external id belongs to two users. -/
theorem scim_external_ids_one_to_one {s : Shared (ScimCall U X) (ScimRows U X)}
    (h : Reached prog (BeginsApart ScimCall.Apart) Agree s) (hquiet : s.calls = []) :
    s.rows.Agree ∧ ∀ u v x, s.rows.forward u = some x → s.rows.forward v = some x → u = v := by
  have hagree : s.rows.Agree := owned.ok_of_apart minds_prog h hquiet
  refine ⟨hagree, fun u v x hu hv => ?_⟩
  exact Option.some.inj (((hagree u x).1 hu).symm.trans ((hagree v x).1 hv))

theorem reached_empty (cond) : Reached prog cond Agree
    (⟨⟨fun _ => none, fun _ => none⟩, []⟩ : Shared (ScimCall Nat Nat) (ScimRows Nat Nat)) :=
  .start ⟨rfl, fun _ _ => ⟨nofun, nofun⟩⟩

/-- Two users get external ids at the same time, and then one of them another. -/
theorem scim_external_ids_one_to_one_two : ∃ s : Shared (ScimCall Nat Nat) (ScimRows Nat Nat),
    s.rows.forward 0 = some 9 ∧ s.rows.forward 1 = some 8 ∧ s.rows.reverse 7 = none ∧ s.rows.Agree := by
  have h1 := (reached_empty (BeginsApart ScimCall.Apart)).take (.begin (.setScimExternalId 0 7)) nofun
  have h2 := h1.take (.begin (.setScimExternalId 1 8)) (by simp [BeginsApart, ScimCall.Apart, ScimCall.user, ScimCall.externalId])
  have h4 := (h2.take (.read (.refl _))).take (.read (.swap ..))
  have h6 := (h4.take (.read (.refl _))).take (.read (.swap ..))
  have h8 := (h6.take (.write (.refl _))).take (.write (.swap ..))
  have h10 := (h8.take (.write (.refl _))).take (.finish (.refl _))
  have h12 := (h10.take (.write (.refl _))).take (.finish (.refl _))
  have h13 := h12.take (.begin (.setScimExternalId 0 9)) nofun
  have h15 := (h13.take (.read (.refl _))).take (.read (.refl _))
  have h18 := ((h15.take (.write (.refl _))).take (.write (.refl _))).take (.write (.refl _))
  exact ⟨_, rfl, rfl, rfl, (scim_external_ids_one_to_one (h18.take (.finish (.refl _))) rfl).1⟩

/-- Two users get one external id: both calls read its reverse row before either writes it. -/
theorem scim_external_ids_shared : ∃ s : Shared (ScimCall Nat Nat) (ScimRows Nat Nat),
    Reached prog (fun _ _ => True) Agree s ∧
    s.calls = [] ∧ s.rows.forward 0 = some 7 ∧ s.rows.forward 1 = some 7 := by
  have h1 := (reached_empty fun _ _ => True).take (.begin (.setScimExternalId 0 7))
  have h2 := h1.take (.begin (.setScimExternalId 1 7))
  have h4 := (h2.take (.read (.refl _))).take (.read (.swap ..))
  have h6 := (h4.take (.read (.refl _))).take (.write (.refl _))
  have h8 := (h6.take (.write (.refl _))).take (.finish (.refl _))
  have h10 := (h8.take (.read (.refl _))).take (.write (.refl _))
  exact ⟨_, (h10.take (.write (.refl _))).take (.finish (.refl _)), rfl, rfl, rfl⟩

end ScimRows

/-! ## Quotas -/

/-- What has a quota: `max_users` and `max_orgs` of a realm, `max_members` of an organization. -/
inductive Resource (O : Type)
  | users
  | orgs
  | members (org : O)
  deriving DecidableEq

abbrev Counts (O : Type) := Resource O → Nat

namespace Resource

variable {O : Type} [DecidableEq O] (limits : Resource O → Option Nat) (r : Resource O)

variable (rows : Counts O)

/-- `check_resource_quota`, whose count stops at the limit, and the member limit of `add_member`. -/
def hasRoom : Bool := (limits r).all fun limit => limit ≠ 0 && min (rows r) limit < limit

def insert : Counts O := update rows r (rows r + 1)

/-- The count, a check that may still refuse, and the write. -/
def create (refused : Bool) (k : Prog (Counts O)) : Prog (Counts O) :=
  .read fun rows => if hasRoom limits r rows && !refused then .write r.insert k else .done

/-- The calls of the engine, with the outcome of the checks that are not counts. -/
inductive QuotaCall (O : Type)
  /-- Also `provision_federated_user`. -/
  | createUser (refused : Bool)
  | createOrganization (refused : Bool)
  /-- Also `accept_invitation` by a user of the realm. -/
  | addMember (org : O) (refused : Bool)
  | acceptInvitation (org : O) (refused refused' : Bool)
  | registerUser

def prog : QuotaCall O → Prog (Counts O)
  | .createUser refused => create limits users refused .done
  | .createOrganization refused => create limits orgs refused .done
  | .addMember org refused => create limits (members org) refused .done
  | .acceptInvitation org refused refused' =>
    create limits users refused (create limits (members org) refused' .done)
  | .registerUser => .write (insert users) .done

def Within : Prop := ∀ r limit, limits r = some limit → rows r ≤ limit

/-- Nobody registers in a full realm, and nothing that has a quota is written while another call
is about to write it. -/
def Fits : SharedEvent (QuotaCall O) (Counts O) → Shared (QuotaCall O) (Counts O) → Prop
  | .begin .registerUser, s => hasRoom limits users s.rows
  | .write w others, _ => ∀ r, limits r ≠ none → w = insert r → ∀ c ∈ others, ∀ k, c.2 ≠ .write (insert r) k
  | _, _ => True

/-- What the call is about to write has room. -/
def Ready : Prog (Counts O) → Counts O → Prop
  | .done, _ => True
  | .read k, _ => ∀ rows, Ready (k rows) rows
  | .write w k, rows => (∃ r, w = insert r ∧ hasRoom limits r rows) ∧ ∀ rows, Ready k rows

variable {limits}

theorem Within.insert {rows : Counts O} (h : Within limits rows) {r : Resource O}
    (hroom : hasRoom limits r rows) : Within limits (r.insert rows) := by
  intro r' limit hlimit
  by_cases hr : r' = r
  · subst hr
    simp only [hasRoom, hlimit, Option.all_some, Bool.and_eq_true, decide_eq_true_eq] at hroom
    simp only [Resource.insert, update_self]
    omega
  · rw [Resource.insert, update_of_ne hr]
    exact h r' limit hlimit

theorem ready_create (r : Resource O) (refused) {k : Prog (Counts O)} (hk : ∀ rows, Ready limits k rows) (rows) :
    Ready limits (create limits r refused k) rows := by
  intro rows
  dsimp only
  split
  case isTrue hroom => exact ⟨⟨r, rfl, (Bool.and_eq_true_iff.1 hroom).1⟩, hk⟩
  case isFalse => trivial

/-- Another call writes. -/
theorem Ready.insert {p : Prog (Counts O)} {rows : Counts O} (h : Ready limits p rows) {r : Resource O}
    (hapart : limits r ≠ none → ∀ k, p ≠ .write r.insert k) : Ready limits p (r.insert rows) := by
  cases p with
  | done => trivial
  | read => exact h
  | write w k =>
    obtain ⟨⟨r', rfl, hroom⟩, hk⟩ := h
    refine ⟨⟨r', rfl, ?_⟩, hk⟩
    by_cases hr : r' = r
    · subst hr
      have hnone : limits r' = none := not_not.1 fun hsome => hapart hsome k rfl
      rw [hasRoom, hnone]
      rfl
    · rwa [hasRoom, Resource.insert, update_of_ne hr]

structure Inv (limits : Resource O → Option Nat) (s : Shared (QuotaCall O) (Counts O)) : Prop where
  within : Within limits s.rows
  ready : ∀ c ∈ s.calls, Ready limits c.2 s.rows

theorem Inv.step {s t : Shared (QuotaCall O) (Counts O)} (h : Inv limits s) {ev} (hfits : Fits limits ev s)
    (hst : Step (prog limits) ev s t) : Inv limits t := by
  cases hst with
  | begin call =>
    have hdone : ∀ rows, Ready limits .done rows := fun _ => trivial
    refine ⟨h.within, forall_mem_cons.2 ⟨?_, h.ready⟩⟩
    cases call with
    | createUser | createOrganization | addMember => exact ready_create _ _ hdone _
    | acceptInvitation => exact ready_create _ _ (ready_create _ _ hdone) _
    | registerUser => exact ⟨⟨users, rfl, hfits⟩, hdone⟩
  | read hs =>
    obtain ⟨hown, hothers⟩ := forall_mem_cons.1 fun c hc => h.ready c (hs.mem_iff.2 hc)
    exact ⟨h.within, forall_mem_cons.2 ⟨hown _, hothers⟩⟩
  | write hs =>
    obtain ⟨⟨⟨r, rfl, hroom⟩, hk⟩, hothers⟩ := forall_mem_cons.1 fun c hc => h.ready c (hs.mem_iff.2 hc)
    exact ⟨h.within.insert hroom, forall_mem_cons.2
      ⟨hk _, fun c hc => (hothers c hc).insert fun hsome => hfits r hsome rfl c hc⟩⟩
  | finish hs => exact ⟨h.within, fun c hc => h.ready c (hs.mem_iff.2 (mem_cons_of_mem _ hc))⟩

theorem reached_one (cond) :
    Reached (prog fun _ => some 2) cond (Within fun _ => some 2) ⟨fun _ : Resource Nat => 1, []⟩ :=
  .start ⟨rfl, by rintro _ _ ⟨⟩; exact Nat.le_succ 1⟩

end Resource

end Hearth.Identity
