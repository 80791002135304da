import Hearth.Base.Run

/-!
# Password links and their watermark

A new password and a new link end the links before them by a time per user, the
watermark: a link stamped before it is refused. The watermark is raised by a read
followed by a write.

Results:
1. `superseded_links_dead`: where the clock has moved on since the last link was
   returned, and no raise of the watermark is overtaken by a higher one, a superseded
   link sets no password.
2. `superseded_link_redeemed`: a password set at the very time of the link leaves the
   link redeemable.
-/

namespace Hearth.Identity

open Base Function

/-- A link. Tokens are random, so each is of one link, with one time in its record. -/
structure PasswordLink where
  token : Nat
  createdAtMicros : Int
  deriving DecidableEq

/-- The rows of one user. The last three fields are what happened: the links returned, those
superseded by a call that began after their return, and the redemptions that set a password, each
with whether its link was superseded when it began. -/
structure PasswordRows where
  watermark : Option Int
  /-- `used`, in the record of a link. -/
  links : PasswordLink → Option Bool
  consumed : PasswordLink → Bool
  returned : PasswordLink → Bool
  superseded : PasswordLink → Bool
  redeemed : List (PasswordLink × Bool)

/-- The call that raises the watermark. `old` are the links that had been returned when it began;
`dead` says that the link was superseded then. -/
inductive LinkCaller
  | issue (k : PasswordLink) (old : PasswordLink → Bool)
  | set (old : PasswordLink → Bool)
  | reset (k : PasswordLink) (dead : Bool)

/-- What a redemption finds outside these rows: the user has another address, the realm refuses
the password, and the clock at the check of the expiry and at the put. -/
structure Redemption where
  moved : Bool
  vetoed : Bool
  expiryMicros : Int
  now : Int
  storedAt : Int

/-- Where a call is: each constructor names what it does next. -/
inductive LinkCall
  | idle
  | clock (now : Int) (c : LinkCaller)
  | credential (now : Int) (c : LinkCaller)
  | readMark (at' : Int) (c : LinkCaller)
  | putMark (at' : Int) (c : LinkCaller)
  /-- The watermark is raised: a record is put, or the call returns. -/
  | raised (c : LinkCaller)
  | give (k : PasswordLink) (old : PasswordLink → Bool)
  | lock (k : PasswordLink) (dead : Bool) (r : Redemption)
  | find (k : PasswordLink) (dead : Bool) (r : Redemption)
  | check (k : PasswordLink) (dead : Bool) (r : Redemption)
  | delete (k : PasswordLink)
  | claim (k : PasswordLink) (dead : Bool) (r : Redemption)

section

variable (s : PasswordRows)

/-- `password_reset_watermark`. -/
def PasswordRows.mark : Int := s.watermark.getD 0

def PasswordRows.supersede (old : PasswordLink → Bool) : PasswordRows :=
  { s with superseded := fun k => s.superseded k || old k }

/-- One operation of `issue_password_link`, `store_vetted_password`,
`set_password_reset_watermark` or `reset_password_with_token`. -/
def LinkCall.step : LinkCall → PasswordRows × LinkCall
  | .idle => (s, .idle)
  | .clock now (.issue k old) => (s, .readMark now (.issue k old))
  | .clock now c => (s, .credential now c)
  | .credential now (.reset k dead) =>
    ({ s with redeemed := (k, dead) :: s.redeemed }, .readMark now (.reset k dead))
  | .credential now c => (s, .readMark now c)
  | .readMark at' c => (s, if at' ≤ s.mark then .raised c else .putMark at' c)
  | .putMark at' c => ({ s with watermark := some at' }, .raised c)
  | .raised (.issue k old) =>
    ({ s with links := update s.links k (some false) }, .give k old)
  | .raised (.set old) => (s.supersede old, .idle)
  | .raised (.reset k _) => ({ s with links := update s.links k (some true) }, .idle)
  | .give k old => ({ s.supersede old with returned := update s.returned k true }, .idle)
  | .lock k dead r => (s, .find k dead r)
  | .find k dead r => (s, if s.links k = some false then .check k dead r else .idle)
  | .check k dead r =>
    (s, if k.createdAtMicros < s.mark ∨ r.moved = true then .idle
      else if r.now - k.createdAtMicros > r.expiryMicros then .delete k
      else if r.vetoed = true then .idle else .claim k dead r)
  | .delete k => ({ s with links := update s.links k none }, .idle)
  | .claim k dead r =>
    ({ s with consumed := update s.consumed k true },
      if s.consumed k = true then .idle else .credential r.storedAt (.reset k dead))

end

/-- The link whose redemption lock the call has. -/
def LinkCall.holds : LinkCall → Option PasswordLink
  | .find k _ _ | .check k _ _ | .delete k | .claim k _ _ | .credential _ (.reset k _)
  | .readMark _ (.reset k _) | .putMark _ (.reset k _) | .raised (.reset k _) => some k
  | _ => none

structure ResetSys (T : Type) where
  rows : PasswordRows
  call : T → LinkCall

namespace ResetSys

variable {T : Type} [DecidableEq T]

def goto (s : ResetSys T) (rows : PasswordRows) (t : T) (c : LinkCall) : ResetSys T :=
  ⟨rows, update s.call t c⟩

inductive Step (t : T) : ResetSys T → ResetSys T → Prop
  | set {s} (now : Int) : s.call t = .idle →
      Step t s (s.goto s.rows t (.clock now (.set s.rows.returned)))
  | issue {s} (k : PasswordLink) : s.call t = .idle →
      Step t s (s.goto s.rows t (.clock k.createdAtMicros (.issue k s.rows.returned)))
  | reset {s} (k : PasswordLink) (r : Redemption) : s.call t = .idle →
      Step t s (s.goto s.rows t (.lock k (s.rows.superseded k) r))
  | run {s rows c} : (∀ k dead r, s.call t = .lock k dead r → ∀ u, (s.call u).holds ≠ some k) →
      (s.call t).step s.rows = (rows, c) → Step t s (s.goto rows t c)
  /-- The call returns an error. -/
  | fail {s} : Step t s (s.goto s.rows t .idle)

/-- No link has been superseded and no call is under way. -/
def Start (s : ResetSys T) : Prop :=
  (∀ k, s.rows.superseded k = false) ∧ s.rows.redeemed = [] ∧ ∀ t, s.call t = .idle

end ResetSys

/-- The clock has moved on since each returned link was stamped, and the watermark is raised. -/
def LinkCall.Timely (s : PasswordRows) : LinkCall → Prop
  | .clock now _ => ∀ k, s.returned k = true → k.createdAtMicros < now
  | .putMark at' _ => s.mark ≤ at'
  | _ => True

/-! ## The invariant -/

def LinkCaller.old : LinkCaller → PasswordLink → Bool
  | .issue _ old | .set old => old
  | .reset .. => fun _ => false

def LinkCaller.dead : LinkCaller → Bool
  | .reset _ dead => dead
  | _ => false

/-- A superseded link is stamped before the watermark, so that it fails the check. -/
def LinkCall.Ok (s : PasswordRows) : LinkCall → Prop
  | .clock _ c => (∀ k, c.old k = true → s.returned k = true) ∧ c.dead = false
  | .credential now c => (∀ k, c.old k = true → k.createdAtMicros < now) ∧ c.dead = false
  | .readMark at' c | .putMark at' c => ∀ k, c.old k = true → k.createdAtMicros < at'
  | .raised c => ∀ k, c.old k = true → k.createdAtMicros < s.mark
  | .give _ old => ∀ k, old k = true → k.createdAtMicros < s.mark
  | .lock k dead _ | .find k dead _ | .check k dead _ => dead = true → k.createdAtMicros < s.mark
  | .claim _ dead _ => dead = false
  | .idle | .delete _ => True

namespace PasswordRows

structure Inv (s : PasswordRows) : Prop where
  superseded : ∀ k, s.superseded k = true → k.createdAtMicros < s.mark
  redeemed : ∀ e ∈ s.redeemed, e.2 = false

/-- The watermark does not fall, and a returned link stays returned. -/
structure Grows (s s' : PasswordRows) : Prop where
  mark : s.mark ≤ s'.mark
  returned : ∀ k, s.returned k = true → s'.returned k = true

variable {s s' : PasswordRows} {c : LinkCall} {old : PasswordLink → Bool}

theorem Inv.supersede (h : s.Inv) (hold : ∀ k, old k = true → k.createdAtMicros < s.mark) :
    (s.supersede old).Inv :=
  ⟨fun k hk => (Bool.or_eq_true_iff.1 hk).elim (h.superseded k) (hold k), h.redeemed⟩

theorem Grows.ok (h : s.Grows s') (hok : c.Ok s) : c.Ok s' := by
  cases c with
  | clock now c => exact ⟨fun k hk => h.returned k (hok.1 k hk), hok.2⟩
  | raised | give => exact fun k hk => Int.lt_of_lt_of_le (hok k hk) h.mark
  | lock | find | check => exact fun hdead => Int.lt_of_lt_of_le (hok hdead) h.mark
  | _ => exact hok

/-- One operation keeps the rows in order, and leaves its call where the rows allow. -/
theorem Inv.step (h : s.Inv) (hok : c.Ok s) (htime : c.Timely s) :
    (c.step s).1.Inv ∧ s.Grows (c.step s).1 ∧ (c.step s).2.Ok (c.step s).1 := by
  have hsame : s.Grows s := ⟨Int.le_refl _, fun _ hk => hk⟩
  cases c with
  | clock now c =>
    have hold : ∀ k, c.old k = true → k.createdAtMicros < now := fun k hk => htime k (hok.1 k hk)
    cases c with
    | issue => exact ⟨h, hsame, hold⟩
    | _ => exact ⟨h, hsame, hold, hok.2⟩
  | credential now c =>
    cases c with
    | reset k dead =>
      exact ⟨⟨h.superseded, List.forall_mem_cons.2 ⟨hok.2, h.redeemed⟩⟩, ⟨hsame.1, hsame.2⟩, hok.1⟩
    | _ => exact ⟨h, hsame, hok.1⟩
  | readMark at' c =>
    refine ⟨h, hsame, ?_⟩
    show LinkCall.Ok s (if _ then _ else _)
    split
    · next hle => exact fun k hk => Int.lt_of_lt_of_le (hok k hk) hle
    · exact hok
  | putMark at' c =>
    exact ⟨⟨fun k hk => Int.lt_of_lt_of_le (h.superseded k hk) htime, h.redeemed⟩,
      ⟨htime, hsame.2⟩, hok⟩
  | raised c =>
    cases c with
    | issue => exact ⟨{ h with }, ⟨hsame.1, hsame.2⟩, hok⟩
    | set => exact ⟨h.supersede hok, ⟨hsame.1, hsame.2⟩, trivial⟩
    | reset => exact ⟨{ h with }, ⟨hsame.1, hsame.2⟩, trivial⟩
  | give k old =>
    obtain ⟨hsup, hred⟩ := h.supersede hok
    have hkeep : ∀ x, s.returned x = true → update s.returned k true x = true :=
      forall_update (fun _ => rfl) fun _ _ hx => hx
    exact ⟨⟨hsup, hred⟩, ⟨hsame.1, hkeep⟩, trivial⟩
  | find k dead r =>
    refine ⟨h, hsame, ?_⟩
    show LinkCall.Ok s (if _ then _ else _)
    split
    · exact hok
    · trivial
  | check k dead r =>
    refine ⟨h, hsame, ?_⟩
    show LinkCall.Ok s (if _ then _ else if _ then _ else if _ then _ else _)
    split
    · trivial
    · next hpass =>
      split
      · trivial
      · split
        · trivial
        · exact Bool.eq_false_iff.2 fun hdead => hpass (.inl (hok hdead))
  | claim k dead r =>
    refine ⟨{ h with }, ⟨hsame.1, hsame.2⟩, ?_⟩
    show LinkCall.Ok _ (if _ then _ else _)
    split
    · trivial
    · exact ⟨nofun, hok⟩
  | idle | lock | delete => exact ⟨{ h with }, ⟨hsame.1, hsame.2⟩, hok⟩

end PasswordRows

namespace ResetSys

variable {T : Type} [DecidableEq T] {s s' : ResetSys T} {t : T}

structure Inv (s : ResetSys T) : Prop where
  rows : s.rows.Inv
  calls : ∀ t, (s.call t).Ok s.rows

theorem call_goto {rows c} : (s.goto rows t c).call = update s.call t c := rfl

theorem Inv.goto (h : s.Inv) {rows c} (hrows : rows.Inv) (hgrows : s.rows.Grows rows)
    (hc : c.Ok rows) : (s.goto rows t c).Inv :=
  ⟨hrows, forall_move call_goto hc fun u _ => hgrows.ok (h.calls u)⟩

theorem Inv.step (h : s.Inv) (htime : (s.call t).Timely s.rows) (hst : Step t s s') : s'.Inv := by
  have hstay : ∀ {c : LinkCall}, c.Ok s.rows → (s.goto s.rows t c).Inv :=
    h.goto h.rows ⟨Int.le_refl _, fun _ hk => hk⟩
  cases hst with
  | set | issue => exact hstay ⟨fun _ hk => hk, rfl⟩
  | reset k r => exact hstay (h.rows.superseded k)
  | run _ hrun =>
    obtain ⟨hrows, hgrows, hok⟩ := h.rows.step (h.calls t) htime
    rw [hrun] at hrows hgrows hok
    exact h.goto hrows hgrows hok
  | fail => exact hstay trivial

end ResetSys

/-- The redemption of a link that was superseded when it began sets no password. -/
theorem superseded_links_dead {T : Type} [DecidableEq T] {s : ResetSys T}
    (h : Reachable ResetSys.Start
      (LabelledWith ResetSys.Step fun t s => (s.call t).Timely s.rows) s) {k : PasswordLink} :
    (k, true) ∉ s.rows.redeemed := by
  have hinv : s.Inv := by
    refine h.preserves (fun hs => ?_) ResetSys.Inv.step
    obtain ⟨hsup, hred, hcall⟩ := hs
    refine ⟨⟨fun k hk => (nomatch (hsup k).symm.trans hk), hred ▸ nofun⟩, fun t => ?_⟩
    rw [hcall]
    trivial
  exact fun hmem => nomatch hinv.rows.redeemed _ hmem

/-- Nothing has happened. -/
def ResetSys.empty : ResetSys Unit :=
  ⟨⟨none, fun _ => none, fun _ => false, fun _ => false, fun _ => false, []⟩, fun _ => .idle⟩

/-- Where there is one call, no other has the lock. -/
theorem ResetSys.Step.alone {s rows c}
    (hrun : (s.call ()).step s.rows = (rows, c)) : Step () s (s.goto rows () c) :=
  .run (fun _ _ _ hlock _ => hlock ▸ nofun) hrun

/-- The link of time 1 is returned, a password is set at time 2, and the link is presented. -/
theorem superseded_links_dead_set :
    ∃ s : ResetSys Unit, s.rows.superseded ⟨0, 1⟩ = true ∧ (⟨0, 1⟩, true) ∉ s.rows.redeemed := by
  have hstart : Reachable ResetSys.Start
      (LabelledWith ResetSys.Step fun t s => (s.call t).Timely s.rows) .empty :=
    .start ⟨fun _ => rfl, rfl, fun _ => rfl⟩
  have hiss := hstart.take (.issue (t := ()) ⟨0, 1⟩ rfl) |>.take (.alone rfl) nofun
    |>.take (.alone rfl) |>.take (.alone rfl) (show (0 : Int) ≤ 1 by decide) |>.take (.alone rfl)
    |>.take (.alone rfl)
  have hlater : ∀ k : PasswordLink, update (fun _ => false) ⟨0, 1⟩ true k = true →
      k.createdAtMicros < 2 := forall_update (fun _ => by decide) fun _ _ => nofun
  have hset := hiss.take (.set (t := ()) 2 rfl) |>.take (.alone rfl) hlater
    |>.take (.alone rfl) |>.take (.alone rfl) |>.take (.alone rfl) (show (1 : Int) ≤ 2 by decide)
    |>.take (.alone rfl)
  have hrun := hset.take (.reset (t := ()) ⟨0, 1⟩ ⟨false, false, 9, 3, 3⟩ rfl)
    |>.take (.alone rfl) |>.take (.alone rfl) |>.take (.alone rfl)
  exact ⟨_, rfl, superseded_links_dead hrun⟩

/-- The link and the password have one time: the watermark stays where the link put it, and the
link is still accepted. -/
theorem superseded_link_redeemed : ∃ s : ResetSys Unit,
    Reachable ResetSys.Start (LabelledWith ResetSys.Step fun _ _ => True) s ∧
      s.rows.redeemed = [(⟨0, 1⟩, true)] := by
  have hstart : Reachable ResetSys.Start (LabelledWith ResetSys.Step fun _ _ => True) .empty :=
    .start ⟨fun _ => rfl, rfl, fun _ => rfl⟩
  have hiss := hstart.take (.issue (t := ()) ⟨0, 1⟩ rfl) |>.take (.alone rfl)
    |>.take (.alone rfl) |>.take (.alone rfl) |>.take (.alone rfl)
    |>.take (.alone rfl)
  have hset := hiss.take (.set (t := ()) 1 rfl) |>.take (.alone rfl) |>.take (.alone rfl)
    |>.take (.alone rfl) |>.take (.alone rfl)
  have hrun := hset.take (.reset (t := ()) ⟨0, 1⟩ ⟨false, false, 9, 3, 3⟩ rfl)
    |>.take (.alone rfl) |>.take (.alone rfl) |>.take (.alone rfl)
    |>.take (.alone rfl) |>.take (.alone rfl)
  exact ⟨_, hrun, rfl⟩

end Hearth.Identity
