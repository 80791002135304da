import Hearth.Identity.SessionRow

/-!
# The session cache of one node

A lock-free map from sessions to their live rows, with a generation that every
invalidation raises. A reader that misses takes the generation, reads the row and publishes
it, unless the publishing read-copy-update finds the generation raised; then the generation
is loaded once more. An invalidation raises the generation and removes the entry, if a load
shows one. A revocation holds the session's row lock until its invalidation is done.

`Inv.quiet`: when no call is under way, the cache holds no session whose row is revoked.
-/

namespace Hearth.Identity

open Base Function

/-- What a call does once the cache is done. `late` says that the lookup started after a
revocation of the session had returned. -/
inductive CacheThen
  | got (late : Bool) (answer : Option Session)
  | revoke
  | refresh
  | bulk
  | failed
  deriving DecidableEq, Repr

/-- Where a call is: each constructor names what it does next. -/
inductive CachePc (Id : Type)
  | idle
  | get (id : Id) (now : Int) (late : Bool)
  | getGen (id : Id) (now : Int) (late : Bool)
  | getRow (id : Id) (now : Int) (late : Bool) (gen : Nat)
  | fill (id : Id) (t : Session) (gen : Nat) (k : CacheThen)
  | recheck (id : Id) (gen : Nat) (k : CacheThen)
  | insertGen (id : Id) (k : CacheThen)
  | insertRow (id : Id) (gen : Nat) (k : CacheThen)
  | bump (id : Id) (k : CacheThen)
  | evict (id : Id) (k : CacheThen)
  | evicting (id : Id) (k : CacheThen)
  | revokeRow (id : Id)
  | refreshRow (id : Id)
  | write (id : Id) (t : Session) (k : CacheThen)
  | returned (k : CacheThen)

structure SessionCache (Id : Type) where
  rows : Id → Option Session
  cache : Id → Option Session
  /-- The counter of 64 bits is not raised so often that it wraps. -/
  gen : Nat
  rowLock : Id → Option Nat
  calls : Nat → CachePc Id
  /-- A `revoke_session` of the session has returned `Ok`. -/
  ended : Id → Bool

namespace SessionCache

variable {Id : Type} [DecidableEq Id]

section

variable (s : SessionCache Id)

def Init : Prop :=
  (∀ id, s.cache id = none) ∧ (∀ id, s.rowLock id = none) ∧ (∀ c, s.calls c = .idle) ∧ ∀ id,
    s.ended id = false

def goto (c : Nat) (pc : CachePc Id) : SessionCache Id := { s with calls := update s.calls c pc }

/-- The row lock is released by the calls that hold it. -/
def finish (c : Nat) (id : Id) : CacheThen → SessionCache Id
  | .revoke => { s.goto c (.returned .revoke) with
      rowLock := update s.rowLock id none, ended := update s.ended id true }
  | .refresh => { s.goto c (.returned .refresh) with rowLock := update s.rowLock id none }
  | k => s.goto c (.returned k)

variable (id : Id)

def setRow (t : Session) : SessionCache Id := { s with rows := update s.rows id (some t) }

def setCache (entry : Option Session) : SessionCache Id :=
    { s with cache := update s.cache id entry }

def raise : SessionCache Id := { s with gen := s.gen + 1 }

def hold (c : Nat) : SessionCache Id := { s with rowLock := update s.rowLock id (some c) }

def free : SessionCache Id := { s with rowLock := update s.rowLock id none }

end

/-- A row that the cache may hold. -/
def Servable (t : Session) (now : Int) : Prop :=
    t.isValid now = true ∧ t.isPolicyExpired now = false

/-- What a lookup does with a cached session. -/
def afterHit (id : Id) (now : Int) (late : Bool) (t : Session) : CachePc Id :=
  if t.isValid now = false then .evict id (.got late none)
  else if t.isPolicyExpired now = true then .returned (.got late none)
  else .returned (.got late (some t))

/-- Where a call that holds the row lock may give up. -/
inductive Refusable (id : Id) : CachePc Id → Prop
  | revokeRow : Refusable id (.revokeRow id)
  | refreshRow : Refusable id (.refreshRow id)
  | revokeWrite (t : Session) : Refusable id (.write id t .revoke)
  | refreshWrite (t : Session) : Refusable id (.write id t .refresh)

/-- One step of call `c`. The clock is read anew at each place that reads it. -/
inductive Step (ttlMicros : Int) (c : Nat) : SessionCache Id → SessionCache Id → Prop
  | getStart {s} (id : Id) (now : Int) :
      s.calls c = .idle → Step ttlMicros c s (s.goto c (.get id now (s.ended id)))
  | hit {s id now late t} :
      s.calls c = .get id now late → s.cache id = some t →
      Step ttlMicros c s (s.goto c (afterHit id now late t))
  | miss {s id now late} :
      s.calls c = .get id now late → s.cache id = none →
      Step ttlMicros c s (s.goto c (.getGen id now late))
  | getGen {s id now late} :
      s.calls c = .getGen id now late → Step ttlMicros c s (s.goto c (.getRow id now late s.gen))
  | getRow {s id now late gen t} :
      s.calls c = .getRow id now late gen → s.rows id = some t → Servable t now →
      Step ttlMicros c s (s.goto c (.fill id t gen (.got late (some t))))
  | getNone {s id now late gen} :
      s.calls c = .getRow id now late gen → (∀ t, s.rows id = some t → ¬ Servable t now) →
      Step ttlMicros c s (s.goto c (.returned (.got late none)))
  -- at capacity nothing is published
  | full {s id t gen k} : s.calls c = .fill id t gen k → Step ttlMicros c s (s.finish c id k)
  -- the closure loads the generation and the map is swapped in one step
  | rcu {s id t gen k} : s.calls c = .fill id t gen k →
      Step ttlMicros c s
        ((s.setCache id (if s.gen = gen then some t else s.cache id)).goto c (.recheck id gen k))
  | settled {s id k} : s.calls c = .recheck id s.gen k → Step ttlMicros c s (s.finish c id k)
  | moved {s id gen k} :
      s.calls c = .recheck id gen k → gen ≠ s.gen → Step ttlMicros c s (s.goto c (.evict id k))
  | evictMiss {s id k} :
      s.calls c = .evict id k → s.cache id = none → Step ttlMicros c s (s.finish c id k)
  | evictHit {s id k t} :
      s.calls c = .evict id k → s.cache id = some t → Step ttlMicros c s (s.goto c (.evicting id k))
  | evicting {s id k} :
      s.calls c = .evicting id k → Step ttlMicros c s ((s.setCache id none).finish c id k)
  | insertGen {s id k} :
      s.calls c = .insertGen id k → Step ttlMicros c s (s.goto c (.insertRow id s.gen k))
  | insertRow {s id gen k t} (now : Int) :
      s.calls c = .insertRow id gen k → s.rows id = some t → Servable t now →
      Step ttlMicros c s (s.goto c (.fill id t gen k))
  | insertNone {s id gen k} (now : Int) :
      s.calls c = .insertRow id gen k → (∀ t, s.rows id = some t → ¬ Servable t now) →
      Step ttlMicros c s (s.goto c (.bump id k))
  | bump {s id k} : s.calls c = .bump id k → Step ttlMicros c s (s.raise.goto c (.evict id k))
  | revokeStart {s} (id : Id) :
      s.calls c = .idle → s.rowLock id = none →
      Step ttlMicros c s ((s.hold id c).goto c (.revokeRow id))
  | revokeRow {s id t} :
      s.calls c = .revokeRow id → s.rows id = some t →
      Step ttlMicros c s (s.goto c (.write id t.revoke .revoke))
  | refreshStart {s} (id : Id) :
      s.calls c = .idle → s.rowLock id = none →
      Step ttlMicros c s ((s.hold id c).goto c (.refreshRow id))
  | refreshRow {s id t} (now : Int) :
      s.calls c = .refreshRow id → s.rows id = some t → Servable t now →
      Step ttlMicros c s (s.goto c (.write id (t.refresh now ttlMicros) .refresh))
  -- past its policy a session is evicted, which writes it revoked
  | policyRow {s id t} (now : Int) :
      s.calls c = .refreshRow id → s.rows id = some t → t.isValid now = true →
      t.isPolicyExpired now = true →
      Step ttlMicros c s (s.goto c (.write id t.revoke .refresh))
  | bulkRow {s id t} : s.calls c = .idle → s.rows id = some t → t.revoked = false →
      Step ttlMicros c s (s.goto c (.write id t.revoke .bulk))
  | writeValid {s id t k} (now : Int) : s.calls c = .write id t k → t.isValid now = true →
      Step ttlMicros c s ((s.setRow id t).goto c (.insertGen id k))
  | writeInvalid {s id t k} (now : Int) :
      s.calls c = .write id t k → t.isValid now = false →
      Step ttlMicros c s ((s.setRow id t).goto c (.bump id k))
  -- a bulk revocation goes on after a failed write
  | bulkLost {s id t} :
      s.calls c = .write id t .bulk → Step ttlMicros c s (s.goto c (.bump id .bulk))
  -- the row is missing or invalid, cannot be read, or cannot be written and stays as it was
  | refuse {s id pc} :
      s.calls c = pc → Refusable id pc → Step ttlMicros c s ((s.free id).goto c (.returned .failed))

/-! ## Entries of revoked sessions are owed a removal -/

end SessionCache

namespace CachePc

variable {Id : Type}

/-- The call has taken the generation `g`. -/
def Took (g : Nat) : CachePc Id → Prop
  | .getRow _ _ _ g' | .insertRow _ g' _ | .fill _ _ g' _ | .recheck _ g' _ => g' = g
  | _ => False

/-- The call has read a live row under the generation `g`, and may publish it or has done so. -/
def Fills (id : Id) (g : Nat) : CachePc Id → Prop
  | .fill i _ g' _ | .recheck i g' _ => i = id ∧ g' = g
  | _ => False

/-- The call will raise the generation and look for an entry. -/
def Bumps (id : Id) : CachePc Id → Prop
  | .bump i _ => i = id
  | _ => False

/-- The call will remove the entry of the session, if there still is one. -/
def Owes (gen : Nat) (id : Id) : CachePc Id → Prop
  | .bump i _ | .evict i _ | .evicting i _ => i = id
  | .recheck i g _ => i = id ∧ g ≠ gen
  | _ => False

def Quiet : CachePc Id → Prop
  | .idle | .returned _ => True
  | _ => False

variable {pc : CachePc Id} {id : Id}

theorem took_of_fills {g} (h : pc.Fills id g) : pc.Took g := by
  cases pc with
  | fill | recheck => exact h.2
  | _ => cases h

theorem owes_of_bumps {gen} (h : pc.Bumps id) : pc.Owes gen id := by
  cases pc with
  | bump => exact h
  | _ => cases h

theorem not_owes_of_quiet {gen} (h : pc.Quiet) : ¬ pc.Owes gen id := by
  cases pc with
  | idle | returned => exact fun ho => ho
  | _ => cases h

end CachePc

namespace SessionCache

variable {Id : Type}

def Live (s : SessionCache Id) (id : Id) : Prop := ∀ t, s.rows id = some t → t.revoked = false

structure Inv (s : SessionCache Id) : Prop where
  taken : ∀ c g, (s.calls c).Took g → g ≤ s.gen
  covered : ∀ c id g, (s.calls c).Fills id g → s.Live id ∨ g ≠ s.gen ∨ ∃ c', (s.calls c').Bumps id
  owed : ∀ id t, s.cache id = some t → s.Live id ∨ ∃ c, (s.calls c).Owes s.gen id

variable {s t : SessionCache Id} {c : Nat} {id : Id} {pc : CachePc Id} {k : CacheThen}

theorem Inv.init {s : SessionCache Id} (h : s.Init) : s.Inv := by
  obtain ⟨hcache, -, hcalls, -⟩ := h
  refine ⟨fun c g hg => ?_, fun c id g hg => ?_, fun id t ht => ?_⟩
  · rw [hcalls] at hg
    cases hg
  · rw [hcalls] at hg
    cases hg
  · rw [hcache] at ht
    cases ht

theorem calls_goto_self : (s.goto c pc).calls c = pc := update_self ..

theorem calls_goto_of_ne {c'} (h : c' ≠ c) : (s.goto c pc).calls c' = s.calls c' :=
    update_of_ne h ..

@[elab_as_elim]
theorem forall_goto {motive : Nat → CachePc Id → Prop} (hself : motive c pc)
    (hold : ∀ c' ≠ c, motive c' (s.calls c'))
    (c' : Nat) : motive c' ((s.goto c pc).calls c') :=
  forall_update (motive := motive) hself hold c'

/-- What some call is at, some call still is at after a move that keeps it. -/
theorem exists_goto {P : CachePc Id → Prop} (h : ∃ c', P (s.calls c')) (hc : P (s.calls c) → P pc) :
    ∃ c', P ((s.goto c pc).calls c') :=
  exists_move rfl hc h

/-- A call moves, and shared memory stays as it is. -/
theorem Inv.goto (h : s.Inv) (htook : ∀ g, pc.Took g → g ≤ s.gen)
    (hfills : ∀ id g, pc.Fills id g → s.Live id ∨ g ≠ s.gen ∨ ∃ c', (s.calls c').Bumps id)
    (hbumps : ∀ id, (s.calls c).Bumps id → pc.Bumps id)
    (howes : ∀ id, (s.calls c).Owes s.gen id → s.cache id ≠ none → pc.Owes s.gen id) :
    (s.goto c pc).Inv := by
  constructor
  case taken => exact forall_goto htook fun c' _ => h.taken c'
  case covered =>
    intro c' id g hg
    have hcov : s.Live id ∨ g ≠ s.gen ∨ ∃ c', (s.calls c').Bumps id :=
      forall_goto (hfills id g) (fun c' _ => h.covered c' id g) c' hg
    exact hcov.imp_right fun hcov => hcov.imp_right fun hb => exists_goto hb (hbumps id)
  case owed =>
    intro id t ht
    refine (h.owed id t ht).imp_right fun ho => exists_goto ho fun hc => howes id hc ?_
    exact fun hnone => by cases hnone.symm.trans ht

/-- The generation moves past every generation taken, and the entry is looked for next. -/
theorem Inv.raise (h : s.Inv) (hbump : s.calls c = .bump id k) :
    (s.raise.goto c (.evict id k)).Inv := by
  constructor
  case taken => exact forall_goto (fun _ => nofun) fun c' _ g hg =>
    Nat.le_succ_of_le (h.taken c' g hg)
  case covered =>
    refine fun c' i g => forall_goto nofun (fun c' _ hg => ?_) c'
    have hle := h.taken c' g (CachePc.took_of_fills hg)
    exact .inr (.inl (Nat.ne_of_lt (Nat.lt_succ_of_le hle)))
  case owed =>
    intro i v hv
    refine (h.owed i v hv).imp_right fun ⟨c', hc'⟩ => ?_
    by_cases hc : c' = c
    · subst hc
      rw [hbump] at hc'
      exact ⟨c', by rw [calls_goto_self]; exact hc'⟩
    · refine ⟨c', ?_⟩
      rw [calls_goto_of_ne hc]
      change (s.calls c').Owes (s.gen + 1) i
      cases hpc : s.calls c' with
      | recheck j g k =>
        rw [hpc] at hc'
        have hle : g ≤ s.gen := h.taken c' g (hpc ▸ rfl)
        exact ⟨hc'.1, Nat.ne_of_lt (Nat.lt_succ_of_le hle)⟩
      | bump | evict | evicting => rw [hpc] at hc'; exact hc'
      | _ => rw [hpc] at hc'; cases hc'

variable {pc' : CachePc Id} {u : Session} {gen : Nat}

theorem Inv.walk (h : s.Inv) (hpc : s.calls c = pc')
    (howes : ∀ id, ¬ pc'.Owes s.gen id := by exact nofun)
    (htook : ∀ g, pc.Took g → g ≤ s.gen := by exact nofun)
    (hfills : ∀ id g, pc.Fills id g → s.Live id ∨ g ≠ s.gen ∨
      ∃ c', (s.calls c').Bumps id := by exact nofun) :
    (s.goto c pc).Inv := by
  subst hpc
  exact h.goto htook hfills (fun id hb => absurd (CachePc.owes_of_bumps hb) (howes id))
    fun id ho => absurd ho (howes id)

theorem live_of_servable {now} (hrow : s.rows id = some u) (hu : Servable u now) : s.Live id := by
  intro v hv
  cases hrow.symm.trans hv
  exact Session.not_revoked_of_isValid hu.1

variable [DecidableEq Id]

theorem Inv.finish (h : s.Inv) (hbumps : ∀ id, ¬ (s.calls c).Bumps id)
    (howes : ∀ id, (s.calls c).Owes s.gen id → s.cache id = none) : (s.finish c id k).Inv := by
  have hgoto : ∀ k, (s.goto c (.returned k)).Inv := fun k =>
    h.goto nofun nofun (fun id hb => absurd hb (hbumps id)) fun id ho => absurd (howes id ho)
  cases k with
  | revoke => exact { hgoto .revoke with }
  | refresh => exact { hgoto .refresh with }
  | got | bulk | failed => exact hgoto _

theorem Inv.setRow (h : s.Inv) (hwrite : s.calls c = .write id u k)
    (hpc : u.revoked = true → pc.Bumps id) (htook : ∀ g, ¬ pc.Took g) :
    ((s.setRow id u).goto c pc).Inv := by
  have hbumps : ∀ i, (∃ c', (s.calls c').Bumps i) →
    ∃ c', (((s.setRow id u).goto c pc).calls c').Bumps i := by
    intro i hb
    refine exists_goto hb fun hc => ?_
    change (s.calls c).Bumps i at hc
    rw [hwrite] at hc
    cases hc
  have howes : ∀ i, (∃ c', (s.calls c').Owes s.gen i) →
      ∃ c', (((s.setRow id u).goto c pc).calls c').Owes s.gen i := by
    intro i hb
    refine exists_goto hb fun hc => ?_
    change (s.calls c).Owes s.gen i at hc
    rw [hwrite] at hc
    cases hc
  -- the row of the session is live now, or the call will invalidate it
  have hlive : ∀ i, s.Live i → ((s.setRow id u).goto c pc).Live i ∨ i = id ∧ u.revoked = true := by
    intro i hi
    by_cases hid : i = id
    · cases hrev : u.revoked with
      | true => exact .inr ⟨hid, rfl⟩
      | false =>
        refine .inl fun v hv => ?_
        subst hid
        cases (update_self ..).symm.trans hv
        exact hrev
    · refine .inl fun v hv => hi v ?_
      exact (update_of_ne hid ..).symm.trans hv
  have hself : u.revoked = true → ∃ c', (((s.setRow id u).goto c pc).calls c').Bumps id :=
    fun hrev =>
    ⟨c, by rw [calls_goto_self]; exact hpc hrev⟩
  constructor
  case taken =>
    exact forall_goto (fun g hg => absurd hg (htook g)) fun c' _ => h.taken c'
  case covered =>
    intro c' i g hg
    have hcov : s.Live i ∨ g ≠ s.gen ∨ ∃ c', (s.calls c').Bumps i :=
      forall_goto (fun hg => absurd (CachePc.took_of_fills hg) (htook g))
        (fun c' _ => h.covered c' i g) c' hg
    rcases hcov with hi | hi | hi
    · rcases hlive i hi with hi | ⟨rfl, hrev⟩
      · exact .inl hi
      · exact .inr (.inr (hself hrev))
    · exact .inr (.inl hi)
    · exact .inr (.inr (hbumps i hi))
  case owed =>
    intro i v hv
    rcases h.owed i v hv with hi | hi
    · rcases hlive i hi with hi | ⟨rfl, hrev⟩
      · exact .inl hi
      · obtain ⟨c', hc'⟩ := hself hrev
        exact .inr ⟨c', CachePc.owes_of_bumps hc'⟩
    · exact .inr (howes i hi)

/-- The entry of `id` is published by a call that goes on to check the generation. -/
theorem Inv.publish (h : s.Inv) {entry} (hpc : s.calls c = .fill id u gen k) :
    ((s.setCache id entry).goto c (.recheck id gen k)).Inv := by
  have hfills : (s.calls c).Fills id gen := by
    rw [hpc]
    exact ⟨rfl, rfl⟩
  have hgoto : (s.goto c (.recheck id gen k)).Inv := by
    refine h.goto ?_ ?_ ?_ ?_
    · rintro g rfl
      exact h.taken c gen (CachePc.took_of_fills hfills)
    · rintro i g ⟨rfl, rfl⟩
      exact h.covered c id gen hfills
    · intro i hi
      rw [hpc] at hi
      cases hi
    · intro i hi
      rw [hpc] at hi
      cases hi
  refine { hgoto with owed := fun i v hv => ?_ }
  by_cases hi : i = id
  · subst hi
    -- covered as a filling call, so live, past its generation, or owed by a call that bumps
    rcases hgoto.covered c i gen
      (by rw [calls_goto_self]; exact ⟨rfl, rfl⟩) with hlive | hgen | ⟨c', hc'⟩
    · exact .inl hlive
    · exact .inr ⟨c, by rw [calls_goto_self]; exact ⟨rfl, hgen⟩⟩
    · exact .inr ⟨c', CachePc.owes_of_bumps hc'⟩
  · refine hgoto.owed i v ?_
    exact (update_of_ne hi ..).symm.trans hv

/-- The entry is removed. -/
theorem Inv.remove (h : s.Inv) (hpc : s.calls c = .evicting id k) : ((s.setCache id none).finish c id k).Inv := by
  have hsub : ∀ i v, (s.setCache id none).cache i = some v → s.cache i = some v := by
    intro i v hv
    by_cases hi : i = id
    · subst hi
      cases (update_self ..).symm.trans hv
    · exact (update_of_ne hi ..).symm.trans hv
  have hremoved : (s.setCache id none).Inv := { h with owed := fun i v hv => h.owed i v (hsub i v hv) }
  refine hremoved.finish (fun i hi => ?_) fun i hi => ?_
  · change (s.calls c).Bumps i at hi
    rw [hpc] at hi
    cases hi
  · change (s.calls c).Owes s.gen i at hi
    rw [hpc] at hi
    cases hi
    exact update_self ..

variable {ttlMicros : Int}

theorem Inv.step (h : s.Inv) (hstep : Step ttlMicros c s t) : t.Inv := by
  cases hstep with
  | getStart id now hpc | miss hpc _ | getNone hpc _ | insertNone now hpc _ | revokeRow hpc _
    | refreshRow now hpc _ _ | policyRow now hpc _ _ _ | bulkRow hpc _ _ | bulkLost hpc =>
    exact h.walk hpc
  | hit hpc _ =>
    unfold afterHit
    split_ifs
    · exact h.walk hpc
    · exact h.walk hpc
    · exact h.walk hpc
  | getGen hpc | insertGen hpc => exact h.walk hpc nofun fun _ hg => Nat.le_of_eq hg.symm
  | getRow hpc hrow hserv | insertRow now hpc hrow hserv =>
    refine h.walk hpc nofun ?_ ?_
    · rintro g rfl
      exact h.taken _ _ (by rw [hpc]; rfl)
    · rintro i g ⟨rfl, rfl⟩
      exact .inl (live_of_servable hrow hserv)
  | full hpc => exact h.finish (by rw [hpc]; exact fun _ hb => hb) (by rw [hpc]; exact fun _ ho => ho.elim)
  | rcu hpc => exact h.publish hpc
  | settled hpc => exact h.finish (by rw [hpc]; exact fun _ hb => hb) (by rw [hpc]; exact fun _ ho => absurd rfl ho.2)
  | moved hpc _ =>
    refine h.goto nofun nofun (by rw [hpc]; exact fun _ hb => hb.elim) ?_
    rw [hpc]
    exact fun _ ho _ => ho.1
  | evictMiss hpc hnone =>
    refine h.finish (by rw [hpc]; exact fun _ hb => hb) ?_
    rw [hpc]
    rintro _ rfl
    exact hnone
  | evictHit hpc _ =>
    refine h.goto nofun nofun (by rw [hpc]; exact fun _ hb => hb.elim) ?_
    rw [hpc]
    exact fun _ ho _ => ho
  | evicting hpc => exact h.remove hpc
  | bump hpc => exact h.raise hpc
  | revokeStart id hpc _ | refreshStart id hpc _ =>
    have hheld : (s.hold id c).Inv := { h with }
    exact hheld.walk hpc
  | writeValid now hpc hvalid =>
    refine h.setRow hpc (fun hrev => ?_) nofun
    rw [Session.not_revoked_of_isValid hvalid] at hrev
    cases hrev
  | writeInvalid now hpc _ => exact h.setRow hpc (fun _ => rfl) nofun
  | @refuse id pc hpc hholds =>
    have hfree : (s.free id).Inv := { h with }
    cases hholds with
    | revokeRow | refreshRow | revokeWrite | refreshWrite => exact hfree.walk hpc

omit [DecidableEq Id] in
theorem Inv.quiet (h : s.Inv) (hquiet : ∀ c, (s.calls c).Quiet) {v} (hcache : s.cache id = some u)
    (hrow : s.rows id = some v) : v.revoked = false := by
  rcases h.owed id u hcache with hlive | ⟨c, hc⟩
  · exact hlive v hrow
  · exact absurd hc (CachePc.not_owes_of_quiet (hquiet c))

end SessionCache

end Hearth.Identity
