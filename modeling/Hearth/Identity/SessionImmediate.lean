import Hearth.Identity.SessionCache

/-!
# A revocation is seen at once on its node

Once `revoke_session` has returned, the row is revoked for good, the generation is past
every generation that a filling call has taken, and the cache has no entry.

`revocation_immediate`: a lookup that starts after a revocation has returned finds no session,
and when no call is under way the cache holds no session whose row is revoked.
-/

namespace Hearth.Identity

open Base Function False CachePc

namespace CachePc

variable {Id : Type} (id : Id)

/-- A revocation past the write of its row. -/
def Written : CachePc Id → Prop
  | .bump i .revoke | .evict i .revoke | .evicting i .revoke => i = id
  | _ => False

def Raised : CachePc Id → Prop
  | .evict i .revoke | .evicting i .revoke => i = id
  | _ => False

end CachePc

/-- The call holds the row lock. -/
def CacheThen.Holds : CacheThen → Prop
  | .revoke | .refresh => True
  | _ => False

/-- The call does not find a session that was revoked before it. -/
def CacheThen.Misses (k : CacheThen) : Prop := ∀ t, k ≠ .got true (some t)

namespace CachePc

variable {Id : Type} {id : Id} {pc : CachePc Id}

def Holds (id : Id) : CachePc Id → Prop
  | .revokeRow i | .refreshRow i => i = id
  | .fill i _ _ k | .recheck i _ k | .insertGen i k | .insertRow i _ k | .bump i k | .evict i k
  | .evicting i k | .write i _ k => i = id ∧ k.Holds
  | _ => False

theorem raised_written (h : pc.Raised id) : pc.Written id := by
  unfold Raised at h
  split at h
  · exact h
  · exact h
  · cases h

theorem holds_of_written (h : pc.Written id) : pc.Holds id := by
  unfold Written at h
  split at h
  · exact ⟨h, trivial⟩
  · exact ⟨h, trivial⟩
  · exact ⟨h, trivial⟩
  · cases h

end CachePc

namespace SessionCache

variable {Id : Type}

/-- A revocation of the session has written its row. -/
def Dead (s : SessionCache Id) (id : Id) : Prop := s.ended id = true ∨ ∃ c, (s.calls c).Written id

/-- A revocation of the session has raised the generation. -/
def Sealed (s : SessionCache Id) (id : Id) : Prop := s.ended id = true ∨ ∃ c, (s.calls c).Raised id

theorem Sealed.dead {s : SessionCache Id} {id : Id} (h : s.Sealed id) : s.Dead id :=
  h.imp_right fun ⟨c, hc⟩ => ⟨c, raised_written hc⟩

section

variable (s : SessionCache Id) (c : Nat)

def Entry (id : Id) (k : CacheThen) : Prop := (k.Holds → s.rowLock id = some c) ∧ k.Misses

/-- What a call has to keep to where it is. -/
def PcOk : CachePc Id → Prop
  | .idle => True
  | .get id _ late | .getGen id _ late | .getRow id _ late _ => late = true → s.ended id = true
  | .fill id _ gen k | .recheck id gen k => s.Entry c id k ∧ k ≠ .revoke ∧
      (s.Sealed id → gen ≠ s.gen)
  | .insertGen id k | .insertRow id _ k => s.Entry c id k ∧ k ≠ .revoke
  | .bump id k | .evict id k | .evicting id k => s.Entry c id k
  | .revokeRow id | .refreshRow id => s.rowLock id = some c
  | .write id t k => s.Entry c id k ∧ (t.revoked = true ∨ k = .refresh ∧ ¬ s.Dead id)
  | .returned k => k.Misses

end

structure Immediate (s : SessionCache Id) : Prop where
  pcs : ∀ c, s.PcOk c (s.calls c)
  dead : ∀ id, s.Dead id → ∃ t, s.rows id = some t ∧ t.revoked = true
  gone : ∀ id, s.ended id = true → s.cache id = none

variable {s t : SessionCache Id} {c : Nat} {id : Id} {pc : CachePc Id} {k : CacheThen}

/-- Other calls do not notice: the locks, rows and flags they rely on are as before, or better. -/
theorem PcOk.mono (h : s.PcOk c pc)
    (hlock : ∀ id, pc.Holds id → s.rowLock id = some c → t.rowLock id = some c)
    (hdead : ∀ id u, pc = .write id u .refresh → t.Dead id → s.Dead id ∨ u.revoked = true)
    (hpast : ∀ id g, pc.Fills id g → t.Sealed id → g ≠ t.gen ∨ s.Sealed id ∧ t.gen = s.gen)
    (hover : ∀ id, s.ended id = true → t.ended id = true) : t.PcOk c pc := by
  have hentry : ∀ {id k}, (k.Holds → pc.Holds id) → s.Entry c id k → t.Entry c id k := fun hk he =>
    ⟨fun hh => hlock _ (hk hh) (he.1 hh), he.2⟩
  cases pc with
  | idle => trivial
  | get | getGen | getRow => exact fun hl => hover _ (h hl)
  | fill | recheck =>
    refine ⟨hentry (⟨rfl, ·⟩) h.1, h.2.1, fun hs => ?_⟩
    obtain hne | ⟨hs, hgen⟩ := hpast _ _ ⟨rfl, rfl⟩ hs
    · exact hne
    · rw [hgen]
      exact h.2.2 hs
  | insertGen | insertRow => exact ⟨hentry (⟨rfl, ·⟩) h.1, h.2⟩
  | bump | evict | evicting => exact hentry (⟨rfl, ·⟩) h
  | revokeRow | refreshRow => exact hlock _ rfl h
  | write id u k =>
    refine ⟨hentry (⟨rfl, ·⟩) h.1, ?_⟩
    obtain hrev | ⟨rfl, hlive⟩ := h.2
    · exact .inl hrev
    · by_cases hd : t.Dead id
      · exact .inl ((hdead id u rfl hd).resolve_left hlive)
      · exact .inr ⟨rfl, hd⟩
  | returned => exact h

theorem PcOk.locks (h : s.PcOk c pc) (hh : pc.Holds id) : s.rowLock id = some c := by
  cases pc with
  | revokeRow | refreshRow => exact hh ▸ h
  | fill | recheck | insertGen | insertRow | write => exact hh.1 ▸ h.1.1 hh.2
  | bump | evict | evicting => exact hh.1 ▸ h.1 hh.2
  | _ => cases hh

variable {c' : Nat} {u : Session}

theorem Immediate.callOk (h : s.Immediate) (hpc : s.calls c = pc) : s.PcOk c pc := hpc ▸ h.pcs c

theorem Immediate.holder (h : s.Immediate) (hc : (s.calls c).Holds id)
    (hc' : (s.calls c').Holds id) :
    c' = c :=
  Option.some.inj (((h.pcs c').locks hc').symm.trans ((h.pcs c).locks hc))

theorem dead_goto (hw : ∀ id, pc.Written id → (s.calls c).Written id) (h : (s.goto c pc).Dead id) :
    s.Dead id :=
  h.imp_right (exists_of_move rfl (hw id))

theorem sealed_goto (hr : ∀ id, pc.Raised id → (s.calls c).Raised id)
    (h : (s.goto c pc).Sealed id) : s.Sealed id :=
  h.imp_right (exists_of_move rfl (hr id))

/-- A call moves, and shared memory stays as it is. -/
theorem Immediate.goto (h : s.Immediate) (hpc : s.PcOk c pc)
    (hw : ∀ id, pc.Written id → (s.calls c).Written id)
    (hr : ∀ id, pc.Raised id → (s.calls c).Raised id) : (s.goto c pc).Immediate := by
  have hmono : ∀ {c' pc'}, s.PcOk c' pc' → (s.goto c pc).PcOk c' pc' := fun hok =>
    hok.mono (fun _ _ hl => hl) (fun _ _ _ hd => .inl (dead_goto hw hd))
      (fun _ _ _ hs => .inr ⟨sealed_goto hr hs, rfl⟩) fun _ ho => ho
  exact ⟨forall_goto (hmono hpc) fun c' _ => hmono (h.pcs c'), fun id hd =>
    h.dead id (dead_goto hw hd), h.gone⟩

/-- A call moves to a place where no revocation is past its write. -/
theorem Immediate.move (h : s.Immediate) (hpc : s.PcOk c pc)
    (hw : ∀ id, ¬ pc.Written id := by exact fun _ => elim) : (s.goto c pc).Immediate :=
  h.goto hpc (fun id hid => absurd hid (hw id)) fun id hid => absurd (raised_written hid) (hw id)

theorem Immediate.init (h : s.Init) : s.Immediate := by
  obtain ⟨-, -, hcalls, hover⟩ := h
  have hdead : ∀ id, ¬ s.Dead id := by
    rintro id (h | ⟨c, h⟩)
    · rw [hover] at h
      cases h
    · rw [hcalls] at h
      cases h
  refine ⟨fun c => ?_, fun id h => absurd h (hdead id), fun id h => absurd (.inl h) (hdead id)⟩
  rw [hcalls]
  trivial

theorem Immediate.not_dead (h : s.Immediate) {now} (hrow : s.rows id = some u)
    (hu : Servable u now) : ¬ s.Dead id := by
  intro hdead
  obtain ⟨v, hv, hrev⟩ := h.dead id hdead
  rw [live_of_servable hrow hu v hv] at hrev
  cases hrev

/-- A generation is raised by a call that invalidates. -/
theorem Immediate.raise (h : s.Immediate) (hI : s.Inv) (hbump : s.calls c = .bump id k) :
    (s.raise.goto c (.evict id k)).Immediate := by
  have hdead : ∀ i, (s.raise.goto c (.evict id k)).Dead i → s.Dead i := by
    intro i hd
    refine dead_goto (fun j hj => ?_) hd
    rw [hbump]
    cases k with
    | revoke => exact hj
    | _ => cases hj
  refine ⟨forall_goto ?_ fun c' hc => ?_, fun i hd => h.dead i (hdead i hd), h.gone⟩
  · have hok := h.callOk hbump
    have hevict : s.PcOk c (.evict id k) := hok
    exact hevict.mono (fun _ _ hl => hl) (fun _ _ hw => by cases hw) (fun _ _ => nofun)
      fun _ ho => ho
  · refine (h.pcs c').mono (fun _ _ hl => hl) (fun i u _ hd => .inl (hdead i hd))
      (fun i g hg _ => .inl ?_) fun _ ho => ho
    have hle := hI.taken c' g (took_of_fills hg)
    exact Nat.ne_of_lt (Nat.lt_succ_of_le hle)

variable [DecidableEq Id]

section

variable (h : s.Immediate)

include h

theorem Immediate.release (hc : (s.calls c).Holds id) (hk : k.Misses) :
    ((s.free id).goto c (.returned k)).Immediate := by
  have hdead : ∀ i, ((s.free id).goto c (.returned k)).Dead i → s.Dead i := fun i hd =>
    dead_goto (fun _ => elim) hd
  have hseal : ∀ i, ((s.free id).goto c (.returned k)).Sealed i → s.Sealed i := fun i hs =>
    sealed_goto (fun _ => elim) hs
  refine ⟨forall_goto hk fun c' hne => ?_, fun i hd => h.dead i (hdead i hd), h.gone⟩
  refine (h.pcs c').mono (fun i hi hl => ?_) (fun i u _ hd => .inl (hdead i hd))
    (fun i g _ hs => .inr ⟨hseal i hs, rfl⟩) fun i ho => ho
  have hi' : i ≠ id := fun heq => hne (h.holder hc (heq ▸ hi))
  exact (update_of_ne hi' ..).trans hl

/-- A revocation returns that has raised the generation and left no entry. -/
theorem Immediate.ended (hraised : (s.calls c).Raised id) (hnone : s.cache id = none) :
    (s.finish c id .revoke).Immediate := by
  have hholds := holds_of_written (raised_written hraised)
  have hover : ∀ i, (s.finish c id .revoke).ended i = true → i = id ∨ s.ended i = true :=
    fun i hi =>
    (update_cases hi).imp_left And.left
  have hdead : ∀ i, (s.finish c id .revoke).Dead i → s.Dead i := by
    rintro i (hi | hi)
    · rcases hover i hi with rfl | hi
      · exact .inr ⟨c, raised_written hraised⟩
      · exact .inl hi
    · exact dead_goto (fun _ => elim) (.inr hi)
  have hseal : ∀ i, (s.finish c id .revoke).Sealed i → s.Sealed i := by
    rintro i (hi | hi)
    · rcases hover i hi with rfl | hi
      · exact .inr ⟨c, hraised⟩
      · exact .inl hi
    · exact sealed_goto (fun _ => elim) (.inr hi)
  refine ⟨fun c' => ?_, fun i hd => h.dead i (hdead i hd), fun i hi => ?_⟩
  · change PcOk _ c' ((s.goto c (.returned .revoke)).calls c')
    refine forall_goto nofun (fun c' hne => ?_) c'
    refine (h.pcs c').mono (fun i hi hl => ?_) (fun i u _ hd => .inl (hdead i hd))
      (fun i g _ hs => .inr ⟨hseal i hs, rfl⟩) fun i ho => ?_
    · have hi' : i ≠ id := fun heq => hne (h.holder hholds (heq ▸ hi))
      exact (update_of_ne hi' ..).trans hl
    · change update s.ended id true i = true
      exact forall_update (fun _ => rfl) (fun _ _ ho => ho) i ho
  · rcases hover i hi with rfl | hi
    · exact hnone
    · exact h.gone i hi

theorem Immediate.finish (hmiss : k.Misses) (hholds : k.Holds → (s.calls c).Holds id)
    (hrevoke : k = .revoke → (s.calls c).Raised id ∧ s.cache id = none) :
    (s.finish c id k).Immediate := by
  cases k with
  | revoke => exact h.ended (hrevoke rfl).1 (hrevoke rfl).2
  | refresh => exact h.release (hholds trivial) hmiss
  | got | bulk | failed => exact h.move hmiss

theorem Immediate.hold (hlock : s.rowLock id = none) : (s.hold id c).Immediate := by
  refine ⟨fun c' => ?_, h.dead, h.gone⟩
  refine (h.pcs c').mono (fun i hi hl => ?_) (fun _ _ _ => .inl) (fun _ _ _ hs => .inr ⟨hs, rfl⟩)
    fun _ ho => ho
  have hi' : i ≠ id := fun heq => by cases hlock.symm.trans (heq ▸ hl)
  exact (update_of_ne hi' ..).trans hl

/-- An entry is removed, or the map is swapped as it was. -/
theorem Immediate.setCache {entry} (hentry : s.ended id = true → entry = none) :
    (s.setCache id entry).Immediate := by
  refine ⟨fun c' => ?_, h.dead, fun i hi => ?_⟩
  · exact (h.pcs c').mono (fun _ _ hl => hl) (fun _ _ _ => .inl) (fun _ _ _ hs => .inr ⟨hs, rfl⟩)
      fun _ ho => ho
  · by_cases heq : i = id
    · subst heq
      exact (update_self ..).trans (hentry hi)
    · exact (update_of_ne heq ..).trans (h.gone i hi)

theorem Immediate.setRow (hwrite : s.calls c = .write id u k)
    (hpc : s.PcOk c pc) (hpc' : ∀ i v, pc ≠ .write i v .refresh) (hfills : ∀ i g, ¬ pc.Fills i g)
    (hwrit : ∀ i, pc.Written i → i = id ∧ k = .revoke) (hraised : ∀ i, ¬ pc.Raised i) :
    ((s.setRow id u).goto c pc).Immediate := by
  have hself := h.callOk hwrite
  have hdead : ∀ i, ((s.setRow id u).goto c pc).Dead i → s.Dead i ∨ i = id ∧ k = .revoke := by
    rintro i (ho | ⟨c', hc'⟩)
    · exact .inl (.inl ho)
    · exact forall_goto (fun hw => .inr (hwrit i hw)) (fun c' _ hw => .inl (.inr ⟨c', hw⟩)) c' hc'
  have hseal : ∀ i, ((s.setRow id u).goto c pc).Sealed i → s.Sealed i := fun i hs =>
    sealed_goto (fun j hj => absurd hj (hraised j)) hs
  refine ⟨?_, fun i hd => ?_, h.gone⟩
  · refine forall_goto (hpc.mono (fun _ _ hl => hl) (fun i v hv _ => absurd hv (hpc' i v))
      (fun i g hg _ => absurd hg (hfills i g)) fun _ ho => ho) fun c' hc => ?_
    refine (h.pcs c').mono (fun _ _ hl => hl) (fun i v hv hd => ?_)
      (fun i g _ hs => .inr ⟨hseal i hs, rfl⟩)
      fun _ ho => ho
    obtain hd | ⟨rfl, rfl⟩ := hdead i hd
    · exact .inl hd
    · -- both would hold the row lock
      have hc1 : (s.calls c).Holds i := hwrite ▸ ⟨rfl, trivial⟩
      have hc2 : (s.calls c').Holds i := hv ▸ ⟨rfl, trivial⟩
      exact absurd (h.holder hc1 hc2) hc
  · by_cases hi : i = id
    · subst hi
      refine ⟨u, update_self .., ?_⟩
      obtain hu | ⟨rfl, hlive⟩ := hself.2
      · exact hu
      · obtain hd | ⟨-, hk⟩ := hdead i hd
        · exact absurd hd hlive
        · cases hk
    · obtain hd | ⟨hi', -⟩ := hdead i hd
      · obtain ⟨v, hv, hrev⟩ := h.dead i hd
        exact ⟨v, (update_of_ne hi ..).trans hv, hrev⟩
      · exact absurd hi' hi

end

variable {ttlMicros : Int}

omit [DecidableEq Id] in
/-- Only a revocation goes on to a place past the write of its row. -/
theorem not_written_of_ne (hk : k ≠ .revoke) :
    (∀ i, ¬ (CachePc.bump id k).Written i) ∧ ∀ i, ¬ (CachePc.evict id k).Written i := by
  cases k with
  | revoke => exact absurd rfl hk
  | _ => exact ⟨fun _ => elim, fun _ => elim⟩

theorem Immediate.step (h : s.Immediate) (hI : s.Inv) (hstep : Step ttlMicros c s t) :
    t.Immediate := by
  cases hstep with
  | getStart id now hpc => exact h.move fun hlate => hlate
  | @hit id now late u hpc hcache =>
    have hlate : late = false := by
      cases late with
      | false => rfl
      | true => cases hcache.symm.trans (h.gone id (h.callOk hpc rfl))
    subst hlate
    unfold afterHit
    split_ifs
    · exact h.move ⟨nofun, nofun⟩
    · exact h.move nofun
    · exact h.move nofun
  | miss hpc _ | getGen hpc | insertGen hpc =>
    have hok := h.callOk hpc
    exact h.move hok
  | @getRow id now late gen u hpc hrow hserv =>
    have hlive := h.not_dead hrow hserv
    refine h.move ⟨⟨nofun, ?_⟩, nofun, fun hs => absurd hs.dead hlive⟩
    rintro v ⟨⟩
    exact hlive (.inl (h.callOk hpc rfl))
  | getNone hpc _ => exact h.move nofun
  | full hpc | settled hpc =>
    obtain ⟨⟨-, hmiss⟩, hk, -⟩ := h.callOk hpc
    exact h.finish hmiss (fun hh => hpc ▸ ⟨rfl, hh⟩) fun hrevoke => absurd hrevoke hk
  | @rcu id u gen k hpc =>
    have hentry : s.ended id = true → (if s.gen = gen then some u else s.cache id) = none := by
      intro hover
      rw [if_neg fun hgen => (h.callOk hpc).2.2 (.inl hover) hgen.symm]
      exact h.gone id hover
    have hset := h.setCache hentry
    have hok := hset.callOk hpc
    exact hset.move hok
  | @moved id gen k hpc _ =>
    obtain ⟨hentry, hk, -⟩ := h.callOk hpc
    exact h.move hentry (not_written_of_ne hk).2
  | @insertNone id gen k now hpc _ =>
    obtain ⟨hentry, hk⟩ := h.callOk hpc
    exact h.move hentry (not_written_of_ne hk).1
  | evictMiss hpc hnone =>
    refine h.finish (h.callOk hpc).2 (fun hh => hpc ▸ ⟨rfl, hh⟩) fun hk => ⟨?_, hnone⟩
    rw [hpc, hk]
    rfl
  | @evictHit id k u hpc _ =>
    have hok := h.callOk hpc
    refine h.goto hok (fun i hi => ?_) fun i hi => ?_
    all_goals
      rw [hpc]
      cases k with
      | revoke => exact hi
      | _ => cases hi
  | @evicting id k hpc =>
    have hset : (s.setCache id none).Immediate := h.setCache fun _ => rfl
    refine hset.finish (h.callOk hpc).2 (fun hh => hpc ▸ ⟨rfl, hh⟩) fun hk => ⟨?_, update_self ..⟩
    change (s.calls c).Raised id
    rw [hpc, hk]
    rfl
  | insertRow now hpc hrow hserv =>
    obtain ⟨hentry, hk⟩ := h.callOk hpc
    exact h.move ⟨hentry, hk, fun hs => absurd hs.dead (h.not_dead hrow hserv)⟩
  | bump hpc => exact h.raise hI hpc
  | revokeStart id hpc hlock | refreshStart id hpc hlock =>
      exact (h.hold hlock).move (update_self ..)
  | revokeRow hpc _ | policyRow now hpc _ _ _ =>
      exact h.move ⟨⟨fun _ => h.callOk hpc, nofun⟩, .inl rfl⟩
  | refreshRow now hpc hrow hserv =>
    exact h.move ⟨⟨fun _ => h.callOk hpc, nofun⟩, .inr ⟨rfl, h.not_dead hrow hserv⟩⟩
  | bulkRow hpc _ _ => exact h.move ⟨⟨nofun, nofun⟩, .inl rfl⟩
  | @writeValid id u k now hpc hvalid =>
    obtain ⟨hentry, hwrites⟩ := h.callOk hpc
    have hk : k ≠ .revoke := by
      rintro rfl
      obtain hrev | ⟨hk, -⟩ := hwrites
      · rw [Session.not_revoked_of_isValid hvalid] at hrev
        cases hrev
      · cases hk
    exact h.setRow hpc ⟨hentry, hk⟩ nofun (fun _ _ => nofun) (fun _ => nofun) fun _ => nofun
  | @writeInvalid id u k now hpc _ =>
    refine h.setRow hpc (h.callOk hpc).1 nofun (fun _ _ => nofun) (fun i hi => ?_) fun _ => nofun
    cases k with
    | revoke => exact ⟨hi.symm, rfl⟩
    | _ => cases hi
  | bulkLost hpc => exact h.move (h.callOk hpc).1
  | refuse hpc hrefusable =>
    refine h.release ?_ nofun
    rw [hpc]
    cases hrefusable with
    | revokeRow | refreshRow => rfl
    | revokeWrite | refreshWrite => exact ⟨rfl, trivial⟩

def twoLive : SessionCache Bool :=
  ⟨fun _ => some SessionSys.sample, fun _ => none, 0, fun _ => none, fun _ => .idle, fun _ => false⟩

theorem twoLive_init : twoLive.Init := ⟨fun _ => rfl, fun _ => rfl, fun _ => rfl, fun _ => rfl⟩

end SessionCache

end Hearth.Identity
