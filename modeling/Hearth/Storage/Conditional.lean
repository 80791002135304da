import Hearth.Storage.Freshness

/-!
# Conditional writes

`put_if_absent` reads and enqueues under its lock; the lock keeps no unconditional write
out, so a key can come back between the read and the write.

`Claimed.step`: between two claims of a key by `put_if_absent` the key was deleted, and a
claim saw the key absent at some moment of its call.
-/

namespace Hearth.Storage

open Base Engine List

variable {crc32 : Bytes → Nat}

def Purpose.IsClaim : Purpose → Prop
  | .putIfAbsent _ => True
  | _ => False

def Writer.IsClaim : Writer → Prop
  | .putIfAbsent _ => True
  | _ => False

namespace Call

/-- The call holds the lock of `put_if_absent`. -/
def HoldsClaim : Call crc32 → Prop
  | .hot _ p | .fill _ p | .active _ p _ | .parked _ p _ | .ssts _ p _ | .promote _ p _ _ =>
    p.IsClaim
  | .enter _ w | .applying _ _ w => w.IsClaim
  | _ => False

/-- A `put_if_absent` that has written this version of the key. -/
def Claims (k : CompositeKey) (i : Nat) : Call crc32 → Prop
  | .applying _ wrote (.putIfAbsent _) | .await wrote (.putIfAbsent _) => (k, i) ∈ wrote
  | .returned (.claimed r version) => r.key = k ∧ version = i
  | _ => False

end Call

namespace EngineThreads

/-! ## Claims -/

section

variable (s : EngineThreads crc32)

/-- The key was absent at version `m`. -/
def Absent (k : CompositeKey) (m : Nat) : Prop := (s.history k)[m]? = some none

/-- The key has been absent since each claim of it, and at some moment of the call. -/
def Cleared (r : Reading) : Prop :=
  (∀ c i, (s.calls c).Claims r.key i → ∃ m, i < m ∧ s.Absent r.key m) ∧ ∃ m, r.versions ≤ m + 1 ∧
    s.Absent r.key m

/-- What a claim leaves: a value, written after a moment of the call at which the key was absent. -/
def Made (r : Reading) (i : Nat) : Prop :=
  (∃ v, (s.history r.key)[i]? = some (some v)) ∧ ∃ m, r.versions ≤ m + 1 ∧ m < i ∧ s.Absent r.key m

def ClaimOk : Call crc32 → Prop
  -- the lock keeps other claims out
  | .hot r p | .fill r p | .active r p _ | .parked r p _ | .ssts r p _ =>
      p.IsClaim → ∀ c i, (s.calls c).Claims r.key i → i < r.versions
  | .enter ops (.putIfAbsent r) => (∃ v, ops = entryOps [(r.key, .data v)]) ∧ s.Cleared r
  | .applying ops wrote (.putIfAbsent r) =>
      (wrote = [] ∧ (∃ v, ops = entryOps [(r.key, .data v)]) ∧ s.Cleared r) ∨
        ∃ i, wrote = [(r.key, i)] ∧ (∀ k v, .insert k v ∉ ops) ∧ s.Made r i
  | .await wrote (.putIfAbsent r) => ∃ i, wrote = [(r.key, i)] ∧ s.Made r i
  | .returned (.claimed r i) => s.Made r i
  | _ => True

structure Claimed : Prop where
  lock : ∀ c, (s.calls c).HoldsClaim → s.putIfAbsentLock = some c
  ok : ∀ c, s.ClaimOk (s.calls c)
  apart : ∀ c c' k i j, c ≠ c' → (s.calls c).Claims k i → (s.calls c').Claims k j →
    i ≠ j ∧ (i < j → ∃ m, i < m ∧ m < j ∧ s.Absent k m)

end

variable {s t : EngineThreads crc32} {c : Nat} {pc : Call crc32} {k : CompositeKey} {r : Reading}

theorem Claimed.init (h : s.Opened) : s.Claimed := by
  refine ⟨fun c hc => ?_, fun c => ?_, fun c c' k i j _ hc => ?_⟩
  · rw [h.calls] at hc
    cases hc
  · rw [h.calls]
    trivial
  · rw [h.calls] at hc
    cases hc

theorem getElem?_of_prefix {α : Type} {l l' : List α} {i : Nat} {a} (h : l <+: l')
    (hi : l[i]? = some a) : l'[i]? = some a := by
  obtain ⟨new, rfl⟩ := h
  rw [getElem?_append_left (List.getElem?_eq_some_iff.1 hi).1]
  exact hi

section

variable (hhist : ∀ k, s.history k <+: t.history k)

include hhist

theorem Absent.mono {m} (h : s.Absent k m) : t.Absent k m :=
  getElem?_of_prefix (hhist k) h

theorem Made.mono {i} (h : s.Made r i) : t.Made r i := by
  obtain ⟨⟨v, hv⟩, m, hm, hlt, habs⟩ := h
  exact ⟨⟨v, getElem?_of_prefix (hhist _) hv⟩, m, hm, hlt, habs.mono hhist⟩

theorem Cleared.mono (h : s.Cleared r)
    (hclaim : ∀ c k i, (t.calls c).Claims k i → (s.calls c).Claims k i) : t.Cleared r := by
  obtain ⟨hsince, m, hm, habs⟩ := h
  refine ⟨fun c i hc => ?_, m, hm, habs.mono hhist⟩
  obtain ⟨m', hlt, habs'⟩ := hsince c i (hclaim c _ i hc)
  exact ⟨m', hlt, habs'.mono hhist⟩

/-- A call carries on if versions are added, and claims only by the holder of the lock. -/
theorem ClaimOk.mono (h : s.ClaimOk pc)
    (hclaim : pc.HoldsClaim → ∀ c k i, (t.calls c).Claims k i → (s.calls c).Claims k i) :
    t.ClaimOk pc := by
  cases pc with
  | hot | fill | active | parked | ssts =>
    exact fun hp c i hc => h hp c i (hclaim hp c _ i hc)
  | enter ops w =>
    cases w with
    | putIfAbsent r => exact ⟨h.1, h.2.mono hhist (hclaim trivial)⟩
    | _ => trivial
  | applying ops wrote w =>
    cases w with
    | putIfAbsent r =>
      rcases h with ⟨hnil, hops, hclear⟩ | ⟨i, hwrote, hnone, hmade⟩
      · exact .inl ⟨hnil, hops, hclear.mono hhist (hclaim trivial)⟩
      · exact .inr ⟨i, hwrote, hnone, hmade.mono hhist⟩
    | _ => trivial
  | await wrote w =>
    cases w with
    | putIfAbsent r =>
      obtain ⟨i, hwrote, hmade⟩ := h
      exact ⟨i, hwrote, hmade.mono hhist⟩
    | _ => trivial
  | returned o =>
    cases o with
    | claimed r i => exact .mono hhist h
    | _ => trivial
  | _ => trivial

end

section

variable (h : s.Claimed)

include h

theorem Claimed.callOk (hpc : s.calls c = pc) : s.ClaimOk pc := hpc ▸ h.ok c

/-- The calls after one of them has moved. -/
theorem Claimed.move (hcalls : t.calls = Function.update s.calls c pc)
    (hlock : ∀ c', (t.calls c').HoldsClaim → t.putIfAbsentLock = some c')
    (hhist : ∀ k, s.history k <+: t.history k)
    (hclaim : ∀ k i, pc.Claims k i → (s.calls c).Claims k i) (hself : s.ClaimOk pc) :
    t.Claimed := by
  have hsub : ∀ c' k i, (t.calls c').Claims k i → (s.calls c').Claims k i :=
    forall_move hcalls hclaim fun _ _ _ _ hc' => hc'
  refine ⟨hlock, ?_, fun c1 c2 k i j hne hc1 hc2 => ?_⟩
  · exact forall_move hcalls (hself.mono hhist fun _ => hsub) fun c' _ =>
      (h.ok c').mono hhist fun _ => hsub
  · obtain ⟨hdiff, hbetw⟩ := h.apart c1 c2 k i j hne (hsub _ _ _ hc1) (hsub _ _ _ hc2)
    refine ⟨hdiff, fun hlt => ?_⟩
    obtain ⟨m, him, hmj, habs⟩ := hbetw hlt
    exact ⟨m, him, hmj, habs.mono hhist⟩

theorem Claimed.goto (hholds : pc.HoldsClaim → (s.calls c).HoldsClaim)
    (hclaim : ∀ k i, pc.Claims k i → (s.calls c).Claims k i) (hself : s.ClaimOk pc) :
    (s.goto c pc).Claimed :=
  h.move rfl (lock_keep h.lock rfl hholds) (fun _ => prefix_rfl) hclaim hself

/-- A call moves to where it neither holds the lock nor claims. -/
theorem Claimed.aside (hself : s.ClaimOk pc) (hholds : ¬ pc.HoldsClaim)
    (hclaim : ∀ k i, ¬ pc.Claims k i) :
    (s.goto c pc).Claimed :=
  h.goto (fun hp => absurd hp hholds) (fun k i hp => absurd hp (hclaim k i)) hself

theorem Claimed.value {i} (hc : (s.calls c).Claims k i) :
    ∃ v, (s.history k)[i]? = some (some v) := by
  have hok := h.ok c
  cases hpc : s.calls c with
  | applying ops wrote w =>
    rw [hpc] at hc hok
    cases w with
    | putIfAbsent r =>
      rcases hok with ⟨rfl, -⟩ | ⟨j, rfl, -, hj⟩
      · cases hc
      · cases mem_singleton.1 hc
        exact hj.1
    | _ => cases hc
  | await wrote w =>
    rw [hpc] at hc hok
    cases w with
    | putIfAbsent r =>
      obtain ⟨j, rfl, hj⟩ := hok
      cases mem_singleton.1 hc
      exact hj.1
    | _ => cases hc
  | returned o =>
    rw [hpc] at hc hok
    cases o with
    | claimed r j =>
      obtain ⟨rfl, rfl⟩ := hc
      exact hok.1
    | _ => cases hc
  | _ =>
    rw [hpc] at hc
    cases hc

theorem Claimed.lt_length {i} (hc : (s.calls c).Claims k i) : i < (s.history k).length := by
  obtain ⟨v, hv⟩ := h.value hc
  exact (List.getElem?_eq_some_iff.1 hv).1

/-- A claim reads the key absent: it has been deleted since every claim of it. -/
theorem Claimed.cleared (hbefore : ∀ c i, (s.calls c).Claims r.key i → i < r.versions)
    (hnone : none ∈ (s.history r.key).drop (r.versions - 1)) : s.Cleared r := by
  obtain ⟨j, hj⟩ := List.mem_iff_getElem?.1 hnone
  rw [getElem?_drop] at hj
  refine ⟨fun c i hc => ⟨_, ?_, hj⟩, _, ?_, hj⟩
  · have hle : i ≤ r.versions - 1 := Nat.le_sub_one_of_lt (hbefore c i hc)
    refine lt_of_le_of_ne (hle.trans (Nat.le_add_right _ _)) fun heq => ?_
    obtain ⟨v, hv⟩ := h.value hc
    rw [heq] at hv
    cases hv.symm.trans hj
  · have hle : r.versions ≤ r.versions - 1 + 1 := Nat.le_add_of_sub_le le_rfl
    exact hle.trans (Nat.succ_le_succ (Nat.le_add_right _ j))

end

/-! ### Steps -/

section

variable {p : Purpose} {guard : Option FillGuard} {a : Option Bytes}

section

variable (h : s.Claimed) (hholds : p.IsClaim → (s.calls c).HoldsClaim)

include h hholds

theorem Claimed.answer (hclear : p.IsClaim → a = none → s.Cleared r) :
    (s.answer c r a p).Claimed := by
  unfold EngineThreads.answer
  split
  · exact h.aside trivial id fun _ _ => id
  · exact h.aside trivial id fun _ _ => id
  · split
    · exact h.move rfl (lock_pass h.lock rfl (.inr (h.lock c (hholds trivial))) nofun)
        (fun _ => prefix_rfl)
        (fun _ _ => nofun) trivial
    · exact h.goto (fun _ => hholds trivial) (fun _ _ => nofun) ⟨⟨_, rfl⟩, hclear trivial rfl⟩
  · split
    · have hfail : (s.goto c (.returned .failed)).Claimed := h.aside trivial id fun _ _ => id
      exact { hfail with }
    · exact h.aside trivial id fun _ _ => id

theorem Claimed.found {data} : (s.found c r p guard data).Claimed := by
  cases guard with
  | none => exact h.answer hholds nofun
  | some g => exact h.goto hholds (fun _ _ => nofun) trivial

theorem Claimed.look {e next} (hok : s.ClaimOk (.active r p guard))
    (he : ∀ v, e = some v → v.live ∈ (s.history r.key).drop (r.versions - 1))
    (hnext : (s.goto c next).Claimed) : (s.look c r p guard e next).Claimed := by
  cases e with
  | none => exact hnext
  | some v =>
    cases v with
    | data d => exact h.found hholds
    | tombstone => exact h.answer hholds fun hp _ => h.cleared (hok hp) (he _ rfl)

end

variable {wrote : List (CompositeKey × Nat)} {w : Writer}

section

variable (h : s.Claimed)

include h

theorem Claimed.claim {v ops}
    (hpc : s.calls c = .applying (.insert k v :: ops) wrote (.putIfAbsent r)) :
    ((s.insert k v).goto c
      (.applying ops ((k, (s.history k).length) :: wrote) (.putIfAbsent r))).Claimed := by
  obtain ⟨rfl, ⟨d, hops⟩, hclear⟩ | ⟨i, -, hnone, -⟩ := h.callOk hpc
  swap
  · exact absurd mem_cons_self (hnone k v)
  injection hops with hhead hops
  injection hhead with hk hv
  subst hk hv hops
  have hpre : ∀ k', s.history k' <+: (s.insert r.key (.data d)).history k' :=
    history_isPrefix_insert
  have hlen : ((s.insert r.key (.data d)).history r.key)[(s.history r.key).length]? = some
    (some d) := by
    rw [history_insert_self, getElem?_concat_length]
    rfl
  have hlt : ∀ {m}, s.Absent r.key m → m < (s.history r.key).length := fun habs =>
    (List.getElem?_eq_some_iff.1 habs).1
  obtain ⟨hsince, m, hm, habs⟩ := hclear
  have hmade : (s.insert r.key (.data d)).Made r (s.history r.key).length :=
    ⟨⟨d, hlen⟩, m, hm, hlt habs, habs.mono hpre⟩
  have hself : ∀ {k' i}, (k', i) ∈ [(r.key, (s.history r.key).length)] → k' = r.key ∧
    i = (s.history r.key).length :=
    fun hc => Prod.mk.inj (mem_singleton.1 hc)
  refine ⟨lock_keep h.lock rfl fun _ => hpc ▸ trivial, ?_, fun c1 c2 k' i j hne hc1 hc2 => ?_⟩
  · refine forall_goto ?_ fun c' heq => ?_
    · exact .inr ⟨_, rfl, insert_notMem_invalidateOps, hmade⟩
    · refine (h.ok c').mono hpre fun hholds => ?_
      have hlock : s.putIfAbsentLock = some c := h.lock c (hpc ▸ trivial)
      exact absurd (Option.some.inj ((h.lock c' hholds).symm.trans hlock)) heq
  · by_cases h1 : c1 = c
    · by_cases h2 : c2 = c
      · exact absurd (h1.trans h2.symm) hne
      · rw [h1, calls_goto_self] at hc1
        rw [calls_goto_of_ne h2] at hc2
        obtain ⟨rfl, rfl⟩ := hself hc1
        have hlt := h.lt_length hc2
        exact ⟨ne_of_gt hlt, fun hgt => absurd hgt (lt_asymm hlt)⟩
    · rw [calls_goto_of_ne h1] at hc1
      by_cases h2 : c2 = c
      · rw [h2, calls_goto_self] at hc2
        obtain ⟨rfl, rfl⟩ := hself hc2
        obtain ⟨m', him, habs'⟩ := hsince c1 i hc1
        exact ⟨ne_of_lt (h.lt_length hc1), fun _ => ⟨m', him, hlt habs', habs'.mono hpre⟩⟩
      · rw [calls_goto_of_ne h2] at hc2
        obtain ⟨hdiff, hbetw⟩ := h.apart c1 c2 k' i j hne hc1 hc2
        refine ⟨hdiff, fun hij => ?_⟩
        obtain ⟨m', him, hmj, habs'⟩ := hbetw hij
        exact ⟨m', him, hmj, habs'.mono hpre⟩

theorem Claimed.fail (hholds : w.IsClaim → (s.calls c).HoldsClaim) : (s.fail c w).Claimed := by
  have hfail : (s.goto c (.returned .failed)).Claimed := h.aside trivial id fun _ _ => id
  cases w with
  | plain => exact hfail
  | putIfAbsent r =>
    exact h.move rfl (lock_pass h.lock rfl (.inr (h.lock c (hholds trivial))) nofun) (fun _ => prefix_rfl)
      (fun _ _ => nofun) trivial
  | increment r next => exact { hfail with }

theorem Claimed.invalidated {op ops}
    (hpc : s.calls c = .applying (op :: ops) wrote w) (hop : ∀ k v, op ≠ .insert k v) :
    (s.goto c (.applying ops wrote w)).Claimed := by
  have hok := h.callOk hpc
  cases w with
  | putIfAbsent r =>
    refine h.goto (fun hw => hpc ▸ hw) (fun k i hin => hpc ▸ hin) ?_
    rcases hok with ⟨-, ⟨v, hops⟩, -⟩ | ⟨i, hwrote, hnone, hmade⟩
    · exact absurd (cons.inj hops).1 (hop _ _)
    · exact .inr ⟨i, hwrote, fun k v hin => hnone k v (mem_cons_of_mem _ hin), hmade⟩
  | _ => exact h.aside trivial id fun _ _ => id

theorem Claimed.leave (hpc : s.calls c = .applying [] wrote w) : (s.leave c wrote w).Claimed := by
  have hok := h.callOk hpc
  cases w with
  | putIfAbsent r =>
    have hlock : s.putIfAbsentLock = some c := h.lock c (hpc ▸ trivial)
    refine h.move rfl (lock_pass h.lock rfl (.inr hlock) nofun) (fun _ => prefix_rfl)
      (fun k i hin => hpc ▸ hin) ?_
    rcases hok with ⟨-, ⟨v, hops⟩, -⟩ | ⟨i, hwrote, -, hmade⟩
    · cases hops
    · exact ⟨i, hwrote, hmade⟩
  | _ =>
    exact h.move rfl (lock_keep h.lock rfl nofun) (fun _ => prefix_rfl) (fun _ _ => nofun) trivial

theorem Claimed.durable
    (hpc : s.calls c = .await wrote w) : ((s.acknowledge wrote).durable c wrote w).Claimed := by
  have hok := h.callOk hpc
  cases w with
  | putIfAbsent r =>
    obtain ⟨i, rfl, hmade⟩ := hok
    refine h.move rfl (lock_keep h.lock rfl nofun) (fun _ => prefix_rfl) (fun k j hin => ?_) hmade
    obtain ⟨rfl, rfl⟩ := hin
    rw [hpc]
    exact mem_singleton.2 rfl
  | _ =>
    exact h.move rfl (lock_keep h.lock rfl nofun) (fun _ => prefix_rfl) (fun _ _ => nofun) trivial

theorem Claimed.call {bumped settled} (hvis : s.Visible) (hfresh : Fresh bumped settled s)
    (hstep : CallStep c s t) : t.Claimed := by
  cases hstep with
  | getStart k hpc | getUncachedStart k hpc | uncachedMiss hpc _ =>
      exact h.aside (by rintro ⟨⟩) id fun _ _ => id
  | putIfAbsentStart k value hpc hlock =>
    exact h.move rfl (lock_pass h.lock rfl (.inl hlock) fun _ => rfl) (fun _ => prefix_rfl)
      (by rintro _ _ ⟨⟩)
      fun _ _ _ hc => h.lt_length hc
  | incrementStart k hpc _ =>
    have hgoto : (s.goto c (.hot (s.reading k) .increment)).Claimed :=
      h.aside (by rintro ⟨⟩) id fun _ _ => id
    exact { hgoto with }
  | writeStart w hpc => exact h.aside trivial id fun _ _ => id
  | @hotHit r p v hpc hhit =>
    have hhot : Claimed { s with hotTier := (s.hotTier.get r.key.realmId r.key.key).2 } := { h with }
    exact hhot.answer (fun hp => hpc ▸ hp) (by rintro _ ⟨⟩)
  | hotMiss hpc _ _ | beginFill hpc =>
    have hok := h.callOk hpc
    exact h.goto (fun hp => hpc ▸ hp) (by rintro _ _ ⟨⟩) hok
  | lookActive hpc =>
    have hok := h.callOk hpc
    exact h.look (fun hp => hpc ▸ hp) hok
      (fun v hv => (hfresh.below_active hvis (hfresh.callOk hpc) hv).1)
      (h.goto (fun hp => hpc ▸ hp) (by rintro _ _ ⟨⟩) hok)
  | lookParked hpc =>
    have hok := h.callOk hpc
    exact h.look (fun hp => hpc ▸ hp) hok
      (fun v hv => (Under.below_parked (hfresh.callOk hpc) hv).1)
      (h.goto (fun hp => hpc ▸ hp) (by rintro _ _ ⟨⟩) hok)
  | sstHit hpc _ => exact h.found fun hp => hpc ▸ hp
  | sstMiss hpc hget =>
    have hbelow := Under.below_ssts (hfresh.callOk hpc)
    rw [hget] at hbelow
    exact h.answer (fun hp => hpc ▸ hp) fun hp _ => h.cleared (h.callOk hpc hp) hbelow.1
  | @promote r p guard data hpc =>
    have hhot : Claimed { s with hotTier := s.hotTier.promote guard r.key.realmId r.key.key data } :=
      { h with }
    exact hhot.answer (fun hp => hpc ▸ hp) (by rintro _ ⟨⟩)
  | @fenced ops w hpc => exact h.fail fun hw => hpc ▸ hw
  | @enter ops w hpc _ =>
    have hok := h.callOk hpc
    have happly : (s.goto c (.applying ops [] w)).Claimed := by
      cases w with
      | putIfAbsent r => exact h.goto (fun hw => hpc ▸ hw) (by rintro _ _ ⟨⟩) (.inl ⟨rfl, hok⟩)
      | _ => exact h.aside trivial id fun _ _ => id
    exact { happly with }
  | @insert k v ops wrote w hpc _ =>
    cases w with
    | putIfAbsent r => exact h.claim hpc
    | _ =>
      exact h.move rfl (lock_keep h.lock rfl (by rintro ⟨⟩)) history_isPrefix_insert
        (by rintro _ _ ⟨⟩) trivial
  | bump hpc | remove hpc =>
    have hgoto := h.invalidated hpc (by rintro _ _ ⟨⟩)
    exact { hgoto with }
  | leave hpc => exact h.leave hpc
  | durable hpc => exact h.durable hpc
  | @lost wrote w hpc =>
    have hlost : (s.goto c (.returned (.lost wrote w))).Claimed := h.aside trivial id fun _ _ => id
    cases w with
    | _ => exact { hlost with }
  | walkStart _ _ _ hpc | loadActive hpc | loadParked hpc | readActive hpc | readParked hpc | loadSsts hpc
    | walked hpc => exact h.aside trivial id fun _ _ => id

theorem Claimed.step {actor bumped settled} (hvis : s.Visible) (hfresh : Fresh bumped settled s)
    (hstep : ThreadStep actor s t) : t.Claimed := by
  cases actor with
  | call c => exact h.call hvis hfresh hstep
  | upkeep | reabsorb | clear =>
    obtain ⟨_, _, _, _, _, _, _, _, _, rfl⟩ := hstep.frame nofun
    exact { h with }

end

end

end EngineThreads

end Hearth.Storage
