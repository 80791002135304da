import Hearth.Storage.SnapshotReads

/-!
# Point reads

A point read looks into the hot tier, the active map, the parked slot and the files, in this
order. A flush that fails folds its map back into the active map and clears the slot, so a
read between its looks into the two maps misses the keys of that map.

A version has been *bumped* when the epoch of its shard has moved after it was inserted, and
is *settled* when the entry has been removed after that. A fill is opened before the value
is read, so a fill that is still current holds a version that is not older than the newest
bumped one, and what is cached is not older than the newest settled one.

If no slot is cleared under a read of one of its keys:
1. `get_not_older`: a `get` that starts after a write of its key has returned does not
   return an older version.
2. `reads_never_miss`: a read returns the value of a key that nobody writes meanwhile.

`acknowledged_write_missed`, `reabsorbed_key_missed`: the failed flush.
-/

namespace Hearth.Storage

open Base Engine List Function HotTier

variable {crc32 : Bytes → Nat}

/-- The oldest version that the read may return. -/
def Reading.floor (r : Reading) : Nat := max r.acked (if r.calm then r.versions - 1 else 0)

/-- The call is in the critical section of the log, and has inserted this version of the key. -/
def Call.Inserted (k : CompositeKey) (i : Nat) : Call crc32 → Prop
  | .applying _ wrote _ => (k, i) ∈ wrote
  | _ => False

namespace EngineThreads

/-- The slot of a failed flush is not cleared while a point read of one of its keys is between its
looks into the two maps. -/
def Unhurried (actor : Actor) (s : EngineThreads crc32) : Prop :=
  match actor with
  | .clear => ∀ c r p guard, s.calls c = .parked r p guard → s.parkedEntry r.key = none
  | _ => True

/-! ## The invariant -/

section

variable (bumped settled : CompositeKey → Nat)

/-- The version is settled, or the rest of the section settles it. -/
def Owed (ops : List ApplyOp) (e : CompositeKey × Nat) : Prop :=
  e.2 ≤ settled e.1 ∨ (e.2 ≤ bumped e.1 ∧ .remove e.1 ∈ ops) ∨ (invalidateOps e.1).Sublist ops

variable (s : EngineThreads crc32)

/-- A fill that is still current satisfies `P`. -/
def GuardOk (k : CompositeKey) (P : Prop) (guard : FillGuard) : Prop :=
  guard.epoch ≤ s.hotTier.epoch k ∧ (s.hotTier.epoch k = guard.epoch → P)

/-- The answers for `k` that are not older than version `n`. -/
def Recent (k : CompositeKey) (n : Nat) (k' : CompositeKey) (x : Option Bytes) : Prop :=
  k' = k → x ∈ (s.history k).drop n

/-- A read that did not find the key in the active map finds version `n` or a newer one below;
`passed` if it has also looked into the parked slot. -/
def Floor (passed : Bool) (k : CompositeKey) (n : Nat) : Prop :=
  n < (s.history k).length ∧ (∀ v, s.parkedEntry k = some v → v.live ∈ (s.history k).drop n) ∧
    (passed = true ∨ s.parkedEntry k = none →
      Stack (s.Recent k n) s.dir s.sstReaders s.sstCounter s.merging)

/-- A read that has not yet looked below the hot tier. -/
def Began (r : Reading) : Prop :=
  r.floor < r.versions ∧ r.versions ≤ (s.history r.key).length ∧ r.floor ≤ settled r.key

def Under (passed : Bool) (r : Reading) (guard : Option FillGuard) : Prop :=
  r.floor < r.versions ∧ s.Floor passed r.key (r.versions - 1) ∧
    ∀ g ∈ guard, s.GuardOk r.key (s.Floor passed r.key (bumped r.key)) g

/-- What a read may have found below the hot tier. -/
def Below (r : Reading) (guard : Option FillGuard) (a : Option Bytes) : Prop :=
  a ∈ (s.history r.key).drop (r.versions - 1) ∧
    ∀ g ∈ guard, s.GuardOk r.key (a ∈ (s.history r.key).drop (bumped r.key)) g

def CallOk (c : Nat) : Call crc32 → Prop
  | .hot r _ | .fill r _ => Began settled s r
  | .active r _ guard => Began settled s r ∧ ∀ g ∈ guard, s.GuardOk r.key True g
  | .parked r _ guard => Under bumped s false r guard
  | .ssts r _ guard => Under bumped s true r guard
  | .promote r _ guard data => some data ∈ (s.history r.key).drop r.floor ∧
      s.GuardOk r.key (some data ∈ (s.history r.key).drop (bumped r.key)) guard
  | .enter ops _ => Disciplined ops
  | .applying ops wrote _ => s.wal = some c ∧ Disciplined ops ∧
      ∀ e ∈ wrote, e.2 < (s.history e.1).length ∧ Owed bumped settled ops e
  | .await wrote _ => ∀ e ∈ wrote, e.2 ≤ settled e.1
  | .returned (.got r a) => a ∈ (s.history r.key).drop r.floor
  | _ => True

structure Fresh : Prop where
  settled_le : ∀ k, settled k ≤ bumped k
  bumped_lt : ∀ k, bumped k < (s.history k).length
  acked_le : ∀ k, s.acked k ≤ settled k
  /-- The newest version is settled, or its write is still in its section. -/
  newest : ∀ k, (s.history k).length ≤ settled k + 1 ∨
    ∃ c, (s.calls c).Inserted k ((s.history k).length - 1)
  cached : ∀ k v, s.hotTier.cached k = some v → some v ∈ (s.history k).drop (settled k)
  calls : ∀ c, CallOk bumped settled s c (s.calls c)

end

variable {s t : EngineThreads crc32} {bumped settled : CompositeKey → Nat} {c : Nat}
  {pc : Call crc32} {k : CompositeKey} {r : Reading} {a : Option Bytes}

theorem Fresh.init (h : s.Opened) : Fresh (fun _ => 0) (fun _ => 0) s := by
  have hlen : ∀ k, (s.history k).length = 1 := fun k => by rw [h.history, length_singleton]
  refine ⟨fun _ => le_refl 0, fun k => hlen k ▸ one_pos, fun k => (h.acked k).le,
    fun k => .inl (hlen k).le, fun k v hv => ?_, fun c => ?_⟩
  · obtain ⟨config, hashBuilder, hhot⟩ := h.hotTier
    rw [hhot] at hv
    cases hv
  · rw [h.calls]
    trivial

/-! ## Floors -/

section

variable {passed : Bool} {n : Nat}

/-- The newest version is not older than any other. -/
theorem ref_mem (hn : n < (s.history k).length) : s.ref k ∈ (s.history k).drop n := by
  have hne : (s.history k).drop n ≠ [] := fun hnil => absurd (drop_eq_nil_iff.1 hnil) (not_le.2 hn)
  have hlast : s.ref k = ((s.history k).drop n).getLast hne := by
    rw [getLast_drop, ref, getLastD_eq_getLast?, getLast?_eq_some_getLast, Option.getD_some]
  rw [hlast]
  exact getLast_mem hne

theorem mem_newest (ha : a ∈ (s.history k).drop ((s.history k).length - 1)) : a = s.ref k := by
  have hpos : 0 < (s.history k).length := length_pos_of_mem (mem_of_mem_drop ha)
  have href := ref_mem (Nat.sub_lt hpos one_pos)
  have hone : ((s.history k).drop ((s.history k).length - 1)).length = 1 := by
    rw [length_drop, Nat.sub_sub_self hpos]
  obtain ⟨b, hb⟩ := length_eq_one_iff.1 hone
  rw [hb] at ha href
  rw [mem_singleton.1 ha, mem_singleton.1 href]

/-- The active map does not have the key: the newest version is below. -/
theorem Visible.floor (h : s.Visible) (he : s.entry s.active k = none)
    (hn : n < (s.history k).length) : s.Floor false k n := by
  have hheld : s.held k = s.parkedEntry k := by rw [held, he, Option.none_or]
  refine ⟨hn, fun v hv => h.newest k v (hheld.trans hv) ▸ ref_mem hn,
    fun hnone => h.stack.mono ?_⟩
  rintro _ x hx rfl
  rw [hx (hheld.trans (hnone.resolve_left Bool.false_ne_true))]
  exact ref_mem hn

theorem Floor.pass (h : s.Floor false k n) (hnone : s.parkedEntry k = none) : s.Floor true k n :=
  ⟨h.1, h.2.1, fun _ => h.2.2 (.inr hnone)⟩

theorem Floor.insert (h : s.Floor passed k n) (hflush : s.FlushOk) (hparking : s.flush ≠ .parking)
    {k' v} : (s.insert k' v).Floor passed k n := by
  have hparked : (s.insert k' v).parkedEntry k = s.parkedEntry k := by
    cases hp : s.parked with
    | none =>
      show s.parked.bind _ = s.parked.bind _
      rw [hp, Option.bind_none, Option.bind_none]
    | some m =>
      rw [parkedEntry_eq hp, parkedEntry_eq (s := s.insert k' v) hp]
      exact entry_insert_of_pointer (ne_of_lt ((hflush.parked_le hp).2 hparking))
  have hpre : s.history k <+: (s.insert k' v).history k := history_isPrefix_insert k
  refine ⟨lt_of_lt_of_le h.1 hpre.length_le, fun u hu => ?_, fun hnone => ?_⟩
  · exact (hpre.drop n).subset (h.2.1 u (hparked ▸ hu))
  · exact (h.2.2 (hparked ▸ hnone)).mono fun _ x hx hk => (hpre.drop n).subset (hx hk)

section

variable (h : s.Floor passed k n)

include h

/-- The parked slot keeps its entry, and the files are changed by a flush or a compaction. -/
theorem Floor.files (hhist : t.history k = s.history k)
    (hparked : t.parkedEntry k = s.parkedEntry k)
    (hstack : ∀ {good}, Stack good s.dir s.sstReaders s.sstCounter s.merging →
      (∀ k v, s.parkedEntry k = some v → good k v.live) →
      Stack good t.dir t.sstReaders t.sstCounter t.merging) : t.Floor passed k n := by
  obtain ⟨hlt, hentry, hfiles⟩ := h
  unfold Floor Recent
  rw [hhist, hparked]
  refine ⟨hlt, hentry, fun hnone => hstack (hfiles hnone) ?_⟩
  rintro _ v hv rfl
  exact hentry v hv

theorem Floor.dropParked (hvis : s.Visible) (hphase : s.flush = .registered) :
    Floor { s with parked := none, flush := .idle } passed k n := by
  have hflush := hvis.flush
  rw [FlushOk, hphase] at hflush
  obtain ⟨m, r, older, hpark, -, hreads, hload, hents, hnum⟩ := hflush
  refine ⟨h.1, by rintro _ ⟨⟩, fun _ => ?_⟩
  cases hv : s.parkedEntry k with
  | none => exact h.2.2 (.inr hv)
  | some v =>
    -- the registered file answers for the key
    have hval : valueAt r.2.entries k = some v := by rw [hents, ← parkedEntry_eq hpark, hv]
    refine hvis.stack.drop hload (hreads ▸ mem_cons_self) ?_ hnum ?_
    · rintro _ hnone _ _ rfl
      cases hnone.symm.trans hval
    · rintro _ rfl
      rw [hreads, lookup_cons, hval]
      exact h.2.1 v hv

theorem Floor.upkeep (hvis : s.Visible) (hstep : UpkeepStep s t) : t.Floor passed k n := by
  have hstack : ∀ {good}, Stack good s.dir s.sstReaders s.sstCounter s.merging →
      (∀ k v, s.parkedEntry k = some v → good k v.live) →
      Stack good t.dir t.sstReaders t.sstCounter t.merging :=
    fun hgood hparked => hstep.stack hgood hparked hvis.listed
  cases hstep with
  | park hphase _ =>
    have hpark : s.parked = none := hvis.flushAt hphase
    have hnone : s.parkedEntry k = none := by rw [parkedEntry, hpark, Option.bind_none]
    exact ⟨h.1, fun v hv => hvis.active_newest hv ▸ ref_mem h.1, fun _ => h.2.2 (.inr hnone)⟩
  | switch hphase =>
    have hpark : s.parked = some s.active := hvis.flushAt hphase
    refine h.files rfl ?_ hstack
    show s.parked.bind (fun m => (update s.maps s.made ∅ m)[k]?) = s.parkedEntry k
    rw [parkedEntry_eq hpark, hpark]
    exact (entry_switch hvis.active k).1
  | dropParked hphase => exact h.dropParked hvis hphase
  | register | beginFull | mergeFail | beginPartial | commit => exact h.files rfl rfl hstack

theorem Floor.reabsorb (hvis : s.Visible) (hstep : ReabsorbStep s t) : t.Floor passed k n := by
  have hparked : ∀ {m}, s.flush = .parked → s.parked = some m →
      (s.reabsorb m).parkedEntry k = s.parkedEntry k := by
    intro m hphase hpark
    rw [parkedEntry_eq hpark, parkedEntry_eq (s := s.reabsorb m) hpark]
    exact entry_reabsorb_of_ne (ne_of_lt (hvis.parked_below hphase hpark))
  have hstack : ∀ {good}, Stack good s.dir s.sstReaders s.sstCounter s.merging →
      (∀ k v, s.parkedEntry k = some v → good k v.live) →
      Stack good t.dir t.sstReaders t.sstCounter t.merging :=
    fun hgood hparked => hstep.stack hgood hparked
  cases hstep with
  | unpublished hphase hpark | published hphase hpark _ =>
    exact h.files rfl (hparked hphase hpark) hstack

/-- The slot is cleared behind the read, or does not have its key. -/
theorem Floor.clear (hclear : passed = true ∨ s.parkedEntry k = none) (hstep : ClearStep s t) :
    t.Floor passed k n := by
  cases hstep with
  | clear => exact ⟨h.1, nofun, fun _ => h.2.2 hclear⟩

end

end

/-! ## Invalidations -/

section

variable {ops : List ApplyOp} {v : MemtableValue} {e : CompositeKey × Nat}

theorem Owed.insert (h : Owed bumped settled (.insert k v :: ops) e) :
    Owed bumped settled ops e := by
  refine h.imp_right (.imp (fun ⟨hb, hrem⟩ => ⟨hb, (mem_cons.1 hrem).resolve_left nofun⟩)
    fun hsub => ?_)
  cases hsub with
  | cons _ hsub => exact hsub

theorem Owed.bump (h : Owed bumped settled (.bump k :: ops) e) {n}
    (he : e.1 = k → e.2 ≤ n) : Owed (update bumped k n) settled ops e := by
  have hle : e.2 ≤ bumped e.1 → e.2 ≤ update bumped k n e.1 := by
    intro hb
    by_cases heq : e.1 = k
    · rw [heq, update_self]
      exact he heq
    · rwa [update_of_ne heq]
  rcases h with h | ⟨hb, hrem⟩ | hsub
  · exact .inl h
  · exact .inr (.inl ⟨hle hb, (mem_cons.1 hrem).resolve_left nofun⟩)
  · cases hsub with
    | cons _ hsub => exact .inr (.inr hsub)
    | cons_cons _ hsub =>
      refine .inr (.inl ⟨?_, singleton_sublist.1 hsub⟩)
      rw [update_self]
      exact he rfl

theorem Owed.remove (h : Owed bumped settled (.remove k :: ops) e)
    (hle : ∀ k, settled k ≤ bumped k) : Owed bumped (update settled k (bumped k)) ops e := by
  by_cases heq : e.1 = k
  · rcases h with h | ⟨hb, -⟩ | hsub
    · exact .inl (by rw [heq, update_self]; exact (heq ▸ h).trans (hle k))
    · exact .inl (by rw [heq, update_self]; exact heq ▸ hb)
    · cases hsub with
      | cons _ hsub => exact .inr (.inr hsub)
  · rcases h with h | ⟨hb, hrem⟩ | hsub
    · exact .inl (by rwa [update_of_ne heq])
    · refine .inr (.inl ⟨hb, (mem_cons.1 hrem).resolve_left fun hk => heq ?_⟩)
      injection hk
    · cases hsub with
      | cons _ hsub => exact .inr (.inr hsub)

/-- The rest of the section does not touch the key. -/
theorem Owed.untouched (h : Owed bumped settled ops e) (hno : ∀ op ∈ ops, op.key ≠ e.1) :
    e.2 ≤ settled e.1 := by
  rcases h with h | ⟨-, hrem⟩ | hsub
  · exact h
  · exact absurd rfl (hno _ hrem)
  · exact absurd rfl (hno _ (hsub.subset mem_cons_self))

end

/-! ## Reads -/

theorem GuardOk.imp {P Q g} (h : s.GuardOk k P g) (hpq : P → Q) : s.GuardOk k Q g :=
  ⟨h.1, fun he => hpq (h.2 he)⟩

variable {p : Purpose} {guard : Option FillGuard}

section

variable {passed : Bool} {v : MemtableValue}

theorem Began.lt_length (h : Began settled s r) : r.versions - 1 < (s.history r.key).length :=
  lt_of_lt_of_le (Nat.sub_lt (Nat.zero_lt_of_lt h.1) one_pos) h.2.1

theorem Fresh.below_active (h : Fresh bumped settled s) (hvis : s.Visible)
    (hok : CallOk bumped settled s c (.active r p guard)) (he : s.entry s.active r.key = some v) :
    Below bumped s r guard v.live := by
  have hmem : ∀ n < (s.history r.key).length, v.live ∈ (s.history r.key).drop n :=
    fun n hn => hvis.active_newest he ▸ ref_mem hn
  exact ⟨hmem _ hok.1.lt_length, fun g hg => (hok.2 g hg).imp fun _ => hmem _ (h.bumped_lt _)⟩

theorem Under.below_parked (h : Under bumped s passed r guard)
    (he : s.parkedEntry r.key = some v) : Below bumped s r guard v.live :=
  ⟨h.2.1.2.1 v he, fun g hg => (h.2.2 g hg).imp fun hfloor => hfloor.2.1 v he⟩

theorem Under.below_ssts (h : Under bumped s true r guard) :
    Below bumped s r guard (sstGet s.sstReaders r.key.realmId r.key.key) := by
  have hmem : ∀ {n}, s.Floor true r.key n →
      sstGet s.sstReaders r.key.realmId r.key.key ∈ (s.history r.key).drop n := by
    intro n hfloor
    rw [sstGet_eq]
    exact (hfloor.2.2 (.inl rfl)).serves r.key rfl
  exact ⟨hmem h.2.1, fun g hg => (h.2.2 g hg).imp hmem⟩

end

theorem Below.mem (h : Below bumped s r guard a) (hfloor : r.floor < r.versions) :
    a ∈ (s.history r.key).drop r.floor :=
  (drop_sublist_drop_left _ (Nat.le_sub_one_of_lt hfloor)).subset h.1

section

variable (h : Fresh bumped settled s)

include h

theorem Fresh.callOk (hpc : s.calls c = pc) : CallOk bumped settled s c pc := hpc ▸ h.calls c

/-- What a read starts with. -/
theorem Fresh.began (k) : Began settled s (s.reading k) := by
  have hpos : 0 < (s.history k).length := Nat.zero_lt_of_lt (h.bumped_lt k)
  have hcalm : (s.reading k).calm = true → (s.history k).length - 1 ≤ settled k := by
    intro hcalm
    rcases h.newest k with hle | ⟨c, hc⟩
    · exact Nat.sub_le_of_le_add hle
    · cases hpc : s.calls c with
      | applying ops wrote w =>
        rw [hpc] at hc
        obtain ⟨hwal, -, howed⟩ := h.callOk hpc
        have hall : s.wal.all (fun c => !(s.calls c).touches k) = true := hcalm
        rw [hwal, Option.all_some, hpc] at hall
        exact (howed _ hc).2.untouched (by simpa [Call.touches] using hall)
      | _ =>
        rw [hpc] at hc
        cases hc
  have hacked := (h.acked_le k).trans (h.settled_le k)
  refine ⟨max_lt (lt_of_le_of_lt hacked (h.bumped_lt k)) ?_, le_rfl, max_le (h.acked_le k) ?_⟩
  · split
    · exact Nat.sub_lt hpos one_pos
    · exact hpos
  · split
    · next hc => exact hcalm hc
    · exact Nat.zero_le _

section

variable (hold : ∀ k i, ¬ (s.calls c).Inserted k i)

include hold

/-- A call outside the critical section moves. -/
theorem Fresh.goto (hpc : CallOk bumped settled s c pc) : Fresh bumped settled (s.goto c pc) :=
  { h with
    newest := fun k => (h.newest k).imp_right (exists_move rfl fun hc => absurd hc (hold _ _))
    calls := forall_goto hpc fun c' _ => h.calls c' }

/-- A point read returns, or goes on to the write it was for. -/
theorem Fresh.answer (ha : a ∈ (s.history r.key).drop r.floor) :
    Fresh bumped settled (s.answer c r a p) := by
  have hret : ∀ o, CallOk bumped settled s c (.returned o) →
      Fresh bumped settled (s.goto c (.returned o)) := fun o => h.goto hold
  unfold EngineThreads.answer
  split
  · exact hret _ ha
  · exact hret _ ha
  · split
    · exact { hret (.taken r) trivial with }
    · exact h.goto hold (disciplined_entry _)
  · split
    · exact { hret .failed trivial with }
    · exact h.goto hold (disciplined_entry _)

variable (hfloor : r.floor < r.versions)

include hfloor

theorem Fresh.found {data} (hdata : Below bumped s r guard (some data)) :
    Fresh bumped settled (s.found c r p guard data) := by
  cases guard with
  | none => exact h.answer hold (hdata.mem hfloor)
  | some g => exact h.goto hold ⟨hdata.mem hfloor, hdata.2 g rfl⟩

theorem Fresh.look {e next} (he : ∀ v, e = some v → Below bumped s r guard v.live)
    (hnext : e = none → CallOk bumped settled s c next) :
    Fresh bumped settled (s.look c r p guard e next) := by
  cases e with
  | none => exact h.goto hold (hnext rfl)
  | some v =>
    cases v with
    | data d => exact h.found hold hfloor (he _ rfl)
    | tombstone => exact h.answer hold ((he _ rfl).mem hfloor)

end

end

/-! ## Changes that other calls notice -/

/-- What a call may find of an operation that another has done. -/
structure Advances (bumped settled : CompositeKey → Nat) (s : EngineThreads crc32)
    (bumped' settled' : CompositeKey → Nat) (t : EngineThreads crc32) : Prop where
  settled : ∀ k, settled k ≤ settled' k := by exact fun _ => le_refl _
  history : ∀ k, s.history k <+: t.history k := by exact fun _ => prefix_rfl
  epoch : ∀ k, s.hotTier.epoch k ≤ t.hotTier.epoch k := by exact fun _ => le_refl _
  bumped : ∀ k, t.hotTier.epoch k = s.hotTier.epoch k → bumped' k = bumped k := by exact fun _ _ =>
    rfl

variable {bumped' settled' : CompositeKey → Nat}

section

variable (hnew : Advances bumped settled s bumped' settled' t)

include hnew

theorem GuardOk.mono {P Q g} (h : s.GuardOk k P g) (hpq : bumped' k = bumped k → P → Q) :
    t.GuardOk k Q g := by
  refine ⟨h.1.trans (hnew.epoch k), fun heq => ?_⟩
  have hsame : s.hotTier.epoch k = g.epoch := le_antisymm (heq ▸ hnew.epoch k) h.1
  exact hpq (hnew.bumped k (heq.trans hsame.symm)) (h.2 hsame)

theorem Under.mono {passed} (h : Under bumped s passed r guard)
    (hfloor : ∀ n, s.Floor passed r.key n → t.Floor passed r.key n) :
    Under bumped' t passed r guard :=
  ⟨h.1, hfloor _ h.2.1, fun g hg => (h.2.2 g hg).mono hnew fun hb hf => hb ▸ hfloor _ hf⟩

theorem Began.mono (h : Began settled s r) : Began settled' t r :=
  ⟨h.1, h.2.1.trans (hnew.history _).length_le, h.2.2.trans (hnew.settled _)⟩

/-- A call carries on if versions are added, settled or bumped, every bump moves its epoch, and the
layers below keep what it has not looked into. -/
theorem CallOk.mono (h : CallOk bumped settled s c pc)
    (hparked : ∀ r p guard, pc = .parked r p guard →
      ∀ n, s.Floor false r.key n → t.Floor false r.key n)
    (hssts : ∀ k n, s.Floor true k n → t.Floor true k n)
    (happlying : ∀ ops wrote w, pc = .applying ops wrote w → CallOk bumped' settled' t c pc) :
    CallOk bumped' settled' t c pc := by
  have hmem : ∀ {k n} {a : Option Bytes}, a ∈ (s.history k).drop n → a ∈ (t.history k).drop n :=
    fun hv => ((hnew.history _).drop _).subset hv
  cases pc with
  | hot r p | fill r p => exact Began.mono hnew h
  | active r p guard => exact ⟨h.1.mono hnew, fun g hg => (h.2 g hg).mono hnew fun _ => id⟩
  | parked r p guard => exact Under.mono hnew h (hparked r p _ rfl)
  | ssts r p guard => exact Under.mono hnew h (hssts r.key)
  | promote r p g data => exact ⟨hmem h.1, h.2.mono hnew fun hb => hb ▸ hmem⟩
  | applying ops wrote w => exact happlying ops _ w rfl
  | await wrote w => exact fun e he => (h e he).trans (hnew.settled e.1)
  | returned o =>
    cases o with
    | got r a => exact hmem h
    | _ => trivial
  | enter => exact h
  | idle | walkActive | walkParked | walking => trivial

end

/-- A change of the cache that moves no epoch. -/
theorem Fresh.setHot (h : Fresh bumped settled s) {t} (hepoch : ∀ k, t.epoch k = s.hotTier.epoch k)
    (hcache : ∀ k v, t.cached k = some v → some v ∈ (s.history k).drop (settled k)) :
    Fresh bumped settled { s with hotTier := t } := by
  refine { h with cached := hcache, calls := fun c => ?_ }
  refine (h.calls c).mono { epoch := fun k => le_of_eq (hepoch k).symm } (fun _ _ _ _ _ => id)
    (fun _ _ => id) fun ops wrote w hpc => ?_
  have hok := h.calls c
  rw [hpc] at hok ⊢
  exact hok

/-- No other call is in the critical section; the call in it, or about to enter it, moves on. -/
theorem Fresh.advance (h : Fresh bumped settled s) (hwal : ∀ c' ∈ s.wal, c' = c)
    (hcalls : t.calls = update s.calls c pc) (hself : CallOk bumped' settled' t c pc)
    (hnew : Advances bumped settled s bumped' settled' t)
    (hfloor : ∀ passed k n, s.Floor passed k n → t.Floor passed k n) :
    ∀ c', CallOk bumped' settled' t c' (t.calls c') := by
  refine forall_move hcalls hself fun c' hc => ?_
  refine (h.calls c').mono hnew (fun r _ _ _ => hfloor _ r.key) (hfloor _) fun ops wrote w hpc => ?_
  exact absurd (hwal c' (h.callOk hpc).1) hc

theorem alone {o} (h : o = some c) : ∀ c' ∈ o, c' = c :=
  fun _ hc' => Option.some.inj (hc'.symm.trans h)

section

variable {ops : List ApplyOp} {wrote : List (CompositeKey × Nat)} {w : Writer} {v : MemtableValue}

section

variable (h : Fresh bumped settled s)

include h

theorem Fresh.insert (hvis : s.Visible) (hparking : s.flush ≠ .parking)
    (hpc : s.calls c = .applying (.insert k v :: ops) wrote w) :
    Fresh bumped settled ((s.insert k v).goto c
      (.applying ops ((k, (s.history k).length) :: wrote) w)) := by
  obtain ⟨hwal, ⟨hsub, hdisc⟩, howed⟩ := h.callOk hpc
  have hpre : ∀ k', s.history k' <+: (s.insert k v).history k' := history_isPrefix_insert
  have hlen : ∀ k', (s.history k').length ≤ ((s.insert k v).history k').length :=
    fun k' => (hpre k').length_le
  have hsucc : ((s.insert k v).history k).length = (s.history k).length + 1 := by
    rw [history_insert_self, length_append, length_singleton]
  refine ⟨h.settled_le, fun k' => lt_of_lt_of_le (h.bumped_lt k') (hlen k'), h.acked_le,
    fun k' => ?_, fun k' u hu => ((hpre k').drop _).subset (h.cached k' u hu),
    h.advance (alone hwal) rfl ⟨hwal, hdisc, fun e he => ?_⟩ { history := hpre }
      fun _ _ _ hfloor => hfloor.insert hvis.flush hparking⟩
  · show ((s.insert k v).history k').length ≤ settled k' + 1 ∨
      ∃ c', (update s.calls c _ c').Inserted k' (((s.insert k v).history k').length - 1)
    by_cases hk : k' = k
    · subst hk
      refine .inr ⟨c, ?_⟩
      rw [update_self, hsucc]
      exact mem_cons_self
    · rw [history_insert_of_ne hk]
      refine (h.newest k').imp_right (exists_move rfl fun hc => ?_)
      rw [hpc] at hc
      exact mem_cons_of_mem _ hc
  · rcases mem_cons.1 he with rfl | he
    · refine ⟨?_, .inr (.inr hsub)⟩
      show (s.history k).length < ((s.insert k v).history k).length
      rw [hsucc]
      exact Nat.lt_succ_self _
    · obtain ⟨hlt, ho⟩ := howed e he
      exact ⟨lt_of_lt_of_le hlt (hlen e.1), ho.insert⟩

theorem Fresh.bump (hpc : s.calls c = .applying (.bump k :: ops) wrote w) :
    Fresh (update bumped k ((s.history k).length - 1)) settled
      { s.goto c (.applying ops wrote w) with hotTier := s.hotTier.bumpEpoch k } := by
  obtain ⟨hwal, hdisc, howed⟩ := h.callOk hpc
  have hle : bumped k ≤ (s.history k).length - 1 := Nat.le_sub_one_of_lt (h.bumped_lt k)
  refine ⟨?_, ?_, h.acked_le,
    fun k' => (h.newest k').imp_right (exists_move rfl fun hc => (hpc ▸ hc :)), fun k' u hu => ?_,
    h.advance (alone hwal) rfl
      ⟨hwal, hdisc, fun e he => ⟨(howed e he).1, (howed e he).2.bump ?_⟩⟩
      { epoch := fun k' => (epoch_bumpEpoch _ k k').1, bumped := fun k' he => ?_ }
      fun _ _ _ => id⟩
  · exact forall_update ((h.settled_le k).trans hle) fun k' _ => h.settled_le k'
  · exact forall_update (Nat.sub_lt (Nat.zero_lt_of_lt (h.bumped_lt k)) one_pos)
      fun k' _ => h.bumped_lt k'
  · exact h.cached k' u ((cached_bumpEpoch _ k k').symm.trans hu)
  · exact fun heq => heq ▸ Nat.le_sub_one_of_lt (howed e he).1
  · refine update_of_ne (fun heq => ?_) ..
    subst heq
    exact absurd he (ne_of_gt (epoch_bumpEpoch _ k' k').2)

theorem Fresh.remove (hpc : s.calls c = .applying (.remove k :: ops) wrote w) :
    Fresh bumped (update settled k (bumped k))
      { s.goto c (.applying ops wrote w) with hotTier := s.hotTier.removeEntry k } := by
  obtain ⟨hwal, hdisc, howed⟩ := h.callOk hpc
  have hle : ∀ k', settled k' ≤ update settled k (bumped k) k' :=
    forall_update (h.settled_le k) fun _ _ => le_rfl
  refine ⟨?_, h.bumped_lt, fun k' => (h.acked_le k').trans (hle k'), fun k' => ?_,
    fun k' u hu => ?_, h.advance (alone hwal) rfl
      ⟨hwal, hdisc, fun e he => ⟨(howed e he).1, (howed e he).2.remove h.settled_le⟩⟩
      { settled := hle, epoch := fun k' => le_of_eq (epoch_removeEntry _ k k').symm }
      fun _ _ _ => id⟩
  · exact forall_update le_rfl fun k' _ => h.settled_le k'
  · refine (h.newest k').imp (fun hk => hk.trans (Nat.succ_le_succ (hle k')))
      (exists_move rfl fun hc => ?_)
    rw [hpc] at hc
    exact hc
  · replace hu := (cached_removeEntry _ k k').symm.trans hu
    split at hu
    · cases hu
    · next hne =>
      rw [update_of_ne hne]
      exact h.cached k' u hu

theorem Fresh.leave (hpc : s.calls c = .applying [] wrote w) :
    Fresh bumped settled (s.leave c wrote w) := by
  obtain ⟨hwal, -, howed⟩ := h.callOk hpc
  have hdone : ∀ e ∈ wrote, e.2 ≤ settled e.1 := fun e he => (howed e he).2.untouched nofun
  have hleft : Fresh bumped settled { s.goto c (.await wrote w) with wal := none } := by
    refine { h with newest := fun k => ?_, calls := ?_ }
    · rcases h.newest k with hle | ⟨c', hc'⟩
      · exact .inl hle
      · by_cases heq : c' = c
        · rw [heq, hpc] at hc'
          exact .inl (Nat.le_add_of_sub_le (hdone _ hc'))
        · exact .inr ⟨c', by rwa [calls_goto_of_ne heq]⟩
    · exact h.advance (alone hwal) rfl hdone {} fun _ _ _ => id
  cases w with
  | putIfAbsent r => exact { hleft with }
  | plain | increment => exact hleft

end

theorem acknowledge_le {acked} (h : ∀ k, acked k ≤ settled k)
    (hwrote : ∀ e ∈ wrote, e.2 ≤ settled e.1) (k) :
    wrote.foldl (fun acked e => update acked e.1 (max (acked e.1) e.2)) acked k ≤ settled k := by
  induction wrote generalizing acked with
  | nil => exact h k
  | cons e wrote ih =>
    refine ih (fun k' => ?_) fun e' he' => hwrote e' (mem_cons_of_mem _ he')
    dsimp only
    by_cases heq : k' = e.1
    · rw [heq, update_self]
      exact Nat.max_le.2 ⟨h e.1, hwrote e mem_cons_self⟩
    · rw [update_of_ne heq]
      exact h k'

theorem Fresh.acknowledge (h : Fresh bumped settled s) (hpc : s.calls c = .await wrote w) :
    Fresh bumped settled (s.acknowledge wrote) := by
  exact { h with acked_le := acknowledge_le h.acked_le (h.callOk hpc) }

end

/-! ## Steps -/

theorem Fresh.call (h : Fresh bumped settled s) (hvis : s.Visible) (hstep : CallStep c s t) :
    ∃ bumped settled, Fresh bumped settled t := by
  cases hstep with
  | getStart k hpc | getUncachedStart k hpc =>
    exact ⟨_, _, h.goto (fun _ _ => hpc ▸ id) (h.began k)⟩
  | putIfAbsentStart k value hpc _ =>
    have hgoto : Fresh bumped settled (s.goto c (.hot (s.reading k) (.putIfAbsent value))) :=
      h.goto (fun _ _ => hpc ▸ id) (h.began k)
    exact ⟨_, _, { hgoto with }⟩
  | incrementStart k hpc _ =>
    have hgoto : Fresh bumped settled (s.goto c (.hot (s.reading k) .increment)) :=
      h.goto (fun _ _ => hpc ▸ id) (h.began k)
    exact ⟨_, _, { hgoto with }⟩
  | writeStart w hpc => exact ⟨_, _, h.goto (fun _ _ => hpc ▸ id) w.disciplined⟩
  | @hotHit r p v hpc hhit =>
    rw [get_eq] at hhit
    have hhot : Fresh bumped settled
        { s with hotTier := (s.hotTier.get r.key.realmId r.key.key).2 } :=
      h.setHot (fun k => (get_frame _ _ _ k).2) fun k u hu =>
        h.cached k u ((get_frame _ _ _ k).1.symm.trans hu)
    refine ⟨_, _, hhot.answer (fun _ _ => hpc ▸ id) ?_⟩
    exact (drop_sublist_drop_left _ (h.callOk hpc).2.2).subset (h.cached _ v hhit)
  | hotMiss hpc _ _ =>
    have hok := h.callOk hpc
    exact ⟨_, _, h.goto (fun _ _ => hpc ▸ id) hok⟩
  | uncachedMiss hpc _ => exact ⟨_, _, h.goto (fun _ _ => hpc ▸ id) ⟨h.callOk hpc, nofun⟩⟩
  | beginFill hpc =>
    refine ⟨_, _, h.goto (fun _ _ => hpc ▸ id) ⟨h.callOk hpc, ?_⟩⟩
    rintro g ⟨⟩
    exact ⟨le_rfl, fun _ => trivial⟩
  | lookActive hpc =>
    have hok := h.callOk hpc
    refine ⟨_, _, h.look (fun _ _ => hpc ▸ id) hok.1.1 (fun v => h.below_active hvis hok)
      fun hnone => ⟨hok.1.1, hvis.floor hnone hok.1.lt_length, fun g hg => ?_⟩⟩
    exact (hok.2 g hg).imp fun _ => hvis.floor hnone (h.bumped_lt _)
  | lookParked hpc =>
    have hok := h.callOk hpc
    refine ⟨_, _, h.look (fun _ _ => hpc ▸ id) hok.1 (fun v => Under.below_parked hok)
      fun hnone => ⟨hok.1, hok.2.1.pass hnone, fun g hg => ?_⟩⟩
    exact (hok.2.2 g hg).imp fun hfloor => hfloor.pass hnone
  | sstHit hpc hget =>
    have hok := h.callOk hpc
    exact ⟨_, _, h.found (fun _ _ => hpc ▸ id) hok.1 (hget ▸ Under.below_ssts hok)⟩
  | sstMiss hpc hget =>
    have hok := h.callOk hpc
    exact ⟨_, _, h.answer (fun _ _ => hpc ▸ id) ((hget ▸ Under.below_ssts hok).mem hok.1)⟩
  | @promote r p guard data hpc =>
    obtain ⟨hmem, -, hguard⟩ := h.callOk hpc
    have hhot : Fresh bumped settled
        { s with hotTier := s.hotTier.promote guard r.key.realmId r.key.key data } := by
      refine h.setHot (fun k => promote_epoch _ _ _ k _ _) fun k u hu => ?_
      rcases cached_promote _ _ _ k hu with hu | ⟨rfl, rfl, he⟩
      · exact h.cached k u hu
      · exact (drop_sublist_drop_left _ (h.settled_le _)).subset (hguard he)
    exact ⟨_, _, hhot.answer (fun _ _ => hpc ▸ id) hmem⟩
  | @fenced ops w hpc =>
    have hfail : Fresh bumped settled (s.goto c (.returned .failed)) :=
      h.goto (fun _ _ => hpc ▸ id) trivial
    cases w with
    | _ => exact ⟨_, _, { hfail with }⟩
  | @enter ops w hpc hwal =>
    refine ⟨bumped, settled, { h with newest := fun k => ?_, calls := ?_ }⟩
    · exact (h.newest k).imp_right (exists_move rfl fun hc => (nomatch (hpc ▸ hc :)))
    · exact h.advance (by rw [hwal]; exact nofun) rfl ⟨rfl, h.callOk hpc, nofun⟩ {}
        fun _ _ _ => id
  | insert hpc hparking => exact ⟨_, _, h.insert hvis hparking hpc⟩
  | bump hpc => exact ⟨_, _, h.bump hpc⟩
  | remove hpc => exact ⟨_, _, h.remove hpc⟩
  | leave hpc => exact ⟨_, _, h.leave hpc⟩
  | @durable wrote w hpc =>
    have hret : ∀ o, CallOk bumped settled s c (.returned o) →
        Fresh bumped settled ((s.acknowledge wrote).goto c (.returned o)) :=
      fun o => (h.acknowledge hpc).goto fun _ _ => hpc ▸ id
    cases w with
    | plain => exact ⟨_, _, hret .wrote trivial⟩
    | putIfAbsent r => exact ⟨_, _, hret (.claimed r _) trivial⟩
    | increment r next => exact ⟨_, _, { hret (.incremented r next _) trivial with }⟩
  | @lost wrote w hpc =>
    have hlost : Fresh bumped settled ((s.acknowledge wrote).goto c (.returned (.lost wrote w))) :=
      (h.acknowledge hpc).goto (fun _ _ => hpc ▸ id) trivial
    cases w with
    | _ => exact ⟨_, _, { hlost with }⟩
  | walkStart _ _ _ hpc | loadActive hpc | loadParked hpc | readActive hpc | readParked hpc
    | loadSsts hpc | walked hpc => exact ⟨_, _, h.goto (fun _ _ => hpc ▸ id) trivial⟩

theorem Fresh.upkept {actor} (h : Fresh bumped settled s) (hstep : ThreadStep actor s t)
    (hactor : ∀ c, actor ≠ .call c)
    (hparked : ∀ c r p guard, s.calls c = .parked r p guard →
      ∀ n, s.Floor false r.key n → t.Floor false r.key n)
    (hssts : ∀ k n, s.Floor true k n → t.Floor true k n) : Fresh bumped settled t := by
  obtain ⟨_, _, _, _, _, _, _, _, _, rfl⟩ := hstep.frame hactor
  refine { h with calls := fun c => ?_ }
  refine (h.calls c).mono {} (hparked c) hssts fun ops wrote w hpc => ?_
  have hok := h.calls c
  rw [hpc] at hok ⊢
  exact hok

theorem Fresh.step {actor} (h : Fresh bumped settled s) (hvis : s.Visible)
    (hcond : Unhurried actor s) (hstep : ThreadStep actor s t) :
    ∃ bumped settled, Fresh bumped settled t := by
  cases actor with
  | call c => exact h.call hvis hstep
  | upkeep =>
    exact ⟨_, _, h.upkept hstep nofun (fun _ _ _ _ _ _ hfloor => hfloor.upkeep hvis hstep)
      fun _ _ hfloor => hfloor.upkeep hvis hstep⟩
  | reabsorb =>
    exact ⟨_, _, h.upkept hstep nofun (fun _ _ _ _ _ _ hfloor => hfloor.reabsorb hvis hstep)
      fun _ _ hfloor => hfloor.reabsorb hvis hstep⟩
  | clear =>
    exact ⟨_, _, h.upkept hstep nofun
      (fun c r p guard hpc _ hfloor => hfloor.clear (.inr (hcond c r p guard hpc)) hstep)
      fun _ _ hfloor => hfloor.clear (.inl rfl) hstep⟩

/-! ## Runs -/

variable {init : EngineThreads crc32 → Prop} {cond : Actor → EngineThreads crc32 → Prop}

theorem fresh_of_reachable (hinit : ∀ s, init s → s.Opened)
    (hcond : ∀ actor s, cond actor s → Unhurried actor s)
    (h : Reachable init (LabelledWith ThreadStep cond) s) :
    s.Visible ∧ ∃ bumped settled, Fresh bumped settled s := by
  refine h.invariant (I := fun s => s.Visible ∧ ∃ bumped settled, Fresh bumped settled s)
    (fun s hs => ⟨.init (hinit s hs), _, _, .init (hinit s hs)⟩) ?_
  rintro s t - ⟨hvis, _, _, hfresh⟩ ⟨actor, hc, hstep⟩
  exact ⟨hvis.step hstep, hfresh.step hvis (hcond actor s hc) hstep⟩

/-! ## Reads and a failing flush -/

theorem CallStep.lookActive_of {e} (hpc : s.calls c = .active r p guard)
    (he : s.entry s.active r.key = e) : CallStep c s (s.look c r p guard e (.parked r p guard)) :=
  he ▸ .lookActive hpc

/-- A read that nothing disturbs, up to its look into the active map. -/
theorem active_alone {step : EngineThreads crc32 → EngineThreads crc32 → Prop}
    (hs : ∀ {s t}, CallStep c s t → (∀ ops wrote w, s.calls c ≠ .applying ops wrote w) → step s t)
    (h : Reachable init step s) (hpc : s.calls c = .hot r p) (hp : p ≠ .getUncached)
    (hmiss : s.hotTier.cached r.key = none) :
    ∃ g, Reachable init step (s.goto c (.active r p (some g))) := by
  have h1 := h.next (hs (.hotMiss hpc hp ((get_eq ..).trans hmiss)) fun _ _ _ => hpc ▸ nofun)
  have h2 := h1.next (hs (.beginFill calls_goto_self) fun _ _ _ => calls_goto_self ▸ nofun)
  rw [goto, goto, update_idem] at h2
  exact ⟨_, h2⟩

section

variable (h : Reachable init (LabelledWith ThreadStep cond) s) (hup : ∀ s', cond .upkeep s')
  {v : MemtableValue} (hflush : s.flush = .idle) (hrow : s.entry s.active k = some v)
  (hactive : s.active < s.made)

include h hup hflush hrow hactive

/-- A flush parks the map that has the row. -/
theorem parked_alone :
    ∃ t, Reachable init (LabelledWith ThreadStep cond) t ∧ t.calls = s.calls ∧
      t.hotTier = s.hotTier ∧ t.history = s.history ∧ t.wal = s.wal ∧
      t.putIfAbsentLock = s.putIfAbsentLock ∧ t.counterLock = s.counterLock ∧
      t.sstReaders = s.sstReaders ∧ t.flush = .parked ∧ t.parked = some s.active ∧
      ∀ k, t.entry s.active k = s.entry s.active k ∧ t.entry t.active k = none := by
  have hne : (s.maps s.active).isEmpty = false := by
    refine Bool.eq_false_iff.2 fun hempty => ?_
    rw [entry, Std.ExtTreeMap.isEmpty_iff.1 hempty, Std.ExtTreeMap.getElem?_empty] at hrow
    cases hrow
  have h1 := h.next ⟨.upkeep, hup _, .park hflush hne⟩
  have h2 := h1.next ⟨.upkeep, hup _, .switch rfl⟩
  exact ⟨_, h2, rfl, rfl, rfl, rfl, rfl, rfl, rfl, rfl, rfl, entry_switch hactive⟩

/-- The flush fails before anybody has noticed it. -/
theorem failed_flush_alone (hreabsorb : ∀ s', cond .reabsorb s')
    (hclear : ∀ s', s'.calls = s.calls → cond .clear s') :
    ∃ t, Reachable init (LabelledWith ThreadStep cond) t ∧ t.calls = s.calls ∧
      t.hotTier = s.hotTier ∧ t.history = s.history ∧ t.wal = s.wal ∧
      t.putIfAbsentLock = s.putIfAbsentLock ∧ t.counterLock = s.counterLock ∧
      t.sstReaders = s.sstReaders ∧ t.flush = .idle ∧ t.parked = none ∧
      ∀ k, t.entry t.active k = s.entry s.active k := by
  obtain ⟨t, ht, hcalls, hhot, hhist, hwal, hclaim, hcounter, hssts, hflush, hpark, hentry⟩ :=
    parked_alone h hup hflush hrow hactive
  have h1 := ht.next ⟨.reabsorb, hreabsorb _, .unpublished hflush hpark⟩
  have h2 := h1.next ⟨.clear, hclear _ hcalls, .clear rfl⟩
  refine ⟨_, h2, hcalls, hhot, hhist, hwal, hclaim, hcounter, hssts, rfl, rfl, fun k => ?_⟩
  refine (entry_reabsorb_active _ k).trans ?_
  rw [(hentry k).1, (hentry k).2, Option.none_or]

/-- A flush parks the map that has the row, and a read looks into the new active map. -/
theorem read_between_looks (hcall : ∀ s', cond (.call c) s') (hpc : s.calls c = .hot r p)
    (hkey : r.key = k) (hp : p ≠ .getUncached) (hmiss : s.hotTier.cached k = none) :
    ∃ t g, Reachable init (LabelledWith ThreadStep cond) t ∧ t.calls c = .parked r p (some g) ∧
      t.history = s.history ∧ t.wal = s.wal ∧ t.sstReaders = s.sstReaders ∧ t.flush = .parked ∧
      t.parked = some s.active ∧ t.entry s.active k = some v := by
  subst hkey
  obtain ⟨t, ht, hcalls, hhot, hhist, hwal, -, -, hssts, hflush, hpark, hentry⟩ :=
    parked_alone h hup hflush hrow hactive
  obtain ⟨g, h1⟩ := active_alone (fun hstep _ => ⟨.call c, hcall _, hstep⟩) ht
    ((congrFun hcalls c).trans hpc) hp (hhot ▸ hmiss)
  have h2 := h1.next ⟨.call c, hcall _, .lookActive_of calls_goto_self (hentry _).2⟩
  exact ⟨_, g, h2, calls_goto_self, hhist, hwal, hssts, hflush, hpark, (hentry _).1.trans hrow⟩

end

/-- The flush fails between the two looks of a read: it folds the row back into the active map and
clears the parked slot, and the read finds the row in neither. -/
theorem read_missed {m} (h : Reachable init (LabelledWith ThreadStep fun _ _ => True) s)
    (hpc : s.calls c = .parked r p guard) (hflush : s.flush = .parked) (hpark : s.parked = some m)
    (hssts : s.sstReaders = []) :
    ∃ t : EngineThreads crc32,
      Reachable init (LabelledWith ThreadStep fun _ _ => True) (t.answer c r none p) ∧
      t.history = s.history ∧ t.wal = s.wal ∧ t.flush = .idle := by
  have h1 := h.next ⟨.reabsorb, trivial, .unpublished hflush hpark⟩
  have h2 := h1.next ⟨.clear, trivial, .clear rfl⟩
  have h3 := h2.next ⟨.call c, trivial, .lookParked hpc⟩
  have hmiss : sstGet s.sstReaders r.key.realmId r.key.key = none := by
    rw [hssts]
    rfl
  have h4 := h3.next ⟨.call c, trivial, .sstMiss calls_goto_self hmiss⟩
  exact ⟨_, h4, rfl, rfl, rfl⟩

/-- A `get` or `get_uncached` that starts after a write of its key has returned does not return an
older version, wherever it finds the value. -/
theorem get_not_older (h : Reachable Opened (LabelledWith ThreadStep Unhurried) s)
    (hreturned : s.calls c = .returned (.got r a)) : a ∈ (s.history r.key).drop r.acked := by
  obtain ⟨-, _, _, hfresh⟩ := fresh_of_reachable (fun _ => id) (fun _ _ => id) h
  exact (drop_sublist_drop_left _ (le_max_left _ _)).subset (hfresh.callOk hreturned)

/-- Call 0 has put a value, and call 1 starts to read it. -/
theorem get_after_put (cond : Actor → EngineThreads (fun _ => 0) → Prop)
    (hcond : ∀ c s, cond (.call c) s) :
    ∃ s r, Reachable Opened (LabelledWith ThreadStep cond) s ∧ s.calls 1 = .hot r .get ∧
      r.acked = 1 ∧ s.history r.key = [none, some [5]] ∧
      s.entry s.active r.key = some (.data [5]) ∧ s.hotTier.cached r.key = none ∧
      s.active < s.made ∧ s.flush = .idle ∧
      s.sstReaders = [] ∧ ∀ c r p guard, s.calls c ≠ .parked r p guard := by
  have h0 : Reachable Opened (LabelledWith ThreadStep cond) emptyThreads :=
    .start emptyThreads_opened
  have h1 := h0.next ⟨.call 0, hcond _ _, .writeStart (.put demoRealm [7] [5]) rfl⟩
  have h2 := h1.next ⟨.call 0, hcond _ _, .enter rfl rfl⟩
  have h3 := h2.next ⟨.call 0, hcond _ _, .insert rfl nofun⟩
  have h4 := h3.next ⟨.call 0, hcond _ _, .bump rfl⟩
  have h5 := h4.next ⟨.call 0, hcond _ _, .remove rfl⟩
  have h6 := h5.next ⟨.call 0, hcond _ _, .leave rfl⟩
  have h7 := h6.next ⟨.call 0, hcond _ _, .durable rfl⟩
  have h8 := h7.next ⟨.call 1, hcond _ _, .getStart ⟨demoRealm, [7]⟩ rfl⟩
  refine ⟨_, _, h8, rfl, rfl, rfl, by decide +kernel, by decide +kernel, one_pos, rfl, rfl, ?_⟩
  rintro (_ | _ | c) r p guard ⟨⟩

/-- A flush of the value fails before the read looks into the maps. -/
theorem get_not_older_put : ∃ (s : EngineThreads fun _ => 0) (r : Reading), r.acked = 1 ∧
    s.calls 1 = .returned (.got r (some [5])) ∧ some [5] ∈ (s.history r.key).drop r.acked := by
  obtain ⟨s, r, hs, hpc, hacked, -, hrow, hmiss, hactive, hflush, -, hquiet⟩ :=
    get_after_put Unhurried fun _ _ => trivial
  obtain ⟨t, ht, hcalls, hhot, -, -, -, -, -, -, -, hentry⟩ :=
    failed_flush_alone hs (fun _ => trivial) hflush hrow hactive (fun _ => trivial)
      fun s' hs' c r p guard hc => absurd hc (hs' ▸ hquiet c r p guard)
  obtain ⟨g, h1⟩ := active_alone (fun hstep _ => ⟨.call 1, trivial, hstep⟩) ht
    ((congrFun hcalls 1).trans hpc) nofun (hhot ▸ hmiss)
  have h2 := h1.next ⟨.call 1, trivial,
    .lookActive_of calls_goto_self ((hentry r.key).trans hrow)⟩
  have h3 := h2.next ⟨.call 1, trivial, .promote calls_goto_self⟩
  exact ⟨_, r, hacked, calls_goto_self, get_not_older h3 calls_goto_self⟩

/-- The flush fails between the two looks of the `get`, which misses the acknowledged value. -/
theorem acknowledged_write_missed : ∃ (s : EngineThreads fun _ => 0) (r : Reading),
    Reachable Opened (LabelledWith ThreadStep fun _ _ => True) s ∧
      s.calls 1 = .returned (.got r none) ∧ r.acked = 1 ∧
      none ∉ (s.history r.key).drop r.acked := by
  obtain ⟨s, r, hs, hpc, hacked, hhist, hrow, hmiss, hactive, hflush, hssts, -⟩ :=
    get_after_put (fun _ _ => True) fun _ _ => trivial
  obtain ⟨t, g, ht, hpc', hhist', -, hssts', hflush', hpark, -⟩ :=
    read_between_looks hs (fun _ => trivial) hflush hrow hactive (fun _ => trivial) hpc rfl nofun
      hmiss
  obtain ⟨u, hu, hhist'', -⟩ := read_missed ht hpc' hflush' hpark (hssts'.trans hssts)
  refine ⟨_, r, hu, calls_goto_self, hacked, ?_⟩
  show none ∉ (u.history r.key).drop r.acked
  rw [hhist'', hhist', hhist, hacked]
  decide

/-- The flush fails before a `get` of a row that nobody writes has looked into both maps. -/
theorem get_between_looks (cond : Actor → EngineThreads (fun _ => 0) → Prop)
    (hcall : ∀ s, cond (.call 0) s) (hup : ∀ s, cond .upkeep s) :
    ∃ s r g, Reachable Opened (LabelledWith ThreadStep cond) s ∧
      s.calls 0 = .parked r .get (some g) ∧ r.calm = true ∧ r.versions = 1 ∧
      s.history r.key = [some [5]] ∧ s.flush = .parked ∧ s.parked = some 0 ∧
      s.entry 0 r.key = some (.data [5]) ∧ s.sstReaders = [] := by
  have h0 : Reachable Opened (LabelledWith ThreadStep cond) (rowThreads ⟨demoRealm, [7]⟩ [5]) :=
    .start (rowThreads_opened _ _)
  have h1 := h0.next ⟨.call 0, hcall _, .getStart ⟨demoRealm, [7]⟩ rfl⟩
  obtain ⟨s, g, hs, hpc, hhist, -, hssts, hflush, hpark, hrow⟩ := read_between_looks h1 hup rfl
    ((entry_rowThreads ..).trans (if_pos rfl)) one_pos hcall calls_goto_self rfl nofun
    (cached_new ..)
  exact ⟨s, _, g, hs, hpc, rfl, rfl, (congrFun hhist _).trans rfl, hflush, hpark, hrow, hssts⟩

/-- A point read returns the value of a key that is not written during the read, and a walk returns
the key with its value, or not at all if it is deleted, however flushes and compactions interleave. -/
theorem reads_never_miss (h : Reachable Opened (LabelledWith ThreadStep Unhurried) s) :
    (∀ c r a, s.calls c = .returned (.got r a) → r.calm = true →
      (s.history r.key).length = r.versions → a = s.ref r.key) ∧
    ∀ c w e, s.calls c = .returned (.walked w e) → w.start ≤ w.stop →
      ∃ l, e.scan w.realmId w.start w.stop = .ok l ∧
        e.scanKeys w.realmId w.start w.stop = .ok (l.map Prod.fst) ∧
        (∀ {S : Type} (visit : S → Bytes → ForInStep S) (x : S),
          e.visitKeys w.realmId w.start w.stop visit x =
            .ok (some (visitList (fun x key _ => visit x key) l x))) ∧
        (∀ {S : Type} (visit : S → Bytes → Bytes → ForInStep S) (x : S),
          e.visitEntries w.realmId w.start w.stop visit x = .ok (some (visitList visit l x))) ∧
        ∀ key v, w.start ≤ key → key < w.stop →
          (s.history ⟨w.realmId, key⟩).length = w.versions ⟨w.realmId, key⟩ →
          ((key, v) ∈ l ↔ s.ref ⟨w.realmId, key⟩ = some v) := by
  obtain ⟨hvis, _, _, hfresh⟩ := fresh_of_reachable (fun _ => id) (fun _ _ => id) h
  refine ⟨fun c r a hc hcalm hlen => ?_, fun c w e => hvis.walk⟩
  refine mem_newest ((drop_sublist_drop_left _ ?_).subset (hfresh.callOk hc))
  rw [hlen]
  exact le_max_of_le_right (by rw [if_pos hcalm])

/-- The `get` finds the parked row. -/
theorem reads_never_miss_parked : ∃ (s : EngineThreads fun _ => 0) (r : Reading),
    s.calls 0 = .returned (.got r (some [5])) ∧ some [5] = s.ref r.key := by
  obtain ⟨s, r, g, hs, hpc, hcalm, hvers, hhist, -, hpark, hrow, -⟩ :=
    get_between_looks Unhurried (fun _ => trivial) fun _ => trivial
  have h1 := hs.next ⟨.call 0, trivial, .lookParked hpc⟩
  rw [parkedEntry_eq hpark, hrow] at h1
  have h2 := h1.next ⟨.call 0, trivial, .promote calls_goto_self⟩
  have hlen : (s.history r.key).length = r.versions := by rw [hhist, hvers]; rfl
  exact ⟨_, r, calls_goto_self, (reads_never_miss h2).1 0 r _ calls_goto_self hcalm hlen⟩

/-- The flush fails between the two looks of the `get`. -/
theorem reabsorbed_key_missed : ∃ (s : EngineThreads fun _ => 0) (r : Reading),
    Reachable Opened (LabelledWith ThreadStep fun _ _ => True) s ∧
      s.calls 0 = .returned (.got r none) ∧
      r.calm = true ∧ (s.history r.key).length = r.versions ∧ s.ref r.key = some [5] := by
  obtain ⟨s, r, g, hs, hpc, hcalm, hvers, hhist, hflush, hpark, -, hssts⟩ :=
    get_between_looks (fun _ _ => True) (fun _ => trivial) fun _ => trivial
  obtain ⟨t, ht, hhist', -⟩ := read_missed hs hpc hflush hpark hssts
  have hlast : t.history r.key = [some [5]] := (congrFun hhist' _).trans hhist
  refine ⟨_, r, ht, calls_goto_self, hcalm, ?_, ?_⟩
  · exact (congrArg length hlast).trans hvers.symm
  · exact congrArg (fun l => l.getLastD none) hlast

end EngineThreads

end Hearth.Storage
