import Hearth.Cluster.Counter
import Hearth.Storage.Conditional

/-!
# Counters

`increment_u64` reads, writes and waits for durability under one lock, and adds one with
`saturating_add`.

Results:
1. `Counted.step`: the versions of a counter that only increments write go up by one, as
   long as it is below `u64::MAX`; each version has one increment that wrote it.
2. `conditional_writes_linearizable`: this, and the claims of `put_if_absent`, over whole
   runs in which no slot of a failed flush is cleared under a read of one of its keys.
3. `present_key_claimed`: the failed flush.
-/

namespace Hearth.Storage

open Base Engine List Function False HotTier
open Cluster (decodeU64Counter decodeU64Counter_leBytes u64Max)

variable {crc32 : Bytes → Nat}

def Purpose.IsIncrement : Purpose → Prop
  | .increment => True
  | _ => False

def Writer.IsIncrement : Writer → Prop
  | .increment .. => True
  | _ => False

namespace Call

/-- The call holds the lock of `increment_u64`. -/
def HoldsCounter : Call crc32 → Prop
  | .hot _ p | .fill _ p | .active _ p _ | .parked _ p _ | .ssts _ p _ | .promote _ p _ _ =>
    p.IsIncrement
  | .enter _ w | .applying _ _ w | .await _ w => w.IsIncrement
  | _ => False

/-- The call is about to write the key, for this writer. -/
def inserts (k : CompositeKey) : Call crc32 → Option Writer
  | .applying (.insert k' _ :: _) _ w => if k' = k then some w else none
  | _ => none

/-- The call has written this version of the key, and may have returned. -/
def Wrote (k : CompositeKey) (i : Nat) : Call crc32 → Prop
  | .applying _ wrote _ | .await wrote _ => (k, i) ∈ wrote
  | .returned (.incremented r _ version) => r.key = k ∧ version = i
  | .returned (.lost wrote _) => (k, i) ∈ wrote
  | _ => False

end Call

namespace EngineThreads

/-! ## The invariant -/

section

variable (k : CompositeKey) (base : Nat) (versions : List (Option Bytes))

/-- The call started at the newest version. -/
def Latest (r : Reading) (p : Purpose) : Prop := p.IsIncrement → r.key = k →
    r.acked + 1 = versions.length

/-- What an increment is about to write. -/
def Pending (ops : List ApplyOp) (r : Reading) (next : Nat) : Prop :=
  ops = entryOps [(r.key, .data (leBytes 8 next))] ∧ next ≤ u64Max ∧
    (r.key = k → ∃ n, decodeU64Counter (versions.getLastD none) = .ok n ∧ next = saturatingSucc n)

/-- What an increment has written: the newest version. -/
def Counts (wrote : List (CompositeKey × Nat)) (r : Reading) (next : Nat) : Prop :=
  ∃ i, wrote = [(r.key, i)] ∧ (r.key = k → next = base + i ∧ 0 < i ∧ i + 1 = versions.length)

def CountOk : Call crc32 → Prop
  | .hot r p | .fill r p | .active r p _ | .parked r p _ | .ssts r p _ | .promote r p _ _ =>
    Latest k versions r p
  | .enter ops (.increment r next) => Pending k versions ops r next
  | .applying ops wrote (.increment r next) =>
      (wrote = [] ∧ Pending k versions ops r next) ∨
        (∀ k v, .insert k v ∉ ops) ∧ Counts k base versions wrote r next
  | .applying _ wrote _ => ∀ i, (k, i) ∉ wrote
  | .await wrote (.increment r next) => Counts k base versions wrote r next
  | .await wrote _ => ∀ i, (k, i) ∉ wrote
  | .returned (.incremented r next i) => r.key = k → next = base + i ∧ 0 < i ∧ i < versions.length
  | .returned (.lost wrote _) => ∀ i, (k, i) ∈ wrote → 0 < i ∧ i < versions.length
  | _ => True

structure Counted (s : EngineThreads crc32) : Prop where
  versions : ∀ i a, (s.history k)[i]? = some a → decodeU64Counter a = .ok (base + i)
  lock : ∀ c, (s.calls c).HoldsCounter → s.counterLock = some c
  ok : ∀ c, CountOk k base (s.history k) (s.calls c)
  apart : ∀ c c' i, (s.calls c).Wrote k i → (s.calls c').Wrote k i → c = c'
  made : ∀ i, 0 < i → i < (s.history k).length → ∃ c, (s.calls c).Wrote k i
  acked : s.acked k + 1 = (s.history k).length ∨ ∃ c i, (s.calls c).HoldsCounter ∧
    (s.calls c).Wrote k i

end

def OnlyIncrements (k : CompositeKey) (c : Nat) (s : EngineThreads crc32) : Prop :=
  ∀ w, (s.calls c).inserts k = some w → w.IsIncrement

/-- The counter is below its maximum when it is written. -/
def BelowMax (k : CompositeKey) (c : Nat) (s : EngineThreads crc32) : Prop :=
  ∀ w, (s.calls c).inserts k = some w → ∃ n < u64Max, decodeU64Counter (s.ref k) = .ok n

/-- Only increments write the counter, and the slot of a failed flush is not cleared under a read of
one of its keys. -/
def Counting (k : CompositeKey) (actor : Actor) (s : EngineThreads crc32) : Prop :=
  Unhurried actor s ∧ ∀ c, actor = .call c → OnlyIncrements k c s ∧ BelowMax k c s

variable {s t : EngineThreads crc32} {c base : Nat} {pc : Call crc32} {k : CompositeKey}
  {r : Reading}

theorem counting_call (h : ∀ w, (s.calls c).inserts k = some w →
      w.IsIncrement ∧ ∃ n < u64Max, decodeU64Counter (s.ref k) = .ok n) :
    Counting k (.call c) s := by
  refine ⟨trivial, ?_⟩
  rintro _ ⟨⟩
  exact ⟨fun w hw => (h w hw).1, fun w hw => (h w hw).2⟩

theorem Counted.init (h : s.Opened) (hbase : decodeU64Counter (s.ref k) = .ok base) :
    Counted k base s := by
  have hlen : (s.history k).length = 1 := by
    rw [h.history]
    rfl
  refine ⟨fun i a ha => ?_, fun c hc => ?_, fun c => ?_, fun c c' i hc => ?_, fun i hpos hlt => ?_,
    .inl ?_⟩
  · rw [ref, h.history k] at hbase
    rw [h.history k] at ha
    cases i with
    | zero =>
      cases ha
      exact hbase
    | succ i => cases ha
  · rw [h.calls] at hc
    cases hc
  · rw [h.calls]
    trivial
  · rw [h.calls] at hc
    cases hc
  · rw [hlen] at hlt
    exact absurd hlt (not_lt.2 hpos)
  · rw [h.acked, hlen]

section

variable (h : Counted k base s)

include h

theorem Counted.lt_length {i} (hc : (s.calls c).Wrote k i) : 0 < i ∧ i < (s.history k).length := by
  have hok := h.ok c
  have hcounts : ∀ {wrote r next}, Counts k base (s.history k) wrote r next → (k, i) ∈ wrote →
      0 < i ∧ i < (s.history k).length := by
    rintro wrote r next ⟨j, rfl, hj⟩ hin
    obtain ⟨rfl, rfl⟩ := Prod.mk.inj (mem_singleton.1 hin)
    obtain ⟨-, hpos, hlen⟩ := hj rfl
    exact ⟨hpos, hlen ▸ Nat.lt_succ_self _⟩
  cases hpc : s.calls c with
  | applying ops wrote w =>
    rw [hpc] at hc hok
    cases w with
    | increment r next =>
      rcases hok with ⟨rfl, -⟩ | ⟨-, hcount⟩
      · cases hc
      · exact hcounts hcount hc
    | plain | putIfAbsent => exact absurd hc (hok i)
  | await wrote w =>
    rw [hpc] at hc hok
    cases w with
    | increment r next => exact hcounts hok hc
    | plain | putIfAbsent => exact absurd hc (hok i)
  | returned o =>
    rw [hpc] at hc hok
    cases o with
    | incremented r next version =>
      obtain ⟨rfl, rfl⟩ := hc
      exact (hok rfl).2
    | lost wrote w => exact hok i hc
    | _ => cases hc
  | _ =>
    rw [hpc] at hc
    cases hc

/-- The holder of the lock has not written the counter: every version of it has returned. -/
theorem Counted.settled (hholds : s.counterLock = none ∨ s.counterLock = some c)
    (hwrote : ∀ i, ¬ (s.calls c).Wrote k i) : s.acked k + 1 = (s.history k).length := by
  refine h.acked.resolve_right ?_
  rintro ⟨c', i, hc', hi⟩
  have hlock := h.lock c' hc'
  rcases hholds with hnone | hsome
  · cases hnone.symm.trans hlock
  · cases hsome.symm.trans hlock
    exact hwrote i hi

theorem Counted.callOk (hpc : s.calls c = pc) : CountOk k base (s.history k) pc := hpc ▸ h.ok c

section

variable (hcalls : t.calls = update s.calls c pc) (hhist : t.history k = s.history k)
  (hlock : ∀ c', (t.calls c').HoldsCounter → t.counterLock = some c')

include hcalls hhist hlock

theorem Counted.move (hwrote : ∀ i, pc.Wrote k i ↔ (s.calls c).Wrote k i)
    (hself : CountOk k base (s.history k) pc)
    (hacked : t.acked k + 1 = (s.history k).length ∨ ∃ c i, (t.calls c).HoldsCounter ∧
    (s.calls c).Wrote k i) :
    Counted k base t := by
  have hsame : ∀ c' i, (t.calls c').Wrote k i ↔ (s.calls c').Wrote k i :=
    forall_move hcalls hwrote fun _ _ _ => .rfl
  refine ⟨fun i a ha => ?_, hlock, ?_, fun c1 c2 i h1 h2 => ?_, fun i hpos hlt => ?_, ?_⟩
  · exact h.versions i a (hhist ▸ ha)
  · rw [hhist]
    exact forall_move hcalls hself fun c' _ => h.ok c'
  · exact h.apart c1 c2 i ((hsame c1 i).1 h1) ((hsame c2 i).1 h2)
  · obtain ⟨c', hc'⟩ := h.made i hpos (hhist ▸ hlt)
    exact ⟨c', (hsame c' i).2 hc'⟩
  · rw [hhist]
    refine hacked.imp_right ?_
    rintro ⟨c', i, hc', hi⟩
    exact ⟨c', i, hc', (hsame c' i).2 hi⟩

/-- A call that has not written the counter moves to where it has not. -/
theorem Counted.aside (hacked : t.acked k = s.acked k) (hbefore : ∀ i, ¬ (s.calls c).Wrote k i)
    (hafter : ∀ i, ¬ pc.Wrote k i)
    (hself : CountOk k base (s.history k) pc) : Counted k base t := by
  refine h.move hcalls hhist hlock (fun i => iff_of_false (hafter i) (hbefore i)) hself ?_
  rw [hacked]
  refine h.acked.imp_right ?_
  rintro ⟨c', i, hc', hi⟩
  have hne : c' ≠ c := fun heq => hbefore i (heq ▸ hi)
  refine ⟨c', i, ?_, hi⟩
  rwa [hcalls, update_of_ne hne]

end

/-- A call moves and keeps its lock. -/
theorem Counted.goto (hholds : pc.HoldsCounter → (s.calls c).HoldsCounter)
    (hbefore : ∀ i, ¬ (s.calls c).Wrote k i) (hafter : ∀ i, ¬ pc.Wrote k i)
    (hself : CountOk k base (s.history k) pc) : Counted k base (s.goto c pc) :=
  h.aside rfl rfl (lock_keep h.lock rfl hholds) rfl hbefore hafter hself

end

/-! ## Steps -/

section

variable {p : Purpose} {guard : Option FillGuard} {a : Option Bytes} {w : Writer}
    {ops : List ApplyOp}
  {wrote : List (CompositeKey × Nat)}

theorem Latest.newest (h : Latest k (s.history k) r p) (hp : p.IsIncrement) (hk : r.key = k)
    (ha : a ∈ (s.history r.key).drop r.floor) : a = s.ref k := by
  subst hk
  refine mem_newest ((drop_sublist_drop_left _ ?_).subset ha)
  rw [← h hp rfl, Nat.add_sub_cancel]
  exact le_max_left _ _

section

variable (h : Counted k base s)

include h

section

variable (hholds : p.IsIncrement → (s.calls c).HoldsCounter)
  (hbefore : ∀ i, ¬ (s.calls c).Wrote k i) (hlatest : Latest k (s.history k) r p)

include hholds hbefore hlatest

theorem Counted.answer (ha : a ∈ (s.history r.key).drop r.floor) :
    Counted k base (s.answer c r a p) := by
  have hnew : p.IsIncrement → r.key = k → a = s.ref k := fun hp hk => hlatest.newest hp hk ha
  unfold EngineThreads.answer
  split
  · exact h.goto elim hbefore (fun _ => id) trivial
  · exact h.goto elim hbefore (fun _ => id) trivial
  · split
    · have htaken : Counted k base (s.goto c (.returned (.taken r))) :=
        h.goto elim hbefore (fun _ => id) trivial
      exact { htaken with }
    · exact h.goto elim hbefore (fun _ => id) trivial
  · split
    · exact h.aside rfl rfl
        (lock_pass h.lock rfl (.inr (h.lock c (hholds trivial))) nofun) rfl hbefore
        (fun _ => id) trivial
    · next n hn =>
      refine h.goto (fun _ => hholds trivial) hbefore (fun _ => id)
        ⟨rfl, min_le_right .., fun hk => ⟨n, ?_, rfl⟩⟩
      rw [← hn, hnew trivial hk]
      rfl

theorem Counted.found {data} (ha : some data ∈ (s.history r.key).drop r.floor) :
    Counted k base (s.found c r p guard data) := by
  cases guard with
  | none => exact h.answer hholds hbefore hlatest ha
  | some g => exact h.goto hholds hbefore (fun _ => id) hlatest

theorem Counted.look {e next} (he : ∀ v, e = some v → v.live ∈ (s.history r.key).drop r.floor)
    (hnext : Counted k base (s.goto c next)) : Counted k base (s.look c r p guard e next) := by
  cases e with
  | none => exact hnext
  | some v =>
    cases v with
    | data d => exact h.found hholds hbefore hlatest (he _ rfl)
    | tombstone => exact h.answer hholds hbefore hlatest (he _ rfl)

end

theorem Counted.fail (hpc : s.calls c = .enter ops w) : Counted k base (s.fail c w) := by
  have hbefore : ∀ i, ¬ (s.calls c).Wrote k i := fun i => hpc ▸ id
  cases w with
  | plain => exact h.goto elim hbefore (fun _ => id) trivial
  | putIfAbsent r =>
    have hfail : Counted k base (s.goto c (.returned .failed)) :=
      h.goto elim hbefore (fun _ => id) trivial
    exact { hfail with }
  | increment r next =>
    have hlock : s.counterLock = some c := h.lock c (hpc ▸ trivial)
    exact h.aside rfl rfl (lock_pass h.lock rfl (.inr hlock) nofun) rfl hbefore
      (fun _ => id) trivial

theorem Counted.enter (hpc : s.calls c = .enter ops w) :
    Counted k base { s.goto c (.applying ops [] w) with wal := some c } := by
  have hok := h.callOk hpc
  refine h.aside rfl rfl (lock_keep h.lock rfl fun hw => hpc ▸ hw) rfl (fun i => hpc ▸ id)
    (fun i => nofun) ?_
  cases w with
  | increment r next => exact .inl ⟨rfl, hok⟩
  | plain | putIfAbsent => exact fun i => nofun

/-- A call moves inside its section. -/
theorem Counted.steady (hcalls : t.calls = update s.calls c pc)
    (hhist : t.history k = s.history k) (hacked : t.acked k = s.acked k)
    (hlock : t.counterLock = s.counterLock)
    (hholds : pc.HoldsCounter ↔ (s.calls c).HoldsCounter)
    (hwrote : ∀ i, pc.Wrote k i ↔ (s.calls c).Wrote k i)
    (hself : CountOk k base (s.history k) pc) : Counted k base t := by
  refine h.move hcalls hhist (hlock ▸ lock_keep h.lock hcalls hholds.1) hwrote hself ?_
  rw [hacked]
  refine h.acked.imp_right ?_
  rintro ⟨c', i, hc', hi⟩
  exact ⟨c', i, forall_move hcalls hholds.2 (fun _ _ h => h) c' hc', hi⟩

end

variable {next : Nat} {v : MemtableValue} {k' : CompositeKey}

/-- An increment inserts its entry first. -/
theorem Pending.insert {versions} (h : Pending k versions (.insert k' v :: ops) r next) :
    k' = r.key ∧ v = .data (leBytes 8 next) ∧ ∀ k v, .insert k v ∉ ops := by
  injection h.1 with hhead hops
  injection hhead with hk hv
  rw [hops]
  exact ⟨hk, hv, insert_notMem_invalidateOps⟩

/-- Another key is written. -/
theorem Counted.insert_of_ne (h : Counted k base s) (hne : k ≠ k')
    (hpc : s.calls c = .applying (.insert k' v :: ops) wrote w) :
    Counted k base ((s.insert k' v).goto c
    (.applying ops ((k', (s.history k').length) :: wrote) w)) := by
  have hok := h.callOk hpc
  have hmem : ∀ i, (k, i) ∈ (k', (s.history k').length) :: wrote ↔ (k, i) ∈ wrote := by
    intro i
    rw [mem_cons, or_iff_right]
    exact fun heq => hne (Prod.mk.inj heq).1
  refine h.steady rfl (history_insert_of_ne hne) rfl rfl (hpc ▸ .rfl) (hpc ▸ hmem) ?_
  cases w with
  | increment r next =>
    rcases hok with ⟨rfl, hpend⟩ | ⟨hnone, -⟩
    · obtain ⟨rfl, -, hnone⟩ := hpend.insert
      exact .inr ⟨hnone, _, rfl, fun hk => absurd hk.symm hne⟩
    · exact absurd mem_cons_self (hnone k' v)
  | plain | putIfAbsent => exact fun i hin => hok i ((hmem i).1 hin)

/-- A call that does not hold the lock carries on after the counter has been written. -/
theorem CountOk.grow {versions} (h : CountOk k base versions pc) (hfree : ¬ pc.HoldsCounter)
    (x : Option Bytes) : CountOk k base (versions ++ [x]) pc := by
  have hlt : ∀ {i}, i < versions.length → i < (versions ++ [x]).length := fun hi =>
    lt_of_lt_of_le hi (prefix_append _ [x]).length_le
  cases pc with
  | hot | fill | active | parked | ssts | promote => exact fun hp => absurd hp hfree
  | enter ops w =>
    cases w with
    | increment => exact absurd trivial hfree
    | plain | putIfAbsent => trivial
  | applying ops wrote w | await wrote w =>
    cases w with
    | increment => exact absurd trivial hfree
    | plain | putIfAbsent => exact h
  | returned o =>
    cases o with
    | incremented r next i =>
      intro hk
      obtain ⟨hnext, hpos, hi⟩ := h hk
      exact ⟨hnext, hpos, hlt hi⟩
    | lost wrote w => exact fun i hin => ⟨(h i hin).1, hlt (h i hin).2⟩
    | _ => trivial
  | _ => trivial

theorem Counted.count (h : Counted k base s) (hpos : 0 < (s.history k).length)
    (hbelow : ∃ n < u64Max, decodeU64Counter (s.ref k) = .ok n)
    (hpc : s.calls c = .applying (.insert k v :: ops) wrote (.increment r next)) :
    Counted k base ((s.insert k v).goto c
    (.applying ops ((k, (s.history k).length) :: wrote) (.increment r next))) := by
  obtain ⟨rfl, hpend⟩ | ⟨hnone, -⟩ := h.callOk hpc
  swap
  · exact absurd mem_cons_self (hnone k v)
  obtain ⟨rfl, rfl, hnone⟩ := hpend.insert
  obtain ⟨-, hle, hnext⟩ := hpend
  obtain ⟨n, hn, hread⟩ := hbelow
  have hlen : (s.history r.key).length - 1 + 1 = (s.history r.key).length := Nat.sub_add_cancel hpos
  -- below the maximum the addition does not saturate
  have hcount : next = base + (s.history r.key).length := by
    have hlast : (s.history r.key)[(s.history r.key).length - 1]? = some (s.ref r.key) := by
      have hlt := Nat.sub_lt hpos one_pos
      rw [ref, getLastD_eq_getLast?, getLast?_eq_getElem?, getElem?_eq_getElem hlt,
        Option.getD_some]
    obtain ⟨n', hn', rfl⟩ := hnext rfl
    cases hread.symm.trans hn'
    cases hread.symm.trans (h.versions _ _ hlast)
    rw [saturatingSucc, min_eq_left (Nat.succ_le_of_lt hn)]
    exact congrArg (base + ·) hlen
  have hhist : ((s.insert r.key (.data (leBytes 8 next))).goto c
    (.applying ops [(r.key, (s.history r.key).length)]
      (.increment r next))).history r.key = s.history r.key ++ [some (leBytes 8 next)] :=
        history_insert_self
  have hself : ∀ {i}, (r.key, i) ∈ [(r.key, (s.history r.key).length)] ↔
    i = (s.history r.key).length := fun {i} =>
    mem_singleton.trans ⟨fun heq => (Prod.mk.inj heq).2, fun heq => heq ▸ rfl⟩
  have hother : ∀ {c'}, c' ≠ c → ¬ (s.calls c').HoldsCounter := by
    intro c' hne hc'
    have hlock : s.counterLock = some c := h.lock c (hpc ▸ trivial)
    exact hne (Option.some.inj ((h.lock c' hc').symm.trans hlock))
  refine ⟨fun i a ha => ?_, lock_keep h.lock rfl fun _ => hpc ▸ trivial, ?_, fun c1 c2 i => ?_,
    fun i hi hlt => ?_, .inr ⟨c, (s.history r.key).length, ?_⟩⟩
  · rw [hhist] at ha
    rcases lt_or_ge i (s.history r.key).length with hlt | hge
    · rw [getElem?_append_left hlt] at ha
      exact h.versions i a ha
    · rw [getElem?_append_right hge] at ha
      have heq := Nat.sub_eq_zero_iff_le.1 (Nat.lt_one_iff.1 (List.getElem?_eq_some_iff.1 ha).1)
      obtain rfl := le_antisymm heq hge
      rw [Nat.sub_self] at ha
      cases ha
      rw [decodeU64Counter_leBytes (lt_of_le_of_lt hle (Nat.sub_lt (Nat.two_pow_pos 64) one_pos)),
        hcount]
  · rw [hhist]
    refine forall_goto ?_ fun c' heq => (h.ok c').grow (hother heq) _
    exact .inr ⟨hnone, _, rfl, fun _ => ⟨hcount, hpos, by rw [length_append]; rfl⟩⟩
  · -- no other call has written the new version
    refine unique_move (h.apart · · i) rfl (fun hnew c' hc' => ?_) c1 c2
    exact absurd (hself.1 hnew) (ne_of_lt (h.lt_length hc').2)
  · rw [hhist, length_append] at hlt
    rcases lt_or_eq_of_le (Nat.le_of_lt_succ hlt) with hlt | heq
    · obtain ⟨c', hc'⟩ := h.made i hi hlt
      have hne : c' ≠ c := by
        rintro rfl
        rw [hpc] at hc'
        cases hc'
      exact ⟨c', by rwa [calls_goto_of_ne hne]⟩
    · exact ⟨c, by rw [calls_goto_self]; exact hself.2 heq⟩
  · rw [calls_goto_self]
    exact ⟨trivial, hself.2 rfl⟩

theorem acknowledge_of_not_mem (hnone : ∀ i, (k, i) ∉ wrote) :
    (s.acknowledge wrote).acked k = s.acked k := by
  unfold acknowledge
  generalize s.acked = acked
  induction wrote generalizing acked with
  | nil => rfl
  | cons e wrote ih =>
    rw [foldl_cons, ih fun i hin => hnone i (mem_cons_of_mem _ hin)]
    refine update_of_ne (fun heq => hnone e.2 ?_) ..
    rw [heq]
    exact mem_cons_self

section

variable (h : Counted k base s)

include h

section

variable (hlt : s.acked k < (s.history k).length)

include hlt

/-- An increment returns: every version of the counter has returned. -/
theorem Counted.acknowledged (hpc : s.calls c = .await wrote (.increment r next)) :
    (s.acknowledge wrote).acked k + 1 = (s.history k).length := by
  obtain ⟨i, rfl, hcount⟩ := h.callOk hpc
  by_cases hk : r.key = k
  · obtain ⟨-, -, hlen⟩ := hcount hk
    have hmax : (s.acknowledge [(r.key, i)]).acked k = max (s.acked k) i := by
      rw [← hk]
      exact update_self ..
    rw [← hlen] at hlt
    rw [hmax, ← hlen, max_eq_right (Nat.le_of_lt_succ hlt)]
  · have hnone : ∀ j, (k, j) ∉ [(r.key, i)] := fun j hin =>
      hk (Prod.mk.inj (mem_singleton.1 hin)).1.symm
    rw [acknowledge_of_not_mem hnone]
    exact h.settled (.inr (h.lock c (hpc ▸ trivial))) (hpc ▸ hnone)

theorem Counted.durable
    (hpc : s.calls c = .await wrote w) :
    Counted k base ((s.acknowledge wrote).durable c wrote w) := by
  have hok := h.callOk hpc
  cases w with
  | increment r next =>
    have hacked := h.acknowledged hlt hpc
    have hlock : s.counterLock = some c := h.lock c (hpc ▸ trivial)
    obtain ⟨i, rfl, hcount⟩ := hok
    refine h.move rfl rfl (lock_pass h.lock rfl (.inr hlock) nofun) (fun j => ?_) (fun hk => ?_)
      (.inl hacked)
    · rw [hpc]
      exact ⟨fun ⟨hk, hj⟩ => mem_singleton.2 (hk ▸ hj ▸ rfl), fun hin =>
        ⟨(Prod.mk.inj (mem_singleton.1 hin)).1.symm, (Prod.mk.inj (mem_singleton.1 hin)).2.symm⟩⟩
    · obtain ⟨hnext, hpos, hlen⟩ := hcount hk
      exact ⟨hnext, hpos, hlen ▸ Nat.lt_succ_self _⟩
  | plain | putIfAbsent =>
    exact h.aside rfl rfl (lock_keep h.lock rfl nofun) (acknowledge_of_not_mem hok) (hpc ▸ hok)
      (fun _ => id)
      trivial

theorem Counted.lose
    (hpc : s.calls c = .await wrote w) : Counted k base ((s.acknowledge wrote).lose c wrote w) := by
  have hwrote : ∀ i, (k, i) ∈ wrote → 0 < i ∧ i < (s.history k).length := fun i hin =>
    h.lt_length (c := c) (hpc ▸ hin)
  have hok := h.callOk hpc
  cases w with
  | increment r next =>
    have hlock : s.counterLock = some c := h.lock c (hpc ▸ trivial)
    exact h.move rfl rfl (lock_pass h.lock rfl (.inr hlock) nofun) (fun j => hpc ▸ .rfl) hwrote
      (.inl (h.acknowledged hlt hpc))
  | plain | putIfAbsent =>
    exact h.aside rfl rfl (lock_keep h.lock rfl nofun) (acknowledge_of_not_mem hok)
      (hpc ▸ hok) hok hwrote

end

theorem Counted.invalidated {op} (hpc : s.calls c = .applying (op :: ops) wrote w)
    (hop : ∀ k v, op ≠ .insert k v) {hotTier} :
    Counted k base { s.goto c (.applying ops wrote w) with hotTier } := by
  have hok := h.callOk hpc
  refine h.steady rfl rfl rfl rfl (hpc ▸ .rfl) (fun i => hpc ▸ .rfl) ?_
  cases w with
  | increment r next =>
    rcases hok with ⟨-, hpend⟩ | ⟨hnone, hcount⟩
    · exact absurd (cons.inj hpend.1).1 (hop _ _)
    · exact .inr ⟨fun k v hin => hnone k v (mem_cons_of_mem _ hin), hcount⟩
  | plain | putIfAbsent => exact hok

theorem Counted.leave (hpc : s.calls c = .applying [] wrote w) :
    Counted k base (s.leave c wrote w) := by
  have hok := h.callOk hpc
  have hholds : (.await wrote w : Call crc32).HoldsCounter ↔ (s.calls c).HoldsCounter := hpc ▸ .rfl
  cases w with
  | increment r next =>
    refine h.steady rfl rfl rfl rfl hholds (fun i => hpc ▸ .rfl) ?_
    rcases hok with ⟨-, hpend⟩ | ⟨-, hcount⟩
    · cases hpend.1
    · exact hcount
  | plain | putIfAbsent => exact h.steady rfl rfl rfl rfl hholds (fun i => hpc ▸ .rfl) hok

theorem Counted.call {bumped settled} (hvis : s.Visible) (hfresh : Fresh bumped settled s)
    (honly : OnlyIncrements k c s) (hbelow : BelowMax k c s) (hstep : CallStep c s t) :
    Counted k base t := by
  have hacked : s.acked k < (s.history k).length :=
    lt_of_le_of_lt ((hfresh.acked_le k).trans (hfresh.settled_le k)) (hfresh.bumped_lt k)
  cases hstep with
  | getStart _ hpc | getUncachedStart _ hpc | uncachedMiss hpc _ =>
    exact h.goto elim (fun i => hpc ▸ id) (fun _ => id) (by rintro ⟨⟩)
  | putIfAbsentStart k' value hpc _ =>
    have hgoto : Counted k base (s.goto c (.hot (s.reading k') (.putIfAbsent value))) :=
      h.goto elim (fun i => hpc ▸ id) (fun _ => id) (by rintro ⟨⟩)
    exact { hgoto with }
  | incrementStart k' hpc hlock =>
    refine h.aside rfl rfl (lock_pass h.lock rfl (.inl hlock) fun _ => rfl) rfl (fun i => hpc ▸ id)
      (fun _ => id) ?_
    rintro - rfl
    exact h.settled (c := c) (.inl hlock) fun i => hpc ▸ id
  | writeStart _ hpc => exact h.goto elim (fun i => hpc ▸ id) (fun _ => id) trivial
  | @hotHit r p v hpc hhit =>
    rw [get_eq] at hhit
    have hhot : Counted k base { s with hotTier := (s.hotTier.get r.key.realmId r.key.key).2 } :=
      { h with }
    refine hhot.answer (fun hp => hpc ▸ hp) (fun i => hpc ▸ id) (h.callOk hpc) ?_
    exact (drop_sublist_drop_left _ (hfresh.callOk hpc).2.2).subset (hfresh.cached _ v hhit)
  | hotMiss hpc _ _ | beginFill hpc =>
    have hok := h.callOk hpc
    exact h.goto (fun hp => hpc ▸ hp) (fun i => hpc ▸ id) (fun _ => id) hok
  | lookActive hpc =>
    have hok := h.callOk hpc
    have hread := hfresh.callOk hpc
    exact h.look (fun hp => hpc ▸ hp) (fun i => hpc ▸ id) hok
      (fun v hv => (hfresh.below_active hvis hread hv).mem hread.1.1)
      (h.goto (fun hp => hpc ▸ hp) (fun i => hpc ▸ id) (fun _ => id) hok)
  | lookParked hpc =>
    have hok := h.callOk hpc
    have hread := hfresh.callOk hpc
    exact h.look (fun hp => hpc ▸ hp) (fun i => hpc ▸ id) hok
      (fun v hv => (Under.below_parked hread hv).mem hread.1)
      (h.goto (fun hp => hpc ▸ hp) (fun i => hpc ▸ id) (fun _ => id) hok)
  | sstHit hpc hget =>
    have hread := hfresh.callOk hpc
    exact h.found (fun hp => hpc ▸ hp) (fun i => hpc ▸ id) (h.callOk hpc)
      ((hget ▸ Under.below_ssts hread).mem hread.1)
  | sstMiss hpc hget =>
    have hread := hfresh.callOk hpc
    exact h.answer (fun hp => hpc ▸ hp) (fun i => hpc ▸ id) (h.callOk hpc)
      ((hget ▸ Under.below_ssts hread).mem hread.1)
  | @promote r p guard data hpc =>
    have hhot : Counted k base
      { s with hotTier := s.hotTier.promote guard r.key.realmId r.key.key data } :=
      { h with }
    exact hhot.answer (fun hp => hpc ▸ hp) (fun i => hpc ▸ id) (h.callOk hpc) (hfresh.callOk hpc).1
  | fenced hpc => exact h.fail hpc
  | enter hpc _ => exact h.enter hpc
  | @insert k' v ops wrote w hpc _ =>
    by_cases hk : k = k'
    · subst hk
      have hins : (s.calls c).inserts k = some w := by
        rw [hpc]
        exact if_pos rfl
      cases w with
      | increment r next => exact h.count (Nat.zero_lt_of_lt hacked) (hbelow _ hins) hpc
      | plain | putIfAbsent => exact (honly _ hins).elim
    · exact h.insert_of_ne hk hpc
  | bump hpc | remove hpc => exact h.invalidated hpc (by rintro _ _ ⟨⟩)
  | leave hpc => exact h.leave hpc
  | durable hpc => exact h.durable hacked hpc
  | lost hpc => exact h.lose hacked hpc
  | walkStart _ _ _ hpc | loadActive hpc | loadParked hpc | readActive hpc | readParked hpc | loadSsts hpc
    | walked hpc => exact h.goto elim (fun i => hpc ▸ id) (fun _ => id) trivial

theorem Counted.step {actor bumped settled} (hvis : s.Visible) (hfresh : Fresh bumped settled s)
    (hcond : Counting k actor s) (hstep : ThreadStep actor s t) : Counted k base t := by
  cases actor with
  | call c => exact h.call hvis hfresh (hcond.2 c rfl).1 (hcond.2 c rfl).2 hstep
  | upkeep | reabsorb | clear =>
    obtain ⟨_, _, _, _, _, _, _, _, _, rfl⟩ := hstep.frame nofun
    exact { h with }

end

end

/-! ## Runs -/

theorem update_call {calls : Nat → Call crc32} : update calls c pc c = pc := update_self ..

theorem inserts_at {o} (hpc : s.calls c = pc) (ho : pc.inserts k = o) : (s.calls c).inserts k = o :=
  hpc ▸ ho

theorem inserts_none (hno : ∀ ops wrote w, s.calls c ≠ .applying ops wrote w) :
    (s.calls c).inserts k = none := by
  cases hpc : s.calls c with
  | applying ops wrote w => exact absurd hpc (hno ops wrote w)
  | _ => rfl

variable {init : EngineThreads crc32 → Prop} {cond : Actor → EngineThreads crc32 → Prop}

section

variable (h : Reachable init (LabelledWith ThreadStep cond) s)
  (hs : ∀ {s'}, (s'.calls c).inserts k = none → cond (.call c) s')

include h hs

/-- A write that no other call disturbs, up to the end of its section. -/
theorem applied_alone {d w} (hpc : s.calls c = .enter (entryOps [(k, .data d)]) w)
    (hwal : s.wal = none) (hflush : s.flush ≠ .parking)
    (hins : ∀ {s'}, (s'.calls c).inserts k = some w → s'.ref k = s.ref k → cond (.call c) s') :
    ∃ t, Reachable init (LabelledWith ThreadStep cond) t ∧
      t.calls c = .applying [] [(k, (s.history k).length)] w ∧
      t.history k = s.history k ++ [some d] := by
  have h1 := h.next ⟨.call c, hs (inserts_at hpc rfl), .enter hpc hwal⟩
  have h2 := h1.next ⟨.call c, hins (inserts_at update_call (if_pos rfl)) rfl,
    .insert update_call hflush⟩
  have h3 := h2.next ⟨.call c, hs (inserts_at calls_goto_self rfl), .bump calls_goto_self⟩
  have h4 := h3.next ⟨.call c, hs (inserts_at update_call rfl), .remove update_call⟩
  exact ⟨_, h4, update_call, history_insert_self⟩

/-- An increment that no other call disturbs. -/
theorem increment_alone {d n} (hidle : s.calls c = .idle) (hlock : s.counterLock = none)
    (hwal : s.wal = none) (hflush : s.flush ≠ .parking) (hmiss : s.hotTier.cached k = none)
    (hentry : s.entry s.active k = some (.data d)) (hd : decodeU64Counter (some d) = .ok n)
    (hins : ∀ {s' r}, (s'.calls c).inserts k = some (.increment r (saturatingSucc n)) →
      s'.ref k = s.ref k → cond (.call c) s') :
    ∃ t r, Reachable init (LabelledWith ThreadStep cond) t ∧ r.key = k ∧
      t.calls c = .returned (.incremented r (saturatingSucc n) (s.history k).length) := by
  have h1 := h.next ⟨.call c, hs (inserts_at hidle rfl), .incrementStart k hidle hlock⟩
  obtain ⟨g, h2⟩ := active_alone (fun hstep hno => ⟨.call c, hs (inserts_none hno), hstep⟩) h1
    update_call nofun hmiss
  have h3 := h2.next ⟨.call c, hs (inserts_at calls_goto_self rfl),
    .lookActive_of calls_goto_self hentry⟩
  have h4 := h3.next ⟨.call c, hs (inserts_at calls_goto_self rfl), .promote calls_goto_self⟩
  simp only [answer, hd, look, found, goto, update_idem] at h4
  obtain ⟨t, ht, hpc, -⟩ := applied_alone h4 hs update_call hwal hflush hins
  have h5 := ht.next ⟨.call c, hs (inserts_at hpc rfl), .leave hpc⟩
  have h6 := h5.next ⟨.call c, hs (inserts_at update_call rfl), .durable update_call⟩
  simp only [durable, leave, acknowledge, goto, update_idem] at h6
  exact ⟨_, _, h6, rfl, update_call⟩

end
/-- A claim that no other call disturbs, from the end of its read. -/
theorem claim_alone (h : Reachable init (LabelledWith ThreadStep cond) s)
    (hcall : ∀ s', cond (.call c) s') {value}
    (hpc : s.calls c = .enter (entryOps [(r.key, .data value)]) (.putIfAbsent r))
    (hwal : s.wal = none) (hflush : s.flush ≠ .parking) {versions}
    (hversions : s.history r.key = versions) :
    ∃ t, Reachable init (LabelledWith ThreadStep cond) t ∧
      t.calls c = .returned (.claimed r versions.length) ∧
      t.history r.key = versions ++ [some value] := by
  subst hversions
  obtain ⟨t, ht, hpc', hhist⟩ := applied_alone h (fun _ => hcall _) hpc hwal hflush fun _ _ =>
    hcall _
  have h1 := ht.next ⟨.call c, hcall _, .leave hpc'⟩
  have h2 := h1.next ⟨.call c, hcall _, .durable update_call⟩
  exact ⟨_, h2, update_call, hhist⟩

/-- A `put_if_absent` that no other call disturbs writes an absent key. -/
theorem putIfAbsent_alone (value : Bytes) (h : Reachable init (LabelledWith ThreadStep cond) s)
    (hcall : ∀ s', cond (.call c) s') (hidle : s.calls c = .idle)
    (hlock : s.putIfAbsentLock = none) (hwal : s.wal = none) (hflush : s.flush ≠ .parking)
    (hpark : s.parked = none) (hmiss : s.hotTier.cached k = none)
    (hentry : s.entry s.active k = none) (hget : lookup s.sstReaders k = none) :
    ∃ t r, Reachable init (LabelledWith ThreadStep cond) t ∧
      t.calls c = .returned (.claimed r (s.history k).length) := by
  have h1 := h.next ⟨.call c, hcall _, .putIfAbsentStart k value hidle hlock⟩
  obtain ⟨g, h2⟩ := active_alone (fun hstep _ => ⟨.call c, hcall _, hstep⟩) h1 update_call nofun
    hmiss
  have h3 := h2.next ⟨.call c, hcall _, .lookActive_of calls_goto_self hentry⟩
  have h4 := h3.next ⟨.call c, hcall _, .lookParked calls_goto_self⟩
  simp only [goto, hpark] at h4
  have h5 := h4.next ⟨.call c, hcall _, .sstMiss update_call ((sstGet_eq ..).trans hget)⟩
  obtain ⟨t, ht, hct, -⟩ := claim_alone h5 hcall calls_goto_self hwal hflush rfl
  exact ⟨t, _, ht, hct⟩

/-- Between two claims of a key it was deleted, and each claim was made after a moment of its call at
which the key was absent. Increments of a counter that nothing else writes return its successive
values, each to one call, as long as the counter is below its maximum. -/
theorem conditional_writes_linearizable
    (hs : Reachable Opened (LabelledWith ThreadStep Unhurried) s)
    (ht : Reachable (fun t => t.Opened ∧ decodeU64Counter (t.ref k) = .ok base)
      (LabelledWith ThreadStep (Counting k)) t) :
    (∀ c r i, s.calls c = .returned (.claimed r i) →
      (∃ v, (s.history r.key)[i]? = some (some v)) ∧
      (∃ m, r.versions ≤ m + 1 ∧ m < i ∧ s.Absent r.key m) ∧
      ∀ c' r' j, c' ≠ c → s.calls c' = .returned (.claimed r' j) → r'.key = r.key →
        i ≠ j ∧ (i < j → ∃ m, i < m ∧ m < j ∧ s.Absent r.key m)) ∧
    (∀ c r n i, t.calls c = .returned (.incremented r n i) → r.key = k →
      base < n ∧ n < base + (t.history k).length ∧
      ∀ c' r' j, c' ≠ c → t.calls c' = .returned (.incremented r' n j) → r'.key ≠ k) ∧
    ((∀ c i, (t.calls c).Wrote k i → ∃ r n, t.calls c = .returned (.incremented r n i)) →
      ∀ n, base < n → n < base + (t.history k).length →
        ∃ c r i, t.calls c = .returned (.incremented r n i) ∧ r.key = k) := by
  have hclaim : s.Claimed := by
    refine hs.invariant (fun s => .init) fun s t hreach h ⟨_, _, hstep⟩ => ?_
    obtain ⟨hvis, _, _, hfresh⟩ := fresh_of_reachable (fun _ => id) (fun _ _ => id) hreach
    exact h.step hvis hfresh hstep
  have hcount : Counted k base t := by
    refine ht.invariant (fun t h => .init h.1 h.2) fun s t hreach h ⟨_, hcond, hstep⟩ => ?_
    obtain ⟨hvis, _, _, hfresh⟩ := fresh_of_reachable (fun _ h => h.1) (fun _ _ h => h.1) hreach
    exact h.step hvis hfresh hcond hstep
  have hreturned : ∀ {c r n i}, t.calls c = .returned (.incremented r n i) → r.key = k →
      n = base + i ∧ 0 < i ∧ i < (t.history k).length := by
    exact hcount.callOk
  refine ⟨fun c r i hc => ?_, fun c r n i hc hk => ?_, fun hall n hlow hhigh => ?_⟩
  · have hmade := hclaim.ok c
    rw [hc] at hmade
    refine ⟨hmade.1, hmade.2, fun c' r' j hne hc' hk => ?_⟩
    exact hclaim.apart c c' _ i j hne.symm (hc ▸ ⟨rfl, rfl⟩) (hc' ▸ ⟨hk, rfl⟩)
  · obtain ⟨rfl, hpos, hlt⟩ := hreturned hc hk
    refine ⟨Nat.lt_add_of_pos_right hpos, Nat.add_lt_add_left hlt _, fun c' r' j hne hc' hk' =>
      hne ?_⟩
    have hij := add_left_cancel (hreturned hc' hk').1
    exact hcount.apart c' c i (hc' ▸ ⟨hk', hij.symm⟩) (hc ▸ ⟨hk, rfl⟩)
  · obtain ⟨i, rfl⟩ := Nat.exists_eq_add_of_lt hlow
    obtain ⟨c, hc⟩ := hcount.made _ (Nat.succ_pos i) (lt_of_add_lt_add_left hhigh)
    obtain ⟨r, n, hret⟩ := hall c _ hc
    have hk : r.key = k :=
      (hret ▸ hc : (.returned (.incremented r n (i + 1)) : Call crc32).Wrote k (i + 1)).1
    obtain ⟨rfl, -⟩ := hreturned hret hk
    exact ⟨c, r, i + 1, hret, hk⟩

/-- A counter at 5, after a flush of it has failed. -/
theorem counter_reabsorbed (init : EngineThreads (fun _ => 0) → Prop)
    (cond : Actor → EngineThreads (fun _ => 0) → Prop)
    (hinit : init (rowThreads ⟨demoRealm, [7]⟩ (leBytes 8 5))) (hup : ∀ s, cond .upkeep s)
    (hreabsorb : ∀ s, cond .reabsorb s)
    (hclear : ∀ s, (∀ c, s.calls c = .idle) → cond .clear s) :
    ∃ s, Reachable init (LabelledWith ThreadStep cond) s ∧ (∀ c, s.calls c = .idle) ∧
      (∀ k, s.hotTier.cached k = none) ∧ s.wal = none ∧ s.putIfAbsentLock = none ∧
      s.counterLock = none ∧ s.sstReaders = [] ∧ s.flush = .idle ∧ s.parked = none ∧
      s.history = (rowThreads ⟨demoRealm, [7]⟩ (leBytes 8 5)).history ∧
      ∀ k, s.entry s.active k =
        if k = ⟨demoRealm, [7]⟩ then some (.data (leBytes 8 5)) else none := by
  obtain ⟨s, hs, hcalls, hhot, hhist, hwal, hclaim, hcounter, hssts, hflush, hpark, hentry⟩ :=
    failed_flush_alone (.start hinit) hup rfl ((entry_rowThreads ..).trans (if_pos rfl)) one_pos
      hreabsorb fun s' hs' => hclear s' (congrFun hs')
  exact ⟨s, hs, congrFun hcalls, fun k => hhot ▸ cached_new .., hwal, hclaim, hcounter, hssts,
    hflush, hpark, hhist, fun k => (hentry k).trans (entry_rowThreads ..)⟩

/-- A flush fails; then an absent key is claimed, or a counter at 5 incremented. -/
theorem conditional_writes_linearizable_six : ∃ (s t : EngineThreads fun _ => 0) (r r' : Reading),
    s.calls 0 = .returned (.claimed r 1) ∧
    (∃ m, r.versions ≤ m + 1 ∧ m < 1 ∧ s.Absent r.key m) ∧
    t.calls 0 = .returned (.incremented r' 6 1) ∧
    5 < 6 ∧ 6 < 5 + (t.history ⟨demoRealm, [7]⟩).length := by
  have hfive : decodeU64Counter (some (leBytes 8 5)) = .ok 5 :=
    decodeU64Counter_leBytes (by decide)
  have hquiet : ∀ s : EngineThreads fun _ => 0, (∀ c, s.calls c = .idle) → Unhurried .clear s :=
    fun s hs c r p guard hc => nomatch (hs c).symm.trans hc
  obtain ⟨u, hu, hcalls, hmiss, hwal, hlock, -, hssts, hflush, hpark, hhist, hentry⟩ :=
    counter_reabsorbed Opened Unhurried (rowThreads_opened _ _) (fun _ => trivial)
      (fun _ => trivial) hquiet
  obtain ⟨s, r, hs, hcs⟩ := putIfAbsent_alone (k := ⟨demoRealm, [8]⟩) [1] hu (fun _ => trivial)
    (hcalls 0) hlock hwal (hflush ▸ nofun) hpark (hmiss _) ((hentry _).trans (if_neg (by decide)))
    (hssts ▸ rfl)
  rw [hhist] at hcs
  obtain ⟨u', hu', hcalls', hmiss', hwal', -, hlock', -, hflush', -, hhist', hentry'⟩ :=
    counter_reabsorbed (fun t => t.Opened ∧ decodeU64Counter (t.ref ⟨demoRealm, [7]⟩) = .ok 5)
      (Counting ⟨demoRealm, [7]⟩) ⟨rowThreads_opened _ _, hfive⟩
      (fun _ => ⟨trivial, nofun⟩) (fun _ => ⟨trivial, nofun⟩) fun s hs => ⟨hquiet s hs, nofun⟩
  have href : u'.ref ⟨demoRealm, [7]⟩ = some (leBytes 8 5) := by
    rw [ref, hhist']
    rfl
  obtain ⟨t, r', ht, hk, hct⟩ := increment_alone (c := 0) hu'
    (fun hnone => counting_call fun w hw => by cases hnone.symm.trans hw) (hcalls' 0) hlock' hwal'
    (hflush' ▸ nofun) (hmiss' _) ((hentry' _).trans (if_pos rfl)) hfive
    fun hw hr => counting_call fun w hw' => ⟨Option.some.inj (hw.symm.trans hw') ▸ trivial,
      5, by decide, by rw [hr, href, hfive]⟩
  rw [hhist'] at hct
  obtain ⟨hclaim, hcounts, -⟩ := conditional_writes_linearizable hs ht
  obtain ⟨hlow, hhigh, -⟩ := hcounts 0 r' 6 1 hct hk
  exact ⟨s, t, r, r', hcs, (hclaim 0 r 1 hcs).2.1, hct, hlow, hhigh⟩

/-- A flush fails between the two looks of a `put_if_absent`, which claims a key that is never
absent. -/
theorem present_key_claimed : ∃ (s : EngineThreads fun _ => 0) (r : Reading),
    Reachable Opened (LabelledWith ThreadStep fun _ _ => True) s ∧
      s.calls 0 = .returned (.claimed r 1) ∧ ∀ m, ¬ s.Absent r.key m := by
  have h0 : Reachable Opened (LabelledWith ThreadStep fun _ _ => True)
      (rowThreads ⟨demoRealm, [7]⟩ [5]) := .start (rowThreads_opened _ _)
  have h1 := h0.next ⟨.call 0, trivial, .putIfAbsentStart ⟨demoRealm, [7]⟩ [6] rfl rfl⟩
  obtain ⟨s, g, hs, hpc, hhist, hwal, hssts, hflush, hpark, -⟩ :=
    read_between_looks h1 (fun _ => trivial) rfl ((entry_rowThreads ..).trans (if_pos rfl)) one_pos
      (fun _ => trivial) update_call rfl nofun (cached_new ..)
  obtain ⟨t, ht, hhist', hwal', hflush'⟩ := read_missed hs hpc hflush hpark hssts
  have hone : t.history ⟨demoRealm, [7]⟩ = [some [5]] := by
    rw [hhist', hhist]
    rfl
  obtain ⟨u, hu, hcu, htwo⟩ := claim_alone ht (fun _ => trivial) calls_goto_self
    (hwal'.trans hwal) (fun hparking => nomatch hflush'.symm.trans hparking) hone
  refine ⟨u, _, hu, hcu, fun m hm => ?_⟩
  rw [Absent, htwo] at hm
  match m, hm with
  | 0, hm => cases hm
  | 1, hm => cases hm
  | m + 2, hm => cases hm

end EngineThreads

end Hearth.Storage
