import Hearth.Storage.Memtable

/-!
# The hot tier

The sharded cache of values read from the memtable and the SST files, with clock
eviction. A reader takes a guard before it reads the value it wants to cache; an
invalidation of the shard in between voids the fill.

Results:
1. `evictLocked_spec`: eviction takes an entry out and changes no cached value.
2. `cached_promote`, `cached_invalidate`: what a promotion and an invalidation
   leave in the cache.
3. `Coherent.promote`, `Coherent.write`: the cache never disagrees with the store,
   if each fill holds a value read under a guard that is still current.
-/

namespace Hearth.Storage

open Base

/-! ## Shards -/

structure HotEntry where
  value : Bytes
  referenceBit : Bool
  deriving DecidableEq, Repr

/-- A new entry has just been accessed. -/
def HotEntry.new (value : Bytes) : HotEntry := { value, referenceBit := true }

abbrev HotMap := Std.ExtTreeMap CompositeKey HotEntry

/-- What the hash builder decides: the hash of each key, and the order in which a map iterates. -/
structure HashBuilder where
  hashKey : RealmId → Bytes → Nat
  order : HotMap → List CompositeKey
  order_perm : ∀ map, (order map).Perm map.keys

/-- One shard for all keys, iterated in their order. -/
def HashBuilder.inOrder : HashBuilder := ⟨fun _ _ => 0, fun map => map.keys, fun _ => .refl _⟩

/-- The shard a fill was opened against and its epoch at that time. -/
structure FillGuard where
  shard : Nat
  epoch : Nat

structure TieredConfig where
  hotTierCapacity : Nat
  promoteSampleRate : Nat

/-- One shard. Its lock makes a promotion or an invalidation one step. -/
structure Shard where
  data : HotMap
  clockHand : Nat
  /-- Counts the invalidations that touched the shard; 64 bits do not wrap in practice. -/
  invalidationEpoch : Nat

structure HotTier where
  shardCount : Nat
  shardCount_pos : 0 < shardCount
  shards : Fin shardCount → Shard
  hashBuilder : HashBuilder
  shardCapacity : Nat
  promoteCounter : Nat
  config : TieredConfig

/-- `shard_count_for`: a power of two. -/
def shardCountFor (capacity : Nat) : Nat := 2 ^ (min (max (capacity / 1024) 1) 4096).log2

/-! ## Eviction -/

/-- The walk of the clock hand: a set bit is cleared, the first entry with a clear one is the
victim. Returns the number of entries met too. -/
def clockScan : List CompositeKey → HotMap → Nat → Option CompositeKey × HotMap × Nat
  | [], map, scanned => (none, map, scanned)
  | key :: rest, map, scanned =>
    match map[key]? with
    | none => clockScan rest map scanned
    | some entry =>
      if entry.referenceBit then
        clockScan rest (map.insert key { entry with referenceBit := false }) (scanned + 1)
      else (some key, map, scanned + 1)

/-- `evict_locked`: up to two rounds of the map from the hand on. Returns the map and the hand. -/
def evictLocked (order : HotMap → List CompositeKey) (shard : Shard) (map : HotMap) : HotMap × Nat :=
  if map.size = 0 then (map, shard.clockHand)
  else
    let keys := order map
    let start := shard.clockHand % map.size
    let r := clockScan (((keys ++ keys ++ keys).drop start).take (map.size * 2)) map 0
    let hand := (start + r.2.2) % map.size
    -- the second round meets a bit that the first has cleared; the fallback only guarantees progress
    match r.1.or keys[start]? with
    | none => (r.2.1, hand)
    | some evicted => (r.2.1.erase evicted, hand)

def HotMap.value (map : HotMap) (k : CompositeKey) : Option Bytes := (map[k]?).map HotEntry.value

section

variable {map : HotMap} {k : CompositeKey}

theorem HotMap.value_insert (k') (e : HotEntry) :
    value (map.insert k' e) k = if k = k' then some e.value else value map k := by
  rw [value, getElem?_insert]
  split <;> rfl

theorem HotMap.value_erase (k') : value (map.erase k') k = if k = k' then none else value map k := by
  rw [value, Std.ExtTreeMap.getElem?_erase]
  by_cases h : k = k'
  · rw [if_pos h, if_pos (compare_eq_iff_eq.2 h.symm)]
    rfl
  · rw [if_neg h, if_neg fun hc => h (compare_eq_iff_eq.1 hc).symm]
    rfl

theorem clockScan_value (keys) (map : HotMap) (scanned : Nat) (k) :
    HotMap.value (clockScan keys map scanned).2.1 k = HotMap.value map k := by
  induction keys generalizing map scanned with
  | nil => rfl
  | cons key rest ih =>
    rw [clockScan]
    cases hm : map[key]? with
    | none => exact ih map _
    | some entry =>
      dsimp only
      split
      · rw [ih, HotMap.value_insert]
        split
        · next heq => rw [heq, HotMap.value, hm]; rfl
        · rfl
      · rfl

/-- What eviction leaves was there before. -/
theorem evictLocked_spec {order shard v}
    (h : HotMap.value (evictLocked order shard map).1 k = some v) : HotMap.value map k = some v := by
  unfold evictLocked at h
  split at h
  · exact h
  · dsimp only at h
    split at h
    · rwa [clockScan_value] at h
    · rw [HotMap.value_erase, clockScan_value] at h
      split at h
      · cases h
      · exact h

end

/-! ## Operations -/

namespace HotTier

/-- An empty tier. -/
def new (config : TieredConfig) (hashBuilder : HashBuilder) : HotTier where
  shardCount := shardCountFor config.hotTierCapacity
  shardCount_pos := Nat.two_pow_pos _
  shards _ := { data := ∅, clockHand := 0, invalidationEpoch := 0 }
  hashBuilder := hashBuilder
  shardCapacity := (config.hotTierCapacity + shardCountFor config.hotTierCapacity - 1) /
    shardCountFor config.hotTierCapacity
  promoteCounter := 0
  config := config

variable (t : HotTier) (k : CompositeKey)

/-- `shard_index` of the key's hash: middle bits, masked. -/
def shardIndex : Fin t.shardCount :=
  ⟨(t.hashBuilder.hashKey k.realmId k.key >>> 32) &&& (t.shardCount - 1),
    lt_of_le_of_lt Nat.and_le_right (Nat.sub_lt t.shardCount_pos Nat.one_pos)⟩

def shardOf : Shard := t.shards (t.shardIndex k)

def setShard (s : Shard) : HotTier :=
  { t with shards := Function.update t.shards (t.shardIndex k) s }

variable (realmId : RealmId) (key : Bytes)

/-- `begin_fill`. -/
def beginFill : FillGuard :=
  { shard := t.shardIndex ⟨realmId, key⟩, epoch := (t.shardOf ⟨realmId, key⟩).invalidationEpoch }

/-- `get`: a hit sets the reference bit. -/
def get : Option Bytes × HotTier :=
  let shard := t.shardOf ⟨realmId, key⟩
  match shard.data[(⟨realmId, key⟩ : CompositeKey)]? with
  | none => (none, t)
  | some entry =>
    (some entry.value, t.setShard ⟨realmId, key⟩
      { shard with data := shard.data.insert ⟨realmId, key⟩ { entry with referenceBit := true } })

/-- The part of `promote` behind the sampling, with the shard lock held. -/
def promoteAdmitted (guard : FillGuard) (realmId : RealmId) (key value : Bytes) : HotTier :=
  let composite : CompositeKey := ⟨realmId, key⟩
  let shard := t.shardOf composite
  if shard.invalidationEpoch ≠ guard.epoch then t
  else if (shard.data[composite]?).isSome then
    t.setShard composite { shard with data := shard.data.insert composite (.new value) }
  else
    let r := if t.shardCapacity ≤ shard.data.size then
        evictLocked t.hashBuilder.order shard shard.data
      else (shard.data, shard.clockHand)
    t.setShard composite { shard with data := r.1.insert composite (.new value), clockHand := r.2 }

/-- `promote`: one in `promote_sample_rate` calls is admitted. -/
def promote (guard : FillGuard) (realmId : RealmId) (key value : Bytes) : HotTier :=
  if 1 < t.config.promoteSampleRate then
    let counted := { t with promoteCounter := (t.promoteCounter + 1) % 2 ^ 64 }
    if t.promoteCounter % t.config.promoteSampleRate ≠ 0 then counted
    else counted.promoteAdmitted guard realmId key value
  else t.promoteAdmitted guard realmId key value

/-- `invalidate`: the epoch moves even if the key is not cached. -/
def invalidate : HotTier :=
  let shard := t.shardOf ⟨realmId, key⟩
  t.setShard ⟨realmId, key⟩ { shard with
      data := shard.data.erase ⟨realmId, key⟩
      invalidationEpoch := shard.invalidationEpoch + 1 }

/-- The loop that invalidates the keys of a batch. -/
def invalidateAll (keys : List Bytes) : HotTier :=
  keys.foldl (fun t key => t.invalidate realmId key) t

/-! ## What is cached -/

def cached : Option Bytes := HotMap.value (t.shardOf k).data k

def epoch : Nat := (t.shardOf k).invalidationEpoch

section

variable (t : HotTier) (k k' : CompositeKey)

variable (s : Shard)

theorem shardOf_setShard : (t.setShard k s).shardOf k' =
    if t.shardIndex k' = t.shardIndex k then s else t.shardOf k' :=
  Function.update_apply _ _ s _

/-- A change to one shard as its keys see it. -/
theorem cached_setShard : (t.setShard k s).cached k' =
    if t.shardIndex k' = t.shardIndex k then HotMap.value s.data k' else t.cached k' := by
  rw [cached, shardOf_setShard]
  split <;> rfl

theorem epoch_setShard : (t.setShard k s).epoch k' =
    if t.shardIndex k' = t.shardIndex k then s.invalidationEpoch else t.epoch k' := by
  rw [epoch, shardOf_setShard]
  split <;> rfl

section

variable (h : t.shardIndex k' = t.shardIndex k)

include h

theorem shardOf_eq : t.shardOf k' = t.shardOf k :=
  congrArg t.shards h

theorem cached_of_shard : t.cached k' = HotMap.value (t.shardOf k).data k' := by
  rw [cached, shardOf_eq t k k' h]

theorem epoch_of_shard : t.epoch k' = t.epoch k := by
  rw [epoch, shardOf_eq t k k' h]
  rfl

end

/-- The key's own entry is dropped. -/
theorem cached_erase {s} (h : s.data = (t.shardOf k).data.erase k) : (t.setShard k s).cached k' =
    if k' = k then none else t.cached k' := by
  rw [cached_setShard, h]
  by_cases hk : k' = k
  · rw [if_pos (congrArg t.shardIndex hk), if_pos hk, HotMap.value_erase, if_pos hk]
  · split
    · next hi => rw [HotMap.value_erase, if_neg hk, cached_of_shard t _ _ hi]
    · rfl

theorem epoch_same {s} (h : s.invalidationEpoch = t.epoch k) : (t.setShard k s).epoch k' = t.epoch k' := by
  rw [epoch_setShard]
  split
  · next hi => rw [h, epoch_of_shard t _ _ hi]
  · rfl

theorem epoch_succ {s} (h : s.invalidationEpoch = t.epoch k + 1) :
    t.epoch k' ≤ (t.setShard k s).epoch k' ∧ t.epoch k < (t.setShard k s).epoch k := by
  rw [epoch_setShard, epoch_setShard, if_pos rfl, h]
  refine ⟨?_, Nat.lt_succ_self _⟩
  split
  · next hi =>
    rw [epoch_of_shard t _ _ hi]
    exact Nat.le_succ _
  · exact le_rfl

theorem cached_new (config : TieredConfig) (hashBuilder : HashBuilder) :
    (new config hashBuilder).cached k = none := by
  rfl

end

section

variable (t : HotTier) (realmId : RealmId) (key : Bytes) (k : CompositeKey)

theorem get_eq : (t.get realmId key).1 = t.cached ⟨realmId, key⟩ := by
  unfold get cached HotMap.value
  dsimp only
  cases (t.shardOf ⟨realmId, key⟩).data[(⟨realmId, key⟩ : CompositeKey)]? <;> rfl

/-- A hit touches the reference bit only. -/
theorem get_frame : (t.get realmId key).2.cached k = t.cached k ∧
    (t.get realmId key).2.epoch k = t.epoch k := by
  unfold get
  dsimp only
  cases hm : (t.shardOf ⟨realmId, key⟩).data[(⟨realmId, key⟩ : CompositeKey)]? with
  | none => exact ⟨rfl, rfl⟩
  | some entry =>
    constructor
    · rw [cached_setShard]
      split
      · next hi =>
        rw [HotMap.value_insert, cached_of_shard t _ _ hi]
        split
        · next heq => rw [heq, HotMap.value, hm]; rfl
        · rfl
      · rfl
    · exact t.epoch_same _ k rfl

theorem promoteAdmitted_epoch (guard : FillGuard) (value) :
    (t.promoteAdmitted guard realmId key value).epoch k = t.epoch k := by
  unfold promoteAdmitted
  dsimp only
  split
  · rfl
  · split
    · exact t.epoch_same _ k rfl
    · exact t.epoch_same _ k rfl

/-- A promotion adds its value, if the guard is current, and may evict others. -/
theorem promoteAdmitted_cached {guard value v}
    (h : (t.promoteAdmitted guard realmId key value).cached k = some v) :
    t.cached k = some v ∨ (k = ⟨realmId, key⟩ ∧ v = value ∧ t.epoch k = guard.epoch) := by
  unfold promoteAdmitted at h
  dsimp only at h
  split at h
  · exact .inl h
  · next hguard =>
    have hepoch : t.epoch ⟨realmId, key⟩ = guard.epoch := not_not.1 hguard
    -- both insertions are into a map that holds no more than the shard did
    have hset : ∀ (map : HotMap) (hand : Nat),
        (∀ w, HotMap.value map k = some w → HotMap.value (t.shardOf ⟨realmId, key⟩).data k = some w) →
        (t.setShard ⟨realmId, key⟩ { t.shardOf ⟨realmId, key⟩ with
          data := map.insert ⟨realmId, key⟩ (.new value), clockHand := hand }).cached k = some v →
        t.cached k = some v ∨ (k = ⟨realmId, key⟩ ∧ v = value ∧ t.epoch k = guard.epoch) := by
      intro map hand hmap hin
      rw [cached_setShard] at hin
      split at hin
      · next hi =>
        rw [HotMap.value_insert] at hin
        split at hin
        · next heq =>
          cases hin
          exact .inr ⟨heq, rfl, heq ▸ hepoch⟩
        · rw [cached_of_shard t _ _ hi]
          exact .inl (hmap v hin)
      · exact .inl hin
    split at h
    · exact hset _ _ (fun _ hw => hw) h
    · refine hset _ _ (fun w hw => ?_) h
      split at hw
      · exact evictLocked_spec hw
      · exact hw

theorem promote_epoch (guard : FillGuard) (value) :
    (t.promote guard realmId key value).epoch k = t.epoch k := by
  unfold promote
  split
  · split
    · rfl
    · exact promoteAdmitted_epoch _ _ _ _ _ _
  · exact promoteAdmitted_epoch _ _ _ _ _ _

theorem cached_promote {guard value v} (h : (t.promote guard realmId key value).cached k = some v) :
    t.cached k = some v ∨ (k = ⟨realmId, key⟩ ∧ v = value ∧ t.epoch k = guard.epoch) := by
  unfold promote at h
  split at h
  · split at h
    · exact .inl h
    · exact promoteAdmitted_cached
        { t with promoteCounter := (t.promoteCounter + 1) % 2 ^ 64 } _ _ _ h
  · exact promoteAdmitted_cached t _ _ _ h

/-- An invalidation takes its key out and leaves the other values. -/
theorem cached_invalidate : (t.invalidate realmId key).cached k =
    if k = ⟨realmId, key⟩ then none else t.cached k :=
  t.cached_erase _ k rfl

theorem epoch_invalidate : t.epoch k ≤ (t.invalidate realmId key).epoch k ∧
    t.epoch ⟨realmId, key⟩ < (t.invalidate realmId key).epoch ⟨realmId, key⟩ :=
  t.epoch_succ _ k rfl

theorem cached_invalidateAll {keys v} (h : (t.invalidateAll realmId keys).cached k = some v) :
    t.cached k = some v ∧ ∀ key ∈ keys, k ≠ ⟨realmId, key⟩ := by
  induction keys generalizing t with
  | nil => exact ⟨h, nofun⟩
  | cons key keys ih =>
    obtain ⟨hv, hkeys⟩ := ih _ h
    rw [cached_invalidate] at hv
    split at hv
    · cases hv
    · next hne =>
      exact ⟨hv, List.forall_mem_cons.2 ⟨hne, hkeys⟩⟩

theorem epoch_invalidateAll (keys) : t.epoch k ≤ (t.invalidateAll realmId keys).epoch k ∧
    ∀ key ∈ keys, k = ⟨realmId, key⟩ → t.epoch k < (t.invalidateAll realmId keys).epoch k := by
  induction keys generalizing t with
  | nil => exact ⟨le_rfl, nofun⟩
  | cons key keys ih =>
    obtain ⟨hle, hlt⟩ := ih _
    have hstep := (epoch_invalidate t realmId key k).1
    refine ⟨hstep.trans hle, fun key' hk heq => ?_⟩
    rcases List.mem_cons.1 hk with rfl | hk
    · rw [heq] at hle ⊢
      exact lt_of_lt_of_le (epoch_invalidate t _ key' k).2 hle
    · exact lt_of_le_of_lt hstep (hlt key' hk heq)

end

/-! ## Agreement with the store -/

/-- Every cached value is the store's. -/
def Coherent (store : CompositeKey → Option Bytes) : Prop :=
  ∀ k v, t.cached k = some v → store k = some v

section

variable {t : HotTier} {store store' : CompositeKey → Option Bytes} {realmId : RealmId} {key : Bytes}

theorem coherent_new (config : TieredConfig) (hashBuilder : HashBuilder)
    (store : CompositeKey → Option Bytes) : (new config hashBuilder).Coherent store := by
  intro k v h
  cases h

variable (h : t.Coherent store)

include h

theorem Coherent.get : (t.get realmId key).2.Coherent store := by
  intro k v hv
  rw [(get_frame t _ key k).1] at hv
  exact h k v hv

/-- A fill whose value is the store's, unless the guard has gone stale. -/
theorem Coherent.promote {guard value}
    (hv : t.epoch ⟨realmId, key⟩ = guard.epoch → store ⟨realmId, key⟩ = some value) :
    (t.promote guard realmId key value).Coherent store := by
  intro k v hk
  rcases cached_promote t _ key k hk with hk | ⟨rfl, rfl, he⟩
  · exact h k v hk
  · exact hv he

theorem Coherent.write {keys} (hs : ∀ k, (∀ key ∈ keys, k ≠ ⟨realmId, key⟩) → store' k = store k) :
    (t.invalidateAll realmId keys).Coherent store' := by
  intro k v hk
  obtain ⟨hk, hkeys⟩ := cached_invalidateAll t _ k hk
  rw [hs k hkeys]
  exact h k v hk

end

end HotTier

end Hearth.Storage
