import Hearth.Storage.Threads

/-!
# What the layers hold

The newest version of a key is in the active map, in the parked map or in the files. A walk
loads the pointers of both maps before it reads either: as long as nobody writes the key, it
finds the key behind the pointers it has loaded, or in the files.

`Visible.call`: every step of a call keeps this.
-/

namespace Hearth.Storage

open Base Engine List Function HotTier

variable {crc32 : Bytes → Nat}

namespace EngineThreads

/-! ## The invariant -/

section

variable (s : EngineThreads crc32)

/-- How far a flush has come, and where its entries are. -/
def FlushOk : Prop :=
  match s.flush with
  | .idle => s.parked = none
  | .parking => s.parked = some s.active
  | .parked => ∃ m, s.parked = some m ∧ m < s.active
  | .registered => ∃ m r older, s.parked = some m ∧ m < s.active ∧ s.sstReaders = r :: older ∧
      loadSstReaders s.dir s.sstReaders = s.sstReaders ∧
      (∀ k, valueAt r.2.entries k = s.entry m k) ∧
      ∀ j, s.merging = some j → j.isPartial = false → j.plan.number < r.1
  | .absorbed => ∃ m, s.parked = some m ∧ m < s.active ∧
      ∀ k, s.entry s.active k = none → s.entry m k = none

variable (a : Nat)

/-- A walk has loaded the pointer of the active map. -/
def FromActive (k : CompositeKey) : Prop :=
  (∃ v, s.entry a k = some v ∧ v.live = s.ref k) ∨
    s.entry a k = none ∧ (a = s.active ∨ s.held k = none)

/-- What a walk has read of the maps, or would read now. -/
def view (p : Option Nat) (data : Option MemtableMap) (flushing : Option (Option MemtableMap))
    (k : CompositeKey) : Option MemtableValue :=
  (data.elim (s.entry a k) fun d => d[k]?).or
    (flushing.elim (p.bind fun m => s.entry m k) fun f => f.bind fun d => d[k]?)

/-- A walk has loaded both pointers. -/
def Walked (p : Option Nat) (data : Option MemtableMap) (flushing : Option (Option MemtableMap))
    (ssts : Option (List (Numbered crc32))) (k : CompositeKey) : Prop :=
  (∃ v, s.view a p data flushing k = some v ∧ v.live = s.ref k) ∨
    s.view a p data flushing k = none ∧ ssts.elim (s.held k = none) fun l => lookup l k = s.ref k

/-- `P` holds of every key that has not been written since the walk started. -/
def Unchanged (w : Walk) (P : CompositeKey → Prop) : Prop :=
  ∀ k, w.versions k ≤ (s.history k).length ∧ ((s.history k).length = w.versions k → P k)

def VisibleTo : Call crc32 → Prop
  | .walkActive w => s.Unchanged w fun _ => True
  | .walkParked w a => a < s.made ∧ s.Unchanged w (s.FromActive a)
  | .walking w a p data flushing ssts => a < s.made ∧ (∀ m ∈ p, m < s.made) ∧
      s.Unchanged w (s.Walked a p data flushing ssts)
  | .returned (.walked w e) => s.Unchanged w fun k => e.value k = s.ref k
  | _ => True

structure Visible : Prop where
  newest : ∀ k v, s.held k = some v → v.live = s.ref k
  stack : Stack (Answers (s.held · = none) s.ref) s.dir s.sstReaders s.sstCounter s.merging
  listed : ListedNewest s.dir s.sstReaders ∧ Complete s.dir s.sstReaders
  active : s.active < s.made
  flush : s.FlushOk
  calls : ∀ c, s.VisibleTo (s.calls c)

end

variable {s t : EngineThreads crc32} {c : Nat} {pc : Call crc32} {k : CompositeKey} {r : Reading}

/-! ## What the other calls notice -/

/-- What a step leaves to the walks under way: of a key that it does not write, what they have found
out stays true. -/
structure Later (s t : EngineThreads crc32) : Prop where
  history : ∀ k, s.history k <+: t.history k
  made : s.made ≤ t.made
  held : ∀ k, t.history k = s.history k → s.held k = none → t.held k = none
  fromActive : ∀ a k, a < s.made → t.history k = s.history k → s.FromActive a k → t.FromActive a k
  entry : ∀ a k, a < s.made → t.history k = s.history k → t.entry a k = s.entry a k ∨
    s.entry a k = none ∧ ∃ v, t.entry a k = some v ∧ v.live = s.ref k

theorem ref_of_history (h : t.history k = s.history k) : t.ref k = s.ref k := by rw [ref, ref, h]

section

variable (h : Later s t)

include h

theorem Unchanged.later {w P Q} (hw : s.Unchanged w P)
    (hpq : ∀ k, t.history k = s.history k → P k → Q k) : t.Unchanged w Q := by
  intro k
  obtain ⟨hle, hP⟩ := hw k
  refine ⟨hle.trans (h.history k).length_le, fun hlen => ?_⟩
  have hsame : s.history k = t.history k :=
    (h.history k).eq_of_length (le_antisymm (h.history k).length_le (hlen ▸ hle))
  exact hpq k hsame.symm (hP (hsame ▸ hlen))

theorem Walked.later {a p data flushing ssts} (ha : a < s.made)
    (hp : ∀ m ∈ p, m < s.made) (hsame : t.history k = s.history k)
    (hw : s.Walked a p data flushing ssts k) : t.Walked a p data flushing ssts k := by
  have href := ref_of_history hsame
  have hdata : data.elim (t.entry a k) (fun d => d[k]?) = data.elim (s.entry a k) (fun d => d[k]?) ∨
      ∃ v, data.elim (t.entry a k) (fun d => d[k]?) = some v ∧ v.live = s.ref k := by
    cases data with
    | some d => exact .inl rfl
    | none => exact (h.entry a k ha hsame).imp_right fun hnew => hnew.2
  have hflush : flushing.elim (p.bind fun m => t.entry m k) (fun f => f.bind fun d => d[k]?) =
        flushing.elim (p.bind fun m => s.entry m k) (fun f => f.bind fun d => d[k]?) ∨
      flushing.elim (p.bind fun m => s.entry m k) (fun f => f.bind fun d => d[k]?) = none ∧
      ∃ v, flushing.elim (p.bind fun m => t.entry m k) (fun f => f.bind fun d => d[k]?) = some v ∧
        v.live = s.ref k := by
    cases flushing with
    | some f => exact .inl rfl
    | none =>
      cases p with
      | none => exact .inl rfl
      | some m => exact h.entry m k (hp m rfl) hsame
  have hrest : ssts.elim (s.held k = none) (fun l => lookup l k = s.ref k) →
      ssts.elim (t.held k = none) (fun l => lookup l k = s.ref k) := by
    cases ssts with
    | none => exact h.held k hsame
    | some l => exact id
  unfold Walked view at hw ⊢
  rw [href]
  rcases hdata with hdata | ⟨v, hv, hlive⟩
  · rw [hdata]
    rcases hflush with hflush | ⟨-, v, hv, hlive⟩
    · rw [hflush]
      exact hw.imp_right fun hmiss => ⟨hmiss.1, hrest hmiss.2⟩
    · rw [hv]
      cases hx : data.elim (s.entry a k) fun d => d[k]? with
      | none => exact .inl ⟨v, rfl, hlive⟩
      | some u =>
        rw [hx] at hw
        obtain ⟨u', hu, hcur⟩ | ⟨hmiss, -⟩ := hw
        · exact .inl ⟨u', hu, hcur⟩
        · cases hmiss
  · rw [hv]
    exact .inl ⟨v, rfl, hlive⟩

theorem VisibleTo.later (hok : s.VisibleTo pc) : t.VisibleTo pc := by
  cases pc with
  | walkActive w => exact .later h hok fun _ _ _ => trivial
  | walkParked w a =>
    exact ⟨lt_of_lt_of_le hok.1 h.made, hok.2.later h fun k => h.fromActive a k hok.1⟩
  | walking w a p data flushing ssts =>
    obtain ⟨ha, hp, hw⟩ := hok
    exact ⟨lt_of_lt_of_le ha h.made, fun m hm => lt_of_lt_of_le (hp m hm) h.made,
      hw.later h fun k => .later h ha hp⟩
  | returned o =>
    cases o with
    | walked w e => exact .later h hok fun k hsame hv => hv.trans (ref_of_history hsame).symm
    | _ => trivial
  | _ => trivial

end

section

variable (h : s.Visible)

include h

theorem Visible.callOk (hpc : s.calls c = pc) : s.VisibleTo pc := hpc ▸ h.calls c

theorem Visible.goto (hself : s.VisibleTo pc) : (s.goto c pc).Visible :=
  { h with calls := forall_goto hself fun c' _ => h.calls c' }

/-- A call moves, and the layers below the hot tier stay as they are. -/
theorem Visible.set (hself : s.VisibleTo pc) {hotTier wal putIfAbsentLock counterLock acked} :
    Visible { s.goto c pc with hotTier, wal, putIfAbsentLock, counterLock, acked } :=
  { h.goto hself with }

/-! ## Reads -/

section

variable {p : Purpose} {guard : Option FillGuard} {hotTier : HotTier}

theorem Visible.answer (a : Option Bytes) :
    Visible (.answer { s with hotTier } c r a p) := by
  unfold EngineThreads.answer
  split
  · exact h.set (by trivial)
  · exact h.set (by trivial)
  · split
    · exact h.set (by trivial)
    · exact h.set (by trivial)
  · split
    · exact h.set (by trivial)
    · exact h.set (by trivial)

theorem Visible.found (data : Bytes) : (s.found c r p guard data).Visible := by
  cases guard with
  | none => exact h.answer _
  | some g => exact h.set (by trivial)

theorem Visible.look (e : Option MemtableValue) {next} (hnext : s.VisibleTo next) :
    (s.look c r p guard e next).Visible := by
  unfold EngineThreads.look
  split
  · exact h.found _
  · exact h.answer none
  · exact h.goto hnext

end

end

/-! ## Writes -/

section

variable {ops : List ApplyOp} {wrote : List (CompositeKey × Nat)} {w : Writer} {v : MemtableValue}
  {k' : CompositeKey}

/-- A key that keeps its versions is not the one that is written. -/
theorem ne_of_history_insert (h : (s.insert k v).history k' = s.history k') : k' ≠ k := by
  rintro rfl
  rw [history_insert_self] at h
  have hlen := congrArg length h
  rw [length_append] at hlen
  exact absurd hlen (ne_of_gt (Nat.lt_succ_self _))

section

variable (h : k' ≠ k)

include h

theorem held_insert_of_ne : (s.insert k v).held k' = s.held k' := by
  have hparked : (s.insert k v).parkedEntry k' = s.parkedEntry k' :=
    congrArg s.parked.bind (funext (entry_insert_of_ne h))
  rw [held, hparked, entry_insert_of_ne h]
  rfl

theorem ref_insert_of_ne : (s.insert k v).ref k' = s.ref k' :=
  ref_of_history (history_insert_of_ne h)

theorem fromActive_insert_of_ne {a} (hf : s.FromActive a k') : (s.insert k v).FromActive a k' := by
  rw [FromActive, entry_insert_of_ne h, ref_insert_of_ne h, held_insert_of_ne h]
  exact hf

end

theorem held_insert_self : (s.insert k v).held k = some v := by
  rw [held, show (s.insert k v).entry (s.insert k v).active k = _ from entry_insert k, if_pos rfl]
  rfl

theorem FlushOk.insert (h : s.FlushOk) (hparking : s.flush ≠ .parking) :
    (s.insert k v).FlushOk := by
  have hother : ∀ {m k'}, m < s.active → (s.insert k v).entry m k' = s.entry m k' :=
    fun hm => entry_insert_of_pointer (ne_of_lt hm)
  unfold FlushOk at h ⊢
  rw [show (s.insert k v).flush = s.flush from rfl]
  cases hflush : s.flush with
  | idle | parked =>
    rw [hflush] at h
    exact h
  | parking => exact absurd hflush hparking
  | registered =>
    rw [hflush] at h
    obtain ⟨m, r, older, hpark, hm, hreads, hload, hents, hnum⟩ := h
    exact ⟨m, r, older, hpark, hm, hreads, hload, fun k' => (hents k').trans (hother hm).symm, hnum⟩
  | absorbed =>
    rw [hflush] at h
    obtain ⟨m, hpark, hm, hsub⟩ := h
    refine ⟨m, hpark, hm, fun k' hnone => (hother hm).trans (hsub k' ?_)⟩
    rw [show (s.insert k v).entry (s.insert k v).active k' = _ from entry_insert k'] at hnone
    split at hnone
    · cases hnone
    · exact hnone

theorem Visible.insert (h : s.Visible) (hpark : s.flush ≠ .parking) :
    ((s.insert k v).goto c (.applying ops wrote w)).Visible := by
  have hlater : Later s ((s.insert k v).goto c (.applying ops wrote w)) :=
    { history := history_isPrefix_insert
      made := le_rfl
      held := fun k' hsame => (held_insert_of_ne (ne_of_history_insert hsame)).trans
      fromActive := fun a k' _ hsame => fromActive_insert_of_ne (ne_of_history_insert hsame)
      entry := fun a k' _ hsame => .inl (entry_insert_of_ne (ne_of_history_insert hsame) a) }
  refine ⟨fun k' u hu => ?_, ?_, h.listed, h.active, h.flush.insert hpark,
    forall_goto trivial fun c' _ => (h.calls c').later hlater⟩
  · replace hu : (s.insert k v).held k' = some u := hu
    show u.live = (s.insert k v).ref k'
    by_cases heq : k' = k
    · subst heq
      cases held_insert_self.symm.trans hu
      rw [ref, history_insert_self, getLastD_concat]
    · rw [held_insert_of_ne heq] at hu
      rw [ref_insert_of_ne heq]
      exact h.newest k' u hu
  · refine h.stack.shrink fun k' hnone => ?_
    have hne : k' ≠ k := by
      rintro rfl
      cases held_insert_self.symm.trans hnone
    exact ⟨(held_insert_of_ne hne).symm.trans hnone, ref_insert_of_ne hne⟩

end

/-! ## Walks -/

section

variable {walk : Walk} {a : Nat} {p : Option Nat} {data : Option MemtableMap}
  {flushing : Option (Option MemtableMap)} {ssts : Option (List (Numbered crc32))}

theorem Unchanged.imp {P Q} (h : s.Unchanged walk P) (hpq : ∀ k, P k → Q k) :
    s.Unchanged walk Q := fun k => ⟨(h k).1, fun hlen => hpq k ((h k).2 hlen)⟩

/-- A map is parked next to the active one, or about to be. -/
theorem FlushOk.parked_le (h : s.FlushOk) {m} (hm : s.parked = some m) :
    m ≤ s.active ∧ (s.flush ≠ .parking → m < s.active) := by
  have hlt : ∀ {m'}, s.parked = some m' → m' < s.active → m < s.active := by
    intro m' hpark hlt
    cases hpark.symm.trans hm
    exact hlt
  have hboth : m < s.active → m ≤ s.active ∧ (s.flush ≠ .parking → m < s.active) :=
    fun hlt => ⟨le_of_lt hlt, fun _ => hlt⟩
  unfold FlushOk at h
  split at h
  · cases h.symm.trans hm
  · next hflush =>
    cases h.symm.trans hm
    exact ⟨le_rfl, fun hne => absurd hflush hne⟩
  · obtain ⟨m', hpark, hm'⟩ := h
    exact hboth (hlt hpark hm')
  · obtain ⟨m', -, -, hpark, hm', -⟩ := h
    exact hboth (hlt hpark hm')
  · obtain ⟨m', hpark, hm', -⟩ := h
    exact hboth (hlt hpark hm')

theorem Visible.active_newest (h : s.Visible) {v} (he : s.entry s.active k = some v) :
    v.live = s.ref k := by
  refine h.newest k v ?_
  rw [held, he]
  rfl

theorem Visible.fromActive (h : s.Visible) (k) : s.FromActive s.active k := by
  cases he : s.entry s.active k with
  | none => exact .inr ⟨he, .inl rfl⟩
  | some v => exact .inl ⟨v, he, h.active_newest he⟩

theorem Visible.walked_parked (h : s.Visible) (hfrom : s.FromActive a k) :
    s.Walked a s.parked none none none k := by
  show (∃ v, (s.entry a k).or (s.parkedEntry k) = some v ∧ v.live = s.ref k) ∨
    (s.entry a k).or (s.parkedEntry k) = none ∧ s.held k = none
  obtain ⟨v, hv, hlive⟩ | ⟨hnone, hact | hmiss⟩ := hfrom
  · rw [hv]
    exact .inl ⟨v, rfl, hlive⟩
  · have hheld : (s.entry a k).or (s.parkedEntry k) = s.held k := by rw [held, hact]
    rw [hheld]
    cases hh : s.held k with
    | none => exact .inr ⟨rfl, rfl⟩
    | some v => exact .inl ⟨v, rfl, h.newest k v hh⟩
  · have hboth := hmiss
    rw [held, Option.or_eq_none_iff] at hboth
    rw [hnone, hboth.2]
    exact .inr ⟨rfl, hmiss⟩

theorem Walked.readParked (h : s.Walked a p data none ssts k) :
    s.Walked a p data (some (p.map s.maps)) ssts k := by
  cases p with
  | none | some m => exact h

theorem Walked.value {data flushing ssts}
    (h : s.Walked a p (some data) (some flushing) (some ssts) k) :
    (s.snapshot data flushing ssts).value k = s.ref k := by
  have hlayered : layered (s.snapshot data flushing ssts).activeMemtable.layers k =
      s.view a p (some data) (some flushing) k := (Memtable.getEntry_eq _ _ _).symm
  rw [value_eq, hlayered]
  obtain ⟨v, hv, hlive⟩ | ⟨hnone, hlookup⟩ := h
  · rw [hv]
    exact hlive
  · rw [hnone]
    exact hlookup

end

/-! ## Steps of a call -/

theorem Visible.call (h : s.Visible) (hstep : CallStep c s t) : t.Visible := by
  cases hstep with
  | getStart | getUncachedStart | putIfAbsentStart | incrementStart | writeStart | hotMiss
    | uncachedMiss | beginFill | enter | bump | remove => exact h.set (by trivial)
  | hotHit | promote | sstMiss => exact h.answer _
  | lookActive | lookParked => exact h.look _ trivial
  | sstHit => exact h.found _
  | @fenced ops w | @leave wrote w | @durable wrote w | @lost wrote w =>
    cases w with
    | _ => exact h.set (by trivial)
  | insert _ hpark => exact h.insert hpark
  | walkStart => exact h.goto fun k => ⟨le_rfl, fun _ => trivial⟩
  | loadActive hpc =>
    have hok := h.callOk hpc
    exact h.goto ⟨h.active, hok.imp fun k _ => h.fromActive k⟩
  | loadParked hpc =>
    have hok := h.callOk hpc
    exact h.goto ⟨hok.1, fun m hm => lt_of_le_of_lt (h.flush.parked_le hm).1 h.active,
      hok.2.imp fun k => h.walked_parked⟩
  | readActive hpc =>
    have hok := h.callOk hpc
    exact h.goto hok
  | readParked hpc =>
    obtain ⟨ha, hp, hw⟩ := h.callOk hpc
    exact h.goto ⟨ha, hp, hw.imp fun k => .readParked⟩
  | loadSsts hpc =>
    obtain ⟨ha, hp, hw⟩ := h.callOk hpc
    exact h.goto ⟨ha, hp, hw.imp fun k => .imp_right (.imp_right (h.stack.serves k))⟩
  | walked hpc =>
    obtain ⟨-, -, hw⟩ := h.callOk hpc
    have hval := hw.imp fun k => Walked.value
    exact h.goto hval

end EngineThreads

end Hearth.Storage
