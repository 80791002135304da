import Hearth.Storage.Visible

/-!
# Flushes and compactions

A flush parks the active map, registers its file and then drops the parked map; when it
fails it folds the map back and clears the parked slot. Flushes and compactions keep
`Visible`, so a walk misses nothing (`Visible.walk`): it holds both maps before it reads
either.
-/

namespace Hearth.Storage

open Base Engine Function Option

variable {crc32 : Bytes → Nat}

namespace EngineThreads

variable {s t : EngineThreads crc32} {k : CompositeKey} {m : Nat}

/-! ## The files -/

theorem parkedEntry_eq (hpark : s.parked = some m) (k) : s.parkedEntry k = s.entry m k := by
  rw [parkedEntry, hpark]
  rfl

theorem held_parked (hpark : s.parked = some m) (k) :
    s.held k = (s.entry s.active k).or (s.entry m k) := by
  rw [held, parkedEntry_eq hpark]

/-- The file of the parked map. -/
theorem valueAt_parkedFile {file}
    (hfile : Sst.write crc32 (s.maps m).toList (keySorted_toList (s.maps m)) = .ok file) (k) :
    valueAt file.entries k = s.entry m k := by
  rw [Sst.entries_write hfile, valueAt_toList]
  rfl

/-- A map in either slot is held. -/
theorem parked_answers (k v) (hv : s.parkedEntry k = some v) :
    Answers (s.held · = none) s.ref k v.live := by
  intro hk
  replace hk : s.held k = none := hk
  rw [held, or_eq_none_iff, hv] at hk
  cases hk.2

section

variable {good : CompositeKey → Option Bytes → Prop}
  (h : Stack good s.dir s.sstReaders s.sstCounter s.merging)
  (hparked : ∀ k v, s.parkedEntry k = some v → good k v.live)

include h hparked

theorem UpkeepStep.stack
    (hlist : ListedNewest s.dir s.sstReaders ∧ Complete s.dir s.sstReaders)
    (hstep : UpkeepStep s t) : Stack good t.dir t.sstReaders t.sstCounter t.merging := by
  cases hstep with
  | park | switch | dropParked => exact h
  | register _ hpark hfile =>
    refine h.register fun k v hv => hparked k v ?_
    rw [parkedEntry_eq hpark, ← valueAt_parkedFile hfile, hv]
  | beginFull hnone _ _ hout =>
    rw [hnone] at h
    exact h.beginFull hlist.1 hout
  | mergeFail => exact h.burn
  | beginPartial hnone hplan hout =>
    rw [hnone] at h
    exact h.beginPartial hlist.1 hlist.2 hplan hout
  | commit hsome _ =>
    rw [hsome] at h
    exact h.commit

theorem ReabsorbStep.stack (hstep : ReabsorbStep s t) :
    Stack good t.dir t.sstReaders t.sstCounter t.merging := by
  cases hstep with
  | unpublished => exact h.burn
  | published _ hpark hfile =>
    refine h.publish fun k v hv => hparked k v ?_
    rw [parkedEntry_eq hpark, ← valueAt_parkedFile hfile, hv]

end

theorem listed_reload (dir readers : List (Numbered crc32)) :
    ListedNewest dir (loadSstReaders dir readers) ∧ Complete dir (loadSstReaders dir readers) := by
  refine ⟨fun r hr hnot => ?_, fun q hq => ?_⟩
  · rw [loadSstReaders_numbers] at hnot
    exact absurd (List.mem_map_of_mem hr) hnot
  · rw [← loadSstReaders_numbers dir _]
    exact List.mem_map_of_mem hq

/-! ## Flushes -/

/-- A flush or a compaction takes a step: no map loses an entry of a key, and a map gains only
entries that are current. -/
theorem Visible.upkept (h : s.Visible) (hcalls : t.calls = s.calls)
    (hhist : t.history = s.history) (hmade : s.made ≤ t.made) (hact : t.active < t.made)
    (hheld : ∀ k, t.held k = s.held k ∨ t.held k = none)
    (hfrom : ∀ a k, a < s.made → s.FromActive a k → t.FromActive a k)
    (hentry : ∀ a k, a < s.made → t.entry a k = s.entry a k ∨
      s.entry a k = none ∧ ∃ v, t.entry a k = some v ∧ v.live = s.ref k)
    (hstack : Stack (Answers (t.held · = none) s.ref) t.dir t.sstReaders t.sstCounter t.merging)
    (hlist : ListedNewest t.dir t.sstReaders ∧ Complete t.dir t.sstReaders) (hflush : t.FlushOk) :
    t.Visible := by
  have href : t.ref = s.ref := funext fun k => ref_of_history (congrFun hhist k)
  have hlater : Later s t :=
    { history := fun _ => hhist ▸ List.prefix_rfl
      made := hmade
      held := fun k _ hnone => (hheld k).elim (fun heq => heq.trans hnone) id
      fromActive := fun a k ha _ => hfrom a k ha
      entry := fun a k ha _ => hentry a k ha }
  refine ⟨fun k v hv => ?_, href ▸ hstack, hlist, hact, hflush, fun c => ?_⟩
  · rw [href]
    rcases hheld k with heq | hnone
    · exact h.newest k v (heq.symm.trans hv)
    · cases hnone.symm.trans hv
  · rw [hcalls]
    exact (h.calls c).later hlater

/-- The maps stay as they are. -/
theorem Visible.files (h : s.Visible) {dir sstReaders sstCounter merging flush}
    (hstack : Stack (Answers (s.held · = none) s.ref) dir sstReaders sstCounter merging)
    (hlist : ListedNewest dir sstReaders ∧ Complete dir sstReaders)
    (hflush : FlushOk { s with dir, sstReaders, sstCounter, merging, flush }) :
    Visible { s with dir, sstReaders, sstCounter, merging, flush } :=
  h.upkept rfl rfl le_rfl h.active (fun _ => .inl rfl) (fun _ _ _ => id) (fun _ _ _ => .inl rfl)
    hstack hlist hflush

theorem Visible.flushAt {phase} (h : s.Visible) (hphase : s.flush = phase) :
    FlushOk { s with flush := phase } := by
  subst hphase
  exact h.flush

theorem Visible.park (h : s.Visible) (hidle : s.flush = .idle) :
    Visible { s with parked := some s.active, flush := .parking } := by
  have hpark : s.parked = none := h.flushAt hidle
  have hheld : ∀ k, held { s with parked := some s.active, flush := .parking } k = s.held k := by
    intro k
    show (s.entry s.active k).or (s.entry s.active k) = s.held k
    rw [held, parkedEntry, hpark, Option.or_self, bind_none, or_none]
  refine h.upkept rfl rfl le_rfl h.active (fun k => .inl (hheld k)) (fun a k _ hf => ?_)
    (fun _ _ _ => .inl rfl) (h.stack.shrink fun k hk => ⟨(hheld k).symm.trans hk, rfl⟩) h.listed rfl
  exact hf.imp_right (And.imp_right (Or.imp_right (hheld k).trans))

/-- The map behind the next pointer is empty, and the others are as they were. -/
theorem entry_switch {a} (ha : a < s.made) (k : CompositeKey) :
    (update s.maps s.made ∅ a)[k]? = s.entry a k ∧ (update s.maps s.made ∅ s.made)[k]? = none := by
  refine ⟨?_, ?_⟩
  · rw [update_of_ne (ne_of_lt ha)]
    rfl
  · rw [update_self]
    exact Std.ExtTreeMap.getElem?_empty

theorem Visible.switch (h : s.Visible) (hparking : s.flush = .parking) : Visible { s with
      maps := update s.maps s.made ∅, active := s.made, made := s.made + 1, flush := .parked } := by
  have hpark : s.parked = some s.active := h.flushAt hparking
  have hold : ∀ {a} (k : CompositeKey), a < s.made →
      (update s.maps s.made ∅ a)[k]? = s.entry a k := fun k ha => (entry_switch ha k).1
  have hheld : ∀ k, s.held k = s.entry s.active k := by
    intro k
    rw [held_parked hpark, Option.or_self]
  have hheld' : ∀ k, held { s with
      maps := update s.maps s.made ∅, active := s.made, made := s.made + 1, flush := .parked } k =
      s.held k := by
    intro k
    show ((update s.maps s.made ∅ s.made)[k]?).or
      (s.parked.bind fun m => (update s.maps s.made ∅ m)[k]?) = s.held k
    rw [(entry_switch h.active k).2, hpark, none_or, bind_some, hold k h.active, hheld]
  refine h.upkept rfl rfl (Nat.le_succ _) (Nat.lt_succ_self _) (fun k => .inl (hheld' k))
    (fun a k ha hf => ?_) (fun a k ha => .inl (hold k ha))
    (h.stack.shrink fun k hk => ⟨(hheld' k).symm.trans hk, rfl⟩) h.listed ⟨s.active, hpark, h.active⟩
  refine hf.imp (.imp fun _ => .imp_left (hold k ha).trans) ?_
  rintro ⟨he, hwhere⟩
  refine ⟨(hold k ha).trans he, .inr ((hheld' k).trans ?_)⟩
  rcases hwhere with heq | hmiss
  · rw [hheld, ← heq]
    exact he
  · exact hmiss

theorem Visible.dropParked (h : s.Visible) (hphase : s.flush = .registered) :
    Visible { s with parked := none, flush := .idle } := by
  have hflush := h.flush
  rw [FlushOk, hphase] at hflush
  obtain ⟨m, r, older, hpark, -, hreads, hload, hents, hnum⟩ := hflush
  have hheld := held_parked hpark
  have hheld' : ∀ k, held { s with parked := none, flush := .idle } k = s.entry s.active k :=
    fun k => or_none
  refine h.upkept rfl rfl le_rfl h.active (fun k => ?_) (fun a k _ hf => ?_)
    (fun _ _ _ => .inl rfl) (h.stack.drop hload (hreads ▸ List.mem_cons_self)
      (fun k hnone _ hx hk => hx ?_) hnum fun k hk => ?_) h.listed rfl
  · rw [hheld', hheld]
    cases s.entry s.active k with
    | none => exact .inr rfl
    | some v => exact .inl rfl
  · refine hf.imp_right fun ⟨he, hwhere⟩ => ⟨he, hwhere.imp_right fun hk => (hheld' k).trans ?_⟩
    rw [hheld, or_eq_none_iff] at hk
    exact hk.1
  · show s.held k = none
    rw [hheld, (hheld' k).symm.trans hk, ← hents, hnone]
    rfl
  · -- the registered file answers for the parked keys
    rw [hreads, lookup_cons, hents]
    have hk' := hheld k
    rw [(hheld' k).symm.trans hk] at hk'
    cases he : s.entry m k with
    | none =>
      rw [he] at hk'
      have hserve := h.stack.serves k hk'
      rw [hreads, lookup_cons, hents, he] at hserve
      exact hserve
    | some v => exact h.newest k v (hk'.trans he)

/-! ## Failed flushes -/

theorem entry_reabsorb_active (m : Nat) (k) :
    (s.reabsorb m).entry s.active k = (s.entry s.active k).or (s.entry m k) := by
  unfold entry reabsorb
  dsimp only
  rw [update_self, Memtable.reabsorbLoop_map, valueAt_toList]

theorem entry_reabsorb_of_ne {a} (ha : a ≠ s.active) : (s.reabsorb m).entry a k = s.entry a k := by
  unfold entry reabsorb
  dsimp only
  rw [update_of_ne ha]

/-- The parked map is folded back while it is still parked. -/
theorem Visible.absorb (h : s.Visible) (hlt : m < s.active) (hpark : s.parked = some m) {dir}
    (hstack : Stack (Answers (s.held · = none) s.ref) dir s.sstReaders (s.sstCounter + 1) s.merging)
    (hlist : ListedNewest dir s.sstReaders ∧ Complete dir s.sstReaders) :
    Visible { s.reabsorb m with dir } := by
  have hheld := held_parked hpark
  have hheld' : ∀ k, held { s.reabsorb m with dir } k = s.held k := by
    intro k
    show ((s.reabsorb m).entry s.active k).or
      (s.parked.bind fun m' => (s.reabsorb m).entry m' k) = _
    rw [hpark, bind_some, entry_reabsorb_of_ne (ne_of_lt hlt), entry_reabsorb_active,
      Option.or_assoc, Option.or_self, hheld]
  refine h.upkept rfl rfl le_rfl h.active (fun k => .inl (hheld' k)) (fun a k _ hf => ?_)
    (fun a k _ => ?_) (hstack.shrink fun k hk => ⟨(hheld' k).symm.trans hk, rfl⟩) hlist
    ⟨m, hpark, hlt, fun k hk => ?_⟩
  · show (∃ v, (s.reabsorb m).entry a k = some v ∧ v.live = s.ref k) ∨
      (s.reabsorb m).entry a k = none ∧ (a = s.active ∨ held { s.reabsorb m with dir } k = none)
    rw [hheld']
    by_cases ha : a = s.active
    · rw [ha, entry_reabsorb_active, ← hheld]
      cases hk : s.held k with
      | none => exact .inr ⟨rfl, .inl rfl⟩
      | some v => exact .inl ⟨v, rfl, h.newest k v hk⟩
    · rw [entry_reabsorb_of_ne ha]
      exact hf
  · show (s.reabsorb m).entry a k = s.entry a k ∨
      s.entry a k = none ∧ ∃ v, (s.reabsorb m).entry a k = some v ∧ v.live = s.ref k
    by_cases ha : a = s.active
    · rw [ha, entry_reabsorb_active]
      cases hk : s.entry s.active k with
      | some v => exact .inl rfl
      | none =>
        cases hm : s.entry m k with
        | none => exact .inl rfl
        | some v =>
          refine .inr ⟨rfl, v, rfl, h.newest k v ?_⟩
          rw [hheld, hk, hm]
          rfl
    · exact .inl (entry_reabsorb_of_ne ha)
  · replace hk : (s.reabsorb m).entry s.active k = none := hk
    rw [entry_reabsorb_active, or_eq_none_iff] at hk
    exact (entry_reabsorb_of_ne (ne_of_lt hlt)).trans hk.2

theorem Visible.parked_below (h : s.Visible) (hphase : s.flush = .parked)
    (hpark : s.parked = some m) : m < s.active :=
  (h.flush.parked_le hpark).2 (by rw [hphase]; decide)

theorem Visible.reabsorb (h : s.Visible) (hstep : ReabsorbStep s t) : t.Visible := by
  have hstack := hstep.stack h.stack parked_answers
  cases hstep with
  | unpublished hphase hpark =>
    exact h.absorb (h.parked_below hphase hpark) hpark hstack h.listed
  | published hphase hpark _ =>
    refine h.absorb (h.parked_below hphase hpark) hpark hstack ?_
    rw [apply_rename_top h.stack.dirBound]
    exact ⟨List.forall_mem_cons.2 ⟨fun _ => h.stack.bound, h.listed.1⟩,
      fun q hq => List.mem_cons_of_mem _ (h.listed.2 q hq)⟩

theorem Visible.clear (h : s.Visible) (hstep : ClearStep s t) : t.Visible := by
  cases hstep with
  | clear hphase =>
    have hflush := h.flush
    rw [FlushOk, hphase] at hflush
    obtain ⟨m, hpark, -, hsub⟩ := hflush
    have hheld : ∀ k, held { s with parked := none, flush := .idle } k = s.held k := by
      intro k
      show (s.entry s.active k).or none = _
      rw [held_parked hpark]
      cases hk : s.entry s.active k with
      | none => rw [hsub k hk]
      | some v => rfl
    exact h.upkept rfl rfl le_rfl h.active (fun k => .inl (hheld k))
      (fun a k _ hf => hf.imp_right (And.imp_right (Or.imp_right (hheld k).trans)))
      (fun _ _ _ => .inl rfl) (h.stack.shrink fun k hk => ⟨(hheld k).symm.trans hk, rfl⟩) h.listed
      rfl

/-! ## Compactions -/

theorem FlushOk.beginPartial (h : s.FlushOk) {plan output} :
    FlushOk { s with merging := some ⟨true, plan, output⟩ } := by
  unfold FlushOk at h ⊢
  cases hflush : s.flush with
  | registered =>
    rw [hflush] at h
    obtain ⟨m, r, older, hpark, hm, hreads, hload, hents, -⟩ := h
    refine ⟨m, r, older, hpark, hm, hreads, hload, hents, fun j hj hfull => ?_⟩
    cases hj
    cases hfull
  | idle | parking | parked | absorbed =>
    rw [hflush] at h
    exact h

theorem Visible.upkeep (h : s.Visible) (hstep : UpkeepStep s t) : t.Visible := by
  have hstack := hstep.stack h.stack parked_answers h.listed
  have hidle : s.flush = .idle → ∀ {dir sstReaders : List (Numbered crc32)} {sstCounter : Nat}
      {merging : Option (Merging crc32)},
      FlushOk { s with dir, sstReaders, sstCounter, merging } := by
    intro hphase dir sstReaders sstCounter merging
    rw [hphase]
    exact h.flushAt hphase
  cases hstep with
  | park hphase _ => exact h.park hphase
  | switch hphase => exact h.switch hphase
  | @register m file hphase hpark hfile =>
    refine h.files hstack (listed_reload _ _)
      ⟨m, (s.sstCounter, file), loadSstReaders _ _, hpark, h.parked_below hphase hpark,
        h.stack.reload_publish file, loadSstReaders_idem hstack.dirDescending _,
        valueAt_parkedFile hfile, fun j hj hfull => ?_⟩
    cases h.stack.mergeOk j hj with
    | part => cases hfull
    | full _ hok => exact hok.bound
  | dropParked hphase => exact h.dropParked hphase
  | beginFull _ hphase _ _ | mergeFail _ hphase =>
    exact h.files hstack h.listed (hidle hphase)
  | beginPartial _ _ _ => exact h.files hstack h.listed h.flush.beginPartial
  | commit _ hphase => exact h.files hstack (listed_reload _ _) (hidle hphase)

/-! ## Runs -/

theorem Visible.init (h : s.Opened) : s.Visible := by
  have hheld : ∀ k, s.held k = s.entry s.active k := by
    intro k
    rw [held, parkedEntry, h.unparked]
    exact or_none
  have href : ∀ k,
      s.ref k = (s.entry s.active k).elim (lookup s.sstReaders k) MemtableValue.live := by
    intro k
    rw [ref, h.history]
    rfl
  have hserve : Serves (Answers (s.held · = none) s.ref) s.sstReaders := by
    intro k hk
    rw [href, (hheld k).symm.trans hk]
    rfl
  refine ⟨fun k v hv => ?_, ?_, ?_, h.active, ?_, fun c => ?_⟩
  · rw [href, ← hheld, hv]
    rfl
  · rw [h.readers] at hserve
    rw [h.readers, h.counter, h.merging]
    exact stack_opened h.descending hserve
  · have hlist := listed_reload s.dir s.dir
    rw [loadSstReaders_self h.descending] at hlist
    rwa [h.readers]
  · rw [FlushOk, h.flush]
    exact h.unparked
  · rw [h.calls]
    trivial

theorem Visible.step {actor} (h : s.Visible) (hstep : ThreadStep actor s t) : t.Visible := by
  cases actor with
  | call c => exact h.call hstep
  | upkeep => exact h.upkeep hstep
  | reabsorb => exact h.reabsorb hstep
  | clear => exact h.clear hstep

/-- A walk returns each key that is not written meanwhile with its value, or not at all if it is
deleted. -/
theorem Visible.walk (h : s.Visible) {c w e} (hc : s.calls c = .returned (.walked w e))
    (hle : w.start ≤ w.stop) :
    ∃ l, e.scan w.realmId w.start w.stop = .ok l ∧
      e.scanKeys w.realmId w.start w.stop = .ok (l.map Prod.fst) ∧
      (∀ {S : Type} (visit : S → Bytes → ForInStep S) (x : S),
        e.visitKeys w.realmId w.start w.stop visit x =
          .ok (some (visitList (fun x key _ => visit x key) l x))) ∧
      (∀ {S : Type} (visit : S → Bytes → Bytes → ForInStep S) (x : S),
        e.visitEntries w.realmId w.start w.stop visit x = .ok (some (visitList visit l x))) ∧
      ∀ key v, w.start ≤ key → key < w.stop →
        (s.history ⟨w.realmId, key⟩).length = w.versions ⟨w.realmId, key⟩ →
        ((key, v) ∈ l ↔ s.ref ⟨w.realmId, key⟩ = some v) := by
  have hok := h.callOk hc
  -- no walk looks into the hot tier
  have hrep : Represents { e with hotTier := .new e.hotTier.config e.hotTier.hashBuilder } e.value :=
    ⟨fun _ => rfl, HotTier.coherent_new _ _ _⟩
  obtain ⟨l, hscan, hl⟩ := hrep.scan_eq _ hle
  obtain ⟨l1, hkeys, hl1⟩ := hrep.scanKeys_eq _ hle
  obtain ⟨l2, hl2, hvisitKeys⟩ := hrep.visitKeys_eq _ hle
  obtain ⟨l3, hl3, hvisitEntries⟩ := hrep.visitEntries_eq _ hle
  cases hl.unique hl1
  cases hl.unique hl2
  cases hl.unique hl3
  refine ⟨l, hscan, hkeys, hvisitKeys, hvisitEntries, fun key v hstart hstop hlen => ?_⟩
  rw [hl.mem, (hok _).2 hlen]
  exact ⟨fun hmem => hmem.2.2, fun hv => ⟨hstart, hstop, hv⟩⟩

end EngineThreads

end Hearth.Storage
