import Hearth.Storage.Compact

/-!
# The reader list and the directory

A running engine reads through its reader list. A reload takes the files from the
directory and keeps open readers by file number, so after a commit that failed the
list and the directory may disagree. This module says when the next reload is safe,
with one lemma (`Stack.register`, `Stack.commitFail`, …) for each event that moves
the directory or the list.
-/

namespace Hearth.Storage

open Prod (fst)

open Base List DirOp

variable {crc32 : Bytes → Nat} {dir readers : List (Numbered crc32)}

/-! ## Reloads -/

/-- The reader kept for a file, or the file itself. -/
def kept (readers : List (Numbered crc32)) (r : Numbered crc32) : Numbered crc32 :=
  (readers.find? fun u => u.1 = r.1).getD r

theorem kept_number (readers : List (Numbered crc32)) (r : Numbered crc32) : (kept readers r).1 = r.1 := by
  unfold kept
  cases hf : readers.find? fun u => u.1 = r.1 with
  | none => rfl
  | some u => exact of_decide_eq_true (find?_some hf :)

variable {r : Numbered crc32}

theorem kept_new (h : r.1 ∉ readers.map fst) : kept readers r = r := by
  have hnone : (readers.find? fun u => u.1 = r.1) = none :=
    find?_eq_none.2 fun u hu hn => h (mem_map.2 ⟨u, hu, of_decide_eq_true hn⟩)
  rw [kept, hnone]
  rfl

theorem kept_of_mem (hd : Descending readers) {u} (hu : u ∈ readers)
    (hn : u.1 = r.1) : kept readers r = u := by
  unfold kept
  cases hf : readers.find? fun u => u.1 = r.1 with
  | none => exact absurd hn (by simpa using find?_eq_none.1 hf u hu)
  | some w =>
    have hw : w.1 = r.1 := of_decide_eq_true (find?_some hf :)
    exact hd.eq_of_number (mem_of_find?_eq_some hf) hu (hw.trans hn.symm)

theorem loadSstReaders_numbers (dir readers : List (Numbered crc32)) :
    (loadSstReaders dir readers).map fst = dir.map fst := by
  rw [loadSstReaders, map_map]
  exact map_congr_left fun r _ => kept_number _ r

theorem Descending.numbers {stack stack' : List (Numbered crc32)}
    (h : stack.map fst = stack'.map fst) (hd : Descending stack') : Descending stack := by
  have hp : (stack'.map fst).Pairwise fun a b => b < a := pairwise_map.2 hd
  rw [← h] at hp
  exact pairwise_map.1 hp

theorem Descending.reload (h : Descending dir) (readers : List (Numbered crc32)) :
    Descending (loadSstReaders dir readers) := h.numbers (loadSstReaders_numbers dir _)

/-- A second reload changes nothing. -/
theorem loadSstReaders_idem (h : Descending dir) (readers : List (Numbered crc32)) :
    loadSstReaders dir (loadSstReaders dir readers) = loadSstReaders dir readers := by
  refine map_congr_left fun r hr => ?_
  exact kept_of_mem (h.reload _) (mem_map_of_mem hr) (kept_number _ r)

theorem filter_reload (p : Nat → Bool) : (loadSstReaders dir readers).filter (fun r => p r.1) =
      loadSstReaders (dir.filter fun r => p r.1) readers := by
  rw [loadSstReaders, filter_map]
  congr 1
  refine filter_congr fun r _ => ?_
  exact congrArg p (kept_number _ r)

/-- A reload after an operation that puts no file over the number of a reader. -/
theorem loadSstReaders_apply (dir : List (Numbered crc32)) {op}
    (h : ∀ n f, op = .rename n f → n ∉ readers.map fst) :
    loadSstReaders (apply dir op) readers = apply (loadSstReaders dir readers) op := by
  cases op with
  | rename n f =>
    have hnew : kept readers (n, f) = (n, f) := kept_new (h n f rfl)
    have hmap : loadSstReaders ((n, f) :: dir.filter fun r => r.1 < n) readers =
        (n, f) :: loadSstReaders (dir.filter fun r => r.1 < n) readers :=
      congrArg (· :: _) hnew
    rw [apply, apply, filter_reload fun m => n < m, filter_reload fun m => m < n, ← hmap]
    exact map_append
  | unlink n =>
    exact (filter_reload fun m => m ≠ n).symm

theorem loadSstReaders_applyOps (dir : List (Numbered crc32)) {ops}
    (h : ∀ n f, .rename n f ∈ ops → n ∉ readers.map fst) :
    loadSstReaders (applyOps dir ops) readers = applyOps (loadSstReaders dir readers) ops := by
  induction ops generalizing dir with
  | nil => rfl
  | cons op ops ih =>
    have hop := loadSstReaders_apply dir fun n f heq => h n f (heq ▸ mem_cons_self)
    have ih := ih (apply dir op) fun n f hm => h n f (mem_cons_of_mem _ hm)
    rw [hop] at ih
    exact ih

/-- A file put over the number of a reader is hidden by it. -/
theorem loadSstReaders_rename_kept (hd : Descending dir) (hr : Descending readers) {n f} (hdir : n ∈ dir.map fst) (hreader : n ∈ readers.map fst) :
    loadSstReaders (apply dir (.rename n f)) readers = loadSstReaders dir readers := by
  obtain ⟨r, hmem, rfl⟩ := mem_map.1 hdir
  obtain ⟨u, hu, hn⟩ := mem_map.1 hreader
  obtain ⟨above, below, rfl⟩ := append_of_mem hmem
  obtain ⟨-, hbelow, hcross⟩ := pairwise_append.1 hd
  have happly : apply (above ++ r :: below) (.rename r.1 f) = above ++ (r.1, f) :: below := by
    have hsame : apply (above ++ r :: below) (.rename r.1 f) =
        apply (above ++ below) (.rename r.1 f) := by
      simp [apply]
    rw [hsame, filter_below_above (fun a ha => hcross a ha r mem_cons_self)
      (pairwise_cons.1 hbelow).1]
  rw [happly, loadSstReaders, loadSstReaders, map_append, map_append]
  have heq : kept readers (r.1, f) = kept readers r :=
    (kept_of_mem (r := (r.1, f)) hr hu hn).trans (kept_of_mem hr hu hn).symm
  exact congrArg (fun a => _ ++ a :: _) heq

/-! ## What a stack serves -/

/-- A compaction that has merged its inputs and not yet committed. -/
structure Merging (crc32 : Bytes → Nat) where
  isPartial : Bool
  plan : CompactPlan crc32
  output : Sst crc32

/-- Every file missing from the reader list is newer than all that are in it. -/
def ListedNewest (dir readers : List (Numbered crc32)) : Prop :=
  ∀ r ∈ dir, r.1 ∉ readers.map fst → ∀ q ∈ readers, q.1 < r.1

/-- No file of the reader list is missing from the directory. -/
def Complete (dir readers : List (Numbered crc32)) : Prop := ∀ q ∈ readers, q.1 ∈ dir.map fst

section

variable (good : CompositeKey → Option Bytes → Prop)

variable (stack : List (Numbered crc32))

/-- The stack gives each key a good answer. -/
def Serves : Prop := ∀ k, good k (lookup stack k)

/-- What a reload would list: new files on top of the newest readers. -/
def Aligned (reloaded readers : List (Numbered crc32)) : Prop :=
  ∃ news old, reloaded = news ++ old ∧ old <+: readers ∧ ∀ r ∈ news, ∀ q ∈ readers, q.1 < r.1

/-- The files numbered above `n`. -/
def above (n : Nat) (stack : List (Numbered crc32)) : List (Numbered crc32) :=
  stack.filter fun r => n < r.1

/-- The files numbered below `n`. -/
def below (n : Nat) (stack : List (Numbered crc32)) : List (Numbered crc32) :=
  stack.filter fun r => r.1 < n

/-- A full compaction of `snap` that is to commit under the number `n`. Either nothing was registered
since it took its snapshot, or the reader list holds a newer file. -/
structure FullOk (reloaded readers : List (Numbered crc32)) (counter n : Nat)
    (snap news old : List (Numbered crc32)) : Prop where
  split : reloaded = news ++ old
  descending : Descending snap
  isPrefix : old <+: snap
  newer : ∀ r ∈ news, ∀ q ∈ snap, q.1 < r.1
  older : ∀ q ∈ snap, q.1 < n
  bound : n < counter
  fresh : n ∉ reloaded.map fst
  unlisted : n ∉ readers.map fst
  serves : ∀ k, layered (layersOf (above n news)) k = none → good k (lookup snap k)
  listed : readers = snap ∨ ∃ q ∈ readers, n < q.1

/-- Where a compaction stands before its commit. -/
inductive MergeOk (reloaded readers : List (Numbered crc32)) (counter : Nat) : Merging crc32 → Prop
  | full {n snap news old output} : (fullPlan snap n).merge = .ok output →
      FullOk good reloaded readers counter n snap news old →
      MergeOk reloaded readers counter ⟨false, fullPlan snap n, output⟩
  | part {snap news mergeMin plan output} : partialPlan snap mergeMin =
      some plan → plan.merge = .ok output →
      reloaded = news ++ snap → (∀ q ∈ snap, q ∈ readers) →
      MergeOk reloaded readers counter ⟨true, plan, output⟩

/-- The directory and the reader list of a running engine. -/
structure Stack (dir readers : List (Numbered crc32)) (counter : Nat)
    (merging : Option (Merging crc32)) : Prop where
  dirDescending : Descending dir
  descending : Descending readers
  dirBound : ∀ r ∈ dir, r.1 < counter
  bound : ∀ r ∈ readers, r.1 < counter
  serves : Serves good readers
  reload : Serves good (loadSstReaders dir readers)
  aligned : ListedNewest dir readers → Aligned (loadSstReaders dir readers) readers
  mergeOk : ∀ m, merging = some m →
    MergeOk good (loadSstReaders dir readers) readers counter m

end

section

variable {good good' : CompositeKey → Option Bytes → Prop} {counter : Nat} {merging : Option (Merging crc32)}

theorem layered_layersOf_cons (r : Numbered crc32) (stack : List (Numbered crc32)) (k) :
    layered (layersOf (r :: stack)) k = (valueAt r.2.entries k).or (layered (layersOf stack) k) :=
  layered_cons

theorem layered_layersOf_append (a b : List (Numbered crc32)) (k) :
    layered (layersOf (a ++ b)) k = (layered (layersOf a) k).or (layered (layersOf b) k) := by
  rw [layersOf_append, layered_append]

theorem aligned_self (readers : List (Numbered crc32)) : Aligned readers readers :=
  ⟨[], readers, rfl, prefix_rfl, nofun⟩

/-- A list that a reload returns stays what it is. -/
theorem stack_of_reload {readers'} (hd : Descending dir)
    (hb : ∀ r ∈ dir, r.1 < counter) (hs : Serves good (loadSstReaders dir readers'))
    (hm : ∀ m, merging = some m → MergeOk good (loadSstReaders dir readers')
      (loadSstReaders dir readers') counter m) :
    Stack good dir (loadSstReaders dir readers') counter merging := by
  have hidem := loadSstReaders_idem hd readers'
  refine ⟨hd, hd.reload _, hb, fun r hr => ?_, hs, by rwa [hidem], fun _ => ?_, by rwa [hidem]⟩
  · have hnum : r.1 ∈ dir.map fst :=
      loadSstReaders_numbers dir _ ▸ mem_map_of_mem hr
    obtain ⟨q, hq, heq⟩ := mem_map.1 hnum
    exact heq ▸ hb q hq
  · rw [hidem]
    exact aligned_self _

theorem loadSstReaders_self (hd : Descending dir) : loadSstReaders dir dir = dir :=
  loadSstReaders_eq fun _ hr _ hu => hd.eq_of_number hu hr

theorem stack_opened (hd : Descending dir) (hs : Serves good dir) :
    Stack good dir dir (nextNumber dir) none := by
  rw [← loadSstReaders_self hd] at hs
  have hstack : Stack good dir _ _ none := stack_of_reload hd (lt_nextNumber hd) hs nofun
  rwa [loadSstReaders_self hd] at hstack

/-! ### Writes and flushes -/

/-- The answer of a map, for the keys that no memtable holds. -/
def Answers (absent : CompositeKey → Prop) (ref : CompositeKey → Option Bytes) (k : CompositeKey)
    (x : Option Bytes) : Prop :=
  absent k → x = ref k

/-- More answers are good. -/
theorem MergeOk.mono {reloaded m} (hgood : ∀ k x, good k x → good' k x)
    (h : MergeOk good reloaded readers counter m) : MergeOk good' reloaded readers counter m := by
  cases h with
  | part hplan hout hsplit hlist => exact .part hplan hout hsplit hlist
  | full hout h =>
    exact .full hout { h with serves := fun k hnone => hgood k _ (h.serves k hnone) }

theorem Stack.mono (hgood : ∀ k x, good k x → good' k x)
    (h : Stack good dir readers counter merging) : Stack good' dir readers counter merging :=
  { h with
    serves := fun k => hgood k _ (h.serves k)
    reload := fun k => hgood k _ (h.reload k)
    mergeOk := fun m hm => (h.mergeOk m hm).mono hgood }

/-- Fewer keys to answer for, with the same values. -/
theorem Stack.shrink {absent absent' : CompositeKey → Prop} {ref ref' : CompositeKey → Option Bytes}
    (hkeep : ∀ k, absent' k → absent k ∧ ref' k = ref k)
    (h : Stack (Answers absent ref) dir readers counter merging) :
    Stack (Answers absent' ref') dir readers counter merging :=
  h.mono fun k _ hx hk => (hx (hkeep k hk).1).trans (hkeep k hk).2.symm

/-- A number that is allocated and not used. -/
theorem Stack.burn (h : Stack good dir readers counter merging) :
    Stack good dir readers (counter + 1) merging := by
  refine { h with
    dirBound := fun r hr => Nat.lt_succ_of_lt (h.dirBound r hr)
    bound := fun r hr => Nat.lt_succ_of_lt (h.bound r hr)
    mergeOk := fun m hm => ?_ }
  cases h.mergeOk m hm with
  | part hplan hout hsplit hlist => exact .part hplan hout hsplit hlist
  | full hout hf => exact .full hout { hf with bound := Nat.lt_succ_of_lt hf.bound }

section

variable {file : Sst crc32}

theorem Stack.not_listed (h : Stack good dir readers counter merging) :
    counter ∉ readers.map fst := by
  intro hin
  obtain ⟨r, hr, heq⟩ := mem_map.1 hin
  exact absurd heq (ne_of_lt (h.bound r hr))

/-- The reload after a file has been published under the next number. -/
theorem Stack.reload_publish (h : Stack good dir readers counter merging) (file : Sst crc32) :
    loadSstReaders (apply dir (.rename counter file)) readers =
      (counter, file) :: loadSstReaders dir readers := by
  rw [apply_rename_top h.dirBound]
  exact congrArg (· :: _) (kept_new h.not_listed)

/-- A file of good answers on top. -/
theorem Serves.cons {stack} (hfile : ∀ k v, valueAt file.entries k = some v → good k v.live)
    (h : Serves good stack) (n : Nat) : Serves good ((n, file) :: stack) := by
  intro k
  rw [lookup_cons]
  cases hv : valueAt file.entries k with
  | none => exact h k
  | some v => exact hfile k v hv

theorem FullOk.publish {reloaded snap news old n}
    (h : FullOk good reloaded readers counter n snap news old) :
    FullOk good ((counter, file) :: reloaded) readers (counter + 1) n snap
      ((counter, file) :: news) old := by
  refine { h with
    split := congrArg ((counter, file) :: ·) h.split
    newer := fun r hr q hq => ?_
    bound := Nat.lt_succ_of_lt h.bound
    fresh := fun hin => ?_
    serves := fun k hnone => ?_ }
  · exact forall_mem_cons.2 ⟨fun q hq => (h.older q hq).trans h.bound, h.newer⟩ r hr q hq
  · rcases mem_cons.1 hin with heq | hin
    · exact absurd heq (ne_of_lt h.bound)
    · exact h.fresh hin
  · have habove : above n ((counter, file) :: news) = (counter, file) :: above n news :=
      filter_cons_of_pos (decide_eq_true h.bound)
    rw [habove, layered_layersOf_cons, Option.or_eq_none_iff] at hnone
    exact h.serves k hnone.2

section

variable (h : Stack good dir readers counter merging)

include h

/-- A flush that fails after it has published its file. -/
theorem Stack.publish (hfile : ∀ k v, valueAt file.entries k = some v → good k v.live) :
    Stack good (apply dir (.rename counter file)) readers (counter + 1) merging := by
  have hload := h.reload_publish file
  refine ⟨h.dirDescending.rename _ _, h.descending, fun r hr => ?_,
    fun r hr => Nat.lt_succ_of_lt (h.bound r hr), h.serves, ?_, fun hl => ?_, fun m hm => ?_⟩
  · rcases mem_apply_rename hr with rfl | hr
    · exact Nat.lt_succ_self _
    · exact Nat.lt_succ_of_lt (h.dirBound r hr)
  · rw [hload]
    exact h.reload.cons hfile _
  · have hl' : ListedNewest dir readers := by
      rw [apply_rename_top h.dirBound] at hl
      exact fun r hr => hl r (mem_cons_of_mem _ hr)
    obtain ⟨news, old, hsplit, hpre, hnew⟩ := h.aligned hl'
    refine ⟨(counter, file) :: news, old, ?_, hpre, fun r hr q hq => ?_⟩
    · rw [hload, hsplit]
      rfl
    · rcases mem_cons.1 hr with rfl | hr
      · exact h.bound q hq
      · exact hnew r hr q hq
  · rw [hload]
    cases h.mergeOk m hm with
    | part hplan hout hsplit hlist =>
      exact .part hplan hout (by rw [hsplit, cons_append]) hlist
    | full hout hf => exact .full hout hf.publish

/-- A flush registers its file. -/
theorem Stack.register (hfile : ∀ k v, valueAt file.entries k = some v → good k v.live) :
    Stack good (apply dir (.rename counter file))
      (loadSstReaders (apply dir (.rename counter file)) readers) (counter + 1) merging := by
  have hpub := h.publish hfile
  refine stack_of_reload hpub.dirDescending hpub.dirBound hpub.reload fun m hm => ?_
  have hmerge := hpub.mergeOk m hm
  rw [h.reload_publish file] at hmerge ⊢
  cases hmerge with
  | part hplan hout hsplit hlist =>
    refine .part hplan hout hsplit fun q hq => ?_
    rw [hsplit]
    exact mem_append_right _ hq
  | full hout hf =>
    refine .full hout { hf with
      unlisted := hf.fresh
      listed := .inr ⟨(counter, file), mem_cons_self, ?_⟩ }
    exact lt_of_le_of_ne (Nat.le_of_lt_succ hf.bound) fun heq =>
      hf.fresh (heq ▸ mem_cons_self)

/-- The end of a flush: the memtable lets go of keys that the registered file holds. -/
theorem Stack.drop {r} (hload : loadSstReaders dir readers = readers) (hr : r ∈ readers)
    (hgood : ∀ k, valueAt r.2.entries k = none → ∀ x, good k x → good' k x)
    (hnew : ∀ m, merging = some m → m.isPartial = false → m.plan.number < r.1)
    (hserve : Serves good' readers) : Stack good' dir readers counter merging := by
  refine { h with serves := hserve, reload := by rwa [hload], aligned := fun _ => ?_, mergeOk := fun m hm => ?_ }
  · rw [hload]
    exact aligned_self _
  · have hn := hnew m hm
    cases h.mergeOk m hm with
    | part hplan hout hsplit hlist => exact .part hplan hout hsplit hlist
    | @full n snap news old _ hout hf =>
      have hlt : n < r.1 := hn rfl
      refine .full hout { hf with serves := fun k hnone => ?_, listed := .inr ⟨r, hr, hlt⟩ }
      have hrnews : r ∈ above n news := by
        refine mem_filter.2 ⟨?_, decide_eq_true hlt⟩
        rw [← hload, hf.split] at hr
        rcases mem_append.1 hr with hr | hr
        · exact hr
        · exact absurd (hf.older r (hf.isPrefix.subset hr)) (lt_asymm hlt)
      exact hgood k (layered_eq_none.1 hnone _ (mem_map_of_mem hrnews)) _ (hf.serves k hnone)

end

end

/-! ### Compactions -/

section

variable {output : Sst crc32}

section

variable (h : Stack good dir readers counter none) (hl : ListedNewest dir readers)

include h hl

theorem Stack.beginFull (hout : (fullPlan readers counter).merge = .ok output) :
    Stack good dir readers (counter + 1) (some ⟨false, fullPlan readers counter, output⟩) := by
  refine { h.burn with mergeOk := fun m hm => ?_ }
  cases hm
  obtain ⟨news, old, hsplit, hpre, hnew⟩ := h.aligned hl
  refine .full hout ⟨hsplit, h.descending, hpre, hnew, h.bound, Nat.lt_succ_self _, fun hin => ?_,
    h.not_listed, fun k _ => h.serves k, .inl rfl⟩
  rw [loadSstReaders_numbers] at hin
  obtain ⟨r, hr, heq⟩ := mem_map.1 hin
  exact absurd heq (ne_of_lt (h.dirBound r hr))

theorem Stack.beginPartial (hc : Complete dir readers) {mergeMin plan} (hplan : partialPlan readers mergeMin = some plan)
    (hout : plan.merge = .ok output) :
    Stack good dir readers counter (some ⟨true, plan, output⟩) := by
  refine { h with mergeOk := fun m hm => ?_ }
  cases hm
  obtain ⟨news, old, hsplit, ⟨rest, hrest⟩, hnew⟩ := h.aligned hl
  -- no reader is missing, so none is left behind the old ones
  have hnil : rest = [] := by
    cases hr : rest with
    | nil => rfl
    | cons q rest' =>
      have hq : q ∈ readers := by
        rw [← hrest, hr]
        exact mem_append_right _ mem_cons_self
      have hin := hc q hq
      rw [← loadSstReaders_numbers dir _, hsplit] at hin
      obtain ⟨u, hu, heq⟩ := mem_map.1 hin
      rcases mem_append.1 hu with hu | hu
      · exact absurd heq (ne_of_gt (hnew u hu q hq))
      · have hd := h.descending
        rw [← hrest] at hd
        have hlt := (pairwise_append.1 hd).2.2 u hu q (hr ▸ mem_cons_self)
        exact absurd heq (ne_of_gt hlt)
  rw [hnil, append_nil] at hrest
  exact .part hplan hout (by rw [hsplit, hrest]) fun q hq => hq

end

end

section

variable {reloaded snap news old : List (Numbered crc32)} {n : Nat} {output : Sst crc32}

theorem above_append_below {stack : List (Numbered crc32)} (hd : Descending stack)
    (hn : n ∉ stack.map fst) : above n stack ++ below n stack = stack := by
  have hcut : stack.Pairwise fun a b => decide (n < b.1) = true → decide (n < a.1) = true :=
    hd.imp fun hab hb => decide_eq_true (lt_trans (of_decide_eq_true hb) hab)
  have hbelow : below n stack = stack.filter fun r => !decide (n < r.1) := by
    refine filter_congr fun r hr => ?_
    have hne : r.1 ≠ n := fun heq => hn (heq ▸ mem_map_of_mem hr)
    rw [Bool.eq_iff_iff, decide_eq_true_eq, Bool.not_eq_true', decide_eq_false_iff_not, not_lt]
    exact ⟨le_of_lt, fun hle => lt_of_le_of_ne hle hne⟩
  rw [hbelow]
  exact filter_append_filter_not hcut

theorem FullOk.news_split (h : FullOk good reloaded readers counter n snap news old)
    (hd : Descending reloaded) : above n news ++ below n news = news := by
  have hfresh := h.fresh
  rw [h.split] at hd hfresh
  refine above_append_below (pairwise_append.1 hd).1 fun hin => hfresh ?_
  rw [map_append]
  exact mem_append_left _ hin

/-- The unlinks of the oldest files of a snapshot leave the newest part of what was there. -/
theorem filter_unlinks_isPrefix (hd : Descending snap) (hold : old <+: snap) (j : Nat) :
    old.filter (fun r => decide (r.1 ∉ (snap.map fst).reverse.take j)) <+: old := by
  rw [← takeWhile_eq_filter]
  · exact takeWhile_prefix _
  · have hns : (snap.map fst).reverse.take j = ((snap.drop (snap.length - j)).map fst).reverse := by
      rw [take_reverse, length_map, map_drop]
    have hsplit : Descending (snap.take (snap.length - j) ++ snap.drop (snap.length - j)) := by
      rw [take_append_drop]
      exact hd
    have hsub : Descending old := hd.sublist hold.sublist
    refine hsub.imp_of_mem fun {a b} _ hb hab hout => decide_eq_true fun hin => ?_
    -- with `a` unlinked, the older `b` is unlinked too
    rw [hns, mem_reverse] at hin
    obtain ⟨u, hu, heq⟩ := mem_map.1 hin
    refine of_decide_eq_true hout ?_
    rw [hns, mem_reverse]
    have hbs : b ∈ snap.take (snap.length - j) ++ snap.drop (snap.length - j) := by
      rw [take_append_drop]
      exact hold.subset hb
    rcases mem_append.1 hbs with hbt | hbd
    · have hlt := (pairwise_append.1 hsplit).2.2 b hbt u hu
      rw [heq] at hlt
      exact absurd hlt (lt_asymm hab)
    · exact mem_map_of_mem hbd

/-- The list after the rename and some unlinks of a full compaction. -/
theorem FullOk.applyOps (h : FullOk good reloaded readers counter n snap news old)
    (output : Sst crc32) (j : Nat) :
    ∃ p, p <+: old ∧ applyOps reloaded (((fullPlan snap n).ops output).take (j + 1)) =
      above n news ++ (n, output) :: (below n news ++ p) := by
  have hold : ∀ r ∈ old, r.1 < n := fun r hr => h.older r (h.isPrefix.subset hr)
  have hren : apply reloaded (.rename n output) =
      above n news ++ (n, output) :: (below n news ++ old) := by
    have habove : old.filter (fun r => decide (n < r.1)) = [] :=
      filter_eq_nil_iff.2 fun r hr hlt => lt_asymm (hold r hr) (of_decide_eq_true hlt)
    have hbelow : old.filter (fun r => decide (r.1 < n)) = old :=
      filter_eq_self.2 fun r hr => decide_eq_true (hold r hr)
    rw [apply, h.split, filter_append, filter_append, habove, hbelow, append_nil]
    rfl
  have hops : Storage.applyOps reloaded (((fullPlan snap n).ops output).take (j + 1)) =
      (above n news ++ (n, output) :: (below n news ++ old)).filter
        fun r => decide (r.1 ∉ (snap.map fst).reverse.take j) := by
    rw [← hren, ← applyOps_unlinks, map_take]
    rfl
  have hkeep : ∀ m, (∀ q ∈ snap, q.1 < m) → m ∉ (snap.map fst).reverse.take j := by
    intro m hm hin
    obtain ⟨q, hq, heq⟩ := mem_map.1 (mem_reverse.1 (mem_of_mem_take hin))
    exact absurd heq (ne_of_lt (hm q hq))
  have hnews : ∀ r ∈ news, decide (r.1 ∉ (snap.map fst).reverse.take j) = true :=
    fun r hr => decide_eq_true (hkeep r.1 (h.newer r hr))
  refine ⟨_, filter_unlinks_isPrefix h.descending h.isPrefix j, ?_⟩
  have hhi : (above n news).filter (fun r => decide (r.1 ∉ (snap.map fst).reverse.take j)) =
      above n news := filter_eq_self.2 fun r hr => hnews r (mem_of_mem_filter hr)
  have hlo : (below n news).filter (fun r => decide (r.1 ∉ (snap.map fst).reverse.take j)) =
      below n news := filter_eq_self.2 fun r hr => hnews r (mem_of_mem_filter hr)
  rw [hops, filter_append, filter_cons, if_pos (decide_eq_true (hkeep n h.older)),
    filter_append, hhi, hlo]

variable {k : CompositeKey}

/-- A first part of a stack has no more to show than the stack. -/
theorem lookup_isPrefix {p stack : List (Numbered crc32)} (hp : p <+: stack)
    (h : lookup stack k = none) : lookup p k = none := by
  cases hl : layered (layersOf p) k with
  | none => rw [lookup, visible, hl]; rfl
  | some v =>
    rw [lookup, visible, layered_of_isPrefix (layersOf_isPrefix hp) hl] at h
    rw [lookup, visible, hl]
    exact h

theorem lookup_append {a b : List (Numbered crc32)}
    (h : layered (layersOf a) k = none) : lookup (a ++ b) k = lookup b k := by
  rw [lookup, lookup, visible, visible, layered_layersOf_append, h, Option.none_or]

theorem lookup_append_some {a b : List (Numbered crc32)} {v : MemtableValue}
    (h : layered (layersOf a) k = some v) : lookup (a ++ b) k = v.live := by
  rw [lookup, visible, layered_layersOf_append, h]
  rfl

/-- What the merged file holds for a key: its value, or nothing. -/
theorem valueAt_fullPlan (hout : (fullPlan snap n).merge = .ok output) (k) :
    valueAt output.entries k = (lookup snap k).map .data := by
  have hm : valueAt output.entries k =
      (layered (layersOf snap) k).filter fun v => v.live.isSome := CompactPlan.merge_spec hout k
  rw [hm, lookup, visible]
  cases layered (layersOf snap) k with
  | none => rfl
  | some v => cases v <;> rfl

variable (h : FullOk good reloaded readers counter n snap news old)

include h

/-- The merged file stands for its inputs, in front of any first part of the older files. -/
theorem FullOk.serves_merged (hd : Descending reloaded) (hr : Serves good reloaded)
    (hout : (fullPlan snap n).merge = .ok output) {p : List (Numbered crc32)} (hp : p <+: old) :
    Serves good (above n news ++ (n, output) :: (below n news ++ p)) := by
  have hsplit : reloaded = above n news ++ (below n news ++ old) := by
    rw [← append_assoc, h.news_split hd, h.split]
  intro k
  have hserve := hr k
  rw [hsplit] at hserve
  cases hhi : layered (layersOf (above n news)) k with
  | some v =>
    rw [lookup_append_some hhi] at hserve ⊢
    exact hserve
  | none =>
    have hsnap := h.serves k hhi
    rw [lookup_append hhi] at hserve ⊢
    rw [lookup_cons, valueAt_fullPlan hout]
    cases hv : lookup snap k with
    | some d =>
      rw [hv] at hsnap
      exact hsnap
    | none =>
      -- the newer files answer as before, and the older ones have no more than the snapshot
      change good k (lookup (below n news ++ p) k)
      cases hlo : layered (layersOf (below n news)) k with
      | some v =>
        rw [lookup_append_some hlo] at hserve ⊢
        exact hserve
      | none =>
        rw [lookup_append hlo, lookup_isPrefix (hp.trans h.isPrefix) hv]
        exact hv ▸ hsnap

end

/-! ### Commits -/

section

variable {output : Sst crc32} {plan : CompactPlan crc32} {snap news : List (Numbered crc32)}

theorem applyOps_bound {ops} (hb : ∀ r ∈ dir, r.1 < counter)
    (hops : ∀ n f, .rename n f ∈ ops → n < counter) : ∀ r ∈ applyOps dir ops, r.1 < counter := by
  intro r hr
  rcases mem_applyOps hr with hm | hm
  · exact hops _ _ hm
  · exact hb r hm

theorem Descending.applyOps (h : Descending dir) (ops : List (DirOp crc32)) :
    Descending (applyOps dir ops) := by
  induction ops generalizing dir with
  | nil => exact h
  | cons op ops ih => exact ih (h.apply op)

theorem Stack.forget (h : Stack good dir readers counter merging) :
    Stack good dir readers counter none :=
  { h with mergeOk := nofun }

section

variable {n} (h : Stack good dir readers counter (some ⟨false, fullPlan snap n, output⟩))

include h

/-- The commit of a full compaction fails after any number of its operations. -/
theorem Stack.fullFail (done : Nat) :
    Stack good (applyOps dir (((fullPlan snap n).ops output).take done)) readers counter none := by
  cases done with
  | zero => exact h.forget
  | succ j =>
    cases h.mergeOk _ rfl with
    | @full _ _ news old _ hout hf =>
      have hrd := h.dirDescending.reload readers
      have hren : ∀ m f, .rename m f ∈ ((fullPlan snap n).ops output).take (j + 1) → m = n :=
        fun m f hm => (rename_mem_ops (mem_of_mem_take hm)).1
      have hload := loadSstReaders_applyOps dir fun m f hm => (hren m f hm) ▸ hf.unlisted
      obtain ⟨p, hp, hops⟩ := hf.applyOps _ j
      rw [hops] at hload
      refine ⟨h.dirDescending.applyOps _, h.descending,
        applyOps_bound h.dirBound fun m f hm => (hren m f hm) ▸ hf.bound, h.bound, h.serves, ?_,
        fun hl => ?_, nofun⟩
      · rw [hload]
        exact hf.serves_merged hrd h.reload hout hp
      · -- the merged file is not listed, so every reader is older: nothing was registered meanwhile
        have hnum : n ∈ (applyOps dir (((fullPlan snap n).ops output).take (j + 1))).map fst := by
          rw [← loadSstReaders_numbers _ _, hload]
          exact mem_map.2 ⟨(n, output), mem_append_right _ mem_cons_self, rfl⟩
        obtain ⟨r, hr, hrn⟩ := mem_map.1 hnum
        have holder : ∀ q ∈ readers, q.1 < n := hrn ▸ hl r hr (hrn ▸ hf.unlisted)
        rcases hf.listed with hsnap | ⟨q, hq, hlt⟩
        · refine ⟨above n news ++ (n, output) :: below n news, p, ?_, hsnap ▸ hp.trans hf.isPrefix,
            fun r hr q hq => ?_⟩
          · rw [hload, append_assoc, cons_append]
          · rw [hsnap] at hq
            rcases mem_append.1 hr with hr | hr
            · exact hf.newer r (mem_of_mem_filter hr) q hq
            · rcases mem_cons.1 hr with rfl | hr
              · exact hf.older q hq
              · exact hf.newer r (mem_of_mem_filter hr) q hq
        · exact absurd (holder q hq) (lt_asymm hlt)

end

/-- The commit of a partial compaction fails before it has unlinked a file. -/
theorem Stack.partialFail
    (h : Stack good dir readers counter (some ⟨true, plan, output⟩)) {done}
    (hdone : done ≤ 1) :
    Stack good (applyOps dir ((plan.ops output).take done)) readers counter none := by
  rcases Nat.le_one_iff_eq_zero_or_eq_one.1 hdone with rfl | rfl
  · exact h.forget
  · cases h.mergeOk _ rfl with
    | part hplan _ hsplit hlist =>
      -- the number is that of a reader whose file is there
      obtain ⟨q, hq, hn⟩ := partialPlan_number_mem hplan
      have hreader : plan.number ∈ readers.map fst := mem_map.2 ⟨q, hlist q hq, hn⟩
      have hdir : plan.number ∈ dir.map fst := by
        rw [← loadSstReaders_numbers dir _, hsplit]
        exact mem_map.2 ⟨q, mem_append_right _ hq, hn⟩
      have hload : loadSstReaders (applyOps dir ((plan.ops output).take 1)) readers =
          loadSstReaders dir readers :=
        loadSstReaders_rename_kept h.dirDescending h.descending hdir hreader
      have hnums : (applyOps dir ((plan.ops output).take 1)).map fst = dir.map fst := by
        rw [← loadSstReaders_numbers _ _, hload, loadSstReaders_numbers]
      refine ⟨h.dirDescending.applyOps _, h.descending, fun r hr => ?_, h.bound, h.serves,
        by rw [hload]; exact h.reload, fun hl => ?_, nofun⟩
      · have hin : r.1 ∈ dir.map fst := hnums ▸ mem_map_of_mem hr
        obtain ⟨q, hq, heq⟩ := mem_map.1 hin
        exact heq ▸ h.dirBound q hq
      · rw [hload]
        refine h.aligned fun r hr => ?_
        have hin : r.1 ∈ (applyOps dir ((plan.ops output).take 1)).map fst :=
          hnums ▸ mem_map_of_mem hr
        obtain ⟨q, hq, heq⟩ := mem_map.1 hin
        exact heq ▸ hl q hq

variable {p : Nat → Bool}

theorem kept_filter {r} (hp : p r.1 = true) :
    kept (readers.filter fun u => p u.1) r = kept readers r := by
  rw [kept, find?_filter]
  congr 2
  funext u
  simp only [decide_eq_true_eq, decide_eq_decide]
  exact ⟨fun h => h.2, fun h => ⟨h ▸ hp, h⟩⟩

/-- What a commit does to a list does not depend on the files it replaces. -/
theorem applyOps_congr {a b} (hp : ∀ n, n ≠ plan.number → n ∉ plan.unlinks → p n = true)
    (h : ∀ q : Nat → Bool, (∀ n, q n = true → p n = true) →
      a.filter (fun r => q r.1) = b.filter fun r => q r.1) :
    applyOps a (plan.ops output) = applyOps b (plan.ops output) := by
  have hops : ∀ stack : List (Numbered crc32), applyOps stack (plan.ops output) =
      (apply stack (.rename plan.number output)).filter fun r => decide (r.1 ∉ plan.unlinks) :=
    fun stack => applyOps_unlinks _ _
  have hside : ∀ side : Nat → Bool, (∀ n, side n = true → n ≠ plan.number) →
      (a.filter fun r => side r.1).filter (fun r => decide (r.1 ∉ plan.unlinks)) =
        (b.filter fun r => side r.1).filter fun r => decide (r.1 ∉ plan.unlinks) := by
    intro side hs
    rw [filter_filter, filter_filter]
    refine h (fun n => decide (n ∉ plan.unlinks) && side n) fun n hn => ?_
    rw [Bool.and_eq_true, decide_eq_true_eq] at hn
    exact hp n (hs n hn.2) hn.1
  have hhi := hside _ fun n hn => ne_of_gt (of_decide_eq_true hn)
  have hlo := hside _ fun n hn => ne_of_lt (of_decide_eq_true hn)
  rw [hops, hops, apply, apply, filter_append, filter_append, hhi, filter_cons, filter_cons, hlo]

theorem Stack.partialCommit (h : Stack good dir readers counter (some ⟨true, plan, output⟩)) :
    Stack good (applyOps dir (plan.ops output))
      (loadSstReaders (applyOps dir (plan.ops output))
        (readers.filter fun r => r.1 ∉ plan.reopened)) counter none := by
  cases h.mergeOk _ rfl with
  | @part snap news mergeMin _ _ hplan hout hsplit hlist =>
    obtain ⟨-, run, -, -, -, -, -, hun, hopen, -⟩ := partialPlan_spec hplan
    obtain ⟨q, hq, hqn⟩ := partialPlan_number_mem hplan
    have hren : ∀ m f, .rename m f ∈ plan.ops output → m = plan.number :=
      fun m f hm => (rename_mem_ops hm).1
    have hload : loadSstReaders (applyOps dir (plan.ops output))
        (readers.filter fun r => r.1 ∉ plan.reopened) =
        applyOps (loadSstReaders dir readers) (plan.ops output) := by
      rw [loadSstReaders_applyOps dir]
      · refine applyOps_congr (p := fun n => decide (n ∉ plan.reopened)) (fun n hne hnu => ?_)
          fun q hq => by
            rw [filter_reload, filter_reload]
            exact map_congr_left fun r hr =>
              kept_filter (p := fun n => decide (n ∉ plan.reopened)) (hq r.1 (mem_filter.1 hr).2)
        rw [decide_eq_true_eq, hopen, mem_cons, not_or]
        exact ⟨hne, fun hin => hnu (by rw [hun, mem_reverse]; exact hin)⟩
      · intro m f hm hin
        obtain ⟨u, hu, hun'⟩ := mem_map.1 hin
        have hout' := of_decide_eq_true (mem_filter.1 hu).2
        rw [hun', hren m f hm, hopen] at hout'
        exact hout' mem_cons_self
    have hd : Descending (news ++ snap) := hsplit ▸ h.dirDescending.reload _
    refine stack_of_reload (h.dirDescending.applyOps _) (applyOps_bound h.dirBound fun m f hm => ?_)
      (fun k => ?_) nofun
    · rw [hren m f hm, ← hqn]
      exact h.bound q (hlist q hq)
    · obtain ⟨above, run, oldest, below, p, hsnap, hin, hdrop, hp, hdir⟩ :=
        partialPlan_commit hplan hd _ _
      rw [take_of_length_le (Nat.le_succ _)] at hdir
      rw [hload, hsplit, hdir, lookup_partialPlan hin hdrop hout hp, append_assoc, ← hsnap, ← hsplit]
      exact h.reload k

theorem Stack.commit {m} (h : Stack good dir readers counter (some m)) :
    Stack good (applyOps dir (m.plan.ops m.output))
      (loadSstReaders (applyOps dir (m.plan.ops m.output))
        (readers.filter fun r => r.1 ∉ m.plan.reopened)) counter none := by
  cases h.mergeOk m rfl with
  | part => exact h.partialCommit
  | @full n snap _ _ output =>
    have hall : (readers.filter fun r => r.1 ∉ (fullPlan snap n).reopened) = readers :=
      filter_eq_self.2 fun r _ => decide_eq_true not_mem_nil
    have hfail := h.fullFail ((fullPlan snap n).ops output).length
    rw [take_length] at hfail
    rw [hall]
    exact stack_of_reload hfail.dirDescending hfail.dirBound hfail.reload nofun

end

end

end Hearth.Storage
