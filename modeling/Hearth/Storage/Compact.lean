import Hearth.Base.Run
import Hearth.Storage.SstReader

/-!
# Compaction

The k-way merge of SST files, the choice of the files to merge, and the
directory operations that put the output in their place: a rename, then the
unlinks of the inputs, oldest first.

Results:
1. `kMerge_eq`: the merge yields each key once, with the value of the newest
   input that holds it.
2. `partialPlan_spec`: a partial compaction merges a contiguous run, takes the
   number of its oldest file, and drops deletions only at the end of the stack.
3. `compaction_crash_safe`: over every run of flushes, compactions and crashes,
   the directory resolves every key to the value last flushed for it.
-/

namespace Hearth.Storage

open Prod (fst snd)

open Base MemtableValue
open List hiding merge

variable {crc32 : Bytes → Nat}

/-! ## The k-way merge -/

/-- The inputs, oldest first, whose head is the smallest key. -/
def equalHeads (minKey : CompositeKey) (cursors : List (List Entry)) : List Nat :=
  (range cursors.length).filter fun i => (cursors[i]?.bind (headAt minKey)).isSome

/-- `KMergeIter::advance`. A cursor is what is left of its input, with the block it has buffered.
Between two calls the heap holds the head of each cursor that is not drained and nothing else, so
it is not kept here: its least key is the least head, and what is popped with it are the cursors
at that key. Each of them moves on, and the one of the highest index, which is last in the list,
gives the value. -/
def kMergeAdvance (cursors : List (List Entry)) :
    Except StorageError (Option (Entry × List (List Entry))) :=
  match minHead cursors with
  | none => .ok none
  | some minKey =>
    match ((equalHeads minKey cursors).getLast?.bind (cursors[·]?)).bind (headAt minKey) with
    | none => .error (.invalidSstFormat "compaction merge: winning entry vanished")
    | some value => .ok (some ((minKey, value), cursors.map (dropHead minKey)))

/-- The entries the iterator yields. -/
def kMergeLoop : Nat → List (List Entry) → Except StorageError (List Entry)
  | 0, _ => .ok []
  | fuel + 1, cursors =>
    match kMergeAdvance cursors with
    | .error e => .error e
    | .ok none => .ok []
    | .ok (some (e, cursors)) =>
      match kMergeLoop fuel cursors with
      | .error err => .error err
      | .ok es => .ok (e :: es)

def kMerge (inputs : List (List Entry)) : Except StorageError (List Entry) :=
  kMergeLoop (totalLength inputs) inputs

section

variable {k : CompositeKey} {cs : List (List Entry)}

section

variable (cs : List (List Entry))

theorem minHead_reverse : minHead cs.reverse = minHead cs := by
  cases hm : minHead cs with
  | none =>
    have hnil := minHead_none hm
    cases hr : minHead cs.reverse with
    | none => rfl
    | some k =>
      obtain ⟨⟨l, hl, v, hv⟩, -⟩ := minHead_some hr
      rw [hnil l (mem_reverse.1 hl)] at hv
      cases hv
  | some k =>
    obtain ⟨⟨l, hl, hv⟩, hle⟩ := minHead_some hm
    exact minHead_eq ⟨l, mem_reverse.2 hl, hv⟩ fun l' hl' => hle l' (mem_reverse.1 hl')

/-- The highest index among the inputs at a key is the first of them from the newest on. -/
theorem equalHeads_getLast (k : CompositeKey) (cs : List (List Entry)) :
    ((equalHeads k cs).getLast?.bind (cs[·]?)).bind (headAt k) =
      cs.reverse.findSome? (headAt k) := by
  induction cs using reverseRecOn with
  | nil => rfl
  | append_singleton cs l ih =>
    have hlast : (cs ++ [l])[cs.length]? = some l := getElem?_concat_length
    have hbef : (range cs.length).filter
        (fun i => ((cs ++ [l])[i]?.bind (headAt k)).isSome) = equalHeads k cs := by
      refine filter_congr fun i hi => ?_
      rw [getElem?_append_left (mem_range.1 hi)]
    have hsplit : equalHeads k (cs ++ [l]) =
        equalHeads k cs ++ if (headAt k l).isSome then [cs.length] else [] := by
      rw [equalHeads, length_append, length_singleton, range_succ, filter_append,
        hbef, filter_singleton, hlast, Option.bind_some]
      cases (headAt k l).isSome <;> rfl
    rw [hsplit, reverse_append, reverse_singleton, singleton_append, findSome?_cons]
    cases hv : headAt k l with
    | some v =>
      rw [Option.isSome_some, if_pos rfl, getLast?_concat, Option.bind_some, hlast,
        Option.bind_some, hv]
    | none =>
      simp only [Option.isSome_none, Bool.false_eq_true, if_false, append_nil]
      rw [← ih]
      cases hg : (equalHeads k cs).getLast? with
      | none => rfl
      | some i =>
        have hi : i < cs.length :=
          mem_range.1 (mem_filter.1 (mem_of_getLast? hg)).1
        rw [Option.bind_some, Option.bind_some, getElem?_append_left hi]

theorem kMergeAdvance_eq : kMergeAdvance cs =
    .ok ((mergeStep cs.reverse).map fun r => (r.1, r.2.reverse)) := by
  rw [kMergeAdvance, mergeStep, minHead_reverse]
  cases hm : minHead cs with
  | none => rfl
  | some k =>
    rw [Option.bind_some]
    dsimp only
    rw [equalHeads_getLast]
    cases hf : cs.reverse.findSome? (headAt k) with
    | none =>
      obtain ⟨⟨l, hl, v, hv⟩, -⟩ := minHead_some hm
      rw [findSome?_eq_none_iff.1 hf l (mem_reverse.2 hl)] at hv
      cases hv
    | some v => simp [map_reverse]

theorem kMergeLoop_eq (fuel : Nat) (cs : List (List Entry)) :
    kMergeLoop fuel cs = .ok (merge fuel cs.reverse) := by
  induction fuel generalizing cs with
  | zero => rfl
  | succ fuel ih =>
    rw [kMergeLoop, merge, kMergeAdvance_eq]
    cases hm : mergeStep cs.reverse with
    | none => rfl
    | some r =>
      dsimp only [Option.map_some]
      rw [ih, reverse_reverse]

theorem totalLength_reverse : totalLength cs.reverse = totalLength cs := by
  rw [totalLength, totalLength, map_reverse, sum_reverse]

end

/-- Each key once, in order, with the value of the newest input that holds it. -/
theorem kMerge_eq (hs : ∀ l ∈ cs, KeySorted l) :
    ∃ merged, kMerge cs = .ok merged ∧ KeySorted merged ∧
      ∀ k, valueAt merged k = layered cs.reverse k := by
  obtain ⟨hsort, hval⟩ := merge_spec (fun l hl => hs l (mem_reverse.1 hl))
    (le_of_eq (totalLength_reverse cs))
  exact ⟨_, kMergeLoop_eq _ _, hsort, hval⟩

end

/-! ## Files to merge -/

/-- A file and its number. -/
abbrev Numbered (crc32 : Bytes → Nat) := Nat × Sst crc32

variable (stack : List (Numbered crc32))

/-- The entries of a stack of files. -/
def layersOf : List (List Entry) := stack.map fun r => r.2.entries

/-- Newest first: the numbers descend. -/
def Descending : Prop := stack.Pairwise fun a b => b.1 < a.1

/-- What a reader of the stack sees. -/
def lookup (k : CompositeKey) : Option Bytes := visible live (layersOf stack) k

/-- The loop of `get` and `get_uncached` over the readers: the first file that has the key decides. -/
def sstGet (stack : List (Numbered crc32)) (realmId : RealmId) (key : Bytes) : Option Bytes :=
  match stack with
  | [] => none
  | r :: rest =>
    match r.2.get crc32 realmId key with
    | some value => value.live
    | none => sstGet rest realmId key

theorem sstGet_eq (stack : List (Numbered crc32)) (realmId : RealmId) (key : Bytes) :
    sstGet stack realmId key = lookup stack ⟨realmId, key⟩ := by
  induction stack with
  | nil => rfl
  | cons r rest ih =>
    have hcons : lookup (r :: rest) ⟨realmId, key⟩ =
        ((valueAt r.2.entries ⟨realmId, key⟩).or (layered (layersOf rest) ⟨realmId, key⟩)).bind
          live := congrArg (bind · _) layered_cons
    rw [sstGet, r.2.get_eq, ih, hcons]
    cases valueAt r.2.entries ⟨realmId, key⟩ <;> rfl

/-- The inner loop of `select_partial_run`: how many of the next files stay within the size ratio of
2, all counts being small enough for the division to be exact. -/
def tierExtend : Nat → Nat → List Nat → Nat
  | _, _, [] => 0
  | lo, hi, next :: rest =>
    if max hi next ≤ 2 * min lo next then tierExtend (min lo next) (max hi next) rest + 1 else 0

/-- The outer loop of `select_partial_run`, from the file at index `i` on. -/
def selectLoop (mergeMin : Nat) : Nat → Nat → List Nat → Option (Nat × Nat)
  | 0, _, _ | _ + 1, _, [] => none
  | fuel + 1, i, base :: rest =>
    if mergeMin ≤ tierExtend base base rest + 1 then some (i, i + tierExtend base base rest)
    else selectLoop mergeMin fuel (i + tierExtend base base rest + 1)
      (rest.drop (tierExtend base base rest))

variable (readers : List (Numbered crc32))

/-- `select_partial_run`: the first contiguous run of files of one size tier. -/
def selectPartialRun (mergeMin : Nat) : Option (Nat × Nat) :=
  selectLoop mergeMin readers.length 0 (readers.map fun r => max r.2.entryCount 1)

/-- What a compaction has decided before it merges. -/
structure CompactPlan (crc32 : Bytes → Nat) where
  /-- The number the output takes. -/
  number : Nat
  /-- The files to merge, newest first. -/
  inputs : List (Numbered crc32)
  dropTombstones : Bool
  /-- The files to unlink, in this order. -/
  unlinks : List Nat
  /-- The files whose readers the final reload does not keep. -/
  reopened : List Nat

/-- The plan of `compact_ssts`. -/
def fullPlan (sstNum : Nat) : CompactPlan crc32 :=
  { number := sstNum, inputs := readers, dropTombstones := true
    unlinks := (readers.map fst).reverse, reopened := [] }

/-- The plan of `compact_partial`. -/
def partialPlan (mergeMin : Nat) : Option (CompactPlan crc32) :=
  match selectPartialRun readers (max mergeMin 2) with
  | none => none
  | some (start, stop) =>
    let run := (readers.take (stop + 1)).drop start
    match run.getLast? with
    | none => none
    | some oldest =>
      some {
        number := oldest.1
        inputs := run
        dropTombstones := stop = readers.length - 1
        unlinks := (run.dropLast.map fst).reverse
        reopened := oldest.1 :: run.dropLast.map fst }

/-- No size is above twice another. -/
def SimilarSizes (sizes : List Nat) : Prop := ∀ a ∈ sizes, ∀ b ∈ sizes, a ≤ 2 * b

/-- The files from a tier boundary on, if the stack is cut into tiers from its newest file: a tier
ends where the next file is not similar to all of it. -/
inductive TierStart : List Nat → List Nat → Prop
  | here {sizes} : TierStart sizes sizes
  | next {tier size rest sizes} : tier ≠ [] → SimilarSizes tier → ¬ SimilarSizes (tier ++ [size]) →
      TierStart (size :: rest) sizes → TierStart (tier ++ size :: rest) sizes

section

variable {mergeMin : Nat} {run sizes rest : List Nat}

theorem SimilarSizes.sublist (h : SimilarSizes sizes) (hs : run.Sublist sizes) : SimilarSizes run :=
  fun a ha b hb => h a (hs.subset ha) b (hs.subset hb)

theorem similarSizes_iff {lo hi : Nat} (hlo : lo ∈ sizes) (hhi : hi ∈ sizes)
    (h : ∀ a ∈ sizes, lo ≤ a ∧ a ≤ hi) : SimilarSizes sizes ↔ hi ≤ 2 * lo := by
  refine ⟨fun hsim => hsim hi hhi lo hlo, fun hle a ha b hb => ?_⟩
  calc a ≤ hi := (h a ha).2
    _ ≤ 2 * lo := hle
    _ ≤ 2 * b := Nat.mul_le_mul_left 2 (h b hb).1

/-- The inner loop takes the files that are similar to all before them, and stops at the first that
is not. -/
theorem tierExtend_spec {seen : List Nat} {lo hi : Nat} (hlo : lo ∈ seen) (hhi : hi ∈ seen)
    (h : ∀ a ∈ seen, lo ≤ a ∧ a ≤ hi) (hsim : SimilarSizes seen) :
    SimilarSizes (seen ++ rest.take (tierExtend lo hi rest)) ∧
      (tierExtend lo hi rest < rest.length →
        ¬ SimilarSizes (seen ++ rest.take (tierExtend lo hi rest + 1))) := by
  induction rest generalizing seen lo hi with
  | nil => simpa using hsim
  | cons next rest ih =>
    have hmin : min lo next ∈ seen ++ [next] := by
      rcases min_choice lo next with hm | hm <;> simp [hm, hlo]
    have hmax : max hi next ∈ seen ++ [next] := by
      rcases max_choice hi next with hm | hm <;> simp [hm, hhi]
    have hall : ∀ a ∈ seen ++ [next], min lo next ≤ a ∧ a ≤ max hi next := by
      refine forall_mem_concat (fun a ha => ?_) ⟨min_le_right _ _, le_max_right _ _⟩
      exact ⟨(min_le_left _ _).trans (h a ha).1, (h a ha).2.trans (le_max_left _ _)⟩
    have hiff := similarSizes_iff hmin hmax hall
    rw [tierExtend]
    split
    · next hle => simpa using ih hmin hmax hall (hiff.2 hle)
    · next hgt => simpa [hsim] using mt hiff.1 hgt

/-- How many files the first tier has. -/
theorem tierExtend_maximal (base : Nat) (rest : List Nat) :
    SimilarSizes (base :: rest.take (tierExtend base base rest)) ∧
      ∀ run, run <+: base :: rest → SimilarSizes run →
      run.length ≤ tierExtend base base rest + 1 := by
  have hbase : SimilarSizes [base] := by simp [SimilarSizes]; omega
  obtain ⟨hsim, hstop⟩ := @tierExtend_spec rest _ _ _ (mem_singleton_self base)
    (mem_singleton_self base) (by simp) hbase
  refine ⟨hsim, fun run hrun hs => ?_⟩
  by_contra! hlong
  have hlen := hrun.length_le
  rw [length_cons] at hlen
  have hsub : base :: rest.take (tierExtend base base rest + 1) <+: run := by
    rw [prefix_iff_eq_take.1 hrun, ← take_succ_cons]
    exact take_prefix_take_left hlong
  exact hstop (by omega) (hs.sublist hsub.sublist)

theorem tierExtend_le (lo hi : Nat) (rest : List Nat) : tierExtend lo hi rest ≤ rest.length := by
  induction rest generalizing lo hi with
  | nil => exact le_rfl
  | cons next rest ih =>
    rw [tierExtend]
    split
    · exact Nat.succ_le_succ (ih _ _)
    · exact Nat.zero_le _

/-- A run that the outer loop returns starts a tier, is long enough and of similar sizes. -/
theorem selectLoop_some {fuel i start stop}
    (h : selectLoop mergeMin fuel i sizes = some (start, stop)) :
    ∃ above run below, sizes = above ++ (run ++ below) ∧ i + above.length = start ∧
      start + run.length = stop + 1 ∧ run ≠ [] ∧ mergeMin ≤ run.length ∧ SimilarSizes run ∧
      TierStart sizes (run ++ below) := by
  induction fuel generalizing i sizes with
  | zero => cases h
  | succ fuel ih =>
    cases sizes with
    | nil => cases h
    | cons base rest =>
      obtain ⟨hsim, hmax⟩ := tierExtend_maximal base rest
      have hle := tierExtend_le base base rest
      have hlen : (base :: rest.take (tierExtend base base rest)).length =
          tierExtend base base rest + 1 := by simp [hle]
      rw [selectLoop] at h
      split at h
      · next hlong =>
        cases h
        refine ⟨[], _, rest.drop (tierExtend base base rest), ?_, rfl, by rw [hlen]; rfl,
          cons_ne_nil _ _, hlen ▸ hlong, hsim, ?_⟩
        · simp
        · simpa using .here
      · obtain ⟨above, run, below, hsplit, hstart, hstop, hne, hlong, hs, htier⟩ := ih h
        have hrest : base :: rest = (base :: rest.take (tierExtend base base rest)) ++
            (above ++ (run ++ below)) := by simp [← hsplit]
        refine ⟨_ ++ above, run, below, by rw [append_assoc]; exact hrest, ?_, hstop, hne, hlong,
          hs,
          ?_⟩
        · rw [length_append]
          omega
        · cases hcut : above ++ (run ++ below) with
          | nil => simp [hne] at hcut
          | cons size tail =>
            rw [hrest, hcut]
            refine .next (cons_ne_nil _ _) hsim (fun hmore => ?_) (hcut ▸ hsplit ▸ htier)
            have := hmax _ ⟨tail, by rw [hrest, hcut]; simp⟩ hmore
            rw [length_append, hlen] at this
            simp at this

/-- If the outer loop finds nothing, no tier is long enough. -/
theorem selectLoop_none {fuel i tail} (hmin : 0 < mergeMin) (hf : sizes.length ≤ fuel)
    (h : selectLoop mergeMin fuel i sizes = none) (ht : TierStart sizes tail) (hrun : run <+: tail)
    (hsim : SimilarSizes run) : run.length < mergeMin := by
  induction ht generalizing fuel i with
  | @here sizes =>
    cases sizes with
    | nil => rwa [prefix_nil.1 hrun]
    | cons base rest =>
      cases fuel with
      | zero => cases hf
      | succ fuel =>
        have hle := (tierExtend_maximal base rest).2 run hrun hsim
        rw [selectLoop] at h
        split at h
        · cases h
        · next hshort => exact lt_of_le_of_lt hle (not_le.1 hshort)
  | @next tier size rest' sizes hne htier hstop _ ih =>
    cases tier with
    | nil => exact absurd rfl hne
    | cons base tier =>
      cases fuel with
      | zero => cases hf
      | succ fuel =>
        obtain ⟨hs, hmax⟩ := tierExtend_maximal base (tier ++ size :: rest')
        have hcut : tierExtend base base (tier ++ size :: rest') = tier.length := by
          have hle := hmax (base :: tier) (prefix_append _ _) htier
          refine le_antisymm (not_lt.1 fun hlt => hstop ?_) (Nat.le_of_succ_le_succ hle)
          refine hs.sublist (cons_sublist_cons.2 ?_)
          have hpre : tier ++ [size] <+: tier ++ size :: rest' := ⟨rest', by simp⟩
          refine (prefix_take_iff.2 ⟨hpre, ?_⟩).sublist
          rw [length_append]
          exact hlt
        rw [cons_append, selectLoop, hcut, drop_left] at h
        split at h
        · cases h
        · refine ih ?_ h hrun
          simp at hf ⊢
          omega

end

variable {plan : CompactPlan crc32}

/-- A partial compaction merges a contiguous run under the number of its oldest file, and drops
deletions only when nothing lies below the run. -/
theorem partialPlan_spec {readers mergeMin} (h : partialPlan readers mergeMin = some plan) :
    ∃ above run oldest below, readers = above ++ (run ++ oldest :: below) ∧
      plan.number = oldest.1 ∧ plan.inputs = run ++ [oldest] ∧
      plan.unlinks = (run.map fst).reverse ∧
      plan.reopened = plan.number :: run.map fst ∧ (plan.dropTombstones = true ↔ below = []) := by
  unfold partialPlan at h
  split at h
  · cases h
  · next start stop hsel =>
    obtain ⟨pre, sizes, under, hsizes, hstart, hstop, -⟩ := selectLoop_some hsel
    have hlen := congrArg length hsizes
    simp only [length_map, length_append] at hlen
    dsimp only at h
    split at h
    · cases h
    · next oldest hlast =>
      cases h
      obtain ⟨run, hrun⟩ := getLast?_eq_some_iff.1 hlast
      have hsplit : readers = readers.take start ++ (run ++ oldest :: readers.drop (stop + 1)) := by
        have htake : (readers.take (stop + 1)).take start = readers.take start := by
          rw [take_take, min_eq_left (by omega)]
        calc readers = readers.take (stop + 1) ++ readers.drop (stop + 1) :=
              (take_append_drop _ _).symm
          _ = ((readers.take (stop + 1)).take start ++ (readers.take (stop + 1)).drop start) ++
              readers.drop (stop + 1) := by rw [take_append_drop start]
          _ = _ := by rw [htake, hrun, append_assoc, append_assoc]; rfl
      refine ⟨_, run, oldest, _, hsplit, rfl, hrun, ?_, ?_, ?_⟩
      · rw [hrun, dropLast_concat]
      · rw [hrun, dropLast_concat]
      · rw [decide_eq_true_eq, drop_eq_nil_iff]
        omega

/-! ## The output -/

/-- The entries that `write_sst_streaming_with_fs` pushes. -/
def keepEntries (dropTombstones : Bool) (merged : List Entry) : List Entry :=
  merged.filter fun e => !dropTombstones || e.2.live.isSome

theorem iterAll_sorted (inputs : List (Sst crc32)) :
    ∀ l ∈ inputs.map (fun f => f.iterAll), KeySorted l := by
  intro l hl
  obtain ⟨f, -, rfl⟩ := mem_map.1 hl
  rw [f.iterAll_eq]
  exact f.sorted

/-- `compact_with_fs_opts`, with the inputs oldest first. -/
def compactWithFsOpts (inputs : List (Sst crc32)) (dropTombstones : Bool) :
    Except StorageError (Sst crc32) :=
  match h : kMerge (inputs.map fun f => f.iterAll) with
  | .error e => .error e
  | .ok merged =>
    Sst.write crc32 (keepEntries dropTombstones merged) <| by
      obtain ⟨merged', hok, hsort, -⟩ := kMerge_eq (iterAll_sorted inputs)
      rw [h] at hok
      cases hok
      exact hsort.sublist filter_sublist

def CompactPlan.merge (plan : CompactPlan crc32) : Except StorageError (Sst crc32) :=
  compactWithFsOpts (plan.inputs.map snd).reverse plan.dropTombstones

theorem valueAt_keepEntries (drop : Bool) {merged} (hs : KeySorted merged)
    (k : CompositeKey) : valueAt (keepEntries drop merged) k =
      (valueAt merged k).filter fun v => !drop || v.live.isSome := by
  cases hv : valueAt (keepEntries drop merged) k with
  | some v =>
    obtain ⟨hmem, hkeep⟩ := mem_filter.1 (mem_of_valueAt hv)
    rw [hs.valueAt_eq_some.2 hmem, Option.filter_some, if_pos hkeep]
  | none =>
    cases hm : valueAt merged k with
    | none => rfl
    | some v =>
      rw [Option.filter_some, if_neg]
      intro hkeep
      exact valueAt_eq_none.1 hv _ (mem_filter.2 ⟨mem_of_valueAt hm, hkeep⟩) rfl

theorem CompactPlan.merge_entries {output} (h : plan.merge = .ok output) :
    ∃ merged, kMerge (layersOf plan.inputs).reverse = .ok merged ∧ KeySorted merged ∧
      (∀ k, valueAt merged k = layered (layersOf plan.inputs) k) ∧
      output.entries = keepEntries plan.dropTombstones merged := by
  have hinputs : ((plan.inputs.map snd).reverse.map fun f => f.iterAll) =
      (layersOf plan.inputs).reverse := by
    rw [map_reverse, map_map]
    congr 1
    exact map_congr_left fun r _ => r.2.iterAll_eq
  obtain ⟨merged, hok, hsort, hval⟩ := kMerge_eq (iterAll_sorted _)
  unfold merge compactWithFsOpts at h
  split at h
  · cases h
  · next merged' hm =>
    rw [hok] at hm
    cases hm
    rw [hinputs] at hok hval
    rw [reverse_reverse] at hval
    exact ⟨merged, hok, hsort, hval, Sst.entries_write h⟩

/-- The output holds what the inputs together do, without the deletions if they are dropped. -/
theorem CompactPlan.merge_spec {output}
    (h : plan.merge = .ok output) (k : CompositeKey) : valueAt output.entries k =
      (layered (layersOf plan.inputs) k).filter fun v => !plan.dropTombstones || v.live.isSome := by
  obtain ⟨merged, -, hsort, hval, hents⟩ := merge_entries h
  rw [hents, valueAt_keepEntries _ hsort, hval]

/-! ## The commit -/

/-- One operation of a commit on the directory. A rename puts the merged file under its number, over
the file that had it; an unlink of a missing file succeeds. -/
inductive DirOp (crc32 : Bytes → Nat)
  | rename (number : Nat) (file : Sst crc32)
  | unlink (number : Nat)

variable (dir : List (Numbered crc32))

/-- The directory is its listing, newest first. -/
def DirOp.apply : DirOp crc32 → List (Numbered crc32)
  | .rename n f => dir.filter (fun r => n < r.1) ++ (n, f) :: dir.filter fun r => r.1 < n
  | .unlink n => dir.filter fun r => r.1 ≠ n

def applyOps (ops : List (DirOp crc32)) : List (Numbered crc32) := ops.foldl DirOp.apply dir

/-- The commit of a compaction: the rename, then the unlinks. -/
def CompactPlan.ops (plan : CompactPlan crc32) (output : Sst crc32) : List (DirOp crc32) :=
  .rename plan.number output :: plan.unlinks.map .unlink

/-- `load_sst_readers`: the files of the directory, with the open readers kept by number. -/
def loadSstReaders (dir unchanged : List (Numbered crc32)) : List (Numbered crc32) :=
  dir.map fun r => (unchanged.find? fun u => u.1 = r.1).getD r

section

variable {dir : List (Numbered crc32)}

theorem mem_apply_rename {n f r} (h : r ∈ DirOp.apply dir (.rename n f)) : r = (n, f) ∨
    r ∈ dir := by
  rcases mem_append.1 h with h | h
  · exact .inr (mem_filter.1 h).1
  · rcases mem_cons.1 h with rfl | h
    · exact .inl rfl
    · exact .inr (mem_filter.1 h).1

theorem Descending.rename (h : Descending dir) (n : Nat) (f : Sst crc32) :
    Descending (DirOp.apply dir (.rename n f)) := by
  refine pairwise_append.2 ⟨h.sublist filter_sublist,
    pairwise_cons.2 ⟨fun b hb => ?_, h.sublist filter_sublist⟩, fun a ha b hb => ?_⟩
  · exact of_decide_eq_true (mem_filter.1 hb).2
  · have hna : n < a.1 := of_decide_eq_true (mem_filter.1 ha).2
    rcases mem_cons.1 hb with rfl | hb
    · exact hna
    · exact lt_trans (of_decide_eq_true (mem_filter.1 hb).2) hna

theorem applyOps_unlinks (dir : List (Numbered crc32)) (ns : List Nat) :
    applyOps dir (ns.map .unlink) = dir.filter fun r => decide (r.1 ∉ ns) := by
  induction ns generalizing dir with
  | nil => exact (filter_eq_self.2 fun _ _ => rfl).symm
  | cons n ns ih =>
    have hstep : applyOps dir ((n :: ns).map .unlink) =
        applyOps (dir.filter fun r => r.1 ≠ n) (ns.map .unlink) := rfl
    rw [hstep, ih]
    simp [Bool.and_comm]

theorem Descending.eq_of_number (h : Descending dir) {a b} (ha : a ∈ dir)
    (hb : b ∈ dir) (hn : a.1 = b.1) : a = b := by
  have hs : KeySorted dir.reverse := pairwise_reverse.2 h
  exact hs.key_inj (mem_reverse.2 ha) (mem_reverse.2 hb) hn

/-- The unlinks of a contiguous part take out that part. -/
theorem filter_unlinked {above part below : List (Numbered crc32)}
    (h : Descending (above ++ (part ++ below))) :
    (above ++ (part ++ below)).filter (fun r => decide (r.1 ∉ (part.map fst).reverse)) =
      above ++ below := by
  obtain ⟨-, hrest, habove⟩ := pairwise_append.1 h
  obtain ⟨-, -, hpart⟩ := pairwise_append.1 hrest
  have hmem : ∀ r : Numbered crc32, r.1 ∈ (part.map fst).reverse ↔ ∃ q ∈ part, q.1 = r.1 := by
    intro r
    rw [mem_reverse, mem_map]
  rw [filter_append, filter_append]
  congr 1
  · refine filter_eq_self.2 fun r hr => decide_eq_true fun hin => ?_
    obtain ⟨q, hq, heq⟩ := (hmem r).1 hin
    exact absurd heq (ne_of_lt (habove r hr q (mem_append_left _ hq)))
  · have hnone : part.filter (fun r => decide (r.1 ∉ (part.map fst).reverse)) = [] :=
      filter_eq_nil_iff.2 fun r hr hout =>
        of_decide_eq_true hout ((hmem r).2 ⟨r, hr, rfl⟩)
    rw [hnone]
    refine filter_eq_self.2 fun r hr => decide_eq_true fun hin => ?_
    obtain ⟨q, hq, heq⟩ := (hmem r).1 hin
    exact absurd heq.symm (ne_of_lt (hpart q hq r hr))

/-- After a rename and some of the unlinks: the files above, what is left of the unlinked part, and
the files below. -/
theorem applyOps_commit {part : List (Numbered crc32)} {above below : List (Numbered crc32)}
    {n : Nat}
    {f : Sst crc32} (hdesc : Descending dir)
    (hren : DirOp.apply dir (.rename n f) = above ++ (part ++ below)) (j : Nat) :
    ∃ p, p <+: part ∧
      applyOps dir ((.rename n f :: ((part.map fst).reverse.map .unlink)).take (j + 1)) =
        above ++ (p ++ below) := by
  refine ⟨part.take (part.length - j), take_prefix _ _, ?_⟩
  have hd : Descending (above ++ (part ++ below)) := hren ▸ hdesc.rename n f
  have hcut : above ++ (part ++ below) = (above ++ part.take (part.length - j)) ++
      (part.drop (part.length - j) ++ below) := by
    rw [append_assoc, ← append_assoc (part.take _), take_append_drop]
  have hns : ((part.map fst).reverse.take j) = ((part.drop (part.length - j)).map fst).reverse := by
    rw [take_reverse, length_map, map_drop]
  have hops : applyOps dir ((.rename n f :: ((part.map fst).reverse.map .unlink)).take (j + 1)) =
      applyOps (above ++ (part ++ below)) (((part.map fst).reverse.take j).map .unlink) := by
    rw [take_succ_cons, ← map_take, ← hren]
    rfl
  rw [hcut] at hd hops
  rw [hops, hns, applyOps_unlinks, filter_unlinked hd, append_assoc]

end

/-- The plan of a compaction that started from the readers `snap`, with the files `flushed` added
since. A full compaction took its number before them. -/
inductive PlanFor (flushed snap : List (Numbered crc32)) : CompactPlan crc32 → Prop
  | full {n} : (∀ r ∈ snap, r.1 < n) → (∀ r ∈ flushed, n < r.1) →
      PlanFor flushed snap (fullPlan snap n)
  | part {mergeMin plan} : partialPlan snap mergeMin = some plan → PlanFor flushed snap plan

section

variable {flushed snap : List (Numbered crc32)} {output : Sst crc32}

theorem layersOf_append (a b : List (Numbered crc32)) :
    layersOf (a ++ b) = layersOf a ++ layersOf b := map_append

theorem layersOf_isPrefix {a b : List (Numbered crc32)} (h : a <+: b) : layersOf a <+: layersOf b :=
  h.map _

variable {n : Nat}

theorem filter_below_above {above below}
    (ha : ∀ r ∈ above, n < r.1) (hb : ∀ r ∈ below, r.1 < n) (f : Sst crc32) :
    DirOp.apply (above ++ below) (.rename n f) = above ++ (n, f) :: below := by
  have habove : above.filter (fun r => decide (n < r.1)) = above :=
    filter_eq_self.2 fun r hr => decide_eq_true (ha r hr)
  have hbelow : below.filter (fun r => decide (r.1 < n)) = below :=
    filter_eq_self.2 fun r hr => decide_eq_true (hb r hr)
  have hnone : below.filter (fun r => decide (n < r.1)) = [] :=
    filter_eq_nil_iff.2 fun r hr h => absurd (of_decide_eq_true h) (lt_asymm (hb r hr))
  have hnone' : above.filter (fun r => decide (r.1 < n)) = [] :=
    filter_eq_nil_iff.2 fun r hr h => absurd (of_decide_eq_true h) (lt_asymm (ha r hr))
  rw [DirOp.apply, filter_append, filter_append, habove, hbelow, hnone, hnone',
    append_nil, nil_append]

theorem layersOf_cons (r : Numbered crc32) (stack : List (Numbered crc32)) :
    layersOf (r :: stack) = r.2.entries :: layersOf stack := rfl

/-- A full compaction after its rename and `j` unlinks. -/
theorem fullPlan_commit (hsnap : ∀ r ∈ snap, r.1 < n) (hflush : ∀ r ∈ flushed, n < r.1)
    (hdesc : Descending (flushed ++ snap)) (output : Sst crc32) (j : Nat) :
    ∃ p, p <+: snap ∧ applyOps (flushed ++ snap) (((fullPlan snap n).ops output).take (j + 1)) =
        flushed ++ (n, output) :: p := by
  have hren : DirOp.apply (flushed ++ snap) (.rename n output) =
      (flushed ++ [(n, output)]) ++ (snap ++ []) := by
    rw [filter_below_above hflush hsnap, append_nil, append_assoc]
    rfl
  obtain ⟨p, hp, hdir⟩ := applyOps_commit hdesc hren j
  have hops : (fullPlan snap n).ops output =
      .rename n output :: ((snap.map fst).reverse.map .unlink) := rfl
  refine ⟨p, hp, ?_⟩
  rw [hops, hdir, append_nil, append_assoc]
  rfl

/-- A partial compaction after its rename and `j` unlinks. -/
theorem partialPlan_commit {mergeMin} (h : partialPlan snap mergeMin = some plan)
    (hdesc : Descending (flushed ++ snap)) (output : Sst crc32) (j : Nat) :
    ∃ above run oldest below p, snap = above ++ (run ++ oldest :: below) ∧
      plan.inputs = run ++ [oldest] ∧ (plan.dropTombstones = true ↔ below = []) ∧ p <+: run ∧
      applyOps (flushed ++ snap) ((plan.ops output).take (j + 1)) =
        (flushed ++ above) ++ (p ++ (oldest.1, output) :: below) := by
  obtain ⟨above, run, oldest, below, hsnap, hnum, hin, hun, -, hdrop⟩ := partialPlan_spec h
  have hassoc : flushed ++ snap = (flushed ++ (above ++ run)) ++ (oldest :: below) := by
    rw [hsnap, append_assoc, append_assoc]
  have hd := hdesc
  rw [hassoc] at hd
  obtain ⟨-, hold, hcross⟩ := pairwise_append.1 hd
  have hren : DirOp.apply (flushed ++ snap) (.rename oldest.1 output) =
      (flushed ++ above) ++ (run ++ ((oldest.1, output) :: below)) := by
    have hsame : DirOp.apply ((flushed ++ (above ++ run)) ++ (oldest :: below))
        (.rename oldest.1 output) = DirOp.apply ((flushed ++ (above ++ run)) ++ below)
        (.rename oldest.1 output) := by
      simp [DirOp.apply]
    rw [hassoc, hsame, filter_below_above (fun r hr => hcross r hr _ mem_cons_self)
      (pairwise_cons.1 hold).1]
    simp
  obtain ⟨p, hp, hdir⟩ := applyOps_commit hdesc hren j
  refine ⟨above, run, oldest, below, p, hsnap, hin, hdrop, hp, ?_⟩
  rw [CompactPlan.ops, hnum, hun, hdir]

variable {p : List (Numbered crc32)}

theorem lookup_partialPlan {run below : List (Numbered crc32)} {oldest : Numbered crc32}
    (hin : plan.inputs = run ++ [oldest]) (hdrop : plan.dropTombstones = true ↔ below = [])
    (hout : plan.merge = .ok output) (hp : p <+: run)
    (above : List (Numbered crc32)) (n : Nat) (k : CompositeKey) :
    lookup (above ++ (p ++ (n, output) :: below)) k =
      lookup (above ++ (run ++ oldest :: below)) k := by
  have hmerge := CompactPlan.merge_spec hout k
  have hp' : layersOf p <+: layersOf (run ++ [oldest]) :=
    layersOf_isPrefix (hp.trans (prefix_append _ _))
  have hrun : layersOf (run ++ oldest :: below) = layersOf (run ++ [oldest]) ++ layersOf below := by
    rw [← layersOf_append, append_assoc]
    rfl
  rw [hin] at hmerge
  rw [lookup, lookup, layersOf_append, layersOf_append, layersOf_append, layersOf_cons, hrun]
  cases hb : below with
  | nil =>
    rw [hdrop.2 hb] at hmerge
    have hnil : layersOf ([] : List (Numbered crc32)) = [] := rfl
    rw [hnil, append_nil]
    exact visible_splice hmerge hp' _
  | cons b bs =>
    have hkeep : plan.dropTombstones = false := by
      rw [← Bool.not_eq_true]
      intro ht
      rw [hdrop.1 ht] at hb
      cases hb
    have hm : valueAt output.entries k = layered (layersOf (run ++ [oldest])) k := by
      rw [hmerge, hkeep]
      cases layered (layersOf (run ++ [oldest])) k <;> rfl
    rw [visible, visible, layered_splice hm hp']

theorem commit_lookup (hplan : PlanFor flushed snap plan) (hout : plan.merge = .ok output)
    (hdesc : Descending (flushed ++ snap)) (j : Nat) (k : CompositeKey) :
    lookup (applyOps (flushed ++ snap) ((plan.ops output).take j)) k =
      lookup (flushed ++ snap) k := by
  cases j with
  | zero => rfl
  | succ j =>
    cases hplan with
    | full hsnap hflush =>
      obtain ⟨p, hp, hdir⟩ := fullPlan_commit hsnap hflush hdesc _ j
      have hm : valueAt output.entries k =
          (layered (layersOf snap) k).filter fun v => v.live.isSome := CompactPlan.merge_spec hout k
      rw [hdir, lookup, lookup, layersOf_append, layersOf_append]
      exact visible_above hm (layersOf_isPrefix hp) _
    | part hpart =>
      obtain ⟨above, run, oldest, below, p, hsnap, hin, hdrop, hp, hdir⟩ :=
        partialPlan_commit hpart hdesc _ j
      rw [hdir, hsnap, ← append_assoc flushed]
      exact lookup_partialPlan hin hdrop hout hp _ _ k

end

/-! ## Runs with crashes -/

/-- How far a compaction has come. It merges a snapshot of immutable files, so its output stands
from the start; the commit excludes flushes. -/
inductive Phase (crc32 : Bytes → Nat)
  | idle
  | merging (plan : CompactPlan crc32) (output : Sst crc32)
  | committing (plan : CompactPlan crc32) (pending : List (DirOp crc32))

/-- The SST side of the engine, with the value last flushed for each key as a history field. -/
structure SstState (crc32 : Bytes → Nat) where
  dir : List (Numbered crc32)
  readers : List (Numbered crc32)
  counter : Nat
  phase : Phase crc32
  flushed : CompositeKey → Option Bytes

/-- The `sst_counter` of an engine that opens the directory. -/
def nextNumber : Nat := dir.head?.elim 0 fst + 1

inductive SstStep : SstState crc32 → SstState crc32 → Prop
  /-- A memtable flush publishes a file under the next number and reloads the readers. -/
  | flush {s} (file : Sst crc32) : (∀ plan pending, s.phase ≠ .committing plan pending) →
      SstStep s { s with
        dir := DirOp.apply s.dir (.rename s.counter file)
        readers := loadSstReaders (DirOp.apply s.dir (.rename s.counter file)) s.readers
        counter := s.counter + 1
        flushed := fun k => (valueAt file.entries k).elim (s.flushed k) live }
  | beginFull {s minSstCount output} : s.phase = .idle →
      minSstCount ≤ s.readers.length → (fullPlan s.readers s.counter).merge = .ok output →
      SstStep s { s with
        counter := s.counter + 1, phase := .merging (fullPlan s.readers s.counter) output }
  | beginPartial {s mergeMin plan output} : s.phase =
      .idle → partialPlan s.readers mergeMin = some plan →
      plan.merge = .ok output → SstStep s { s with phase := .merging plan output }
  | commit {s plan output} : s.phase = .merging plan output →
      SstStep s { s with phase := .committing plan (plan.ops output) }
  | op {s plan op pending} : s.phase = .committing plan (op :: pending) →
      SstStep s { s with dir := DirOp.apply s.dir op, phase := .committing plan pending }
  | finish {s plan} : s.phase = .committing plan [] → SstStep s { s with
        readers := loadSstReaders s.dir (s.readers.filter fun r => r.1 ∉ plan.reopened)
        phase := .idle }
  /-- A crash at any point, and the next start of the engine. -/
  | crash {s} : SstStep s { s with readers := s.dir, counter := nextNumber s.dir, phase := .idle }

structure SstState.Opened (s : SstState crc32) : Prop where
  descending : Descending s.dir
  readers : s.readers = s.dir
  counter : s.counter = nextNumber s.dir
  idle : s.phase = .idle
  flushed : ∀ k, s.flushed k = lookup s.dir k

/-- Where a compaction stands: the readers it started from lie below the files flushed since, and
the directory is at some point of the commit. -/
def SstState.PhaseOk (s : SstState crc32) : Prop :=
  match s.phase with
  | .idle => s.readers = s.dir
  | .merging plan output => s.readers = s.dir ∧ plan.merge = .ok output ∧ plan.number < s.counter ∧
      ∃ flushed snap, s.dir = flushed ++ snap ∧ PlanFor flushed snap plan
  | .committing plan pending => ∃ flushed snap output j, s.readers = flushed ++ snap ∧
      Descending (flushed ++ snap) ∧ PlanFor flushed snap plan ∧ plan.merge = .ok output ∧
      plan.number < s.counter ∧ pending = (plan.ops output).drop j ∧
      s.dir = applyOps (flushed ++ snap) ((plan.ops output).take j)

structure SstState.Inv (s : SstState crc32) : Prop where
  descending : Descending s.dir
  bound : ∀ r ∈ s.dir, r.1 < s.counter
  look : ∀ k, lookup s.dir k = s.flushed k
  phase : s.PhaseOk

section

variable {dir : List (Numbered crc32)} {s t : SstState crc32}

theorem Descending.apply (h : Descending dir) (op : DirOp crc32) :
    Descending (DirOp.apply dir op) := by
  cases op with
  | rename n f => exact h.rename n f
  | unlink n => exact h.sublist filter_sublist

variable {r : Numbered crc32} {op : DirOp crc32}

theorem mem_apply (h : r ∈ DirOp.apply dir op) : op = .rename r.1 r.2 ∨ r ∈ dir := by
  cases op with
  | rename n f =>
    rcases mem_apply_rename h with rfl | h
    · exact .inl rfl
    · exact .inr h
  | unlink n => exact .inr (mem_filter.1 h).1

theorem mem_applyOps {ops} (h : r ∈ applyOps dir ops) : .rename r.1 r.2 ∈ ops ∨ r ∈ dir := by
  induction ops generalizing dir with
  | nil => exact .inr h
  | cons op ops ih =>
    rcases ih h with h | h
    · exact .inl (mem_cons_of_mem _ h)
    · rcases mem_apply h with rfl | h
      · exact .inl mem_cons_self
      · exact .inr h

theorem rename_mem_ops {output f : Sst crc32} {n : Nat}
    (h : .rename n f ∈ plan.ops output) : n = plan.number ∧ f = output := by
  rcases mem_cons.1 h with h | h
  · cases h
    exact ⟨rfl, rfl⟩
  · obtain ⟨m, -, hm⟩ := mem_map.1 h
    cases hm

/-- A reload that keeps only readers of the files that are there returns the directory. -/
theorem loadSstReaders_eq {unchanged}
    (h : ∀ r ∈ dir, ∀ u ∈ unchanged, u.1 = r.1 → u = r) : loadSstReaders dir unchanged = dir := by
  have hmap : ∀ r ∈ dir, (unchanged.find? fun u => u.1 = r.1).getD r = r := by
    intro r hr
    cases hf : unchanged.find? fun u => u.1 = r.1 with
    | none => rfl
    | some u =>
      exact h r hr u (mem_of_find?_eq_some hf) (of_decide_eq_true (find?_some hf :))
  rw [loadSstReaders, map_congr_left hmap, map_id']

theorem apply_rename_top {n} (h : ∀ r ∈ dir, r.1 < n) (f : Sst crc32) :
    DirOp.apply dir (.rename n f) = (n, f) :: dir := by
  have hnone : ∀ r ∈ ([] : List (Numbered crc32)), n < r.1 := nofun
  exact filter_below_above hnone h f

theorem lookup_cons (r : Numbered crc32) (dir : List (Numbered crc32)) (k : CompositeKey) :
    lookup (r :: dir) k = (valueAt r.2.entries k).elim (lookup dir k) live := by
  rw [lookup, visible, layersOf_cons, layered_cons]
  cases valueAt r.2.entries k <;> rfl

theorem lt_nextNumber (h : Descending dir) : ∀ r ∈ dir, r.1 < nextNumber dir := by
  intro r hr
  cases dir with
  | nil => cases hr
  | cons a dir =>
    rcases mem_cons.1 hr with rfl | hr
    · exact Nat.lt_succ_self _
    · exact Nat.lt_succ_of_lt ((pairwise_cons.1 h).1 r hr)

theorem partialPlan_number_mem {readers mergeMin} (h : partialPlan readers mergeMin = some plan) :
    ∃ r ∈ readers, r.1 = plan.number := by
  obtain ⟨above, run, oldest, below, hr, hnum, -⟩ := partialPlan_spec h
  refine ⟨oldest, ?_, hnum.symm⟩
  rw [hr]
  exact mem_append_right _ (mem_append_right _ mem_cons_self)

/-- A reader kept by the last reload of a compaction does not have the number of its output. -/
theorem PlanFor.number_reopened {flushed snap} (h : PlanFor flushed snap plan) :
    ∀ u ∈ flushed ++ snap, u.1 = plan.number → u.1 ∈ plan.reopened := by
  intro u hu hn
  cases h with
  | full hsnap hflush =>
    rcases mem_append.1 hu with hu | hu
    · exact absurd hn.symm (ne_of_lt (hflush u hu))
    · exact absurd hn (ne_of_lt (hsnap u hu))
  | part hpart =>
    obtain ⟨-, run, -, -, -, -, -, -, hopen, -⟩ := partialPlan_spec hpart
    rw [hn, hopen]
    exact mem_cons_self

theorem PlanFor.flush {flushed snap} (h : PlanFor flushed snap plan) (hr : plan.number < r.1) :
    PlanFor (r :: flushed) snap plan := by
  cases h with
  | full hsnap hflush =>
    exact .full hsnap (forall_mem_cons.2 ⟨hr, hflush⟩)
  | part hpart => exact .part hpart

theorem opened_inv (h : s.Opened) : s.Inv := by
  refine ⟨h.descending, fun r hr => ?_, fun k => (h.flushed k).symm, ?_⟩
  · rw [h.counter]
    exact lt_nextNumber h.descending r hr
  · rw [SstState.PhaseOk, h.idle]
    exact h.readers

variable (h : s.Inv)

include h

theorem flush_inv (file : Sst crc32)
    (hph : ∀ plan pending, s.phase ≠ .committing plan pending) :
    SstState.Inv { s with
      dir := DirOp.apply s.dir (.rename s.counter file)
      readers := loadSstReaders (DirOp.apply s.dir (.rename s.counter file)) s.readers
      counter := s.counter + 1
      flushed := fun k => (valueAt file.entries k).elim (s.flushed k) live } := by
  have htop := apply_rename_top h.bound file
  have hdesc := h.descending.rename s.counter file
  have hreads : s.readers = s.dir → loadSstReaders (DirOp.apply s.dir (.rename s.counter file))
      s.readers = DirOp.apply s.dir (.rename s.counter file) := by
    intro hr
    refine loadSstReaders_eq fun r hr' u hu hn => ?_
    rw [hr] at hu
    refine hdesc.eq_of_number ?_ hr' hn
    rw [htop]
    exact mem_cons_of_mem _ hu
  refine ⟨hdesc, fun r hr => ?_, fun k => ?_, ?_⟩
  · rcases mem_apply_rename hr with rfl | hr
    · exact Nat.lt_succ_self _
    · exact Nat.lt_succ_of_lt (h.bound r hr)
  · show lookup (DirOp.apply s.dir (.rename s.counter file)) k = _
    rw [htop, lookup_cons, h.look]
  · have hphase := h.phase
    unfold SstState.PhaseOk at hphase ⊢
    cases hp : s.phase with
    | idle =>
      rw [hp] at hphase
      exact hreads hphase
    | merging plan output =>
      rw [hp] at hphase
      obtain ⟨hr, hout, hnum, flushed, snap, hdir, hplan⟩ := hphase
      refine ⟨hreads hr, hout, Nat.lt_succ_of_lt hnum, (s.counter, file) :: flushed, snap, ?_,
        hplan.flush hnum⟩
      rw [htop, hdir]
      rfl
    | committing plan pending => exact absurd hp (hph plan _)

theorem op_inv {pending} (hp : s.phase = .committing plan (op :: pending)) :
    SstState.Inv { s with dir := DirOp.apply s.dir op, phase := .committing plan pending } := by
  have hphase := h.phase
  rw [SstState.PhaseOk, hp] at hphase
  obtain ⟨flushed, snap, output, j, hr, hdesc, hplan, hout, hnum, hpend, hdir⟩ := hphase
  have hget : (plan.ops output)[j]? = some op := by
    rw [← head?_drop, ← hpend]
    rfl
  have hop : op ∈ plan.ops output := mem_of_getElem? hget
  have hnext : DirOp.apply s.dir op =
      applyOps (flushed ++ snap) ((plan.ops output).take (j + 1)) := by
    rw [take_add_one, hget, hdir, applyOps, applyOps, foldl_append]
    rfl
  refine ⟨h.descending.apply op, fun r hr => ?_, fun k => ?_, ?_⟩
  · rcases mem_apply hr with rfl | hr
    · rw [(rename_mem_ops hop).1]
      exact hnum
    · exact h.bound r hr
  · show lookup (DirOp.apply s.dir op) k = s.flushed k
    rw [hnext, commit_lookup hplan hout hdesc, ← h.look, hdir, commit_lookup hplan hout hdesc]
  · refine ⟨flushed, snap, output, j + 1, hr, hdesc, hplan, hout, hnum, ?_, hnext⟩
    rw [← tail_drop, ← hpend]
    rfl

theorem finish_inv (hp : s.phase = .committing plan []) : SstState.Inv { s with
      readers := loadSstReaders s.dir (s.readers.filter fun r => r.1 ∉ plan.reopened)
      phase := .idle } := by
  have hphase := h.phase
  rw [SstState.PhaseOk, hp] at hphase
  obtain ⟨flushed, snap, output, j, hr, hdesc, hplan, -, -, -, hdir⟩ := hphase
  refine { h with phase := ?_ }
  refine loadSstReaders_eq fun r hmem u hu hn => ?_
  obtain ⟨hu, hkept⟩ := mem_filter.1 hu
  rw [hr] at hu
  rw [hdir] at hmem
  rcases mem_applyOps hmem with hren | hmem
  · obtain ⟨hnum, -⟩ := rename_mem_ops (mem_of_mem_take hren)
    exact absurd (hplan.number_reopened u hu (hn.trans hnum)) (of_decide_eq_true hkept)
  · exact hdesc.eq_of_number hu hmem hn

theorem step_inv (hst : SstStep s t) : t.Inv := by
  have hphase := h.phase
  cases hst with
  | flush file hph => exact flush_inv h file hph
  | @beginFull minSstCount output hidle _ hout =>
    rw [SstState.PhaseOk, hidle] at hphase
    refine ⟨h.descending, fun r hr => Nat.lt_succ_of_lt (h.bound r hr), h.look, hphase, hout,
      Nat.lt_succ_self _, [], s.dir, rfl, ?_⟩
    rw [hphase]
    exact .full h.bound nofun
  | beginPartial hidle hplan hout =>
    rw [SstState.PhaseOk, hidle] at hphase
    obtain ⟨r, hr, hn⟩ := partialPlan_number_mem hplan
    rw [hphase] at hr hplan
    exact ⟨h.descending, h.bound, h.look, hphase, hout, hn ▸ h.bound r hr, [], s.dir, rfl,
      .part hplan⟩
  | @commit plan output hm =>
    rw [SstState.PhaseOk, hm] at hphase
    obtain ⟨hr, hout, hnum, flushed, snap, hdir, hplan⟩ := hphase
    exact ⟨h.descending, h.bound, h.look, flushed, snap, output, 0, hr.trans hdir,
      hdir ▸ h.descending, hplan, hout, hnum, rfl, hdir⟩
  | op hp => exact op_inv h hp
  | finish hp => exact finish_inv h hp
  | crash => exact ⟨h.descending, lt_nextNumber h.descending, h.look, rfl⟩

end

/-- Over every run of flushes, compactions and crashes, opening the directory and reading newest
number first gives each key the value last flushed for it, or none if that was a deletion. -/
theorem compaction_crash_safe {s : SstState crc32} (h : Reachable SstState.Opened SstStep s)
    (realmId : RealmId) (key : Bytes) : sstGet s.dir realmId key = s.flushed ⟨realmId, key⟩ := by
  have hinv : s.Inv := h.invariant (fun _ => opened_inv) fun _ _ _ hi hst => step_inv hi hst
  rw [sstGet_eq, hinv.look]

/-- A key that was written, deleted and flushed twice, for runs on concrete files. -/
def deletedKeyDir : List (Numbered fun _ => 0) :=
  let k : CompositeKey := ⟨.nil, [7]⟩
  [(2, .ofV1 _ [(k, .tombstone)] (pairwise_singleton _ _)),
    (1, .ofV1 _ [(k, .data [1])] (pairwise_singleton _ _))]

/-- A crash between the unlinks of a full compaction, with the tombstone still to be unlinked. -/
theorem compaction_crash_safe_midway : ∃ s : SstState fun _ => 0,
    Reachable SstState.Opened SstStep s ∧ s.dir.map Prod.fst = [3, 2] ∧
    sstGet s.dir ⟨replicate 16 0, rfl⟩ [7] = none := by
  have hok : (fullPlan deletedKeyDir 3).merge.isOk = true := by decide +kernel
  obtain ⟨output, hout⟩ := exists_ok_of_isOk hok
  have h0 : Reachable SstState.Opened SstStep (.mk deletedKeyDir deletedKeyDir 3 .idle
      (lookup deletedKeyDir)) :=
    .start ⟨by unfold deletedKeyDir; simp [Descending], rfl, rfl, rfl, fun _ => rfl⟩
  have h1 := h0.next (.beginFull rfl (Nat.zero_le _) hout)
  have h2 := h1.next (.commit rfl)
  have h3 := h2.next (.op rfl)
  have h4 := h3.next (.op rfl)
  refine ⟨_, h4.next .crash, rfl, ?_⟩
  have hvalue : lookup deletedKeyDir ⟨.nil, [7]⟩ = none := by decide +kernel
  exact (compaction_crash_safe (h4.next .crash) _ _).trans hvalue

/-! ## The merged file -/

/-- The merge of sorted inputs, newest first, yields the keys of all of them in ascending order, each
once and with the entry of the newest input that holds it. A compaction of the files `readers`
whose run has these inputs writes these entries, without the deletions exactly if no file lies
below the run. -/
theorem compaction_newest_wins {inputs : List (List Entry)} (hs : ∀ l ∈ inputs, KeySorted l) :
    ∃ merged, kMerge inputs.reverse = .ok merged ∧ merged.Pairwise (fun a b => a.1 < b.1) ∧
      (∀ k v, (k, v) ∈ merged ↔ ∃ newer l older, inputs = newer ++ l :: older ∧ (k, v) ∈ l ∧
        ∀ l' ∈ newer, ∀ e ∈ l', k ≠ e.1) ∧
      ∀ (readers : List (Numbered crc32)) n mergeMin plan output,
        plan = fullPlan readers n ∨ partialPlan readers mergeMin = some plan →
        layersOf plan.inputs = inputs → plan.merge = .ok output →
        ∃ above below, readers = above ++ (plan.inputs ++ below) ∧
          output.entries = if below = [] then merged.filter (·.2.live.isSome) else merged := by
  obtain ⟨merged, hok, hsort, hval⟩ := kMerge_eq fun l hl => hs l (mem_reverse.1 hl)
  refine ⟨merged, hok, hsort, fun k v => ?_, fun readers n mergeMin plan output hplan hin hout =>
    ?_⟩
  · rw [← hsort.valueAt_eq_some, hval, reverse_reverse, layered, findSome?_eq_some_iff]
    constructor
    · rintro ⟨newer, l, older, rfl, hv, hnewer⟩
      exact ⟨newer, l, older, rfl, mem_of_valueAt hv, fun l' hl' =>
        valueAt_eq_none.1 (hnewer l' hl')⟩
    · rintro ⟨newer, l, older, rfl, hmem, hnewer⟩
      have hl : KeySorted l := hs l (mem_append_right _ mem_cons_self)
      exact ⟨newer, l, older, rfl, hl.valueAt_eq_some.2 hmem,
        fun l' hl' => valueAt_eq_none.2 (hnewer l' hl')⟩
  · have hrun : ∃ above below, readers = above ++ (plan.inputs ++ below) ∧
        (plan.dropTombstones = true ↔ below = []) := by
      rcases hplan with rfl | hpart
      · exact ⟨[], [], (append_nil _).symm, iff_of_true rfl rfl⟩
      · obtain ⟨above, run, oldest, below, hr, -, hin, -, -, hdrop⟩ := partialPlan_spec hpart
        exact ⟨above, below, by rw [hin, hr, append_assoc]; rfl, hdrop⟩
    obtain ⟨above, below, hr, hdrop⟩ := hrun
    obtain ⟨merged', hok', -, -, hents⟩ := CompactPlan.merge_entries hout
    rw [hin, hok] at hok'
    cases hok'
    refine ⟨above, below, hr, ?_⟩
    rw [hents, keepEntries]
    split
    · next hbelow => simp [hdrop.2 hbelow]
    · next hbelow => simp [mt hdrop.1 hbelow]

/-- A deletion and the value under it, merged down to the oldest file: nothing is left. -/
theorem compaction_newest_wins_deleted : ∃ merged output,
    kMerge (layersOf deletedKeyDir).reverse = .ok merged ∧
    (fullPlan deletedKeyDir 3).merge = .ok output ∧
    ∃ above below, deletedKeyDir = above ++ (deletedKeyDir ++ below) ∧
      output.entries = if below = [] then merged.filter (·.2.live.isSome) else merged := by
  have hok : (fullPlan deletedKeyDir 3).merge.isOk = true := by decide +kernel
  obtain ⟨output, hout⟩ := exists_ok_of_isOk hok
  have hs : ∀ l ∈ layersOf deletedKeyDir, KeySorted l := by
    intro l hl
    obtain ⟨r, -, rfl⟩ := mem_map.1 hl
    exact r.2.sorted
  obtain ⟨merged, hmerge, -, -, hwrites⟩ := compaction_newest_wins hs
  exact ⟨merged, output, hmerge, hout, hwrites _ 3 2 _ _ (.inl rfl) rfl hout⟩

/-! ## The choice of the run -/

/-- The sizes of the files as the selection reads them. -/
def tierSizes : List Nat := readers.map fun r => max r.2.entryCount 1

/-- Similar sizes, enough of them to merge. -/
def LongRun (mergeMin : Nat) (run : List Nat) : Prop := mergeMin ≤ run.length ∧ SimilarSizes run

/-- A run that the selection returns is a window of enough files of similar size, and it returns none
only if there is no such window, exactly when with any such window there is one that starts at a
tier boundary. -/
theorem selectPartialRun_finds_iff (readers : List (Numbered crc32)) {mergeMin : Nat}
    (hmin : 2 ≤ mergeMin) :
    ((∀ start stop, selectPartialRun readers mergeMin = some (start, stop) →
        start ≤ stop ∧ stop < readers.length ∧
          LongRun mergeMin (((tierSizes readers).take (stop + 1)).drop start)) ∧
      (selectPartialRun readers mergeMin = none →
        ∀ run, run <:+: tierSizes readers → ¬ LongRun mergeMin run)) ↔
    ((∃ run, run <:+: tierSizes readers ∧ LongRun mergeMin run) →
      ∃ tail run, TierStart (tierSizes readers) tail ∧ run <+: tail ∧ LongRun mergeMin run) := by
  constructor
  · rintro ⟨-, hnone⟩ ⟨run, hrun, hlong⟩
    cases hsel : selectPartialRun readers mergeMin with
    | none => exact absurd hlong (hnone hsel run hrun)
    | some range =>
      obtain ⟨above, run, below, -, -, -, -, hlen, hsim, htier⟩ := selectLoop_some hsel
      exact ⟨_, run, htier, prefix_append _ _, hlen, hsim⟩
  · intro hcond
    refine ⟨fun start stop hsel => ?_, fun hsel run hrun hlong => ?_⟩
    · obtain ⟨above, run, below, hsizes, hstart, hstop, -, hlen, hsim, -⟩ := selectLoop_some hsel
      have htotal := congrArg length hsizes
      simp only [length_map, length_append] at htotal
      have hwin : ((tierSizes readers).take (stop + 1)).drop start = run := by
        have hcut : stop + 1 = (above ++ run).length := by
          rw [length_append]
          omega
        have habove : start = above.length := by omega
        rw [tierSizes, hsizes, ← append_assoc, hcut, take_left, habove, drop_left]
      rw [hwin]
      exact ⟨by omega, by omega, hlen, hsim⟩
    · obtain ⟨tail, run, htier, hpre, hlen, hsim⟩ := hcond ⟨run, hrun, hlong⟩
      have hf : (tierSizes readers).length ≤ readers.length := (length_map _).le
      exact absurd (selectLoop_none (Nat.zero_lt_of_lt hmin) hf hsel htier hpre hsim)
        (not_lt.2 hlen)

/-- Two files of one tier are found. -/
theorem selectPartialRun_finds_pair : selectPartialRun deletedKeyDir 2 ≠ none := by
  intro hsel
  have hlong : LongRun 2 [1, 1] := ⟨le_rfl, by simp [SimilarSizes]⟩
  exact ((selectPartialRun_finds_iff deletedKeyDir le_rfl).2 fun _ =>
    ⟨_, _, .here, ⟨[], rfl⟩, hlong⟩).2
    hsel [1, 1] ⟨[], [], rfl⟩ hlong

/-- Files with 1, 2, 4 and 4 entries, newest first. -/
def straddlingDir : List (Numbered fun _ => 0) :=
  let entries (keys : List UInt8) : List Entry :=
    keys.map fun b => (⟨.nil, [b]⟩, .tombstone)
  have h4 : KeySorted (entries [0, 1, 2, 3]) := by unfold KeySorted; decide +kernel
  [(4, .ofV1 _ (entries [0]) (h4.sublist (by simp [entries]))),
    (3, .ofV1 _ (entries [0, 1]) (h4.sublist (by simp [entries]))),
    (2, .ofV1 _ (entries [0, 1, 2, 3]) h4), (1, .ofV1 _ (entries [0, 1, 2, 3]) h4)]

/-- The three oldest files are of similar size, but the first of them went to the tier of the
newest one. -/
theorem selectPartialRun_misses : selectPartialRun straddlingDir 3 = none ∧
    ∃ run, run <:+: tierSizes straddlingDir ∧ LongRun 3 run :=
  ⟨by decide +kernel, [2, 4, 4], ⟨[1], [], by decide +kernel⟩, le_rfl, by simp [SimilarSizes]⟩

end Hearth.Storage
