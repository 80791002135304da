import Hearth.Base.Merge
import Hearth.Storage.Memtable

/-!
# The streaming merge of key cursors

`visit_merged_entries` walks cursors over sorted sources, newest first, holding
one position per source. `visit_merged_entries_newest`: it calls the visitor with
the live entries of the merge of the sources, in order, until the visitor breaks.

The walk of a memtable map is one such cursor.
-/

namespace Hearth.Storage

open Base Memtable
open List hiding merge

/-- A position in one sorted key source, restricted to one realm's window. A read of the next block
does not fail here. -/
class KeyCursor (σ : Type) where
  /-- The key at this position and whether it is live. -/
  current : σ → Option (Bytes × Bool)
  /-- The value at this position, if it is live. -/
  value : σ → Option Bytes
  advance : σ → σ

/-- A cursor walks a sorted list of entries. -/
class LawfulKeyCursor (σ : Type) [KeyCursor σ] where
  remaining : σ → List (Bytes × MemtableValue)
  sorted : ∀ c, KeySorted (remaining c)
  current_eq : ∀ c, KeyCursor.current c = (remaining c).head?.map fun e => (e.1, e.2.live.isSome)
  value_eq : ∀ c, KeyCursor.value c = (remaining c).head?.bind fun e => e.2.live
  remaining_advance : ∀ c, remaining (KeyCursor.advance c) = (remaining c).tail

/-! ## The loop -/

section

variable {σ S : Type} [KeyCursor σ]

open KeyCursor

/-- The `for` loop that looks for the newest source holding the smallest key. -/
def winnerLoop (cursors : List σ) : List σ → Nat → Option Nat → Option Nat
  | [], _, winner => winner
  | cursor :: rest, i, winner =>
    match current cursor with
    | none => winnerLoop cursors rest (i + 1) winner
    | some (key, _) =>
      let smaller : Bool := match winner with
        | none => true
        | some w => (cursors[w]?.bind current).any fun best => key < best.1
      winnerLoop cursors rest (i + 1) (if smaller then some i else winner)

/-- `visit_merged_entries`. The visitor has a state, and breaks with `done`; the result is `none`
only if the fuel runs out. -/
def visitMergedEntries (visit : S → Bytes → Bytes → ForInStep S) : Nat → List σ → S → Option S
  | 0, _, _ => none
  | fuel + 1, cursors, s =>
    match winnerLoop cursors cursors 0 none with
    | none => some s
    | some w =>
      match cursors.drop w with
      | [] => some s
      | newest :: older =>
        match current newest with
        | none => some s
        | some (key, alive) =>
          let older' := older.map fun c => if (current c).any (·.1 = key) then advance c else c
          let visited := if alive then
              match value newest with
              | some v => visit s key v
              | none => .yield s
            else .yield s
          match visited with
          | .done s => some s
          | .yield s =>
            visitMergedEntries visit fuel (cursors.take w ++ advance newest :: older') s

/-- `visit_merged`: the visitor ignores the value. -/
def visitMerged (visit : S → Bytes → ForInStep S) : Nat → List σ → S → Option S :=
  visitMergedEntries fun s key _ => visit s key

/-! ## What the loop visits -/

/-- The visitor called with the entries of a list until it breaks. -/
def visitList (visit : S → Bytes → Bytes → ForInStep S) : List (Bytes × Bytes) → S → S
  | [], s => s
  | e :: l, s =>
    match visit s e.1 e.2 with
    | .done s => s
    | .yield s => visitList visit l s

def liveEntries {K : Type} (l : List (K × MemtableValue)) : List (K × Bytes) :=
  l.filterMap fun e => e.2.live.map fun v => (e.1, v)

/-- The winner among the cursors already seen: strictly before those in front of it, not behind
those after it. -/
def IsWinner (seen : List σ) : Option Nat → Prop
  | none => ∀ c ∈ seen, current c = none
  | some w => ∃ newer newest older, seen = newer ++ newest :: older ∧ newer.length = w ∧
      ∃ e, current newest = some e ∧ (∀ c ∈ newer, ∀ a ∈ current c, e.1 < a.1) ∧
        ∀ c ∈ older, ∀ a ∈ current c, e.1 ≤ a.1

theorem winnerLoop_isWinner {cursors rest} (seen : List σ) {winner}
    (hsplit : cursors = seen ++ rest) (h : IsWinner seen winner) :
    IsWinner cursors (winnerLoop cursors rest seen.length winner) := by
  induction rest generalizing seen winner with
  | nil =>
    rw [append_nil] at hsplit
    rw [hsplit]
    exact h
  | cons c rest ih =>
    have hsplit' : cursors = (seen ++ [c]) ++ rest := by rw [hsplit, append_assoc]; rfl
    have hlen : (seen ++ [c]).length = seen.length + 1 := by rw [length_append]; rfl
    rw [winnerLoop]
    cases hc : current c with
    | none =>
      rw [← hlen]
      refine ih _ hsplit' ?_
      cases winner with
      | none =>
        exact forall_mem_concat h hc
      | some w =>
        obtain ⟨newer, newest, older, hseen, hw, e, he, hnew, hold⟩ := h
        refine ⟨newer, newest, older ++ [c], by rw [hseen, append_assoc]; rfl, hw, e, he, hnew,
          forall_mem_concat hold ?_⟩
        rw [hc]
        exact nofun
    | some a =>
      rw [← hlen]
      refine ih _ hsplit' ?_
      cases winner with
      | none =>
        refine ⟨seen, c, [], rfl, rfl, a, hc, fun c' hc' a' ha' => ?_, nofun⟩
        rw [h c' hc'] at ha'
        cases ha'
      | some w =>
        obtain ⟨newer, newest, older, hseen, hw, e, he, hnew, hold⟩ := h
        have hget : cursors[w]?.bind current = some e := by
          rw [hsplit, hseen, append_assoc, ← hw, getElem?_append_right (le_rfl),
            Nat.sub_self, cons_append, getElem?_cons_zero, Option.bind_some, he]
        simp only [hget, Option.any_some, decide_eq_true_eq]
        split
        · next hlt =>
          refine ⟨seen, c, [], rfl, rfl, a, hc, fun c' hc' a' ha' => ?_, nofun⟩
          rw [hseen] at hc'
          rcases mem_append.1 hc' with hc' | hc'
          · exact lt_trans hlt (hnew c' hc' a' ha')
          · rcases mem_cons.1 hc' with rfl | hc'
            · rw [he] at ha'
              cases ha'
              exact hlt
            · exact lt_of_lt_of_le hlt (hold c' hc' a' ha')
        · next hge =>
          refine ⟨newer, newest, older ++ [c], by rw [hseen, append_assoc]; rfl, hw, e, he, hnew,
            forall_mem_concat hold ?_⟩
          rw [hc]
          rintro _ ⟨⟩
          exact not_lt.1 hge

open LawfulKeyCursor

variable [LawfulKeyCursor σ] {c : σ} {key : Bytes} {alive : Bool}

theorem current_some (h : current c = some (key, alive)) :
    ∃ v, alive = v.live.isSome ∧ value c = v.live ∧
      remaining c = (key, v) :: remaining (advance c) := by
  rw [current_eq] at h
  rw [value_eq, remaining_advance]
  cases hr : remaining c with
  | nil =>
    rw [hr] at h
    cases h
  | cons e rest =>
    rw [hr] at h
    cases h
    exact ⟨e.2, rfl, rfl, rfl⟩

theorem current_head {a} (h : a ∈ (remaining c).head?) : (a.1, a.2.live.isSome) ∈ current c := by
  rw [current_eq, Option.mem_def.1 h]
  rfl

theorem remaining_skip (c : σ) (key) :
    remaining (if (current c).any (·.1 = key) then advance c else c) = dropHead key (remaining c) := by
  rw [current_eq]
  split
  · next h =>
    rw [remaining_advance]
    cases hr : remaining c with
    | nil => rfl
    | cons e rest =>
      rw [hr] at h
      exact (if_pos (by simpa using h)).symm
  · next h =>
    cases hr : remaining c with
    | nil => rfl
    | cons e rest =>
      rw [hr] at h
      exact (if_neg (by simpa using h)).symm

/-- The walk visits the live entries of the merge, newest source first, until the visitor breaks. -/
theorem visitMergedEntries_eq (visit : S → Bytes → Bytes → ForInStep S) {fuel : Nat}
    {cursors : List σ} (hf : totalLength (cursors.map remaining) < fuel) (s : S) :
    visitMergedEntries visit fuel cursors s =
      some (visitList visit (liveEntries (merge fuel (cursors.map remaining))) s) := by
  induction fuel generalizing cursors s with
  | zero => cases hf
  | succ fuel ih =>
    have hwin : IsWinner cursors (winnerLoop cursors cursors 0 none) :=
      winnerLoop_isWinner [] rfl nofun
    rw [visitMergedEntries, merge]
    cases hw : winnerLoop cursors cursors 0 none with
    | none =>
      rw [hw] at hwin
      have hnil : ∀ l ∈ cursors.map remaining, l = [] := by
        intro l hl
        obtain ⟨c, hc, rfl⟩ := mem_map.1 hl
        have hcur := hwin c hc
        rw [current_eq, Option.map_eq_none_iff, head?_eq_none_iff] at hcur
        exact hcur
      rw [mergeStep_eq_none hnil]
      rfl
    | some w =>
      rw [hw] at hwin
      obtain ⟨newer, newest, older, hsplit, hlen, ⟨key, alive⟩, he, hnew, hold⟩ := hwin
      obtain ⟨v, halive, hvalue, hrem⟩ := current_some he
      have hdrop : cursors.drop w = newest :: older := by rw [hsplit, ← hlen, drop_left]
      have htake : cursors.take w = newer := by rw [hsplit, ← hlen, take_left]
      have hstep : mergeStep (cursors.map remaining) = some ((key, v),
          (newer ++ advance newest :: older.map fun c =>
            if (current c).any (·.1 = key) then advance c else c).map remaining) := by
        rw [hsplit, map_append, map_cons, hrem, mergeStep_eq]
        · simp [remaining_skip]
        · intro l hl a ha
          obtain ⟨c, hc, rfl⟩ := mem_map.1 hl
          exact hnew c hc _ (current_head ha)
        · intro l hl a ha
          obtain ⟨c, hc, rfl⟩ := mem_map.1 hl
          exact hold c hc _ (current_head ha)
      have hsort : ∀ l ∈ cursors.map remaining, KeySorted l := by
        intro l hl
        obtain ⟨c, -, rfl⟩ := mem_map.1 hl
        exact sorted c
      have hlt := mergeStep_lt hsort hstep
      simp only [hdrop, htake, he, hstep, hvalue, halive]
      have ih := ih (lt_of_lt_of_le hlt (Nat.lt_succ_iff.1 hf))
      cases v with
      | tombstone => exact ih s
      | data v =>
        show _ = some (visitList visit ((key, v) :: liveEntries _) s)
        rw [visitList]
        simp only [MemtableValue.live]
        cases visit s key v with
        | done s' => rfl
        | yield s' => exact ih s'

/-- The walk against the reference merge: each key with the newest source's value, if that is
live, in ascending order, and nothing once the visitor has broken. -/
theorem visit_merged_entries_newest (cursors : List σ) : ∃ entries : List (Bytes × Bytes),
    KeySorted entries ∧
    (∀ k v, (k, v) ∈ entries ↔ ∃ e, layered (cursors.map remaining) k = some e ∧ e.live = some v) ∧
    ∀ {S : Type} (visit : S → Bytes → Bytes → ForInStep S) (s : S) (fuel : Nat),
      totalLength (cursors.map remaining) < fuel →
      visitMergedEntries visit fuel cursors s = some (visitList visit entries s) := by
  have hsort : ∀ l ∈ cursors.map remaining, KeySorted l := forall_mem_map.2 fun c _ => sorted c
  obtain ⟨hmerge, hvalue⟩ := merge_spec hsort le_rfl
  refine ⟨liveEntries (merge _ (cursors.map remaining)), hmerge.filterMap _ ?_, fun k v => ?_,
    fun visit s fuel hf => ?_⟩
  · intro a b hlt x hx y hy
    obtain ⟨_, -, rfl⟩ := Option.map_eq_some_iff.1 hx
    obtain ⟨_, -, rfl⟩ := Option.map_eq_some_iff.1 hy
    exact hlt
  · simp only [← hvalue, hmerge.valueAt_eq_some, liveEntries, mem_filterMap, Option.map_eq_some_iff]
    constructor
    · rintro ⟨⟨k, e⟩, he, v, hv, ⟨⟩⟩
      exact ⟨e, he, hv⟩
    · rintro ⟨e, he, hv⟩
      exact ⟨(k, e), he, v, hv, rfl⟩
  · obtain ⟨hmerge', hvalue'⟩ := merge_spec hsort hf.le
    rw [visitMergedEntries_eq visit hf s,
      hmerge'.ext_valueAt hmerge fun k => (hvalue' k).trans (hvalue k).symm]

end

/-! ## The walk of a memtable map -/

/-- The walk ends at the first entry at or past `stop`. -/
def clip (stop : CompositeKey) (l : List Entry) : List Entry :=
  if l.head?.any fun e => e.1 < stop then l else []

/-- The entry at the cursor with those `Entry::next` leads to; none once the walk reaches the
end. -/
structure MemtableKeyCursor where
  entries : List Entry
  stop : CompositeKey
  sorted : KeySorted entries
  inside : ∀ e ∈ entries.head?, e.1 < stop
  realm : ∀ e ∈ entries, ⟨stop.realmId, []⟩ ≤ e.1

section

variable {stop : CompositeKey} {l : List Entry}

theorem clip_sublist : (clip stop l).Sublist l := by
  rw [clip]
  split
  · exact .refl _
  · exact nil_sublist _

theorem clip_inside : ∀ e ∈ (clip stop l).head?, e.1 < stop := by
  intro e he
  rw [clip] at he
  split at he
  · next h =>
    rw [Option.mem_def.1 he] at h
    simpa using h
  · cases he

theorem window_clip (stop) (h : KeySorted l) (start) :
    window stop.realmId start stop.key (clip stop l) = window stop.realmId start stop.key l := by
  rw [clip]
  split
  · rfl
  · next hstop =>
    have hnone : l.filter (fun e => inWindow stop.realmId start stop.key e.1) = [] := by
      refine filter_eq_nil_iff.2 fun e he hin => hstop ?_
      cases l with
      | nil => cases he
      | cons a l =>
        have hlt := (inWindow_iff.1 hin).2
        rcases mem_cons.1 he with rfl | he
        · exact decide_eq_true hlt
        · exact decide_eq_true (lt_trans ((keySorted_cons.1 h).1 e he) hlt)
    rw [window, window, hnone]
    rfl

end

theorem realm_le (realmId) {a b} (h : a ≤ b) : (⟨realmId, a⟩ : CompositeKey) ≤ ⟨realmId, b⟩ := by
  rw [← not_lt, CompositeKey.lt_iff]
  rintro (hlt | ⟨-, hlt⟩)
  · exact lt_irrefl _ hlt
  · exact absurd hlt (not_lt.2 h)

theorem realm_start_le (realmId start) : (⟨realmId, []⟩ : CompositeKey) ≤ ⟨realmId, start⟩ :=
  realm_le _ (not_lt.1 (not_lt_nil _))

namespace MemtableKeyCursor

/-- A cursor at the first key at or after `start`. -/
def new (map : MemtableMap) (realmId : RealmId) (start stop : Bytes) : MemtableKeyCursor where
  entries := clip ⟨realmId, stop⟩ (entriesFrom map ⟨realmId, start⟩)
  stop := ⟨realmId, stop⟩
  sorted := (keySorted_toList map).sublist (clip_sublist.trans (dropWhile_sublist _))
  inside := clip_inside
  realm e he := by
    have hge : ∀ e ∈ entriesFrom map ⟨realmId, start⟩, ⟨realmId, start⟩ ≤ e.1 := by
      rw [entriesFrom_eq]
      intro e he
      simpa using (mem_filter.1 he).2
    exact le_trans (realm_start_le realmId start) (hge e (clip_sublist.subset he))

def advance (c : MemtableKeyCursor) : MemtableKeyCursor where
  entries := clip c.stop c.entries.tail
  stop := c.stop
  sorted := c.sorted.sublist (clip_sublist.trans (tail_sublist _))
  inside := clip_inside
  realm e he := c.realm e ((clip_sublist.trans (tail_sublist _)).subset he)

instance : KeyCursor MemtableKeyCursor where
  current c := c.entries.head?.map fun e => (e.1.key, e.2.live.isSome)
  value c := c.entries.head?.bind fun e => e.2.live
  advance := advance

/-- What the cursor has yet to yield. -/
def remaining (c : MemtableKeyCursor) : List (Bytes × MemtableValue) :=
  window c.stop.realmId [] c.stop.key c.entries

theorem remaining_eq (c : MemtableKeyCursor) : c.remaining = match c.entries with
    | [] => []
    | e :: rest => (e.1.key, e.2) :: window c.stop.realmId [] c.stop.key rest := by
  have hin := c.inside
  have hrealm := c.realm
  rw [remaining, window]
  cases hc : c.entries with
  | nil => rfl
  | cons e rest =>
    rw [hc] at hin hrealm
    have hhead : inWindow c.stop.realmId [] c.stop.key e.1 = true :=
      inWindow_iff.2 ⟨hrealm e mem_cons_self, hin e rfl⟩
    rw [filter_cons, if_pos hhead]
    rfl

instance : LawfulKeyCursor MemtableKeyCursor where
  remaining := remaining
  sorted c := window_sorted c.sorted
  current_eq c := by
    rw [remaining_eq]
    show c.entries.head?.map _ = _
    cases c.entries <;> rfl
  value_eq c := by
    rw [remaining_eq]
    show c.entries.head?.bind _ = _
    cases c.entries <;> rfl
  remaining_advance c := by
    show window c.stop.realmId [] c.stop.key (clip c.stop c.entries.tail) = _
    rw [window_clip _ (c.sorted.sublist (tail_sublist _)), remaining_eq]
    cases c.entries <;> rfl

theorem remaining_new (map realmId start stop) :
    (new map realmId start stop).remaining = window realmId start stop map.toList := by
  show window realmId [] stop (clip ⟨realmId, stop⟩ _) = _
  have hsort : KeySorted (entriesFrom map ⟨realmId, start⟩) :=
    (keySorted_toList map).sublist (dropWhile_sublist _)
  rw [window_clip ⟨realmId, stop⟩ hsort, entriesFrom_eq, window, filter_filter]
  congr 1
  refine filter_congr fun e _ => ?_
  rw [Bool.eq_iff_iff, Bool.and_eq_true, inWindow_iff, inWindow_iff]
  simp only [Bool.not_eq_true', decide_eq_false_iff_not, not_lt]
  exact ⟨fun h => ⟨h.2, h.1.2⟩, fun h => ⟨⟨le_trans (realm_start_le _ _) h.1, h.2⟩, h.1⟩⟩

end MemtableKeyCursor

end Hearth.Storage
