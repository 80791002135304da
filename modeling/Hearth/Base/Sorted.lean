import Mathlib

/-!
# Key-sorted association lists

Lists of pairs in strictly ascending key order, as an ordered map yields them
and a sorted file stores them. A sorted list is determined by its lookups
(`KeySorted.ext_valueAt`), so two ways to compute one are compared key by key.

* `bisect_eq_length_filter`: the half-interval search counts the elements that
  meet a predicate.
* `takeWhile_eq_filter`, `dropWhile_eq_filter`: a window cut out by its two
  ends is the window selected by a test.
* `valueAt_toList`: the entries of a tree map are sorted and look up alike.
-/

namespace Hearth.Base

open List Option

universe u v

/-! ## Lists that meet a predicate up to some point -/

section

variable {α : Type u} {q : α → Bool} {l : List α}

section

variable (hq : l.Pairwise fun a b => q b = true → q a = true)

include hq

theorem takeWhile_eq_filter : l.takeWhile q = l.filter q := by
  induction l with
  | nil => rfl
  | cons a l ih =>
    rw [pairwise_cons] at hq
    by_cases ha : q a = true
    · rw [takeWhile_cons_of_pos ha, filter_cons_of_pos ha, ih hq.2]
    · rw [takeWhile_cons_of_neg ha, filter_cons_of_neg ha]
      exact (filter_eq_nil_iff.2 fun b hb hqb => ha (hq.1 b hb hqb)).symm

theorem dropWhile_eq_filter : l.dropWhile q = l.filter fun a => !q a := by
  induction l with
  | nil => rfl
  | cons a l ih =>
    rw [pairwise_cons] at hq
    by_cases ha : q a = true
    · rw [dropWhile_cons_of_pos ha, filter_cons_of_neg (by simp [ha]), ih hq.2]
    · rw [dropWhile_cons_of_neg ha, filter_cons_of_pos (by simp [ha])]
      congr 1
      exact (filter_eq_self.2 fun b hb => by
        simpa using fun hqb => ha (hq.1 b hb hqb)).symm

/-- The elements that meet the predicate come first. -/
theorem filter_append_filter_not : l.filter q ++ l.filter (fun a => !q a) = l := by
  rw [← takeWhile_eq_filter hq, ← dropWhile_eq_filter hq, takeWhile_append_dropWhile]

end

/-- The loop `while lo < hi { mid = lo + (hi - lo) / 2; .. }` that moves `lo` behind `mid` where
`p` holds and `hi` to `mid` where it does not. -/
def bisect (p : Nat → Bool) : Nat → Nat → Nat → Nat
  | 0, lo, _ => lo
  | fuel + 1, lo, hi =>
    if lo < hi then
      if p (lo + (hi - lo) / 2) then bisect p fuel (lo + (hi - lo) / 2 + 1) hi
      else bisect p fuel lo (lo + (hi - lo) / 2)
    else lo

/-- The search ends at the boundary `r` of the predicate, wherever that is. -/
theorem bisect_eq {p : Nat → Bool} {r fuel lo hi : Nat} (hlo : lo ≤ r) (hhi : r ≤ hi)
    (hf : hi - lo ≤ fuel) (htrue : ∀ i < r, p i = true)
    (hfalse : ∀ i, r ≤ i → i < hi → p i = false) : bisect p fuel lo hi = r := by
  induction fuel generalizing lo hi with
  | zero =>
    rw [bisect]
    omega
  | succ fuel ih =>
    rw [bisect]
    split
    · by_cases hmid : lo + (hi - lo) / 2 < r
      · rw [if_pos (htrue _ hmid)]
        exact ih (by omega) hhi (by omega) hfalse
      · rw [hfalse _ (by omega) (by omega)]
        exact ih hlo (by omega) (by omega) fun i h1 h2 => hfalse i h1 (by omega)
    · omega

theorem bisect_eq_length_filter (hq : l.Pairwise fun a b => q b = true → q a = true) :
    bisect (fun i => l[i]?.any q) l.length 0 l.length = (l.filter q).length := by
  have hsplit := filter_append_filter_not hq
  have htot : (l.filter q).length + (l.filter fun a => !q a).length = l.length := by
    rw [← length_append, hsplit]
  refine bisect_eq (Nat.zero_le _) (by omega) (by omega) (fun i hi => ?_) fun i h1 h2 => ?_
  · have hget : l[i]? = some (l.filter q)[i] := by
      conv => lhs; rw [← hsplit]
      rw [getElem?_append_left hi, getElem?_eq_getElem hi]
    rw [hget]
    exact (mem_filter.1 (getElem_mem hi)).2
  · have hlt : i - (l.filter q).length < (l.filter fun a => !q a).length := by omega
    have hget : l[i]? = some (l.filter fun a => !q a)[i - (l.filter q).length] := by
      conv => lhs; rw [← hsplit]
      rw [getElem?_append_right h1, getElem?_eq_getElem hlt]
    rw [hget]
    simpa using (mem_filter.1 (getElem_mem hlt)).2

end

theorem forall_mem_concat {α : Type u} {p : α → Prop} {l : List α} {a : α} (hl : ∀ x ∈ l, p x) (ha : p a) :
    ∀ x ∈ l ++ [a], p x :=
  forall_mem_append.2 ⟨hl, forall_mem_singleton.2 ha⟩

/-! ## Sorted association lists -/

section

variable {K : Type u} {V : Type v} [LinearOrder K] {l l' : List (K × V)} {k : K} {v : V}

/-- Strictly ascending by key. -/
def KeySorted (l : List (K × V)) : Prop := l.Pairwise fun a b => a.1 < b.1

theorem keySorted_nil : KeySorted ([] : List (K × V)) := .nil

variable {a : K × V} {ls : List (List (K × V))}

theorem keySorted_cons : KeySorted (a :: l) ↔ (∀ b ∈ l, a.1 < b.1) ∧ KeySorted l := pairwise_cons

/-- The first key is the least. -/
theorem KeySorted.head_le (h : KeySorted (a :: l)) : ∀ b ∈ a :: l, a.1 ≤ b.1 :=
  forall_mem_cons.2 ⟨le_rfl, fun b hb => le_of_lt ((keySorted_cons.1 h).1 b hb)⟩

theorem KeySorted.sublist (h : KeySorted l') (hs : l.Sublist l') : KeySorted l := List.Pairwise.sublist hs h

theorem KeySorted.nodup (h : KeySorted l) : l.Nodup := h.imp fun hab heq => by
  rw [heq] at hab
  exact lt_irrefl _ hab

/-- An antitone test of the key holds up to some point only. -/
theorem KeySorted.cut (h : KeySorted l) {q : K → Bool} (hq : ∀ a b, a < b → q b = true → q a = true) :
    l.Pairwise fun a b => q b.1 = true → q a.1 = true :=
  h.imp (hq _ _)

theorem KeySorted.key_inj (h : KeySorted l) {b : K × V} (ha : a ∈ l) (hb : b ∈ l)
    (hk : a.1 = b.1) : a = b := by
  induction l with
  | nil => cases ha
  | cons c l ih =>
    rw [keySorted_cons] at h
    rcases mem_cons.1 ha with rfl | ha' <;> rcases mem_cons.1 hb with rfl | hb'
    · rfl
    · exact absurd hk (ne_of_lt (h.1 b hb'))
    · exact absurd hk.symm (ne_of_lt (h.1 a ha'))
    · exact ih h.2 ha' hb'

/-- The value stored under `k`. -/
def valueAt (l : List (K × V)) (k : K) : Option V := l.lookup k

theorem valueAt_nil : valueAt ([] : List (K × V)) k = none := rfl

theorem valueAt_cons : valueAt (a :: l) k = if k = a.1 then some a.2 else valueAt l k := by
  rw [valueAt, lookup_cons]
  split
  · next h => rw [if_pos (beq_iff_eq.1 h)]
  · next h => rw [if_neg (beq_eq_false_iff_ne.1 h), valueAt]

theorem valueAt_append : valueAt (l ++ l') k = (valueAt l k).or (valueAt l' k) := lookup_append

theorem valueAt_eq_none : valueAt l k = none ↔ ∀ e ∈ l, k ≠ e.1 := by
  rw [valueAt, lookup_eq_none_iff]
  exact forall₂_congr fun e _ => bne_iff_ne

theorem mem_of_valueAt (h : valueAt l k = some v) : (k, v) ∈ l := by
  obtain ⟨l1, l2, rfl, -⟩ := lookup_eq_some_iff.1 h
  exact mem_append_right _ mem_cons_self

theorem KeySorted.valueAt_eq_some (h : KeySorted l) : valueAt l k = some v ↔ (k, v) ∈ l := by
  refine ⟨mem_of_valueAt, fun hm => ?_⟩
  cases hw : valueAt l k with
  | none => exact absurd rfl (valueAt_eq_none.1 hw _ hm)
  | some w =>
    cases h.key_inj hm (mem_of_valueAt hw) rfl
    rfl

/-- A sorted list is determined by its lookups. -/
theorem KeySorted.ext_valueAt (h : KeySorted l) (h' : KeySorted l')
    (heq : ∀ k, valueAt l k = valueAt l' k) : l = l' := by
  have hperm : l.Perm l' := (perm_ext_iff_of_nodup h.nodup h'.nodup).2 fun a => by
    rw [← h.valueAt_eq_some, ← h'.valueAt_eq_some, heq]
  exact hperm.eq_of_pairwise (fun a b _ _ hab hba => absurd hab (lt_asymm hba)) h h'

theorem valueAt_filter {q : K → Bool} :
    valueAt (l.filter fun e => q e.1) k = if q k then valueAt l k else none := by
  induction l with
  | nil => exact (ite_self _).symm
  | cons a l ih =>
    rw [valueAt_cons, filter_cons]
    by_cases hk : k = a.1
    · subst hk
      cases hq : q a.1 with
      | true => simp [valueAt_cons]
      | false =>
        rw [hq] at ih
        simpa using ih
    · rw [if_neg hk, ← ih]
      split
      · rw [valueAt_cons, if_neg hk]
      · rfl

theorem valueAt_map {W : Type v} (f : V → W) :
    valueAt (l.map fun e => (e.1, f e.2)) k = (valueAt l k).map f := by
  induction l with
  | nil => rfl
  | cons a l ih =>
    rw [map_cons, valueAt_cons, valueAt_cons, ih]
    split <;> rfl

/-! ## Layers -/

/-- The value of `k` in the first list that holds it. -/
def layered (ls : List (List (K × V))) (k : K) : Option V := ls.findSome? (valueAt · k)

theorem layered_nil : layered ([] : List (List (K × V))) k = none := rfl

theorem layered_cons : layered (l :: ls) k = (valueAt l k).or (layered ls k) := by
  rw [layered, findSome?_cons]
  cases valueAt l k <;> rfl

theorem layered_append {ls' : List (List (K × V))} :
    layered (ls ++ ls') k = (layered ls k).or (layered ls' k) := findSome?_append

theorem layered_eq_none :
    layered ls k = none ↔ ∀ l ∈ ls, valueAt l k = none := findSome?_eq_none_iff

theorem layered_of_isPrefix {p : List (List (K × V))} (hp : p <+: ls)
    (h : layered p k = some v) : layered ls k = some v := by
  obtain ⟨rest, rfl⟩ := hp
  rw [layered_append, h, some_or]

/-- A list that holds what a run of layers does may stand behind any first part of the run. -/
theorem layered_splice {m : List (K × V)} {p run : List (List (K × V))}
    (hm : valueAt m k = layered run k) (hp : p <+: run) (above below : List (List (K × V))) :
    layered (above ++ (p ++ m :: below)) k = layered (above ++ (run ++ below)) k := by
  rw [layered_append, layered_append, layered_append, layered_append, layered_cons, hm]
  cases h : layered p k with
  | none => rw [none_or]
  | some v => rw [layered_of_isPrefix hp h, some_or, some_or]

section

variable {W : Type v} (live : V → Option W)

/-- What a reader of the layers sees, with values that may stand for a deletion. -/
def visible (ls : List (List (K × V))) (k : K) : Option W := (layered ls k).bind live

variable {live} {m : List (K × V)} {p run : List (List (K × V))}

/-- What the first part finds is what all of them find, so a merge that drops the deletions loses
nothing on either side of it. -/
theorem bind_live_merge (hp : p <+: run) :
    ((layered p k).or ((layered run k).filter fun v => (live v).isSome)).bind live = (layered run k).bind live ∧
      (((layered run k).filter fun v => (live v).isSome).or (layered p k)).bind live =
        (layered run k).bind live := by
  cases hr : layered run k with
  | none =>
    have hnone : layered p k = none :=
      eq_none_iff_forall_ne_some.2 fun v h => nomatch hr.symm.trans (layered_of_isPrefix hp h)
    rw [hnone]
    exact ⟨rfl, rfl⟩
  | some v =>
    have hfound : layered p k = none ∨ layered p k = some v := by
      cases h : layered p k with
      | none => exact .inl rfl
      | some w => exact .inr ((layered_of_isPrefix hp h).symm.trans hr)
    cases hv : live v <;> rcases hfound with h | h <;> simp [h, Option.filter, hv]

section

variable (hm : valueAt m k = (layered run k).filter fun v => (live v).isSome) (hp : p <+: run) (above : List (List (K × V)))

include hm hp above

/-- A merge of the last layers that drops the deletions may stand behind any first part of them. -/
theorem visible_splice : visible live (above ++ (p ++ [m])) k = visible live (above ++ run) k := by
  rw [visible, visible, layered_append, layered_append, layered_append, layered_cons, layered_nil,
    or_none, hm]
  cases layered above k with
  | some v => rfl
  | none => exact (bind_live_merge hp).1

/-- It may also stand in front of any first part of them: a deletion it dropped is found behind
it, ahead of what it deletes. -/
theorem visible_above : visible live (above ++ (m :: p)) k = visible live (above ++ run) k := by
  rw [visible, visible, layered_append, layered_append, layered_cons, hm]
  cases layered above k with
  | some v => rfl
  | none => exact (bind_live_merge hp).2

end

end

/-! ## Tree maps -/

variable (t : Std.ExtTreeMap K V)

theorem keySorted_toList : KeySorted t.toList :=
  Std.ExtTreeMap.ordered_keys_toList.imp compare_lt_iff_lt.1

theorem valueAt_toList (k : K) : valueAt t.toList k = t[k]? := by
  ext v
  rw [(keySorted_toList t).valueAt_eq_some, Std.ExtTreeMap.mem_toList_iff_getElem?_eq_some]

theorem getElem?_insert (k k' : K) (v : V) :
    (t.insert k v)[k']? = if k' = k then some v else t[k']? := by
  rw [Std.ExtTreeMap.getElem?_insert]
  exact if_congr (compare_eq_iff_eq.trans eq_comm) rfl rfl

/-- Insert the pairs of a list one after the other. -/
def insertAll (t : Std.ExtTreeMap K V) (l : List (K × V)) : Std.ExtTreeMap K V :=
  l.foldl (fun t e => t.insert e.1 e.2) t

theorem insertAll_append (l l' : List (K × V)) :
    insertAll t (l ++ l') = insertAll (insertAll t l) l' := foldl_append

/-- Later pairs win. -/
theorem getElem?_insertAll (l : List (K × V)) (k : K) :
    (insertAll t l)[k]? = (valueAt l.reverse k).or t[k]? := by
  induction l generalizing t with
  | nil => rfl
  | cons a l ih =>
    rw [insertAll, foldl_cons, ← insertAll, ih, getElem?_insert, reverse_cons,
      valueAt_append, valueAt_cons, Option.or_assoc]
    split <;> rfl

theorem KeySorted.valueAt_reverse (h : KeySorted l) : valueAt l.reverse k = valueAt l k := by
  induction l with
  | nil => rfl
  | cons a l ih =>
    rw [keySorted_cons] at h
    rw [reverse_cons, valueAt_append, valueAt_cons, valueAt_cons, ih h.2]
    split
    · next hk =>
      have hnone : valueAt l k = none := valueAt_eq_none.2 fun e he => hk ▸ ne_of_lt (h.1 e he)
      rw [hnone]
      rfl
    · exact or_none

/-- Layers inserted oldest first: the newest wins. -/
theorem getElem?_insertAll_layers {ls : List (List (K × V))} (h : ∀ l ∈ ls, KeySorted l) (k : K) :
    (ls.reverse.foldl insertAll (∅ : Std.ExtTreeMap K V))[k]? = layered ls k := by
  induction ls with
  | nil => exact Std.ExtTreeMap.getElem?_empty
  | cons l ls ih =>
    rw [reverse_cons, foldl_append, foldl_cons, foldl_nil, getElem?_insertAll,
      (h l mem_cons_self).valueAt_reverse, layered_cons,
      ih fun l' hl' => h l' (mem_cons_of_mem _ hl')]

end

end Hearth.Base
