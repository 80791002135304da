import Hearth.Base.Sorted

/-!
# Merging sorted lists

A streaming merge of key-sorted lists, newest first: each turn takes the
smallest key at a head, with the value of the first list that has it there, and
moves every list past that key.

`merge_spec`: the result is sorted, and looks a key up as the stack of lists
does. With `KeySorted.ext_valueAt` it is the only sorted list that does.
-/

namespace Hearth.Base

open List

universe u v

variable {K : Type u} {V : Type v} [LinearOrder K]

/-- The smallest key at a head. -/
def minHead : List (List (K × V)) → Option K
  | [] => none
  | [] :: ls => minHead ls
  | (e :: _) :: ls => some ((minHead ls).elim e.1 (min e.1))

/-- The value of `k`, if the list starts with it. -/
def headAt (k : K) : List (K × V) → Option V
  | [] => none
  | e :: _ => if e.1 = k then some e.2 else none

/-- The list without `k`, if it starts with it. -/
def dropHead (k : K) : List (K × V) → List (K × V)
  | [] => []
  | e :: l => if e.1 = k then l else e :: l

/-- One turn of the merge. -/
def mergeStep (ls : List (List (K × V))) : Option ((K × V) × List (List (K × V))) :=
  (minHead ls).bind fun k => (ls.findSome? (headAt k)).map fun v => ((k, v), ls.map (dropHead k))

def merge : Nat → List (List (K × V)) → List (K × V)
  | 0, _ => []
  | fuel + 1, ls =>
    match mergeStep ls with
    | none => []
    | some (e, ls') => e :: merge fuel ls'

/-- The number of entries of the lists together. -/
def totalLength (ls : List (List (K × V))) : Nat := (ls.map length).sum

/-! ## One turn -/

section

variable {ls : List (List (K × V))} {l : List (K × V)} {k : K}

theorem minHead_none (h : minHead ls = none) : ∀ l ∈ ls, l = [] := by
  induction ls with
  | nil => exact nofun
  | cons l ls ih =>
    cases l with
    | nil =>
      exact forall_mem_cons.2 ⟨rfl, ih h⟩
    | cons e l => cases h

theorem minHead_some (h : minHead ls = some k) :
    (∃ l ∈ ls, ∃ v, headAt k l = some v) ∧ ∀ l ∈ ls, ∀ e ∈ l.head?, k ≤ e.1 := by
  induction ls generalizing k with
  | nil => cases h
  | cons l ls ih =>
    cases l with
    | nil =>
      obtain ⟨⟨l, hl, hv⟩, hle⟩ := ih h
      exact ⟨⟨l, mem_cons_of_mem _ hl, hv⟩, forall_mem_cons.2 ⟨nofun, hle⟩⟩
    | cons e l =>
      rw [minHead, Option.some.injEq] at h
      have hself : headAt e.1 (e :: l) = some e.2 := if_pos rfl
      cases hm : minHead ls with
      | none =>
        rw [hm] at h
        subst h
        refine ⟨⟨_, mem_cons_self, _, hself⟩, fun l' hl' e' he' => ?_⟩
        rcases mem_cons.1 hl' with rfl | hl'
        · cases he'
          exact le_rfl
        · rw [minHead_none hm l' hl'] at he'
          cases he'
      | some m =>
        rw [hm, Option.elim_some] at h
        obtain ⟨⟨lm, hlm, hv⟩, hle⟩ := ih hm
        refine ⟨?_, fun l' hl' e' he' => ?_⟩
        · rcases le_total e.1 m with hem | hme
          · exact ⟨_, mem_cons_self, _, by rw [← h, min_eq_left hem]; exact hself⟩
          · exact ⟨lm, mem_cons_of_mem _ hlm, by rw [← h, min_eq_right hme]; exact hv⟩
        · rcases mem_cons.1 hl' with rfl | hl'
          · cases he'
            exact h ▸ min_le_left _ _
          · exact h ▸ le_trans (min_le_right _ _) (hle l' hl' e' he')

theorem dropHead_sublist : (dropHead k l).Sublist l := by
  cases l with
  | nil => exact .refl _
  | cons e l =>
    rw [dropHead]
    split
    · exact sublist_cons_self _ _
    · exact .refl _

theorem lt_of_mem_dropHead (h : KeySorted l) (hle : ∀ e ∈ l.head?, k ≤ e.1) :
    ∀ e ∈ dropHead k l, k < e.1 := by
  cases l with
  | nil => exact nofun
  | cons a l =>
    have ha := hle a rfl
    rw [keySorted_cons] at h
    rw [dropHead]
    split
    · next heq => exact heq ▸ h.1
    · next hne =>
      have hlt : k < a.1 := lt_of_le_of_ne ha fun heq => hne heq.symm
      exact forall_mem_cons.2 ⟨hlt, fun e he => lt_trans hlt (h.1 e he)⟩

/-- A list of keys from `k` on has `k` at its head or nowhere. -/
theorem valueAt_eq_headAt (h : KeySorted l) (hle : ∀ e ∈ l.head?, k ≤ e.1) :
    valueAt l k = headAt k l := by
  cases l with
  | nil => rfl
  | cons a l =>
    rw [headAt, valueAt_cons]
    by_cases hk : a.1 = k
    · rw [if_pos hk, if_pos hk.symm]
    · have hlt := lt_of_mem_dropHead h hle
      rw [dropHead, if_neg hk] at hlt
      rw [if_neg hk, if_neg fun h => hk h.symm]
      exact valueAt_eq_none.2 fun e he => ne_of_lt (hlt e (mem_cons_of_mem _ he))

theorem valueAt_dropHead {k' : K} (hk : k' ≠ k) : valueAt (dropHead k l) k' = valueAt l k' := by
  cases l with
  | nil => rfl
  | cons a l =>
    rw [dropHead]
    split
    · next heq => rw [valueAt_cons, if_neg (heq ▸ hk)]
    · rfl

theorem totalLength_dropHead_le (ls : List (List (K × V))) (k : K) :
    totalLength (ls.map (dropHead k)) ≤ totalLength ls := by
  induction ls with
  | nil => exact le_rfl
  | cons l ls ih =>
    exact Nat.add_le_add dropHead_sublist.length_le ih

theorem totalLength_dropHead_lt (h : ∃ l ∈ ls, ∃ v, headAt k l = some v) :
    totalLength (ls.map (dropHead k)) < totalLength ls := by
  obtain ⟨l, hl, v, hv⟩ := h
  have hlt : (dropHead k l).length < l.length := by
    cases l with
    | nil => cases hv
    | cons e l =>
      rw [headAt] at hv
      split at hv
      · next heq =>
        rw [dropHead, if_pos heq]
        exact Nat.lt_succ_self _
      · cases hv
  obtain ⟨s, t, rfl⟩ := append_of_mem hl
  have hs := totalLength_dropHead_le s k
  have ht := totalLength_dropHead_le t k
  simp only [totalLength, map_append, map_cons, sum_append, sum_cons] at hs ht ⊢
  omega

theorem layered_eq_findSome {f : List (K × V) → Option V} (h : ∀ l ∈ ls, valueAt l k = f l) :
    layered ls k = ls.findSome? f := by
  induction ls with
  | nil => rfl
  | cons l ls ih =>
    rw [layered_cons, ih fun l' hl' => h l' (mem_cons_of_mem _ hl'), h l mem_cons_self,
      findSome?_cons]
    cases f l <;> rfl

theorem layered_dropHead {k' : K} (hk : k' ≠ k) : layered (ls.map (dropHead k)) k' = layered ls k' := by
  induction ls with
  | nil => rfl
  | cons l ls ih => rw [map_cons, layered_cons, layered_cons, valueAt_dropHead hk, ih]

/-- A turn of the merge over sorted lists. -/
theorem mergeStep_spec (hs : ∀ l ∈ ls, KeySorted l) : (mergeStep ls = none ∧ ∀ l ∈ ls, l = []) ∨
    ∃ k v, mergeStep ls = some ((k, v), ls.map (dropHead k)) ∧ layered ls k = some v ∧
      (∀ l ∈ ls, ∀ e ∈ dropHead k l, k < e.1) ∧ totalLength (ls.map (dropHead k)) < totalLength ls := by
  cases hm : minHead ls with
  | none => exact .inl ⟨by rw [mergeStep, hm]; rfl, minHead_none hm⟩
  | some k =>
    obtain ⟨hex, hle⟩ := minHead_some hm
    have hlay := layered_eq_findSome fun l hl => valueAt_eq_headAt (hs l hl) (hle l hl)
    cases hf : ls.findSome? (headAt k) with
    | none =>
      obtain ⟨l, hl, v, hv⟩ := hex
      rw [findSome?_eq_none_iff.1 hf l hl] at hv
      cases hv
    | some v =>
      refine .inr ⟨k, v, by rw [mergeStep, hm, Option.bind_some, hf]; rfl, hlay.trans hf,
        fun l hl => lt_of_mem_dropHead (hs l hl) (hle l hl), totalLength_dropHead_lt hex⟩

theorem minHead_eq (hex : ∃ l ∈ ls, ∃ v, headAt k l = some v)
    (hle : ∀ l ∈ ls, ∀ e ∈ l.head?, k ≤ e.1) : minHead ls = some k := by
  have hhead : ∀ {k' : K} {l : List (K × V)} {v : V}, headAt k' l = some v →
      ∃ e ∈ l.head?, e.1 = k' := by
    intro k' l v hv
    cases l with
    | nil => cases hv
    | cons e l =>
      rw [headAt] at hv
      split at hv
      · next heq => exact ⟨e, rfl, heq⟩
      · cases hv
  cases hm : minHead ls with
  | none =>
    obtain ⟨l, hl, v, hv⟩ := hex
    rw [minHead_none hm l hl] at hv
    cases hv
  | some m =>
    obtain ⟨⟨l', hl', v', hv'⟩, hle'⟩ := minHead_some hm
    obtain ⟨l, hl, v, hv⟩ := hex
    obtain ⟨e, he, hek⟩ := hhead hv
    obtain ⟨e', he', hem⟩ := hhead hv'
    have hmk : m ≤ k := hek ▸ hle' l hl e he
    have hkm : k ≤ m := hem ▸ hle l' hl' e' he'
    rw [le_antisymm hmk hkm]

/-- The first list whose head is smallest gives the entry, and keeps its place. -/
theorem mergeStep_eq {pre post : List (List (K × V))} {e : K × V} {rest : List (K × V)}
    (hpre : ∀ l ∈ pre, ∀ a ∈ l.head?, e.1 < a.1) (hpost : ∀ l ∈ post, ∀ a ∈ l.head?, e.1 ≤ a.1) :
    mergeStep (pre ++ (e :: rest) :: post) = some (e, pre ++ rest :: post.map (dropHead e.1)) := by
  have hself : headAt e.1 (e :: rest) = some e.2 := if_pos rfl
  have hmin : minHead (pre ++ (e :: rest) :: post) = some e.1 := by
    refine minHead_eq ⟨_, mem_append_right _ mem_cons_self, _, hself⟩ fun l hl a ha => ?_
    rcases mem_append.1 hl with hl | hl
    · exact le_of_lt (hpre l hl a ha)
    · rcases mem_cons.1 hl with rfl | hl
      · cases ha
        exact le_rfl
      · exact hpost l hl a ha
  have hskip : ∀ l ∈ pre, headAt e.1 l = none ∧ dropHead e.1 l = l := by
    intro l hl
    cases l with
    | nil => exact ⟨rfl, rfl⟩
    | cons a l =>
      have hne : a.1 ≠ e.1 := (ne_of_lt (hpre _ hl a rfl)).symm
      exact ⟨if_neg hne, if_neg hne⟩
  have hnone : pre.findSome? (headAt e.1) = none :=
    findSome?_eq_none_iff.2 fun l hl => (hskip l hl).1
  have hsame : pre.map (dropHead e.1) = pre := by
    rw [map_congr_left fun l hl => (hskip l hl).2, map_id']
  rw [mergeStep, hmin, Option.bind_some, findSome?_append, hnone, Option.none_or,
    findSome?_cons, hself, Option.map_some, map_append, map_cons, hsame, dropHead,
    if_pos rfl]

theorem mergeStep_eq_none (h : ∀ l ∈ ls, l = []) : mergeStep ls = none := by
  have hmin : minHead ls = none := by
    induction ls with
    | nil => rfl
    | cons l ls ih =>
      rw [h l mem_cons_self]
      exact ih fun l' hl' => h l' (mem_cons_of_mem _ hl')
  rw [mergeStep, hmin]
  rfl

theorem mergeStep_lt (hs : ∀ l ∈ ls, KeySorted l) {e : K × V} {ls' : List (List (K × V))}
    (h : mergeStep ls = some (e, ls')) : totalLength ls' < totalLength ls := by
  rcases mergeStep_spec hs with ⟨hnone, -⟩ | ⟨k, v, hm, -, -, hlt⟩
  · rw [hnone] at h
    cases h
  · rw [hm] at h
    cases h
    exact hlt

end

/-! ## The whole merge -/

theorem merge_spec {ls : List (List (K × V))} (hs : ∀ l ∈ ls, KeySorted l) {fuel : Nat}
    (hf : totalLength ls ≤ fuel) :
    KeySorted (merge fuel ls) ∧ ∀ k, valueAt (merge fuel ls) k = layered ls k := by
  induction fuel generalizing ls with
  | zero =>
    have hnil : ∀ l ∈ ls, l = [] := fun l hl => length_eq_zero_iff.1
      (List.sum_eq_zero_iff_forall_eq_nat.1 (Nat.le_zero.1 hf) _ (mem_map_of_mem hl))
    exact ⟨keySorted_nil, fun k => (layered_eq_none.2 fun l hl => by rw [hnil l hl]; rfl).symm⟩
  | succ fuel ih =>
    rcases mergeStep_spec hs with ⟨hm, hnil⟩ | ⟨k, v, hm, hlay, hlt, hlen⟩
    · rw [merge, hm]
      exact ⟨keySorted_nil, fun k => (layered_eq_none.2 fun l hl => by rw [hnil l hl]; rfl).symm⟩
    · rw [merge, hm]
      have hs' : ∀ l ∈ ls.map (dropHead k), KeySorted l := by
        intro l hl
        obtain ⟨l', hl', rfl⟩ := mem_map.1 hl
        exact (hs l' hl').sublist dropHead_sublist
      obtain ⟨hsort, hlook⟩ := ih hs' (by omega)
      refine ⟨keySorted_cons.2 ⟨fun e he => ?_, hsort⟩, fun k' => ?_⟩
      · -- what is left to merge lies behind `k`
        have hl := (hlook e.1).symm.trans (hsort.valueAt_eq_some.2 he)
        obtain ⟨l, hl, hmem⟩ := exists_of_findSome?_eq_some hl
        obtain ⟨l', hl', rfl⟩ := mem_map.1 hl
        exact hlt l' hl' _ (mem_of_valueAt hmem)
      · show valueAt ((k, v) :: merge fuel _) k' = _
        rw [valueAt_cons]
        split
        · next hk => rw [hk, hlay]
        · next hk => rw [hlook, layered_dropHead hk]

end Hearth.Base
