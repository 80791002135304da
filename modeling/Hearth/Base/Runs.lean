import Hearth.Base.Sorted

/-!
# Sorted lists cut into runs

A sorted list stored as consecutive nonempty runs, each filed under its first
key. A key is looked up in the last run that starts at or before it.

* `valueAt_runs`: that run alone decides the lookup.
* `filter_from_lastLe`: a walk from that run on misses no key from the sought
  one on.
-/

namespace Hearth.Base

open List

universe u v w

variable {K : Type u} {V : Type v} [LinearOrder K]

/-! ## Binary search in a sorted list -/

/-- The index of the first entry at or after `k`. -/
def lowerBound (l : List (K × V)) (k : K) : Nat :=
  bisect (fun i => l[i]?.any fun e => e.1 < k) l.length 0 l.length

/-- The value of the entry at the lower bound, if it is stored under exactly `k`. -/
def searchAt (l : List (K × V)) (k : K) : Option V :=
  (l[lowerBound l k]?.filter fun e => e.1 = k).map Prod.snd

section

variable {l : List (K × V)} {k : K}

section

variable (h : KeySorted l)

include h

theorem KeySorted.cut_lt (k : K) :
    l.Pairwise fun a b => decide (b.1 < k) = true → decide (a.1 < k) = true :=
  h.cut fun _ _ hab hb => decide_eq_true (lt_trans hab (of_decide_eq_true hb))

theorem lowerBound_eq : lowerBound l k = (l.filter fun e => decide (e.1 < k)).length :=
  bisect_eq_length_filter (h.cut_lt k)

theorem take_lowerBound : l.take (lowerBound l k) = l.filter fun e => decide (e.1 < k) := by
  rw [lowerBound_eq h]
  conv => lhs; arg 2; rw [← filter_append_filter_not (h.cut_lt k)]
  exact take_left

theorem drop_lowerBound : l.drop (lowerBound l k) = l.filter fun e => !decide (e.1 < k) := by
  rw [lowerBound_eq h]
  conv => lhs; arg 2; rw [← filter_append_filter_not (h.cut_lt k)]
  exact drop_left

/-- The entries between two bounds, cut out by their indexes. -/
theorem slice_lowerBound {k' : K} (hk : k ≤ k') : (l.take (lowerBound l k')).drop (lowerBound l k) =
      l.filter fun e => !decide (e.1 < k) && decide (e.1 < k') := by
  have hsub : KeySorted (l.filter fun e => decide (e.1 < k')) := h.sublist filter_sublist
  have hsame : lowerBound l k = lowerBound (l.filter fun e => decide (e.1 < k')) k := by
    rw [lowerBound_eq h, lowerBound_eq hsub, filter_filter]
    congr 1
    refine filter_congr fun e _ => ?_
    by_cases hlt : e.1 < k
    · simp [lt_of_lt_of_le hlt hk]
    · simp [hlt]
  rw [take_lowerBound h, hsame, drop_lowerBound hsub, filter_filter]

theorem searchAt_eq : searchAt l k = valueAt l k := by
  have hhead : l[lowerBound l k]? = (l.filter fun e => !decide (e.1 < k)).head? := by
    rw [← drop_lowerBound h, head?_drop]
  have hval : valueAt l k = valueAt (l.filter fun e => !decide (e.1 < k)) k := by
    rw [valueAt_filter (q := fun a => !decide (a < k)), if_pos (by simp)]
  have hge : ∀ e ∈ l.filter (fun e => !decide (e.1 < k)), k ≤ e.1 := fun e he => by
    simpa using (mem_filter.1 he).2
  have hsort := h.sublist (filter_sublist (p := fun e => !decide (e.1 < k)))
  rw [searchAt, hhead, hval]
  cases hl : l.filter fun e => !decide (e.1 < k) with
  | nil => rfl
  | cons e rest =>
    rw [hl] at hge hsort
    rw [valueAt_cons]
    by_cases hk : e.1 = k
    · simp [Option.filter, hk]
    · have hrest : valueAt rest k = none := valueAt_eq_none.2 fun a ha heq => by
        have hlt := (keySorted_cons.1 hsort).1 a ha
        rw [← heq] at hlt
        exact absurd hlt (not_lt.2 (hge e mem_cons_self))
      simp [hk, Ne.symm hk, hrest]

end

end

/-! ## The last run that starts at or before a key -/

section

variable {α : Type w} (key : α → K) (body : α → List (K × V))

/-- The index of the last element whose key is at or before `k`. -/
def lastLe (rs : List α) (k : K) : Option Nat :=
  match bisect (fun i => rs[i]?.any fun r => key r ≤ k) rs.length 0 rs.length with
  | 0 => none
  | n + 1 => some n

/-- Every run starts with the key it is filed under. -/
def Filed (rs : List α) : Prop := ∀ r ∈ rs, ∃ e rest, body r = e :: rest ∧ key r = e.1

variable {key body} {rs : List α} {k : K}

theorem at_split {pre post : List α} {r : α} {i : Nat} (hsplit : rs = pre ++ r :: post)
    (hlen : pre.length = i) : rs[i]? = some r ∧ rs.drop i = r :: post := by
  rw [hsplit, ← hlen, getElem?_append_right (le_rfl), Nat.sub_self, drop_left]
  exact ⟨rfl, rfl⟩

section

variable (hf : Filed key body rs)

include hf

section

variable (h : KeySorted (rs.flatMap body))

include h

/-- The runs are sorted, and each lies before the next one's first key. -/
theorem Filed.keys : rs.Pairwise fun a b => ∀ e ∈ body a, e.1 < key b := by
  refine (pairwise_flatMap.1 h).2.imp_of_mem fun {a b} _ hb hab e he => ?_
  obtain ⟨x, rest, hbody, hkey⟩ := hf b hb
  rw [hkey]
  exact hab e he x (by rw [hbody]; exact mem_cons_self)

theorem Filed.ascending : rs.Pairwise fun a b => key a < key b := by
  refine (hf.keys h).imp_of_mem fun {a b} ha _ hab => ?_
  obtain ⟨e, rest, hbody, hkey⟩ := hf a ha
  exact hkey ▸ hab e (by rw [hbody]; exact mem_cons_self)

theorem Filed.key_le {r : α} (hr : r ∈ rs) : ∀ e ∈ body r, key r ≤ e.1 := by
  obtain ⟨a, rest, hbody, hkey⟩ := hf r hr
  have hsort : KeySorted (body r) := (pairwise_flatMap.1 h).1 r hr
  rw [hbody] at hsort ⊢
  exact hkey ▸ hsort.head_le

theorem lastLe_spec : match lastLe key rs k with
    | none => ∀ r ∈ rs, k < key r
    | some i => ∃ pre r post, rs = pre ++ r :: post ∧ pre.length = i ∧ key r ≤ k ∧
        ∀ r' ∈ post, k < key r' := by
  have hcut : rs.Pairwise fun a b => decide (key b ≤ k) = true → decide (key a ≤ k) = true :=
    (hf.ascending h).imp fun hlt hb => decide_eq_true (le_trans (le_of_lt hlt) (of_decide_eq_true hb))
  have hsplit := filter_append_filter_not hcut
  have hafter : ∀ r ∈ rs.filter (fun r => !decide (key r ≤ k)), k < key r := fun r hr => by
    simpa using (mem_filter.1 hr).2
  rw [lastLe, bisect_eq_length_filter hcut]
  cases hn : (rs.filter fun r => decide (key r ≤ k)).length with
  | zero =>
    rw [length_eq_zero_iff.1 hn, nil_append] at hsplit
    rw [hsplit] at hafter
    exact hafter
  | succ n =>
    -- the last of the runs that start at or before `k`
    have hne : rs.filter (fun r => decide (key r ≤ k)) ≠ [] := fun h0 => by
      rw [h0] at hn
      cases hn
    obtain ⟨pre, r, hpre⟩ := (eq_nil_or_concat' _).resolve_left hne
    have hr : r ∈ rs.filter fun r => decide (key r ≤ k) := by
      rw [hpre]
      exact mem_append_right _ mem_cons_self
    refine ⟨pre, r, rs.filter fun r => !decide (key r ≤ k), ?_, ?_, ?_, hafter⟩
    · conv => lhs; rw [← hsplit, hpre]
      rw [append_assoc]
      rfl
    · rw [hpre, length_append] at hn
      exact Nat.succ.inj hn
    · simpa using (mem_filter.1 hr).2

/-- One run decides the lookup of a key. -/
theorem valueAt_runs : valueAt (rs.flatMap body) k =
      ((lastLe key rs k).bind (rs[·]?)).bind fun r => valueAt (body r) k := by
  have hspec := lastLe_spec (k := k) hf h
  cases hl : lastLe key rs k with
  | none =>
    rw [hl] at hspec
    refine valueAt_eq_none.2 fun e he heq => ?_
    obtain ⟨r, hr, her⟩ := mem_flatMap.1 he
    exact absurd (hspec r hr) (not_lt.2 (heq ▸ hf.key_le h hr e her))
  | some i =>
    rw [hl] at hspec
    obtain ⟨pre, r, post, hsplit, hlen, hle, hpost⟩ := hspec
    rw [Option.bind_some, (at_split hsplit hlen).1, Option.bind_some]
    have hkeys := hf.keys h
    rw [hsplit, pairwise_append] at hkeys
    have hbef : valueAt (pre.flatMap body) k = none := valueAt_eq_none.2 fun e he heq => by
      obtain ⟨r', hr', her⟩ := mem_flatMap.1 he
      have hlt := hkeys.2.2 r' hr' r mem_cons_self e her
      exact absurd (heq ▸ hlt) (not_lt.2 hle)
    have hbehind : valueAt (post.flatMap body) k = none := valueAt_eq_none.2 fun e he heq => by
      obtain ⟨r', hr', her⟩ := mem_flatMap.1 he
      have hmem : r' ∈ rs := by
        rw [hsplit]
        exact mem_append_right _ (mem_cons_of_mem _ hr')
      exact absurd (hpost r' hr') (not_lt.2 (heq ▸ hf.key_le h hmem e her))
    rw [hsplit, flatMap_append, flatMap_cons, valueAt_append, valueAt_append, hbef,
      hbehind, Option.none_or, Option.or_none]

/-- The runs before the sought one hold no key from `k` on. -/
theorem filter_from_lastLe : (rs.flatMap body).filter (fun e => !decide (e.1 < k)) =
      ((rs.drop ((lastLe key rs k).getD 0)).flatMap body).filter fun e => !decide (e.1 < k) := by
  have hspec := lastLe_spec (k := k) hf h
  cases hl : lastLe key rs k with
  | none => rfl
  | some i =>
    rw [hl] at hspec
    obtain ⟨pre, r, post, hsplit, hlen, hle, -⟩ := hspec
    have hkeys := hf.keys h
    rw [hsplit, pairwise_append] at hkeys
    have hnone : (pre.flatMap body).filter (fun e => !decide (e.1 < k)) = [] := by
      refine filter_eq_nil_iff.2 fun e he => ?_
      obtain ⟨r', hr', her⟩ := mem_flatMap.1 he
      simpa using lt_of_lt_of_le (hkeys.2.2 r' hr' r mem_cons_self e her) hle
    rw [Option.getD_some, hsplit, ← hlen, drop_left, flatMap_append, filter_append,
      hnone, nil_append]

end

end

/-- The runs from the first one that starts at or after `stop` hold no key before it. -/
theorem filter_until (stop : K) (hf : Filed key body rs) (h : KeySorted (rs.flatMap body))
    {p : K × V → Bool} (hp : ∀ e, p e = true → e.1 < stop) :
    ((rs.takeWhile fun r => !decide (stop ≤ key r)).flatMap body).filter p =
      (rs.flatMap body).filter p := by
  have hcut : rs.Pairwise fun a b => (!decide (stop ≤ key b)) = true → (!decide (stop ≤ key a)) = true := by
    refine (hf.ascending h).imp fun hlt hb => ?_
    simp only [Bool.not_eq_true', decide_eq_false_iff_not, not_le] at hb ⊢
    exact lt_trans hlt hb
  have hnone : ((rs.filter fun r => !(!decide (stop ≤ key r))).flatMap body).filter p = [] := by
    refine filter_eq_nil_iff.2 fun e he hpe => ?_
    obtain ⟨r, hr, her⟩ := mem_flatMap.1 he
    obtain ⟨hr, hstop⟩ := mem_filter.1 hr
    have hle : stop ≤ key r := by simpa using hstop
    exact absurd (hp e hpe) (not_lt.2 (le_trans hle (hf.key_le h hr e her)))
  rw [takeWhile_eq_filter hcut]
  conv => rhs; rw [← filter_append_filter_not hcut, flatMap_append, filter_append, hnone]
  rw [append_nil]

end

end Hearth.Base
