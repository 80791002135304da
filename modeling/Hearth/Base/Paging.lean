import Mathlib.Data.List.Sort
import Mathlib.Order.Basic

/-!
# Listings read page by page

A listing is a list of rows in key order, read a page at a time. A page that is not
the last one hands out a cursor, and the next page starts after the cursor's key.

`boundaryPage` names as its cursor the first row it left out, so that the next
page, which starts after that row, leaves it out as well. `collect_boundaryPage`
is the whole listing: every row but one in `limit + 1`. `loadPage` is the same loop
over rows that may lead to no record; `loadedRows_eq_iff` says when its listing is whole.

`distinctUpTo` is a scan that keeps each value once and stops at a limit.
-/

namespace Hearth.Base

open List Nat

variable {α κ : Type}

structure Page (α κ : Type) where
  items : List α
  nextCursor : Option κ

/-- Reads page after page until one has no cursor. -/
def collectPages (page : Option κ → Page α κ) : Nat → Option κ → List α
  | 0, _ => []
  | n + 1, cursor =>
    (page cursor).items ++ match (page cursor).nextCursor with
      | some next => collectPages page n (some next)
      | none => []

section

variable [LT κ] [DecidableLT κ] (key : α → κ) (rows : List α) (limit : Nat)

/-- The rows of a scan that starts after the cursor. -/
def scanAfter : Option κ → List α
  | none => rows
  | some c => rows.filter fun a => decide (c < key a)

def boundaryPage (cursor : Option κ) : Page α κ where
  items := (scanAfter key rows cursor).take limit
  nextCursor := ((scanAfter key rows cursor).drop limit).head?.map key

end

/-- The rows without those at the positions `limit`, `2 * limit + 1`, and so on. -/
def withoutBoundaries (limit : Nat) (rows : List α) : List α :=
  (rows.zipIdx.filter fun row => row.2 % (limit + 1) != limit).map Prod.fst

theorem mem_withoutBoundaries {limit : Nat} {rows : List α} {a : α} :
    a ∈ withoutBoundaries limit rows ↔ ∃ i, rows[i]? = some a ∧ i % (limit + 1) ≠ limit := by
  unfold withoutBoundaries
  simp [mem_zipIdx_iff_getElem?]

section

variable [LinearOrder κ]

/-- The rows in the order of their keys, as a scan yields them. -/
def sortedBy (key : α → κ) (rows : List α) : List α := rows.insertionSort fun a b => key a ≤ key b

variable {key : α → κ} {rows : List α} {a : α}

theorem perm_sortedBy : (sortedBy key rows).Perm rows := perm_insertionSort ..

@[simp] theorem mem_sortedBy : a ∈ sortedBy key rows ↔ a ∈ rows := perm_sortedBy.mem_iff

theorem pairwise_sortedBy (h : (rows.map key).Nodup) :
    (sortedBy key rows).Pairwise (key · < key ·) := by
  have hle : (sortedBy key rows).Pairwise (key · ≤ key ·) := pairwise_insertionSort ..
  have hne : (sortedBy key rows).Pairwise (key · ≠ key ·) :=
    pairwise_map.1 ((perm_sortedBy.map key).nodup_iff.2 h)
  exact (hle.and hne).imp fun h => lt_of_le_of_ne h.1 h.2

end

/-! ## Rows that may lead to no record -/

section

variable {β : Type} (load : α → Option β) (limit : Nat)

/-- The loop of a page: a row without a record is passed over, and the first row behind a full page
is the cursor. -/
def loadPage (key : α → κ) : List α → List β → Page β κ
  | [], items => ⟨items, none⟩
  | a :: rows, items =>
    if limit ≤ items.length then ⟨items, some (key a)⟩ else loadPage key rows (items ++ (load a).toList)

/-- What the pages yield, the first of them with `n` items already. -/
def loadedRows : Nat → List α → List β
  | _, [] => []
  | n, a :: rows =>
    if limit ≤ n then loadedRows 0 rows else (load a).toList ++ loadedRows (n + (load a).toList.length) rows

/-- No record stands right behind a full page. -/
def BoundariesDangle : Nat → List α → Prop
  | _, [] => True
  | n, a :: rows =>
    if limit ≤ n then load a = none ∧ BoundariesDangle 0 rows
    else BoundariesDangle (n + (load a).toList.length) rows

variable {load limit} {key : α → κ} {rows rest : List α} {n : Nat}

/-- A page ends with the rows, or at a row behind which the next page goes on. -/
theorem loadPage_cases (items : List β) :
    loadPage load limit key rest items = ⟨items ++ loadedRows load limit items.length rest, none⟩ ∨
      ∃ front b tail page, rest = front ++ b :: tail ∧
        loadPage load limit key rest items = ⟨page, some (key b)⟩ ∧
        page ++ loadedRows load limit 0 tail = items ++ loadedRows load limit items.length rest := by
  induction rest generalizing items with
  | nil =>
    left
    rw [loadPage, loadedRows, append_nil]
  | cons a rest ih =>
    rw [loadPage, loadedRows]
    split
    · exact .inr ⟨[], a, rest, _, rfl, rfl, rfl⟩
    · rw [← append_assoc, ← length_append]
      refine (ih (items ++ (load a).toList)).imp_right ?_
      rintro ⟨front, b, tail, page, rfl, h⟩
      exact ⟨a :: front, b, tail, page, rfl, h⟩

theorem length_loadedRows_le : (loadedRows load limit n rows).length ≤ (rows.filterMap load).length := by
  induction rows generalizing n with
  | nil => exact le_rfl
  | cons a rows ih =>
    have hone : (filterMap load (a :: rows)).length =
        (load a).toList.length + (rows.filterMap load).length := by
      cases h : load a <;> simp [h, Nat.add_comm]
    rw [loadedRows, hone]
    split
    · exact ih.trans (le_add_left _ _)
    · rw [length_append]
      exact Nat.add_le_add_left ih _

theorem loadedRows_eq_iff :
    loadedRows load limit n rows = rows.filterMap load ↔ BoundariesDangle load limit n rows := by
  induction rows generalizing n with
  | nil => exact iff_of_true rfl trivial
  | cons a rows ih =>
    rw [loadedRows, BoundariesDangle]
    cases ha : load a with
    | none =>
      rw [filterMap_cons_none ha]
      split
      · simpa using ih
      · exact ih
    | some b =>
      rw [filterMap_cons_some ha]
      split
      · refine iff_of_false (fun h => ?_) (fun h => nomatch h.1)
        -- the record at the boundary is missing, so that what is listed is too short
        have hle : (loadedRows load limit 0 rows).length ≤ (rows.filterMap load).length :=
          length_loadedRows_le
        rw [h] at hle
        exact not_succ_le_self _ hle
      · simpa using ih

/-- Where every row has its record, a page takes the first rows. -/
theorem loadPage_some (items : List α) : loadPage some limit key rows items =
    ⟨items ++ rows.take (limit - items.length), (rows.drop (limit - items.length)).head?.map key⟩ := by
  induction rows generalizing items with
  | nil => simp [loadPage]
  | cons a rows ih =>
    rw [loadPage]
    split
    · next h => simp [Nat.sub_eq_zero_of_le h]
    · next h =>
      have hone : limit - items.length = limit - (items.length + 1) + 1 := by omega
      simp [ih, hone]

theorem loadedRows_some (hn : n ≤ limit) : loadedRows some limit n rows =
    ((rows.zipIdx n).filter fun row => row.2 % (limit + 1) != limit).map Prod.fst := by
  induction rows generalizing n with
  | nil => rfl
  | cons a rows ih =>
    rw [loadedRows, zipIdx_cons, filter_cons, mod_eq_of_lt (lt_succ_of_le hn)]
    split
    · next h =>
      obtain rfl := le_antisymm hn h
      -- a position behind the boundary keeps its remainder when the numbering starts afresh there
      have hshift : rows.zipIdx (n + 1) = rows.zipIdx.map (fun p => (p.1, p.2 + (n + 1))) := by
        rw [zipIdx_eq_map_add]
        exact map_congr_left fun p _ => Prod.ext rfl (Nat.add_comm ..)
      simp [ih (zero_le n), hshift, filter_map, Function.comp_def]
    · next h => simp [ih (not_le.1 h), (not_le.1 h).ne]

variable [LinearOrder κ] {cursor : Option κ}

theorem scanAfter_boundary {front : List α} {b : α} (h : rows.Pairwise (key · < key ·))
    (hrows : rows = front ++ b :: rest) : scanAfter key rows (some (key b)) = rest := by
  subst hrows
  obtain ⟨-, hrest, hcross⟩ := pairwise_append.1 h
  change filter _ _ = rest
  rw [filter_append, filter_eq_nil_iff.2, nil_append, filter_cons,
    if_neg (by simp), filter_eq_self.2]
  · intro a ha
    simpa using rel_of_pairwise_cons hrest ha
  · intro a ha
    simpa using (hcross a ha b mem_cons_self).le

theorem collect_loadPage_from (hrows : rows.Pairwise (key · < key ·))
    (hsuf : ∃ front, rows = front ++ rest) (hscan : scanAfter key rows cursor = rest)
    (hn : rest.length < n) :
    collectPages (fun c => loadPage load limit key (scanAfter key rows c) []) n cursor =
      loadedRows load limit 0 rest := by
  induction n generalizing cursor rest with
  | zero => exact absurd hn (not_lt_zero _)
  | succ n ih =>
    rw [collectPages, hscan]
    rcases @loadPage_cases _ _ _ load limit key rest [] with h | ⟨front, b, tail, page, rfl, h, hpage⟩
    · rw [h]
      exact append_nil _
    · obtain ⟨before, rfl⟩ := hsuf
      rw [h]
      refine trans ?_ hpage
      refine congrArg (page ++ ·) (ih ⟨before ++ front ++ [b], by simp⟩ ?_ ?_)
      · exact scanAfter_boundary hrows (append_assoc ..).symm
      · rw [length_append, length_cons] at hn
        omega

/-- What a caller that follows the cursors gets to see. -/
theorem collect_loadPage (hrows : (rows.map key).Nodup) :
    collectPages (fun c => loadPage load limit key (scanAfter key (sortedBy key rows) c) [])
      (rows.length + 1) none = loadedRows load limit 0 (sortedBy key rows) :=
  collect_loadPage_from (pairwise_sortedBy hrows) ⟨[], rfl⟩ rfl
    (lt_succ_of_le perm_sortedBy.length_eq.le)

/-- What it sees where every row has its record. -/
theorem collect_boundaryPage (hrows : (rows.map key).Nodup) :
    collectPages (boundaryPage key (sortedBy key rows) limit) (rows.length + 1) none =
      withoutBoundaries limit (sortedBy key rows) := by
  have hpage : boundaryPage key (sortedBy key rows) limit =
      fun c => loadPage some limit key (scanAfter key (sortedBy key rows) c) [] := by
    funext c
    rw [loadPage_some]
    rfl
  rw [hpage, collect_loadPage hrows, loadedRows_some (zero_le _)]
  rfl

end

section

variable [DecidableEq α] {limit : Nat} {values out : List α} {a : α}

def pushDistinct (limit : Nat) (out : List α) (a : α) : List α :=
  if limit ≤ out.length then out else if a ∈ out then out else out ++ [a]

def distinctUpTo (limit : Nat) (values : List α) : List α := values.foldl (pushDistinct limit) []

theorem prefix_pushDistinct : out <+: pushDistinct limit out a := by
  unfold pushDistinct
  split
  · exact prefix_rfl
  · split
    · exact prefix_rfl
    · exact prefix_append ..

theorem nodup_pushDistinct (h : out.Nodup) : (pushDistinct limit out a).Nodup := by
  unfold pushDistinct
  split
  · exact h
  · split
    · exact h
    · next ha => exact nodup_append.2 ⟨h, by simp, by simpa using fun b hb => ne_of_mem_of_not_mem hb ha⟩

theorem mem_pushDistinct (h : (pushDistinct limit out a).length < limit) :
    a ∈ pushDistinct limit out a := by
  unfold pushDistinct at h ⊢
  split
  · next hl => rw [if_pos hl] at h; omega
  · split
    · assumption
    · simp

theorem prefix_foldl_pushDistinct : out <+: values.foldl (pushDistinct limit) out := by
  induction values generalizing out with
  | nil => exact prefix_rfl
  | cons a values ih => exact prefix_pushDistinct.trans ih

theorem nodup_distinctUpTo : (distinctUpTo limit values).Nodup := by
  unfold distinctUpTo
  generalize hout : ([] : List α) = out
  have h : out.Nodup := hout ▸ nodup_nil
  clear hout
  induction values generalizing out with
  | nil => exact h
  | cons a values ih => exact ih _ (nodup_pushDistinct h)

/-- A scan that ends below its limit has kept every value. -/
theorem mem_distinctUpTo (h : (distinctUpTo limit values).length < limit) (ha : a ∈ values) :
    a ∈ distinctUpTo limit values := by
  unfold distinctUpTo at h ⊢
  generalize ([] : List α) = out at h ⊢
  induction values generalizing out with
  | nil => exact absurd ha not_mem_nil
  | cons b values ih =>
    rcases mem_cons.1 ha with rfl | ha
    · have hp : pushDistinct limit out a <+: values.foldl (pushDistinct limit) _ :=
        prefix_foldl_pushDistinct
      exact hp.mem (mem_pushDistinct (lt_of_le_of_lt hp.length_le h))
    · exact ih ha _ h

end

end Hearth.Base
