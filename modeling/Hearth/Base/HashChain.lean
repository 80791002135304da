import Mathlib.Data.List.Forall2
import Mathlib.Data.List.Induction

/-!
# Chains of tagged entries

Each entry carries a tag that is computed from the tag before it and from the entry.
`walk` follows a list of entries from a first tag and gives the last one, or nothing
where a tag does not match.

If the tag determines what it was computed from, two chains of one length with the
same ends have the same entries (`walk_unique`), up to what the tag does not cover.
-/

namespace Hearth.Base

open List

variable {H E : Type} (link : H → E → H) (tag : E → H)

/-- The entries of a chain, each with the tag before it. -/
def links : H → List E → List (H × E)
  | _, [] => []
  | prev, e :: es => (prev, e) :: links (tag e) es

variable [DecidableEq H]

def walk : H → List E → Option H
  | prev, [] => some prev
  | prev, e :: es => if tag e = link prev e then walk (tag e) es else none

variable {link tag} {prev last : H} {e : E} {es fs : List E}

@[simp] theorem walk_nil : walk link tag prev [] = some prev := rfl

theorem walk_cons : walk link tag prev (e :: es) = some last ↔
    tag e = link prev e ∧ walk link tag (tag e) es = some last := by
  rw [walk]
  split
  case isTrue h => exact ⟨fun hw => ⟨h, hw⟩, And.right⟩
  case isFalse h => exact ⟨nofun, fun hw => absurd hw.1 h⟩

theorem walk_append : walk link tag prev (es ++ fs) = some last ↔
    ∃ mid, walk link tag prev es = some mid ∧ walk link tag mid fs = some last := by
  induction es generalizing prev with
  | nil => simp
  | cons e es ih =>
    rw [cons_append, walk_cons, ih]
    constructor
    · rintro ⟨htag, mid, hes, hfs⟩
      exact ⟨mid, walk_cons.2 ⟨htag, hes⟩, hfs⟩
    · rintro ⟨mid, hes, hfs⟩
      obtain ⟨htag, hes⟩ := walk_cons.1 hes
      exact ⟨htag, mid, hes, hfs⟩

theorem walk_concat : walk link tag prev (es ++ [e]) = some last ↔
    tag e = last ∧ ∃ mid, walk link tag prev es = some mid ∧ link mid e = last := by
  rw [walk_append]
  constructor
  · rintro ⟨mid, hes, he⟩
    obtain ⟨htag, hlast⟩ := walk_cons.1 he
    cases hlast
    exact ⟨rfl, mid, hes, htag.symm⟩
  · rintro ⟨htag, mid, hes, hlink⟩
    exact ⟨mid, hes, walk_cons.2 ⟨htag.trans hlink.symm, congrArg some htag⟩⟩

theorem links_concat {mid : H} (h : walk link tag prev es = some mid) :
    links tag prev (es ++ [e]) = links tag prev es ++ [(mid, e)] := by
  induction es generalizing prev with
  | nil =>
    cases h
    rfl
  | cons f es ih =>
    obtain ⟨-, h⟩ := walk_cons.1 h
    rw [cons_append, links, ih h, links, cons_append]

/-- What holds of the first tag and of every computed one holds along the chain. -/
theorem links_of_walk {P : H → Prop} (hprev : P prev) (hlink : ∀ p e, P (link p e))
    (h : walk link tag prev es = some last) : ∀ x ∈ links tag prev es, P x.1 ∧ x.2 ∈ es := by
  induction es generalizing prev with
  | nil => exact fun x hx => absurd hx (not_mem_nil)
  | cons e es ih =>
    obtain ⟨htag, h⟩ := walk_cons.1 h
    intro x hx
    rw [links, mem_cons] at hx
    obtain rfl | hx := hx
    · exact ⟨hprev, mem_cons_self⟩
    · have hx := ih (htag ▸ hlink prev e) h x hx
      exact ⟨hx.1, mem_cons_of_mem _ hx.2⟩

/-- A tag that determines the tag before it and, up to `same`, its entry, determines the chain. -/
theorem walk_unique (same : E → E → Prop) (hes : walk link tag prev es = some last)
    (hfs : walk link tag prev fs = some last) (hlen : es.length = fs.length)
    (hinj : ∀ x ∈ links tag prev es, ∀ y ∈ links tag prev fs,
      link x.1 x.2 = link y.1 y.2 → x.1 = y.1 ∧ same x.2 y.2) :
    Forall₂ (fun e f => same e f ∧ tag e = tag f) es fs := by
  induction es using reverseRecOn generalizing fs last with
  | nil =>
    obtain rfl := length_eq_zero_iff.1 hlen.symm
    exact .nil
  | append_singleton es e ih =>
    obtain rfl | ⟨fs, f, rfl⟩ := eq_nil_or_concat' fs
    · rw [length_append] at hlen
      cases hlen
    · obtain ⟨hetag, mid, hes, he⟩ := walk_concat.1 hes
      obtain ⟨hftag, mid', hfs, hf⟩ := walk_concat.1 hfs
      rw [links_concat hes, links_concat hfs] at hinj
      have hlast := mem_append_right (links tag prev es) (mem_singleton_self (mid, e))
      have hlast' := mem_append_right (links tag prev fs) (mem_singleton_self (mid', f))
      obtain ⟨hmid, hsame⟩ := hinj _ hlast _ hlast' (he.trans hf.symm)
      obtain rfl : mid = mid' := hmid
      rw [length_append, length_append] at hlen
      have hbef := ih hes hfs (Nat.add_right_cancel hlen) fun x hx y hy =>
        hinj x (mem_append_left _ hx) y (mem_append_left _ hy)
      exact rel_append hbef (.cons ⟨hsame, hetag.trans hftag.symm⟩ .nil)

/-- What the tag does not cover does not matter to the walk. -/
theorem walk_congr (same : E → E → Prop) (hlink : ∀ prev e f, same e f → link prev e = link prev f)
    (h : Forall₂ (fun e f => same e f ∧ tag e = tag f) es fs) :
    walk link tag prev es = walk link tag prev fs := by
  induction h generalizing prev with
  | nil => rfl
  | cons hef _ ih => rw [walk, walk, hlink prev _ _ hef.1, hef.2, ih]

end Hearth.Base
