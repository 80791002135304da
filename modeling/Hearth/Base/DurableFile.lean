import Mathlib.Data.List.Basic

/-!
# Files that survive a crash

An append-only file with a sync. A crash keeps the content at the last sync and
any prefix of what was appended since; a truncation that was not synced may or
may not have happened. `Survives f img` lists the contents a crash can leave.
-/

namespace Hearth.Base

open List

/-- `content` is what a reader sees. `pieces` holds every change since the last sync, each as
the content before it and the bytes it appended; the first is the synced content itself. -/
structure DurableFile (α : Type) where
  content : List α
  pieces : List (List α × List α)
  deriving DecidableEq, Repr

namespace DurableFile

variable {α : Type} {f : DurableFile α} {bs img : List α}

/-- A file whose whole content has been synced. -/
def stable (bs : List α) : DurableFile α := ⟨bs, [(bs, [])]⟩

section

variable (f : DurableFile α)

def append (bs : List α) : DurableFile α := ⟨f.content ++ bs, f.pieces ++ [(f.content, bs)]⟩

def truncate : DurableFile α := ⟨[], f.pieces ++ [([], [])]⟩

def sync : DurableFile α := stable f.content

/-- A crash can leave the content `img`. -/
def Survives (img : List α) : Prop := ∃ p ∈ f.pieces, ∃ pre, pre <+: p.2 ∧ img = p.1 ++ pre

end

@[simp] theorem content_append : (f.append bs).content = f.content ++ bs := rfl

theorem survives_stable : (stable bs).Survives img ↔ img = bs := by
  constructor
  · rintro ⟨p, hp, pre, hpre, rfl⟩
    rw [mem_singleton.1 hp] at hpre ⊢
    rw [prefix_nil.1 hpre, append_nil]
  · rintro rfl
    exact ⟨_, mem_singleton_self _, [], prefix_rfl, (append_nil _).symm⟩

theorem survives_append :
    (f.append bs).Survives img ↔ f.Survives img ∨ ∃ pre, pre <+: bs ∧ img = f.content ++ pre := by
  constructor
  · rintro ⟨p, hp, pre, hpre, rfl⟩
    rcases mem_append.1 hp with hp | hp
    · exact .inl ⟨p, hp, pre, hpre, rfl⟩
    · rw [mem_singleton.1 hp] at hpre ⊢
      exact .inr ⟨pre, hpre, rfl⟩
  · rintro (⟨p, hp, pre, hpre, rfl⟩ | ⟨pre, hpre, rfl⟩)
    · exact ⟨p, mem_append_left _ hp, pre, hpre, rfl⟩
    · exact ⟨_, mem_append_right _ (mem_singleton_self _), pre, hpre, rfl⟩

theorem survives_sync : f.sync.Survives img ↔ img = f.content := survives_stable

end DurableFile

end Hearth.Base
