/-
# Stax.Lib.Announcements — a map kept up to date by what is announced of it.

Someone holds a set of values at keys and announces what is added and what is dropped; a listener
replays the announcements into a map that has one value a key.  As long as a value is dropped before
another one is added at its key, the map is the set, no value is announced twice, and none is
dropped that was not there.
-/
import Mathlib

namespace Stax.Lib

/-- What a follower is told of a map: an entry has come, or an entry has gone. -/
inductive Announcement (κ ν : Type*)
  | added (key : κ) (value : ν)
  | dropped (key : κ) (value : ν)

namespace Announcement

variable {κ ν : Type*} [DecidableEq κ]

/-- The listener's map after an announcement; only the key of a dropped value is looked at. -/
def apply (m : κ → Option ν) : Announcement κ ν → κ → Option ν
  | added key value => Function.update m key (some value)
  | dropped key _ => Function.update m key none

/-- The map that a follower has after some announcements, one after the other. -/
def replay (m : κ → Option ν) (as : List (Announcement κ ν)) : κ → Option ν := as.foldl apply m

omit [DecidableEq κ] in
/-- Where a value is added there was none, and what is dropped was there. -/
def Allowed (m : κ → Option ν) : Announcement κ ν → Prop
  | added key _ => m key = none
  | dropped key value => m key = some value

/-- Every announcement is allowed where it comes. -/
def Balanced (m : κ → Option ν) : List (Announcement κ ν) → Prop
  | [] => True
  | a :: as => a.Allowed m ∧ Balanced (a.apply m) as

variable {m : κ → Option ν}

@[simp] theorem replay_nil : replay m [] = m := rfl

@[simp] theorem replay_append (as bs : List (Announcement κ ν)) :
    replay m (as ++ bs) = replay (replay m as) bs := List.foldl_append

theorem balanced_append {as bs : List (Announcement κ ν)} :
    Balanced m (as ++ bs) ↔ Balanced m as ∧ Balanced (replay m as) bs := by
  induction as generalizing m with
  | nil => exact (iff_of_eq (true_and _)).symm
  | cons a as ih =>
      show a.Allowed m ∧ Balanced (a.apply m) (as ++ bs) ↔
        (a.Allowed m ∧ Balanced (a.apply m) as) ∧ Balanced (replay (a.apply m) as) bs
      rw [ih, and_assoc]

/-- The map has exactly the values of the set. -/
def Shows (m : κ → Option ν) (S : Set (ν × κ)) : Prop := ∀ v k, m k = some v ↔ (v, k) ∈ S

omit [DecidableEq κ] in
theorem shows_empty : Shows (fun _ : κ => (none : Option ν)) ∅ := by
  intro v k
  simp

variable {S T : Set (ν × κ)}

omit [DecidableEq κ] in
theorem Shows.congr (h : Shows m S) (hST : ∀ e, e ∈ S ↔ e ∈ T) : Shows m T :=
  fun v k => (h v k).trans (hST (v, k))

/-- Dropping a value that is there. -/
theorem Shows.dropped (h : Shows m S) {v : ν} {k : κ} (hv : (v, k) ∈ S) :
    Shows ((Announcement.dropped k v).apply m) {e ∈ S | e ≠ (v, k)} := by
  intro w l
  show Function.update m k none l = some w ↔ (w, l) ∈ S ∧ (w, l) ≠ (v, k)
  rcases eq_or_ne l k with rfl | hne
  · rw [Function.update_self]
    have hone : (w, l) ∈ S → w = v := fun hw =>
      Option.some.inj (((h w l).mpr hw).symm.trans ((h v l).mpr hv))
    constructor
    · intro hnone
      cases hnone
    · rintro ⟨hw, hother⟩
      exact absurd (congrArg (·, l) (hone hw)) hother
  · rw [Function.update_of_ne hne, h w l]
    exact (and_iff_left fun heq => hne (congrArg Prod.snd heq)).symm

/-- Adding a value at a key that has none. -/
theorem Shows.added (h : Shows m S) {v : ν} {k : κ} (hk : m k = none) :
    Shows ((Announcement.added k v).apply m) (insert (v, k) S) := by
  intro w l
  show Function.update m k (some v) l = some w ↔ (w, l) = (v, k) ∨ (w, l) ∈ S
  rcases eq_or_ne l k with rfl | hne
  · rw [Function.update_self, Option.some.injEq, Prod.mk.injEq, and_iff_left rfl, ← h w l, hk,
      eq_comm]
    simp
  · rw [Function.update_of_ne hne, h w l]
    exact (or_iff_right fun heq => hne (congrArg Prod.snd heq)).symm

end Announcement

end Stax.Lib
