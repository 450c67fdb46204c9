/-
# Stax.Lib.Ledger — a value together with who wrote what into it.

A ledger holds a value that is built by writes from an empty one, and remembers the writes with the
key each was made under.  The value is always what the remembered writes make of the empty one, so
what the keys say about the writes is said about the value.
-/
import Mathlib

namespace Stax.Lib

/-- A value of `σ`, and the writes under keys of `κ` that make it out of `empty`. -/
structure Ledger {σ ω : Type*} (κ : Type*) (empty : σ) (apply : σ → ω → σ) where
  contents : σ
  entries : List (κ × ω)
  replays : contents = (entries.map Prod.snd).foldl apply empty

namespace Ledger

variable {σ ω κ : Type*} {empty : σ} {apply : σ → ω → σ}

/-- Nothing written. -/
def blank (κ : Type*) (empty : σ) (apply : σ → ω → σ) : Ledger κ empty apply :=
  { contents := empty
    entries := []
    replays := rfl }

/-- A write is applied to the contents and entered under its key. -/
def write (ledger : Ledger κ empty apply) (key : κ) (w : ω) : Ledger κ empty apply :=
  { contents := apply ledger.contents w
    entries := ledger.entries ++ [(key, w)]
    replays := by
      rw [List.map_append, List.foldl_append, ← ledger.replays]
      rfl }

@[simp] theorem blank_entries : (blank κ empty apply).entries = [] := rfl

@[simp] theorem write_entries (ledger : Ledger κ empty apply) (key : κ) (w : ω) :
    (ledger.write key w).entries = ledger.entries ++ [(key, w)] := rfl

/-- Entries under one key among the keys of others and its own new one. -/
theorem forall_write {p : κ × ω → Prop} {ledger : Ledger κ empty apply} {key : κ} {w : ω}
    (h : ∀ entry ∈ ledger.entries, p entry) (hnew : p (key, w)) :
    ∀ entry ∈ (ledger.write key w).entries, p entry := by
  intro entry hentry
  rw [write_entries, List.mem_append, List.mem_singleton] at hentry
  rcases hentry with hentry | rfl
  · exact h entry hentry
  · exact hnew

end Ledger

end Stax.Lib
