/-
# Stax.Lib.LruCache — a bounded cache that evicts what was used longest ago.

The entries are kept with the most recently used first; a value looked up or put moves to the front,
and what no longer fits falls off the end.  A cache that only ever holds values of one function is
sound: asking it, and computing where it does not know, gives what the function gives, whatever was
asked before.

It stands for the cache of the crate `lru`, which is not ours.  What is assumed of that: `get` finds
the value last `put` under an equal key unless it has been evicted since, both make their key the most
recently used one, and `put` evicts the least recently used key where there is no room.
-/
import Mathlib

namespace Stax.Lib

/-- At most `capacity` entries with distinct keys, the most recently used first. -/
structure LruCache (κ ν : Type*) where
  capacity : ℕ
  entries : List (κ × ν) := []
  capacity_pos : 0 < capacity
  bounded : entries.length ≤ capacity := by simp
  distinct : (entries.map Prod.fst).Nodup := by simp

namespace LruCache

variable {κ ν : Type*} [DecidableEq κ]

/-- The entries other than the one of `k`. -/
def others (k : κ) (entries : List (κ × ν)) : List (κ × ν) :=
  entries.filter fun e => e.1 ≠ k

/-- The entry of `k` at the front, the ones behind it cut to the capacity. -/
def put (k : κ) (v : ν) (cache : LruCache κ ν) : LruCache κ ν where
  capacity := cache.capacity
  entries := (k, v) :: (others k cache.entries).take (cache.capacity - 1)
  capacity_pos := cache.capacity_pos
  bounded := by
    have hpos := cache.capacity_pos
    rw [List.length_cons, List.length_take]
    omega
  distinct := by
    have hsub : ((others k cache.entries).take (cache.capacity - 1)).Sublist cache.entries :=
      (List.take_sublist _ _).trans List.filter_sublist
    rw [List.map_cons, List.nodup_cons]
    refine ⟨?_, cache.distinct.sublist (hsub.map Prod.fst)⟩
    intro hk
    obtain ⟨e, he, hek⟩ := List.mem_map.mp hk
    have hother := List.mem_of_mem_take he
    exact of_decide_eq_true (List.mem_filter.mp hother).2 hek

/-- The value of `k`, which is now the most recently used. -/
def get (k : κ) (cache : LruCache κ ν) : Option ν × LruCache κ ν :=
  match cache.entries.find? (·.1 = k) with
  | some e => (some e.2, cache.put k e.2)
  | none => (none, cache)

/-- The cached value of `k`, or else the one of `f`, which is put in the cache. -/
def memo (f : κ → ν) (k : κ) (cache : LruCache κ ν) : ν × LruCache κ ν :=
  match cache.get k with
  | (some v, cache) => (v, cache)
  | (none, cache) => (f k, cache.put k (f k))

/-- Every cached value is the one of `f`. -/
def Sound (f : κ → ν) (cache : LruCache κ ν) : Prop := ∀ e ∈ cache.entries, e.2 = f e.1

variable {f : κ → ν} {cache : LruCache κ ν}

omit [DecidableEq κ] in
theorem sound_of_entries_nil (h : cache.entries = []) : cache.Sound f := by
  intro e he
  rw [h] at he
  cases he

theorem Sound.put (h : cache.Sound f) (k : κ) : (cache.put k (f k)).Sound f := by
  intro e he
  rcases List.mem_cons.mp he with rfl | he
  · rfl
  · exact h e (List.mem_filter.mp (List.mem_of_mem_take he)).1

/-- A sound cache answers with the function's value. -/
theorem Sound.get (h : cache.Sound f) (k : κ) :
    (∀ v, (cache.get k).1 = some v → v = f k) ∧ (cache.get k).2.Sound f := by
  unfold LruCache.get
  cases he : cache.entries.find? (·.1 = k) with
  | none =>
      refine ⟨fun v hv => ?_, h⟩
      cases hv
  | some e =>
      have hfound := List.find?_some he
      have hkey : e.1 = k := of_decide_eq_true hfound
      have hval : e.2 = f k := by
        rw [← hkey]
        exact h e (List.mem_of_find?_eq_some he)
      refine ⟨fun v hv => (Option.some.inj hv).symm.trans hval, ?_⟩
      show (cache.put k e.2).Sound f
      rw [hval]
      exact h.put k

/-- Asking a sound cache is computing the value, and leaves it sound. -/
theorem Sound.memo (h : cache.Sound f) (k : κ) :
    (cache.memo f k).1 = f k ∧ (cache.memo f k).2.Sound f := by
  obtain ⟨hvalue, hsound⟩ := h.get k
  unfold LruCache.memo
  rcases hget : cache.get k with ⟨v, after⟩
  rw [hget] at hvalue hsound
  cases v with
  | some v => exact ⟨hvalue v rfl, hsound⟩
  | none => exact ⟨rfl, hsound.put k⟩

end LruCache

end Stax.Lib
