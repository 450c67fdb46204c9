/-
# Stax.Lib.Grouping — accumulating a list under keys.

`group` reads a list once and keeps one entry a key: the first element with a key starts its entry,
and every element is added to the entry of its key.  What comes out has distinct keys, and the entry
of a key is what adding the elements with that key, in order, makes of the start.
-/
import Mathlib

namespace Stax.Lib

namespace Grouping

variable {α κ β : Type*} [DecidableEq κ]

/-- Changes the entry of `k`, started with `init` where there is none. -/
def upsert (k : κ) (init : β) (f : β → β) : List (κ × β) → List (κ × β)
  | [] => [(k, f init)]
  | e :: es => if e.1 = k then (k, f e.2) :: es else e :: upsert k init f es

/-- Changes the entry of `k` by `f`, or inserts `b` as it is where there is none. -/
def modifyOrInsert (k : κ) (f : β → β) (b : β) : List (κ × β) → List (κ × β)
  | [] => [(k, b)]
  | e :: es => if e.1 = k then (k, f e.2) :: es else e :: modifyOrInsert k f b es

/-- The entries of a list under the keys of its elements, in the order the keys first occur. -/
def group (key : α → κ) (init : α → β) (add : β → α → β) (as : List α) : List (κ × β) :=
  as.foldl (fun es a => upsert (key a) (init a) (fun b => add b a) es) []

/-- The elements with key `k`. -/
def members (key : α → κ) (k : κ) (as : List α) : List α := as.filter fun a => key a = k

/-! ## One entry -/

section Upsert

variable {k : κ} {init : β} {f : β → β}

theorem keys_upsert (es : List (κ × β)) :
    (upsert k init f es).map Prod.fst =
      if k ∈ es.map Prod.fst then es.map Prod.fst else es.map Prod.fst ++ [k] := by
  induction es with
  | nil => rfl
  | cons e es ih =>
      rw [upsert]
      split
      · rename_i hk
        simp [hk]
      · rename_i hk
        rw [List.map_cons, ih]
        simp only [List.map_cons, List.mem_cons, Ne.symm hk, false_or]
        split <;> rfl

theorem nodup_upsert {es : List (κ × β)} (h : (es.map Prod.fst).Nodup) :
    ((upsert k init f es).map Prod.fst).Nodup := by
  rw [keys_upsert]
  split
  · exact h
  · rename_i hk
    rw [← List.concat_eq_append]
    exact h.concat hk

/-- The entry of `k` is changed, or started; the others stay. -/
theorem mem_upsert {es : List (κ × β)} (h : (es.map Prod.fst).Nodup) {e : κ × β} :
    e ∈ upsert k init f es ↔
      if e.1 = k then
        (∃ b, (k, b) ∈ es ∧ e.2 = f b) ∨ (k ∉ es.map Prod.fst ∧ e.2 = f init)
      else e ∈ es := by
  obtain ⟨k', b⟩ := e
  induction es with
  | nil =>
      rw [upsert, List.mem_singleton, Prod.mk.injEq]
      split
      · simp_all
      · simp_all
  | cons e es ih =>
      obtain ⟨k₁, b₁⟩ := e
      rw [List.map_cons, List.nodup_cons] at h
      have ih := ih h.2
      have habsent (b' : β) : (k₁, b') ∉ es := by
        intro hmem
        exact h.1 (List.mem_map.mpr ⟨(k₁, b'), hmem, rfl⟩)
      rw [upsert]
      dsimp only at ih h ⊢
      rcases eq_or_ne k' k with rfl | hne
      · rw [if_pos rfl] at ih ⊢
        split
        · rename_i hk
          obtain rfl : k₁ = k' := hk
          rw [List.mem_cons, Prod.mk.injEq]
          constructor
          · rintro (⟨-, hb⟩ | hmem)
            · exact Or.inl ⟨b₁, List.mem_cons_self, hb⟩
            · exact absurd hmem (habsent b)
          · rintro (⟨b', hmem, hb⟩ | ⟨hnot, -⟩)
            · rcases List.mem_cons.mp hmem with heq | hmem
              · obtain ⟨-, rfl⟩ := Prod.mk.inj heq
                exact Or.inl ⟨rfl, hb⟩
              · exact absurd hmem (habsent b')
            · exact absurd List.mem_cons_self hnot
        · rename_i hk
          rw [List.mem_cons, ih, List.map_cons, List.mem_cons]
          simp [Ne.symm hk]
      · rw [if_neg hne] at ih ⊢
        split
        · rename_i hk
          obtain rfl : k₁ = k := hk
          simp [hne]
        · rw [List.mem_cons, List.mem_cons, ih]

theorem sum_upsert_le {g : β → ℕ} {c : ℕ} (hinit : g (f init) ≤ c)
    (hadd : ∀ b, g (f b) ≤ g b + c) (es : List (κ × β)) :
    ((upsert k init f es).map fun e => g e.2).sum ≤ (es.map fun e => g e.2).sum + c := by
  induction es with
  | nil => simpa [upsert] using hinit
  | cons e es ih =>
      rw [upsert]
      split
      · have hone := hadd e.2
        simp only [List.map_cons, List.sum_cons]
        omega
      · simp only [List.map_cons, List.sum_cons]
        omega

end Upsert

/-- Inserting what a change makes of the start is changing the start. -/
theorem modifyOrInsert_eq_upsert (k : κ) (f : β → β) (init : β) (es : List (κ × β)) :
    modifyOrInsert k f (f init) es = upsert k init f es := by
  induction es with
  | nil => rfl
  | cons e es ih => rw [modifyOrInsert, upsert, ih]

/-! ## All entries -/

variable {key : α → κ} {init : α → β} {add : β → α → β}

theorem group_concat (as : List α) (a : α) :
    group key init add (as ++ [a]) =
      upsert (key a) (init a) (fun b => add b a) (group key init add as) := by
  simp [group]

theorem nodup_group (as : List α) : ((group key init add as).map Prod.fst).Nodup := by
  induction as using List.reverseRecOn with
  | nil => exact List.nodup_nil
  | append_singleton as a ih =>
      rw [group_concat]
      exact nodup_upsert ih

/-- The entries are the keys that occur, each with its elements added up. -/
theorem mem_group {as : List α} {e : κ × β} :
    e ∈ group key init add as ↔
      ∃ a rest, members key e.1 as = a :: rest ∧ e.2 = (a :: rest).foldl add (init a) := by
  induction as using List.reverseRecOn generalizing e with
  | nil => simp [group, members]
  | append_singleton as a ih =>
      obtain ⟨k, b⟩ := e
      rw [group_concat, mem_upsert (nodup_group as)]
      dsimp only
      rcases eq_or_ne k (key a) with rfl | hne
      · have hmembers : members key (key a) (as ++ [a]) = members key (key a) as ++ [a] := by
          simp [members]
        rw [if_pos rfl, hmembers]
        cases hold : members key (key a) as with
        | nil =>
            have hnone : key a ∉ (group key init add as).map Prod.fst := by
              intro hmem
              obtain ⟨⟨k, b'⟩, he, rfl⟩ := List.mem_map.mp hmem
              obtain ⟨a', rest, hcons, -⟩ := ih.mp he
              rw [hold] at hcons
              cases hcons
            constructor
            · rintro (⟨b', hmem, -⟩ | ⟨-, rfl⟩)
              · exact absurd (List.mem_map_of_mem hmem) hnone
              · exact ⟨a, [], rfl, rfl⟩
            · rintro ⟨a', rest, hcons, rfl⟩
              obtain ⟨rfl, rfl⟩ := List.cons.inj hcons
              exact Or.inr ⟨hnone, rfl⟩
        | cons a₀ rest₀ =>
            have hentry : (key a, (a₀ :: rest₀).foldl add (init a₀)) ∈ group key init add as :=
              ih.mpr ⟨a₀, rest₀, hold, rfl⟩
            constructor
            · rintro (⟨b', hmem, rfl⟩ | ⟨hnot, -⟩)
              · obtain ⟨a', rest, hcons, hb⟩ := ih.mp hmem
                rw [hold] at hcons
                obtain ⟨rfl, rfl⟩ := List.cons.inj hcons
                dsimp only at hb
                exact ⟨a₀, rest₀ ++ [a], rfl, by rw [hb]; simp⟩
              · exact absurd (List.mem_map_of_mem hentry) hnot
            · rintro ⟨a', rest, hcons, rfl⟩
              obtain ⟨rfl, rfl⟩ := List.cons.inj hcons
              exact Or.inl ⟨_, hentry, by simp⟩
      · have hmembers : members key k (as ++ [a]) = members key k as := by
          simp [members, hne.symm]
        rw [if_neg hne, hmembers]
        exact ih

theorem mem_keys_group {as : List α} {k : κ} :
    k ∈ (group key init add as).map Prod.fst ↔ members key k as ≠ [] := by
  constructor
  · intro hmem
    obtain ⟨e, he, rfl⟩ := List.mem_map.mp hmem
    obtain ⟨a, rest, hcons, -⟩ := mem_group.mp he
    rw [hcons]
    exact List.cons_ne_nil a rest
  · intro hne
    obtain ⟨a, rest, hcons⟩ := List.exists_cons_of_ne_nil hne
    exact List.mem_map.mpr ⟨(k, (a :: rest).foldl add (init a)),
      mem_group.mpr ⟨a, rest, hcons, rfl⟩, rfl⟩

/-! ## Sums over entries -/

/-- Among entries with distinct keys only one is chosen by its key. -/
theorem sum_ite_key {M : Type*} [AddCommMonoid M] {es : List (κ × β)}
    (h : (es.map Prod.fst).Nodup) (k : κ) (z : M) :
    (es.map fun e => if e.1 = k then z else 0).sum =
      if k ∈ es.map Prod.fst then z else 0 := by
  induction es with
  | nil => simp
  | cons e es ih =>
      rw [List.map_cons, List.nodup_cons] at h
      rw [List.map_cons, List.sum_cons, ih h.2, List.map_cons]
      rcases eq_or_ne e.1 k with rfl | hne
      · rw [if_pos rfl, if_neg h.1, if_pos List.mem_cons_self, add_zero]
      · rw [if_neg hne, zero_add]
        exact if_congr (by simp [hne.symm]) rfl rfl

/-- A sum over the elements with a key. -/
theorem sum_members_eq {M : Type*} [AddCommMonoid M] (k : κ) (w : α → M) (as : List α) :
    ((members key k as).map w).sum = (as.map fun a => if key a = k then w a else 0).sum := by
  unfold members
  induction as with
  | nil => rfl
  | cons a as ih =>
      rw [List.filter_cons, List.map_cons, List.sum_cons, ← ih]
      by_cases hk : key a = k
      · simp [hk]
      · simp [hk]

/-- The elements are the members of the keys that occur. -/
theorem sum_members {M : Type*} [AddCommMonoid M] (w : α → M) {ks : List κ} (h : ks.Nodup)
    {as : List α} (hmem : ∀ a ∈ as, key a ∈ ks) :
    (ks.map fun k => ((members key k as).map w).sum).sum = (as.map w).sum := by
  induction as with
  | nil => simp [members]
  | cons a as ih =>
      rw [List.forall_mem_cons] at hmem
      have hsplit (k : κ) : ((members key k (a :: as)).map w).sum =
          (if k = key a then w a else 0) + ((members key k as).map w).sum := by
        rw [sum_members_eq, sum_members_eq, List.map_cons, List.sum_cons]
        exact congrArg (· + _) (if_congr eq_comm rfl rfl)
      have hhere : (ks.map fun k => if k = key a then w a else 0).sum = w a := by
        have hkeys : ((ks.map fun k => (k, ())).map Prod.fst).Nodup := by
          simpa [List.map_map, Function.comp_def] using h
        have hone := sum_ite_key hkeys (key a) (w a)
        simp only [List.map_map, Function.comp_def, List.map_id'] at hone
        rw [hone, if_pos hmem.1]
      rw [List.map_congr_left fun k _ => hsplit k, List.sum_map_add, hhere, ih hmem.2,
        List.map_cons, List.sum_cons]

end Grouping

end Stax.Lib
