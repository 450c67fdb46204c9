/-
# Stax.Lib.LinearSearch — what is found by going through a list.

A search from end to end finds an entry by what it is and not by where it stands: the entry of a
key where keys are distinct, the one entry that passes a test, the entry with the greatest key that
is not above a given one.  So it finds the same in every order of the entries, and what a search in
a sorted list finds.
-/
import Mathlib.Data.List.MinMax
import Stax.Lib.Predecessor

namespace Stax.Lib

namespace LinearSearch

variable {α : Type*}

/-- Where one entry at most passes a test, it is found in any order. -/
theorem find?_eq_of_perm {p : α → Bool} {l l' : List α} (hperm : l.Perm l')
    (hone : ∀ a ∈ l, ∀ b ∈ l, p a = true → p b = true → a = b) : l.find? p = l'.find? p := by
  apply Option.ext
  intro a
  have hfound : ∀ {m : List α}, (∀ b ∈ m, ∀ c ∈ m, p b = true → p c = true → b = c) →
      (m.find? p = some a ↔ a ∈ m ∧ p a = true) := by
    intro m hm
    constructor
    · intro h
      exact ⟨List.mem_of_find?_eq_some h, List.find?_some h⟩
    · rintro ⟨hmem, hp⟩
      cases hfind : m.find? p with
      | none => exact absurd hp (List.find?_eq_none.mp hfind a hmem)
      | some b =>
          rw [hm b (List.mem_of_find?_eq_some hfind) a hmem (List.find?_some hfind) hp]
  have hone' : ∀ b ∈ l', ∀ c ∈ l', p b = true → p c = true → b = c := by
    intro b hb c hc
    exact hone b (hperm.mem_iff.mpr hb) c (hperm.mem_iff.mpr hc)
  rw [hfound hone, hfound hone', hperm.mem_iff]

/-- Where one entry at most passes a test, erasing the first that does leaves those that do not. -/
theorem eraseP_eq_filter {p : α → Bool} {l : List α}
    (hone : l.Pairwise fun a b => p a = true → p b = false) :
    l.eraseP p = l.filter fun a => !p a := by
  induction l with
  | nil => rfl
  | cons a l ih =>
      obtain ⟨hhead, htail⟩ := List.pairwise_cons.mp hone
      cases hp : p a with
      | true =>
          rw [List.eraseP_cons_of_pos hp, List.filter_cons_of_neg (by simp [hp])]
          exact (List.filter_eq_self.mpr fun b hb => by simp [hhead b hb hp]).symm
      | false =>
          rw [List.eraseP_cons_of_neg (by simp [hp]), List.filter_cons_of_pos (by simp [hp]),
            ih htail]

/-- Where one entry at most passes a test, the last that does is the first. -/
theorem getLast?_filter_eq_find? {p : α → Bool} {l : List α} (hone : (l.filter p).length ≤ 1) :
    (l.filter p).getLast? = l.find? p := by
  rw [← List.head?_filter]
  match l.filter p, hone with
  | [], _ => rfl
  | [a], _ => rfl

/-- Where one entry at most passes a test, those that do are the same. -/
theorem eq_of_length_filter_le_one {p : α → Bool} {l : List α} (hone : (l.filter p).length ≤ 1) :
    ∀ a ∈ l, ∀ b ∈ l, p a = true → p b = true → a = b := by
  intro a ha b hb hpa hpb
  have hma : a ∈ l.filter p := List.mem_filter.mpr ⟨ha, hpa⟩
  have hmb : b ∈ l.filter p := List.mem_filter.mpr ⟨hb, hpb⟩
  obtain ⟨c, hc⟩ := List.length_eq_one_iff.mp
    (Nat.le_antisymm hone (List.length_pos_of_mem hma))
  rw [hc] at hma hmb
  rw [List.mem_singleton.mp hma, List.mem_singleton.mp hmb]

/-- The entry with the greatest key that is not above a given one. -/
def greatest (key : α → ℕ) (x : ℕ) (l : List α) : Option α :=
  (l.filter fun a => key a ≤ x).argmax key

variable {key : α → ℕ} {x : ℕ} {l : List α} {a : α}

theorem mem_greatest (h : greatest key x l = some a) :
    a ∈ l ∧ key a ≤ x ∧ ∀ b ∈ l, key b ≤ x → key b ≤ key a := by
  have hmem := List.mem_filter.mp (List.argmax_mem h)
  refine ⟨hmem.1, of_decide_eq_true hmem.2, ?_⟩
  intro b hb hle
  exact List.le_of_mem_argmax (List.mem_filter.mpr ⟨hb, decide_eq_true hle⟩) h

theorem greatest_eq_none_iff : greatest key x l = none ↔ ∀ a ∈ l, x < key a := by
  unfold greatest
  rw [List.argmax_eq_none, List.filter_eq_nil_iff]
  simp only [decide_eq_true_eq, not_le]

/-- A search in the sorted entries finds the greatest. -/
theorem predecessor_eq_greatest {l' : List α} (hsorted : l'.Pairwise fun a b => key a ≤ key b)
    (hperm : l'.Perm l) (hdistinct : (l.map key).Nodup) :
    Predecessor.predecessor key x l' = greatest key x l := by
  have hinj := List.inj_on_of_nodup_map hdistinct
  cases hfound : Predecessor.predecessor key x l' with
  | none =>
      rw [Predecessor.predecessor_eq_none_iff hsorted] at hfound
      exact (greatest_eq_none_iff.mpr fun a ha => hfound a (hperm.mem_iff.mpr ha)).symm
  | some a =>
      obtain ⟨ha, hle, hmax⟩ := Predecessor.predecessor_spec hsorted hfound
      rw [hperm.mem_iff] at ha
      cases hgreatest : greatest key x l with
      | none =>
          have hlt := greatest_eq_none_iff.mp hgreatest a ha
          omega
      | some b =>
          obtain ⟨hb, hble, hbmax⟩ := mem_greatest hgreatest
          have hkey : key a = key b :=
            Nat.le_antisymm (hbmax a ha hle) (hmax b (hperm.mem_iff.mpr hb) hble)
          rw [hinj ha hb hkey]

/-- The entry of a key that no other entry has. -/
theorem find?_key {κ β : Type*} [DecidableEq κ] {es : List (κ × β)}
    (hdistinct : (es.map Prod.fst).Nodup) {k : κ} {b : β} (h : (k, b) ∈ es) :
    es.find? (fun e => e.1 = k) = some (k, b) := by
  have hinj := List.inj_on_of_nodup_map hdistinct
  cases hfind : es.find? (fun e => e.1 = k) with
  | none => exact absurd (decide_eq_true rfl) (List.find?_eq_none.mp hfind (k, b) h)
  | some e =>
      have htest := List.find?_some hfind
      have hkey : e.1 = k := of_decide_eq_true htest
      rw [hinj (List.mem_of_find?_eq_some hfind) h hkey]

end LinearSearch

end Stax.Lib
