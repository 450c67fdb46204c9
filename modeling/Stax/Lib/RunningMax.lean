/-
# Stax.Lib.RunningMax — the first of the largest.

A running choice starts somewhere and gives way to a candidate only when that is larger.  What it
ends with is the first of the largest: at least as large as every candidate, the start itself when
no candidate is larger, and a candidate otherwise.  The order of the candidates matters only when
two of them are equally large and none is larger.
-/
import Mathlib

namespace Stax.Lib

namespace RunningMax

variable {γ : Type*} (w : γ → ℕ)

/-- A larger candidate takes over. -/
def challenge (best c : γ) : γ := if w best < w c then c else best

/-- What is left after all candidates have been tried in order. -/
def leader (start : γ) (cs : List γ) : γ := cs.foldl (challenge w) start

/-- Two of the candidates are equally large and none is larger. -/
def Tied (cs : List γ) : Prop :=
  ∃ a b rest, cs.Perm (a :: b :: rest) ∧ w a = w b ∧ ∀ c ∈ cs, w c ≤ w a

variable {w} {start : γ} {cs cs' : List γ}

theorem leader_concat (c : γ) :
    leader w start (cs ++ [c]) = challenge w (leader w start cs) c := by
  simp [leader]

theorem le_challenge (best c : γ) :
    w best ≤ w (challenge w best c) ∧ w c ≤ w (challenge w best c) := by
  unfold challenge
  split <;> omega

theorem start_le_leader : w start ≤ w (leader w start cs) := by
  induction cs using List.reverseRecOn with
  | nil => exact Nat.le_refl _
  | append_singleton cs c ih =>
      rw [leader_concat]
      exact ih.trans (le_challenge _ c).1

/-- No candidate is larger. -/
theorem le_leader : ∀ c ∈ cs, w c ≤ w (leader w start cs) := by
  induction cs using List.reverseRecOn with
  | nil => simp
  | append_singleton cs d ih =>
      intro c hc
      rw [leader_concat]
      rcases List.mem_append.mp hc with hc | hc
      · exact (ih c hc).trans (le_challenge _ d).1
      · rw [List.mem_singleton.mp hc]
        exact (le_challenge _ d).2

theorem leader_mem_cons : leader w start cs ∈ start :: cs := by
  induction cs using List.reverseRecOn with
  | nil => exact List.mem_cons_self
  | append_singleton cs c ih =>
      rw [leader_concat, challenge]
      split
      · simp
      · rw [← List.cons_append]
        exact List.mem_append_left _ ih

/-- Where no candidate is larger than the start, the start is left. -/
theorem leader_eq_start (h : ∀ c ∈ cs, w c ≤ w start) : leader w start cs = start := by
  induction cs using List.reverseRecOn with
  | nil => rfl
  | append_singleton cs c ih =>
      rw [List.forall_mem_append, List.forall_mem_singleton] at h
      rw [leader_concat, ih h.1, challenge, if_neg (Nat.not_lt.mpr h.2)]

/-- Where some candidate is larger than the start, a candidate is left. -/
theorem leader_mem {c : γ} (hc : c ∈ cs) (hlt : w start < w c) : leader w start cs ∈ cs := by
  have hcons : leader w start cs ∈ start :: cs := leader_mem_cons
  rcases List.mem_cons.mp hcons with heq | hmem
  · have hle : w c ≤ w (leader w start cs) := le_leader c hc
    rw [heq] at hle
    omega
  · exact hmem

/-! ## Order -/

/-- Without a tie one candidate alone is the largest. -/
theorem eq_of_not_tied (h : ¬ Tied w cs) {a b : γ} (ha : a ∈ cs) (hb : b ∈ cs)
    (hamax : ∀ c ∈ cs, w c ≤ w a) (hbmax : ∀ c ∈ cs, w c ≤ w b) : a = b := by
  by_contra hne
  obtain ⟨pre, post, rfl⟩ := List.append_of_mem ha
  have hfront : (pre ++ a :: post).Perm (a :: (pre ++ post)) := List.perm_middle
  have hrest : b ∈ pre ++ post := by
    rcases List.mem_cons.mp (hfront.mem_iff.mp hb) with heq | hrest
    · exact absurd heq.symm hne
    · exact hrest
  obtain ⟨pre', post', hsplit⟩ := List.append_of_mem hrest
  refine h ⟨a, b, pre' ++ post', ?_, Nat.le_antisymm (hbmax a ha) (hamax b hb), hamax⟩
  rw [hsplit] at hfront
  exact hfront.trans (List.perm_middle.cons a)

theorem Tied.perm (h : Tied w cs) (hperm : cs.Perm cs') : Tied w cs' := by
  obtain ⟨a, b, rest, hcs, heq, hmax⟩ := h
  exact ⟨a, b, rest, hperm.symm.trans hcs, heq, fun c hc => hmax c (hperm.mem_iff.mpr hc)⟩

/-- Candidates of different sizes do not tie. -/
theorem not_tied_of_nodup (h : (cs.map w).Nodup) : ¬ Tied w cs := by
  rintro ⟨a, b, rest, hcs, heq, -⟩
  have hnodup := (hcs.map w).nodup_iff.mp h
  rw [List.map_cons, List.map_cons, heq] at hnodup
  simp at hnodup

theorem tied_perm (hperm : cs.Perm cs') : Tied w cs ↔ Tied w cs' :=
  ⟨fun h => h.perm hperm, fun h => h.perm hperm.symm⟩

/-- Without a tie the order of the candidates does not matter. -/
theorem leader_perm (h : ¬ Tied w cs) (hperm : cs.Perm cs') :
    leader w start cs = leader w start cs' := by
  by_cases hstart : ∀ c ∈ cs, w c ≤ w start
  · rw [leader_eq_start hstart, leader_eq_start fun c hc => hstart c (hperm.mem_iff.mpr hc)]
  · push Not at hstart
    obtain ⟨c, hc, hlt⟩ := hstart
    have hmem' : leader w start cs' ∈ cs' := leader_mem (hperm.mem_iff.mp hc) hlt
    exact eq_of_not_tied h (leader_mem hc hlt) (hperm.mem_iff.mpr hmem') le_leader
      fun c hc => le_leader c (hperm.mem_iff.mp hc)

end RunningMax

end Stax.Lib
