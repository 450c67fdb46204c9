/-
# Stax.Lib.Machine — runs of a machine whose actions are chosen from outside.

A machine takes an action in a state where the action is possible.  A run takes actions one after
the other, and may be asked that each of its steps meets a condition on the state it starts from.
What holds at first and is kept by every step that meets the condition holds wherever such a run
goes; a run that can be computed can be checked for its condition on the way.
-/
import Mathlib

namespace Stax.Lib

namespace Machine

variable {σ α : Type*} {step : σ → α → Option σ} {cond cond' : σ → α → Prop}
  {s s' s'' : σ} {actions later : List α}

variable (step) in
/-- Runs each of whose steps meets the condition. -/
inductive Runs (cond : σ → α → Prop) : σ → List α → σ → Prop
  | nil (s : σ) : Runs cond s [] s
  | cons {s s' s'' : σ} {a : α} {actions : List α} (hcond : cond s a) (hstep : step s a = some s')
      (hrest : Runs cond s' actions s'') : Runs cond s (a :: actions) s''

/-- No condition at all. -/
def Any (_ : σ) (_ : α) : Prop := True

/-- What a run's every step keeps, the run keeps. -/
theorem Runs.invariant {p : σ → Prop}
    (hkeep : ∀ s a s', p s → cond s a → step s a = some s' → p s')
    (h : Runs step cond s actions s') (hp : p s) : p s' := by
  induction h with
  | nil s => exact hp
  | cons hcond hstep hrest ih => exact ih (hkeep _ _ _ hp hcond hstep)

theorem Runs.append (h : Runs step cond s actions s') (hlater : Runs step cond s' later s'') :
    Runs step cond s (actions ++ later) s'' := by
  induction h with
  | nil s => exact hlater
  | cons hcond hstep hrest ih => exact Runs.cons hcond hstep (ih hlater)

theorem Runs.snoc {a : α} (h : Runs step cond s actions s') (hcond : cond s' a)
    (hstep : step s' a = some s'') : Runs step cond s (actions ++ [a]) s'' :=
  h.append (Runs.cons hcond hstep (Runs.nil s''))

/-- What is kept of the actions so far and the state they led to. -/
theorem Runs.history {p : List α → σ → Prop} (h : Runs step cond s actions s') (hstart : p [] s)
    (hkeep : ∀ before s₁ a s₂, Runs step cond s before s₁ → p before s₁ → cond s₁ a →
      step s₁ a = some s₂ → p (before ++ [a]) s₂) : p actions s' := by
  have hgo : ∀ {s₁ : σ} {rest : List α} {s₂ : σ}, Runs step cond s₁ rest s₂ → ∀ before,
      Runs step cond s before s₁ → p before s₁ → p (before ++ rest) s₂ := by
    intro s₁ rest s₂ hrest
    induction hrest with
    | nil s₁ =>
        intro before _ hp
        rwa [List.append_nil]
    | cons hcond hstep _ ih =>
        intro before hbefore hp
        rw [List.append_cons]
        exact ih _ (hbefore.snoc hcond hstep) (hkeep _ _ _ _ hbefore hp hcond hstep)
  exact hgo h [] (Runs.nil s) hstart

theorem Runs.imp (hcond : ∀ s a, cond s a → cond' s a) (h : Runs step cond s actions s') :
    Runs step cond' s actions s' := by
  induction h with
  | nil s => exact Runs.nil s
  | cons hmeets hstep hrest ih => exact Runs.cons (hcond _ _ hmeets) hstep ih

theorem Runs.and (h : Runs step cond s actions s') (h' : Runs step cond' s actions s') :
    Runs step (fun s a => cond s a ∧ cond' s a) s actions s' := by
  induction h with
  | nil s => exact Runs.nil s
  | cons hmeets hstep hrest ih =>
      cases h' with
      | cons hmeets' hstep' hrest' =>
          obtain rfl := Option.some_inj.mp (hstep.symm.trans hstep')
          exact Runs.cons ⟨hmeets, hmeets'⟩ hstep (ih hrest')

/-- A run's condition may be read off its actions. -/
theorem Runs.of_mem (h : Runs step cond s actions s') (hcond : ∀ s, ∀ a ∈ actions, cond' s a) :
    Runs step cond' s actions s' := by
  induction h with
  | nil s => exact Runs.nil s
  | cons hmeets hstep hrest ih =>
      exact Runs.cons (hcond _ _ List.mem_cons_self) hstep
        (ih fun s a ha => hcond s a (List.mem_cons_of_mem _ ha))

/-! ## What a machine can be led to -/

variable (step) in
/-- Some run leads to a state like this. -/
def Leads (s : σ) (p : σ → Prop) : Prop := ∃ actions s', Runs step Any s actions s' ∧ p s'

variable {p q : σ → Prop}

theorem Leads.here (h : p s) : Leads step s p := ⟨[], s, Runs.nil s, h⟩

theorem Leads.trans (h : Leads step s p) (hrest : ∀ s', p s' → Leads step s' q) :
    Leads step s q := by
  obtain ⟨actions, s', hruns, hp⟩ := h
  obtain ⟨later, s'', hlater, hq⟩ := hrest s' hp
  exact ⟨actions ++ later, s'', hruns.append hlater, hq⟩

theorem Leads.imp (hpq : ∀ s', p s' → q s') (h : Leads step s p) : Leads step s q :=
  h.trans fun s' hp => Leads.here (hpq s' hp)

variable (step) in
/-- Some run whose steps meet the condition leads to a state like this. -/
def LeadsBy (cond : σ → α → Prop) (s : σ) (p : σ → Prop) : Prop :=
  ∃ actions s', Runs step cond s actions s' ∧ p s'

theorem LeadsBy.here (h : p s) : LeadsBy step cond s p := ⟨[], s, Runs.nil s, h⟩

theorem LeadsBy.next {a : α} (hcond : cond s a) (hstep : step s a = some s')
    (h : LeadsBy step cond s' p) : LeadsBy step cond s p := by
  obtain ⟨actions, s'', hruns, hp⟩ := h
  exact ⟨a :: actions, s'', Runs.cons hcond hstep hruns, hp⟩

theorem LeadsBy.imp (hcond : ∀ s a, cond s a → cond' s a) (hpq : ∀ s', p s' → q s')
    (h : LeadsBy step cond s p) : LeadsBy step cond' s q := by
  obtain ⟨actions, s', hruns, hp⟩ := h
  exact ⟨actions, s', hruns.imp hcond, hpq s' hp⟩

theorem LeadsBy.leads (h : LeadsBy step cond s p) : Leads step s p := by
  obtain ⟨actions, s', hruns, hp⟩ := h
  exact ⟨actions, s', hruns.imp fun _ _ _ => trivial, hp⟩

/-! ## Machines that are never stuck -/

/-- Where each step keeps an invariant just when it meets a condition, the invariant holds all the
way through a run just when every step meets the condition. -/
theorem invariant_along_iff {next : σ → α → σ} {known inv : σ → Prop} {meets : σ → α → Prop}
    (hknown : ∀ s a, known s → known (next s a))
    (hstep : ∀ s a, known s → inv s → (inv (next s a) ↔ meets s a)) (hs : known s) (hinv : inv s) :
    (∀ before, before <+: actions → inv (before.foldl next s)) ↔
      ∀ before a after, actions = before ++ a :: after → meets (before.foldl next s) a := by
  have hknowns (before : List α) : known (before.foldl next s) := by
    induction before using List.reverseRecOn with
    | nil => exact hs
    | append_singleton before a ih =>
        rw [List.foldl_append]
        exact hknown _ a ih
  constructor
  · intro hall before a after hactions
    have hbefore : inv (before.foldl next s) := hall before (hactions ▸ List.prefix_append _ _)
    refine (hstep _ a (hknowns before) hbefore).mp ?_
    have hlater := hall (before ++ [a]) ⟨after, by rw [hactions, List.append_assoc]; rfl⟩
    rwa [List.foldl_append] at hlater
  · intro hall before
    induction before using List.reverseRecOn with
    | nil => exact fun _ => hinv
    | append_singleton before a ih =>
        rintro ⟨after, hactions⟩
        have hsplit : actions = before ++ a :: after := by
          rw [← hactions, List.append_assoc, List.singleton_append]
        rw [List.foldl_append]
        exact (hstep _ a (hknowns before) (ih ⟨a :: after, hsplit.symm⟩)).mpr
          (hall before a after hsplit)

/-! ## Computed runs -/

variable (step cond) in
/-- Taking actions one after the other, as long as the condition is met. -/
def runIf [∀ s a, Decidable (cond s a)] (s : σ) : List α → Option σ
  | [] => some s
  | a :: actions =>
    if cond s a then (step s a).bind fun s' => runIf s' actions else none

theorem runs_of_runIf [∀ s a, Decidable (cond s a)] (h : runIf step cond s actions = some s') :
    Runs step cond s actions s' := by
  induction actions generalizing s with
  | nil =>
      obtain rfl := Option.some_inj.mp h
      exact Runs.nil s
  | cons a actions ih =>
      rw [runIf] at h
      split_ifs at h with hcond
      obtain ⟨next, hstep, hrest⟩ := Option.bind_eq_some_iff.mp h
      exact Runs.cons hcond hstep (ih hrest)

/-- A run that can be computed exists, and ends in a state that can be checked. -/
theorem exists_runs_of_runIf [∀ s a, Decidable (cond s a)] {p : σ → Prop} [DecidablePred p]
    (h : (runIf step cond s actions).any (fun s' => p s') = true) :
    ∃ s', Runs step cond s actions s' ∧ p s' := by
  obtain ⟨s', hrun, hp⟩ := (Option.any_eq_true _ _).mp h
  exact ⟨s', runs_of_runIf hrun, of_decide_eq_true hp⟩

/-- The same for a run that goes on from where another one ends. -/
theorem exists_runs_of_runIf_later [∀ s a, Decidable (cond s a)] [∀ s a, Decidable (cond' s a)]
    {p : σ → σ → Prop} [∀ s s', Decidable (p s s')]
    (h : (runIf step cond s actions).any (fun s' =>
      (runIf step cond' s' later).any fun s'' => p s' s'') = true) :
    ∃ s' s'', Runs step cond s actions s' ∧ Runs step cond' s' later s'' ∧ p s' s'' := by
  obtain ⟨s', hrun, h⟩ := (Option.any_eq_true _ _).mp h
  obtain ⟨s'', hlater, hp⟩ := exists_runs_of_runIf h
  exact ⟨s', s'', runs_of_runIf hrun, hlater, hp⟩

instance (s : σ) (a : α) : Decidable (Any s a) := isTrue trivial

end Machine

end Stax.Lib
