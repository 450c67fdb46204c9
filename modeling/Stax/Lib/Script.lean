/-
# Stax.Lib.Script — programs that issue commands and go by what they are answered.

A script issues commands one after the other, is answered from outside, and ends with a value or an
error.  The answers are a function of the command's position, so a pattern of answers is given at
once for all runs; the trace has every command with its answer.  Two shapes of scripts are known by
their traces: all commands of a list whatever is answered, and the commands of a list up to the first
one whose answer is refused.
-/
import Mathlib

namespace Stax.Lib

/-- A program over commands of `κ`, answers of `ρ` and errors of `ε`. -/
def Script (κ ρ ε α : Type) : Type := (ℕ → ρ) → List (κ × ρ) → Except ε α × List (κ × ρ)

namespace Script

variable {κ ρ ε α β : Type}

/-- Issues the command. -/
def issue (c : κ) : Script κ ρ ε ρ := fun answers trace =>
  (.ok (answers trace.length), trace ++ [(c, answers trace.length)])

/-- A result that is known without any call. -/
def ofExcept (r : Except ε α) : Script κ ρ ε α := fun _ trace => (r, trace)

/-- How the script ends, as a value. -/
def result (m : Script κ ρ ε α) : Script κ ρ ε (Except ε α) := fun answers trace =>
  (.ok (m answers trace).1, (m answers trace).2)

instance : Monad (Script κ ρ ε) where
  pure a := ofExcept (.ok a)
  bind m f := fun answers trace =>
    match m answers trace with
    | (.ok a, trace) => f a answers trace
    | (.error e, trace) => (.error e, trace)

theorem pure_apply (a : α) (answers : ℕ → ρ) (trace : List (κ × ρ)) :
    (pure a : Script κ ρ ε α) answers trace = (.ok a, trace) := rfl

theorem bind_apply (m : Script κ ρ ε α) (f : α → Script κ ρ ε β) (answers : ℕ → ρ)
    (trace : List (κ × ρ)) :
    (m >>= f) answers trace =
      match m answers trace with
      | (.ok a, trace) => f a answers trace
      | (.error e, trace) => (.error e, trace) := rfl

theorem result_bind_apply (m : Script κ ρ ε α) (f : Except ε α → Script κ ρ ε β)
    (answers : ℕ → ρ) (trace : List (κ × ρ)) :
    (m.result >>= f) answers trace = f (m answers trace).1 answers (m answers trace).2 := rfl

instance : LawfulMonad (Script κ ρ ε) := by
  refine LawfulMonad.mk' (Script κ ρ ε) ?_ (fun _ _ => rfl) ?_
  · intro α m
    funext answers trace
    change (m >>= fun a => pure a) answers trace = m answers trace
    rw [bind_apply]
    rcases m answers trace with ⟨r | r, trace⟩ <;> rfl
  · intro α β γ m f g
    funext answers trace
    rw [bind_apply, bind_apply, bind_apply]
    rcases m answers trace with ⟨r | r, trace⟩ <;> rfl

/-! ## Lists of commands -/

/-- The commands of the list, whatever is answered. -/
def issueAll : List κ → Script κ ρ ε Unit
  | [] => pure ()
  | c :: cs => do
    let _ ← issue c
    issueAll cs

/-- Issues the command, and ends in an error if the answer is refused. -/
def attempt (check : κ → ρ → Except ε Unit) (c : κ) : Script κ ρ ε Unit := do
  let answer ← issue c
  ofExcept (check c answer)

/-- The commands of the list up to the first whose answer is refused. -/
def attemptAll (check : κ → ρ → Except ε Unit) : List κ → Script κ ρ ε Unit
  | [] => pure ()
  | c :: cs => do
    attempt check c
    attemptAll check cs

/-- The commands with their answers, from the `n`-th answer on. -/
def answered (answers : ℕ → ρ) : ℕ → List κ → List (κ × ρ)
  | _, [] => []
  | n, c :: cs => (c, answers n) :: answered answers (n + 1) cs

/-- The commands of the list that are issued when the first refusal ends them. -/
def attempted (check : κ → ρ → Except ε Unit) (answers : ℕ → ρ) : ℕ → List κ → List (κ × ρ)
  | _, [] => []
  | n, c :: cs =>
    (c, answers n) ::
      match check c (answers n) with
      | .ok () => attempted check answers (n + 1) cs
      | .error _ => []

/-- The first refusal. -/
def firstRefusal (check : κ → ρ → Except ε Unit) (answers : ℕ → ρ) : ℕ → List κ → Except ε Unit
  | _, [] => .ok ()
  | n, c :: cs =>
    match check c (answers n) with
    | .ok () => firstRefusal check answers (n + 1) cs
    | .error e => .error e

theorem issueAll_apply (cs : List κ) (answers : ℕ → ρ) (trace : List (κ × ρ)) :
    (issueAll cs : Script κ ρ ε Unit) answers trace =
      (.ok (), trace ++ answered answers trace.length cs) := by
  induction cs generalizing trace with
  | nil => simp [issueAll, answered, pure_apply]
  | cons c cs ih =>
      rw [issueAll, bind_apply]
      simp only [issue]
      rw [ih, List.length_append, List.length_singleton, List.append_assoc]
      rfl

/-- Calls are issued up to the first that is refused, and the trace has those that were issued. -/
theorem attemptAll_apply (check : κ → ρ → Except ε Unit) (cs : List κ) (answers : ℕ → ρ)
    (trace : List (κ × ρ)) :
    attemptAll check cs answers trace =
      (firstRefusal check answers trace.length cs,
        trace ++ attempted check answers trace.length cs) := by
  induction cs generalizing trace with
  | nil => simp [attemptAll, attempted, firstRefusal, pure_apply]
  | cons c cs ih =>
      have hfirst : attempt check c answers trace =
          (check c (answers trace.length), trace ++ [(c, answers trace.length)]) := rfl
      rw [attemptAll, bind_apply, hfirst, attempted, firstRefusal]
      cases hcheck : check c (answers trace.length) with
      | error e => rfl
      | ok _ =>
          dsimp only
          rw [ih, List.length_append, List.length_singleton, List.append_assoc]
          rfl

theorem attemptAll_append (check : κ → ρ → Except ε Unit) (cs cs' : List κ) :
    attemptAll check (cs ++ cs') = attemptAll check cs >>= fun _ => attemptAll check cs' := by
  induction cs with
  | nil => rfl
  | cons c cs ih => rw [List.cons_append, attemptAll, ih, attemptAll, bind_assoc]

theorem length_answered (answers : ℕ → ρ) (n : ℕ) (cs : List κ) :
    (answered answers n cs).length = cs.length := by
  induction cs generalizing n with
  | nil => rfl
  | cons c cs ih => rw [answered, List.length_cons, ih, List.length_cons]

theorem mem_answered {answers : ℕ → ρ} {n : ℕ} {cs : List κ} {c : κ} (h : c ∈ cs) :
    c ∈ (answered answers n cs).map Prod.fst := by
  induction cs generalizing n with
  | nil => exact absurd h List.not_mem_nil
  | cons first cs ih =>
      rw [answered, List.map_cons, List.mem_cons]
      rcases List.mem_cons.mp h with rfl | h
      · exact Or.inl rfl
      · exact Or.inr (ih h)

theorem mem_of_mem_answered {answers : ℕ → ρ} {n : ℕ} {cs : List κ} {entry : κ × ρ}
    (h : entry ∈ answered answers n cs) : entry.1 ∈ cs := by
  induction cs generalizing n with
  | nil => exact absurd h List.not_mem_nil
  | cons first cs ih =>
      rw [answered, List.mem_cons] at h
      rcases h with rfl | h
      · exact List.mem_cons_self
      · exact List.mem_cons_of_mem _ (ih h)

theorem mem_of_mem_attempted {check : κ → ρ → Except ε Unit} {answers : ℕ → ρ} {n : ℕ}
    {cs : List κ} {entry : κ × ρ} (h : entry ∈ attempted check answers n cs) : entry.1 ∈ cs := by
  induction cs generalizing n with
  | nil => exact absurd h List.not_mem_nil
  | cons first cs ih =>
      rw [attempted, List.mem_cons] at h
      rcases h with rfl | h
      · exact List.mem_cons_self
      · split at h
        · exact List.mem_cons_of_mem _ (ih h)
        · exact absurd h List.not_mem_nil

/-- Commands that are all accepted are issued up to each of them, and what is issued after it are
later commands. -/
theorem attempted_split {check : κ → ρ → Except ε Unit} {answers : ℕ → ρ} {n : ℕ}
    {before : List κ} {c : κ} (h : firstRefusal check answers n (before ++ [c]) = .ok ())
    (after : List κ) :
    ∃ a, check c a = .ok () ∧ ∃ rest, attempted check answers n (before ++ c :: after) =
      answered answers n before ++ (c, a) :: rest ∧ ∀ entry ∈ rest, entry.1 ∈ after := by
  induction before generalizing n with
  | nil =>
      rw [List.nil_append, firstRefusal] at h
      have hcheck : check c (answers n) = .ok () := by
        cases hcheck : check c (answers n) with
        | ok _ => rfl
        | error e => simp [hcheck] at h
      refine ⟨answers n, hcheck, attempted check answers (n + 1) after, ?_, fun entry hentry =>
        mem_of_mem_attempted hentry⟩
      rw [List.nil_append, attempted, hcheck]
      rfl
  | cons first before ih =>
      rw [List.cons_append, firstRefusal] at h
      cases hcheck : check first (answers n) with
      | error e => simp [hcheck] at h
      | ok _ =>
          rw [hcheck] at h
          obtain ⟨a, ha, rest, hrest, hafter⟩ := ih h
          refine ⟨a, ha, rest, ?_, hafter⟩
          rw [List.cons_append, attempted, hcheck, answered, List.cons_append]
          exact congrArg _ hrest

/-- A command that was issued and accepted comes after commands that were accepted. -/
theorem split_of_mem_attempted {check : κ → ρ → Except ε Unit} {answers : ℕ → ρ} {n : ℕ}
    {cs : List κ} {c : κ} {a : ρ} (hmem : (c, a) ∈ attempted check answers n cs)
    (ha : check c a = .ok ()) :
    ∃ before after, cs = before ++ c :: after ∧
      firstRefusal check answers n (before ++ [c]) = .ok () := by
  induction cs generalizing n with
  | nil => exact absurd hmem List.not_mem_nil
  | cons first cs ih =>
      rw [attempted, List.mem_cons] at hmem
      rcases hmem with heq | hmem
      · obtain ⟨rfl, rfl⟩ := Prod.mk.inj heq
        refine ⟨[], cs, rfl, ?_⟩
        rw [List.nil_append, firstRefusal, ha]
        rfl
      · cases hcheck : check first (answers n) with
        | error e => simp [hcheck] at hmem
        | ok _ =>
            rw [hcheck] at hmem
            obtain ⟨before, after, rfl, hbefore⟩ := ih hmem
            refine ⟨first :: before, after, rfl, ?_⟩
            rw [List.cons_append, firstRefusal, hcheck]
            exact hbefore

/-! ## Scripts that issue certain commands only -/

/-- The script adds to the trace, and only commands with the property. -/
def OnlyIssues (p : κ → Prop) (m : Script κ ρ ε α) : Prop :=
  ∀ answers trace, ∃ issued, (m answers trace).2 = trace ++ issued ∧ ∀ entry ∈ issued, p entry.1

variable {p : κ → Prop} {m : Script κ ρ ε α}

theorem onlyIssues_ofExcept (r : Except ε α) : OnlyIssues p (ofExcept r : Script κ ρ ε α) :=
  fun _ trace => ⟨[], (List.append_nil trace).symm, fun _ h => absurd h List.not_mem_nil⟩

theorem onlyIssues_pure (a : α) : OnlyIssues p (pure a : Script κ ρ ε α) :=
  onlyIssues_ofExcept (.ok a)

theorem onlyIssues_issue {c : κ} (h : p c) : OnlyIssues p (issue c : Script κ ρ ε ρ) :=
  fun answers trace => ⟨[(c, answers trace.length)], rfl, fun entry hentry => by
    rw [List.mem_singleton.mp hentry]
    exact h⟩

/-- A sequence issues only what its parts issue. -/
theorem OnlyIssues.bind {f : α → Script κ ρ ε β} (h : OnlyIssues p m)
    (hf : ∀ a, OnlyIssues p (f a)) : OnlyIssues p (m >>= f) := by
  intro answers trace
  obtain ⟨first, hfirst, hp⟩ := h answers trace
  rw [bind_apply]
  rcases hm : m answers trace with ⟨r | a, after⟩
  · rw [hm] at hfirst
    exact ⟨first, hfirst, hp⟩
  · rw [hm] at hfirst
    obtain ⟨second, hsecond, hp'⟩ := hf a answers after
    refine ⟨first ++ second, ?_, ?_⟩
    · rw [← List.append_assoc, ← hfirst]
      exact hsecond
    · intro entry hentry
      rcases List.mem_append.mp hentry with hentry | hentry
      · exact hp entry hentry
      · exact hp' entry hentry

theorem OnlyIssues.result (h : OnlyIssues p m) : OnlyIssues p m.result :=
  fun answers trace => h answers trace

end Script

end Stax.Lib
