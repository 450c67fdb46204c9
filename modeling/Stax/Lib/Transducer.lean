/-
# Stax.Lib.Transducer — deterministic machines that emit outputs while they read.

A `Transducer` reads its inputs one at a time; each input moves the state and emits a finite list
of outputs.  `run` is the state after a list of inputs and `outputs` everything emitted on the way.
The rules here are the ones a development over such a machine keeps needing: how runs and outputs
split at a cut, what one input keeps every run keeps, where an output comes from, when two machines
emit the same, when a component of the state only sees the inputs addressed to it, what an outbox
that is drained from time to time delivers, and what becomes of the outputs when the inputs come in
batches.
-/
import Mathlib

namespace Stax.Lib

/-- A deterministic transducer: reading one input moves the state and emits a list of outputs. -/
structure Transducer (σ ι ο : Type*) where
  step : σ → ι → σ × List ο

namespace Transducer

variable {σ τ ι ο ο' : Type*} (M : Transducer σ ι ο)

/-- The state after one input. -/
def next (s : σ) (i : ι) : σ := (M.step s i).1

/-- What one input emits. -/
def emit (s : σ) (i : ι) : List ο := (M.step s i).2

/-- The state after a list of inputs. -/
def run (s : σ) (is : List ι) : σ := is.foldl M.next s

/-- Everything a list of inputs emits, in order. -/
def outputs : σ → List ι → List ο
  | _, [] => []
  | s, i :: is => M.emit s i ++ outputs (M.next s i) is

@[simp] theorem run_nil (s : σ) : M.run s [] = s := rfl

@[simp] theorem run_cons (s : σ) (i : ι) (is : List ι) :
    M.run s (i :: is) = M.run (M.next s i) is := rfl

@[simp] theorem outputs_nil (s : σ) : M.outputs s [] = [] := rfl

@[simp] theorem outputs_cons (s : σ) (i : ι) (is : List ι) :
    M.outputs s (i :: is) = M.emit s i ++ M.outputs (M.next s i) is := rfl

theorem run_append (s : σ) (is js : List ι) :
    M.run s (is ++ js) = M.run (M.run s is) js :=
  List.foldl_append

theorem outputs_append (s : σ) (is js : List ι) :
    M.outputs s (is ++ js) = M.outputs s is ++ M.outputs (M.run s is) js := by
  induction is generalizing s with
  | nil => rfl
  | cons i is ih =>
      simp only [List.cons_append, outputs_cons, run_cons, ih, List.append_assoc]

theorem run_concat (s : σ) (is : List ι) (i : ι) :
    M.run s (is ++ [i]) = M.next (M.run s is) i := by
  rw [run_append]
  rfl

theorem outputs_concat (s : σ) (is : List ι) (i : ι) :
    M.outputs s (is ++ [i]) = M.outputs s is ++ M.emit (M.run s is) i := by
  rw [outputs_append, outputs_cons, outputs_nil, List.append_nil]

/-! ## Invariants -/

/-- A state invariant kept by every input that occurs holds after the whole list. -/
theorem run_invariant {I : σ → Prop} {s : σ} {is : List ι} (h0 : I s)
    (hstep : ∀ i ∈ is, ∀ s, I s → I (M.next s i)) : I (M.run s is) := by
  induction is generalizing s with
  | nil => exact h0
  | cons i is ih =>
      rw [run_cons]
      exact ih (hstep i (by simp) s h0) fun j hj => hstep j (List.mem_cons_of_mem i hj)

/-! ## Where an output comes from -/

/-- Every output was emitted by one input, in the state its prefix reached. -/
theorem mem_outputs {s : σ} {is : List ι} {o : ο} :
    o ∈ M.outputs s is ↔
      ∃ pre i post, is = pre ++ i :: post ∧ o ∈ M.emit (M.run s pre) i := by
  constructor
  · intro h
    induction is generalizing s with
    | nil => simp at h
    | cons i is ih =>
        rw [outputs_cons, List.mem_append] at h
        rcases h with h | h
        · exact ⟨[], i, is, rfl, h⟩
        · obtain ⟨pre, j, post, rfl, hj⟩ := ih h
          exact ⟨i :: pre, j, post, rfl, hj⟩
  · rintro ⟨pre, i, post, rfl, h⟩
    rw [outputs_append, outputs_cons]
    simp [h]

/-- Inputs that never emit produce nothing. -/
theorem outputs_eq_nil {s : σ} {is : List ι} (h : ∀ i ∈ is, ∀ s, M.emit s i = []) :
    M.outputs s is = [] := by
  induction is generalizing s with
  | nil => rfl
  | cons i is ih =>
      rw [outputs_cons, h i (by simp), ih fun j hj => h j (List.mem_cons_of_mem i hj)]
      rfl

/-- A budget that every input spends on what it emits counts the outputs. -/
theorem length_outputs_add {budget : σ → ℕ} {s : σ} {is : List ι}
    (h : ∀ i ∈ is, ∀ s, (M.emit s i).length + budget (M.next s i) = budget s) :
    (M.outputs s is).length + budget (M.run s is) = budget s := by
  induction is generalizing s with
  | nil => exact Nat.zero_add _
  | cons i is ih =>
      have hrest := ih (s := M.next s i) fun j hj => h j (List.mem_cons_of_mem i hj)
      have hhead := h i (by simp) s
      rw [outputs_cons, run_cons, List.length_append]
      omega

/-! ## Two machines in lock step -/

/-- Related states that stay related and emit the same give the same outputs. -/
theorem outputs_eq_of_lockstep (N : Transducer τ ι ο) {R : σ → τ → Prop} {s : σ} {t : τ}
    {is : List ι} (h0 : R s t)
    (hstep : ∀ i ∈ is, ∀ s t, R s t → R (M.next s i) (N.next t i) ∧ M.emit s i = N.emit t i) :
    R (M.run s is) (N.run t is) ∧ M.outputs s is = N.outputs t is := by
  induction is generalizing s t with
  | nil => exact ⟨h0, rfl⟩
  | cons i is ih =>
      obtain ⟨hR, hemit⟩ := hstep i (by simp) s t h0
      obtain ⟨hrun, hout⟩ := ih hR fun j hj => hstep j (List.mem_cons_of_mem i hj)
      exact ⟨hrun, by rw [outputs_cons, outputs_cons, hemit, hout]⟩

/-! ## A component of the state -/

/-- A component that moves by `sub` on the inputs addressed to it, and not at all on the others,
ends where `sub` takes it along the addressed inputs alone: the interleaving does not matter. -/
theorem run_component {γ : Type*} (proj : σ → γ) (sub : γ → ι → γ) (mine : ι → Bool)
    {I : σ → Prop} {s : σ} {is : List ι} (h0 : I s)
    (hI : ∀ i ∈ is, ∀ s, I s → I (M.next s i))
    (hmine : ∀ i ∈ is, ∀ s, I s → mine i = true → proj (M.next s i) = sub (proj s) i)
    (hother : ∀ i ∈ is, ∀ s, I s → mine i = false → proj (M.next s i) = proj s) :
    proj (M.run s is) = (is.filter mine).foldl sub (proj s) := by
  induction is generalizing s with
  | nil => rfl
  | cons i is ih =>
      have hrest := ih (hI i (by simp) s h0) (fun j hj => hI j (List.mem_cons_of_mem i hj))
        (fun j hj => hmine j (List.mem_cons_of_mem i hj))
        (fun j hj => hother j (List.mem_cons_of_mem i hj))
      rw [run_cons, hrest]
      cases hm : mine i with
      | true => rw [hmine i (by simp) s h0 hm, List.filter_cons_of_pos hm, List.foldl_cons]
      | false =>
          rw [hother i (by simp) s h0 hm, List.filter_cons_of_neg (by simp [hm])]

/-! ## An outbox -/

/-- An outbox that inputs push to and that is emptied into the outputs from time to time: what was
delivered followed by what is still inside is everything ever pushed, in order. -/
theorem delivered_append_outbox {β : Type*} (M : Transducer σ ι ο) (P : Transducer σ ι β)
    (box : σ → List β) (out : ο → Option β) (hnext : ∀ s i, P.next s i = M.next s i)
    (h : ∀ s i, (M.emit s i).filterMap out ++ box (M.next s i) = box s ++ P.emit s i)
    (s : σ) (is : List ι) :
    (M.outputs s is).filterMap out ++ box (M.run s is) = box s ++ P.outputs s is := by
  induction is generalizing s with
  | nil => exact (List.append_nil (box s)).symm
  | cons i is ih =>
      rw [outputs_cons, outputs_cons, run_cons, List.filterMap_append, List.append_assoc,
        ih (M.next s i), ← List.append_assoc, h s i, hnext, List.append_assoc]

/-! ## Other reports of the same steps -/

section Reporting

variable {β : Type*}

/-- The same machine, with another report of each step. -/
def reporting (f : σ → ι → List β) : Transducer σ ι β where
  step s i := (M.next s i, f s i)

/-- A box that every step adds its report to holds all the reports. -/
theorem box_run (box : σ → List β) (f : σ → ι → List β)
    (h : ∀ s i, box (M.next s i) = box s ++ f s i) (s : σ) (is : List ι) :
    box (M.run s is) = box s ++ (M.reporting f).outputs s is := by
  induction is generalizing s with
  | nil => exact (List.append_nil (box s)).symm
  | cons i is ih =>
      rw [run_cons, ih, h, outputs_cons, List.append_assoc]
      rfl

/-- Reports that agree at every step of a history give the same outputs. -/
theorem outputs_reporting_congr {f g : σ → ι → List β} {s : σ} {is : List ι}
    (h : ∀ pre i post, is = pre ++ i :: post → f (M.run s pre) i = g (M.run s pre) i) :
    (M.reporting f).outputs s is = (M.reporting g).outputs s is := by
  induction is generalizing s with
  | nil => rfl
  | cons i is ih =>
      have hhead : f s i = g s i := h [] i is rfl
      have htail := ih (s := M.next s i) fun pre j post hsplit =>
        h (i :: pre) j post (congrArg (i :: ·) hsplit)
      rw [outputs_cons, outputs_cons]
      show f s i ++ (M.reporting f).outputs (M.next s i) is = _
      rw [hhead, htail]
      rfl

/-- A translation that respects concatenation may be applied step by step. -/
theorem outputs_reporting_hom (F : List β → List ο') (hnil : F [] = [])
    (happend : ∀ xs ys, F (xs ++ ys) = F xs ++ F ys) (f : σ → ι → List β) (s : σ) (is : List ι) :
    (M.reporting fun s i => F (f s i)).outputs s is = F ((M.reporting f).outputs s is) := by
  induction is generalizing s with
  | nil => exact hnil.symm
  | cons i is ih =>
      rw [outputs_cons, outputs_cons, happend]
      exact congrArg (F (f s i) ++ ·) (ih (M.next s i))

/-- Reporting two things at each step is, up to order, reporting one after the other. -/
theorem outputs_reporting_append_perm (f g : σ → ι → List β) (s : σ) (is : List ι) :
    ((M.reporting fun s i => f s i ++ g s i).outputs s is).Perm
      ((M.reporting f).outputs s is ++ (M.reporting g).outputs s is) := by
  induction is generalizing s with
  | nil => exact List.Perm.refl _
  | cons i is ih =>
      rw [outputs_cons, outputs_cons, outputs_cons]
      show (f s i ++ g s i ++ _).Perm (f s i ++ _ ++ (g s i ++ _))
      rw [List.append_assoc, List.append_assoc]
      refine List.Perm.append_left _ (((ih (M.next s i)).append_left _).trans ?_)
      -- what is left is `g s i` passing the later reports of `f`
      rw [← List.append_assoc, ← List.append_assoc]
      exact List.Perm.append_right _ List.perm_append_comm

end Reporting

/-! ## Batches -/

section Batches

variable (B : Transducer τ (List ι) ο) {t : τ} {s : σ}

/-- A machine over batches that keeps up with `M` on every batch keeps up with it on the batches
laid end to end. -/
theorem run_flatten {R : τ → σ → Prop} (h0 : R t s)
    (hbatch : ∀ t s is, R t s → R (B.next t is) (M.run s is)) (bs : List (List ι)) :
    R (B.run t bs) (M.run s bs.flatten) := by
  induction bs generalizing t s with
  | nil => exact h0
  | cons is bs ih =>
      rw [run_cons, List.flatten_cons, run_append]
      exact ih (hbatch t s is h0)

/-- If what it delivers for each batch is what `M` emits on that batch up to order, so is all it
delivers. -/
theorem outputs_flatten_perm {bs : List (List ι)}
    (h : ∀ pre is post, bs = pre ++ is :: post →
      (B.emit (B.run t pre) is).Perm (M.outputs (M.run s pre.flatten) is)) :
    (B.outputs t bs).Perm (M.outputs s bs.flatten) := by
  induction bs generalizing t s with
  | nil => exact List.Perm.refl _
  | cons is bs ih =>
      rw [outputs_cons, List.flatten_cons, outputs_append]
      refine (h [] is bs rfl).append (ih ?_)
      rintro pre js post rfl
      -- the later batches see the state the first one left
      rw [← run_append, ← List.flatten_cons, ← run_cons]
      exact h (is :: pre) js post rfl

end Batches

/-! ## A cascade -/

section Cascade

variable {κ : Type*} (E : Transducer σ ι κ) (N : Transducer τ κ ο') (proj : σ → τ)

/-- A component that moves as `N` does on what `E` passes on is where `N` ends on all of it. -/
theorem run_cascade (h : ∀ s i, proj (E.next s i) = N.run (proj s) (E.emit s i)) (s : σ)
    (is : List ι) : proj (E.run s is) = N.run (proj s) (E.outputs s is) := by
  induction is generalizing s with
  | nil => rfl
  | cons i is ih => rw [run_cons, ih, h, outputs_cons, run_append]

/-- And what it emits step by step is what `N` emits on all of it. -/
theorem outputs_cascade (M : Transducer σ ι ο') (hnext : ∀ s i, M.next s i = E.next s i)
    (h : ∀ s i, proj (E.next s i) = N.run (proj s) (E.emit s i))
    (hemit : ∀ s i, M.emit s i = N.outputs (proj s) (E.emit s i)) (s : σ) (is : List ι) :
    M.outputs s is = N.outputs (proj s) (E.outputs s is) := by
  induction is generalizing s with
  | nil => rfl
  | cons i is ih => rw [outputs_cons, outputs_cons, outputs_append, hnext, ih, hemit, h]

end Cascade

/-! ## Reading the history -/

/-- What each input says in view of the inputs before it. -/
def observe (f : List ι → ι → List ο) : Transducer (List ι) ι ο where
  step past i := (past ++ [i], f past i)

theorem run_observe (f : List ι → ι → List ο) (past is : List ι) :
    (observe f).run past is = past ++ is := by
  induction is generalizing past with
  | nil => exact (List.append_nil past).symm
  | cons i is ih =>
      rw [run_cons, ih]
      exact List.append_cons past i is |>.symm

theorem outputs_observe_concat (f : List ι → ι → List ο) (is : List ι) (i : ι) :
    (observe f).outputs [] (is ++ [i]) = (observe f).outputs [] is ++ f is i := by
  rw [outputs_concat, run_observe, List.nil_append]
  rfl

/-- What is made of the outputs one by one may be made of them at each input. -/
theorem flatMap_outputs_observe {β : Type*} (f : List ι → ι → List ο) (g : ο → List β)
    (is : List ι) :
    ((observe f).outputs [] is).flatMap g =
      (observe fun past i => (f past i).flatMap g).outputs [] is := by
  induction is using List.reverseRecOn with
  | nil => rfl
  | append_singleton is i ih =>
      rw [outputs_observe_concat, outputs_observe_concat, List.flatMap_append, ih]

end Transducer

/-! ## Conditions along a history -/

/-- An element of a history with one more step is the last one or an element of the shorter one. -/
theorem concat_eq_append_cons {ι : Type*} {is pre post : List ι} {i j : ι} :
    is ++ [i] = pre ++ j :: post ↔
      (is = pre ∧ i = j ∧ post = []) ∨ ∃ post', post = post' ++ [i] ∧ is = pre ++ j :: post' := by
  constructor
  · intro h
    rcases List.eq_nil_or_concat' post with rfl | ⟨post', k, rfl⟩
    · obtain ⟨his, hij⟩ := List.append_inj' h rfl
      exact Or.inl ⟨his, (List.cons.inj hij).1, rfl⟩
    · have hlast : is ++ [i] = (pre ++ j :: post') ++ [k] := by
        rw [h]
        simp
      obtain ⟨his, hik⟩ := List.append_inj' hlast rfl
      rw [(List.cons.inj hik).1]
      exact Or.inr ⟨post', rfl, his⟩
  · rintro (⟨rfl, rfl, rfl⟩ | ⟨post', rfl, rfl⟩)
    · rfl
    · simp

/-- Every element satisfies `P` in view of the elements before it. -/
def Stepwise {ι : Type*} (P : List ι → ι → Prop) (is : List ι) : Prop :=
  ∀ pre i post, is = pre ++ i :: post → P pre i

section Stepwise

variable {ι ο : Type*} {P : List ι → ι → Prop}

theorem stepwise_nil : Stepwise P [] := by
  intro pre i post h
  simp at h

theorem stepwise_concat {is : List ι} {i : ι} :
    Stepwise P (is ++ [i]) ↔ Stepwise P is ∧ P is i := by
  constructor
  · intro h
    refine ⟨?_, h is i [] rfl⟩
    rintro pre j post rfl
    exact h pre j (post ++ [i]) (by simp)
  · rintro ⟨his, hi⟩ pre j post h
    rcases concat_eq_append_cons.mp h with ⟨rfl, rfl, rfl⟩ | ⟨post', rfl, rfl⟩
    · exact hi
    · exact his pre j post' rfl

/-- When no input emits more than its allowance, the outputs together use up the allowances exactly
when every input does. -/
theorem Transducer.sum_outputs_observe {f : List ι → ι → List ο} {w : ο → ℕ} {v : ι → ℕ}
    {is : List ι} (h : Stepwise (fun past i => ((f past i).map w).sum ≤ v i) is) :
    (((Transducer.observe f).outputs [] is).map w).sum ≤ (is.map v).sum ∧
      ((((Transducer.observe f).outputs [] is).map w).sum = (is.map v).sum ↔
        Stepwise (fun past i => ((f past i).map w).sum = v i) is) := by
  induction is using List.reverseRecOn with
  | nil => exact ⟨le_rfl, fun _ => stepwise_nil, fun _ => rfl⟩
  | append_singleton is i ih =>
      obtain ⟨his, hi⟩ := stepwise_concat.mp h
      obtain ⟨hle, hiff⟩ := ih his
      rw [Transducer.outputs_observe_concat, List.map_append, List.map_append, List.sum_append,
        List.sum_append, List.map_singleton, List.sum_singleton, stepwise_concat, ← hiff]
      omega

/-- A machine that emits fewer things at every input emits fewer things. -/
theorem Transducer.outputs_observe_sublist {f g : List ι → ι → List ο} {is : List ι}
    (h : Stepwise (fun past i => (f past i).Sublist (g past i)) is) :
    ((Transducer.observe f).outputs [] is).Sublist ((Transducer.observe g).outputs [] is) := by
  induction is using List.reverseRecOn with
  | nil => exact List.Sublist.refl _
  | append_singleton is i ih =>
      obtain ⟨his, hi⟩ := stepwise_concat.mp h
      rw [Transducer.outputs_observe_concat, Transducer.outputs_observe_concat]
      exact (ih his).append hi

/-- A machine whose outputs do not depend on the past emits what each input gives on its own. -/
theorem Transducer.outputs_observe_eq_flatMap {f : List ι → ι → List ο} {g : ι → List ο}
    {is : List ι} (h : Stepwise (fun past i => f past i = g i) is) :
    (Transducer.observe f).outputs [] is = is.flatMap g := by
  induction is using List.reverseRecOn with
  | nil => rfl
  | append_singleton is i ih =>
      obtain ⟨his, hi⟩ := stepwise_concat.mp h
      rw [Transducer.outputs_observe_concat, ih his, hi, List.flatMap_append,
        List.flatMap_singleton]

end Stepwise

end Stax.Lib
