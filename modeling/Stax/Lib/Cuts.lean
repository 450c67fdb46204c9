/-
# Stax.Lib.Cuts — a line of adjacent pieces that is cut at given points.

Pieces tile a range when each starts where the one before ends.  Cuts are points; the cell of a
point counts the cuts up to it, so that two points are in one cell exactly when no cut lies between
them.  Filling one bucket for each cell with the pieces that start in it cuts the line into
stretches: the buckets together are the line, two pieces are adjacent in a bucket exactly when they
are adjacent in the line and share a cell, and a piece is the last of its bucket exactly when the
next piece, if there is one, starts in another.
-/
import Mathlib
import Stax.Lib.Predecessor

namespace Stax.Lib

namespace Cuts

variable {α β : Type*}

/-! ## Adjacent elements -/

/-- `b` comes right after `a`. -/
def Adjacent (l : List α) (a b : α) : Prop := [a, b] <:+: l

variable {l : List α} {a b : α}

theorem Adjacent.mem_left (h : Adjacent l a b) : a ∈ l := h.subset (by simp)

theorem Adjacent.mem_right (h : Adjacent l a b) : b ∈ l := h.subset (by simp)

theorem adjacent_append_cons_cons (before after : List α) (a b : α) :
    Adjacent (before ++ a :: b :: after) a b :=
  ⟨before, after, by simp⟩

theorem Adjacent.cons (h : Adjacent l a b) (c : α) : Adjacent (c :: l) a b :=
  List.infix_cons_iff.mpr (Or.inr h)

theorem not_adjacent_nil : ¬ Adjacent ([] : List α) a b := by
  intro h
  exact absurd h.length_le (by simp)

theorem adjacent_cons_iff {c : α} :
    Adjacent (c :: l) a b ↔ (a = c ∧ l.head? = some b) ∨ Adjacent l a b := by
  rw [Adjacent, List.infix_cons_iff, List.cons_prefix_cons]
  refine or_congr (and_congr_right fun _ => ?_) Iff.rfl
  cases l with
  | nil => simp
  | cons d l => simp [eq_comm]

theorem Adjacent.right_unique {c : α} (hnodup : l.Nodup) (hb : Adjacent l a b)
    (hc : Adjacent l a c) : b = c := by
  induction l with
  | nil => exact absurd hb not_adjacent_nil
  | cons d l ih =>
      obtain ⟨hd, hnodup⟩ := List.nodup_cons.mp hnodup
      rcases adjacent_cons_iff.mp hb with ⟨rfl, hfirst⟩ | hrest
      · rcases adjacent_cons_iff.mp hc with ⟨-, hfirst'⟩ | hrest
        · exact Option.some_inj.mp (hfirst.symm.trans hfirst')
        · exact absurd hrest.mem_left hd
      · rcases adjacent_cons_iff.mp hc with ⟨rfl, -⟩ | hrest'
        · exact absurd hrest.mem_left hd
        · exact ih hnodup hrest hrest'

/-- In a list without repetitions an element has one neighbour before it at most. -/
theorem Adjacent.left_unique {c : α} (hnodup : l.Nodup) (ha : Adjacent l a c)
    (hb : Adjacent l b c) : a = b := by
  induction l with
  | nil => exact absurd ha not_adjacent_nil
  | cons d l ih =>
      obtain ⟨hd, hnodup⟩ := List.nodup_cons.mp hnodup
      -- the head of a list without duplicates comes after nothing in it
      have hhead (x : α) (hl : l.head? = some c) (hx : Adjacent l x c) : False := by
        cases l with
        | nil => exact not_adjacent_nil hx
        | cons e l =>
            obtain rfl : e = c := by simpa using hl
            obtain ⟨he, -⟩ := List.nodup_cons.mp hnodup
            rcases adjacent_cons_iff.mp hx with ⟨-, hl⟩ | hx
            · exact he (List.mem_of_head? hl)
            · exact he hx.mem_right
      rcases adjacent_cons_iff.mp ha with ⟨rfl, hfirst⟩ | hrest
      · rcases adjacent_cons_iff.mp hb with ⟨rfl, -⟩ | hrest
        · rfl
        · exact (hhead b hfirst hrest).elim
      · rcases adjacent_cons_iff.mp hb with ⟨rfl, hfirst⟩ | hrest'
        · exact (hhead a hfirst hrest).elim
        · exact ih hnodup hrest hrest'

/-- Mapping keeps what is adjacent, and an injective map adds nothing. -/
theorem adjacent_map_iff {f : α → β} (hinj : ∀ x ∈ l, ∀ y ∈ l, f x = f y → x = y) (ha : a ∈ l)
    (hb : b ∈ l) : Adjacent (l.map f) (f a) (f b) ↔ Adjacent l a b := by
  constructor
  · intro h
    obtain ⟨pair, hpair, heq⟩ := List.infix_map_iff.mp h
    obtain ⟨x, y, rfl⟩ : ∃ x y, pair = [x, y] := by
      refine List.length_eq_two.mp ?_
      simpa using (congrArg List.length heq).symm
    obtain ⟨hx, hy⟩ : f a = f x ∧ f b = f y := by simpa using heq
    have hxa : a = x := hinj a ha x (hpair.subset (by simp)) hx
    have hyb : b = y := hinj b hb y (hpair.subset (by simp)) hy
    rw [hxa, hyb]
    exact hpair
  · intro h
    exact h.map f

/-! ## Pieces that tile a range -/

/-- Pieces that are not empty, laid without gaps from `lo` to `hi`. -/
def Tiles (start stop : α → ℕ) : ℕ → ℕ → List α → Prop
  | lo, hi, [] => lo = hi
  | lo, hi, a :: l => start a = lo ∧ lo < stop a ∧ Tiles start stop (stop a) hi l

section Tiles

variable {start stop : α → ℕ} {lo hi : ℕ}

theorem Tiles.le (h : Tiles start stop lo hi l) : lo ≤ hi := by
  induction l generalizing lo with
  | nil => exact Nat.le_of_eq h
  | cons a l ih =>
      obtain ⟨-, hlt, hrest⟩ := h
      exact hlt.le.trans (ih hrest)

theorem Tiles.bounds (h : Tiles start stop lo hi l) (ha : a ∈ l) :
    lo ≤ start a ∧ start a < stop a ∧ stop a ≤ hi := by
  induction l generalizing lo with
  | nil => simp at ha
  | cons c l ih =>
      obtain ⟨hstart, hlt, hrest⟩ := h
      rcases List.mem_cons.mp ha with rfl | ha
      · exact ⟨hstart.ge, by omega, hrest.le⟩
      · obtain ⟨hlo, hpos, hhi⟩ := ih hrest ha
        exact ⟨by omega, hpos, hhi⟩

theorem Tiles.pairwise (h : Tiles start stop lo hi l) :
    l.Pairwise fun a b => start a < start b := by
  induction l generalizing lo with
  | nil => exact List.Pairwise.nil
  | cons a l ih =>
      obtain ⟨hstart, hlt, hrest⟩ := h
      refine List.pairwise_cons.mpr ⟨fun b hb => ?_, ih hrest⟩
      have hb := (hrest.bounds hb).1
      omega

theorem Tiles.nodup (h : Tiles start stop lo hi l) : l.Nodup :=
  h.pairwise.imp fun hlt heq => absurd (congrArg start heq) hlt.ne

theorem Tiles.start_injOn (h : Tiles start stop lo hi l) (ha : a ∈ l) (hb : b ∈ l)
    (heq : start a = start b) : a = b := by
  have hnodup : (l.map start).Nodup := List.pairwise_map.mpr (h.pairwise.imp Nat.ne_of_lt)
  exact List.inj_on_of_nodup_map hnodup ha hb heq

theorem Tiles.stop_eq (h : Tiles start stop lo hi l) (hab : Adjacent l a b) :
    stop a = start b := by
  induction l generalizing lo with
  | nil => exact absurd hab not_adjacent_nil
  | cons c l ih =>
      obtain ⟨-, -, hrest⟩ := h
      rcases adjacent_cons_iff.mp hab with ⟨rfl, hhead⟩ | hab
      · cases l with
        | nil => simp at hhead
        | cons d l =>
            obtain rfl : d = b := by simpa using hhead
            exact hrest.1.symm
      · exact ih hrest hab

/-- A piece that does not reach the end has one right after it. -/
theorem Tiles.exists_adjacent (h : Tiles start stop lo hi l) (ha : a ∈ l) (hlt : stop a < hi) :
    ∃ b, Adjacent l a b := by
  induction l generalizing lo with
  | nil => simp at ha
  | cons c l ih =>
      obtain ⟨-, -, hrest⟩ := h
      rcases List.mem_cons.mp ha with rfl | ha
      · cases l with
        | nil => exact absurd hrest hlt.ne
        | cons d l => exact ⟨d, adjacent_append_cons_cons [] l a d⟩
      · obtain ⟨b, hb⟩ := ih hrest ha
        exact ⟨b, hb.cons c⟩

end Tiles

/-! ## Cells -/

/-- How many of the cuts lie at the point or before it. -/
def cell (cuts : List ℕ) (x : ℕ) : ℕ := cuts.countP fun c => c ≤ x

section Cells

variable {cuts : List ℕ} {x y : ℕ}

theorem cell_mono (h : x ≤ y) : cell cuts x ≤ cell cuts y := by
  refine List.countP_mono_left fun c _ hc => ?_
  simp only [decide_eq_true_eq] at hc ⊢
  omega

theorem cell_le_length (cuts : List ℕ) (x : ℕ) : cell cuts x ≤ cuts.length :=
  List.countP_le_length

/-- The cuts between two points are what separates their cells. -/
theorem cell_eq_add (h : x ≤ y) :
    cell cuts y = cell cuts x + cuts.countP fun c => x < c ∧ c ≤ y := by
  induction cuts with
  | nil => rfl
  | cons c cuts ih =>
      simp only [cell, List.countP_cons, decide_eq_true_eq] at ih ⊢
      rw [ih]
      split_ifs <;> omega

theorem cell_lt_cell_iff : cell cuts x < cell cuts y ↔ ∃ c ∈ cuts, x < c ∧ c ≤ y := by
  have hbetween : (0 < cuts.countP fun c => x < c ∧ c ≤ y) ↔ ∃ c ∈ cuts, x < c ∧ c ≤ y := by
    rw [List.countP_pos_iff]
    simp only [decide_eq_true_eq]
  rcases Nat.le_total x y with h | h
  · rw [← hbetween, cell_eq_add h]
    omega
  · have hle : cell cuts y ≤ cell cuts x := cell_mono h
    constructor
    · intro hlt
      omega
    · rintro ⟨c, -, hc⟩
      omega

theorem cell_pos_iff : 0 < cell cuts x ↔ ∃ c ∈ cuts, c ≤ x := by
  rw [cell, List.countP_pos_iff]
  simp only [decide_eq_true_eq]

/-- In a rising list of cuts, the cuts at or before the `k`-th are the first `k + 1`. -/
theorem cell_getElem (h : cuts.Pairwise (· < ·)) {k : ℕ} (hk : k < cuts.length) :
    cell cuts cuts[k] = k + 1 := by
  induction cuts generalizing k with
  | nil => simp at hk
  | cons c cuts ih =>
      obtain ⟨hc, hcuts⟩ := List.pairwise_cons.mp h
      cases k with
      | zero =>
          have hnone : cuts.countP (fun d => d ≤ c) = 0 := by
            rw [List.countP_eq_zero]
            intro d hd
            simpa using hc d hd
          simp [cell, hnone]
      | succ k =>
          have hk : k < cuts.length := by simpa using hk
          have hle : c ≤ cuts[k] := (hc _ (List.getElem_mem hk)).le
          have hrec := ih hcuts hk
          simp only [cell, List.getElem_cons_succ, List.countP_cons, hle, decide_true, if_true]
            at hrec ⊢
          omega

/-- A binary search knows the cell: one more than the place of a cut, else where a cut would go. -/
theorem cell_eq_of_binarySearch {key : α → ℕ} (h : l.Pairwise fun a b => key a < key b) (x : ℕ) :
    cell (l.map key) x =
      match Predecessor.binarySearch key x l with
      | .ok i => i + 1
      | .error i => i := by
  induction l with
  | nil => rfl
  | cons c l ih =>
      obtain ⟨hc, hl⟩ := List.pairwise_cons.mp h
      have hrec := ih hl
      simp only [cell, List.countP_map, Predecessor.binarySearch, Predecessor.partitionPoint]
        at hrec ⊢
      rcases Nat.lt_or_ge (key c) x with hlt | hge
      · have hle : key c ≤ x := hlt.le
        rw [List.takeWhile_cons_of_pos (by simpa using hlt), List.length_cons,
          List.getElem?_cons_succ, List.countP_cons_of_pos (by simpa using hle), hrec]
        cases l[(l.takeWhile fun a => decide (key a < x)).length]? with
        | none => rfl
        | some a =>
            simp only []
            split_ifs <;> rfl
      · -- every later cut lies beyond the point
        have hnone : l.countP ((fun c => decide (c ≤ x)) ∘ key) = 0 := by
          rw [List.countP_eq_zero]
          intro d hd
          have hcd := hc d hd
          simp only [Function.comp_apply, decide_eq_true_eq]
          omega
        rw [List.takeWhile_cons_of_neg (by simpa using hge), List.length_nil, List.countP_cons,
          hnone]
        rcases Nat.lt_or_ge x (key c) with hgt | hle
        · have hne : key c ≠ x := hgt.ne'
          simp [hgt, hne]
        · have heq : key c = x := by omega
          simp [heq]

end Cells

/-! ## The stretches of a list -/

section Stretches

variable {idx : α → ℕ}

/-- A list that is ordered by an index is the concatenation of its stretches. -/
theorem flatMap_filter_eq (h : l.Pairwise fun a b => idx a ≤ idx b) (n : ℕ) :
    ((List.range n).flatMap fun k => l.filter fun a => idx a = k) =
      l.filter fun a => idx a < n := by
  induction n with
  | zero => simp
  | succ n ih =>
      have hbefore : (l.filter fun a => idx a < n + 1).filter (fun a => idx a < n) =
          l.filter fun a => idx a < n := by
        rw [List.filter_filter]
        refine List.filter_congr fun a _ => ?_
        rw [Bool.eq_iff_iff, Bool.and_eq_true, decide_eq_true_eq, decide_eq_true_eq]
        omega
      have hlast : (l.filter fun a => idx a < n + 1).filter (fun a => n ≤ idx a) =
          l.filter fun a => idx a = n := by
        rw [List.filter_filter]
        refine List.filter_congr fun a _ => ?_
        rw [Bool.eq_iff_iff, Bool.and_eq_true, decide_eq_true_eq, decide_eq_true_eq,
          decide_eq_true_eq]
        omega
      rw [List.range_succ, List.flatMap_append, ih, List.flatMap_singleton, ← hbefore, ← hlast]
      exact Windows.append_filter (h.sublist List.filter_sublist) n

/-- When the head of a list has a greater index, nothing in the list has the lower one. -/
theorem filter_eq_nil_of_head {k : ℕ} (h : l.Pairwise fun a b => idx a ≤ idx b)
    (hhead : ∀ b, l.head? = some b → k < idx b) : (l.filter fun a => idx a = k) = [] := by
  cases l with
  | nil => rfl
  | cons b l =>
      have hb : k < idx b := hhead b rfl
      rw [List.filter_eq_nil_iff]
      intro c hc
      have hbc : idx b ≤ idx c := by
        rcases List.mem_cons.mp hc with rfl | hc
        · exact Nat.le_refl _
        · exact List.rel_of_pairwise_cons h hc
      simp only [decide_eq_true_eq]
      omega

/-- An element ends its stretch exactly when the next one, if there is one, is in another. -/
theorem getLast?_filter_iff (h : l.Pairwise fun a b => idx a ≤ idx b) (hnodup : l.Nodup)
    (ha : a ∈ l) :
    (l.filter fun c => idx c = idx a).getLast? = some a ↔
      ∀ b, Adjacent l a b → idx a < idx b := by
  induction l with
  | nil => simp at ha
  | cons c l ih =>
      obtain ⟨hc, hl⟩ := List.pairwise_cons.mp h
      obtain ⟨hcl, hnodup⟩ := List.nodup_cons.mp hnodup
      rcases List.mem_cons.mp ha with rfl | hal
      · have hnext : (∀ b, Adjacent (a :: l) a b → idx a < idx b) ↔
            ∀ b, l.head? = some b → idx a < idx b := by
          refine forall_congr' fun b => ?_
          rw [adjacent_cons_iff]
          have hnot : ¬ Adjacent l a b := fun hab => hcl hab.mem_left
          simp [hnot]
        rw [hnext, List.filter_cons_of_pos (by simp)]
        constructor
        · intro hlast b hhead
          have hb : b ∈ l := List.mem_of_head? hhead
          refine lt_of_le_of_ne (hc b hb) fun heq => ?_
          -- the last of a stretch that goes on is in the rest of the list
          have hmem : b ∈ l.filter fun c => idx c = idx a := by simp [hb, heq]
          rw [List.getLast?_cons, Option.some_inj] at hlast
          obtain ⟨d, hd⟩ : ∃ d, (l.filter fun c => idx c = idx a).getLast? = some d := by
            rw [← Option.isSome_iff_exists, List.getLast?_isSome]
            exact List.ne_nil_of_mem hmem
          rw [hd, Option.getD_some] at hlast
          exact hcl (hlast ▸ List.mem_of_mem_filter (List.mem_of_getLast? hd))
        · intro hhead
          rw [filter_eq_nil_of_head hl hhead]
          rfl
      · have hne : a ≠ c := fun heq => hcl (heq ▸ hal)
        have hnext : (∀ b, Adjacent (c :: l) a b → idx a < idx b) ↔
            ∀ b, Adjacent l a b → idx a < idx b := by
          refine forall_congr' fun b => ?_
          rw [adjacent_cons_iff]
          simp [hne]
        rw [hnext, ← ih hl hnodup hal, List.filter_cons]
        split_ifs with hca
        · have hmem : a ∈ l.filter fun c => idx c = idx a := by simp [hal]
          rw [List.getLast?_cons]
          obtain ⟨d, hd⟩ : ∃ d, (l.filter fun c => idx c = idx a).getLast? = some d := by
            rw [← Option.isSome_iff_exists, List.getLast?_isSome]
            exact List.ne_nil_of_mem hmem
          rw [hd, Option.getD_some]
        · exact Iff.rfl

/-- An element starts its stretch exactly when the one before, if there is one, is in another. -/
theorem head?_filter_iff (h : l.Pairwise fun a b => idx a ≤ idx b) (hnodup : l.Nodup)
    (hb : b ∈ l) :
    (l.filter fun c => idx c = idx b).head? = some b ↔
      ∀ a, Adjacent l a b → idx a < idx b := by
  induction l with
  | nil => simp at hb
  | cons c l ih =>
      obtain ⟨hc, hl⟩ := List.pairwise_cons.mp h
      obtain ⟨hcl, hnodup⟩ := List.nodup_cons.mp hnodup
      rcases List.mem_cons.mp hb with rfl | hbl
      · have hnot : ∀ a, ¬ Adjacent (b :: l) a b := by
          intro a hab
          rcases adjacent_cons_iff.mp hab with ⟨-, hhead⟩ | hab
          · exact hcl (List.mem_of_head? hhead)
          · exact hcl hab.mem_right
        rw [List.filter_cons_of_pos (by simp)]
        simp [hnot]
      · have hne : c ≠ b := fun heq => hcl (heq ▸ hbl)
        have hle : idx c ≤ idx b := hc b hbl
        rcases Nat.lt_or_ge (idx c) (idx b) with hlt | hge
        · rw [List.filter_cons_of_neg (by simpa using hlt.ne), ih hl hnodup hbl]
          refine forall_congr' fun a => ?_
          rw [adjacent_cons_iff]
          constructor
          · rintro hrest (⟨rfl, -⟩ | hab)
            · exact hlt
            · exact hrest hab
          · exact fun hall hab => hall (Or.inr hab)
        · have heq : idx c = idx b := by omega
          rw [List.filter_cons_of_pos (by simpa using heq), List.head?_cons]
          refine iff_of_false (by simpa using hne) fun hall => ?_
          -- what precedes `b` lies between `c` and `b`, hence in their stretch
          cases l with
          | nil => simp at hbl
          | cons d l =>
              rcases List.mem_cons.mp hbl with rfl | hbl'
              · have hcb := hall c (adjacent_append_cons_cons [] l c b)
                omega
              · have hd : idx d = idx b := by
                  have hcd := hc d (List.mem_cons_self ..)
                  have hdb := List.rel_of_pairwise_cons hl hbl'
                  omega
                have hhead := (ih hl hnodup hbl).mpr fun a hab => hall a (hab.cons c)
                rw [List.filter_cons_of_pos (by simpa using hd), List.head?_cons] at hhead
                obtain rfl : d = b := by simpa using hhead
                exact (List.nodup_cons.mp hnodup).1 hbl'

/-- A stretch is what lies after the earlier and before the later ones. -/
theorem stretch_isInfix (h : l.Pairwise fun a b => idx a ≤ idx b) (k : ℕ) :
    (l.filter fun a => idx a = k) <:+: l := by
  have hearly := Windows.append_filter h k
  have hlate := Windows.append_filter (h.sublist (List.filter_sublist (p := fun a => k ≤ idx a)))
    (k + 1)
  have hself : (l.filter fun a => k ≤ idx a).filter (fun a => idx a < k + 1) =
      l.filter fun a => idx a = k := by
    rw [List.filter_filter]
    refine List.filter_congr fun a _ => ?_
    rw [Bool.eq_iff_iff, Bool.and_eq_true, decide_eq_true_eq, decide_eq_true_eq,
      decide_eq_true_eq]
    omega
  rw [hself] at hlate
  refine ⟨l.filter fun a => idx a < k, (l.filter fun a => k ≤ idx a).filter fun a => k + 1 ≤ idx a,
    ?_⟩
  rw [List.append_assoc, hlate, hearly]

/-- Two elements are adjacent in a stretch when they are adjacent and both are in it. -/
theorem adjacent_filter_iff {k : ℕ} (h : l.Pairwise fun a b => idx a ≤ idx b) :
    Adjacent (l.filter fun c => idx c = k) a b ↔ Adjacent l a b ∧ idx a = k ∧ idx b = k := by
  constructor
  · intro hab
    have ha := List.mem_filter.mp hab.mem_left
    have hb := List.mem_filter.mp hab.mem_right
    simp only [decide_eq_true_eq] at ha hb
    exact ⟨hab.trans (stretch_isInfix h k), ha.2, hb.2⟩
  · rintro ⟨⟨before, after, rfl⟩, ha, hb⟩
    refine ⟨before.filter fun c => idx c = k, after.filter fun c => idx c = k, ?_⟩
    simp [ha, hb]

end Stretches

/-! ## Buckets -/

/-- Every element is put into the bucket of its slot, if it has one. -/
def fill (slot : α → Option ℕ) (push : β → α → β) (buckets : List β) (l : List α) : List β :=
  l.foldl (fun buckets a =>
    match slot a with
    | some k => buckets.modify k fun bucket => push bucket a
    | none => buckets) buckets

section Fill

variable (slot : α → Option ℕ) (push : β → α → β)

/-- What is in a bucket after all have been put into theirs: its own, one after the other. -/
theorem getElem?_fill (buckets : List β) (l : List α) (k : ℕ) :
    (fill slot push buckets l)[k]? =
      buckets[k]?.map fun bucket => (l.filter fun a => slot a = some k).foldl push bucket := by
  induction l generalizing buckets with
  | nil => simp [fill]
  | cons a l ih =>
      rw [fill, List.foldl_cons]
      change (fill slot push _ l)[k]? = _
      rw [ih]
      cases hslot : slot a with
      | none => simp [hslot]
      | some j =>
          rw [List.getElem?_modify]
          by_cases hjk : j = k
          · subst hjk
            simp [hslot]
            rfl
          · simp [hslot, hjk]

end Fill

end Cuts

end Stax.Lib
