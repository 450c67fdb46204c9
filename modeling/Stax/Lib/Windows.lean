/-
# Stax.Lib.Windows — a time-ordered list read through windows.

A cursor that skips what is too early and then looks ahead to the end of a window sees, in a
time-ordered list, exactly what lies in the window.  Windows that follow one another see each
element at most once, so going through the windows and through the elements gives the same list.
-/
import Mathlib
import Stax.Lib.Spans

namespace Stax.Lib

namespace Windows

variable {α β ω : Type*} (t : α → ℕ)

/-- Skipping to `a` and then to `b` is skipping to the later of the two. -/
theorem dropWhile_dropWhile_lt (a b : ℕ) (l : List α) :
    (l.dropWhile (fun x => t x < a)).dropWhile (fun x => t x < b) =
      l.dropWhile fun x => t x < max a b := by
  induction l with
  | nil => rfl
  | cons x l ih =>
      rcases lt_or_ge (t x) a with ha | ha
      · have hmax : t x < max a b := lt_max_of_lt_left ha
        rw [List.dropWhile_cons_of_pos (by simpa using ha),
          List.dropWhile_cons_of_pos (by simpa using hmax), ih]
      · rw [List.dropWhile_cons_of_neg (by simpa using ha)]
        -- the head stops the first skip, so only `b` counts from here on
        rcases lt_or_ge (t x) b with hb | hb
        · have hmax : max a b = b := max_eq_right (ha.trans hb.le)
          rw [hmax]
        · rw [List.dropWhile_cons_of_neg (by simpa using hb),
            List.dropWhile_cons_of_neg (by simpa using ⟨ha, hb⟩)]

variable {t} {l : List α}

theorem takeWhile_eq_filter (h : l.Pairwise fun x y => t x ≤ t y) (c : ℕ) :
    l.takeWhile (fun x => t x < c) = l.filter fun x => t x < c := by
  induction l with
  | nil => rfl
  | cons x l ih =>
      obtain ⟨hx, hl⟩ := List.pairwise_cons.mp h
      rcases lt_or_ge (t x) c with hc | hc
      · rw [List.takeWhile_cons_of_pos (by simpa using hc),
          List.filter_cons_of_pos (by simpa using hc), ih hl]
      · rw [List.takeWhile_cons_of_neg (by simpa using hc),
          List.filter_cons_of_neg (by simpa using hc), eq_comm, List.filter_eq_nil_iff]
        intro y hy
        simpa using hc.trans (hx y hy)

theorem dropWhile_eq_filter (h : l.Pairwise fun x y => t x ≤ t y) (c : ℕ) :
    l.dropWhile (fun x => t x < c) = l.filter fun x => c ≤ t x := by
  induction l with
  | nil => rfl
  | cons x l ih =>
      obtain ⟨hx, hl⟩ := List.pairwise_cons.mp h
      rcases lt_or_ge (t x) c with hc | hc
      · rw [List.dropWhile_cons_of_pos (by simpa using hc),
          List.filter_cons_of_neg (by simpa using hc), ih hl]
      · rw [List.dropWhile_cons_of_neg (by simpa using hc), eq_comm, List.filter_eq_self]
        intro y hy
        rcases List.mem_cons.mp hy with rfl | hy
        · simpa using hc
        · simpa using hc.trans (hx y hy)

/-- What the cursor sees of a time-ordered list is what lies in the window. -/
theorem window_eq_filter (h : l.Pairwise fun x y => t x ≤ t y) (s : Span ℕ) :
    (l.dropWhile fun x => t x < s.start).takeWhile (fun x => t x < s.stop) =
      l.filter fun x => s.Contains (t x) := by
  rw [dropWhile_eq_filter h, takeWhile_eq_filter (h.sublist List.filter_sublist),
    List.filter_filter]
  refine List.filter_congr fun x _ => ?_
  rw [Bool.eq_iff_iff, Bool.and_eq_true, decide_eq_true_eq, decide_eq_true_eq, decide_eq_true_eq]
  exact and_comm

/-- A time-ordered list is what comes before an instant followed by the rest. -/
theorem append_filter (h : l.Pairwise fun x y => t x ≤ t y) (c : ℕ) :
    (l.filter fun x => t x < c) ++ (l.filter fun x => c ≤ t x) = l := by
  rw [← takeWhile_eq_filter h, ← dropWhile_eq_filter h]
  exact List.takeWhile_append_dropWhile

/-- Windows that follow one another: going through them, each taking what `g` makes of the elements
inside it, is going through the elements, each asking the one window it lies in. -/
theorem flatMap_windows {ws : List ω} (span : ω → Span ℕ) (g : ω → α → Option β)
    (hws : ws.Pairwise fun v w => (span v).stop ≤ (span w).start)
    (h : l.Pairwise fun x y => t x ≤ t y) :
    (ws.flatMap fun w => (l.filter fun x => (span w).Contains (t x)).filterMap (g w)) =
      l.filterMap fun x => (ws.find? fun w => (span w).Contains (t x)).bind fun w => g w x := by
  induction ws generalizing l with
  | nil => simp
  | cons w ws ih =>
      obtain ⟨hw, hws⟩ := List.pairwise_cons.mp hws
      set early := l.filter fun x => t x < (span w).stop with hearly
      set late := l.filter fun x => (span w).stop ≤ t x with hlate
      have hsplit : early ++ late = l := append_filter h (span w).stop
      -- elements before the end of `w` lie in no later window, the others not in `w`
      have hlater : ∀ v ∈ ws, (l.filter fun x => (span v).Contains (t x)) =
          late.filter fun x => (span v).Contains (t x) := by
        intro v hv
        rw [hlate, List.filter_filter]
        refine List.filter_congr fun x _ => ?_
        have hstart := hw v hv
        by_cases hx : (span v).Contains (t x)
        · simp [hx, hstart.trans hx.1]
        · simp [hx]
      have hown : (l.filter fun x => (span w).Contains (t x)) =
          early.filter fun x => (span w).Contains (t x) := by
        rw [hearly, List.filter_filter]
        refine List.filter_congr fun x _ => ?_
        by_cases hx : (span w).Contains (t x)
        · simp [hx, hx.2]
        · simp [hx]
      have hfirst : (early.filter fun x => (span w).Contains (t x)).filterMap (g w) =
          early.filterMap fun x =>
            ((w :: ws).find? fun w => (span w).Contains (t x)).bind fun w => g w x := by
        rw [List.filterMap_filter]
        refine List.filterMap_congr fun x hx => ?_
        have hstop : t x < (span w).stop := by simpa using (List.mem_filter.mp hx).2
        by_cases hin : (span w).Contains (t x)
        · simp [hin]
        · have hnone : ws.find? (fun w => (span w).Contains (t x)) = none := by
            rw [List.find?_eq_none]
            intro v hv hvx
            have hcontains : (span v).Contains (t x) := of_decide_eq_true hvx
            have hstart := (hw v hv).trans hcontains.1
            omega
          simp [hin, hnone]
      have hrest : (late.filterMap fun x =>
            (ws.find? fun w => (span w).Contains (t x)).bind fun w => g w x) =
          late.filterMap fun x =>
            ((w :: ws).find? fun w => (span w).Contains (t x)).bind fun w => g w x := by
        refine List.filterMap_congr fun x hx => ?_
        have hstop : (span w).stop ≤ t x := by simpa using (List.mem_filter.mp hx).2
        have hnot : ¬ (span w).Contains (t x) := fun hin => absurd hin.2 (not_lt.mpr hstop)
        simp [hnot]
      calc ((w :: ws).flatMap fun w =>
            (l.filter fun x => (span w).Contains (t x)).filterMap (g w))
          = (early.filter fun x => (span w).Contains (t x)).filterMap (g w) ++
              ws.flatMap fun v => (late.filter fun x => (span v).Contains (t x)).filterMap (g v) := by
            rw [List.flatMap_cons, hown]
            congr 1
            exact List.flatMap_congr fun v hv => by rw [hlater v hv]
        _ = (early ++ late).filterMap fun x =>
              ((w :: ws).find? fun w => (span w).Contains (t x)).bind fun w => g w x := by
            rw [List.filterMap_append, hfirst, ← hrest,
              ih hws (h.sublist List.filter_sublist)]
        _ = _ := by rw [hsplit]

end Windows

end Stax.Lib
