/-
# Stax.Staxd.Teardown — when a session leaves nothing switched on.

The teardown issues every call that switches something off, and a session that has set up completely
always gets there.  A set-up that fails on the way returns without it.  So a session is clean exactly
when its set-up fails before the first call that switches something on, or not at all.
-/
import Stax.Staxd.Session

namespace Stax.Staxd

open Stax.Lib Stax.Lib.Script

/-! ## What is switched on and off -/

namespace Call

/-- The call switches sampling, counting or tracing on. -/
def switchesOn : Call → Bool
  | kperfSampleSet value => value ≠ 0
  | setLightweightPet enabled => enabled ≠ 0
  | kpcSetCounting classMask | kpcSetThreadCounting classMask => classMask ≠ 0
  | kdebugEnable enable => enable
  | kdebugSetup => true
  | _ => false

/-- The calls that are to follow. -/
def offCalls : List Call :=
  [kdebugEnable false, kdebugReset, kperfSampleSet 0, setLightweightPet 0, kpcSetCounting 0,
    kpcSetThreadCounting 0, kperfReset]

end Call

/-- After every call that has switched something on, all is switched off. -/
def Clean (trace : List (Call × Answer)) : Prop :=
  ∀ before call answer after, trace = before ++ (call, answer) :: after → call.switchesOn →
    call.check answer = .ok () → ∀ off ∈ Call.offCalls, off ∈ after.map Prod.fst

theorem clean_of_not_switchesOn {trace : List (Call × Answer)}
    (h : ∀ entry ∈ trace, entry.1.switchesOn = false) : Clean trace := by
  rintro before call answer after rfl hon
  rw [h (call, answer) (List.mem_append_right _ List.mem_cons_self)] at hon
  exact absurd hon (by simp)

/-! ## The calls of a session -/

/-- What is cleared before the set-up. -/
def staleCalls : List Call :=
  [.kperfSampleSet 0, .kperfReset, .setLightweightPet 0, .kdebugEnable false, .kdebugReset]

/-- The calls by which sampling is set up, in their order. -/
def kperfCalls (nsToTicks : UInt64 → UInt64) (config : SessionConfig) : List Call :=
  [.kperfActionCountSet kperfActionMax, .kperfTimerCountSet kperfTimerMax,
    .kperfActionSamplersSet 1 config.samplers,
    .kperfActionFilterSetByPid 1 config.targetPid.toInt32,
    .kperfTimerPeriodSet 1 (nsToTicks (periodNs config)), .kperfTimerActionSet 1 1,
    .kperfTimerPetSet 1] ++
  (if config.pmuEventConfigs.isEmpty then []
    else [.kpcSetConfig config.classMask config.pmuEventConfigs]) ++
  [.kpcSetCounting config.classMask, .kpcSetThreadCounting config.classMask, .setLightweightPet 1,
    .kperfSampleSet 1]

/-- The calls by which tracing is set up, in their order. -/
def kdebugCalls (config : SessionConfig) : List Call :=
  [.kdebugReset, .kdebugSetBufSize config.bufRecords.toInt32, .kdebugSetup,
    if config.typefilterCscs.isEmpty then
      .kdebugSetFilter
        { ty := kdbgRangetype
          value1 := config.filterRangeValue1
          value2 := config.filterRangeValue2
          value3 := 0
          value4 := 0 }
    else .kdebugSetTypefilter config.typefilterCscs,
    .kdebugEnable true]

/-- The calls of the set-up, in their order. -/
def setupCalls (nsToTicks : UInt64 → UInt64) (config : SessionConfig) : List Call :=
  kperfCalls nsToTicks config ++ kdebugCalls config

/-- The calls by which a session is taken down, in their order. -/
def teardownCalls : List Call :=
  [.kdebugEnable false, .kdebugReset, .kperfSampleSet 0, .setLightweightPet 0, .kpcSetCounting 0,
    .kpcSetThreadCounting 0, .kpcForceAllCtrsSet 0, .kperfReset]

theorem setupKperf_eq (nsToTicks : UInt64 → UInt64) (config : SessionConfig) :
    setupKperf nsToTicks config = attemptAll Call.check (kperfCalls nsToTicks config) := by
  unfold setupKperf kperfCalls kperfCall
  cases config.pmuEventConfigs.isEmpty with
  | true => simp [attemptAll]
  | false => simp [attemptAll]

theorem setupKdebug_eq (config : SessionConfig) :
    setupKdebug config = attemptAll Call.check (kdebugCalls config) := by
  unfold setupKdebug kdebugCalls kperfCall
  cases config.typefilterCscs.isEmpty with
  | true => simp [attemptAll]
  | false => simp [attemptAll]

theorem teardown_eq : teardown = issueAll teardownCalls := by
  simp [teardown, teardownCalls, ignored, issueAll]

/-- No call that switches tracing off is part of the set-up. -/
theorem not_mem_setupCalls (nsToTicks : UInt64 → UInt64) (config : SessionConfig) :
    .kdebugEnable false ∉ setupCalls nsToTicks config := by
  unfold setupCalls kperfCalls kdebugCalls
  split_ifs <;> simp

theorem offCalls_subset_teardownCalls : Call.offCalls ⊆ teardownCalls := by decide

theorem not_switchesOn_teardownCalls : ∀ call ∈ teardownCalls, call.switchesOn = false := by decide

theorem not_switchesOn_staleCalls : ∀ call ∈ staleCalls, call.switchesOn = false := by decide

/-! ## Draining switches nothing on -/

/-- The call switches nothing on. -/
def Call.Neutral (call : Call) : Prop := call.switchesOn = false

theorem onlyIssues_ignored {p : Call → Prop} {call : Call} (h : p call) :
    OnlyIssues p (ignored call) :=
  OnlyIssues.bind (onlyIssues_issue h) fun _ => onlyIssues_pure ()

theorem onlyIssues_readTrace (len : ℕ) : OnlyIssues Call.Neutral (readTrace len) := by
  unfold readTrace
  split_ifs
  · exact onlyIssues_pure 0
  · refine OnlyIssues.bind (onlyIssues_issue rfl) fun answer => ?_
    refine OnlyIssues.bind (onlyIssues_ofExcept _) fun _ => ?_
    split_ifs
    · exact onlyIssues_ofExcept _
    · exact onlyIssues_pure _

theorem onlyIssues_idle (self : DrainLoop) : OnlyIssues Call.Neutral self.idle := by
  unfold DrainLoop.idle
  split_ifs
  · exact onlyIssues_ignored rfl
  · exact onlyIssues_pure ()

theorem onlyIssues_drainKdebugLoop (config : SessionConfig) (self : DrainLoop)
    (turns : List Turn) : OnlyIssues Call.Neutral (drainKdebugLoop config self turns) := by
  induction turns generalizing self with
  | nil => exact onlyIssues_pure _
  | cons turn turns ih =>
      unfold drainKdebugLoop
      split
      · exact onlyIssues_pure _
      · refine OnlyIssues.bind (onlyIssues_idle self) fun _ => ?_
        split
        · exact onlyIssues_pure _
        · refine OnlyIssues.bind (onlyIssues_readTrace _) fun n => ?_
          split
          · exact onlyIssues_pure _
          · exact ih _

theorem onlyIssues_drain (env : Environment) (config : SessionConfig) :
    OnlyIssues Call.Neutral (drain env config) := by
  unfold drain
  split
  · exact onlyIssues_pure _
  · split
    · exact onlyIssues_ofExcept _
    · refine OnlyIssues.bind (onlyIssues_drainKdebugLoop _ _ _).result fun result => ?_
      split
      · exact onlyIssues_ofExcept _
      · split
        · exact onlyIssues_ofExcept _
        · exact onlyIssues_ofExcept _

/-! ## The trace of a session -/

/-- What is issued before the set-up, once the first call has passed the gate. -/
def cleared (answers : ℕ → Answer) : List (Call × Answer) :=
  answered answers 0 (.kpcForceAllCtrsGet :: staleCalls)

theorem length_cleared (answers : ℕ → Answer) : (cleared answers).length = 6 :=
  length_answered answers 0 _

theorem not_switchesOn_cleared (answers : ℕ → Answer) :
    ∀ entry ∈ cleared answers, entry.1.switchesOn = false := by
  intro entry hentry
  rcases List.mem_cons.mp (mem_of_mem_answered hentry) with heq | hstale
  · rw [heq]
    rfl
  · exact not_switchesOn_staleCalls entry.1 hstale

variable {env : Environment} {config : SessionConfig} {answers : ℕ → Answer}

/-- A session that does not get to its set-up has issued its first call at most. -/
theorem run_of_gate (h : env.load = .ok () → (answers 0).rc ≠ 0) :
    ∀ entry ∈ (run env config answers []).2, entry.1.switchesOn = false := by
  intro entry hentry
  cases hload : env.load with
  | error e =>
      rw [run, bind_apply, hload] at hentry
      exact absurd hentry List.not_mem_nil
  | ok _ =>
      have hissued : (issue Call.kpcForceAllCtrsGet : Session Answer) answers [] =
          (.ok (answers 0), [(.kpcForceAllCtrsGet, answers 0)]) := rfl
      have hpassed : (ofExcept (env.load.mapError mapKperfErr) : Session Unit) answers [] =
          (.ok (), []) := by
        rw [hload]
        rfl
      rw [run, bind_apply, hpassed] at hentry
      dsimp only at hentry
      rw [bind_apply, hissued] at hentry
      dsimp only at hentry
      rw [if_pos (h hload)] at hentry
      rw [List.mem_singleton.mp hentry]
      rfl

/-- From the set-up on, a session is its set-up, its draining and its teardown. -/
theorem run_apply (hload : env.load = .ok ()) (hgate : (answers 0).rc = 0) :
    run env config answers [] =
      (attemptAll Call.check (setupCalls env.nsToTicks config) >>= fun _ =>
        (drain env config).result >>= fun result =>
          issueAll teardownCalls >>= fun _ => ofExcept result) answers (cleared answers) := by
  have hrun : run env config = ofExcept (env.load.mapError mapKperfErr) >>= fun _ =>
      issue Call.kpcForceAllCtrsGet >>= fun gate =>
        if gate.rc ≠ 0 then ofExcept (.error .notRoot)
        else issueAll staleCalls >>= fun _ =>
          attemptAll Call.check (setupCalls env.nsToTicks config) >>= fun _ =>
            (drain env config).result >>= fun result =>
              issueAll teardownCalls >>= fun _ => ofExcept result := by
    unfold run
    rw [setupKperf_eq, setupKdebug_eq, teardown_eq, setupCalls, attemptAll_append]
    simp [staleCalls, issueAll, ignored]
  have hpassed : (ofExcept (env.load.mapError mapKperfErr) : Session Unit) answers [] =
      (.ok (), []) := by
    rw [hload]
    rfl
  have hissued : (issue Call.kpcForceAllCtrsGet : Session Answer) answers [] =
      (.ok (answers 0), [(.kpcForceAllCtrsGet, answers 0)]) := rfl
  rw [hrun, bind_apply, hpassed]
  dsimp only
  rw [bind_apply, hissued]
  dsimp only
  rw [if_neg (not_not.mpr hgate), bind_apply, issueAll_apply]
  rfl

/-- A session whose set-up is complete ends with the teardown. -/
theorem run_of_accepted (hload : env.load = .ok ()) (hgate : (answers 0).rc = 0)
    (haccepted : firstRefusal Call.check answers 6 (setupCalls env.nsToTicks config) = .ok ()) :
    ∃ drained n, (run env config answers []).2 =
        cleared answers ++ attempted Call.check answers 6 (setupCalls env.nsToTicks config) ++
          drained ++ answered answers n teardownCalls ∧
      ∀ entry ∈ drained, entry.1.switchesOn = false := by
  rw [run_apply hload hgate, bind_apply, attemptAll_apply, length_cleared, haccepted]
  dsimp only
  obtain ⟨drained, hdrained, hneutral⟩ := onlyIssues_drain env config answers
    (cleared answers ++ attempted Call.check answers 6 (setupCalls env.nsToTicks config))
  refine ⟨drained, (cleared answers ++
    attempted Call.check answers 6 (setupCalls env.nsToTicks config) ++ drained).length, ?_,
    hneutral⟩
  rw [result_bind_apply, hdrained, bind_apply, issueAll_apply]
  rfl

/-- One whose set-up is refused a call ends with that call. -/
theorem run_of_refused (hload : env.load = .ok ()) (hgate : (answers 0).rc = 0)
    (hrefused : firstRefusal Call.check answers 6 (setupCalls env.nsToTicks config) ≠ .ok ()) :
    (run env config answers []).2 =
      cleared answers ++ attempted Call.check answers 6 (setupCalls env.nsToTicks config) := by
  rw [run_apply hload hgate, bind_apply, attemptAll_apply, length_cleared]
  cases hfirst : firstRefusal Call.check answers 6 (setupCalls env.nsToTicks config) with
  | ok _ => exact absurd hfirst hrefused
  | error e => rfl

/-! ## Clean sessions -/

/-- Once a call of the set-up that switches something on has succeeded, the whole set-up does. -/
def SetupHolds (env : Environment) (config : SessionConfig) (answers : ℕ → Answer) : Prop :=
  ∀ before call after, setupCalls env.nsToTicks config = before ++ call :: after →
    call.switchesOn → firstRefusal Call.check answers 6 (before ++ [call]) = .ok () →
    firstRefusal Call.check answers 6 (setupCalls env.nsToTicks config) = .ok ()

/-- Whatever was called before, and whatever was drained without switching anything on, the teardown
leaves the kernel clean. -/
theorem clean_of_accepted {calls drained : List (Call × Answer)} {n : ℕ}
    (hdrained : ∀ entry ∈ drained, entry.1.switchesOn = false) :
    Clean (calls ++ drained ++ answered answers n teardownCalls) := by
  intro before call answer after htrace hon _ off hoff
  have hoffs : off ∈ (answered answers n teardownCalls).map Prod.fst :=
    mem_answered (offCalls_subset_teardownCalls hoff)
  have hnot : (call, answer) ∉ drained ++ answered answers n teardownCalls := by
    intro hmem
    have hneutral : call.switchesOn = false := by
      rcases List.mem_append.mp hmem with hmem | hmem
      · exact hdrained _ hmem
      · exact not_switchesOn_teardownCalls call (mem_of_mem_answered hmem)
    rw [hneutral] at hon
    exact absurd hon (by simp)
  -- the call is in the first part, so the last part is behind it
  rw [List.append_assoc, List.append_eq_append_iff] at htrace
  rcases htrace with ⟨middle, rfl, hmiddle⟩ | ⟨middle, rfl, hmiddle⟩
  · refine absurd ?_ hnot
    rw [hmiddle]
    exact List.mem_append_right _ List.mem_cons_self
  · cases middle with
    | nil =>
        rw [List.nil_append] at hmiddle
        refine absurd ?_ hnot
        rw [← hmiddle]
        exact List.mem_cons_self
    | cons first middle =>
        rw [List.cons_append] at hmiddle
        obtain ⟨-, rfl⟩ := List.cons.inj hmiddle
        rw [List.map_append, List.map_append]
        exact List.mem_append_right _ (List.mem_append_right _ hoffs)

/-- A session whose setup was refused leaves the kernel clean just when nothing was switched on
before the refusal. -/
theorem clean_of_refused_iff
    (hrefused : firstRefusal Call.check answers 6 (setupCalls env.nsToTicks config) ≠ .ok ()) :
    Clean (cleared answers ++ attempted Call.check answers 6 (setupCalls env.nsToTicks config)) ↔
      SetupHolds env config answers := by
  constructor
  · intro hclean before call after hsplit hon haccepted
    obtain ⟨answer, hcheck, rest, hattempted, hrest⟩ := attempted_split haccepted after
    rw [← hsplit] at hattempted
    rw [hattempted, ← List.append_assoc] at hclean
    have hoff := hclean _ call answer rest rfl hon hcheck (.kdebugEnable false)
      List.mem_cons_self
    -- switching tracing off is no part of a set-up
    obtain ⟨entry, hentry, heq⟩ := List.mem_map.mp hoff
    refine absurd ?_ (not_mem_setupCalls env.nsToTicks config)
    rw [hsplit, ← heq]
    exact List.mem_append_right _ (List.mem_cons_of_mem _ (hrest entry hentry))
  · intro hholds before call answer after htrace hon hcheck
    have hmem : (call, answer) ∈ cleared answers ++
        attempted Call.check answers 6 (setupCalls env.nsToTicks config) := by
      rw [htrace]
      exact List.mem_append_right _ List.mem_cons_self
    rcases List.mem_append.mp hmem with hmem | hmem
    · rw [not_switchesOn_cleared answers _ hmem] at hon
      exact absurd hon (by simp)
    · obtain ⟨before', after', hsplit, haccepted⟩ := split_of_mem_attempted hmem hcheck
      exact absurd (hholds before' call after' hsplit hon haccepted) hrefused

/-- A session leaves nothing switched on exactly when its set-up, once it has switched something on,
does not fail: whatever the kernel answers and however the draining ends. -/
theorem run_clean_iff (env : Environment) (config : SessionConfig) (answers : ℕ → Answer) :
    Clean (run env config answers []).2 ↔
      (env.load = .ok () → (answers 0).rc = 0 → SetupHolds env config answers) := by
  by_cases hload : env.load = .ok ()
  · by_cases hgate : (answers 0).rc = 0
    · by_cases haccepted :
          firstRefusal Call.check answers 6 (setupCalls env.nsToTicks config) = .ok ()
      · obtain ⟨drained, n, htrace, hdrained⟩ := run_of_accepted hload hgate haccepted
        rw [htrace]
        exact iff_of_true (clean_of_accepted hdrained) fun _ _ _ _ _ _ _ _ => haccepted
      · rw [run_of_refused hload hgate haccepted, clean_of_refused_iff haccepted]
        exact ⟨fun h _ _ => h, fun h => h hload hgate⟩
    · refine iff_of_true ?_ fun _ h => absurd h hgate
      exact clean_of_not_switchesOn (run_of_gate fun _ => hgate)
  · refine iff_of_true ?_ fun h => absurd h hload
    exact clean_of_not_switchesOn (run_of_gate fun h => absurd h hload)

/-! ## A set-up that fails half-way -/

/-- Fixed counters only, at a thousand samples a second. -/
def fixedCounters : SessionConfig where
  targetPid := 77
  frequencyHz := 1000
  bufRecords := 1000000
  samplers := 1
  pmuEventConfigs := []
  classMask := 1
  filterRangeValue1 := 0
  filterRangeValue2 := 0
  typefilterCscs := [0x2500]

/-- Counting is switched on, and counting for threads is refused. -/
def threadCountingRefused (n : ℕ) : Answer := if n = 14 then { rc := 1 } else {}

theorem run_threadCountingRefused :
    (run {} fixedCounters threadCountingRefused []).1 =
        .error (.kperf "kpc_set_thread_counting" 1) ∧
      (.kpcSetCounting 1, ({} : Answer)) ∈ (run {} fixedCounters threadCountingRefused []).2 ∧
      ¬ Clean (run {} fixedCounters threadCountingRefused []).2 := by
  have htrace : (run {} fixedCounters threadCountingRefused []).2 =
      (run {} fixedCounters threadCountingRefused []).2.take 13 ++
        (.kpcSetCounting 1, ({} : Answer)) :: [(.kpcSetThreadCounting 1, { rc := 1 })] := by
    decide +kernel
  refine ⟨by rfl, ?_, fun hclean => ?_⟩
  · rw [htrace]
    exact List.mem_append_right _ List.mem_cons_self
  · have hoff := hclean _ _ _ _ htrace rfl rfl (.kdebugEnable false) List.mem_cons_self
    exact absurd hoff (by decide)

end Stax.Staxd
