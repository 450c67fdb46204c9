/-
# Stax.Server.PendingTerminals — the terminals that wait for a shade, and the active run.

`start_launch` leaves a terminal under the id of the run it begins, and the run's shade takes it.
When a run ends its terminal is to go with it.  `finalize_run` and `discard_start_failed` remove it;
`begin_run`, which puts away a stopped run that is still marked active, does not.  So every terminal
that waits is the active run's, until `begin_run` finds such a run with its terminal still waiting.
-/
import Stax.Server.RunRegistry
import Stax.Server.Operations

namespace Stax.Server

open Stax.Lib Stax.Lib.Machine

/-! ## Whose terminals wait -/

namespace Lifecycle

variable {self : Lifecycle} {run : RunId}

/-- Every terminal that waits is the active run's. -/
def PendingActive (self : Lifecycle) : Prop :=
  ∀ run ∈ self.terminal.pending, self.inner.IsActive run

/-- The active run has been given its id. -/
def ActiveGiven (self : Lifecycle) : Prop :=
  ∀ run, self.inner.IsActive run → run < self.nextRunId

/-- The active run is over and its terminal waits still. -/
def LeavesTerminal (self : Lifecycle) : Prop :=
  ∃ active, self.inner.active = some active ∧ active.state = .stopped ∧
    active.id ∈ self.terminal.pending

end Lifecycle

/-- The operation comes to `begin_run`. -/
def Operation.Begins : Operation → Prop
  | .startLaunch command _ _ _ _ _ => command ≠ []
  | .startAttach _ _ _ _ => True
  | .startRun _ _ => True
  | _ => False

namespace Lifecycle

variable {self : Lifecycle} {run : RunId}

/-! ## What the parts of an operation keep -/

@[simp] theorem mem_removeTerminal {removed : RunId} :
    run ∈ (self.removeTerminal removed).terminal.pending ↔
      run ≠ removed ∧ run ∈ self.terminal.pending :=
  AList.mem_erase

@[simp] theorem mem_pendTerminal {pended : RunId} {terminal : PendingTerminal} :
    run ∈ (self.pendTerminal pended terminal).terminal.pending ↔
      run = pended ∨ run ∈ self.terminal.pending :=
  AList.mem_insert _

theorem PendingActive.removeTerminal (h : self.PendingActive) (removed : RunId) :
    (self.removeTerminal removed).PendingActive := by
  intro run hrun
  exact h run (mem_removeTerminal.mp hrun).2

theorem PendingActive.discardStartFailed (h : self.PendingActive) (run : RunId) (message : String)
    (now : ℕ) : (self.discardStartFailed run message now).PendingActive := by
  intro other hother
  obtain ⟨hne, hother⟩ := mem_removeTerminal.mp hother
  exact Inner.isActive_discardStartFailed.mpr ⟨h other hother, hne⟩

theorem PendingActive.finalizeRun (h : self.PendingActive) (run : RunId) (reason : StopReason)
    (now : ℕ) : (self.finalizeRun run reason now).PendingActive := by
  rw [Lifecycle.finalizeRun]
  split_ifs with hactive
  · intro other hother
    obtain ⟨hne, hother⟩ := mem_removeTerminal.mp hother
    exact Inner.isActive_takeChild.mpr (Inner.isActive_finalizeRun.mpr ⟨h other hother, hne⟩)
  · exact h.removeTerminal run

theorem PendingActive.stopActive (h : self.PendingActive) (now : ℕ) :
    (self.stopActive now).2.PendingActive := by
  rw [Lifecycle.stopActive]
  split
  · exact h
  · intro run hrun
    exact Inner.isActive_takeChild.mpr (Inner.isActive_stopActive.mpr (h run hrun))

theorem PendingActive.drainerExit (h : self.PendingActive) (run : RunId) (cancelled : Bool)
    (now : ℕ) : (self.drainerExit run cancelled now).PendingActive := by
  rw [Lifecycle.drainerExit]
  split_ifs
  · exact h.finalizeRun run .userStop now
  · exact fun other hother => Inner.isActive_detachIngest.mpr (h other hother)

theorem PendingActive.shadeChildExited (h : self.PendingActive) (run : RunId) (shadePid : Pid)
    (success : Bool) (status : String) (now : ℕ) :
    (self.shadeChildExited run shadePid success status now).PendingActive := by
  have hexited : PendingActive { self with inner := self.inner.shadeChildExited shadePid } :=
    fun other hother => Inner.isActive_shadeChildExited.mpr (h other hother)
  rw [Lifecycle.shadeChildExited]
  split_ifs
  · exact hexited.finalizeRun run _ now
  · exact hexited

theorem PendingActive.attachTerminalChannels (h : self.PendingActive) (run : RunId) :
    (self.attachTerminalChannels run).2.PendingActive := by
  rw [Lifecycle.attachTerminalChannels]
  split
  · exact h.removeTerminal run
  · exact h

theorem PendingActive.startShade (h : self.PendingActive) (run : RunId) (spawn : Except String Pid)
    (now : ℕ) : (self.startShade run spawn now).2.PendingActive := by
  cases spawn with
  | ok pid => exact fun other hother => Inner.isActive_storeChild.mpr (h other hother)
  | error message => exact h.discardStartFailed run message now

/-! ## What a run that begins finds -/

theorem LeavesTerminal.stale (h : self.LeavesTerminal) : self.inner.Stale := by
  obtain ⟨active, hactive, hstopped, -⟩ := h
  exact ⟨active, hactive, hstopped⟩

/-- If none is left behind, no terminal waits where a run can begin. -/
theorem not_mem_pending (h : self.PendingActive) (hnot : ¬ self.LeavesTerminal)
    (hfree : self.inner.active = none ∨ self.inner.Stale) (run : RunId) :
    run ∉ self.terminal.pending := by
  intro hrun
  obtain ⟨active, hactive, hid⟩ := h run hrun
  rcases hfree with hnone | ⟨stale, hstale, hstopped⟩
  · rw [hnone] at hactive
    exact absurd hactive (by simp)
  · obtain rfl : stale = active := Option.some_inj.mp (hstale.symm.trans hactive)
    exact hnot ⟨stale, hstale, hstopped, hid.symm ▸ hrun⟩

theorem isActive_begun (self : Lifecycle) (label : String) (now : ℕ) :
    (self.begun label now).inner.IsActive run ↔ self.nextRunId = run :=
  Inner.isActive_publish

/-- A terminal waits that is not the active run's. -/
def LeftBehind (self : Lifecycle) (run : RunId) : Prop :=
  run ∈ self.terminal.pending ∧ ¬ self.inner.IsActive run

/-- `begin_run` leaves the terminal of the run it puts away behind. -/
theorem LeavesTerminal.leftBehind (h : self.LeavesTerminal) (hgiven : self.ActiveGiven)
    (label : String) (now : ℕ) :
    ∃ run, run ≠ self.nextRunId ∧ (self.begun label now).LeftBehind run := by
  obtain ⟨active, hactive, -, hpending⟩ := h
  have hlt : active.id < self.nextRunId := hgiven active.id ⟨active, hactive, rfl⟩
  refine ⟨active.id, Nat.ne_of_lt hlt, hpending, ?_⟩
  rw [isActive_begun]
  exact Nat.ne_of_gt hlt

/-- Whether the shade is spawned or not, another run's terminal stays behind. -/
theorem LeftBehind.startShade {started : RunId} (h : self.LeftBehind run) (hne : run ≠ started)
    (spawn : Except String Pid) (now : ℕ) :
    (self.startShade started spawn now).2.LeftBehind run := by
  cases spawn with
  | ok pid => exact ⟨h.1, fun hactive => h.2 (Inner.isActive_storeChild.mp hactive)⟩
  | error message =>
      refine ⟨mem_removeTerminal.mpr ⟨hne, h.1⟩, fun hactive => h.2 ?_⟩
      exact (Inner.isActive_discardStartFailed.mp hactive).1

/-- A run begins, and something is done for it that leads to another state. -/
theorem pendingActive_begun_iff {other : Lifecycle} (label : String) (now : ℕ)
    (hgiven : self.ActiveGiven) (h : self.PendingActive)
    (hfree : self.inner.active = none ∨ self.inner.Stale)
    (hkeep : (self.begun label now).PendingActive → other.PendingActive)
    (hleft : ∀ run, run ≠ self.nextRunId → (self.begun label now).LeftBehind run →
      other.LeftBehind run) :
    other.PendingActive ↔ ¬ self.LeavesTerminal := by
  constructor
  · intro hafter hleaves
    obtain ⟨run, hne, hbehind⟩ := hleaves.leftBehind hgiven label now
    have hstays := hleft run hne hbehind
    exact hstays.2 (hafter run hstays.1)
  · intro hnot
    refine hkeep fun run hrun => ?_
    exact absurd hrun (not_mem_pending h hnot hfree run)

theorem pendingActive_startAttach_iff (hgiven : self.ActiveGiven) (h : self.PendingActive)
    (label : String) (now : ℕ) (spawn : Except String Pid) (later : ℕ) :
    (self.startAttach label now spawn later).2.PendingActive ↔ ¬ self.LeavesTerminal := by
  rcases self.beginRun_cases label now with ⟨hbegin, -, hnot⟩ | ⟨hbegin, hfree⟩
  · rw [startAttach, hbegin]
    exact iff_of_true h fun hleaves => hnot hleaves.stale
  · rw [startAttach, hbegin]
    show (Lifecycle.startShade _ self.nextRunId spawn later).2.PendingActive ↔ _
    exact pendingActive_begun_iff label now hgiven h hfree
      (fun hbegun => hbegun.startShade _ spawn later)
      (fun run hne hbehind => hbehind.startShade hne spawn later)

/-- After a launch only the active run's terminal waits, just when the launch leaves none behind. -/
theorem pendingActive_startLaunch_iff (hgiven : self.ActiveGiven) (h : self.PendingActive)
    {command : List String} (hcommand : command ≠ []) (label : String) (now : ℕ)
    (terminal : PendingTerminal) (spawn : Except String Pid) (later : ℕ) :
    (self.startLaunch command label now terminal spawn later).2.PendingActive ↔
      ¬ self.LeavesTerminal := by
  rcases self.beginRun_cases label now with ⟨hbegin, -, hnot⟩ | ⟨hbegin, hfree⟩
  · rw [startLaunch, if_neg hcommand, hbegin]
    exact iff_of_true h fun hleaves => hnot hleaves.stale
  · rw [startLaunch, if_neg hcommand, hbegin]
    show ((Lifecycle.pendTerminal _ self.nextRunId terminal).startShade self.nextRunId spawn
      later).2.PendingActive ↔ _
    refine pendingActive_begun_iff label now hgiven h hfree (fun hbegun => ?_) (fun run hne hbehind => ?_)
    · -- the new run's terminal is the one that waits, and the new run is active
      have hpended : (Lifecycle.pendTerminal (self.begun label now) self.nextRunId
          terminal).PendingActive := by
        intro run hrun
        rcases mem_pendTerminal.mp hrun with rfl | hrun
        · exact (isActive_begun self label now).mpr rfl
        · exact hbegun run hrun
      exact hpended.startShade _ spawn later
    · have hpended : (Lifecycle.pendTerminal (self.begun label now) self.nextRunId
          terminal).LeftBehind run := ⟨mem_pendTerminal.mpr (Or.inr hbehind.1), hbehind.2⟩
      exact hpended.startShade hne spawn later

theorem pendingActive_startRun_iff (hgiven : self.ActiveGiven) (h : self.PendingActive)
    (label : String) (now : ℕ) :
    (self.startRun label now).2.PendingActive ↔ ¬ self.LeavesTerminal := by
  rcases self.beginRun_cases label now with ⟨hbegin, -, hnot⟩ | ⟨hbegin, hfree⟩
  · rw [startRun, hbegin]
    exact iff_of_true h fun hleaves => hnot hleaves.stale
  · rw [startRun, hbegin]
    show PendingActive { self.begun label now with
      inner := (self.begun label now).inner.setIngestAttached } ↔ _
    refine pendingActive_begun_iff label now hgiven h hfree
      (fun hbegun run hrun => ?_) (fun run _ hbehind => ⟨hbehind.1, fun hactive => ?_⟩)
    · exact Inner.isActive_setIngestAttached.mpr (hbegun run hrun)
    · exact hbehind.2 (Inner.isActive_setIngestAttached.mp hactive)

/-! ## Ids are given once -/

/-- The active run stays the active one, or there is none any more. -/
theorem ActiveGiven.of_le {other : Lifecycle} (h : self.ActiveGiven)
    (hactive : ∀ run, other.inner.IsActive run → self.inner.IsActive run)
    (hnext : self.nextRunId ≤ other.nextRunId) : other.ActiveGiven :=
  fun run hrun => lt_of_lt_of_le (h run (hactive run hrun)) hnext

theorem activeGiven_begun (self : Lifecycle) (label : String) (now : ℕ) :
    (self.begun label now).ActiveGiven := by
  intro run hrun
  obtain rfl := (isActive_begun self label now).mp hrun
  exact Nat.lt_succ_self self.nextRunId

theorem ActiveGiven.beginRun (h : self.ActiveGiven) (label : String) (now : ℕ) :
    (self.beginRun label now).2.ActiveGiven := by
  rcases self.beginRun_cases label now with ⟨hbegin, -⟩ | ⟨hbegin, -⟩
  · rw [hbegin]
    exact h.of_le (fun _ => id) (Nat.le_succ _)
  · rw [hbegin]
    exact activeGiven_begun self label now

theorem ActiveGiven.startShade (h : self.ActiveGiven) (run : RunId) (spawn : Except String Pid)
    (now : ℕ) : (self.startShade run spawn now).2.ActiveGiven := by
  cases spawn with
  | ok pid => exact h.of_le (fun _ => Inner.isActive_storeChild.mp) (Nat.le_refl _)
  | error message =>
      exact h.of_le (fun _ hrun => (Inner.isActive_discardStartFailed.mp hrun).1) (Nat.le_refl _)

theorem ActiveGiven.finalizeRun (h : self.ActiveGiven) (run : RunId) (reason : StopReason)
    (now : ℕ) : (self.finalizeRun run reason now).ActiveGiven := by
  rw [Lifecycle.finalizeRun]
  split_ifs
  · exact h.of_le (fun _ hrun => (Inner.isActive_finalizeRun.mp
      (Inner.isActive_takeChild.mp hrun)).1) (Nat.le_refl _)
  · exact h

/-- Every operation keeps the active run's id below the next one. -/
theorem ActiveGiven.after (h : self.ActiveGiven) (operation : Operation) :
    (self.after operation).ActiveGiven := by
  cases operation with
  | startLaunch command label now terminal spawn later =>
      show (self.startLaunch command label now terminal spawn later).2.ActiveGiven
      -- a run that begins takes the next number, and the next one is above it
      have hbegun := h.beginRun label now
      unfold startLaunch
      split_ifs
      · exact h
      · split
        · rename_i hbegin
          rwa [hbegin] at hbegun
        · rename_i run other hbegin
          rw [hbegin] at hbegun
          have hpended : (other.pendTerminal run terminal).ActiveGiven := hbegun
          exact hpended.startShade run spawn later
  | startAttach label now spawn later =>
      show (self.startAttach label now spawn later).2.ActiveGiven
      have hbegun := h.beginRun label now
      unfold startAttach
      split
      · rename_i hbegin
        rwa [hbegin] at hbegun
      · rename_i run other hbegin
        rw [hbegin] at hbegun
        exact hbegun.startShade run spawn later
  | startRun label now =>
      show (self.startRun label now).2.ActiveGiven
      have hbegun := h.beginRun label now
      unfold startRun
      split
      · rename_i hbegin
        rwa [hbegin] at hbegun
      · rename_i run other hbegin
        rw [hbegin] at hbegun
        exact hbegun.of_le (fun _ => Inner.isActive_setIngestAttached.mp) (Nat.le_refl _)
  | attachTerminal run =>
      show (self.attachTerminalChannels run).2.ActiveGiven
      unfold attachTerminalChannels
      split
      · exact h
      · exact h
  | stopActive now =>
      show (self.stopActive now).2.ActiveGiven
      unfold stopActive
      split
      · exact h
      · exact h.of_le (fun _ hrun => Inner.isActive_stopActive.mp
          (Inner.isActive_takeChild.mp hrun)) (Nat.le_refl _)
  | drainerExit run cancelled now =>
      show (self.drainerExit run cancelled now).ActiveGiven
      unfold drainerExit
      split_ifs
      · exact h.finalizeRun run _ now
      · exact h.of_le (fun _ => Inner.isActive_detachIngest.mp) (Nat.le_refl _)
  | shadeExit run shadePid success status now =>
      show (self.shadeChildExited run shadePid success status now).ActiveGiven
      -- no section that ends a run makes another one active
      have hexited : ActiveGiven { self with inner := self.inner.shadeChildExited shadePid } :=
        h.of_le (fun _ => Inner.isActive_shadeChildExited.mp) (Nat.le_refl _)
      unfold shadeChildExited
      dsimp only
      split_ifs
      · exact hexited.finalizeRun run _ now
      · exact hexited

/-! ## Every sequence of operations -/

/-- The operation comes to `begin_run` while the active run is over and its terminal waits still. -/
def Abandons (self : Lifecycle) (operation : Operation) : Prop :=
  operation.Begins ∧ self.LeavesTerminal

/-- An operation keeps the terminals that wait the active run's unless it abandons one. -/
theorem pendingActive_after_iff (hgiven : self.ActiveGiven) (h : self.PendingActive)
    (operation : Operation) :
    (self.after operation).PendingActive ↔ ¬ self.Abandons operation := by
  cases operation with
  | startLaunch command label now terminal spawn later =>
      by_cases hcommand : command = []
      · refine iff_of_true ?_ fun hbegins => hbegins.1 hcommand
        show (self.startLaunch command label now terminal spawn later).2.PendingActive
        rwa [startLaunch, if_pos hcommand]
      · refine Iff.trans ?_ (not_congr (and_iff_right hcommand).symm)
        exact pendingActive_startLaunch_iff hgiven h hcommand label now terminal spawn later
  | startAttach label now spawn later =>
      refine Iff.trans ?_ (not_congr (and_iff_right trivial).symm)
      exact pendingActive_startAttach_iff hgiven h label now spawn later
  | startRun label now =>
      refine Iff.trans ?_ (not_congr (and_iff_right trivial).symm)
      exact pendingActive_startRun_iff hgiven h label now
  | attachTerminal run =>
      exact iff_of_true (h.attachTerminalChannels run) fun hbegins => hbegins.1
  | stopActive now => exact iff_of_true (h.stopActive now) fun hbegins => hbegins.1
  | drainerExit run cancelled now => exact iff_of_true (h.drainerExit run cancelled now) fun hbegins => hbegins.1
  | shadeExit run shadePid success status now =>
      exact iff_of_true (h.shadeChildExited run shadePid success status now) fun hbegins => hbegins.1

/-- Through a sequence of operations every terminal that waits is the active run's, from the start
to the end of each operation's turn, exactly when no operation abandons one. -/
theorem pending_terminals_active_iff (operations : List Operation) :
    (∀ before, before <+: operations → (before.foldl after initial).PendingActive) ↔
      ∀ before operation rest, operations = before ++ operation :: rest →
        ¬ (before.foldl after initial).Abandons operation := by
  have hgiven : initial.ActiveGiven := fun run hrun => absurd hrun (Inner.not_isActive rfl run)
  have hpending : initial.PendingActive := fun run hrun => absurd hrun (AList.notMem_empty run)
  have hkeep (self : Lifecycle) (operation : Operation) :
      self.ActiveGiven → (self.after operation).ActiveGiven :=
    fun hself => hself.after operation
  have hstep (self : Lifecycle) (operation : Operation) :
      self.ActiveGiven → self.PendingActive →
        ((self.after operation).PendingActive ↔ ¬ self.Abandons operation) :=
    fun hself h => pendingActive_after_iff hself h operation
  exact invariant_along_iff hkeep hstep hgiven hpending

/-- A run is launched and stopped before its shade attaches to its terminal and before a drainer is
there, and the next run begins. -/
def stoppedBeforeAttached : List Operation :=
  [.startLaunch ["sleep", "10"] "sleep" 1 { inputFromFrontend := 0, outputToFrontend := 1 }
      (.ok 501) 2,
    .stopActive 3, .startAttach "target" 4 (.ok 502) 5]

/-- The first run's terminal waits still when the second run is the active one; and the server gets
there through the sections of its tasks. -/
theorem stoppedBeforeAttached_leaves :
    ¬ (stoppedBeforeAttached.foldl after initial).PendingActive ∧
      ∀ cache, Leads (ServerState.step cache) .initial fun s =>
        1 ∈ s.pendingTerminals ∧ s.inner.IsActive 2 ∧ ¬ s.inner.IsActive 1 := by
  have hwaits : 1 ∈ (stoppedBeforeAttached.foldl after initial).terminal.pending := by decide
  have hactive : (stoppedBeforeAttached.foldl after initial).inner.IsActive 2 := by decide
  have hnot : ¬ (stoppedBeforeAttached.foldl after initial).inner.IsActive 1 := by decide
  refine ⟨fun hall => hnot (hall 1 hwaits), fun cache => ?_⟩
  have hcalls : ∀ operation ∈ stoppedBeforeAttached, ∀ s, operation.UnderWay s := by
    simp [stoppedBeforeAttached, Operation.UnderWay]
  refine (ServerState.shows_initial.performs_calls hcalls).imp fun s h => ?_
  rw [h.pending, h.inner]
  exact ⟨hwaits, hactive, hnot⟩

end Lifecycle

end Stax.Server
