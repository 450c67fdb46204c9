/-
# Stax.Lib.Child — a child process as its parent can know it.

A child may be started suspended; it dies once, and the wait that takes its status reaps it.  From
then on its number may be another process's: a signal sent to it would hit a stranger.

This is what is assumed of the operating system: statuses are laid out as its header says, a wait
fails when it is interrupted or when there is nothing left to wait for, and one that may not block
says when the child is alive.
-/
import Mathlib

namespace Stax.Lib.Child

/-! ## Statuses -/

/-- The signals that a status can tell. -/
structure Signal where
  number : ℕ
  pos : 0 < number
  lt : number < 127
  deriving DecidableEq, Repr

/-- The signal that a process can neither catch nor ignore. -/
def Signal.kill : Signal := ⟨9, by decide, by decide⟩

/-- How a process has died: by itself with a code, or by a signal. -/
inductive Death
  | exited (code : UInt8)
  | signaled (signal : Signal) (coreDumped : Bool)
  deriving DecidableEq, Repr

/-- What `wait` stores for it. -/
def Death.status : Death → BitVec 32
  | .exited code => BitVec.ofNat 32 code.toNat <<< 8
  | .signaled signal coreDumped =>
    BitVec.ofNat 32 signal.number ||| if coreDumped then 0x80#32 else 0#32

/-- `_WSTATUS` -/
def lowStatus (status : BitVec 32) : BitVec 32 := status &&& 0x7f#32

/-- `WIFEXITED` -/
def ifExited (status : BitVec 32) : Bool := lowStatus status = 0#32

/-- `WEXITSTATUS` -/
def exitStatus (status : BitVec 32) : BitVec 32 := status.sshiftRight 8 &&& 0xff#32

/-- `WIFSIGNALED` -/
def ifSignaled (status : BitVec 32) : Bool := lowStatus status ≠ 0x7f#32 ∧ lowStatus status ≠ 0#32

/-- `WTERMSIG` -/
def termSig (status : BitVec 32) : BitVec 32 := status &&& 0x7f#32

theorem status_exited (code : UInt8) :
    ifExited (Death.exited code).status = true ∧
      (exitStatus (Death.exited code).status).toInt = code.toNat := by
  have hall : ∀ n : Fin 256,
      lowStatus (BitVec.ofNat 32 n.val <<< 8) = 0#32 ∧
        (exitStatus (BitVec.ofNat 32 n.val <<< 8)).toInt = n.val := by
    decide +kernel
  obtain ⟨hexited, hcode⟩ := hall ⟨code.toNat, code.toNat_lt⟩
  exact ⟨decide_eq_true hexited, hcode⟩

theorem status_signaled (signal : Signal) (coreDumped : Bool) :
    ifExited (Death.signaled signal coreDumped).status = false ∧
      ifSignaled (Death.signaled signal coreDumped).status = true ∧
      (termSig (Death.signaled signal coreDumped).status).toInt = signal.number := by
  have hall : ∀ (n : Fin 127) (core : Bool), 0 < n.val →
      let status := BitVec.ofNat 32 n.val ||| if core then 0x80#32 else 0#32
      lowStatus status ≠ 0#32 ∧ lowStatus status ≠ 0x7f#32 ∧ (termSig status).toInt = n.val := by
    decide +kernel
  obtain ⟨hzero, hstopped, hsignal⟩ := hall ⟨signal.number, signal.lt⟩ coreDumped signal.pos
  exact ⟨decide_eq_false hzero, decide_eq_true ⟨hstopped, hzero⟩, hsignal⟩

/-! ## Processes -/

/-- A child process as its parent may find it, from its launch until it has been waited for. -/
inductive Process
  | suspended
  | running
  /-- Dead, with its status still to be waited for. -/
  | zombie (death : Death)
  | reaped (death : Death)
  deriving DecidableEq, Repr

/-- What a wait gives its caller; one that must not block may find the child alive. -/
inductive Waited
  | died (status : BitVec 32)
  | alive
  | failed
  deriving DecidableEq, Repr

namespace Process

/-- A process that can still run, be stopped or be killed. -/
def isAlive : Process → Bool
  | suspended | running => true
  | zombie _ | reaped _ => false

/-- The number is still the child's. -/
def isOwn : Process → Bool
  | suspended | running | zombie _ => true
  | reaped _ => false

/-- A process that is alive dies; one that is dead already stays as it is. -/
def die (death : Death) (p : Process) : Process := if p.isAlive then zombie death else p

/-- A suspended process goes on; any other stays as it is. -/
def resume : Process → Process
  | suspended => running
  | p => p

/-- A signal that cannot be caught.  A zombie does not mind, a reaped process does not get it. -/
def kill (p : Process) : Process := p.die (.signaled .kill false)

/-- The wait that does not block. -/
def waitNoHang (interrupted : Bool) : Process → Waited × Process
  | zombie death => if interrupted then (.failed, zombie death) else (.died death.status, reaped death)
  | reaped death => (.failed, reaped death)
  | p => (if interrupted then .failed else .alive, p)

/-- The wait that blocks while the child is alive. -/
def wait (interrupted : Bool) (p : Process) : Option (Waited × Process) :=
  if p.isAlive && !interrupted then none else some (p.waitNoHang interrupted)

variable {p : Process} {death : Death} {interrupted : Bool}

@[simp] theorem isOwn_die : (p.die death).isOwn = p.isOwn := by
  cases p <;> rfl

@[simp] theorem isOwn_kill : p.kill.isOwn = p.isOwn := isOwn_die

@[simp] theorem isOwn_resume : p.resume.isOwn = p.isOwn := by
  cases p <;> rfl

theorem isAlive_kill : p.kill.isAlive = false := by
  cases p <;> rfl

theorem die_of_not_isAlive (h : p.isAlive = false) : p.die death = p := by
  simp [die, h]

theorem die_ne_running (h : p ≠ running) : p.die death ≠ running := by
  cases p <;> simp_all [die, isAlive]

theorem kill_ne_running : p.kill ≠ running := by
  cases p <;> simp [kill, die, isAlive]

/-- A wait takes the status of a zombie, or leaves the child as it is. -/
theorem waitNoHang_cases (interrupted : Bool) (p : Process) :
    (∃ death, interrupted = false ∧ p = zombie death ∧
        p.waitNoHang interrupted = (.died death.status, reaped death)) ∨
      interrupted = false ∧ p.isAlive = true ∧ p.waitNoHang interrupted = (.alive, p) ∨
      (interrupted = true ∨ p.isOwn = false) ∧ p.waitNoHang interrupted = (.failed, p) := by
  cases p <;> cases interrupted <;> simp [waitNoHang, isAlive, isOwn]

end Process

end Stax.Lib.Child
