/-
# Stax.Live.Classify — from the leaf function of a parked thread to the reason it parked.
-/
import Stax.Live.Counters

namespace Stax.Live

/-! ## The recognised names, in the order they are tried -/

/-- Functions in which a worker waits for something to do. -/
def idleNames : List String :=
  ["__psynch_cvwait", "__ulock_wait", "__ulock_wait2", "__workq_kernreturn", "_pthread_cond_wait",
    "_pthread_cond_timedwait", "_dispatch_workloop_worker_thread"]

/-- Functions in which a thread waits for a mutex or for a lock of readers and writers. -/
def lockNames : List String :=
  ["__psynch_mutexwait", "__psynch_rw_rdlock", "__psynch_rw_wrlock", "__psynch_rw_yieldwrlock",
    "__psynch_rw_upgrade", "__psynch_rw_downgrade", "_pthread_mutex_firstfit_lock_wait",
    "_pthread_mutex_lock", "_pthread_mutex_lock_wait"]

/-- Functions in which a thread waits on a semaphore. -/
def semaphoreNames : List String :=
  ["__semwait_signal", "__semwait_signal_nocancel", "semaphore_wait_trap",
    "semaphore_timedwait_trap", "_dispatch_semaphore_wait"]

/-- Functions in which a thread waits for a message of another task. -/
def ipcNames : List String :=
  ["mach_msg2_trap", "mach_msg_trap", "mach_msg_overwrite_trap", "mach_msg2", "mach_msg",
    "mach_msg_overwrite"]

/-- Functions in which a thread waits until one of several descriptors is ready. -/
def readinessNames : List String :=
  ["kevent", "kevent_id", "kevent_qos", "select", "select$DARWIN_EXTSN",
    "select$DARWIN_EXTSN$NOCANCEL", "pselect", "poll", "ppoll"]

/-- `__semwait_signal_nocancel` is listed here too, but the semaphore names are tried first. -/
def sleepNames : List String :=
  ["nanosleep", "__semwait_signal_nocancel", "__nanosleep", "usleep"]

/-- Functions in which a thread waits for bytes to come in. -/
def readNames : List String :=
  ["read", "__read_nocancel", "recv", "__recvfrom", "recvfrom", "__recvfrom_nocancel", "recvmsg",
    "__recvmsg_nocancel", "pread", "__pread_nocancel", "readv"]

/-- Functions in which a thread waits for bytes to go out. -/
def writeNames : List String :=
  ["write", "__write_nocancel", "send", "__sendto", "sendto", "__sendto_nocancel", "sendmsg",
    "__sendmsg_nocancel", "pwrite", "__pwrite_nocancel", "writev"]

/-- Functions in which a thread waits for a connection or for a file to be opened. -/
def connectNames : List String :=
  ["connect", "__connect_nocancel", "accept", "__accept_nocancel", "open", "__open_nocancel",
    "openat", "__openat_nocancel"]

/-- The reason a thread went off-CPU, from the name of its leaf function. -/
def classifyOffcpu : Option String → OffCpuReason
  | none => .other
  | some name =>
    if name ∈ idleNames then .idle
    else if name ∈ lockNames then .lockWait
    else if name ∈ semaphoreNames then .semaphoreWait
    else if name ∈ ipcNames then .ipcWait
    else if name ∈ readinessNames then .readiness
    else if name ∈ sleepNames then .sleep
    else if name ∈ readNames then .ioRead
    else if name ∈ writeNames then .ioWrite
    else if name ∈ connectNames then .connectionSetup
    else .other

end Stax.Live
