/-
# Stax.Kdebug — the kdebug record and the debugid encoding.

One `KdBuf` is one fixed-size record of the kernel trace ring.  Its `debugid` packs a class, a
subclass, a code and a function qualifier; `timestamp` packs the cpuid into the top byte, so it is
masked before it is read as time.  Words the programs only store and compare (frames, thread ids)
keep their machine width; times are natural numbers below `2 ^ 56`.
-/
import Mathlib

namespace Stax

/-! ## The debugid encoding -/

/-- Where the parts of a debugid stand, as the kernel's header lays them out. -/
def kdbgClassMask : UInt32 := 0xff000000
def kdbgClassShift : UInt32 := 24
def kdbgSubclassMask : UInt32 := 0x00ff0000
def kdbgSubclassShift : UInt32 := 16
def kdbgCodeMask : UInt32 := 0x0000fffc
def kdbgCodeShift : UInt32 := 2
def kdbgFuncMask : UInt32 := 0x00000003

/-- The values of the function bits: a record that stands alone, or that opens or closes a bracket.
-/
def dbgFuncNone : UInt32 := 0
def dbgFuncStart : UInt32 := 1
def dbgFuncEnd : UInt32 := 2

/-- Masks the cpuid out of the high 8 bits of a record's timestamp. -/
def kdbgTimestampMask : UInt64 := 0x00ffffffffffffff

/-- A debugid of a class, a subclass and a code, without function bits. -/
def kdbgEventid (cls subclass : UInt8) (code : UInt16) : UInt32 :=
  (cls.toUInt32 <<< kdbgClassShift) ||| (subclass.toUInt32 <<< kdbgSubclassShift) |||
    ((code &&& 0x3fff).toUInt32 <<< kdbgCodeShift)

/-- The class of a debugid, its highest byte. -/
def kdbgClass (debugid : UInt32) : UInt8 :=
  ((debugid &&& kdbgClassMask) >>> kdbgClassShift).toUInt8

/-- The subclass of a debugid, the byte below its class. -/
def kdbgSubclass (debugid : UInt32) : UInt8 :=
  ((debugid &&& kdbgSubclassMask) >>> kdbgSubclassShift).toUInt8

/-- The code of a debugid, fourteen bits above the two of the function. -/
def kdbgCode (debugid : UInt32) : UInt16 :=
  ((debugid &&& kdbgCodeMask) >>> kdbgCodeShift).toUInt16

/-- The function bits of a debugid: none, start or end. -/
def kdbgFunc (debugid : UInt32) : UInt32 :=
  debugid &&& kdbgFuncMask

/-! ## Event classes -/

/-- The class of the scheduler's records, and under it the subclass of theirs; then the class of
kperf. -/
def dbgMach : UInt8 := 1
def dbgMachSched : UInt8 := 0x40
def dbgPerf : UInt8 := 37

namespace MachSched

def sched : UInt16 := 0x0
def stkhandoff : UInt16 := 0x8
def makerunnable : UInt16 := 0x4

end MachSched

namespace Perf

/-- Subclass `PERF_GENERIC`. -/
def scGeneric : UInt8 := 0

/-- Subclass `PERF_CALLSTACK`. -/
def scCallstack : UInt8 := 2

/-- Subclass `PERF_KPC`. -/
def scKpc : UInt8 := 6

def csKsample : UInt16 := 0
def csKdata : UInt16 := 3
def csUdata : UInt16 := 4
def csKhdr : UInt16 := 5
def csUhdr : UInt16 := 6
def csError : UInt16 := 7

def kpcDataThread : UInt16 := 8

end Perf

/-! ## Records -/

/-- One kdebug record.  `arg5` holds the current thread id in records kperf emits. -/
structure KdBuf where
  timestamp : UInt64
  arg1 : UInt64
  arg2 : UInt64
  arg3 : UInt64
  arg4 : UInt64
  arg5 : UInt64
  debugid : UInt32
  cpuid : UInt32
  deriving DecidableEq, Repr

/-- The record's time: `timestamp & KDBG_TIMESTAMP_MASK`. -/
def KdBuf.maskedTimestamp (rec : KdBuf) : ℕ := (rec.timestamp &&& kdbgTimestampMask).toNat

/-- Masked times fit in 56 bits, which is why no sum of durations below ever saturates. -/
theorem KdBuf.maskedTimestamp_lt (rec : KdBuf) : rec.maskedTimestamp < 2 ^ 56 := by
  have hmask : kdbgTimestampMask.toNat = 2 ^ 56 - 1 := rfl
  have hle : rec.maskedTimestamp ≤ 2 ^ 56 - 1 := by
    rw [KdBuf.maskedTimestamp, UInt64.toNat_and, hmask]
    exact Nat.and_le_right
  omega

/-- The four data words a `UDATA`, `KDATA` or `DATA_THREAD` record carries. -/
def KdBuf.args (rec : KdBuf) : List UInt64 := [rec.arg1, rec.arg2, rec.arg3, rec.arg4]

@[simp] theorem KdBuf.length_args (rec : KdBuf) : rec.args.length = 4 := rfl

/-! ## Machine arithmetic -/

/-- `x as u32`, read as a number. -/
def asU32 (x : UInt64) : ℕ := x.toUInt32.toNat

/-- The largest numbers of 32 and of 64 bits, where additions of the code saturate. -/
def u32Max : ℕ := 2 ^ 32 - 1
def u64Max : ℕ := 2 ^ 64 - 1

/-- `u32::saturating_add`. -/
def saturatingAdd32 (a b : ℕ) : ℕ := min (a + b) u32Max

/-- `u64::saturating_add`. -/
def saturatingAdd64 (a b : ℕ) : ℕ := min (a + b) u64Max

theorem saturatingAdd32_eq {a b : ℕ} (h : a + b < 2 ^ 32) : saturatingAdd32 a b = a + b := by
  unfold saturatingAdd32 u32Max
  omega

theorem saturatingAdd64_eq {a b : ℕ} (h : a + b < 2 ^ 64) : saturatingAdd64 a b = a + b := by
  unfold saturatingAdd64 u64Max
  omega

/-- Small words keep their value in 32 bits. -/
theorem toUInt32_inj_of_lt {a b : UInt64} (ha : a.toNat < 2 ^ 32) (hb : b.toNat < 2 ^ 32)
    (h : a.toUInt32 = b.toUInt32) : a = b := by
  have hnat := congrArg UInt32.toNat h
  rw [UInt64.toNat_toUInt32, UInt64.toNat_toUInt32, Nat.mod_eq_of_lt ha,
    Nat.mod_eq_of_lt hb] at hnat
  exact UInt64.toNat_inj.mp hnat

end Stax
