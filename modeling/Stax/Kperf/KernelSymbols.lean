/-
# Stax.Kperf.KernelSymbols — voting for the kernel slide.

`SlideEstimator` counts, for every 16 KiB-aligned slide, the observed kernel addresses that the
slide places inside an executable segment of the kernel image.  Addresses and counts are natural
numbers; segments are half-open.
-/
import Stax.Kdebug

namespace Stax.Kperf

/-- KASLR slides are aligned to 16 KiB pages. -/
def slideAlignment : ℕ := 0x4000

/-- Segments with more candidate slides than this for an address are skipped. -/
def maxPerObs : ℕ := 4096

/-- Votes for the distance between the kernel's image on disk and in memory. -/
structure SlideEstimator where
  execSegments : List (ℕ × ℕ)
  /-- Votes for each slide; an absent slide has none. -/
  votes : ℕ → ℕ
  observed : ℕ

/-- An estimator that has seen no address, for the executable segments of the image. -/
def SlideEstimator.new (execSegments : List (ℕ × ℕ)) : SlideEstimator where
  execSegments := execSegments
  votes _ := 0
  observed := 0

/-- `(x + (SLIDE_ALIGNMENT - 1)) & !(SLIDE_ALIGNMENT - 1)`. -/
def alignUp (x : ℕ) : ℕ := (x + (slideAlignment - 1)) / slideAlignment * slideAlignment

/-- `x & !(SLIDE_ALIGNMENT - 1)`. -/
def alignDown (x : ℕ) : ℕ := x / slideAlignment * slideAlignment

/-- The slides one segment votes for: from `lo` to `hi` in steps of the alignment. -/
def slideCandidates (avma : ℕ) (seg : ℕ × ℕ) : List ℕ :=
  let (segLo, segHi) := seg
  if avma < segLo then []
  else
    let slideMax := avma - segLo
    -- the address lies below the segment's end once it is slid back
    let slideMin := if avma ≥ segHi then avma - segHi + 1 else 0
    let lo := alignUp slideMin
    let hi := alignDown slideMax
    let n := (hi - lo) / slideAlignment
    if n > maxPerObs then []
    else if lo ≤ hi then (List.range (n + 1)).map fun i => lo + i * slideAlignment
    else []

/-- Observe one runtime kernel address. -/
def SlideEstimator.observe (self : SlideEstimator) (avma : ℕ) : SlideEstimator :=
  { self with
    observed := self.observed + 1
    votes := (self.execSegments.flatMap (slideCandidates avma)).foldl
      (fun votes s => Function.update votes s (votes s + 1)) self.votes }

end Stax.Kperf
