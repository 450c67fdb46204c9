/-
# Stax.Kperf.JitdumpSafety — what a jitdump file must not say.

The tailer and the pipeline behind it, with every sum and every slice checked: a sum beyond 64 bits,
a slice that ends before it starts and one that ends behind the bytes are errors.  All sums over
places in the file fit, since no file is that long.  The two that take an address or a size from the
file do not have to: the end of the code in its record, and the end of the code in memory.  Whole
runs over a file are safe exactly if these two fit for every code load the ticks come to.
-/
import Stax.Lib.Checked
import Stax.Kperf.JitdumpFrames
import Stax.Kperf.ImageScan

namespace Stax.Kperf

open Stax.Lib Stax.Binaries

/-! ## The tailer -/

/-- A record's payload, where a slice that fails is told. -/
def parseCodeLoadChecked (payload : List UInt8) : Except String (Option JitCodeLoad) :=
  if payload.length < 40 then .ok none
  else do
    let avma ← sliceChecked payload 8 16
    let codeSize ← sliceChecked payload 24 32
    let nameBytes ← sliceChecked payload 40 payload.length
    match nameBytes.findIdx? (· == 0) with
    | none => return none
    | some nul =>
      let name ← sliceChecked nameBytes 0 nul
      let nameEnd ← addChecked 64 40 nul
      let codeStart ← addChecked 64 nameEnd 1
      let codeEnd ← addChecked 64 codeStart (leNat codeSize)
      let code ← if codeEnd ≤ payload.length then sliceChecked payload codeStart codeEnd else .ok []
      return some
        { avma := UInt64.ofNat (leNat avma), codeSize := UInt64.ofNat (leNat codeSize),
          name := fromUtf8Lossy name, code }

/-- Where warnings are logged, the one about a code load names the end of its range. -/
def loadChecked (warns : Bool) (payload : List UInt8) : Except String (Option JitCodeLoad) := do
  match ← parseCodeLoadChecked payload with
  | none => return none
  | some rec =>
    if warns then
      let _ ← addChecked 64 rec.avma.toNat rec.codeSize.toNat
      return some rec
    else return some rec

/-- The loop over the records, where an addition or a slice that fails is told. -/
def tickLoopChecked (warns : Bool) (buf : List UInt8) (cursor : ℕ) (out : List JitCodeLoad) :
    Except String (ℕ × List JitCodeLoad) := do
  let ⟨headEnd, _hhead⟩ ← addChecked 64 cursor 16
  if headEnd ≤ buf.length then
    let ⟨idEnd, _⟩ ← addChecked 64 cursor 4
    let ⟨sizeEnd, _⟩ ← addChecked 64 cursor 8
    let id ← sliceChecked buf cursor idEnd
    let totalSize ← sliceChecked buf idEnd sizeEnd
    if _hmin : leNat totalSize < 16 then return (cursor, out)
    else
      let ⟨recordEnd, _hend⟩ ← addChecked 64 cursor (leNat totalSize)
      if _hwhole : buf.length < recordEnd then return (cursor, out)
      else if leNat id = jitCodeLoad then
        let loaded ← loadChecked warns (← sliceChecked buf headEnd recordEnd)
        tickLoopChecked warns buf recordEnd (out ++ loaded.toList)
      else tickLoopChecked warns buf recordEnd out
  else return (cursor, out)
termination_by buf.length - cursor
decreasing_by all_goals omega

/-- The records from a cursor on, where an addition or a slice that fails is told. -/
def readRecordsChecked (warns : Bool) (self : JitdumpTailer) (buf : List UInt8) (cursor : ℕ) :
    Except String (JitdumpTailer × List JitCodeLoad) := do
  let (cursor, out) ← tickLoopChecked warns buf cursor []
  let offset ← addChecked 64 self.offset cursor
  return ({ self with offset }, out)

/-- One look at the file, where an addition or a slice that fails is told. -/
def tickChecked (warns : Bool) (self : JitdumpTailer) (content : List UInt8) :
    Except String (JitdumpTailer × List JitCodeLoad) :=
  if content.length ≤ self.offset then .ok (self, [])
  else
    let buf := content.drop self.offset
    if self.headerParsed then readRecordsChecked warns self buf 0
    else if buf.length < 40 then .ok (self, [])
    else do
      let magic ← sliceChecked buf 0 4
      if leNat magic ≠ jitdumpMagicLe ∧ leNat magic ≠ jitdumpMagicBe then
        return ({ self with offset := content.length }, [])
      else readRecordsChecked warns { self with headerParsed := true } buf 40

/-! ## The pipeline -/

/-- What the pipeline tells the sink of a code load. -/
def jitBinaryLoaded (pid : UInt32) (hostArch : Option String) (r : JitCodeLoad) (endSvma : Live.Addr) :
    BinaryLoadedEvent where
  pid
  baseAvma := r.avma
  vmsize := r.codeSize
  textSvma := r.avma
  path := "[jit] " ++ r.name
  uuid := none
  arch := hostArch
  isExecutable := false
  symbols := [{ startSvma := r.avma, endSvma, name := utf8Bytes r.name }]
  textBytes := some r.code

/-- A record as a binary of the target, where the sum of its address and size fails or not. -/
def announceChecked (pid : UInt32) (hostArch : Option String) (r : JitCodeLoad) :
    Except String BinaryLoadedEvent := do
  let endSvma ← addChecked 64 r.avma.toNat r.codeSize.toNat
  return jitBinaryLoaded pid hostArch r (UInt64.ofNat endSvma)

/-- The records of one look, announced one after the other. -/
def announceAll (pid : UInt32) (hostArch : Option String) :
    List JitCodeLoad → Except String (List BinaryLoadedEvent)
  | [] => return []
  | r :: records => do
    let event ← announceChecked pid hostArch r
    let events ← announceAll pid hostArch records
    return event :: events

/-- The pipeline over the contents the file has at its ticks. -/
def tailJitdump (warns : Bool) (pid : UInt32) (hostArch : Option String) (self : JitdumpTailer) :
    List (List UInt8) → Except String (List BinaryLoadedEvent)
  | [] => return []
  | content :: contents => do
    let (next, records) ← tickChecked warns self content
    let events ← announceAll pid hostArch records
    let later ← tailJitdump warns pid hostArch next contents
    return events ++ later

/-- A file is shorter than its offsets can say. -/
structure DumpFile where
  bytes : List UInt8
  length_lt : bytes.length < 2 ^ 63

/-- The code of a binary is all of it, or left out. -/
def WholeOrNone (event : BinaryLoadedEvent) : Prop :=
  ∃ code, event.textBytes = some code ∧ (code = [] ∨ code.length = event.vmsize.toNat)

/-! ## What has to fit -/

/-- The end of the code in its record and that in memory are numbers of 64 bits, where the record
has a name. -/
def Fits (payload : List UInt8) : Prop :=
  ∀ nul ∈ nameLength payload,
    41 + nul + statedSize payload < 2 ^ 64 ∧ statedAvma payload + statedSize payload < 2 ^ 64

/-- The code loads that ticks at prefixes of a file come to. -/
def metCodeLoads (file : List UInt8) (offset : ℕ) (lengths : List ℕ) : List (List UInt8) :=
  match headerPlace file offset lengths with
  | none => []
  | some (place, later) => later.flatMap fun n => codeLoads (file.take n) (place + 40)

/-! ## The checked functions, in terms of the records -/

/-- The checked parser by the place of the name's end; it fails only in the sum of the sizes. -/
theorem parseCodeLoadChecked_eq {payload : List UInt8} (hlength : payload.length < 2 ^ 63) :
    parseCodeLoadChecked payload =
      match nameLength payload with
      | none => .ok none
      | some nul =>
        if 41 + nul + statedSize payload < 2 ^ 64 then .ok (some (readLoad payload nul))
        else .error "attempt to add with overflow" := by
  unfold parseCodeLoadChecked
  by_cases hshort : payload.length < 40
  · have hname : nameLength payload = none := if_pos hshort
    rw [if_pos hshort, hname]
  have hname : nameLength payload = (payload.drop 40).findIdx? (· == 0) := if_neg hshort
  have hrest : sliceChecked payload 40 payload.length = .ok (payload.drop 40) := by
    rw [sliceChecked_of_le (by omega) (Nat.le_refl _), slice, ← List.length_drop, List.take_length]
  rw [if_neg hshort, sliceChecked_of_le (by decide) (by omega),
    sliceChecked_of_le (by decide) (by omega), hrest, hname]
  dsimp only [bind, Except.bind]
  cases hnul : (payload.drop 40).findIdx? (· == 0) with
  | none => rfl
  | some nul =>
      have hbounds := nameLength_bounds (hname.trans hnul)
      have hsize : leNat (slice payload 24 (32 - 24)) = statedSize payload := rfl
      dsimp only
      rw [sliceChecked_of_le (Nat.zero_le nul) (by rw [List.length_drop]; omega),
        addChecked_of_lt (by omega)]
      dsimp only
      rw [addChecked_of_lt (by omega), hsize]
      dsimp only
      by_cases hfits : 41 + nul + statedSize payload < 2 ^ 64
      · rw [if_pos hfits, addChecked_of_lt (by omega)]
        have hstart : 40 + nul + 1 = 41 + nul := by omega
        unfold readLoad
        dsimp only
        rw [hstart]
        by_cases hcode : 41 + nul + statedSize payload ≤ payload.length
        · rw [if_pos hcode, if_pos hcode, sliceChecked_of_le (Nat.le_add_right _ _) hcode,
            Nat.add_sub_cancel_left]
          rfl
        · rw [if_neg hcode, if_neg hcode]
          rfl
      · rw [if_neg hfits, addChecked_of_le (by omega)]

/-- The end of a code load in memory fits. -/
def EndFits (r : JitCodeLoad) : Prop := r.avma.toNat + r.codeSize.toNat < 2 ^ 64

theorem endFits_readLoad (payload : List UInt8) (nul : ℕ) :
    EndFits (readLoad payload nul) ↔ statedAvma payload + statedSize payload < 2 ^ 64 := by
  have havma : (readLoad payload nul).avma.toNat = statedAvma payload :=
    UInt64.toNat_ofNat_of_lt' (leNat_slice_lt payload 8 8)
  have hsize : (readLoad payload nul).codeSize.toNat = statedSize payload :=
    UInt64.toNat_ofNat_of_lt' (leNat_slice_lt payload 24 8)
  unfold EndFits
  rw [havma, hsize]

/-- One turn of the loop where a record's head is there. -/
theorem tickLoopChecked_step (warns : Bool) {buf : List UInt8} (hbuf : buf.length < 2 ^ 63)
    {cursor : ℕ} (hhead : cursor + 16 ≤ buf.length) (out : List JitCodeLoad) :
    tickLoopChecked warns buf cursor out =
      let size := leNat (slice buf (cursor + 4) 4)
      if size < 16 ∨ buf.length < cursor + size then .ok (cursor, out)
      else if leNat (slice buf cursor 4) = jitCodeLoad then
        match loadChecked warns (slice buf (cursor + 16) (size - 16)) with
        | .error panic => .error panic
        | .ok loaded => tickLoopChecked warns buf (cursor + size) (out ++ loaded.toList)
      else tickLoopChecked warns buf (cursor + size) out := by
  have hid : sliceChecked buf cursor (cursor + 4) = .ok (slice buf cursor 4) := by
    rw [sliceChecked_of_le (by omega) (by omega), Nat.add_sub_cancel_left]
  have htotal : sliceChecked buf (cursor + 4) (cursor + 8) = .ok (slice buf (cursor + 4) 4) := by
    rw [sliceChecked_of_le (by omega) (by omega), Nat.add_sub_add_left]
  have hfield : leNat (slice buf (cursor + 4) 4) < 2 ^ 32 := leNat_slice_lt buf (cursor + 4) 4
  rw [tickLoopChecked, addChecked_of_lt (by omega)]
  dsimp only [bind, Except.bind]
  rw [if_pos hhead, addChecked_of_lt (by omega)]
  dsimp only
  rw [addChecked_of_lt (by omega)]
  dsimp only
  rw [hid, htotal]
  dsimp only
  by_cases hmin : leNat (slice buf (cursor + 4) 4) < 16
  · rw [dif_pos hmin, if_pos (Or.inl hmin)]
    rfl
  rw [dif_neg hmin, addChecked_of_lt (by omega)]
  dsimp only
  by_cases hwhole : buf.length < cursor + leNat (slice buf (cursor + 4) 4)
  · rw [dif_pos hwhole, if_pos (Or.inr hwhole)]
    rfl
  rw [dif_neg hwhole, if_neg (not_or.mpr ⟨hmin, hwhole⟩)]
  by_cases hload : leNat (slice buf cursor 4) = jitCodeLoad
  · rw [if_pos hload, if_pos hload, sliceChecked_of_le (by omega) (by omega),
      Nat.add_sub_add_left]
    dsimp only
    cases loadChecked warns _ with
    | error panic => rfl
    | ok loaded => rfl
  · rw [if_neg hload, if_neg hload]

/-- The loop takes the code loads it comes to. -/
theorem tickLoopChecked_eq (warns : Bool) {buf : List UInt8} (hbuf : buf.length < 2 ^ 63)
    {cursor : ℕ} (hcursor : cursor ≤ buf.length) (out : List JitCodeLoad) :
    tickLoopChecked warns buf cursor out =
      (loadAll (loadChecked warns) (codeLoads buf cursor)).map fun loaded =>
        (recordsEnd buf cursor, out ++ loaded) := by
  induction cursor using record_induction buf generalizing out with
  | stop cursor h =>
      have hout : Except.map (fun loaded => (cursor, out ++ loaded))
          (Except.ok (ε := String) ([] : List JitCodeLoad)) = .ok (cursor, out) := by
        rw [Except.map, List.append_nil]
      rw [codeLoads_of_none h, recordsEnd_of_none h, loadAll, hout]
      by_cases hhead : cursor + 16 ≤ buf.length
      · rw [tickLoopChecked_step warns hbuf hhead]
        exact if_pos (recordAt_eq_none hhead h)
      · rw [tickLoopChecked, addChecked_of_lt (by omega)]
        exact if_neg hhead
  | next cursor size h ih =>
      obtain ⟨hsize, hmin, hthere⟩ := recordAt_eq_some h
      rw [codeLoads_of_some h, recordsEnd_of_some h, tickLoopChecked_step warns hbuf (by omega)]
      dsimp only
      rw [← hsize, if_neg (by omega)]
      unfold codeLoadAt
      split
      · rw [Option.toList_some, List.singleton_append, loadAll]
        cases loadChecked warns (slice buf (cursor + 16) (size - 16)) with
        | error panic => rfl
        | ok loaded =>
            dsimp only
            rw [ih hthere]
            cases loadAll (loadChecked warns) (codeLoads buf (cursor + size)) with
            | error panic => rfl
            | ok rest => simp only [Except.map, List.append_assoc]
      · rw [Option.toList_none, List.nil_append]
        exact ih hthere out

/-- The checked loop takes the records of the file from the cursor on. -/
theorem readRecordsChecked_eq (warns : Bool) (self : JitdumpTailer) {content : List UInt8}
    (hcontent : content.length < 2 ^ 63) {cursor : ℕ}
    (hcursor : self.offset + cursor ≤ content.length) (hparsed : self.headerParsed = true) :
    readRecordsChecked warns self (content.drop self.offset) cursor =
      takeRecords (loadChecked warns) content (self.offset + cursor) := by
  obtain ⟨hloads, hend⟩ := walk_drop content self.offset cursor
  have hle := recordsEnd_le hcursor
  have hlength : (content.drop self.offset).length = content.length - self.offset :=
    List.length_drop
  unfold readRecordsChecked takeRecords
  rw [tickLoopChecked_eq warns (by omega) (by omega), hloads, ← hparsed]
  cases loadAll (loadChecked warns) (codeLoads content (self.offset + cursor)) with
  | error panic => rfl
  | ok loaded =>
      dsimp only [Except.map, bind, Except.bind]
      rw [addChecked_of_lt (by omega), ← hend]
      rfl

/-- A tick, in terms of the records. -/
theorem tickChecked_eq (warns : Bool) (self : JitdumpTailer) {content : List UInt8}
    (hcontent : content.length < 2 ^ 63) :
    tickChecked warns self content = tickWith (loadChecked warns) self content := by
  unfold tickChecked tickWith
  by_cases hold : content.length ≤ self.offset
  · rw [if_pos hold, if_pos hold]
  rw [if_neg hold, if_neg hold]
  dsimp only
  cases hparsed : self.headerParsed with
  | true => exact readRecordsChecked_eq warns self hcontent (by omega) hparsed
  | false =>
      rw [if_neg Bool.false_ne_true, if_neg Bool.false_ne_true]
      have hlength : (content.drop self.offset).length = content.length - self.offset :=
        List.length_drop
      by_cases hshort : content.length < self.offset + 40
      · rw [if_pos hshort, if_pos (by omega)]
      rw [if_neg hshort, if_neg (by omega), sliceChecked_of_le (Nat.zero_le 4) (by omega),
        slice_drop, Nat.add_zero]
      by_cases hmagic : MagicAt content self.offset
      · rw [if_pos hmagic]
        dsimp only [bind, Except.bind]
        rw [if_neg (fun hnot => hmagic.elim hnot.1 hnot.2)]
        exact readRecordsChecked_eq warns { self with headerParsed := true } hcontent
          (by show self.offset + 40 ≤ content.length; omega) rfl
      · rw [if_neg hmagic]
        exact if_pos (not_or.mp hmagic)

/-! ## One tick -/

section Tick

variable {warns : Bool} {pid : UInt32} {hostArch : Option String}

theorem loadChecked_of_fits {payload : List UInt8} (hlength : payload.length < 2 ^ 63)
    (h : Fits payload) :
    loadChecked warns payload = .ok ((nameLength payload).map (readLoad payload)) := by
  unfold loadChecked
  rw [parseCodeLoadChecked_eq hlength]
  cases hname : nameLength payload with
  | none => rfl
  | some nul =>
      obtain ⟨hcode, hend⟩ := h nul hname
      rw [← endFits_readLoad payload nul] at hend
      dsimp only
      rw [if_pos hcode]
      dsimp only [bind, Except.bind]
      cases warns with
      | false => rfl
      | true => rw [if_pos rfl, addChecked_of_lt hend]; rfl

/-- What a payload that is taken gives. -/
theorem loadChecked_eq_ok {payload : List UInt8} (hlength : payload.length < 2 ^ 63)
    {loaded : Option JitCodeLoad} (h : loadChecked warns payload = .ok loaded) :
    loaded = (nameLength payload).map (readLoad payload) ∧
      ∀ nul ∈ nameLength payload, 41 + nul + statedSize payload < 2 ^ 64 := by
  unfold loadChecked at h
  rw [parseCodeLoadChecked_eq hlength] at h
  cases hname : nameLength payload with
  | none =>
      rw [hname] at h
      cases h
      refine ⟨rfl, ?_⟩
      rintro _ ⟨⟩
  | some nul =>
      rw [hname] at h
      dsimp only at h
      split at h
      · rename_i hcode
        constructor
        · dsimp only [bind, Except.bind] at h
          split at h
          · split at h
            · cases h
            · cases h
              rfl
          · cases h
            rfl
        · rintro _ ⟨⟩
          exact hcode
      · cases h

/-- A payload that is taken fits, if the end of what was taken does. -/
theorem fits_of_loadChecked {payload : List UInt8} (hlength : payload.length < 2 ^ 63)
    {loaded : Option JitCodeLoad} (h : loadChecked warns payload = .ok loaded)
    (hends : ∀ r, loaded = some r → EndFits r) : Fits payload := by
  intro nul hname
  obtain ⟨rfl, hcode⟩ := loadChecked_eq_ok hlength h
  refine ⟨hcode nul hname, (endFits_readLoad payload nul).mp (hends _ ?_)⟩
  rw [Option.mem_def.mp hname, Option.map_some]

theorem exists_announceAll_iff {records : List JitCodeLoad} :
    (∃ events, announceAll pid hostArch records = .ok events) ↔ ∀ r ∈ records, EndFits r := by
  induction records with
  | nil => simp [announceAll, pure, Except.pure]
  | cons r records ih =>
      rw [List.forall_mem_cons, ← ih, announceAll, announceChecked]
      by_cases hfits : EndFits r
      · rw [addChecked_of_lt hfits]
        dsimp only [bind, Except.bind, pure, Except.pure]
        cases announceAll pid hostArch records with
        | error panic => simp
        | ok events => simp [hfits]
      · rw [addChecked_of_le (Nat.le_of_not_lt hfits)]
        simp [bind, Except.bind, hfits]

/-- What the ticks come to is taken and announced exactly if all of it fits. -/
theorem take_and_announce_iff {payloads : List (List UInt8)}
    (hlength : ∀ payload ∈ payloads, payload.length < 2 ^ 63) :
    (∃ records, loadAll (loadChecked warns) payloads = .ok records ∧
        ∃ events, announceAll pid hostArch records = .ok events) ↔
      ∀ payload ∈ payloads, Fits payload := by
  constructor
  · rintro ⟨records, hrecords, hevents⟩ payload hmem
    rw [exists_announceAll_iff] at hevents
    obtain ⟨loaded, hloaded⟩ := exists_loadAll_iff.mp ⟨records, hrecords⟩ payload hmem
    apply fits_of_loadChecked (hlength payload hmem) hloaded
    rintro r rfl
    exact hevents r ((mem_loadAll_iff hrecords r).mpr ⟨payload, hmem, hloaded⟩)
  · intro hfits
    have hload : ∀ payload ∈ payloads, loadChecked warns payload =
        .ok ((nameLength payload).map (readLoad payload)) :=
      fun payload hmem => loadChecked_of_fits (hlength payload hmem) (hfits payload hmem)
    obtain ⟨records, hrecords⟩ := exists_loadAll_iff.mpr
      fun payload hmem => ⟨_, hload payload hmem⟩
    refine ⟨records, hrecords, exists_announceAll_iff.mpr ?_⟩
    intro r hr
    obtain ⟨payload, hmem, htaken⟩ := (mem_loadAll_iff hrecords r).mp hr
    rw [hload payload hmem, Except.ok.injEq, Option.map_eq_some_iff] at htaken
    obtain ⟨nul, hname, rfl⟩ := htaken
    exact (endFits_readLoad payload nul).mpr (hfits payload hmem nul hname).2

/-- A run over one more look at the file goes through if the look, its announcements and the rest
do. -/
theorem exists_tailJitdump_cons {self : JitdumpTailer} {content : List UInt8}
    {contents : List (List UInt8)} :
    (∃ events, tailJitdump warns pid hostArch self (content :: contents) = .ok events) ↔
      ∃ next records, tickChecked warns self content = .ok (next, records) ∧
        (∃ events, announceAll pid hostArch records = .ok events) ∧
        ∃ later, tailJitdump warns pid hostArch next contents = .ok later := by
  rw [tailJitdump]
  cases tickChecked warns self content with
  | error panic => simp [bind, Except.bind]
  | ok taken =>
      obtain ⟨next, records⟩ := taken
      dsimp only [bind, Except.bind, pure, Except.pure]
      cases hevents : announceAll pid hostArch records with
      | error panic => simp [hevents]
      | ok events =>
          dsimp only
          cases hlater : tailJitdump warns pid hostArch next contents with
          | error panic => simp [hlater]
          | ok later => simp [hevents, hlater]

/-- What a tick takes with every sum checked, it takes where sums wrap. -/
theorem loadAll_of_loadChecked {payloads : List (List UInt8)}
    (hlength : ∀ payload ∈ payloads, payload.length < 2 ^ 63) {records : List JitCodeLoad}
    (h : loadAll (loadChecked warns) payloads = .ok records) :
    loadAll parseCodeLoad payloads = .ok records := by
  induction payloads generalizing records with
  | nil => exact h
  | cons payload payloads ih =>
      rw [List.forall_mem_cons] at hlength
      obtain ⟨loaded, rest, hload, hrest, rfl⟩ := loadAll_cons_eq_ok.mp h
      refine loadAll_cons_eq_ok.mpr ⟨loaded, rest, ?_, ih hlength.2 hrest, rfl⟩
      obtain ⟨rfl, hcode⟩ := loadChecked_eq_ok hlength.1 hload
      rw [parseCodeLoad_eq (Nat.lt_trans hlength.1 (by decide))]
      cases hname : nameLength payload with
      | none => rfl
      | some nul => exact if_pos (hcode nul hname)

/-- Where the checked look returns, the look returns the same. -/
theorem tick_of_tickChecked {self next : JitdumpTailer} {content : List UInt8}
    {records : List JitCodeLoad} (hcontent : content.length < 2 ^ 63)
    (h : tickChecked warns self content = .ok (next, records)) :
    self.tick content = .ok (next, records) := by
  have htake : ∀ place, takeRecords (loadChecked warns) content place = .ok (next, records) →
      takeRecords parseCodeLoad content place = .ok (next, records) := by
    intro place htaken
    rw [takeRecords_eq_ok] at htaken ⊢
    refine ⟨htaken.1, loadAll_of_loadChecked ?_ htaken.2⟩
    intro payload hmem
    exact Nat.lt_of_le_of_lt (length_le_of_mem_codeLoads hmem) hcontent
  rw [tickChecked_eq warns self hcontent] at h
  rw [tick_eq]
  unfold tickWith at h ⊢
  by_cases hold : content.length ≤ self.offset
  · rwa [if_pos hold] at h ⊢
  rw [if_neg hold] at h ⊢
  by_cases hparsed : self.headerParsed = true
  · rw [if_pos hparsed] at h ⊢
    exact htake _ h
  rw [if_neg hparsed] at h ⊢
  by_cases hshort : content.length < self.offset + 40
  · rwa [if_pos hshort] at h ⊢
  rw [if_neg hshort] at h ⊢
  by_cases hmagic : MagicAt content self.offset
  · rw [if_pos hmagic] at h ⊢
    exact htake _ h
  · rwa [if_neg hmagic] at h ⊢

end Tick

/-! ## Runs over a file -/

section Run

variable (warns : Bool) (pid : UInt32) (hostArch : Option String)

theorem length_take_lt (file : DumpFile) (n : ℕ) : (file.bytes.take n).length < 2 ^ 63 := by
  have hlength := file.length_lt
  rw [List.length_take]
  omega

/-- A run goes on behind what a tick takes. -/
theorem exists_tailJitdump_take (file : DumpFile) (n place : ℕ) (self : JitdumpTailer)
    (lengths : List ℕ)
    (htick : tickWith (loadChecked warns) self (file.bytes.take n) =
      takeRecords (loadChecked warns) (file.bytes.take n) place) :
    (∃ events, tailJitdump warns pid hostArch self
        ((n :: lengths).map fun n => file.bytes.take n) = .ok events) ↔
      (∀ payload ∈ codeLoads (file.bytes.take n) place, Fits payload) ∧
        ∃ later, tailJitdump warns pid hostArch
            { offset := recordsEnd (file.bytes.take n) place, headerParsed := true }
            (lengths.map fun n => file.bytes.take n) = .ok later := by
  have hlength : ∀ payload ∈ codeLoads (file.bytes.take n) place, payload.length < 2 ^ 63 := by
    intro payload hmem
    exact Nat.lt_of_le_of_lt (length_le_of_mem_codeLoads hmem) (length_take_lt file n)
  rw [List.map_cons, exists_tailJitdump_cons, tickChecked_eq warns _ (length_take_lt file n), htick,
    ← @take_and_announce_iff warns pid hostArch _ hlength]
  constructor
  · rintro ⟨next, records, htaken, hevents, hlater⟩
    obtain ⟨rfl, hrecords⟩ := takeRecords_eq_ok.mp htaken
    exact ⟨⟨records, hrecords, hevents⟩, hlater⟩
  · rintro ⟨⟨records, hrecords, hevents⟩, hlater⟩
    exact ⟨_, records, takeRecords_eq_ok.mpr ⟨rfl, hrecords⟩, hevents, hlater⟩

/-- Once the header is read, a run is safe exactly if all code loads it comes to fit. -/
theorem tailJitdump_parsed_iff (file : DumpFile) (offset : ℕ) (lengths : List ℕ) :
    (∃ events, tailJitdump warns pid hostArch { offset, headerParsed := true }
        (lengths.map fun n => file.bytes.take n) = .ok events) ↔
      ∀ n ∈ lengths, ∀ payload ∈ codeLoads (file.bytes.take n) offset, Fits payload := by
  induction lengths generalizing offset with
  | nil => simp [tailJitdump, pure, Except.pure]
  | cons n lengths ih =>
      rw [exists_tailJitdump_take warns pid hostArch file n offset _ lengths
        (tickWith_parsed _ offset _), ih, List.forall_mem_cons]
      -- what later ticks come to is behind what this one takes, or part of it
      apply and_congr_right
      intro hfits
      constructor
      · intro hlater m hm payload hmem
        rcases mem_codeLoads_or n hmem with hseen | hbehind
        · exact hfits payload hseen
        · exact hlater m hm payload hbehind
      · intro hlater m hm payload hmem
        exact hlater m hm payload (mem_codeLoads_of_recordsEnd hmem)

/-- A run goes through just when the end of every record that it meets is an address. -/
theorem tailJitdump_iff (file : DumpFile) (offset : ℕ) (lengths : List ℕ) :
    (∃ events, tailJitdump warns pid hostArch { offset, headerParsed := false }
        (lengths.map fun n => file.bytes.take n) = .ok events) ↔
      ∀ payload ∈ metCodeLoads file.bytes offset lengths, Fits payload := by
  induction lengths generalizing offset with
  | nil => simp [tailJitdump, metCodeLoads, headerPlace, pure, Except.pure]
  | cons n lengths ih =>
      have htick := tickWith_unparsed (loadChecked warns) offset (file.bytes.take n)
      unfold metCodeLoads at ih ⊢
      rw [headerPlace]
      by_cases hshort : (file.bytes.take n).length < offset + 40
      · rw [if_pos hshort] at htick ⊢
        rw [← ih, List.map_cons, exists_tailJitdump_cons,
          tickChecked_eq warns _ (length_take_lt file n), htick]
        simp [announceAll, pure, Except.pure]
      rw [if_neg hshort] at htick ⊢
      by_cases hmagic : MagicAt (file.bytes.take n) offset
      · rw [if_pos hmagic] at htick ⊢
        rw [exists_tailJitdump_take warns pid hostArch file n (offset + 40) _ lengths htick,
          ← exists_tailJitdump_take warns pid hostArch file n (offset + 40) _ lengths
            (tickWith_parsed _ (offset + 40) _), tailJitdump_parsed_iff]
        simp only [List.mem_flatMap, forall_exists_index, and_imp]
        exact ⟨fun h payload m hm => h m hm payload, fun h m hm payload => h payload m hm⟩
      · rw [if_neg hmagic] at htick ⊢
        rw [← ih, List.map_cons, exists_tailJitdump_cons,
          tickChecked_eq warns _ (length_take_lt file n), htick]
        simp [announceAll, pure, Except.pure]

/-- Every event announced is of one of the records. -/
theorem mem_announceAll {records : List JitCodeLoad} {events : List BinaryLoadedEvent}
    (h : announceAll pid hostArch records = .ok events) {event : BinaryLoadedEvent}
    (hevent : event ∈ events) :
    ∃ r ∈ records, ∃ endSvma, event = jitBinaryLoaded pid hostArch r endSvma := by
  induction records generalizing events with
  | nil =>
      cases h
      cases hevent
  | cons r records ih =>
      rw [announceAll, announceChecked, addChecked] at h
      split at h
      · dsimp only [bind, Except.bind, pure, Except.pure] at h
        split at h
        · cases h
        · rename_i rest hrest
          cases h
          rw [List.mem_cons] at hevent
          rcases hevent with rfl | hevent
          · exact ⟨r, List.mem_cons_self, _, rfl⟩
          · obtain ⟨r', hr', hsame⟩ := ih hrest hevent
            exact ⟨r', List.mem_cons_of_mem r hr', hsame⟩
      · cases h

/-- The code is read whole, or not at all. -/
theorem wholeOrNone_readLoad (payload : List UInt8) (nul : ℕ) (endSvma : Live.Addr) :
    WholeOrNone (jitBinaryLoaded pid hostArch (readLoad payload nul) endSvma) := by
  refine ⟨(readLoad payload nul).code, rfl, ?_⟩
  have hsize : (readLoad payload nul).codeSize.toNat = statedSize payload :=
    UInt64.toNat_ofNat_of_lt' (leNat_slice_lt payload 24 8)
  show _ ∨ _ = (readLoad payload nul).codeSize.toNat
  rw [hsize]
  unfold readLoad
  dsimp only
  split
  · right
    unfold slice
    rw [List.length_take, List.length_drop]
    omega
  · left
    rfl

/-- The code of every binary a run announces is all of it, or left out. -/
theorem wholeOrNone_of_tailJitdump (file : DumpFile) {self : JitdumpTailer} {lengths : List ℕ}
    {events : List BinaryLoadedEvent}
    (h : tailJitdump warns pid hostArch self (lengths.map fun n => file.bytes.take n) =
      .ok events) : ∀ event ∈ events, WholeOrNone event := by
  induction lengths generalizing self events with
  | nil =>
      cases h
      exact List.forall_mem_nil _
  | cons n lengths ih =>
      rw [List.map_cons, tailJitdump] at h
      have hcontent := length_take_lt file n
      cases htick : tickChecked warns self (file.bytes.take n) with
      | error panic =>
          rw [htick] at h
          cases h
      | ok taken =>
          obtain ⟨next, records⟩ := taken
          rw [htick] at h
          dsimp only [bind, Except.bind, pure, Except.pure] at h
          split at h
          · cases h
          rename_i announced hannounced
          split at h
          · cases h
          rename_i later hlater
          cases h
          rw [List.forall_mem_append]
          refine ⟨fun event hevent => ?_, ih hlater⟩
          obtain ⟨r, hr, endSvma, rfl⟩ := mem_announceAll pid hostArch hannounced hevent
          rw [tickChecked_eq warns self hcontent] at htick
          obtain ⟨payload, hmem, hload⟩ := mem_of_tickWith htick hr
          have hread := (loadChecked_eq_ok
            (Nat.lt_of_le_of_lt hmem hcontent) hload).1
          obtain ⟨nul, -, rfl⟩ := Option.map_eq_some_iff.mp hread.symm
          exact wholeOrNone_readLoad pid hostArch payload nul endSvma

end Run

/-- A run over a file panics nowhere, and announces no code of the wrong length, exactly if the
stated ends of every code load it comes to fit in 64 bits. -/
theorem jitdump_safe_iff (warns : Bool) (pid : UInt32) (hostArch : Option String) (file : DumpFile)
    (lengths : List ℕ) :
    (∃ events, tailJitdump warns pid hostArch {} (lengths.map fun n => file.bytes.take n) =
        .ok events ∧ ∀ event ∈ events, WholeOrNone event) ↔
      ∀ payload ∈ metCodeLoads file.bytes 0 lengths, Fits payload := by
  rw [← tailJitdump_iff warns pid hostArch file 0 lengths]
  constructor
  · rintro ⟨events, hevents, -⟩
    exact ⟨events, hevents⟩
  · rintro ⟨events, hevents⟩
    exact ⟨events, hevents, wholeOrNone_of_tailJitdump warns pid hostArch file hevents⟩

/-- A code load that states all of memory as its size. -/
def hugePayload : List UInt8 :=
  leBytes 4 7 ++ leBytes 4 8 ++ leBytes 8 0x1000 ++ leBytes 8 0x1000 ++ leBytes 8 (2 ^ 64 - 1) ++
    leBytes 8 0 ++ [0x66, 0]

/-- A file with a record whose code ends beyond the last address. -/
def hugeFile : DumpFile where
  bytes := smallHeader ++ (leBytes 4 0 ++ leBytes 4 58 ++ leBytes 8 1 ++ hugePayload)
  length_lt := by decide +kernel

theorem hugeFile_panics :
    ¬ ∃ events, tailJitdump true 7 none {} ([98].map fun n => hugeFile.bytes.take n) =
        .ok events ∧ ∀ event ∈ events, WholeOrNone event := by
  rintro ⟨events, hevents, -⟩
  have hfits := (tailJitdump_iff true 7 none hugeFile 0 [98]).mp ⟨events, hevents⟩
  have hmet : hugePayload ∈ metCodeLoads hugeFile.bytes 0 [98] := by
    have hplace : headerPlace hugeFile.bytes 0 [98] = some (0, [98]) := by decide +kernel
    have hrecord : recordAt (hugeFile.bytes.take 98) 40 = some 58 := by decide +kernel
    have hload : codeLoadAt (hugeFile.bytes.take 98) 40 58 = some hugePayload := by decide +kernel
    unfold metCodeLoads
    rw [hplace, List.mem_flatMap]
    refine ⟨98, List.mem_singleton_self 98, ?_⟩
    rw [codeLoads_of_some hrecord, hload]
    exact List.mem_cons_self
  exact absurd (hfits hugePayload hmet 1 (by decide +kernel)).1 (by decide +kernel)

end Stax.Kperf
