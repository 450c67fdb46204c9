/-
# Stax.Kperf.JitdumpTail — reading a jitdump file while the runtime writes it.

A tick reads what the file has gained since the last one, checks the global header once it is there,
and takes the records that are whole.  What it has taken after any ticks is decided by the longest
prefix it saw: the code loads among the records that are whole in it.  So however the file grew, in
the end every code load came out once, in the order of the file.

The file is the list of its bytes.  A slice that ends before it starts panics in the source and is
an error here; sums wrap as in a release build.
-/
import Stax.Lib.Bytes
import Stax.Lib.Framing

namespace Stax.Kperf

open Stax.Lib Stax.Lib.Framing

/-! ## The tailer -/

/-- The magic number of a dump, as it reads in either byte order, and the kind of record that
announces code. -/
def jitdumpMagicLe : ℕ := 0x4474694a

/-- The magic number of a file that was written with the highest byte first. -/
def jitdumpMagicBe : ℕ := 0x4a695444

/-- The kind of record that says code was loaded. -/
def jitCodeLoad : ℕ := 0

/-- A function that a just-in-time compiler has put into memory. -/
structure JitCodeLoad where
  avma : UInt64
  codeSize : UInt64
  name : String
  code : List UInt8
  deriving DecidableEq, Repr

/-- How far the file has been read, and whether its header has been taken. -/
structure JitdumpTailer where
  offset : ℕ := 0
  headerParsed : Bool := false
  deriving DecidableEq, Repr

/-- The name up to the first zero byte, then the code, if all of it is there. -/
def parseCodeLoad (payload : List UInt8) : Except String (Option JitCodeLoad) :=
  if payload.length < 40 then .ok none
  else
    let avma := UInt64.ofNat (leNat (slice payload 8 8))
    let codeSize := UInt64.ofNat (leNat (slice payload 24 8))
    let nameBytes := payload.drop 40
    match nameBytes.findIdx? (· == 0) with
    | none => .ok none
    | some nul =>
      let name := fromUtf8Lossy (nameBytes.take nul)
      let codeStart := 40 + nul + 1
      let codeEnd := (codeStart + codeSize.toNat) % 2 ^ 64
      if codeEnd ≤ payload.length then
        if codeEnd < codeStart then .error "slice index starts after its end"
        else .ok (some
          { avma, codeSize, name, code := slice payload codeStart (codeEnd - codeStart) })
      else .ok (some { avma, codeSize, name, code := [] })

/-- The `while` loop over the records; it stops at one that is malformed or not whole. -/
def tickLoop (buf : List UInt8) (cursor : ℕ) (out : List JitCodeLoad) :
    Except String (ℕ × List JitCodeLoad) :=
  if cursor + 16 ≤ buf.length then
    let id := leNat (slice buf cursor 4)
    let totalSize := leNat (slice buf (cursor + 4) 4)
    if totalSize < 16 ∨ buf.length < cursor + totalSize then .ok (cursor, out)
    else if id = jitCodeLoad then
      match parseCodeLoad (slice buf (cursor + 16) (totalSize - 16)) with
      | .error panic => .error panic
      | .ok loaded => tickLoop buf (cursor + totalSize) (out ++ loaded.toList)
    else tickLoop buf (cursor + totalSize) out
  else .ok (cursor, out)
termination_by buf.length - cursor
decreasing_by all_goals omega

namespace JitdumpTailer

/-- Takes the records from `cursor` on and moves past them. -/
def readRecords (self : JitdumpTailer) (buf : List UInt8) (cursor : ℕ) :
    Except String (JitdumpTailer × List JitCodeLoad) :=
  match tickLoop buf cursor [] with
  | .error panic => .error panic
  | .ok (cursor, out) => .ok ({ self with offset := self.offset + cursor }, out)

/-- One look at the file: the header first if it has still to come, then all the records that are
whole. -/
def tick (self : JitdumpTailer) (content : List UInt8) :
    Except String (JitdumpTailer × List JitCodeLoad) :=
  if content.length ≤ self.offset then .ok (self, [])
  else
    let buf := content.drop self.offset
    if self.headerParsed then self.readRecords buf 0
    else if buf.length < 40 then .ok (self, [])
    else
      let magic := leNat (slice buf 0 4)
      if magic ≠ jitdumpMagicLe ∧ magic ≠ jitdumpMagicBe then
        .ok ({ self with offset := content.length }, [])
      else { self with headerParsed := true }.readRecords buf 40

/-- One tick after the other. -/
def ticks (self : JitdumpTailer) : List (List UInt8) →
    Except String (JitdumpTailer × List JitCodeLoad)
  | [] => .ok (self, [])
  | content :: contents =>
    match self.tick content with
    | .error panic => .error panic
    | .ok (next, out) =>
      match next.ticks contents with
      | .error panic => .error panic
      | .ok (last, outs) => .ok (last, out ++ outs)

end JitdumpTailer

/-! ## The file -/

/-- A record as a runtime writes it. -/
inductive JitRecord
  | codeLoad (timestamp : UInt64) (pid tid : UInt32) (vma codeAddr codeIndex : UInt64)
      (name : String) (code : List UInt8)
  | other (id : UInt32) (timestamp : UInt64) (payload : List UInt8)
  deriving DecidableEq, Repr

namespace JitRecord

/-- The kind of a record, zero for code. -/
def id : JitRecord → UInt32
  | codeLoad .. => 0
  | other id .. => id

/-- When the record was written. -/
def timestamp : JitRecord → UInt64
  | codeLoad timestamp .. => timestamp
  | other _ timestamp _ => timestamp

/-- What a record holds behind its head, in the order of the format. -/
def payload : JitRecord → List UInt8
  | codeLoad _ pid tid vma codeAddr codeIndex name code =>
    (leBytes 4 pid.toNat ++ leBytes 4 tid.toNat) ++ (leBytes 8 vma.toNat ++
      (leBytes 8 codeAddr.toNat ++ (leBytes 8 code.length ++
        (leBytes 8 codeIndex.toNat ++ (utf8Bytes name ++ 0 :: code)))))
  | other _ _ payload => payload

/-- The record's `total_size`. -/
def size (r : JitRecord) : ℕ := 16 + r.payload.length

/-- A record as it is written to the file: its head, then its payload. -/
def encode (r : JitRecord) : List UInt8 :=
  leBytes 4 r.id.toNat ++ (leBytes 4 r.size ++ (leBytes 8 r.timestamp.toNat ++ r.payload))

/-- The size fits its field; a name has no zero byte, and what is no code load does not say it is. -/
def WellFormed (r : JitRecord) : Prop :=
  r.size < 2 ^ 32 ∧
    match r with
    | codeLoad _ _ _ _ _ _ name _ => 0 ∉ utf8Bytes name
    | other id _ _ => id ≠ 0

/-- What a reader is told of a record. -/
def loaded : JitRecord → Option JitCodeLoad
  | codeLoad _ _ _ vma _ _ name code =>
    some { avma := vma, codeSize := UInt64.ofNat code.length, name, code }
  | other .. => none

theorem size_pos (r : JitRecord) : 0 < r.size := by
  unfold size
  omega

@[simp] theorem length_encode (r : JitRecord) : r.encode.length = r.size := by
  unfold encode size
  simp only [List.length_append, length_leBytes]
  omega

theorem length_flatMap_encode (rs : List JitRecord) :
    (rs.flatMap encode).length = span size rs := by
  rw [List.length_flatMap]
  simp only [length_encode]
  rfl

end JitRecord

/-- A header of forty bytes that starts with one of the magic numbers. -/
structure ValidHeader (header : List UInt8) : Prop where
  length : header.length = 40
  magic : leNat (slice header 0 4) = jitdumpMagicLe ∨ leNat (slice header 0 4) = jitdumpMagicBe

/-- The whole file. -/
def jitdumpFile (header : List UInt8) (records : List JitRecord) : List UInt8 :=
  header ++ records.flatMap JitRecord.encode

/-! ## Reading a record -/

theorem findIdx?_zero {name code : List UInt8} (h : 0 ∉ name) :
    (name ++ 0 :: code).findIdx? (· == 0) = some name.length := by
  rw [List.findIdx?_append]
  have hnone : name.findIdx? (· == 0) = none := by
    rw [List.findIdx?_eq_none_iff]
    intro b hb
    rw [beq_eq_false_iff_ne]
    rintro rfl
    exact h hb
  rw [hnone, List.findIdx?_cons]
  simp

/-- The payload of a code load is read back. -/
theorem parseCodeLoad_payload (timestamp : UInt64) (pid tid : UInt32) (vma codeAddr codeIndex : UInt64)
    (name : String) (code : List UInt8)
    (h : (JitRecord.codeLoad timestamp pid tid vma codeAddr codeIndex name code).WellFormed) :
    parseCodeLoad (JitRecord.codeLoad timestamp pid tid vma codeAddr codeIndex name code).payload =
      .ok (some { avma := vma, codeSize := UInt64.ofNat code.length, name, code }) := by
  obtain ⟨hsize, hname⟩ := h
  have hname : 0 ∉ utf8Bytes name := hname
  have hlength : (JitRecord.codeLoad timestamp pid tid vma codeAddr codeIndex name code).payload.length =
      41 + (utf8Bytes name).length + code.length := by
    unfold JitRecord.payload
    simp only [List.length_append, length_leBytes, List.length_cons]
    omega
  unfold JitRecord.size at hsize
  rw [hlength] at hsize
  -- the fields, each behind those before it
  obtain ⟨payload, hpayload⟩ : ∃ payload,
      payload = (JitRecord.codeLoad timestamp pid tid vma codeAddr codeIndex name code).payload :=
    ⟨_, rfl⟩
  rw [← hpayload] at hlength ⊢
  unfold JitRecord.payload at hpayload
  dsimp only at hpayload
  have hvma : slice payload 8 8 = leBytes 8 vma.toNat := by
    refine slice_eq hpayload ?_ (length_leBytes 8 _)
    rw [List.length_append, length_leBytes, length_leBytes]
  have hcodeSize : slice payload 24 8 = leBytes 8 code.length := by
    rw [← List.append_assoc (leBytes 8 vma.toNat), ← List.append_assoc] at hpayload
    refine slice_eq hpayload ?_ (length_leBytes 8 _)
    simp only [List.length_append, length_leBytes]
  have htail : ∃ fields, fields.length = 40 ∧ payload = fields ++ (utf8Bytes name ++ 0 :: code) := by
    simp only [← List.append_assoc] at hpayload
    rw [List.append_assoc _ (utf8Bytes name)] at hpayload
    refine ⟨_, ?_, hpayload⟩
    simp only [List.length_append, length_leBytes]
  obtain ⟨fields, hfields, htail⟩ := htail
  have hdrop : payload.drop 40 = utf8Bytes name ++ 0 :: code := by
    rw [htail]
    exact List.drop_left' hfields
  have hcode : slice payload (40 + (utf8Bytes name).length + 1) code.length = code := by
    have hsplit : payload = (fields ++ (utf8Bytes name ++ [0])) ++ (code ++ []) := by
      rw [htail]
      simp
    refine slice_eq hsplit ?_ rfl
    rw [List.length_append, List.length_append, hfields, List.length_singleton, Nat.add_assoc]
  have hcodeLength : (UInt64.ofNat code.length).toNat = code.length :=
    UInt64.toNat_ofNat_of_lt' (Nat.lt_trans (by omega : code.length < 2 ^ 32) (by decide))
  have hvmaNat : leNat (leBytes 8 vma.toNat) = vma.toNat := leNat_leBytes_of_lt vma.toNat_lt
  have hcodeNat : leNat (leBytes 8 code.length) = code.length := leNat_leBytes_of_lt (by omega)
  unfold parseCodeLoad
  rw [if_neg (by omega)]
  dsimp only
  rw [hdrop, findIdx?_zero hname]
  dsimp only
  rw [hvma, hcodeSize, hvmaNat, hcodeNat, hcodeLength, UInt64.ofNat_toNat, List.take_left,
    fromUtf8Lossy_utf8Bytes, Nat.mod_eq_of_lt (by omega), if_pos (by omega), if_neg (by omega),
    Nat.add_sub_cancel_left, hcode]

/-! ## Reading the records -/

/-- The first fields of a record, where at least these are there. -/
theorem slices_of_head {r : JitRecord} {rest buf : List UInt8} {cursor n : ℕ} (hn : 8 ≤ n)
    (hbuf : buf.drop cursor = (r.encode ++ rest).take n) (hcursor : cursor ≤ buf.length) :
    slice buf cursor 4 = leBytes 4 r.id.toNat ∧ slice buf (cursor + 4) 4 = leBytes 4 r.size := by
  have hhead : ∃ after, buf.drop cursor = leBytes 4 r.id.toNat ++ (leBytes 4 r.size ++ after) := by
    refine ⟨((leBytes 8 r.timestamp.toNat ++ r.payload) ++ rest).take (n - 4 - 4), ?_⟩
    rw [hbuf, JitRecord.encode, List.append_assoc, List.append_assoc, List.take_append,
      List.take_append, length_leBytes, length_leBytes,
      List.take_of_length_le (by rw [length_leBytes]; omega),
      List.take_of_length_le (by rw [length_leBytes]; omega)]
  obtain ⟨after, hhead⟩ := hhead
  have hlength : (buf.take cursor).length = cursor := List.length_take_of_le hcursor
  have hsplit : buf = buf.take cursor ++ (leBytes 4 r.id.toNat ++ (leBytes 4 r.size ++ after)) := by
    rw [← hhead, List.take_append_drop]
  refine ⟨slice_eq hsplit hlength (length_leBytes 4 _), ?_⟩
  rw [← List.append_assoc] at hsplit
  refine slice_eq hsplit ?_ (length_leBytes 4 _)
  rw [List.length_append, hlength, length_leBytes]

/-- One step of the loop at a whole record. -/
theorem tickLoop_step {r : JitRecord} (h : r.WellFormed) {buf rest : List UInt8} {cursor : ℕ}
    (out : List JitCodeLoad) (hbuf : buf.drop cursor = r.encode ++ rest)
    (hcursor : cursor ≤ buf.length) :
    tickLoop buf cursor out = tickLoop buf (cursor + r.size) (out ++ r.loaded.toList) := by
  have hsize : 16 ≤ r.size := Nat.le_add_right 16 _
  have hlength := congrArg List.length hbuf
  rw [List.length_drop, List.length_append, JitRecord.length_encode] at hlength
  obtain ⟨hid, htotal⟩ := slices_of_head (n := (r.encode ++ rest).length)
    (by rw [List.length_append, JitRecord.length_encode]; omega)
    (by rw [hbuf, List.take_length]) hcursor
  have hpayload : slice buf (cursor + 16) (r.size - 16) = r.payload := by
    have hsplit : buf = (buf.take cursor ++ (leBytes 4 r.id.toNat ++ (leBytes 4 r.size ++
        leBytes 8 r.timestamp.toNat))) ++ (r.payload ++ rest) := by
      rw [JitRecord.encode] at hbuf
      simp only [List.append_assoc] at hbuf ⊢
      rw [← hbuf, List.take_append_drop]
    refine slice_eq hsplit ?_ (Nat.add_sub_cancel_left 16 _).symm
    rw [List.length_append, List.length_take_of_le hcursor, List.length_append, List.length_append,
      length_leBytes, length_leBytes, length_leBytes]
  have hidNat : leNat (leBytes 4 r.id.toNat) = r.id.toNat := leNat_leBytes_of_lt r.id.toNat_lt
  have hsizeNat : leNat (leBytes 4 r.size) = r.size := leNat_leBytes_of_lt h.1
  rw [tickLoop.eq_def, if_pos (by omega), hid, htotal, hidNat, hsizeNat]
  dsimp only
  rw [if_neg (by omega), hpayload]
  cases r with
  | codeLoad timestamp pid tid vma codeAddr codeIndex name code =>
      have hload : (JitRecord.codeLoad timestamp pid tid vma codeAddr codeIndex name code).id.toNat =
          jitCodeLoad := rfl
      rw [if_pos hload,
        parseCodeLoad_payload timestamp pid tid vma codeAddr codeIndex name code h]
      rfl
  | other id timestamp payload =>
      have hother : id ≠ 0 := h.2
      have hnot : ¬ id.toNat = jitCodeLoad := fun heq => hother (UInt32.toNat_inj.mp heq)
      rw [JitRecord.loaded, Option.toList_none, List.append_nil]
      exact if_neg hnot

/-- The loop takes the records that are whole, and stops at the first that is not. -/
theorem tickLoop_spec {rs : List JitRecord} (h : ∀ r ∈ rs, r.WellFormed) {buf : List UInt8}
    {cursor n : ℕ} (out : List JitCodeLoad)
    (hbuf : buf.drop cursor = (rs.flatMap JitRecord.encode).take n) (hcursor : cursor ≤ buf.length) :
    tickLoop buf cursor out =
      .ok (cursor + span JitRecord.size (complete JitRecord.size rs n),
        out ++ (complete JitRecord.size rs n).filterMap JitRecord.loaded) := by
  induction rs generalizing cursor n out with
  | nil =>
      have hlength := congrArg List.length hbuf
      rw [List.flatMap_nil, List.take_nil, List.length_drop, List.length_nil] at hlength
      rw [tickLoop, if_neg (by omega), complete]
      simp [span]
  | cons r rs ih =>
      rw [List.forall_mem_cons] at h
      rw [List.flatMap_cons] at hbuf
      rw [complete]
      -- the record is there in full, or the file ends within it
      by_cases hwhole : r.size ≤ n
      · rw [if_pos hwhole]
        rw [List.take_append, JitRecord.length_encode, List.take_of_length_le
          (by rw [JitRecord.length_encode]; exact hwhole)] at hbuf
        have hlength := congrArg List.length hbuf
        rw [List.length_drop, List.length_append, JitRecord.length_encode] at hlength
        have hpos := r.size_pos
        have hnext : buf.drop (cursor + r.size) =
            (rs.flatMap JitRecord.encode).take (n - r.size) := by
          rw [← List.drop_drop, hbuf, List.drop_left' (JitRecord.length_encode r)]
        rw [tickLoop_step h.1 out hbuf hcursor, ih h.2 _ hnext (by omega), span_cons,
          Nat.add_assoc, List.filterMap_cons]
        cases r.loaded with
        | none => rw [Option.toList_none, List.append_nil]
        | some loaded => rw [Option.toList_some, List.append_assoc, List.singleton_append]
      · rw [if_neg hwhole]
        have hlength := congrArg List.length hbuf
        rw [List.length_drop, List.length_take] at hlength
        rw [tickLoop.eq_def]
        -- a torn record shows its size or not; the loop stops either way
        by_cases hheader : cursor + 16 ≤ buf.length
        · obtain ⟨-, htotal⟩ := slices_of_head (by omega) hbuf hcursor
          have hsizeNat : leNat (leBytes 4 r.size) = r.size := leNat_leBytes_of_lt h.1.1
          rw [if_pos hheader, htotal, hsizeNat]
          dsimp only
          rw [if_pos (by omega)]
          simp [span]
        · rw [if_neg hheader]
          simp [span]

/-! ## Ticks -/

section Ticks

variable {header : List UInt8} {records : List JitRecord}

/-- The records that are whole in a prefix of the file. -/
def takenBy (records : List JitRecord) (length : ℕ) : List JitRecord :=
  complete JitRecord.size records (length - 40)

/-- The records that become whole between two prefixes. -/
def takenBetween (records : List JitRecord) (seen now : ℕ) : List JitRecord :=
  complete JitRecord.size (pending JitRecord.size records (seen - 40))
    (now - 40 - span JitRecord.size (takenBy records seen))

theorem takenBy_of_le {seen now : ℕ} (h : seen ≤ now) :
    takenBy records now = takenBy records seen ++ takenBetween records seen now :=
  complete_of_le (Nat.sub_le_sub_right h 40)

/-- The tailer when the longest prefix it has seen has some length. -/
def tailerAt (records : List JitRecord) (length : ℕ) : JitdumpTailer :=
  if length < 40 then {}
  else { offset := 40 + span JitRecord.size (takenBy records length), headerParsed := true }

/-- Before the header is there nothing is taken. -/
theorem takenBy_of_lt {length : ℕ} (h : length < 40) : takenBy records length = [] := by
  unfold takenBy
  rw [Nat.sub_eq_zero_of_le (Nat.le_of_lt h), complete_zero JitRecord.size_pos]

/-- Nothing becomes whole in what is already read past. -/
theorem takenBetween_of_le {seen now : ℕ}
    (h : now ≤ 40 + span JitRecord.size (takenBy records seen)) :
    takenBetween records seen now = [] := by
  have hzero : now - 40 - span JitRecord.size (takenBy records seen) = 0 := by omega
  unfold takenBetween
  rw [hzero, complete_zero JitRecord.size_pos]

/-- The bytes behind the records that are whole are those of the others. -/
theorem drop_jitdumpFile (hheader : header.length = 40) (length : ℕ) :
    (jitdumpFile header records).drop (40 + span JitRecord.size (takenBy records length)) =
      (pending JitRecord.size records (length - 40)).flatMap JitRecord.encode := by
  have hsplit : records.flatMap JitRecord.encode =
      (takenBy records length).flatMap JitRecord.encode ++
        (pending JitRecord.size records (length - 40)).flatMap JitRecord.encode := by
    rw [← List.flatMap_append, takenBy, complete_append_pending]
  rw [jitdumpFile, ← List.drop_drop, List.drop_left' hheader, hsplit,
    List.drop_left' (JitRecord.length_flatMap_encode _)]

/-- Reading on from where the tailer stands. -/
theorem readRecords_spec (hheader : header.length = 40) (hrecords : ∀ r ∈ records, r.WellFormed)
    {seen now cursor : ℕ} (hle : seen ≤ now) (hnow : 40 ≤ now) (self : JitdumpTailer)
    (hparsed : self.headerParsed = true)
    (hcursor : self.offset + cursor = 40 + span JitRecord.size (takenBy records seen))
    (hthere : self.offset + cursor ≤ ((jitdumpFile header records).take now).length) :
    self.readRecords (((jitdumpFile header records).take now).drop self.offset) cursor =
      .ok (tailerAt records now,
        (takenBetween records seen now).filterMap JitRecord.loaded) := by
  set file := jitdumpFile header records with hfile
  have hpending : ∀ r ∈ pending JitRecord.size records (seen - 40), r.WellFormed :=
    fun r hr => hrecords r (List.mem_of_mem_drop hr)
  have hbuf : ((file.take now).drop self.offset).drop cursor =
      ((pending JitRecord.size records (seen - 40)).flatMap JitRecord.encode).take
        (now - 40 - span JitRecord.size (takenBy records seen)) := by
    rw [List.drop_drop, List.drop_take, hcursor, drop_jitdumpFile hheader, Nat.sub_sub]
  unfold JitdumpTailer.readRecords
  rw [tickLoop_spec hpending [] hbuf (by rw [List.length_drop]; omega)]
  unfold tailerAt
  rw [if_neg (by omega), takenBy_of_le hle, span_append, List.nil_append]
  dsimp only
  rw [← Nat.add_assoc, ← Nat.add_assoc, hcursor, hparsed]
  rfl

/-- A tick takes the records that have become whole. -/
theorem tick_spec (hheader : ValidHeader header) (hrecords : ∀ r ∈ records, r.WellFormed)
    {seen now : ℕ} (hle : seen ≤ now) (hfile : now ≤ (jitdumpFile header records).length) :
    (tailerAt records seen).tick ((jitdumpFile header records).take now) =
      .ok (tailerAt records now,
        (takenBetween records seen now).filterMap JitRecord.loaded) := by
  have hlength : ((jitdumpFile header records).take now).length = now :=
    List.length_take_of_le hfile
  unfold JitdumpTailer.tick
  rw [hlength]
  by_cases hseen : seen < 40
  · have hstart : tailerAt records seen = {} := if_pos hseen
    have htaken : takenBy records seen = [] := takenBy_of_lt hseen
    rw [hstart]
    dsimp only
    rw [List.drop_zero, hlength]
    by_cases hnow : now < 40
    · have hnone : takenBetween records seen now = [] := takenBetween_of_le (by omega)
      have hstill : tailerAt records now = {} := if_pos hnow
      rw [hnone, hstill, if_pos hnow]
      simp
    · -- the header is there now
      have hmagic : slice ((jitdumpFile header records).take now) 0 4 = slice header 0 4 := by
        unfold slice jitdumpFile
        rw [List.drop_zero, List.drop_zero, List.take_take, Nat.min_eq_left (by omega),
          List.take_append_of_le_length (by rw [hheader.length]; omega)]
      have hvalid : ¬ (leNat (slice header 0 4) ≠ jitdumpMagicLe ∧
          leNat (slice header 0 4) ≠ jitdumpMagicBe) :=
        fun hnot => hheader.magic.elim hnot.1 hnot.2
      rw [if_neg (by omega), if_neg Bool.false_ne_true, if_neg hnow, hmagic, if_neg hvalid]
      refine readRecords_spec hheader.length hrecords hle (Nat.le_of_not_lt hnow)
        { offset := 0, headerParsed := true } rfl ?_ ?_
      · rw [htaken]
        rfl
      · rw [hlength]
        show 0 + 40 ≤ now
        omega
  · have hstart : tailerAt records seen =
        { offset := 40 + span JitRecord.size (takenBy records seen), headerParsed := true } :=
      if_neg hseen
    rw [hstart]
    dsimp only
    by_cases hnothing : now ≤ 40 + span JitRecord.size (takenBy records seen)
    · have hnone : takenBetween records seen now = [] := takenBetween_of_le hnothing
      have hsame : takenBy records now = takenBy records seen := by
        rw [takenBy_of_le hle, hnone, List.append_nil]
      have hstill : tailerAt records now =
          { offset := 40 + span JitRecord.size (takenBy records now), headerParsed := true } :=
        if_neg (by omega)
      rw [if_pos hnothing, hnone, hstill, hsame]
      rfl
    · rw [if_neg hnothing, if_pos rfl]
      refine readRecords_spec hheader.length hrecords hle (by omega) _ rfl (Nat.add_zero _) ?_
      rw [hlength]
      show 40 + span JitRecord.size (takenBy records seen) + 0 ≤ now
      omega

/-- After ticks at growing prefixes, the records that are whole in the last one have been taken. -/
theorem ticks_spec (hheader : ValidHeader header) (hrecords : ∀ r ∈ records, r.WellFormed)
    {lengths : List ℕ} {seen : ℕ} (hgrow : (seen :: lengths).Pairwise (· ≤ ·))
    (hfile : ∀ n ∈ lengths, n ≤ (jitdumpFile header records).length) :
    ∃ outputs, (tailerAt records seen).ticks
          (lengths.map fun n => (jitdumpFile header records).take n) =
        .ok (tailerAt records (lengths.getLastD seen), outputs) ∧
      (takenBy records seen).filterMap JitRecord.loaded ++ outputs =
        (takenBy records (lengths.getLastD seen)).filterMap JitRecord.loaded := by
  induction lengths generalizing seen with
  | nil => exact ⟨[], rfl, List.append_nil _⟩
  | cons now lengths ih =>
      rw [List.pairwise_cons] at hgrow
      rw [List.forall_mem_cons] at hfile
      have hle : seen ≤ now := hgrow.1 now List.mem_cons_self
      obtain ⟨outputs, hticks, houtputs⟩ := ih hgrow.2 hfile.2
      refine ⟨(takenBetween records seen now).filterMap JitRecord.loaded ++ outputs, ?_, ?_⟩
      · rw [List.map_cons, JitdumpTailer.ticks, tick_spec hheader hrecords hle hfile.1]
        dsimp only
        rw [hticks, List.getLastD_cons]
      · rw [List.getLastD_cons, ← houtputs, takenBy_of_le hle, List.filterMap_append,
          List.append_assoc]

/-- However a well-formed file grows, ticks that end with the whole of it give its code loads, each
once and in the order of the file, and none of them panics. -/
theorem jitdump_round_trip (hheader : ValidHeader header) (hrecords : ∀ r ∈ records, r.WellFormed)
    (lengths : List ℕ) (hgrow : lengths.Pairwise (· ≤ ·))
    (hwhole : lengths.getLast? = some (jitdumpFile header records).length) :
    ∃ last, JitdumpTailer.ticks {} (lengths.map fun n => (jitdumpFile header records).take n) =
      .ok (last, records.filterMap JitRecord.loaded) := by
  have hlast : lengths.getLastD 0 = (jitdumpFile header records).length := by
    rw [List.getLastD_eq_getLast?, hwhole, Option.getD_some]
  have hfile : ∀ n ∈ lengths, n ≤ (jitdumpFile header records).length := by
    intro n hn
    obtain ⟨init, hinit⟩ := List.getLast?_eq_some_iff.mp hwhole
    rw [hinit, List.pairwise_append] at hgrow
    rw [hinit, List.mem_append, List.mem_singleton] at hn
    rcases hn with hn | rfl
    · exact hgrow.2.2 n hn _ (List.mem_singleton_self _)
    · exact Nat.le_refl _
  obtain ⟨outputs, hticks, houtputs⟩ := ticks_spec hheader hrecords
    (List.pairwise_cons.mpr ⟨fun n _ => Nat.zero_le n, hgrow⟩) hfile
  have hall : takenBy records (lengths.getLastD 0) = records := by
    refine complete_eq_self ?_
    rw [hlast, jitdumpFile, List.length_append, JitRecord.length_flatMap_encode, hheader.length]
    omega
  rw [takenBy_of_lt (by decide), hall, List.filterMap_nil, List.nil_append] at houtputs
  rw [houtputs] at hticks
  exact ⟨_, hticks⟩

end Ticks

/-- A header, a function of two bytes, and a record of another kind. -/
def smallHeader : List UInt8 := leBytes 4 jitdumpMagicLe ++ List.replicate 36 0

/-- One record that announces code, and one of another kind. -/
def smallRecords : List JitRecord :=
  [.codeLoad 1 7 8 0x1000 0x1000 0 "f" [0xc0, 0x03], .other 3 2 []]

theorem jitdump_round_trip_small :
    ∃ last, JitdumpTailer.ticks {}
        ([0, 20, 40, 60, 99, 99, 116].map fun n => (jitdumpFile smallHeader smallRecords).take n) =
      .ok (last, [{ avma := 0x1000, codeSize := 2, name := "f", code := [0xc0, 0x03] }]) := by
  refine jitdump_round_trip ⟨by decide +kernel, by decide +kernel⟩ ?_ [0, 20, 40, 60, 99, 99, 116]
    (by decide) (by decide +kernel)
  unfold JitRecord.WellFormed smallRecords
  rw [List.forall_mem_cons, List.forall_mem_singleton]
  exact ⟨⟨by decide +kernel, by decide +kernel⟩, by decide +kernel, by decide⟩

end Stax.Kperf
