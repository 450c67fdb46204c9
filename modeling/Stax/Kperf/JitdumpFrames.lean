/-
# Stax.Kperf.JitdumpFrames — where a jitdump tailer finds its records.

The loop of a tick goes from record to record over the bytes it has.  The records it comes to do not
depend on what it makes of them, and those of a longer prefix are those of a shorter one and the
ones behind them.  A tick is put in these terms here, for any way of taking a code load.
-/
import Stax.Kperf.JitdumpTail

namespace Stax.Kperf

open Stax.Lib

/-! ## Records of bytes that may hold anything -/

/-- The size of the record at a place, if all of it is there. -/
def recordAt (bytes : List UInt8) (place : ℕ) : Option ℕ :=
  let size := leNat (slice bytes (place + 4) 4)
  if place + 16 ≤ bytes.length ∧ 16 ≤ size ∧ place + size ≤ bytes.length then some size else none

theorem recordAt_eq_some {bytes : List UInt8} {place size : ℕ}
    (h : recordAt bytes place = some size) :
    size = leNat (slice bytes (place + 4) 4) ∧ 16 ≤ size ∧ place + size ≤ bytes.length := by
  unfold recordAt at h
  dsimp only at h
  split at h
  · rename_i hthere
    cases h
    exact ⟨rfl, hthere.2⟩
  · cases h

theorem recordAt_eq_none {bytes : List UInt8} {place : ℕ} (hhead : place + 16 ≤ bytes.length)
    (h : recordAt bytes place = none) :
    leNat (slice bytes (place + 4) 4) < 16 ∨
      bytes.length < place + leNat (slice bytes (place + 4) 4) := by
  unfold recordAt at h
  dsimp only at h
  rw [ite_eq_right_iff] at h
  by_contra hthere
  cases h (by omega)

/-- The payload of the record, if it is a code load. -/
def codeLoadAt (bytes : List UInt8) (place size : ℕ) : Option (List UInt8) :=
  if leNat (slice bytes place 4) = jitCodeLoad then some (slice bytes (place + 16) (size - 16))
  else none

/-- The payloads of the code loads from a place on. -/
def codeLoads (bytes : List UInt8) (place : ℕ) : List (List UInt8) :=
  match _h : recordAt bytes place with
  | none => []
  | some size => (codeLoadAt bytes place size).toList ++ codeLoads bytes (place + size)
termination_by bytes.length - place
decreasing_by
  have hsize := recordAt_eq_some _h
  omega

/-- Where the records from a place on end. -/
def recordsEnd (bytes : List UInt8) (place : ℕ) : ℕ :=
  match _h : recordAt bytes place with
  | none => place
  | some size => recordsEnd bytes (place + size)
termination_by bytes.length - place
decreasing_by
  have hsize := recordAt_eq_some _h
  omega

section Walk

variable {bytes : List UInt8} {place size : ℕ}

theorem codeLoads_of_none (h : recordAt bytes place = none) : codeLoads bytes place = [] := by
  rw [codeLoads]
  split
  · rfl
  · rename_i hsome
    rw [h] at hsome
    cases hsome

theorem codeLoads_of_some (h : recordAt bytes place = some size) :
    codeLoads bytes place =
      (codeLoadAt bytes place size).toList ++ codeLoads bytes (place + size) := by
  rw [codeLoads]
  split
  · rename_i hnone
    rw [h] at hnone
    cases hnone
  · rename_i hsome
    rw [h] at hsome
    cases hsome
    rfl

theorem recordsEnd_of_none (h : recordAt bytes place = none) : recordsEnd bytes place = place := by
  rw [recordsEnd]
  split
  · rfl
  · rename_i hsome
    rw [h] at hsome
    cases hsome

theorem recordsEnd_of_some (h : recordAt bytes place = some size) :
    recordsEnd bytes place = recordsEnd bytes (place + size) := by
  rw [recordsEnd]
  split
  · rename_i hnone
    rw [h] at hnone
    cases hnone
  · rename_i hsome
    rw [h] at hsome
    cases hsome
    rfl

/-- There is no record in what is read past. -/
theorem recordAt_of_length_le (h : bytes.length ≤ place) : recordAt bytes place = none := by
  unfold recordAt
  exact if_neg (by omega)

/-- A walk that goes over the records from a place on. -/
theorem record_induction {P : ℕ → Prop} (bytes : List UInt8)
    (stop : ∀ place, recordAt bytes place = none → P place)
    (next : ∀ place size, recordAt bytes place = some size → P (place + size) → P place)
    (place : ℕ) : P place := by
  induction place using codeLoads.induct bytes with
  | case1 place h => exact stop place h
  | case2 place size h ih => exact next place size h ih

end Walk

/-- The payload of a record is no longer than the file. -/
theorem length_le_of_mem_codeLoads {bytes payload : List UInt8} {place : ℕ}
    (h : payload ∈ codeLoads bytes place) : payload.length ≤ bytes.length := by
  induction place using record_induction bytes with
  | stop place hstop =>
      rw [codeLoads_of_none hstop] at h
      cases h
  | next place size hnext ih =>
      rw [codeLoads_of_some hnext, List.mem_append, Option.mem_toList] at h
      rcases h with hhere | hlater
      · unfold codeLoadAt at hhere
        split at hhere
        · cases hhere
          unfold slice
          rw [List.length_take, List.length_drop]
          omega
        · cases hhere
      · exact ih hlater

theorem recordsEnd_le {bytes : List UInt8} {place : ℕ} (h : place ≤ bytes.length) :
    recordsEnd bytes place ≤ bytes.length := by
  induction place using record_induction bytes with
  | stop place hstop => rw [recordsEnd_of_none hstop]; exact h
  | next place size hnext ih =>
      have hsize := recordAt_eq_some hnext
      rw [recordsEnd_of_some hnext]
      exact ih (by omega)

/-! ## What a payload says -/

/-- The length of the name, if there is one. -/
def nameLength (payload : List UInt8) : Option ℕ :=
  if payload.length < 40 then none else (payload.drop 40).findIdx? (· == 0)

/-- The address that a record says its code is at. -/
def statedAvma (payload : List UInt8) : ℕ := leNat (slice payload 8 8)

/-- The size that a record says its code has. -/
def statedSize (payload : List UInt8) : ℕ := leNat (slice payload 24 8)

/-- The code load, where its name has some length. -/
def readLoad (payload : List UInt8) (nul : ℕ) : JitCodeLoad where
  avma := UInt64.ofNat (statedAvma payload)
  codeSize := UInt64.ofNat (statedSize payload)
  name := fromUtf8Lossy ((payload.drop 40).take nul)
  code :=
    if 41 + nul + statedSize payload ≤ payload.length then
      slice payload (41 + nul) (statedSize payload)
    else []

theorem leNat_slice_lt (bytes : List UInt8) (start width : ℕ) :
    leNat (slice bytes start width) < 256 ^ width := by
  have hlength : (slice bytes start width).length ≤ width := List.length_take_le _ _
  calc leNat (slice bytes start width) < 256 ^ (slice bytes start width).length := leNat_lt _
    _ ≤ 256 ^ width := Nat.pow_le_pow_right (by decide) hlength

theorem nameLength_bounds {payload : List UInt8} {nul : ℕ} (h : nameLength payload = some nul) :
    41 + nul ≤ payload.length := by
  unfold nameLength at h
  split at h
  · cases h
  · obtain ⟨hnul, -⟩ := List.findIdx?_eq_some_iff_getElem.mp h
    rw [List.length_drop] at hnul
    omega

/-- A code load whose code would end beyond all addresses makes a slice that starts behind its end;
any other with a name is taken. -/
theorem parseCodeLoad_eq {payload : List UInt8} (hlength : payload.length < 2 ^ 64) :
    parseCodeLoad payload =
      match nameLength payload with
      | none => .ok none
      | some nul =>
        if 41 + nul + statedSize payload < 2 ^ 64 then .ok (some (readLoad payload nul))
        else .error "slice index starts after its end" := by
  have hstated : statedSize payload < 2 ^ 64 := leNat_slice_lt payload 24 8
  have hsize : (UInt64.ofNat (statedSize payload)).toNat = statedSize payload :=
    UInt64.toNat_ofNat_of_lt' hstated
  cases hname : nameLength payload with
  | none =>
      unfold nameLength at hname
      unfold parseCodeLoad
      split at hname
      · rename_i hshort
        exact if_pos hshort
      · rename_i hlong
        rw [if_neg hlong]
        dsimp only
        rw [hname]
  | some nul =>
      have hbounds := nameLength_bounds hname
      unfold nameLength at hname
      rw [if_neg (by omega)] at hname
      unfold parseCodeLoad
      rw [if_neg (by omega)]
      dsimp only
      have hstart : 40 + nul + 1 = 41 + nul := by omega
      have hfield : leNat (slice payload 24 8) = statedSize payload := rfl
      rw [hname, hfield]
      dsimp only
      rw [hstart, hsize]
      by_cases hfits : 41 + nul + statedSize payload < 2 ^ 64
      · unfold readLoad
        rw [if_pos hfits, Nat.mod_eq_of_lt hfits, Nat.add_sub_cancel_left]
        by_cases hcode : 41 + nul + statedSize payload ≤ payload.length
        · rw [if_pos hcode, if_neg (by omega), if_pos hcode]
          rfl
        · rw [if_neg hcode, if_neg hcode]
          rfl
      · -- the sum wraps to a place before the code
        have hwrap : (41 + nul + statedSize payload) % 2 ^ 64 =
            41 + nul + statedSize payload - 2 ^ 64 := by
          rw [Nat.mod_eq_sub_mod (by omega), Nat.mod_eq_of_lt (by omega)]
        rw [if_neg hfits, hwrap, if_pos (by omega), if_pos (by omega)]

/-! ## Prefixes -/

section Prefixes

variable {file : List UInt8} {n m place size width : ℕ}

theorem slice_take (h : place + width ≤ n) : slice (file.take n) place width = slice file place width := by
  unfold slice
  rw [List.drop_take, List.take_take, Nat.min_eq_left (by omega)]

/-- A record that is whole in a file is read the same when the file has grown. -/
theorem recordAt_take (hn : n ≤ m) (h : recordAt (file.take n) place = some size) :
    recordAt (file.take m) place = some size ∧
      codeLoadAt (file.take m) place size = codeLoadAt (file.take n) place size := by
  obtain ⟨rfl, hmin, hthere⟩ := recordAt_eq_some h
  rw [List.length_take] at hthere
  have hsame : ∀ {start width}, start + width ≤ n →
      slice (file.take n) start width = slice (file.take m) start width := by
    intro start width hle
    rw [slice_take hle, slice_take (Nat.le_trans hle hn)]
  have hsize := hsame (show place + 4 + 4 ≤ n by omega)
  unfold recordAt codeLoadAt
  dsimp only
  rw [hsize] at hmin hthere ⊢
  constructor
  · refine if_pos ⟨?_, hmin, ?_⟩
    · rw [List.length_take]
      omega
    · rw [List.length_take]
      omega
  · rw [hsame (show place + 4 ≤ n by omega), hsame (by omega)]

/-- The code loads of a longer prefix are those of a shorter one, and those behind its records. -/
theorem codeLoads_take (file : List UInt8) (hn : n ≤ m) (place : ℕ) :
    codeLoads (file.take m) place =
      codeLoads (file.take n) place ++
        codeLoads (file.take m) (recordsEnd (file.take n) place) := by
  induction place using record_induction (file.take n) with
  | stop place h => rw [codeLoads_of_none h, recordsEnd_of_none h, List.nil_append]
  | next place size h ih =>
      obtain ⟨hlater, hsame⟩ := recordAt_take hn h
      rw [codeLoads_of_some h, recordsEnd_of_some h, codeLoads_of_some hlater, hsame, ih,
        List.append_assoc]

/-- Behind the records of a prefix there is none of a shorter one. -/
theorem codeLoads_recordsEnd (hn : n ≤ m) (place : ℕ) :
    codeLoads (file.take n) (recordsEnd (file.take m) place) = [] := by
  have hself : codeLoads (file.take m) place = codeLoads (file.take m) place ++
      codeLoads (file.take m) (recordsEnd (file.take m) place) :=
    codeLoads_take file (Nat.le_refl m) place
  rw [List.self_eq_append_right] at hself
  have hsplit := codeLoads_take file hn (recordsEnd (file.take m) place)
  rw [hself, List.nil_eq, List.append_eq_nil_iff] at hsplit
  exact hsplit.1

/-- A code load of some prefix is one of the prefix seen, or one behind its records. -/
theorem mem_codeLoads_or {payload : List UInt8} (n : ℕ)
    (h : payload ∈ codeLoads (file.take m) place) :
    payload ∈ codeLoads (file.take n) place ∨
      payload ∈ codeLoads (file.take m) (recordsEnd (file.take n) place) := by
  rcases Nat.le_total n m with hle | hle
  · rw [codeLoads_take file hle, List.mem_append] at h
    exact h
  · left
    rw [codeLoads_take file hle, List.mem_append]
    exact Or.inl h

theorem mem_codeLoads_of_recordsEnd {payload : List UInt8}
    (h : payload ∈ codeLoads (file.take m) (recordsEnd (file.take n) place)) :
    payload ∈ codeLoads (file.take m) place := by
  rcases Nat.le_total n m with hle | hle
  · rw [codeLoads_take file hle, List.mem_append]
    exact Or.inr h
  · rw [codeLoads_recordsEnd hle] at h
    cases h

end Prefixes

/-! ## Taking code loads -/

/-- What becomes of the payloads, one after the other. -/
def loadAll (load : List UInt8 → Except String (Option JitCodeLoad)) :
    List (List UInt8) → Except String (List JitCodeLoad)
  | [] => .ok []
  | payload :: payloads =>
    match load payload with
    | .error panic => .error panic
    | .ok loaded =>
      match loadAll load payloads with
      | .error panic => .error panic
      | .ok rest => .ok (loaded.toList ++ rest)

section LoadAll

variable {load : List UInt8 → Except String (Option JitCodeLoad)}

theorem loadAll_cons_eq_ok {payload : List UInt8} {payloads : List (List UInt8)}
    {records : List JitCodeLoad} :
    loadAll load (payload :: payloads) = .ok records ↔
      ∃ loaded rest, load payload = .ok loaded ∧ loadAll load payloads = .ok rest ∧
        records = loaded.toList ++ rest := by
  rw [loadAll]
  cases load payload with
  | error panic => simp
  | ok loaded =>
      cases loadAll load payloads with
      | error panic => simp
      | ok rest => simp [eq_comm]

/-- All payloads are taken exactly if each of them is. -/
theorem exists_loadAll_iff {payloads : List (List UInt8)} :
    (∃ records, loadAll load payloads = .ok records) ↔
      ∀ payload ∈ payloads, ∃ loaded, load payload = .ok loaded := by
  induction payloads with
  | nil => simp [loadAll]
  | cons payload payloads ih =>
      rw [List.forall_mem_cons, ← ih]
      constructor
      · rintro ⟨records, h⟩
        obtain ⟨loaded, rest, hload, hrest, -⟩ := loadAll_cons_eq_ok.mp h
        exact ⟨⟨loaded, hload⟩, rest, hrest⟩
      · rintro ⟨⟨loaded, hload⟩, rest, hrest⟩
        exact ⟨_, loadAll_cons_eq_ok.mpr ⟨loaded, rest, hload, hrest, rfl⟩⟩

/-- What is taken is what the payloads give. -/
theorem mem_loadAll_iff {payloads : List (List UInt8)} {records : List JitCodeLoad}
    (h : loadAll load payloads = .ok records) (r : JitCodeLoad) :
    r ∈ records ↔ ∃ payload ∈ payloads, load payload = .ok (some r) := by
  induction payloads generalizing records with
  | nil =>
      cases h
      simp
  | cons payload payloads ih =>
      obtain ⟨loaded, rest, hload, hrest, rfl⟩ := loadAll_cons_eq_ok.mp h
      rw [List.mem_append, Option.mem_toList, ih hrest, List.exists_mem_cons_iff, hload,
        Except.ok.injEq]

end LoadAll

/-- The tailer behind the records from a place on, and what it took of them. -/
def takeRecords (load : List UInt8 → Except String (Option JitCodeLoad)) (content : List UInt8)
    (place : ℕ) : Except String (JitdumpTailer × List JitCodeLoad) :=
  (loadAll load (codeLoads content place)).map fun loaded =>
    ({ offset := recordsEnd content place, headerParsed := true }, loaded)

/-- Whether the bytes at a place start with one of the magic numbers. -/
def MagicAt (bytes : List UInt8) (place : ℕ) : Prop :=
  leNat (slice bytes place 4) = jitdumpMagicLe ∨ leNat (slice bytes place 4) = jitdumpMagicBe

instance (bytes : List UInt8) (place : ℕ) : Decidable (MagicAt bytes place) :=
  inferInstanceAs (Decidable (_ ∨ _))

/-- A tick in terms of the records, where a code load is taken in some way. -/
def tickWith (load : List UInt8 → Except String (Option JitCodeLoad)) (self : JitdumpTailer)
    (content : List UInt8) : Except String (JitdumpTailer × List JitCodeLoad) :=
  if content.length ≤ self.offset then .ok (self, [])
  else if self.headerParsed then takeRecords load content self.offset
  else if content.length < self.offset + 40 then .ok (self, [])
  else if MagicAt content self.offset then takeRecords load content (self.offset + 40)
  else .ok ({ self with offset := content.length }, [])

theorem takeRecords_eq_ok {load : List UInt8 → Except String (Option JitCodeLoad)}
    {content : List UInt8} {place : ℕ} {next : JitdumpTailer} {records : List JitCodeLoad} :
    takeRecords load content place = .ok (next, records) ↔
      next = { offset := recordsEnd content place, headerParsed := true } ∧
        loadAll load (codeLoads content place) = .ok records := by
  unfold takeRecords
  cases loadAll load (codeLoads content place) with
  | error panic => simp [Except.map]
  | ok loaded => simp [Except.map, eq_comm]

/-- Once it has its header, the tailer takes what is behind its offset. -/
theorem tickWith_parsed (load : List UInt8 → Except String (Option JitCodeLoad)) (offset : ℕ)
    (content : List UInt8) :
    tickWith load { offset, headerParsed := true } content = takeRecords load content offset := by
  unfold tickWith
  dsimp only
  split
  · rename_i hold
    have hnone : recordAt content offset = none := recordAt_of_length_le hold
    rw [takeRecords, codeLoads_of_none hnone, recordsEnd_of_none hnone]
    rfl
  · exact if_pos rfl

/-- Before, it waits for a header, takes the records behind it, or moves to the end. -/
theorem tickWith_unparsed (load : List UInt8 → Except String (Option JitCodeLoad)) (offset : ℕ)
    (content : List UInt8) :
    tickWith load { offset, headerParsed := false } content =
      if content.length < offset + 40 then .ok ({ offset, headerParsed := false }, [])
      else if MagicAt content offset then takeRecords load content (offset + 40)
      else .ok ({ offset := content.length, headerParsed := false }, []) := by
  unfold tickWith
  dsimp only
  split
  · rename_i hold
    rw [if_pos (by omega)]
  · rw [if_neg Bool.false_ne_true]

/-- What a tick takes is what some payload of the file gives. -/
theorem mem_of_tickWith {load : List UInt8 → Except String (Option JitCodeLoad)}
    {self next : JitdumpTailer} {content : List UInt8} {records : List JitCodeLoad}
    (h : tickWith load self content = .ok (next, records)) {r : JitCodeLoad} (hr : r ∈ records) :
    ∃ payload, payload.length ≤ content.length ∧ load payload = .ok (some r) := by
  have htake : ∀ place, takeRecords load content place = .ok (next, records) →
      ∃ payload, payload.length ≤ content.length ∧ load payload = .ok (some r) := by
    intro place htaken
    obtain ⟨-, hloads⟩ := takeRecords_eq_ok.mp htaken
    obtain ⟨payload, hmem, hload⟩ := (mem_loadAll_iff hloads r).mp hr
    exact ⟨payload, length_le_of_mem_codeLoads hmem, hload⟩
  have hnone : ∀ tailer, Except.ok (ε := String) (tailer, ([] : List JitCodeLoad)) ≠
      .ok (next, records) := by
    rintro tailer ⟨⟩
    cases hr
  unfold tickWith at h
  split at h
  · exact absurd h (hnone _)
  · split at h
    · exact htake _ h
    · split at h
      · exact absurd h (hnone _)
      · split at h
        · exact htake _ h
        · exact absurd h (hnone _)

theorem slice_drop (bytes : List UInt8) (offset start width : ℕ) :
    slice (bytes.drop offset) start width = slice bytes (offset + start) width := by
  unfold slice
  rw [List.drop_drop]

/-- The records of what is unread are those of the file from there on. -/
theorem walk_drop (bytes : List UInt8) (offset cursor : ℕ) :
    codeLoads (bytes.drop offset) cursor = codeLoads bytes (offset + cursor) ∧
      offset + recordsEnd (bytes.drop offset) cursor = recordsEnd bytes (offset + cursor) := by
  have hrecord : ∀ place, recordAt (bytes.drop offset) place = recordAt bytes (offset + place) := by
    intro place
    unfold recordAt
    dsimp only
    rw [slice_drop, List.length_drop, ← Nat.add_assoc]
    refine if_congr ?_ rfl rfl
    omega
  have hload : ∀ place size,
      codeLoadAt (bytes.drop offset) place size = codeLoadAt bytes (offset + place) size := by
    intro place size
    unfold codeLoadAt
    rw [slice_drop, slice_drop, ← Nat.add_assoc]
  induction cursor using record_induction (bytes.drop offset) with
  | stop cursor h =>
      have hbytes := h
      rw [hrecord] at hbytes
      rw [codeLoads_of_none h, recordsEnd_of_none h, codeLoads_of_none hbytes,
        recordsEnd_of_none hbytes]
      exact ⟨rfl, rfl⟩
  | next cursor size h ih =>
      have hbytes := h
      rw [hrecord] at hbytes
      rw [codeLoads_of_some h, recordsEnd_of_some h, codeLoads_of_some hbytes,
        recordsEnd_of_some hbytes, hload, ih.1, ih.2, Nat.add_assoc]
      exact ⟨rfl, rfl⟩

/-- The loop takes the code loads it comes to. -/
theorem tickLoop_eq (buf : List UInt8) (cursor : ℕ) (out : List JitCodeLoad) :
    tickLoop buf cursor out = (loadAll parseCodeLoad (codeLoads buf cursor)).map fun loaded =>
      (recordsEnd buf cursor, out ++ loaded) := by
  induction cursor using record_induction buf generalizing out with
  | stop cursor h =>
      rw [codeLoads_of_none h, recordsEnd_of_none h, tickLoop, loadAll]
      dsimp only
      have hout : Except.map (fun loaded => (cursor, out ++ loaded))
          (Except.ok (ε := String) ([] : List JitCodeLoad)) = .ok (cursor, out) := by
        rw [Except.map, List.append_nil]
      rw [hout]
      by_cases hhead : cursor + 16 ≤ buf.length
      · rw [if_pos hhead, if_pos (recordAt_eq_none hhead h)]
      · rw [if_neg hhead]
  | next cursor size h ih =>
      obtain ⟨hsize, hmin, hthere⟩ := recordAt_eq_some h
      rw [codeLoads_of_some h, recordsEnd_of_some h, tickLoop, if_pos (by omega)]
      dsimp only
      rw [← hsize, if_neg (by omega)]
      unfold codeLoadAt
      split
      · rw [Option.toList_some, List.singleton_append, loadAll]
        cases parseCodeLoad (slice buf (cursor + 16) (size - 16)) with
        | error panic => rfl
        | ok loaded =>
            dsimp only
            rw [ih]
            cases loadAll parseCodeLoad (codeLoads buf (cursor + size)) with
            | error panic => rfl
            | ok rest =>
                simp only [Except.map, List.append_assoc]
      · rw [Option.toList_none, List.nil_append]
        exact ih out

theorem readRecords_eq (self : JitdumpTailer) (content : List UInt8) (cursor : ℕ)
    (hparsed : self.headerParsed = true) :
    self.readRecords (content.drop self.offset) cursor =
      takeRecords parseCodeLoad content (self.offset + cursor) := by
  obtain ⟨hloads, hend⟩ := walk_drop content self.offset cursor
  unfold JitdumpTailer.readRecords takeRecords
  rw [tickLoop_eq, hloads, ← hend, ← hparsed]
  cases loadAll parseCodeLoad (codeLoads content (self.offset + cursor)) with
  | error panic => rfl
  | ok loaded => rfl

/-- A tick, in terms of the records. -/
theorem tick_eq (self : JitdumpTailer) (content : List UInt8) :
    self.tick content = tickWith parseCodeLoad self content := by
  unfold JitdumpTailer.tick tickWith
  by_cases hold : content.length ≤ self.offset
  · rw [if_pos hold, if_pos hold]
  rw [if_neg hold, if_neg hold]
  dsimp only
  cases hparsed : self.headerParsed with
  | true => exact readRecords_eq self content 0 hparsed
  | false =>
      rw [if_neg Bool.false_ne_true, if_neg Bool.false_ne_true, List.length_drop, slice_drop,
        Nat.add_zero]
      by_cases hshort : content.length < self.offset + 40
      · rw [if_pos hshort, if_pos (by omega)]
      rw [if_neg hshort, if_neg (by omega)]
      by_cases hmagic : MagicAt content self.offset
      · rw [if_pos hmagic, if_neg (fun hnot => hmagic.elim hnot.1 hnot.2)]
        exact readRecords_eq { self with headerParsed := true } content 40 rfl
      · rw [if_neg hmagic, if_pos (not_or.mp hmagic)]

/-! ## The header a tailer takes -/

/-- Where the tailer first finds a magic number at its offset, and the prefixes from then on: where
it finds none it moves to the end of what is there, and looks again once there is more. -/
def headerPlace (file : List UInt8) : ℕ → List ℕ → Option (ℕ × List ℕ)
  | _, [] => none
  | offset, n :: lengths =>
    if (file.take n).length < offset + 40 then headerPlace file offset lengths
    else if MagicAt (file.take n) offset then some (offset, n :: lengths)
    else headerPlace file (file.take n).length lengths

end Stax.Kperf
