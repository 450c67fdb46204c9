/-
# Stax.Kperf.DyldFastPath — when dyld's image count stands in for the image list.

With a task port a scan first reads where dyld's image list is and how long it is, and does nothing
if both are what they were at the last reading.  A failed reading of the count is forgotten and a
failed reading of the place is not.  A scanner with a port therefore emits what one without emits
exactly as long as a repeated reading means that the target's images are those of the scan before.
An image that is closed and another that is opened between two scans leave the count as it was.
-/
import Stax.Kperf.ImageScan

namespace Stax.Kperf

open Stax.Live (Addr)
open Stax.Binaries Stax.Lib

/-! ## What is read of dyld's list -/

/-- What a task port gives: not where the image list is, not how long it is, or both. -/
inductive DyldReading
  | noInfo
  | noCount
  | list (addr : UInt64) (count : UInt32)
  deriving DecidableEq, Repr

/-- What a look at the count of images finds, by the address that the kernel tells. -/
def ScanHost.reading (host : ScanHost) (task : UInt32) : DyldReading :=
  match host.taskDyldInfo task with
  | none => .noInfo
  | some addr =>
    if addr = 0 then .noInfo
    else
      match host.infoArrayCount task addr with
      | none => .noCount
      | some count => .list addr count

/-- The last reading that found the list. -/
def DyldReading.after (last : DyldReading) : DyldReading → DyldReading
  | .noInfo => last
  | reading => reading

/-- One scan of a target by two scanners: what both see, and the orders of their maps. -/
structure Tick where
  host : ScanHost
  regions : List Region
  withPort : IterationOrder
  withoutPort : IterationOrder

/-- The images that a tick's regions show. -/
def Tick.images (tick : Tick) : Set ImageKey :=
  {key | ∃ region ∈ tick.regions, region.Counts key}

/-- The last reading that found the list before a scan. -/
def lastReading (task : UInt32) (before : List Tick) : DyldReading :=
  before.foldl (fun last tick => last.after (tick.host.reading task)) .noInfo

/-- The list is where it was and as long as it was when it was last found. -/
def Repeats (task : UInt32) (before : List Tick) (now : Tick) : Prop :=
  ∃ addr count, now.host.reading task = .list addr count ∧ lastReading task before = .list addr count

/-- The images of the scan before. -/
def lastImages (before : List Tick) : Set ImageKey :=
  match before.getLast? with
  | none => ∅
  | some last => last.images

namespace ImageScanner

/-- What the scanner remembers of a reading. -/
def Remembers (self : ImageScanner) : DyldReading → Prop
  | .list addr count => self.lastAllImageInfoAddr = addr ∧ self.lastImageCount = count
  | _ => self.lastAllImageInfoAddr = 0

/-- The fast path finds no change exactly at a repeated reading, and remembers what was read. -/
theorem dyldImagesChanged_spec {self : ImageScanner} {last : DyldReading} (h : self.Remembers last)
    (host : ScanHost) (task : UInt32) :
    ((self.dyldImagesChanged host task).1 = false ↔
        ∃ addr count, host.reading task = .list addr count ∧ last = .list addr count) ∧
      (self.dyldImagesChanged host task).2.Remembers (last.after (host.reading task)) ∧
      (self.dyldImagesChanged host task).2.known = self.known ∧
      (self.dyldImagesChanged host task).2.sharedCache = self.sharedCache ∧
      (self.dyldImagesChanged host task).2.task = self.task := by
  unfold dyldImagesChanged ScanHost.reading
  cases host.taskDyldInfo task with
  | none => simpa [DyldReading.after] using h
  | some addr =>
      dsimp only
      split
      · simpa [DyldReading.after] using h
      · rename_i hzero
        cases host.infoArrayCount task addr with
        | none => simp [DyldReading.after, Remembers]
        | some count =>
            cases last with
            | noInfo =>
                have haddr : self.lastAllImageInfoAddr = 0 := h
                simp [DyldReading.after, Remembers, haddr, hzero]
            | noCount =>
                have haddr : self.lastAllImageInfoAddr = 0 := h
                simp [DyldReading.after, Remembers, haddr, hzero]
            | list lastAddr lastCount =>
                obtain ⟨haddr, hcount⟩ := h
                rw [haddr, hcount]
                simp [DyldReading.after, Remembers]

/-! ## What a full scan emits -/

theorem unload_eq (pid : UInt32) {known : KnownImages} (h : Named known) {key : ImageKey}
    (hkey : key ∈ known) :
    unload pid known key =
      (known.erase key, [.binaryUnloaded { pid, baseAvma := key.2, path := key.1 }]) := by
  obtain ⟨img, himg⟩ := Option.isSome_iff_exists.mp (AList.lookup_isSome.mpr hkey)
  obtain ⟨hpath, hbase, -⟩ := h key img himg
  unfold unload
  rw [himg]
  dsimp only
  rw [hpath, hbase]

theorem named_erase {known : KnownImages} (h : Named known) (key : ImageKey) :
    Named (known.erase key) := by
  intro k img himg
  rcases eq_or_ne k key with rfl | hne
  · rw [AList.lookup_erase] at himg
    cases himg
  · rw [AList.lookup_erase_ne hne] at himg
    exact h k img himg

/-- Images that are known are announced gone, each once, and are then not known. -/
theorem emitting_unload_eq (pid : UInt32) {keys : List ImageKey} {known : KnownImages}
    (h : Named known) (hnodup : keys.Nodup) (hkeys : ∀ key ∈ keys, key ∈ known) :
    (emitting (unload pid) keys known).2 =
        keys.map (fun key => .binaryUnloaded { pid, baseAvma := key.2, path := key.1 }) ∧
      Named (emitting (unload pid) keys known).1 ∧
      ∀ k, k ∈ (emitting (unload pid) keys known).1 ↔ k ∈ known ∧ k ∉ keys := by
  induction keys generalizing known with
  | nil => exact ⟨rfl, h, fun k => (and_iff_left List.not_mem_nil).symm⟩
  | cons key keys ih =>
      rw [List.nodup_cons] at hnodup
      rw [List.forall_mem_cons] at hkeys
      obtain ⟨hevents, hnamed, hmem⟩ := ih (named_erase h key) hnodup.2 fun k hk =>
        AList.mem_erase.mpr ⟨fun heq => hnodup.1 (heq ▸ hk), hkeys.2 k hk⟩
      unfold emitting
      rw [unload_eq pid h hkeys.1]
      refine ⟨?_, hnamed, fun k => ?_⟩
      · exact congrArg (ImageEvent.binaryUnloaded { pid, baseAvma := key.2, path := key.1 } :: ·)
          hevents
      · rw [hmem, AList.mem_erase, List.mem_cons, not_or]
        tauto

/-- What is announced of a new image. -/
def loadedEvent (host : ScanHost) (sharedCache : Option (String → Option SharedCacheImage))
    (pid : UInt32) (add : ImageKey × UInt64) : List ImageEvent :=
  (load host sharedCache pid ∅ add).2

/-- Images that are added are announced one after the other, and known from then on beside those
known before. -/
theorem emitting_load_eq (host : ScanHost)
    (sharedCache : Option (String → Option SharedCacheImage)) (pid : UInt32)
    (adds : List (ImageKey × UInt64)) {known : KnownImages} (h : Named known) :
    (emitting (load host sharedCache pid) adds known).2 =
        adds.flatMap (loadedEvent host sharedCache pid) ∧
      Named (emitting (load host sharedCache pid) adds known).1 ∧
      ∀ k, k ∈ (emitting (load host sharedCache pid) adds known).1 ↔
        k ∈ known ∨ k ∈ adds.map Prod.fst := by
  induction adds generalizing known with
  | nil => exact ⟨rfl, h, fun k => (or_iff_left List.not_mem_nil).symm⟩
  | cons add adds ih =>
      have hnamed : Named (load host sharedCache pid known add).1 := by
        intro k img himg
        rcases eq_or_ne k add.1 with rfl | hne
        · rw [load, AList.lookup_insert] at himg
          obtain rfl := Option.some.inj himg
          exact buildImage_spec host add.1.1 add.1.2 add.2 sharedCache
        · rw [load, AList.lookup_insert_ne hne] at himg
          exact h k img himg
      obtain ⟨hevents, hrest, hmem⟩ := ih hnamed
      unfold emitting
      refine ⟨?_, hrest, fun k => ?_⟩
      · exact congrArg (loadedEvent host sharedCache pid add ++ ·) hevents
      · rw [hmem, load, AList.mem_insert, List.map_cons, List.mem_cons]
        tauto

/-- What a scan of the regions emits, given the images known. -/
def fullEvents (host : ScanHost) (sharedCache : Option (String → Option SharedCacheImage))
    (pid : UInt32) (known : KnownImages) (snapshot : Snapshot) : List ImageEvent :=
  let found := snapshot.regions.foldl (Found.region known) {}
  (toRemove known found.current snapshot.removal).map
      (fun key => .binaryUnloaded { pid, baseAvma := key.2, path := key.1 }) ++
    found.toAdd.flatMap (loadedEvent host sharedCache pid)

theorem nodup_toRemove (known : KnownImages) (current : List ImageKey) (removal : IterationOrder) :
    (toRemove known current removal).Nodup :=
  ((removal.perm known.keys).nodup_iff.mpr known.keys_nodup).filter _

/-- Nothing is emitted exactly when the images are those known. -/
theorem fullEvents_eq_nil_iff (host : ScanHost)
    (sharedCache : Option (String → Option SharedCacheImage)) (pid : UInt32) {known : KnownImages}
    (h : Named known) (snapshot : Snapshot) :
    fullEvents host sharedCache pid known snapshot = [] ↔ snapshot.images = {k | k ∈ known} := by
  have hsees := found_sees known snapshot.regions
  unfold fullEvents
  generalize snapshot.regions.foldl (Found.region known) {} = found at hsees
  dsimp only
  have himages : ∀ k, k ∈ snapshot.images ↔ k ∈ found.current := fun k => (hsees.current k).symm
  rw [List.append_eq_nil_iff, List.map_eq_nil_iff, List.eq_nil_iff_forall_not_mem,
    Set.ext_iff]
  simp only [mem_toRemove h, himages, Set.mem_ofPred_eq]
  constructor
  · rintro ⟨hgone, hnew⟩ k
    constructor
    · intro hk
      by_contra hunknown
      obtain ⟨add, hadd, -⟩ := List.mem_map.mp ((hsees.toAdd k).mpr ⟨hk, hunknown⟩)
      have hnone := List.flatMap_eq_nil_iff.mp hnew add hadd
      cases hnone
    · intro hk
      by_contra hnot
      exact hgone k ⟨hk, hnot⟩
  · intro heq
    refine ⟨fun k hk => hk.2 ((heq k).mpr hk.1), ?_⟩
    have hadds : found.toAdd = [] := by
      rw [List.eq_nil_iff_forall_not_mem]
      intro add hadd
      obtain ⟨hcurrent, hunknown⟩ := (hsees.toAdd add.1).mp (List.mem_map_of_mem hadd)
      exact hunknown ((heq add.1).mp hcurrent)
    rw [hadds]
    rfl

/-- Scanners that know the same images emit the same, but for the order in which they give up what is
gone. -/
theorem fullEvents_perm (host : ScanHost) (sharedCache : Option (String → Option SharedCacheImage))
    (pid : UInt32) {known known' : KnownImages} (h : Named known) (h' : Named known')
    (hsame : ∀ k, k ∈ known ↔ k ∈ known') (regions : List Region)
    (removal removal' : IterationOrder) :
    (fullEvents host sharedCache pid known { regions, removal }).Perm
      (fullEvents host sharedCache pid known' { regions, removal := removal' }) := by
  have hfound : Found.region known = Found.region known' := by
    funext found region
    unfold Found.region
    simp only [hsame]
  unfold fullEvents
  dsimp only
  rw [hfound]
  refine List.Perm.append_right _ (List.Perm.map _ ?_)
  refine (List.perm_ext_iff_of_nodup (nodup_toRemove _ _ _) (nodup_toRemove _ _ _)).mpr fun k => ?_
  rw [mem_toRemove h, mem_toRemove h', hsame]

/-! ## One scan -/

/-- The scanner after its check of dyld's list. -/
def checked (host : ScanHost) (self : ImageScanner) : Bool × ImageScanner :=
  match self.task with
  | some task => self.dyldImagesChanged host task
  | none => (true, self)

/-- A scan is its check and then, if that found a change, the pass over the regions. -/
theorem rescan_eq (pid : UInt32) {host : ScanHost} {self update : ImageScanner} {changed : Bool}
    (hchecked : self.checked host = (changed, update)) (snapshot : Snapshot) :
    self.rescan host pid snapshot =
      if changed then
        let found := snapshot.regions.foldl (Found.region update.known) {}
        let removed := emitting (unload pid) (toRemove update.known found.current snapshot.removal)
          update.known
        let added := emitting (load host update.sharedCache pid) found.toAdd removed.1
        ({ update with known := added.1 }, removed.2 ++ added.2)
      else (update, []) := by
  unfold checked at hchecked
  unfold rescan
  cases htask : self.task with
  | none =>
      rw [htask] at hchecked
      obtain ⟨rfl, rfl⟩ := Prod.mk.inj hchecked
      rfl
  | some task =>
      rw [htask] at hchecked
      dsimp only at hchecked ⊢
      rw [hchecked]

/-- Where the check finds a change the tick is a full scan: what it announces, and what is known
after it. -/
theorem rescan_of_changed (pid : UInt32) {host : ScanHost} {self update : ImageScanner}
    (hchecked : self.checked host = (true, update)) (h : Named update.known)
    (snapshot : Snapshot) :
    (self.rescan host pid snapshot).2 =
        fullEvents host update.sharedCache pid update.known snapshot ∧
      Named (self.rescan host pid snapshot).1.known ∧
      (∀ k, k ∈ (self.rescan host pid snapshot).1.known ↔ k ∈ snapshot.images) ∧
      ∃ known, (self.rescan host pid snapshot).1 = { update with known } := by
  have hsees := found_sees update.known snapshot.regions
  rw [rescan_eq pid hchecked, if_pos rfl]
  unfold fullEvents
  generalize snapshot.regions.foldl (Found.region update.known) {} = found at hsees ⊢
  dsimp only
  obtain ⟨hgone, hkept, hkeptMem⟩ := emitting_unload_eq pid h
    (nodup_toRemove update.known found.current snapshot.removal)
    fun k hk => ((mem_toRemove h _ _ k).mp hk).1
  obtain ⟨hnew, hnamed, hmem⟩ := emitting_load_eq host update.sharedCache pid found.toAdd hkept
  refine ⟨by rw [hgone, hnew], hnamed, fun k => ?_, _, rfl⟩
  have himages : k ∈ snapshot.images ↔ k ∈ found.current := (hsees.current k).symm
  rw [hmem, hkeptMem, mem_toRemove h, hsees.toAdd, himages]
  tauto

/-! ## Scan after scan -/

/-- The scanner after some scans. -/
def scanned (pid : UInt32) (order : Tick → IterationOrder) (self : ImageScanner)
    (ticks : List Tick) : ImageScanner :=
  ticks.foldl (fun self tick =>
    (self.rescan tick.host pid { regions := tick.regions, removal := order tick }).1) self

/-- What the last of some scans emits. -/
def emitted (pid : UInt32) (order : Tick → IterationOrder) (self : ImageScanner)
    (before : List Tick) (now : Tick) : List ImageEvent :=
  ((scanned pid order self before).rescan now.host pid
    { regions := now.regions, removal := order now }).2

/-- A scanner with a port and one without, after the same scans: both know the images of the last
one, and the first remembers the last reading. -/
structure Abreast (task : UInt32) (before : List Tick) (s t : ImageScanner) : Prop where
  port : s.task = some task
  noPort : t.task = none
  cache : s.sharedCache = t.sharedCache
  remembers : s.Remembers (lastReading task before)
  named : Named s.known
  named' : Named t.known
  known : ∀ k, k ∈ s.known ↔ k ∈ lastImages before
  known' : ∀ k, k ∈ t.known ↔ k ∈ lastImages before

theorem lastReading_concat (task : UInt32) (before : List Tick) (now : Tick) :
    lastReading task (before ++ [now]) =
      (lastReading task before).after (now.host.reading task) := by
  unfold lastReading
  rw [List.foldl_concat]

theorem lastImages_concat (before : List Tick) (now : Tick) :
    lastImages (before ++ [now]) = now.images := by
  unfold lastImages
  rw [List.getLast?_concat]

/-- Two scanners that are abreast emit the same and stay abreast, but where a repeated reading hides
a change. -/
theorem Abreast.rescan {task : UInt32} {before : List Tick} {s t : ImageScanner}
    (h : Abreast task before s t) (pid : UInt32) (now : Tick) :
    let snapshot := { regions := now.regions, removal := now.withPort }
    let snapshot' := { regions := now.regions, removal := now.withoutPort }
    ((s.rescan now.host pid snapshot).2.Perm (t.rescan now.host pid snapshot').2 ↔
        (Repeats task before now → now.images = lastImages before)) ∧
      ((Repeats task before now → now.images = lastImages before) →
        Abreast task (before ++ [now]) (s.rescan now.host pid snapshot).1
          (t.rescan now.host pid snapshot').1) := by
  intro snapshot snapshot'
  obtain ⟨hunchanged, hremembers, hknown, hcache, htask⟩ :=
    dyldImagesChanged_spec h.remembers now.host task
  have hfast : s.checked now.host = s.dyldImagesChanged now.host task := by
    unfold checked
    rw [h.port]
  have hfull : t.checked now.host = (true, t) := by
    unfold checked
    rw [h.noPort]
  obtain ⟨hevents', hnamed', hmem', known', ht⟩ :=
    rescan_of_changed pid hfull h.named' snapshot'
  generalize hchecked : s.dyldImagesChanged now.host task = result at *
  obtain ⟨changed, update⟩ := result
  dsimp only at hunchanged hremembers hknown hcache htask
  cases changed with
  | false =>
      -- a repeated reading: the scanner with a port does nothing
      have hrepeats : Repeats task before now := hunchanged.mp rfl
      have hskip : s.rescan now.host pid snapshot = (update, []) := by
        rw [rescan_eq pid hfast, if_neg Bool.false_ne_true]
      have hnothing : fullEvents now.host t.sharedCache pid t.known snapshot' = [] ↔
          now.images = lastImages before := by
        rw [fullEvents_eq_nil_iff _ _ _ h.named']
        have hset : {k | k ∈ t.known} = lastImages before := Set.ext h.known'
        rw [hset]
        rfl
      rw [hskip, hevents']
      refine ⟨?_, fun hsame => ?_⟩
      · rw [List.nil_perm, hnothing]
        exact ⟨fun hsame _ => hsame, fun hsame => hsame hrepeats⟩
      · refine ⟨htask.trans h.port, ?_, ?_, ?_, ?_, hnamed', ?_, ?_⟩
        · rw [ht]
          exact h.noPort
        · rw [ht]
          exact hcache.trans h.cache
        · rw [lastReading_concat]
          exact hremembers
        · rw [hknown]
          exact h.named
        · rw [lastImages_concat, hsame hrepeats, hknown]
          exact h.known
        · rw [lastImages_concat]
          exact hmem'
  | true =>
      have hnot : ¬ Repeats task before now := fun hrepeats => by
        have hcontra := hunchanged.mpr hrepeats
        cases hcontra
      obtain ⟨hevents, hnamed, hmem, known, hs⟩ :=
        rescan_of_changed pid hfast (by rw [hknown]; exact h.named) snapshot
      refine ⟨?_, fun _ => ?_⟩
      · rw [hevents, hevents', hknown, hcache, h.cache]
        refine iff_of_true ?_ fun hrepeats => absurd hrepeats hnot
        exact fullEvents_perm _ _ _ h.named h.named'
          (fun k => (h.known k).trans (h.known' k).symm) _ _ _
      · refine ⟨?_, ?_, ?_, ?_, hnamed, hnamed', ?_, ?_⟩
        · rw [hs]
          exact htask.trans h.port
        · rw [ht]
          exact h.noPort
        · rw [hs, ht]
          exact hcache.trans h.cache
        · rw [hs, lastReading_concat]
          exact hremembers
        · rw [lastImages_concat]
          exact hmem
        · rw [lastImages_concat]
          exact hmem'

theorem scanned_concat (pid : UInt32) (order : Tick → IterationOrder) (self : ImageScanner)
    (before : List Tick) (now : Tick) :
    scanned pid order self (before ++ [now]) =
      ((scanned pid order self before).rescan now.host pid
        { regions := now.regions, removal := order now }).1 := by
  unfold scanned
  rw [List.foldl_concat]

/-- What holds at every scan of a history holds at its last and at those before. -/
theorem forall_scan_concat {P : List Tick → Tick → Prop} {ticks : List Tick} {last : Tick} :
    (∀ before now, before ++ [now] <+: ticks ++ [last] → P before now) ↔
      (∀ before now, before ++ [now] <+: ticks → P before now) ∧ P ticks last := by
  constructor
  · intro h
    exact ⟨fun before now hscan => h before now (hscan.trans (List.prefix_append _ _)),
      h ticks last (List.prefix_refl _)⟩
  · rintro ⟨hbefore, hlast⟩ before now hscan
    rcases List.prefix_concat_iff.mp hscan with heq | hscan
    · obtain ⟨rfl, hnow⟩ := List.append_inj' heq rfl
      obtain rfl := List.singleton_inj.mp hnow
      exact hlast
    · exact hbefore before now hscan

/-- A scanner with a task port emits at every scan what one without emits, whatever the orders of
their maps, exactly when the target's images are those of the scan before at every scan at which
dyld's list is where it was and as long as it was when it was last found. -/
theorem fast_path_iff (pid : UInt32) (sharedCache : Option (String → Option SharedCacheImage))
    (task : UInt32) (ticks : List Tick) :
    (∀ before now, before ++ [now] <+: ticks →
      (emitted pid Tick.withPort { sharedCache, task := some task } before now).Perm
        (emitted pid Tick.withoutPort { sharedCache } before now)) ↔
    ∀ before now, before ++ [now] <+: ticks →
      Repeats task before now → now.images = lastImages before := by
  -- scanners that emitted the same so far are abreast
  have hruns : ((∀ before now, before ++ [now] <+: ticks →
        (emitted pid Tick.withPort { sharedCache, task := some task } before now).Perm
          (emitted pid Tick.withoutPort { sharedCache } before now)) ↔
      ∀ before now, before ++ [now] <+: ticks →
        Repeats task before now → now.images = lastImages before) ∧
      ((∀ before now, before ++ [now] <+: ticks →
          Repeats task before now → now.images = lastImages before) →
        Abreast task ticks (scanned pid Tick.withPort { sharedCache, task := some task } ticks)
          (scanned pid Tick.withoutPort { sharedCache } ticks)) := by
    induction ticks using List.reverseRecOn with
    | nil =>
        refine ⟨?_, fun _ => ?_⟩
        · simp
        · exact ⟨rfl, rfl, rfl, rfl, synced_new.named, synced_new.named,
            fun k => iff_of_false (AList.notMem_empty k) (Set.notMem_empty k),
            fun k => iff_of_false (AList.notMem_empty k) (Set.notMem_empty k)⟩
    | append_singleton ticks now ih =>
        obtain ⟨hiff, habreast⟩ := ih
        rw [forall_scan_concat, forall_scan_concat, hiff, scanned_concat, scanned_concat]
        refine ⟨and_congr_right fun hsteady => ?_, fun hsteady => ?_⟩
        · exact ((habreast hsteady).rescan pid now).1
        · exact ((habreast hsteady.1).rescan pid now).2 hsteady.2
  exact hruns.1

/-! ## A count that stays -/

/-- A host at which dyld's list is found, with one image in it. -/
def oneImage : ScanHost where
  disk _ := .error "stat: no such file"
  hostArch := some "aarch64"
  taskDyldInfo _ := some 0x7fff0000
  infoArrayCount _ _ := some 1

/-- A tick at which one image is mapped, at a fixed address and under some path. -/
def scanOf (path : String) : Tick where
  host := oneImage
  regions := [{ address := 0x1000, size := 0x100, isExecutable := true, path }]
  withPort := asKept
  withoutPort := asKept

/-- One library is closed and another is opened between two scans: the count is still one, and the
scanner with a port does not see it. -/
theorem swapped_library_missed :
    ¬ ∀ before now, before ++ [now] <+: [scanOf "/a", scanOf "/b"] →
      (emitted 7 Tick.withPort { task := some 1 } before now).Perm
        (emitted 7 Tick.withoutPort {} before now) := by
  intro h
  have hlength := (h [scanOf "/a"] (scanOf "/b") (List.prefix_refl _)).length_eq
  revert hlength
  decide +kernel

end ImageScanner

end Stax.Kperf
