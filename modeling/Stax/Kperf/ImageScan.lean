/-
# Stax.Kperf.ImageScan — telling the sink which images are mapped.

A scan lists the target's regions, takes the executable ones with a path, and compares them by path
and address with what the scan before found.  What is gone is announced first, in the order the
hash map has it, then what is new, in the order of the regions.  A listener that replays the
announcements by base address alone has after every scan the executable regions of that scan: an
address may go from one image to another, but the old one is announced gone before the new one.

The target's regions, the files on disk and the dyld shared cache are parameters, as is what the
kernel says of dyld's image list.
-/
import Stax.Binaries.SymbolTable
import Stax.Lib.Announcements

namespace Stax.Kperf

open Stax.Live (Addr)
open Stax.Binaries Stax.Lib

/-! ## Images -/

/-- A region of the target; the path is empty where no file backs it. -/
structure Region where
  address : Addr
  size : UInt64
  isExecutable : Bool
  path : String
  deriving DecidableEq, Repr

/-- An image of the shared cache, as its library's path finds it. -/
structure SharedCacheImage where
  textSvma : Addr
  textVmsize : UInt64
  uuid : Option (List UInt8)
  symbols : List MachOSymbol
  deriving DecidableEq, Repr

/-- A mapped image with all that its announcement tells of it. -/
structure LoadedImage where
  path : String
  baseAvma : Addr
  vmsize : UInt64
  textSvma : Addr
  uuid : Option (List UInt8)
  arch : Option String
  isExecutable : Bool
  symbols : List MachOSymbol
  fromCache : Bool
  deriving DecidableEq, Repr

/-- What a scan reads: the disk, the architecture it runs on, and of a task port the address of
dyld's image list and the count of images at that address. -/
structure ScanHost where
  disk : String → Except String MachOFile
  hostArch : Option String
  taskDyldInfo : UInt32 → Option UInt64
  infoArrayCount : UInt32 → UInt64 → Option UInt32

/-- The image of a file, else of the shared cache, else of the region alone. -/
def buildImage (host : ScanHost) (path : String) (baseAvma : Addr) (regionSize : UInt64)
    (sharedCache : Option (String → Option SharedCacheImage)) : LoadedImage :=
  match parseDiskMacho host.disk path with
  | .ok parsed =>
    { path, baseAvma, vmsize := max parsed.textVmsize regionSize, textSvma := parsed.textSvma,
      uuid := parsed.uuid, arch := parsed.arch, isExecutable := parsed.isExecutable,
      symbols := parsed.symbols, fromCache := false }
  | .error _ =>
    match sharedCache.bind (· path) with
    | some img =>
      { path, baseAvma, vmsize := max img.textVmsize regionSize, textSvma := img.textSvma,
        uuid := img.uuid, arch := host.hostArch, isExecutable := false, symbols := img.symbols,
        fromCache := false }
    | none =>
      { path, baseAvma, vmsize := regionSize, textSvma := baseAvma, uuid := none, arch := none,
        isExecutable := false, symbols := [], fromCache := false }

/-! ## Events -/

/-- What the sink is told of an image that has come. -/
structure BinaryLoadedEvent where
  pid : UInt32
  baseAvma : Addr
  vmsize : UInt64
  textSvma : Addr
  path : String
  uuid : Option (List UInt8)
  arch : Option String
  isExecutable : Bool
  symbols : List MachOSymbol
  textBytes : Option (List UInt8)
  deriving DecidableEq, Repr

/-- What the sink is told of an image that has gone. -/
structure BinaryUnloadedEvent where
  pid : UInt32
  baseAvma : Addr
  path : String
  deriving DecidableEq, Repr

/-- What a scan announces. -/
inductive ImageEvent
  | binaryLoaded (event : BinaryLoadedEvent)
  | binaryUnloaded (event : BinaryUnloadedEvent)
  deriving DecidableEq, Repr

/-! ## The scanner -/

/-- The path and base address of an image. -/
abbrev ImageKey := String × Addr

/-- The images that have been announced and not withdrawn, under path and address. -/
abbrev KnownImages := AList (fun _ : ImageKey => LoadedImage)

/-- The scanner between two scans, with what the dynamic linker's counters were at the last one. -/
structure ImageScanner where
  known : KnownImages := ∅
  sharedCache : Option (String → Option SharedCacheImage) := none
  task : Option UInt32 := none
  lastAllImageInfoAddr : UInt64 := 0
  lastImageCount : UInt32 := 0

/-- An order in which a hash map may give its keys. -/
structure IterationOrder where
  order : List ImageKey → List ImageKey
  perm : ∀ keys, (order keys).Perm keys

/-- The regions a target has at a scan, and the order in which the scanner's map is gone through. -/
structure Snapshot where
  regions : List Region
  removal : IterationOrder

namespace ImageScanner

/-- Whether dyld's image list changed; anything that cannot be read counts as a change. -/
def dyldImagesChanged (host : ScanHost) (self : ImageScanner) (task : UInt32) :
    Bool × ImageScanner :=
  match host.taskDyldInfo task with
  | none => (true, self)
  | some addr =>
    if addr = 0 then (true, self)
    else
      match host.infoArrayCount task addr with
      | none => (true, { self with lastAllImageInfoAddr := 0 })
      | some count =>
        (addr ≠ self.lastAllImageInfoAddr || count ≠ self.lastImageCount,
          { self with lastAllImageInfoAddr := addr, lastImageCount := count })

/-- What the pass over the regions has: the keys seen, and the key and size of the new ones. -/
structure Found where
  current : List ImageKey := []
  toAdd : List (ImageKey × UInt64) := []

/-- One region of the pass: it counts if it is executable and has a path, and only once. -/
def Found.region (known : KnownImages) (found : Found) (region : Region) : Found :=
  let key := (region.path, region.address)
  if region.path = "" ∨ region.isExecutable = false then found
  else if key ∈ found.current then found
  else
    { current := found.current ++ [key]
      toAdd := if key ∈ known then found.toAdd else found.toAdd ++ [(key, region.size)] }

/-- The images found before whose region is gone. -/
def toRemove (known : KnownImages) (current : List ImageKey) (removal : IterationOrder) :
    List ImageKey :=
  (removal.order known.keys).filter fun key =>
    (known.lookup key).any fun img => !img.fromCache && decide (key ∉ current)

/-- Forgets an image and announces it gone. -/
def unload (pid : UInt32) (known : KnownImages) (key : ImageKey) :
    KnownImages × List ImageEvent :=
  match known.lookup key with
  | some img =>
    (known.erase key, [.binaryUnloaded { pid, baseAvma := img.baseAvma, path := img.path }])
  | none => (known, [])

/-- Builds an image, announces it and remembers it. -/
def load (host : ScanHost) (sharedCache : Option (String → Option SharedCacheImage)) (pid : UInt32)
    (known : KnownImages) (add : ImageKey × UInt64) : KnownImages × List ImageEvent :=
  let img := buildImage host add.1.1 add.1.2 add.2 sharedCache
  (known.insert add.1 img,
    [.binaryLoaded
      { pid, baseAvma := img.baseAvma, vmsize := img.vmsize, textSvma := img.textSvma,
        path := img.path, uuid := img.uuid, arch := img.arch, isExecutable := img.isExecutable,
        symbols := img.symbols, textBytes := none }])

/-- A loop that changes the known images and emits events. -/
def emitting {α : Type} (step : KnownImages → α → KnownImages × List ImageEvent) :
    List α → KnownImages → KnownImages × List ImageEvent
  | [], known => (known, [])
  | a :: as, known =>
    let first := step known a
    let rest := emitting step as first.1
    (rest.1, first.2 ++ rest.2)

/-- One scan: where the linker's counters have moved, or cannot be asked for, what has gone is
withdrawn and what has come is announced. -/
def rescan (host : ScanHost) (pid : UInt32) (self : ImageScanner) (snapshot : Snapshot) :
    ImageScanner × List ImageEvent :=
  let (changed, self) :=
    match self.task with
    | some task => self.dyldImagesChanged host task
    | none => (true, self)
  if changed then
    let found := snapshot.regions.foldl (Found.region self.known) {}
    let removed := emitting (unload pid) (toRemove self.known found.current snapshot.removal)
      self.known
    let added := emitting (load host self.sharedCache pid) found.toAdd removed.1
    ({ self with known := added.1 }, removed.2 ++ added.2)
  else (self, [])

/-- Scan after scan. -/
def rescans (host : ScanHost) (pid : UInt32) (self : ImageScanner) (snapshots : List Snapshot) :
    ImageScanner × List ImageEvent :=
  snapshots.foldl
    (fun run snapshot =>
      let next := run.1.rescan host pid snapshot
      (next.1, run.2 ++ next.2))
    (self, [])

end ImageScanner

/-! ## What the events announce -/

/-- An event as an announcement of a path at a base address. -/
def ImageEvent.announce : ImageEvent → Announcement Addr String
  | .binaryLoaded e => .added e.baseAvma e.path
  | .binaryUnloaded e => .dropped e.baseAvma e.path

/-- The announcements of a scan as a listener takes them, by base address and path. -/
def announced (events : List ImageEvent) : List (Announcement Addr String) :=
  events.map ImageEvent.announce

/-- The region is executable and has a path, and this is its key. -/
def Region.Counts (region : Region) (key : ImageKey) : Prop :=
  region.isExecutable = true ∧ region.path ≠ "" ∧ key = (region.path, region.address)

/-- The path and base address of the executable regions with a path. -/
def Snapshot.images (snapshot : Snapshot) : Set ImageKey :=
  {key | ∃ region ∈ snapshot.regions, region.Counts key}

/-- The images are stored under their own path and address, and none is the shared cache's. -/
def Named (known : KnownImages) : Prop :=
  ∀ key img, known.lookup key = some img →
    img.path = key.1 ∧ img.baseAvma = key.2 ∧ img.fromCache = false

/-- The images are stored under their own path and address, and the listener's map shows them. -/
structure Synced (known : KnownImages) (m : Addr → Option String) : Prop where
  named : ∀ key img, known.lookup key = some img →
    img.path = key.1 ∧ img.baseAvma = key.2 ∧ img.fromCache = false
  shows : Announcement.Shows m {key | key ∈ known}

theorem buildImage_spec (host : ScanHost) (path : String) (baseAvma : Addr) (regionSize : UInt64)
    (sharedCache : Option (String → Option SharedCacheImage)) :
    (buildImage host path baseAvma regionSize sharedCache).path = path ∧
      (buildImage host path baseAvma regionSize sharedCache).baseAvma = baseAvma ∧
      (buildImage host path baseAvma regionSize sharedCache).fromCache = false := by
  unfold buildImage
  split
  · exact ⟨rfl, rfl, rfl⟩
  · split
    · exact ⟨rfl, rfl, rfl⟩
    · exact ⟨rfl, rfl, rfl⟩

namespace ImageScanner

/-! ## One image -/

/-- Forgetting an image keeps the listener in step. -/
theorem unload_spec (pid : UInt32) {known : KnownImages} {m : Addr → Option String}
    (h : Synced known m) (key : ImageKey) :
    Announcement.Balanced m (announced (unload pid known key).2) ∧
      Synced (unload pid known key).1
        (Announcement.replay m (announced (unload pid known key).2)) ∧
      ∀ k, k ∈ (unload pid known key).1 ↔ k ∈ known ∧ k ≠ key := by
  unfold unload
  cases himg : known.lookup key with
  | none =>
      have hnot : key ∉ known := AList.lookup_eq_none.mp himg
      refine ⟨True.intro, h, fun k => (and_iff_left_of_imp fun hk => ?_).symm⟩
      rintro rfl
      exact hnot hk
  | some img =>
      obtain ⟨hpath, hbase, -⟩ := h.named key img himg
      have hmem : key ∈ known := AList.lookup_isSome.mp (by rw [himg]; rfl)
      have hshown := (h.shows key.1 key.2).mpr hmem
      refine ⟨⟨?_, True.intro⟩, ⟨fun k other hother => ?_, ?_⟩, fun k => ?_⟩
      · show m img.baseAvma = some img.path
        rw [hpath, hbase, hshown]
      · rcases eq_or_ne k key with rfl | hne
        · rw [AList.lookup_erase] at hother
          cases hother
        · rw [AList.lookup_erase_ne hne] at hother
          exact h.named k other hother
      · show Announcement.Shows ((Announcement.dropped img.baseAvma img.path).apply m) _
        rw [hpath, hbase]
        refine (h.shows.dropped hmem).congr fun k => ?_
        exact and_comm.trans AList.mem_erase.symm
      · rw [AList.mem_erase, and_comm]

/-- Remembering an image at an address that is free keeps the listener in step. -/
theorem load_spec (host : ScanHost) (sharedCache : Option (String → Option SharedCacheImage))
    (pid : UInt32) {known : KnownImages} {m : Addr → Option String} (h : Synced known m)
    {add : ImageKey × UInt64} (hfree : m add.1.2 = none) :
    Announcement.Balanced m (announced (load host sharedCache pid known add).2) ∧
      Synced (load host sharedCache pid known add).1
        (Announcement.replay m (announced (load host sharedCache pid known add).2)) ∧
      (∀ k, k ∈ (load host sharedCache pid known add).1 ↔ k = add.1 ∨ k ∈ known) ∧
      ∀ b, b ≠ add.1.2 →
        Announcement.replay m (announced (load host sharedCache pid known add).2) b = m b := by
  obtain ⟨hpath, hbase, hcache⟩ := buildImage_spec host add.1.1 add.1.2 add.2 sharedCache
  unfold load
  generalize buildImage host add.1.1 add.1.2 add.2 sharedCache = img at hpath hbase hcache
  refine ⟨⟨?_, True.intro⟩, ⟨fun k other hother => ?_, ?_⟩, fun k => AList.mem_insert _, fun b hb => ?_⟩
  · show m img.baseAvma = none
    rw [hbase, hfree]
  · rcases eq_or_ne k add.1 with rfl | hne
    · rw [AList.lookup_insert] at hother
      obtain rfl := Option.some.inj hother
      exact ⟨hpath, hbase, hcache⟩
    · rw [AList.lookup_insert_ne hne] at hother
      exact h.named k other hother
  · show Announcement.Shows ((Announcement.added img.baseAvma img.path).apply m) _
    rw [hpath, hbase]
    refine (h.shows.added hfree).congr fun k => ?_
    exact (AList.mem_insert _).symm
  · show Function.update m img.baseAvma (some img.path) b = m b
    rw [hbase, Function.update_of_ne hb]

/-! ## The two loops -/

theorem emitting_unload_spec (pid : UInt32) (keys : List ImageKey) {known : KnownImages}
    {m : Addr → Option String} (h : Synced known m) :
    Announcement.Balanced m (announced (emitting (unload pid) keys known).2) ∧
      Synced (emitting (unload pid) keys known).1
        (Announcement.replay m (announced (emitting (unload pid) keys known).2)) ∧
      ∀ k, k ∈ (emitting (unload pid) keys known).1 ↔ k ∈ known ∧ k ∉ keys := by
  induction keys generalizing known m with
  | nil => exact ⟨True.intro, h, fun k => (and_iff_left List.not_mem_nil).symm⟩
  | cons key keys ih =>
      obtain ⟨hbalanced, hsynced, hmem⟩ := unload_spec pid h key
      obtain ⟨hrestBalanced, hrestSynced, hrestMem⟩ := ih hsynced
      unfold emitting
      rw [announced, List.map_append, Announcement.replay_append, Announcement.balanced_append]
      refine ⟨⟨hbalanced, hrestBalanced⟩, hrestSynced, fun k => ?_⟩
      rw [hrestMem, hmem, List.mem_cons, not_or, and_assoc]

/-- Images that are added where nothing is known are announced soundly, and a follower's map goes
along with what is known. -/
theorem emitting_load_spec (host : ScanHost)
    (sharedCache : Option (String → Option SharedCacheImage)) (pid : UInt32)
    (adds : List (ImageKey × UInt64)) {known : KnownImages} {m : Addr → Option String}
    (h : Synced known m) (hbases : (adds.map (·.1.2)).Nodup)
    (hfree : ∀ add ∈ adds, m add.1.2 = none) :
    Announcement.Balanced m (announced (emitting (load host sharedCache pid) adds known).2) ∧
      Synced (emitting (load host sharedCache pid) adds known).1
        (Announcement.replay m (announced (emitting (load host sharedCache pid) adds known).2)) ∧
      ∀ k, k ∈ (emitting (load host sharedCache pid) adds known).1 ↔
        k ∈ known ∨ k ∈ adds.map Prod.fst := by
  induction adds generalizing known m with
  | nil => exact ⟨True.intro, h, fun k => (or_iff_left List.not_mem_nil).symm⟩
  | cons add adds ih =>
      rw [List.map_cons, List.nodup_cons] at hbases
      obtain ⟨hbalanced, hsynced, hmem, hothers⟩ :=
        load_spec host sharedCache pid h (hfree add List.mem_cons_self)
      obtain ⟨hrestBalanced, hrestSynced, hrestMem⟩ := ih hsynced hbases.2 (by
        intro other hother
        -- no later image lies at the address that was just taken
        have hne : other.1.2 ≠ add.1.2 := fun heq =>
          hbases.1 (List.mem_map.mpr ⟨other, hother, heq⟩)
        rw [hothers _ hne]
        exact hfree other (List.mem_cons_of_mem _ hother))
      unfold emitting
      rw [announced, List.map_append, Announcement.replay_append, Announcement.balanced_append]
      refine ⟨⟨hbalanced, hrestBalanced⟩, hrestSynced, fun k => ?_⟩
      rw [hrestMem, hmem, List.map_cons, List.mem_cons]
      tauto

/-! ## The pass over the regions -/

/-- What the pass has of some regions: the keys of those that count, and of these the ones to add
are those not known, each once. -/
structure Found.Sees (known : KnownImages) (regions : List Region) (found : Found) : Prop where
  current : ∀ key, key ∈ found.current ↔ ∃ region ∈ regions, region.Counts key
  toAdd : ∀ key, key ∈ found.toAdd.map Prod.fst ↔ key ∈ found.current ∧ key ∉ known
  nodup : (found.toAdd.map Prod.fst).Nodup

/-- The regions seen so far and the next one: found is what counts among them, each once. -/
theorem Found.Sees.region {known : KnownImages} {regions : List Region} {found : Found}
    (h : found.Sees known regions) (r : Region) :
    (found.region known r).Sees known (regions ++ [r]) := by
  have hsplit : ∀ key, (∃ region ∈ regions ++ [r], region.Counts key) ↔
      key ∈ found.current ∨ r.Counts key := by
    intro key
    rw [h.current]
    simp only [List.mem_append, List.mem_singleton, or_and_right, exists_or, exists_eq_left]
  unfold Found.region
  dsimp only
  split
  · rename_i hskip
    refine ⟨fun key => ?_, h.toAdd, h.nodup⟩
    rw [hsplit]
    -- a region that is skipped does not count
    refine (or_iff_left fun hcounts => ?_).symm
    rcases hskip with hpath | hexec
    · exact hcounts.2.1 hpath
    · exact absurd hcounts.1 (by rw [hexec]; exact Bool.false_ne_true)
  · rename_i hcount
    rw [not_or, Bool.not_eq_false] at hcount
    have hcounts : ∀ key, r.Counts key ↔ key = (r.path, r.address) := fun key =>
      ⟨fun hr => hr.2.2, fun hkey => ⟨hcount.2, hcount.1, hkey⟩⟩
    split
    · rename_i hseen
      refine ⟨fun key => ?_, h.toAdd, h.nodup⟩
      rw [hsplit, hcounts]
      refine (or_iff_left_of_imp ?_).symm
      -- a region that was seen before adds nothing
      rintro rfl
      exact hseen
    · rename_i hnew
      -- what is added is not there yet, so no image is added twice
      have hnotAdded : (r.path, r.address) ∉ found.toAdd.map Prod.fst := fun hadded =>
        hnew ((h.toAdd _).mp hadded).1
      refine ⟨fun key => ?_, fun key => ?_, ?_⟩
      · rw [hsplit, hcounts, List.mem_append, List.mem_singleton]
      · dsimp only
        split
        · rename_i hknown
          rw [h.toAdd, List.mem_append, List.mem_singleton]
          refine and_congr_left fun hkey => (or_iff_left ?_).symm
          rintro rfl
          exact hkey hknown
        · rename_i hunknown
          rw [List.map_append, List.mem_append, h.toAdd, List.mem_append, List.map_singleton,
            List.mem_singleton, or_and_right]
          refine or_congr_right (and_iff_left_of_imp ?_).symm
          rintro rfl
          exact hunknown
      · dsimp only
        split
        · exact h.nodup
        · rw [List.map_append, List.map_singleton, ← List.concat_eq_append]
          exact h.nodup.concat hnotAdded

theorem found_sees (known : KnownImages) (regions : List Region) :
    (regions.foldl (Found.region known) {}).Sees known regions := by
  induction regions using List.reverseRecOn with
  | nil =>
      refine ⟨fun key => ?_, fun key => ?_, List.nodup_nil⟩
      · simp
      · simp
  | append_singleton regions r ih =>
      rw [List.foldl_concat]
      exact ih.region r

/-! ## One scan -/

theorem mem_toRemove {known : KnownImages} (h : Named known) (current : List ImageKey)
    (removal : IterationOrder) (key : ImageKey) :
    key ∈ toRemove known current removal ↔ key ∈ known ∧ key ∉ current := by
  rw [toRemove, List.mem_filter, (removal.perm _).mem_iff, AList.mem_keys]
  refine and_congr_right fun hkey => ?_
  obtain ⟨img, himg⟩ := Option.isSome_iff_exists.mp (AList.lookup_isSome.mpr hkey)
  obtain ⟨-, -, hcache⟩ := h key img himg
  rw [himg, Option.any_some, hcache]
  simp

/-- A scan without a task port announces what changed and leaves the listener with the images of
the snapshot. -/
theorem rescan_spec (host : ScanHost) (pid : UInt32) {scanner : ImageScanner}
    {m : Addr → Option String} (h : Synced scanner.known m) (htask : scanner.task = none)
    (snapshot : Snapshot) (hdistinct : (snapshot.regions.map (·.address)).Nodup) :
    Announcement.Balanced m (announced (scanner.rescan host pid snapshot).2) ∧
      Synced (scanner.rescan host pid snapshot).1.known
        (Announcement.replay m (announced (scanner.rescan host pid snapshot).2)) ∧
      (∀ k, k ∈ (scanner.rescan host pid snapshot).1.known ↔ k ∈ snapshot.images) ∧
      (scanner.rescan host pid snapshot).1.task = none := by
  unfold rescan
  rw [htask]
  dsimp only
  rw [if_pos rfl]
  have hsees := found_sees scanner.known snapshot.regions
  generalize snapshot.regions.foldl (Found.region scanner.known) {} = found at hsees
  obtain ⟨hgone, hkept, hkeptMem⟩ := emitting_unload_spec pid
    (toRemove scanner.known found.current snapshot.removal) h
  generalize emitting (unload pid) (toRemove scanner.known found.current snapshot.removal)
    scanner.known = removed at hgone hkept hkeptMem ⊢
  -- two images of one snapshot with one address are the same
  have hone : ∀ k ∈ found.current, ∀ l ∈ found.current, k.2 = l.2 → k = l := by
    intro k hk l hl heq
    obtain ⟨r, hr, -, -, rfl⟩ := (hsees.current k).mp hk
    obtain ⟨t, ht, -, -, rfl⟩ := (hsees.current l).mp hl
    rw [List.inj_on_of_nodup_map hdistinct hr ht heq]
  have hadded : ∀ k ∈ found.toAdd.map Prod.fst, k ∈ found.current ∧ k ∉ scanner.known :=
    fun k => (hsees.toAdd k).mp
  have hbases : (found.toAdd.map (·.1.2)).Nodup := by
    have hnodup := hsees.nodup.map_on fun k hk l hl =>
      hone k (hadded k hk).1 l (hadded l hl).1
    rwa [List.map_map] at hnodup
  have hfree : ∀ add ∈ found.toAdd,
      Announcement.replay m (announced removed.2) add.1.2 = none := by
    intro add hadd
    obtain ⟨hcurrent, hunknown⟩ := hadded add.1 (List.mem_map_of_mem hadd)
    rw [Option.eq_none_iff_forall_ne_some]
    intro p hp
    -- what is still known at the address is in the snapshot, so it is the image to add
    obtain ⟨hknown, hstays⟩ := (hkeptMem _).mp ((hkept.shows p add.1.2).mp hp)
    have hpcurrent : (p, add.1.2) ∈ found.current := by
      by_contra hgone
      exact hstays ((mem_toRemove h.named _ _ _).mpr ⟨hknown, hgone⟩)
    rw [hone _ hpcurrent _ hcurrent rfl] at hknown
    exact hunknown hknown
  obtain ⟨hnew, hsynced, hmem⟩ := emitting_load_spec host scanner.sharedCache pid found.toAdd hkept
    hbases hfree
  rw [announced, List.map_append, Announcement.replay_append, Announcement.balanced_append]
  refine ⟨⟨hgone, hnew⟩, hsynced, fun k => ?_, htask⟩
  rw [hmem, hkeptMem, mem_toRemove h.named, hsees.toAdd]
  have himages : k ∈ snapshot.images ↔ k ∈ found.current := (hsees.current k).symm
  rw [himages]
  tauto

/-! ## Every scan -/

theorem rescans_concat (host : ScanHost) (pid : UInt32) (scanner : ImageScanner)
    (snapshots : List Snapshot) (last : Snapshot) :
    rescans host pid scanner (snapshots ++ [last]) =
      (((rescans host pid scanner snapshots).1.rescan host pid last).1,
        (rescans host pid scanner snapshots).2 ++
          ((rescans host pid scanner snapshots).1.rescan host pid last).2) := by
  rw [rescans, List.foldl_concat]
  rfl

theorem synced_new : Synced ∅ fun _ => none where
  named key img himg := by
    rw [AList.lookup_empty] at himg
    cases himg
  shows := Announcement.shows_empty.congr fun k => (iff_false_intro (AList.notMem_empty k)).symm

/-- After any scans the announcements are sound, a follower's map is what is known, and that is what
the last scan has seen. -/
theorem rescans_spec (host : ScanHost) (pid : UInt32)
    (sharedCache : Option (String → Option SharedCacheImage)) {snapshots : List Snapshot}
    (hdistinct : ∀ s ∈ snapshots, (s.regions.map (·.address)).Nodup) :
    Announcement.Balanced (fun _ => none)
        (announced (rescans host pid { sharedCache } snapshots).2) ∧
      Synced (rescans host pid { sharedCache } snapshots).1.known
        (Announcement.replay (fun _ => none)
          (announced (rescans host pid { sharedCache } snapshots).2)) ∧
      (∀ k, k ∈ (rescans host pid { sharedCache } snapshots).1.known ↔
        ∃ last ∈ snapshots.getLast?, k ∈ last.images) ∧
      (rescans host pid { sharedCache } snapshots).1.task = none := by
  induction snapshots using List.reverseRecOn with
  | nil =>
      refine ⟨True.intro, synced_new, fun k => ?_, rfl⟩
      show k ∈ (∅ : KnownImages) ↔ _
      simp
  | append_singleton snapshots last ih =>
      obtain ⟨hbalanced, hsynced, -, htask⟩ := ih fun s hs =>
        hdistinct s (List.mem_append_left _ hs)
      obtain ⟨hnext, hnextSynced, hnextMem, hnextTask⟩ := rescan_spec host pid hsynced htask last
        (hdistinct last (List.mem_append_right _ (List.mem_singleton_self last)))
      rw [rescans_concat, announced, List.map_append, Announcement.replay_append,
        Announcement.balanced_append]
      refine ⟨⟨hbalanced, hnext⟩, hnextSynced, fun k => ?_, hnextTask⟩
      rw [hnextMem, List.getLast?_concat]
      simp

/-- A new scanner without a task port, fed snapshots of distinct region addresses, announces an image
only where its base address is free, drops none that is not loaded, and leaves a listener that looks
at base addresses only with exactly the images of the last snapshot. -/
theorem rescans_replay (host : ScanHost) (pid : UInt32)
    (sharedCache : Option (String → Option SharedCacheImage)) (snapshots : List Snapshot)
    (hdistinct : ∀ s ∈ snapshots, (s.regions.map (·.address)).Nodup) :
    Announcement.Balanced (fun _ => none)
        (announced (rescans host pid { sharedCache } snapshots).2) ∧
      Announcement.Shows
        (Announcement.replay (fun _ => none)
          (announced (rescans host pid { sharedCache } snapshots).2))
        (match snapshots.getLast? with
          | none => ∅
          | some last => last.images) := by
  obtain ⟨hbalanced, hsynced, hmem, -⟩ := rescans_spec host pid sharedCache hdistinct
  refine ⟨hbalanced, hsynced.shows.congr fun k => (hmem k).trans ?_⟩
  cases snapshots.getLast? with
  | none => simp
  | some last => simp

/-! ## A range that is used again -/

/-- A host without files. -/
def diskless : ScanHost where
  disk _ := .error "stat: no such file"
  hostArch := some "aarch64"
  taskDyldInfo _ := none
  infoArrayCount _ _ := none

/-- The order in which the keys are kept. -/
def asKept : IterationOrder where
  order keys := keys
  perm keys := List.Perm.refl keys

/-- A library is mapped, and at the next scan another one lies at its address. -/
def remapped : List Snapshot :=
  [{ regions := [{ address := 0x1000, size := 0x100, isExecutable := true, path := "/a" }],
     removal := asKept },
    { regions := [{ address := 0x1000, size := 0x100, isExecutable := true, path := "/b" }],
      removal := asKept }]

theorem rescans_replay_remapped :
    Announcement.Balanced (fun _ => none) (announced (rescans diskless 7 {} remapped).2) ∧
      Announcement.replay (fun _ => none) (announced (rescans diskless 7 {} remapped).2) 0x1000 =
        some "/b" := by
  obtain ⟨hbalanced, hshows⟩ := rescans_replay diskless 7 none remapped (by simp [remapped])
  refine ⟨hbalanced, (hshows "/b" 0x1000).mpr ?_⟩
  exact ⟨_, List.mem_singleton_self _, rfl, by decide, rfl⟩

end ImageScanner

end Stax.Kperf
