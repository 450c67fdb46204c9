/-
# Stax.Binaries.Registry — the images mapped into the target, and what an address is in them.

The registry keeps the loaded images in the order they came, at most one at a base address, each
with its symbols sorted.  An index sorted by base address is built by the first search after a
change and thrown away by the next change.  An address is searched in the index; what is found is
named for a label by a binary search and a cache of demangled names, and for a disassembly by a scan
and a fresh demangling.  An address in no image is looked for among the kernel's symbols and in the
dyld shared cache, or disassembled straight from the target's memory.

What lies outside is a parameter: the demangler, the files on disk, the target's memory, and the
kernel's symbols.
-/
import Stax.Binaries.SymbolTable
import Stax.Lib.LruCache

namespace Stax.Binaries

open Stax.Live (Addr Language ResolvedSymbol)
open Stax.Lib Stax.Lib.Predecessor

/-! ## Images -/

/-- A symbol as the registry keeps it. -/
abbrev LiveSymbolOwned := MachOSymbol

/-- An image that is mapped into the target, with its symbols and the bytes of its code where they
were sent. -/
structure LoadedBinary where
  path : String
  baseAvma : Addr
  avmaEnd : Addr
  textSvma : Addr
  arch : Option String := none
  isExecutable : Bool := false
  symbols : List LiveSymbolOwned := []
  textBytes : Option (List UInt8) := none
  deriving DecidableEq, Repr

/-- A segment of an image: where it is to be loaded, and where it lies in the file. -/
structure LoadHeader where
  address : UInt64
  memorySize : UInt64
  fileSize : UInt64
  fileOffset : UInt64
  deriving DecidableEq, Repr

/-- An image on disk: its bytes and where its segments lie in them. -/
structure CodeImage where
  bytes : List UInt8
  loadHeaders : List LoadHeader
  deriving DecidableEq, Repr

/-- `checked_add` on 64 bits. -/
def checkedAdd (a b : ℕ) : Option ℕ := if a + b < 2 ^ 64 then some (a + b) else none

/-- The first segment that holds the range decides; a size that overflows ends the search. -/
def CodeImage.fetchFrom (bytes : List UInt8) (start len stop : ℕ) :
    List LoadHeader → Option (List UInt8)
  | [] => none
  | header :: rest => do
    let headerEnd ← checkedAdd header.address.toNat header.memorySize.toNat
    if header.address.toNat ≤ start ∧ stop ≤ headerEnd then
      let inSegment := start - header.address.toNat
      if header.fileSize.toNat < (← checkedAdd inSegment len) then none
      else
        let fileOff := (header.fileOffset + UInt64.ofNat inSegment).toNat
        if bytes.length < (← checkedAdd fileOff len) then none
        else some ((bytes.drop fileOff).take len)
    else fetchFrom bytes start len stop rest

/-- The bytes of an image from an address on, where one segment has them all. -/
def CodeImage.fetch (image : CodeImage) (startSvma : Addr) (len : ℕ) : Option (List UInt8) := do
  let stop ← checkedAdd startSvma.toNat len
  fetchFrom image.bytes startSvma.toNat len stop image.loadHeaders

/-- An image of the dyld shared cache. -/
structure CacheRuntimeImage where
  installName : String
  runtimeAvma : Addr
  textSvma : Addr
  vmsize : UInt64
  symbols : List MachOSymbol
  deriving DecidableEq, Repr

/-- The dyld shared cache by the images it lists. -/
structure SharedCache where
  runtimeImages : List CacheRuntimeImage

/-- The image of the cache that holds an address, if the nearest one below it does. -/
def SharedCache.lookupAddress (cache : SharedCache) (avma : Addr) : Option CacheRuntimeImage :=
  let index := sortByKey (·.runtimeAvma.toNat) cache.runtimeImages
  let pos := partitionPoint (fun i => i.runtimeAvma.toNat ≤ avma.toNat) index
  if pos = 0 then none
  else (index[pos - 1]?).filter fun img => avma < img.runtimeAvma + img.vmsize

/-- A name as people read it, with the language it was mangled by. -/
structure Demangled where
  name : String
  language : Language
  deriving DecidableEq, Repr

/-- What the kernel's symbols say of an address. -/
structure KernelResolvedSymbol where
  module : String
  functionName : String
  language : Language
  deriving DecidableEq, Repr

/-- What the registry calls outside: the demangler, `load_image`'s files, and `mach_vm_read` on a
task port, an address and a length. -/
structure Host where
  demangleBytes : List UInt8 → Demangled
  loadImage : String → Option CodeImage
  machVmRead : UInt32 → Addr → ℕ → Option (List UInt8)

/-! ## The registry -/

/-- `(base_avma, avma_end, by_base_idx)` of an image. -/
abbrev IndexEntry := Addr × Addr × ℕ

/-- The index of the images, sorted by base address. -/
def buildIndex (byBase : List LoadedBinary) : List IndexEntry :=
  sortByKey (·.1.toNat) (byBase.mapIdx fun i b => (b.baseAvma, b.avmaEnd, i))

/-- The images of the target, with an index that is built when it is needed, and what else addresses
are looked up in. -/
structure BinaryRegistry where
  byBase : List LoadedBinary := []
  byBaseIndex : Option (List IndexEntry) := none
  images : AList (fun _ : String => Option CodeImage) := ∅
  dyldArch : Option String := none
  targetPid : Option UInt32 := none
  targetTaskPort : Option UInt64 := none
  machoByteSource : Option (Addr → ℕ → Option (List UInt8)) := none
  sharedCache : Option SharedCache := none
  kernelSymbols : Addr → Option KernelResolvedSymbol := fun _ => none
  demangleCache : LruCache (List UInt8) Demangled := { capacity := 16384, capacity_pos := by simp }
  /-- No two images have one base address. -/
  distinct : (byBase.map (·.baseAvma)).Nodup := by simp
  /-- The symbols of every image are sorted. -/
  sorted : ∀ b ∈ byBase, b.symbols.Pairwise fun s t => s.startSvma.toNat ≤ t.startSvma.toNat := by
    simp
  /-- An index that was not thrown away is the index of the images. -/
  indexed : ∀ idx ∈ byBaseIndex, idx = buildIndex byBase := by simp

/-- A registry of no images. -/
def BinaryRegistry.new : BinaryRegistry := {}

/-- An address of the target in the symbols' address space. -/
def svmaFor (binary : LoadedBinary) (address : Addr) : Addr :=
  address - binary.baseAvma + binary.textSvma

/-- Where an address of the file lies in the target's memory. -/
def avmaForSvma (baseAvma textSvma svma : Addr) : Addr := svma - textSvma + baseAvma

/-- What follows the last slash. -/
def shortPath (path : String) : String := String.ofList (path.toList.rtakeWhile (· ≠ '/'))

/-- `{:#x}`. -/
def hex (a : Addr) : String := "0x" ++ String.ofList (Nat.toDigits 16 a.toNat)

/-- Numbers with the same hexadecimal digits are the same. -/
theorem toDigits_sixteen_injective : Function.Injective (Nat.toDigits 16) := by
  have hdigit : ∀ a b : Fin 16, Nat.digitChar a = Nat.digitChar b → a = b := by decide
  intro n m h
  induction n using Nat.strong_induction_on generalizing m with
  | _ n ih =>
      have hn := Nat.toDigits_eq_if (n := n) (b := 16) (by omega)
      have hm := Nat.toDigits_eq_if (n := m) (b := 16) (by omega)
      have hlength (q d : ℕ) : (Nat.toDigits 16 q ++ [Nat.digitChar d]).length ≠ 1 := by
        have hpos : 0 < (Nat.toDigits 16 q).length := Nat.length_toDigits_pos
        rw [List.length_append, List.length_singleton]
        omega
      rw [h, hm] at hn
      by_cases hsmall : m < 16
      · by_cases hsmall' : n < 16
        · rw [if_pos hsmall, if_pos hsmall'] at hn
          have hfin := hdigit ⟨m, hsmall⟩ ⟨n, hsmall'⟩ (List.head_eq_of_cons_eq hn)
          exact (congrArg Fin.val hfin).symm
        · rw [if_pos hsmall, if_neg hsmall'] at hn
          exact absurd (congrArg List.length hn).symm (hlength _ _)
      · by_cases hsmall' : n < 16
        · rw [if_neg hsmall, if_pos hsmall'] at hn
          exact absurd (congrArg List.length hn) (hlength _ _)
        · rw [if_neg hsmall, if_neg hsmall'] at hn
          obtain ⟨hhigh, hlow⟩ := List.append_inj' hn rfl
          have hdiv := ih (n / 16) (by omega) hhigh.symm
          have hfin := hdigit ⟨m % 16, by omega⟩ ⟨n % 16, by omega⟩
            (List.head_eq_of_cons_eq hlow)
          have hmod : m % 16 = n % 16 := congrArg Fin.val hfin
          omega

theorem hex_injective : Function.Injective hex := by
  intro a b h
  have hlist := congrArg String.toList h
  unfold hex at hlist
  simp only [String.toList_append, String.toList_ofList] at hlist
  exact UInt64.toNat_inj.mp (toDigits_sixteen_injective (List.append_cancel_left hlist))

namespace BinaryRegistry

/-- The target is known; a port of zero leaves the one there was. -/
def setTarget (self : BinaryRegistry) (pid : UInt32) (taskPort : UInt64) : BinaryRegistry :=
  { self with
    targetPid := some pid
    targetTaskPort := if taskPort ≠ 0 then some taskPort else self.targetTaskPort }

/-- A shared cache is attached, in place of any other. -/
def setSharedCache (self : BinaryRegistry) (cache : SharedCache) : BinaryRegistry :=
  { self with sharedCache := some cache }

/-- A source of bytes is attached, in place of any other. -/
def setMachoByteSource (self : BinaryRegistry) (source : Addr → ℕ → Option (List UInt8)) :
    BinaryRegistry :=
  { self with machoByteSource := some source }

theorem nodup_retain {byBase : List LoadedBinary} (h : (byBase.map (·.baseAvma)).Nodup)
    (base : Addr) : ((byBase.filter (·.baseAvma ≠ base)).map (·.baseAvma)).Nodup :=
  h.sublist (List.filter_sublist.map _)

/-- The image takes the place of one at its base address, its symbols sorted. -/
def insert (self : BinaryRegistry) (binary : LoadedBinary) : BinaryRegistry :=
  { self with
    byBase := self.byBase.filter (·.baseAvma ≠ binary.baseAvma) ++
      [{ binary with symbols := sortByKey (·.startSvma.toNat) binary.symbols }]
    byBaseIndex := none
    dyldArch := self.dyldArch <|> binary.arch
    distinct := by
      rw [List.map_append, List.nodup_append]
      refine ⟨nodup_retain self.distinct _, List.nodup_singleton _, ?_⟩
      intro base hbase base' hbase'
      obtain ⟨b, hb, rfl⟩ := List.mem_map.mp hbase
      rw [List.mem_singleton.mp hbase']
      exact of_decide_eq_true (List.mem_filter.mp hb).2
    sorted := by
      intro b hb
      rcases List.mem_append.mp hb with hb | hb
      · exact self.sorted b (List.mem_filter.mp hb).1
      · rw [List.mem_singleton.mp hb]
        exact pairwise_sortByKey _ binary.symbols
    indexed := by simp }

/-- An image is gone, and the index with it. -/
def remove (self : BinaryRegistry) (baseAvma : Addr) : BinaryRegistry :=
  { self with
    byBase := self.byBase.filter (·.baseAvma ≠ baseAvma)
    byBaseIndex := none
    distinct := nodup_retain self.distinct baseAvma
    sorted := fun b hb => self.sorted b (List.mem_filter.mp hb).1
    indexed := by simp }

/-- The index, built where there is none. -/
def index (self : BinaryRegistry) : List IndexEntry × BinaryRegistry :=
  match self.byBaseIndex with
  | some idx => (idx, self)
  | none =>
    (buildIndex self.byBase,
      { self with
        byBaseIndex := some (buildIndex self.byBase)
        indexed := fun _ h => (Option.mem_some_iff.mp h).symm })

/-- The image before the partition point, if the address is before its end. -/
def binaryForAddress (self : BinaryRegistry) (address : Addr) : Option ℕ × BinaryRegistry :=
  let (idx, self) := self.index
  let pos := partitionPoint (fun e => e.1.toNat ≤ address.toNat) idx
  if pos = 0 then (none, self)
  else
    (((idx[pos - 1]?).filter fun e => address < e.2.1).map (·.2.2), self)

/-! ## Labels -/

/-- A name is demangled once and remembered. -/
def cachedDemangle (host : Host) (self : BinaryRegistry) (rawBytes : List UInt8) :
    Demangled × BinaryRegistry :=
  let (demangled, cache) := self.demangleCache.memo host.demangleBytes rawBytes
  (demangled, { self with demangleCache := cache })

/-- The name and language of a symbol, or `binary+0x…` where there is none. -/
def nameOf (host : Host) (self : BinaryRegistry) (sym : Option MachOSymbol) (basename : String)
    (svma : Addr) : (String × Language) × BinaryRegistry :=
  match sym with
  | some sym =>
    let (demangled, self) := cachedDemangle host self sym.name
    ((demangled.name, demangled.language), self)
  | none => ((basename ++ "+" ++ hex svma, .unknown), self)

/-- The symbol of an address of the kernel. -/
def lookupSymbolInKernelCollection (self : BinaryRegistry) (address : Addr) :
    Option ResolvedSymbol :=
  (self.kernelSymbols address).map fun symbol =>
    { functionName := symbol.functionName, binary := "kernel:" ++ symbol.module, isMain := false,
      language := symbol.language }

/-- The symbol of an address in an image of the shared cache. -/
def lookupSymbolInSharedCache (host : Host) (self : BinaryRegistry) (address : Addr) :
    Option ResolvedSymbol × BinaryRegistry :=
  match self.sharedCache.bind (·.lookupAddress address) with
  | none => (none, self)
  | some img =>
    let basename := shortPath img.installName
    let svma := address - img.runtimeAvma + img.textSvma
    -- the cache's symbols are not sorted, so they are scanned
    let sym := img.symbols.find? fun s => s.startSvma ≤ svma && svma < s.endSvma
    let name := self.nameOf host sym basename svma
    (some { functionName := name.1.1, binary := basename, isMain := false, language := name.1.2 },
      name.2)

/-- The symbol before the partition point, if the address is before its end. -/
def symbolAt (binary : LoadedBinary) (svma : Addr) : Option MachOSymbol :=
  let idx := partitionPoint (fun s => s.startSvma.toNat ≤ svma.toNat) binary.symbols
  if idx = 0 then none
  else (binary.symbols[idx - 1]?).filter fun candidate => svma < candidate.endSvma

/-- The symbol of an address: in an image, or else in the kernel, or else in the shared cache. -/
def lookupSymbol (host : Host) (self : BinaryRegistry) (address : Addr) :
    Option ResolvedSymbol × BinaryRegistry :=
  match self.binaryForAddress address with
  | (none, self) =>
    match self.lookupSymbolInKernelCollection address with
    | some symbol => (some symbol, self)
    | none => self.lookupSymbolInSharedCache host address
  | (some idx, self) =>
    match self.byBase[idx]? with
    | none => (none, self)
    | some binary =>
      let svma := svmaFor binary address
      let basename := shortPath binary.path
      let name := self.nameOf host (symbolAt binary svma) basename svma
      (some
        { functionName := name.1.1, binary := basename, isMain := binary.isExecutable,
          language := name.1.2 }, name.2)

/-! ## Disassembly -/

/-- An address with the function around it, its bytes and where they are from. -/
structure ResolvedAddress where
  binaryPath : String
  arch : Option String
  functionName : String
  language : Language
  baseAddress : Addr
  endAddress : Addr
  bytes : List UInt8
  fnStartSvma : Addr
  image : Option CodeImage
  deriving DecidableEq, Repr

/-- Up to `len` bytes of the target's memory, which needs a task port. -/
def readTargetMemory (host : Host) (self : BinaryRegistry) (address : Addr) (len : ℕ) :
    Option (List UInt8) := do
  let task ← self.targetTaskPort
  (host.machVmRead task.toUInt32 address len).map (·.take len)

/-- Bytes of the source that is attached. -/
def machoByteSourceFetch (self : BinaryRegistry) (address : Addr) (len : ℕ) :
    Option (List UInt8) := do
  (← self.machoByteSource) address len

/-- A failed load is remembered too. -/
def imageFor (host : Host) (self : BinaryRegistry) (path : String) :
    Option CodeImage × BinaryRegistry :=
  match self.images.lookup path with
  | some entry => (entry, self)
  | none =>
    (host.loadImage path, { self with images := self.images.insert path (host.loadImage path) })

/-- A difference that does not go below zero. -/
def saturatingSub (a b : Addr) : Addr := if a < b then 0 else a - b

/-- A sum that does not go beyond the last address. -/
def saturatingAdd (a b : Addr) : Addr := if a.toNat + b.toNat < 2 ^ 64 then a + b else (-1)

/-- Where the window around an address in no image starts: 128 bytes before, aligned down. -/
def unmappedBase (address : Addr) : Addr := saturatingSub address 128 &&& ~~~3

/-- An address in no image: some bytes of the target's memory around it. -/
def resolveUnmapped (host : Host) (self : BinaryRegistry) (address : Addr) :
    Option ResolvedAddress :=
  let baseAddress := unmappedBase address
  (self.readTargetMemory host baseAddress 256).map fun bytes =>
    { binaryPath := "(target memory)"
      arch := self.dyldArch
      functionName := "(unmapped) " ++ hex address
      language := .unknown
      baseAddress := baseAddress
      endAddress := baseAddress + UInt64.ofNat bytes.length
      bytes := bytes
      fnStartSvma := baseAddress
      image := none }

/-- The name, language and range of what is disassembled. -/
structure Function where
  functionName : String
  language : Language
  fnStartSvma : Addr
  fnEndSvma : Addr
  deriving DecidableEq, Repr

/-- The first symbol that holds the address, or else a window around it. -/
def functionAt (host : Host) (binary : LoadedBinary) (svma : Addr) : Function :=
  match binary.symbols.find? fun s => s.startSvma ≤ svma && svma < s.endSvma with
  | some s =>
    let d := host.demangleBytes s.name
    { functionName := d.name, language := d.language, fnStartSvma := s.startSvma,
      fnEndSvma := s.endSvma }
  | none =>
    { functionName := shortPath binary.path ++ "+" ++ hex svma, language := .unknown,
      fnStartSvma := saturatingSub svma 32, fnEndSvma := saturatingAdd svma 32 }

/-- The bytes of a range out of the text that came with the image. -/
def inlineBytes (binary : LoadedBinary) (fnStartSvma : Addr) (len : ℕ) : Option (List UInt8) := do
  let inline ← binary.textBytes
  if fnStartSvma < binary.textSvma then none
  else
    let off := (fnStartSvma - binary.textSvma).toNat
    let stop ← checkedAdd off len
    if inline.length < stop then none else some ((inline.drop off).take len)

/-- An address with the function around it and its bytes, from wherever they can be had. -/
def resolve (host : Host) (self : BinaryRegistry) (address : Addr) :
    Option ResolvedAddress × BinaryRegistry :=
  match self.binaryForAddress address with
  | (none, self) => (self.resolveUnmapped host address, self)
  | (some idx, self) =>
    match self.byBase[idx]? with
    | none => (none, self)
    | some binary =>
      let (image, self) := self.imageFor host binary.path
      let f := functionAt host binary (svmaFor binary address)
      let len := (saturatingSub f.fnEndSvma f.fnStartSvma).toNat
      if len = 0 then (none, self)
      else
        let baseAddress := avmaForSvma binary.baseAvma binary.textSvma f.fnStartSvma
        let bytes := (image.bind fun img => img.fetch f.fnStartSvma len)
          <|> self.readTargetMemory host baseAddress len
          <|> inlineBytes binary f.fnStartSvma len
          <|> self.machoByteSourceFetch baseAddress len
        (bytes.map fun bytes =>
          { binaryPath := binary.path
            arch := binary.arch
            functionName := f.functionName
            language := f.language
            baseAddress := baseAddress
            endAddress := avmaForSvma binary.baseAvma binary.textSvma f.fnEndSvma
            bytes := bytes
            fnStartSvma := f.fnStartSvma
            image := image }, self)

/-! ## Runs -/

/-- A call on the registry. -/
inductive Call
  | setTarget (pid : UInt32) (taskPort : UInt64)
  | setSharedCache (cache : SharedCache)
  | setMachoByteSource (source : Addr → ℕ → Option (List UInt8))
  | insert (binary : LoadedBinary)
  | remove (baseAvma : Addr)
  | lookupSymbol (address : Addr)
  | resolve (address : Addr)

/-- One call on the registry, and what it leaves. -/
def call (host : Host) (self : BinaryRegistry) : Call → BinaryRegistry
  | .setTarget pid taskPort => self.setTarget pid taskPort
  | .setSharedCache cache => self.setSharedCache cache
  | .setMachoByteSource source => self.setMachoByteSource source
  | .insert binary => self.insert binary
  | .remove baseAvma => self.remove baseAvma
  | .lookupSymbol address => (self.lookupSymbol host address).2
  | .resolve address => (self.resolve host address).2

/-- The registry after some calls, from a new one whose kernel collection names `kernelSymbols`. -/
def replay (host : Host) (kernelSymbols : Addr → Option KernelResolvedSymbol) (calls : List Call) :
    BinaryRegistry :=
  calls.foldl (call host) { kernelSymbols }

end BinaryRegistry

end Stax.Binaries
