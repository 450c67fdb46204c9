/-
# Stax.Binaries.Labels — what a frame is called and what its disassembly is called.

A label is found by a binary search and read through the cache of demangled names, a disassembly by
a scan and a fresh demangling.  In a table of disjoint ranges the search and the scan find the same
symbol, and a cache that was only ever filled by the demangler answers like the demangler, whatever
was asked before.  So the two agree wherever an image is found; where none is found the disassembly
is of unmapped memory, and its title agrees only with a label of that very name.
-/
import Stax.Binaries.Coverage

namespace Stax.Binaries

open Stax.Live (Addr Language ResolvedSymbol)
open Stax.Lib Stax.Lib.Predecessor

namespace BinaryRegistry

/-! ## The symbol of an address -/

theorem symbolAt_eq_predecessor (binary : LoadedBinary) (svma : Addr) :
    symbolAt binary svma =
      (predecessor (fun s => s.startSvma.toNat) svma.toNat binary.symbols).filter
        fun s => svma < s.endSvma := by
  rw [predecessor_eq_ite, symbolAt]
  split
  · rfl
  · rfl

/-- In a table the scan finds what the search finds. -/
theorem find?_eq_symbolAt {binary : LoadedBinary} (h : IsTable binary.symbols) (svma : Addr) :
    (binary.symbols.find? fun s => s.startSvma ≤ svma && svma < s.endSvma) =
      symbolAt binary svma := by
  have hscan := find?_eq_predecessor h.sorted h.pairwise
    svma.toNat
  rw [symbolAt_eq_predecessor]
  simpa only [UInt64.le_iff_toNat_le, UInt64.lt_iff_toNat_lt] using hscan

/-- The name and language of a symbol by the demangler alone. -/
def labelName (host : Host) (sym : Option MachOSymbol) (basename : String) (svma : Addr) :
    String × Language :=
  match sym with
  | some sym => ((host.demangleBytes sym.name).name, (host.demangleBytes sym.name).language)
  | none => (basename ++ "+" ++ hex svma, .unknown)

/-- What an address of an image is called. -/
def labelOf (host : Host) (binary : LoadedBinary) (address : Addr) : ResolvedSymbol :=
  let svma := svmaFor binary address
  let basename := shortPath binary.path
  let name := labelName host (symbolAt binary svma) basename svma
  { functionName := name.1, binary := basename, isMain := binary.isExecutable, language := name.2 }

/-- The title of a disassembly is the label. -/
theorem functionAt_eq_labelOf (host : Host) {binary : LoadedBinary} (h : IsTable binary.symbols)
    (address : Addr) :
    (functionAt host binary (svmaFor binary address)).functionName =
        (labelOf host binary address).functionName ∧
      (functionAt host binary (svmaFor binary address)).language =
        (labelOf host binary address).language := by
  unfold functionAt
  rw [find?_eq_symbolAt h, labelOf]
  cases symbolAt binary (svmaFor binary address) with
  | some s => exact ⟨rfl, rfl⟩
  | none => exact ⟨rfl, rfl⟩

/-- What is disassembled at an address in a symbol is the symbol. -/
theorem functionAt_of_mem (host : Host) {binary : LoadedBinary} (h : IsTable binary.symbols)
    {s : MachOSymbol} (hs : s ∈ binary.symbols) {svma : Addr} (hstart : s.startSvma ≤ svma)
    (hend : svma < s.endSvma) :
    functionAt host binary svma =
      { functionName := (host.demangleBytes s.name).name
        language := (host.demangleBytes s.name).language
        fnStartSvma := s.startSvma
        fnEndSvma := s.endSvma } := by
  have hscan : (binary.symbols.find? fun s => s.startSvma ≤ svma && svma < s.endSvma) = some s := by
    cases hfound : binary.symbols.find? fun s => s.startSvma ≤ svma && svma < s.endSvma with
    | none =>
        have hnot := List.find?_eq_none.mp hfound s hs
        rw [Bool.and_eq_true, decide_eq_true_eq, decide_eq_true_eq] at hnot
        exact absurd ⟨hstart, hend⟩ hnot
    | some t =>
        have hcontains := List.find?_some hfound
        rw [Bool.and_eq_true, decide_eq_true_eq, decide_eq_true_eq, UInt64.le_iff_toNat_le,
          UInt64.lt_iff_toNat_lt] at hcontains
        rw [UInt64.le_iff_toNat_le] at hstart
        rw [UInt64.lt_iff_toNat_lt] at hend
        rw [h.eq_of_contains hs (List.mem_of_find?_eq_some hfound) ⟨hstart, hend⟩ hcontains]
  rw [functionAt, hscan]

/-- What an address in no image is called: by the kernel's symbols, or by the shared cache. -/
def elsewhere (host : Host) (self : BinaryRegistry) (address : Addr) : Option ResolvedSymbol :=
  (self.lookupSymbolInKernelCollection address).orElse fun _ =>
    (self.sharedCache.bind (·.lookupAddress address)).map fun img =>
      let svma := address - img.runtimeAvma + img.textSvma
      let basename := shortPath img.installName
      let sym := img.symbols.find? fun s => s.startSvma ≤ svma && svma < s.endSvma
      let name := labelName host sym basename svma
      { functionName := name.1, binary := basename, isMain := false, language := name.2 }

/-! ## Lookups -/

/-- The registries differ in their index only. -/
structure SameBut (before after : BinaryRegistry) : Prop where
  byBase : after.byBase = before.byBase
  dyldArch : after.dyldArch = before.dyldArch
  targetTaskPort : after.targetTaskPort = before.targetTaskPort
  sharedCache : after.sharedCache = before.sharedCache
  kernelSymbols : after.kernelSymbols = before.kernelSymbols
  demangleCache : after.demangleCache = before.demangleCache

theorem binaryForAddress_frame (self : BinaryRegistry) (address : Addr) :
    SameBut self (self.binaryForAddress address).2 := by
  rw [binaryForAddress_snd]
  unfold index
  split
  · exact ⟨rfl, rfl, rfl, rfl, rfl, rfl⟩
  · exact ⟨rfl, rfl, rfl, rfl, rfl, rfl⟩

/-- With a sound cache a name is the demangler's, and the cache stays sound. -/
theorem nameOf_spec {host : Host} {self : BinaryRegistry}
    (h : self.demangleCache.Sound host.demangleBytes) (sym : Option MachOSymbol)
    (basename : String) (svma : Addr) :
    (self.nameOf host sym basename svma).1 = labelName host sym basename svma ∧
      (self.nameOf host sym basename svma).2.byBase = self.byBase ∧
      (self.nameOf host sym basename svma).2.demangleCache.Sound host.demangleBytes := by
  cases sym with
  | none => exact ⟨rfl, rfl, h⟩
  | some sym =>
      obtain ⟨hvalue, hsound⟩ := h.memo sym.name
      refine ⟨?_, rfl, hsound⟩
      show (((self.demangleCache.memo host.demangleBytes sym.name).1.name,
        (self.demangleCache.memo host.demangleBytes sym.name).1.language) : String × Language) = _
      rw [hvalue]
      rfl

/-- The fallbacks of a lookup give the name elsewhere. -/
theorem lookupSymbolInSharedCache_spec {host : Host} {self : BinaryRegistry}
    (h : self.demangleCache.Sound host.demangleBytes) {address : Addr}
    (hkernel : self.lookupSymbolInKernelCollection address = none) :
    (self.lookupSymbolInSharedCache host address).1 = self.elsewhere host address ∧
      (self.lookupSymbolInSharedCache host address).2.byBase = self.byBase ∧
      (self.lookupSymbolInSharedCache host address).2.demangleCache.Sound host.demangleBytes := by
  unfold lookupSymbolInSharedCache elsewhere
  rw [hkernel, Option.orElse_none]
  cases self.sharedCache.bind (·.lookupAddress address) with
  | none => exact ⟨rfl, rfl, h⟩
  | some img =>
      obtain ⟨hname, hbyBase, hsound⟩ := nameOf_spec h
        (img.symbols.find? fun s =>
          s.startSvma ≤ address - img.runtimeAvma + img.textSvma &&
            address - img.runtimeAvma + img.textSvma < s.endSvma)
        (shortPath img.installName) (address - img.runtimeAvma + img.textSvma)
      refine ⟨?_, hbyBase, hsound⟩
      dsimp only
      rw [hname]
      rfl

theorem SameBut.elsewhere {self after : BinaryRegistry} (h : SameBut self after) (host : Host)
    (address : Addr) : after.elsewhere host address = self.elsewhere host address := by
  rw [BinaryRegistry.elsewhere, lookupSymbolInKernelCollection, h.kernelSymbols, h.sharedCache]
  rfl

/-- A lookup gives the label of the image found or the name elsewhere, whatever was looked up
before. -/
theorem lookupSymbol_spec {host : Host} {self : BinaryRegistry}
    (h : self.demangleCache.Sound host.demangleBytes) (address : Addr) :
    (self.lookupSymbol host address).1 =
        (match self.find address with
          | some binary => some (labelOf host binary address)
          | none => self.elsewhere host address) ∧
      (self.lookupSymbol host address).2.byBase = self.byBase ∧
      (self.lookupSymbol host address).2.demangleCache.Sound host.demangleBytes := by
  have hframe := self.binaryForAddress_frame address
  have hsome := fun i => self.binaryForAddress_eq_some_iff address (i := i)
  unfold lookupSymbol find
  generalize self.binaryForAddress address = searched at hframe hsome
  obtain ⟨place, after⟩ := searched
  replace hframe : SameBut self after := hframe
  have hcache : after.demangleCache.Sound host.demangleBytes := by
    rw [hframe.demangleCache]
    exact h
  cases place with
  | some i =>
      obtain ⟨binary, hbinary, -⟩ := (hsome i).mp rfl
      simp only [Option.bind_some, hframe.byBase, hbinary]
      obtain ⟨hname, hbyBase, hsound⟩ := nameOf_spec hcache
        (symbolAt binary (svmaFor binary address)) (shortPath binary.path) (svmaFor binary address)
      refine ⟨?_, hbyBase.trans hframe.byBase, hsound⟩
      rw [hname]
      rfl
  | none =>
      simp only [Option.bind_none]
      cases hkernel : after.lookupSymbolInKernelCollection address with
      | some symbol =>
          refine ⟨?_, hframe.byBase, hcache⟩
          rw [← hframe.elsewhere, elsewhere, hkernel]
          rfl
      | none =>
          obtain ⟨hvalue, hbyBase, hsound⟩ := lookupSymbolInSharedCache_spec hcache hkernel
          exact ⟨hvalue.trans (hframe.elsewhere host address), hbyBase.trans hframe.byBase, hsound⟩

/-! ## Disassembly -/

theorem SameBut.resolveUnmapped {self after : BinaryRegistry} (h : SameBut self after)
    (host : Host) (address : Addr) :
    after.resolveUnmapped host address = self.resolveUnmapped host address := by
  rw [BinaryRegistry.resolveUnmapped, readTargetMemory, h.targetTaskPort, h.dyldArch]
  rfl

theorem resolve_of_find_eq_none (host : Host) {self : BinaryRegistry} {address : Addr}
    (hfind : self.find address = none) :
    (self.resolve host address).1 = self.resolveUnmapped host address := by
  have hframe := self.binaryForAddress_frame address
  rw [find_eq_none_iff] at hfind
  unfold resolve
  generalize self.binaryForAddress address = searched at hframe hfind
  obtain ⟨place, after⟩ := searched
  obtain rfl : place = none := hfind
  exact hframe.resolveUnmapped host address

/-- A disassembly in an image is of the function at the address.  None changes the images or the
demangled names. -/
theorem resolve_spec (host : Host) (self : BinaryRegistry) (address : Addr) :
    (∀ binary, self.find address = some binary →
      ∀ found, (self.resolve host address).1 = some found →
        let f := functionAt host binary (svmaFor binary address)
        found.functionName = f.functionName ∧ found.language = f.language ∧
          found.baseAddress = avmaForSvma binary.baseAvma binary.textSvma f.fnStartSvma ∧
          found.endAddress = avmaForSvma binary.baseAvma binary.textSvma f.fnEndSvma) ∧
      (self.resolve host address).2.byBase = self.byBase ∧
      (self.resolve host address).2.demangleCache = self.demangleCache := by
  have hframe := self.binaryForAddress_frame address
  have hsome := fun i => self.binaryForAddress_eq_some_iff address (i := i)
  unfold resolve find
  generalize self.binaryForAddress address = searched at hframe hsome
  obtain ⟨place, after⟩ := searched
  replace hframe : SameBut self after := hframe
  cases place with
  | none =>
      refine ⟨fun binary hbinary => ?_, hframe.byBase, hframe.demangleCache⟩
      cases hbinary
  | some i =>
      obtain ⟨binary, hbinary, -⟩ := (hsome i).mp rfl
      simp only [Option.bind_some, hframe.byBase, hbinary, Option.some.injEq, forall_eq']
      have himage : (after.imageFor host binary.path).2.byBase = after.byBase ∧
          (after.imageFor host binary.path).2.demangleCache = after.demangleCache := by
        unfold imageFor
        split
        · exact ⟨rfl, rfl⟩
        · exact ⟨rfl, rfl⟩
      generalize after.imageFor host binary.path = loaded at himage
      obtain ⟨image, later⟩ := loaded
      split
      · refine ⟨fun found hfound => ?_, himage.1.trans hframe.byBase,
          himage.2.trans hframe.demangleCache⟩
        cases hfound
      · refine ⟨fun found hfound => ?_, himage.1.trans hframe.byBase,
          himage.2.trans hframe.demangleCache⟩
        obtain ⟨bytes, -, rfl⟩ := Option.map_eq_some_iff.mp hfound
        exact ⟨rfl, rfl, rfl, rfl⟩

/-! ## Runs -/

/-- What lookups keep and need: the images have tables, and the cache has the demangler's names. -/
structure Consistent (host : Host) (reg : BinaryRegistry) : Prop where
  tables : ∀ b ∈ reg.byBase, IsTable b.symbols
  demangled : reg.demangleCache.Sound host.demangleBytes

theorem consistent_new (host : Host) (kernelSymbols : Addr → Option KernelResolvedSymbol) :
    Consistent host { kernelSymbols } where
  tables b hb := by cases hb
  demangled := LruCache.sound_of_entries_nil rfl

/-- Calls keep the registry consistent, as long as the images inserted have tables. -/
theorem Consistent.call {host : Host} {self : BinaryRegistry} (h : Consistent host self) (c : Call)
    (hc : ∀ b, c = .insert b → IsTable b.symbols) : Consistent host (self.call host c) := by
  cases c with
  | setTarget pid taskPort => exact ⟨h.tables, h.demangled⟩
  | setSharedCache cache => exact ⟨h.tables, h.demangled⟩
  | setMachoByteSource source => exact ⟨h.tables, h.demangled⟩
  | insert binary =>
      refine ⟨fun b hb => ?_, h.demangled⟩
      rcases List.mem_append.mp hb with hb | hb
      · exact h.tables b (List.mem_filter.mp hb).1
      · rw [List.mem_singleton.mp hb]
        have htable := hc binary rfl
        show IsTable (sortByKey (·.startSvma.toNat) binary.symbols)
        rwa [sortByKey_eq_self htable.sorted]
  | remove baseAvma =>
      exact ⟨fun b hb => h.tables b (List.mem_filter.mp hb).1, h.demangled⟩
  | lookupSymbol address =>
      obtain ⟨-, hbyBase, hsound⟩ := lookupSymbol_spec h.demangled address
      refine ⟨fun b hb => h.tables b ?_, hsound⟩
      rw [← hbyBase]
      exact hb
  | resolve address =>
      obtain ⟨-, hbyBase, hcache⟩ := resolve_spec host self address
      refine ⟨fun b hb => h.tables b ?_, ?_⟩
      · rw [← hbyBase]
        exact hb
      · show (self.resolve host address).2.demangleCache.Sound host.demangleBytes
        rw [hcache]
        exact h.demangled

theorem consistent_replay (host : Host) (kernelSymbols : Addr → Option KernelResolvedSymbol)
    {calls : List Call} (hcalls : ∀ b, Call.insert b ∈ calls → IsTable b.symbols) :
    Consistent host (replay host kernelSymbols calls) := by
  induction calls using List.reverseRecOn with
  | nil => exact consistent_new host kernelSymbols
  | append_singleton calls c ih =>
      rw [replay, List.foldl_concat, ← replay]
      refine (ih fun b hb => hcalls b (List.mem_append_left _ hb)).call c fun b hb => ?_
      exact hcalls b (List.mem_append_right _ (List.mem_singleton.mpr hb.symm))

/-! ## Agreement -/

/-- No address is shifted out of 64 bits on its way into the symbol's image and back. -/
structure NoWrap (binary : LoadedBinary) (address : Addr) (s : MachOSymbol) : Prop where
  svma : address.toNat - binary.baseAvma.toNat + binary.textSvma.toNat < 2 ^ 64
  start : binary.textSvma.toNat ≤ binary.baseAvma.toNat + s.startSvma.toNat
  stop : binary.baseAvma.toNat + s.endSvma.toNat < 2 ^ 64 + binary.textSvma.toNat

/-- Translated back, the range of a symbol that holds the translated address holds the address. -/
theorem NoWrap.range {binary : LoadedBinary} {address : Addr} {s : MachOSymbol}
    (h : NoWrap binary address s)
    (hstart : s.startSvma ≤ svmaFor binary address) (hend : svmaFor binary address < s.endSvma) :
    avmaForSvma binary.baseAvma binary.textSvma s.startSvma ≤ address ∧
      address < avmaForSvma binary.baseAvma binary.textSvma s.endSvma := by
  have hsvma := h.svma
  have hlow := h.start
  have hhigh := h.stop
  simp only [UInt64.le_iff_toNat_le, UInt64.lt_iff_toNat_lt, svmaFor, avmaForSvma,
    UInt64.toNat_add, UInt64.toNat_sub] at hstart hend ⊢
  have ha := address.toNat_lt
  have hb := binary.baseAvma.toNat_lt
  have ht := binary.textSvma.toNat_lt
  omega

/-- What is promised of a disassembly: its title and language are those of the label, and where the
address lies in a symbol it lies in the range disassembled. -/
structure Agrees (host : Host) (reg : BinaryRegistry) (address : Addr) : Prop where
  label : ∀ found, (reg.resolve host address).1 = some found →
    ∃ symbol, (reg.lookupSymbol host address).1 = some symbol ∧
      found.functionName = symbol.functionName ∧ found.language = symbol.language
  range : ∀ found, (reg.resolve host address).1 = some found →
    ∀ binary, reg.find address = some binary →
      ∀ s ∈ binary.symbols, s.startSvma ≤ svmaFor binary address →
        svmaFor binary address < s.endSvma → NoWrap binary address s →
          found.baseAddress ≤ address ∧ address < found.endAddress

/-- An address in an image that is found has a disassembly that agrees with its label. -/
theorem Consistent.agrees {host : Host} {self : BinaryRegistry} (h : Consistent host self)
    {address : Addr} {binary : LoadedBinary} (hfind : self.find address = some binary) :
    Agrees host self address := by
  obtain ⟨hnear, -⟩ := (self.find_eq_some_iff address).mp hfind
  have htable := h.tables binary hnear.mem
  obtain ⟨hresolve, -⟩ := resolve_spec host self address
  obtain ⟨hlookup, -⟩ := lookupSymbol_spec h.demangled address
  replace hresolve := hresolve binary hfind
  rw [hfind] at hlookup
  refine ⟨fun found hfound => ?_, fun found hfound binary' hfind' s hs hstart hend hwrap => ?_⟩
  · obtain ⟨hname, hlanguage⟩ := functionAt_eq_labelOf host htable address
    obtain ⟨hfoundName, hfoundLanguage, -⟩ := hresolve found hfound
    exact ⟨_, hlookup, hfoundName.trans hname, hfoundLanguage.trans hlanguage⟩
  · obtain rfl : binary = binary' := Option.some.inj (hfind.symm.trans hfind')
    obtain ⟨-, -, hbase, hstop⟩ := hresolve found hfound
    rw [hbase, hstop, functionAt_of_mem host htable hs hstart hend]
    exact hwrap.range hstart hend

/-- Where no image is found, the title is that of unmapped memory. -/
theorem agrees_unmapped_iff {host : Host} {self : BinaryRegistry} (h : Consistent host self)
    {address : Addr} (hfind : self.find address = none) :
    Agrees host self address ↔
      self.readTargetMemory host (unmappedBase address) 256 = none ∨
        ∃ symbol, self.elsewhere host address = some symbol ∧
          symbol.functionName = "(unmapped) " ++ hex address ∧ symbol.language = .unknown := by
  obtain ⟨hlookup, -⟩ := lookupSymbol_spec h.demangled address
  rw [hfind] at hlookup
  constructor
  · intro hagrees
    cases hbytes : self.readTargetMemory host (unmappedBase address) 256 with
    | none => exact Or.inl rfl
    | some bytes =>
        right
        have hfound := resolve_of_find_eq_none host hfind
        rw [resolveUnmapped, hbytes, Option.map_some] at hfound
        obtain ⟨symbol, hsymbol, hname, hlanguage⟩ := hagrees.label _ hfound
        exact ⟨symbol, hlookup.symm.trans hsymbol, hname.symm, hlanguage.symm⟩
  · intro hcond
    refine ⟨fun found hfound => ?_, fun found hfound binary hbinary => ?_⟩
    · rw [resolve_of_find_eq_none host hfind, resolveUnmapped, Option.map_eq_some_iff] at hfound
      obtain ⟨bytes, hbytes, rfl⟩ := hfound
      rcases hcond with hunread | ⟨symbol, hsymbol, hname, hlanguage⟩
      · rw [hunread] at hbytes
        cases hbytes
      · exact ⟨symbol, hlookup.trans hsymbol, hname.symm, hlanguage.symm⟩
    · rw [hfind] at hbinary
      cases hbinary

/-- The tables of both builders are sorted and disjoint; and with such tables, after any calls, the
disassembly at an address that an image covers agrees with its label exactly when the nearest image
covers the address, or the memory there cannot be read, or the kernel's symbols or the shared cache
happen to give the name of unmapped memory. -/
theorem resolve_agrees_iff (host : Host) (kernelSymbols : Addr → Option KernelResolvedSymbol)
    (calls : List Call) (hcalls : ∀ b, Call.insert b ∈ calls → IsTable b.symbols) (address : Addr)
    (hcovered : ∃ b ∈ (replay host kernelSymbols calls).byBase, b.Covers address) :
    (∀ symbols, (∀ sym ∈ symbols, sym.address.toNat ≤ 2 ^ 64 - 5) →
        IsTable (collectSymbols symbols) ∧
          ∀ disk path file parsed, disk path = .ok file → file.symbols = symbols →
            parseDiskMacho disk path = .ok parsed → IsTable parsed.symbols) ∧
      (Agrees host (replay host kernelSymbols calls) address ↔
        (replay host kernelSymbols calls).NearestCovers address ∨
          (replay host kernelSymbols calls).readTargetMemory host (unmappedBase address) 256 = none ∨
          ∃ symbol, (replay host kernelSymbols calls).elsewhere host address = some symbol ∧
            symbol.functionName = "(unmapped) " ++ hex address ∧ symbol.language = .unknown) := by
  refine ⟨fun symbols hroom => ⟨isTable_toSymbols hroom, ?_⟩, ?_⟩
  · rintro disk path file parsed hfile rfl hparsed
    exact isTable_parseDiskMacho hfile hroom hparsed
  · have hconsistent := consistent_replay host kernelSymbols hcalls
    generalize replay host kernelSymbols calls = self at hconsistent hcovered ⊢
    obtain ⟨b, hb, hcovers⟩ := hcovered
    rw [nearestCovers_iff hb hcovers]
    cases hfind : self.find address with
    | some binary => exact iff_of_true (hconsistent.agrees hfind) (Or.inl (Option.some_ne_none _))
    | none =>
        rw [agrees_unmapped_iff hconsistent hfind]
        exact (or_iff_right (not_not.mpr rfl)).symm

/-! ## Where the title differs -/

/-- A host whose target memory can be read. -/
def readableHost : Host where
  demangleBytes _ := { name := "", language := .unknown }
  loadImage _ := none
  machVmRead _ _ len := some (List.replicate len 0)

/-- The target attached, then a large image with a symbol and a small one in the middle of it. -/
def attachedNested : List Call :=
  [.setTarget 7 1,
    .insert { path := "/tmp/jit", baseAvma := 0x1000, avmaEnd := 0x9000, textSvma := 0x1000,
              symbols := [{ startSvma := 0x1400, endSvma := 0x1600, name := [103] }] },
    .insert { path := "/tmp/stub", baseAvma := 0x2000, avmaEnd := 0x3000, textSvma := 0x2000 }]

/-- Behind the inner image, in the outer one, there is a disassembly but no label. -/
theorem attachedNested_disagrees :
    (∃ b ∈ (replay readableHost (fun _ => none) attachedNested).byBase, b.Covers 0x4000) ∧
      ¬ Agrees readableHost (replay readableHost (fun _ => none) attachedNested) 0x4000 := by
  refine ⟨⟨_, List.mem_cons_self, by decide +kernel⟩, fun h => ?_⟩
  have hresolve : ((replay readableHost (fun _ => none) attachedNested).resolve readableHost
      0x4000).1 ≠ none := by
    decide +kernel
  have hlookup : ((replay readableHost (fun _ => none) attachedNested).lookupSymbol readableHost
      0x4000).1 = none := by
    decide +kernel
  obtain ⟨found, hfound⟩ := Option.ne_none_iff_exists'.mp hresolve
  obtain ⟨symbol, hsymbol, -⟩ := h.label found hfound
  rw [hlookup] at hsymbol
  cases hsymbol

/-- In front of it the symbol's disassembly has the symbol's name. -/
theorem attachedNested_agrees :
    Agrees readableHost (replay readableHost (fun _ => none) attachedNested) 0x1500 ∧
      ((replay readableHost (fun _ => none) attachedNested).resolve readableHost 0x1500).1 ≠
        none := by
  have htables : ∀ b, Call.insert b ∈ attachedNested → IsTable b.symbols := by
    simp [attachedNested, IsTable, Span.Laid, MachOSymbol.range]
  refine ⟨(resolve_agrees_iff readableHost (fun _ => none) attachedNested htables 0x1500
    ⟨_, List.mem_cons_self, by decide +kernel⟩).2.mpr (Or.inl ?_), by decide +kernel⟩
  exact (nearestCovers_iff List.mem_cons_self (by decide +kernel)).mpr (by decide +kernel)

end BinaryRegistry

end Stax.Binaries
