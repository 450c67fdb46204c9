/-
# Stax.Binaries.KernelLookup — the symbol of a kernel address.

The kernel's functions are kept sorted, all of them and those of each module, and the modules'
ranges are kept sorted as well.  A lookup searches three tables, and steps back from a function
without a name that starts at the address.  It is to answer as if it went through all ranges and
functions, in whatever order they are given.
-/
import Stax.Lib.Grouping
import Stax.Lib.LinearSearch
import Stax.Binaries.Registry

namespace Stax.Binaries

open Stax.Live (Addr)
open Stax.Lib Stax.Lib.Grouping Stax.Lib.Predecessor Stax.Lib.LinearSearch

/-! ## The tables -/

/-- The addresses that a module of the kernel is loaded at. -/
structure KernelImageRange where
  module : String
  start : Addr
  stop : Addr
  deriving DecidableEq, Repr

/-- Where a function of a module begins, and its name if it has one. -/
structure KernelFunctionEntry where
  module : String
  address : Addr
  name : Option String
  deriving DecidableEq, Repr

/-- The tables of a kernel, each sorted by address. -/
structure KernelSymbols where
  ranges : List KernelImageRange
  functionsByModule : List (String × List KernelFunctionEntry)
  globalFunctions : List KernelFunctionEntry
  deriving Repr

/-- Functions by where they begin. -/
def sortFunctions : List KernelFunctionEntry → List KernelFunctionEntry :=
  sortByKey (·.address.toNat)

/-- The last function at or below an address. -/
def nearestFunction (functions : List KernelFunctionEntry) (address : Addr) :
    Option KernelFunctionEntry :=
  let index := partitionPoint (fun function => function.address ≤ address) functions
  if index = 0 then none else functions[index - 1]?

/-- At the start of a function without a name the address is a return address behind a call, so the
function is the one before. -/
def nearestFunctionForPc (functions : List KernelFunctionEntry) (address : Addr) :
    Option (KernelFunctionEntry × Addr) :=
  match nearestFunction functions address with
  | none => none
  | some raw =>
    if raw.address = address ∧ raw.name.isNone ∧ 4 ≤ address then
      match nearestFunction functions (address - 4) with
      | none => some (raw, address)
      | some adjusted =>
        if adjusted.address ≠ raw.address then some (adjusted, address - 4)
        else some (raw, address)
    else some (raw, address)

/-- `{:016x}`. -/
def hex16 (a : Addr) : String := String.ofList ((Nat.toDigits 16 a.toNat).leftpad 16 '0')

/-- A name with the offset in hexadecimal, unless that is zero. -/
def formatSymbolWithOffset (name : String) (offset : UInt64) : String :=
  if offset = 0 then name else name ++ "+" ++ hex offset

/-- The symbol of a function at some offset in it. -/
def resolvedSymbol (demangleStr : String → Demangled) (entry : KernelFunctionEntry)
    (offset : UInt64) : KernelResolvedSymbol :=
  let demangled := match entry.name with
    | some name => demangleStr name
    | none => { name := "sub_" ++ hex16 entry.address, language := .unknown }
  { module := entry.module
    functionName := formatSymbolWithOffset demangled.name offset
    language := demangled.language }

namespace KernelSymbols

/-- The tables of some ranges and functions, which may come in any order. -/
def fromParts (ranges : List KernelImageRange) (functions : List KernelFunctionEntry) :
    KernelSymbols :=
  let functions := sortFunctions functions
  let byModule := group (·.module) (fun _ => []) (fun entries function => entries ++ [function])
    functions
  { ranges := sortByKey (·.start.toNat) ranges
    functionsByModule := byModule.map fun entry => (entry.1, sortFunctions entry.2)
    globalFunctions := functions }

/-- The module whose range holds an address. -/
def moduleForAddress (self : KernelSymbols) (address : Addr) : Option String :=
  let index := partitionPoint (fun range => range.start ≤ address) self.ranges
  if index = 0 then none
  else ((self.ranges[index - 1]?).filter fun range => address < range.stop).map (·.module)

/-- `functions_by_module.get`. -/
def functionsOf (self : KernelSymbols) (module : String) : Option (List KernelFunctionEntry) :=
  (self.functionsByModule.find? fun entry => entry.1 = module).map Prod.snd

/-- The symbol of an address, by binary search in the functions of its module or else in all. -/
def lookup (demangleStr : String → Demangled) (self : KernelSymbols) (address : Addr) :
    Option KernelResolvedSymbol :=
  let found := match self.moduleForAddress address with
    | some module =>
      match self.functionsOf module with
      | some entries => nearestFunctionForPc entries address
      | none => nearestFunctionForPc self.globalFunctions address
    | none => nearestFunctionForPc self.globalFunctions address
  found.map fun (entry, normalized) =>
    -- `saturating_sub`
    let offset := if normalized < entry.address then 0 else normalized - entry.address
    resolvedSymbol demangleStr entry offset

end KernelSymbols

/-! ## What is to be found -/

/-- The address lies in the range. -/
def KernelImageRange.Contains (range : KernelImageRange) (address : Addr) : Prop :=
  range.start ≤ address ∧ address < range.stop

instance (range : KernelImageRange) (address : Addr) : Decidable (range.Contains address) :=
  inferInstanceAs (Decidable (_ ∧ _))

/-- The functions of the module at the address if it has any, else all. -/
def candidates (ranges : List KernelImageRange) (functions : List KernelFunctionEntry)
    (pc : Addr) : List KernelFunctionEntry :=
  match ranges.find? fun range => range.Contains pc with
  | none => functions
  | some range =>
    let own := functions.filter fun function => function.module = range.module
    if own = [] then functions else own

/-- The greatest of the candidates, or the greatest below the call if that one starts at the address
and has no name; with the address it is for. -/
def nearestCandidate (functions : List KernelFunctionEntry) (pc : Addr) :
    Option (KernelFunctionEntry × Addr) :=
  (greatest (·.address.toNat) pc.toNat functions).map fun raw =>
    if raw.address = pc ∧ raw.name = none ∧ 4 ≤ pc then
      match greatest (·.address.toNat) (pc - 4).toNat functions with
      | some adjusted => (adjusted, pc - 4)
      | none => (raw, pc)
    else (raw, pc)

/-- The symbol of an address, found by looking at every range and every function. -/
def linearLookup (demangleStr : String → Demangled) (ranges : List KernelImageRange)
    (functions : List KernelFunctionEntry) (pc : Addr) : Option KernelResolvedSymbol :=
  (nearestCandidate (candidates ranges functions pc) pc).map fun (entry, used) =>
    resolvedSymbol demangleStr entry (used - entry.address)

/-! ## The searches find it -/

/-- The search of a sorted table is the search of its entries in any order. -/
theorem nearestFunction_eq {functions entries : List KernelFunctionEntry}
    (hperm : entries.Perm functions) (hdistinct : (functions.map (·.address.toNat)).Nodup)
    (address : Addr) :
    nearestFunction (sortFunctions entries) address =
      greatest (·.address.toNat) address.toNat functions := by
  have htest : (fun function : KernelFunctionEntry => decide (function.address ≤ address)) =
      fun function => decide (function.address.toNat ≤ address.toNat) := by
    funext function
    exact decide_eq_decide.mpr UInt64.le_iff_toNat_le
  have hsearch := predecessor_eq_ite (fun function : KernelFunctionEntry => function.address.toNat)
    address.toNat (sortFunctions entries)
  unfold nearestFunction
  dsimp only
  rw [htest]
  refine hsearch.symm.trans ?_
  exact predecessor_eq_greatest (pairwise_sortByKey _ _)
    ((perm_sortByKey _ entries).trans hperm) hdistinct

/-- The search with its step back behind a call finds the nearest candidate among the same functions
in any order. -/
theorem nearestFunctionForPc_eq {functions entries : List KernelFunctionEntry}
    (hperm : entries.Perm functions) (hdistinct : (functions.map (·.address.toNat)).Nodup)
    (pc : Addr) :
    nearestFunctionForPc (sortFunctions entries) pc = nearestCandidate functions pc := by
  unfold nearestFunctionForPc nearestCandidate
  rw [nearestFunction_eq hperm hdistinct, nearestFunction_eq hperm hdistinct]
  cases greatest (·.address.toNat) pc.toNat functions with
  | none => rfl
  | some raw =>
      rw [Option.map_some]
      simp only [Option.isNone_iff_eq_none]
      by_cases hstart : raw.address = pc ∧ raw.name = none ∧ 4 ≤ pc
      · rw [if_pos hstart, if_pos hstart]
        obtain ⟨rfl, -, hpc⟩ := hstart
        cases hadjusted : greatest (·.address.toNat) (raw.address - 4).toNat functions with
        | none => rfl
        | some adjusted =>
            -- what is at or below the call is not at the address
            obtain ⟨-, hle, -⟩ := mem_greatest hadjusted
            have hne : adjusted.address ≠ raw.address := by
              rintro heq
              rw [heq, UInt64.toNat_sub_of_le _ _ hpc] at hle
              have hpos := UInt64.le_iff_toNat_le.mp hpc
              have hfour : (4 : UInt64).toNat = 4 := rfl
              omega
            dsimp only
            rw [if_pos hne]
      · rw [if_neg hstart, if_neg hstart]

/-! ## The tables hold it -/

/-- Ranges that are not empty, no two with an address in common. -/
structure DisjointRanges (ranges : List KernelImageRange) : Prop where
  nonempty : ∀ range ∈ ranges, range.start < range.stop
  apart : ranges.Pairwise fun a b => ∀ address, ¬ (a.Contains address ∧ b.Contains address)

section Tables

variable {ranges : List KernelImageRange} {functions : List KernelFunctionEntry}

/-- One range at most contains an address. -/
theorem DisjointRanges.unique (h : DisjointRanges ranges) {a b : KernelImageRange} (ha : a ∈ ranges)
    (hb : b ∈ ranges) {address : Addr} (hain : a.Contains address) (hbin : b.Contains address) :
    a = b := by
  by_contra hne
  have hsymm : Std.Symm fun a b : KernelImageRange =>
      ∀ address, ¬ (a.Contains address ∧ b.Contains address) :=
    ⟨fun _ _ hab address hba => hab address hba.symm⟩
  exact h.apart.forall ha hb hne address ⟨hain, hbin⟩

/-- Sorted ranges follow one another. -/
theorem DisjointRanges.laid (h : DisjointRanges ranges) :
    (sortByKey (·.start.toNat) ranges).Pairwise fun a b => a.stop.toNat ≤ b.start.toNat := by
  have hsorted := pairwise_sortByKey (fun range : KernelImageRange => range.start.toNat) ranges
  have hsymm : ∀ {a b : KernelImageRange},
      (∀ address, ¬ (a.Contains address ∧ b.Contains address)) →
      ∀ address, ¬ (b.Contains address ∧ a.Contains address) :=
    fun hab address hba => hab address hba.symm
  have hapart := ((perm_sortByKey (fun range : KernelImageRange => range.start.toNat)
    ranges).pairwise_iff hsymm).mpr h.apart
  refine (hsorted.and hapart).imp_of_mem ?_
  rintro a b ha hb ⟨hle, hab⟩
  by_contra hlt
  -- the later range starts inside the earlier one
  have hnonempty := h.nonempty b ((mem_sortByKey _).mp hb)
  refine hab b.start ⟨⟨UInt64.le_iff_toNat_le.mpr hle, UInt64.lt_iff_toNat_lt.mpr (by omega)⟩, ?_⟩
  exact ⟨UInt64.le_refl _, hnonempty⟩

/-- The module found is that of the range at the address. -/
theorem moduleForAddress_fromParts (h : DisjointRanges ranges) (address : Addr) :
    (KernelSymbols.fromParts ranges functions).moduleForAddress address =
      (ranges.find? fun range => range.Contains address).map (·.module) := by
  have hcontains : (fun range : KernelImageRange => decide (range.Contains address)) =
      fun range => decide (range.start.toNat ≤ address.toNat) &&
        decide (address.toNat < range.stop.toNat) := by
    funext range
    rw [← Bool.decide_and]
    exact decide_eq_decide.mpr (and_congr UInt64.le_iff_toNat_le UInt64.lt_iff_toNat_lt)
  have htest : (fun range : KernelImageRange => decide (range.start ≤ address)) =
      fun range => decide (range.start.toNat ≤ address.toNat) := by
    funext range
    exact decide_eq_decide.mpr UInt64.le_iff_toNat_le
  have hstop : (fun range : KernelImageRange => decide (address < range.stop)) =
      fun range => decide (address.toNat < range.stop.toNat) := by
    funext range
    exact decide_eq_decide.mpr UInt64.lt_iff_toNat_lt
  have hsorted := pairwise_sortByKey (fun range : KernelImageRange => range.start.toNat) ranges
  have hsearch := predecessor_eq_ite (fun range : KernelImageRange => range.start.toNat)
    address.toNat (sortByKey (·.start.toNat) ranges)
  have hfind := find?_eq_predecessor hsorted h.laid address.toNat
  have hperm : (ranges.find? fun range => range.Contains address) =
      (sortByKey (·.start.toNat) ranges).find? fun range => range.Contains address := by
    refine find?_eq_of_perm (perm_sortByKey _ ranges).symm ?_
    intro a ha b hb hain hbin
    exact h.unique ha hb (of_decide_eq_true hain) (of_decide_eq_true hbin)
  rw [hperm, hcontains, hfind, hsearch]
  unfold KernelSymbols.moduleForAddress KernelSymbols.fromParts
  dsimp only
  rw [htest, hstop]
  split
  · rfl
  · rfl

theorem foldl_concat_eq (entries pushed : List KernelFunctionEntry) :
    pushed.foldl (fun entries function => entries ++ [function]) entries = entries ++ pushed := by
  induction pushed generalizing entries with
  | nil => rw [List.foldl_nil, List.append_nil]
  | cons function pushed ih => rw [List.foldl_cons, ih, List.append_assoc, List.singleton_append]

/-- The functions kept for a module are its functions, sorted, if it has any. -/
theorem functionsOf_fromParts (module : String) :
    (KernelSymbols.fromParts ranges functions).functionsOf module =
      if members (·.module) module (sortFunctions functions) = [] then none
      else some (sortFunctions (members (·.module) module (sortFunctions functions))) := by
  set sorted := sortFunctions functions with hsorted
  set byModule := group (·.module) (fun _ => [])
    (fun entries function => entries ++ [function]) sorted with hgroup
  -- a module has one entry in the table
  have hkeys : ((byModule.map fun entry => (entry.1, sortFunctions entry.2)).map
      Prod.fst).Nodup := by
    rw [List.map_map]
    exact nodup_group sorted
  -- and its entry holds the functions of the module, in the order of the list
  have hmem : ∀ {entries : List KernelFunctionEntry}, (module, entries) ∈ byModule ↔
      members (·.module) module sorted ≠ [] ∧ entries = members (·.module) module sorted := by
    intro entries
    rw [hgroup, mem_group]
    constructor
    · rintro ⟨first, rest, hmembers, hentries⟩
      rw [foldl_concat_eq, List.nil_append] at hentries
      rw [hmembers]
      exact ⟨List.cons_ne_nil _ _, hentries⟩
    · rintro ⟨hne, hentries⟩
      obtain ⟨first, rest, hmembers⟩ := List.exists_cons_of_ne_nil hne
      refine ⟨first, rest, hmembers, ?_⟩
      rw [foldl_concat_eq, List.nil_append, ← hmembers, hentries]
  unfold KernelSymbols.functionsOf KernelSymbols.fromParts
  dsimp only
  rw [← hsorted, ← hgroup]
  split
  · rename_i hnone
    have hfind : (byModule.map fun entry => (entry.1, sortFunctions entry.2)).find?
        (fun entry => entry.1 = module) = none := by
      rw [List.find?_eq_none]
      intro entry hentry hmodule
      obtain ⟨⟨k, entries⟩, hgrouped, rfl⟩ := List.mem_map.mp hentry
      obtain rfl : k = module := of_decide_eq_true hmodule
      exact (hmem.mp hgrouped).1 hnone
    rw [hfind]
    rfl
  · rename_i hsome
    have hthere := List.mem_map_of_mem (f := fun entry => (entry.1, sortFunctions entry.2))
      (hmem.mpr ⟨hsome, rfl⟩)
    rw [find?_key hkeys hthere]
    rfl

/-- What is found is a candidate at or below the address it is for. -/
theorem nearestCandidate_spec {pc used : Addr} {entry : KernelFunctionEntry}
    (h : nearestCandidate functions pc = some (entry, used)) :
    entry ∈ functions ∧ entry.address ≤ used := by
  unfold nearestCandidate at h
  rw [Option.map_eq_some_iff] at h
  obtain ⟨raw, hraw, h⟩ := h
  obtain ⟨hmem, hle, -⟩ := mem_greatest hraw
  split at h
  · cases hadjusted : greatest (·.address.toNat) (pc - 4).toNat functions with
    | none =>
        rw [hadjusted] at h
        cases h
        exact ⟨hmem, UInt64.le_iff_toNat_le.mpr hle⟩
    | some adjusted =>
        rw [hadjusted] at h
        cases h
        obtain ⟨hadjmem, hadjle, -⟩ := mem_greatest hadjusted
        exact ⟨hadjmem, UInt64.le_iff_toNat_le.mpr hadjle⟩
  · cases h
    exact ⟨hmem, UInt64.le_iff_toNat_le.mpr hle⟩

/-- The tables a lookup searches hold the candidates. -/
theorem lookup_fromParts (demangleStr : String → Demangled) (hranges : DisjointRanges ranges)
    (hdistinct : (functions.map (·.address.toNat)).Nodup) (pc : Addr) :
    (KernelSymbols.fromParts ranges functions).lookup demangleStr pc =
      linearLookup demangleStr ranges functions pc := by
  have hglobal : nearestFunctionForPc (KernelSymbols.fromParts ranges functions).globalFunctions
      pc = nearestCandidate functions pc :=
    nearestFunctionForPc_eq (List.Perm.refl functions) hdistinct pc
  -- what is found lies at or below the address, so the difference does not saturate
  have hoffset : ∀ found : Option (KernelFunctionEntry × Addr),
      (∀ entry used, found = some (entry, used) → entry.address ≤ used) →
      (found.map fun (entry, normalized) =>
        let offset := if normalized < entry.address then 0 else normalized - entry.address
        resolvedSymbol demangleStr entry offset) =
      found.map fun (entry, used) => resolvedSymbol demangleStr entry (used - entry.address) := by
    intro found hfound
    cases found with
    | none => rfl
    | some pair =>
        obtain ⟨entry, used⟩ := pair
        have hle := hfound entry used rfl
        dsimp only [Option.map_some]
        rw [if_neg (UInt64.not_lt.mpr hle)]
  unfold KernelSymbols.lookup linearLookup candidates
  rw [moduleForAddress_fromParts hranges, hglobal]
  cases ranges.find? fun range => range.Contains pc with
  | none => exact hoffset _ fun entry used h => (nearestCandidate_spec h).2
  | some range =>
      have hperm : (members (·.module) range.module (sortFunctions functions)).Perm
          (functions.filter fun function => function.module = range.module) :=
        (perm_sortByKey _ functions).filter _
      have hown : ((functions.filter fun function => function.module = range.module).map
          (·.address.toNat)).Nodup := hdistinct.sublist (List.filter_sublist.map _)
      rw [Option.map_some]
      dsimp only
      rw [functionsOf_fromParts]
      -- a module without functions is not in the table, and all are searched
      by_cases hnone : functions.filter (fun function => function.module = range.module) = []
      · have hmembers : members (·.module) range.module (sortFunctions functions) = [] := by
          rw [hnone] at hperm
          exact hperm.eq_nil
        rw [if_pos hmembers, if_pos hnone]
        exact hoffset _ fun entry used h => (nearestCandidate_spec h).2
      · have hmembers : members (·.module) range.module (sortFunctions functions) ≠ [] := by
          intro hmembers
          rw [hmembers] at hperm
          exact hnone hperm.symm.eq_nil
        rw [if_neg hmembers, if_neg hnone]
        dsimp only
        rw [nearestFunctionForPc_eq hperm hown]
        exact hoffset _ fun entry used h => (nearestCandidate_spec h).2

end Tables

/-- What is printed of a function at an offset in it, digit by digit. -/
theorem resolvedSymbol_spec (demangleStr : String → Demangled) {entry : KernelFunctionEntry}
    {used : Addr} (hle : entry.address ≤ used) :
    (resolvedSymbol demangleStr entry (used - entry.address)).module = entry.module ∧
      ∃ name, (resolvedSymbol demangleStr entry (used - entry.address)).functionName =
          (if used = entry.address then name
          else name ++ "+0x" ++
            String.ofList (Nat.toDigits 16 (used.toNat - entry.address.toNat))) ∧
        (∀ mangled, entry.name = some mangled → name = (demangleStr mangled).name ∧
          (resolvedSymbol demangleStr entry (used - entry.address)).language =
            (demangleStr mangled).language) ∧
        (entry.name = none →
          name = "sub_" ++
            String.ofList ((Nat.toDigits 16 entry.address.toNat).leftpad 16 '0') ∧
          (resolvedSymbol demangleStr entry (used - entry.address)).language = .unknown) := by
  have hzero : used - entry.address = 0 ↔ used = entry.address := by
    rw [← UInt64.toNat_inj, ← UInt64.toNat_inj, UInt64.toNat_sub_of_le _ _ hle]
    have hnat := UInt64.le_iff_toNat_le.mp hle
    show used.toNat - entry.address.toNat = 0 ↔ _
    omega
  have hformat (name : String) : formatSymbolWithOffset name (used - entry.address) =
      if used = entry.address then name
      else name ++ "+0x" ++
        String.ofList (Nat.toDigits 16 (used.toNat - entry.address.toNat)) := by
    rw [formatSymbolWithOffset]
    by_cases heq : used = entry.address
    · rw [if_pos (hzero.mpr heq), if_pos heq]
    · have hsign : "+0x" = "+" ++ "0x" := by decide
      rw [if_neg fun h => heq (hzero.mp h), if_neg heq, hex, UInt64.toNat_sub_of_le _ _ hle, hsign]
      simp only [String.append_assoc]
  refine ⟨rfl, ?_⟩
  cases hname : entry.name with
  | some mangled =>
      refine ⟨(demangleStr mangled).name, ?_, ?_, nofun⟩
      · rw [← hformat, resolvedSymbol, hname]
      · intro same hsame
        obtain rfl := Option.some_inj.mp hsame
        rw [resolvedSymbol, hname]
        exact ⟨rfl, rfl⟩
  | none =>
      refine ⟨"sub_" ++ hex16 entry.address, ?_, nofun, fun _ => ⟨rfl, ?_⟩⟩
      · rw [← hformat, resolvedSymbol, hname]
      · rw [resolvedSymbol, hname]

/-- A lookup finds what going through all ranges and functions finds, the nearest of the candidates:
nothing where there is none, and else its module, its name and how far behind it the address lies.
Within a module that has functions it finds one of them. -/
theorem lookup_eq_linear (demangleStr : String → Demangled) (ranges : List KernelImageRange)
    (functions : List KernelFunctionEntry) (hranges : DisjointRanges ranges)
    (hdistinct : (functions.map (·.address)).Nodup) (pc : Addr) :
    let found := (KernelSymbols.fromParts ranges functions).lookup demangleStr pc
    (nearestCandidate (candidates ranges functions pc) pc = none → found = none) ∧
    (∀ entry used, nearestCandidate (candidates ranges functions pc) pc = some (entry, used) →
      entry.address ≤ used ∧
      ∃ symbol, found = some symbol ∧ symbol.module = entry.module ∧
        ∃ name, symbol.functionName =
            (if used = entry.address then name
            else name ++ "+0x" ++
              String.ofList (Nat.toDigits 16 (used.toNat - entry.address.toNat))) ∧
          (∀ mangled, entry.name = some mangled → name = (demangleStr mangled).name ∧
            symbol.language = (demangleStr mangled).language) ∧
          (entry.name = none →
            name = "sub_" ++
              String.ofList ((Nat.toDigits 16 entry.address.toNat).leftpad 16 '0') ∧
            symbol.language = .unknown)) ∧
    ∀ range ∈ ranges, range.Contains pc → (∃ function ∈ functions,
        function.module = range.module) →
      ∀ symbol, found = some symbol → symbol.module = range.module := by
  intro found
  have hkeys : (functions.map (·.address.toNat)).Nodup := by
    have hnat := hdistinct.map (fun _ _ => UInt64.toNat_inj.mp)
    rwa [List.map_map] at hnat
  have hlookup : found = linearLookup demangleStr ranges functions pc :=
    lookup_fromParts demangleStr hranges hkeys pc
  refine ⟨fun hnone => ?_, fun entry used hentry => ?_, ?_⟩
  · rw [hlookup, linearLookup, hnone]
    rfl
  · have hle := (nearestCandidate_spec hentry).2
    refine ⟨hle, resolvedSymbol demangleStr entry (used - entry.address), ?_,
      resolvedSymbol_spec demangleStr hle⟩
    rw [hlookup, linearLookup, hentry]
    rfl
  rintro range hrange hcontains ⟨function, hfunction, hmodule⟩ symbol hsymbol
  rw [hlookup] at hsymbol
  -- the range at the address is this one, so the candidates are its functions
  have hfind : (ranges.find? fun range => range.Contains pc) = some range := by
    cases hfound : ranges.find? fun range => range.Contains pc with
    | none => exact absurd (decide_eq_true hcontains) (List.find?_eq_none.mp hfound range hrange)
    | some other =>
        have hother := List.find?_some hfound
        rw [hranges.unique (List.mem_of_find?_eq_some hfound) hrange (of_decide_eq_true hother)
          hcontains]
  have hcandidates : candidates ranges functions pc =
      functions.filter fun function => function.module = range.module := by
    unfold candidates
    rw [hfind]
    refine if_neg (List.ne_nil_of_mem (a := function) ?_)
    rw [List.mem_filter]
    exact ⟨hfunction, decide_eq_true hmodule⟩
  unfold linearLookup at hsymbol
  rw [hcandidates, Option.map_eq_some_iff] at hsymbol
  obtain ⟨⟨entry, used⟩, hentry, rfl⟩ := hsymbol
  have hmem := (nearestCandidate_spec hentry).1
  exact of_decide_eq_true (List.mem_filter.mp hmem).2

/-- The functions of the kernel's own test, with the last one's name stripped and a range for the
other module. -/
def pthreadRanges : List KernelImageRange :=
  [{ module := "com.apple.kernel", start := 0xfffffe000b660000, stop := 0xfffffe000b66c420 },
    { module := "com.apple.kec.pthread", start := 0xfffffe000b66c420, stop := 0xfffffe000b672020 }]

/-- Two functions of a module of the kernel, as a kernel cache lists them. -/
def pthreadFunctions : List KernelFunctionEntry :=
  [{ module := "com.apple.kec.pthread", address := 0xfffffe000b6709f0,
      name := some "_psynch_cvupdate" },
    { module := "com.apple.kec.pthread", address := 0xfffffe000b670a3c,
      name := some "_psynch_cvcontinue" },
    { module := "com.apple.kec.pthread", address := 0xfffffe000b670a80, name := none },
    { module := "com.apple.kernel", address := 0xfffffe000b660000, name := some "_wrong_fileset" }]

theorem disjoint_pthreadRanges : DisjointRanges pthreadRanges where
  nonempty := by decide +kernel
  apart := by
    refine List.pairwise_cons.mpr ⟨fun range hrange address h => ?_, List.pairwise_singleton _ _⟩
    obtain rfl := List.mem_singleton.mp hrange
    exact absurd (UInt64.lt_of_lt_of_le h.1.2 h.2.1) (UInt64.lt_irrefl _)

/-- At the start of the function without a name the address is one behind a call; in front of the
module's first function there is nothing of it, whatever the other module has. -/
theorem lookup_eq_linear_pthread :
    let found := (KernelSymbols.fromParts pthreadRanges pthreadFunctions).lookup
      fun name => { name := name, language := .c }
    (found 0xfffffe000b670a40).map (·.functionName) = some "_psynch_cvcontinue+0x4" ∧
      (found 0xfffffe000b670a80).map (·.functionName) = some "_psynch_cvcontinue+0x40" ∧
      (found 0xfffffe000b670a84).map (·.functionName) = some "sub_fffffe000b670a80+0x4" ∧
      (found 0xfffffe000b66c430).map (·.functionName) = none := by
  have hlookup := lookup_eq_linear (fun name => { name := name, language := .c }) pthreadRanges
    pthreadFunctions disjoint_pthreadRanges (by decide +kernel)
  intro found
  refine ⟨?_, ?_, ?_, ?_⟩
  · obtain ⟨-, symbol, hsymbol, -, name, htext, hname, -⟩ := (hlookup 0xfffffe000b670a40).2.1
      { module := "com.apple.kec.pthread", address := 0xfffffe000b670a3c,
        name := some "_psynch_cvcontinue" } 0xfffffe000b670a40 (by decide +kernel)
    show ((KernelSymbols.fromParts pthreadRanges pthreadFunctions).lookup _ _).map _ = _
    rw [hsymbol, Option.map_some, htext, (hname _ rfl).1]
    decide +kernel
  · obtain ⟨-, symbol, hsymbol, -, name, htext, hname, -⟩ := (hlookup 0xfffffe000b670a80).2.1
      { module := "com.apple.kec.pthread", address := 0xfffffe000b670a3c,
        name := some "_psynch_cvcontinue" } 0xfffffe000b670a7c (by decide +kernel)
    show ((KernelSymbols.fromParts pthreadRanges pthreadFunctions).lookup _ _).map _ = _
    rw [hsymbol, Option.map_some, htext, (hname _ rfl).1]
    decide +kernel
  · obtain ⟨-, symbol, hsymbol, -, name, htext, -, hname⟩ := (hlookup 0xfffffe000b670a84).2.1
      { module := "com.apple.kec.pthread", address := 0xfffffe000b670a80, name := none }
      0xfffffe000b670a84 (by decide +kernel)
    show ((KernelSymbols.fromParts pthreadRanges pthreadFunctions).lookup _ _).map _ = _
    rw [hsymbol, Option.map_some, htext, (hname rfl).1]
    decide +kernel
  · have hnone : found 0xfffffe000b66c430 = none :=
      (hlookup 0xfffffe000b66c430).1 (by decide +kernel)
    rw [hnone]
    rfl

end Stax.Binaries
