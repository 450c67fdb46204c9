/-
# Stax.Binaries.LazyIndex — the index never goes stale.

A registry is to answer as if it had no index: as a list of images that inserting and removing
change, searched from end to end at every lookup.  The index is kept from lookup to lookup and holds
places in the list; it is thrown away whenever the list changes, so what is found at its places is
what the search of the list finds.
-/
import Mathlib.Data.List.MinMax
import Stax.Binaries.Labels

namespace Stax.Binaries

open Stax.Live (Addr)
open Stax.Lib Stax.Lib.Predecessor

/-! ## A registry without an index -/

/-- The image with the greatest base address that is not above the address, if the address is before
its end. -/
def linearSearch (images : List LoadedBinary) (address : Addr) : Option LoadedBinary :=
  ((images.filter (·.baseAvma ≤ address)).argmax (·.baseAvma.toNat)).filter (address < ·.avmaEnd)

/-- What a call makes of the list of images. -/
def BinaryRegistry.Call.apply (images : List LoadedBinary) : Call → List LoadedBinary
  | .insert binary => images.filter (·.baseAvma ≠ binary.baseAvma) ++
      [{ binary with symbols := sortByKey (·.startSvma.toNat) binary.symbols }]
  | .remove baseAvma => images.filter (·.baseAvma ≠ baseAvma)
  | _ => images

/-- The search finds the nearest image, if that reaches beyond the address. -/
theorem linearSearch_eq_some_iff {images : List LoadedBinary}
    (h : (images.map (·.baseAvma)).Nodup) {address : Addr} {b : LoadedBinary} :
    linearSearch images address = some b ↔ Nearest images address b ∧ address < b.avmaEnd := by
  have hmem (c : LoadedBinary) :
      c ∈ images.filter (·.baseAvma ≤ address) ↔ c ∈ images ∧ c.baseAvma ≤ address := by
    rw [List.mem_filter, decide_eq_true_iff]
  have hnearest {c : LoadedBinary}
      (hc : (images.filter (·.baseAvma ≤ address)).argmax (·.baseAvma.toNat) = some c) :
      Nearest images address c := by
    obtain ⟨hcmem, hcle⟩ := (hmem c).mp (List.argmax_mem hc)
    refine ⟨hcmem, hcle, fun d hd hdle => UInt64.le_iff_toNat_le.mpr ?_⟩
    exact List.le_of_mem_argmax (f := fun b : LoadedBinary => b.baseAvma.toNat)
      ((hmem d).mpr ⟨hd, hdle⟩) hc
  unfold linearSearch
  rw [Option.filter_eq_some_iff, decide_eq_true_iff]
  constructor
  · rintro ⟨hb, hend⟩
    exact ⟨hnearest hb, hend⟩
  · rintro ⟨hb, hend⟩
    refine ⟨?_, hend⟩
    cases hmax : (images.filter (·.baseAvma ≤ address)).argmax (·.baseAvma.toNat) with
    | none =>
        have hbmem := (hmem b).mpr ⟨hb.mem, hb.base_le⟩
        rw [List.argmax_eq_none.mp hmax] at hbmem
        cases hbmem
    | some c => rw [(hnearest hmax).unique h hb]

namespace BinaryRegistry

/-- Searching the index is searching the list. -/
theorem find_eq_linearSearch (self : BinaryRegistry) (address : Addr) :
    self.find address = linearSearch self.byBase address := by
  apply Option.ext
  intro b
  rw [self.find_eq_some_iff, linearSearch_eq_some_iff self.distinct]

/-- A place that is found is the place of an image. -/
theorem map_getElem?_binaryForAddress (self : BinaryRegistry) (address : Addr) :
    (self.binaryForAddress address).1.map (self.byBase[·]?) = (self.find address).map some := by
  cases hplace : (self.binaryForAddress address).1 with
  | none =>
      rw [(self.find_eq_none_iff address).mpr hplace]
      rfl
  | some i =>
      obtain ⟨b, hb, -⟩ := (self.binaryForAddress_eq_some_iff address).mp hplace
      rw [find, hplace, Option.bind_some, Option.map_some, hb, Option.map_some]

/-- A call changes the images as it changes the list, and keeps the demangled names right. -/
theorem byBase_call {host : Host} {self : BinaryRegistry}
    (h : self.demangleCache.Sound host.demangleBytes) (c : Call) :
    (self.call host c).byBase = c.apply self.byBase ∧
      (self.call host c).demangleCache.Sound host.demangleBytes := by
  cases c with
  | setTarget pid taskPort => exact ⟨rfl, h⟩
  | setSharedCache cache => exact ⟨rfl, h⟩
  | setMachoByteSource source => exact ⟨rfl, h⟩
  | insert binary => exact ⟨rfl, h⟩
  | remove baseAvma => exact ⟨rfl, h⟩
  | lookupSymbol address => exact (lookupSymbol_spec h address).2
  | resolve address =>
      obtain ⟨-, hbyBase, hcache⟩ := resolve_spec host self address
      refine ⟨hbyBase, ?_⟩
      show (self.resolve host address).2.demangleCache.Sound host.demangleBytes
      rw [hcache]
      exact h

theorem byBase_replay (host : Host) (kernelSymbols : Addr → Option KernelResolvedSymbol)
    (calls : List Call) :
    (replay host kernelSymbols calls).byBase = calls.foldl Call.apply [] ∧
      (replay host kernelSymbols calls).demangleCache.Sound host.demangleBytes := by
  induction calls using List.reverseRecOn with
  | nil => exact ⟨rfl, LruCache.sound_of_entries_nil rfl⟩
  | append_singleton calls c ih =>
      obtain ⟨hbyBase, hsound⟩ := byBase_call ih.2 c
      rw [replay, List.foldl_concat, List.foldl_concat, ← replay]
      exact ⟨hbyBase.trans (congrArg (fun images => c.apply images) ih.1), hsound⟩

/-- The index never goes stale.  After any insertions, removals and lookups in any order, the base
addresses are distinct, the images are those of the list that has no index, and a search for any
address gives the place of the image that a search of that list from end to end gives. -/
theorem index_never_stale (host : Host) (kernelSymbols : Addr → Option KernelResolvedSymbol)
    (calls : List Call) (address : Addr) :
    let reg := replay host kernelSymbols calls
    (reg.byBase.map (·.baseAvma)).Nodup ∧
      reg.byBase = calls.foldl Call.apply [] ∧
      (reg.binaryForAddress address).1.map (reg.byBase[·]?) =
        (linearSearch (calls.foldl Call.apply []) address).map some := by
  intro reg
  have hbyBase := (byBase_replay host kernelSymbols calls).1
  refine ⟨reg.distinct, hbyBase, ?_⟩
  rw [reg.map_getElem?_binaryForAddress, reg.find_eq_linearSearch]
  exact congrArg (fun images => (linearSearch images address).map some) hbyBase

end BinaryRegistry

end Stax.Binaries
