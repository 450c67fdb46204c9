/-
# Stax.Binaries.Coverage — which image a search finds.

The search looks at one image only: the one with the greatest base address that is not above the
address.  Images that were not removed may overlap, and then an address that a lower image covers is
found when the nearest image below it covers it as well, and missed otherwise.
-/
import Stax.Binaries.Registry

namespace Stax.Binaries

open Stax.Live (Addr)
open Stax.Lib Stax.Lib.Predecessor

/-- The address is in the image. -/
def LoadedBinary.Covers (b : LoadedBinary) (address : Addr) : Prop :=
  b.baseAvma ≤ address ∧ address < b.avmaEnd

instance (b : LoadedBinary) (address : Addr) : Decidable (b.Covers address) :=
  inferInstanceAs (Decidable (_ ∧ _))

/-- The image with the greatest base address that is not above the address. -/
structure Nearest (byBase : List LoadedBinary) (address : Addr) (b : LoadedBinary) : Prop where
  mem : b ∈ byBase
  base_le : b.baseAvma ≤ address
  greatest : ∀ c ∈ byBase, c.baseAvma ≤ address → c.baseAvma ≤ b.baseAvma

/-! ## The index -/

theorem mem_buildIndex {byBase : List LoadedBinary} {e : IndexEntry} :
    e ∈ buildIndex byBase ↔ ∃ b, byBase[e.2.2]? = some b ∧ e = (b.baseAvma, b.avmaEnd, e.2.2) := by
  rw [buildIndex, mem_sortByKey, List.mem_mapIdx]
  constructor
  · rintro ⟨i, hi, rfl⟩
    exact ⟨byBase[i], List.getElem?_eq_getElem hi, rfl⟩
  · rintro ⟨b, hb, he⟩
    obtain ⟨hi, rfl⟩ := List.getElem?_eq_some_iff.mp hb
    exact ⟨e.2.2, hi, he.symm⟩

theorem buildIndex_pairwise (byBase : List LoadedBinary) :
    (buildIndex byBase).Pairwise fun a b => a.1.toNat ≤ b.1.toNat := pairwise_sortByKey _ _

/-- Two images of the registry with one base address are the same. -/
theorem eq_of_baseAvma_eq {byBase : List LoadedBinary} (h : (byBase.map (·.baseAvma)).Nodup)
    {b c : LoadedBinary} (hb : b ∈ byBase) (hc : c ∈ byBase) (heq : b.baseAvma = c.baseAvma) :
    b = c :=
  List.inj_on_of_nodup_map h hb hc heq

theorem Nearest.unique {byBase : List LoadedBinary} (h : (byBase.map (·.baseAvma)).Nodup)
    {address : Addr} {b c : LoadedBinary} (hb : Nearest byBase address b)
    (hc : Nearest byBase address c) : b = c := by
  have hbc := UInt64.le_iff_toNat_le.mp (hc.greatest b hb.mem hb.base_le)
  have hcb := UInt64.le_iff_toNat_le.mp (hb.greatest c hc.mem hc.base_le)
  exact eq_of_baseAvma_eq h hb.mem hc.mem (UInt64.toNat_inj.mp (Nat.le_antisymm hbc hcb))

/-- An address that is not below every image has one that is nearest to it. -/
theorem exists_nearest {byBase : List LoadedBinary} {address : Addr} {b : LoadedBinary}
    (hb : b ∈ byBase) (hle : b.baseAvma ≤ address) : ∃ c, Nearest byBase address c := by
  have hne : ((byBase.filter (·.baseAvma ≤ address) : List LoadedBinary) :
      Multiset LoadedBinary) ≠ 0 := by
    rw [Ne, Multiset.coe_eq_zero]
    exact List.ne_nil_of_mem (List.mem_filter.mpr ⟨hb, decide_eq_true hle⟩)
  obtain ⟨c, hc, hmax⟩ := Multiset.exists_max_image (fun b => b.baseAvma.toNat) hne
  obtain ⟨hcmem, hcle⟩ := List.mem_filter.mp (Multiset.mem_coe.mp hc)
  refine ⟨c, hcmem, of_decide_eq_true hcle, fun d hd hdle => UInt64.le_iff_toNat_le.mpr ?_⟩
  exact hmax d (Multiset.mem_coe.mpr (List.mem_filter.mpr ⟨hd, decide_eq_true hdle⟩))

/-- The predecessor in the index is the entry of the nearest image. -/
theorem nearest_of_predecessor {byBase : List LoadedBinary} {address : Addr} {e : IndexEntry}
    (he : predecessor (fun e : IndexEntry => e.1.toNat) address.toNat (buildIndex byBase) = some e) :
    ∃ b, byBase[e.2.2]? = some b ∧ e = (b.baseAvma, b.avmaEnd, e.2.2) ∧
      Nearest byBase address b := by
  obtain ⟨hmem, hle, hgreatest⟩ := predecessor_spec (buildIndex_pairwise byBase) he
  obtain ⟨b, hb, heq⟩ := mem_buildIndex.mp hmem
  rw [heq] at hle hgreatest
  refine ⟨b, hb, heq, List.mem_of_getElem? hb, UInt64.le_iff_toNat_le.mpr hle, ?_⟩
  intro c hc hcle
  obtain ⟨j, hj⟩ := List.mem_iff_getElem?.mp hc
  have hcmem : (c.baseAvma, c.avmaEnd, j) ∈ buildIndex byBase := mem_buildIndex.mpr ⟨c, hj, rfl⟩
  exact UInt64.le_iff_toNat_le.mpr (hgreatest _ hcmem (UInt64.le_iff_toNat_le.mp hcle))

namespace BinaryRegistry

@[simp] theorem index_fst (self : BinaryRegistry) : self.index.1 = buildIndex self.byBase := by
  unfold index
  split
  · rename_i idx hidx
    exact self.indexed idx hidx
  · rfl

/-- A search changes nothing but the index. -/
@[simp] theorem index_snd_byBase (self : BinaryRegistry) :
    self.index.2.byBase = self.byBase := by
  unfold index
  split <;> rfl

/-- The image that a search finds. -/
def find (self : BinaryRegistry) (address : Addr) : Option LoadedBinary :=
  (self.binaryForAddress address).1.bind (self.byBase[·]?)

theorem binaryForAddress_fst (self : BinaryRegistry) (address : Addr) :
    (self.binaryForAddress address).1 =
      ((predecessor (fun e : IndexEntry => e.1.toNat) address.toNat (buildIndex self.byBase)).filter
        fun e => address < e.2.1).map (·.2.2) := by
  rw [predecessor_eq_ite, binaryForAddress]
  dsimp only
  rw [index_fst]
  split
  · rfl
  · rfl

theorem binaryForAddress_snd (self : BinaryRegistry) (address : Addr) :
    (self.binaryForAddress address).2 = self.index.2 := by
  unfold binaryForAddress
  dsimp only
  split <;> rfl

@[simp] theorem binaryForAddress_byBase (self : BinaryRegistry) (address : Addr) :
    (self.binaryForAddress address).2.byBase = self.byBase := by
  rw [binaryForAddress_snd, index_snd_byBase]

/-- A search finds the place of the nearest image, if that reaches beyond the address. -/
theorem binaryForAddress_eq_some_iff (self : BinaryRegistry) (address : Addr) {i : ℕ} :
    (self.binaryForAddress address).1 = some i ↔
      ∃ b, self.byBase[i]? = some b ∧ Nearest self.byBase address b ∧ address < b.avmaEnd := by
  rw [binaryForAddress_fst, Option.map_eq_some_iff]
  constructor
  · rintro ⟨e, he, rfl⟩
    obtain ⟨hpred, hend⟩ := Option.filter_eq_some_iff.mp he
    obtain ⟨b, hb, heq, hnear⟩ := nearest_of_predecessor hpred
    rw [heq] at hend
    exact ⟨b, hb, hnear, of_decide_eq_true hend⟩
  · rintro ⟨b, hb, hnear, hend⟩
    have hmem : (b.baseAvma, b.avmaEnd, i) ∈ buildIndex self.byBase :=
      mem_buildIndex.mpr ⟨b, hb, rfl⟩
    cases hpred : predecessor (fun e : IndexEntry => e.1.toNat) address.toNat
        (buildIndex self.byBase) with
    | none =>
        have habove := (predecessor_eq_none_iff (buildIndex_pairwise _)).mp hpred _ hmem
        exact absurd (UInt64.le_iff_toNat_le.mp hnear.base_le) (Nat.not_le.mpr habove)
    | some e =>
        obtain ⟨c, hc, heq, hcnear⟩ := nearest_of_predecessor hpred
        obtain rfl := hcnear.unique self.distinct hnear
        refine ⟨e, ?_, ?_⟩
        · rw [Option.filter_some, heq, if_pos (decide_eq_true hend)]
        · have hlt : e.2.2 < self.byBase.length := (List.getElem?_eq_some_iff.mp hc).1
          exact (List.getElem?_inj hlt self.distinct.of_map).mp (hc.trans hb.symm)

theorem find_eq_some_iff (self : BinaryRegistry) (address : Addr) {b : LoadedBinary} :
    self.find address = some b ↔ Nearest self.byBase address b ∧ address < b.avmaEnd := by
  rw [find, Option.bind_eq_some_iff]
  constructor
  · rintro ⟨i, hi, hb⟩
    obtain ⟨c, hc, hnear⟩ := (self.binaryForAddress_eq_some_iff address).mp hi
    obtain rfl : c = b := Option.some.inj (hc.symm.trans hb)
    exact hnear
  · rintro hnear
    obtain ⟨i, hi⟩ := List.mem_iff_getElem?.mp hnear.1.mem
    exact ⟨i, (self.binaryForAddress_eq_some_iff address).mpr ⟨b, hi, hnear⟩, hi⟩

/-- A search that finds a place finds an image there. -/
theorem find_eq_none_iff (self : BinaryRegistry) (address : Addr) :
    self.find address = none ↔ (self.binaryForAddress address).1 = none := by
  rw [find, Option.bind_eq_none_iff]
  constructor
  · intro h
    cases hi : (self.binaryForAddress address).1 with
    | none => rfl
    | some i =>
        obtain ⟨b, hb, -⟩ := (self.binaryForAddress_eq_some_iff address).mp hi
        rw [h i hi] at hb
        cases hb
  · intro h i hi
    rw [h] at hi
    cases hi

/-! ## Covered addresses -/

/-- If any image covers the address, the nearest one below it does. -/
def NearestCovers (self : BinaryRegistry) (address : Addr) : Prop :=
  ∀ b ∈ self.byBase, b.Covers address →
    ∀ c, Nearest self.byBase address c → address < c.avmaEnd

/-- A covered address is found exactly when the nearest image covers it. -/
theorem nearestCovers_iff {self : BinaryRegistry} {address : Addr} {b : LoadedBinary}
    (hb : b ∈ self.byBase) (hcovers : b.Covers address) :
    self.NearestCovers address ↔ self.find address ≠ none := by
  constructor
  · intro h hnone
    obtain ⟨c, hc⟩ := exists_nearest hb hcovers.1
    have hfound := (self.find_eq_some_iff address).mpr ⟨hc, h b hb hcovers c hc⟩
    rw [hnone] at hfound
    cases hfound
  · intro h d hd hdcovers c hc
    obtain ⟨e, he⟩ := Option.ne_none_iff_exists'.mp h
    obtain ⟨hnear, hend⟩ := (self.find_eq_some_iff address).mp he
    rwa [hc.unique self.distinct hnear]

/-- After any calls, a search that finds nothing means that no image covers the address, exactly
when the nearest image below a covered address covers it as well. -/
theorem binaryForAddress_complete_iff (host : Host)
    (kernelSymbols : Addr → Option KernelResolvedSymbol) (calls : List Call) (address : Addr) :
    (((replay host kernelSymbols calls).binaryForAddress address).1 = none →
        ∀ b ∈ (replay host kernelSymbols calls).byBase, ¬ b.Covers address) ↔
      (replay host kernelSymbols calls).NearestCovers address := by
  generalize replay host kernelSymbols calls = self
  rw [← find_eq_none_iff]
  constructor
  · intro h b hb hcovers
    have hfound : self.find address ≠ none := fun hnone => h hnone b hb hcovers
    exact (nearestCovers_iff hb hcovers).mpr hfound b hb hcovers
  · intro h hnone b hb hcovers
    exact (nearestCovers_iff hb hcovers).mp h hnone

/-- A host that has nothing to offer. -/
def bareHost : Host where
  demangleBytes _ := { name := "", language := .unknown }
  loadImage _ := none
  machVmRead _ _ _ := none

/-- A large image, then one in the middle of it. -/
def nested : List Call :=
  [.insert { path := "/tmp/jit", baseAvma := 0x1000, avmaEnd := 0x9000, textSvma := 0x1000 },
    .insert { path := "/tmp/stub", baseAvma := 0x2000, avmaEnd := 0x3000, textSvma := 0x2000 }]

/-- Behind the inner image the outer one is missed. -/
theorem nested_missed :
    ¬ (((replay bareHost (fun _ => none) nested).binaryForAddress 0x4000).1 = none →
      ∀ b ∈ (replay bareHost (fun _ => none) nested).byBase, ¬ b.Covers 0x4000) := by
  intro h
  refine h (by decide +kernel) _ List.mem_cons_self ?_
  decide +kernel

end BinaryRegistry

end Stax.Binaries
