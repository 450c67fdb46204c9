/-
# Stax.Binaries.SymbolTable — a binary's symbols as ranges of addresses.

An object file lists its symbols by start address only, in any order, some without an address or a
name and some at the same address.  What is usable is sorted and the first of each address kept; a
symbol then ends where the next one starts, the last one four bytes on.
-/
import Stax.Live.Aggregator
import Stax.Lib.Predecessor
import Stax.Lib.Spans

namespace Stax.Binaries

open Stax.Live (Addr)
open Stax.Lib Stax.Lib.Predecessor

/-- A symbol over the half-open range of its addresses. -/
structure MachOSymbol where
  startSvma : Addr
  endSvma : Addr
  name : List UInt8
  deriving DecidableEq, Repr

/-- A symbol as the object file has it; its name may lie outside the string table. -/
structure ObjectSymbol where
  address : Addr
  nameBytes : Option (List UInt8)
  deriving DecidableEq, Repr

/-- The address and name of a symbol that has both. -/
def usable (sym : ObjectSymbol) : Option (Addr × List UInt8) :=
  if sym.address = 0 then none
  else
    match sym.nameBytes with
    | none => none
    | some name => if name = [] then none else some (sym.address, name)

/-- Sorted by address, the first of each address kept: `sort_by_key` and `dedup_by_key`. -/
def sortDedup (raw : List (Addr × List UInt8)) : List (Addr × List UInt8) :=
  (sortByKey (·.1.toNat) raw).destutter fun a b => a.1 ≠ b.1

/-- Each symbol up to the next one, the last for four bytes. -/
def toSymbols : List (Addr × List UInt8) → List MachOSymbol
  | [] => []
  | [(start, name)] => [{ startSvma := start, endSvma := start + 4, name := name }]
  | (start, name) :: (stop, next) :: raw =>
    { startSvma := start, endSvma := stop, name := name } :: toSymbols ((stop, next) :: raw)

/-- The table of the symbols in an image of the shared cache. -/
def collectSymbols (symbols : List ObjectSymbol) : List MachOSymbol :=
  toSymbols (sortDedup (symbols.filterMap usable))

/-! ## Files on disk -/

/-- A segment as the object parser tells it. -/
structure Segment where
  name : Option String
  address : Addr
  size : UInt64
  deriving DecidableEq, Repr

/-- The architectures that are told apart. -/
inductive Architecture
  | aarch64
  | x86_64
  | other
  deriving DecidableEq, Repr

/-- Whether a file can be executed. -/
inductive ObjectKind
  | executable
  | other
  deriving DecidableEq, Repr

/-- A Mach-O file as the object parser presents it. -/
structure MachOFile where
  segments : List Segment
  machUuid : Option (List UInt8) := none
  architecture : Architecture := .other
  kind : ObjectKind := .other
  symbols : List ObjectSymbol
  deriving DecidableEq, Repr

/-- What is kept of a Mach-O file. -/
structure ParsedMachO where
  textSvma : Addr
  textVmsize : UInt64
  uuid : Option (List UInt8)
  arch : Option String
  isExecutable : Bool
  symbols : List MachOSymbol
  deriving DecidableEq, Repr

/-- The name that an architecture goes by. -/
def Architecture.name : Architecture → Option String
  | .aarch64 => some "aarch64"
  | .x86_64 => some "x86_64"
  | .other => none

/-- The image of the file at `path`; the disk answers with a parsed file or says why it has none. -/
def parseDiskMacho (disk : String → Except String MachOFile) (path : String) :
    Except String ParsedMachO := do
  let file ← disk path
  match file.segments.find? fun s => s.name = some "__TEXT" with
  | none => throw "no __TEXT segment"
  | some textSegment =>
    return {
      textSvma := textSegment.address
      textVmsize := textSegment.size
      uuid := file.machUuid
      arch := file.architecture.name
      isExecutable := file.kind = .executable
      symbols := toSymbols (sortDedup (file.symbols.filterMap usable)) }

/-! ## The table -/

/-- The addresses of a symbol, in the file. -/
def MachOSymbol.range (sym : MachOSymbol) : Span ℕ where
  start := sym.startSvma.toNat
  stop := sym.endSvma.toNat

/-- The ranges are non-empty and follow one another. -/
def IsTable (symbols : List MachOSymbol) : Prop := Span.Laid 0 (symbols.map MachOSymbol.range)

/-- The addresses rise strictly. -/
theorem sortDedup_pairwise (raw : List (Addr × List UInt8)) :
    (sortDedup raw).Pairwise fun a b => a.1.toNat < b.1.toNat := by
  have hchain := List.isChain_destutter (fun a b => a.1 ≠ b.1) (sortByKey (·.1.toNat) raw)
  refine pairwise_lt_of_isChain_ne ((pairwise_sortByKey _ raw).sublist (List.destutter_sublist _ _)) ?_
  exact hchain.imp fun a b hne h => hne (UInt64.toNat_inj.mp h)

theorem mem_sortDedup {raw : List (Addr × List UInt8)} {a : Addr × List UInt8}
    (ha : a ∈ sortDedup raw) : a ∈ raw :=
  (mem_sortByKey _).mp ((List.destutter_sublist _ _).mem ha)

theorem address_usable {sym : ObjectSymbol} {a : Addr × List UInt8} (ha : usable sym = some a) :
    a.1 = sym.address := by
  unfold usable at ha
  split at ha
  · cases ha
  · split at ha
    · cases ha
    · split at ha
      · cases ha
      · obtain rfl := Option.some.inj ha
        rfl

/-- Strictly rising addresses that leave room for four bytes make a table. -/
theorem laid_toSymbols {raw : List (Addr × List UInt8)}
    (hpair : raw.Pairwise fun a b => a.1.toNat < b.1.toNat)
    (hroom : ∀ a ∈ raw, a.1.toNat ≤ 2 ^ 64 - 5) {lo : ℕ} (hlo : ∀ a ∈ raw, lo ≤ a.1.toNat) :
    Span.Laid lo ((toSymbols raw).map MachOSymbol.range) := by
  induction raw using toSymbols.induct generalizing lo with
  | case1 => exact True.intro
  | case2 start name =>
      have hend : (start + 4).toNat = start.toNat + 4 := by
        have hstart := hroom (start, name) (List.mem_singleton_self _)
        rw [UInt64.toNat_add]
        exact Nat.mod_eq_of_lt (by simp at hstart ⊢; omega)
      refine ⟨hlo _ (List.mem_singleton_self _), ?_, True.intro⟩
      show start.toNat < (start + 4).toNat
      omega
  | case3 start name stop next raw ih =>
      obtain ⟨hlt, hrest⟩ := List.pairwise_cons.mp hpair
      have hstop : start.toNat < stop.toNat := hlt _ List.mem_cons_self
      refine ⟨hlo _ List.mem_cons_self, hstop, ?_⟩
      apply ih hrest (fun a ha => hroom a (List.mem_cons_of_mem _ ha))
      intro a ha
      rcases List.mem_cons.mp ha with rfl | ha
      · exact Nat.le_refl _
      · exact (List.rel_of_pairwise_cons hrest ha).le

/-- Whatever symbols there are, none in the last four addresses, they make a table. -/
theorem isTable_toSymbols {symbols : List ObjectSymbol}
    (hroom : ∀ sym ∈ symbols, sym.address.toNat ≤ 2 ^ 64 - 5) :
    IsTable (toSymbols (sortDedup (symbols.filterMap usable))) := by
  apply laid_toSymbols (sortDedup_pairwise _) _ fun a _ => Nat.zero_le _
  intro a ha
  obtain ⟨sym, hsym, husable⟩ := List.mem_filterMap.mp (mem_sortDedup ha)
  rw [address_usable husable]
  exact hroom sym hsym

theorem isTable_parseDiskMacho {disk : String → Except String MachOFile} {path : String}
    {file : MachOFile} {parsed : ParsedMachO} (hfile : disk path = .ok file)
    (hroom : ∀ sym ∈ file.symbols, sym.address.toNat ≤ 2 ^ 64 - 5)
    (hparsed : parseDiskMacho disk path = .ok parsed) : IsTable parsed.symbols := by
  rw [parseDiskMacho, hfile] at hparsed
  change (match file.segments.find? fun s => s.name = some "__TEXT" with
    | none => _
    | some textSegment => _) = _ at hparsed
  split at hparsed
  · cases hparsed
  · obtain rfl := Except.ok.inj hparsed
    exact isTable_toSymbols hroom

/-! ## Searching a table -/

theorem IsTable.pairwise {symbols : List MachOSymbol} (h : IsTable symbols) :
    symbols.Pairwise fun s t => s.endSvma.toNat ≤ t.startSvma.toNat :=
  List.pairwise_map.mp (Span.Laid.pairwise h)

theorem IsTable.nonempty {symbols : List MachOSymbol} (h : IsTable symbols) {s : MachOSymbol}
    (hs : s ∈ symbols) : s.startSvma.toNat < s.endSvma.toNat :=
  (Span.Laid.bounds h (List.mem_map_of_mem hs)).2

/-- A table is sorted by where its symbols start. -/
theorem IsTable.sorted {symbols : List MachOSymbol} (h : IsTable symbols) :
    symbols.Pairwise fun s t => s.startSvma.toNat ≤ t.startSvma.toNat := by
  refine h.pairwise.imp_of_mem fun {s t} hs _ hst => ?_
  exact (h.nonempty hs).le.trans hst

/-- No address is in two symbols of a table. -/
theorem IsTable.eq_of_contains {symbols : List MachOSymbol} (h : IsTable symbols)
    {s t : MachOSymbol} (hs : s ∈ symbols) (ht : t ∈ symbols) {svma : ℕ}
    (hsvma : s.range.Contains svma) (htvma : t.range.Contains svma) : s = t := by
  by_contra hne
  have hapart : symbols.Pairwise fun s t =>
      s.endSvma.toNat ≤ t.startSvma.toNat ∨ t.endSvma.toNat ≤ s.startSvma.toNat :=
    h.pairwise.imp fun {s t} hst => Or.inl hst
  have hsymm : Std.Symm fun s t : MachOSymbol =>
      s.endSvma.toNat ≤ t.startSvma.toNat ∨ t.endSvma.toNat ≤ s.startSvma.toNat :=
    ⟨fun s t => Or.symm⟩
  have hst := hapart.forall hs ht hne
  obtain ⟨hs₁, hs₂⟩ := hsvma
  obtain ⟨ht₁, ht₂⟩ := htvma
  simp only [MachOSymbol.range] at hs₁ hs₂ ht₁ ht₂
  omega

end Stax.Binaries
