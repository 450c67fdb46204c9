/-
# Stax.Live.CfgPartition — the blocks of a graph partition the disassembly view.

The graph and the view decode the same bytes by different loops and get the same lines.  The
instructions tile the bytes, so the cells of the leaders cut their list into stretches, one for each
block: put together in the order of their ids the blocks are the view.  Nothing here depends on the
leaders being addresses of instructions, as long as the ids, which have 32 bits, tell the blocks
apart.
-/
import Stax.Live.Cfg

namespace Stax.Live

open Stax.Binaries.BinaryRegistry (ResolvedAddress)
open Stax.Lib Stax.Lib.Predecessor Stax.Lib.Cuts

/-! ## The instructions tile the bytes -/

namespace DecodedInstr

/-- The address of an instruction, as a number without wrap-around. -/
def start (instr : DecodedInstr) : ℕ := instr.address.toNat

/-- Where an instruction ends, as a number without wrap-around. -/
def stop (instr : DecodedInstr) : ℕ := instr.address.toNat + instr.length.toNat

theorem toNat_next {instr : DecodedInstr} (h : instr.stop < 2 ^ 64) :
    instr.next.toNat = instr.stop := by
  rw [next, UInt64.toNat_add]
  exact Nat.mod_eq_of_lt h

end DecodedInstr

/-- Instructions with positive lengths, laid without gaps from `lo` to `hi`. -/
def TilesRange (lo hi : ℕ) (instrs : List DecodedInstr) : Prop :=
  Tiles DecodedInstr.start DecodedInstr.stop lo hi instrs

section Decode

variable {dis : Disassembler} {resolved : ResolvedAddress} {selfLookup : Addr → UInt64 × UInt64}

theorem toNat_addressAt (hbase : resolved.baseAddress.toNat + resolved.bytes.length < 2 ^ 64)
    {offset : ℕ} (h : offset ≤ resolved.bytes.length) :
    (addressAt resolved offset).toNat = resolved.baseAddress.toNat + offset := by
  rw [addressAt, UInt64.toNat_add, UInt64.toNat_ofNat']
  omega

/-- An instruction in front of instructions that tile what follows it. -/
theorem tilesRange_cons {lo hi len : ℕ} {address : Addr} {asm : String} {flow : Flow}
    {instrs : List DecodedInstr} (haddress : address.toNat = lo) (hpos : 0 < len)
    (hlen : len < 2 ^ 64) (h : TilesRange (lo + len) hi instrs) :
    TilesRange lo hi (decodedInstr dis selfLookup address len asm flow :: instrs) := by
  have hlength : (decodedInstr dis selfLookup address len asm flow).length.toNat = len :=
    UInt64.toNat_ofNat_of_lt hlen
  have hstop : (decodedInstr dis selfLookup address len asm flow).stop = lo + len := by
    rw [DecodedInstr.stop, hlength]
    exact congrArg (· + len) haddress
  refine ⟨haddress, ?_, ?_⟩
  · rw [hstop]
    omega
  · rw [hstop]
    exact h

/-- An aarch64 function may have up to three bytes behind its last instruction. -/
theorem decodeAarch64_tiles (hbase : resolved.baseAddress.toNat + resolved.bytes.length < 2 ^ 64)
    (offset : ℕ) (h : offset ≤ resolved.bytes.length) :
    ∃ hi ≤ resolved.baseAddress.toNat + resolved.bytes.length,
      TilesRange (resolved.baseAddress.toNat + offset) hi
        (decodeAarch64 dis resolved selfLookup offset) := by
  fun_induction decodeAarch64 dis resolved selfLookup offset with
  | case1 offset hlt address asm flow hasm ih =>
      obtain ⟨hi, hhi, htiles⟩ := ih hlt
      exact ⟨hi, hhi, tilesRange_cons (toNat_addressAt hbase h) (by omega) (by omega) htiles⟩
  | case2 offset hge => exact ⟨_, by omega, rfl⟩

/-- Instructions of amd64 tile the bytes from an offset on, without gaps and without overlaps. -/
theorem decodeAmd64_tiles (hbase : resolved.baseAddress.toNat + resolved.bytes.length < 2 ^ 64)
    (offset : ℕ) (h : offset ≤ resolved.bytes.length) :
    TilesRange (resolved.baseAddress.toNat + offset)
      (resolved.baseAddress.toNat + resolved.bytes.length)
      (decodeAmd64 dis resolved selfLookup offset) := by
  fun_induction decodeAmd64 dis resolved selfLookup offset with
  | case1 offset hlt address instr hinstr next ih =>
      have hpos := instr.len_pos
      have hle : instr.len ≤ resolved.bytes.length - offset := by
        simpa using instr.len_le
      have hmax : max instr.len 1 = instr.len := max_eq_left hpos
      rw [hmax] at ih ⊢
      have hrest := ih (by omega)
      rw [← Nat.add_assoc] at hrest
      exact tilesRange_cons (toNat_addressAt hbase h) hpos (by omega) hrest
  | case2 offset hlt address err herr ih =>
      exact tilesRange_cons (toNat_addressAt hbase h) (by omega) (by omega) (ih hlt)
  | case3 offset hge =>
      have heq : offset = resolved.bytes.length := by omega
      rw [heq]
      rfl

theorem decodeInstrs_tiles
    (hbase : resolved.baseAddress.toNat + resolved.bytes.length < 2 ^ 64)
    (hne : decodeInstrs dis resolved selfLookup ≠ []) :
    ∃ hi ≤ resolved.baseAddress.toNat + resolved.bytes.length,
      TilesRange resolved.baseAddress.toNat hi (decodeInstrs dis resolved selfLookup) := by
  unfold decodeInstrs at hne ⊢
  split at hne
  · exact decodeAarch64_tiles hbase 0 (Nat.zero_le _)
  · exact ⟨_, Nat.le_refl _, decodeAmd64_tiles hbase 0 (Nat.zero_le _)⟩
  · exact absurd rfl hne

/-! ## Both loops give the same lines -/

/-- The lines of the graph are those of the disassembly. -/
theorem lines_decodeAarch64 (offset : ℕ) :
    (decodeAarch64 dis resolved selfLookup offset).map DecodedInstr.line =
      disassembleAarch64 dis resolved selfLookup offset := by
  fun_induction decodeAarch64 dis resolved selfLookup offset with
  | case1 offset hlt address asm flow hasm ih =>
      rw [disassembleAarch64, if_pos hlt, List.map_cons, ih]
      refine congrArg (· :: _) ?_
      change annotatedLine dis selfLookup address asm = annotatedLine dis selfLookup address _
      refine congrArg (annotatedLine dis selfLookup address) ?_
      cases hdec : dis.a64 ((resolved.bytes.drop offset).take 4) with
      | ok instr =>
          rw [hdec] at hasm
          exact (congrArg Prod.fst hasm).symm
      | error err =>
          rw [hdec] at hasm
          exact (congrArg Prod.fst hasm).symm
  | case2 offset hge => rw [disassembleAarch64, if_neg hge, List.map_nil]

theorem lines_decodeAmd64 (offset : ℕ) :
    (decodeAmd64 dis resolved selfLookup offset).map DecodedInstr.line =
      disassembleAmd64 dis resolved selfLookup offset := by
  fun_induction decodeAmd64 dis resolved selfLookup offset with
  | case1 offset hlt address instr hinstr next ih =>
      rw [disassembleAmd64, if_pos hlt, List.map_cons, ih, hinstr]
      rfl
  | case2 offset hlt address err herr ih =>
      rw [disassembleAmd64, if_pos hlt, List.map_cons, ih, herr]
      rfl
  | case3 offset hge => rw [disassembleAmd64, if_neg hge, List.map_nil]

theorem lines_decodeInstrs :
    (decodeInstrs dis resolved selfLookup).map DecodedInstr.line =
      disassemble dis resolved selfLookup := by
  unfold decodeInstrs disassemble
  cases archOf (resolved.arch.getD (hostArch dis.targetArch)) with
  | none => rfl
  | some arch =>
      cases arch with
      | aarch64 => exact lines_decodeAarch64 0
      | amd64 => exact lines_decodeAmd64 0

end Decode

/-! ## Leaders as cuts -/

section Leaders

variable {fnLo fnHi : Addr} {instrs : List DecodedInstr}

theorem mem_leaderVec {addr : Addr} :
    addr ∈ leaderVec fnLo fnHi instrs ↔
      (∃ first, instrs.head? = some first ∧ first.address = addr) ∨
        ∃ instr ∈ instrs, addr ∈ instrLeaders fnLo fnHi instr := by
  rw [leaderVec, mem_sortByKey, List.mem_dedup, List.mem_append, List.mem_flatMap,
    Option.mem_toList, Option.map_eq_some_iff]

theorem pairwise_leaderVec :
    (leaderVec fnLo fnHi instrs).Pairwise fun a b => a.toNat < b.toNat := by
  have hnodup : (leaderVec fnLo fnHi instrs).Nodup :=
    (perm_sortByKey _ _).nodup_iff.mpr (List.nodup_dedup _)
  refine ((pairwise_sortByKey UInt64.toNat _).and hnodup).imp ?_
  rintro a b ⟨hle, hne⟩
  exact lt_of_le_of_ne hle fun heq => hne (UInt64.toNat_inj.mp heq)

end Leaders

/-- Which block an address belongs to. -/
def blockIndex (leaders : List Addr) (addr : Addr) : ℕ :=
  cell (leaders.map UInt64.toNat) addr.toNat - 1

/-- The instructions of a block. -/
def blockInstrs (leaders : List Addr) (instrs : List DecodedInstr) (k : ℕ) : List DecodedInstr :=
  instrs.filter fun instr => blockIndex leaders instr.address = k

/-- The leaders rise, are few enough for their ids, and one of them comes first. -/
structure Leads (leaders : List Addr) (instrs : List DecodedInstr) : Prop where
  rising : leaders.Pairwise fun a b => a.toNat < b.toNat
  ids : leaders.length ≤ 2 ^ 32
  first : ∀ instr ∈ instrs, ∃ leader ∈ leaders, leader.toNat ≤ instr.address.toNat

section Blocks

variable {leaders : List Addr} {instrs : List DecodedInstr}

theorem cell_pos {addr : Addr} (h : ∃ leader ∈ leaders, leader.toNat ≤ addr.toNat) :
    0 < cell (leaders.map UInt64.toNat) addr.toNat := by
  obtain ⟨leader, hmem, hle⟩ := h
  exact cell_pos_iff.mpr ⟨leader.toNat, List.mem_map_of_mem hmem, hle⟩

theorem blockIndex_lt {addr : Addr} (h : ∃ leader ∈ leaders, leader.toNat ≤ addr.toNat) :
    blockIndex leaders addr < leaders.length := by
  have hpos := cell_pos h
  have hle := cell_le_length (leaders.map UInt64.toNat) addr.toNat
  rw [List.length_map] at hle
  unfold blockIndex
  omega

theorem blockIndex_mono {a b : Addr} (h : a.toNat ≤ b.toNat) :
    blockIndex leaders a ≤ blockIndex leaders b :=
  Nat.sub_le_sub_right (cell_mono h) 1

/-- A leader between two addresses puts them in different blocks. -/
theorem blockIndex_lt_iff {a b : Addr} (ha : ∃ leader ∈ leaders, leader.toNat ≤ a.toNat) :
    blockIndex leaders a < blockIndex leaders b ↔
      ∃ leader ∈ leaders, a.toNat < leader.toNat ∧ leader.toNat ≤ b.toNat := by
  have hpos := cell_pos ha
  have hcells : blockIndex leaders a < blockIndex leaders b ↔
      cell (leaders.map UInt64.toNat) a.toNat < cell (leaders.map UInt64.toNat) b.toNat := by
    unfold blockIndex
    omega
  rw [hcells, cell_lt_cell_iff]
  simp only [List.mem_map, exists_exists_and_eq_and]

/-- The binary search finds the block of the last leader at or below an address. -/
theorem blockIdFor_eq (hleaders : leaders.Pairwise fun a b => a.toNat < b.toNat) {addr : Addr}
    (h : ∃ leader ∈ leaders, leader.toNat ≤ addr.toNat) :
    blockIdFor leaders addr = some (UInt32.ofNat (blockIndex leaders addr)) := by
  have hpos := cell_pos h
  have hcell := cell_eq_of_binarySearch hleaders addr.toNat
  rw [blockIdFor, blockIndex]
  cases hsearch : binarySearch UInt64.toNat addr.toNat leaders with
  | ok i =>
      rw [hsearch] at hcell
      rw [hcell]
      rfl
  | error i =>
      rw [hsearch] at hcell
      cases i with
      | zero => exact absurd hcell hpos.ne'
      | succ i =>
          rw [hcell]
          rfl

theorem toNat_blockIndex (hids : leaders.length ≤ 2 ^ 32) {addr : Addr}
    (h : ∃ leader ∈ leaders, leader.toNat ≤ addr.toNat) :
    (UInt32.ofNat (blockIndex leaders addr)).toNat = blockIndex leaders addr :=
  UInt32.toNat_ofNat_of_lt ((blockIndex_lt h).trans_le hids)

theorem foldl_pushLine (block : BasicBlock) (instrs : List DecodedInstr) :
    instrs.foldl pushLine block =
      { block with lines := block.lines ++ instrs.map DecodedInstr.line } := by
  induction instrs generalizing block with
  | nil => simp
  | cons instr instrs ih =>
      rw [List.foldl_cons, ih]
      simp [pushLine]

/-- Grouping fills one bucket for each leader. -/
theorem groupInstrs_eq_fill :
    groupInstrs leaders instrs =
      fill (fun instr => (blockIdFor leaders instr.address).map UInt32.toNat) pushLine
        (emptyBlocks leaders) instrs := by
  rfl

theorem getElem?_emptyBlocks (k : ℕ) :
    (emptyBlocks leaders)[k]? = leaders[k]?.map fun addr =>
      { id := UInt32.ofNat k, startAddress := addr, lines := [] } := by
  rw [emptyBlocks, List.getElem?_mapIdx]

/-- Whatever the ids, there is one block for each leader, under its place as an id. -/
theorem getElem?_groupInstrs (k : ℕ) :
    (groupInstrs leaders instrs)[k]? = leaders[k]?.map fun addr =>
      { id := UInt32.ofNat k
        startAddress := addr
        lines := (instrs.filter fun instr =>
          (blockIdFor leaders instr.address).map UInt32.toNat = some k).map
            DecodedInstr.line } := by
  rw [groupInstrs_eq_fill, getElem?_fill, getElem?_emptyBlocks, Option.map_map]
  refine congrArg (fun f => Option.map f leaders[k]?) ?_
  funext addr
  simp only [Function.comp_apply, foldl_pushLine, List.nil_append]

theorem length_groupInstrs : (groupInstrs leaders instrs).length = leaders.length := by
  have hnone (k : ℕ) : (groupInstrs leaders instrs)[k]? = none ↔ leaders[k]? = none := by
    rw [getElem?_groupInstrs, Option.map_eq_none_iff]
  simp only [List.getElem?_eq_none_iff] at hnone
  have hge := (hnone leaders.length).mpr (Nat.le_refl _)
  have hle := (hnone (groupInstrs leaders instrs).length).mp (Nat.le_refl _)
  omega

/-- With ids that tell the blocks apart, a block has the instructions of its index. -/
theorem Leads.getElem?_groupInstrs (h : Leads leaders instrs) (k : ℕ) :
    (groupInstrs leaders instrs)[k]? = leaders[k]?.map fun addr =>
      { id := UInt32.ofNat k
        startAddress := addr
        lines := (blockInstrs leaders instrs k).map DecodedInstr.line } := by
  rw [Live.getElem?_groupInstrs]
  have hfilter : (instrs.filter fun instr =>
      (blockIdFor leaders instr.address).map UInt32.toNat = some k) =
        blockInstrs leaders instrs k := by
    refine List.filter_congr fun instr hinstr => ?_
    have hfirst := h.first instr hinstr
    rw [blockIdFor_eq h.rising hfirst, Option.map_some, toNat_blockIndex h.ids hfirst,
      decide_eq_decide]
    exact Option.some_inj
  rw [hfilter]

theorem Leads.getElem?_eq_some (h : Leads leaders instrs) {k : ℕ} {block : BasicBlock}
    (hblock : (groupInstrs leaders instrs)[k]? = some block) :
    ∃ leader, leaders[k]? = some leader ∧
      block =
        { id := UInt32.ofNat k
          startAddress := leader
          lines := (blockInstrs leaders instrs k).map DecodedInstr.line } := by
  rw [h.getElem?_groupInstrs, Option.map_eq_some_iff] at hblock
  obtain ⟨leader, hleader, hblock⟩ := hblock
  exact ⟨leader, hleader, hblock.symm⟩

theorem Leads.lines_groupInstrs (h : Leads leaders instrs) :
    (groupInstrs leaders instrs).map BasicBlock.lines =
      (List.range leaders.length).map fun k =>
        (blockInstrs leaders instrs k).map DecodedInstr.line := by
  refine List.ext_getElem? fun k => ?_
  rw [List.getElem?_map, h.getElem?_groupInstrs, Option.map_map, List.getElem?_map]
  rcases Nat.lt_or_ge k leaders.length with hk | hk
  · rw [List.getElem?_eq_getElem hk, List.getElem?_range hk]
    rfl
  · rw [List.getElem?_eq_none hk, List.getElem?_eq_none (by simpa using hk)]
    rfl

end Blocks

/-! ## The blocks of tiling instructions -/

/-- The blocks are numbered from zero on, start at rising addresses, have between them the lines of
the view, each in one block, and end where a branch or a return does. -/
structure Partitions (instrs : List DecodedInstr) (view : List AnnotatedLine)
    (blocks : List BasicBlock) : Prop where
  lines : blocks.flatMap BasicBlock.lines = view
  once : ∀ line ∈ view, ∃! k : ℕ, ∃ block : BasicBlock,
    blocks[k]? = some block ∧ line ∈ block.lines
  ids : ∀ (k : ℕ) (block : BasicBlock), blocks[k]? = some block → block.id.toNat = k
  rising : blocks.Pairwise fun a b => a.startAddress < b.startAddress
  ends : ∀ instr ∈ instrs, instr.flow.EndsBlock →
    ∀ block : BasicBlock, block ∈ blocks → instr.line ∈ block.lines →
      block.lines.getLast? = some instr.line

/-- The ids start over with the block after the last one they can number. -/
theorem Partitions.length_le {instrs : List DecodedInstr} {view : List AnnotatedLine}
    {blocks : List BasicBlock} (h : Partitions instrs view blocks) : blocks.length ≤ 2 ^ 32 := by
  by_contra hmany
  have hlt : 2 ^ 32 < blocks.length := by omega
  have hid := h.ids _ _ (List.getElem?_eq_getElem hlt)
  have hsmall := UInt32.toNat_lt blocks[2 ^ 32].id
  omega

/-- Instructions that tile a part of the function that starts where the function does. -/
structure Within (fnLo fnHi : Addr) (instrs : List DecodedInstr) : Prop where
  tiles : ∃ hi ≤ fnHi.toNat, TilesRange fnLo.toNat hi instrs

namespace Within

variable {fnLo fnHi : Addr} {instrs : List DecodedInstr}

theorem pairwise (h : Within fnLo fnHi instrs) :
    instrs.Pairwise fun a b => a.start < b.start := by
  obtain ⟨hi, -, htiles⟩ := h.tiles
  exact htiles.pairwise

theorem nodup (h : Within fnLo fnHi instrs) : instrs.Nodup := by
  obtain ⟨hi, -, htiles⟩ := h.tiles
  exact htiles.nodup

theorem eq_of_address (h : Within fnLo fnHi instrs) {a b : DecodedInstr} (ha : a ∈ instrs)
    (hb : b ∈ instrs) (heq : a.address = b.address) : a = b := by
  obtain ⟨hi, -, htiles⟩ := h.tiles
  exact htiles.start_injOn ha hb (congrArg UInt64.toNat heq)

theorem eq_of_line (h : Within fnLo fnHi instrs) {a b : DecodedInstr} (ha : a ∈ instrs)
    (hb : b ∈ instrs) (heq : a.line = b.line) : a = b := by
  refine h.eq_of_address ha hb ?_
  rw [← a.line_address, ← b.line_address, heq]

theorem toNat_next (h : Within fnLo fnHi instrs) {a : DecodedInstr} (ha : a ∈ instrs) :
    a.next.toNat = a.stop := by
  obtain ⟨hi, hle, htiles⟩ := h.tiles
  have hstop := (htiles.bounds ha).2.2
  have hlt := fnHi.toNat_lt
  exact DecodedInstr.toNat_next (by omega)

theorem address_lt_next (h : Within fnLo fnHi instrs) {a : DecodedInstr} (ha : a ∈ instrs) :
    a.address.toNat < a.next.toNat := by
  rw [h.toNat_next ha]
  obtain ⟨hi, -, htiles⟩ := h.tiles
  exact (htiles.bounds ha).2.1

/-- The instruction right after another is at the address where that one ends. -/
theorem next_eq (h : Within fnLo fnHi instrs) {a b : DecodedInstr} (hab : Adjacent instrs a b) :
    a.next = b.address := by
  rw [← UInt64.toNat_inj, h.toNat_next hab.mem_left]
  obtain ⟨hi, -, htiles⟩ := h.tiles
  exact htiles.stop_eq hab

theorem address_inFunction (h : Within fnLo fnHi instrs) {a : DecodedInstr} (ha : a ∈ instrs) :
    InFunction fnLo fnHi a.address := by
  obtain ⟨hi, hle, htiles⟩ := h.tiles
  obtain ⟨hlo, hpos, hstop⟩ := htiles.bounds ha
  exact ⟨UInt64.le_iff_toNat_le.mpr hlo, UInt64.lt_iff_toNat_lt.mpr (by
    change a.start < _
    omega)⟩

/-- The first leader is the address of the first instruction. -/
theorem exists_leader (h : Within fnLo fnHi instrs) {a : DecodedInstr} (ha : a ∈ instrs) :
    ∃ leader ∈ leaderVec fnLo fnHi instrs, leader.toNat ≤ a.address.toNat := by
  obtain ⟨hi, -, htiles⟩ := h.tiles
  have hlo : fnLo.toNat ≤ a.address.toNat := (htiles.bounds ha).1
  cases instrs with
  | nil => simp at ha
  | cons first rest =>
      refine ⟨first.address, mem_leaderVec.mpr (Or.inl ⟨first, rfl, rfl⟩), ?_⟩
      have hfirst : first.address.toNat = fnLo.toNat := htiles.1
      omega

theorem leads (h : Within fnLo fnHi instrs)
    (hids : (leaderVec fnLo fnHi instrs).length ≤ 2 ^ 32) :
    Leads (leaderVec fnLo fnHi instrs) instrs where
  rising := pairwise_leaderVec
  ids := hids
  first := fun _ ha => h.exists_leader ha

/-- The blocks of the instructions follow one another. -/
theorem pairwise_blockIndex (h : Within fnLo fnHi instrs) (leaders : List Addr) :
    instrs.Pairwise fun a b => blockIndex leaders a.address ≤ blockIndex leaders b.address :=
  h.pairwise.imp fun hlt => blockIndex_mono hlt.le

/-- What follows an instruction that ends its block is in a later block. -/
theorem blockIndex_lt_of_endsBlock (h : Within fnLo fnHi instrs) {a b : DecodedInstr}
    (hab : Adjacent instrs a b) (hends : a.flow.EndsBlock) :
    blockIndex (leaderVec fnLo fnHi instrs) a.address <
      blockIndex (leaderVec fnLo fnHi instrs) b.address := by
  have hnext := h.next_eq hab
  have hlt := h.address_lt_next hab.mem_left
  have hinside := (h.address_inFunction hab.mem_right).2
  have hleader : a.next ∈ leaderVec fnLo fnHi instrs := by
    refine mem_leaderVec.mpr (Or.inr ⟨a, hab.mem_left, ?_⟩)
    rw [instrLeaders, if_neg (by rw [hnext]; exact UInt64.not_le.mpr hinside)]
    refine List.mem_append_right _ ?_
    cases hflow : a.flow with
    | branch target => exact List.mem_singleton_self _
    | conditionalBranch target => exact List.mem_singleton_self _
    | «return» => exact List.mem_singleton_self _
    | indirect => exact List.mem_singleton_self _
    | sequential => simp [hflow, Flow.EndsBlock] at hends
    | call => simp [hflow, Flow.EndsBlock] at hends
  refine (blockIndex_lt_iff (h.exists_leader hab.mem_left)).mpr ⟨a.next, hleader, hlt, ?_⟩
  rw [hnext]

/-- The blocks of instructions that tile the function partition their lines. -/
theorem partitions (h : Within fnLo fnHi instrs)
    (hids : (leaderVec fnLo fnHi instrs).length ≤ 2 ^ 32) :
    Partitions instrs (instrs.map DecodedInstr.line)
      (groupInstrs (leaderVec fnLo fnHi instrs) instrs) := by
  have hleads := h.leads hids
  have hordered := h.pairwise_blockIndex (leaderVec fnLo fnHi instrs)
  refine ⟨?_, ?_, ?_, ?_, ?_⟩
  -- the blocks one after the other are the instructions, as their blocks do not decrease
  · rw [List.flatMap_def, hleads.lines_groupInstrs, ← List.flatMap_def, ← List.map_flatMap]
    refine congrArg (List.map DecodedInstr.line) ?_
    refine (flatMap_filter_eq hordered _).trans (List.filter_eq_self.mpr fun instr hinstr => ?_)
    simpa using blockIndex_lt (h.exists_leader hinstr)
  · intro line hline
    obtain ⟨instr, hinstr, rfl⟩ := List.mem_map.mp hline
    -- every instruction has a leader at or before it, hence a block
    have hlt := blockIndex_lt (h.exists_leader hinstr)
    refine ⟨blockIndex (leaderVec fnLo fnHi instrs) instr.address, ?_, ?_⟩
    · refine ⟨_, by rw [hleads.getElem?_groupInstrs, List.getElem?_eq_getElem hlt]; rfl, ?_⟩
      refine List.mem_map_of_mem (List.mem_filter.mpr ⟨hinstr, ?_⟩)
      exact decide_eq_true rfl
    · rintro k ⟨block, hblock, hmem⟩
      obtain ⟨leader, -, rfl⟩ := hleads.getElem?_eq_some hblock
      obtain ⟨instr', hinstr', hline'⟩ := List.mem_map.mp hmem
      obtain ⟨hinstr', hindex⟩ := List.mem_filter.mp hinstr'
      obtain rfl := h.eq_of_line hinstr' hinstr hline'
      exact (of_decide_eq_true hindex).symm
  · intro k block hblock
    obtain ⟨leader, hleader, rfl⟩ := hleads.getElem?_eq_some hblock
    have hlt := (List.getElem?_eq_some_iff.mp hleader).1
    exact UInt32.toNat_ofNat_of_lt (hlt.trans_le hids)
  -- each block starts at its leader
  · have hstarts : (groupInstrs (leaderVec fnLo fnHi instrs) instrs).map
        BasicBlock.startAddress = leaderVec fnLo fnHi instrs := by
      refine List.ext_getElem? fun k => ?_
      rw [List.getElem?_map, hleads.getElem?_groupInstrs, Option.map_map]
      exact congrFun Option.map_id_fun' _
    refine List.pairwise_map.mp ?_
    rw [hstarts]
    exact pairwise_leaderVec.imp UInt64.lt_iff_toNat_lt.mpr
  · intro instr hinstr hends block hblock hline
    obtain ⟨k, hk⟩ := List.mem_iff_getElem?.mp hblock
    obtain ⟨leader, -, rfl⟩ := hleads.getElem?_eq_some hk
    obtain ⟨instr', hinstr', hline'⟩ := List.mem_map.mp hline
    obtain ⟨hinstr', hindex⟩ := List.mem_filter.mp hinstr'
    obtain rfl := h.eq_of_line hinstr' hinstr hline'
    -- the next instruction starts a block, so this one is the last in its own
    obtain rfl := of_decide_eq_true hindex
    change ((blockInstrs _ instrs _).map DecodedInstr.line).getLast? = _
    rw [List.getLast?_map, blockInstrs,
      (getLast?_filter_iff hordered h.nodup hinstr).mpr fun b hb =>
        h.blockIndex_lt_of_endsBlock hb hends]
    rfl

end Within

/-! ## The graph and the view -/

section View

variable (dis : Disassembler) (resolved : ResolvedAddress) (queriedAddress : Addr)
  (functionName language : String) (selfLookup : Addr → UInt64 × UInt64)

theorem decodeInstrs_within {dis : Disassembler} {resolved : ResolvedAddress}
    {selfLookup : Addr → UInt64 × UInt64}
    (hbase : resolved.baseAddress.toNat + resolved.bytes.length < 2 ^ 64)
    (hne : decodeInstrs dis resolved selfLookup ≠ []) :
    Within resolved.baseAddress (resolved.baseAddress + UInt64.ofNat resolved.bytes.length)
      (decodeInstrs dis resolved selfLookup) := by
  have hend := toNat_addressAt hbase (Nat.le_refl _)
  obtain ⟨hi, hle, htiles⟩ := decodeInstrs_tiles hbase hne
  exact ⟨hi, hle.trans_eq hend.symm, htiles⟩

theorem blocks_computeCfgUpdate
    (hne : decodeInstrs dis resolved selfLookup ≠ []) :
    (computeCfgUpdate dis resolved queriedAddress functionName language selfLookup).blocks =
      groupInstrs (leaderVec resolved.baseAddress
        (resolved.baseAddress + UInt64.ofNat resolved.bytes.length)
        (decodeInstrs dis resolved selfLookup)) (decodeInstrs dis resolved selfLookup) := by
  have hempty : (decodeInstrs dis resolved selfLookup).isEmpty = false :=
    List.isEmpty_eq_false_iff.mpr hne
  simp only [computeCfgUpdate, buildBlocksAndEdges, hempty, Bool.false_eq_true, if_false]

/-- The graph's blocks partition the disassembly view as long as their ids tell them apart: that is,
up to `2 ^ 32` blocks, and never beyond. -/
theorem computeCfgUpdate_partitions_iff
    (hbase : resolved.baseAddress.toNat + resolved.bytes.length < 2 ^ 64) :
    Partitions (decodeInstrs dis resolved selfLookup) (disassemble dis resolved selfLookup)
        (computeCfgUpdate dis resolved queriedAddress functionName language selfLookup).blocks ↔
      (computeCfgUpdate dis resolved queriedAddress functionName language
        selfLookup).blocks.length ≤ 2 ^ 32 := by
  constructor
  · exact Partitions.length_le
  · intro hlen
    rw [← lines_decodeInstrs]
    by_cases hne : decodeInstrs dis resolved selfLookup = []
    · have hblocks : (computeCfgUpdate dis resolved queriedAddress functionName language
          selfLookup).blocks = [] := by
        simp [computeCfgUpdate, buildBlocksAndEdges, hne]
      rw [hblocks, hne]
      exact ⟨rfl, by simp, by simp, List.Pairwise.nil, by simp⟩
    · rw [blocks_computeCfgUpdate dis resolved queriedAddress functionName language selfLookup hne]
        at hlen ⊢
      rw [length_groupInstrs] at hlen
      exact (decodeInstrs_within hbase hne).partitions hlen

end View

/-! ## A short function and one with too many blocks -/

/-- Two instructions: a branch over nothing and a no-op. -/
def simpleBranch : ResolvedAddress :=
  { binaryPath := ""
    arch := some "aarch64"
    functionName := "test"
    language := .unknown
    baseAddress := 0x1000
    endAddress := 0x1008
    bytes := [0x01, 0x00, 0x00, 0x14, 0x1f, 0x20, 0x03, 0xd5]
    fnStartSvma := 0x1000
    image := none }

/-- A decoder that knows the two instructions of `simpleBranch`. -/
def simpleDisassembler : Disassembler :=
  { targetArch := .aarch64
    a64 := fun bytes =>
      if bytes = [0x01, 0x00, 0x00, 0x14] then
        .ok { text := "b $+0x4", opcode := .b, operands := fun _ => .pcOffset 4 }
      else .ok { text := "nop", opcode := .other, operands := fun _ => .other }
    amd64 := fun _ => .error "InvalidOpcode"
    highlightLine := fun text => [{ text := text, kind := .plain }] }

theorem simpleBranch_partitions :
    Partitions (decodeInstrs simpleDisassembler simpleBranch fun _ => (0, 0))
      (disassemble simpleDisassembler simpleBranch fun _ => (0, 0))
      (computeCfgUpdate simpleDisassembler simpleBranch 0x1000 "test" "rust"
        fun _ => (0, 0)).blocks :=
  (computeCfgUpdate_partitions_iff simpleDisassembler simpleBranch 0x1000 "test" "rust"
    (fun _ => (0, 0)) (by decide +kernel)).mpr (by decide +kernel)

/-- Where every instruction ends its block, there are at least as many blocks as instructions. -/
theorem Within.length_le {fnLo fnHi : Addr} {instrs : List DecodedInstr}
    (h : Within fnLo fnHi instrs) (hall : ∀ instr ∈ instrs, instr.flow.EndsBlock) :
    instrs.length ≤ (leaderVec fnLo fnHi instrs).length := by
  set index := fun instr : DecodedInstr =>
    blockIndex (leaderVec fnLo fnHi instrs) instr.address with hindex
  have htrans : IsTrans DecodedInstr fun a b => index a < index b := ⟨fun _ _ _ => Nat.lt_trans⟩
  have hrising : instrs.Pairwise fun a b => index a < index b := by
    rw [← List.isChain_iff_pairwise, List.isChain_iff_forall_rel_of_append_cons_cons]
    rintro a b before after hsplit
    have hab : Adjacent instrs a b := by
      rw [hsplit]
      exact adjacent_append_cons_cons before after a b
    exact h.blockIndex_lt_of_endsBlock hab (hall a hab.mem_left)
  have hnodup : (instrs.map index).Nodup := List.pairwise_map.mpr (hrising.imp Nat.ne_of_lt)
  have hsubset : instrs.map index ⊆ List.range (leaderVec fnLo fnHi instrs).length := by
    intro k hk
    obtain ⟨instr, hinstr, rfl⟩ := List.mem_map.mp hk
    exact List.mem_range.mpr (blockIndex_lt (h.exists_leader hinstr))
  have hle := (hnodup.subperm hsubset).length_le
  rwa [List.length_map, List.length_range] at hle

/-- A function of `n` return instructions. -/
def manyReturns (n : ℕ) : ResolvedAddress :=
  { binaryPath := ""
    arch := some "aarch64"
    functionName := "returns"
    language := .unknown
    baseAddress := 0
    endAddress := UInt64.ofNat (4 * n)
    bytes := List.replicate (4 * n) 0
    fnStartSvma := 0
    image := none }

/-- A disassembler that reads every word as a return of aarch64. -/
def returnsOnly : Disassembler :=
  { targetArch := .aarch64
    a64 := fun _ => .ok { text := "ret", opcode := .ret, operands := fun _ => .other }
    amd64 := fun _ => .error "InvalidOpcode"
    highlightLine := fun text => [{ text := text, kind := .plain }] }

theorem length_decodeAarch64 (dis : Disassembler) (resolved : ResolvedAddress)
    (selfLookup : Addr → UInt64 × UInt64) (offset : ℕ) :
    (decodeAarch64 dis resolved selfLookup offset).length =
      (resolved.bytes.length - offset) / 4 := by
  fun_induction decodeAarch64 dis resolved selfLookup offset with
  | case1 offset hlt address asm flow hasm ih =>
      rw [List.length_cons, ih]
      omega
  | case2 offset hge =>
      rw [List.length_nil]
      omega

theorem flow_returnsOnly (resolved : ResolvedAddress) (selfLookup : Addr → UInt64 × UInt64)
    (offset : ℕ) :
    ∀ instr ∈ decodeAarch64 returnsOnly resolved selfLookup offset, instr.flow = .return := by
  fun_induction decodeAarch64 returnsOnly resolved selfLookup offset with
  | case1 offset hlt address asm flow hasm ih =>
      intro instr hinstr
      rcases List.mem_cons.mp hinstr with rfl | hinstr
      · exact (congrArg Prod.snd hasm).symm
      · exact ih instr hinstr
  | case2 offset hge => simp

theorem length_manyReturns (n : ℕ) : (manyReturns n).bytes.length = 4 * n :=
  List.length_replicate

theorem length_decodeInstrs_manyReturns (n : ℕ) (selfLookup : Addr → UInt64 × UInt64) :
    (decodeInstrs returnsOnly (manyReturns n) selfLookup).length = n := by
  change (decodeAarch64 returnsOnly (manyReturns n) selfLookup 0).length = n
  rw [length_decodeAarch64, length_manyReturns]
  omega

/-- A function of `2 ^ 32 + 1` returns has two blocks with the id 0. -/
theorem manyReturns_not_partitions :
    ¬ ∀ (dis : Disassembler) (resolved : ResolvedAddress) (queriedAddress : Addr)
      (functionName language : String) (selfLookup : Addr → UInt64 × UInt64),
      resolved.baseAddress.toNat + resolved.bytes.length < 2 ^ 64 →
      Partitions (decodeInstrs dis resolved selfLookup) (disassemble dis resolved selfLookup)
        (computeCfgUpdate dis resolved queriedAddress functionName language
          selfLookup).blocks := by
  intro hclaim
  have hbase : (manyReturns (2 ^ 32 + 1)).baseAddress.toNat +
      (manyReturns (2 ^ 32 + 1)).bytes.length < 2 ^ 64 := by
    rw [length_manyReturns]
    change 0 + 4 * (2 ^ 32 + 1) < 2 ^ 64
    omega
  have hlen := length_decodeInstrs_manyReturns (2 ^ 32 + 1) fun _ => (0, 0)
  have hne : decodeInstrs returnsOnly (manyReturns (2 ^ 32 + 1)) (fun _ => (0, 0)) ≠ [] := by
    intro hnil
    rw [hnil, List.length_nil] at hlen
    omega
  have hblocks := (hclaim returnsOnly (manyReturns (2 ^ 32 + 1)) 0 "returns" "rust"
    (fun _ => (0, 0)) hbase).length_le
  have hmany := (decodeInstrs_within hbase hne).length_le fun instr hinstr => by
    rw [flow_returnsOnly (manyReturns (2 ^ 32 + 1)) (fun _ => (0, 0)) 0 instr hinstr]
    trivial
  rw [blocks_computeCfgUpdate _ _ _ _ _ _ hne, length_groupInstrs] at hblocks
  omega

end Stax.Live
