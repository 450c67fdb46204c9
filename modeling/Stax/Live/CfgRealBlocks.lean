/-
# Stax.Live.CfgRealBlocks — when the blocks of a graph are blocks of instructions.

A leader makes a block whether or not an instruction is at its address.  So a branch into the middle
of an instruction, or a return in front of bytes that are no whole instruction, gives a block
without its first instruction, often without any.  All blocks of a graph start with the instruction
at their address exactly if every leader is the address of an instruction, and there are not too
many for the ids.  The base address may be such that the function wraps around the address space.
-/
import Stax.Live.CfgEdges

namespace Stax.Live

open Stax.Binaries.BinaryRegistry (ResolvedAddress)
open Stax.Lib Stax.Lib.Predecessor Stax.Lib.Cuts

/-! ## Real blocks -/

/-- A block that has a line, the first at its start address. -/
def BasicBlock.Real (block : BasicBlock) : Prop :=
  block.lines.head?.map AnnotatedLine.address = some block.startAddress

instance (block : BasicBlock) : Decidable block.Real := inferInstanceAs (Decidable (_ = _))

/-- All blocks are real, and all edges join such blocks. -/
structure RealGraph (blocks : List BasicBlock) (edges : List CfgEdge) : Prop where
  starts : ∀ block ∈ blocks, block.Real
  joins : ∀ edge ∈ edges,
    (∃ source ∈ blocks, source.id = edge.fromId ∧ source.Real) ∧
      ∃ dest ∈ blocks, dest.id = edge.toId ∧ dest.Real

/-- Where blocks are to start: at the first instruction, the targets inside the function, and behind
an instruction that ends its block. -/
def IsLeader (fnLo fnHi : Addr) (instrs : List DecodedInstr) (addr : Addr) : Prop :=
  (∃ first, instrs.head? = some first ∧ first.address = addr) ∨
    ∃ instr ∈ instrs,
      (instr.flow.target? = some addr ∧ InFunction fnLo fnHi addr) ∨
        (instr.flow.EndsBlock ∧ instr.next = addr ∧ addr < fnHi)

section Leaders

variable {fnLo fnHi : Addr} {instrs : List DecodedInstr}

/-- The leaders an instruction asks for, by how it passes control on. -/
theorem mem_instrLeaders {instr : DecodedInstr} {addr : Addr} :
    addr ∈ instrLeaders fnLo fnHi instr ↔
      (instr.flow.target? = some addr ∧ InFunction fnLo fnHi addr) ∨
        (instr.flow.EndsBlock ∧ instr.next = addr ∧ addr < fnHi) := by
  have hnext : addr ∈ (if fnHi ≤ instr.next then [] else [instr.next]) ↔
      instr.next = addr ∧ addr < fnHi := by
    split
    · rename_i hle
      refine iff_of_false List.not_mem_nil ?_
      rintro ⟨rfl, hlt⟩
      exact UInt64.not_le.mpr hlt hle
    · rename_i hlt
      rw [List.mem_singleton]
      constructor
      · rintro rfl
        exact ⟨rfl, UInt64.not_le.mp hlt⟩
      · rintro ⟨heq, -⟩
        exact heq.symm
  have htarget (target : Addr) :
      addr ∈ (if InFunction fnLo fnHi target then [target] else []) ↔
        target = addr ∧ InFunction fnLo fnHi addr := by
    split
    · rename_i hin
      rw [List.mem_singleton]
      constructor
      · rintro rfl
        exact ⟨rfl, hin⟩
      · rintro ⟨heq, -⟩
        exact heq.symm
    · rename_i hout
      refine iff_of_false List.not_mem_nil ?_
      rintro ⟨rfl, hin⟩
      exact hout hin
  unfold instrLeaders
  rw [List.mem_append]
  cases hflow : instr.flow with
  | branch target => simp only [htarget, hnext, Flow.target?, Flow.EndsBlock, Option.some_inj,
      true_and]
  | conditionalBranch target => simp only [htarget, hnext, Flow.target?, Flow.EndsBlock,
      Option.some_inj, true_and]
  | «return» => simp [hnext, Flow.target?, Flow.EndsBlock]
  | indirect => simp [hnext, Flow.target?, Flow.EndsBlock]
  | sequential => simp [Flow.target?, Flow.EndsBlock]
  | call => simp [Flow.target?, Flow.EndsBlock]

theorem mem_leaderVec_iff {addr : Addr} :
    addr ∈ leaderVec fnLo fnHi instrs ↔ IsLeader fnLo fnHi instrs addr := by
  rw [mem_leaderVec]
  unfold IsLeader
  simp only [mem_instrLeaders]

theorem ncard_isLeader :
    {addr | IsLeader fnLo fnHi instrs addr}.ncard = (leaderVec fnLo fnHi instrs).length := by
  classical
  have hnodup : (leaderVec fnLo fnHi instrs).Nodup :=
    (perm_sortByKey _ _).nodup_iff.mpr (List.nodup_dedup _)
  have hset : {addr | IsLeader fnLo fnHi instrs addr} =
      ((leaderVec fnLo fnHi instrs).toFinset : Set Addr) := by
    ext addr
    rw [Finset.mem_coe, List.mem_toFinset, mem_leaderVec_iff]
    rfl
  rw [hset, Set.ncard_coe_finset, List.toFinset_card_of_nodup hnodup]

end Leaders

/-! ## Instructions in the order of their offsets -/

/-- How far an instruction is behind the start of the function. -/
def offsetOf (base : Addr) (instr : DecodedInstr) : ℕ := (instr.address - base).toNat

/-- Instructions from an offset on, in order. -/
structure FromOffset (base : Addr) (offset : ℕ) (instrs : List DecodedInstr) : Prop where
  le : ∀ instr ∈ instrs, offset ≤ offsetOf base instr
  rising : instrs.Pairwise fun a b => offsetOf base a < offsetOf base b

theorem FromOffset.nil (base : Addr) (offset : ℕ) : FromOffset base offset [] :=
  ⟨List.forall_mem_nil _, List.Pairwise.nil⟩

theorem FromOffset.cons {base : Addr} {offset later : ℕ} {instr : DecodedInstr}
    {instrs : List DecodedInstr} (hinstr : offsetOf base instr = offset) (hlt : offset < later)
    (h : FromOffset base later instrs) : FromOffset base offset (instr :: instrs) := by
  constructor
  · rw [List.forall_mem_cons]
    refine ⟨Nat.le_of_eq hinstr.symm, ?_⟩
    intro b hb
    exact Nat.le_of_lt (Nat.lt_of_lt_of_le hlt (h.le b hb))
  · rw [List.pairwise_cons]
    refine ⟨?_, h.rising⟩
    intro b hb
    rw [hinstr]
    exact Nat.lt_of_lt_of_le hlt (h.le b hb)

section Decode

variable {dis : Disassembler} {resolved : ResolvedAddress} {selfLookup : Addr → UInt64 × UInt64}

theorem offsetOf_decodedInstr {offset : ℕ} (hoffset : offset < 2 ^ 64) (len : ℕ) (asm : String)
    (flow : Flow) :
    offsetOf resolved.baseAddress
      (decodedInstr dis selfLookup (addressAt resolved offset) len asm flow) = offset := by
  show (addressAt resolved offset - resolved.baseAddress).toNat = offset
  have hsub : addressAt resolved offset - resolved.baseAddress = UInt64.ofNat offset := by
    unfold addressAt
    rw [UInt64.add_comm, UInt64.add_sub_cancel]
  rw [hsub, UInt64.toNat_ofNat_of_lt' hoffset]

theorem decodeAarch64_fromOffset (hlen : resolved.bytes.length < 2 ^ 64) (offset : ℕ) :
    FromOffset resolved.baseAddress offset (decodeAarch64 dis resolved selfLookup offset) := by
  fun_induction decodeAarch64 dis resolved selfLookup offset with
  | case1 offset hlt address asm flow hasm ih =>
      exact .cons (offsetOf_decodedInstr (by omega) _ _ _) (by omega) ih
  | case2 offset hge => exact .nil _ _

theorem decodeAmd64_fromOffset (hlen : resolved.bytes.length < 2 ^ 64) (offset : ℕ) :
    FromOffset resolved.baseAddress offset (decodeAmd64 dis resolved selfLookup offset) := by
  fun_induction decodeAmd64 dis resolved selfLookup offset with
  | case1 offset hlt address instr hinstr next ih =>
      exact .cons (offsetOf_decodedInstr (by omega) _ _ _) (by omega) ih
  | case2 offset hlt address err herr ih =>
      exact .cons (offsetOf_decodedInstr (by omega) _ _ _) (by omega) ih
  | case3 offset hge => exact .nil _ _

theorem decodeInstrs_fromOffset (hlen : resolved.bytes.length < 2 ^ 64) :
    FromOffset resolved.baseAddress 0 (decodeInstrs dis resolved selfLookup) := by
  unfold decodeInstrs
  split
  · exact decodeAarch64_fromOffset hlen 0
  · exact decodeAmd64_fromOffset hlen 0
  · exact .nil _ _

/-- The first instruction is at the start of the function. -/
theorem head_decodeInstrs {first : DecodedInstr}
    (h : (decodeInstrs dis resolved selfLookup).head? = some first) :
    first.address = resolved.baseAddress := by
  have hzero : addressAt resolved 0 = resolved.baseAddress := by
    unfold addressAt
    exact UInt64.add_zero _
  unfold decodeInstrs at h
  split at h
  · rw [decodeAarch64] at h
    split at h
    · cases h
      exact hzero
    · cases h
  · rw [decodeAmd64] at h
    split at h
    · split at h
      · cases h
        exact hzero
      · cases h
        exact hzero
    · cases h
  · cases h

end Decode

/-! ## The blocks of instructions in order -/

section Blocks

variable {fnLo fnHi : Addr} {instrs : List DecodedInstr}

theorem cell_leader {leaders : List Addr}
    (hleaders : leaders.Pairwise fun a b => a.toNat < b.toNat) {k : ℕ} {leader : Addr}
    (hleader : leaders[k]? = some leader) :
    cell (leaders.map UInt64.toNat) leader.toNat = k + 1 := by
  obtain ⟨hk, hget⟩ := List.getElem?_eq_some_iff.mp hleader
  have hk' : k < (leaders.map UInt64.toNat).length := by rwa [List.length_map]
  have hcell := cell_getElem (List.pairwise_map.mpr hleaders) hk'
  rwa [List.getElem_map, hget] at hcell

/-- An address is in the block of its cell. -/
theorem blockIdFor_eq_some_iff {leaders : List Addr}
    (hleaders : leaders.Pairwise fun a b => a.toNat < b.toNat) (hids : leaders.length ≤ 2 ^ 32)
    {addr : Addr} {k : ℕ} :
    (blockIdFor leaders addr).map UInt32.toNat = some k ↔
      cell (leaders.map UInt64.toNat) addr.toNat = k + 1 := by
  by_cases hsome : ∃ leader ∈ leaders, leader.toNat ≤ addr.toNat
  · have hpos := cell_pos hsome
    rw [blockIdFor_eq hleaders hsome, Option.map_some, toNat_blockIndex hids hsome,
      Option.some_inj]
    unfold blockIndex
    omega
  · have hzero : cell (leaders.map UInt64.toNat) addr.toNat = 0 := by
      by_contra hne
      obtain ⟨c, hc, hle⟩ := cell_pos_iff.mp (Nat.pos_of_ne_zero hne)
      obtain ⟨leader, hleader, rfl⟩ := List.mem_map.mp hc
      exact hsome ⟨leader, hleader, hle⟩
    have hsearch := cell_eq_of_binarySearch hleaders addr.toNat
    unfold blockIdFor
    cases hfound : binarySearch UInt64.toNat addr.toNat leaders with
    | ok i =>
        rw [hfound, hzero] at hsearch
        exact absurd hsearch (Nat.succ_ne_zero i).symm
    | error i =>
        rw [hfound, hzero] at hsearch
        have hi : i = 0 := hsearch.symm
        rw [hi, hzero]
        simp

/-- Between instructions in order that share a block, the one at the leader comes first: none before
it is at a higher address but behind the start of the function, which is a leader. -/
theorem head?_filter_leader {base : Addr} (horder : FromOffset base 0 instrs)
    (hfirst : ∀ first, instrs.head? = some first → first.address = base)
    (hids : (leaderVec fnLo fnHi instrs).length ≤ 2 ^ 32) {k : ℕ} {a : DecodedInstr}
    (ha : a ∈ instrs) (hleader : (leaderVec fnLo fnHi instrs)[k]? = some a.address) :
    (instrs.filter fun instr =>
      (blockIdFor (leaderVec fnLo fnHi instrs) instr.address).map UInt32.toNat =
        some k).head? = some a := by
  have hcell := cell_leader pairwise_leaderVec hleader
  have hmem : a.address ∈ leaderVec fnLo fnHi instrs := List.mem_of_getElem? hleader
  obtain ⟨before, after, hsplit⟩ := List.append_of_mem ha
  have hbase : base ∈ leaderVec fnLo fnHi instrs := by
    rw [mem_leaderVec_iff]
    cases hhead : instrs.head? with
    | none =>
        rw [List.head?_eq_none_iff] at hhead
        rw [hhead] at ha
        cases ha
    | some first => exact Or.inl ⟨first, hhead, hfirst first hhead⟩
  rw [List.head?_filter, List.find?_eq_some_iff_append]
  refine ⟨decide_eq_true ((blockIdFor_eq_some_iff pairwise_leaderVec hids).mpr hcell), before, after,
    hsplit, ?_⟩
  intro b hb
  rw [Bool.not_eq_true', decide_eq_false_iff_not, blockIdFor_eq_some_iff pairwise_leaderVec hids]
  intro hsame
  have hoffset : offsetOf base b < offsetOf base a := by
    have hrising := horder.rising
    rw [hsplit, List.pairwise_append] at hrising
    exact hrising.2.2 b hb a List.mem_cons_self
  unfold offsetOf at hoffset
  rw [UInt64.toNat_sub, UInt64.toNat_sub] at hoffset
  have hle : a.address.toNat ≤ b.address.toNat := by
    by_contra hlt
    have hcells : cell ((leaderVec fnLo fnHi instrs).map UInt64.toNat) b.address.toNat <
        cell ((leaderVec fnLo fnHi instrs).map UInt64.toNat) a.address.toNat :=
      cell_lt_cell_iff.mpr ⟨a.address.toNat, List.mem_map_of_mem hmem, by omega, Nat.le_refl _⟩
    omega
  have ha64 := a.address.toNat_lt
  have hb64 := b.address.toNat_lt
  have hbase64 := base.toNat_lt
  have hcells : cell ((leaderVec fnLo fnHi instrs).map UInt64.toNat) a.address.toNat <
      cell ((leaderVec fnLo fnHi instrs).map UInt64.toNat) b.address.toNat :=
    cell_lt_cell_iff.mpr ⟨base.toNat, List.mem_map_of_mem hbase, by omega, by omega⟩
  omega

/-- An edge goes to the block of some leader. -/
theorem toId_of_mem_edgeTo {leaders : List Addr}
    (hleaders : leaders.Pairwise fun a b => a.toNat < b.toNat) {block : BasicBlock}
    {kind : CfgEdgeKind} {addr : Addr} {edge : CfgEdge}
    (h : edge ∈ edgeTo leaders block kind addr) :
    ∃ k < leaders.length, edge.toId = UInt32.ofNat k := by
  have hle := cell_le_length (leaders.map UInt64.toNat) addr.toNat
  have hsearch := cell_eq_of_binarySearch hleaders addr.toNat
  rw [List.length_map] at hle
  unfold edgeTo blockIdFor at h
  cases hfound : binarySearch UInt64.toNat addr.toNat leaders with
  | ok i =>
      rw [hfound] at h hsearch
      obtain rfl := List.mem_singleton.mp h
      exact ⟨i, by rw [hsearch] at hle; exact hle, rfl⟩
  | error i =>
      rw [hfound] at h hsearch
      cases i with
      | zero => cases h
      | succ i =>
          obtain rfl := List.mem_singleton.mp h
          exact ⟨i, by rw [hsearch] at hle; exact hle, rfl⟩

theorem toId_of_mem_blockEdges {leaders : List Addr}
    (hleaders : leaders.Pairwise fun a b => a.toNat < b.toNat) {block : BasicBlock}
    {edge : CfgEdge} (h : edge ∈ blockEdges fnLo fnHi leaders instrs block) :
    ∃ k < leaders.length, edge.toId = UInt32.ofNat k := by
  have hedgeTo : ∀ (kind : CfgEdgeKind) (addr : Addr), edge ∈ edgeTo leaders block kind addr →
      ∃ k < leaders.length, edge.toId = UInt32.ofNat k :=
    fun _ _ => toId_of_mem_edgeTo hleaders
  unfold blockEdges at h
  split at h
  · simp at h
  split at h
  · simp at h
  unfold edgesAfter at h
  split at h <;> grind

/-- The graph is real exactly if all leaders are instructions, and few enough. -/
theorem realGraph_iff {base : Addr} (horder : FromOffset base 0 instrs)
    (hfirst : ∀ first, instrs.head? = some first → first.address = base) :
    RealGraph (graphBlocks fnLo fnHi instrs) (graphEdges fnLo fnHi instrs) ↔
      (∀ addr, IsLeader fnLo fnHi instrs addr → ∃ instr ∈ instrs, instr.address = addr) ∧
        {addr | IsLeader fnLo fnHi instrs addr}.ncard ≤ 2 ^ 32 := by
  rw [ncard_isLeader]
  have hblock (k : ℕ) : (graphBlocks fnLo fnHi instrs)[k]? = _ := getElem?_groupInstrs k
  constructor
  · intro h
    constructor
    · intro addr haddr
      obtain ⟨k, hk⟩ := List.mem_iff_getElem?.mp (mem_leaderVec_iff.mpr haddr)
      have hget := hblock k
      rw [hk, Option.map_some] at hget
      have hreal := h.starts _ (List.mem_of_getElem? hget)
      unfold BasicBlock.Real at hreal
      dsimp only at hreal
      rw [Option.map_eq_some_iff] at hreal
      obtain ⟨line, hline, haddress⟩ := hreal
      obtain ⟨instr, hinstr, rfl⟩ := List.mem_map.mp (List.mem_of_head? hline)
      refine ⟨instr, List.mem_of_mem_filter hinstr, ?_⟩
      rw [← instr.line_address, haddress]
    · -- no line is put into a block with too high an index
      by_contra hmany
      have hlt : 2 ^ 32 < (leaderVec fnLo fnHi instrs).length := Nat.lt_of_not_le hmany
      have hget := hblock (2 ^ 32)
      rw [List.getElem?_eq_getElem hlt, Option.map_some] at hget
      have hreal := h.starts _ (List.mem_of_getElem? hget)
      unfold BasicBlock.Real at hreal
      dsimp only at hreal
      rw [Option.map_eq_some_iff] at hreal
      obtain ⟨line, hline, -⟩ := hreal
      obtain ⟨instr, hinstr, -⟩ := List.mem_map.mp (List.mem_of_head? hline)
      have hid := of_decide_eq_true (List.mem_filter.mp hinstr).2
      rw [Option.map_eq_some_iff] at hid
      obtain ⟨id, -, hid⟩ := hid
      have hsmall := id.toNat_lt
      omega
  · rintro ⟨hinstrs, hids⟩
    have hreal : ∀ block ∈ graphBlocks fnLo fnHi instrs, block.Real := by
      intro block hmem
      obtain ⟨k, hk⟩ := List.mem_iff_getElem?.mp hmem
      rw [hblock k, Option.map_eq_some_iff] at hk
      obtain ⟨leader, hleader, rfl⟩ := hk
      obtain ⟨a, ha, rfl⟩ :=
        hinstrs leader (mem_leaderVec_iff.mp (List.mem_of_getElem? hleader))
      unfold BasicBlock.Real
      dsimp only
      rw [List.head?_map, head?_filter_leader horder hfirst hids ha hleader, Option.map_some,
        Option.map_some, a.line_address]
    refine ⟨hreal, ?_⟩
    intro edge hedge
    obtain ⟨source, hsource, hedge⟩ := List.mem_flatMap.mp hedge
    refine ⟨⟨source, hsource, (IdsFit.fromId_of_mem_blockEdges hedge).symm, hreal source hsource⟩, ?_⟩
    obtain ⟨k, hk, hid⟩ := toId_of_mem_blockEdges pairwise_leaderVec hedge
    have hget := hblock k
    rw [List.getElem?_eq_getElem hk, Option.map_some] at hget
    exact ⟨_, List.mem_of_getElem? hget, hid.symm, hreal _ (List.mem_of_getElem? hget)⟩

end Blocks

/-- The end of a function, where its bytes end. -/
def fnEnd (resolved : ResolvedAddress) : Addr :=
  resolved.baseAddress + UInt64.ofNat resolved.bytes.length

/-- The blocks of a function's graph are real, and its edges join them, exactly if every leader is
the address of a decoded instruction and there are at most `2 ^ 32` leaders. -/
theorem computeCfgUpdate_real_iff (dis : Disassembler) (resolved : ResolvedAddress)
    (queriedAddress : Addr) (functionName language : String)
    (selfLookup : Addr → UInt64 × UInt64) (hlen : resolved.bytes.length < 2 ^ 64) :
    RealGraph
        (computeCfgUpdate dis resolved queriedAddress functionName language selfLookup).blocks
        (computeCfgUpdate dis resolved queriedAddress functionName language selfLookup).edges ↔
      (∀ addr, IsLeader resolved.baseAddress (fnEnd resolved)
          (decodeInstrs dis resolved selfLookup) addr →
        ∃ instr ∈ decodeInstrs dis resolved selfLookup, instr.address = addr) ∧
      {addr | IsLeader resolved.baseAddress (fnEnd resolved)
        (decodeInstrs dis resolved selfLookup) addr}.ncard ≤ 2 ^ 32 := by
  by_cases hne : decodeInstrs dis resolved selfLookup = []
  -- without instructions there are neither blocks nor leaders
  · have hgraph : buildBlocksAndEdges resolved.baseAddress (fnEnd resolved)
        (decodeInstrs dis resolved selfLookup) = ([], []) := by
      rw [hne]
      rfl
    have hleaders : ∀ addr, ¬ IsLeader resolved.baseAddress (fnEnd resolved)
        (decodeInstrs dis resolved selfLookup) addr := by
      rintro addr (⟨first, hfirst, -⟩ | ⟨instr, hinstr, -⟩)
      · rw [hne] at hfirst
        cases hfirst
      · rw [hne] at hinstr
        cases hinstr
    have hblocks : RealGraph [] [] := ⟨List.forall_mem_nil _, List.forall_mem_nil _⟩
    unfold computeCfgUpdate
    dsimp only
    unfold fnEnd at hgraph hleaders ⊢
    rw [hgraph]
    refine iff_of_true hblocks ⟨fun addr haddr => absurd haddr (hleaders addr), ?_⟩
    have hempty : {addr | IsLeader resolved.baseAddress
        (resolved.baseAddress + UInt64.ofNat resolved.bytes.length)
        (decodeInstrs dis resolved selfLookup) addr} = ∅ :=
      Set.eq_empty_iff_forall_notMem.mpr hleaders
    rw [hempty, Set.ncard_empty]
    exact Nat.zero_le _
  · have hgraph : buildBlocksAndEdges resolved.baseAddress (fnEnd resolved)
        (decodeInstrs dis resolved selfLookup) =
          (graphBlocks resolved.baseAddress (fnEnd resolved)
              (decodeInstrs dis resolved selfLookup),
            graphEdges resolved.baseAddress (fnEnd resolved)
              (decodeInstrs dis resolved selfLookup)) := buildBlocksAndEdges_eq hne
    unfold computeCfgUpdate
    dsimp only
    unfold fnEnd at hgraph ⊢
    rw [hgraph]
    exact realGraph_iff (decodeInstrs_fromOffset hlen) fun first => head_decodeInstrs

theorem simpleBranch_real :
    RealGraph
      (computeCfgUpdate simpleDisassembler simpleBranch 0x1000 "test" "rust"
        fun _ => (0, 0)).blocks
      (computeCfgUpdate simpleDisassembler simpleBranch 0x1000 "test" "rust"
        fun _ => (0, 0)).edges := by
  refine (computeCfgUpdate_real_iff simpleDisassembler simpleBranch 0x1000 "test" "rust"
    (fun _ => (0, 0)) (by decide +kernel)).mpr ⟨?_, ?_⟩
  · intro addr haddr
    have hleaders : leaderVec simpleBranch.baseAddress (fnEnd simpleBranch)
        (decodeInstrs simpleDisassembler simpleBranch fun _ => (0, 0)) =
          (decodeInstrs simpleDisassembler simpleBranch fun _ => (0, 0)).map
            DecodedInstr.address := by
      decide +kernel
    have hmem := mem_leaderVec_iff.mpr haddr
    rw [hleaders] at hmem
    exact List.mem_map.mp hmem
  · rw [ncard_isLeader]
    decide +kernel

/-- A return, and one byte that is no instruction. -/
def returnAndTail : ResolvedAddress :=
  { binaryPath := ""
    arch := some "aarch64"
    functionName := "tail"
    language := .unknown
    baseAddress := 0x1000
    endAddress := 0x1005
    bytes := [0xc0, 0x03, 0x5f, 0xd6, 0x00]
    fnStartSvma := 0x1000
    image := none }

theorem returnAndTail_not_real :
    ¬ RealGraph
      (computeCfgUpdate returnsOnly returnAndTail 0x1000 "tail" "rust" fun _ => (0, 0)).blocks
      (computeCfgUpdate returnsOnly returnAndTail 0x1000 "tail" "rust" fun _ => (0, 0)).edges := by
  intro h
  exact absurd h.starts (by decide +kernel)

end Stax.Live
