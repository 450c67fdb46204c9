/-
# Stax.Live.CfgEdges — the edges of a graph are the ways control passes between blocks.

Where the instructions tile the function and its targets are instructions, every target is the first
instruction of a block.  Control that passes from an instruction to the one after it stays in the
block, or the first is the last of its block and the second the first of another; control that
jumps comes from the last of a block and arrives at the first of one.  The edges are exactly the
passages that do not stay in a block.
-/
import Stax.Live.CfgPartition

namespace Stax.Live

open Stax.Lib Stax.Lib.Predecessor Stax.Lib.Cuts

/-! ## What the edges are to say -/

/-- Control can pass from one instruction to another, in one of the ways an edge can stand for. -/
def Passes (instrs : List DecodedInstr) (a b : DecodedInstr) : CfgEdgeKind → Prop
  | .fallthrough =>
    (a.flow = .sequential ∨ ∃ target, a.flow = .conditionalBranch target) ∧ Adjacent instrs a b
  | .call => a.flow = .call ∧ Adjacent instrs a b
  | .branch => a.flow = .branch b.address
  | .conditionalBranch => a.flow = .conditionalBranch b.address

/-- The ways of an instruction by how it passes control on. -/
theorem passes_iff_of_flow {instrs : List DecodedInstr} {a b : DecodedInstr}
    {kind : CfgEdgeKind} :
    Passes instrs a b kind ↔
      match a.flow with
      | .sequential => kind = .fallthrough ∧ Adjacent instrs a b
      | .call => kind = .call ∧ Adjacent instrs a b
      | .branch target => kind = .branch ∧ b.address = target
      | .conditionalBranch target =>
        (kind = .conditionalBranch ∧ b.address = target) ∨
          (kind = .fallthrough ∧ Adjacent instrs a b)
      | .return | .indirect => False := by
  cases hflow : a.flow <;> cases kind <;> simp [Passes, hflow, eq_comm]

/-- One instruction follows the other in the lines of a block. -/
def Follows (blocks : List BasicBlock) (a b : DecodedInstr) : Prop :=
  ∃ block ∈ blocks, Adjacent block.lines a.line b.line

/-- An edge joins a block that ends with one instruction to a block that starts with the other. -/
def Linked (blocks : List BasicBlock) (edges : List CfgEdge) (a b : DecodedInstr)
    (kind : CfgEdgeKind) : Prop :=
  ∃ source ∈ blocks, ∃ dest ∈ blocks, source.lines.getLast? = some a.line ∧
    dest.lines.head? = some b.line ∧
      { fromId := source.id, toId := dest.id, kind := kind } ∈ edges

/-- The graph says where control passes and how, and nothing else. -/
structure Simulates (instrs : List DecodedInstr) (blocks : List BasicBlock)
    (edges : List CfgEdge) : Prop where
  passes_iff : ∀ a ∈ instrs, ∀ b ∈ instrs,
    (∃ kind, Passes instrs a b kind) ↔ Follows blocks a b ∨ ∃ kind, Linked blocks edges a b kind
  linked_iff : ∀ a ∈ instrs, ∀ b ∈ instrs, ∀ kind,
    Linked blocks edges a b kind ↔ Passes instrs a b kind ∧ ¬ Follows blocks a b
  only : ∀ edge ∈ edges, ∃ a ∈ instrs, ∃ b ∈ instrs, ∃ source ∈ blocks, ∃ dest ∈ blocks,
    source.lines.getLast? = some a.line ∧ dest.lines.head? = some b.line ∧
      edge.fromId = source.id ∧ edge.toId = dest.id ∧ Passes instrs a b edge.kind
  nodup : edges.Nodup

/-- Instructions that tile the function, with targets that are instructions if they are in it. -/
structure WellFormed (fnLo fnHi : Addr) (instrs : List DecodedInstr) : Prop where
  tiles : TilesRange fnLo.toNat fnHi.toNat instrs
  targets : ∀ a ∈ instrs, ∀ target, a.flow.target? = some target → InFunction fnLo fnHi target →
    ∃ b ∈ instrs, b.address = target

namespace WellFormed

variable {fnLo fnHi : Addr} {instrs : List DecodedInstr}

theorem within (h : WellFormed fnLo fnHi instrs) : Within fnLo fnHi instrs :=
  ⟨⟨_, Nat.le_refl _, h.tiles⟩⟩

/-- An instruction that does not end the function has one right after it. -/
theorem next_lt_iff (h : WellFormed fnLo fnHi instrs) {a : DecodedInstr} (ha : a ∈ instrs) :
    a.next < fnHi ↔ ∃ b, Adjacent instrs a b := by
  rw [UInt64.lt_iff_toNat_lt, h.within.toNat_next ha]
  constructor
  · exact h.tiles.exists_adjacent ha
  · rintro ⟨b, hab⟩
    have hbounds := h.tiles.bounds hab.mem_right
    rw [← h.tiles.stop_eq hab] at hbounds
    omega

end WellFormed

/-- A target in the function is a leader. -/
theorem mem_leaderVec_of_target {fnLo fnHi : Addr} {instrs : List DecodedInstr}
    {a : DecodedInstr} (ha : a ∈ instrs) {target : Addr}
    (htarget : a.flow.target? = some target) (hin : InFunction fnLo fnHi target) :
    target ∈ leaderVec fnLo fnHi instrs := by
  refine mem_leaderVec.mpr (Or.inr ⟨a, ha, List.mem_append_left _ ?_⟩)
  cases hflow : a.flow with
  | branch t =>
      obtain rfl : t = target := by simpa [hflow, Flow.target?] using htarget
      simp [hin]
  | conditionalBranch t =>
      obtain rfl : t = target := by simpa [hflow, Flow.target?] using htarget
      simp [hin]
  | sequential => simp [hflow, Flow.target?] at htarget
  | «return» => simp [hflow, Flow.target?] at htarget
  | indirect => simp [hflow, Flow.target?] at htarget
  | call => simp [hflow, Flow.target?] at htarget

/-! ## First and last instructions of a block -/

/-- The block of an instruction. -/
def indexIn (fnLo fnHi : Addr) (instrs : List DecodedInstr) (a : DecodedInstr) : ℕ :=
  blockIndex (leaderVec fnLo fnHi instrs) a.address

/-- No instruction of the block comes after this one. -/
def LastOfBlock (fnLo fnHi : Addr) (instrs : List DecodedInstr) (a : DecodedInstr) : Prop :=
  ∀ b, Adjacent instrs a b → indexIn fnLo fnHi instrs a < indexIn fnLo fnHi instrs b

/-- No instruction of the block comes before this one. -/
def FirstOfBlock (fnLo fnHi : Addr) (instrs : List DecodedInstr) (b : DecodedInstr) : Prop :=
  ∀ a, Adjacent instrs a b → indexIn fnLo fnHi instrs a < indexIn fnLo fnHi instrs b

namespace Within

variable {fnLo fnHi : Addr} {instrs : List DecodedInstr} {a b : DecodedInstr}

theorem lastOfBlock_iff (h : Within fnLo fnHi instrs) (ha : a ∈ instrs) :
    (blockInstrs (leaderVec fnLo fnHi instrs) instrs (indexIn fnLo fnHi instrs a)).getLast? =
      some a ↔ LastOfBlock fnLo fnHi instrs a :=
  getLast?_filter_iff (h.pairwise_blockIndex _) h.nodup ha

theorem firstOfBlock_iff (h : Within fnLo fnHi instrs) (hb : b ∈ instrs) :
    (blockInstrs (leaderVec fnLo fnHi instrs) instrs (indexIn fnLo fnHi instrs b)).head? =
      some b ↔ FirstOfBlock fnLo fnHi instrs b :=
  head?_filter_iff (h.pairwise_blockIndex _) h.nodup hb

theorem lastOfBlock_of_endsBlock (h : Within fnLo fnHi instrs) (hends : a.flow.EndsBlock) :
    LastOfBlock fnLo fnHi instrs a :=
  fun _ hab => h.blockIndex_lt_of_endsBlock hab hends

/-- An instruction at a leader starts its block. -/
theorem firstOfBlock_of_leader (h : Within fnLo fnHi instrs)
    (hleader : b.address ∈ leaderVec fnLo fnHi instrs) : FirstOfBlock fnLo fnHi instrs b := by
  intro a hab
  refine (blockIndex_lt_iff (h.exists_leader hab.mem_left)).mpr
    ⟨b.address, hleader, ?_, Nat.le_refl _⟩
  rw [← h.next_eq hab]
  exact h.address_lt_next hab.mem_left

/-- Of two instructions in a row, one ends its block exactly when the other starts its own. -/
theorem firstOfBlock_of_adjacent (h : Within fnLo fnHi instrs) (hab : Adjacent instrs a b)
    (ha : LastOfBlock fnLo fnHi instrs a) : FirstOfBlock fnLo fnHi instrs b := by
  intro c hcb
  obtain rfl := hcb.left_unique h.nodup hab
  exact ha b hab

theorem lastOfBlock_of_adjacent (h : Within fnLo fnHi instrs) (hab : Adjacent instrs a b)
    (hne : indexIn fnLo fnHi instrs a ≠ indexIn fnLo fnHi instrs b) :
    LastOfBlock fnLo fnHi instrs a := by
  intro c hac
  obtain rfl := hac.right_unique h.nodup hab
  refine lt_of_le_of_ne (blockIndex_mono ?_) hne
  rw [← h.next_eq hab]
  exact (h.address_lt_next hab.mem_left).le

end Within

/-! ## Blocks and edges by their instructions -/

section Graph

variable {fnLo fnHi : Addr} {instrs : List DecodedInstr} {a b : DecodedInstr}

/-- The block of an instruction, under its id. -/
def blockId (fnLo fnHi : Addr) (instrs : List DecodedInstr) (a : DecodedInstr) : UInt32 :=
  UInt32.ofNat (indexIn fnLo fnHi instrs a)

theorem mem_blockInstrs {k : ℕ} :
    a ∈ blockInstrs (leaderVec fnLo fnHi instrs) instrs k ↔
      a ∈ instrs ∧ indexIn fnLo fnHi instrs a = k := by
  rw [blockInstrs, List.mem_filter, decide_eq_true_iff, indexIn]

/-- The blocks of the graph. -/
def graphBlocks (fnLo fnHi : Addr) (instrs : List DecodedInstr) : List BasicBlock :=
  groupInstrs (leaderVec fnLo fnHi instrs) instrs

/-- The edges that are drawn from the blocks of the graph, block after block. -/
def graphEdges (fnLo fnHi : Addr) (instrs : List DecodedInstr) : List CfgEdge :=
  (graphBlocks fnLo fnHi instrs).flatMap
    (blockEdges fnLo fnHi (leaderVec fnLo fnHi instrs) instrs)

/-- Few enough leaders for their ids. -/
structure IdsFit (fnLo fnHi : Addr) (instrs : List DecodedInstr) : Prop
    extends WellFormed fnLo fnHi instrs where
  ids : (leaderVec fnLo fnHi instrs).length ≤ 2 ^ 32

namespace IdsFit

theorem leads (h : IdsFit fnLo fnHi instrs) : Leads (leaderVec fnLo fnHi instrs) instrs :=
  h.within.leads h.ids

theorem indexIn_lt (h : IdsFit fnLo fnHi instrs) (ha : a ∈ instrs) :
    indexIn fnLo fnHi instrs a < (leaderVec fnLo fnHi instrs).length :=
  blockIndex_lt (h.within.exists_leader ha)

theorem eq_of_ofNat (h : IdsFit fnLo fnHi instrs) {j k : ℕ}
    (hj : j < (leaderVec fnLo fnHi instrs).length) (hk : k < (leaderVec fnLo fnHi instrs).length)
    (heq : UInt32.ofNat j = UInt32.ofNat k) : j = k := by
  have hids := h.ids
  have hnat := congrArg UInt32.toNat heq
  rwa [UInt32.toNat_ofNat_of_lt' (hj.trans_le hids),
    UInt32.toNat_ofNat_of_lt' (hk.trans_le hids)] at hnat

/-- A block with a line of an instruction is the block of that instruction. -/
theorem mem_graphBlocks (h : IdsFit fnLo fnHi instrs) {block : BasicBlock} (ha : a ∈ instrs)
    (hblock : block ∈ graphBlocks fnLo fnHi instrs) (hline : a.line ∈ block.lines) :
    block.id = blockId fnLo fnHi instrs a ∧
      block.lines =
        (blockInstrs (leaderVec fnLo fnHi instrs) instrs (indexIn fnLo fnHi instrs a)).map
          DecodedInstr.line := by
  obtain ⟨k, hk⟩ := List.mem_iff_getElem?.mp hblock
  obtain ⟨leader, -, rfl⟩ := h.leads.getElem?_eq_some hk
  obtain ⟨a', ha', hline'⟩ := List.mem_map.mp hline
  obtain ⟨hmem, rfl⟩ := mem_blockInstrs.mp ha'
  obtain rfl := h.within.eq_of_line hmem ha hline'
  exact ⟨rfl, rfl⟩

/-- Every instruction has a block. -/
theorem exists_block (h : IdsFit fnLo fnHi instrs) (ha : a ∈ instrs) :
    ∃ block ∈ graphBlocks fnLo fnHi instrs, a.line ∈ block.lines := by
  have hlt := h.indexIn_lt ha
  have hget := h.leads.getElem?_groupInstrs (indexIn fnLo fnHi instrs a)
  rw [List.getElem?_eq_getElem hlt, Option.map_some] at hget
  refine ⟨_, List.mem_of_getElem? hget, ?_⟩
  exact List.mem_map_of_mem (mem_blockInstrs.mpr ⟨ha, rfl⟩)

/-- The instruction whose line is the last of a block is the last of its block. -/
theorem getLast?_lines_iff (h : IdsFit fnLo fnHi instrs) {block : BasicBlock} (ha : a ∈ instrs)
    (hblock : block ∈ graphBlocks fnLo fnHi instrs) (hline : a.line ∈ block.lines) :
    block.lines.getLast? = some a.line ↔ LastOfBlock fnLo fnHi instrs a := by
  rw [(h.mem_graphBlocks ha hblock hline).2, List.getLast?_map, ← h.within.lastOfBlock_iff ha,
    Option.map_eq_some_iff]
  constructor
  · rintro ⟨c, hc, heq⟩
    have hmem := List.mem_of_mem_filter (List.mem_of_getLast? hc)
    obtain rfl := h.within.eq_of_line hmem ha heq
    exact hc
  · exact fun hlast => ⟨a, hlast, rfl⟩

theorem head?_lines_iff (h : IdsFit fnLo fnHi instrs) {block : BasicBlock} (hb : b ∈ instrs)
    (hblock : block ∈ graphBlocks fnLo fnHi instrs) (hline : b.line ∈ block.lines) :
    block.lines.head? = some b.line ↔ FirstOfBlock fnLo fnHi instrs b := by
  rw [(h.mem_graphBlocks hb hblock hline).2, List.head?_map, ← h.within.firstOfBlock_iff hb,
    Option.map_eq_some_iff]
  constructor
  · rintro ⟨c, hc, heq⟩
    have hmem := List.mem_of_mem_filter (List.mem_of_head? hc)
    obtain rfl := h.within.eq_of_line hmem hb heq
    exact hc
  · exact fun hfirst => ⟨b, hfirst, rfl⟩

/-- Instructions follow one another in a block when they do in the function and share a block. -/
theorem follows_iff (h : IdsFit fnLo fnHi instrs) (ha : a ∈ instrs) (hb : b ∈ instrs) :
    Follows (graphBlocks fnLo fnHi instrs) a b ↔
      Adjacent instrs a b ∧ indexIn fnLo fnHi instrs a = indexIn fnLo fnHi instrs b := by
  have hordered := h.within.pairwise_blockIndex (leaderVec fnLo fnHi instrs)
  have hinj (k : ℕ) : ∀ x ∈ blockInstrs (leaderVec fnLo fnHi instrs) instrs k,
      ∀ y ∈ blockInstrs (leaderVec fnLo fnHi instrs) instrs k, x.line = y.line → x = y :=
    fun x hx y hy heq => h.within.eq_of_line (List.mem_of_mem_filter hx)
      (List.mem_of_mem_filter hy) heq
  constructor
  · rintro ⟨block, hblock, hab⟩
    have hlines := (h.mem_graphBlocks ha hblock hab.mem_left).2
    have hindex : indexIn fnLo fnHi instrs b = indexIn fnLo fnHi instrs a := by
      have hline := hab.mem_right
      rw [hlines] at hline
      obtain ⟨b', hb', heq⟩ := List.mem_map.mp hline
      obtain ⟨hb', hindex⟩ := mem_blockInstrs.mp hb'
      obtain rfl := h.within.eq_of_line hb' hb heq
      exact hindex
    rw [hlines, adjacent_map_iff (hinj _) (mem_blockInstrs.mpr ⟨ha, rfl⟩)
      (mem_blockInstrs.mpr ⟨hb, hindex⟩)] at hab
    exact ⟨((adjacent_filter_iff hordered).mp hab).1, hindex.symm⟩
  · rintro ⟨hab, hindex⟩
    obtain ⟨block, hblock, hline⟩ := h.exists_block ha
    refine ⟨block, hblock, ?_⟩
    rw [(h.mem_graphBlocks ha hblock hline).2,
      adjacent_map_iff (hinj _) (mem_blockInstrs.mpr ⟨ha, rfl⟩)
        (mem_blockInstrs.mpr ⟨hb, hindex.symm⟩)]
    exact (adjacent_filter_iff hordered).mpr ⟨hab, rfl, hindex.symm⟩

/-! ### Edges -/

theorem edgeTo_eq (h : IdsFit fnLo fnHi instrs) (block : BasicBlock) (kind : CfgEdgeKind)
    (hb : b ∈ instrs) :
    edgeTo (leaderVec fnLo fnHi instrs) block kind b.address =
      [{ fromId := block.id, toId := blockId fnLo fnHi instrs b, kind := kind }] := by
  rw [edgeTo, blockIdFor_eq pairwise_leaderVec (h.within.exists_leader hb)]
  rfl

/-- An edge to what comes next is an edge to the next instruction. -/
theorem mem_toNext_iff (h : IdsFit fnLo fnHi instrs) (block : BasicBlock) (kind : CfgEdgeKind)
    (ha : a ∈ instrs) {edge : CfgEdge} :
    edge ∈ (if a.next < fnHi then edgeTo (leaderVec fnLo fnHi instrs) block kind a.next
        else []) ↔
      ∃ b, Adjacent instrs a b ∧
        edge = { fromId := block.id, toId := blockId fnLo fnHi instrs b, kind := kind } := by
  split_ifs with hlt
  · obtain ⟨b, hab⟩ := (h.next_lt_iff ha).mp hlt
    rw [h.within.next_eq hab, h.edgeTo_eq block kind hab.mem_right, List.mem_singleton]
    constructor
    · exact fun hedge => ⟨b, hab, hedge⟩
    · rintro ⟨c, hac, hedge⟩
      rwa [hac.right_unique h.within.nodup hab] at hedge
  · refine iff_of_false List.not_mem_nil ?_
    rintro ⟨b, hab, -⟩
    exact hlt ((h.next_lt_iff ha).mpr ⟨b, hab⟩)

/-- An edge to a target is an edge to the instruction there. -/
theorem mem_toTarget_iff (h : IdsFit fnLo fnHi instrs) (block : BasicBlock) (kind : CfgEdgeKind)
    (ha : a ∈ instrs) {target : Addr} (htarget : a.flow.target? = some target)
    {edge : CfgEdge} :
    edge ∈ (if InFunction fnLo fnHi target then
        edgeTo (leaderVec fnLo fnHi instrs) block kind target else []) ↔
      ∃ b ∈ instrs, b.address = target ∧
        edge = { fromId := block.id, toId := blockId fnLo fnHi instrs b, kind := kind } := by
  split_ifs with hin
  · obtain ⟨b, hb, rfl⟩ := h.targets a ha target htarget hin
    rw [h.edgeTo_eq block kind hb, List.mem_singleton]
    constructor
    · exact fun hedge => ⟨b, hb, rfl, hedge⟩
    · rintro ⟨c, hc, heq, hedge⟩
      rwa [h.within.eq_of_address hc hb heq] at hedge
  · refine iff_of_false List.not_mem_nil ?_
    rintro ⟨b, hb, rfl, -⟩
    exact hin (h.within.address_inFunction hb)

/-- The edges after an instruction are the ways it passes control. -/
theorem mem_edgesAfter_iff (h : IdsFit fnLo fnHi instrs) (block : BasicBlock) (ha : a ∈ instrs)
    {edge : CfgEdge} :
    edge ∈ edgesAfter fnLo fnHi (leaderVec fnLo fnHi instrs) block a ↔
      ∃ b ∈ instrs, ∃ kind, Passes instrs a b kind ∧
        edge = { fromId := block.id, toId := blockId fnLo fnHi instrs b, kind := kind } := by
  -- the way to the next instruction and the one to a target, with their kinds taken out
  have hnext (kind : CfgEdgeKind) : (∃ b ∈ instrs, ∃ k, (k = kind ∧ Adjacent instrs a b) ∧
        edge = { fromId := block.id, toId := blockId fnLo fnHi instrs b, kind := k }) ↔
      ∃ b, Adjacent instrs a b ∧
        edge = { fromId := block.id, toId := blockId fnLo fnHi instrs b, kind := kind } := by
    constructor
    · rintro ⟨b, -, k, ⟨rfl, hab⟩, hedge⟩
      exact ⟨b, hab, hedge⟩
    · rintro ⟨b, hab, hedge⟩
      exact ⟨b, hab.mem_right, kind, ⟨rfl, hab⟩, hedge⟩
  have htarget (kind : CfgEdgeKind) (target : Addr) :
      (∃ b ∈ instrs, ∃ k, (k = kind ∧ b.address = target) ∧
        edge = { fromId := block.id, toId := blockId fnLo fnHi instrs b, kind := k }) ↔
      ∃ b ∈ instrs, b.address = target ∧
        edge = { fromId := block.id, toId := blockId fnLo fnHi instrs b, kind := kind } := by
    constructor
    · rintro ⟨b, hb, k, ⟨rfl, haddress⟩, hedge⟩
      exact ⟨b, hb, haddress, hedge⟩
    · rintro ⟨b, hb, haddress, hedge⟩
      exact ⟨b, hb, kind, ⟨rfl, haddress⟩, hedge⟩
  simp only [passes_iff_of_flow]
  cases hflow : a.flow with
  | sequential =>
      simp only [edgesAfter, hflow]
      rw [hnext, h.mem_toNext_iff block .fallthrough ha]
  | call =>
      simp only [edgesAfter, hflow]
      rw [hnext, h.mem_toNext_iff block .call ha]
  | branch target =>
      simp only [edgesAfter, hflow]
      rw [htarget, h.mem_toTarget_iff block .branch ha (by rw [hflow]; rfl)]
  | conditionalBranch target =>
      simp only [edgesAfter, hflow, or_and_right, exists_or, and_or_left]
      rw [List.mem_append, htarget, hnext,
        h.mem_toTarget_iff block .conditionalBranch ha (by rw [hflow]; rfl),
        h.mem_toNext_iff block .fallthrough ha]
  | «return» => simp [edgesAfter, hflow]
  | indirect => simp [edgesAfter, hflow]

theorem mem_edgeTo {leaders : List Addr} {block : BasicBlock} {kind : CfgEdgeKind} {addr : Addr}
    {edge : CfgEdge} (h : edge ∈ edgeTo leaders block kind addr) :
    edge.fromId = block.id ∧ edge.kind = kind := by
  unfold edgeTo at h
  split at h
  · obtain rfl := List.mem_singleton.mp h
    exact ⟨rfl, rfl⟩
  · simp at h

theorem nodup_edgeTo (leaders : List Addr) (block : BasicBlock) (kind : CfgEdgeKind)
    (addr : Addr) (p : Prop) [Decidable p] :
    (if p then edgeTo leaders block kind addr else []).Nodup := by
  unfold edgeTo
  split_ifs
  · split
    · exact List.nodup_singleton _
    · exact List.nodup_nil
  · exact List.nodup_nil

theorem fromId_of_mem_blockEdges {leaders : List Addr} {block : BasicBlock} {edge : CfgEdge}
    (h : edge ∈ blockEdges fnLo fnHi leaders instrs block) : edge.fromId = block.id := by
  unfold blockEdges at h
  split at h
  · simp at h
  split at h
  · simp at h
  unfold edgesAfter at h
  split at h <;> grind [mem_edgeTo]

/-- The two edges of a conditional branch differ in their kinds. -/
theorem nodup_edgesAfter (leaders : List Addr) (block : BasicBlock) (decoded : DecodedInstr) :
    (edgesAfter fnLo fnHi leaders block decoded).Nodup := by
  cases hflow : decoded.flow with
  | sequential =>
      simp only [edgesAfter, hflow]
      exact nodup_edgeTo leaders block .fallthrough decoded.next _
  | call =>
      simp only [edgesAfter, hflow]
      exact nodup_edgeTo leaders block .call decoded.next _
  | branch target =>
      simp only [edgesAfter, hflow]
      exact nodup_edgeTo leaders block .branch target _
  | conditionalBranch target =>
      simp only [edgesAfter, hflow]
      refine List.nodup_append.mpr ⟨nodup_edgeTo leaders block .conditionalBranch target _,
        nodup_edgeTo leaders block .fallthrough decoded.next _, ?_⟩
      intro taken htaken untaken huntaken heq
      have hkind := (mem_edgeTo (List.mem_ite_nil_right.mp htaken).2).2
      have hkind' := (mem_edgeTo (List.mem_ite_nil_right.mp huntaken).2).2
      rw [heq, hkind'] at hkind
      exact absurd hkind (by decide)
  | «return» => simp [edgesAfter, hflow]
  | indirect => simp [edgesAfter, hflow]

theorem nodup_blockEdges (leaders : List Addr) (block : BasicBlock) :
    (blockEdges fnLo fnHi leaders instrs block).Nodup := by
  unfold blockEdges
  split
  · exact List.nodup_nil
  split
  · exact List.nodup_nil
  · exact nodup_edgesAfter leaders block _

/-- The edges of the graph are the ways control passes from the last instructions of blocks. -/
theorem mem_graphEdges_iff (h : IdsFit fnLo fnHi instrs) {edge : CfgEdge} :
    edge ∈ graphEdges fnLo fnHi instrs ↔
      ∃ a ∈ instrs, LastOfBlock fnLo fnHi instrs a ∧ ∃ b ∈ instrs, ∃ kind,
        Passes instrs a b kind ∧
          edge =
            { fromId := blockId fnLo fnHi instrs a
              toId := blockId fnLo fnHi instrs b
              kind := kind } := by
  rw [graphEdges, List.mem_flatMap]
  -- the instruction found at the address of the last line is the one of that line
  have hfind : ∀ a ∈ instrs,
      (instrs.find? fun instr => instr.address = a.line.address) = some a := by
    intro a ha
    obtain ⟨c, hc⟩ : ∃ c, (instrs.find? fun instr => instr.address = a.line.address) = some c := by
      rw [← Option.isSome_iff_exists, List.find?_isSome]
      exact ⟨a, ha, decide_eq_true a.line_address.symm⟩
    have haddress : c.address = a.line.address := by
      simpa using List.find?_some hc
    rw [hc, h.within.eq_of_address (List.mem_of_find?_eq_some hc) ha
      (haddress.trans a.line_address)]
  constructor
  · rintro ⟨block, hblock, hedge⟩
    rw [blockEdges] at hedge
    cases hlast : block.lines.getLast? with
    | none => simp [hlast] at hedge
    | some last =>
        have hmem : last ∈ block.lines := List.mem_of_getLast? hlast
        obtain ⟨k, hk⟩ := List.mem_iff_getElem?.mp hblock
        obtain ⟨leader, -, rfl⟩ := h.leads.getElem?_eq_some hk
        obtain ⟨a, ha, rfl⟩ := List.mem_map.mp hmem
        obtain ⟨ha, -⟩ := mem_blockInstrs.mp ha
        rw [hlast] at hedge
        simp only [hfind a ha] at hedge
        obtain ⟨b, hb, kind, hpass, rfl⟩ := (h.mem_edgesAfter_iff _ ha).mp hedge
        refine ⟨a, ha, (h.getLast?_lines_iff ha hblock hmem).mp hlast, b, hb, kind, hpass, ?_⟩
        rw [← (h.mem_graphBlocks ha hblock hmem).1]
  · rintro ⟨a, ha, hlast, b, hb, kind, hpass, rfl⟩
    obtain ⟨block, hblock, hmem⟩ := h.exists_block ha
    refine ⟨block, hblock, ?_⟩
    rw [blockEdges, (h.getLast?_lines_iff ha hblock hmem).mpr hlast]
    simp only [hfind a ha]
    refine (h.mem_edgesAfter_iff block ha).mpr ⟨b, hb, kind, hpass, ?_⟩
    rw [(h.mem_graphBlocks ha hblock hmem).1]

/-- Where control passes out of a block, it passes to the first instruction of one. -/
theorem firstOfBlock_of_passes (h : IdsFit fnLo fnHi instrs) {kind : CfgEdgeKind}
    (ha : a ∈ instrs) (hb : b ∈ instrs) (hpass : Passes instrs a b kind)
    (hlast : LastOfBlock fnLo fnHi instrs a) : FirstOfBlock fnLo fnHi instrs b := by
  have hin := h.within.address_inFunction hb
  cases kind with
  | fallthrough => exact h.within.firstOfBlock_of_adjacent hpass.2 hlast
  | call => exact h.within.firstOfBlock_of_adjacent hpass.2 hlast
  | branch =>
      have hflow : a.flow = .branch b.address := hpass
      exact h.within.firstOfBlock_of_leader
        (mem_leaderVec_of_target ha (by rw [hflow]; rfl) hin)
  | conditionalBranch =>
      have hflow : a.flow = .conditionalBranch b.address := hpass
      exact h.within.firstOfBlock_of_leader
        (mem_leaderVec_of_target ha (by rw [hflow]; rfl) hin)

/-- Control that does not stay in a block passes from the last of one. -/
theorem lastOfBlock_of_passes (h : IdsFit fnLo fnHi instrs) {kind : CfgEdgeKind}
    (ha : a ∈ instrs) (hb : b ∈ instrs) (hpass : Passes instrs a b kind)
    (hleaves : ¬ Follows (graphBlocks fnLo fnHi instrs) a b) :
    LastOfBlock fnLo fnHi instrs a := by
  have hnext (hab : Adjacent instrs a b) : LastOfBlock fnLo fnHi instrs a :=
    h.within.lastOfBlock_of_adjacent hab fun heq =>
      hleaves ((h.follows_iff ha hb).mpr ⟨hab, heq⟩)
  cases kind with
  | fallthrough => exact hnext hpass.2
  | call => exact hnext hpass.2
  | branch =>
      have hflow : a.flow = .branch b.address := hpass
      exact h.within.lastOfBlock_of_endsBlock (by rw [hflow]; trivial)
  | conditionalBranch =>
      have hflow : a.flow = .conditionalBranch b.address := hpass
      exact h.within.lastOfBlock_of_endsBlock (by rw [hflow]; trivial)

/-- Control stays in a block only to pass to the next instruction. -/
theorem passes_of_follows (h : IdsFit fnLo fnHi instrs) (ha : a ∈ instrs) (hb : b ∈ instrs)
    (hfollows : Follows (graphBlocks fnLo fnHi instrs) a b) :
    ∃ kind, Passes instrs a b kind := by
  obtain ⟨hab, hsame⟩ := (h.follows_iff ha hb).mp hfollows
  have hstays : ¬ a.flow.EndsBlock := fun hends =>
    (h.within.lastOfBlock_of_endsBlock hends b hab).ne hsame
  cases hflow : a.flow with
  | sequential => exact ⟨.fallthrough, Or.inl hflow, hab⟩
  | call => exact ⟨.call, hflow, hab⟩
  | branch target => exact absurd trivial (by rwa [hflow] at hstays)
  | conditionalBranch target => exact absurd trivial (by rwa [hflow] at hstays)
  | «return» => exact absurd trivial (by rwa [hflow] at hstays)
  | indirect => exact absurd trivial (by rwa [hflow] at hstays)

/-- Two instructions are linked in the graph just when control passes from the one to the other, and
not by running on within a block. -/
theorem linked_iff (h : IdsFit fnLo fnHi instrs) (ha : a ∈ instrs) (hb : b ∈ instrs)
    (kind : CfgEdgeKind) :
    Linked (graphBlocks fnLo fnHi instrs) (graphEdges fnLo fnHi instrs) a b kind ↔
      Passes instrs a b kind ∧ ¬ Follows (graphBlocks fnLo fnHi instrs) a b := by
  constructor
  · rintro ⟨source, hsource, dest, hdest, hlast, hhead, hedge⟩
    have hsourceLine := List.mem_of_getLast? hlast
    have hdestLine := List.mem_of_head? hhead
    obtain ⟨a', ha', hlast', b', hb', k, hpass, heq⟩ := h.mem_graphEdges_iff.mp hedge
    obtain ⟨hfrom, hto, rfl⟩ := CfgEdge.mk.inj heq
    rw [(h.mem_graphBlocks ha hsource hsourceLine).1] at hfrom
    rw [(h.mem_graphBlocks hb hdest hdestLine).1] at hto
    have hindexa := h.eq_of_ofNat (h.indexIn_lt ha) (h.indexIn_lt ha') hfrom
    have hindexb := h.eq_of_ofNat (h.indexIn_lt hb) (h.indexIn_lt hb') hto
    have hlasta := (h.getLast?_lines_iff ha hsource hsourceLine).mp hlast
    have hfirstb := (h.head?_lines_iff hb hdest hdestLine).mp hhead
    -- a block has one last instruction and one first
    obtain rfl : a = a' := by
      have hone := (h.within.lastOfBlock_iff ha).mpr hlasta
      have hother := (h.within.lastOfBlock_iff ha').mpr hlast'
      rw [hindexa, hother, Option.some_inj] at hone
      exact hone.symm
    obtain rfl : b = b' := by
      have hone := (h.within.firstOfBlock_iff hb).mpr hfirstb
      have hother := (h.within.firstOfBlock_iff hb').mpr
        (h.firstOfBlock_of_passes ha hb' hpass hlasta)
      rw [hindexb, hother, Option.some_inj] at hone
      exact hone.symm
    refine ⟨hpass, fun hfollows => ?_⟩
    obtain ⟨hab, hsame⟩ := (h.follows_iff ha hb).mp hfollows
    exact (hlasta b hab).ne hsame
  · rintro ⟨hpass, hleaves⟩
    have hlast := h.lastOfBlock_of_passes ha hb hpass hleaves
    have hfirst := h.firstOfBlock_of_passes ha hb hpass hlast
    obtain ⟨source, hsource, hsourceLine⟩ := h.exists_block ha
    obtain ⟨dest, hdest, hdestLine⟩ := h.exists_block hb
    refine ⟨source, hsource, dest, hdest, (h.getLast?_lines_iff ha hsource hsourceLine).mpr hlast,
      (h.head?_lines_iff hb hdest hdestLine).mpr hfirst, ?_⟩
    rw [(h.mem_graphBlocks ha hsource hsourceLine).1, (h.mem_graphBlocks hb hdest hdestLine).1]
    exact h.mem_graphEdges_iff.mpr ⟨a, ha, hlast, b, hb, kind, hpass, rfl⟩

/-- No edge is there twice. -/
theorem nodup_graphEdges (h : IdsFit fnLo fnHi instrs) :
    (graphEdges fnLo fnHi instrs).Nodup := by
  have hids : (graphBlocks fnLo fnHi instrs).Pairwise fun a b => a.id ≠ b.id := by
    rw [List.pairwise_iff_getElem]
    intro j k hj hk hlt heq
    obtain ⟨_, hleaderj, hblockj⟩ := h.leads.getElem?_eq_some (List.getElem?_eq_getElem hj)
    obtain ⟨_, hleaderk, hblockk⟩ := h.leads.getElem?_eq_some (List.getElem?_eq_getElem hk)
    rw [hblockj, hblockk] at heq
    have hjk := h.eq_of_ofNat (List.getElem?_eq_some_iff.mp hleaderj).1
      (List.getElem?_eq_some_iff.mp hleaderk).1 heq
    omega
  rw [graphEdges, List.nodup_flatMap]
  refine ⟨fun block _ => nodup_blockEdges _ block, hids.imp fun hne edge hedge hedge' => ?_⟩
  exact hne ((fromId_of_mem_blockEdges hedge).symm.trans (fromId_of_mem_blockEdges hedge'))

end IdsFit

theorem buildBlocksAndEdges_eq (hne : instrs ≠ []) :
    buildBlocksAndEdges fnLo fnHi instrs =
      (graphBlocks fnLo fnHi instrs, graphEdges fnLo fnHi instrs) := by
  rw [buildBlocksAndEdges, List.isEmpty_eq_false_iff.mpr hne]
  rfl

/-- The graph of instructions that tile a function simulates how they pass control, if its ids tell
the blocks apart. -/
theorem buildBlocksAndEdges_simulates (fnLo fnHi : Addr) (instrs : List DecodedInstr)
    (h : WellFormed fnLo fnHi instrs)
    (hids : (buildBlocksAndEdges fnLo fnHi instrs).1.length ≤ 2 ^ 32) :
    Simulates instrs (buildBlocksAndEdges fnLo fnHi instrs).1
      (buildBlocksAndEdges fnLo fnHi instrs).2 := by
  by_cases hne : instrs = []
  · subst hne
    exact ⟨by simp, by simp, by simp [buildBlocksAndEdges], List.nodup_nil⟩
  rw [buildBlocksAndEdges_eq hne] at hids ⊢
  have hfit : IdsFit fnLo fnHi instrs := ⟨h, by rwa [← length_groupInstrs]⟩
  refine ⟨?_, fun a ha b hb kind => hfit.linked_iff ha hb kind, ?_, hfit.nodup_graphEdges⟩
  · intro a ha b hb
    constructor
    · rintro ⟨kind, hpass⟩
      by_cases hfollows : Follows (graphBlocks fnLo fnHi instrs) a b
      · exact Or.inl hfollows
      · exact Or.inr ⟨kind, (hfit.linked_iff ha hb kind).mpr ⟨hpass, hfollows⟩⟩
    · rintro (hfollows | ⟨kind, hlinked⟩)
      · exact hfit.passes_of_follows ha hb hfollows
      · exact ⟨kind, ((hfit.linked_iff ha hb kind).mp hlinked).1⟩
  · intro edge hedge
    obtain ⟨a, ha, hlast, b, hb, kind, hpass, rfl⟩ := hfit.mem_graphEdges_iff.mp hedge
    have hfirst := hfit.firstOfBlock_of_passes ha hb hpass hlast
    obtain ⟨source, hsource, hsourceLine⟩ := hfit.exists_block ha
    obtain ⟨dest, hdest, hdestLine⟩ := hfit.exists_block hb
    exact ⟨a, ha, b, hb, source, hsource, dest, hdest,
      (hfit.getLast?_lines_iff ha hsource hsourceLine).mpr hlast,
      (hfit.head?_lines_iff hb hdest hdestLine).mpr hfirst,
      (hfit.mem_graphBlocks ha hsource hsourceLine).1.symm,
      (hfit.mem_graphBlocks hb hdest hdestLine).1.symm, hpass⟩

end Graph

/-! ## A loop, and a function with too many blocks -/

/-- An instruction without text or samples. -/
def bareInstr (address : Addr) (length : UInt64) (flow : Flow) : DecodedInstr :=
  { address := address
    length := length
    line :=
      { address := address
        tokens := []
        selfOnCpuNs := 0
        selfPetSamples := 0
        sourceHeader := none }
    flow := flow
    line_address := rfl }

/-- A conditional branch to itself, a call and a return. -/
def spinAndCall : List DecodedInstr :=
  [bareInstr 0x1000 4 (.conditionalBranch 0x1000), bareInstr 0x1004 4 .call,
    bareInstr 0x1008 4 .return]

theorem spinAndCall_wellFormed : WellFormed 0x1000 0x100c spinAndCall where
  tiles := ⟨rfl, by decide, rfl, by decide, rfl, by decide, rfl⟩
  targets := by
    simp [spinAndCall, bareInstr, Flow.target?]

theorem spinAndCall_simulates :
    Simulates spinAndCall (buildBlocksAndEdges 0x1000 0x100c spinAndCall).1
      (buildBlocksAndEdges 0x1000 0x100c spinAndCall).2 :=
  buildBlocksAndEdges_simulates 0x1000 0x100c spinAndCall spinAndCall_wellFormed
    (by decide +kernel)

/-- Of more than `2 ^ 32` instructions two are put into one block. -/
theorem exists_follows_of_many {fnLo fnHi : Addr} {instrs : List DecodedInstr}
    (h : Within fnLo fnHi instrs) (hmany : 2 ^ 32 < instrs.length) :
    ∃ a ∈ instrs, ∃ b ∈ instrs, Follows (graphBlocks fnLo fnHi instrs) a b := by
  set leaders := leaderVec fnLo fnHi instrs with hleaders
  set slot := fun a : DecodedInstr => (blockId fnLo fnHi instrs a).toNat with hslot
  obtain ⟨a, ha, b, hb, hne, heq⟩ : ∃ a ∈ instrs.toFinset, ∃ b ∈ instrs.toFinset,
      a ≠ b ∧ slot a = slot b := by
    refine Finset.exists_ne_map_eq_of_card_lt_of_maps_to (t := Finset.range (2 ^ 32)) ?_ ?_
    · rwa [Finset.card_range, List.toFinset_card_of_nodup h.nodup]
    · intro a _
      exact Finset.mem_coe.mpr (Finset.mem_range.mpr (UInt32.toNat_lt _))
  rw [List.mem_toFinset] at ha hb
  set stretch := instrs.filter fun instr =>
    (blockIdFor leaders instr.address).map UInt32.toNat = some (slot a) with hstretch
  have hmem (c : DecodedInstr) (hc : c ∈ instrs) (hsame : slot a = slot c) : c ∈ stretch := by
    refine List.mem_filter.mpr ⟨hc, decide_eq_true ?_⟩
    rw [blockIdFor_eq pairwise_leaderVec (h.exists_leader hc), hsame]
    rfl
  have hlt : slot a < leaders.length := by
    refine lt_of_le_of_lt ?_ (blockIndex_lt (h.exists_leader ha))
    rw [hslot]
    simp only [blockId, UInt32.toNat_ofNat']
    exact Nat.mod_le _ _
  have hget := @getElem?_groupInstrs leaders instrs (slot a)
  rw [List.getElem?_eq_getElem hlt, Option.map_some] at hget
  have hblock := List.mem_of_getElem? hget
  -- two instructions of a block, in whatever order, leave two in a row
  have ha' := hmem a ha rfl
  have hb' := hmem b hb heq
  obtain ⟨x, y, rest, hxy⟩ : ∃ x y rest, stretch = x :: y :: rest := by
    match stretch, ha', hb' with
    | [c], ha', hb' =>
      rw [List.mem_singleton] at ha' hb'
      exact absurd (ha'.trans hb'.symm) hne
    | x :: y :: rest, _, _ => exact ⟨x, y, rest, rfl⟩
  have hx : x ∈ stretch := by
    rw [hxy]
    exact List.mem_cons_self ..
  have hy : y ∈ stretch := by
    rw [hxy]
    exact List.mem_cons_of_mem _ (List.mem_cons_self ..)
  refine ⟨x, List.mem_of_mem_filter hx, y, List.mem_of_mem_filter hy, _, hblock, ?_⟩
  simp only []
  rw [← hstretch, hxy]
  exact adjacent_append_cons_cons [] (rest.map DecodedInstr.line) x.line y.line

/-- `n` indirect branches, one byte each. -/
def indirects (start n : ℕ) : List DecodedInstr :=
  (List.range' start n).map fun k => bareInstr (UInt64.ofNat k) 1 .indirect

theorem indirects_tiles (start n : ℕ) (h : start + n < 2 ^ 64) :
    TilesRange start (start + n) (indirects start n) := by
  induction n generalizing start with
  | zero => rfl
  | succ n ih =>
      have haddress : (bareInstr (UInt64.ofNat start) 1 .indirect).start = start :=
        UInt64.toNat_ofNat_of_lt' (by change start < 2 ^ 64; omega)
      have hstop : (bareInstr (UInt64.ofNat start) 1 .indirect).stop = start + 1 :=
        congrArg (· + 1) haddress
      refine ⟨haddress, ?_, ?_⟩
      · rw [hstop]
        omega
      · rw [hstop]
        have hrest := ih (start + 1) (by omega)
        rwa [Nat.add_right_comm, Nat.add_assoc] at hrest

theorem length_indirects (start n : ℕ) : (indirects start n).length = n := by
  rw [indirects, List.length_map, List.length_range']

/-- Among more than `2 ^ 32` indirect branches two follow one another in a block, and no control
passes between them. -/
theorem exists_not_simulated {n : ℕ} (hmany : 2 ^ 32 < n) (hn : n < 2 ^ 64) :
    ∃ fnHi, WellFormed 0 fnHi (indirects 0 n) ∧
      ¬ Simulates (indirects 0 n) (buildBlocksAndEdges 0 fnHi (indirects 0 n)).1
        (buildBlocksAndEdges 0 fnHi (indirects 0 n)).2 := by
  have hend : (UInt64.ofNat n).toNat = n := UInt64.toNat_ofNat_of_lt' hn
  have htiles := indirects_tiles 0 n (by omega)
  rw [Nat.zero_add] at htiles
  have hflow : ∀ a ∈ indirects 0 n, a.flow = .indirect := by
    intro a ha
    obtain ⟨k, -, rfl⟩ := List.mem_map.mp ha
    rfl
  have hwell : WellFormed 0 (UInt64.ofNat n) (indirects 0 n) := by
    refine ⟨by rw [hend]; exact htiles, fun a ha target htarget => ?_⟩
    rw [hflow a ha] at htarget
    exact absurd htarget (by simp [Flow.target?])
  obtain ⟨a, ha, b, hb, hfollows⟩ := exists_follows_of_many hwell.within
    (hmany.trans_eq (length_indirects 0 n).symm)
  refine ⟨UInt64.ofNat n, hwell, fun hsim => ?_⟩
  rw [buildBlocksAndEdges_eq (List.ne_nil_of_mem ha)] at hsim
  obtain ⟨kind, hpass⟩ := (hsim.passes_iff a ha b hb).mpr (Or.inl hfollows)
  rw [passes_iff_of_flow, hflow a ha] at hpass
  exact hpass

/-- A function of `2 ^ 32 + 1` indirect branches has a graph that does not simulate it. -/
theorem indirects_not_simulated :
    ¬ ∀ (fnLo fnHi : Addr) (instrs : List DecodedInstr), WellFormed fnLo fnHi instrs →
      Simulates instrs (buildBlocksAndEdges fnLo fnHi instrs).1
        (buildBlocksAndEdges fnLo fnHi instrs).2 := by
  intro hclaim
  obtain ⟨fnHi, hwell, hnot⟩ := @exists_not_simulated (2 ^ 32 + 1) (by omega) (by omega)
  exact hnot (hclaim 0 fnHi _ hwell)

end Stax.Live
