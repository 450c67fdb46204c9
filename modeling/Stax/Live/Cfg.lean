/-
# Stax.Live.Cfg — the control-flow graph of a function.

The graph decodes the function's bytes by loops of its own, which also classify how each instruction
passes control on.  Blocks start at the leaders: the first instruction, the targets inside the
function, and what follows a branch or a return.  An instruction belongs to the block of the last
leader at or before its address, whether or not the leader is the address of an instruction, and a
block's edges are those of its last instruction.  Block ids have 32 bits.
-/
import Stax.Live.Disassembly
import Stax.Lib.Cuts

namespace Stax.Live

open Stax.Binaries.BinaryRegistry (ResolvedAddress)
open Stax.Lib Stax.Lib.Predecessor Stax.Lib.Cuts

/-! ## How instructions pass control on -/

/-- Where control goes after an instruction. A branch whose target is not in the instruction itself
is `indirect`. -/
inductive Flow
  | sequential
  | return
  | indirect
  | branch (target : Addr)
  | conditionalBranch (target : Addr)
  | call
  deriving DecidableEq, Repr

namespace Flow

/-- Where a branch goes. -/
def target? : Flow → Option Addr
  | .branch target => some target
  | .conditionalBranch target => some target
  | _ => none

/-- A branch, a return or an indirect branch ends its block. -/
def EndsBlock : Flow → Prop
  | .branch _ | .conditionalBranch _ | .return | .indirect => True
  | .sequential | .call => False

instance (flow : Flow) : Decidable flow.EndsBlock := by
  cases flow <;> unfold EndsBlock <;> infer_instance

end Flow

/-- An instruction, whose line is at its address. -/
structure DecodedInstr where
  address : Addr
  length : UInt64
  line : AnnotatedLine
  flow : Flow
  line_address : line.address = address
  deriving DecidableEq

/-- The address right after an instruction. -/
def DecodedInstr.next (instr : DecodedInstr) : Addr := instr.address + instr.length

/-! ## The two loops -/

/-- The flow of an aarch64 branch whose offset is the given operand. -/
def relative (address : Addr) (flow : Addr → Flow) : A64.Operand → Flow
  | .pcOffset off => flow (address + off.toUInt64)
  | .other => .indirect

/-- How an instruction of aarch64 passes control on, from its opcode and the operand that holds the
offset. -/
def classifyA64 (instr : A64.Instruction) (address : Addr) : Flow :=
  match instr.opcode with
  | .b => relative address .branch (instr.operands 0)
  | .bcc _ => relative address .conditionalBranch (instr.operands 0)
  | .cbz | .cbnz => relative address .conditionalBranch (instr.operands 1)
  | .tbz | .tbnz => relative address .conditionalBranch (instr.operands 2)
  | .br | .braa | .braaz | .brab | .brabz => .indirect
  | .bl => .call
  | .blr | .blraa | .blraaz | .blrab | .blrabz => .call
  | .ret | .retaa | .retab => .return
  | .eret | .eretaa | .eretab => .return
  | .other => .sequential

/-- The target of a jump of amd64: an immediate is relative to the address after the instruction. -/
def x86Target (nextAddress : Addr) : Amd64.Operand → Option Addr
  | .immediateI8 imm => some (nextAddress + imm.toInt64.toUInt64)
  | .immediateI16 imm => some (nextAddress + imm.toInt64.toUInt64)
  | .immediateI32 imm => some (nextAddress + imm.toInt64.toUInt64)
  | .immediateI64 imm => some (nextAddress + imm.toUInt64)
  | .other => none

/-- How an instruction of amd64 passes control on, from its opcode and its first operand. -/
def classifyX86 {remaining : ℕ} (instr : Amd64.Instruction remaining) (nextAddress : Addr) :
    Flow :=
  match instr.opcode with
  | .jmp | .jmpf | .jmpe =>
    match x86Target nextAddress (instr.operand 0) with
    | some t => .branch t
    | none => .indirect
  | .jo | .jno | .jb | .jnb | .jz | .jnz | .ja | .jna | .js | .jns | .jp | .jnp | .jl | .jge
  | .jle | .jg | .jrcxz | .loop | .loopz | .loopnz =>
    match x86Target nextAddress (instr.operand 0) with
    | some t => .conditionalBranch t
    | none => .indirect
  | .call | .callf => .call
  | .return | .retf | .iret | .iretd | .iretq => .return
  | .hlt | .ud2 => .return
  | .other => .sequential

section Loops

variable (dis : Disassembler) (resolved : ResolvedAddress)
  (selfLookup : Addr → UInt64 × UInt64)

/-- The instruction of a line. -/
def decodedInstr (address : Addr) (length : ℕ) (asm : String) (flow : Flow) : DecodedInstr :=
  { address := address
    length := UInt64.ofNat length
    line := annotatedLine dis selfLookup address asm
    flow := flow
    line_address := rfl }

/-- The instructions from an offset on. -/
def decodeAarch64 (offset : ℕ) : List DecodedInstr :=
  if offset + 4 ≤ resolved.bytes.length then
    let address := addressAt resolved offset
    let (asm, flow) := match dis.a64 ((resolved.bytes.drop offset).take 4) with
      | .ok instr => (instr.text, classifyA64 instr address)
      | .error err => (decodeError err, Flow.sequential)
    decodedInstr dis selfLookup address 4 asm flow :: decodeAarch64 (offset + 4)
  else []
  termination_by resolved.bytes.length - offset

/-- The instructions from an offset on. -/
def decodeAmd64 (offset : ℕ) : List DecodedInstr :=
  if offset < resolved.bytes.length then
    let address := addressAt resolved offset
    match dis.amd64 (resolved.bytes.drop offset) with
    | .ok instr =>
      let next := address + UInt64.ofNat instr.len
      decodedInstr dis selfLookup address instr.len instr.text (classifyX86 instr next) ::
        decodeAmd64 (offset + max instr.len 1)
    | .error err =>
      decodedInstr dis selfLookup address 1 (decodeError err) .sequential ::
        decodeAmd64 (offset + 1)
  else []
  termination_by resolved.bytes.length - offset

/-- The instructions of a function, decoded for the architecture of its binary, or else of the host.
-/
def decodeInstrs : List DecodedInstr :=
  match archOf (resolved.arch.getD (hostArch dis.targetArch)) with
  | some .aarch64 => decodeAarch64 dis resolved selfLookup 0
  | some .amd64 => decodeAmd64 dis resolved selfLookup 0
  | none => []

end Loops

/-! ## Blocks and edges -/

/-- Lines that always run one after another, under the number by which edges name them. -/
structure BasicBlock where
  id : UInt32
  startAddress : Addr
  lines : List AnnotatedLine
  deriving DecidableEq, Repr

/-- Why control may go from one block to another. -/
inductive CfgEdgeKind
  | fallthrough
  | branch
  | conditionalBranch
  | call
  deriving DecidableEq, Repr

/-- Control may go from one block to the other, for the reason given. -/
structure CfgEdge where
  fromId : UInt32
  toId : UInt32
  kind : CfgEdgeKind
  deriving DecidableEq, Repr

/-- The graph of a function as it is sent to a viewer, with the address that was asked for. -/
structure CfgUpdate where
  functionName : String
  language : String
  baseAddress : Addr
  queriedAddress : Addr
  blocks : List BasicBlock
  edges : List CfgEdge
  deriving DecidableEq, Repr

section Build

variable (fnLo fnHi : Addr)

/-- An address lies between the first instruction of the function and the end of the last. -/
def InFunction (target : Addr) : Prop := fnLo ≤ target ∧ target < fnHi

instance (target : Addr) : Decidable (InFunction fnLo fnHi target) :=
  inferInstanceAs (Decidable (_ ∧ _))

/-- The leaders an instruction asks for: its target, and what follows it if it ends a block. -/
def instrLeaders (instr : DecodedInstr) : List Addr :=
  (match instr.flow with
    | .branch target | .conditionalBranch target =>
      if InFunction fnLo fnHi target then [target] else []
    | _ => []) ++
  if fnHi ≤ instr.next then []
  else
    match instr.flow with
    | .branch _ | .conditionalBranch _ | .return | .indirect => [instr.next]
    | _ => []

/-- The leaders, in rising order and each once. -/
def leaderVec (instrs : List DecodedInstr) : List Addr :=
  sortByKey UInt64.toNat
    ((instrs.head?.map DecodedInstr.address).toList ++
      instrs.flatMap (instrLeaders fnLo fnHi)).dedup

/-- The block of the last leader at or before an address. -/
def blockIdFor (leaders : List Addr) (addr : Addr) : Option UInt32 :=
  match binarySearch UInt64.toNat addr.toNat leaders with
  | .ok i => some (UInt32.ofNat i)
  | .error 0 => none
  | .error i => some (UInt32.ofNat (i - 1))

/-- One block for each leader, without lines. -/
def emptyBlocks (leaders : List Addr) : List BasicBlock :=
  leaders.mapIdx fun i addr => { id := UInt32.ofNat i, startAddress := addr, lines := [] }

/-- A block takes in the line of one more instruction. -/
def pushLine (block : BasicBlock) (instr : DecodedInstr) : BasicBlock :=
  { block with lines := block.lines ++ [instr.line] }

/-- Every instruction's line is put into its block. -/
def groupInstrs (leaders : List Addr) (instrs : List DecodedInstr) : List BasicBlock :=
  instrs.foldl (fun blocks instr =>
    match (blockIdFor leaders instr.address).map UInt32.toNat with
    | some id => blocks.modify id fun block => pushLine block instr
    | none => blocks) (emptyBlocks leaders)

/-- The edge to the block of an address, if there is one. -/
def edgeTo (leaders : List Addr) (block : BasicBlock) (kind : CfgEdgeKind) (addr : Addr) :
    List CfgEdge :=
  match blockIdFor leaders addr with
  | some toId => [{ fromId := block.id, toId := toId, kind := kind }]
  | none => []

/-- The edges of a block whose last instruction is `decoded`. -/
def edgesAfter (leaders : List Addr) (block : BasicBlock) (decoded : DecodedInstr) :
    List CfgEdge :=
  let toNext (kind : CfgEdgeKind) :=
    if decoded.next < fnHi then edgeTo leaders block kind decoded.next else []
  let toTarget (kind : CfgEdgeKind) (target : Addr) :=
    if InFunction fnLo fnHi target then edgeTo leaders block kind target else []
  match decoded.flow with
  | .sequential => toNext .fallthrough
  | .call => toNext .call
  | .branch target => toTarget .branch target
  | .conditionalBranch target =>
    toTarget .conditionalBranch target ++ toNext .fallthrough
  | .return | .indirect => []

/-- The edges of a block: those of the instruction at the address of its last line. -/
def blockEdges (leaders : List Addr) (instrs : List DecodedInstr) (block : BasicBlock) :
    List CfgEdge :=
  match block.lines.getLast? with
  | none => []
  | some last =>
    match instrs.find? fun instr => instr.address = last.address with
    | none => []
    | some decoded => edgesAfter fnLo fnHi leaders block decoded

/-- Blocks start at the leaders, the targets of branches and what follows a branch; then edges are
drawn between them. -/
def buildBlocksAndEdges (instrs : List DecodedInstr) : List BasicBlock × List CfgEdge :=
  if instrs.isEmpty then ([], [])
  else
    let leaders := leaderVec fnLo fnHi instrs
    let blocks := groupInstrs leaders instrs
    (blocks, blocks.flatMap (blockEdges fnLo fnHi leaders instrs))

end Build

/-- The graph of the function around an address, or an empty one where nothing decodes. -/
def computeCfgUpdate (dis : Disassembler) (resolved : ResolvedAddress) (queriedAddress : Addr)
    (functionName language : String) (selfLookup : Addr → UInt64 × UInt64) : CfgUpdate :=
  let instrs := decodeInstrs dis resolved selfLookup
  let baseAddress := resolved.baseAddress
  let fnHi := baseAddress + UInt64.ofNat resolved.bytes.length
  let built := buildBlocksAndEdges baseAddress fnHi instrs
  { functionName := functionName
    language := language
    baseAddress := baseAddress
    queriedAddress := queriedAddress
    blocks := built.1
    edges := built.2 }

end Stax.Live
