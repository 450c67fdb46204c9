/-
# Stax.Live.Disassembly — the instruction lines of a function, as the disassembly view shows them.

A function's bytes are cut into instructions by one loop for each architecture.  An aarch64
instruction is four bytes long, whatever the decoder says, and up to three bytes at the end are left
over; an amd64 instruction is as long as the decoder says, and one byte where it fails.  Every line
carries the highlighted text and the time and samples spent at its address.

The decoders and the highlighter are parameters.
-/
import Stax.Binaries.Registry

namespace Stax.Live

open Stax.Binaries.BinaryRegistry (ResolvedAddress)

/-! ## Lines -/

/-- The class of a token for syntax highlighting. -/
inductive TokenClass
  | plain | keyword | function | string | comment | type | variable | constant | number | operator
  | punctuation | property | attribute | tag | macros | label | namespace | constructor | title
  | strong | emphasis | link | literal | strikethrough | diffAdd | diffDelete | embedded | error
  deriving DecidableEq, Repr

/-- A piece of a line with the class under which it is shown. -/
structure Token where
  text : String
  kind : TokenClass
  deriving DecidableEq, Repr

/-- The line of source that the next instructions come from, highlighted. -/
structure SourceHeader where
  file : String
  line : UInt32
  tokens : List Token
  deriving DecidableEq, Repr

/-- One disassembled instruction with its sampled hit data. -/
structure AnnotatedLine where
  address : Addr
  tokens : List Token
  selfOnCpuNs : UInt64
  selfPetSamples : UInt64
  sourceHeader : Option SourceHeader
  deriving DecidableEq, Repr

/-! ## Decoded instructions -/

namespace A64

/-- The opcodes that are told apart. -/
inductive Opcode
  | b | bcc (cond : UInt8) | cbz | cbnz | tbz | tbnz
  | br | braa | braaz | brab | brabz
  | bl | blr | blraa | blraaz | blrab | blrabz
  | ret | retaa | retab | eret | eretaa | eretab
  | other
  deriving DecidableEq, Repr

/-- An operand of aarch64, of which only an offset relative to the program counter is looked at. -/
inductive Operand
  | pcOffset (off : Int64)
  | other
  deriving DecidableEq, Repr

/-- An instruction, with the text it is shown as. -/
structure Instruction where
  text : String
  opcode : Opcode
  operands : Fin 4 → Operand

end A64

namespace Amd64

/-- The opcodes that are told apart. -/
inductive Opcode
  | jmp | jmpf | jmpe
  | jo | jno | jb | jnb | jz | jnz | ja | jna | js | jns | jp | jnp | jl | jge | jle | jg
  | jrcxz | loop | loopz | loopnz
  | call | callf
  | return | retf | iret | iretd | iretq
  | hlt | ud2
  | other
  deriving DecidableEq, Repr

/-- An operand of amd64, of which only the immediates are looked at. -/
inductive Operand
  | immediateI8 (imm : Int8)
  | immediateI16 (imm : Int16)
  | immediateI32 (imm : Int32)
  | immediateI64 (imm : Int64)
  | other
  deriving DecidableEq, Repr

/-- An instruction at the start of the `remaining` bytes, which are at least as many as it has. -/
structure Instruction (remaining : ℕ) where
  text : String
  opcode : Opcode
  operand : Fin 4 → Operand
  len : ℕ
  len_pos : 0 < len
  len_le : len ≤ remaining

end Amd64

/-- What the program is built for. -/
inductive TargetArch
  | aarch64
  | x86_64
  | other
  deriving DecidableEq, Repr

/-- The architecture that a binary is taken for when it does not say its own. -/
def hostArch : TargetArch → String
  | .aarch64 => "aarch64"
  | .x86_64 => "amd64"
  | .other => "unknown"

/-- The instruction decoders, with an error as its message, and the highlighter. -/
structure Disassembler where
  targetArch : TargetArch
  a64 : List UInt8 → Except String A64.Instruction
  amd64 : (bytes : List UInt8) → Except String (Amd64.Instruction bytes.length)
  highlightLine : String → List Token

/-- The decode loops there are. -/
inductive Arch
  | aarch64
  | amd64
  deriving DecidableEq, Repr

/-- The two decoders, by the names under which a binary may ask for them. -/
def archOf : String → Option Arch
  | "aarch64" | "arm64" | "arm64e" => some .aarch64
  | "amd64" | "x86_64" | "x86_64h" => some .amd64
  | _ => none

/-! ## The two loops -/

section Loops

variable (dis : Disassembler) (resolved : ResolvedAddress)
  (selfLookup : Addr → UInt64 × UInt64)

/-- The text of bytes that are no instruction. -/
def decodeError (err : String) : String := "<decode error: " ++ err ++ ">"

/-- The line of the instruction at an address. -/
def annotatedLine (address : Addr) (asm : String) : AnnotatedLine :=
  { address := address
    tokens := dis.highlightLine asm
    selfOnCpuNs := (selfLookup address).1
    selfPetSamples := (selfLookup address).2
    sourceHeader := none }

/-- The address of a byte of the function. -/
def addressAt (offset : ℕ) : Addr := resolved.baseAddress + UInt64.ofNat offset

/-- The lines from an offset on. -/
def disassembleAarch64 (offset : ℕ) : List AnnotatedLine :=
  if offset + 4 ≤ resolved.bytes.length then
    let asm := match dis.a64 ((resolved.bytes.drop offset).take 4) with
      | .ok instr => instr.text
      | .error err => decodeError err
    annotatedLine dis selfLookup (addressAt resolved offset) asm :: disassembleAarch64 (offset + 4)
  else []
  termination_by resolved.bytes.length - offset

/-- The lines from an offset on. -/
def disassembleAmd64 (offset : ℕ) : List AnnotatedLine :=
  if offset < resolved.bytes.length then
    match dis.amd64 (resolved.bytes.drop offset) with
    | .ok instr =>
      annotatedLine dis selfLookup (addressAt resolved offset) instr.text ::
        disassembleAmd64 (offset + max instr.len 1)
    | .error err =>
      annotatedLine dis selfLookup (addressAt resolved offset) (decodeError err) ::
        disassembleAmd64 (offset + 1)
  else []
  termination_by resolved.bytes.length - offset

/-- The disassembly view's lines. -/
def disassemble : List AnnotatedLine :=
  match archOf (resolved.arch.getD (hostArch dis.targetArch)) with
  | some .aarch64 => disassembleAarch64 dis resolved selfLookup 0
  | some .amd64 => disassembleAmd64 dis resolved selfLookup 0
  | none => []

end Loops

end Stax.Live
