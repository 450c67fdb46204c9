/-
# Stax.TargetImages.Macho — an image's Mach-O header, read from the memory of the target.

The header says how many load commands follow it and how long they are.  One pass over their bytes
takes the UUID, the place of `__TEXT`, and the sections an unwinder wants; the slide between the
addresses in the file and those in memory is learnt from `__TEXT` on the way.  The bytes of the
sections are read after the pass.

A list of commands laid out as the loader expects it is read back command by command.
-/
import Stax.Lib.Bytes

namespace Stax.TargetImages

open Stax.Lib

/-! ## Fields -/

/-- A field of so many bytes. -/
abbrev Fixed (width : ℕ) := { bytes : List UInt8 // bytes.length = width }

/-- A field of bytes, which are there. -/
def readFixed (bytes : List UInt8) (start width : ℕ) : Fixed width :=
  ⟨(slice bytes start width ++ List.replicate width 0).take width, by simp⟩

/-- Four bytes as a number, the lowest first. -/
def readU32 (bytes : List UInt8) (start : ℕ) : UInt32 := UInt32.ofNat (leNat (slice bytes start 4))

/-- Eight bytes as a number, the lowest first. -/
def readU64 (bytes : List UInt8) (start : ℕ) : UInt64 := UInt64.ofNat (leNat (slice bytes start 8))

/-! ## The structures of a Mach-O header -/

/-- The magic number of a 64-bit image. -/
def mhMagic64 : UInt32 := 0xfeedfacf

/-- The load command of a segment. -/
def lcSegment64 : UInt32 := 0x19

/-- The load command of the image's identity. -/
def lcUuid : UInt32 := 0x1b

/-- The header at the start of an image. -/
structure MachHeader64 where
  magic : UInt32
  /-- `cputype`, `cpusubtype` and `filetype`. -/
  kind : Fixed 12
  ncmds : UInt32
  sizeofcmds : UInt32
  /-- `flags` and `reserved`. -/
  flags : Fixed 8

/-- The header that the first bytes of an image say. -/
def MachHeader64.read (bytes : List UInt8) : MachHeader64 where
  magic := readU32 bytes 0
  kind := readFixed bytes 4 12
  ncmds := readU32 bytes 16
  sizeofcmds := readU32 bytes 20
  flags := readFixed bytes 24 8

/-- What all load commands begin with. -/
structure LoadCommand where
  cmd : UInt32
  cmdsize : UInt32

/-- The load command at a place in the commands. -/
def LoadCommand.read (bytes : List UInt8) (start : ℕ) : LoadCommand where
  cmd := readU32 bytes start
  cmdsize := readU32 bytes (start + 4)

/-- The load command of a segment, without its sections. -/
structure SegmentCommand64 where
  segname : Fixed 16
  vmaddr : UInt64
  vmsize : UInt64
  /-- `fileoff`, `filesize`, `maxprot` and `initprot`. -/
  limits : Fixed 24
  nsects : UInt32
  flags : Fixed 4

/-- The segment at a place in the commands. -/
def SegmentCommand64.read (bytes : List UInt8) (start : ℕ) : SegmentCommand64 where
  segname := readFixed bytes (start + 8) 16
  vmaddr := readU64 bytes (start + 24)
  vmsize := readU64 bytes (start + 32)
  limits := readFixed bytes (start + 40) 24
  nsects := readU32 bytes (start + 64)
  flags := readFixed bytes (start + 68) 4

/-- A section as its segment's command lists it, at the address the file gives. -/
structure Section64 where
  sectname : Fixed 16
  segname : Fixed 16
  addr : UInt64
  size : UInt64
  /-- `offset` to `reserved3`. -/
  rest : Fixed 32

/-- The section at a place in the commands. -/
def Section64.read (bytes : List UInt8) (start : ℕ) : Section64 where
  sectname := readFixed bytes start 16
  segname := readFixed bytes (start + 16) 16
  addr := readU64 bytes (start + 32)
  size := readU64 bytes (start + 40)
  rest := readFixed bytes (start + 48) 32

/-! ## What is extracted -/

/-- `Range<u64>`. -/
structure AddrRange where
  start : UInt64
  stop : UInt64
  deriving DecidableEq, Repr

/-- A section in the target's memory, with the bytes read from there. -/
structure SectionData where
  avma : AddrRange
  bytes : List UInt8
  deriving DecidableEq, Repr

/-- What is found of an image: its identity, its slide, and the sections that unwinding needs. -/
structure MachoSections where
  uuid : Option (Fixed 16) := none
  slide : Int64 := 0
  textAvma : Option AddrRange := none
  gotAvma : Option AddrRange := none
  unwindInfo : Option SectionData := none
  compactUnwind : Option SectionData := none
  ehFrame : Option SectionData := none
  ehFrameHdr : Option SectionData := none
  deriving DecidableEq

/-- A range of the target's memory in the addresses of the file. -/
def MachoSections.avmaToSvma (self : MachoSections) (range : AddrRange) : AddrRange where
  start := (range.start.toInt64 - self.slide).toUInt64
  stop := (range.stop.toInt64 - self.slide).toUInt64

/-- The sections whose bytes are kept. -/
inductive BytesSlot
  | unwindInfo
  | compactUnwind
  | ehFrame
  | ehFrameHdr
  deriving DecidableEq, Repr

/-- A section's bytes are kept in their place; what was there before is forgotten. -/
def BytesSlot.assign (self : BytesSlot) (dst : MachoSections) (data : SectionData) :
    MachoSections :=
  match self with
  | unwindInfo => { dst with unwindInfo := some data }
  | compactUnwind => { dst with compactUnwind := some data }
  | ehFrame => { dst with ehFrame := some data }
  | ehFrameHdr => { dst with ehFrameHdr := some data }

/-! ## Names -/

/-- A name up to its first NUL, if it has one. -/
def upToNul (bytes : List UInt8) : List UInt8 :=
  match bytes.findIdx? (· == 0) with
  | some n => bytes.take n
  | none => bytes

/-- Two names are the same up to their first zero. -/
def nameEq (field wanted : List UInt8) : Bool := upToNul field == upToNul wanted

/-- The name of the segment that holds the code. -/
def textName : List UInt8 := utf8Bytes "__TEXT"

/-- The name of the section with the global offset table. -/
def gotName : List UInt8 := utf8Bytes "__got"

/-- The section for a slot. -/
def BytesSlot.sectname : BytesSlot → List UInt8
  | unwindInfo => utf8Bytes "__unwind_info" ++ [0, 0, 0]
  | compactUnwind => utf8Bytes "__compact_unwind"
  | ehFrame => utf8Bytes "__eh_frame" ++ [0, 0, 0, 0, 0, 0]
  | ehFrameHdr => utf8Bytes "__eh_frame_hdr" ++ [0, 0]

/-- The sections whose bytes are kept, each with its place. -/
def wantedSections : List (List UInt8 × BytesSlot) :=
  [(BytesSlot.unwindInfo.sectname, .unwindInfo), (BytesSlot.compactUnwind.sectname, .compactUnwind),
    (BytesSlot.ehFrame.sectname, .ehFrame), (BytesSlot.ehFrameHdr.sectname, .ehFrameHdr)]

/-- The slot wanted for a section, and what is wanted after that. -/
def matchWanted (wanted : List (List UInt8 × BytesSlot)) (sectname : List UInt8) :
    Option BytesSlot × List (List UInt8 × BytesSlot) :=
  match wanted.findIdx? fun w => nameEq sectname w.1 with
  | none => (none, wanted)
  | some pos => ((wanted[pos]?).map (·.2), wanted.eraseIdx pos)

/-! ## The pass over the load commands -/

/-- Where the pass is: what it has found, the sections still wanted, and those to be read. -/
structure Pass where
  out : MachoSections := {}
  wanted : List (List UInt8 × BytesSlot) := wantedSections
  pending : List (UInt64 × UInt64 × BytesSlot) := []

/-- One section of a segment: it is placed by the slide that is known by then. -/
def Pass.sect (p : Pass) (sect : Section64) : Pass :=
  let avmaStart := (sect.addr.toInt64 + p.out.slide).toUInt64
  let out :=
    if nameEq sect.sectname.1 gotName then
      { p.out with gotAvma := some { start := avmaStart, stop := avmaStart + sect.size } }
    else p.out
  match matchWanted p.wanted sect.sectname.1 with
  | (some slot, wanted) => { out, wanted, pending := p.pending ++ [(avmaStart, sect.size, slot)] }
  | (none, wanted) => { p with out, wanted }

/-- A segment's own command; `__TEXT` gives the slide. -/
def Pass.segment (p : Pass) (loadAddress : UInt64) (seg : SegmentCommand64) : Pass :=
  if nameEq seg.segname.1 textName then
    let slide := loadAddress.toInt64 - seg.vmaddr.toInt64
    let start := (seg.vmaddr.toInt64 + slide).toUInt64
    { p with out :=
      { p.out with slide, textAvma := some { start, stop := start + seg.vmsize } } }
  else p

/-- The identity of an image; a later command replaces an earlier one. -/
def Pass.setUuid (p : Pass) (uuid : Fixed 16) : Pass :=
  { p with out := { p.out with uuid := some uuid } }

/-- The sections of a segment, as many as it says and the commands have room for. -/
def sectionsLoop (cmds : List UInt8) : ℕ → ℕ → Pass → Pass
  | 0, _, p => p
  | nsects + 1, sectOff, p =>
    if cmds.length < sectOff + 80 then p
    else sectionsLoop cmds nsects (sectOff + 80) (p.sect (Section64.read cmds sectOff))

/-- The load commands, as many as the header says and there is room for. -/
def commandsLoop (loadAddress : UInt64) (cmds : List UInt8) : ℕ → ℕ → Pass → Pass
  | 0, _, p => p
  | ncmds + 1, cursor, p =>
    if cmds.length < cursor + 8 then p
    else
      let lc := LoadCommand.read cmds cursor
      let lcSize := lc.cmdsize.toNat
      if lcSize = 0 ∨ cmds.length < cursor + lcSize then p
      else if lc.cmd = lcSegment64 then
        if cmds.length < cursor + 72 then p
        else
          let seg := SegmentCommand64.read cmds cursor
          commandsLoop loadAddress cmds ncmds (cursor + lcSize)
            (sectionsLoop cmds seg.nsects.toNat (cursor + 72) (p.segment loadAddress seg))
      else if lc.cmd = lcUuid then
        commandsLoop loadAddress cmds ncmds (cursor + lcSize)
          (if cursor + 24 ≤ cmds.length then p.setUuid (readFixed cmds (cursor + 8) 16) else p)
      else commandsLoop loadAddress cmds ncmds (cursor + lcSize) p

/-! ## The image -/

/-- The largest section whose bytes are read. -/
def sectionSizeCap : UInt64 := 8 * 1024 * 1024

/-- One section is read, if it is neither empty nor too long. -/
def drainOne (readExact : UInt64 → ℕ → Option (List UInt8)) (out : MachoSections)
    (entry : UInt64 × UInt64 × BytesSlot) : MachoSections :=
  let (avma, size, slot) := entry
  if size = 0 ∨ sectionSizeCap < size then out
  else
    match readExact avma size.toNat with
    | some bytes => slot.assign out { avma := { start := avma, stop := avma + size }, bytes }
    | none => out

/-- The image at an address, by what can be read of the target's memory. -/
def parseImage (readExact : UInt64 → ℕ → Option (List UInt8)) (loadAddress : UInt64) :
    Option MachoSections := do
  let header := MachHeader64.read (← readExact loadAddress 32)
  if header.magic ≠ mhMagic64 then none
  else
    let cmds ← readExact (loadAddress + 32) header.sizeofcmds.toNat
    let pass := commandsLoop loadAddress cmds header.ncmds.toNat 0 {}
    return pass.pending.foldl (drainOne readExact) pass.out

/-! ## Commands as they are laid out -/

/-- A section as it stands in the commands. -/
def Section64.encode (s : Section64) : List UInt8 :=
  s.sectname.1 ++ (s.segname.1 ++ (leBytes 8 s.addr.toNat ++ (leBytes 8 s.size.toNat ++ s.rest.1)))

/-- A segment with its sections. -/
structure Segment where
  segname : Fixed 16
  vmaddr : UInt64
  vmsize : UInt64
  limits : Fixed 24
  flags : Fixed 4
  sections : List Section64

/-- The command of a segment without its sections. -/
def Segment.command (seg : Segment) : SegmentCommand64 where
  segname := seg.segname
  vmaddr := seg.vmaddr
  vmsize := seg.vmsize
  limits := seg.limits
  nsects := UInt32.ofNat seg.sections.length
  flags := seg.flags

/-- A load command.  Of those that the pass does not look into, only the kind is known. -/
inductive Command
  | segment (seg : Segment)
  | uuid (id : Fixed 16)
  | other (cmd : UInt32) (hsegment : cmd ≠ lcSegment64) (huuid : cmd ≠ lcUuid)
      (payload : List UInt8)

/-- The number by which a command says what it is. -/
def Command.cmd : Command → UInt32
  | segment _ => lcSegment64
  | uuid _ => lcUuid
  | other cmd _ _ _ => cmd

/-- What follows the kind and the size. -/
def Command.body : Command → List UInt8
  | segment seg =>
    seg.segname.1 ++ (leBytes 8 seg.vmaddr.toNat ++ (leBytes 8 seg.vmsize.toNat ++ (seg.limits.1 ++
      (leBytes 4 seg.sections.length ++ (seg.flags.1 ++ seg.sections.flatMap Section64.encode)))))
  | uuid id => id.1
  | other _ _ _ payload => payload

/-- A command as it stands in an image. -/
def Command.encode (c : Command) : List UInt8 :=
  leBytes 4 c.cmd.toNat ++ (leBytes 4 (8 + c.body.length) ++ c.body)

/-- What the pass does with a command. -/
def Pass.command (loadAddress : UInt64) (p : Pass) : Command → Pass
  | .segment seg => seg.sections.foldl Pass.sect (p.segment loadAddress seg.command)
  | .uuid id => p.setUuid id
  | .other _ _ _ _ => p

/-- A header as it stands at the start of an image. -/
def MachHeader64.encode (h : MachHeader64) : List UInt8 :=
  leBytes 4 h.magic.toNat ++ (h.kind.1 ++ (leBytes 4 h.ncmds.toNat ++
    (leBytes 4 h.sizeofcmds.toNat ++ h.flags.1)))

/-! ## Reading back -/

theorem slice_inside (before part after : List UInt8) {off width : ℕ}
    (h : off + width ≤ part.length) :
    slice (before ++ (part ++ after)) (before.length + off) width = slice part off width := by
  unfold slice
  rw [List.drop_length_add_append, List.drop_append_of_le_length (by omega),
    List.take_append_of_le_length (by rw [List.length_drop]; omega)]

theorem readFixed_of_slice {bytes : List UInt8} {start width : ℕ} {field : Fixed width}
    (h : slice bytes start width = field.1) : readFixed bytes start width = field := by
  apply Subtype.ext
  show (slice bytes start width ++ List.replicate width 0).take width = field.1
  rw [h, List.take_left' field.2]

theorem readU32_of_slice {bytes : List UInt8} {start n : ℕ}
    (h : slice bytes start 4 = leBytes 4 n) (hlt : n < 2 ^ 32) :
    readU32 bytes start = UInt32.ofNat n := by
  rw [readU32, h, leNat_leBytes_of_lt (show n < 256 ^ 4 from hlt)]

theorem readU64_of_slice {bytes : List UInt8} {start : ℕ} {n : UInt64}
    (h : slice bytes start 8 = leBytes 8 n.toNat) : readU64 bytes start = n := by
  have hlt : n.toNat < 256 ^ 8 := n.toNat_lt
  rw [readU64, h, leNat_leBytes_of_lt hlt, UInt64.ofNat_toNat]

/-- A header is read as it was written. -/
theorem MachHeader64.read_encode (h : MachHeader64) : MachHeader64.read h.encode = h := by
  have hkind := h.kind.2
  have hflags := h.flags.2
  have h₁ : readU32 h.encode 0 = h.magic := by
    rw [readU32_of_slice (n := h.magic.toNat) ?_ h.magic.toNat_lt, UInt32.ofNat_toNat]
    simp [slice, encode]
  have h₂ : readFixed h.encode 4 12 = h.kind := by
    apply readFixed_of_slice
    simp [slice, encode, hkind]
  have h₃ : readU32 h.encode 16 = h.ncmds := by
    rw [readU32_of_slice (n := h.ncmds.toNat) ?_ h.ncmds.toNat_lt, UInt32.ofNat_toNat]
    simp [slice, encode, List.drop_append, List.drop_eq_nil_of_le, hkind]
  have h₄ : readU32 h.encode 20 = h.sizeofcmds := by
    rw [readU32_of_slice (n := h.sizeofcmds.toNat) ?_ h.sizeofcmds.toNat_lt, UInt32.ofNat_toNat]
    simp [slice, encode, List.drop_append, List.drop_eq_nil_of_le, hkind]
  have h₅ : readFixed h.encode 24 8 = h.flags := by
    apply readFixed_of_slice
    simp [slice, encode, List.drop_append, List.drop_eq_nil_of_le, hkind, hflags]
  rw [read, h₁, h₂, h₃, h₄, h₅]

theorem Section64.length_encode (s : Section64) : s.encode.length = 80 := by
  simp [encode, s.sectname.2, s.segname.2, s.rest.2]

/-- A section is read as it was written, wherever it stands. -/
theorem Section64.read_encode (s : Section64) (before after : List UInt8) :
    Section64.read (before ++ (s.encode ++ after)) before.length = s := by
  have hfield {off width : ℕ} (h : off + width ≤ 80) :
      slice (before ++ (s.encode ++ after)) (before.length + off) width =
        slice s.encode off width :=
    slice_inside before s.encode after (by rw [s.length_encode]; exact h)
  have hname := s.sectname.2
  have hsegname := s.segname.2
  have hrest := s.rest.2
  have h₁ : readFixed (before ++ (s.encode ++ after)) before.length 16 = s.sectname := by
    apply readFixed_of_slice
    rw [← Nat.add_zero before.length, hfield (by decide)]
    simp [slice, encode, hname]
  have h₂ : readFixed (before ++ (s.encode ++ after)) (before.length + 16) 16 = s.segname := by
    apply readFixed_of_slice
    rw [hfield (by decide)]
    simp [slice, encode, hname, hsegname]
  have h₃ : readU64 (before ++ (s.encode ++ after)) (before.length + 32) = s.addr := by
    apply readU64_of_slice
    rw [hfield (by decide)]
    simp [slice, encode, List.drop_append, List.drop_eq_nil_of_le, hname, hsegname]
  have h₄ : readU64 (before ++ (s.encode ++ after)) (before.length + 40) = s.size := by
    apply readU64_of_slice
    rw [hfield (by decide)]
    simp [slice, encode, List.drop_append, List.drop_eq_nil_of_le, hname, hsegname]
  have h₅ : readFixed (before ++ (s.encode ++ after)) (before.length + 48) 32 = s.rest := by
    apply readFixed_of_slice
    rw [hfield (by decide)]
    simp [slice, encode, List.drop_append, List.drop_eq_nil_of_le, hname, hsegname, hrest]
  rw [Section64.read, h₁, h₂, h₃, h₄, h₅]

/-- A segment's command without its sections. -/
def Segment.fixedPart (seg : Segment) : List UInt8 :=
  seg.segname.1 ++ (leBytes 8 seg.vmaddr.toNat ++ (leBytes 8 seg.vmsize.toNat ++ (seg.limits.1 ++
    (leBytes 4 seg.sections.length ++ seg.flags.1))))

theorem Segment.length_fixedPart (seg : Segment) : seg.fixedPart.length = 64 := by
  simp [fixedPart, seg.segname.2, seg.limits.2, seg.flags.2]

theorem Segment.body_eq (seg : Segment) :
    (Command.segment seg).body = seg.fixedPart ++ seg.sections.flatMap Section64.encode := by
  simp [Command.body, fixedPart]

/-- A segment's command behind its kind and size. -/
theorem SegmentCommand64.read_encode (seg : Segment) (hsections : seg.sections.length < 2 ^ 32)
    {before head after : List UInt8} (hhead : head.length = 8) :
    SegmentCommand64.read (before ++ (head ++ seg.fixedPart ++ after)) before.length =
      seg.command := by
  have hfield {off width : ℕ} (h : off + width ≤ 72) :
      slice (before ++ (head ++ seg.fixedPart ++ after)) (before.length + off) width =
        slice (head ++ seg.fixedPart) off width :=
    slice_inside before _ after (by rw [List.length_append, hhead, seg.length_fixedPart]; exact h)
  have hname := seg.segname.2
  have hlimits := seg.limits.2
  have hflags := seg.flags.2
  rw [SegmentCommand64.read, Segment.command]
  congr 1
  · apply readFixed_of_slice
    rw [hfield (by decide)]
    simp [slice, Segment.fixedPart, hhead, hname]
  · apply readU64_of_slice
    rw [hfield (by decide)]
    simp [slice, Segment.fixedPart, List.drop_append, List.drop_eq_nil_of_le, hhead, hname]
  · apply readU64_of_slice
    rw [hfield (by decide)]
    simp [slice, Segment.fixedPart, List.drop_append, List.drop_eq_nil_of_le, hhead, hname]
  · apply readFixed_of_slice
    rw [hfield (by decide)]
    simp [slice, Segment.fixedPart, List.drop_append, List.drop_eq_nil_of_le, hhead, hname, hlimits]
  · apply readU32_of_slice _ hsections
    rw [hfield (by decide)]
    simp [slice, Segment.fixedPart, List.drop_append, List.drop_eq_nil_of_le, hhead, hname, hlimits]
  · apply readFixed_of_slice
    rw [hfield (by decide)]
    simp [slice, Segment.fixedPart, List.drop_append, List.drop_eq_nil_of_le, hhead, hname, hlimits,
      hflags]

/-- The sections that stand behind a segment's command are taken one after the other. -/
theorem sectionsLoop_eq (sections : List Section64) (before after : List UInt8) (p : Pass) :
    sectionsLoop (before ++ (sections.flatMap Section64.encode ++ after)) sections.length
      before.length p = sections.foldl Pass.sect p := by
  induction sections generalizing before p with
  | nil => rfl
  | cons s sections ih =>
      have hnext : before ++ ((s :: sections).flatMap Section64.encode ++ after) =
          (before ++ s.encode) ++ (sections.flatMap Section64.encode ++ after) := by
        simp
      have hread : Section64.read (before ++ ((s :: sections).flatMap Section64.encode ++ after))
          before.length = s := by
        rw [List.flatMap_cons, List.append_assoc]
        exact s.read_encode before _
      have hlength : (before ++ s.encode).length = before.length + 80 := by
        rw [List.length_append, s.length_encode]
      rw [List.length_cons, sectionsLoop, if_neg ?_, hread, hnext, ← hlength, List.foldl_cons]
      · exact ih (before ++ s.encode) (p.sect s)
      · rw [hnext, List.length_append, hlength]
        omega

theorem Command.length_encode (c : Command) : c.encode.length = 8 + c.body.length := by
  rw [encode, List.length_append, List.length_append, length_leBytes, length_leBytes]
  omega

/-- A command's kind and size. -/
theorem LoadCommand.read_encode (c : Command) (hsize : 8 + c.body.length < 2 ^ 32)
    (before after : List UInt8) :
    LoadCommand.read (before ++ (c.encode ++ after)) before.length =
      { cmd := c.cmd, cmdsize := UInt32.ofNat (8 + c.body.length) } := by
  have hfield {off : ℕ} (h : off + 4 ≤ 8) :
      slice (before ++ (c.encode ++ after)) (before.length + off) 4 = slice c.encode off 4 :=
    slice_inside before c.encode after (by rw [c.length_encode]; omega)
  rw [LoadCommand.read]
  congr 1
  · rw [readU32_of_slice (n := c.cmd.toNat) ?_ c.cmd.toNat_lt, UInt32.ofNat_toNat]
    rw [← Nat.add_zero before.length, hfield (by decide)]
    simp [slice, Command.encode]
  · apply readU32_of_slice _ hsize
    rw [hfield (by decide)]
    simp [slice, Command.encode]

/-- One turn of the loop takes one command. -/
theorem commandsLoop_step (loadAddress : UInt64) (c : Command) (before after : List UInt8)
    (hlength : (before ++ (c.encode ++ after)).length < 2 ^ 32) (ncmds : ℕ) (p : Pass) :
    commandsLoop loadAddress (before ++ (c.encode ++ after)) (ncmds + 1) before.length p =
      commandsLoop loadAddress (before ++ (c.encode ++ after)) ncmds (before ++ c.encode).length
        (p.command loadAddress c) := by
  have hcursor : (before ++ c.encode).length = before.length + (8 + c.body.length) := by
    rw [List.length_append, c.length_encode]
  have htotal : (before ++ (c.encode ++ after)).length =
      before.length + (8 + c.body.length) + after.length := by
    rw [← List.append_assoc, List.length_append, hcursor]
  have hsize : (UInt32.ofNat (8 + c.body.length)).toNat = 8 + c.body.length :=
    UInt32.toNat_ofNat_of_lt' (by rw [htotal] at hlength; show _ < 2 ^ 32; omega)
  rw [commandsLoop, if_neg (by omega), LoadCommand.read_encode c (by omega)]
  dsimp only
  rw [hsize, if_neg (by omega), ← hcursor]
  cases c with
  | segment seg =>
      have hbody : (Command.segment seg).body.length = 64 + 80 * seg.sections.length := by
        rw [seg.body_eq, List.length_append, seg.length_fixedPart, List.length_flatMap]
        simp [Section64.length_encode, Nat.mul_comm]
      have hsections : seg.sections.length < 2 ^ 32 := by omega
      obtain ⟨head, hhead, hencode⟩ : ∃ head : List UInt8, head.length = 8 ∧
          (Command.segment seg).encode ++ after =
            head ++ seg.fixedPart ++ (seg.sections.flatMap Section64.encode ++ after) := by
        refine ⟨leBytes 4 lcSegment64.toNat ++ leBytes 4 (8 + (Command.segment seg).body.length),
          by simp, ?_⟩
        rw [Command.encode, seg.body_eq]
        simp [Command.cmd]
      have hread : SegmentCommand64.read (before ++ ((Command.segment seg).encode ++ after))
          before.length = seg.command := by
        rw [hencode]
        exact SegmentCommand64.read_encode seg hsections hhead
      have hloop (q : Pass) : sectionsLoop (before ++ ((Command.segment seg).encode ++ after))
          seg.sections.length (before.length + 72) q = seg.sections.foldl Pass.sect q := by
        have hplace : (before ++ (head ++ seg.fixedPart)).length = before.length + 72 := by
          rw [List.length_append, List.length_append, hhead, seg.length_fixedPart]
        rw [hencode, ← List.append_assoc before, ← hplace]
        exact sectionsLoop_eq seg.sections _ after q
      have hnsects : seg.command.nsects.toNat = seg.sections.length :=
        UInt32.toNat_ofNat_of_lt' hsections
      rw [if_pos (show (Command.segment seg).cmd = lcSegment64 from rfl), if_neg (by omega), hread,
        hnsects, hloop]
      rfl
  | uuid id =>
      have hbody : (Command.uuid id).body.length = 16 := id.2
      have hread : readFixed (before ++ ((Command.uuid id).encode ++ after)) (before.length + 8) 16 =
          id := by
        apply readFixed_of_slice
        rw [slice_inside before _ after (by rw [Command.length_encode, hbody])]
        simp [slice, Command.encode, Command.body, List.drop_append, List.drop_eq_nil_of_le, id.2]
      have hother : lcUuid ≠ lcSegment64 := by decide
      rw [if_neg (show (Command.uuid id).cmd ≠ lcSegment64 from hother),
        if_pos (show (Command.uuid id).cmd = lcUuid from rfl), if_pos (by omega), hread]
      rfl
  | other cmd hsegment huuid payload =>
      rw [if_neg (show (Command.other cmd hsegment huuid payload).cmd ≠ lcSegment64 from hsegment),
        if_neg (show (Command.other cmd hsegment huuid payload).cmd ≠ lcUuid from huuid)]
      rfl

/-- The commands are taken one after the other. -/
theorem commandsLoop_eq (loadAddress : UInt64) (commands : List Command) (before : List UInt8)
    (hlength : (before ++ commands.flatMap Command.encode).length < 2 ^ 32) (p : Pass) :
    commandsLoop loadAddress (before ++ commands.flatMap Command.encode) commands.length
      before.length p = commands.foldl (Pass.command loadAddress) p := by
  induction commands generalizing before p with
  | nil => rfl
  | cons c commands ih =>
      have hnext : before ++ (c.encode ++ commands.flatMap Command.encode) =
          (before ++ c.encode) ++ commands.flatMap Command.encode :=
        (List.append_assoc _ _ _).symm
      rw [List.flatMap_cons] at hlength ⊢
      rw [List.length_cons, commandsLoop_step loadAddress c before _ hlength, hnext,
        List.foldl_cons]
      exact ih (before ++ c.encode) (hnext ▸ hlength) (p.command loadAddress c)

end Stax.TargetImages
