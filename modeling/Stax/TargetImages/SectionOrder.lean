/-
# Stax.TargetImages.SectionOrder — where the sections are said to be, and the order of the segments.

The pass puts a section where it thinks the image slid to at that moment: not at all, as long as
`__TEXT` has not come.  What is recorded is described without the pass: the first section of each
wanted name and the last `__got`, each placed by what was known of the slide where it stands.  It is
right for every section exactly if none of those stands in front of `__TEXT`, where the image did
slide; and only then is it the same in every order of the segments.
-/
import Stax.Lib.LinearSearch
import Stax.TargetImages.Macho

namespace Stax.TargetImages

open Stax.Lib

/-! ## Sections in their places -/

/-- Where a section is in memory, by a slide. -/
def Section64.avma (slide : Int64) (s : Section64) : UInt64 := (s.addr.toInt64 + slide).toUInt64

/-- Where a section lies in the target's memory, by a slide. -/
def Section64.range (slide : Int64) (s : Section64) : AddrRange where
  start := s.avma slide
  stop := s.avma slide + s.size

/-- Where a section is by the file. -/
def Section64.linkRange (s : Section64) : AddrRange where
  start := s.addr
  stop := s.addr + s.size

/-- The section has such a name. -/
def Section64.isNamed (name : List UInt8) (s : Section64) : Bool := nameEq s.sectname.1 name

/-- The bytes of a section, where they can be had. -/
def readSection (readExact : UInt64 → ℕ → Option (List UInt8)) (avma size : UInt64) :
    Option SectionData :=
  if size = 0 ∨ sectionSizeCap < size then none
  else (readExact avma size.toNat).map fun bytes =>
    { avma := { start := avma, stop := avma + size }, bytes }

/-- What is kept of a section, by its place. -/
def MachoSections.slot (self : MachoSections) : BytesSlot → Option SectionData
  | .unwindInfo => self.unwindInfo
  | .compactUnwind => self.compactUnwind
  | .ehFrame => self.ehFrame
  | .ehFrameHdr => self.ehFrameHdr

/-- The command is of the segment that holds the code. -/
def Command.isText : Command → Bool
  | .segment seg => nameEq seg.segname.1 textName
  | _ => false

/-- The sections that a command lists. -/
def Command.sections : Command → List Section64
  | .segment seg => seg.sections
  | _ => []

/-- An image in memory, with one `__TEXT` among its load commands. -/
structure MappedImage where
  loadAddress : UInt64
  readExact : UInt64 → ℕ → Option (List UInt8)
  kind : Fixed 12
  flags : Fixed 8
  early : List Command
  text : Segment
  late : List Command
  text_named : nameEq text.segname.1 textName = true
  early_other : ∀ c ∈ early, c.isText = false
  late_other : ∀ c ∈ late, c.isText = false
  size_lt : ((early ++ Command.segment text :: late).flatMap Command.encode).length < 2 ^ 32
  header_there : readExact loadAddress 32 =
    some (MachHeader64.encode
      { magic := mhMagic64
        kind
        ncmds := UInt32.ofNat (early ++ Command.segment text :: late).length
        sizeofcmds := UInt32.ofNat
          ((early ++ Command.segment text :: late).flatMap Command.encode).length
        flags })
  commands_there : readExact (loadAddress + 32)
      ((early ++ Command.segment text :: late).flatMap Command.encode).length =
    some ((early ++ Command.segment text :: late).flatMap Command.encode)

namespace MappedImage

/-- The commands of an image, in order. -/
def commands (img : MappedImage) : List Command := img.early ++ Command.segment img.text :: img.late

/-- What the parser finds of an image. -/
def parse (img : MappedImage) : Option MachoSections := parseImage img.readExact img.loadAddress

/-- The sections of an image, in the order of its commands. -/
def sections (img : MappedImage) : List Section64 := img.commands.flatMap Command.sections

/-- How far the image slid. -/
def slide (img : MappedImage) : Int64 := img.loadAddress.toInt64 - img.text.vmaddr.toInt64

/-- The sections, and for each whether `__TEXT` has come. -/
def placed (img : MappedImage) : List (Bool × Section64) :=
  (img.early.flatMap Command.sections).map (Prod.mk false) ++
    (img.text.sections ++ img.late.flatMap Command.sections).map (Prod.mk true)

/-- The section that counts as `__got`. -/
def got (img : MappedImage) : Option Section64 :=
  (img.sections.filter (Section64.isNamed gotName)).getLast?

/-- The section that counts for a slot. -/
def wanted (img : MappedImage) (slot : BytesSlot) : Option Section64 :=
  img.sections.find? (Section64.isNamed slot.sectname)

/-- Every section is recorded where it is in memory, and that goes back to where it is in the
file. -/
structure SectionsRight (img : MappedImage) (out : MachoSections) : Prop where
  got : out.gotAvma = img.got.map (Section64.range img.slide)
  slot : ∀ slot, out.slot slot =
    (img.wanted slot).bind fun s => readSection img.readExact (s.avma img.slide) s.size
  got_svma : ∀ r ∈ out.gotAvma, ∃ s ∈ img.got, out.avmaToSvma r = s.linkRange
  slot_svma : ∀ slot, ∀ data ∈ out.slot slot,
    ∃ s ∈ img.wanted slot, out.avmaToSvma data.avma = s.linkRange

/-- A section that is recorded nowhere, neither by the file's address nor by that in memory. -/
def Unread (img : MappedImage) (s : Section64) : Prop :=
  s.size = 0 ∨ sectionSizeCap < s.size ∨
    (img.readExact s.addr s.size.toNat = none ∧
      img.readExact (s.avma img.slide) s.size.toNat = none)

/-- The image did not slide, or the sections that count stand behind `__TEXT`'s command. -/
def SlideInTime (img : MappedImage) : Prop :=
  img.slide = 0 ∨
    ((∀ e ∈ (img.placed.filter fun e => e.2.isNamed gotName).getLast?, e.1 = true) ∧
      ∀ slot : BytesSlot, ∀ e ∈ img.placed.find? (fun e => e.2.isNamed slot.sectname),
        e.1 = true ∨ img.Unread e.2)

/-- Another image with the load commands in another order, and the same sections in memory, one at
most of each wanted name. -/
structure Reorders (img other : MappedImage) : Prop where
  loadAddress : other.loadAddress = img.loadAddress
  commands : other.commands.Perm img.commands
  got_once : (img.sections.filter (Section64.isNamed gotName)).length ≤ 1
  wanted_once : ∀ slot : BytesSlot,
    (img.sections.filter (Section64.isNamed slot.sectname)).length ≤ 1
  memory : ∀ s ∈ img.sections, other.readExact (s.avma img.slide) s.size.toNat =
    img.readExact (s.avma img.slide) s.size.toNat

end MappedImage

/-! ## What is wanted -/

theorem sectname_injective {slot slot' : BytesSlot}
    (h : upToNul slot.sectname = upToNul slot'.sectname) : slot = slot' := by
  cases slot <;> cases slot' <;> first | rfl | (revert h; decide)

/-- A section is wanted for one slot at most. -/
theorem isNamed_unique {s : Section64} {slot slot' : BytesSlot}
    (h : s.isNamed slot.sectname = true) (h' : s.isNamed slot'.sectname = true) : slot = slot' :=
  sectname_injective ((beq_iff_eq.mp h).symm.trans (beq_iff_eq.mp h'))

/-- All the places for bytes. -/
def allSlots : List BytesSlot := [.unwindInfo, .compactUnwind, .ehFrame, .ehFrameHdr]

theorem mem_allSlots (slot : BytesSlot) : slot ∈ allSlots := by cases slot <;> decide

/-- The slots still wanted, as the pass keeps them. -/
def wantedFor (slots : List BytesSlot) : List (List UInt8 × BytesSlot) :=
  slots.map fun slot => (slot.sectname, slot)

theorem matchWanted_eq (slots : List BytesSlot) (s : Section64) :
    matchWanted (wantedFor slots) s.sectname.1 =
      (slots.find? fun slot => s.isNamed slot.sectname,
        wantedFor (slots.eraseP fun slot => s.isNamed slot.sectname)) := by
  have htest : ((fun w => nameEq s.sectname.1 w.1) ∘ fun slot : BytesSlot => (slot.sectname, slot)) =
      fun slot => s.isNamed slot.sectname := rfl
  unfold matchWanted wantedFor
  rw [List.findIdx?_map, htest, List.find?_eq_bind_findIdx?_getElem?, List.eraseP_eq_eraseIdx]
  cases slots.findIdx? fun slot => s.isNamed slot.sectname with
  | none => rfl
  | some pos =>
      dsimp only
      rw [List.getElem?_map, List.eraseIdx_map, Option.bind_some, Option.map_map]
      cases slots[pos]? <;> rfl

/-- A section is wanted for one slot at most. -/
theorem pairwise_isNamed {slots : List BytesSlot} (hdistinct : slots.Nodup) (s : Section64) :
    slots.Pairwise fun slot slot' =>
      s.isNamed slot.sectname = true → s.isNamed slot'.sectname = false := by
  refine hdistinct.imp fun {slot slot'} hne hnamed => ?_
  by_contra hnamed'
  exact hne (isNamed_unique hnamed (Bool.eq_true_of_not_eq_false hnamed'))

/-! ## The pass, section by section -/

/-- A section as the pass places it. -/
abbrev PlacedSection := Int64 × Section64

/-- The slots no section has come for. -/
def openSlots (entries : List PlacedSection) : List BytesSlot :=
  allSlots.filter fun slot => entries.all fun e => !e.2.isNamed slot.sectname

/-- What the pass has found after so many sections. -/
structure Entered (entries : List PlacedSection) (p : Pass) : Prop where
  got : p.out.gotAvma = ((entries.filter fun e => e.2.isNamed gotName).getLast?).map
    fun e => e.2.range e.1
  wanted : p.wanted = wantedFor (openSlots entries)
  pending : ∀ slot : BytesSlot, p.pending.filter (fun e => e.2.2 = slot) =
    ((entries.find? fun e => e.2.isNamed slot.sectname).map
      fun e => (e.2.avma e.1, e.2.size, slot)).toList
  slots : ∀ slot, p.out.slot slot = none

theorem entered_start : Entered [] {} :=
  ⟨rfl, rfl, fun slot => rfl, fun slot => by cases slot <;> rfl⟩

theorem sect_eq {p : Pass} {slots : List BytesSlot} (hwanted : p.wanted = wantedFor slots)
    (s : Section64) :
    p.sect s =
      { out := if s.isNamed gotName then
          { p.out with gotAvma := some (s.range p.out.slide) } else p.out
        wanted := wantedFor (slots.eraseP fun slot => s.isNamed slot.sectname)
        pending := p.pending ++ ((slots.find? fun slot => s.isNamed slot.sectname).map
          fun slot => (s.avma p.out.slide, s.size, slot)).toList } := by
  unfold Pass.sect
  rw [hwanted, matchWanted_eq]
  cases slots.find? fun slot => s.isNamed slot.sectname with
  | none =>
      dsimp only [Option.map_none, Option.toList_none]
      rw [List.append_nil]
      rfl
  | some slot => rfl

theorem mem_openSlots {entries : List PlacedSection} {slot : BytesSlot} :
    slot ∈ openSlots entries ↔ entries.find? (fun e => e.2.isNamed slot.sectname) = none := by
  unfold openSlots
  rw [List.mem_filter, List.find?_eq_none, List.all_eq_true]
  simp [mem_allSlots]

theorem nodup_openSlots (entries : List PlacedSection) : (openSlots entries).Nodup :=
  List.Nodup.filter _ (by decide)

theorem openSlots_append (entries : List PlacedSection) (e : PlacedSection) :
    openSlots (entries ++ [e]) =
      (openSlots entries).eraseP fun slot => e.2.isNamed slot.sectname := by
  rw [LinearSearch.eraseP_eq_filter (pairwise_isNamed (nodup_openSlots entries) e.2)]
  unfold openSlots
  rw [List.filter_filter]
  congr 1
  funext slot
  rw [List.all_append, Bool.and_comm]
  simp

/-- The slot that a section is read for. -/
theorem find?_openSlots {entries : List PlacedSection} {s : Section64} {slot : BytesSlot} :
    (openSlots entries).find? (fun slot => s.isNamed slot.sectname) = some slot ↔
      s.isNamed slot.sectname = true ∧
        entries.find? (fun e => e.2.isNamed slot.sectname) = none := by
  rw [← mem_openSlots]
  constructor
  · intro h
    exact ⟨List.find?_some (p := fun slot : BytesSlot => s.isNamed slot.sectname) h,
      List.mem_of_find?_eq_some h⟩
  · rintro ⟨hnamed, hmem⟩
    cases hfind : (openSlots entries).find? fun slot => s.isNamed slot.sectname with
    | none => exact absurd hnamed (List.find?_eq_none.mp hfind slot hmem)
    | some slot' =>
        have hnamed' : s.isNamed slot'.sectname = true :=
          List.find?_some (p := fun slot : BytesSlot => s.isNamed slot.sectname) hfind
        rw [isNamed_unique hnamed hnamed']

/-- One section more is entered with the slide that is known by then. -/
theorem Entered.sect {entries : List PlacedSection} {p : Pass} (h : Entered entries p)
    (s : Section64) : Entered (entries ++ [(p.out.slide, s)]) (p.sect s) := by
  rw [sect_eq h.wanted s]
  refine ⟨?_, ?_, fun slot => ?_, fun slot => ?_⟩
  · rw [List.filter_append]
    cases hgot : s.isNamed gotName with
    | true =>
        rw [List.filter_cons_of_pos (by exact hgot), List.filter_nil, List.getLast?_concat]
        rfl
    | false =>
        rw [List.filter_cons_of_neg (by simp [hgot]), List.filter_nil, List.append_nil]
        exact h.got
  · rw [openSlots_append]
  · rw [List.filter_append, h.pending slot, List.find?_append]
    -- what the section is read for, among the entries of this slot
    have hread : ((((openSlots entries).find? fun slot => s.isNamed slot.sectname).map
        fun slot => (s.avma p.out.slide, s.size, slot)).toList.filter fun e => e.2.2 = slot) =
          if s.isNamed slot.sectname = true ∧
              entries.find? (fun e => e.2.isNamed slot.sectname) = none
            then [(s.avma p.out.slide, s.size, slot)] else [] := by
      split_ifs with hfor
      · rw [find?_openSlots.mpr hfor]
        simp
      · cases hfind : (openSlots entries).find? fun slot => s.isNamed slot.sectname with
        | none => rfl
        | some slot' =>
            have hne : slot' ≠ slot := by
              rintro rfl
              exact hfor (find?_openSlots.mp hfind)
            simp [hne]
    rw [hread]
    cases hold : entries.find? fun e => e.2.isNamed slot.sectname with
    | some e => simp
    | none =>
        cases hnamed : s.isNamed slot.sectname with
        | true => simp [hnamed]
        | false => simp [hnamed]
  · show (if s.isNamed gotName then _ else p.out).slot slot = none
    rw [← h.slots slot]
    split_ifs
    · cases slot <;> rfl
    · rfl

/-- A section is all that a step over it takes. -/
theorem sect_out (p : Pass) (s : Section64) :
    (p.sect s).out.slide = p.out.slide ∧ (p.sect s).out.textAvma = p.out.textAvma := by
  unfold Pass.sect
  split_ifs <;> split <;> exact ⟨rfl, rfl⟩

theorem Entered.sections {entries : List PlacedSection} {p : Pass} (h : Entered entries p)
    (ss : List Section64) :
    Entered (entries ++ ss.map (Prod.mk p.out.slide)) (ss.foldl Pass.sect p) ∧
      (ss.foldl Pass.sect p).out.slide = p.out.slide ∧
      (ss.foldl Pass.sect p).out.textAvma = p.out.textAvma := by
  induction ss generalizing entries p with
  | nil =>
      rw [List.map_nil, List.append_nil]
      exact ⟨h, rfl, rfl⟩
  | cons s ss ih =>
      obtain ⟨hslide, htext⟩ := sect_out p s
      obtain ⟨hentered, hslide', htext'⟩ := ih (h.sect s)
      rw [hslide, List.append_assoc] at hentered
      exact ⟨hentered, hslide'.trans hslide, htext'.trans htext⟩

/-- What has been found does not depend on what is found of the slide. -/
theorem Entered.slid {entries : List PlacedSection} {p : Pass} (h : Entered entries p)
    (slide : Int64) (textAvma : Option AddrRange) :
    Entered entries { p with out := { p.out with slide, textAvma } } := by
  refine ⟨h.got, h.wanted, h.pending, fun slot => ?_⟩
  rw [← h.slots slot]
  cases slot <;> rfl

/-- Commands other than `__TEXT` leave the slide as it is. -/
theorem Entered.commands {entries : List PlacedSection} {p : Pass} (h : Entered entries p)
    (loadAddress : UInt64) {cs : List Command} (hother : ∀ c ∈ cs, c.isText = false) :
    Entered (entries ++ (cs.flatMap Command.sections).map (Prod.mk p.out.slide))
        (cs.foldl (Pass.command loadAddress) p) ∧
      (cs.foldl (Pass.command loadAddress) p).out.slide = p.out.slide ∧
      (cs.foldl (Pass.command loadAddress) p).out.textAvma = p.out.textAvma := by
  induction cs generalizing entries p with
  | nil =>
      rw [List.flatMap_nil, List.map_nil, List.append_nil]
      exact ⟨h, rfl, rfl⟩
  | cons c cs ih =>
      rw [List.forall_mem_cons] at hother
      have hone : Entered (entries ++ c.sections.map (Prod.mk p.out.slide))
            (p.command loadAddress c) ∧
          (p.command loadAddress c).out.slide = p.out.slide ∧
          (p.command loadAddress c).out.textAvma = p.out.textAvma := by
        cases c with
        | segment seg =>
            have hsegment : p.segment loadAddress seg.command = p :=
              if_neg (ne_true_of_eq_false hother.1)
            rw [Pass.command, hsegment]
            exact h.sections seg.sections
        | uuid id =>
            have hnone : entries ++ (Command.uuid id).sections.map (Prod.mk p.out.slide) = entries :=
              List.append_nil entries
            rw [hnone]
            refine ⟨⟨h.got, h.wanted, h.pending, fun slot => ?_⟩, rfl, rfl⟩
            rw [← h.slots slot]
            cases slot <;> rfl
        | other cmd hsegment huuid payload =>
            have hnone : entries ++ (Command.other cmd hsegment huuid payload).sections.map
                (Prod.mk p.out.slide) = entries := List.append_nil entries
            rw [hnone]
            exact ⟨h, rfl, rfl⟩
      obtain ⟨hentered, hslide, htext⟩ := hone
      obtain ⟨hentered', hslide', htext'⟩ := ih hentered hother.2
      rw [hslide, List.append_assoc, ← List.map_append] at hentered'
      rw [List.flatMap_cons]
      exact ⟨hentered', hslide'.trans hslide, htext'.trans htext⟩

namespace MappedImage

/-- The sections as the pass places them. -/
def entries (img : MappedImage) : List PlacedSection :=
  img.placed.map fun e => (if e.1 then img.slide else 0, e.2)

/-- Where the code of an image lies in the target's memory. -/
def textRange (img : MappedImage) : AddrRange :=
  let start := (img.text.vmaddr.toInt64 + img.slide).toUInt64
  { start, stop := start + img.text.vmsize }

/-- What the pass has found at its end. -/
theorem pass_spec (img : MappedImage) :
    Entered img.entries (img.commands.foldl (Pass.command img.loadAddress) {}) ∧
      (img.commands.foldl (Pass.command img.loadAddress) {}).out.slide = img.slide ∧
      (img.commands.foldl (Pass.command img.loadAddress) {}).out.textAvma = some img.textRange := by
  obtain ⟨hearly, -, -⟩ := entered_start.commands img.loadAddress img.early_other
  rw [List.nil_append] at hearly
  obtain ⟨p, hp⟩ : ∃ p, p = img.early.foldl (Pass.command img.loadAddress) {} := ⟨_, rfl⟩
  rw [← hp] at hearly
  have htext : p.segment img.loadAddress img.text.command =
      { p with out := { p.out with slide := img.slide, textAvma := some img.textRange } } :=
    if_pos img.text_named
  have hentered := htext ▸ hearly.slid img.slide (some img.textRange)
  have hslide : (p.segment img.loadAddress img.text.command).out.slide = img.slide := by rw [htext]
  have hrange : (p.segment img.loadAddress img.text.command).out.textAvma = some img.textRange := by
    rw [htext]
  obtain ⟨hsections, hslide', hrange'⟩ := hentered.sections img.text.sections
  obtain ⟨hlate, hslide'', hrange''⟩ := hsections.commands img.loadAddress img.late_other
  have hfold : img.commands.foldl (Pass.command img.loadAddress) {} =
      img.late.foldl (Pass.command img.loadAddress)
        (img.text.sections.foldl Pass.sect (p.segment img.loadAddress img.text.command)) := by
    rw [commands, List.foldl_append, ← hp]
    rfl
  rw [hfold]
  refine ⟨?_, hslide''.trans (hslide'.trans hslide), hrange''.trans (hrange'.trans hrange)⟩
  rw [hslide', hslide, List.append_assoc, ← List.map_append] at hlate
  have hentries : img.entries = (img.early.flatMap Command.sections).map (Prod.mk (0 : Int64)) ++
      (img.text.sections ++ img.late.flatMap Command.sections).map (Prod.mk img.slide) := by
    unfold entries placed
    rw [List.map_append, List.map_map, List.map_map]
    rfl
  rw [hentries]
  exact hlate

end MappedImage

/-! ## Reading the sections -/

theorem assign_slot (slot slot' : BytesSlot) (out : MachoSections) (data : SectionData) :
    (slot.assign out data).slot slot' = if slot = slot' then some data else out.slot slot' := by
  cases slot <;> cases slot' <;> rfl

theorem drainOne_slot (readExact : UInt64 → ℕ → Option (List UInt8)) (out : MachoSections)
    (avma size : UInt64) (slot slot' : BytesSlot) :
    (drainOne readExact out (avma, size, slot)).slot slot' =
      if slot = slot' then (readSection readExact avma size).or (out.slot slot')
      else out.slot slot' := by
  unfold drainOne readSection
  dsimp only
  by_cases hsize : size = 0 ∨ sectionSizeCap < size
  · rw [if_pos hsize, if_pos hsize, Option.none_or, ite_self]
  · rw [if_neg hsize, if_neg hsize]
    cases readExact avma size.toNat with
    | none => rw [Option.map_none, Option.none_or, ite_self]
    | some bytes => exact assign_slot slot slot' out _

/-- Reading a section changes nothing but its slot. -/
theorem drainOne_rest (readExact : UInt64 → ℕ → Option (List UInt8)) (out : MachoSections)
    (entry : UInt64 × UInt64 × BytesSlot) :
    (drainOne readExact out entry).slide = out.slide ∧
      (drainOne readExact out entry).textAvma = out.textAvma ∧
      (drainOne readExact out entry).gotAvma = out.gotAvma := by
  obtain ⟨avma, size, slot⟩ := entry
  unfold drainOne
  dsimp only
  split_ifs
  · exact ⟨rfl, rfl, rfl⟩
  · split
    · cases slot <;> exact ⟨rfl, rfl, rfl⟩
    · exact ⟨rfl, rfl, rfl⟩

theorem drain_rest (readExact : UInt64 → ℕ → Option (List UInt8))
    (pending : List (UInt64 × UInt64 × BytesSlot)) (out : MachoSections) :
    (pending.foldl (drainOne readExact) out).slide = out.slide ∧
      (pending.foldl (drainOne readExact) out).textAvma = out.textAvma ∧
      (pending.foldl (drainOne readExact) out).gotAvma = out.gotAvma := by
  induction pending generalizing out with
  | nil => exact ⟨rfl, rfl, rfl⟩
  | cons entry pending ih =>
      obtain ⟨hslide, htext, hgot⟩ := drainOne_rest readExact out entry
      obtain ⟨hslide', htext', hgot'⟩ := ih (drainOne readExact out entry)
      exact ⟨hslide'.trans hslide, htext'.trans htext, hgot'.trans hgot⟩

/-- A slot is only changed by the entries for it. -/
theorem drain_slot (readExact : UInt64 → ℕ → Option (List UInt8))
    (pending : List (UInt64 × UInt64 × BytesSlot)) (out : MachoSections) (slot : BytesSlot) :
    (pending.foldl (drainOne readExact) out).slot slot =
      (pending.filter fun e => e.2.2 = slot).foldl
        (fun data e => (readSection readExact e.1 e.2.1).or data) (out.slot slot) := by
  induction pending generalizing out with
  | nil => rfl
  | cons entry pending ih =>
      obtain ⟨avma, size, slot'⟩ := entry
      rw [List.foldl_cons, ih, drainOne_slot]
      by_cases hslot : slot' = slot
      · rw [if_pos hslot, List.filter_cons_of_pos (by simpa using hslot), List.foldl_cons]
      · rw [if_neg hslot, List.filter_cons_of_neg (by simpa using hslot)]

namespace MappedImage

/-- What is recorded of an image. -/
structure Recorded (img : MappedImage) (out : MachoSections) : Prop where
  slide : out.slide = img.slide
  text : out.textAvma = some img.textRange
  got : out.gotAvma = ((img.entries.filter fun e => e.2.isNamed gotName).getLast?).map
    fun e => e.2.range e.1
  slot : ∀ slot : BytesSlot, out.slot slot =
    (img.entries.find? fun e => e.2.isNamed slot.sectname).bind
      fun e => readSection img.readExact (e.2.avma e.1) e.2.size

theorem length_commands_lt (img : MappedImage) : img.commands.length < 2 ^ 32 := by
  have hle : img.commands.length ≤ (img.commands.flatMap Command.encode).length := by
    rw [List.length_flatMap]
    have hone : ∀ n ∈ img.commands.map fun c => c.encode.length, 1 ≤ n := by
      rintro n hn
      obtain ⟨c, -, rfl⟩ := List.mem_map.mp hn
      rw [c.length_encode]
      omega
    calc img.commands.length = (img.commands.map fun c => c.encode.length).length := by simp
      _ ≤ _ := by simpa using List.length_le_sum_of_one_le _ hone
  exact Nat.lt_of_le_of_lt hle img.size_lt

/-- What is parsed: all that the pass finds, with the sections read after it. -/
theorem parse_eq (img : MappedImage) :
    img.parse = some
      ((img.commands.foldl (Pass.command img.loadAddress) {}).pending.foldl (drainOne img.readExact)
        (img.commands.foldl (Pass.command img.loadAddress) {}).out) := by
  have hloop := commandsLoop_eq img.loadAddress img.commands [] img.size_lt {}
  rw [List.nil_append, List.length_nil] at hloop
  have hncmds : (UInt32.ofNat img.commands.length).toNat = img.commands.length :=
    UInt32.toNat_ofNat_of_lt' img.length_commands_lt
  have hsize : (UInt32.ofNat (img.commands.flatMap Command.encode).length).toNat =
      (img.commands.flatMap Command.encode).length := UInt32.toNat_ofNat_of_lt' img.size_lt
  unfold parse parseImage
  rw [img.header_there, Option.bind_eq_bind, Option.bind_some, MachHeader64.read_encode]
  dsimp only
  rw [if_neg (not_not_intro rfl)]
  change ((img.readExact (img.loadAddress + 32)
    (UInt32.ofNat (img.commands.flatMap Command.encode).length).toNat).bind _) = _
  rw [hsize, show img.readExact (img.loadAddress + 32)
    (img.commands.flatMap Command.encode).length =
      some (img.commands.flatMap Command.encode) from img.commands_there, Option.bind_some]
  rw [← hncmds] at hloop
  exact congrArg (fun pass => some (pass.pending.foldl (drainOne img.readExact) pass.out)) hloop

theorem parse_spec (img : MappedImage) : ∃ out, img.parse = some out ∧ img.Recorded out := by
  obtain ⟨hentered, hslide, htext⟩ := img.pass_spec
  have hparse := img.parse_eq
  obtain ⟨pass, hpass⟩ : ∃ pass, pass = img.commands.foldl (Pass.command img.loadAddress) {} :=
    ⟨_, rfl⟩
  rw [← hpass] at hentered hslide htext hparse
  obtain ⟨hslide', htext', hgot'⟩ := drain_rest img.readExact pass.pending pass.out
  refine ⟨_, hparse, hslide'.trans hslide, htext'.trans htext, hgot'.trans hentered.got,
    fun slot => ?_⟩
  rw [drain_slot, hentered.pending slot, hentered.slots slot]
  cases img.entries.find? fun e => e.2.isNamed slot.sectname with
  | none => rfl
  | some e => exact Option.or_none

end MappedImage

/-! ## Right and wrong places -/

section

variable {s : Section64} {slide slide' : Int64}

theorem Section64.avma_zero (s : Section64) : s.avma 0 = s.addr := by
  unfold avma
  rw [Int64.add_zero, UInt64.toUInt64_toInt64]

theorem Section64.avma_inj : s.avma slide = s.avma slide' ↔ slide = slide' := by
  constructor
  · intro h
    have hsum : s.addr.toInt64 + slide = s.addr.toInt64 + slide' := congrArg UInt64.toInt64 h
    exact (Int64.add_right_inj _).mp hsum
  · rintro rfl
    rfl

theorem Section64.range_inj : s.range slide = s.range slide' ↔ slide = slide' := by
  constructor
  · intro h
    exact Section64.avma_inj.mp (congrArg AddrRange.start h)
  · rintro rfl
    rfl

/-- A recorded place goes back to the place in the file. -/
theorem Section64.avmaToSvma_range {out : MachoSections} (hslide : out.slide = slide) :
    out.avmaToSvma (s.range slide) = s.linkRange := by
  have hback (n : UInt64) : (n.toInt64 - slide).toUInt64 = n - slide.toUInt64 := by
    rw [Int64.toUInt64_sub, UInt64.toUInt64_toInt64]
  have hthere : s.avma slide = s.addr + slide.toUInt64 := by
    rw [avma, Int64.toUInt64_add, UInt64.toUInt64_toInt64]
  unfold MachoSections.avmaToSvma range linkRange
  rw [hslide]
  dsimp only
  rw [hback, hback, hthere, UInt64.add_sub_cancel, add_right_comm, UInt64.add_sub_cancel]

theorem readSection_eq_none_iff {readExact : UInt64 → ℕ → Option (List UInt8)}
    {avma size : UInt64} : readSection readExact avma size = none ↔
      size = 0 ∨ sectionSizeCap < size ∨ readExact avma size.toNat = none := by
  unfold readSection
  rw [← or_assoc]
  split_ifs with hsize
  · exact iff_of_true rfl (Or.inl hsize)
  · rw [Option.map_eq_none_iff, or_iff_right hsize]

/-- Nothing is said of two places that both hold and differ. -/
theorem readSection_eq_iff {readExact : UInt64 → ℕ → Option (List UInt8)}
    {avma avma' size : UInt64} : readSection readExact avma size = readSection readExact avma' size ↔
      avma = avma' ∨
        (readSection readExact avma size = none ∧ readSection readExact avma' size = none) := by
  constructor
  · intro h
    cases hdata : readSection readExact avma size with
    | none => exact Or.inr ⟨rfl, h.symm.trans hdata⟩
    | some data =>
        have hplace {place : UInt64} (hread : readSection readExact place size = some data) :
            data.avma.start = place := by
          unfold readSection at hread
          split_ifs at hread
          obtain ⟨bytes, -, rfl⟩ := Option.map_eq_some_iff.mp hread
          rfl
        exact Or.inl ((hplace hdata).symm.trans (hplace (h.symm.trans hdata)))
  · rintro (rfl | ⟨hnone, hnone'⟩)
    · rfl
    · rw [hnone, hnone']

end

namespace MappedImage

variable {img other : MappedImage} {out out' : MachoSections}

/-- The slide by which the pass places a section. -/
def slideOf (img : MappedImage) (e : Bool × Section64) : Int64 := if e.1 then img.slide else 0

theorem slideOf_eq_iff (e : Bool × Section64) :
    img.slideOf e = img.slide ↔ img.slide = 0 ∨ e.1 = true := by
  unfold slideOf
  split_ifs with h
  · exact iff_of_true rfl (Or.inr h)
  · rw [or_iff_left h]
    exact eq_comm

theorem range_slideOf_iff (e : Bool × Section64) :
    e.2.range (img.slideOf e) = e.2.range img.slide ↔ img.slide = 0 ∨ e.1 = true := by
  rw [Section64.range_inj, slideOf_eq_iff]

theorem data_slideOf_iff (e : Bool × Section64) :
    readSection img.readExact (e.2.avma (img.slideOf e)) e.2.size =
        readSection img.readExact (e.2.avma img.slide) e.2.size ↔
      img.slide = 0 ∨ e.1 = true ∨ img.Unread e.2 := by
  rw [readSection_eq_iff, Section64.avma_inj, slideOf_eq_iff, or_assoc]
  refine or_congr_right' fun hslide => or_congr_right' fun hearly => ?_
  have hzero : img.slideOf e = 0 := if_neg hearly
  rw [hzero, Section64.avma_zero, readSection_eq_none_iff, readSection_eq_none_iff, ← or_and_left,
    ← or_and_left]
  rfl

theorem map_snd_placed (img : MappedImage) : img.placed.map Prod.snd = img.sections := by
  unfold placed sections commands
  rw [List.map_append, List.map_map, List.map_map, List.flatMap_append, List.flatMap_cons]
  exact congrArg₂ (· ++ ·) (List.map_id _) (List.map_id _)

/-- The `__got` that counts, and whether `__TEXT` has come. -/
def placedGot (img : MappedImage) : Option (Bool × Section64) :=
  (img.placed.filter fun e => e.2.isNamed gotName).getLast?

/-- The section that a place is filled from, and whether the slide was known by then. -/
def placedFor (img : MappedImage) (slot : BytesSlot) : Option (Bool × Section64) :=
  img.placed.find? fun e => e.2.isNamed slot.sectname

theorem got_eq (img : MappedImage) : img.got = img.placedGot.map Prod.snd := by
  unfold got placedGot
  rw [← map_snd_placed, List.filter_map, List.getLast?_map]
  rfl

theorem wanted_eq (img : MappedImage) (slot : BytesSlot) :
    img.wanted slot = (img.placedFor slot).map Prod.snd := by
  unfold wanted placedFor
  rw [← map_snd_placed, List.find?_map]
  rfl

theorem Recorded.got_eq (h : img.Recorded out) :
    out.gotAvma = img.placedGot.map fun e => e.2.range (img.slideOf e) := by
  rw [h.got, entries, List.filter_map, List.getLast?_map, Option.map_map]
  rfl

theorem Recorded.slot_eq (h : img.Recorded out) (slot : BytesSlot) :
    out.slot slot = (img.placedFor slot).bind fun e =>
      readSection img.readExact (e.2.avma (img.slideOf e)) e.2.size := by
  rw [h.slot slot, entries, List.find?_map, Option.bind_map]
  rfl

theorem got_right_iff (h : img.Recorded out) :
    out.gotAvma = img.got.map (Section64.range img.slide) ↔
      img.slide = 0 ∨ ∀ e ∈ img.placedGot, e.1 = true := by
  rw [h.got_eq, MappedImage.got_eq, Option.map_map]
  cases img.placedGot with
  | none => simp
  | some e =>
      simp only [Option.map_some, Option.some_inj, Function.comp_apply, Option.mem_def,
        forall_eq']
      exact range_slideOf_iff e

theorem slot_right_iff (h : img.Recorded out) (slot : BytesSlot) :
    (out.slot slot = (img.wanted slot).bind fun s =>
        readSection img.readExact (s.avma img.slide) s.size) ↔
      img.slide = 0 ∨ ∀ e ∈ img.placedFor slot, e.1 = true ∨ img.Unread e.2 := by
  rw [h.slot_eq, wanted_eq, Option.bind_map]
  cases img.placedFor slot with
  | none => simp
  | some e =>
      simp only [Option.bind_some, Function.comp_apply, Option.mem_def, Option.some_inj,
        forall_eq']
      exact data_slideOf_iff e

/-- What is recorded in the right place goes back to where it is in the file. -/
theorem sectionsRight_iff (h : img.Recorded out) :
    img.SectionsRight out ↔ out.gotAvma = img.got.map (Section64.range img.slide) ∧
      ∀ slot, out.slot slot = (img.wanted slot).bind fun s =>
        readSection img.readExact (s.avma img.slide) s.size := by
  constructor
  · exact fun hright => ⟨hright.got, hright.slot⟩
  · rintro ⟨hgot, hslot⟩
    refine ⟨hgot, hslot, fun r hr => ?_, fun slot data hdata => ?_⟩
    · rw [hgot] at hr
      obtain ⟨s, hs, rfl⟩ := Option.map_eq_some_iff.mp hr
      exact ⟨s, hs, Section64.avmaToSvma_range h.slide⟩
    · rw [hslot slot] at hdata
      obtain ⟨s, hs, hread⟩ := Option.bind_eq_some_iff.mp hdata
      refine ⟨s, hs, ?_⟩
      unfold readSection at hread
      split_ifs at hread
      obtain ⟨bytes, -, rfl⟩ := Option.map_eq_some_iff.mp hread
      exact Section64.avmaToSvma_range h.slide

/-- Everything is in its place exactly if the slide was known in time. -/
theorem right_iff (h : img.Recorded out) : img.SectionsRight out ↔ img.SlideInTime := by
  rw [sectionsRight_iff h, got_right_iff h]
  simp only [slot_right_iff h]
  rw [forall_or_left, ← or_and_left]
  rfl

/-! ## Other orders -/

theorem Reorders.text (h : img.Reorders other) : other.text = img.text := by
  have hmem : Command.segment other.text ∈ img.commands := by
    refine h.commands.mem_iff.mp (List.mem_append_right _ ?_)
    exact List.mem_cons_self
  have htext : (Command.segment other.text).isText = true := other.text_named
  rcases List.mem_append.mp hmem with hearly | hrest
  · rw [img.early_other _ hearly] at htext
    cases htext
  · rcases List.mem_cons.mp hrest with heq | hlate
    · exact Command.segment.inj heq
    · rw [img.late_other _ hlate] at htext
      cases htext

theorem Reorders.slide (h : img.Reorders other) : other.slide = img.slide := by
  unfold MappedImage.slide
  rw [h.loadAddress, h.text]

theorem Reorders.textRange (h : img.Reorders other) : other.textRange = img.textRange := by
  unfold MappedImage.textRange
  rw [h.slide, h.text]

theorem Reorders.sections (h : img.Reorders other) : other.sections.Perm img.sections :=
  h.commands.flatMap_right Command.sections

theorem Reorders.got (h : img.Reorders other) : other.got = img.got := by
  have hother : (other.sections.filter (Section64.isNamed gotName)).length ≤ 1 := by
    rw [(h.sections.filter _).length_eq]
    exact h.got_once
  unfold MappedImage.got
  rw [LinearSearch.getLast?_filter_eq_find? hother, LinearSearch.getLast?_filter_eq_find? h.got_once]
  exact (LinearSearch.find?_eq_of_perm h.sections.symm
    (LinearSearch.eq_of_length_filter_le_one h.got_once)).symm

theorem Reorders.wanted (h : img.Reorders other) (slot : BytesSlot) :
    other.wanted slot = img.wanted slot :=
  (LinearSearch.find?_eq_of_perm h.sections.symm
    (LinearSearch.eq_of_length_filter_le_one (h.wanted_once slot))).symm

/-- The bytes of a section are the same in another order of the commands. -/
theorem Reorders.data (h : img.Reorders other) (slot : BytesSlot) :
    ((other.wanted slot).bind fun s =>
        readSection other.readExact (s.avma other.slide) s.size) =
      (img.wanted slot).bind fun s => readSection img.readExact (s.avma img.slide) s.size := by
  rw [h.wanted slot, h.slide]
  cases hwanted : img.wanted slot with
  | none => rfl
  | some s =>
      rw [Option.bind_some, Option.bind_some]
      unfold readSection
      rw [h.memory s (List.mem_of_find?_eq_some hwanted)]

end MappedImage

/-- What is recorded, but for the UUID. -/
def MachoSections.located (self : MachoSections) : MachoSections := { self with uuid := none }

/-- Two results say the same of where things are just when they agree in slide, code, table and
every place for bytes. -/
theorem located_eq_iff {out out' : MachoSections} :
    out'.located = out.located ↔ out'.slide = out.slide ∧ out'.textAvma = out.textAvma ∧
      out'.gotAvma = out.gotAvma ∧ ∀ slot, out'.slot slot = out.slot slot := by
  constructor
  · intro h
    have hfield {α : Type} (f : MachoSections → α) : f out'.located = f out.located := congrArg f h
    refine ⟨hfield MachoSections.slide, hfield MachoSections.textAvma,
      hfield MachoSections.gotAvma, fun slot => ?_⟩
    cases slot
    · exact hfield MachoSections.unwindInfo
    · exact hfield MachoSections.compactUnwind
    · exact hfield MachoSections.ehFrame
    · exact hfield MachoSections.ehFrameHdr
  · rintro ⟨hslide, htext, hgot, hslot⟩
    have h₁ : out'.unwindInfo = out.unwindInfo := hslot .unwindInfo
    have h₂ : out'.compactUnwind = out.compactUnwind := hslot .compactUnwind
    have h₃ : out'.ehFrame = out.ehFrame := hslot .ehFrame
    have h₄ : out'.ehFrameHdr = out.ehFrameHdr := hslot .ehFrameHdr
    unfold MachoSections.located
    rw [hslide, htext, hgot, h₁, h₂, h₃, h₄]

namespace MappedImage

variable {img other : MappedImage} {out out' : MachoSections}

/-- Where one order gives the right places, another gives the same exactly if it gives the right
ones. -/
theorem located_eq_iff_right (hout : img.Recorded out) (hout' : other.Recorded out')
    (hreorders : img.Reorders other) (hright : img.SectionsRight out) :
    out'.located = out.located ↔ other.SectionsRight out' := by
  have hslide : out'.slide = out.slide := by rw [hout.slide, hout'.slide, hreorders.slide]
  have htext : out'.textAvma = out.textAvma := by rw [hout.text, hout'.text, hreorders.textRange]
  rw [located_eq_iff, sectionsRight_iff hout', hreorders.got, hreorders.slide, ← hright.got]
  have hslots : (∀ slot, out'.slot slot = (other.wanted slot).bind fun s =>
      readSection other.readExact (s.avma img.slide) s.size) ↔
        ∀ slot, out'.slot slot = out.slot slot := by
    refine forall_congr' fun slot => ?_
    rw [hright.slot slot, ← hreorders.data slot, hreorders.slide]
  rw [hslots]
  exact ⟨fun h => h.2.2, fun h => ⟨hslide, htext, h⟩⟩

/-- Sections are recorded in their places exactly if the slide was known in time, and where it was,
exactly the orders in which it was give the same. -/
theorem section_places_iff (img : MappedImage) :
    ∃ out, img.parse = some out ∧ (img.SectionsRight out ↔ img.SlideInTime) ∧
      ∀ other : MappedImage, img.Reorders other → ∃ out', other.parse = some out' ∧
        (img.SlideInTime → (out'.located = out.located ↔ other.SlideInTime)) := by
  obtain ⟨out, hparse, hout⟩ := img.parse_spec
  refine ⟨out, hparse, right_iff hout, fun other hreorders => ?_⟩
  obtain ⟨out', hparse', hout'⟩ := other.parse_spec
  refine ⟨out', hparse', fun hintime => ?_⟩
  rw [located_eq_iff_right hout hout' hreorders ((right_iff hout).mpr hintime), right_iff hout']

/-! ## The UUID -/

end MappedImage

/-- The identity that a command tells. -/
def Command.uuid? : Command → Option (Fixed 16)
  | .uuid id => some id
  | .segment _ | .other _ _ _ _ => none

/-- A command with an identity replaces the one there was; any other leaves it. -/
theorem uuid_command (loadAddress : UInt64) (p : Pass) (c : Command) :
    (p.command loadAddress c).out.uuid = c.uuid?.or p.out.uuid := by
  cases c with
  | segment seg =>
      have hsect (p : Pass) (s : Section64) : (p.sect s).out.uuid = p.out.uuid := by
        unfold Pass.sect
        dsimp only
        split <;> split_ifs <;> rfl
      have hsects (p : Pass) : (seg.sections.foldl Pass.sect p).out.uuid = p.out.uuid := by
        induction seg.sections generalizing p with
        | nil => rfl
        | cons s sections ih => exact (ih (p.sect s)).trans (hsect p s)
      refine (hsects _).trans ?_
      unfold Pass.segment
      split_ifs <;> rfl
  | uuid id => rfl
  | other cmd hsegment huuid payload => rfl

/-- The last UUID stays. -/
theorem uuid_commands (loadAddress : UInt64) (cs : List Command) (p : Pass) :
    (cs.foldl (Pass.command loadAddress) p).out.uuid =
      (cs.filterMap Command.uuid?).getLast?.or p.out.uuid := by
  induction cs using List.reverseRecOn with
  | nil => rfl
  | append_singleton cs c ih =>
      rw [List.foldl_append, List.foldl_cons, List.foldl_nil, uuid_command, ih,
        List.filterMap_append, List.getLast?_append, Option.or_assoc]
      cases hc : c.uuid? <;> simp [hc]

theorem uuid_drain (readExact : UInt64 → ℕ → Option (List UInt8))
    (pending : List (UInt64 × UInt64 × BytesSlot)) (out : MachoSections) :
    (pending.foldl (drainOne readExact) out).uuid = out.uuid := by
  induction pending generalizing out with
  | nil => rfl
  | cons entry pending ih =>
      refine (ih _).trans ?_
      unfold drainOne
      dsimp only
      split_ifs
      · rfl
      · split
        · cases entry.2.2 <;> rfl
        · rfl

namespace MappedImage

theorem uuid_of_parse {img : MappedImage} {out : MachoSections} (h : img.parse = some out) :
    out.uuid = (img.commands.filterMap Command.uuid?).getLast? := by
  obtain rfl := Option.some_inj.mp (img.parse_eq.symm.trans h)
  rw [uuid_drain, uuid_commands]
  exact Option.or_none

/-- With one `LC_UUID` at most, what `located` leaves out is the same in every order. -/
theorem Reorders.eq_iff_located {img other : MappedImage} {out out' : MachoSections}
    (h : img.Reorders other) (honce : (img.commands.filterMap Command.uuid?).length ≤ 1)
    (hout : img.parse = some out) (hout' : other.parse = some out') :
    out' = out ↔ out'.located = out.located := by
  have hperm := h.commands.filterMap Command.uuid?
  have hsame : other.commands.filterMap Command.uuid? = img.commands.filterMap Command.uuid? := by
    rcases Nat.le_one_iff_eq_zero_or_eq_one.mp honce with hnone | hone
    · rw [List.length_eq_zero_iff.mp hnone] at hperm ⊢
      exact hperm.eq_nil
    · obtain ⟨id, hid⟩ := List.length_eq_one_iff.mp hone
      rw [hid] at hperm ⊢
      exact hperm.eq_singleton
  have huuid : out'.uuid = out.uuid := by
    rw [uuid_of_parse hout, uuid_of_parse hout', hsame]
  refine ⟨congrArg MachoSections.located, fun hlocated => ?_⟩
  have hall : { out'.located with uuid := out'.uuid } = { out.located with uuid := out.uuid } := by
    rw [hlocated, huuid]
  exact hall

/-! ## A `__got` in front of `__TEXT` -/

/-- Zeros, behind a name. -/
def padded (width : ℕ) (bytes : List UInt8) : Fixed width :=
  ⟨(bytes ++ List.replicate width 0).take width, by simp⟩

/-- A global offset table in a segment of data. -/
def gotSection : Section64 where
  sectname := padded 16 gotName
  segname := padded 16 (utf8Bytes "__DATA_CONST")
  addr := 0x4000
  size := 0x10
  rest := padded 32 []

/-- A segment with a `__got`. -/
def dataSegment : Segment where
  segname := padded 16 (utf8Bytes "__DATA_CONST")
  vmaddr := 0x4000
  vmsize := 0x4000
  limits := padded 24 []
  flags := padded 4 []
  sections := [gotSection]

/-- `__TEXT` alone. -/
def textSegment : Segment where
  segname := padded 16 textName
  vmaddr := 0x8000
  vmsize := 0x4000
  limits := padded 24 []
  flags := padded 4 []
  sections := []

/-- The commands of an image with the segment of data before that of code. -/
def dataFirstCommands : List UInt8 :=
  ([Command.segment dataSegment] ++ Command.segment textSegment :: []).flatMap Command.encode

theorem length_dataFirstCommands : dataFirstCommands.length = 224 := by rfl

/-- The header of that image. -/
def dataFirstHeader : List UInt8 :=
  MachHeader64.encode
    { magic := mhMagic64
      kind := padded 12 []
      ncmds := UInt32.ofNat ([Command.segment dataSegment] ++ Command.segment textSegment :: []).length
      sizeofcmds := UInt32.ofNat dataFirstCommands.length
      flags := padded 8 [] }

/-- An image loaded behind the first four gigabytes, whose `__got` comes before `__TEXT`. -/
def dataFirst : MappedImage where
  loadAddress := 0x100008000
  readExact := fun addr len =>
    if addr = 0x100008000 ∧ len = 32 then some dataFirstHeader
    else if addr = 0x100008020 ∧ len = dataFirstCommands.length then some dataFirstCommands
    else none
  kind := padded 12 []
  flags := padded 8 []
  early := [Command.segment dataSegment]
  text := textSegment
  late := []
  text_named := by decide
  early_other := by
    intro c hc
    rw [List.mem_singleton.mp hc]
    decide
  late_other := by
    intro c hc
    cases hc
  size_lt := lt_of_eq_of_lt length_dataFirstCommands (by norm_num)
  header_there := if_pos ⟨rfl, rfl⟩
  commands_there :=
    (if_neg fun h => absurd h.1 (by decide)).trans (if_pos ⟨by decide, rfl⟩)

/-- The `__got` is recorded where it is in the file, four gigabytes away. -/
theorem dataFirst_wrong :
    ∃ out, dataFirst.parse = some out ∧
      out.gotAvma = some { start := 0x4000, stop := 0x4010 } ∧
      dataFirst.got.map (Section64.range dataFirst.slide) =
        some { start := 0x100004000, stop := 0x100004010 } ∧ ¬ dataFirst.SectionsRight out := by
  obtain ⟨out, hparse, hout⟩ := dataFirst.parse_spec
  have hgot : out.gotAvma = some { start := 0x4000, stop := 0x4010 } := by
    rw [hout.got_eq]
    decide
  have hright : dataFirst.got.map (Section64.range dataFirst.slide) =
      some { start := 0x100004000, stop := 0x100004010 } := by decide
  refine ⟨out, hparse, hgot, hright, fun h => ?_⟩
  have hsame := h.got
  rw [hgot, hright] at hsame
  revert hsame
  decide

/-- The same commands with the segment of code first. -/
def textFirstCommands : List UInt8 :=
  ([] ++ Command.segment textSegment :: [Command.segment dataSegment]).flatMap Command.encode

theorem length_textFirstCommands : textFirstCommands.length = 224 := by rfl

/-- The header of the image in that order. -/
def textFirstHeader : List UInt8 :=
  MachHeader64.encode
    { magic := mhMagic64
      kind := padded 12 []
      ncmds := UInt32.ofNat ([] ++ Command.segment textSegment :: [Command.segment dataSegment]).length
      sizeofcmds := UInt32.ofNat textFirstCommands.length
      flags := padded 8 [] }

/-- The same image with its commands the other way round. -/
def textFirst : MappedImage where
  loadAddress := 0x100008000
  readExact := fun addr len =>
    if addr = 0x100008000 ∧ len = 32 then some textFirstHeader
    else if addr = 0x100008020 ∧ len = textFirstCommands.length then some textFirstCommands
    else none
  kind := padded 12 []
  flags := padded 8 []
  early := []
  text := textSegment
  late := [Command.segment dataSegment]
  text_named := by decide
  early_other := by
    intro c hc
    cases hc
  late_other := by
    intro c hc
    rw [List.mem_singleton.mp hc]
    decide
  size_lt := lt_of_eq_of_lt length_textFirstCommands (by norm_num)
  header_there := if_pos ⟨rfl, rfl⟩
  commands_there :=
    (if_neg fun h => absurd h.1 (by decide)).trans (if_pos ⟨by decide, rfl⟩)

theorem reorders_dataFirst : textFirst.Reorders dataFirst where
  loadAddress := rfl
  commands := List.Perm.swap _ _ _
  got_once := by decide
  wanted_once := fun slot => by cases slot <;> decide
  memory := by
    intro s hs
    obtain rfl : s = gotSection := List.mem_singleton.mp hs
    decide +kernel

/-- Behind `__TEXT` the `__got` is recorded right, in front of it something else is recorded. -/
theorem section_places_iff_textFirst :
    ∃ out out', textFirst.parse = some out ∧ dataFirst.parse = some out' ∧
      textFirst.SectionsRight out ∧ out'.located ≠ out.located ∧ out' ≠ out := by
  obtain ⟨out, hparse, hright, hothers⟩ := section_places_iff textFirst
  obtain ⟨out', hparse', hsame⟩ := hothers dataFirst reorders_dataFirst
  have hintime : textFirst.SlideInTime := by
    refine Or.inr ⟨by decide, fun slot e he => Or.inl ?_⟩
    have hnone : textFirst.placed.find? (fun e => e.2.isNamed slot.sectname) = none := by
      cases slot <;> decide
    simp [hnone] at he
  have hlate : ¬ dataFirst.SlideInTime := by
    rintro (hzero | ⟨hgot, -⟩)
    · exact absurd hzero (by decide)
    · revert hgot
      decide
  have hlocated : out'.located ≠ out.located := fun h => hlate ((hsame hintime).mp h)
  refine ⟨out, out', hparse, hparse', hright.mpr hintime, hlocated, fun h => hlocated ?_⟩
  exact (reorders_dataFirst.eq_iff_located (by decide) hparse hparse').mp h

end MappedImage

end Stax.TargetImages
