/-
# Stax.Live.Highlight — a line of text cut into classified tokens.

The grammar marks spans of a text, in any order and one inside the other.  They are gone through by
where they begin, with a cursor behind what has a token already; a span gets what it reaches beyond
the cursor, and what no span reaches is plain.  Neighbours of one class become one token.

The tokens are described byte by byte: a byte has the class of the first span over it, in the order
in which they are gone through.  So the text comes back whole whatever the spans are, and an inner
span of a higher priority is not seen.

The grammars and the table of capture names are parameters.
-/
import Stax.Lib.CharText
import Stax.Lib.GroupTree
import Stax.Live.Disassembly

namespace Stax.Live

open Stax.Lib Stax.Lib.CharText

/-! ## Spans and classes -/

/-- The theme's slots for what a grammar captures. -/
inductive ThemeSlot
  | keyword | function | string | comment | type | variable | constant | number | operator
  | punctuation | property | attribute | tag | macros | label | namespace | constructor | title
  | strong | emphasis | link | literal | strikethrough | diffAdd | diffDelete | embedded | error
  | none
  deriving DecidableEq, Repr

/-- The class that a theme's slot is sent as; every slot has exactly one. -/
def slotToClass : ThemeSlot → TokenClass
  | .keyword => .keyword
  | .function => .function
  | .string => .string
  | .comment => .comment
  | .type => .type
  | .variable => .variable
  | .constant => .constant
  | .number => .number
  | .operator => .operator
  | .punctuation => .punctuation
  | .property => .property
  | .attribute => .attribute
  | .tag => .tag
  | .macros => .macros
  | .label => .label
  | .namespace => .namespace
  | .constructor => .constructor
  | .title => .title
  | .strong => .strong
  | .emphasis => .emphasis
  | .link => .link
  | .literal => .literal
  | .strikethrough => .strikethrough
  | .diffAdd => .diffAdd
  | .diffDelete => .diffDelete
  | .embedded => .embedded
  | .error => .error
  | .none => .plain

/-- What a grammar marks: the bytes from `start` to `stop`. -/
structure HighlightSpan where
  start : UInt32
  stop : UInt32
  capture : String
  patternIndex : UInt32
  deriving DecidableEq, Repr

/-- By where they begin; of those that begin together the last pattern comes first. -/
def compareSpans (a b : HighlightSpan) : Ordering :=
  (compare a.start.toNat b.start.toNat).then (compare b.patternIndex.toNat a.patternIndex.toNat)

/-! ## Tokens -/

/-- `&text[start..stop]`. -/
def sliceText (text : String) (start stop : ℕ) : Except String String :=
  match slice? text.toList start stop with
  | some cs => .ok (String.ofList cs)
  | none => .error "byte range is no slice of the text"

/-- The tokens of a text that no grammar has anything to say about. -/
def plain (text : String) : List Token := if text.isEmpty then [] else [{ text, kind := .plain }]

/-- Appends text of a class to the tokens, joining the last of them where it has the same class. -/
def pushRun (out : List Token) (text : String) (kind : TokenClass) : List Token :=
  if text.isEmpty then out
  else
    match out.getLast? with
    | some last =>
      if last.kind = kind then out.dropLast ++ [{ last with text := last.text ++ text }]
      else out ++ [{ text, kind }]
    | none => [{ text, kind }]

section

variable (captureToSlot : String → ThemeSlot)

/-- What is plain between the cursor and a span. -/
def pushGap (text : String) (out : List Token) (cursor start : ℕ) : Except String (List Token) :=
  if cursor < start then return pushRun out (← sliceText text cursor start) .plain else return out

/-- One span: the tokens so far, and the cursor. -/
def pushSpan (text : String) (state : List Token × ℕ) (span : HighlightSpan) :
    Except String (List Token × ℕ) :=
  let (out, cursor) := state
  let length := byteLength text.toList
  if span.stop.toNat ≤ cursor ∨ length ≤ span.start.toNat then return state
  else do
    let start := max span.start.toNat cursor
    let stop := min span.stop.toNat length
    let out ← pushGap text out cursor start
    let kind := slotToClass (captureToSlot span.capture)
    return (pushRun out (← sliceText text start stop) kind, stop)

/-- A text cut along the spans of a grammar; what no span covers is plain. -/
def spansToTokens (text : String) (spans : List HighlightSpan) : Except String (List Token) :=
  if text.isEmpty then return []
  else if spans.isEmpty then return plain text
  else do
    let (out, cursor) ← (sortBy compareSpans spans).foldlM (pushSpan captureToSlot text) ([], 0)
    pushGap text out cursor (byteLength text.toList)

end

/-! ## Well-marked spans -/

/-- A span is not inverted, and cuts the text between characters, or lies behind it. -/
structure HighlightSpan.Marks (text : String) (s : HighlightSpan) : Prop where
  ordered : s.start.toNat ≤ s.stop.toNat
  start_cuts : byteLength text.toList ≤ s.start.toNat ∨ CutsAt text.toList s.start.toNat
  stop_cuts : byteLength text.toList ≤ s.stop.toNat ∨ CutsAt text.toList s.stop.toNat

/-- A byte is in a span. -/
def HighlightSpan.Covers (i : ℕ) (s : HighlightSpan) : Prop :=
  s.start.toNat ≤ i ∧ i < s.stop.toNat

instance (i : ℕ) (s : HighlightSpan) : Decidable (s.Covers i) := inferInstanceAs (Decidable (_ ∧ _))

/-! ## What tokens say -/

/-- The characters of some tokens, one token after the other. -/
def chars (tokens : List Token) : List Char := tokens.flatMap fun t => t.text.toList

/-- The class of each byte. -/
def byteClasses (tokens : List Token) : List TokenClass :=
  tokens.flatMap fun t => List.replicate (byteLength t.text.toList) t.kind

/-- Tokens have text, and neighbours differ. -/
structure Clean (tokens : List Token) : Prop where
  nonempty : ∀ t ∈ tokens, t.text ≠ ""
  apart : tokens.IsChain fun a b => a.kind ≠ b.kind

theorem clean_nil : Clean [] := ⟨fun _ ht => absurd ht List.not_mem_nil, List.isChain_nil⟩

section

variable {text : String} {out : List Token} {kind : TokenClass}

/-- A run of text is nothing, joins the last token, or is a token of its own. -/
theorem pushRun_cases (text : String) (out : List Token) (kind : TokenClass) :
    (text = "" ∧ pushRun out text kind = out) ∨
      (text ≠ "" ∧ (∀ last ∈ out.getLast?, last.kind ≠ kind) ∧
        pushRun out text kind = out ++ [⟨text, kind⟩]) ∨
      ∃ before last, text ≠ "" ∧ out = before ++ [last] ∧ last.kind = kind ∧
        pushRun out text kind = before ++ [⟨last.text ++ text, kind⟩] := by
  unfold pushRun
  split_ifs with hempty
  · exact Or.inl ⟨String.isEmpty_iff.mp hempty, rfl⟩
  · have htext : text ≠ "" := fun h => hempty (String.isEmpty_iff.mpr h)
    rcases List.eq_nil_or_concat' out with rfl | ⟨before, last, rfl⟩
    · exact Or.inr (Or.inl ⟨htext, (fun last hlast => nomatch hlast), rfl⟩)
    · rw [List.getLast?_concat]
      dsimp only
      split_ifs with hkind
      · rw [List.dropLast_concat]
        rw [hkind]
        exact Or.inr (Or.inr ⟨before, last, htext, rfl, hkind, rfl⟩)
      · refine Or.inr (Or.inl ⟨htext, ?_, rfl⟩)
        rintro other hother
        rw [Option.mem_some_iff] at hother
        rw [← hother]
        exact hkind

theorem chars_pushRun (text : String) (out : List Token) (kind : TokenClass) :
    chars (pushRun out text kind) = chars out ++ text.toList := by
  rcases pushRun_cases text out kind with ⟨rfl, h⟩ | ⟨-, -, h⟩ | ⟨before, last, -, rfl, -, h⟩
  · rw [h]
    exact (List.append_nil _).symm
  · rw [h]
    simp [chars]
  · rw [h]
    simp [chars, String.toList_append]

theorem byteClasses_pushRun (text : String) (out : List Token) (kind : TokenClass) :
    byteClasses (pushRun out text kind) =
      byteClasses out ++ List.replicate (byteLength text.toList) kind := by
  rcases pushRun_cases text out kind with ⟨rfl, h⟩ | ⟨-, -, h⟩ | ⟨before, last, -, rfl, rfl, h⟩
  · rw [h]
    exact (List.append_nil _).symm
  · rw [h]
    simp [byteClasses]
  · rw [h]
    simp [byteClasses, String.toList_append]

/-- Appending a run keeps the tokens non-empty and neighbours of different classes. -/
theorem Clean.pushRun (h : Clean out) (text : String) (kind : TokenClass) :
    Clean (pushRun out text kind) := by
  rcases pushRun_cases text out kind with ⟨rfl, heq⟩ | ⟨htext, hlast, heq⟩ |
    ⟨before, last, htext, rfl, hkind, heq⟩
  · rw [heq]
    exact h
  · rw [heq]
    refine ⟨?_, ?_⟩
    · intro t ht
      rcases List.mem_append.mp ht with hold | hnew
      · exact h.nonempty t hold
      · rw [List.mem_singleton.mp hnew]
        exact htext
    · refine h.apart.append (List.isChain_singleton _) ?_
      intro last hl t ht
      rw [List.head?_cons, Option.mem_some_iff] at ht
      rw [← ht]
      exact hlast last hl
  · rw [heq]
    refine ⟨?_, ?_⟩
    · intro t ht
      rcases List.mem_append.mp ht with hold | hnew
      · exact h.nonempty t (List.mem_append_left _ hold)
      · rw [List.mem_singleton.mp hnew]
        intro hnone
        exact htext (String.append_eq_empty_iff.mp hnone).2
    · have hlast := List.isChain_append.mp h.apart
      refine hlast.1.append (List.isChain_singleton _) ?_
      intro t ht t' ht'
      rw [List.head?_cons, Option.mem_some_iff] at ht'
      rw [← ht', ← hkind]
      exact hlast.2.2 t ht last rfl

theorem length_byteClasses (tokens : List Token) :
    (byteClasses tokens).length = byteLength (chars tokens) := by
  induction tokens with
  | nil => rfl
  | cons t tokens ih =>
      rw [byteClasses, chars, List.flatMap_cons, List.flatMap_cons, List.length_append,
        List.length_replicate, byteLength_append]
      exact congrArg _ ih

end

/-! ## The sweep -/

/-- Tokens for the text up to a byte. -/
structure TokensTo (text : String) (out : List Token) (cursor : ℕ) : Prop where
  rest : ∃ after, text.toList = chars out ++ after
  cursor : byteLength (chars out) = cursor
  clean : Clean out

section

variable {text : String} {out : List Token} {cursor : ℕ} {kind : TokenClass}

theorem TokensTo.start (text : String) : TokensTo text [] 0 := ⟨⟨text.toList, rfl⟩, rfl, clean_nil⟩

theorem TokensTo.le_length (h : TokensTo text out cursor) : cursor ≤ byteLength text.toList := by
  obtain ⟨after, hrest⟩ := h.rest
  rw [hrest, byteLength_append, h.cursor]
  exact Nat.le_add_right _ _

/-- The text from the cursor to a later cut is pushed. -/
theorem TokensTo.push (h : TokensTo text out cursor) {stop : ℕ} (hcut : CutsAt text.toList stop)
    (hle : cursor ≤ stop) (kind : TokenClass) :
    ∃ mid, sliceText text cursor stop = .ok mid ∧ TokensTo text (pushRun out mid kind) stop ∧
      byteClasses (pushRun out mid kind) =
        byteClasses out ++ List.replicate (stop - cursor) kind := by
  obtain ⟨after, hrest⟩ := h.rest
  have hcursor := h.cursor
  obtain ⟨mid, rest, rfl, hstop⟩ := hcut.later hrest (by omega)
  have hslice : slice? text.toList cursor stop = some mid := by
    rw [hrest, ← hstop, ← hcursor]
    exact slice?_append (chars out) mid rest
  refine ⟨String.ofList mid, ?_, ⟨⟨rest, ?_⟩, ?_, h.clean.pushRun _ _⟩, ?_⟩
  · rw [sliceText, hslice]
  · rw [chars_pushRun, String.toList_ofList, List.append_assoc]
    exact hrest
  · rw [chars_pushRun, String.toList_ofList, byteLength_append]
    exact hstop
  · rw [byteClasses_pushRun, String.toList_ofList, show byteLength mid = stop - cursor by omega]

theorem TokensTo.gap (h : TokensTo text out cursor) {start : ℕ} (hcut : CutsAt text.toList start)
    (hle : cursor ≤ start) :
    ∃ out', pushGap text out cursor start = .ok out' ∧ TokensTo text out' start ∧
      byteClasses out' = byteClasses out ++ List.replicate (start - cursor) .plain := by
  unfold pushGap
  split_ifs with hlt
  · obtain ⟨mid, hslice, htokens, hclasses⟩ := h.push hcut hle .plain
    refine ⟨pushRun out mid .plain, ?_, htokens, hclasses⟩
    rw [hslice]
    rfl
  · obtain rfl : cursor = start := by omega
    refine ⟨out, rfl, h, ?_⟩
    rw [Nat.sub_self, List.replicate_zero, List.append_nil]

end

section

variable {captureToSlot : String → ThemeSlot} {text : String} {out : List Token} {cursor i : ℕ}
  {seen : List HighlightSpan} {span : HighlightSpan}

/-- The class a span gives; without one, text is plain. -/
def spanClass (captureToSlot : String → ThemeSlot) : Option HighlightSpan → TokenClass
  | some s => slotToClass (captureToSlot s.capture)
  | none => .plain

/-- The first span over a byte. -/
def firstOver (spans : List HighlightSpan) (i : ℕ) : Option HighlightSpan :=
  spans.find? fun s => s.Covers i

/-- What the sweep has done after so many spans. -/
structure Swept (captureToSlot : String → ThemeSlot) (text : String) (seen : List HighlightSpan)
    (out : List Token) (cursor : ℕ) : Prop where
  tokens : TokensTo text out cursor
  classes : ∀ i < cursor, (byteClasses out)[i]? = some (spanClass captureToSlot (firstOver seen i))
  ahead : ∀ s ∈ seen, ∀ i, cursor ≤ i → i < byteLength text.toList → ¬ s.Covers i
  gaps : ∀ i < cursor, firstOver seen i = none → ∃ s ∈ seen, i < s.start.toNat

theorem firstOver_append (seen : List HighlightSpan) (span : HighlightSpan) (i : ℕ) :
    firstOver (seen ++ [span]) i =
      (firstOver seen i).or (if span.Covers i then some span else none) := by
  unfold firstOver
  rw [List.find?_append]
  congr 1
  split_ifs with h
  · exact List.find?_cons_of_pos (decide_eq_true h)
  · exact List.find?_cons_of_neg (by simpa using h)

/-- A byte behind the cursor keeps its class. -/
theorem Swept.firstOver_append (h : Swept captureToSlot text seen out cursor)
    (hsorted : ∀ s ∈ seen, s.start.toNat ≤ span.start.toNat) (hi : i < cursor) :
    firstOver (seen ++ [span]) i = firstOver seen i := by
  rw [Live.firstOver_append]
  cases hfirst : firstOver seen i with
  | some s => rfl
  | none =>
      obtain ⟨s, hs, hlt⟩ := h.gaps i hi hfirst
      have hle := hsorted s hs
      rw [if_neg (fun hcovers => by have := hcovers.1; omega)]
      rfl

/-- Before the cursor, a byte is in no span seen so far. -/
theorem Swept.firstOver_ahead (h : Swept captureToSlot text seen out cursor) (hi : cursor ≤ i)
    (hlt : i < byteLength text.toList) : firstOver seen i = none :=
  List.find?_eq_none.mpr fun s hs => by simpa using h.ahead s hs i hi hlt

theorem Swept.skip (h : Swept captureToSlot text seen out cursor)
    (hsorted : ∀ s ∈ seen, s.start.toNat ≤ span.start.toNat)
    (hskip : span.stop.toNat ≤ cursor ∨ byteLength text.toList ≤ span.start.toNat) :
    Swept captureToSlot text (seen ++ [span]) out cursor := by
  refine ⟨h.tokens, fun i hi => ?_, fun s hs i hi hlt => ?_, fun i hi hnone => ?_⟩
  · rw [h.firstOver_append hsorted hi]
    exact h.classes i hi
  · rcases List.mem_append.mp hs with hold | hnew
    · exact h.ahead s hold i hi hlt
    · rw [List.mem_singleton.mp hnew]
      rintro ⟨hstart, hstop⟩
      omega
  · rw [h.firstOver_append hsorted hi] at hnone
    obtain ⟨s, hs, hlt⟩ := h.gaps i hi hnone
    exact ⟨s, List.mem_append_left _ hs, hlt⟩

theorem HighlightSpan.Marks.start_cut {i : ℕ} (h : span.Marks text) (hcut : CutsAt text.toList i)
    (hlt : span.start.toNat < byteLength text.toList) :
    CutsAt text.toList (max span.start.toNat i) := by
  rcases Nat.le_total span.start.toNat i with hle | hle
  · rw [Nat.max_eq_right hle]
    exact hcut
  · rw [Nat.max_eq_left hle]
    exact h.start_cuts.resolve_left (Nat.not_le_of_lt hlt)

theorem HighlightSpan.Marks.stop_cut (h : span.Marks text) :
    CutsAt text.toList (min span.stop.toNat (byteLength text.toList)) := by
  rcases h.stop_cuts with hle | hcut
  · rw [Nat.min_eq_right hle]
    exact cutsAt_length _
  · rcases Nat.le_total span.stop.toNat (byteLength text.toList) with hle | hle
    · rw [Nat.min_eq_left hle]
      exact hcut
    · rw [Nat.min_eq_right hle]
      exact cutsAt_length _

theorem TokensTo.cut (h : TokensTo text out cursor) : CutsAt text.toList cursor := by
  obtain ⟨after, hrest⟩ := h.rest
  exact ⟨chars out, after, hrest, h.cursor⟩

/-- A span that reaches beyond the cursor gets what it covers there. -/
theorem Swept.advance (h : Swept captureToSlot text seen out cursor)
    (hsorted : ∀ s ∈ seen, s.start.toNat ≤ span.start.toNat) (hmarks : span.Marks text)
    (hstop : cursor < span.stop.toNat) (hstart : span.start.toNat < byteLength text.toList) :
    ∃ out', pushSpan captureToSlot text (out, cursor) span =
        .ok (out', min span.stop.toNat (byteLength text.toList)) ∧
      Swept captureToSlot text (seen ++ [span]) out'
        (min span.stop.toNat (byteLength text.toList)) := by
  have hlength := h.tokens.le_length
  have hordered := hmarks.ordered
  obtain ⟨gap, hgap, hgapTokens, hgapClasses⟩ :=
    h.tokens.gap (hmarks.start_cut h.tokens.cut hstart) (Nat.le_max_right _ _)
  obtain ⟨mid, hslice, htokens, hclasses⟩ :=
    hgapTokens.push hmarks.stop_cut (by omega) (spanClass captureToSlot (some span))
  have hcount : (byteClasses out).length = cursor :=
    (length_byteClasses out).trans h.tokens.cursor
  have hover (i : ℕ) (hi : cursor ≤ i) (hlt : i < byteLength text.toList) :
      firstOver (seen ++ [span]) i = if span.Covers i then some span else none := by
    rw [Live.firstOver_append, h.firstOver_ahead hi hlt, Option.none_or]
  refine ⟨pushRun gap mid (spanClass captureToSlot (some span)), ?_, htokens, ?_, ?_, ?_⟩
  · unfold pushSpan
    dsimp only
    rw [if_neg (by omega), hgap]
    dsimp only [bind, Except.bind]
    rw [hslice]
    rfl
  · intro i hi
    rw [hclasses, hgapClasses]
    rcases Nat.lt_or_ge i cursor with hbehind | hbeyond
    · rw [List.getElem?_append_left (by rw [List.length_append]; omega),
        List.getElem?_append_left (by omega), h.firstOver_append hsorted hbehind]
      exact h.classes i hbehind
    · rw [hover i hbeyond (by omega)]
      -- beyond the cursor no earlier span has anything: the gap is plain, the rest is the span's
      rcases Nat.lt_or_ge i (max span.start.toNat cursor) with hingap | hinspan
      · rw [if_neg (fun hcovers => by have := hcovers.1; omega),
          List.getElem?_append_left (by rw [List.length_append, List.length_replicate]; omega),
          List.getElem?_append_right (by omega), List.getElem?_replicate_of_lt (by omega)]
        rfl
      · have hcovers : span.Covers i := ⟨by omega, by omega⟩
        rw [if_pos hcovers, List.getElem?_append_right
            (by rw [List.length_append, List.length_replicate]; omega),
          List.getElem?_replicate_of_lt
            (by rw [List.length_append, List.length_replicate]; omega)]
  · intro s hs i hi hlt hcovers
    rcases List.mem_append.mp hs with hold | hnew
    · exact h.ahead s hold i (by omega) hlt hcovers
    · rw [List.mem_singleton.mp hnew] at hcovers
      have := hcovers.2
      omega
  · intro i hi hnone
    rcases Nat.lt_or_ge i cursor with hbehind | hbeyond
    · rw [h.firstOver_append hsorted hbehind] at hnone
      obtain ⟨s, hs, hlt⟩ := h.gaps i hbehind hnone
      exact ⟨s, List.mem_append_left _ hs, hlt⟩
    · refine ⟨span, List.mem_append_right _ (List.mem_singleton_self _), ?_⟩
      rw [hover i hbeyond (by omega)] at hnone
      by_contra hle
      rw [if_pos (show span.Covers i from ⟨by omega, by omega⟩)] at hnone
      cases hnone

theorem Swept.step (h : Swept captureToSlot text seen out cursor)
    (hsorted : ∀ s ∈ seen, s.start.toNat ≤ span.start.toNat) (hmarks : span.Marks text) :
    ∃ out' cursor', pushSpan captureToSlot text (out, cursor) span = .ok (out', cursor') ∧
      Swept captureToSlot text (seen ++ [span]) out' cursor' := by
  by_cases hskip : span.stop.toNat ≤ cursor ∨ byteLength text.toList ≤ span.start.toNat
  · exact ⟨out, cursor, if_pos hskip, h.skip hsorted hskip⟩
  · obtain ⟨hstop, hstart⟩ := not_or.mp hskip
    obtain ⟨out', hpush, hswept⟩ :=
      h.advance hsorted hmarks (Nat.lt_of_not_le hstop) (Nat.lt_of_not_le hstart)
    exact ⟨out', _, hpush, hswept⟩

/-- The sweep over spans in order. -/
theorem Swept.run {spans : List HighlightSpan} (h : Swept captureToSlot text seen out cursor)
    (hsorted : (seen ++ spans).Pairwise fun s t => s.start.toNat ≤ t.start.toNat)
    (hmarks : ∀ s ∈ spans, s.Marks text) :
    ∃ out' cursor', spans.foldlM (pushSpan captureToSlot text) (out, cursor) =
        .ok (out', cursor') ∧ Swept captureToSlot text (seen ++ spans) out' cursor' := by
  induction spans generalizing seen out cursor with
  | nil =>
      rw [List.append_nil]
      exact ⟨out, cursor, rfl, h⟩
  | cons span spans ih =>
      rw [List.forall_mem_cons] at hmarks
      have hbefore : ∀ s ∈ seen, s.start.toNat ≤ span.start.toNat := fun s hs =>
        (List.pairwise_append.mp hsorted).2.2 s hs span List.mem_cons_self
      obtain ⟨out₁, cursor₁, hpush, hswept⟩ := h.step hbefore hmarks.1
      rw [List.append_cons] at hsorted ⊢
      obtain ⟨out', cursor', hfold, hswept'⟩ := ih hswept hsorted hmarks.2
      refine ⟨out', cursor', ?_, hswept'⟩
      rw [List.foldlM_cons, hpush]
      exact hfold

end

/-! ## What comes out -/

section

variable {captureToSlot : String → ThemeSlot} {text : String} {spans : List HighlightSpan}
  {tokens : List Token}

/-- Tokens for a whole text: by the first span over each byte. -/
structure Highlighted (captureToSlot : String → ThemeSlot) (text : String)
    (spans : List HighlightSpan) (tokens : List Token) : Prop where
  whole : String.join (tokens.map (·.text)) = text
  clean : Clean tokens
  classes : ∀ i < byteLength text.toList, (byteClasses tokens)[i]? =
    some (spanClass captureToSlot (firstOver (sortBy compareSpans spans) i))

theorem compareSpans_eq :
    compareSpans = compareLex (compareOn fun s : HighlightSpan => s.start.toNat)
      (fun a b => compareOn (fun s : HighlightSpan => s.patternIndex.toNat) b a) :=
  rfl

instance : Std.TransCmp compareSpans := by
  rw [compareSpans_eq]
  infer_instance

theorem isLE_compareSpans {a b : HighlightSpan} : (compareSpans a b).isLE ↔
    a.start.toNat < b.start.toNat ∨
      a.start.toNat = b.start.toNat ∧ b.patternIndex.toNat ≤ a.patternIndex.toNat := by
  unfold compareSpans
  rw [Ordering.isLE_then_iff_or, Nat.compare_eq_lt, Nat.compare_eq_eq, Nat.isLE_compare]

theorem starts_sorted (spans : List HighlightSpan) :
    (sortBy compareSpans spans).Pairwise fun s t => s.start.toNat ≤ t.start.toNat := by
  refine (pairwise_sortBy spans).imp fun {s t} hle => ?_
  have := isLE_compareSpans.mp hle
  omega

theorem swept_start (captureToSlot : String → ThemeSlot) (text : String) :
    Swept captureToSlot text [] [] 0 :=
  ⟨TokensTo.start text, fun i hi => absurd hi (Nat.not_lt_zero i),
    fun _ hs => absurd hs List.not_mem_nil, fun i hi => absurd hi (Nat.not_lt_zero i)⟩

theorem TokensTo.whole (h : TokensTo text tokens (byteLength text.toList)) :
    String.join (tokens.map (·.text)) = text := by
  obtain ⟨after, hrest⟩ := h.rest
  have hcursor := h.cursor
  rw [hrest, byteLength_append] at hcursor
  have hafter : after = [] := byteLength_eq_zero_iff.mp (by omega)
  rw [hafter, List.append_nil] at hrest
  apply String.toList_inj.mp
  rw [String.toList_join, List.flatMap_map, hrest]
  rfl

/-- The rest behind the last span is plain. -/
theorem Swept.highlighted {seen : List HighlightSpan} {out : List Token} {cursor : ℕ}
    (h : Swept captureToSlot text seen out cursor) :
    ∃ tokens, pushGap text out cursor (byteLength text.toList) = .ok tokens ∧
      String.join (tokens.map (·.text)) = text ∧ Clean tokens ∧
      ∀ i < byteLength text.toList,
        (byteClasses tokens)[i]? = some (spanClass captureToSlot (firstOver seen i)) := by
  obtain ⟨tokens, hgap, htokens, hclasses⟩ :=
    h.tokens.gap (cutsAt_length text.toList) h.tokens.le_length
  have hcount : (byteClasses out).length = cursor :=
    (length_byteClasses out).trans h.tokens.cursor
  refine ⟨tokens, hgap, htokens.whole, htokens.clean, fun i hi => ?_⟩
  rw [hclasses]
  rcases Nat.lt_or_ge i cursor with hbehind | hbeyond
  · rw [List.getElem?_append_left (by omega)]
    exact h.classes i hbehind
  · rw [h.firstOver_ahead hbeyond hi, List.getElem?_append_right (by omega),
      List.getElem?_replicate_of_lt (by omega)]
    rfl

/-- Without spans the text is plain. -/
theorem highlighted_plain (captureToSlot : String → ThemeSlot) (hempty : ¬ text.isEmpty) :
    Highlighted captureToSlot text [] (plain text) := by
  have hplain : plain text = [⟨text, .plain⟩] := if_neg hempty
  rw [hplain]
  refine ⟨by simp, ⟨fun t ht => ?_, List.isChain_singleton _⟩, fun i hi => ?_⟩
  · rw [List.mem_singleton.mp ht]
    exact fun h => hempty (String.isEmpty_iff.mpr h)
  · have hclasses : byteClasses [⟨text, .plain⟩] =
        List.replicate (byteLength text.toList) TokenClass.plain := List.append_nil _
    rw [hclasses, List.getElem?_replicate_of_lt hi]
    rfl

/-- Whatever the spans, there are tokens, and they are as described. -/
theorem exists_highlighted (captureToSlot : String → ThemeSlot)
    (hmarks : ∀ s ∈ spans, s.Marks text) :
    ∃ tokens, spansToTokens captureToSlot text spans = .ok tokens ∧
      Highlighted captureToSlot text spans tokens := by
  unfold spansToTokens
  by_cases hempty : text.isEmpty
  · obtain rfl := String.isEmpty_iff.mp hempty
    exact ⟨[], if_pos hempty, rfl, clean_nil, fun i hi => absurd hi (Nat.not_lt_zero i)⟩
  rw [if_neg hempty]
  by_cases hnone : spans.isEmpty
  · obtain rfl := List.isEmpty_iff.mp hnone
    exact ⟨plain text, if_pos hnone, highlighted_plain captureToSlot hempty⟩
  rw [if_neg hnone]
  have hrun : ∃ out cursor,
      (sortBy compareSpans spans).foldlM (pushSpan captureToSlot text) ([], 0) =
          .ok (out, cursor) ∧
        Swept captureToSlot text (sortBy compareSpans spans) out cursor :=
    (swept_start captureToSlot text).run (starts_sorted spans)
      fun s hs => hmarks s (mem_sortBy.mp hs)
  obtain ⟨out, cursor, hfold, hswept⟩ := hrun
  obtain ⟨tokens, hgap, hwhole, hclean, hclasses⟩ := hswept.highlighted
  refine ⟨tokens, ?_, hwhole, hclean, hclasses⟩
  rw [hfold]
  exact hgap

theorem firstOver_eq_none_iff {i : ℕ} :
    firstOver (sortBy compareSpans spans) i = none ↔ ∀ s ∈ spans, ¬ s.Covers i := by
  unfold firstOver
  rw [List.find?_eq_none]
  simp

/-- No text is lost: the tokens put together are the text, each has some, neighbours differ, and
what no span covers is plain. -/
theorem highlighting_lossless (captureToSlot : String → ThemeSlot) (text : String)
    (spans : List HighlightSpan) (hmarks : ∀ s ∈ spans, s.Marks text) :
    ∃ tokens, spansToTokens captureToSlot text spans = .ok tokens ∧
      String.join (tokens.map (·.text)) = text ∧ (∀ t ∈ tokens, t.text ≠ "") ∧
      tokens.IsChain (fun a b => a.kind ≠ b.kind) ∧
      ∀ i < byteLength text.toList, (∀ s ∈ spans, ¬ s.Covers i) →
        (byteClasses tokens)[i]? = some .plain := by
  obtain ⟨tokens, htokens, hhighlighted⟩ := exists_highlighted captureToSlot hmarks
  refine ⟨tokens, htokens, hhighlighted.whole, hhighlighted.clean.nonempty,
    hhighlighted.clean.apart, fun i hi hnone => ?_⟩
  rw [hhighlighted.classes i hi, firstOver_eq_none_iff.mpr hnone]
  rfl

end

/-- What the table says of some captures. -/
def someSlots : String → ThemeSlot
  | "keyword" => .keyword
  | "comment" => .comment
  | _ => .none

/-- A span over the second of three characters, of two bytes; a longer one that ends behind the
text. -/
def accentSpans : List HighlightSpan :=
  [⟨1, 3, "keyword", 0⟩, ⟨3, 9, "comment", 1⟩]

theorem highlighting_lossless_accent :
    ∃ tokens, spansToTokens someSlots "aé;" accentSpans = .ok tokens ∧
      String.join (tokens.map (·.text)) = "aé;" ∧ (byteClasses tokens)[0]? = some .plain := by
  have hlength : byteLength "aé;".toList = 4 := by decide
  have hmarks : ∀ s ∈ accentSpans, s.Marks "aé;" := by
    rintro s hs
    rcases List.mem_cons.mp hs with rfl | hs
    · exact ⟨by decide, Or.inr ⟨['a'], ['é', ';'], by decide, by decide⟩,
        Or.inr ⟨['a', 'é'], [';'], by decide, by decide⟩⟩
    · rw [List.mem_singleton.mp hs]
      exact ⟨by decide, Or.inr ⟨['a', 'é'], [';'], by decide, by decide⟩,
        Or.inl (by rw [hlength]; decide)⟩
  obtain ⟨tokens, htokens, hwhole, -, -, hplain⟩ :=
    highlighting_lossless someSlots "aé;" accentSpans hmarks
  refine ⟨tokens, htokens, hwhole, hplain 0 (by rw [hlength]; decide) ?_⟩
  rintro s hs ⟨hstart, -⟩
  rcases List.mem_cons.mp hs with rfl | hs
  · cases hstart
  · rw [List.mem_singleton.mp hs] at hstart
    cases hstart

/-! ## Priorities -/

/-- Of the spans over a byte the one with the highest pattern. -/
structure IsTop (spans : List HighlightSpan) (i : ℕ) (s : HighlightSpan) : Prop where
  mem : s ∈ spans
  covers : s.Covers i
  highest : ∀ t ∈ spans, t.Covers i → t.patternIndex.toNat ≤ s.patternIndex.toNat

/-- Of the spans over a byte the one that begins first; of those that begin together the one with
the highest pattern. -/
structure IsFirst (spans : List HighlightSpan) (i : ℕ) (s : HighlightSpan) : Prop where
  mem : s ∈ spans
  covers : s.Covers i
  first : ∀ t ∈ spans, t.Covers i → s.start.toNat < t.start.toNat ∨
    s.start.toNat = t.start.toNat ∧ t.patternIndex.toNat ≤ s.patternIndex.toNat

/-- Every byte has the class of the span with the highest pattern over it. -/
structure ByPriority (captureToSlot : String → ThemeSlot) (text : String)
    (spans : List HighlightSpan) (tokens : List Token) : Prop where
  top : ∀ i < byteLength text.toList, ∀ s, IsTop spans i s →
    (byteClasses tokens)[i]? = some (slotToClass (captureToSlot s.capture))
  plain : ∀ i < byteLength text.toList, (∀ s ∈ spans, ¬ s.Covers i) →
    (byteClasses tokens)[i]? = some .plain

/-- At every byte, the span that begins first and the one with the highest pattern are of one
class. -/
def FirstIsTop (captureToSlot : String → ThemeSlot) (text : String) (spans : List HighlightSpan) :
    Prop :=
  ∀ i < byteLength text.toList, ∀ s t, IsFirst spans i s → IsTop spans i t →
    slotToClass (captureToSlot s.capture) = slotToClass (captureToSlot t.capture)

section

variable {captureToSlot : String → ThemeSlot} {text : String} {spans : List HighlightSpan}
  {tokens : List Token} {i : ℕ} {s t : HighlightSpan}

theorem isFirst_of_firstOver (h : firstOver (sortBy compareSpans spans) i = some s) :
    IsFirst spans i s := by
  obtain ⟨hcovers, before, after, hsplit, hbefore⟩ := List.find?_eq_some_iff_append.mp h
  have hsorted : (sortBy compareSpans spans).Pairwise fun a b => (compareSpans a b).isLE :=
    pairwise_sortBy spans
  rw [hsplit] at hsorted
  have hmem {t : HighlightSpan} : t ∈ spans ↔ t ∈ before ++ s :: after := by
    rw [← hsplit, mem_sortBy]
  refine ⟨hmem.mpr (by simp), of_decide_eq_true hcovers, fun t ht hcoversT => ?_⟩
  rcases List.mem_append.mp (hmem.mp ht) with hold | hrest
  · have hpassed := hbefore t hold
    simp [hcoversT] at hpassed
  · rcases List.mem_cons.mp hrest with rfl | hlater
    · exact Or.inr ⟨rfl, Nat.le_refl _⟩
    · have hle := (List.pairwise_cons.mp (List.pairwise_append.mp hsorted).2.1).1 t hlater
      exact isLE_compareSpans.mp hle

/-- Patterns tell spans apart. -/
theorem eq_of_patternIndex (hdistinct : spans.Pairwise fun s t => s.patternIndex ≠ t.patternIndex)
    (hs : s ∈ spans) (ht : t ∈ spans) (h : s.patternIndex = t.patternIndex) : s = t :=
  List.inj_on_of_nodup_map (List.pairwise_map.mpr hdistinct) hs ht h

theorem firstOver_of_isFirst
    (hdistinct : spans.Pairwise fun s t => s.patternIndex ≠ t.patternIndex)
    (h : IsFirst spans i s) : firstOver (sortBy compareSpans spans) i = some s := by
  cases hfirst : firstOver (sortBy compareSpans spans) i with
  | none => exact absurd h.covers (firstOver_eq_none_iff.mp hfirst s h.mem)
  | some t =>
      have ht := isFirst_of_firstOver hfirst
      have hst := h.first t ht.mem ht.covers
      have hts := ht.first s h.mem h.covers
      rw [eq_of_patternIndex hdistinct ht.mem h.mem (UInt32.toNat_inj.mp (by omega))]

theorem byPriority_iff (h : Highlighted captureToSlot text spans tokens)
    (hdistinct : spans.Pairwise fun s t => s.patternIndex ≠ t.patternIndex) :
    ByPriority captureToSlot text spans tokens ↔ FirstIsTop captureToSlot text spans := by
  constructor
  · intro hpriority i hi s t hs ht
    have hclass := h.classes i hi
    rw [firstOver_of_isFirst hdistinct hs, hpriority.top i hi t ht] at hclass
    exact (Option.some_inj.mp hclass).symm
  · intro hsame
    refine ⟨fun i hi t ht => ?_, fun i hi hnone => ?_⟩
    · rw [h.classes i hi]
      cases hfirst : firstOver (sortBy compareSpans spans) i with
      | none => exact absurd ht.covers (firstOver_eq_none_iff.mp hfirst t ht.mem)
      | some s => exact congrArg some (hsame i hi s t (isFirst_of_firstOver hfirst) ht)
    · rw [h.classes i hi, firstOver_eq_none_iff.mpr hnone]
      rfl

/-- Priorities decide exactly if, at every byte, what begins first has the highest priority, or its
class. -/
theorem priority_iff (captureToSlot : String → ThemeSlot) (text : String)
    (spans : List HighlightSpan) (hmarks : ∀ s ∈ spans, s.Marks text)
    (hdistinct : spans.Pairwise fun s t => s.patternIndex ≠ t.patternIndex) :
    ∃ tokens, spansToTokens captureToSlot text spans = .ok tokens ∧
      (ByPriority captureToSlot text spans tokens ↔ FirstIsTop captureToSlot text spans) := by
  obtain ⟨tokens, htokens, hhighlighted⟩ := exists_highlighted captureToSlot hmarks
  exact ⟨tokens, htokens, byPriority_iff hhighlighted hdistinct⟩

end

/-- A comment with a keyword inside, the keyword's pattern the later one. -/
def nestedSpans : List HighlightSpan := [⟨0, 4, "comment", 0⟩, ⟨1, 3, "keyword", 1⟩]

theorem marks_nestedSpans : ∀ s ∈ nestedSpans, s.Marks "abcd" := by
  rintro s hs
  rcases List.mem_cons.mp hs with rfl | hs
  · exact ⟨by decide, Or.inr (cutsAt_zero _), Or.inr ⟨['a', 'b', 'c', 'd'], [], by decide, by decide⟩⟩
  · rw [List.mem_singleton.mp hs]
    exact ⟨by decide, Or.inr ⟨['a'], ['b', 'c', 'd'], by decide, by decide⟩,
      Or.inr ⟨['a', 'b', 'c'], ['d'], by decide, by decide⟩⟩

theorem distinct_nestedSpans :
    nestedSpans.Pairwise fun s t => s.patternIndex ≠ t.patternIndex := by decide

/-- Over the keyword the comment begins first. -/
theorem nestedSpans_not_firstIsTop : ¬ FirstIsTop someSlots "abcd" nestedSpans := by
  intro h
  have hfirst : IsFirst nestedSpans 1 ⟨0, 4, "comment", 0⟩ := by
    refine ⟨by decide, by decide, fun t ht hcovers => ?_⟩
    rcases List.mem_cons.mp ht with rfl | ht
    · exact Or.inr ⟨rfl, Nat.le_refl _⟩
    · rw [List.mem_singleton.mp ht]
      exact Or.inl (by decide)
  have htop : IsTop nestedSpans 1 ⟨1, 3, "keyword", 1⟩ := by
    refine ⟨by decide, by decide, fun t ht hcovers => ?_⟩
    rcases List.mem_cons.mp ht with rfl | ht
    · decide
    · rw [List.mem_singleton.mp ht]
  have hsame := h 1 (by decide) _ _ hfirst htop
  revert hsame
  decide

theorem priority_iff_nested :
    ∃ tokens, spansToTokens someSlots "abcd" nestedSpans = .ok tokens ∧
      (ByPriority someSlots "abcd" nestedSpans tokens ↔ FirstIsTop someSlots "abcd" nestedSpans) :=
  priority_iff someSlots "abcd" nestedSpans marks_nestedSpans distinct_nestedSpans

/-- The keyword is not seen. -/
theorem nestedSpans_hidden : ∃ tokens, spansToTokens someSlots "abcd" nestedSpans = .ok tokens ∧
    ¬ ByPriority someSlots "abcd" nestedSpans tokens := by
  obtain ⟨tokens, htokens, hhighlighted⟩ := exists_highlighted someSlots marks_nestedSpans
  exact ⟨tokens, htokens, fun h =>
    nestedSpans_not_firstIsTop ((byPriority_iff hhighlighted distinct_nestedSpans).mp h)⟩

example : spansToTokens someSlots "abcd" nestedSpans = .ok [⟨"abcd", .comment⟩] := by rfl

end Stax.Live
