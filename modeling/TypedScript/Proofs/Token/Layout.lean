import Mathlib.Data.List.Chain
import TypedScript.Proofs.Token.Words

/-!
# How tokens cover a text

A text falls into gaps and words, one of each for every token, up to the gap before the end. Every token
is told by its word alone, and the positions of the tokens are where the words start and end.
-/

namespace TypedScript
namespace Lexer

/-- What a token says about the word that it was read from and the text behind it. -/
structure Spells (t : Token) (read rest : List Glyph) : Prop where
  ne_nil : read ≠ []
  ne_endOfInput : t.kind ≠ .endOfInput
  verbatim : t.kind.isVerbatim → t.literal = Glyph.text read ∧ Glyph.Legible read
  longest : t.kind ∈ Token.Kind.operators → t.literal = t.kind.name ∧
    ∀ k ∈ Token.Kind.operators, k.name.toList <+: (read ++ rest).map Glyph.char →
      k.name.length ≤ t.kind.name.length

/-- What may stand between the last word and the end of a text: its last line comment needs no line
break. -/
def LastGap (cs : List Char) : Prop :=
  Filler cs ∨ ∃ filler comment, Filler filler ∧ IsLastComment comment ∧ cs = filler ++ comment

theorem lastGap_of_runsOut {cs : List Char} (h : Gap.RunsOut .blank cs) : LastGap cs := by
  obtain ⟨hgap, -⟩ | h := h
  · cases hgap
  · exact .inr h

/-- The tokens of a text that starts at a place: gaps and words take turns. -/
inductive Laid : Position → List Glyph → List Token → Prop
  | last {here : Position} {gap : List Glyph} : LastGap (gap.map Glyph.char) →
    Laid here gap [⟨.endOfInput, "", ⟨here.afterAll gap, here.afterAll gap⟩⟩]
  | cons {here : Position} {gap read rest : List Glyph} {t : Token} {tokens : List Token} :
    Filler (gap.map Glyph.char) → Spells t read rest →
    t.span = ⟨here.afterAll gap, here.afterAll (gap ++ read)⟩ →
    Laid (here.afterAll (gap ++ read)) rest tokens → Laid here (gap ++ read ++ rest) (t :: tokens)

/-- Reading one token comes to the end or takes off a gap and a word. -/
theorem laid_token (c : Cursor) :
    (LastGap (c.rest.map Glyph.char) ∧ (token c).1 =
      ⟨.endOfInput, "", ⟨c.position.afterAll c.rest, c.position.afterAll c.rest⟩⟩) ∨
    ∃ gap read, Filler (gap.map Glyph.char) ∧ c.Passes (gap ++ read) (token c).2 ∧
      Spells (token c).1 read (token c).2.rest ∧
      (token c).1.span = ⟨c.position.afterAll gap, c.position.afterAll (gap ++ read)⟩ := by
  have hskips := skips_skipFrom .blank c.position c.rest
  unfold token skip
  generalize skipFrom .blank c.position c.rest = out at hskips
  cases hskips with
  | @token gap start hpasses hfiller =>
    obtain ⟨hend, hword⟩ | ⟨read, htakes, hread⟩ := takes_wordAt start
    · left
      have hrest : c.rest = gap := by simpa [hend] using hpasses.rest
      simp only [hword, hrest, hpasses.position]
      exact ⟨.inl hfiller, trivial⟩
    · right
      have hwhole : c.Passes (gap ++ read) (wordAt start).cursor := hpasses.trans htakes.passes
      refine ⟨gap, read, hfiller, hwhole, ⟨hread, htakes.ne_endOfInput, htakes.verbatim, ?_⟩, ?_⟩
      · rw [← htakes.passes.rest]
        exact htakes.longest
      · simp only [hwhole.position, hpasses.position]
  | @ends start hpasses hopen =>
    left
    have hend : start.rest = [] := by simpa using hpasses.rest
    obtain ⟨-, hword⟩ | ⟨read, htakes, hread⟩ := takes_wordAt start
    · simp only [hword, hpasses.position]
      exact ⟨lastGap_of_runsOut hopen, trivial⟩
    · have hnil := htakes.passes.rest
      rw [hend] at hnil
      exact absurd (List.append_eq_nil_iff.mp hnil.symm).1 hread
  | inside hgap => cases hgap
  | @opened gap comment stop heq hfiller hcomment hpasses =>
    right
    rw [heq] at hpasses
    refine ⟨gap, comment, hfiller, ⟨heq ▸ hpasses.rest, hpasses.position⟩, ⟨?_, nofun, nofun, ?_⟩, ?_⟩
    · rintro rfl
      simp at hcomment
    · intro hop
      exact absurd (Token.Kind.isVerbatim_of_mem_operators _ hop) nofun
    · simp only [hpasses.position]

/-- Enough fuel leads to the end: every other token takes glyphs off. -/
theorem laid_tokensFrom {fuel : Nat} {c : Cursor} (h : c.rest.length < fuel) :
    Laid c.position c.rest (tokensFrom fuel c) := by
  induction fuel generalizing c with
  | zero => omega
  | succ fuel ih =>
    unfold tokensFrom
    dsimp only
    obtain ⟨hgap, htoken⟩ | ⟨gap, read, hgap, hpasses, hspells, hspan⟩ := laid_token c
    · rw [if_pos (by rw [htoken]), htoken]
      exact .last hgap
    · rw [if_neg hspells.ne_endOfInput]
      have hshorter : (token c).2.rest.length < fuel := by
        have hlength := congrArg List.length hpasses.rest
        have hpos := List.length_pos_iff.mpr hspells.ne_nil
        simp only [List.length_append] at hlength
        omega
      have hrest := ih hshorter
      rw [hpasses.position] at hrest
      rw [hpasses.rest]
      exact .cons hgap hspells hspan hrest

theorem laid_tokenize (source : List Glyph) :
    Laid Position.start (readable source) (tokenize source) :=
  laid_tokensFrom (c := ⟨Position.start, readable source⟩) (Nat.lt_succ_self _)

namespace Laid

variable {here : Position} {gs : List Glyph} {tokens : List Token}

/-- The last token is the end, and only the last. -/
theorem last_eq (h : Laid here gs tokens) : ∃ words,
    tokens = words ++ [⟨.endOfInput, "", ⟨here.afterAll gs, here.afterAll gs⟩⟩] ∧
      ∀ t ∈ words, t.kind ≠ .endOfInput := by
  induction h with
  | last _ => exact ⟨[], rfl, by simp⟩
  | @cons here gap read rest t tokens _ hspells _ _ ih =>
    obtain ⟨words, heq, hwords⟩ := ih
    refine ⟨t :: words, ?_, List.forall_mem_cons.mpr ⟨hspells.ne_endOfInput, hwords⟩⟩
    rw [heq, ← Position.afterAll_append, List.cons_append]

end Laid
end Lexer

namespace Token

/-- A token stands where it says and says what stands there. -/
structure Exact (bytes : List UInt8) (t : Token) : Prop where
  start : t.span.start = Position.ofOffset bytes t.span.start.offset
  stop : t.span.stop = Position.ofOffset bytes t.span.stop.offset
  inside : t.span.stop.offset ≤ bytes.length
  nonempty : t.kind ≠ .endOfInput → t.span.start.offset < t.span.stop.offset
  verbatim : t.kind.isVerbatim →
    Text.bytes t.literal = Text.slice bytes t.span.start.offset t.span.stop.offset
  longest : t.kind ∈ Kind.operators → t.literal = t.kind.name ∧
    ∀ k ∈ Kind.operators, Text.bytes k.name <+: bytes.drop t.span.start.offset →
      k.name.length ≤ t.kind.name.length

/-- A token stands behind an offset, with only blanks and comments between. The end of the input may
stand behind a line comment that nothing else ends. -/
structure Behind (bytes : List UInt8) (offset : Nat) (t : Token) : Prop where
  le : offset ≤ t.span.start.offset
  gap : let between := (Glyph.ofBytes (Text.slice bytes offset t.span.start.offset)).map Glyph.char
    Lexer.Filler between ∨ t.kind = .endOfInput ∧ Lexer.LastGap between

end Token

namespace Lexer

/-- A part of a text, by the glyphs before it, its own and those behind it. -/
theorem slice_eq {bytes : List UInt8} {before read rest : List Glyph}
    (h : Glyph.ofBytes bytes = before ++ (read ++ rest)) :
    let part := Text.slice bytes (Glyph.widthOf before) (Glyph.widthOf before + Glyph.widthOf read)
    Glyph.ofBytes part = read ∧ (Glyph.Legible read → Text.bytes (Glyph.text read) = part) := by
  have hbehind := (Glyph.ofBytes_cut h).2
  simp only [Text.slice, Nat.add_sub_cancel_left]
  exact ⟨(Glyph.ofBytes_cut hbehind).1, Glyph.bytes_text hbehind⟩

theorem name_operator_ascii : ∀ k ∈ Token.Kind.operators, '\x00' ∉ k.name.toList := by decide

/-- An operator that bytes start with is found in what is read of them. -/
theorem operator_prefix {bytes : List UInt8} {gs beyond : List Glyph} {k : Token.Kind}
    (hk : k ∈ Token.Kind.operators) (hbytes : Glyph.ofBytes bytes = gs ++ beyond)
    (hbeyond : ∀ g ∈ beyond.head?, g.char = '\x00') (h : Text.bytes k.name <+: bytes) :
    k.name.toList <+: gs.map Glyph.char := by
  obtain ⟨more, rfl⟩ := h
  rw [Text.bytes, Glyph.ofBytes_bytes_append] at hbytes
  have hchars := congrArg (List.map Glyph.char) hbytes
  rw [List.map_append, List.map_append, List.map_map] at hchars
  have hsame : Glyph.char ∘ Glyph.ofChar = id := rfl
  rw [hsame, List.map_id] at hchars
  obtain hprefix | ⟨tail, htail⟩ := List.prefix_or_prefix_of_prefix
    (List.prefix_append k.name.toList ((Glyph.ofBytes more).map Glyph.char))
    ⟨beyond.map Glyph.char, hchars.symm⟩
  · exact hprefix
  · cases tail with
    | nil => exact ⟨[], by rw [List.append_nil, ← htail, List.append_nil]⟩
    | cons c tail =>
      rw [← htail, List.append_assoc, List.append_right_inj] at hchars
      cases beyond with
      | nil => cases hchars
      | cons g beyond =>
        obtain rfl : c = g.char := (List.cons.inj hchars).1
        have hnul : g.char = '\x00' := hbeyond g rfl
        have hmem : g.char ∈ k.name.toList := by rw [← htail]; simp
        exact absurd (hnul ▸ hmem) (name_operator_ascii k hk)

/-- The tokens of a part of a text, behind the glyphs before it. -/
theorem Laid.exact {bytes : List UInt8} {here : Position} {gs : List Glyph} {tokens : List Token}
    (h : Laid here gs tokens) {before beyond : List Glyph} (hhere : here = Position.start.afterAll before)
    (hbytes : Glyph.ofBytes bytes = before ++ (gs ++ beyond))
    (hbeyond : ∀ g ∈ beyond.head?, g.char = '\x00') :
    (∀ t ∈ tokens, t.Exact bytes) ∧ (∀ t ∈ tokens.head?, t.Behind bytes here.offset) ∧
      tokens.IsChain fun t u => u.Behind bytes t.span.stop.offset := by
  have hplace : ∀ read rest, Glyph.ofBytes bytes = read ++ rest →
      Position.start.afterAll read = Position.ofOffset bytes (Position.start.afterAll read).offset ∧
        (Position.start.afterAll read).offset = Glyph.widthOf read ∧
        Glyph.widthOf read ≤ bytes.length := by
    intro read rest hread
    refine ⟨Position.afterAll_start hread, ?_, ?_⟩
    · rw [Position.afterAll_offset]
      exact Nat.zero_add _
    · rw [← Glyph.widthOf_ofBytes bytes, hread, Glyph.widthOf_append]
      exact Nat.le_add_right _ _
  induction h generalizing before with
  | @last here gap hgap =>
    subst hhere
    rw [← List.append_assoc] at hbytes
    obtain ⟨hstart, hoffset, hle⟩ := hplace _ _ hbytes
    obtain ⟨-, hfrom, -⟩ := hplace before (gap ++ beyond) (by rw [hbytes, List.append_assoc])
    rw [← Position.afterAll_append]
    refine ⟨?_, ?_, List.isChain_singleton _⟩
    · simp only [List.mem_singleton, forall_eq]
      exact ⟨hstart, hstart, hoffset ▸ hle, fun h => absurd rfl h, nofun,
        fun hop => absurd (Token.Kind.isVerbatim_of_mem_operators _ hop) nofun⟩
    · simp only [List.head?_cons, Option.mem_def, Option.some.injEq, forall_eq']
      have hpart := (slice_eq (by rw [hbytes, List.append_assoc]) :
        Glyph.ofBytes (Text.slice bytes (Glyph.widthOf before) _) = gap ∧ _).1
      refine ⟨?_, .inr ⟨rfl, ?_⟩⟩
      · rw [hoffset, hfrom, Glyph.widthOf_append]
        exact Nat.le_add_right _ _
      · rw [hoffset, hfrom, Glyph.widthOf_append, hpart]
        exact hgap
  | @cons here gap read rest t tokens hgap hspells hspan _ ih =>
    subst hhere
    have hsplit : Glyph.ofBytes bytes = before ++ (gap ++ (read ++ (rest ++ beyond))) := by
      rw [hbytes]
      simp only [List.append_assoc]
    rw [← Position.afterAll_append] at hspan ih
    rw [← Position.afterAll_append] at hspan
    obtain ⟨-, hfrom, -⟩ := hplace _ _ hsplit
    have hsplit' : Glyph.ofBytes bytes = (before ++ gap) ++ (read ++ (rest ++ beyond)) := by
      rw [hsplit, List.append_assoc]
    obtain ⟨hstart, hstartOffset, -⟩ := hplace _ _ hsplit'
    have hsplit'' : Glyph.ofBytes bytes = (before ++ (gap ++ read)) ++ (rest ++ beyond) := by
      rw [hsplit]
      simp only [List.append_assoc]
    obtain ⟨hstop, hstopOffset, hstopLe⟩ := hplace _ _ hsplit''
    obtain ⟨hexact, hhead, hchain⟩ := ih rfl hsplit''
    have hwidth : Glyph.widthOf (before ++ (gap ++ read)) =
        Glyph.widthOf (before ++ gap) + Glyph.widthOf read := by
      rw [← List.append_assoc, Glyph.widthOf_append]
    have hpos : 0 < Glyph.widthOf read := by
      obtain ⟨g, read', rfl⟩ := List.exists_cons_of_ne_nil hspells.ne_nil
      have hmem : g ∈ Glyph.ofBytes bytes := by rw [hsplit]; simp
      have := Glyph.width_pos_of_mem_ofBytes hmem
      rw [Glyph.widthOf_cons]
      omega
    refine ⟨List.forall_mem_cons.mpr ⟨⟨?_, ?_, ?_, ?_, ?_, ?_⟩, hexact⟩, ?_, ?_⟩
    · rw [hspan]
      exact hstart
    · rw [hspan]
      exact hstop
    · rw [hspan]
      exact hstopOffset ▸ hstopLe
    · intro _
      rw [hspan, hstartOffset, hstopOffset, hwidth]
      omega
    · intro hverbatim
      obtain ⟨hliteral, hlegible⟩ := hspells.verbatim hverbatim
      rw [hspan, hstartOffset, hstopOffset, hwidth, hliteral]
      exact (slice_eq hsplit').2 hlegible
    · intro hop
      obtain ⟨hliteral, hlongest⟩ := hspells.longest hop
      refine ⟨hliteral, fun k hk hprefix => hlongest k hk ?_⟩
      rw [hspan, hstartOffset] at hprefix
      have hdecoded := (Glyph.ofBytes_cut hsplit').2
      rw [← List.append_assoc] at hdecoded
      exact operator_prefix hk hdecoded hbeyond hprefix
    · simp only [List.head?_cons, Option.mem_def, Option.some.injEq, forall_eq']
      have hpart := (slice_eq hsplit).1
      refine ⟨?_, .inl ?_⟩
      · rw [hspan, hstartOffset, hfrom, Glyph.widthOf_append]
        exact Nat.le_add_right _ _
      · rw [hspan, hstartOffset, hfrom, Glyph.widthOf_append, hpart]
        exact hgap
    · rw [List.isChain_cons]
      refine ⟨?_, hchain⟩
      rw [hspan]
      exact hhead

/-- The glyphs behind the readable part of a text start with a NUL. -/
theorem readable_append (source : List Glyph) : ∃ beyond, source = readable source ++ beyond ∧
    ∀ g ∈ beyond.head?, g.char = '\x00' := by
  refine ⟨source.dropWhile fun g => g.char != '\x00', (List.takeWhile_append_dropWhile).symm, ?_⟩
  intro g hg
  have := List.head?_dropWhile_not (fun g : Glyph => g.char != '\x00') source
  rw [Option.mem_def.mp hg] at this
  simpa using this

theorem exact_tokenize (bytes : List UInt8) :
    (∀ t ∈ tokenize (Glyph.ofBytes bytes), t.Exact bytes) ∧
    (∀ t ∈ (tokenize (Glyph.ofBytes bytes)).head?, t.Behind bytes 0) ∧
    (tokenize (Glyph.ofBytes bytes)).IsChain fun t u => u.Behind bytes t.span.stop.offset := by
  obtain ⟨beyond, hbytes, hbeyond⟩ := readable_append (Glyph.ofBytes bytes)
  have hstart : Position.start = Position.start.afterAll [] := rfl
  exact (laid_tokenize (Glyph.ofBytes bytes)).exact hstart hbytes hbeyond

/-- Tokens are exact: the last one and only that is the end of the input, each stands where it says and
says what stands there, and between them there are only blanks and comments. -/
theorem tokens_exact (bytes : List UInt8) :
    let tokens := tokenize (Glyph.ofBytes bytes)
    (∃ words stop, tokens = words ++ [stop] ∧ stop.kind = .endOfInput ∧
      ∀ t ∈ words, t.kind ≠ .endOfInput) ∧
    (∀ t ∈ tokens, t.Exact bytes) ∧ (∀ t ∈ tokens.head?, t.Behind bytes 0) ∧
    tokens.IsChain fun t u => u.Behind bytes t.span.stop.offset := by
  obtain ⟨words, hwords, hne⟩ := (laid_tokenize (Glyph.ofBytes bytes)).last_eq
  exact ⟨⟨words, _, hwords, rfl, hne⟩, exact_tokenize bytes⟩

end Lexer
end TypedScript
