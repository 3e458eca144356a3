import TypedScript.Proofs.Parsed.Printing
import TypedScript.Proofs.Parsed.Statements

/-!
# The reader and the grammar agree

Whatever the grammar writes for a program is read as that program without a mistake; a well-formed program
is printed as the grammar writes it; and whatever is read without a mistake is what the grammar writes for
the program that was read, which is well formed.
-/

namespace TypedScript
namespace Parsed

open Lexeme

/-! ## What is read is well formed -/

/-- A lexeme as tokens have it: names are names, and numbers with a fraction or an exponent are such. -/
structure Lexical (l : Lexeme) : Prop where
  name : l.kind = .identifier → Lexer.isName l.text
  float : l.kind = .float → Lexer.IsFloat l.text.toList

/-- A number that can be written. -/
def Writable (_ : Span) (v : Double) : Prop := ∃ text, IsLexeme text v

def Phrase.WellFormed : Phrase → Prop
  | .expression e | .binary _ e | .unary e | .postfixed e | .primary e => e.WellFormed Writable
  | .arguments es => AllWellFormed Writable es

theorem wellFormed_of_lexemes {t : TypeName} (h : ∀ l ∈ t.lexemes, Lexical l) : t.WellFormed :=
  (h _ List.mem_cons_self).name rfl

theorem wellFormed_of_typePart {type? : Option TypeName} (h : ∀ l ∈ typePart type?, Lexical l) :
    ∀ t ∈ type?, t.WellFormed := by
  rintro t ht
  obtain rfl : type? = some t := ht
  exact wellFormed_of_lexemes fun l hl => h l (List.mem_cons_of_mem _ hl)

/-- What the grammar writes for an expression with lexemes of tokens is well formed. -/
theorem Phrase.Spelt.wellFormed {p : Phrase} {ts : List Lexeme} (h : p.Spelt ts)
    (hts : ∀ l ∈ ts, Lexical l) : p.WellFormed := by
  induction h with
  | int | string | char | bool | noArguments => trivial
  | @float _ v l hv => exact ⟨l, (hts _ List.mem_cons_self).float rfl, hv⟩
  | name => exact (hts _ List.mem_cons_self).name rfl
  | newArray _ ih =>
    simp only [List.forall_mem_cons, List.forall_mem_append] at hts
    exact ⟨hts.2.1.name rfl, ih hts.2.2.2.1⟩
  | parentheses _ ih =>
    simp only [List.forall_mem_cons, List.forall_mem_append] at hts
    exact ih hts.2.1
  | postfixed _ ih | unary _ ih | binary _ ih | expression _ ih => exact ih hts
  | call _ _ ih ih' | index _ _ ih ih' =>
    simp only [List.forall_mem_cons, List.forall_mem_append] at hts
    exact ⟨ih hts.1, ih' hts.2.2.1⟩
  | member _ ih =>
    simp only [List.forall_mem_cons, List.forall_mem_append] at hts
    exact ⟨ih hts.1, hts.2.2.1.name rfl⟩
  | cast _ ih =>
    simp only [List.forall_mem_cons, List.forall_mem_append] at hts
    exact ⟨ih hts.1, wellFormed_of_lexemes hts.2.2⟩
  | prefixed _ _ ih => exact ih (List.forall_mem_cons.mp hts).2
  | operation _ _ _ _ ih ih' =>
    simp only [List.forall_mem_cons, List.forall_mem_append] at hts
    exact ⟨ih hts.1, ih' hts.2.2⟩
  | assignment _ hop _ _ ih ih' =>
    simp only [List.forall_mem_cons, List.forall_mem_append] at hts
    exact ⟨hop, ih hts.1, ih' hts.2.2⟩
  | lastArgument _ ih => exact ⟨ih hts, trivial⟩
  | argument _ _ ih ih' =>
    simp only [List.forall_mem_cons, List.forall_mem_append] at hts
    exact ⟨ih hts.1, ih' hts.2.2⟩

theorem SpeltOr.wellFormed {e? : Option Expr} {ts : List Lexeme} (h : SpeltOr e? ts)
    (hts : ∀ l ∈ ts, Lexical l) : ∀ e ∈ e?, e.WellFormed Writable := by
  cases h with
  | none => exact nofun
  | some he =>
    intro e hmem
    obtain rfl := Option.some.inj hmem
    exact Phrase.Spelt.wellFormed he hts

theorem InitialPart.wellFormed {init? : Option Expr} {ts : List Lexeme} (h : InitialPart init? ts)
    (hts : ∀ l ∈ ts, Lexical l) : ∀ e ∈ init?, e.WellFormed Writable := by
  cases h with
  | none => exact nofun
  | some he =>
    intro e hmem
    obtain rfl := Option.some.inj hmem
    exact Phrase.Spelt.wellFormed he (List.forall_mem_cons.mp hts).2

theorem Declaration.Spelt.wellFormed {d : Declaration} {ts : List Lexeme} (h : d.Spelt ts)
    (hts : ∀ l ∈ ts, Lexical l) : d.WellFormed Writable := by
  obtain ⟨us, hus, rfl⟩ := h.spelt
  simp only [List.forall_mem_cons, List.forall_mem_append] at hts
  obtain ⟨-, hname, htype, hinit, -⟩ := hts
  exact ⟨hname.name rfl, wellFormed_of_typePart htype, hus.wellFormed hinit, h.typed, h.constant⟩

theorem SetupPart.wellFormed {first : Option Setup} {ts : List Lexeme} (h : SetupPart first ts)
    (hts : ∀ l ∈ ts, Lexical l) : ∀ s ∈ first, s.WellFormed Writable := by
  intro s hmem
  cases h with
  | none => cases hmem
  | declare hd =>
    obtain rfl := Option.some.inj hmem
    exact hd.wellFormed hts
  | eval hv =>
    obtain rfl := Option.some.inj hmem
    exact Phrase.Spelt.wellFormed hv (List.forall_mem_append.mp hts).1

def Clause.WellFormed : Clause → Prop
  | .stmt st => st.WellFormed Writable
  | .stmts ss => StatementsWellFormed Writable ss

/-- What the grammar writes for a statement with lexemes of tokens is well formed. -/
theorem Clause.Spelt.wellFormed {c : Clause} {ts : List Lexeme} (h : c.Spelt ts)
    (hts : ∀ l ∈ ts, Lexical l) : c.WellFormed := by
  induction h with
  | eval hv => exact Phrase.Spelt.wellFormed hv (List.forall_mem_append.mp hts).1
  | declare hd => exact hd.wellFormed hts
  | block _ ih =>
    simp only [List.forall_mem_cons, List.forall_mem_append] at hts
    exact ih hts.2.1
  | ifThen hcond _ ih | whileLoop hcond _ ih =>
    simp only [List.forall_mem_cons, List.forall_mem_append] at hts
    exact ⟨Phrase.Spelt.wellFormed hcond hts.2.2.1, ih hts.2.2.2.2⟩
  | ifElse hcond _ hclosed _ ih ih' =>
    simp only [List.forall_mem_cons, List.forall_mem_append] at hts
    obtain ⟨-, -, hcond', -, hyes, -, hno⟩ := hts
    exact ⟨Phrase.Spelt.wellFormed hcond hcond', ih hyes, hclosed, ih' hno⟩
  | forLoop hfirst hcond hpost _ ih =>
    simp only [List.forall_mem_cons, List.forall_mem_append] at hts
    obtain ⟨-, -, hfirst', hcond', -, hpost', -, hbody⟩ := hts
    exact ⟨hfirst.wellFormed hfirst', hcond.wellFormed hcond', hpost.wellFormed hpost', ih hbody⟩
  | breakLoop | continueLoop | nil => trivial
  | returnStmt hvalue =>
    simp only [List.forall_mem_cons, List.forall_mem_append] at hts
    exact hvalue.wellFormed hts.2.1
  | cons _ _ ih ih' =>
    rw [List.forall_mem_append] at hts
    exact ⟨ih hts.1, ih' hts.2⟩

theorem wellFormed_of_listed {α : Type} {f : α → List Lexeme} {P : α → Prop}
    (hf : ∀ a, (∀ l ∈ f a, Lexical l) → P a) {as : List α} {ts : List Lexeme}
    (h : Listed (fun a us => us = f a) as ts) (hts : ∀ l ∈ ts, Lexical l) : ∀ a ∈ as, P a := by
  induction h with
  | nil => exact nofun
  | last ha =>
    subst ha
    simpa using hf _ hts
  | cons ha _ ih =>
    subst ha
    simp only [List.forall_mem_cons, List.forall_mem_append] at hts
    exact List.forall_mem_cons.mpr ⟨hf _ hts.1, ih hts.2.2⟩

theorem names_of_pathLexemes {path : List String} (h : ∀ l ∈ pathLexemes path, Lexical l) :
    ∀ n ∈ path, Lexer.isName n := by
  cases path with
  | nil => exact nofun
  | cons name parts =>
    rw [pathLexemes, List.forall_mem_cons] at h
    refine List.forall_mem_cons.mpr ⟨h.1.name rfl, fun part hpart => ?_⟩
    refine (h.2 (ident part) ?_).name rfl
    exact List.mem_flatMap.mpr ⟨part, hpart, by simp⟩

theorem Import.Spelt.wellFormed {i : Import} {ts : List Lexeme} (h : i.Spelt ts)
    (hts : ∀ l ∈ ts, Lexical l) : i.WellFormed := by
  cases h with
  | plain hpath =>
    simp only [List.forall_mem_cons, List.forall_mem_append] at hts
    exact ⟨hpath, names_of_pathLexemes hts.2.1, nofun, nofun, fun _ => ⟨rfl, rfl⟩⟩
  | overload hpath hparams =>
    simp only [List.forall_mem_cons, List.forall_mem_append] at hts
    obtain ⟨-, hnames, -, hparams', -, hresult, -⟩ := hts
    exact ⟨hpath, names_of_pathLexemes hnames,
      wellFormed_of_listed (fun _ => wellFormed_of_lexemes) hparams hparams',
      wellFormed_of_typePart hresult, nofun⟩

theorem Function.Spelt.wellFormed {f : Function} {ts : List Lexeme} (h : f.Spelt ts)
    (hts : ∀ l ∈ ts, Lexical l) : f.WellFormed Writable := by
  cases h with
  | mk hparams hbody =>
    simp only [List.forall_mem_cons, List.forall_mem_append] at hts
    obtain ⟨-, hname, -, hparams', -, hresult, -, hbody', -⟩ := hts
    refine ⟨hname.name rfl, wellFormed_of_listed (fun p hp => ?_) hparams hparams',
      wellFormed_of_typePart hresult, hbody.wellFormed hbody'⟩
    simp only [Param.lexemes, List.forall_mem_cons] at hp
    exact ⟨hp.1.name rfl, wellFormed_of_lexemes hp.2.2⟩

theorem Reader.Item.Spelt.wellFormed {i : Reader.Item} {ts : List Lexeme} (h : i.Spelt ts)
    (hts : ∀ l ∈ ts, Lexical l) : i.WellFormed Writable := by
  cases h with
  | «import» hi => exact hi.wellFormed hts
  | global hd => exact hd.wellFormed hts
  | function hf => exact hf.wellFormed hts
  | statement hst hne => exact ⟨hst.wellFormed hts, hne⟩

theorem Reader.ItemsSpelt.wellFormed {is : List Reader.Item} {ts : List Lexeme}
    (h : Reader.ItemsSpelt is ts) (hts : ∀ l ∈ ts, Lexical l) : ∀ i ∈ is, i.WellFormed Writable := by
  induction h with
  | nil => exact nofun
  | cons hi _ ih =>
    rw [List.forall_mem_append] at hts
    exact List.forall_mem_cons.mpr ⟨hi.wellFormed hts.1, ih hts.2⟩

/-- Sorting keeps the parts of a file. -/
theorem mem_items_sortItems {span : Span} {is : List Reader.Item} {i : Reader.Item}
    (h : i ∈ (Reader.sortItems span is).items) : i ∈ is := by
  induction is with
  | nil => cases h
  | cons j is ih =>
    rw [List.mem_cons]
    cases j <;>
    · simp only [Reader.sortItems, File.items, List.map_cons, List.mem_append, List.mem_cons] at h ih
      tauto

/-- What the grammar writes for a source file with lexemes of tokens is well formed. -/
theorem File.Spelt.wellFormed {f : File} {ts : List Lexeme} (h : f.Spelt ts)
    (hts : ∀ l ∈ ts, Lexical l) : f.WellFormed Writable := by
  obtain ⟨is, his, hf⟩ := h
  rw [← hf]
  exact fun i hi => his.wellFormed hts i (mem_items_sortItems hi)

/-! ## Sources -/

/-- The tokens of a text up to its end, as the grammar sees them. -/
def lexemesOf (source : List Glyph) : List Lexeme := (tokenize source).dropLast.map Token.lexeme

theorem lexemesOf_eq {source : List Glyph} {words : List Token} {stop : Token}
    (h : tokenize source = words ++ [stop]) : lexemesOf source = words.map Token.lexeme := by
  rw [lexemesOf, h, List.dropLast_concat]

/-- Reading a text with valid tokens starts before their lexemes. -/
theorem State.before_ofTokens {bytes : List UInt8}
    (h : ∀ t ∈ tokenize (Glyph.ofBytes bytes), t.isInvalid = false) :
    (State.ofTokens (tokenize (Glyph.ofBytes bytes))).Before (lexemesOf (Glyph.ofBytes bytes)) := by
  obtain ⟨words, hwords, hne⟩ := (Lexer.laid_tokenize (Glyph.ofBytes bytes)).last_eq
  have hordered := (State.apart_ofTokens bytes).1.ordered
  rw [lexemesOf_eq hwords]
  generalize tokenize (Glyph.ofBytes bytes) = tokens at h hordered hwords
  obtain ⟨hwhole, hpending⟩ := hwords ▸ State.pending_ofTokens hne rfl
  have hvalid : words.filter (fun t => !t.isInvalid) = words :=
    List.filter_eq_self.mpr fun t ht => by simp [h t (hwords ▸ List.mem_append_left _ ht)]
  have hfirst := fetch_of_all_valid ⟨.endOfInput, "", ⟨.zero, .zero⟩⟩ #[] h
  have hsecond := fun last errors => fetch_of_all_valid last errors hfirst.1
  refine ⟨hwhole, (hsecond _ _).1, hordered, (hsecond _ _).2.trans hfirst.2, ?_⟩
  rw [State.lexemes, hpending, hvalid]

/-- What the grammar writes for a file is read as it without a mistake. -/
theorem parse_of_spelt {bytes : List UInt8} {f : File}
    (hvalid : ∀ t ∈ tokenize (Glyph.ofBytes bytes), t.isInvalid = false)
    (h : f.Spelt (lexemesOf (Glyph.ofBytes bytes))) :
    (parse (Glyph.ofBytes bytes)).2 = #[] ∧ (parse (Glyph.ofBytes bytes)).1.bare = f.bare := by
  obtain ⟨is, his, hf⟩ := h
  obtain ⟨fuel, hfuel, hwhole, hparse⟩ := parse_eq (Glyph.ofBytes bytes)
  obtain ⟨is', t, his', ht, enough, hgives⟩ :=
    Reader.yields_items his _ (State.before_ofTokens hvalid)
  have hrun : Reader.items fuel State.recover (State.ofTokens (tokenize (Glyph.ofBytes bytes))) =
      (is', t) := by
    rw [← hgives (fuel + enough) (Nat.le_add_left _ _)]
    exact (items_eq_of_le hwhole hfuel (by omega)).symm
  rw [hparse, hrun]
  refine ⟨ht.clean, ?_⟩
  rw [← hf, Reader.sortItems_bare, Reader.sortItems_bare, his']

/-- What is read without a mistake is written as the grammar says. -/
theorem spelt_of_parse {bytes : List UInt8} (h : (parse (Glyph.ofBytes bytes)).2 = #[]) :
    (parse (Glyph.ofBytes bytes)).1.Spelt (lexemesOf (Glyph.ofBytes bytes)) := by
  have hbefore := State.before_ofTokens (valid_of_parse h)
  obtain ⟨fuel, hfuel, hwhole, hparse⟩ := parse_eq (Glyph.ofBytes bytes)
  obtain ⟨hend, hreads⟩ := (Reader.runs_items Companion.recoveries_self hwhole hfuel hfuel).result
  rw [hparse] at h ⊢
  dsimp only at h ⊢
  obtain ⟨ts, hts, -, hspelt⟩ := hreads hbefore.ordered (by rw [h]; exact Nat.zero_le _)
  rw [hbefore.lexemes, State.lexemes, State.pending_of_end hend, List.map_nil, List.append_nil] at hts
  rw [hts]
  exact ⟨_, hspelt, by rw [Reader.sortItems_span]⟩

theorem lexical_lexemesOf (source : List Glyph) : ∀ l ∈ lexemesOf source, Lexical l := by
  intro l hl
  obtain ⟨t, ht, rfl⟩ := List.mem_map.mp hl
  obtain ⟨hname, hfloat⟩ := Lexer.spelled_tokenize (List.dropLast_subset _ ht)
  refine ⟨fun hkind => ?_, fun hkind => ?_⟩
  · have hk : t.kind = .identifier := hkind
    rw [Token.lexeme, hk]
    exact hname hk
  · have hk : t.kind = .float := hkind
    rw [Token.lexeme, hk]
    exact hfloat hk

/-- The tokens of a printed file are those it was printed from. -/
theorem tokens_spelling {text : Span → Double → String} {f : File}
    (h : f.WellFormed fun span v => IsLexeme (text span v) v) :
    let source := Glyph.ofBytes (Text.bytes (f.spelling text))
    (∀ t ∈ tokenize source, t.isInvalid = false) ∧ lexemesOf source = f.printed text := by
  have hreads : ∀ w ∈ (f.printed text).map Lexeme.word, w.Reads := by
    intro w hw
    obtain ⟨l, hl, rfl⟩ := List.mem_map.mp hw
    exact (allProper_file h l hl).reads
  obtain ⟨tokens, stop, htokens, hsame⟩ := Lexer.tokenize_spell hreads
  rw [List.map_map] at hsame
  have hsource : Glyph.ofBytes (Text.bytes (f.spelling text)) =
      (Lexer.Word.spell ((f.printed text).map Lexeme.word)).map Glyph.ofChar := by
    rw [Text.bytes, File.spelling, String.toList_ofList, Glyph.ofBytes_bytes]
  dsimp only
  rw [hsource]
  refine ⟨fun t ht => ?_, ?_⟩
  · rw [htokens, List.mem_append, List.mem_singleton] at ht
    obtain ht | rfl := ht
    · have hpair : (t.kind, t.literal) ∈ tokens.map fun t => (t.kind, t.literal) :=
        List.mem_map_of_mem ht
      rw [hsame] at hpair
      obtain ⟨l, hl, heq⟩ := List.mem_map.mp hpair
      have hkind : t.kind = l.kind := by
        rw [← kind_word l]
        exact (congrArg Prod.fst heq).symm
      have hvalid := (allProper_file h l hl).valid
      rw [← hkind] at hvalid
      unfold Token.isInvalid
      split
      · exact absurd ‹_› (hvalid _)
      · rfl
    · rfl
  · let lexeme : Token.Kind × String → Lexeme := fun p => ⟨p.1, if p.1.isWorded then p.2 else ""⟩
    have hlexemes := congrArg (List.map lexeme) hsame
    rw [List.map_map, List.map_map] at hlexemes
    rw [lexemesOf_eq htokens]
    refine hlexemes.trans ((List.map_congr_left fun l hl => ?_).trans (List.map_id _))
    exact (allProper_file h l hl).eq

/-- The reader and the grammar agree, whose ten levels of operators are a table of their own. A text with
valid tokens whose lexemes the grammar writes for a file is read without a mistake, as the file up to spans. A well-formed file whose floating-point numbers are
given by lexemes is printed as the grammar writes it: its imports, global declarations, functions and
statements, with a space between each two words and parentheses only around what binds less tightly than
its place asks for, so that the grammar writes nothing shorter for it; and the text is read without a
mistake, as the file up to spans. The other way around, of a text that is read without a mistake all tokens
are valid, their lexemes are what the grammar writes for the file that was read, and the file is well
formed. -/
theorem reader_agrees :
    (∀ (bytes : List UInt8) (f : File), let source := Glyph.ofBytes bytes
      (∀ t ∈ tokenize source, t.isInvalid = false) → f.Spelt (lexemesOf source) →
        (parse source).2 = #[] ∧ (parse source).1.bare = f.bare) ∧
    (∀ (text : Span → Double → String) (f : File),
      f.WellFormed (fun span v => IsLexeme (text span v) v) →
        let source := Glyph.ofBytes (Text.bytes (f.spelling text))
        lexemesOf source = f.printed text ∧ f.Spelt (f.printed text) ∧
          (∀ ts, f.Spelt ts → (f.printed text).length ≤ ts.length) ∧
          (parse source).2 = #[] ∧ (parse source).1.bare = f.bare) ∧
    ∀ bytes : List UInt8, let source := Glyph.ofBytes bytes
      (parse source).2 = #[] → (∀ t ∈ tokenize source, t.isInvalid = false) ∧
        (parse source).1.Spelt (lexemesOf source) ∧ (parse source).1.WellFormed Writable := by
  refine ⟨fun bytes f => parse_of_spelt, fun text f h => ?_, fun bytes h => ?_⟩
  · obtain ⟨hvalid, hlexemes⟩ := tokens_spelling h
    have hspelt := spelt_file h
    exact ⟨hlexemes, hspelt, fun _ hts => hts.length_le _,
      parse_of_spelt hvalid (hlexemes.symm ▸ hspelt)⟩
  · have hspelt := spelt_of_parse h
    exact ⟨valid_of_parse h, hspelt, hspelt.wellFormed (lexical_lexemesOf _)⟩

def doubled : File :=
  let x : Expr := .name nowhere "x"
  let v : Expr := .float nowhere (Number.floatLiteral "1.5").1
  ⟨nowhere, [], [⟨nowhere, "x", false, none, some v⟩], [],
    [.ifElse nowhere (.binary nowhere .less x v)
      (.eval ⟨nowhere, .assign nowhere none x (.binary nowhere .mul (.binary nowhere .add x v) x)⟩)
      (.eval ⟨nowhere, .assign nowhere (some .add) x (.unary nowhere .negate x)⟩)]⟩

theorem reader_agrees_doubled :
    let text : Span → Double → String := fun _ _ => "1.5"
    let source := Glyph.ofBytes (Text.bytes (doubled.spelling text))
    doubled.WellFormed (fun span v => IsLexeme (text span v) v) ∧
      (∀ t ∈ tokenize source, t.isInvalid = false) ∧ doubled.Spelt (lexemesOf source) ∧
      (parse source).2 = #[] ∧ (parse source).1.bare = doubled.bare ∧
      (parse source).1.Spelt (lexemesOf source) ∧ (parse source).1.WellFormed Writable := by
  intro text source
  have hlexeme : IsLexeme "1.5" (Number.floatLiteral "1.5").1 := by
    have hvalid : (Number.floatLiteral "1.5").2 = true := by decide
    refine ⟨?_, Prod.ext rfl hvalid⟩
    exact @Lexer.IsFloat.mk '1' [] ['.', '5'] [] rfl (List.forall_mem_nil _)
      (.some rfl (List.forall_mem_nil _)) .none (.inl (List.cons_ne_nil _ _))
  have hname : Lexer.isName "x" := by decide
  have hwellFormed : doubled.WellFormed (fun span v => IsLexeme (text span v) v) := by
    intro i hi
    simp only [doubled, File.items, List.map_nil, List.map_cons, List.nil_append, List.cons_append,
      List.mem_cons, List.not_mem_nil, or_false] at hi
    obtain rfl | rfl := hi
    · refine ⟨hname, fun t ht => (by cases ht), fun e he => ?_, .inr rfl, fun _ => rfl⟩
      obtain rfl := Option.some.inj he
      exact hlexeme
    · have hadded : isAssignment (some .add) := by decide
      have hplain : isAssignment none := by decide
      exact ⟨⟨⟨hname, hlexeme⟩, ⟨hplain, hname, ⟨hname, hlexeme⟩, hname⟩, rfl, hadded, hname, hname⟩,
        fun _ hd => (by cases hd)⟩
  obtain ⟨hlexemes, hspelt, -, hclean, -⟩ := reader_agrees.2.1 text doubled hwellFormed
  obtain ⟨hvalid, hspelt', hwellFormed'⟩ := reader_agrees.2.2 _ hclean
  have hspelt'' : doubled.Spelt (lexemesOf source) := hlexemes.symm ▸ hspelt
  obtain ⟨hclean', hbare⟩ := reader_agrees.1 _ doubled hvalid hspelt''
  exact ⟨hwellFormed, hvalid, hspelt'', hclean', hbare, hspelt', hwellFormed'⟩

end Parsed
end TypedScript
