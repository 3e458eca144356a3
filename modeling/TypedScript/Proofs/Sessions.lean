import TypedScript.Proofs.Compilation
import TypedScript.Proofs.Parsed.Joined
import TypedScript.Session

/-!
# Sessions

Inputs are compiled behind the declarations that were kept. What is compiled are the parts of these and
those of the input, so that whether an input has declarations only can be told from the input alone.
-/

namespace TypedScript

open Parsed

def linesOf (texts : List String) : String := String.join (texts.map (· ++ "\n"))

theorem linesOf_concat (texts : List String) (text : String) :
    linesOf (texts ++ [text]) = linesOf texts ++ text ++ "\n" := by
  rw [← String.toList_inj]
  simp [linesOf, String.toList_join]

theorem readable_linesOf {texts : List String} (h : ∀ t ∈ texts, '\x00' ∉ t.toList) :
    '\x00' ∉ (linesOf texts).toList := by
  simp only [linesOf, String.toList_join, List.mem_flatMap, List.mem_map, not_exists, not_and]
  rintro _ ⟨t, ht, rfl⟩
  simpa using h t ht

theorem intercalate_concat (texts : List String) (text : String) :
    "\n".intercalate (texts ++ [text]) = linesOf texts ++ text := by
  induction texts with
  | nil => simp [linesOf]
  | cons t texts ih =>
    have hcons : linesOf (t :: texts) = t ++ "\n" ++ linesOf texts := by
      simp [linesOf, String.join_cons]
    cases texts with
    | nil => simp [linesOf, String.intercalate_cons_cons]
    | cons u texts =>
      rw [List.cons_append, List.cons_append, String.intercalate_cons_cons, ← List.cons_append, ih, hcons]
      simp only [String.append_assoc]

namespace Text

theorem bytes_lineBreak (s t : String) : bytes (s ++ "\n" ++ t) = bytes s ++ 10 :: bytes t := by
  have hbreak : bytes "\n" = [10] := by decide
  simp only [bytes, String.toList_append, List.flatMap_append] at hbreak ⊢
  rw [hbreak, List.append_assoc, List.singleton_append]

theorem ofBytes_bytes (s : String) : Glyph.ofBytes (bytes s) = Glyph.ofString s :=
  Glyph.ofBytes_bytes s.toList

/-- A byte below 128 stands in a text as often as its character. -/
theorem count_bytes {n : UInt8} (hn : n.toNat < 0x80) (s : String) :
    (bytes s).count n = s.toList.count (Char.ofNat n.toNat) := by
  have hcount := Glyph.count_ofBytes hn (bytes s)
  have hchars : (Glyph.ofString s).map Glyph.char = s.toList := by
    rw [Glyph.ofString, List.map_map]
    exact List.map_id _
  rw [ofBytes_bytes, hchars] at hcount
  exact hcount.symm

end Text

/-- Everything is moved behind a text. -/
def Move.below (text : String) : Move := .down (Text.bytes text).length (text.toList.count '\n')

theorem Move.below_lineBreak (text : String) : below (text ++ "\n") =
    down ((Text.bytes text).length + 1) ((Text.bytes text).count 10 + 1) := by
  have hbytes := Text.bytes_lineBreak text ""
  rw [String.append_empty] at hbytes
  have hbreaks : (Text.bytes text).count 10 = text.toList.count '\n' := Text.count_bytes (by decide) text
  rw [below, hbytes, hbreaks, List.length_append, String.toList_append, List.count_append]
  rfl

namespace Parsed

/-- What is written in texts with line breaks between them, behind another text: the parts of each, where it
stands. -/
def partsOf (before : String) : List String → File
  | [] => ⟨⟨.zero, .zero⟩, [], [], [], []⟩
  | text :: rest =>
    let f := (parse (Glyph.ofString text)).1.moved (.below before)
    let g := partsOf (before ++ text ++ "\n") rest
    ⟨f.span, f.imports ++ g.imports, f.globals ++ g.globals, f.functions ++ g.functions,
      f.statements ++ g.statements⟩

/-- Two files with the same parts stand before another one in the same way. -/
theorem Joins.congr_left {f g fg fg' h whole : File} (hfg : Joins f g fg) (hfg' : Joins f g fg')
    (hwhole : Joins fg h whole) : Joins fg' h whole where
  imports := by rw [hwhole.imports, hfg.imports, hfg'.imports]
  globals := by rw [hwhole.globals, hfg.globals, hfg'.globals]
  functions := by rw [hwhole.functions, hfg.functions, hfg'.functions]
  statements := by rw [hwhole.statements, hfg.statements, hfg'.statements]

theorem joins_nil (before : String) (f : File) : Joins (partsOf before []) f f := ⟨rfl, rfl, rfl, rfl⟩

/-- One text more. -/
theorem joins_partsOf (before : String) (texts : List String) (text : String) :
    Joins (partsOf before texts)
      ((parse (Glyph.ofString text)).1.moved (.below (before ++ linesOf texts)))
      (partsOf before (texts ++ [text])) := by
  induction texts generalizing before with
  | nil =>
    have hnil : before ++ linesOf [] = before := by simp [linesOf]
    rw [hnil]
    constructor <;> simp [partsOf]
  | cons t texts ih =>
    have hcons : before ++ linesOf (t :: texts) = before ++ t ++ "\n" ++ linesOf texts := by
      simp [linesOf, String.join_cons, String.append_assoc]
    obtain ⟨himports, hglobals, hfunctions, hstatements⟩ := ih (before ++ t ++ "\n")
    rw [hcons]
    constructor <;> simp [partsOf, *]

theorem partsOf_statements {before : String} {texts : List String}
    (h : ∀ t ∈ texts, (parse (Glyph.ofString t)).1.statements = []) :
    (partsOf before texts).statements = [] := by
  induction texts generalizing before with
  | nil => rfl
  | cons t texts ih =>
    rw [List.forall_mem_cons] at h
    have hfirst := (File.statements_moved (.below before) _).mpr h.1
    rw [partsOf]
    simp only [hfirst, ih h.2, List.append_nil]

/-- A text that can be kept before others: it is read up to its end, and it has declarations only. -/
structure Keepable (text : String) : Prop where
  readable : '\x00' ∉ text.toList
  errors : (parse (Glyph.ofString text)).2 = #[]
  statements : (parse (Glyph.ofString text)).1.statements = []

/-- Behind texts that have declarations only, each on lines of its own, an input is read with its own parts
and mistakes. -/
theorem parse_linesOf {texts : List String} (hkept : ∀ t ∈ texts, Keepable t) (input : String) :
    let whole := parse (Glyph.ofString (linesOf texts ++ input))
    let own := parse (Glyph.ofString input)
    whole.2.size = own.2.size ∧
      Joins (partsOf "" texts) (own.1.moved (.below (linesOf texts))) whole.1 := by
  induction texts using List.reverseRecOn generalizing input with
  | nil =>
    have hnil : linesOf [] ++ input = input := by simp [linesOf]
    rw [hnil]
    have hstay : Move.below (linesOf []) = .stay := rfl
    dsimp only
    rw [hstay, File.moved_stay]
    exact ⟨rfl, joins_nil "" _⟩
  | append_singleton texts t ih =>
    rw [List.forall_mem_append, List.forall_mem_singleton] at hkept
    obtain ⟨hsize, hjoins⟩ := ih hkept.1 t
    have hstatements : (parse (Glyph.ofString (linesOf texts ++ t))).1.statements = [] := by
      rw [hjoins.statements, partsOf_statements fun u hu => (hkept.1 u hu).statements,
        (File.statements_moved _ _).mpr hkept.2.statements, List.append_nil]
    have herrors : (parse (Glyph.ofString (linesOf texts ++ t))).2 = #[] := by
      rw [hkept.2.errors] at hsize
      exact Array.eq_empty_of_size_eq_zero hsize
    have hnul : 0 ∉ Text.bytes (linesOf texts ++ t) := by
      rw [← List.count_eq_zero, Text.count_bytes (by decide), List.count_eq_zero, String.toList_append,
        List.mem_append, not_or]
      exact ⟨readable_linesOf fun u hu => (hkept.1 u hu).readable, hkept.2.readable⟩
    rw [← Text.ofBytes_bytes] at hstatements herrors
    have hwhole := parse_lineBreak (Text.bytes input) hnul herrors fun _ => hstatements
    rw [← Text.bytes_lineBreak, Text.ofBytes_bytes, Text.ofBytes_bytes, Text.ofBytes_bytes,
      ← linesOf_concat] at hwhole
    rw [linesOf_concat, Move.below_lineBreak, ← linesOf_concat]
    have hparts := joins_partsOf "" texts t
    rw [String.empty_append] at hparts
    exact ⟨hwhole.1, hjoins.congr_left hparts hwhole.2⟩

end Parsed

namespace Session

/-- The sessions that inputs and commands lead to. -/
inductive Reached : Session → Prop
  | start : Reached start
  | evaluate {fuel : Nat} {s s' : Session} {input : String} {reply : Reply} : Reached s →
    s.evaluate fuel input = .ok (some (reply, s')) → Reached s'
  | command {s s' : Session} {text : String} {reply : Reply} : Reached s →
    s.command text = .ok (some (reply, some s')) → Reached s'

/-- An input is kept only if it has declarations only, and everything that was kept stays. -/
theorem evaluate_cases {fuel : Nat} {s s' : Session} {input : String} {reply : Reply}
    (h : s.evaluate fuel input = .ok (some (reply, s'))) :
    s' = s ∨ isDeclaration input ∧ s' = ⟨s.declarations ++ [input]⟩ := by
  have hsame {α : Type} {o : Option α} {f : α → Reply} (h : (.ok (o.map fun a => (f a, s)) :
      Except Defect (Option (Reply × Session))) = .ok (some (reply, s'))) : s' = s := by
    obtain ⟨a, -, ha⟩ := Option.map_eq_some_iff.mp (Except.ok.inj h)
    exact (Prod.mk.inj ha).2.symm
  unfold evaluate at h
  cases hc : s.compileInput input with
  | error d =>
    rw [hc] at h
    cases h
  | ok c =>
    simp only [hc, bind, Except.bind] at h
    split at h
    · cases h
      exact .inl rfl
    · split at h
      · next hdeclaration =>
        cases h
        exact .inr ⟨hdeclaration, rfl⟩
      · split at h
        · cases h
          exact .inl rfl
        · split at h
          · exact .inl (hsame h)
          · exact .inl (hsame h)

theorem command_cases {s s' : Session} {text : String} {reply : Reply}
    (h : s.command text = .ok (some (reply, some s'))) : s' = s ∨ s' = start := by
  unfold command at h
  dsimp only at h
  split at h
  case h_8 =>
    cases h
    exact .inr rfl
  case h_9 | h_10 =>
    cases hview : s.view _ (behind (firstWord text) text) with
    | error d =>
      rw [hview] at h
      cases h
    | ok r =>
      rw [hview] at h
      cases h
      exact .inl rfl
  all_goals
    cases h
  all_goals exact .inl rfl

theorem isDeclaration_iff {input : String} : isDeclaration input ↔
    (parse (Glyph.ofString input)).2 = #[] ∧ (parse (Glyph.ofString input)).1.statements = [] := by
  rw [isDeclaration]
  simp only [Bool.and_eq_true, Array.isEmpty_iff, List.isEmpty_iff]

/-- What is kept are declarations. -/
theorem Reached.isDeclaration {s : Session} (h : Reached s) : ∀ d ∈ s.declarations, isDeclaration d := by
  induction h with
  | start => nofun
  | evaluate _ h ih =>
    obtain rfl | ⟨hinput, rfl⟩ := evaluate_cases h
    · exact ih
    · exact List.forall_mem_append.mpr ⟨ih, List.forall_mem_singleton.mpr hinput⟩
  | command _ h ih =>
    obtain rfl | rfl := command_cases h
    · exact ih
    · nofun

/-- A compilation is one of what was read. -/
theorem file_of_compile {source : List Glyph} {options : CompileOptions} {c : Compilation}
    (h : compile source options = .ok c) : c.file = (parse source).1 := by
  unfold compile at h
  dsimp only at h
  split at h
  · cases h
    rfl
  · cases hanalysis : analyze options (parse source).1 with
    | error d =>
      rw [hanalysis] at h
      cases h
    | ok found =>
      rw [hanalysis] at h
      simp only [bind, Except.bind] at h
      split at h
      · cases h
        rfl
      · split at h
        · cases h
        · cases h
          rfl

/-- Reading composes over declarations. Two texts without a NUL that are read without a mistake are read
without one on lines behind each other, as the parts of the first and those of the second. So in every
session an input is compiled as the parts that were kept and its own, and it has declarations only if this
holds of all that is compiled. -/
theorem reading_composes :
    (∀ a b : List UInt8, 0 ∉ a → 0 ∉ b → (parse (Glyph.ofBytes a)).2 = #[] →
      (parse (Glyph.ofBytes b)).2 = #[] →
      let whole := parse (Glyph.ofBytes (a ++ 10 :: b))
      whole.2 = #[] ∧ Joins (parse (Glyph.ofBytes a)).1
        ((parse (Glyph.ofBytes b)).1.moved (.down (a.length + 1) (a.count 10 + 1))) whole.1) ∧
    ∀ s, Reached s → (∀ d ∈ s.declarations, '\x00' ∉ d.toList) → ∀ input,
      let whole := parse (Glyph.ofString (s.fullText input))
      let own := parse (Glyph.ofString input)
      (Joins (partsOf "" s.declarations) (own.1.moved (.below (linesOf s.declarations))) whole.1 ∧
        (partsOf "" s.declarations).statements = [] ∧ whole.2.size = own.2.size) ∧
      (∀ c, s.compileInput input = .ok c → c.file = whole.1) ∧
      Session.isDeclaration input = (whole.2.isEmpty && whole.1.statements.isEmpty) := by
  refine ⟨fun a b hnul _ ha hb => ?_, fun s hs hreadable input => ?_⟩
  · obtain ⟨hsize, hjoins⟩ := parse_lineBreak b hnul ha fun helse =>
      absurd helse (current_of_parse (State.apart_ofTokens b).1.ordered hb)
    rw [hb] at hsize
    exact ⟨Array.eq_empty_of_size_eq_zero hsize, hjoins⟩
  · have hkept : ∀ d ∈ s.declarations, Keepable d := fun d hd => by
      obtain ⟨herrors, hstatements⟩ := isDeclaration_iff.mp (hs.isDeclaration d hd)
      exact ⟨hreadable d hd, herrors, hstatements⟩
    obtain ⟨hsize, hjoins⟩ := parse_linesOf hkept input
    rw [← intercalate_concat] at hsize hjoins
    have hstatements : (partsOf "" s.declarations).statements = [] :=
      partsOf_statements fun d hd => (hkept d hd).statements
    refine ⟨⟨hjoins, hstatements, hsize⟩, fun c hc => file_of_compile hc, ?_⟩
    rw [Bool.eq_iff_iff, isDeclaration_iff, Bool.and_eq_true, Array.isEmpty_iff, List.isEmpty_iff,
      ← Array.size_eq_zero_iff, ← Array.size_eq_zero_iff, fullText, hsize, hjoins.statements, hstatements,
      List.nil_append, File.statements_moved]

def options : CompileOptions := ⟨"repl", "repl", false⟩

def isSound (file : File) : Bool :=
  match analyze options file with
  | .ok (report, a) => !report.hasErrors && !a.bound.routines.any fun f => Bound.evaluateName f.body
  | .error _ => false

/-- A module is made of a text that nothing is wrong with. -/
theorem exists_compile {source : List Glyph} {file : File} (hparse : parse source = (file, #[]))
    (hsound : isSound file) : ∃ c M, compile source options = .ok c ∧ c.module? = some M := by
  obtain ⟨report, a, hanalyze, hr, hlowers, htyped⟩ :=
    exists_analysis options (proper_of_parse hparse)
  simp only [isSound, hanalyze, Bool.and_eq_true, Bool.not_eq_true'] at hsound
  obtain ⟨M, hM⟩ := exists_module_of_typed options.name hr (htyped hsound.1) hlowers hsound.2
  refine ⟨⟨report, file, some a, some M⟩, M, ?_, rfl⟩
  simp only [compile, hparse]
  change (analyze options file >>= _) = _
  rw [hanalyze]
  change (if report.hasErrors then _ else Module.ofFlat options.name a.registry a.flat >>= _) = _
  rw [hsound.1, hM]
  rfl

/-- An input of declarations that a module is made for is kept. -/
theorem evaluate_isDeclaration {s : Session} {input : String} {c : Compilation} {M : Module}
    (hinput : Session.isDeclaration input) (hcompile : s.compileInput input = .ok c)
    (hmodule : c.module? = some M) (fuel : Nat) :
    s.evaluate fuel input =
      .ok (some (⟨"", "", complaints c⟩, ⟨s.declarations ++ [input]⟩)) := by
  simp only [evaluate, hcompile, Bind.bind, Except.bind, hmodule]
  exact if_pos hinput

/-- A session that has kept a declaration. -/
theorem reached_variable : Reached ⟨["var a: i32;"]⟩ := by
  obtain ⟨file, errors, hparse⟩ : ∃ file errors,
      parse (Glyph.ofString (start.fullText "var a: i32;")) = (file, errors) := ⟨_, _, rfl⟩
  have herrors : errors.isEmpty := by
    rw [show errors = (parse (Glyph.ofString (start.fullText "var a: i32;"))).2 by rw [hparse]]
    decide +kernel
  have hsound : isSound file := by
    rw [show file = (parse (Glyph.ofString (start.fullText "var a: i32;"))).1 by rw [hparse]]
    decide +kernel
  obtain rfl : errors = #[] := Array.isEmpty_iff.mp herrors
  obtain ⟨c, M, hcompile, hmodule⟩ := exists_compile hparse hsound
  exact .evaluate .start (evaluate_isDeclaration (by decide +kernel) hcompile hmodule 0)

/-- What is said about a declaration that was kept and a statement that uses it. -/
theorem reading_composes_kept :
    (∃ a b : List UInt8, 0 ∉ a ∧ 0 ∉ b ∧ (parse (Glyph.ofBytes a)).2 = #[] ∧
      (parse (Glyph.ofBytes b)).2 = #[] ∧ (parse (Glyph.ofBytes (a ++ 10 :: b))).2 = #[]) ∧
    Session.isDeclaration "a = 1;" =
      ((parse (Glyph.ofString ((⟨["var a: i32;"]⟩ : Session).fullText "a = 1;"))).2.isEmpty &&
        (parse (Glyph.ofString ((⟨["var a: i32;"]⟩ : Session).fullText "a = 1;"))).1.statements.isEmpty) := by
  have ha : (parse (Glyph.ofBytes (Text.bytes "var a: i32;"))).2.isEmpty := by decide +kernel
  have hb : (parse (Glyph.ofBytes (Text.bytes "a = 1;"))).2.isEmpty := by decide +kernel
  have hanul : 0 ∉ Text.bytes "var a: i32;" := by decide
  have hbnul : 0 ∉ Text.bytes "a = 1;" := by decide
  rw [Array.isEmpty_iff] at ha hb
  exact ⟨⟨_, _, hanul, hbnul, ha, hb, (reading_composes.1 _ _ hanul hbnul ha hb).1⟩,
    (reading_composes.2 _ reached_variable (by decide) "a = 1;").2.2⟩

end Session
end TypedScript
