import TypedScript.Parsed.Parser
import TypedScript.Proofs.Number.Numerals
import TypedScript.Proofs.Text.Decoding
import TypedScript.Proofs.Token.Written

/-!
# What literals stand for

A written string, character or number is read as one token and as the literal expression of what was
written.
-/

namespace TypedScript
namespace Parsed
namespace Reader

section

variable {α β : Type} {r : Recovery} {s s' : State}

/-- What a reader gives that goes on behind another. -/
theorem bind_eq {m : Reader α} {f : α → Reader β} {a : α} {x : β × State} (hm : m r s = (a, s'))
    (hf : f a r s' = x) : (m >>= f) r s = x := by
  change f (m r s).1 r (m r s).2 = x
  rw [hm]
  exact hf

end

def literalKinds : List Token.Kind := [.integer, .float, .string, .character, .trueWord, .falseWord]

variable {r : Recovery} {s s' : State} {e : Expr}

theorem primary_literal (hkind : s.current.kind ∈ literalKinds) (fuel : Nat) :
    primary (fuel + 1) r s = literalExpr s.current r s := by
  simp only [literalKinds, List.mem_cons, List.not_mem_nil, or_false] at hkind
  refine bind_eq (a := s) rfl ?_
  obtain h | h | h | h | h | h := hkind <;> simp only [h]

theorem postfixedTail_end (hend : s.current.kind = .endOfInput) (fuel : Nat) (start : Position) :
    postfixedTail (fuel + 1) start e r s = (some e, s) := by
  refine bind_eq (a := s.current.kind) rfl ?_
  simp only [hend]
  rfl

theorem binaryTail_end (hend : s.current.kind = .endOfInput) (fuel level : Nat) (start : Position) :
    binaryTail (fuel + 1) level start e r s = (some e, s) := by
  refine bind_eq (a := s.current.kind) rfl ?_
  simp only [hend]
  rfl

/-- A literal that nothing follows is the whole expression. -/
theorem expression_literal (hkind : s.current.kind ∈ literalKinds)
    (hlit : literalExpr s.current r s = (some e, s')) (hend : s'.current.kind = .endOfInput)
    (fuel : Nat) : expression (fuel + 5) r s = (some e, s') := by
  have hunary : unaryOperator? s.current.kind = none := by
    simp only [literalKinds, List.mem_cons, List.not_mem_nil, or_false] at hkind
    obtain h | h | h | h | h | h := hkind <;> rw [h] <;> rfl
  have hpostfixed : postfixed (fuel + 2) r s = (some e, s') := by
    refine bind_eq (a := s.current.span.start) rfl ?_
    exact bind_eq ((primary_literal hkind fuel).trans hlit) (postfixedTail_end hend fuel _)
  have hunary : unary (fuel + 3) r s = (some e, s') := by
    refine bind_eq (a := s.current.kind) rfl ?_
    simp only [hunary]
    exact hpostfixed
  have hbinary : binary (fuel + 4) 1 r s = (some e, s') := by
    refine bind_eq (a := s.current.span.start) rfl ?_
    exact bind_eq hunary (binaryTail_end hend (fuel + 2) 1 _)
  refine bind_eq (a := s.current.span.start) rfl (bind_eq hbinary ?_)
  refine bind_eq (a := s'.current.kind) rfl ?_
  simp only [hend]
  rfl

end Reader

/-- A text is read as one token of the given kind and literal, and as the literal expression that its
span makes. -/
def Denotes (text : List Char) (k : Token.Kind) (literal : String) (make : Span → Expr) : Prop :=
  let source := Glyph.ofBytes (Text.bytes (String.ofList text))
  ∃ span stop, tokenize source = [⟨k, literal, span⟩, ⟨.endOfInput, "", ⟨stop, stop⟩⟩] ∧
    parseExpression source = (some (make span), #[])

/-- The state before a single token. -/
theorem State.ofTokens_literal {t last : Token} (hkind : t.kind ∈ Reader.literalKinds)
    (hlast : last.kind = .endOfInput) :
    ofTokens [t, last] = ⟨t, last, [], Position.zero, #[]⟩ := by
  obtain ⟨k, literal, span⟩ := t
  obtain ⟨l, literal', span'⟩ := last
  obtain rfl : l = .endOfInput := hlast
  simp only [Reader.literalKinds, List.mem_cons, List.not_mem_nil, or_false] at hkind
  obtain rfl | rfl | rfl | rfl | rfl | rfl := hkind <;> rfl

/-- A word that is a literal denotes what its token is read as. -/
theorem denotes_of_reads {text : List Char} {k : Token.Kind} {literal : String} {make : Span → Expr}
    (h : Lexer.Word.Reads ⟨text, k, literal⟩) (hkind : k ∈ Reader.literalKinds)
    (hlit : ∀ r s, s.current.kind = k → s.current.literal = literal →
      Reader.literalExpr s.current r s =
        (some (make ⟨s.current.span.start, s.current.span.stop⟩), s.step)) :
    Denotes text k literal make := by
  have hwords : ∀ v ∈ [(⟨text, k, literal⟩ : Lexer.Word)], v.Reads := by simpa using h
  obtain ⟨tokens, stop, hspelled, hsame⟩ := Lexer.tokenize_spell hwords
  have hsource : Glyph.ofBytes (Text.bytes (String.ofList text)) = text.map Glyph.ofChar := by
    rw [Text.bytes, String.toList_ofList, Glyph.ofBytes_bytes]
  obtain ⟨t, rfl⟩ : ∃ t, tokens = [t] := by
    have hlength := congrArg List.length hsame
    simpa [List.length_eq_one_iff] using hlength
  obtain ⟨ht, ht'⟩ : t.kind = k ∧ t.literal = literal := by simpa using hsame
  have htokens : tokenize (text.map Glyph.ofChar) = [t, ⟨.endOfInput, "", ⟨stop, stop⟩⟩] := hspelled
  refine ⟨t.span, stop, ?_, ?_⟩
  · rw [hsource, htokens, ← ht, ← ht']
  · let start : State := ⟨t, ⟨.endOfInput, "", ⟨stop, stop⟩⟩, [], Position.zero, #[]⟩
    have hstart : State.ofTokens [t, ⟨.endOfInput, "", ⟨stop, stop⟩⟩] = start :=
      State.ofTokens_literal (ht ▸ hkind) rfl
    have hread := Reader.expression_literal (s := start) (ht ▸ hkind) (hlit State.recover start ht ht')
      rfl 35
    rw [parseExpression, readWith, hsource, htokens]
    simp only [hstart]
    exact congrArg (fun p : Option Expr × State => (p.1, p.2.errors)) hread

namespace Reader

variable {r : Recovery} {s : State}

theorem literalExpr_string (h : s.current.kind = .string) : literalExpr s.current r s =
    (some (.string ⟨s.current.span.start, s.current.span.stop⟩ s.current.literal), s.step) := by
  refine bind_eq (a := ()) rfl (bind_eq (a := ⟨s.current.span.start, s.current.span.stop⟩) rfl ?_)
  simp only [h]
  rfl

theorem literalExpr_character (h : s.current.kind = .character) : literalExpr s.current r s =
    (some (.char ⟨s.current.span.start, s.current.span.stop⟩
      (s.current.literal.toList.headD '\x00')), s.step) := by
  refine bind_eq (a := ()) rfl (bind_eq (a := ⟨s.current.span.start, s.current.span.stop⟩) rfl ?_)
  simp only [h]
  rfl

theorem literalExpr_integer {v : UInt64} (h : s.current.kind = .integer)
    (hv : Number.literal s.current.literal = (v, true)) : literalExpr s.current r s =
      (some (.int ⟨s.current.span.start, s.current.span.stop⟩ v), s.step) := by
  refine bind_eq (a := ()) rfl (bind_eq (a := ⟨s.current.span.start, s.current.span.stop⟩) rfl ?_)
  simp only [h, hv]
  rfl

end Reader

/-- A written number is a word by itself. -/
theorem reads_of_numeral {v : Nat} {text : List Char} (h : Number.Numeral v text) :
    Lexer.Word.Reads ⟨text, .integer, String.ofList text⟩ := by
  have hbased : ∀ {b : Nat} {mark : Char} {ds text : List Char}, 1 < b → b ≤ 16 →
      mark = 'x' ∨ mark = 'b' → List.Forall₂ Number.SameDigit ds (Nat.toDigits b v) →
      Number.Spread ds text →
      Lexer.Word.Reads ⟨'0' :: mark :: text, .integer, String.ofList ('0' :: mark :: text)⟩ := by
    intro b mark ds text hb hb' hmark hds htext
    have hall : ∀ d : Nat, d < 16 → (Lexer.isHexDigit d.digitChar || d.digitChar == '_') ∧
      (Lexer.isHexDigit d.digitChar.toUpper || d.digitChar.toUpper == '_') := by decide
    have hdigits : ∀ c ∈ ds, Lexer.isHexDigit c || c == '_' :=
      Number.Numeral.forall_sameDigit hb (fun d hd => hall d (by omega)) hds
    refine Lexer.Word.reads_based hmark ?_ (htext.forall hdigits (by decide))
    rintro rfl
    cases htext
    exact Number.toDigits_ne_nil b v hb (List.forall₂_nil_left_iff.mp hds)
  cases h with
  | decimal htext =>
    have hall : ∀ d : Nat, d < 10 → Lexer.isDigit d.digitChar := by decide
    have hdigits : ∀ c ∈ Nat.toDigits 10 v, Lexer.isDigit c :=
      Number.forall_digitChar 10 hall (by decide) v
    have hne := Number.toDigits_ne_nil 10 v (by decide)
    generalize Nat.toDigits 10 v = ds at htext hdigits hne
    have hfits : ∀ c ∈ text, Lexer.isDigitOrUnderscore c :=
      htext.forall (fun d hd => by simp [Lexer.isDigitOrUnderscore, hdigits d hd]) rfl
    cases htext with
    | nil => exact absurd rfl hne
    | digit n _ =>
      rw [List.forall_mem_cons] at hfits hdigits
      exact Lexer.Word.reads_decimal hdigits.1 hfits.2
  | hexadecimal hds htext => exact hbased (by decide) (by decide) (.inl rfl) hds htext
  | binary htext =>
    exact hbased (by decide) (by decide) (.inr rfl) (Number.sameDigit_refl _) htext

/-- Literals stand for what was written. A string between double quotes, with line breaks, NUL, double
quotes and backslashes written behind a backslash and tabs, carriage returns and single quotes written in
either way, is read as the string; a character between single quotes, written likewise, as the character;
and a number below 2 to the 64 in decimal, hexadecimal or binary digits, with underscores behind any of
them, as the number. -/
theorem literals_denote :
    (∀ (s : String) (text : List Char), Lexer.Escaped Lexer.onlyEscapedInString s.toList text →
      Denotes ('"' :: (text ++ ['"'])) .string s (.string · s)) ∧
    (∀ (c : Char) (text : List Char), Lexer.Escaped Lexer.onlyEscapedInCharacter [c] text →
      Denotes ('\'' :: (text ++ ['\''])) .character (String.singleton c) (.char · c)) ∧
    ∀ (v : UInt64) (text : List Char), Number.Numeral v.toNat text →
      Denotes text .integer (String.ofList text) (.int · v) := by
  refine ⟨fun s text h => ?_, fun c text h => ?_, fun v text h => ?_⟩
  · refine denotes_of_reads (Lexer.Word.reads_string h) (by decide) fun r t ht ht' => ?_
    rw [Reader.literalExpr_string ht, ht']
  · refine denotes_of_reads (Lexer.Word.reads_character h) (by decide) fun r t ht ht' => ?_
    rw [Reader.literalExpr_character ht, ht']
    simp
  · refine denotes_of_reads (reads_of_numeral h) (by decide) fun r t ht ht' => ?_
    have hle : v.toNat ≤ Number.maxWord := Nat.le_of_lt_succ v.toNat_lt
    have hvalue := Number.literal_numeral h hle
    rw [UInt64.ofNat_toNat] at hvalue
    exact Reader.literalExpr_integer ht (ht' ▸ hvalue)

end Parsed
end TypedScript
