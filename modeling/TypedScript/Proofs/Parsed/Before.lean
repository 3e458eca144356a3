import TypedScript.Proofs.Parsed.Bare
import TypedScript.Proofs.Parsed.Recovery

/-!
# Written expressions are read

What is written as the grammar says is read as what was written. The grammar has a level for every level
of the operators; a reader of operands goes on where the operand of a lower level would end, so the two
meet only in what comes next.
-/

namespace TypedScript
namespace Parsed

def kindOf : List Lexeme → Token.Kind
  | [] => .endOfInput
  | l :: _ => l.kind

theorem kindOf_append {ts us : List Lexeme} (h : kindOf ts ≠ .endOfInput) :
    kindOf (ts ++ us) = kindOf ts := by
  cases ts with
  | nil => exact absurd rfl h
  | cons l ts => rfl

/-- Where all tokens are valid, nothing is passed over, so no mistake is recorded. -/
theorem fetch_of_all_valid (last : Token) (errors : Array Error) {tokens : List Token}
    (h : ∀ t ∈ tokens, t.isInvalid = false) :
    (∀ t ∈ (fetch last errors tokens).2.1, t.isInvalid = false) ∧
      (fetch last errors tokens).2.2 = errors := by
  cases tokens with
  | nil => exact ⟨nofun, rfl⟩
  | cons t rest =>
    rw [List.forall_mem_cons] at h
    rw [fetch_of_valid h.1]
    exact ⟨h.2, rfl⟩

namespace State

/-- The state before valid tokens in order, of which no mistake was recorded. -/
structure Before (s : State) (ts : List Lexeme) : Prop where
  whole : s.Whole
  valid : ∀ t ∈ s.rest, t.isInvalid = false
  ordered : s.Ordered
  clean : s.errors = #[]
  lexemes : s.lexemes = ts

namespace Before

variable {s : State} {l : Lexeme} {ts : List Lexeme}

theorem kind (h : s.Before ts) : s.current.kind = kindOf ts := by
  cases ts with
  | nil =>
    refine Decidable.byContradiction fun hend => ?_
    have hnil := h.lexemes
    rw [State.lexemes, pending_of_not_end hend] at hnil
    cases hnil
  | cons l ts => exact kind_of_lexemes h.lexemes

theorem not_end (h : s.Before (l :: ts)) : s.current.kind ≠ .endOfInput := by
  intro hend
  have hcons := h.lexemes
  rw [State.lexemes, pending_of_end hend] at hcons
  cases hcons

theorem lexeme (h : s.Before (l :: ts)) : s.current.lexeme = l := by
  have hcons := h.lexemes
  rw [State.lexemes, pending_of_not_end h.not_end] at hcons
  exact (List.cons.inj hcons).1

theorem literal {k : Token.Kind} {text : String} (h : s.Before (⟨k, text⟩ :: ts)) (hk : k.isWorded) :
    s.current.literal = text := by
  have hkind : s.current.kind = k := h.kind
  have hlexeme := h.lexeme
  rw [Token.lexeme, hkind, if_pos hk] at hlexeme
  exact congrArg Lexeme.text hlexeme

theorem step (h : s.Before (l :: ts)) : s.step.Before ts := by
  obtain ⟨hgoes, hpending⟩ := goes_step h.whole h.not_end
  have hlexemes := h.lexemes
  have hordered := h.ordered
  rw [State.lexemes, hpending] at hlexemes
  rw [Ordered, hpending] at hordered
  obtain ⟨hvalid, herrors⟩ := fetch_of_all_valid s.ahead s.errors h.valid
  exact ⟨hgoes.whole, hvalid, (List.pairwise_cons.mp hordered).2, herrors.trans h.clean,
    (List.cons.inj hlexemes).2⟩

theorem ahead (h : s.Before (l :: ts)) : s.ahead.kind = kindOf ts := h.step.kind

end Before
end State

def Eventually (p : Nat → Prop) : Prop := ∃ n, ∀ fuel ≥ n, p fuel

namespace Eventually

variable {p q : Nat → Prop}

theorem of_forall (h : ∀ n, p n) : Eventually p := ⟨0, fun n _ => h n⟩

theorem and (hp : Eventually p) (hq : Eventually q) : Eventually fun n => p n ∧ q n := by
  obtain ⟨n, hn⟩ := hp
  obtain ⟨m, hm⟩ := hq
  exact ⟨max n m, fun fuel hfuel => ⟨hn fuel (by omega), hm fuel (by omega)⟩⟩

theorem mono (hp : Eventually p) (h : ∀ n, p n → q n) : Eventually q := by
  obtain ⟨n, hn⟩ := hp
  exact ⟨n, fun fuel hfuel => h fuel (hn fuel hfuel)⟩

/-- One step down in the descent takes one unit of fuel. -/
theorem succ (hp : Eventually p) (h : ∀ n, p n → q (n + 1)) : Eventually q := by
  obtain ⟨n, hn⟩ := hp
  refine ⟨n + 1, fun fuel hfuel => ?_⟩
  obtain ⟨k, rfl⟩ : ∃ k, fuel = k + 1 := Nat.exists_eq_add_one_of_ne_zero (by omega)
  exact h k (hn k (by omega))

end Eventually

/-- Whether a word that can come first in an operand without prefix operators. -/
def opensPrimary : Token.Kind → Bool
  | .integer | .float | .string | .character | .trueWord | .falseWord | .identifier | .newWord
  | .leftParen => true
  | _ => false

def opensExpression (k : Token.Kind) : Bool := opensPrimary k || (Reader.unaryOperator? k).isSome

def continues : Token.Kind → Bool
  | .leftParen | .leftBracket | .dot | .asWord => true
  | _ => false

def closes : Token.Kind → Bool
  | .semicolon | .rightParen | .rightBracket | .comma => true
  | _ => false

theorem unaryOperator?_of_opensPrimary {k : Token.Kind} (h : opensPrimary k) :
    Reader.unaryOperator? k = none := by
  revert h
  cases k <;> simp [opensPrimary, Reader.unaryOperator?]

theorem continues_of_binaryOperator? {k : Token.Kind} {op : BinaryOperator}
    (h : Reader.binaryOperator? k = some op) : continues k = false := by
  revert h
  cases k <;> simp [Reader.binaryOperator?, continues]

theorem continues_of_assignment? {k : Token.Kind} {op : Option BinaryOperator}
    (h : Reader.assignment? k = some op) :
    continues k = false ∧ Reader.binaryOperator? k = none := by
  revert h
  cases k <;> simp [Reader.assignment?, continues, Reader.binaryOperator?]

theorem of_closes {k : Token.Kind} (h : closes k) :
    continues k = false ∧ Reader.binaryOperator? k = none ∧ Reader.assignment? k = none := by
  revert h
  cases k <;> simp [closes, continues, Reader.binaryOperator?, Reader.assignment?]

def Phrase.opens : Phrase → Token.Kind → Bool
  | .expression _ | .binary _ _ | .unary _ => opensExpression
  | .postfixed _ | .primary _ => opensPrimary
  | .arguments _ => fun _ => true

theorem ne_endOfInput_of_opens {k : Token.Kind} (h : opensExpression k) : k ≠ .endOfInput := by
  rintro rfl
  cases h

theorem Phrase.Spelt.opens {p : Phrase} {ts : List Lexeme} (h : p.Spelt ts) :
    p.opens (kindOf ts) := by
  have happend : ∀ {ts us : List Lexeme}, opensExpression (kindOf ts) →
      kindOf (ts ++ us) = kindOf ts := fun h => kindOf_append (ne_endOfInput_of_opens h)
  have hprimary : ∀ {k : Token.Kind}, opensPrimary k → opensExpression k :=
    fun h => by simp [opensExpression, h]
  induction h with
  | bool => rename_i b; cases b <;> rfl
  | postfixed _ ih => exact ih
  | unary _ ih => exact hprimary ih
  | prefixed hop _ _ =>
    simp [Phrase.opens, kindOf, opensExpression, Lexeme.mark, Reader.unaryOperator?_eq_some_iff.mpr hop]
  | binary _ ih => exact ih
  | expression _ ih => exact ih
  | call _ _ ih _ | index _ _ ih _ | member _ ih | cast _ ih =>
    rw [Phrase.opens, happend (hprimary ih)]
    exact ih
  | operation _ _ _ _ ih _ | assignment _ _ _ _ ih _ =>
    rw [Phrase.opens, happend ih]
    exact ih
  | _ => rfl

end Parsed
end TypedScript
