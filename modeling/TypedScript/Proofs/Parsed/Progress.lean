import TypedScript.Proofs.Parsed.Grammar
import TypedScript.Proofs.Parsed.Pending

/-!
# Readers go on

A reader that gives up has recorded a mistake, and one that does not has consumed a token. As long as
the fuel exceeds the number of tokens that are still to be consumed by enough, more of it makes no
difference; and how reading goes on behind a mistake is asked only when a mistake has been recorded. For
both, two runs of a reader are compared: with other fuel, and with another way to go on. Where no mistake
is recorded, what was consumed is what was found as the grammar writes it.
-/

namespace TypedScript
namespace Parsed

namespace State

/-- The tokens that are still to be consumed as the grammar sees them. -/
def lexemes (s : State) : List Lexeme := s.pending.map Token.lexeme

/-- Every token starts behind those before it. -/
def Ordered (s : State) : Prop :=
  s.pending.Pairwise fun t u => t.span.start.offset < u.span.start.offset

/-- Between two states, tokens in order were read as said unless there was a mistake. -/
def Reads (s t : State) (R : List Lexeme → Prop) : Prop :=
  s.Ordered → t.errors.size ≤ s.errors.size →
    ∃ ts, s.lexemes = ts ++ t.lexemes ∧ t.Ordered ∧ R ts

namespace Reads

variable {s t u : State} {P R : List Lexeme → Prop}

theorem here (h : R []) : s.Reads s R := fun hs _ => ⟨[], rfl, hs, h⟩

theorem mistaken (h : s.errors.size < t.errors.size) : s.Reads t R :=
  fun _ hle => absurd hle (Nat.not_le_of_lt h)

theorem imp (h : s.Reads t P) (hR : ∀ ts, P ts → R ts) : s.Reads t R := by
  intro hs herr
  obtain ⟨ts, hts, ht, hP⟩ := h hs herr
  exact ⟨ts, hts, ht, hR ts hP⟩

/-- What was read between three states, one part behind the other. -/
theorem bind (h : s.Reads t P) (herr : s.errors.size ≤ t.errors.size ∧ t.errors.size ≤ u.errors.size)
    (hR : ∀ ts, P ts → t.Reads u fun us => R (ts ++ us)) : s.Reads u R := by
  intro hs hle
  obtain ⟨ts, hts, ht, hP⟩ := h hs (by omega)
  obtain ⟨us, hus, hu, hR⟩ := hR ts hP ht (by omega)
  exact ⟨ts ++ us, by rw [hts, hus, List.append_assoc], hu, hR⟩

end Reads

theorem reads_step {s : State} (hs : s.Whole) (hend : s.current.kind ≠ .endOfInput) :
    s.Reads s.step (· = [s.current.lexeme]) := by
  have hpending := (goes_step hs hend).2
  intro hordered _
  rw [Ordered, hpending] at hordered
  exact ⟨_, by rw [lexemes, hpending]; rfl, (List.pairwise_cons.mp hordered).2, rfl⟩

theorem reads_mark {s : State} {k : Token.Kind} (hs : s.Whole) (h : s.current.kind = k)
    (hk : k.isWorded = false) (hend : k ≠ .endOfInput) : s.Reads s.step (· = [.mark k]) :=
  (reads_step hs (h ▸ hend)).imp fun _ hts => by rw [hts, Token.lexeme_mark h hk]

theorem reads_ident {s : State} (hs : s.Whole) (h : s.current.kind = .identifier) :
    s.Reads s.step (· = [.ident s.current.literal]) :=
  (reads_step hs (by simp [h])).imp fun _ hts => by rw [hts, Token.lexeme_ident h]

theorem kind_of_lexemes {s : State} {l : Lexeme} {ts : List Lexeme} (h : s.lexemes = l :: ts) :
    s.current.kind = l.kind := by
  by_cases hend : s.current.kind = .endOfInput
  · rw [lexemes, pending_of_end hend] at h
    cases h
  · rw [lexemes, pending_of_not_end hend] at h
    exact congrArg Lexeme.kind (List.cons.inj h).1

end State

namespace Reader

/-- Two ways to go on behind a mistake are the same once there is one, and they go forward. -/
structure Recoveries (r r' : Recovery) : Prop where
  same : ∀ s : State, s.errors ≠ #[] → r' s = r s
  goes : ∀ s : State, s.Whole → s.errors ≠ #[] → s.Goes (r s)

/-- The two runs of a reader from a state are the same, they go forward, and they end as said. -/
structure Runs {α : Type} (r r' : Recovery) (m m' : Reader α) (s : State)
    (Q : α → State → Prop) : Prop where
  same : m' r' s = m r s
  goes : s.Goes (m r s).2
  result : Q (m r s).1 (m r s).2

/-- A reader that gives up leaves more mistakes than there were, and one that does not leaves fewer than
`n` tokens and has read what it found. -/
def Ends {α : Type} (s : State) (n : Nat) (R : α → State → List Lexeme → Prop) :
    Option α → State → Prop
  | none, t => s.errors.size < t.errors.size
  | some a, t => t.left < n ∧ s.Reads t (R a t)

/-- A reader that consumes the current token if it is of the kind leaves fewer than `n` tokens. -/
def Found (s : State) (k : Token.Kind) (n : Nat) : Bool → State → Prop
  | true, t => t.left < n ∧ s.Reads t (· = [.mark k])
  | false, t => s.errors.size < t.errors.size

section

variable {α β : Type} {r r' : Recovery} {s : State}

theorem Runs.pure {a : α} {Q : α → State → Prop} (hs : s.Whole) (h : Q a s) :
    Runs r r' (Pure.pure a) (Pure.pure a) s Q := ⟨rfl, .refl hs, h⟩

theorem Runs.imp {m m' : Reader α} {P Q : α → State → Prop} (hm : Runs r r' m m' s P)
    (h : ∀ a s', s.Goes s' → P a s' → Q a s') : Runs r r' m m' s Q :=
  ⟨hm.same, hm.goes, h _ _ hm.goes hm.result⟩

theorem Runs.bind {m m' : Reader α} {f f' : α → Reader β} {P : α → State → Prop}
    {Q : β → State → Prop} (hm : Runs r r' m m' s P)
    (hf : ∀ a s', s'.Whole → s'.left ≤ s.left → s.errors.size ≤ s'.errors.size → P a s' →
      Runs r r' (f a) (f' a) s' Q) : Runs r r' (m >>= f) (m' >>= f') s Q := by
  have hrest := hf _ _ hm.goes.whole hm.goes.left_le hm.goes.errors hm.result
  refine ⟨?_, hm.goes.trans hrest.goes, hrest.result⟩
  have hsame : (m' >>= f') r' s = f' (m r s).1 r' (m r s).2 := by
    rw [← hm.same]
    rfl
  exact hsame.trans hrest.same

/-- A reader that only looks. -/
theorem Runs.look {m : Reader α} {f f' : α → Reader β} {a : α} {Q : β → State → Prop}
    (hm : ∀ r, m r s = (a, s)) (hf : Runs r r' (f a) (f' a) s Q) :
    Runs r r' (m >>= f) (m >>= f') s Q := by
  have hsame : ∀ (f : α → Reader β) (r : Recovery), (m >>= f) r s = f a r s := by
    intro f r
    change f (m r s).1 r (m r s).2 = _
    rw [hm]
  exact ⟨by rw [hsame, hsame, hf.same], by rw [hsame]; exact hf.goes, by rw [hsame]; exact hf.result⟩

section

variable {s₀ : State} {k n : Nat} {R : β → State → List Lexeme → Prop}

/-- A reader that gives up if the one before it does. -/
theorem Runs.optional {m m' : Reader (Option α)} {f f' : Option α → Reader (Option β)}
    {P : α → State → List Lexeme → Prop} (hm : Runs r r' m m' s (Ends s k P))
    (he : s₀.errors.size ≤ s.errors.size)
    (hnone : f none = Pure.pure none) (hnone' : f' none = Pure.pure none)
    (hf : ∀ a s', s'.Whole → s'.left ≤ s.left → s.errors.size ≤ s'.errors.size → s'.left < k →
      s.Reads s' (P a s') → Runs r r' (f (some a)) (f' (some a)) s' (Ends s₀ n R)) :
    Runs r r' (m >>= f) (m' >>= f') s (Ends s₀ n R) := by
  refine hm.bind fun o s' hs' hle herr ho => ?_
  cases o with
  | none =>
    rw [hnone, hnone']
    exact .pure hs' (Nat.lt_of_le_of_lt he ho)
  | some a => exact hf a s' hs' hle herr ho.1 ho.2

/-- A reader that gives up if a token is missing. -/
theorem Runs.required {m m' : Reader Bool} {f f' : Bool → Reader (Option β)} {l : Token.Kind}
    (hm : Runs r r' m m' s (Found s l k)) (he : s₀.errors.size ≤ s.errors.size)
    (hnone : f false = Pure.pure none) (hnone' : f' false = Pure.pure none)
    (hf : ∀ s', s'.Whole → s'.left ≤ s.left → s.errors.size ≤ s'.errors.size → s'.left < k →
      s.Reads s' (· = [.mark l]) → Runs r r' (f true) (f' true) s' (Ends s₀ n R)) :
    Runs r r' (m >>= f) (m' >>= f') s (Ends s₀ n R) := by
  refine hm.bind fun b s' hs' hle herr hb => ?_
  cases b with
  | true => exact hf s' hs' hle herr hb.1 hb.2
  | false =>
    rw [hnone, hnone']
    exact .pure hs' (Nat.lt_of_le_of_lt he hb)

theorem Runs.none (hs : s.Whole) (h : s₀.errors.size < s.errors.size) :
    Runs r r' (Pure.pure (Option.none : Option β)) (Pure.pure Option.none) s (Ends s₀ n R) :=
  .pure hs h

theorem Runs.some {a : β} (hs : s.Whole) (h : s.left < n) (hread : s₀.Reads s (R a s)) :
    Runs r r' (Pure.pure (Option.some a)) (Pure.pure (Option.some a)) s (Ends s₀ n R) :=
  .pure hs ⟨h, hread⟩

/-- A reader that goes on behind what was read before. -/
theorem Runs.behind {m m' : Reader (Option β)} {P : β → State → List Lexeme → Prop}
    (hm : Runs r r' m m' s (Ends s k P)) (he : s₀.errors.size ≤ s.errors.size) (hn : k ≤ n)
    (hread : ∀ a t, s.errors.size ≤ t.errors.size → s.Reads t (P a t) → s₀.Reads t (R a t)) :
    Runs r r' m m' s (Ends s₀ n R) := by
  refine hm.imp fun o t hgoes ho => ?_
  cases o with
  | none => exact Nat.lt_of_le_of_lt he ho
  | some a => exact ⟨Nat.lt_of_lt_of_le ho.1 hn, hread a t hgoes.errors ho.2⟩

end

theorem Runs.advance {f f' : Unit → Reader β} {Q : β → State → Prop} (hs : s.Whole)
    (hend : s.current.kind ≠ .endOfInput)
    (hf : s.step.Whole → s.step.left + 1 = s.left → s.errors.size ≤ s.step.errors.size →
      Runs r r' (f ()) (f' ()) s.step Q) : Runs r r' (advance >>= f) (advance >>= f') s Q := by
  have hgoes := (State.goes_step hs hend).1
  have hrest := hf hgoes.whole (State.left_step hs hend) hgoes.errors
  exact ⟨hrest.same, hgoes.trans hrest.goes, hrest.result⟩

/-- Recording a mistake leaves one more and consumes nothing. -/
def Reported (s : State) (_ : Unit) (s' : State) : Prop :=
  s'.current = s.current ∧ s'.left = s.left ∧ s.errors.size < s'.errors.size

theorem runs_reportAt {span : Span} {fault : Fault} (hs : s.Whole) :
    Runs r r' (reportAt span fault) (reportAt span fault) s (Reported s) :=
  have hgoes := State.goes_report hs ⟨span, fault⟩
  ⟨rfl, hgoes, rfl, rfl, Nat.lt_of_lt_of_eq (Nat.lt_succ_self _) (Array.size_push _).symm⟩

theorem runs_report {fault : Fault} (hs : s.Whole) :
    Runs r r' (report fault) (report fault) s (Reported s) :=
  .look (a := s) (fun _ => rfl) (runs_reportAt hs)

theorem runs_reportExpected {what : Expectation} (hs : s.Whole) :
    Runs r r' (reportExpected what) (reportExpected what) s (Reported s) :=
  .look (a := s) (fun _ => rfl) (runs_report hs)

theorem runs_kind {f f' : Token.Kind → Reader β} {Q : β → State → Prop}
    (hf : Runs r r' (f s.current.kind) (f' s.current.kind) s Q) :
    Runs r r' (kind >>= f) (kind >>= f') s Q := .look (fun _ => rfl) hf

theorem runs_at {k : Token.Kind} {f f' : Bool → Reader β} {Q : β → State → Prop}
    (hf : Runs r r' (f (decide (s.current.kind = k))) (f' (decide (s.current.kind = k))) s Q) :
    Runs r r' (at? k >>= f) (at? k >>= f') s Q := .look (fun _ => rfl) hf

theorem runs_ahead {k : Token.Kind} {f f' : Bool → Reader β} {Q : β → State → Prop}
    (hf : Runs r r' (f (decide (s.ahead.kind = k))) (f' (decide (s.ahead.kind = k))) s Q) :
    Runs r r' (ahead? k >>= f) (ahead? k >>= f') s Q := .look (fun _ => rfl) hf

theorem runs_position {f f' : Position → Reader β} {Q : β → State → Prop}
    (hf : Runs r r' (f s.current.span.start) (f' s.current.span.start) s Q) :
    Runs r r' (position >>= f) (position >>= f') s Q := .look (fun _ => rfl) hf

theorem runs_literal {f f' : String → Reader β} {Q : β → State → Prop}
    (hf : Runs r r' (f s.current.literal) (f' s.current.literal) s Q) :
    Runs r r' (literal >>= f) (literal >>= f') s Q := .look (fun _ => rfl) hf

theorem runs_spanFrom {start : Position} {f f' : Span → Reader β} {Q : β → State → Prop}
    (hf : Runs r r' (f ⟨start, s.lastEnd⟩) (f' ⟨start, s.lastEnd⟩) s Q) :
    Runs r r' (spanFrom start >>= f) (spanFrom start >>= f') s Q := .look (fun _ => rfl) hf

theorem runs_get {f f' : State → Reader β} {Q : β → State → Prop}
    (hf : Runs r r' (f s) (f' s) s Q) :
    Runs r r' ((get : Reader State) >>= f) ((get : Reader State) >>= f') s Q :=
  .look (fun _ => rfl) hf

theorem runs_expect {k : Token.Kind} (hk : k ≠ .endOfInput ∧ k.isWorded = false) (hs : s.Whole) :
    Runs r r' (expect k) (expect k) s (Found s k s.left) := by
  refine runs_at ?_
  split
  · rename_i h
    rw [decide_eq_true_eq] at h
    refine .advance hs (h ▸ hk.1) fun hstep hleft _ => .pure hstep ⟨?_, ?_⟩
    · omega
    · exact State.reads_mark hs h hk.2 hk.1
  · refine (runs_reportExpected hs).bind fun _ s' hs' _ _ hreported => .pure hs' ?_
    exact hreported.2.2

theorem runs_recover (hr : Recoveries r r') (hs : s.Whole) (h : 0 < s.errors.size) :
    Runs r r' recover recover s fun _ _ => True := by
  have hne : s.errors ≠ #[] := by
    rintro heq
    simp [heq] at h
  have heq : r' s = r s := hr.same s hne
  refine ⟨?_, hr.goes s hs hne, trivial⟩
  change ((), r' s) = ((), r s)
  rw [heq]

theorem runs_ranksWithin {fuel fuel' : Nat} (hs : s.Whole) (hfuel : s.left < fuel)
    (hfuel' : s.left < fuel') : Runs r r' (ranksWithin fuel) (ranksWithin fuel') s
      fun rank t => s.Reads t (· = brackets rank) := by
  induction fuel generalizing fuel' s with
  | zero => omega
  | succ fuel ih =>
    obtain ⟨fuel', rfl⟩ := Nat.exists_eq_add_one_of_ne_zero (Nat.ne_of_gt (Nat.zero_lt_of_lt hfuel'))
    refine runs_at (runs_ahead ?_)
    split
    · rename_i h
      simp only [Bool.and_eq_true, decide_eq_true_eq] at h
      have hopen := State.reads_mark hs h.1 rfl nofun
      refine .advance hs (by simp [h.1]) fun hstep hleft _ => ?_
      have hkind : s.step.current.kind = .rightBracket := h.2
      have hclose := State.reads_mark hstep hkind rfl nofun
      refine .advance hstep (by simp [hkind]) fun hstep' hleft' _ => ?_
      refine (ih hstep' (by omega) (by omega)).bind fun rank t ht _ _ hranks => .pure ht ?_
      refine hopen.bind (by omega) fun ts hts => hclose.bind (by omega) fun us hus => ?_
      exact hranks.imp fun vs hvs => by rw [hts, hus, hvs, brackets]; rfl
    · exact .pure hs (.here rfl)

theorem runs_ranks (hs : s.Whole) :
    Runs r r' ranks ranks s fun rank t => s.Reads t (· = brackets rank) :=
  runs_get (runs_ranksWithin hs hs.left_lt hs.left_lt)

theorem runs_typeName (hs : s.Whole) :
    Runs r r' typeName typeName s (Ends s s.left fun t _ ts => ts = t.lexemes) := by
  refine runs_position (runs_at ?_)
  split
  · rename_i h
    rw [decide_eq_true_eq] at h
    have hname := State.reads_ident hs h
    refine runs_literal (.advance hs (by simp [h]) fun hstep hleft _ => ?_)
    refine (runs_ranks hstep).bind fun rank t ht _ _ hranks => runs_spanFrom (.some ht ?_ ?_)
    · omega
    · refine hname.bind (by omega) fun ts hts => hranks.imp fun us hus => ?_
      rw [hts, hus]
      rfl
  · refine (runs_reportExpected hs).bind fun _ s' hs' _ _ hreported => .none hs' ?_
    exact hreported.2.2

theorem runs_literalExpr (hs : s.Whole) (hkind : s.current.kind.isWorded ∨
      s.current.kind = .trueWord ∨ s.current.kind = .falseWord) :
    Runs r r' (literalExpr s.current) (literalExpr s.current) s
      (Ends s s.left fun e _ => Phrase.Spelt (.primary e)) := by
  have hend : s.current.kind ≠ .endOfInput := by
    intro hend
    rw [hend] at hkind
    simp [Token.Kind.isWorded] at hkind
  refine .advance hs hend fun hstep hleft _ => runs_spanFrom ?_
  have hfirst := State.reads_step hs hend
  have hsome : ∀ {e : Expr}, Phrase.Spelt (.primary e) [s.current.lexeme] →
      Runs r r' (Pure.pure (Option.some e)) (Pure.pure (Option.some e)) s.step
        (Ends s s.left fun e _ => Phrase.Spelt (.primary e)) := fun he =>
    .some hstep (by omega) (hfirst.imp fun ts hts => hts ▸ he)
  have hnoted : ∀ {b : Bool} {span : Span} {fault : Fault} {e : Expr},
      (b = true → Phrase.Spelt (.primary e) [s.current.lexeme]) →
      let noted : Reader (Option Expr) := do
        if !b then reportAt span fault
        return some e
      Runs r r' noted noted s.step (Ends s s.left fun e _ => Phrase.Spelt (.primary e)) := by
    intro b span fault e he
    cases b with
    | true => exact hsome (he rfl)
    | false =>
      refine (runs_reportAt hstep).bind fun _ t ht hle _ hreported => .some ht (by omega) ?_
      exact .mistaken (by have := hreported.2.2; omega)
  have hlexeme : ∀ {k : Token.Kind}, s.current.kind = k →
      s.current.lexeme = ⟨k, if k.isWorded then s.current.literal else ""⟩ := by
    rintro k rfl
    rfl
  split
  · rename_i h
    generalize hvalue : Number.literal s.current.literal = p
    obtain ⟨value, valid⟩ := p
    refine hnoted fun hvalid => ?_
    subst hvalid
    rw [hlexeme h]
    exact .int hvalue
  · rename_i h
    generalize hvalue : Number.floatLiteral s.current.literal = p
    obtain ⟨value, valid⟩ := p
    refine hnoted fun hvalid => ?_
    subst hvalid
    rw [hlexeme h]
    exact .float hvalue
  · rename_i h
    refine hsome ?_
    rw [hlexeme h]
    exact .string
  · rename_i h
    refine hsome ?_
    rw [hlexeme h]
    exact .char rfl
  · rename_i h
    refine hsome ?_
    rw [hlexeme h]
    exact .bool (b := true)
  · rename_i h
    refine hsome ?_
    rw [hlexeme h]
    exact .bool (b := false)
  · have h : s.current.kind = .identifier := by
      simp_all [Token.Kind.isWorded_iff]
    refine hsome ?_
    rw [hlexeme h]
    exact .name

/-- An operator is consumed as what it is. -/
theorem reads_operator {f : Token.Kind → Option α} {a : α} (hs : s.Whole)
    (hf : ∀ k ∈ [Token.Kind.endOfInput, .integer, .float, .string, .character, .identifier], f k = none)
    (h : f s.current.kind = some a) :
    s.current.kind ≠ .endOfInput ∧ s.Reads s.step (· = [.mark s.current.kind]) := by
  have hne : ∀ k ∈ [Token.Kind.endOfInput, .integer, .float, .string, .character, .identifier],
      s.current.kind ≠ k := by
    rintro k hk rfl
    rw [hf _ hk] at h
    cases h
  have hworded : s.current.kind.isWorded = false := by
    rw [← Bool.not_eq_true, Token.Kind.isWorded_iff]
    rintro (h | h | h | h | h) <;> exact hne _ (by decide) h
  have hend := hne .endOfInput List.mem_cons_self
  exact ⟨hend, State.reads_mark hs rfl hworded hend⟩

end

def Below (level : Nat) (s : State) : Prop :=
  ∀ op, binaryOperator? s.current.kind = some op → op.precedence < level

/-- What the readers of expressions do with fuel enough for the tokens that are still to be consumed. -/
structure RunsExpr (r r' : Recovery) (fuel : Nat) : Prop where
  expression : ∀ {fuel' s}, s.Whole → 10 * s.left + 6 ≤ fuel → 10 * s.left + 6 ≤ fuel' →
    Runs r r' (expression fuel) (expression fuel') s
      (Ends s s.left fun e _ => Phrase.Spelt (.expression e))
  binary : ∀ {fuel' s} level, s.Whole → 10 * s.left + 5 ≤ fuel → 10 * s.left + 5 ≤ fuel' →
    Runs r r' (binary fuel level) (binary fuel' level) s
      (Ends s s.left fun e t ts => Phrase.Spelt (.binary level e) ts ∧ Below level t)
  /-- The operand before was written at the level, and at that of the operator that comes next. -/
  binaryTail : ∀ {fuel' s} level start left, s.Whole → 10 * s.left + 1 ≤ fuel →
    10 * s.left + 1 ≤ fuel' → Runs r r' (binaryTail fuel level start left)
      (binaryTail fuel' level start left) s (Ends s (s.left + 1) fun e t us =>
        (∀ ts, Phrase.Spelt (.binary level left) ts → (∀ op, binaryOperator? s.current.kind = some op →
          Phrase.Spelt (.binary op.precedence left) ts) → Phrase.Spelt (.binary level e) (ts ++ us)) ∧
        Below level t)
  unary : ∀ {fuel' s}, s.Whole → 10 * s.left + 4 ≤ fuel → 10 * s.left + 4 ≤ fuel' →
    Runs r r' (unary fuel) (unary fuel') s (Ends s s.left fun e _ => Phrase.Spelt (.unary e))
  postfixed : ∀ {fuel' s}, s.Whole → 10 * s.left + 3 ≤ fuel → 10 * s.left + 3 ≤ fuel' →
    Runs r r' (postfixed fuel) (postfixed fuel') s
      (Ends s s.left fun e _ => Phrase.Spelt (.postfixed e))
  postfixedTail : ∀ {fuel' s} start head, s.Whole → 10 * s.left + 1 ≤ fuel →
    10 * s.left + 1 ≤ fuel' → Runs r r' (postfixedTail fuel start head)
      (postfixedTail fuel' start head) s (Ends s (s.left + 1) fun e _ us =>
        ∀ ts, Phrase.Spelt (.postfixed head) ts → Phrase.Spelt (.postfixed e) (ts ++ us))
  arguments : ∀ {fuel' s}, s.Whole → 10 * s.left + 7 ≤ fuel → 10 * s.left + 7 ≤ fuel' →
    Runs r r' (arguments fuel) (arguments fuel') s
      (Ends s (s.left + 1) fun es _ => Phrase.Spelt (.arguments es))
  primary : ∀ {fuel' s}, s.Whole → 10 * s.left + 2 ≤ fuel → 10 * s.left + 2 ≤ fuel' →
    Runs r r' (primary fuel) (primary fuel') s (Ends s s.left fun e _ => Phrase.Spelt (.primary e))
  newArray : ∀ {fuel' s}, s.Whole → s.current.kind = .newWord → 10 * s.left + 1 ≤ fuel →
    10 * s.left + 1 ≤ fuel' → Runs r r' (newArray fuel) (newArray fuel') s
      (Ends s s.left fun e _ => Phrase.Spelt (.primary e))

theorem runsExpr_zero {r r' : Recovery} : RunsExpr r r' 0 := by
  constructor <;> intros <;> omega

namespace RunsExpr

variable {r r' : Recovery} {fuel fuel' : Nat} {s : State} (ih : RunsExpr r r' fuel)

include ih

theorem expression_succ (hs : s.Whole) (hfuel : 10 * s.left + 6 ≤ fuel + 1)
    (hfuel' : 10 * s.left + 6 ≤ fuel' + 1) : Runs r r' (Reader.expression (fuel + 1))
      (Reader.expression (fuel' + 1)) s (Ends s s.left fun e _ => Phrase.Spelt (.expression e)) := by
  refine runs_position (.optional (ih.binary 1 hs (by omega) (by omega)) (Nat.le_refl _) rfl rfl ?_)
  intro left s' hs' _ herr hlt hleft
  refine runs_kind ?_
  split
  · exact .some hs' hlt (hleft.imp fun ts hts => .expression hts.1)
  · rename_i op hop
    obtain ⟨hend, hmark⟩ := reads_operator hs' (by decide) hop
    refine .advance hs' hend fun hstep hless hnow => ?_
    refine .optional (ih.expression hstep (by omega) (by omega)) (by omega) rfl rfl ?_
    intro value s'' hs'' hle herr' _ hvalue
    refine runs_spanFrom (.some hs'' (by omega) ?_)
    refine hleft.bind (by omega) fun ts hts => hmark.bind (by omega) fun us hus => ?_
    obtain ⟨hname, hassigns⟩ := assignment?_eq_some_iff.mp hop
    exact hvalue.imp fun vs hvs => by simpa [hus] using .assignment hname hassigns hts.1 hvs

theorem binary_succ (level : Nat) (hs : s.Whole) (hfuel : 10 * s.left + 5 ≤ fuel + 1)
    (hfuel' : 10 * s.left + 5 ≤ fuel' + 1) : Runs r r' (Reader.binary (fuel + 1) level)
      (Reader.binary (fuel' + 1) level) s
      (Ends s s.left fun e t ts => Phrase.Spelt (.binary level e) ts ∧ Below level t) := by
  refine runs_position (.optional (ih.unary hs (by omega) (by omega)) (Nat.le_refl _) rfl rfl ?_)
  intro left s' hs' _ herr hlt hleft
  refine (ih.binaryTail level _ left hs' (by omega) (by omega)).behind herr (by omega) ?_
  intro e t herr' htail
  refine hleft.bind ⟨herr, herr'⟩ fun ts hts => htail.imp fun us hus => ?_
  exact ⟨hus.1 ts (.binary hts) fun op _ => .binary hts, hus.2⟩

theorem binaryTail_succ (level : Nat) (start : Position) (left : Expr) (hs : s.Whole)
    (hfuel : 10 * s.left + 1 ≤ fuel + 1) (hfuel' : 10 * s.left + 1 ≤ fuel' + 1) :
    Runs r r' (Reader.binaryTail (fuel + 1) level start left)
      (Reader.binaryTail (fuel' + 1) level start left) s (Ends s (s.left + 1) fun e t us =>
        (∀ ts, Phrase.Spelt (.binary level left) ts → (∀ op, binaryOperator? s.current.kind = some op →
          Phrase.Spelt (.binary op.precedence left) ts) → Phrase.Spelt (.binary level e) (ts ++ us)) ∧
        Below level t) := by
  refine runs_kind ?_
  split
  · rename_i hnone
    refine .some hs (by omega) (.here ⟨fun ts hts _ => by rwa [List.append_nil], ?_⟩)
    intro op hop
    rw [hnone] at hop
    cases hop
  · rename_i op hop
    obtain ⟨hend, hmark⟩ := reads_operator hs (by decide) hop
    split
    · rename_i hlow
      refine .some hs (by omega) (.here ⟨fun ts hts _ => by rwa [List.append_nil], ?_⟩)
      intro op' hop'
      rw [hop] at hop'
      exact Option.some.inj hop' ▸ hlow
    · rename_i hlevel
      refine .advance hs hend fun hstep hless hnow => ?_
      refine .optional (ih.binary _ hstep (by omega) (by omega)) (by omega) rfl rfl ?_
      intro right s' hs' hle herr _ hright
      refine runs_spanFrom ?_
      refine (ih.binaryTail _ _ _ hs' (by omega) (by omega)).behind (by omega) (by omega) ?_
      intro e t herr' htail
      refine hmark.bind (by omega) fun ms hms => hright.bind (by omega) fun us hus => ?_
      refine htail.imp fun vs hvs => ⟨fun ts _ hts => ?_, hvs.2⟩
      have hwhole : ∀ least ≤ op.precedence, Phrase.Spelt
          (.binary least (.binary ⟨start, s'.lastEnd⟩ op left right)) (ts ++ (ms ++ us)) :=
        fun least hleast => by simpa [hms] using .of_binaryOperator? hop hleast (hts op hop) hus.1
      have h := hvs.1 _ (hwhole level (by omega)) fun op' hop' =>
        hwhole _ (Nat.le_of_lt_succ (hus.2 op' hop'))
      simpa using h

theorem unary_succ (hs : s.Whole) (hfuel : 10 * s.left + 4 ≤ fuel + 1)
    (hfuel' : 10 * s.left + 4 ≤ fuel' + 1) : Runs r r' (Reader.unary (fuel + 1))
      (Reader.unary (fuel' + 1)) s (Ends s s.left fun e _ => Phrase.Spelt (.unary e)) := by
  refine runs_kind ?_
  split
  · refine (ih.postfixed hs (by omega) (by omega)).behind (Nat.le_refl _) (Nat.le_refl _) ?_
    exact fun e t _ hread => hread.imp fun ts hts => .unary hts
  · rename_i op hop
    obtain ⟨hend, hmark⟩ := reads_operator hs (by decide) hop
    refine runs_position (.advance hs hend fun hstep hleft hnow => ?_)
    refine .optional (ih.unary hstep (by omega) (by omega)) (by omega) rfl rfl ?_
    intro operand s' hs' hle herr _ hoperand
    refine runs_spanFrom (.some hs' (by omega) ?_)
    refine hmark.bind (by omega) fun ts hts => hoperand.imp fun us hus => ?_
    simpa [hts] using .prefixed (unaryOperator?_eq_some_iff.mp hop) hus

theorem postfixed_succ (hs : s.Whole) (hfuel : 10 * s.left + 3 ≤ fuel + 1)
    (hfuel' : 10 * s.left + 3 ≤ fuel' + 1) : Runs r r' (Reader.postfixed (fuel + 1))
      (Reader.postfixed (fuel' + 1)) s (Ends s s.left fun e _ => Phrase.Spelt (.postfixed e)) := by
  refine runs_position (.optional (ih.primary hs (by omega) (by omega)) (Nat.le_refl _) rfl rfl ?_)
  intro head s' hs' _ herr hlt hhead
  refine (ih.postfixedTail _ head hs' (by omega) (by omega)).behind herr (by omega) ?_
  intro e t herr' htail
  exact hhead.bind ⟨herr, herr'⟩ fun ts hts => htail.imp fun us hus => hus ts (.postfixed hts)

theorem postfixedTail_succ (start : Position) (head : Expr) (hs : s.Whole)
    (hfuel : 10 * s.left + 1 ≤ fuel + 1) (hfuel' : 10 * s.left + 1 ≤ fuel' + 1) :
    Runs r r' (Reader.postfixedTail (fuel + 1) start head)
      (Reader.postfixedTail (fuel' + 1) start head) s (Ends s (s.left + 1) fun e _ us =>
        ∀ ts, Phrase.Spelt (.postfixed head) ts → Phrase.Spelt (.postfixed e) (ts ++ us)) := by
  have htail : ∀ {s' : State} {head' : Expr}, s'.Whole → s'.left < s.left →
      s.errors.size ≤ s'.errors.size →
      s.Reads s' (fun us => ∀ ts, Phrase.Spelt (.postfixed head) ts →
        Phrase.Spelt (.postfixed head') (ts ++ us)) →
      Runs r r' (Reader.postfixedTail fuel start head') (Reader.postfixedTail fuel' start head') s'
        (Ends s (s.left + 1) fun e _ us => ∀ ts, Phrase.Spelt (.postfixed head) ts →
          Phrase.Spelt (.postfixed e) (ts ++ us)) := by
    intro s' head' hs' hlt herr hread
    refine (ih.postfixedTail _ _ hs' (by omega) (by omega)).behind herr (by omega) ?_
    intro e t herr' htail
    refine hread.bind ⟨herr, herr'⟩ fun us hus => htail.imp fun vs hvs ts hts => ?_
    rw [← List.append_assoc]
    exact hvs _ (hus ts hts)
  refine runs_kind ?_
  split
  · rename_i hkind
    have hopen := State.reads_mark hs hkind rfl nofun
    refine .advance hs (by simp [hkind]) fun hstep hleft hnow => ?_
    refine .optional (ih.arguments hstep (by omega) (by omega)) (by omega) rfl rfl ?_
    intro args s' hs' hle herr _ hargs
    refine .required (runs_expect (by decide) hs') (by omega) rfl rfl ?_
    intro s'' hs'' _ herr' _ hclose
    refine runs_spanFrom (htail hs'' (by omega) (by omega) ?_)
    refine hopen.bind (by omega) fun us hus => hargs.bind (by omega) fun vs hvs => ?_
    exact hclose.imp fun ws hws ts hts => by simpa [hus, hws] using .call hts hvs
  · rename_i hkind
    have hopen := State.reads_mark hs hkind rfl nofun
    refine .advance hs (by simp [hkind]) fun hstep hleft hnow => ?_
    refine .optional (ih.expression hstep (by omega) (by omega)) (by omega) rfl rfl ?_
    intro index s' hs' hle herr _ hindex
    refine .required (runs_expect (by decide) hs') (by omega) rfl rfl ?_
    intro s'' hs'' _ herr' _ hclose
    refine runs_spanFrom (htail hs'' (by omega) (by omega) ?_)
    refine hopen.bind (by omega) fun us hus => hindex.bind (by omega) fun vs hvs => ?_
    exact hclose.imp fun ws hws ts hts => by simpa [hus, hws] using .index hts hvs
  · rename_i hkind
    have hdot := State.reads_mark hs hkind rfl nofun
    refine .advance hs (by simp [hkind]) fun hstep hleft hnow => runs_at ?_
    split
    · rename_i hname
      rw [decide_eq_true_eq] at hname
      have hmember := State.reads_ident hstep hname
      refine runs_literal (.advance hstep (by simp [hname]) fun hstep' hleft' hnow' => ?_)
      refine runs_spanFrom (htail hstep' (by omega) (by omega) ?_)
      refine hdot.bind (by omega) fun us hus => hmember.imp fun vs hvs ts hts => ?_
      simpa [hus, hvs] using .member hts
    · refine (runs_reportExpected hstep).bind fun _ s' hs' _ _ hreported => .none hs' ?_
      have := hreported.2.2
      omega
  · rename_i hkind
    have has := State.reads_mark hs hkind rfl nofun
    refine .advance hs (by simp [hkind]) fun hstep hleft hnow => ?_
    refine .optional (runs_typeName hstep) (by omega) rfl rfl fun type s' hs' hle herr _ htype => ?_
    refine runs_spanFrom (htail hs' (by omega) (by omega) ?_)
    refine has.bind (by omega) fun us hus => htype.imp fun vs hvs ts hts => ?_
    simpa [hus, hvs] using .cast hts
  · exact .some hs (by omega) (.here fun ts hts => by rwa [List.append_nil])

theorem arguments_succ (hs : s.Whole) (hfuel : 10 * s.left + 7 ≤ fuel + 1)
    (hfuel' : 10 * s.left + 7 ≤ fuel' + 1) : Runs r r' (Reader.arguments (fuel + 1))
      (Reader.arguments (fuel' + 1)) s
      (Ends s (s.left + 1) fun es _ => Phrase.Spelt (.arguments es)) := by
  refine runs_at (runs_at ?_)
  split
  · exact .some hs (by omega) (.here .noArguments)
  · refine .optional (ih.expression hs (by omega) (by omega)) (Nat.le_refl _) rfl rfl ?_
    intro arg s' hs' _ herr hlt harg
    refine runs_at ?_
    split
    · rename_i hcomma
      rw [decide_eq_true_eq] at hcomma
      have hmark := State.reads_mark hs' hcomma rfl nofun
      refine .advance hs' (by simp [hcomma]) fun hstep hleft hnow => ?_
      refine .optional (ih.arguments hstep (by omega) (by omega)) (by omega) rfl rfl ?_
      intro args s'' hs'' hle herr' _ hargs
      refine .some hs'' (by omega) ?_
      refine harg.bind (by omega) fun ts hts => hmark.bind (by omega) fun us hus => ?_
      exact hargs.imp fun vs hvs => by simpa [hus] using .argument hts hvs
    · exact .some hs' (by omega) (harg.imp fun ts hts => .lastArgument hts)

theorem primary_succ (hs : s.Whole) (hfuel : 10 * s.left + 2 ≤ fuel + 1)
    (hfuel' : 10 * s.left + 2 ≤ fuel' + 1) : Runs r r' (Reader.primary (fuel + 1))
      (Reader.primary (fuel' + 1)) s (Ends s s.left fun e _ => Phrase.Spelt (.primary e)) := by
  refine runs_get ?_
  dsimp only
  split
  case h_8 hkind => exact ih.newArray hs hkind (by omega) (by omega)
  case h_9 hkind =>
    have hopen := State.reads_mark hs hkind rfl nofun
    refine .advance hs (by simp [hkind]) fun hstep hleft hnow => ?_
    refine .optional (ih.expression hstep (by omega) (by omega)) (by omega) rfl rfl ?_
    intro e s' hs' hle herr _ he
    refine .required (runs_expect (by decide) hs') (by omega) rfl rfl ?_
    intro s'' hs'' hle' _ _ hclose
    refine .some hs'' (by omega) ?_
    refine hopen.bind (by omega) fun ts hts => he.bind (by omega) fun us hus => ?_
    exact hclose.imp fun vs hvs => by simpa [hts, hvs] using .parentheses hus
  case h_10 =>
    exact (runs_report hs).bind fun _ s' hs' _ _ hreported => .none hs' hreported.2.2
  all_goals exact runs_literalExpr hs (by simp [*, Token.Kind.isWorded])

theorem newArray_succ (hs : s.Whole) (hkind : s.current.kind = .newWord)
    (hfuel : 10 * s.left + 1 ≤ fuel + 1) (hfuel' : 10 * s.left + 1 ≤ fuel' + 1) :
    Runs r r' (Reader.newArray (fuel + 1)) (Reader.newArray (fuel' + 1)) s
      (Ends s s.left fun e _ => Phrase.Spelt (.primary e)) := by
  have hnew := State.reads_mark hs hkind rfl nofun
  refine runs_position (.advance hs (by simp [hkind]) fun hstep hleft hnow => runs_get ?_)
  dsimp only
  split
  · rename_i hname
    have hident := State.reads_ident hstep hname
    refine .advance hstep (by simp [hname]) fun hstep' hleft' hnow' => ?_
    refine .required (runs_expect (by decide) hstep') (by omega) rfl rfl ?_
    intro s' hs' hle herr _ hopen
    refine .optional (ih.expression hs' (by omega) (by omega)) (by omega) rfl rfl ?_
    intro size s'' hs'' hle' herr' _ hsize
    refine .required (runs_expect (by decide) hs'') (by omega) rfl rfl ?_
    intro t ht hle'' herr'' _ hclose
    refine (runs_ranks ht).bind fun rank u hu hlast herrlast hranks => ?_
    refine runs_spanFrom (.some hu (by omega) ?_)
    refine hnew.bind (by omega) fun ts hts => hident.bind (by omega) fun us hus => ?_
    refine hopen.bind (by omega) fun vs hvs => hsize.bind (by omega) fun ws hws => ?_
    refine hclose.bind (by omega) fun xs hxs => hranks.imp fun ys hys => ?_
    simpa [hts, hus, hvs, hxs, hys] using
      Phrase.Spelt.newArray (t := ⟨s.step.current.span, s.step.current.literal, rank⟩) hws
  · refine (runs_reportExpected hstep).bind fun _ s' hs' _ _ hreported => .none hs' ?_
    have := hreported.2.2
    omega

end RunsExpr

theorem runsExpr (r r' : Recovery) (fuel : Nat) : RunsExpr r r' fuel := by
  induction fuel with
  | zero => exact runsExpr_zero
  | succ fuel ih =>
    have hpred : ∀ {n fuel' : Nat}, n + 1 ≤ fuel' → ∃ k, fuel' = k + 1 :=
      fun h => Nat.exists_eq_add_one_of_ne_zero (by omega)
    constructor
    · intro fuel' s hs hfuel hfuel'
      obtain ⟨k, rfl⟩ := hpred hfuel'
      exact ih.expression_succ hs hfuel hfuel'
    · intro fuel' s level hs hfuel hfuel'
      obtain ⟨k, rfl⟩ := hpred hfuel'
      exact ih.binary_succ level hs hfuel hfuel'
    · intro fuel' s level start left hs hfuel hfuel'
      obtain ⟨k, rfl⟩ := hpred hfuel'
      exact ih.binaryTail_succ level start left hs hfuel hfuel'
    · intro fuel' s hs hfuel hfuel'
      obtain ⟨k, rfl⟩ := hpred hfuel'
      exact ih.unary_succ hs hfuel hfuel'
    · intro fuel' s hs hfuel hfuel'
      obtain ⟨k, rfl⟩ := hpred hfuel'
      exact ih.postfixed_succ hs hfuel hfuel'
    · intro fuel' s start head hs hfuel hfuel'
      obtain ⟨k, rfl⟩ := hpred hfuel'
      exact ih.postfixedTail_succ start head hs hfuel hfuel'
    · intro fuel' s hs hfuel hfuel'
      obtain ⟨k, rfl⟩ := hpred hfuel'
      exact ih.arguments_succ hs hfuel hfuel'
    · intro fuel' s hs hfuel hfuel'
      obtain ⟨k, rfl⟩ := hpred hfuel'
      exact ih.primary_succ hs hfuel hfuel'
    · intro fuel' s hs hkind hfuel hfuel'
      obtain ⟨k, rfl⟩ := hpred hfuel'
      exact ih.newArray_succ hs hkind hfuel hfuel'

end Reader
end Parsed
end TypedScript
