import TypedScript.Proofs.Binding.References

/-!
# Lexical scoping

What names mean by the rules of nested scopes, without any state: a place in a program has around it
the declarations of each open scope, and a name means the declaration in the innermost scope that has
one. A declaration is visible from behind it to the end of its scope. Binding a statement follows
these rules, whatever mistakes there are, and leaves open the scopes that were open before it.
-/

namespace TypedScript

/-- The declarations around a place, scope by scope, the innermost first. -/
abbrev Nesting := List (List Symbol)

namespace Nesting

/-- The meaning of a name. -/
def meaning? (Γ : Nesting) (name : String) : Option Symbol :=
  Γ.findSome? fun scope => scope.find? fun s => s.name == name

/-- One more declaration in the innermost scope, unless the name is taken there. -/
def declare (sym : Symbol) : Nesting → Nesting
  | [] => []
  | scope :: outer =>
    if (scope.find? fun s => s.name == sym.name).isSome then scope :: outer
    else (sym :: scope) :: outer

/-- The declarations around what follows a statement. -/
def behind (Γ : Nesting) : Bound.Stmt → Nesting
  | .declare d => Γ.declare d.symbol
  | _ => Γ

/-- A bound expression refers to symbols where names were written that mean them. -/
def Binds (Γ : Nesting) (e : Parsed.Expr) (b : Bound.Expr) : Prop :=
  b.Refers fun span sym => ∃ name, (span, name) ∈ e.names ∧ Γ.meaning? name = some sym

/-- A bound expression that may be there was written, and refers to what its names mean. -/
def BindsOption (Γ : Nesting) (e? : Option Parsed.Expr) (b? : Option Bound.Expr) : Prop :=
  ∀ b, b? = some b → ∃ e, e? = some e ∧ Γ.Binds e b

/-- A local variable is declared. It is not visible in its own initial value. -/
structure BindsDeclaration (Γ : Nesting) (d : Parsed.Declaration) (b : Bound.Declaration) :
    Prop where
  span : b.span = d.span
  name : b.symbol.name = d.name
  kind : b.symbol.kind = .localVariable
  init : Γ.BindsOption d.init? b.init?

/-- The first part of the header of a counted loop, and the declarations around what follows it. -/
inductive BindsSetup (Γ : Nesting) : Option Parsed.Setup → Option Bound.Setup → Nesting → Prop
  | none : BindsSetup Γ none none Γ
  | declare {d : Parsed.Declaration} {b : Bound.Declaration} : Γ.BindsDeclaration d b →
    BindsSetup Γ (some (.declare d)) (some (.declare b)) (Γ.declare b.symbol)
  | eval {e : Parsed.Evaluation} {b : Bound.Evaluation} : Γ.Binds e.expr b.expr →
    BindsSetup Γ (some (.eval e)) (some (.eval b)) Γ

mutual

/-- A statement is bound by the rules of nested scopes. -/
inductive BindsStmt : Nesting → Parsed.Stmt → Bound.Stmt → Prop
  | block {Γ : Nesting} {span : Span} {body : List Parsed.Stmt} {body' : List Bound.Stmt} :
    BindsStmts ([] :: Γ) body body' → BindsStmt Γ (.block span body) (.block span body')
  | declare {Γ : Nesting} {d : Parsed.Declaration} {b : Bound.Declaration} :
    Γ.BindsDeclaration d b → BindsStmt Γ (.declare d) (.declare b)
  | eval {Γ : Nesting} {e : Parsed.Evaluation} {b : Bound.Evaluation} :
    Γ.Binds e.expr b.expr → BindsStmt Γ (.eval e) (.eval b)
  | missing {Γ : Nesting} {span : Span} : BindsStmt Γ .missing (.block span [])
  | ifThen {Γ : Nesting} {span : Span} {cond : Parsed.Expr} {cond' : Bound.Expr}
    {yes : Parsed.Stmt} {yes' : Bound.Stmt} : Γ.Binds cond cond' → BindsBody Γ yes yes' →
      BindsStmt Γ (.ifThen span cond yes) (.ifThen span cond' yes')
  | ifElse {Γ : Nesting} {span : Span} {cond : Parsed.Expr} {cond' : Bound.Expr}
    {yes no : Parsed.Stmt} {yes' no' : Bound.Stmt} : Γ.Binds cond cond' → BindsBody Γ yes yes' →
      BindsBody Γ no no' → BindsStmt Γ (.ifElse span cond yes no) (.ifElse span cond' yes' no')
  | whileLoop {Γ : Nesting} {span : Span} {cond : Parsed.Expr} {cond' : Bound.Expr}
    {body : Parsed.Stmt} {body' : Bound.Stmt} : Γ.Binds cond cond' → BindsBody Γ body body' →
      BindsStmt Γ (.whileLoop span cond body) (.whileLoop span cond' body')
  | forLoop {Γ Γ' : Nesting} {span : Span} {setup : Option Parsed.Setup}
    {setup' : Option Bound.Setup} {cond post : Option Parsed.Expr}
    {cond' post' : Option Bound.Expr} {body : Parsed.Stmt} {body' : Bound.Stmt} :
    BindsSetup ([] :: Γ) setup setup' Γ' → Γ'.BindsOption cond cond' → Γ'.BindsOption post post' →
      BindsBody Γ' body body' →
      BindsStmt Γ (.forLoop span setup cond post body) (.forLoop span setup' cond' post' body')
  | breakLoop {Γ : Nesting} {span : Span} : BindsStmt Γ (.breakLoop span) (.breakLoop span)
  | continueLoop {Γ : Nesting} {span : Span} :
    BindsStmt Γ (.continueLoop span) (.continueLoop span)
  | strayBreak {Γ : Nesting} {span : Span} : BindsStmt Γ (.breakLoop span) (.block span [])
  | strayContinue {Γ : Nesting} {span : Span} : BindsStmt Γ (.continueLoop span) (.block span [])
  | returnStmt {Γ : Nesting} {span : Span} {value : Option Parsed.Expr}
    {value' : Option Bound.Expr} : Γ.BindsOption value value' →
      BindsStmt Γ (.returnStmt span value) (.returnStmt span value')

/-- The body of a conditional or a loop is bound: a declaration there has a scope of its own. -/
inductive BindsBody : Nesting → Parsed.Stmt → Bound.Stmt → Prop
  | declare {Γ : Nesting} {d : Parsed.Declaration} {b : Bound.Declaration} :
    BindsDeclaration ([] :: Γ) d b → BindsBody Γ (.declare d) (.block d.span [.declare b])
  | other {Γ : Nesting} {st : Parsed.Stmt} {b : Bound.Stmt} : (∀ d, st ≠ .declare d) →
    BindsStmt Γ st b → BindsBody Γ st b

/-- Statements are bound in order, each where those before it are declared. -/
inductive BindsStmts : Nesting → List Parsed.Stmt → List Bound.Stmt → Prop
  | nil {Γ : Nesting} : BindsStmts Γ [] []
  | cons {Γ : Nesting} {st : Parsed.Stmt} {b : Bound.Stmt} {rest : List Parsed.Stmt}
    {rest' : List Bound.Stmt} : BindsStmt Γ st b → BindsStmts (Γ.behind b) rest rest' →
      BindsStmts Γ (st :: rest) (b :: rest')

end

end Nesting

namespace Bound

def Setup.declared : Setup → List Symbol
  | .declare d => [d.symbol]
  | .eval _ => []

mutual

def Stmt.declared : Stmt → List Symbol
  | .block _ body => declaredAll body
  | .declare d => [d.symbol]
  | .ifThen _ _ yes => yes.declared
  | .ifElse _ _ yes no => yes.declared ++ no.declared
  | .whileLoop _ _ body => body.declared
  | .forLoop _ setup _ _ body => (setup.map Setup.declared).getD [] ++ body.declared
  | .eval _ | .breakLoop _ | .continueLoop _ | .returnStmt _ _ => []

def declaredAll : List Stmt → List Symbol
  | [] => []
  | s :: rest => s.declared ++ declaredAll rest

end

end Bound

namespace Scope

/-- The declarations in the open scopes. -/
def nesting (s : Scope) : Nesting := s.inner.map Frame.symbols ++ [s.outermost.symbols]

def withSymbol (s : Scope) (sym : Symbol) : Scope := (s.declare? sym).getD s

/-- The open scopes behind a statement. -/
def behind (s : Scope) : Bound.Stmt → Scope
  | .declare d => s.withSymbol d.symbol
  | _ => s

theorem lookup?_eq_meaning? (s : Scope) (name : String) : s.lookup? name = s.nesting.meaning? name := by
  rw [lookup?, Option.orElse_eq_orElse, Option.orElse_eq_or, nesting, Nesting.meaning?,
    List.findSome?_append]
  simp only [List.findSome?_map, List.findSome?_singleton]
  rfl

@[simp] theorem nesting_push (s : Scope) (kind : ScopeKind) :
    (s.push kind).nesting = [] :: s.nesting := rfl

/-- A scope with a declaration more, unless its name is taken. -/
theorem declare?_getD (f : Frame) (sym : Symbol) : ((f.declare? sym).map Frame.symbols).getD f.symbols =
    if (f.symbols.find? fun s => s.name == sym.name).isSome then f.symbols
    else sym :: f.symbols := by
  unfold Frame.declare? Frame.find?
  split <;> rfl

theorem nesting_withSymbol (s : Scope) (sym : Symbol) :
    (s.withSymbol sym).nesting = s.nesting.declare sym := by
  obtain ⟨inner, outermost⟩ := s
  cases inner with
  | nil =>
    have hsymbols := declare?_getD outermost sym
    simp only [withSymbol, declare?, declareGlobal?, nesting, List.map_nil, List.nil_append,
      Nesting.declare]
    cases hd : outermost.declare? sym <;> rw [hd] at hsymbols <;> split <;> simp_all
  | cons f rest =>
    have hsymbols := declare?_getD f sym
    simp only [withSymbol, declare?, nesting, List.map_cons, List.cons_append, Nesting.declare]
    cases hd : f.declare? sym <;> rw [hd] at hsymbols <;> split <;> simp_all

theorem nesting_behind (s : Scope) (b : Bound.Stmt) : (s.behind b).nesting = s.nesting.behind b := by
  cases b with
  | declare d => exact nesting_withSymbol s d.symbol
  | _ => rfl

/-- A declaration inside some scope leaves the scopes around it as they are. -/
theorem withSymbol_inside {s : Scope} (h : s.inner ≠ []) (sym : Symbol) :
    (s.withSymbol sym).inner ≠ [] ∧ (s.withSymbol sym).outermost = s.outermost := by
  obtain ⟨inner, outermost⟩ := s
  cases inner with
  | nil => exact absurd rfl h
  | cons f rest =>
    simp only [withSymbol, declare?]
    cases f.declare? sym with
    | none => exact ⟨h, rfl⟩
    | some g => exact ⟨List.cons_ne_nil _ _, rfl⟩

theorem behind_inside {s : Scope} (h : s.inner ≠ []) (b : Bound.Stmt) :
    (s.behind b).inner ≠ [] ∧ (s.behind b).outermost = s.outermost := by
  cases b with
  | declare d => exact withSymbol_inside h d.symbol
  | _ => exact ⟨h, rfl⟩

theorem foldl_behind_inside {s : Scope} (h : s.inner ≠ []) (body : List Bound.Stmt) :
    (body.foldl behind s).outermost = s.outermost := by
  induction body generalizing s with
  | nil => rfl
  | cons b rest ih =>
    obtain ⟨hinner, houter⟩ := behind_inside h b
    exact (ih hinner).trans houter

end Scope

namespace Binder

open TypedScript.Binding TypedScript.Bound

structure Numbers (lo hi : Nat) (syms : List Symbol) : Prop where
  le : lo ≤ hi
  range : ∀ sym ∈ syms, ∃ n, sym.id = .declared n ∧ lo ≤ n ∧ n < hi
  nodup : (syms.map Symbol.id).Nodup

theorem Numbers.nil (n : Nat) : Numbers n n [] := ⟨Nat.le_refl n, by simp, by simp⟩

theorem Numbers.append {lo mid hi : Nat} {a b : List Symbol} (ha : Numbers lo mid a)
    (hb : Numbers mid hi b) : Numbers lo hi (a ++ b) := by
  refine ⟨Nat.le_trans ha.le hb.le, fun sym hsym => ?_, ?_⟩
  · obtain hsym | hsym := List.mem_append.mp hsym
    · obtain ⟨n, hid, hlo, hhi⟩ := ha.range sym hsym
      exact ⟨n, hid, hlo, Nat.lt_of_lt_of_le hhi hb.le⟩
    · obtain ⟨n, hid, hlo, hhi⟩ := hb.range sym hsym
      exact ⟨n, hid, Nat.le_trans ha.le hlo, hhi⟩
  · rw [List.map_append, List.nodup_append]
    refine ⟨ha.nodup, hb.nodup, fun x hx y hy => ?_⟩
    obtain ⟨sym, hsym, rfl⟩ := List.mem_map.mp hx
    obtain ⟨sym', hsym', rfl⟩ := List.mem_map.mp hy
    obtain ⟨n, hid, -, hhi⟩ := ha.range sym hsym
    obtain ⟨n', hid', hlo', -⟩ := hb.range sym' hsym'
    rw [hid, hid', ne_eq, SymbolId.declared.injEq]
    omega

theorem Numbers.sublist {lo hi : Nat} {a b : List Symbol} (h : Numbers lo hi b) (hab : a.Sublist b) :
    Numbers lo hi a :=
  ⟨h.le, fun sym hsym => h.range sym (hab.subset hsym), (hab.map Symbol.id).nodup h.nodup⟩

/-- From one state to another, symbols were declared; the report has only become longer, and as many
loops are open. -/
structure Proceeds (s s' : State) (syms : List Symbol) : Prop where
  numbers : Numbers s.nextSymbol s'.nextSymbol syms
  loops : s'.context.loops = s.context.loops
  report : s.report.items.toList <+: s'.report.items.toList

theorem Proceeds.trans {s t u : State} {a b : List Symbol} (h : Proceeds s t a)
    (k : Proceeds t u b) : Proceeds s u (a ++ b) :=
  ⟨h.numbers.append k.numbers, k.loops.trans h.loops, h.report.trans k.report⟩

/-- Nothing was declared either. -/
structure Undisturbed (s s' : State) : Prop where
  scope : s'.scope = s.scope
  next : s'.nextSymbol = s.nextSymbol
  loops : s'.context.loops = s.context.loops
  report : s.report.items.toList <+: s'.report.items.toList

theorem Undisturbed.refl (s : State) : Undisturbed s s := ⟨rfl, rfl, rfl, List.prefix_refl _⟩

theorem Undisturbed.proceeds {s s' : State} (h : Undisturbed s s') : Proceeds s s' [] :=
  ⟨by rw [h.next]; exact .nil _, h.loops, h.report⟩

instance stable_undisturbed (s : State) : Stable (Undisturbed s) where
  report d h := ⟨h.scope, h.next, h.loops, h.report.trans (by simp [Report.add])⟩
  registry _ h := ⟨h.scope, h.next, h.loops, h.report⟩
  reads _ h := ⟨h.scope, h.next, h.loops, h.report⟩

section

variable {s : State}

/-- Names mean what they mean in the scopes that are open. -/
theorem denotes_scope (s : State) (names : List (Span × String)) :
    Denotes (Undisturbed s) (fun span sym => ∃ name, (span, name) ∈ names ∧
      s.scope.nesting.meaning? name = some sym) names := by
  intro p hp t sym ht hlookup
  rw [ht.scope, Scope.lookup?_eq_meaning?] at hlookup
  exact ⟨p.2, hp, hlookup⟩

theorem binds_expr (e : Parsed.Expr) :
    Preserves (Undisturbed s) (bindExpr e) (s.scope.nesting.Binds e) :=
  Preserves.bindExpr e (denotes_scope s e.names)

theorem binds_condition (e : Parsed.Expr) :
    Preserves (Undisturbed s) (bindCondition e) (s.scope.nesting.Binds e) :=
  Preserves.bindCondition (denotes_scope s e.names)

theorem preserves_option {α β : Type} {I : State → Prop} {f : α → Binder β} {Q : α → β → Prop}
    (hf : ∀ a, Preserves I (f a) (Q a)) (o : Option α) :
    Preserves I (o.mapM f) fun r => ∀ b, r = some b → ∃ a, o = some a ∧ Q a b := by
  cases o with
  | none => exact Preserves.pure (by simp)
  | some a =>
    refine Preserves.bind (hf a) fun b hb => Preserves.pure ?_
    rintro _ ⟨⟩
    exact ⟨a, rfl, hb⟩

theorem binds_declaration (d : Parsed.Declaration) :
    Preserves (Undisturbed s) (bindDeclaration d) fun r =>
      s.scope.nesting.BindsOption d.init? r.2 := by
  unfold bindDeclaration
  refine Preserves.bind (preserves_option (fun t => Preserves.valueType t) d.type?) fun type? _ => ?_
  split
  · exact Preserves.pure (by simp [Nesting.BindsOption])
  · next e he =>
    have hvalue : Preserves (Undisturbed s) (bindValue e) (s.scope.nesting.Binds e) :=
      Preserves.bindValue (denotes_scope s e.names)
    refine Preserves.bind hvalue fun v hv => ?_
    split
    · refine Preserves.pure ?_
      rintro _ ⟨⟩
      exact ⟨e, he, hv⟩
    · refine Preserves.bind (Preserves.convertImplicit hv _ _) fun w hw => Preserves.pure ?_
      rintro _ ⟨⟩
      exact ⟨e, he, hw⟩

theorem binds_evaluation (e : Parsed.Evaluation) :
    Preserves (Undisturbed s) (bindEvaluation e) fun b => s.scope.nesting.Binds e.expr b.expr := by
  unfold bindEvaluation
  refine Preserves.bind (binds_expr e.expr) fun v hv => ?_
  split
  · exact Preserves.bind (Preserves.requireValue hv) fun w hw => Preserves.pure hw
  · exact Preserves.bind (Preserves.requireValue hv) fun w hw => Preserves.pure hw
  · exact Preserves.pure hv

theorem binds_return (span : Span) (value? : Option Parsed.Expr) :
    Preserves (Undisturbed s) (bindReturn span value?) fun b =>
      s.scope.nesting.BindsStmt (.returnStmt span value?) b ∧ b.declared = [] := by
  have hnone : s.scope.nesting.BindsStmt (.returnStmt span value?) (.returnStmt span none) :=
    .returnStmt (by simp [Nesting.BindsOption])
  unfold bindReturn
  refine Preserves.get_bind fun t _ => ?_
  dsimp only
  split
  · split
    · exact Preserves.bind (Preserves.fullName _) fun _ _ =>
        Preserves.bind (Preserves.complain _ _) fun _ _ => Preserves.pure ⟨hnone, rfl⟩
    · exact Preserves.pure ⟨hnone, rfl⟩
  · next e =>
    refine Preserves.bind (binds_expr e) fun v hv => ?_
    split
    · split
      · exact Preserves.bind (Preserves.complain _ _) fun _ _ => Preserves.pure ⟨hnone, rfl⟩
      · exact Preserves.pure ⟨hnone, rfl⟩
    · refine Preserves.bind (Preserves.requireValue hv) fun v hv => ?_
      refine Preserves.bind (Preserves.convertImplicit hv _ _) fun w hw => Preserves.pure ?_
      refine ⟨.returnStmt ?_, rfl⟩
      rintro _ ⟨⟩
      exact ⟨e, rfl, hw⟩

theorem binds_jump (word : String) (span : Span) {st : Parsed.Stmt} {b : Stmt}
    (hb : s.scope.nesting.BindsStmt st b) (hnone : b.declared = [])
    (hstray : s.scope.nesting.BindsStmt st (.block span [])) :
    Preserves (Undisturbed s) (bindJump word span b) fun b =>
      s.scope.nesting.BindsStmt st b ∧ b.declared = [] := by
  unfold bindJump
  refine Preserves.get_bind fun t _ => ?_
  split
  · exact Preserves.bind (Preserves.complain _ _) fun _ _ => Preserves.pure ⟨hstray, rfl⟩
  · exact Preserves.pure ⟨hb, hnone⟩

end

/-- A statement that was bound: it follows the rules of nested scopes, the scopes that are open behind
it are those before it with its declaration, and so on. -/
structure BoundStmt (st : Parsed.Stmt) (s : State) (b : Stmt) (s' : State) : Prop where
  binds : s.scope.nesting.BindsStmt st b
  scope : s'.scope = s.scope.behind b
  proceeds : Proceeds s s' b.declared

/-- The body of a conditional or a loop that was bound. Nothing declared in it is visible behind it. -/
structure BoundBody (st : Parsed.Stmt) (s : State) (b : Stmt) (s' : State) : Prop where
  binds : s.scope.nesting.BindsBody st b
  scope : s'.scope = s.scope
  proceeds : Proceeds s s' b.declared

/-- Statements that were bound one after the other. -/
structure BoundStmts (sts : List Parsed.Stmt) (s : State) (bs : List Stmt) (s' : State) : Prop where
  binds : s.scope.nesting.BindsStmts sts bs
  scope : s'.scope = bs.foldl Scope.behind s.scope
  proceeds : Proceeds s s' (declaredAll bs)

theorem run_inScope {α : Type} {kind : ScopeKind} {m : Binder α} {s s' : State} {a : α}
    (h : inScope kind m s = .ok (a, s')) :
    ∃ t, m { s with scope := s.scope.push kind } = .ok (a, t) ∧
      s' = { t with scope := { t.scope with inner := s.scope.inner } } := by
  obtain ⟨s₁, s₂, hget, h⟩ := bind_eq_ok h
  cases hget
  obtain ⟨_, s₃, hpush, h⟩ := bind_eq_ok h
  cases hpush
  obtain ⟨a', t, hm, h⟩ := bind_eq_ok h
  obtain ⟨_, s₄, hpop, h⟩ := bind_eq_ok h
  cases hpop
  cases h
  exact ⟨t, hm, rfl⟩

theorem run_inLoop {α : Type} {m : Binder α} {s s' : State} {a : α} (h : inLoop m s = .ok (a, s')) :
    ∃ t, m { s with context := { s.context with loops := s.context.loops + 1 } } = .ok (a, t) ∧
      s' = { t with context := { t.context with loops := t.context.loops - 1 } } := by
  obtain ⟨_, s₁, henter, h⟩ := bind_eq_ok h
  cases henter
  obtain ⟨a', t, hm, h⟩ := bind_eq_ok h
  obtain ⟨_, s₂, hleave, h⟩ := bind_eq_ok h
  cases hleave
  cases h
  exact ⟨t, hm, rfl⟩

theorem boundBody_inLoop {st : Parsed.Stmt} {m : Binder Stmt} {s s' : State} {b : Stmt}
    (hm : ∀ {t b t'}, m t = .ok (b, t') → BoundBody st t b t') (h : inLoop m s = .ok (b, s')) :
    BoundBody st s b s' := by
  obtain ⟨t, hrun, rfl⟩ := run_inLoop h
  obtain ⟨hbinds, hscope, hnumbers, hloops, hreport⟩ := hm hrun
  refine ⟨hbinds, hscope, hnumbers, ?_, hreport⟩
  simp [hloops]

theorem run_bindLocal {d : Parsed.Declaration} {s s' : State} {b : Declaration}
    (h : bindLocal d s = .ok (b, s')) :
    s.scope.nesting.BindsDeclaration d b ∧ s'.scope = s.scope.withSymbol b.symbol ∧
      Proceeds s s' [b.symbol] := by
  obtain ⟨⟨type, value⟩, s₁, hd, h⟩ := bind_eq_ok h
  obtain ⟨hs₁, hinit⟩ := binds_declaration d s _ s₁ (.refl s) hd
  obtain ⟨sym, s₂, hsym, h⟩ := bind_eq_ok h
  cases hsym
  obtain ⟨declared, s₃, hdeclare, h⟩ := bind_eq_ok h
  rw [run_declare] at hdeclare
  have hnumbers : Numbers s.nextSymbol (s₁.nextSymbol + 1)
      [⟨.declared s₁.nextSymbol, d.name, .localVariable, type, d.isConst⟩] :=
    ⟨by rw [hs₁.next]; omega, by simp [hs₁.next], by simp⟩
  cases hscope : s₁.scope.declare?
      ⟨.declared s₁.nextSymbol, d.name, .localVariable, type, d.isConst⟩ with
  | none =>
    simp only [hscope, Option.elim] at hdeclare
    cases hdeclare
    obtain ⟨_, s₄, hcomplain, h⟩ := bind_eq_ok h
    cases hcomplain
    cases h
    refine ⟨⟨rfl, rfl, rfl, hinit⟩, ?_, hnumbers, hs₁.loops, hs₁.report.trans (by simp [Report.add])⟩
    rw [← hs₁.scope]
    simp [Scope.withSymbol, hscope]
  | some scope =>
    simp only [hscope, Option.elim] at hdeclare
    cases hdeclare
    obtain ⟨_, s₄, hnote, h⟩ := bind_eq_ok h
    cases hnote
    cases h
    refine ⟨⟨rfl, rfl, rfl, hinit⟩, ?_, hnumbers, hs₁.loops, hs₁.report⟩
    rw [← hs₁.scope]
    simp [Scope.withSymbol, hscope]

/-- Only a declaration is visible behind itself. -/
theorem behind_eq_self {Γ : Nesting} {st : Parsed.Stmt} {b : Stmt} (h : Γ.BindsStmt st b)
    (hst : ∀ d, st ≠ .declare d) (scope : Scope) : scope.behind b = scope := by
  cases h with
  | declare _ => exact absurd rfl (hst _)
  | _ => rfl

/-- The body of a conditional or a loop, from what is known of the statement. -/
theorem boundBody_nested {st : Parsed.Stmt}
    (hst : ∀ {s b s'}, bindStmt st s = .ok (b, s') → BoundStmt st s b s') {s s' : State} {b : Stmt}
    (h : nested st (bindStmt st) s = .ok (b, s')) : BoundBody st s b s' := by
  by_cases hdeclare : ∃ d, st = .declare d
  · obtain ⟨d, rfl⟩ := hdeclare
    obtain ⟨local', s₁, hscope, h⟩ := bind_eq_ok h
    cases h
    obtain ⟨t, hrun, rfl⟩ := run_inScope hscope
    obtain ⟨hbinds, hsymbol, hproceeds⟩ := run_bindLocal hrun
    have houter := (Scope.withSymbol_inside (s := s.scope.push .block) (by simp [Scope.push])
      local'.symbol).2
    refine ⟨.declare hbinds, ?_, ?_⟩
    · simp only [hsymbol, houter]
      rfl
    · exact ⟨by simpa [Stmt.declared, declaredAll] using hproceeds.numbers, hproceeds.loops,
        hproceeds.report⟩
  · have hother : ∀ d, st ≠ .declare d := fun d hd => hdeclare ⟨d, hd⟩
    have hnested : nested st (bindStmt st) = bindStmt st := by
      cases st with
      | declare d => exact absurd rfl (hother d)
      | _ => rfl
    rw [hnested] at h
    obtain ⟨hbinds, hscope, hproceeds⟩ := hst h
    exact ⟨.other hother hbinds, hscope.trans (behind_eq_self hbinds hother _), hproceeds⟩

/-- A statement that declares nothing, from what is known of the step that binds it. -/
theorem boundStmt_of_preserves {m : Binder Stmt} {st : Parsed.Stmt} {s s' : State} {b : Stmt}
    (hm : Preserves (Undisturbed s) m fun b => s.scope.nesting.BindsStmt st b ∧ b.declared = [])
    (hst : ∀ d, st ≠ .declare d) (hrun : m s = .ok (b, s')) : BoundStmt st s b s' := by
  obtain ⟨hs', hbinds, hnone⟩ := hm s b s' (.refl s) hrun
  refine ⟨hbinds, ?_, ?_⟩
  · rw [behind_eq_self hbinds hst, hs'.scope]
  · rw [hnone]
    exact hs'.proceeds

/-- The first part of the header of a counted loop. -/
theorem run_setup {setup : Option Parsed.Setup} {s s' : State} {b? : Option Setup}
    (hin : s.scope.inner ≠ []) (h : setup.mapM bindSetup s = .ok (b?, s')) :
    s.scope.nesting.BindsSetup setup b? s'.scope.nesting ∧
      (s'.scope.inner ≠ [] ∧ s'.scope.outermost = s.scope.outermost) ∧
      Proceeds s s' ((b?.map Setup.declared).getD []) := by
  cases setup with
  | none =>
    cases h
    exact ⟨.none, ⟨hin, rfl⟩, (Undisturbed.refl s).proceeds⟩
  | some p =>
    change (bindSetup p >>= fun b => pure (some b)) s = _ at h
    obtain ⟨b, s₁, hb, h⟩ := bind_eq_ok h
    cases h
    cases p with
    | declare d =>
      obtain ⟨local', s₂, hlocal, h⟩ := bind_eq_ok hb
      cases h
      obtain ⟨hbinds, hscope, hproceeds⟩ := run_bindLocal hlocal
      rw [hscope, Scope.nesting_withSymbol]
      exact ⟨.declare hbinds, Scope.withSymbol_inside hin _, hproceeds⟩
    | eval e =>
      obtain ⟨e', s₂, heval, h⟩ := bind_eq_ok hb
      cases h
      obtain ⟨hs', hbinds⟩ := binds_evaluation e s e' s' (.refl s) heval
      rw [hs'.scope]
      exact ⟨.eval hbinds, ⟨hin, rfl⟩, hs'.proceeds⟩

mutual

/-- Binding a statement follows the rules of nested scopes. -/
theorem bindStmt_bound : (st : Parsed.Stmt) → ∀ {s b s'}, bindStmt st s = .ok (b, s') →
    BoundStmt st s b s'
  | .block span body, s, _, _, h => by
    rw [bindStmt] at h
    obtain ⟨body', s₁, hscope, h⟩ := bind_eq_ok h
    cases h
    obtain ⟨t, hrun, rfl⟩ := run_inScope hscope
    obtain ⟨hbinds, hbehind, hproceeds⟩ := bindStmts_bound body hrun
    have houter := Scope.foldl_behind_inside (s := s.scope.push .block) (by simp [Scope.push]) body'
    refine ⟨.block hbinds, ?_, hproceeds.numbers, hproceeds.loops, hproceeds.report⟩
    simp only [hbehind, houter]
    rfl
  | .declare d, s, _, _, h => by
    rw [bindStmt] at h
    obtain ⟨b, s₁, hlocal, h⟩ := bind_eq_ok h
    cases h
    obtain ⟨hbinds, hscope, hproceeds⟩ := run_bindLocal hlocal
    exact ⟨.declare hbinds, hscope, hproceeds⟩
  | .eval e, s, _, _, h => by
    rw [bindStmt] at h
    refine boundStmt_of_preserves ?_ (by simp) h
    exact Preserves.bind (binds_evaluation e) fun b hb => Preserves.pure ⟨.eval hb, rfl⟩
  | .missing, s, _, _, h => by
    rw [bindStmt] at h
    exact boundStmt_of_preserves (Preserves.pure ⟨.missing, rfl⟩) (by simp) h
  | .ifThen span cond yes, s, _, _, h => by
    rw [bindStmt] at h
    obtain ⟨cond', s₁, hcond, h⟩ := bind_eq_ok h
    obtain ⟨hs₁, hcond⟩ := binds_condition cond s _ _ (.refl s) hcond
    obtain ⟨yes', s₂, hyes, h⟩ := bind_eq_ok h
    cases h
    obtain ⟨hyes, hscope, hproceeds⟩ := boundBody_nested (bindStmt_bound yes) hyes
    rw [hs₁.scope] at hyes hscope
    exact ⟨.ifThen hcond hyes, hscope, hs₁.proceeds.trans hproceeds⟩
  | .ifElse span cond yes no, s, _, _, h => by
    rw [bindStmt] at h
    obtain ⟨cond', s₁, hcond, h⟩ := bind_eq_ok h
    obtain ⟨hs₁, hcond⟩ := binds_condition cond s _ _ (.refl s) hcond
    obtain ⟨yes', s₂, hyes, h⟩ := bind_eq_ok h
    obtain ⟨hyes, hscope₂, hproceeds₂⟩ := boundBody_nested (bindStmt_bound yes) hyes
    obtain ⟨no', s₃, hno, h⟩ := bind_eq_ok h
    cases h
    obtain ⟨hno, hscope₃, hproceeds₃⟩ := boundBody_nested (bindStmt_bound no) hno
    rw [hscope₂, hs₁.scope] at hno hscope₃
    rw [hs₁.scope] at hyes
    exact ⟨.ifElse hcond hyes hno, hscope₃, hs₁.proceeds.trans (hproceeds₂.trans hproceeds₃)⟩
  | .whileLoop span cond body, s, _, _, h => by
    rw [bindStmt] at h
    obtain ⟨cond', s₁, hcond, h⟩ := bind_eq_ok h
    obtain ⟨hs₁, hcond⟩ := binds_condition cond s _ _ (.refl s) hcond
    obtain ⟨body', s₂, hbody, h⟩ := bind_eq_ok h
    cases h
    obtain ⟨hbody, hscope, hproceeds⟩ :=
      boundBody_inLoop (boundBody_nested (bindStmt_bound body)) hbody
    rw [hs₁.scope] at hbody hscope
    exact ⟨.whileLoop hcond hbody, hscope, hs₁.proceeds.trans hproceeds⟩
  | .forLoop span setup cond post body, s, _, _, h => by
    rw [bindStmt] at h
    obtain ⟨t, hrun, rfl⟩ := run_inScope h
    obtain ⟨setup', s₁, hsetup, h⟩ := bind_eq_ok hrun
    obtain ⟨hsetup, hinside, hproceeds₁⟩ := run_setup (by simp [Scope.push]) hsetup
    obtain ⟨cond', s₂, hcond, h⟩ := bind_eq_ok h
    obtain ⟨hs₂, hcond⟩ := preserves_option binds_condition cond s₁ _ _ (.refl s₁) hcond
    obtain ⟨post', s₃, hpost, h⟩ := bind_eq_ok h
    obtain ⟨hs₃, hpost⟩ := preserves_option binds_expr post s₂ _ _ (.refl s₂) hpost
    obtain ⟨body', s₄, hbody, h⟩ := bind_eq_ok h
    cases h
    obtain ⟨hbody, hscope, hproceeds₄⟩ :=
      boundBody_inLoop (boundBody_nested (bindStmt_bound body)) hbody
    rw [hs₂.scope] at hpost
    rw [hs₃.scope, hs₂.scope] at hbody hscope
    have hproceeds := hproceeds₁.trans (hs₂.proceeds.trans (hs₃.proceeds.trans hproceeds₄))
    refine ⟨.forLoop hsetup hcond hpost hbody, ?_, hproceeds.numbers, hproceeds.loops,
      hproceeds.report⟩
    simp only [hscope, hinside.2]
    rfl
  | .breakLoop span, s, _, _, h => by
    rw [bindStmt] at h
    exact boundStmt_of_preserves (binds_jump _ _ .breakLoop rfl .strayBreak) (by simp) h
  | .continueLoop span, s, _, _, h => by
    rw [bindStmt] at h
    exact boundStmt_of_preserves (binds_jump _ _ .continueLoop rfl .strayContinue) (by simp) h
  | .returnStmt span value, s, _, _, h => by
    rw [bindStmt] at h
    exact boundStmt_of_preserves (binds_return span value) (by simp) h

theorem bindStmts_bound : (sts : List Parsed.Stmt) → ∀ {s bs s'}, bindStmts sts s = .ok (bs, s') →
    BoundStmts sts s bs s'
  | [], s, _, _, h => by
    rw [bindStmts] at h
    cases h
    exact ⟨.nil, rfl, (Undisturbed.refl s).proceeds⟩
  | st :: rest, s, _, _, h => by
    rw [bindStmts] at h
    obtain ⟨b, s₁, hst, h⟩ := bind_eq_ok h
    obtain ⟨bs, s₂, hrest, h⟩ := bind_eq_ok h
    cases h
    obtain ⟨hbinds, hscope, hproceeds⟩ := bindStmt_bound st hst
    obtain ⟨hbinds', hscope', hproceeds'⟩ := bindStmts_bound rest hrest
    rw [hscope, Scope.nesting_behind] at hbinds'
    refine ⟨.cons hbinds hbinds', ?_, hproceeds.trans hproceeds'⟩
    rw [hscope', hscope]
    rfl

end

end Binder
end TypedScript
