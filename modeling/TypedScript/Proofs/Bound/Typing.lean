import TypedScript.Binding.Operators
import TypedScript.Proofs.Types.Prelude
import TypedScript.Proofs.Types.Resolution

/-!
# Well-typed bound programs

When a bound program makes sense: every expression has the type that its place asks for, operators
and calls name callables of the registry, and jumps stand in loops. The judgement says nothing of how
the tree was made. A lenient one also takes what could not be understood, so that programs with
mistakes are covered by the same rules.
-/

namespace TypedScript

def Literal.Fits : Literal → TypeId → Prop
  | .int v, t => t.isSigned ∧ fitsSigned v t.bits
  | .uint v, t => t.isUnsigned ∧ fitsUnsigned v.toNat t.bits
  | .float _, t => t.isFloat
  | .bool _, t => t = .builtin .bool
  | .char _, t => t = .builtin .char
  | .string _, t => t = .builtin .string

theorem TypeId.exists_builtin_of_satisfies {p : Builtin → Bool} {t : TypeId} (h : t.satisfies p) :
    ∃ b, t = .builtin b ∧ p b := by
  cases t with
  | builtin b => exact ⟨b, rfl, h⟩
  | _ => simp [TypeId.satisfies] at h

theorem Literal.Fits.exists_builtin {v : Literal} {t : TypeId} (h : v.Fits t) :
    ∃ b, t = .builtin b ∧ b.isScalar := by
  cases v with
  | int v =>
    obtain ⟨b, rfl, hb⟩ := TypeId.exists_builtin_of_satisfies h.1
    exact ⟨b, rfl, by revert hb; cases b <;> decide⟩
  | uint v =>
    obtain ⟨b, rfl, hb⟩ := TypeId.exists_builtin_of_satisfies h.1
    exact ⟨b, rfl, by revert hb; cases b <;> decide⟩
  | float v =>
    obtain ⟨b, rfl, hb⟩ := TypeId.exists_builtin_of_satisfies h
    exact ⟨b, rfl, by revert hb; cases b <;> decide⟩
  | bool v => exact ⟨_, h, rfl⟩
  | char v => exact ⟨_, h, rfl⟩
  | string v => exact ⟨_, h, rfl⟩

/-- The conversions that code is made for; the others are calls of the library. -/
def Conversion.isPlain : Conversion → Bool
  | .identity | .widen | .box | .numeric | .unbox => true
  | _ => false

theorem Conversion.isPlain_of_isImplicit {k : Conversion} (h : k.isImplicit) : k.isPlain := by
  cases k <;> simp_all [Conversion.isImplicit, Conversion.isPlain]

namespace Registry

def Computes (r : Registry) (callable : TypeId) (op : Operator) (s : Signature) : Prop :=
  (∃ g, r.callable callable = .ok ⟨g, s.result, s.params, some op⟩) ∧ s ∈ Intrinsics.signatures op

def Invokes (r : Registry) (callable : TypeId) (s : Signature) : Prop :=
  ∃ g, r.callable callable = .ok ⟨g, s.result, s.params, none⟩

/-- A callable that may stand in a compound assignment: an operator that evaluates both operands, or a
routine over built-in types. -/
def Combines (r : Registry) (callable : TypeId) (s : Signature) : Prop :=
  (∃ op : BinaryOperator, op.isShortCircuit = false ∧ r.Computes callable (.binary op) s) ∨
    r.Invokes callable s ∧ s.IsBuiltin

theorem Computes.mono {r r' : Registry} (h : r ≤ r') {callable : TypeId} {op : Operator}
    {s : Signature} (hc : r.Computes callable op s) : r'.Computes callable op s := by
  obtain ⟨⟨g, hg⟩, hs⟩ := hc
  exact ⟨⟨g, callable_mono h hg⟩, hs⟩

theorem Invokes.mono {r r' : Registry} (h : r ≤ r') {callable : TypeId} {s : Signature}
    (hc : r.Invokes callable s) : r'.Invokes callable s := by
  obtain ⟨g, hg⟩ := hc
  exact ⟨g, callable_mono h hg⟩

theorem Combines.mono {r r' : Registry} (h : r ≤ r') {callable : TypeId} {s : Signature}
    (hc : r.Combines callable s) : r'.Combines callable s := by
  obtain ⟨op, hop, hc⟩ | ⟨hc, hb⟩ := hc
  · exact .inl ⟨op, hop, hc.mono h⟩
  · exact .inr ⟨hc.mono h, hb⟩

theorem Combines.isBuiltin {r : Registry} {c : TypeId} {s : Signature} (h : r.Combines c s) :
    s.IsBuiltin := by
  obtain ⟨op, -, hc⟩ | ⟨-, hb⟩ := h
  · exact Intrinsics.isBuiltin_of_mem_signatures hc.2
  · exact hb

theorem Combines.callable {r : Registry} {c : TypeId} {s : Signature} (h : r.Combines c s) :
    ∃ info, r.callable c = .ok info ∧ info.result = s.result ∧ info.params = s.params := by
  obtain ⟨op, -, ⟨g, hg⟩, -⟩ | ⟨⟨g, hg⟩, -⟩ := h
  · exact ⟨_, hg, rfl, rfl⟩
  · exact ⟨_, hg, rfl, rfl⟩

theorem Adapts.mono {r r' : Registry} (h : r ≤ r') {s t : TypeId} (hs : r.IsType s) (ht : r.IsType t)
    (ha : r.Adapts s t) : r'.Adapts s t := by
  obtain rfl | ⟨k, hk, hi⟩ := ha
  · exact .inl rfl
  · exact .inr ⟨k, classify_mono h hs ht hk, hi⟩

end Registry

/-- What expressions may refer to. In a lenient context mistakes are passed over. -/
structure Typing where
  registry : Registry
  globals : List Symbol
  params : List Symbol
  lenient : Prop

namespace Typing

/-- A variable can be read where the symbol is known: a parameter at its position, a global variable of
the program, a field of the library. -/
def Visible (c : Typing) (s : Symbol) : Prop :=
  match s.kind with
  | .localVariable => True
  | .parameter i => c.params[i]? = some s
  | .globalVariable => s ∈ c.globals
  | .libraryField path => ⟨path, s.type, s.readonly⟩ ∈ Library.allFields
  | .overloads => False

/-- A symbol that stands for a value. -/
structure Declares (c : Typing) (s : Symbol) : Prop where
  visible : c.Visible s
  isType : c.registry.IsType s.type
  ne_void : s.type ≠ .builtin .void
  error : s.type = .error → c.lenient

/-- One context knows all that another does. -/
structure Extends (c d : Typing) : Prop where
  registry : c.registry ≤ d.registry
  globals : ∀ s ∈ c.globals, s.kind = .globalVariable → s ∈ d.globals
  params : c.params = d.params
  lenient : c.lenient → d.lenient

theorem Visible.mono {c d : Typing} (h : c.Extends d) {s : Symbol} (hs : c.Visible s) :
    d.Visible s := by
  unfold Visible at hs ⊢
  split <;> simp_all only
  · rw [← h.params]
    exact hs
  · exact h.globals s hs ‹_›

theorem Declares.mono {c d : Typing} (h : c.Extends d) {s : Symbol} (hs : c.Declares s) :
    d.Declares s :=
  ⟨hs.visible.mono h, hs.isType.mono h.registry, hs.ne_void, fun he => h.lenient (hs.error he)⟩

end Typing

def Symbol.IsDeclared (s : Symbol) : Prop := ∃ n, s.id = .declared n

namespace Bound

/-- An expression that can be assigned to: a variable, or an element of an array. -/
def Expr.IsPlace : Expr → Prop
  | .symbol _ s => s.kind = .localVariable ∨ s.kind = .globalVariable
  | .index _ target _ _ => target.type ≠ .builtin .string
  | _ => False

mutual

/-- An expression makes sense in a context. -/
def Expr.Typed (c : Typing) : Expr → Prop
  | .literal _ v t => v.Fits t
  | .symbol _ s => c.Declares s ∧ s.IsDeclared
  | .group _ _ _ | .typeName _ _ => False
  | .assign _ target value =>
    target.IsPlace ∧ target.Typed c ∧ value.Typed c ∧ (value.type = target.type ∨ c.lenient)
  | .compound _ target operator value =>
    target.IsPlace ∧ target.Typed c ∧ value.Typed c ∧
      ∃ param result, c.registry.Combines operator ⟨result, [param, value.type]⟩ ∧
        c.registry.Adapts target.type param ∧ c.registry.Adapts result target.type
  | .binary _ operator left right t =>
    left.Typed c ∧ right.Typed c ∧
      ∃ op, c.registry.Computes operator (.binary op) ⟨t, [left.type, right.type]⟩
  | .unary _ operator operand t =>
    operand.Typed c ∧ ∃ op, c.registry.Computes operator (.unary op) ⟨t, [operand.type]⟩
  | .call _ callable args t =>
    typedAll c args ∧ c.registry.Invokes callable ⟨t, args.map Expr.type⟩ ∧ (t = .error → c.lenient)
  | .convert _ kind operand t _ =>
    operand.Typed c ∧ operand.type ≠ .builtin .void ∧ c.registry.IsType t ∧ t ≠ .builtin .void ∧
      (t = .error → c.lenient) ∧ c.registry.classify operand.type t = .ok kind ∧ kind.isPlain
  | .index _ target index t =>
    target.Typed c ∧ index.Typed c ∧ index.type = .builtin .i32 ∧
      (target.type = .builtin .string ∧ t = .builtin .char ∨ c.registry.element target.type = .ok t)
  | .length _ target =>
    target.Typed c ∧
      (target.type = .builtin .string ∨ ∃ t, c.registry.element target.type = .ok t)
  | .newArray _ element size t =>
    size.Typed c ∧ size.type = .builtin .i32 ∧ c.registry.element t = .ok element
  | .invalid _ _ => c.lenient

def typedAll (c : Typing) : List Expr → Prop
  | [] => True
  | e :: rest => e.Typed c ∧ typedAll c rest

end

def Expr.IsCondition (c : Typing) (e : Expr) : Prop :=
  e.Typed c ∧ (e.type = .builtin .bool ∨ c.lenient)

def Expr.isName : Expr → Bool
  | .group _ _ _ | .typeName _ _ => true
  | _ => false

mutual

/-- Whether a counted loop in the statement evaluates a bare name after each turn. -/
def Stmt.evaluatesName : Stmt → Bool
  | .block _ body => evaluateName body
  | .ifThen _ _ yes => yes.evaluatesName
  | .ifElse _ _ yes no => yes.evaluatesName || no.evaluatesName
  | .whileLoop _ _ body => body.evaluatesName
  | .forLoop _ _ _ post body => body.evaluatesName || post.any Expr.isName
  | _ => false

/-- Whether a counted loop in the statements evaluates a bare name after each turn. -/
def evaluateName : List Stmt → Bool
  | [] => false
  | s :: rest => s.evaluatesName || evaluateName rest

end

/-- A declaration of a local variable makes sense. -/
structure Declaration.Typed (c : Typing) (d : Declaration) : Prop where
  symbol : c.Declares d.symbol
  declared : d.symbol.IsDeclared
  isLocal : d.symbol.kind = .localVariable
  init : ∀ e, d.init? = some e → e.Typed c ∧ (e.type = d.symbol.type ∨ c.lenient)

/-- The first part of the header of a loop makes sense. -/
def Setup.Typed (c : Typing) : Setup → Prop
  | .declare d => d.Typed c
  | .eval e => e.expr.Typed c

mutual

/-- A statement makes sense in a routine with the given result; `looping` says that it stands in a
loop. What a counted loop evaluates after each turn may also be a bare name. -/
def Stmt.Typed (c : Typing) (result : TypeId) (looping : Bool) : Stmt → Prop
  | .block _ body => typedStmts c result looping body
  | .declare d => d.Typed c
  | .eval e => e.expr.Typed c
  | .ifThen _ cond yes => cond.IsCondition c ∧ yes.Typed c result looping
  | .ifElse _ cond yes no =>
    cond.IsCondition c ∧ yes.Typed c result looping ∧ no.Typed c result looping
  | .whileLoop _ cond body => cond.IsCondition c ∧ body.Typed c result true
  | .forLoop _ setup cond post body =>
    (∀ s, setup = some s → s.Typed c) ∧ (∀ e, cond = some e → e.IsCondition c) ∧
      (∀ e, post = some e → e.Typed c ∨ e.isName) ∧ body.Typed c result true
  | .breakLoop _ | .continueLoop _ => looping
  | .returnStmt _ none => result = .builtin .void ∨ c.lenient
  | .returnStmt _ (some e) =>
    e.Typed c ∧ result ≠ .builtin .void ∧ (e.type = result ∨ c.lenient)

def typedStmts (c : Typing) (result : TypeId) (looping : Bool) : List Stmt → Prop
  | [] => True
  | s :: rest => s.Typed c result looping ∧ typedStmts c result looping rest

end

/-- A routine makes sense. -/
structure Routine.Typed (r : Registry) (globals : List Symbol) (lenient : Prop) (f : Routine) :
    Prop where
  params : ∀ s ∈ f.params, (⟨r, globals, f.params, lenient⟩ : Typing).Declares s
  result : r.IsType f.result ∧ (f.result = .error → lenient)
  body : typedStmts ⟨r, globals, f.params, lenient⟩ f.result false f.body

/-- A program makes sense. -/
structure Program.Typed (r : Registry) (lenient : Prop) (p : Program) : Prop where
  globals : ∀ s ∈ p.globals, s.kind = .globalVariable ∧ s.IsDeclared ∧
    (⟨r, p.globals, [], lenient⟩ : Typing).Declares s
  routines : ∀ f ∈ p.routines, f.Typed r p.globals lenient
  functions : ∀ f ∈ p.functions, r.Invokes f.callable ⟨f.result, f.params.map Symbol.type⟩

/-! What the judgement gives. -/

section

variable {c : Typing}

attribute [local simp] Expr.Typed typedAll Stmt.Typed typedStmts

theorem typedAll_iff {es : List Expr} : typedAll c es ↔ ∀ e ∈ es, e.Typed c := by
  induction es with
  | nil => simp [typedAll]
  | cons e es ih => simp [typedAll, ih]

theorem typedStmts_iff {result : TypeId} {looping : Bool} {ss : List Stmt} :
    typedStmts c result looping ss ↔ ∀ s ∈ ss, s.Typed c result looping := by
  induction ss with
  | nil => simp [typedStmts]
  | cons s ss ih => simp [typedStmts, ih]

theorem Computes.exists_builtin {r : Registry} {t : TypeId} {op : Operator} {s : Signature}
    (h : r.Computes t op s) : ∃ b, s.result = .builtin b :=
  (Intrinsics.isBuiltin_of_mem_signatures h.2).1

/-- What can be assigned to holds values, no error unless mistakes are passed over. -/
theorem Expr.Typed.place (hr : c.registry.WellFormed) {e : Expr} (hp : e.IsPlace) (h : e.Typed c) :
    c.registry.IsType e.type ∧ e.type ≠ .builtin .void ∧ (e.type = .error → c.lenient) := by
  cases e with
  | symbol span s =>
    simp only [Expr.Typed] at h
    exact ⟨h.1.isType, h.1.ne_void, h.1.error⟩
  | index span target index t =>
    simp only [Expr.Typed] at h
    obtain ⟨-, -, -, ⟨hs, -⟩ | he⟩ := h
    · exact absurd hs hp
    · have := hr.isElement he
      exact ⟨this.1, this.2.2, fun hne => absurd hne this.2.1⟩
  | _ => exact hp.elim

theorem Expr.Typed.isType (hr : c.registry.WellFormed) {e : Expr} (h : e.Typed c) :
    c.registry.IsType e.type := by
  cases e with
  | literal span v t =>
    obtain ⟨b, rfl, -⟩ := Literal.Fits.exists_builtin h
    trivial
  | symbol span s =>
    simp only [Expr.Typed] at h
    exact h.1.isType
  | group | typeName => exact h.elim
  | assign span target value =>
    simp only [Expr.Typed] at h
    exact (Expr.Typed.place hr h.1 h.2.1).1
  | compound span target operator value =>
    simp only [Expr.Typed] at h
    exact (Expr.Typed.place hr h.1 h.2.1).1
  | binary span operator left right t =>
    simp only [Expr.Typed] at h
    obtain ⟨-, -, op, hc⟩ := h
    obtain ⟨b, rfl⟩ := Computes.exists_builtin hc
    trivial
  | unary span operator operand t =>
    simp only [Expr.Typed] at h
    obtain ⟨-, op, hc⟩ := h
    obtain ⟨b, rfl⟩ := Computes.exists_builtin hc
    trivial
  | call span callable args t =>
    simp only [Expr.Typed] at h
    obtain ⟨-, ⟨g, hg⟩, -⟩ := h
    exact hr.callable_result hg
  | convert span kind operand t isExplicit =>
    simp only [Expr.Typed] at h
    exact h.2.2.1
  | index span target index t =>
    simp only [Expr.Typed] at h
    obtain ⟨-, -, -, ⟨-, rfl⟩ | he⟩ := h
    · trivial
    · exact (hr.isElement he).1
  | length span target => trivial
  | newArray span element size t =>
    simp only [Expr.Typed] at h
    exact Registry.isType_of_element h.2.2
  | invalid span children => trivial

/-- Only what could not be understood has the error type. -/
theorem Expr.Typed.lenient (hr : c.registry.WellFormed) {e : Expr} (h : e.Typed c)
    (he : e.type = .error) : c.lenient := by
  cases e with
  | literal span v t =>
    obtain ⟨b, rfl, -⟩ := Literal.Fits.exists_builtin h
    cases he
  | symbol span s =>
    simp only [Expr.Typed] at h
    exact h.1.error he
  | group | typeName => exact h.elim
  | assign span target value =>
    simp only [Expr.Typed] at h
    exact (Expr.Typed.place hr h.1 h.2.1).2.2 he
  | compound span target operator value =>
    simp only [Expr.Typed] at h
    exact (Expr.Typed.place hr h.1 h.2.1).2.2 he
  | binary span operator left right t =>
    simp only [Expr.Typed] at h
    obtain ⟨-, -, op, hc⟩ := h
    obtain ⟨b, hb⟩ := Computes.exists_builtin hc
    cases hb.symm.trans he
  | unary span operator operand t =>
    simp only [Expr.Typed] at h
    obtain ⟨-, op, hc⟩ := h
    obtain ⟨b, hb⟩ := Computes.exists_builtin hc
    cases hb.symm.trans he
  | call span callable args t =>
    simp only [Expr.Typed] at h
    exact h.2.2 he
  | convert span kind operand t isExplicit =>
    simp only [Expr.Typed] at h
    exact h.2.2.2.2.1 he
  | index span target index t =>
    simp only [Expr.Typed] at h
    obtain ⟨-, -, -, ⟨-, rfl⟩ | hel⟩ := h
    · cases he
    · exact absurd he (hr.isElement hel).2.1
  | length span target => cases he
  | newArray span element size t =>
    simp only [Expr.Typed] at h
    rw [show t = .error from he] at h
    obtain ⟨-, -, h⟩ := h
    simp [Registry.element, Registry.get?] at h
  | invalid span children => exact h

/-- Only a call can be without a value. -/
theorem Expr.Typed.ne_void (hr : c.registry.WellFormed) {e : Expr} (h : e.Typed c)
    (hc : ∀ span callable args, e ≠ .call span callable args (.builtin .void)) :
    e.type ≠ .builtin .void := by
  intro he
  cases e with
  | literal span v t =>
    obtain ⟨b, rfl, hb⟩ := Literal.Fits.exists_builtin h
    cases he
    cases hb
  | symbol span s =>
    simp only [Expr.Typed] at h
    exact h.1.ne_void he
  | group | typeName => exact h.elim
  | assign span target value =>
    simp only [Expr.Typed] at h
    exact (Expr.Typed.place hr h.1 h.2.1).2.1 he
  | compound span target operator value =>
    simp only [Expr.Typed] at h
    exact (Expr.Typed.place hr h.1 h.2.1).2.1 he
  | binary span operator left right t =>
    simp only [Expr.Typed] at h
    obtain ⟨-, -, op, -, hs⟩ := h
    exact Intrinsics.result_ne_void hs he
  | unary span operator operand t =>
    simp only [Expr.Typed] at h
    obtain ⟨-, op, -, hs⟩ := h
    exact Intrinsics.result_ne_void hs he
  | call span callable args t =>
    cases he
    exact hc span callable args rfl
  | convert span kind operand t isExplicit =>
    simp only [Expr.Typed] at h
    exact h.2.2.2.1 he
  | index span target index t =>
    simp only [Expr.Typed] at h
    obtain ⟨-, -, -, ⟨-, rfl⟩ | hel⟩ := h
    · cases he
    · exact (hr.isElement hel).2.2 he
  | length span target => cases he
  | newArray span element size t =>
    simp only [Expr.Typed] at h
    rw [show t = .builtin .void from he] at h
    obtain ⟨-, -, h⟩ := h
    simp [Registry.element, Registry.get?] at h
  | invalid span children => cases he

variable {d : Typing} (hr : c.registry.WellFormed) (hcd : c.Extends d)
include hr hcd

mutual

/-- What makes sense in a context does so in every larger one. -/
theorem Expr.Typed.mono : (e : Expr) → e.Typed c → e.Typed d
  | .literal _ _ _, h => by simpa only [Expr.Typed] using h
  | .symbol _ _, h => by
    simp only [Expr.Typed] at h ⊢
    exact ⟨h.1.mono hcd, h.2⟩
  | .group _ _ _, h | .typeName _ _, h => h.elim
  | .assign _ target value, h => by
    simp only [Expr.Typed] at h ⊢
    exact ⟨h.1, Expr.Typed.mono target h.2.1, Expr.Typed.mono value h.2.2.1,
      h.2.2.2.imp_right hcd.lenient⟩
  | .compound _ target operator value, h => by
    simp only [Expr.Typed] at h ⊢
    obtain ⟨hp, ht, hv, param, result, hc, ha, hb⟩ := h
    obtain ⟨info, hinfo, hres, hpar⟩ := hc.callable
    have htype := (Expr.Typed.place hr hp ht).1
    have hparam : c.registry.IsType param := (hr.callable_params hinfo param (by simp [hpar])).1
    have hresult : c.registry.IsType result := by
      rw [show result = info.result from hres.symm]
      exact hr.callable_result hinfo
    exact ⟨hp, Expr.Typed.mono target ht, Expr.Typed.mono value hv, param, result,
      hc.mono hcd.registry, ha.mono hcd.registry htype hparam,
      hb.mono hcd.registry hresult htype⟩
  | .binary _ operator left right t, h => by
    simp only [Expr.Typed] at h ⊢
    obtain ⟨hl, hr', op, hc⟩ := h
    exact ⟨Expr.Typed.mono left hl, Expr.Typed.mono right hr', op, hc.mono hcd.registry⟩
  | .unary _ operator operand t, h => by
    simp only [Expr.Typed] at h ⊢
    obtain ⟨ho, op, hc⟩ := h
    exact ⟨Expr.Typed.mono operand ho, op, hc.mono hcd.registry⟩
  | .call _ callable args t, h => by
    simp only [Expr.Typed] at h ⊢
    exact ⟨typedAll_mono args h.1, h.2.1.mono hcd.registry, fun he => hcd.lenient (h.2.2 he)⟩
  | .convert _ kind operand t _, h => by
    simp only [Expr.Typed] at h ⊢
    obtain ⟨ho, hv, ht, htv, hte, hk, hp⟩ := h
    exact ⟨Expr.Typed.mono operand ho, hv, ht.mono hcd.registry, htv, fun he => hcd.lenient (hte he),
      Registry.classify_mono hcd.registry (Expr.Typed.isType hr ho) ht hk, hp⟩
  | .index _ target index t, h => by
    simp only [Expr.Typed] at h ⊢
    obtain ⟨ht, hi, h32, hel⟩ := h
    exact ⟨Expr.Typed.mono target ht, Expr.Typed.mono index hi, h32,
      hel.imp_right (Registry.element_mono hcd.registry)⟩
  | .length _ target, h => by
    simp only [Expr.Typed] at h ⊢
    refine ⟨Expr.Typed.mono target h.1, h.2.imp_right ?_⟩
    rintro ⟨t, ht⟩
    exact ⟨t, Registry.element_mono hcd.registry ht⟩
  | .newArray _ element size t, h => by
    simp only [Expr.Typed] at h ⊢
    exact ⟨Expr.Typed.mono size h.1, h.2.1, Registry.element_mono hcd.registry h.2.2⟩
  | .invalid _ _, h => by
    simp only [Expr.Typed] at h ⊢
    exact hcd.lenient h

theorem typedAll_mono : (es : List Expr) → typedAll c es → typedAll d es
  | [], _ => trivial
  | e :: rest, h => by
    simp only [typedAll] at h ⊢
    exact ⟨Expr.Typed.mono e h.1, typedAll_mono rest h.2⟩

end

theorem Expr.IsCondition.mono {e : Expr} (h : e.IsCondition c) : e.IsCondition d :=
  ⟨Expr.Typed.mono hr hcd e h.1, h.2.imp_right hcd.lenient⟩

theorem Declaration.Typed.mono {e : Declaration} (h : e.Typed c) : e.Typed d := by
  refine ⟨h.symbol.mono hcd, h.declared, h.isLocal, fun v hv => ?_⟩
  obtain ⟨ht, he⟩ := h.init v hv
  exact ⟨Expr.Typed.mono hr hcd v ht, he.imp_right hcd.lenient⟩

theorem Setup.Typed.mono {s : Setup} (h : s.Typed c) : s.Typed d := by
  cases s with
  | declare e => exact Declaration.Typed.mono hr hcd h
  | eval e => exact Expr.Typed.mono hr hcd e.expr h

mutual

theorem Stmt.Typed.mono {result : TypeId} {looping : Bool} :
    (s : Stmt) → s.Typed c result looping → s.Typed d result looping
  | .block _ body, h => by
    simp only [Stmt.Typed] at h ⊢
    exact typedStmts_mono body h
  | .declare e, h => by
    simp only [Stmt.Typed] at h ⊢
    exact Declaration.Typed.mono hr hcd h
  | .eval e, h => by
    simp only [Stmt.Typed] at h ⊢
    exact Expr.Typed.mono hr hcd e.expr h
  | .ifThen _ cond yes, h => by
    simp only [Stmt.Typed] at h ⊢
    exact ⟨Expr.IsCondition.mono hr hcd h.1, Stmt.Typed.mono yes h.2⟩
  | .ifElse _ cond yes no, h => by
    simp only [Stmt.Typed] at h ⊢
    exact ⟨Expr.IsCondition.mono hr hcd h.1, Stmt.Typed.mono yes h.2.1, Stmt.Typed.mono no h.2.2⟩
  | .whileLoop _ cond body, h => by
    simp only [Stmt.Typed] at h ⊢
    exact ⟨Expr.IsCondition.mono hr hcd h.1, Stmt.Typed.mono body h.2⟩
  | .forLoop _ setup cond post body, h => by
    simp only [Stmt.Typed] at h ⊢
    obtain ⟨hs, hc, hp, hb⟩ := h
    exact ⟨fun s hs' => Setup.Typed.mono hr hcd (hs s hs'),
      fun e he => Expr.IsCondition.mono hr hcd (hc e he),
      fun e he => (hp e he).imp_left (Expr.Typed.mono hr hcd e), Stmt.Typed.mono body hb⟩
  | .breakLoop _, h | .continueLoop _, h => h
  | .returnStmt _ none, h => by
    simp only [Stmt.Typed] at h ⊢
    exact h.imp_right hcd.lenient
  | .returnStmt _ (some e), h => by
    simp only [Stmt.Typed] at h ⊢
    exact ⟨Expr.Typed.mono hr hcd e h.1, h.2.1, h.2.2.imp_right hcd.lenient⟩

theorem typedStmts_mono {result : TypeId} {looping : Bool} :
    (ss : List Stmt) → typedStmts c result looping ss → typedStmts d result looping ss
  | [], _ => trivial
  | s :: rest, h => by
    simp only [typedStmts] at h ⊢
    exact ⟨Stmt.Typed.mono s h.1, typedStmts_mono rest h.2⟩

end

end

theorem Routine.Typed.mono {r r' : Registry} (hr : r.WellFormed) (hrr : r ≤ r')
    {globals globals' : List Symbol}
    (hg : ∀ s ∈ globals, s.kind = .globalVariable → s ∈ globals') {lenient lenient' : Prop}
    (hl : lenient → lenient') {f : Routine} (h : f.Typed r globals lenient) :
    f.Typed r' globals' lenient' := by
  have hext : (⟨r, globals, f.params, lenient⟩ : Typing).Extends ⟨r', globals', f.params, lenient'⟩ :=
    ⟨hrr, hg, rfl, hl⟩
  exact ⟨fun s hs => (h.params s hs).mono hext, ⟨h.result.1.mono hrr, fun he => hl (h.result.2 he)⟩,
    typedStmts_mono hr hext f.body h.body⟩

end Bound
end TypedScript
