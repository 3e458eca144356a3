import TypedScript.Proofs.Machine.Ranges
import TypedScript.Proofs.Refinement.Expressions

/-!
# Comparisons

Code is told by what it does to the uppermost values of the stack, wherever it stands in a method. A
machine has instructions for `==`, `<` and `>` only; the other comparisons are negations of these. That
makes `<=` the opposite of `>`, which is the same as `<` or `==` between all values but NaN.
-/

namespace TypedScript

open Machine Emission

/-- Code that, wherever it stands, replaces values on the top of the stack and does nothing else. -/
def Module.Computes (M : Module) (code : List Instruction) (taken left : List Value) : Prop :=
  ∀ (depth : Nat) (w : Machine) (f : Activation) (rest : List Activation) (k n : Nat) (g : Method)
    (s : List Value), w.module = M → w.calls = f :: rest → f.method = k → f.next = n →
    M.method? k = some g → (∀ j i, code[j]? = some i → g.code[n + j]? = some i) →
    Leads depth code.length w (taken ++ s) (w.goto ↑(n + code.length)) (left ++ s)

namespace Module.Computes

variable {M : Module} {code : List Instruction} {taken between left : List Value}

/-- Values further down do not matter. -/
theorem below (h : M.Computes code taken left) (vs : List Value) :
    M.Computes code (taken ++ vs) (left ++ vs) := by
  intro depth w f rest k n g s hM hcalls hk hn hg hcode
  simpa only [List.append_assoc] using h depth w f rest k n g (vs ++ s) hM hcalls hk hn hg hcode

theorem append {more : List Instruction} (h : M.Computes code taken between)
    (h' : M.Computes more between left) : M.Computes (code ++ more) taken left := by
  intro depth w f rest k n g s hM hcalls hk hn hg hcode
  have hfirst := h depth w f rest k n g s hM hcalls hk hn hg fun j i hj =>
    hcode j i (by rw [List.getElem?_append_left (List.getElem?_eq_some_iff.mp hj).1, hj])
  have hgoto : (w.goto ↑(n + code.length)).calls = { f with next := ↑(n + code.length) } :: rest := by
    simp [goto, hcalls]
  have hsecond := h' depth (w.goto ↑(n + code.length)) _ rest k (n + code.length) g s hM hgoto hk rfl hg
    fun j i hj => by
      rw [Nat.add_assoc]
      exact hcode _ i (by rw [List.getElem?_append_right (Nat.le_add_right _ _), Nat.add_sub_cancel_left, hj])
  have hend : (w.goto ↑(n + code.length)).goto ↑(n + code.length + more.length) =
      w.goto ↑(n + (code ++ more).length) := by
    simp [goto, hcalls, Nat.add_assoc]
  rw [hend] at hsecond
  rw [show (code ++ more).length = code.length + more.length from List.length_append] at hsecond ⊢
  exact hfirst.trans hsecond

/-- An instruction that only works on the stack. -/
theorem instruction {i : Instruction} {op : Operation} (hop : i.operation? = some op)
    (hret : op ≠ .ret) (hretVoid : op ≠ .retVoid)
    (h : ∀ f g w s, w.module = M → (Action.perform op i f g).Does w (taken ++ s) (.ok ()) w (left ++ s)) :
    M.Computes [i] taken left := by
  intro depth w f rest k n g s hM hcalls hk hn hg hcode
  have hat : w.At f rest k n g i := ⟨hcalls, hk, hn, hM ▸ hg, hcode 0 i rfl⟩
  exact .single (Action.does_step hat depth hop hret hretVoid (h f g _ s hM))

theorem push {i : Nat} {c : Constant} (hsmall : M.Small) (hc : M.constants[i]? = some c) :
    M.Computes [.plain .push i] [] [c.value] := by
  have his := Instruction.is_plain .push (lt_of_getElem? hc hsmall.constants)
  refine instruction his.operation (by decide) (by decide) fun f g w s hM => ?_
  exact Action.performs_push his.operand (by rw [hM]; exact hc)

theorem operation {o : Operation} {b : Builtin} {x y v : Value} (ho : Action.isBinary o)
    (hv : Arithmetic.binary o b.tag x y = .ok v) : M.Computes [.typed o b.tag] [y, x] [v] := by
  refine instruction (Instruction.operation?_typed o b.tag) (by rintro rfl; cases ho)
    (by rintro rfl; cases ho) fun f g w s _ => ?_
  exact Action.performs_binary ho (by rw [Instruction.tag_typed]; exact hv)

/-- A truth value is negated by comparing it with false. -/
theorem negation {i : Nat} (hsmall : M.Small) (hc : M.constants[i]? = some (.bool false)) (r : Bool) :
    M.Computes [.plain .push i, .typed .ceq .bool] [.bool r] [.bool !r] :=
  ((push hsmall hc).below [.bool r]).append
    (operation (b := .bool) rfl (show _ = Except.ok (Value.bool !r) by cases r <;> rfl))

end Module.Computes

/-! ## What comparisons find -/

namespace Value

def isNaN : Value → Bool
  | .float x => x.isNaN
  | _ => false

/-- What `==` finds for two values of one type. -/
def equal : Value → Value → Bool
  | .int x, .int y => x == y
  | .uint x, .uint y => x == y
  | .float x, .float y => x.equals y
  | .bool x, .bool y => x == y
  | .char x, .char y => x == y
  | _, _ => false

/-- What `<` finds for two values of one type. -/
def less : Value → Value → Bool
  | .int x, .int y => x < y
  | .uint x, .uint y => x < y
  | .float x, .float y => x.less y
  | .char x, .char y => x < y
  | _, _ => false

/-- What a comparison finds for two values of one type. -/
def compare (x : Value) (op : BinaryOperator) (y : Value) : Bool :=
  match op with
  | .equal => x.equal y
  | .notEqual => !x.equal y
  | .less => x.less y
  | .greater => y.less x
  | .lessEqual => !y.less x
  | .greaterEqual => !x.less y
  | _ => false

variable {heap : Heap} {b : Builtin} {x y : Value}

theorem less_of_isNaN (h : x.isNaN ∨ y.isNaN) :
    x.less y = false ∧ y.less x = false ∧ x.equal y = false := by
  cases x with
  | float x =>
    cases y with
    | float y =>
      have hnan : x.isNaN ∨ y.isNaN := h
      simp only [less, equal, Double.less, Double.equals]
      rcases hnan with h | h <;> simp [h]
    | _ => exact ⟨rfl, rfl, rfl⟩
  | _ =>
    cases y with
    | float y => exact ⟨rfl, rfl, rfl⟩
    | _ => simp [isNaN] at h

/-- Unless one of them is NaN, a value is not less than another if that one is less or they are equal. -/
theorem less_eq_false_iff (hb : b ∈ Intrinsics.operands .less) (hx : x.Has heap b.name)
    (hy : y.Has heap b.name) (hnan : ¬(x.isNaN ∨ y.isNaN)) :
    y.less x = false ↔ x.less y ∨ x.equal y := by
  rw [has_builtin_iff] at hx hy
  cases hx with
  | @int _ x hsigned =>
    obtain ⟨y, rfl, -⟩ := hy.exists_int hsigned
    simp only [less, equal, decide_eq_false_iff_not, decide_eq_true_eq, beq_iff_eq,
      Int64.lt_iff_toInt_lt, ← Int64.toInt_inj]
    omega
  | @uint _ x hunsigned =>
    obtain ⟨y, rfl, -⟩ := hy.exists_uint hunsigned
    simp only [less, equal, decide_eq_false_iff_not, decide_eq_true_eq, beq_iff_eq,
      UInt64.lt_iff_toNat_lt, ← UInt64.toNat_inj]
    omega
  | @float _ x hfloat =>
    obtain ⟨y, rfl⟩ := hy.exists_float hfloat
    simp only [isNaN, not_or, Bool.not_eq_true] at hnan
    simp only [less, equal, Double.less, Double.equals, hnan, Bool.not_false, Bool.true_and,
      decide_eq_false_iff_not, decide_eq_true_eq, beq_iff_eq]
    omega
  | char x =>
    obtain ⟨y, rfl⟩ := hy.exists_char
    simp only [less, equal, decide_eq_false_iff_not, decide_eq_true_eq, beq_iff_eq,
      Int32.lt_iff_toInt_lt, ← Int32.toInt_inj]
    omega
  | bool | string | null | boxed => exact absurd hb (by decide)

theorem equal_comm (x y : Value) : x.equal y = y.equal x := by
  cases x <;> cases y <;> first | rfl | skip
  case float.float x y =>
    simp only [equal, Double.equals, Bool.and_comm x.isNaN.not]
    rw [BEq.comm]
  all_goals exact BEq.comm

end Value

namespace Arithmetic

variable {heap : Heap} {b : Builtin} {x y : Value}

theorem binary_ceq (hb : b ∈ Intrinsics.operands .equal) (hx : x.Has heap b.name)
    (hy : y.Has heap b.name) : binary .ceq b.tag x y = .ok (.bool (x.equal y)) := by
  rw [Value.has_builtin_iff] at hx hy
  cases hx with
  | @int _ x hsigned =>
    obtain ⟨y, rfl, -⟩ := hy.exists_int hsigned
    cases b <;> first | rfl | cases hsigned
  | @uint _ x hunsigned =>
    obtain ⟨y, rfl, -⟩ := hy.exists_uint hunsigned
    cases b <;> first | rfl | cases hunsigned
  | @float _ x hfloat =>
    obtain ⟨y, rfl⟩ := hy.exists_float hfloat
    cases b <;> first | rfl | cases hfloat
  | bool x =>
    obtain ⟨y, rfl⟩ := hy.exists_bool
    rfl
  | char x =>
    obtain ⟨y, rfl⟩ := hy.exists_char
    rfl
  | string | null | boxed => exact absurd hb (by decide)

theorem binary_order (hb : b ∈ Intrinsics.operands .less) (hx : x.Has heap b.name)
    (hy : y.Has heap b.name) : binary .clt b.tag x y = .ok (.bool (x.less y)) ∧
      binary .cgt b.tag x y = .ok (.bool (y.less x)) := by
  rw [Value.has_builtin_iff] at hx hy
  cases hx with
  | @int _ x hsigned =>
    obtain ⟨y, rfl, -⟩ := hy.exists_int hsigned
    cases b <;> first | exact ⟨rfl, rfl⟩ | cases hsigned
  | @uint _ x hunsigned =>
    obtain ⟨y, rfl, -⟩ := hy.exists_uint hunsigned
    cases b <;> first | exact ⟨rfl, rfl⟩ | cases hunsigned
  | @float _ x hfloat =>
    obtain ⟨y, rfl⟩ := hy.exists_float hfloat
    cases b <;> first | exact ⟨rfl, rfl⟩ | cases hfloat
  | char x =>
    obtain ⟨y, rfl⟩ := hy.exists_char
    exact ⟨rfl, rfl⟩
  | bool | string | null | boxed => exact absurd hb (by decide)

end Arithmetic

/-! ## What the code of comparisons computes -/

namespace Emission

/-- The code of an operator stands behind that of its operands, which ends in the state `st`, and
computes a value from theirs. -/
def Computes (M : Module) (st : Emitting) (op : BinaryOperator) (b : Builtin) (x y v : Value) : Prop :=
  ∃ code st',
    (∀ (c : EmissionContext) (routine : String) (left right : Flat.Expr) (type : TypeId)
      (l r : List CodeLine) (st₀ st₁ : Emitting),
      expr c routine left st₀ = .ok (l, st₁) → expr c routine right st₁ = .ok (r, st) →
      expr c routine (.binary (some (.binary op)) (.builtin b) left right type) st₀ =
        .ok (l ++ r ++ code.map .instruction, st')) ∧
    (M.Small → Keeps st'.module.constants M.constants → M.Computes code [y, x] [v])

/-- The code of a logical negation stands behind that of its operand and computes the opposite. -/
def Negates (M : Module) (st : Emitting) (v : Bool) : Prop :=
  ∃ code st',
    (∀ (c : EmissionContext) (routine : String) (e : Flat.Expr) (type : TypeId) (tag : Tag)
      (l : List CodeLine) (st₀ : Emitting),
      expr c routine e st₀ = .ok (l, st) → tagOf c.registry e.type = .ok tag →
      expr c routine (.unary (some (.unary .not)) e type) st₀ =
        .ok (l ++ code.map .instruction, st')) ∧
    (M.Small → Keeps st'.module.constants M.constants → M.Computes code [.bool v] [.bool !v])

variable {M : Module} {st : Emitting} {op : BinaryOperator} {b : Builtin} {x y : Value}

/-- The constant that truth values are negated with is among those of the module. -/
theorem exists_negation (st : Emitting) : ∃ i st', negation st =
      .ok ([plain .push i, typed .ceq .bool], st') ∧
    st'.module.constants[i]? = some (.bool false) :=
  ⟨_, _, rfl, getElem?_intern _ _⟩

theorem expr_binary {code : List Instruction} {st' : Emitting}
    (h : binary (some (.binary op)) b.tag st = .ok (code.map .instruction, st'))
    {c : EmissionContext} {routine : String} {left right : Flat.Expr} {type : TypeId}
    {l r : List CodeLine} {st₀ st₁ : Emitting} (hl : expr c routine left st₀ = .ok (l, st₁))
    (hr : expr c routine right st₁ = .ok (r, st)) :
    expr c routine (.binary (some (.binary op)) (.builtin b) left right type) st₀ =
      .ok (l ++ r ++ code.map .instruction, st') := by
  have htag : tagOf c.registry (.builtin b) = .ok b.tag := by
    simp [tagOf, typeName_builtin]
  simp only [expr, htag, Bind.bind, StateT.bind, Except.bind, hl, hr, liftM, monadLift,
    MonadLift.monadLift, StateT.lift, Pure.pure, Except.pure, h]
  rfl

theorem expr_not {code : List Instruction} {st' : Emitting}
    (h : negation st = .ok (code.map .instruction, st')) {c : EmissionContext} {routine : String}
    {e : Flat.Expr} {type : TypeId} {tag : Tag} {l : List CodeLine} {st₀ : Emitting}
    (he : expr c routine e st₀ = .ok (l, st)) (htag : tagOf c.registry e.type = .ok tag) :
    expr c routine (.unary (some (.unary .not)) e type) st₀ =
      .ok (l ++ code.map .instruction, st') := by
  simp only [expr, unary, htag, Bind.bind, StateT.bind, Except.bind, he, liftM, monadLift,
    MonadLift.monadLift, StateT.lift, Pure.pure, Except.pure, h]
  rfl

theorem negates (M : Module) (st : Emitting) (v : Bool) : Negates M st v := by
  obtain ⟨i, st', hrun, hi⟩ := exists_negation st
  refine ⟨[.plain .push i, .typed .ceq .bool], st', fun _ _ _ _ _ _ _ he htag => expr_not hrun he htag,
    fun hsmall hkeeps => ?_⟩
  exact Module.Computes.negation hsmall (hkeeps _ _ hi) v

theorem Computes.plain {o : Operation} {v : Value} (hop : operation? op = some (o, false))
    (hv : Arithmetic.binary o b.tag x y = .ok v) : Computes M st op b x y v := by
  refine ⟨[.typed o b.tag], st, fun _ _ _ _ _ _ _ _ _ hl hr => expr_binary ?_ hl hr, fun _ _ => ?_⟩
  · cases op <;> cases hop <;> rfl
  · exact .operation (isBinary_of_operation? hop) hv

theorem Computes.negated {o : Operation} {v : Bool} (hop : operation? op = some (o, true))
    (hv : Arithmetic.binary o b.tag x y = .ok (.bool v)) : Computes M st op b x y (.bool !v) := by
  obtain ⟨i, st', hrun, hi⟩ := exists_negation st
  refine ⟨[.typed o b.tag, .plain .push i, .typed .ceq .bool], st',
    fun _ _ _ _ _ _ _ _ _ hl hr => expr_binary ?_ hl hr, fun hsmall hkeeps => ?_⟩
  · have hcode : binary (some (.binary op)) b.tag =
        do return typed o b.tag :: (← negation) := by
      cases op <;> cases hop <;> rfl
    simp only [hcode, Bind.bind, StateT.bind, Except.bind, hrun]
    rfl
  · have hoperation : M.Computes [.typed o b.tag] [y, x] [.bool v] :=
      .operation (isBinary_of_operation? hop) hv
    exact hoperation.append (.negation hsmall (hkeeps _ _ hi) v)

/-- What a comparison finds is what its code computes. -/
theorem computes_compare (M : Module) (st : Emitting) {heap : Heap} (hop : op.isComparison)
    (hb : b ∈ Intrinsics.operands op) (hx : x.Has heap b.name) (hy : y.Has heap b.name) :
    Computes M st op b x y (.bool (x.compare op y)) := by
  cases op with
  | equal => exact .plain rfl (Arithmetic.binary_ceq hb hx hy)
  | notEqual => exact .negated rfl (Arithmetic.binary_ceq hb hx hy)
  | less => exact .plain rfl (Arithmetic.binary_order hb hx hy).1
  | greater => exact .plain rfl (Arithmetic.binary_order hb hx hy).2
  | lessEqual => exact .negated rfl (Arithmetic.binary_order hb hx hy).2
  | greaterEqual => exact .negated rfl (Arithmetic.binary_order hb hx hy).1
  | _ => cases hop

/-- The code of `!=` finds the opposite of what that of `==` does. The code of `<=` and of `>=` agrees with
that of the other comparisons unless one of the values is NaN: then nothing is less, greater or equal, so
that both hold. What the library finds of texts and objects is negated in the same way. -/
theorem comparisons_agree (M : Module) (st : Emitting) {heap : Heap} (hx : x.Has heap b.name)
    (hy : y.Has heap b.name) :
    (∀ op, op.isComparison → b ∈ Intrinsics.operands op →
      Computes M st op b x y (.bool (x.compare op y))) ∧
    (x.compare .notEqual y = !x.compare .equal y) ∧
    (b ∈ Intrinsics.operands .less → ¬(x.isNaN ∨ y.isNaN) →
      (x.compare .lessEqual y ↔ x.compare .less y ∨ x.compare .equal y) ∧
      (x.compare .greaterEqual y ↔ x.compare .greater y ∨ x.compare .equal y)) ∧
    (x.isNaN ∨ y.isNaN →
      ¬x.compare .less y ∧ ¬x.compare .greater y ∧ ¬x.compare .equal y ∧
      x.compare .lessEqual y ∧ x.compare .greaterEqual y) ∧
    ∀ v, Negates M st v := by
  refine ⟨fun op hop hb => computes_compare M st hop hb hx hy, rfl, fun hless hnan => ?_, fun hnan => ?_,
    negates M st⟩
  · constructor
    · simpa [Value.compare] using Value.less_eq_false_iff hless hx hy hnan
    · rw [or_comm] at hnan
      simpa [Value.compare, Value.equal_comm x y] using Value.less_eq_false_iff hless hy hx hnan
  · obtain ⟨hless, hgreater, hequal⟩ := Value.less_of_isNaN hnan
    simp [Value.compare, hless, hgreater, hequal]

/-- Of two characters. -/
theorem comparisons_agree_chars :
    (Value.char 97).Has #[] Builtin.char.name ∧ (Value.char 98).Has #[] Builtin.char.name ∧
      ((Value.char 97).compare .lessEqual (.char 98) ↔
        (Value.char 97).compare .less (.char 98) ∨ (Value.char 97).compare .equal (.char 98)) := by
  have ha : (Value.char 97).Has #[] Builtin.char.name := Value.has_builtin_iff.mpr (.char 97)
  have hb : (Value.char 98).Has #[] Builtin.char.name := Value.has_builtin_iff.mpr (.char 98)
  have hagree := comparisons_agree (Module.empty "") ⟨.empty "", #[]⟩ ha hb
  exact ⟨ha, hb, (hagree.2.2.1 (by decide) (by decide)).1⟩

def negating : Module := { Module.empty "" with constants := #[.bool false] }

theorem negation_negating : negation ⟨negating, #[]⟩ =
    .ok ([plain .push 0, typed .ceq .bool], ⟨negating, #[]⟩) := by
  have hfind : negating.constants.findIdx? (fun c => decide (c = Constant.bool false)) = some 0 := by
    simp [negating]
  have hconstant : negating.internConstant (.bool false) = (0, negating) := by
    rw [Module.internConstant, intern, hfind]
  change Except.ok ([plain .push (negating.internConstant (.bool false)).1, typed .ceq .bool],
    (⟨(negating.internConstant (.bool false)).2, #[]⟩ : Emitting)) = _
  rw [hconstant]

/-- NaN is neither less than a number nor equal to it, but the code of `<=` finds that it is one of
these. -/
theorem lessEqual_nan : ∃ lessEqual less equal : List Instruction,
    binary (some (.binary .lessEqual)) .f64 ⟨negating, #[]⟩ =
      .ok (lessEqual.map .instruction, ⟨negating, #[]⟩) ∧
    binary (some (.binary .less)) .f64 ⟨negating, #[]⟩ =
      .ok (less.map .instruction, ⟨negating, #[]⟩) ∧
    binary (some (.binary .equal)) .f64 ⟨negating, #[]⟩ =
      .ok (equal.map .instruction, ⟨negating, #[]⟩) ∧
    negating.Computes lessEqual [.float (.ofInt 1), .float .nan] [.bool true] ∧
    negating.Computes less [.float (.ofInt 1), .float .nan] [.bool false] ∧
    negating.Computes equal [.float (.ofInt 1), .float .nan] [.bool false] := by
  have hsmall : negating.Small := Module.isSmall_iff.mp (by decide +kernel)
  have hoperation : ∀ {o : Operation} {v : Value}, Action.isBinary o →
      Arithmetic.binary o .f64 (.float .nan) (.float (.ofInt 1)) = .ok v →
      negating.Computes [.typed o .f64] [.float (.ofInt 1), .float .nan] [v] :=
    Module.Computes.operation (b := .f64)
  have hgreater := hoperation (o := .cgt) (v := .bool false) rfl (by decide +kernel)
  refine ⟨[.typed .cgt .f64, .plain .push 0, .typed .ceq .bool], [.typed .clt .f64],
    [.typed .ceq .f64], ?_, rfl, rfl, hgreater.append (.negation hsmall rfl false), ?_, ?_⟩
  · simp only [binary, Bind.bind, StateT.bind, Except.bind, negation_negating]
    rfl
  · exact hoperation rfl (by decide +kernel)
  · exact hoperation rfl (by decide +kernel)

end Emission
end TypedScript
