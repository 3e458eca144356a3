import TypedScript.Proofs.Execution.Operands

/-!
# Flattening operands

Operands that are flattened from left to right keep their values and the order of their effects, and
so does an operator that skips an operand.
-/

namespace TypedScript
namespace Bound

mutual

def Expr.NoCompound : Expr → Prop
  | .compound _ _ _ _ => False
  | .assign _ target value => target.NoCompound ∧ value.NoCompound
  | .binary _ _ left right _ => left.NoCompound ∧ right.NoCompound
  | .unary _ _ operand _ | .convert _ _ operand _ _ => operand.NoCompound
  | .call _ _ args _ => noCompoundAll args
  | .index _ target index _ => target.NoCompound ∧ index.NoCompound
  | .length _ target => target.NoCompound
  | .newArray _ _ size _ => size.NoCompound
  | .invalid _ children => noCompoundAll children
  | .literal _ _ _ | .symbol _ _ | .group _ _ _ | .typeName _ _ => True

def noCompoundAll : List Expr → Prop
  | [] => True
  | e :: rest => e.NoCompound ∧ noCompoundAll rest

end

theorem noCompoundAll_iff {es : List Expr} : noCompoundAll es ↔ ∀ e ∈ es, e.NoCompound := by
  induction es with
  | nil => simp [noCompoundAll]
  | cons e es ih => simp [noCompoundAll, ih]

end Bound

namespace Flat

open Execution

theorem not_isTemporary {s : Symbol} (h : s.IsDeclared) (n : Nat) : ¬IsTemporary s n := by
  obtain ⟨m, hm⟩ := h
  simp [IsTemporary, hm]

theorem within_temporary {n k : Nat} (t : TypeId) (h : n ≤ k) :
    (Expr.symbol (temporary n t)).Within k := by
  intro m hm
  rw [← isTemporary_temporary.mp hm]
  exact ⟨h, rfl⟩

section

variable {r : Registry}

theorem Joins.within {before before' : List Stmt} {done done' : List Expr} {next : Lowered}
    {s s' : Supply} {k : Nat} (h : Joins before done next s before' done' s')
    (hk : k ≤ s.temporaries) (hw : withinAll k done) (hn : next.expr.Within s.temporaries) :
    s.temporaries ≤ s'.temporaries ∧ withinAll s'.temporaries done' := by
  cases h with
  | plain _ =>
    rw [withinAll_append]
    exact ⟨Nat.le_refl _, hw.mono hk, hn, trivial⟩
  | keep _ hoists =>
    rw [withinAll_append]
    have hle := hoists.temporaries_le
    exact ⟨hle, hoists.within hk hw, hn.mono hle, trivial⟩

theorem LowersAll.within {es : List Bound.Expr}
    (hes : ∀ e ∈ es, ∀ {s s' out}, Lowers r e s out s' →
      s.temporaries ≤ s'.temporaries ∧ out.expr.Within s'.temporaries)
    {before before' : List Stmt} {done done' : List Expr} {s s' : Supply}
    (h : LowersAll r before done es s before' done' s') (hw : withinAll s.temporaries done) :
    s.temporaries ≤ s'.temporaries ∧ withinAll s'.temporaries done' := by
  induction es generalizing before done s with
  | nil =>
    cases h
    exact ⟨Nat.le_refl _, hw⟩
  | cons e rest ih =>
    cases h with
    | cons he hjoin hrest =>
      rw [List.forall_mem_cons] at hes
      obtain ⟨hle, hnext⟩ := hes.1 he
      obtain ⟨hle', hw'⟩ := hjoin.within hle hw hnext
      obtain ⟨hle₂, hw₂⟩ := ih hes.2 hrest hw'
      exact ⟨by omega, hw₂⟩

theorem Converts.within {e out : Expr} {t : TypeId} {k : Nat} (h : Converts r e t out)
    (hw : e.Within k) : out.Within k := by
  cases h with
  | same _ => exact hw
  | convert _ _ _ =>
    simp only [Expr.Within]
    exact hw

theorem Merges.within {operator : TypeId} {old value result : Expr} {k : Nat}
    (h : Merges r operator old value result) (ho : old.Within k) (hv : value.Within k) :
    result.Within k := by
  obtain ⟨info, left, -, hleft, hresult⟩ := h
  refine hresult.within ?_
  unfold applied
  split
  · simp only [Expr.Within]
    exact ⟨hleft.within ho, hv⟩
  · simp only [Expr.Within, withinAll]
    exact ⟨hleft.within ho, hv, trivial⟩

theorem Spills.within {e : Expr} {s s' : Supply} {out : Lowered} (h : Spills e s out s')
    (hw : e.Within s.temporaries) :
    s.temporaries ≤ s'.temporaries ∧ out.expr.Within s'.temporaries := by
  cases h with
  | symbol => exact ⟨Nat.le_refl _, hw⟩
  | literal => exact ⟨Nat.le_refl _, hw⟩
  | store => exact ⟨Nat.le_succ _, within_temporary _ (Nat.le_refl _)⟩

/-- A flat expression mentions declared variables and temporaries that were taken so far. -/
theorem Lowers.within {c : Typing} {e : Bound.Expr} (he : e.Typed c) {s s' : Supply}
    {out : Lowered} (h : Lowers r e s out s') :
    s.temporaries ≤ s'.temporaries ∧ out.expr.Within s'.temporaries := by
  induction e using Bound.Expr.induction generalizing s s' out with
  | literal | invalid =>
    cases h
    exact ⟨Nat.le_refl _, trivial⟩
  | group | typeName => exact he.elim
  | symbol span sym =>
    simp only [Bound.Expr.Typed] at he
    cases h
    exact ⟨Nat.le_refl _, fun n hn => absurd hn (not_isTemporary he.2 n)⟩
  | assign span target value ihparts ihv =>
    simp only [Bound.Expr.Typed] at he
    obtain ⟨-, ht, hv, -⟩ := he
    cases h with
    | assign hlowers =>
      simp only [Bound.Expr.Typed] at ht
      obtain ⟨hle, hw⟩ := ihv hv hlowers
      simp only [Expr.Within]
      exact ⟨hle, not_isTemporary ht.2, hw⟩
    | assignElement hall =>
      simp only [Bound.Expr.Typed] at ht
      obtain ⟨iha, ihi⟩ := ihparts _ _ _ _ rfl
      obtain ⟨hle, hw⟩ := hall.within
        (by simpa using ⟨fun h => iha ht.1 h, fun h => ihi ht.2.1 h, fun h => ihv hv h⟩) trivial
      simp only [Expr.Within]
      simp only [withinAll] at hw
      exact ⟨hle, hw.1, hw.2.1, hw.2.2.1⟩
  | compound span target operator value ihparts ihv =>
    simp only [Bound.Expr.Typed] at he
    obtain ⟨-, ht, hv, -⟩ := he
    cases h with
    | compound hlowers hmerge =>
      simp only [Bound.Expr.Typed] at ht
      obtain ⟨hle, hw⟩ := ihv hv hlowers
      simp only [Expr.Within]
      refine ⟨hle, not_isTemporary ht.2, hmerge.within ?_ hw⟩
      exact fun n hn => absurd hn (not_isTemporary ht.2 n)
    | compoundElement hall ha hi hmerge =>
      simp only [Bound.Expr.Typed] at ht
      obtain ⟨iha, ihi⟩ := ihparts _ _ _ _ rfl
      obtain ⟨hle, hw⟩ := hall.within
        (by simpa using ⟨fun h => iha ht.1 h, fun h => ihi ht.2.1 h, fun h => ihv hv h⟩) trivial
      simp only [withinAll] at hw
      obtain ⟨hle₁, hwa⟩ := ha.within hw.1
      obtain ⟨hle₂, hwi⟩ := hi.within (hw.2.1.mono hle₁)
      have hwa' := hwa.mono hle₂
      simp only [Expr.Within]
      refine ⟨by omega, hwa', hwi, hmerge.within ?_ (hw.2.2.1.mono (by omega))⟩
      simp only [Expr.Within]
      exact ⟨hwa', hwi⟩
  | binary span operator left right t ihl ihr =>
    simp only [Bound.Expr.Typed] at he
    cases h with
    | shortCircuit _ _ _ ha hb =>
      have hle := (ihl he.1 ha).1
      have hle' := (ihr he.2.1 hb).1
      simp only [Supply.temporaries_nextTemporary, Supply.temporaries_nextLabels] at hle hle'
      exact ⟨by omega, within_temporary _ (by omega)⟩
    | binary _ _ hall =>
      obtain ⟨hle, hw⟩ := hall.within
        (by simpa using ⟨fun h => ihl he.1 h, fun h => ihr he.2.1 h⟩) trivial
      simp only [withinAll] at hw
      simp only [Expr.Within]
      exact ⟨hle, hw.1, hw.2.1⟩
  | unary span operator operand t ih =>
    simp only [Bound.Expr.Typed] at he
    cases h with
    | unary _ hv =>
      simp only [Expr.Within]
      exact ih he.1 hv
  | call span callable args t ih =>
    simp only [Bound.Expr.Typed, Bound.typedAll_iff] at he
    cases h with
    | call hall =>
      simp only [Expr.Within]
      exact hall.within (fun e hmem {_ _ _} h => ih e hmem (he.1 e hmem) h) trivial
  | convert span kind operand t isExplicit ih =>
    simp only [Bound.Expr.Typed] at he
    cases h with
    | keep hv => exact ih he.1 hv
    | convert _ hv =>
      simp only [Expr.Within]
      exact ih he.1 hv
  | index span target index t iht ihi =>
    simp only [Bound.Expr.Typed] at he
    cases h with
    | index hall =>
      obtain ⟨hle, hw⟩ := hall.within
        (by simpa using ⟨fun h => iht he.1 h, fun h => ihi he.2.1 h⟩) trivial
      simp only [withinAll] at hw
      simp only [Expr.Within]
      exact ⟨hle, hw.1, hw.2.1⟩
  | length span target ih =>
    simp only [Bound.Expr.Typed] at he
    cases h with
    | length hv =>
      simp only [Expr.Within]
      exact ih he.1 hv
  | newArray span element size t ih =>
    simp only [Bound.Expr.Typed] at he
    cases h with
    | newArray hv =>
      simp only [Expr.Within]
      exact ih he.1 hv

end

/-! Conditions -/

section

variable (x : Environment)

theorem perform_pure {α : Type} (a : α) : perform (pure a : Effect α) = pure a := rfl

theorem perform_bind {α β : Type} (e : Effect α) (f : α → Effect β) :
    perform (e >>= f) = (do perform (f (← perform e))) := by
  funext σ
  cases he : e σ.shared with
  | ok a w =>
    rw [bind_ok (perform_ok he)]
    have hrun : (e >>= f) σ.shared = f a w := bind_ok he
    cases hf : f a w with
    | ok b w' => rw [perform_ok (hrun.trans hf), perform_ok hf]
    | error k w' => rw [perform_error (hrun.trans hf), perform_error hf]
  | error k w =>
    have hrun : (e >>= f) σ.shared = .error k w := bind_error he
    rw [bind_error (perform_error he), perform_error hrun]

/-- A value that is no truth value is stuck, be it negated or not. -/
theorem condition_negation (v : Value) :
    (do x.condition (← x.negation v)) = (do return !(← x.condition v)) := by
  cases v with
  | bool b => cases b <;> rfl
  | _ => rfl

def holds (e : Expr) : Run Bool := do x.condition (← eval x e)

theorem holds_not (e : Expr) (t : TypeId) :
    holds x (.unary (some (.unary .not)) e t) = (do return !(← holds x e)) := by
  have hcond : ∀ v, (do perform (x.condition (← perform (x.negation v)))) =
      (do return !(← perform (x.condition v)) : Run Bool) := by
    intro v
    rw [← perform_bind, condition_negation, perform_bind]
    rfl
  simp only [holds, eval, bind_assoc]
  exact congrArg _ (funext fun v => hcond v)

/-- The negation of a condition holds if the condition does not. -/
theorem holds_negate (e : Expr) : holds x (Lowering.negate e) = (do return !(← holds x e)) := by
  unfold Lowering.negate
  split
  · rw [holds_not]
    simp
  · rename_i v t
    cases v <;> rfl
  · exact holds_not x e _

end

section

variable {x : Environment} {body rest : List Stmt} {n : Nat} {e : Expr} {l : Label} {τ τ' : State}

theorem flow_jumpIf (x : Environment) (e : Expr) (l : Label) : (Stmt.jumpIf e l).flow x = (do
    if ← holds x e then return .jump l else return .next) := by
  simp only [Stmt.flow, holds, bind_assoc]

theorem exec_jumpIf {b : Bool} (h : holds x e τ = .ok b τ') :
    exec x body n (.jumpIf e l :: rest) τ =
      if b then jumpTo x body n l rest τ' else exec x body n rest τ' := by
  have hflow : (Stmt.jumpIf e l).flow x τ = .ok (if b then .jump l else .next) τ' := by
    rw [flow_jumpIf, bind_ok h]
    cases b <;> rfl
  rw [exec_cons, bind_ok hflow]
  cases b <;> rfl

theorem halts_jumpIf {stop : Halt} (h : holds x e τ = .error stop τ') (l : Label) :
    Halts x [.jumpIf e l] τ stop τ'.shared := by
  intro body n rest
  have hflow : (Stmt.jumpIf e l).flow x τ = .error stop τ' := by
    rw [flow_jumpIf, bind_error h]
  exact ⟨τ', by rw [List.singleton_append, exec_cons, bind_error hflow], rfl⟩

/-- A condition that does not hold lets the next statement follow. -/
theorem reaches_jumpIf (h : holds x e τ = .ok false τ') (l : Label) :
    Reaches x [.jumpIf e l] τ τ' := by
  refine ⟨fun body n rest => ?_, by simp⟩
  rw [List.singleton_append, exec_jumpIf h]
  rfl

/-- A condition that holds leads behind a label that comes later. -/
theorem reaches_jumpIf_label (h : holds x e τ = .ok true τ') {mid : List Stmt}
    (hl : l ∉ labelsOf mid) : Reaches x (Stmt.jumpIf e l :: mid ++ [Stmt.label l]) τ τ' := by
  refine ⟨fun body n rest => ?_, by simp⟩
  rw [List.append_assoc, List.cons_append, exec_jumpIf h]
  simp only [if_true]
  rw [jumpTo_append x body n hl, List.singleton_append, jumpTo_label]

end

/-! Expressions -/

section

variable {x : Environment}

def onPair {β : Type} (f : Value → Value → Run β) : List Value → Run β
  | [a, b] => f a b
  | _ => crash (α := β)

def onTriple {β : Type} (f : Value → Value → Value → Run β) : List Value → Run β
  | [a, b, c] => f a b c
  | _ => crash (α := β)

theorem matches_onPair {β : Type} {f : Value → Value → Run β} {σ τ : State}
    (h : ∀ a b, Matches Agree (f a b) (f a b) σ τ) (ha : Agree σ τ) (vs : List Value) :
    Matches Agree (onPair f vs) (onPair f vs) σ τ := by
  unfold onPair
  split
  · exact h _ _
  · exact Matches.effect _ ha

theorem matches_onTriple {β : Type} {f : Value → Value → Value → Run β} {σ τ : State}
    (h : ∀ a b c, Matches Agree (f a b c) (f a b c) σ τ) (ha : Agree σ τ) (vs : List Value) :
    Matches Agree (onTriple f vs) (onTriple f vs) σ τ := by
  unfold onTriple
  split
  · exact h _ _ _
  · exact Matches.effect _ ha

theorem evalAll_pair {β : Type} (a b : Expr) (f : Value → Value → Run β) :
    (do f (← eval x a) (← eval x b)) = evalAll x [a, b] >>= onPair f := by
  simp [evalAll, onPair]

theorem boundEvalAll_pair {β : Type} (a b : Bound.Expr) (f : Value → Value → Run β) :
    (do f (← Bound.eval x a) (← Bound.eval x b)) = Bound.evalAll x [a, b] >>= onPair f := by
  simp [Bound.evalAll, onPair]

theorem evalAll_triple {β : Type} (a b c : Expr) (f : Value → Value → Value → Run β) :
    (do f (← eval x a) (← eval x b) (← eval x c)) = evalAll x [a, b, c] >>= onTriple f := by
  simp [evalAll, onTriple]

theorem boundEvalAll_triple {β : Type} (a b c : Bound.Expr) (f : Value → Value → Value → Run β) :
    (do f (← Bound.eval x a) (← Bound.eval x b) (← Bound.eval x c)) =
      Bound.evalAll x [a, b, c] >>= onTriple f := by
  simp [Bound.evalAll, onTriple]

/-- Operands behind those that are done. -/
theorem LowersAll.simulates_from {r : Registry} {es : List Bound.Expr}
    (hes : ∀ e ∈ es, ∀ {s s' out}, Lowers r e s out s' →
      (s.temporaries ≤ s'.temporaries ∧ out.expr.Within s'.temporaries) ∧
      Simulates x s.temporaries s'.temporaries (Bound.eval x e) out.before (eval x out.expr))
    {before before' : List Stmt} {done done' : List Expr} {s s' : Supply}
    (h : LowersAll r before done es s before' done' s') {lo : Nat} (hlo : lo ≤ s.temporaries)
    {es₀ : List Bound.Expr}
    (hdone : Simulates x lo s.temporaries (Bound.evalAll x es₀) before (evalAll x done))
    (hw : withinAll s.temporaries done) :
    Simulates x lo s'.temporaries (Bound.evalAll x (es₀ ++ es)) before' (evalAll x done') := by
  induction es generalizing before done s es₀ with
  | nil =>
    cases h
    rwa [List.append_nil]
  | cons e rest ih =>
    cases h with
    | cons he hjoin hrest =>
      rw [List.forall_mem_cons] at hes
      obtain ⟨⟨hle, hnext⟩, hsim⟩ := hes.1 he
      obtain ⟨hle', hw'⟩ := hjoin.within hle hw hnext
      have hstep := hjoin.simulates hlo hle hdone hw hsim
      have htail := ih hes.2 hrest (by omega) hstep hw'
      rwa [List.append_assoc] at htail

/-- Operands in order. -/
theorem LowersAll.simulates {r : Registry} {es : List Bound.Expr}
    (hes : ∀ e ∈ es, ∀ {s s' out}, Lowers r e s out s' →
      (s.temporaries ≤ s'.temporaries ∧ out.expr.Within s'.temporaries) ∧
      Simulates x s.temporaries s'.temporaries (Bound.eval x e) out.before (eval x out.expr))
    {before : List Stmt} {flat : List Expr} {s s' : Supply}
    (h : LowersAll r [] [] es s before flat s') :
    Simulates x s.temporaries s'.temporaries (Bound.evalAll x es) before (evalAll x flat) := by
  have hstart : Simulates x s.temporaries s.temporaries (Bound.evalAll x []) [] (evalAll x []) := by
    simp only [evalAll, Bound.evalAll]
    exact Simulates.of_matches fun σ τ ha => Matches.pure _ ha
  exact h.simulates_from hes (Nat.le_refl _) hstart trivial

end

section

variable {x : Environment}

theorem condition_stuck {v : Value} (h : ∀ b, v ≠ .bool b) (w : Shared) :
    x.condition v w = .error .stuck w := by
  cases v with
  | bool b => exact absurd rfl (h b)
  | _ => rfl

/-- Whether the left operand decides, in terms of its value. -/
theorem holds_decided {op : BinaryOperator} (h : op.isShortCircuit) (n : Nat) (τ : State) :
    holds x (decided op (temporary n (.builtin .bool))) τ =
      (do return (← perform (x.condition (τ.locals (temporary n (.builtin .bool))))) ==
        (op == .orElse) : Run Bool) τ := by
  have hsymbol : holds x (.symbol (temporary n (.builtin .bool))) τ =
      perform (x.condition (τ.locals (temporary n (.builtin .bool)))) τ := by
    rw [holds, bind_ok (eval_temporary x n _ τ)]
    rfl
  obtain rfl | rfl : op = .andAlso ∨ op = .orElse := by
    cases op <;> simp_all [BinaryOperator.isShortCircuit]
  · rw [decided, if_pos rfl, holds_negate]
    cases hc : perform (x.condition (τ.locals (temporary n (.builtin .bool)))) τ with
    | ok b τ' =>
      rw [bind_ok (hsymbol.trans hc), bind_ok hc]
      cases b <;> rfl
    | error k τ' => rw [bind_error (hsymbol.trans hc), bind_error hc]
  · rw [decided, if_neg (by simp)]
    cases hc : perform (x.condition (τ.locals (temporary n (.builtin .bool)))) τ with
    | ok b τ' =>
      rw [hsymbol, hc, bind_ok hc]
      cases b <;> rfl
    | error k τ' => rw [hsymbol, hc, bind_error hc]

/-- An operator that skips its right operand if the left one decides. -/
theorem Simulates.shortCircuit {op : BinaryOperator} (hop : op.isShortCircuit) {m m' : Run Value}
    {k k₁ k₂ : Nat} {a b : Lowered} {done : Label}
    (ha : Simulates x (k + 1) k₁ m a.before (eval x a.expr)) (hwa : a.expr.Within k₁)
    (hb : Simulates x k₁ k₂ m' b.before (eval x b.expr)) (hwb : b.expr.Within k₂)
    (hk : k + 1 ≤ k₁) (hk' : k₁ ≤ k₂) (hdone : done ∉ labelsOf b.before) :
    Simulates x k k₂ (Bound.shortCircuit x (op == .orElse) m m')
      ([Stmt.declare (temporary (k + 1) (.builtin .bool))] ++ a.before ++
        [Stmt.eval (.assign (temporary (k + 1) (.builtin .bool)) a.expr),
          .jumpIf (decided op (temporary (k + 1) (.builtin .bool))) done] ++
        b.before ++ [Stmt.eval (.assign (temporary (k + 1) (.builtin .bool)) b.expr), .label done])
      (eval x (.symbol (temporary (k + 1) (.builtin .bool)))) := by
  intro σ τ hagree
  generalize ht : temporary (k + 1) (.builtin .bool) = t
  have hset : ∀ {P : Nat → Prop} (υ : State) (v : Value), ¬P (k + 1) →
      Alike P υ (setLocal υ t v) := fun υ v hP => ht ▸ alike_setLocal υ v hP
  have hshape : [Stmt.declare t] ++ a.before ++
      [Stmt.eval (.assign t a.expr), .jumpIf (decided op t) done] ++ b.before ++
      [Stmt.eval (.assign t b.expr), .label done] =
      ([Stmt.declare t] ++ a.before ++ [Stmt.eval (.assign t a.expr)]) ++
      ([Stmt.jumpIf (decided op t) done] ++ b.before ++ [Stmt.eval (.assign t b.expr)] ++
      [Stmt.label done]) := by simp
  rw [hshape]
  obtain ⟨τ₁, hreach, hkeep, hmatch⟩ | ⟨stop, σ', hrun, hhalts⟩ := ha σ τ hagree
  · have hstart := (reaches_declare x t τ).append hreach
    cases hmatch with
    | @error stop σ' τ' hrun hrun' hshared =>
      refine .inr ⟨stop, σ', bind_error hrun, ?_⟩
      rw [← hshared]
      exact (hstart.halts (halts_eval (eval_assign_error hrun'))).append _
    | @ok v σ₁ τ₂ hrun hrun' ha₂ =>
      have hfirst : Reaches x ([Stmt.declare t] ++ a.before ++ [Stmt.eval (.assign t a.expr)]) τ
          (setLocal τ₂ t v) := hstart.append (reaches_eval (ht ▸ eval_assign_temporary hrun'))
      have ha₃ : Agree σ₁ (setLocal τ₂ t v) := ha₂.trans (hset τ₂ v (by simp))
      have hkeep₃ : Keeps (Outside k k₂) τ (setLocal τ₂ t v) := by
        refine (Keeps.trans (hkeep.imp fun n hn => ?_)
          ((spares_eval hwa _ _ _ hrun').imp fun _ _ => trivial)).trans
          (hset τ₂ v (by simp [Outside]; omega)).keeps
        unfold Outside at hn ⊢
        omega
      have hvalue : (setLocal τ₂ t v).locals t = v := setLocal_self τ₂ t v
      have hholds := holds_decided (x := x) hop (k + 1) (setLocal τ₂ t v)
      rw [ht, hvalue] at hholds
      by_cases hbool : ∃ c, v = .bool c
      · obtain ⟨c, rfl⟩ := hbool
        have hcond : ∀ υ : State, perform (x.condition (.bool c)) υ = .ok c υ := fun _ => rfl
        rw [bind_ok (hcond _)] at hholds
        have hbound : Bound.shortCircuit x (op == .orElse) m m' σ =
            (if c = (op == .orElse) then return .bool (op == .orElse) else m' : Run Value) σ₁ :=
          (bind_ok hrun).trans (bind_ok (hcond σ₁))
        by_cases hc : c = (op == .orElse)
        · rw [if_pos hc] at hbound
          refine .inl ⟨setLocal τ₂ t (.bool c), hfirst.append ?_, hkeep₃, ?_⟩
          · have hjump : holds x (decided op t) (setLocal τ₂ t (.bool c)) =
                .ok true (setLocal τ₂ t (.bool c)) := by
              rw [hholds, hc]
              simp
              rfl
            exact reaches_jumpIf_label hjump (by simpa using hdone)
          · refine .ok hbound ?_ ha₃
            rw [← ht, eval_temporary, ht, hvalue, hc]
        · rw [if_neg hc] at hbound
          have hstay : holds x (decided op t) (setLocal τ₂ t (.bool c)) =
              .ok false (setLocal τ₂ t (.bool c)) := by
            rw [hholds]
            simp only [beq_eq_false_iff_ne.mpr hc]
            rfl
          have hsecond := hfirst.append (reaches_jumpIf hstay done)
          obtain ⟨τ₄, hreach₄, hkeep₄, hmatch₄⟩ | ⟨stop, σ', hrun₄, hhalts⟩ := hb σ₁ _ ha₃
          · have hthird := hsecond.append hreach₄
            cases hmatch₄ with
            | @error stop σ' τ' hrun₅ hrun₅' hshared =>
              refine .inr ⟨stop, σ', hbound.trans hrun₅, ?_⟩
              rw [← hshared]
              have hhalts := (hthird.halts (halts_eval (eval_assign_error (s := t) hrun₅'))).append
                [.label done]
              simpa using hhalts
            | @ok w σ₂ τ₅ hrun₅ hrun₅' ha₅ =>
              have hlast := (hthird.append (reaches_eval (ht ▸ eval_assign_temporary hrun₅'))).append
                (reaches_label x done _)
              refine .inl ⟨setLocal τ₅ t w, by simpa using hlast, ?_, ?_⟩
              · refine ((hkeep₃.trans (hkeep₄.imp fun n hn => ?_)).trans
                  ((spares_eval hwb _ _ _ hrun₅').imp fun _ _ => trivial)).trans
                  (hset τ₅ w (by simp [Outside]; omega)).keeps
                unfold Outside at hn ⊢
                omega
              · refine .ok (hbound.trans hrun₅) ?_ (ha₅.trans (hset τ₅ w (by simp)))
                rw [← ht, eval_temporary, ht, setLocal_self]
          · refine .inr ⟨stop, σ', hbound.trans hrun₄, ?_⟩
            simpa using (hsecond.halts hhalts).append [.eval (.assign t b.expr), .label done]
      · have hstuck : ∀ υ : State, perform (x.condition v) υ = .error .stuck υ := fun υ =>
          perform_error (condition_stuck (fun c hc => hbool ⟨c, hc⟩) υ.shared)
        rw [bind_error (hstuck _)] at hholds
        refine .inr ⟨.stuck, σ₁, (bind_ok hrun).trans (bind_error (hstuck σ₁)), ?_⟩
        rw [← ha₃.shared]
        simpa using (hfirst.halts (halts_jumpIf hholds done)).append
          (b.before ++ [Stmt.eval (.assign t b.expr), .label done])
  · exact .inr ⟨stop, σ', bind_error hrun,
      (((reaches_declare x t τ).halts hhalts).append _).append _⟩

/-- The meaning of operators that evaluate both operands. -/
theorem boundEval_binary {span : Span} {operator t : TypeId} {left right : Bound.Expr}
    {info : Callable} (hinfo : x.registry.callable operator = .ok info)
    (hop : ∀ op, info.op? = some (.binary op) → op.isShortCircuit = false) :
    Bound.eval x (.binary span operator left right t) = (do
      let a ← Bound.eval x left
      let b ← Bound.eval x right
      x.binary info.op? (info.params.headD t) a b) := by
  simp only [Bound.eval, hinfo]
  split
  · rename_i h
    cases hop _ h
  · rename_i h
    cases hop _ h
  · rfl

/-- The meaning of operators that skip an operand. -/
theorem boundEval_shortCircuit {span : Span} {operator t : TypeId} {left right : Bound.Expr}
    {info : Callable} {op : BinaryOperator} (hinfo : x.registry.callable operator = .ok info)
    (hop : info.op? = some (.binary op)) (hshort : op.isShortCircuit) :
    Bound.eval x (.binary span operator left right t) =
      Bound.shortCircuit x (op == .orElse) (Bound.eval x left) (Bound.eval x right) := by
  simp only [Bound.eval, hinfo, hop]
  cases op <;> first | rfl | cases hshort

end

end Flat
end TypedScript
