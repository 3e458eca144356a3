import TypedScript.Proofs.Execution.Expressions

/-!
# Flattening expressions

Flattening an expression keeps its meaning: what runs before the flat expression and the expression
itself have together the value and the effects of the bound expression, in the same order. A compound
assignment keeps its order where nothing has to run before its second operand, and where a variable
that holds the array is not passed over by the evaluation of the index.
-/

namespace TypedScript

def Registry.Skips (r : Registry) (operator : TypeId) : Prop :=
  ∃ info op, r.callable operator = .ok info ∧ info.op? = some (.binary op) ∧ op.isShortCircuit

namespace Bound

def Expr.IsAtom : Expr → Prop
  | .literal _ _ _ | .symbol _ _ => True
  | .convert _ kind operand _ _ => kind = .identity ∧ operand.IsAtom
  | _ => False

/-- A variable that can be set, unlike a parameter or a field of the library. -/
def Expr.IsVariable : Expr → Prop
  | .symbol _ s => (∀ i, s.kind ≠ .parameter i) ∧ ∀ path, s.kind ≠ .libraryField path
  | .convert _ kind operand _ _ => kind = .identity ∧ operand.IsVariable
  | _ => False

mutual

/-- The flat form of the expression has nothing to run before it. -/
def Expr.IsDirect (r : Registry) : Expr → Prop
  | .assign _ (.index _ array index _) value =>
    array.IsDirect r ∧ index.IsDirect r ∧ value.IsDirect r
  | .assign _ _ value => value.IsDirect r
  | .compound _ (.index _ array index _) _ value => array.IsAtom ∧ index.IsAtom ∧ value.IsDirect r
  | .compound _ _ _ value => value.IsDirect r
  | .binary _ operator left right _ => ¬r.Skips operator ∧ left.IsDirect r ∧ right.IsDirect r
  | .unary _ _ operand _ | .convert _ _ operand _ _ => operand.IsDirect r
  | .call _ _ args _ => directAll r args
  | .index _ target index _ => target.IsDirect r ∧ index.IsDirect r
  | .length _ target => target.IsDirect r
  | .newArray _ _ size _ => size.IsDirect r
  | .literal _ _ _ | .symbol _ _ | .group _ _ _ | .typeName _ _ | .invalid _ _ => True

/-- The flat forms of the expressions have nothing to run before them. -/
def directAll (r : Registry) : List Expr → Prop
  | [] => True
  | e :: rest => e.IsDirect r ∧ directAll r rest

end

/-- The array of an element is evaluated before its index, also when the index is kept for later: the
array is no variable, or the index is a variable or a constant, or something has to run before it. -/
def Settled (r : Registry) (array index : Expr) : Prop :=
  array.IsVariable → index.IsAtom ∨ ¬index.IsDirect r

mutual

/-- In every compound assignment of the expression the array comes before the index, and nothing has to
run before the second operand. -/
def Expr.Orderly (r : Registry) : Expr → Prop
  | .compound _ (.index _ array index _) _ value =>
    Settled r array index ∧ array.Orderly r ∧ index.Orderly r ∧ value.IsDirect r ∧ value.Orderly r
  | .compound _ _ _ value => value.IsDirect r ∧ value.Orderly r
  | .assign _ (.index _ array index _) value =>
    array.Orderly r ∧ index.Orderly r ∧ value.Orderly r
  | .assign _ _ value => value.Orderly r
  | .binary _ _ left right _ => left.Orderly r ∧ right.Orderly r
  | .unary _ _ operand _ | .convert _ _ operand _ _ => operand.Orderly r
  | .call _ _ args _ => orderlyAll r args
  | .index _ target index _ => target.Orderly r ∧ index.Orderly r
  | .length _ target => target.Orderly r
  | .newArray _ _ size _ => size.Orderly r
  | .literal _ _ _ | .symbol _ _ | .group _ _ _ | .typeName _ _ | .invalid _ _ => True

/-- Every compound assignment in the expressions is in order. -/
def orderlyAll (r : Registry) : List Expr → Prop
  | [] => True
  | e :: rest => e.Orderly r ∧ orderlyAll r rest

end

theorem directAll_iff {r : Registry} {es : List Expr} :
    directAll r es ↔ ∀ e ∈ es, e.IsDirect r := by
  induction es with
  | nil => simp [directAll]
  | cons e es ih => simp [directAll, ih]

theorem orderlyAll_iff {r : Registry} {es : List Expr} :
    orderlyAll r es ↔ ∀ e ∈ es, e.Orderly r := by
  induction es with
  | nil => simp [orderlyAll]
  | cons e es ih => simp [orderlyAll, ih]

theorem Expr.IsAtom.isDirect {r : Registry} {e : Expr} (h : e.IsAtom) : e.IsDirect r := by
  induction e using Expr.induction with
  | literal | symbol => trivial
  | convert span kind operand t isExplicit ih =>
    simp only [Expr.IsAtom] at h
    simp only [Expr.IsDirect]
    exact ih h.2
  | _ => exact h.elim

/-- Without compound assignments all is in order. -/
theorem Expr.NoCompound.orderly {r : Registry} {e : Expr} (h : e.NoCompound) : e.Orderly r := by
  induction e using Expr.induction with
  | literal | symbol | group | typeName | invalid => trivial
  | compound => exact h.elim
  | assign span target value ihparts ihv =>
    simp only [Expr.NoCompound] at h
    cases target with
    | index span' array index t =>
      obtain ⟨iha, ihi⟩ := ihparts _ _ _ _ rfl
      simp only [Expr.NoCompound] at h
      simp only [Expr.Orderly]
      exact ⟨iha h.1.1, ihi h.1.2, ihv h.2⟩
    | _ => exact ihv h.2
  | binary span operator left right t ihl ihr =>
    simp only [Expr.NoCompound] at h
    simp only [Expr.Orderly]
    exact ⟨ihl h.1, ihr h.2⟩
  | index span target index t iht ihi =>
    simp only [Expr.NoCompound] at h
    simp only [Expr.Orderly]
    exact ⟨iht h.1, ihi h.2⟩
  | call span callable args t ih =>
    simp only [Expr.NoCompound, noCompoundAll_iff] at h
    simp only [Expr.Orderly, orderlyAll_iff]
    exact fun e he => ih e he (h e he)
  | unary span operator operand t ih =>
    simp only [Expr.NoCompound] at h
    simp only [Expr.Orderly]
    exact ih h
  | convert span kind operand t isExplicit ih =>
    simp only [Expr.NoCompound] at h
    simp only [Expr.Orderly]
    exact ih h
  | length span target ih =>
    simp only [Expr.NoCompound] at h
    simp only [Expr.Orderly]
    exact ih h
  | newArray span element size t ih =>
    simp only [Expr.NoCompound] at h
    simp only [Expr.Orderly]
    exact ih h

end Bound
namespace Flat

open Execution

def Expr.IsAtom : Expr → Prop
  | .literal _ _ | .symbol _ => True
  | _ => False

section

variable {r : Registry}

theorem Lowers.isAtom_iff {e : Bound.Expr} {s s' : Supply} {out : Lowered}
    (h : Lowers r e s out s') (hb : out.before = []) : out.expr.IsAtom ↔ e.IsAtom := by
  induction e using Bound.Expr.induction generalizing s s' out with
  | convert span kind operand t isExplicit ih =>
    simp only [Bound.Expr.IsAtom]
    cases h with
    | keep hv => simpa using ih hv hb
    | convert hkind hv => simp [Expr.IsAtom, hkind]
  | binary span operator left right t ihl ihr =>
    cases h with
    | shortCircuit => simp at hb
    | binary => simp [Expr.IsAtom, Bound.Expr.IsAtom]
  | _ =>
    cases h
    all_goals simp [Expr.IsAtom, Bound.Expr.IsAtom]

/-- A flat variable that may change was a variable before. -/
theorem Lowers.isVariable {e : Bound.Expr} {s s' : Supply} {out : Lowered}
    (h : Lowers r e s out s') (ha : out.expr.IsAtom) (hs : Lowering.isStable out.expr = false) :
    e.IsVariable := by
  induction e using Bound.Expr.induction generalizing s s' out with
  | symbol span sym =>
    cases h
    simp only [Bound.Expr.IsVariable]
    obtain ⟨id, name, kind, type, readonly⟩ := sym
    cases id <;> cases kind <;> simp_all [Lowering.isStable]
  | convert span kind operand t isExplicit ih =>
    simp only [Bound.Expr.IsVariable]
    cases h with
    | keep hv => exact ⟨rfl, ih hv ha hs⟩
    | convert hkind hv => exact ha.elim
  | binary span operator left right t ihl ihr =>
    cases h with
    | shortCircuit => cases hs
    | binary => exact ha.elim
  | literal =>
    cases h
    cases hs
  | _ =>
    cases h
    all_goals exact ha.elim

theorem LowersAll.before_eq_nil_iff {es : List Bound.Expr}
    (hes : ∀ e ∈ es, ∀ {s s' out}, Lowers r e s out s' → (out.before = [] ↔ e.IsDirect r))
    {before before' : List Stmt} {done done' : List Expr} {s s' : Supply}
    (h : LowersAll r before done es s before' done' s') :
    before' = [] ↔ before = [] ∧ ∀ e ∈ es, e.IsDirect r := by
  induction es generalizing before done s with
  | nil =>
    cases h
    simp
  | cons e rest ih =>
    cases h with
    | cons he hjoin hrest =>
      rw [List.forall_mem_cons] at hes ⊢
      rw [ih hes.2 hrest, ← hes.1 he]
      cases hjoin with
      | plain hempty => simp [hempty]
      | keep hne hoists => simp [hne]

/-- The first operand is as it was or, if something runs before the second one, kept for later. -/
theorem LowersAll.pair {array index : Bound.Expr} {before : List Stmt} {a i : Expr} {s s' : Supply}
    (h : LowersAll r [] [] [array, index] s before [a, i] s') :
    ∃ (s₁ s₂ s₃ : Supply) (first second : Lowered), Lowers r array s first s₁ ∧
      Lowers r index s₂ second s₃ ∧ i = second.expr ∧
      (second.before = [] ∧ a = first.expr ∨ second.before ≠ [] ∧ Lowering.isStable a) := by
  cases h with
  | @cons _ b _ _ d _ _ _ _ s₁ s₂ _ first ha hja hrest =>
    have hd : d = [first.expr] := by
      cases hja with
      | plain => rfl
      | keep _ hoists =>
        cases hoists
        rfl
    subst hd
    cases hrest with
    | @cons _ _ _ _ _ _ _ _ _ s₃ _ _ second hi hji hnil =>
      cases hnil
      refine ⟨s₁, s₂, s₃, first, second, ha, hi, ?_⟩
      generalize hd : [a, i] = d at hji
      cases hji with
      | plain hempty =>
        simp only [List.cons_append, List.nil_append, List.cons.injEq, and_true] at hd
        exact ⟨hd.2, .inl ⟨hempty, hd.1⟩⟩
      | keep hne hoists =>
        cases hoists with
        | stable hstable hnil =>
          cases hnil
          simp only [List.cons_append, List.nil_append, List.cons.injEq, and_true] at hd
          exact ⟨hd.2, .inr ⟨hne, hd.1 ▸ hstable⟩⟩
        | store _ hnil =>
          cases hnil
          simp only [List.cons_append, List.nil_append, List.cons.injEq, and_true] at hd
          exact ⟨hd.2, .inr ⟨hne, hd.1 ▸ rfl⟩⟩

/-- An operand with nothing to run before it joins two others as it is. -/
theorem LowersAll.triple {array index value : Bound.Expr} {before : List Stmt} {a i v : Expr}
    {s s' : Supply} (h : LowersAll r [] [] [array, index, value] s before [a, i, v] s')
    (hdirect : ∀ {s s' out}, Lowers r value s out s' → out.before = []) :
    ∃ s₁ next, LowersAll r [] [] [array, index] s before [a, i] s₁ ∧ Lowers r value s₁ next s' ∧
      next.before = [] ∧ next.expr = v := by
  cases h with
  | cons ha hja hrest =>
    cases hrest with
    | cons hi hji hrest' =>
      cases hrest' with
      | @cons _ _ _ _ _ _ _ _ _ _ _ _ next hv hjv hnil =>
        cases hnil
        have hempty := hdirect hv
        generalize hd : [a, i, v] = d at hjv
        cases hjv with
        | keep hne => exact absurd hempty hne
        | plain =>
          have hd : [a, i] ++ [v] = _ ++ [next.expr] := hd
          obtain ⟨hd, hlast⟩ := List.append_inj' hd rfl
          simp only [List.cons.injEq, and_true] at hlast
          subst hd
          exact ⟨_, next, .cons ha hja (.cons hi hji .nil), hv, hempty, hlast.symm⟩

theorem Spills.before_eq_nil_iff {e : Expr} {s s' : Supply} {out : Lowered}
    (h : Spills e s out s') : out.before = [] ↔ e.IsAtom := by
  cases h with
  | symbol => simp [Expr.IsAtom]
  | literal => simp [Expr.IsAtom]
  | store hsymbol hliteral =>
    have hatom : ¬e.IsAtom := by
      intro h
      cases e with
      | symbol sym => exact hsymbol sym rfl
      | literal v t => exact hliteral v t rfl
      | _ => exact h
    simp [Lowering.store, hatom]

/-- Nothing has to run before an expression exactly if it is direct. -/
theorem Lowers.before_eq_nil_iff {e : Bound.Expr} {s s' : Supply} {out : Lowered}
    (h : Lowers r e s out s') : out.before = [] ↔ e.IsDirect r := by
  induction e using Bound.Expr.induction generalizing s s' out with
  | literal | symbol | group | typeName | invalid =>
    cases h
    simp [Bound.Expr.IsDirect]
  | assign span target value ihparts ihv =>
    cases h with
    | assign hv => simpa [Bound.Expr.IsDirect] using ihv hv
    | assignElement hall =>
      obtain ⟨iha, ihi⟩ := ihparts _ _ _ _ rfl
      have hnil := hall.before_eq_nil_iff
        (by simpa using ⟨fun h => iha h, fun h => ihi h, fun h => ihv h⟩)
      simpa [Bound.Expr.IsDirect] using hnil
  | compound span target operator value ihparts ihv =>
    cases h with
    | compound hv => simpa [Bound.Expr.IsDirect] using ihv hv
    | @compoundElement _ _ array index _ _ _ _ _ _ _ before a i v a' i' _ hall ha hi _ =>
      obtain ⟨iha, ihi⟩ := ihparts _ _ _ _ rfl
      have hnil := hall.before_eq_nil_iff
        (by simpa using ⟨fun h => iha h, fun h => ihi h, fun h => ihv h⟩)
      simp only [List.forall_mem_cons, List.not_mem_nil, false_implies, implies_true, and_true,
        true_and] at hnil
      simp only [List.append_eq_nil_iff, ha.before_eq_nil_iff, hi.before_eq_nil_iff, hnil,
        Bound.Expr.IsDirect]
      constructor
      · rintro ⟨⟨⟨hda, hdi, hdv⟩, haa⟩, hai⟩
        obtain ⟨s₁, next, hpair, -, -, -⟩ := hall.triple fun h => (ihv h).mpr hdv
        obtain ⟨_, _, _, first, second, hfirst, hsecond, rfl, ⟨hempty, rfl⟩ | ⟨hne, -⟩⟩ := hpair.pair
        · exact ⟨(hfirst.isAtom_iff ((iha hfirst).mpr hda)).mp haa,
            (hsecond.isAtom_iff hempty).mp hai, hdv⟩
        · exact absurd ((ihi hsecond).mpr hdi) hne
      · rintro ⟨haa, hai, hdv⟩
        obtain ⟨s₁, next, hpair, -, -, -⟩ := hall.triple fun h => (ihv h).mpr hdv
        obtain ⟨_, _, _, first, second, hfirst, hsecond, rfl, ⟨hempty, rfl⟩ | ⟨hne, -⟩⟩ := hpair.pair
        · exact ⟨⟨⟨haa.isDirect, hai.isDirect, hdv⟩,
            (hfirst.isAtom_iff ((iha hfirst).mpr haa.isDirect)).mpr haa⟩,
            (hsecond.isAtom_iff hempty).mpr hai⟩
        · exact absurd ((ihi hsecond).mpr hai.isDirect) hne
  | binary span operator left right t ihl ihr =>
    simp only [Bound.Expr.IsDirect]
    cases h with
    | @shortCircuit _ _ _ _ _ info op _ _ _ _ _ hinfo hop hshort ha hb =>
      have hskips : r.Skips operator := ⟨info, op, hinfo, hop, hshort⟩
      simp [hskips]
    | @binary _ _ _ _ _ info _ _ _ _ _ hinfo hop hall =>
      have hskips : ¬r.Skips operator := by
        rintro ⟨info', op, hinfo', hop', hshort⟩
        rw [hinfo] at hinfo'
        cases hinfo'
        rw [hop op hop'] at hshort
        cases hshort
      have hnil := hall.before_eq_nil_iff (by simpa using ⟨fun h => ihl h, fun h => ihr h⟩)
      simpa [hskips] using hnil
  | unary span operator operand t ih =>
    cases h with
    | unary _ hv => simpa [Bound.Expr.IsDirect] using ih hv
  | call span callable args t ih =>
    cases h with
    | call hall =>
      have hnil := hall.before_eq_nil_iff fun e he {_ _ _} h => ih e he h
      simpa [Bound.Expr.IsDirect, Bound.directAll_iff] using hnil
  | convert span kind operand t isExplicit ih =>
    cases h with
    | keep hv => simpa [Bound.Expr.IsDirect] using ih hv
    | convert _ hv => simpa [Bound.Expr.IsDirect] using ih hv
  | index span target index t iht ihi =>
    cases h with
    | index hall =>
      have hnil := hall.before_eq_nil_iff (by simpa using ⟨fun h => iht h, fun h => ihi h⟩)
      simpa [Bound.Expr.IsDirect] using hnil
  | length span target ih =>
    cases h with
    | length hv => simpa [Bound.Expr.IsDirect] using ih hv
  | newArray span element size t ih =>
    cases h with
    | newArray hv => simpa [Bound.Expr.IsDirect] using ih hv

end

/-! Evaluation -/

section

variable {x : Environment} {r : Registry}

theorem Converts.eval_eq (hx : x.registry = r) {e out : Expr} {t : TypeId}
    (h : Converts r e t out) : eval x out = (do Bound.adapt x e.type t (← eval x e)) := by
  subst hx
  have hsame : ∀ {f : Value → Effect Value}, (∀ v, f v = pure v) →
      eval x e = (do perform (f (← eval x e))) := by
    intro f hf
    simp only [hf, perform_pure, bind_pure]
  cases h with
  | same h =>
    refine hsame fun v => ?_
    unfold Bound.adapt
    split
    · rfl
    · rename_i hne
      rw [h.resolve_left hne]
      rfl
  | @convert kind hne hclass hkind =>
    have hadapt : ∀ v, Bound.adapt x e.type t v = x.conversion kind e.type t v := by
      intro v
      simp only [Bound.adapt, if_neg hne, hclass]
    simp only [eval, hadapt]

/-- The right-hand side of a compound assignment reads the target before it evaluates the operand. -/
theorem Merges.eval_eq (hx : x.registry = r) {operator : TypeId} {old value result : Expr}
    (h : Merges r operator old value result) :
    eval x result = (do
      let left ← Bound.operand x operator old.type (← eval x old)
      let v ← eval x value
      Bound.combine x operator old.type left v) := by
  obtain ⟨info, left, hinfo, hleft, hresult⟩ := h
  have hinfo' : x.registry.callable operator = .ok info := hx ▸ hinfo
  have htype : (applied info operator old left value).type = info.result := by
    unfold applied
    split <;> rfl
  have happlied : eval x (applied info operator old left value) = (do
      let l ← Bound.operand x operator old.type (← eval x old)
      let v ← eval x value
      (if info.isIntrinsic then x.binary info.op? (info.params.headD old.type) l v
        else x.invoke operator [l, v] : Effect Value)) := by
    have hoperand : ∀ o, Bound.operand x operator old.type o =
        Bound.adapt x old.type (info.params.headD old.type) o := by
      intro o
      simp only [Bound.operand, hinfo']
    unfold applied
    split
    · simp only [eval, hleft.eval_eq hx, bind_assoc, hoperand]
    · simp only [eval, evalAll, hleft.eval_eq hx, bind_assoc, pure_bind, hoperand]
  rw [hresult.eval_eq hx, happlied, htype]
  simp only [bind_assoc]
  refine congrArg _ (funext fun o => congrArg _ (funext fun l => congrArg _ (funext fun v => ?_)))
  simp only [Bound.combine, hinfo']
  by_cases hop : info.isIntrinsic
  · simp only [hop, if_true]
    exact (perform_bind _ _).symm
  · simp only [hop]
    exact (perform_bind _ _).symm

/-- A variable or a constant is read without an effect, or not at all. -/
theorem eval_atom {e : Expr} (h : e.IsAtom) (τ : State) :
    (∃ v, eval x e τ = .ok v τ) ∨ ∃ stop, eval x e τ = .error stop τ := by
  cases e with
  | literal v t =>
    simp only [eval]
    exact .inl ⟨_, rfl⟩
  | symbol s =>
    simp only [eval, Environment.read]
    cases s.kind with
    | localVariable | parameter | globalVariable | libraryField => exact .inl ⟨_, rfl⟩
    | overloads => exact .inr ⟨_, rfl⟩
  | _ => exact h.elim

/-- An array and an index that are variables or constants have the same values when they are read
again. -/
theorem eval_again {β : Type} {a i : Expr} (ha : a.IsAtom) (hi : i.IsAtom)
    (f : Value → Value → Value → Value → Run β) :
    (do
      let u ← eval x a
      let v ← eval x i
      let u' ← eval x a
      let v' ← eval x i
      f u v u' v') = (do
      let u ← eval x a
      let v ← eval x i
      f u v u v) := by
  funext τ
  obtain ⟨u, hu⟩ | ⟨stop, hstop⟩ := eval_atom (x := x) ha τ
  · obtain ⟨v, hv⟩ | ⟨stop, hstop⟩ := eval_atom (x := x) hi τ
    · simp only [bind_ok hu, bind_ok hv]
    · simp only [bind_ok hu, bind_error hstop]
  · simp only [bind_error hstop]

/-- A stable operand may be read behind another one as well. -/
theorem eval_swap {β : Type} {k : Nat} {c i : Expr} (hc : Lowering.isStable c) (hwc : c.Within k)
    (hwi : i.Within k) (f : Value → Value → Run β) :
    (do
      let u ← eval x c
      let v ← eval x i
      f u v) = (do
      let v ← eval x i
      let u ← eval x c
      f u v) := by
  funext τ
  obtain ⟨u, hu⟩ := eval_stable (x := x) hc hwc τ
  rw [bind_ok (hu τ (Keeps.refl _ τ))]
  cases hi : eval x i τ with
  | error stop τ' => simp only [bind_error hi]
  | ok v τ' =>
    have hkeep : Keeps (· ≤ k) τ τ' := (spares_eval hwi τ v τ' hi).imp fun _ _ => trivial
    simp only [bind_ok hi, bind_ok (hu τ' hkeep)]

/-- An expression is stored ahead of what comes after it. -/
theorem Spills.simulates {β : Type} {lo k : Nat} {m : Run β} {before : List Stmt} {a : Expr}
    {g : Value → Run β} (hsim : Simulates x lo k m before (do g (← eval x a))) (hlo : lo ≤ k)
    (hw : a.Within k)
    (hg : ∀ v {σ τ}, Alike (· ≤ k) σ τ → Matches (Alike (· ≤ k)) (g v) (g v) σ τ)
    {s s' : Supply} (hk : k ≤ s.temporaries) {a' : Lowered} (h : Spills a s a' s') :
    Simulates x lo s'.temporaries m (before ++ a'.before) (do g (← eval x a'.expr)) := by
  have hwiden : ∀ {n hi : Nat}, k ≤ hi → Outside lo hi n → Outside lo k n := by
    intro n hi hle hn
    unfold Outside at hn ⊢
    omega
  have hatom := hsim.mono hk
  cases h with
  | symbol => exact (List.append_nil before).symm ▸ hatom
  | literal => exact (List.append_nil before).symm ▸ hatom
  | store =>
    intro σ τ ha
    rw [Supply.temporaries_nextTemporary]
    obtain ⟨τ₁, hreach, hkeep, hmatch⟩ | ⟨stop, σ', hrun, hhalts⟩ := hsim σ τ ha
    · cases heval : eval x a τ₁ with
      | error stop τ₂ =>
        cases hmatch with
        | ok h h' =>
          rw [bind_error heval] at h'
          cases h'
        | error h h' hshared =>
          rw [bind_error heval] at h'
          cases h'
          refine .inr ⟨_, _, h, ?_⟩
          rw [← hshared]
          exact hreach.halts ((reaches_declare x _ τ₁).halts (halts_eval (eval_assign_error heval)))
      | ok v τ₂ =>
        let t := temporary (s.temporaries + 1) a.type
        have hstored : Reaches x (before ++ Lowering.store t a) τ (setLocal τ₂ t v) :=
          hreach.append (reaches_store heval)
        have hset : Alike (· ≤ k) τ₂ (setLocal τ₂ t v) := alike_setLocal τ₂ v (by omega)
        have hread : eval x (.symbol t) (setLocal τ₂ t v) = .ok v (setLocal τ₂ t v) := by
          rw [eval_temporary, setLocal_self]
        refine .inl ⟨setLocal τ₂ t v, hstored, ?_, ?_⟩
        · have hfirst : Keeps (Outside lo (s.temporaries + 1)) τ τ₁ :=
            hkeep.imp fun n hn => hwiden (Nat.le_succ_of_le hk) hn
          have hsecond : Keeps (Outside lo (s.temporaries + 1)) τ₁ τ₂ :=
            (spares_eval hw τ₁ v τ₂ heval).imp fun _ _ => trivial
          refine (hfirst.trans hsecond).trans (alike_setLocal τ₂ v ?_).keeps
          unfold Outside
          omega
        · have hrest := hg v hset
          cases hmatch with
          | ok h h' hagree =>
            rw [bind_ok heval] at h'
            cases hrest with
            | ok k k' hsame =>
              rw [h'] at k
              cases k
              exact .ok h ((bind_ok hread).trans k') (hagree.trans (hsame.imp (by simp)))
            | error k =>
              rw [h'] at k
              cases k
          | error h h' hshared =>
            rw [bind_ok heval] at h'
            cases hrest with
            | ok k =>
              rw [h'] at k
              cases k
            | error k k' hsame =>
              rw [h'] at k
              cases k
              exact .error h ((bind_ok hread).trans k') (hsame.trans hshared)
    · exact .inr ⟨stop, σ', hrun, hhalts.append _⟩

/-- Behind a stable operand, or one that is read at the same time, another one is stored. -/
theorem Spills.simulates_second {β : Type} {lo k : Nat} {m : Run β} {before : List Stmt}
    {c i : Expr} {f : Value → Value → Run β}
    (hsim : Simulates x lo k m before (do f (← eval x c) (← eval x i))) (hlo : lo ≤ k)
    (hwc : c.Within k) (hwi : i.Within k)
    (hf : ∀ u v {σ τ}, Alike (· ≤ k) σ τ → Matches (Alike (· ≤ k)) (f u v) (f u v) σ τ)
    (hc : Lowering.isStable c ∨ i.IsAtom) {s s' : Supply} (hk : k ≤ s.temporaries) {i' : Lowered}
    (h : Spills i s i' s') :
    Simulates x lo s'.temporaries m (before ++ i'.before) (do f (← eval x c) (← eval x i'.expr)) := by
  have hle : s.temporaries ≤ s'.temporaries := (h.within (hwi.mono hk)).1
  by_cases hstable : Lowering.isStable c
  · rw [eval_swap hstable hwc hwi] at hsim
    have hspill := h.simulates hsim hlo hwi
      (fun v {_ _} ha => Matches.bind (matches_eval hwc ha) fun u _ _ ha' => hf u v ha') hk
    rwa [eval_swap hstable (hwc.mono (Nat.le_trans hk hle)) (h.within (hwi.mono hk)).2]
  · have hatom := hc.resolve_left hstable
    have hempty := h.before_eq_nil_iff.mpr hatom
    have hsame : i'.expr = i ∧ s' = s := by
      cases h with
      | symbol => exact ⟨rfl, rfl⟩
      | literal => exact ⟨rfl, rfl⟩
      | store => simp [Lowering.store] at hempty
    rw [hempty, hsame.1, hsame.2, List.append_nil]
    exact hsim.mono hk

end

section

variable {x : Environment} {r : Registry}

/-- The first of two operands is stable, or stored before the second one, or the second one is read
without an effect. -/
theorem LowersAll.keeps {array index : Bound.Expr} {before : List Stmt} {a i : Expr}
    {s s' : Supply} (h : LowersAll r [] [] [array, index] s before [a, i] s')
    (hs : Bound.Settled r array index) : Lowering.isStable a ∨ ¬a.IsAtom ∨ i.IsAtom := by
  obtain ⟨_, _, _, first, second, hfirst, hsecond, rfl, ⟨hempty, rfl⟩ | ⟨-, hstable⟩⟩ := h.pair
  · by_cases hstable : Lowering.isStable first.expr
    · exact .inl hstable
    · by_cases hatom : first.expr.IsAtom
      · have hvariable := hfirst.isVariable hatom (by simpa using hstable)
        obtain hindex | hindirect := hs hvariable
        · exact .inr (.inr ((hsecond.isAtom_iff hempty).mpr hindex))
        · exact absurd (hsecond.before_eq_nil_iff.mp hempty) hindirect
      · exact .inr (.inl hatom)
  · exact .inl hstable

theorem Spills.isAtom {e : Expr} {s s' : Supply} {out : Lowered} (h : Spills e s out s') :
    out.expr.IsAtom := by
  cases h <;> trivial

theorem Spills.isStable {e : Expr} {s s' : Supply} {out : Lowered} (h : Spills e s out s')
    (he : Lowering.isStable e ∨ ¬e.IsAtom) : Lowering.isStable out.expr := by
  cases h with
  | symbol => exact he.resolve_right fun h => h trivial
  | literal => rfl
  | store => rfl

/-- What a compound assignment to an element does once array and index are known. -/
def setCompound (x : Environment) (operator t : TypeId) (value : Run Value) (a i : Value) :
    Run Value := do
  let old ← Bound.operand x operator t (← x.element a i)
  let v ← value
  let result ← Bound.combine x operator t old v
  x.setElement a i result
  return result

theorem matches_setCompound {P : Nat → Prop} {operator t : TypeId} {value value' : Run Value}
    (hv : ∀ {σ τ}, Alike P σ τ → Matches (Alike P) value value' σ τ) (a i : Value) {σ τ : State}
    (ha : Alike P σ τ) :
    Matches (Alike P) (setCompound x operator t value a i) (setCompound x operator t value' a i)
      σ τ := by
  refine Matches.bind (Matches.effect _ ha) fun o _ _ ha => ?_
  refine Matches.bind (Matches.effect _ ha) fun l _ _ ha => ?_
  refine Matches.bind (hv ha) fun v _ _ ha => ?_
  refine Matches.bind (Matches.effect _ ha) fun res _ _ ha => ?_
  exact Matches.bind (Matches.effect _ ha) fun _ _ _ ha => Matches.pure _ ha

/-- A compound assignment to an element whose operand has nothing to run before it: array and index are
evaluated in this order, then the old value is read, then the operand is evaluated. -/
theorem Simulates.compoundElement {lo : Nat} {array index : Bound.Expr} {before : List Stmt}
    {a i v result : Expr} {s₁ s₂ s₃ s' : Supply} {a' i' : Lowered} {operator t : TypeId}
    {value : Run Value} (hlo : lo ≤ s₁.temporaries) (hle : s₁.temporaries ≤ s₂.temporaries)
    (hparts : Simulates x lo s₁.temporaries (Bound.evalAll x [array, index]) before
      (evalAll x [a, i]))
    (hwa : a.Within s₁.temporaries) (hwi : i.Within s₁.temporaries)
    (hvalue : Simulates x s₁.temporaries s₂.temporaries value [] (eval x v))
    (hwv : v.Within s₂.temporaries) (hkept : Lowering.isStable a ∨ ¬a.IsAtom ∨ i.IsAtom)
    (ha : Spills a s₂ a' s₃) (hi : Spills i s₃ i' s')
    (hresult : eval x result = (do
      let left ← Bound.operand x operator t (← eval x (.index a'.expr i'.expr t))
      let v ← eval x v
      Bound.combine x operator t left v)) :
    Simulates x lo s'.temporaries
      (do setCompound x operator t value (← Bound.eval x array) (← Bound.eval x index))
      (before ++ a'.before ++ i'.before) (eval x (.assignElement a'.expr i'.expr t result)) := by
  have hwa₂ := hwa.mono hle
  have hwi₂ := hwi.mono hle
  obtain ⟨hle₃, hwa₃⟩ := ha.within hwa₂
  have hrest : ∀ {k}, s₂.temporaries ≤ k → ∀ a i {σ τ}, Alike (· ≤ k) σ τ →
      Matches (Alike (· ≤ k)) (setCompound x operator t (eval x v) a i)
        (setCompound x operator t (eval x v) a i) σ τ :=
    fun {_} hk a i {_ _} halike =>
      matches_setCompound (fun h => matches_eval (hwv.mono hk) h) a i halike
  -- first with the operands as they are
  have hstart : Simulates x lo s₂.temporaries
      (do setCompound x operator t value (← Bound.eval x array) (← Bound.eval x index)) before
      (do setCompound x operator t (eval x v) (← eval x a) (← eval x i)) := by
    rw [boundEvalAll_pair, evalAll_pair]
    refine (hparts.bind fun vs σ τ halike => ?_).mono hle
    unfold onPair
    split
    · exact matches_setCompound (fun h => hvalue.matches h) _ _ halike
    · exact Matches.effect _ halike
  -- then with the array stored, then with the index stored
  have hfirst := ha.simulates hstart (Nat.le_trans hlo hle) hwa₂
    (fun u {_ _} halike => Matches.bind (matches_eval hwi₂ halike) fun w _ _ halike =>
      hrest (Nat.le_refl _) u w halike) (Nat.le_refl _)
  have hstable : Lowering.isStable a'.expr ∨ i.IsAtom := by
    obtain h | h | h := hkept
    · exact .inl (ha.isStable (.inl h))
    · exact .inl (ha.isStable (.inr h))
    · exact .inr h
  have hsecond := hi.simulates_second hfirst (Nat.le_trans hlo (Nat.le_trans hle hle₃)) hwa₃
    (hwi₂.mono hle₃) (fun u w {_ _} halike => hrest hle₃ u w halike) hstable (Nat.le_refl _)
  have hflat : eval x (.assignElement a'.expr i'.expr t result) =
      (do setCompound x operator t (eval x v) (← eval x a'.expr) (← eval x i'.expr)) := by
    have hagain := eval_again (x := x) ha.isAtom hi.isAtom fun u w u' w' => do
      let old ← Bound.operand x operator t (← x.element u' w')
      let v ← eval x v
      let result ← Bound.combine x operator t old v
      x.setElement u w result
      return result
    simp only [eval, hresult, bind_assoc] at hagain ⊢
    exact hagain
  rwa [hflat]

end

section

variable {x : Environment}

variable {c : Typing} (hr : c.registry.WellFormed) (hc : ¬c.lenient) (hx : x.registry = c.registry)

include hr hc hx

/-- Flattening an expression keeps its meaning. -/
theorem Lowers.simulates {e : Bound.Expr} (he : e.Typed c) (hn : e.Orderly c.registry)
    {s s' : Supply}
    {out : Lowered} (h : Lowers c.registry e s out s') :
    Simulates x s.temporaries s'.temporaries (Bound.eval x e) out.before (eval x out.expr) := by
  induction e using Bound.Expr.induction generalizing s s' out with
  | literal span v t =>
    cases h
    simp only [Bound.eval, eval]
    exact Simulates.of_matches fun σ τ ha => Matches.pure _ ha
  | symbol span sym =>
    simp only [Bound.Expr.Typed] at he
    cases h
    simp only [Bound.eval, eval]
    exact Simulates.of_matches fun σ τ ha => Matches.read x ha (not_isTemporary he.2)
  | group | typeName => exact he.elim
  | invalid => exact absurd he hc
  | assign span target value ihparts ihv =>
    simp only [Bound.Expr.Typed] at he
    obtain ⟨-, ht, hv, -⟩ := he
    cases h with
    | assign hlowers =>
      simp only [Bound.Expr.Orderly] at hn
      simp only [Bound.eval, eval]
      refine (ihv hv hn hlowers).bind fun v σ τ ha => Matches.bind (Matches.write _ v ha) ?_
      exact fun _ _ _ ha => Matches.pure _ ha
    | assignElement hall =>
      simp only [Bound.Expr.Typed] at ht
      simp only [Bound.Expr.Orderly] at hn
      obtain ⟨iha, ihi⟩ := ihparts _ _ _ _ rfl
      have hsim := hall.simulates (x := x) (by
        simpa using ⟨fun h => ⟨h.within ht.1, iha ht.1 hn.1 h⟩,
          fun h => ⟨h.within ht.2.1, ihi ht.2.1 hn.2.1 h⟩,
          fun h => ⟨h.within hv, ihv hv hn.2.2 h⟩⟩)
      simp only [Bound.eval, eval]
      rw [boundEvalAll_triple, evalAll_triple]
      refine hsim.bind fun vs σ τ ha => matches_onTriple (fun a i v => ?_) ha vs
      exact Matches.bind (Matches.effect _ ha) fun _ _ _ ha => Matches.pure _ ha
  | compound span target operator value ihparts ihv =>
    simp only [Bound.Expr.Typed] at he
    obtain ⟨-, ht, hv, -⟩ := he
    cases h with
    | compound hlowers hmerge =>
      simp only [Bound.Expr.Typed] at ht
      simp only [Bound.Expr.Orderly] at hn
      have hempty := hlowers.before_eq_nil_iff.mpr hn.1
      have hsim := ihv hv hn.2 hlowers
      rw [hempty] at hsim ⊢
      simp only [Bound.eval, eval, hmerge.eval_eq hx, bind_assoc]
      refine Simulates.of_matches fun σ τ ha => ?_
      refine Matches.bind (Matches.read x ha (not_isTemporary ht.2)) fun o _ _ ha => ?_
      refine Matches.bind (Matches.effect _ ha) fun l _ _ ha => ?_
      refine Matches.bind (hsim.matches ha) fun v _ _ ha => ?_
      refine Matches.bind (Matches.effect _ ha) fun res _ _ ha => ?_
      exact Matches.bind (Matches.write _ res ha) fun _ _ _ ha => Matches.pure _ ha
    | compoundElement hall ha hi hmerge =>
      simp only [Bound.Expr.Typed] at ht
      simp only [Bound.Expr.Orderly] at hn
      obtain ⟨hsettled, hna, hni, hdirect, hnv⟩ := hn
      obtain ⟨iha, ihi⟩ := ihparts _ _ _ _ rfl
      obtain ⟨s₁, next, hpair, hnext, hempty, rfl⟩ :=
        hall.triple fun h => h.before_eq_nil_iff.mpr hdirect
      have hvalue := ihv hv hnv hnext
      rw [hempty] at hvalue
      have hparts := hpair.simulates (x := x) (by
        simpa using ⟨fun h => ⟨h.within ht.1, iha ht.1 hna h⟩,
          fun h => ⟨h.within ht.2.1, ihi ht.2.1 hni h⟩⟩)
      obtain ⟨hlo, hwa, hwi, -⟩ := hpair.within
        (by simpa using ⟨fun h => h.within ht.1, fun h => h.within ht.2.1⟩) trivial
      obtain ⟨hle, hwv⟩ := hnext.within hv
      have hsim := Simulates.compoundElement hlo hle hparts hwa hwi hvalue hwv
        (hpair.keeps hsettled) ha hi (hmerge.eval_eq hx)
      simpa only [Bound.eval, setCompound, bind_assoc] using hsim
  | binary span operator left right t ihl ihr =>
    simp only [Bound.Expr.Typed] at he
    simp only [Bound.Expr.Orderly] at hn
    cases h with
    | shortCircuit hinfo hop hshort ha hb =>
      rw [boundEval_shortCircuit (hx ▸ hinfo) hop hshort]
      obtain ⟨hle, hwa⟩ := ha.within he.1
      obtain ⟨hle', hwb⟩ := hb.within he.2.1
      simp only [Supply.temporaries_nextTemporary, Supply.temporaries_nextLabels] at hle hle'
      have hsim := ihl he.1 hn.1 ha
      have hsim' := ihr he.2.1 hn.2 hb
      refine hsim.shortCircuit hshort hwa hsim' hwb hle hle' fun hmem => ?_
      have hrange := hb.labelled.range _ hmem
      simp only [Supply.labels_nextLabels] at hrange
      omega
    | binary hinfo hop hall =>
      rw [boundEval_binary (hx ▸ hinfo) hop]
      have hsim := hall.simulates (x := x) (by
        simpa using ⟨fun h => ⟨h.within he.1, ihl he.1 hn.1 h⟩,
          fun h => ⟨h.within he.2.1, ihr he.2.1 hn.2 h⟩⟩)
      simp only [eval]
      rw [boundEvalAll_pair, evalAll_pair]
      refine hsim.bind fun vs σ τ ha => matches_onPair (fun a b => ?_) ha vs
      exact Matches.effect _ ha
  | unary span operator operand t ih =>
    simp only [Bound.Expr.Typed] at he
    simp only [Bound.Expr.Orderly] at hn
    cases h with
    | unary hinfo hv =>
      have htype := (hv.typed hr hc he.1).type
      rw [← hx] at hinfo
      simp only [Bound.eval, eval, hinfo, htype]
      exact (ih he.1 hn hv).bind fun v σ τ ha => Matches.effect _ ha
  | call span callable args t ih =>
    simp only [Bound.Expr.Typed, Bound.typedAll_iff] at he
    simp only [Bound.Expr.Orderly, Bound.orderlyAll_iff] at hn
    cases h with
    | call hall =>
      simp only [Bound.eval, eval]
      have hsim := hall.simulates (x := x) fun e hmem {_ _ _} h =>
        ⟨h.within (he.1 e hmem), ih e hmem (he.1 e hmem) (hn e hmem) h⟩
      exact hsim.bind fun vs σ τ ha => Matches.effect _ ha
  | convert span kind operand t isExplicit ih =>
    simp only [Bound.Expr.Typed] at he
    simp only [Bound.Expr.Orderly] at hn
    cases h with
    | keep hv =>
      simp only [Bound.eval, if_true, bind_pure]
      exact ih he.1 hn hv
    | convert hkind hv =>
      have htype := (hv.typed hr hc he.1).type
      simp only [Bound.eval, eval, if_neg hkind, htype]
      exact (ih he.1 hn hv).bind fun v σ τ ha => Matches.effect _ ha
  | index span target index t iht ihi =>
    simp only [Bound.Expr.Typed] at he
    simp only [Bound.Expr.Orderly] at hn
    cases h with
    | index hall =>
      have hsim := hall.simulates (x := x) (by
        simpa using ⟨fun h => ⟨h.within he.1, iht he.1 hn.1 h⟩,
          fun h => ⟨h.within he.2.1, ihi he.2.1 hn.2 h⟩⟩)
      simp only [Bound.eval, eval]
      rw [boundEvalAll_pair, evalAll_pair]
      refine hsim.bind fun vs σ τ ha => matches_onPair (fun a b => ?_) ha vs
      exact Matches.effect _ ha
  | length span target ih =>
    simp only [Bound.Expr.Typed] at he
    simp only [Bound.Expr.Orderly] at hn
    cases h with
    | length hv =>
      simp only [Bound.eval, eval]
      exact (ih he.1 hn hv).bind fun v σ τ ha => Matches.effect _ ha
  | newArray span element size t ih =>
    simp only [Bound.Expr.Typed] at he
    simp only [Bound.Expr.Orderly] at hn
    cases h with
    | newArray hv =>
      simp only [Bound.eval, eval]
      exact (ih he.1 hn hv).bind fun v σ τ ha => Matches.effect _ ha

end

/-- A compound assignment in which the array comes before the index, and before whose operand nothing
has to run, keeps its order: array and index, then the old value, then the operand, each once. From
every state its flat form has the same value, and the states behind it are the same except for
temporaries; or both halt in the same way with the same shared state. -/
theorem compound_keeps_order {c : Typing} (hr : c.registry.WellFormed) (hc : ¬c.lenient)
    {x : Environment} (hx : x.registry = c.registry) {span : Span} {target : Bound.Expr}
    {operator : TypeId} {value : Bound.Expr}
    (ht : (Bound.Expr.compound span target operator value).Typed c)
    (ho : (Bound.Expr.compound span target operator value).Orderly c.registry) (s : Supply) :
    ∃ out s', Lowering.lowerExpr c.registry (.compound span target operator value) s =
        .ok (out, s') ∧
      ∀ body n σ, Matches Agree (Bound.eval x (.compound span target operator value))
        (exec x body n (out.before ++ [.returnStmt (some out.expr)])) σ σ := by
  obtain ⟨out, s', hrun, hlowers⟩ := gives_lowerExpr _ ht s
  refine ⟨out, s', hrun, fun body n σ => ?_⟩
  have hreturn : ∀ τ, exec x body n [.returnStmt (some out.expr)] τ = eval x out.expr τ := by
    intro τ
    rw [exec_cons]
    simp [Stmt.flow]
  obtain ⟨τ₁, hreach, -, hmatch⟩ | ⟨stop, σ', hstop, hhalts⟩ :=
    hlowers.simulates hr hc hx ht ho σ σ (Alike.refl _ σ)
  · have hexec := (hreach.run body n [.returnStmt (some out.expr)]).trans (hreturn τ₁)
    cases hmatch with
    | ok h h' ha => exact .ok h (hexec.trans h') ha
    | error h h' hs => exact .error h (hexec.trans h') hs
  · obtain ⟨τ', hexec, hshared⟩ := hhalts body n [.returnStmt (some out.expr)]
    exact .error hstop hexec hshared

def oneOperator (name : String) (op : BinaryOperator) : Registry :=
  ⟨#[.group ⟨name, "", [.derived 1]⟩, .callable ⟨.derived 0, .builtin .bool,
    [.builtin .bool, .builtin .bool], some (.binary op)⟩]⟩

theorem oneOperator_wellFormed (name : String) (op : BinaryOperator) :
    (oneOperator name op).WellFormed := by
  have hentries : ∀ {i : Nat} {e : TypeEntry}, (oneOperator name op).entries[i]? = some e →
      e = .group ⟨name, "", [.derived 1]⟩ ∨ e = .callable ⟨.derived 0, .builtin .bool,
        [.builtin .bool, .builtin .bool], some (.binary op)⟩ := by
    intro i e h
    obtain ⟨hi, rfl⟩ := Array.getElem?_eq_some_iff.mp h
    have hi : i < 2 := hi
    obtain rfl | rfl : i = 0 ∨ i = 1 := by omega
    · exact .inl rfl
    · exact .inr rfl
  refine ⟨fun h => ?_, fun h => ?_, fun h => ?_, fun h => ?_, fun h => ?_⟩
  · simpa using hentries h
  · obtain rfl : _ = _ := by simpa using hentries h
    simp only [List.mem_singleton, forall_eq]
    exact ⟨_, rfl⟩
  · obtain rfl : _ = _ := by simpa using hentries h
    exact ⟨_, rfl⟩
  · obtain rfl : _ = _ := by simpa using hentries h
    trivial
  · obtain rfl : _ = _ := by simpa using hentries h
    simp

def switch (n : Nat) : Symbol := ⟨.declared n, "switch", .globalVariable, .builtin .bool, false⟩

theorem switch_declares {r : Registry} {n : Nat} (h : n < 2) (params : List Symbol) :
    (⟨r, [switch 0, switch 1], params, False⟩ : Typing).Declares (switch n) := by
  refine ⟨?_, trivial, by simp [switch], by simp [switch]⟩
  change switch n ∈ _
  obtain rfl | rfl : n = 0 ∨ n = 1 := by omega
  · exact List.mem_cons_self
  · exact List.mem_cons_of_mem _ List.mem_cons_self

def keepOn : Bound.Expr :=
  .compound default (.symbol default (switch 0)) (.derived 1)
    (.assign default (.symbol default (switch 1)) (.literal default (.bool true) (.builtin .bool)))

theorem compound_keeps_order_keepOn :
    keepOn.Orderly (oneOperator "&" .and) ∧
      ∃ out s', Lowering.lowerExpr (oneOperator "&" .and) keepOn ⟨0, 0⟩ = .ok (out, s') ∧
        ∀ invoke body n σ,
          Matches Agree (Bound.eval ⟨oneOperator "&" .and, "", [], invoke⟩ keepOn)
            (exec ⟨oneOperator "&" .and, "", [], invoke⟩ body n
              (out.before ++ [.returnStmt (some out.expr)])) σ σ := by
  let c : Typing := ⟨oneOperator "&" .and, [switch 0, switch 1], [], False⟩
  have hdeclared : ∀ n, (switch n).IsDeclared := fun n => ⟨n, rfl⟩
  have hswitch : ∀ {n}, n < 2 → Bound.Expr.Typed c (.symbol default (switch n)) :=
    fun h => ⟨switch_declares h [], hdeclared _⟩
  have hoperator : c.registry.Combines (.derived 1)
      ⟨.builtin .bool, [.builtin .bool, .builtin .bool]⟩ :=
    .inl ⟨.and, rfl, ⟨_, rfl⟩, by decide⟩
  have htyped : keepOn.Typed c :=
    ⟨.inr rfl, hswitch (by decide), ⟨.inr rfl, hswitch (by decide), rfl, .inl rfl⟩,
      _, _, hoperator, .inl rfl, .inl rfl⟩
  have horderly : keepOn.Orderly c.registry := ⟨trivial, trivial⟩
  obtain ⟨out, s', hrun, -⟩ := compound_keeps_order (oneOperator_wellFormed _ _) id
    (x := ⟨oneOperator "&" .and, "", [], fun _ _ => crash⟩) rfl htyped horderly ⟨0, 0⟩
  refine ⟨horderly, out, s', hrun, fun invoke body n σ => ?_⟩
  obtain ⟨out', s'', hrun', hmatch⟩ := compound_keeps_order (oneOperator_wellFormed _ _) id
    (x := ⟨oneOperator "&" .and, "", [], invoke⟩) rfl htyped horderly ⟨0, 0⟩
  have hsame := hrun.symm.trans hrun'
  cases hsame
  exact hmatch body n σ

end Flat
end TypedScript
