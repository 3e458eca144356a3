import TypedScript.Proofs.Binding.References
import TypedScript.Proofs.Binding.Routine

/-!
# Where symbols and callables come from

Every symbol of a bound program was made when it was declared, and each of them has a number of its
own. Every callable that is called is one of the library or one of the program's functions.
-/

namespace TypedScript
namespace Bound

mutual

def Expr.Over (P : Symbol → Prop) : Expr → Prop
  | .symbol _ s => P s
  | .assign _ target value | .compound _ target _ value => target.Over P ∧ value.Over P
  | .binary _ _ left right _ => left.Over P ∧ right.Over P
  | .unary _ _ operand _ | .convert _ _ operand _ _ => operand.Over P
  | .call _ _ args _ => overAll P args
  | .index _ target index _ => target.Over P ∧ index.Over P
  | .length _ target => target.Over P
  | .newArray _ _ size _ => size.Over P
  | .invalid _ children => overAll P children
  | .literal _ _ _ | .group _ _ _ | .typeName _ _ => True

def overAll (P : Symbol → Prop) : List Expr → Prop
  | [] => True
  | e :: rest => e.Over P ∧ overAll P rest

end

def Declaration.Over (P : Symbol → Prop) (d : Declaration) : Prop :=
  P d.symbol ∧ ∀ e, d.init? = some e → e.Over P

def Setup.Over (P : Symbol → Prop) : Setup → Prop
  | .declare d => d.Over P
  | .eval e => e.expr.Over P

mutual

def Stmt.Over (P : Symbol → Prop) : Stmt → Prop
  | .block _ body => overStmts P body
  | .declare d => d.Over P
  | .eval e => e.expr.Over P
  | .ifThen _ cond yes => cond.Over P ∧ yes.Over P
  | .ifElse _ cond yes no => cond.Over P ∧ yes.Over P ∧ no.Over P
  | .whileLoop _ cond body => cond.Over P ∧ body.Over P
  | .forLoop _ setup cond post body =>
    (∀ s, setup = some s → s.Over P) ∧ (∀ e, cond = some e → e.Over P) ∧
      (∀ e, post = some e → e.Over P) ∧ body.Over P
  | .returnStmt _ value => ∀ e, value = some e → e.Over P
  | .breakLoop _ | .continueLoop _ => True

def overStmts (P : Symbol → Prop) : List Stmt → Prop
  | [] => True
  | s :: rest => s.Over P ∧ overStmts P rest

end

theorem overAll_iff {P : Symbol → Prop} {es : List Expr} :
    overAll P es ↔ ∀ e ∈ es, e.Over P := by
  induction es with
  | nil => simp [overAll]
  | cons e es ih => simp [overAll, ih]

mutual

theorem Expr.over_iff {P : Symbol → Prop} : (e : Expr) → (e.Over P ↔ e.Refers fun _ => P)
  | .symbol _ _ | .literal _ _ _ | .group _ _ _ | .typeName _ _ => by
    simp only [Expr.Over, Expr.Refers]
  | .assign _ target value | .compound _ target _ value => by
    simp only [Expr.Over, Expr.Refers, target.over_iff, value.over_iff]
  | .binary _ _ left right _ => by
    simp only [Expr.Over, Expr.Refers, left.over_iff, right.over_iff]
  | .unary _ _ operand _ | .convert _ _ operand _ _ => by
    simp only [Expr.Over, Expr.Refers, operand.over_iff]
  | .call _ _ args _ => by
    simp only [Expr.Over, Expr.Refers, overAll_iff_refersAll args]
  | .index _ target index _ => by
    simp only [Expr.Over, Expr.Refers, target.over_iff, index.over_iff]
  | .length _ target => by simp only [Expr.Over, Expr.Refers, target.over_iff]
  | .newArray _ _ size _ => by simp only [Expr.Over, Expr.Refers, size.over_iff]
  | .invalid _ children => by
    simp only [Expr.Over, Expr.Refers, overAll_iff_refersAll children]

theorem overAll_iff_refersAll {P : Symbol → Prop} : (es : List Expr) →
    (overAll P es ↔ refersAll (fun _ => P) es)
  | [] => by simp only [overAll, refersAll]
  | e :: rest => by simp only [overAll, refersAll, e.over_iff, overAll_iff_refersAll rest]

end

/-- Whether all symbols have a property does not depend on where they stand. -/
theorem Expr.over_eq_refers (P : Symbol → Prop) : Expr.Over P = Expr.Refers fun _ => P :=
  funext fun e => propext e.over_iff

theorem overStmts_iff {P : Symbol → Prop} {ss : List Stmt} :
    overStmts P ss ↔ ∀ s ∈ ss, s.Over P := by
  induction ss with
  | nil => simp [overStmts]
  | cons s ss ih => simp [overStmts, ih]

section

variable {P Q : Symbol → Prop}

mutual

theorem Expr.Over.imp (hPQ : ∀ s, P s → Q s) : (e : Expr) → e.Over P → e.Over Q
  | .symbol _ s, h => hPQ s h
  | .assign _ target value, h | .compound _ target _ value, h => by
    simp only [Expr.Over] at h ⊢
    exact ⟨Expr.Over.imp hPQ target h.1, Expr.Over.imp hPQ value h.2⟩
  | .binary _ _ left right _, h => by
    simp only [Expr.Over] at h ⊢
    exact ⟨Expr.Over.imp hPQ left h.1, Expr.Over.imp hPQ right h.2⟩
  | .unary _ _ operand _, h | .convert _ _ operand _ _, h => by
    simp only [Expr.Over] at h ⊢
    exact Expr.Over.imp hPQ operand h
  | .call _ _ args _, h => by
    simp only [Expr.Over] at h ⊢
    exact overAll.imp hPQ args h
  | .index _ target index _, h => by
    simp only [Expr.Over] at h ⊢
    exact ⟨Expr.Over.imp hPQ target h.1, Expr.Over.imp hPQ index h.2⟩
  | .length _ target, h => by
    simp only [Expr.Over] at h ⊢
    exact Expr.Over.imp hPQ target h
  | .newArray _ _ size _, h => by
    simp only [Expr.Over] at h ⊢
    exact Expr.Over.imp hPQ size h
  | .invalid _ children, h => by
    simp only [Expr.Over] at h ⊢
    exact overAll.imp hPQ children h
  | .literal _ _ _, _ | .group _ _ _, _ | .typeName _ _, _ => by simp only [Expr.Over]

theorem overAll.imp (hPQ : ∀ s, P s → Q s) : (es : List Expr) → overAll P es → overAll Q es
  | [], _ => by simp only [overAll]
  | e :: rest, h => by
    simp only [overAll] at h ⊢
    exact ⟨Expr.Over.imp hPQ e h.1, overAll.imp hPQ rest h.2⟩

end

theorem Declaration.Over.imp (hPQ : ∀ s, P s → Q s) {d : Declaration} (h : d.Over P) : d.Over Q :=
  ⟨hPQ _ h.1, fun e he => Expr.Over.imp hPQ e (h.2 e he)⟩

theorem Setup.Over.imp (hPQ : ∀ s, P s → Q s) {s : Setup} (h : s.Over P) : s.Over Q := by
  cases s with
  | declare d => exact Declaration.Over.imp hPQ h
  | eval e => exact Expr.Over.imp hPQ e.expr h

mutual

theorem Stmt.Over.imp (hPQ : ∀ s, P s → Q s) : (s : Stmt) → s.Over P → s.Over Q
  | .block _ body, h => by
    simp only [Stmt.Over] at h ⊢
    exact overStmts.imp hPQ body h
  | .declare d, h => by
    simp only [Stmt.Over] at h ⊢
    exact Declaration.Over.imp hPQ h
  | .eval e, h => by
    simp only [Stmt.Over] at h ⊢
    exact Expr.Over.imp hPQ e.expr h
  | .ifThen _ cond yes, h => by
    simp only [Stmt.Over] at h ⊢
    exact ⟨Expr.Over.imp hPQ cond h.1, Stmt.Over.imp hPQ yes h.2⟩
  | .ifElse _ cond yes no, h => by
    simp only [Stmt.Over] at h ⊢
    exact ⟨Expr.Over.imp hPQ cond h.1, Stmt.Over.imp hPQ yes h.2.1, Stmt.Over.imp hPQ no h.2.2⟩
  | .whileLoop _ cond body, h => by
    simp only [Stmt.Over] at h ⊢
    exact ⟨Expr.Over.imp hPQ cond h.1, Stmt.Over.imp hPQ body h.2⟩
  | .forLoop _ setup cond post body, h => by
    simp only [Stmt.Over] at h ⊢
    exact ⟨fun s hs => Setup.Over.imp hPQ (h.1 s hs), fun e he => Expr.Over.imp hPQ e (h.2.1 e he),
      fun e he => Expr.Over.imp hPQ e (h.2.2.1 e he), Stmt.Over.imp hPQ body h.2.2.2⟩
  | .returnStmt _ value, h => by
    simp only [Stmt.Over] at h ⊢
    exact fun e he => Expr.Over.imp hPQ e (h e he)
  | .breakLoop _, _ | .continueLoop _, _ => by simp only [Stmt.Over]

theorem overStmts.imp (hPQ : ∀ s, P s → Q s) : (ss : List Stmt) → overStmts P ss → overStmts Q ss
  | [], _ => by simp only [overStmts]
  | s :: rest, h => by
    simp only [overStmts] at h ⊢
    exact ⟨Stmt.Over.imp hPQ s h.1, overStmts.imp hPQ rest h.2⟩

end

end

end Bound

/-- The element type of an array stands before it. -/
def Registry.Nested (r : Registry) : Prop :=
  ∀ (i j : Nat), r.entries[i]? = some (.array (.derived j)) → j < i

/-- Entries that are no arrays leave a registry nested. -/
theorem Registry.Nested.push {r : Registry} (h : r.Nested) {e : TypeEntry}
    (he : ∀ j, e = .array (.derived j) → j < r.entries.size) : (r.push e).2.Nested := by
  intro i j hij
  rw [Registry.getElem?_push] at hij
  split at hij
  · next hi =>
    rw [hi]
    exact he j (Option.some.inj hij)
  · exact h i j hij

theorem Registry.Nested.extendGroup {r : Registry} (h : r.Nested) (i : Nat) (m : TypeId) :
    (r.extendGroup (.derived i) m).Nested := by
  intro k j hkj
  rw [Registry.getElem?_extendGroup] at hkj
  split at hkj
  · cases hk : r.entries[k]? with
    | none => simp [hk] at hkj
    | some e =>
      cases e with
      | array t =>
        rw [hk] at hkj
        exact h k j (hk.trans hkj)
      | group g => simp [hk, TypeEntry.extended] at hkj
      | callable c => simp [hk, TypeEntry.extended] at hkj
  · exact h k j hkj

/-- A change of a registry that makes no callable. -/
structure Registry.Keeps (r r' : Registry) : Prop where
  le : r ≤ r'
  nested : r.Nested → r'.Nested
  callables : ∀ t c, r'.callable t = .ok c → r.callable t = .ok c

theorem Registry.Keeps.refl (r : Registry) : r.Keeps r := ⟨le_refl r, id, fun _ _ hc => hc⟩

namespace Binder

open TypedScript.Binding TypedScript.Bound

/-- The symbols made so far each have a number of their own, and all names in scope are among them.
Callables that compute no operator are those of the library and the functions, which are distinct. -/
structure Minted (functions : List TypeId) (made : List Symbol) (s : State) : Prop where
  numbers : ∀ a ∈ made, ∃ n, n < s.nextSymbol ∧ a.id = .declared n
  distinct : ∀ a ∈ made, ∀ b ∈ made, a.id = b.id → a = b
  scope : ∀ a, InScope s.scope a → a ∈ made
  registry : initial.registry ≤ s.registry
  nested : s.registry.Nested
  callables : ∀ t c, s.registry.callable t = .ok c → c.op? = none →
    initial.registry.callable t = .ok c ∨ t ∈ functions
  placed : ∀ t ∈ functions, ∃ i < s.registry.entries.size, t = .derived i
  nodup : functions.Nodup

/-- A step of binding makes no symbols and no callables, and what it returns is as said. -/
def Finds {α : Type} (functions : List TypeId) (made : List Symbol) (m : Binder α)
    (Q : α → Prop) : Prop :=
  ∀ s a s', Minted functions made s → m s = .ok (a, s') → Minted functions made s' ∧ Q a

section

variable {α β : Type} {functions : List TypeId} {made : List Symbol}

namespace Finds

theorem pure {a : α} {Q : α → Prop} (h : Q a) : Finds functions made (Pure.pure a) Q := by
  intro s b s' hs hrun
  cases hrun
  exact ⟨hs, h⟩

theorem bind {m : Binder α} {f : α → Binder β} {Q : α → Prop} {R : β → Prop}
    (hm : Finds functions made m Q) (hf : ∀ a, Q a → Finds functions made (f a) R) :
    Finds functions made (m >>= f) R := by
  intro s b s' hs hrun
  obtain ⟨a, s₁, hrun₁, hrun₂⟩ := bind_eq_ok hrun
  obtain ⟨hs₁, hq⟩ := hm s a s₁ hs hrun₁
  exact hf a hq s₁ b s' hs₁ hrun₂

theorem imp {m : Binder α} {Q R : α → Prop} (hm : Finds functions made m Q) (h : ∀ a, Q a → R a) :
    Finds functions made m R :=
  fun s a s' hs hrun => (hm s a s' hs hrun).imp_right (h a)

theorem get_bind {k : State → Binder β} {R : β → Prop}
    (h : ∀ s, Minted functions made s → Finds functions made (k s) R) :
    Finds functions made (get >>= k) R :=
  fun s b s' hs hrun => h s hs s b s' hs hrun

theorem throw {d : Defect} {Q : α → Prop} : Finds functions made (MonadExcept.throw d) Q := by
  intro s a s' _ hrun
  cases hrun

/-- A change that leaves scopes, numbers and callables alone. -/
theorem adjust {g : State → State} (hscope : ∀ s, (g s).scope = s.scope)
    (hnext : ∀ s, (g s).nextSymbol = s.nextSymbol) (hreg : ∀ s, (g s).registry = s.registry) :
    Finds functions made (modify g : Binder Unit) fun _ => True := by
  intro s a s' hs hrun
  cases hrun
  refine ⟨⟨?_, hs.distinct, ?_, ?_, ?_, ?_, ?_, hs.nodup⟩, trivial⟩
  · rw [hnext]
    exact hs.numbers
  · rw [hscope]
    exact hs.scope
  · rw [hreg]
    exact hs.registry
  · rw [hreg]
    exact hs.nested
  · rw [hreg]
    exact hs.callables
  · rw [hreg]
    exact hs.placed

theorem complain (span : Span) (c : Complaint) :
    Finds functions made (Binder.complain span c) fun _ => True :=
  adjust (fun _ => rfl) (fun _ => rfl) fun _ => rfl

theorem ask (f : Registry → Except Defect α) :
    Finds functions made (Binder.ask f) fun _ => True := by
  intro s a s' hs hrun
  obtain ⟨s₁, s₂, hget, hrun⟩ := bind_eq_ok hrun
  cases hget
  obtain ⟨-, rfl⟩ := lift_eq_ok hrun
  exact ⟨hs, trivial⟩

/-- A change of the registry that makes no callable. -/
theorem register {f : Registry → Except Defect (α × Registry)}
    (hf : ∀ r a r', f r = .ok (a, r') → r.Keeps r') :
    Finds functions made (Binder.register f) fun _ => True := by
  intro s a s' hs hrun
  change (liftM (f s.registry) >>= fun p => (do
    modify fun s => { s with registry := p.2 }
    return p.1 : Binder α)) s = _ at hrun
  obtain ⟨p, s₁, hlift, hset⟩ := bind_eq_ok hrun
  obtain ⟨hp, rfl⟩ := lift_eq_ok hlift
  cases hset
  obtain ⟨hle, hnested, hold⟩ := hf _ _ _ hp
  refine ⟨⟨hs.numbers, hs.distinct, hs.scope, le_trans hs.registry hle, hnested hs.nested,
    fun t c hc => hs.callables t c (hold t c hc), fun t ht => ?_, hs.nodup⟩, trivial⟩
  obtain ⟨i, hi, rfl⟩ := hs.placed t ht
  exact ⟨i, Nat.lt_of_lt_of_le hi (Registry.size_le hle), rfl⟩

theorem fullName (t : TypeId) : Finds functions made (Binder.fullName t) fun _ => True := ask _

theorem markRead (sym : Symbol) : Finds functions made (Binder.markRead sym) fun _ => True := by
  refine adjust (fun s => ?_) (fun s => ?_) (fun s => ?_)
  all_goals split <;> rfl

/-! Types -/

theorem callable_of_push {r : Registry} {e : TypeEntry} (he : ∀ c, e ≠ .callable c) {v : TypeId}
    {c : Callable} (hc : (r.push e).2.callable v = .ok c) : r.callable v = .ok c := by
  rw [Registry.callable_eq_ok] at hc ⊢
  cases v with
  | derived i =>
    rw [Registry.get?_derived, Registry.getElem?_push] at hc
    split at hc
    · exact absurd (Option.some.inj hc) (he c)
    · exact hc
  | _ => simp [Registry.get?] at hc

theorem keeps_push {r : Registry} {e : TypeEntry} (he : ∀ c, e ≠ .callable c)
    (hj : ∀ j, e = .array (.derived j) → j < r.entries.size) : r.Keeps (r.push e).2 :=
  ⟨Registry.le_push r e, fun h => h.push hj, fun _ _ hc => callable_of_push he hc⟩

theorem keeps_arrayOf {r r' : Registry} {t u : TypeId} (h : r.arrayOf t = .ok (u, r')) :
    r.Keeps r' := by
  rw [Registry.arrayOf_eq] at h
  split at h
  · cases h
    exact Registry.Keeps.refl r
  · cases hk : r.kind t with
    | error d => simp [hk, Bind.bind, Except.bind] at h
    | ok k =>
      simp only [hk, Bind.bind, Except.bind] at h
      cases h
      refine keeps_push (by simp) ?_
      rintro j ⟨⟩
      by_contra hj
      have hnone : r.get? (.derived j) = none :=
        Array.getElem?_eq_none (Nat.le_of_not_lt hj)
      simp [Registry.kind, hnone] at hk

end Finds

instance stable_minted : Stable (Minted functions made) where
  report _ hs := ⟨hs.numbers, hs.distinct, hs.scope, hs.registry, hs.nested, hs.callables, hs.placed,
    hs.nodup⟩
  registry harray hs := by
    obtain ⟨hle, hnested, hold⟩ := Finds.keeps_arrayOf harray
    refine ⟨hs.numbers, hs.distinct, hs.scope, le_trans hs.registry hle, hnested hs.nested,
      fun t c hc => hs.callables t c (hold t c hc), fun t ht => ?_, hs.nodup⟩
    obtain ⟨i, hi, rfl⟩ := hs.placed t ht
    exact ⟨i, Nat.lt_of_lt_of_le hi (Registry.size_le hle), rfl⟩
  reads _ hs := ⟨hs.numbers, hs.distinct, hs.scope, hs.registry, hs.nested, hs.callables, hs.placed,
    hs.nodup⟩

namespace Finds

theorem resolveType (t : Parsed.TypeName) :
    Finds functions made (Binder.resolveType t) fun _ => True :=
  Preserves.resolveType t

theorem valueType (t : Parsed.TypeName) :
    Finds functions made (Binder.valueType t) fun _ => True :=
  Preserves.valueType t

theorem convertImplicit {e : Expr} (he : e.Over (· ∈ made)) (target : TypeId) (span : Span) :
    Finds functions made (Binder.convertImplicit e target span) (Expr.Over (· ∈ made)) := by
  rw [Expr.over_eq_refers] at he ⊢
  exact Preserves.convertImplicit he target span

theorem requireValue {e : Expr} (he : e.Over (· ∈ made)) :
    Finds functions made (Binder.requireValue e) (Expr.Over (· ∈ made)) := by
  rw [Expr.over_eq_refers] at he ⊢
  exact Preserves.requireValue he

/-- Expressions refer to symbols that were made. -/
theorem bindExpr (e : Parsed.Expr) :
    Finds functions made (Binder.bindExpr e) (Expr.Over (· ∈ made)) := by
  rw [Expr.over_eq_refers]
  refine Preserves.bindExpr e fun p _ s sym hs hlookup => ?_
  exact hs.scope sym (inScope_of_lookup? hlookup)

end Finds

end

end Binder
end TypedScript
