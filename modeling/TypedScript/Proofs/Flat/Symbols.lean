import TypedScript.Proofs.Binding.Identity
import TypedScript.Proofs.Flat.Program

/-!
# The symbols of flat programs

Flattening adds temporaries to the symbols of a routine. It takes each of them from the supply once,
so a number belongs to one temporary with one type, and in a whole routine symbols with the same
number are the same.
-/

namespace TypedScript
namespace Flat

@[simp] theorem symbolsOf_nil : symbolsOf [] = [] := rfl

@[simp] theorem symbolsOf_append (a b : List Stmt) :
    symbolsOf (a ++ b) = symbolsOf a ++ symbolsOf b :=
  List.flatMap_append

@[simp] theorem symbolsOf_cons (s : Stmt) (ss : List Stmt) :
    symbolsOf (s :: ss) = s.symbols ++ symbolsOf ss := rfl

@[simp] theorem symbolsAll_append (a b : List Expr) :
    symbolsAll (a ++ b) = symbolsAll a ++ symbolsAll b := by
  induction a with
  | nil => rfl
  | cons e rest ih => simp [symbolsAll, ih]

def Lowered.symbols (v : Lowered) : List Symbol := symbolsOf v.before ++ v.expr.symbols

/-- Symbols that are known, or temporaries that were taken from the supply between two states of it.
The number of a temporary determines its type. -/
structure Drawn (P : Symbol → Prop) (lo hi : Nat) (syms : List Symbol) : Prop where
  le : lo ≤ hi
  types : ∃ types : Nat → TypeId, ∀ x ∈ syms,
    P x ∨ ∃ n, lo < n ∧ n ≤ hi ∧ x = temporary n (types n)

section

variable {P : Symbol → Prop} {lo mid hi : Nat} {a b : List Symbol}

theorem Drawn.known (n : Nat) (h : ∀ x ∈ a, P x) : Drawn P n n a :=
  ⟨Nat.le_refl n, fun _ => .absent, fun x hx => .inl (h x hx)⟩

theorem Drawn.mono (h : Drawn P lo hi a) (hsub : ∀ x ∈ b, x ∈ a) : Drawn P lo hi b := by
  obtain ⟨hle, types, htypes⟩ := h
  exact ⟨hle, types, fun x hx => htypes x (hsub x hx)⟩

theorem Drawn.append (ha : Drawn P lo mid a) (hb : Drawn P mid hi b) : Drawn P lo hi (a ++ b) := by
  obtain ⟨hle, types, htypes⟩ := ha
  obtain ⟨hle', types', htypes'⟩ := hb
  refine ⟨Nat.le_trans hle hle', fun n => if n ≤ mid then types n else types' n, fun x hx => ?_⟩
  obtain hx | hx := List.mem_append.mp hx
  · obtain hp | ⟨n, hlo, hhi, rfl⟩ := htypes x hx
    · exact .inl hp
    · exact .inr ⟨n, hlo, by omega, by simp [hhi]⟩
  · obtain hp | ⟨n, hlo, hhi, rfl⟩ := htypes' x hx
    · exact .inl hp
    · exact .inr ⟨n, by omega, hhi, by simp [Nat.not_le.mpr hlo]⟩

/-- Known symbols may be added anywhere. -/
theorem Drawn.with (h : Drawn P lo hi a) (hb : ∀ x ∈ b, x ∈ a ∨ P x) : Drawn P lo hi b := by
  have hboth := h.append (Drawn.known (a := b.filter (· ∉ a)) hi fun x hx => by
    rw [List.mem_filter] at hx
    exact (hb x hx.1).resolve_left (by simpa using hx.2))
  refine hboth.mono fun x hx => ?_
  by_cases hmem : x ∈ a
  · exact List.mem_append_left _ hmem
  · exact List.mem_append_right _ (List.mem_filter.mpr ⟨hx, by simpa using hmem⟩)

/-- The next temporary. -/
theorem Drawn.fresh (n : Nat) (t : TypeId) : Drawn P n (n + 1) [temporary (n + 1) t] := by
  refine ⟨Nat.le_succ n, fun _ => t, fun x hx => .inr ⟨n + 1, Nat.lt_succ_self n, Nat.le_refl _, ?_⟩⟩
  exact List.mem_singleton.mp hx

/-- Symbols with the same number are the same, if that holds of those that are known. -/
theorem Drawn.distinct (h : Drawn P lo hi a) (hdeclared : ∀ x, P x → x.IsDeclared)
    (hdistinct : ∀ x y, P x → P y → x.id = y.id → x = y) :
    ∀ x ∈ a, ∀ y ∈ a, x.id = y.id → x = y := by
  obtain ⟨-, types, htypes⟩ := h
  intro x hx y hy heq
  obtain hp | ⟨n, -, -, rfl⟩ := htypes x hx <;> obtain hq | ⟨m, -, -, rfl⟩ := htypes y hy
  · exact hdistinct x y hp hq heq
  · obtain ⟨k, hk⟩ := hdeclared x hp
    simp [hk, temporary] at heq
  · obtain ⟨k, hk⟩ := hdeclared y hq
    simp [hk, temporary] at heq
  · rw [temporary, temporary, SymbolId.temporary.injEq] at heq
    rw [heq]

end

attribute [local simp] Expr.symbols symbolsAll

theorem symbols_negate (e : Expr) : (Lowering.negate e).symbols = e.symbols := by
  unfold Lowering.negate
  split <;> simp

theorem symbols_decided (op : BinaryOperator) (t : Symbol) : (decided op t).symbols = [t] := by
  unfold decided
  split <;> simp [symbols_negate]

theorem symbols_zeroLiteral (t : TypeId) : (Lowering.zeroLiteral t).symbols = [] := by
  simp [Lowering.zeroLiteral]

theorem symbols_store (t : Symbol) (e : Expr) :
    symbolsOf (Lowering.store t e) = t :: t :: e.symbols := by
  simp [Lowering.store, Stmt.symbols]

theorem Converts.symbols {r : Registry} {e out : Expr} {target : TypeId}
    (h : Converts r e target out) : out.symbols = e.symbols := by
  cases h with
  | same => rfl
  | convert => simp

theorem Merges.symbols {r : Registry} {operator : TypeId} {old value result : Expr}
    (h : Merges r operator old value result) : result.symbols = old.symbols ++ value.symbols := by
  obtain ⟨info, left, -, hleft, hresult⟩ := h
  rw [hresult.symbols, applied]
  split <;> simp [hleft.symbols]

section

variable {P : Symbol → Prop}

theorem Hoists.drawn {es kept : List Expr} {s s' : Supply} {before : List Stmt}
    (h : Hoists es s before kept s') {lo : Nat} {a : List Symbol}
    (ha : Drawn P lo s.temporaries (a ++ symbolsAll es)) :
    Drawn P lo s'.temporaries (a ++ symbolsOf before ++ symbolsAll kept) := by
  induction h generalizing a with
  | nil => simpa using ha
  | @stable e _ _ _ _ _ _ _ ih =>
    have hrest := @ih (a ++ e.symbols) (by simpa using ha)
    refine hrest.mono fun x hx => ?_
    simp only [symbolsAll, List.mem_append] at hx ⊢
    grind
  | @store e es s s' before kept _ _ ih =>
    have hnext := ha.append (Drawn.fresh s.temporaries e.type)
    have hrest := @ih (a ++ e.symbols ++ [temporary (s.temporaries + 1) e.type])
      (hnext.mono fun x hx => by
        simp only [symbolsAll, List.mem_append] at hx ⊢
        grind)
    refine hrest.mono fun x hx => ?_
    simp only [symbolsAll, symbolsOf_append, symbols_store, Expr.symbols, List.mem_append,
      List.mem_cons] at hx ⊢
    simp only [List.not_mem_nil, or_false]
    grind

theorem Spills.drawn {e : Expr} {s s' : Supply} {out : Lowered} (h : Spills e s out s') {lo : Nat}
    {a : List Symbol} (ha : Drawn P lo s.temporaries (a ++ e.symbols)) :
    Drawn P lo s'.temporaries (a ++ out.symbols) := by
  cases h with
  | symbol => simpa [Lowered.symbols] using ha
  | literal => simpa [Lowered.symbols] using ha
  | store =>
    refine (ha.append (Drawn.fresh s.temporaries e.type)).mono fun x hx => ?_
    simp only [Lowered.symbols, symbols_store, Expr.symbols, List.mem_append, List.mem_cons] at hx ⊢
    grind

theorem Joins.drawn {before before' : List Stmt} {done done' : List Expr} {next : Lowered}
    {s s₁ s' : Supply} (h : Joins before done next s₁ before' done' s') {lo : Nat}
    (hb : Drawn P lo s.temporaries (symbolsOf before ++ symbolsAll done))
    (hn : Drawn P s.temporaries s₁.temporaries next.symbols) :
    Drawn P lo s'.temporaries (symbolsOf before' ++ symbolsAll done') := by
  have hboth := hb.append hn
  cases h with
  | plain hempty =>
    refine hboth.mono fun x hx => ?_
    simp only [Lowered.symbols, hempty, symbolsOf_nil, symbolsAll_append, symbolsAll, List.mem_append,
      List.append_nil, List.nil_append] at hx ⊢
    grind
  | keep _ hoists =>
    have hkept := hoists.drawn (a := symbolsOf before ++ next.symbols) (hboth.mono fun x hx => by
      simp only [List.mem_append] at hx ⊢
      grind)
    refine hkept.mono fun x hx => ?_
    simp only [Lowered.symbols, symbolsOf_append, symbolsAll_append, symbolsAll, List.mem_append,
      List.append_nil] at hx ⊢
    grind

variable {r : Registry}

theorem LowersAll.drawn {es : List Bound.Expr}
    (hes : ∀ e ∈ es, ∀ {s s' out}, Lowers r e s out s' →
      Drawn P s.temporaries s'.temporaries out.symbols)
    {before before' : List Stmt} {done done' : List Expr} {lo : Nat} {s s' : Supply}
    (h : LowersAll r before done es s before' done' s')
    (hb : Drawn P lo s.temporaries (symbolsOf before ++ symbolsAll done)) :
    Drawn P lo s'.temporaries (symbolsOf before' ++ symbolsAll done') := by
  induction es generalizing before done s with
  | nil =>
    cases h
    exact hb
  | cons e rest ih =>
    cases h with
    | cons he hjoin hrest =>
      have hnext := hes e List.mem_cons_self he
      exact ih (fun x hx => hes x (List.mem_cons_of_mem e hx)) hrest (hjoin.drawn hb hnext)

theorem drawn_start (s : Supply) :
    Drawn P s.temporaries s.temporaries (symbolsOf [] ++ symbolsAll []) :=
  Drawn.known _ (by simp)

/-- The symbols of a flat expression are those of the bound one and new temporaries. -/
theorem Lowers.drawn {e : Bound.Expr} {s s' : Supply} {out : Lowered} (h : Lowers r e s out s')
    (he : e.Over P) : Drawn P s.temporaries s'.temporaries out.symbols := by
  induction e using Bound.Expr.induction generalizing s s' out with
  | literal | group | typeName | invalid =>
    cases h
    exact Drawn.known _ (by simp [Lowered.symbols])
  | symbol span sym =>
    simp only [Bound.Expr.Over] at he
    cases h
    exact Drawn.known _ (by simpa [Lowered.symbols] using he)
  | assign span target value ihparts ihv =>
    simp only [Bound.Expr.Over] at he
    cases h with
    | assign hv =>
      have hsym := he.1
      simp only [Bound.Expr.Over] at hsym
      refine (ihv hv he.2).with fun x hx => ?_
      simp only [Lowered.symbols, Expr.symbols, List.mem_append, List.mem_cons] at hx ⊢
      grind
    | assignElement hall =>
      have htarget := he.1
      simp only [Bound.Expr.Over] at htarget
      obtain ⟨iha, ihi⟩ := ihparts _ _ _ _ rfl
      have hdrawn := hall.drawn (by
        simpa using ⟨fun h => iha h htarget.1, fun h => ihi h htarget.2, fun h => ihv h he.2⟩)
        (drawn_start s)
      refine hdrawn.mono fun x hx => ?_
      simp only [Lowered.symbols, Expr.symbols, symbolsAll, List.mem_append] at hx ⊢
      grind
  | compound span target operator value ihparts ihv =>
    simp only [Bound.Expr.Over] at he
    cases h with
    | compound hv hm =>
      have hsym := he.1
      simp only [Bound.Expr.Over] at hsym
      refine (ihv hv he.2).with fun x hx => ?_
      simp only [Lowered.symbols, Expr.symbols, hm.symbols, List.mem_append, List.mem_cons] at hx ⊢
      grind
    | @compoundElement _ _ _ _ _ t _ _ _ _ _ before a i v a' i' result hall ha hi hm =>
      have htarget := he.1
      simp only [Bound.Expr.Over] at htarget
      obtain ⟨iha, ihi⟩ := ihparts _ _ _ _ rfl
      have hdrawn := hall.drawn (by
        simpa using ⟨fun h => iha h htarget.1, fun h => ihi h htarget.2, fun h => ihv h he.2⟩)
        (drawn_start s)
      have harray := ha.drawn (a := symbolsOf before ++ i.symbols ++ v.symbols)
        (hdrawn.mono fun x hx => by
          simp only [symbolsAll, List.mem_append] at hx ⊢
          grind)
      have hindex := hi.drawn (a := symbolsOf before ++ v.symbols ++ a'.symbols)
        (harray.mono fun x hx => by
          simp only [List.mem_append] at hx ⊢
          grind)
      refine hindex.mono fun x hx => ?_
      simp only [Lowered.symbols, Expr.symbols, hm.symbols, symbolsOf_append, List.mem_append] at hx ⊢
      grind
  | binary span operator left right t ihl ihr =>
    simp only [Bound.Expr.Over] at he
    cases h with
    | @shortCircuit _ _ _ _ _ _ _ _ _ _ a b _ _ _ ha hb =>
      have hleft := (Drawn.fresh s.temporaries (.builtin .bool)).append (ihl ha he.1)
      have hright := ihr hb he.2
      rw [Supply.temporaries_nextLabels] at hright
      refine (hleft.append hright).mono fun x hx => ?_
      simp only [Lowered.symbols, Expr.symbols, Stmt.symbols, symbolsOf_append, symbolsOf_cons,
        symbolsOf_nil, symbols_decided, List.mem_append, List.mem_cons] at hx ⊢
      grind
    | binary _ _ hall =>
      have hdrawn := hall.drawn (by simpa using ⟨fun h => ihl h he.1, fun h => ihr h he.2⟩)
        (drawn_start s)
      refine hdrawn.mono fun x hx => ?_
      simp only [Lowered.symbols, Expr.symbols, symbolsAll, List.mem_append] at hx ⊢
      grind
  | unary span operator operand t ih =>
    simp only [Bound.Expr.Over] at he
    cases h with
    | unary _ hv => simpa [Lowered.symbols] using ih hv he
  | call span callable args t ih =>
    simp only [Bound.Expr.Over, Bound.overAll_iff] at he
    cases h with
    | call hall => exact hall.drawn (fun e hmem {_ _ _} h => ih e hmem h (he e hmem)) (drawn_start s)
  | convert span kind operand t isExplicit ih =>
    simp only [Bound.Expr.Over] at he
    cases h with
    | keep hv => exact ih hv he
    | convert _ hv => simpa [Lowered.symbols] using ih hv he
  | index span target index t iht ihi =>
    simp only [Bound.Expr.Over] at he
    cases h with
    | index hall =>
      have hdrawn := hall.drawn (by simpa using ⟨fun h => iht h he.1, fun h => ihi h he.2⟩)
        (drawn_start s)
      refine hdrawn.mono fun x hx => ?_
      simp only [Lowered.symbols, Expr.symbols, symbolsAll, List.mem_append] at hx ⊢
      grind
  | length span target ih =>
    simp only [Bound.Expr.Over] at he
    cases h with
    | length hv => simpa [Lowered.symbols] using ih hv he
  | newArray span element size t ih =>
    simp only [Bound.Expr.Over] at he
    cases h with
    | newArray hv => simpa [Lowered.symbols] using ih hv he

theorem LowersDeclaration.drawn {d : Bound.Declaration} {s s' : Supply} {out : List Stmt}
    (h : LowersDeclaration r d s out s') (hd : d.Over P) :
    Drawn P s.temporaries s'.temporaries (symbolsOf out) := by
  cases h with
  | init hinit hv =>
    refine (hv.drawn (hd.2 _ hinit)).with fun x hx => ?_
    simp only [Lowered.symbols, symbolsOf_append, symbolsOf_cons, symbolsOf_nil, Stmt.symbols,
      Expr.symbols, List.mem_append, List.mem_cons] at hx ⊢
    grind [hd.1]
  | zero _ _ =>
    refine Drawn.known _ fun x hx => ?_
    simp only [symbolsOf_cons, symbolsOf_nil, Stmt.symbols, Expr.symbols, symbols_zeroLiteral,
      List.mem_append, List.mem_cons] at hx
    grind [hd.1]
  | unset _ _ => exact Drawn.known _ (by simpa [Stmt.symbols] using hd.1)

theorem Lowers.drawn_eval {e : Bound.Expr} {s s' : Supply} {out : Lowered}
    (h : Lowers r e s out s') (he : e.Over P) {last : Stmt} (hl : last.symbols = out.expr.symbols) :
    Drawn P s.temporaries s'.temporaries (symbolsOf (out.before ++ [last])) := by
  simpa [hl, Lowered.symbols] using h.drawn he

theorem LowersSetup.drawn {setup : Option Bound.Setup} {s s' : Supply} {out : List Stmt}
    (h : LowersSetup r setup s out s') (hs : ∀ x, setup = some x → x.Over P) :
    Drawn P s.temporaries s'.temporaries (symbolsOf out) := by
  cases h with
  | none => exact Drawn.known _ (by simp)
  | declare hd => exact hd.drawn (hs _ rfl)
  | eval hv => exact hv.drawn_eval (hs _ rfl) rfl

theorem LowersTest.drawn {cond : Option Bound.Expr} {done : Label} {s s' : Supply}
    {out : List Stmt} (h : LowersTest r done cond s out s') (hc : ∀ e, cond = Option.some e → e.Over P) :
    Drawn P s.temporaries s'.temporaries (symbolsOf out) := by
  cases h with
  | none => exact Drawn.known _ (by simp)
  | some hv => exact hv.drawn_eval (hc _ rfl) (symbols_negate _)

theorem LowersPost.drawn {post : Option Bound.Expr} {s s' : Supply} {out : List Stmt}
    (h : LowersPost r post s out s') (hp : ∀ e, post = Option.some e → e.Over P) :
    Drawn P s.temporaries s'.temporaries (symbolsOf out) := by
  cases h with
  | none => exact Drawn.known _ (by simp)
  | some hv => exact hv.drawn_eval (hp _ rfl) rfl

theorem LowersStmts.drawn {loop? : Option LoopLabels} {stmts : List Bound.Stmt}
    (hstmts : ∀ stmt ∈ stmts, ∀ {s s' out}, LowersStmt r loop? stmt s out s' →
      Drawn P s.temporaries s'.temporaries (symbolsOf out))
    {s s' : Supply} {out : List Stmt} (h : LowersStmts r loop? stmts s out s') :
    Drawn P s.temporaries s'.temporaries (symbolsOf out) := by
  induction stmts generalizing s out with
  | nil =>
    cases h
    exact Drawn.known _ (by simp)
  | cons stmt rest ih =>
    cases h with
    | cons hfirst hrest =>
      have htail := ih (fun x hx => hstmts x (List.mem_cons_of_mem _ hx)) hrest
      simpa using (hstmts stmt List.mem_cons_self hfirst).append htail

/-- The symbols of flat statements are those of the bound ones and new temporaries. -/
theorem LowersStmt.drawn {loop? : Option LoopLabels} {stmt : Bound.Stmt} {s s' : Supply}
    {out : List Stmt} (h : LowersStmt r loop? stmt s out s') (hs : stmt.Over P) :
    Drawn P s.temporaries s'.temporaries (symbolsOf out) := by
  induction stmt using Bound.Stmt.induction generalizing loop? s s' out with
  | block span body ih =>
    simp only [Bound.Stmt.Over, Bound.overStmts_iff] at hs
    cases h with
    | block hbody => exact hbody.drawn fun stmt hmem {_ _ _} h => ih stmt hmem h (hs stmt hmem)
  | declare d =>
    simp only [Bound.Stmt.Over] at hs
    cases h with
    | declare hd => exact hd.drawn hs
  | eval e =>
    simp only [Bound.Stmt.Over] at hs
    cases h with
    | eval hv => exact hv.drawn_eval hs rfl
  | ifThen span cond yes ih =>
    simp only [Bound.Stmt.Over] at hs
    cases h with
    | ifThen hv hyes =>
      have hout := ih hyes hs.2
      rw [Supply.temporaries_nextLabels] at hout
      refine ((hv.drawn hs.1).append hout).mono fun x hx => ?_
      simpa [Lowered.symbols, Stmt.symbols, symbols_negate, or_assoc] using hx
  | ifElse span cond yes no ihyes ihno =>
    simp only [Bound.Stmt.Over] at hs
    cases h with
    | ifElse hv hyes hno =>
      have hout := ihyes hyes hs.2.1
      rw [Supply.temporaries_nextLabels] at hout
      refine (((hv.drawn hs.1).append hout).append (ihno hno hs.2.2)).mono fun x hx => ?_
      simpa [Lowered.symbols, Stmt.symbols, symbols_negate, or_assoc] using hx
  | whileLoop span cond body ih =>
    simp only [Bound.Stmt.Over] at hs
    cases h with
    | whileLoop hv hbody =>
      have hcond := hv.drawn hs.1
      rw [Supply.temporaries_nextLabels] at hcond
      refine (hcond.append (ih hbody hs.2)).mono fun x hx => ?_
      simpa [Lowered.symbols, Stmt.symbols, symbols_negate, or_assoc] using hx
  | forLoop span setup cond post body ih =>
    simp only [Bound.Stmt.Over] at hs
    cases h with
    | forLoop hsetup htest hbody hpost =>
      have hcond := htest.drawn hs.2.1
      rw [Supply.temporaries_nextLabels] at hcond
      have hturn := (hcond.append (ih hbody hs.2.2.2)).append (hpost.drawn hs.2.2.1)
      refine ((hsetup.drawn hs.1).append hturn).mono fun x hx => ?_
      simpa [Stmt.symbols, or_assoc] using hx
  | breakLoop span | continueLoop span =>
    cases h
    exact Drawn.known _ (by simp [Stmt.symbols])
  | returnStmt span value =>
    simp only [Bound.Stmt.Over] at hs
    cases h with
    | returnNone => exact Drawn.known _ (by simp [Stmt.symbols])
    | returnSome hv => exact hv.drawn_eval (hs _ rfl) rfl

end

theorem symbols_terminated (result : TypeId) (body : List Stmt) :
    symbolsOf (Lowering.terminated result body) = symbolsOf body := by
  unfold Lowering.terminated
  split
  · rfl
  · split <;> simp [Stmt.symbols, symbols_zeroLiteral]

/-- In a flat program symbols with the same number are the same: in each routine among its own, its
parameters and the global variables. What is called is a routine of the library or a function of the
program, each of which has a callable of its own. -/
structure Program.Identified (r : Registry) (p : Program) : Prop where
  distinct : ∀ f ∈ p.routines, ∀ a ∈ symbolsOf f.body ++ f.params ++ p.globals,
    ∀ b ∈ symbolsOf f.body ++ f.params ++ p.globals, a.id = b.id → a = b
  registry : Binder.initial.registry ≤ r
  nested : r.Nested
  callables : ∀ t c, r.callable t = .ok c → c.op? = none →
    Binder.initial.registry.callable t = .ok c ∨ t ∈ p.functions.map Routine.callable
  nodup : (p.functions.map Routine.callable).Nodup
  initializer : p.initializer.callable = .absent ∧ p.initializer.params = []
  script : ∀ f, p.script? = some f → f.callable = .absent ∧ f.params = []

theorem LowersRoutine.keeps {r : Registry} {f : Bound.Routine} {g : Routine}
    (h : LowersRoutine r f g) : g.callable = f.callable ∧ g.params = f.params := by
  obtain ⟨_⟩ := h
  exact ⟨rfl, rfl⟩

theorem LowersRoutine.drawn {r : Registry} {P : Symbol → Prop} {f : Bound.Routine} {g : Routine}
    (h : LowersRoutine r f g) (hf : Bound.overStmts P f.body) :
    ∃ n, Drawn P 0 n (symbolsOf g.body) := by
  obtain ⟨hbody⟩ := h
  rw [Bound.overStmts_iff] at hf
  have hdrawn := hbody.drawn (P := P) fun stmt hmem {_ _ _} h => h.drawn (hf stmt hmem)
  rw [← symbols_terminated f.result] at hdrawn
  exact ⟨_, hdrawn⟩

/-- Flattening keeps the identities of a program. -/
theorem LowersProgram.identified {r : Registry} {p : Bound.Program} {q : Program}
    (h : LowersProgram r p q) {made : List Symbol} (hp : Binder.Identified r p made) :
    q.Identified r := by
  have hcallables : q.functions.map Routine.callable = p.functions.map Bound.Routine.callable := by
    have hall : ∀ {fs gs}, List.Forall₂ (LowersRoutine r) fs gs →
        gs.map Routine.callable = fs.map Bound.Routine.callable := by
      intro fs gs hfg
      induction hfg with
      | nil => rfl
      | cons hab _ ih => rw [List.map_cons, List.map_cons, hab.keeps.1, ih]
    exact hall h.functions
  refine ⟨fun g hg => ?_, hp.registry, hp.nested, ?_, ?_, ?_, fun g hg => ?_⟩
  · obtain ⟨f, hf, hlowers⟩ := exists_left h.routines hg
    obtain ⟨hparams, hover⟩ := hp.routines f hf
    obtain ⟨n, hdrawn⟩ := hlowers.drawn hover
    have hsame := hlowers.keeps.2
    have hall : Drawn (· ∈ made) 0 n (symbolsOf g.body ++ g.params ++ q.globals) := by
      refine hdrawn.with fun x hx => ?_
      rw [hsame, h.globals, List.mem_append, List.mem_append] at hx
      obtain (hx | hx) | hx := hx
      · exact .inl hx
      · exact .inr (hparams x hx)
      · exact .inr (hp.globals x hx)
    exact hall.distinct hp.declared fun x y hx hy => hp.distinct x hx y hy
  · rw [hcallables]
    exact hp.callables
  · rw [hcallables]
    exact hp.nodup
  · obtain ⟨hcallable, hparams⟩ := h.initializer.keeps
    rw [hcallable, hparams]
    exact hp.initializer
  · obtain ⟨f, hf, hlowers⟩ := exists_left h.script (Option.mem_toList.mpr hg)
    obtain ⟨hcallable, hparams⟩ := hlowers.keeps
    rw [hcallable, hparams]
    exact hp.script f (Option.mem_toList.mp hf)

end Flat
end TypedScript
