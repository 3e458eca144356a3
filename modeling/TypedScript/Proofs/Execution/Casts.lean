import TypedScript.Proofs.Binding.Expr
import TypedScript.Proofs.Binding.Identity
import TypedScript.Proofs.Execution.Bound
import TypedScript.Proofs.Execution.Frame
import TypedScript.Proofs.Machine.Scalars

/-!
# Casts to a text and back

A cast to a text and one from a text are calls of the library, and no function of a program stands for a
callable of the library. So what a value becomes on its way through a text is what the machine writes
for it and reads from that.
-/

namespace TypedScript

namespace Binder

open TypedScript.Binding TypedScript.Bound

def parserOf (b : Builtin) : TypeId := (initial.library.parser? (.builtin b)).getD .absent

def parserKey (b : Builtin) : String := "std.convert.parse_" ++ b.name ++ "(string)"

def toTextKey : String := "std.convert.to_string(object)"

/-- An expression cast to a text, and that to a type. -/
def throughText (outer inner : Span) (b : Builtin) (e : Expr) : Expr :=
  .call outer (parserOf b)
    [.call inner initial.library.toText [.convert e.span .box e (.builtin .object) false]
      (.builtin .string)]
    (.builtin b)

section

variable {b : Builtin}

theorem initial_parse (hb : b.isScalar) (hne : b ≠ .string) :
    initial.library.parser? (.builtin b) = some (parserOf b) ∧
      ∃ g, initial.registry.callable (parserOf b) =
        .ok ⟨g, .builtin b, [.builtin .string], none⟩ := by
  obtain ⟨c, g, hc, hg⟩ := initial_spec.2.1.parser b hb hne
  have heq : parserOf b = c := by rw [parserOf, hc, Option.getD_some]
  exact ⟨heq ▸ hc, g, heq ▸ hg⟩

/-- The key of a reader and what the machine has under it. -/
theorem libraryKey_parserOf (hb : b.isScalar) (hne : b ≠ .string) :
    initial.registry.libraryKey (parserOf b) = .ok (parserKey b) ∧
      Native.find? (parserKey b) = some ⟨parserKey b, .routine (.parse b.tag)⟩ := by
  have hkey : ∀ b ∈ Builtin.scalars, b ≠ .string →
      initial.registry.libraryKey (parserOf b) = .ok (parserKey b) := by decide +kernel
  have hfind : ∀ b ∈ Builtin.scalars, b ≠ .string →
      Native.find? (parserKey b) = some ⟨parserKey b, .routine (.parse b.tag)⟩ := by decide +kernel
  have hmem : b ∈ Builtin.scalars := by revert hb; cases b <;> decide
  exact ⟨hkey b hmem hne, hfind b hmem hne⟩

theorem libraryKey_toText : initial.registry.libraryKey initial.library.toText = .ok toTextKey ∧
    Native.find? toTextKey = some ⟨toTextKey, .routine .toText⟩ := by
  refine ⟨by decide +kernel, by decide +kernel⟩

/-- A function of a program has a callable that no program has from the start. -/
theorem bindProgram_separate {file : Parsed.File} {p : Program} {s : State}
    (hrun : bindProgram file initial = .ok (p, s)) {t : TypeId} {c : Callable}
    (ht : initial.registry.callable t = .ok c) : t ∉ p.functions.map Routine.callable := by
  have hminted : Minted [t] [] initial := by
    refine { minted_initial with callables := fun _ _ hc _ => .inl hc, placed := ?_, nodup := by simp }
    rw [Registry.callable_eq_ok] at ht
    cases t with
    | derived i =>
      have hi : i < initial.registry.entries.size := (Array.getElem?_eq_some_iff.mp ht).1
      simpa using hi
    | _ => simp [Registry.get?] at ht
  unfold bindProgram at hrun
  obtain ⟨_, s₁, himports, hrun⟩ := bind_eq_ok hrun
  obtain ⟨made₁, -, hs₁, -⟩ := Mints.bindImports file.imports initial _ s₁ hminted himports
  obtain ⟨pending, s₂, hdeclare, hrun⟩ := bind_eq_ok hrun
  obtain ⟨made₂, hs₂⟩ := minted_declareFunctions hs₁ hdeclare
  obtain ⟨q, s₃, hinit, hrun⟩ := bind_eq_ok hrun
  obtain ⟨made₃, -, hs₃, -⟩ := Mints.bindInitializer file s₂ q s₃ hs₂ hinit
  obtain ⟨fs, s₄, hfunctions, hrun⟩ := bind_eq_ok hrun
  obtain ⟨_, -, hs₄, -, hcallables⟩ := Mints.bindFunctions pending s₃ fs s₄ hs₃ hfunctions
  have hfs : p.functions = fs := by
    dsimp only at hrun
    split at hrun
    · cases hrun
      rfl
    · obtain ⟨_, _, -, hpure⟩ := bind_eq_ok hrun
      cases hpure
      rfl
  rw [hfs, hcallables]
  exact (List.nodup_cons.mp hs₄.nodup).1

theorem run_requireValue_call (s : State) {span : Span} {callable t : TypeId} {args : List Expr}
    (ht : t ≠ .builtin .void) :
    requireValue (.call span callable args t) s = .ok (.call span callable args t, s) := by
  rw [requireValue, if_neg ht]
  rfl

theorem run_valueType (s : State) (span : Span) (hb : b ≠ .void) :
    valueType ⟨span, b.name, 0⟩ s = .ok (.builtin b, s) := by
  have hname : Builtin.ofName? b.name = some b := by cases b <;> decide
  have hresolve : resolveType ⟨span, b.name, 0⟩ s = .ok (.builtin b, s) := by
    simp only [resolveType, hname, Nat.lt_irrefl, decide_false, Bool.false_and, Bool.false_eq_true,
      if_false]
    rfl
  rw [valueType, run_bind hresolve, if_neg (by simpa using hb)]
  rfl

variable {params : List Symbol} {s : State} (hs : Sound params s)
include hs

/-- A cast of a scalar to a text boxes it and calls the routine that writes objects. -/
theorem run_applyCast_string (hb : b.isScalar) (hne : b ≠ .string) {e : Expr}
    (htype : e.type = .builtin b) (span : Span) :
    applyCast e (.builtin .string) span s =
      .ok (.call span initial.library.toText [.convert e.span .box e (.builtin .object) false]
        (.builtin .string), s) := by
  have hclassify : s.registry.classify e.type (.builtin .string) = .ok .toText := by
    rw [htype, Registry.classify_eq (Registry.isType_builtin _ _) (Registry.isType_builtin _ _)]
    revert hb hne
    cases b <;> decide
  have hbox : s.registry.classify e.type (.builtin .object) = .ok .box := by
    rw [htype, Registry.classify_eq (Registry.isType_builtin _ _) (Registry.isType_builtin _ _)]
    revert hb hne
    cases b <;> decide
  obtain ⟨g, hg⟩ := hs.loaded.toText
  have hobject : e.type ≠ .builtin .object := by
    rw [htype]
    rintro ⟨⟩
    cases hb
  have hcoerce : coerceAll [e] [.builtin .object] s =
      .ok ([.convert e.span .box e (.builtin .object) false], s) := by
    have hone : coerce e (.builtin .object) s =
        .ok (.convert e.span .box e (.builtin .object) false, s) := by
      rw [coerce, if_neg hobject, run_bind (run_ask hbox)]
      rfl
    rw [coerceAll, run_bind hone]
    rfl
  have hok : (e.isError || decide (TypeId.builtin .string = .error)) = false := by
    simp [Expr.isError, htype]
  rw [applyCast, hok, if_neg Bool.false_ne_true, run_bind (run_ask hclassify)]
  dsimp only
  rw [run_bind (run_get s), run_bind (run_ask hg), run_bind hcoerce, hs.library]
  rfl

theorem run_applyCast_parse (hb : b.isScalar) (hne : b ≠ .string) {e : Expr}
    (htype : e.type = .builtin .string) (span : Span) :
    applyCast e (.builtin b) span s = .ok (.call span (parserOf b) [e] (.builtin b), s) := by
  have hclassify : s.registry.classify e.type (.builtin b) = .ok .parse := by
    rw [htype, Registry.classify_eq (Registry.isType_builtin _ _) (Registry.isType_builtin _ _)]
    revert hb hne
    cases b <;> decide
  have hok : (e.isError || decide (TypeId.builtin b = .error)) = false := by
    simp [Expr.isError, htype]
  rw [applyCast, hok, if_neg Bool.false_ne_true, run_bind (run_ask hclassify)]
  dsimp only
  rw [run_bind (run_get s), hs.library, (initial_parse hb hne).1]
  rfl

omit hs

/-- A written cast to a text and from that to the type of the operand is bound to the two calls. -/
theorem bindValue_throughText {params : List Symbol} {s s' : State} (hs : Sound params s')
    (hb : b.isScalar) (hne : b ≠ .string) {e : Parsed.Expr} {e' : Expr}
    (hrun : bindValue e s = .ok (e', s')) (htype : e'.type = .builtin b)
    (outer inner text type : Span) :
    bindValue (.cast outer (.cast inner e ⟨text, "string", 0⟩) ⟨type, b.name, 0⟩) s =
      .ok (throughText outer inner b e', s') := by
  obtain ⟨e₀, s₀, hbind, hrequire⟩ := bind_eq_ok hrun
  have hvoid : b ≠ .void := by
    rintro rfl
    cases hb
  have hinner : bindExpr (.cast inner e ⟨text, "string", 0⟩) s =
      .ok (.call inner initial.library.toText [.convert e'.span .box e' (.builtin .object) false]
        (.builtin .string), s') := by
    have htext : valueType ⟨text, "string", 0⟩ s' = .ok (.builtin .string, s') :=
      run_valueType (b := .string) s' text (by decide)
    rw [bindExpr, run_bind hbind, run_bind hrequire, run_bind htext]
    exact run_applyCast_string hs hb hne htype inner
  have houter : bindExpr (.cast outer (.cast inner e ⟨text, "string", 0⟩) ⟨type, b.name, 0⟩) s =
      .ok (throughText outer inner b e', s') := by
    rw [bindExpr, run_bind hinner, run_bind (run_requireValue_call s' (by decide)),
      run_bind (run_valueType s' type hvoid)]
    exact run_applyCast_parse hs hb hne rfl outer
  rw [bindValue, run_bind houter]
  exact run_requireValue_call s' (by simpa using hvoid)

end

end Binder

namespace Bound

open Execution

section

variable {caller key text : String} {v : Value} {w : Shared}

theorem callRoutine_toText (h : v.format? w.heap = some text) :
    ofAction caller (Action.callRoutine key .toText [v]) w = .ok (.string text) w := by
  have hrun : Action.callRoutine key .toText [v] w.machine = .ok (.string text) w.machine := by
    have htext : Action.text v w.machine = .ok text w.machine := by
      change Action.orCrash (v.format? w.heap) w.machine = _
      rw [h]
      rfl
    exact bind_ok htext
  rw [ofAction, hrun]
  rfl

theorem callRoutine_parse_eq (key text : String) (t : Tag) :
    Action.callRoutine key (.parse t) [.string text] =
      match Value.parse? t text with
      | some v => return v
      | none => Action.fail (.unreadable key text t) := rfl

theorem callRoutine_parse {t : Tag} (h : Value.parse? t text = some v) :
    ofAction caller (Action.callRoutine key (.parse t) [.string text]) w = .ok v w := by
  have hrun : Action.callRoutine key (.parse t) [.string text] w.machine = .ok v w.machine := by
    rw [callRoutine_parse_eq, h]
    rfl
  rw [ofAction, hrun]
  rfl

theorem callRoutine_parse_none {t : Tag} (h : Value.parse? t text = none) :
    ofAction caller (Action.callRoutine key (.parse t) [.string text]) w =
      .error (.fault caller (.unreadable key text t)) w := by
  have hrun : Action.callRoutine key (.parse t) [.string text] w.machine =
      Action.fail (.unreadable key text t) w.machine := by
    rw [callRoutine_parse_eq, h]
  rw [ofAction, hrun]
  rfl

variable {x : Environment} {σ σ' : State} {e : Expr}

theorem eval_call_one (span : Span) (callable t : TypeId) (h : eval x e σ = .ok v σ') :
    eval x (.call span callable [e] t) σ = perform (x.invoke callable [v]) σ' := by
  have hargs : evalAll x [e] σ = .ok [v] σ' := by
    rw [evalAll, bind_ok h]
    rfl
  rw [eval, bind_ok hargs]
  rfl

theorem eval_box (span : Span) (t : TypeId) (explicit : Bool) (h : eval x e σ = .ok v σ') :
    eval x (.convert span .box e t explicit) σ =
      .ok (.boxed σ'.shared.boxes (nameOf x.registry e.type) v)
        { σ' with shared := { σ'.shared with boxes := σ'.shared.boxes + 1 } } := by
  rw [eval, bind_ok h]
  rfl

end

section

variable {file : Parsed.File} {p : Program} {s : Binding.State}

/-- What a call of a routine of the library does in a program. -/
theorem Program.call_library (hbind : Binder.bindProgram file Binder.initial = .ok (p, s))
    {t : TypeId} {c : Callable} {key : String} {n : TypedScript.Routine}
    (ht : Binder.initial.registry.callable t = .ok c) (hc : ∀ u ∈ c.params, ∃ b, u = .builtin b)
    (hkey : Binder.initial.registry.libraryKey t = .ok key)
    (hfind : Native.find? key = some ⟨key, .routine n⟩) (turns depth : Nat) (caller : String)
    (args : List Value) : p.call s.registry turns depth caller t args =
      ofAction caller (Action.callRoutine key n args) := by
  obtain ⟨made, hidentified⟩ := Binder.bindProgram_identified hbind
  have hnone : p.function? t = none := by
    have habsent : t ≠ .absent := by
      rintro rfl
      cases ht
    have hseparate := Binder.bindProgram_separate hbind ht
    rw [Program.function?, List.find?_eq_none]
    intro f hf hcallable
    simp only [ne_eq, Bool.and_eq_true, decide_eq_true_eq] at hcallable
    obtain ⟨hcallable, hpresent⟩ := hcallable
    simp only [Program.routines, List.cons_append, List.mem_cons, List.mem_append,
      Option.mem_toList] at hf
    obtain rfl | hf | hf := hf
    · exact habsent (hcallable ▸ hidentified.initializer.1)
    · exact hseparate (hcallable ▸ List.mem_map_of_mem hf)
    · exact habsent (hcallable ▸ (hidentified.script f hf).1)
  have hkey' : s.registry.libraryKey t = .ok key :=
    Registry.libraryKey_mono hidentified.registry ht hc hkey
  rw [Program.call, callAt, hnone]
  simp only [hkey', callNative, hfind]

variable {turns depth : Nat} {x : Environment} {σ σ' : State} {e : Expr} {v : Value}

/-- A scalar comes back from its text, with one more value boxed on the way. The replacement character
does not: reading it is a fault. -/
theorem eval_throughText (hbind : Binder.bindProgram file Binder.initial = .ok (p, s))
    (hinvoke : x.invoke = p.call s.registry turns depth x.routine) {b : Builtin}
    (hv : v.IsScalar b.tag) (heval : eval x e σ = .ok v σ') (outer inner : Span) :
    ∃ text, v.format? σ'.shared.heap = some text ∧
      eval x (Binder.throughText outer inner b e) σ =
        if v = Value.replacement then
          .error (.fault x.routine (.unreadable (Binder.parserKey b) text b.tag))
            { σ' with shared := { σ'.shared with boxes := σ'.shared.boxes + 1 } }
        else .ok v { σ' with shared := { σ'.shared with boxes := σ'.shared.boxes + 1 } } := by
  obtain ⟨text, htext, hparse⟩ := hv.exists_text
  refine ⟨text, htext _, ?_⟩
  obtain ⟨hb, hne⟩ : b.isScalar ∧ b ≠ .string := by
    revert hv
    cases b <;> first
      | exact fun _ => by decide
      | (intro hv; cases hv with | integer ht => cases ht)
  obtain ⟨-, g, hparser⟩ := Binder.initial_parse hb hne
  obtain ⟨hkey, hfind⟩ := Binder.libraryKey_parserOf hb hne
  obtain ⟨g', htoText⟩ := Binder.initial_spec.2.1.toText
  obtain ⟨hkey', hfind'⟩ := Binder.libraryKey_toText
  have hboxed : ∀ heap id type, (Value.boxed id type v).format? heap = some text :=
    fun heap _ _ => htext heap
  have hbox := eval_box e.span (.builtin .object) false heval
  have hwrite := eval_call_one inner Binder.initial.library.toText (.builtin .string) hbox
  rw [hinvoke, Program.call_library hbind htoText (by simp) hkey' hfind',
    perform_ok (callRoutine_toText (hboxed _ _ _))] at hwrite
  have hread := eval_call_one outer (Binder.parserOf b) (.builtin b) hwrite
  rw [hinvoke, Program.call_library hbind hparser (by simp) hkey hfind] at hread
  rw [Binder.throughText, hread]
  split
  · next heq =>
    rw [if_pos heq] at hparse
    exact perform_error (callRoutine_parse_none hparse)
  · next hne =>
    rw [if_neg hne] at hparse
    exact perform_ok (callRoutine_parse hparse)

end

end Bound

/-- Integers, truth values and characters come back from their texts, in the machine and through the
casts of every program, and what is read for an integer type is within its range. The one exception is
the replacement character, for which reading its text is a fault. -/
theorem scalars_read_back (t : Tag) (v : Value) :
    (v.IsScalar t → ∃ text, (∀ heap, v.format? heap = some text) ∧
      Value.parse? t text = if v = Value.replacement then none else some v) ∧
    (∀ text, t.isSigned || t.isUnsigned → Value.parse? t text = some v →
      ∃ n, v.Denotes t n ∧ t.InRange n) ∧
    (∀ {params : List Symbol} {s s' : Binding.State} {b : Builtin} {e : Parsed.Expr}
      {e' : Bound.Expr} (outer inner text type : Span), Binder.Sound params s → e.Proper →
      b.isScalar → b ≠ .string → Binder.bindValue e s = .ok (e', s') → e'.type = .builtin b →
      Binder.bindValue (.cast outer (.cast inner e ⟨text, "string", 0⟩) ⟨type, b.name, 0⟩) s =
        .ok (Binder.throughText outer inner b e', s')) ∧
    ∀ {file : Parsed.File} {p : Bound.Program} {s : Binding.State} {turns depth : Nat}
      {x : Execution.Environment} {b : Builtin} {e : Bound.Expr} {σ σ' : Execution.State}
      (outer inner : Span), Binder.bindProgram file Binder.initial = .ok (p, s) →
      x.invoke = p.call s.registry turns depth x.routine → v.IsScalar b.tag →
      Bound.eval x e σ = .ok v σ' → ∃ text, v.format? σ'.shared.heap = some text ∧
        Bound.eval x (Binder.throughText outer inner b e) σ =
          if v = Value.replacement then
            .error (.fault x.routine (.unreadable (Binder.parserKey b) text b.tag))
              { σ' with shared := { σ'.shared with boxes := σ'.shared.boxes + 1 } }
          else .ok v { σ' with shared := { σ'.shared with boxes := σ'.shared.boxes + 1 } } := by
  refine ⟨fun h => h.exists_text, fun text ht h => ?_, ?_, ?_⟩
  · obtain ⟨n, hn⟩ := Value.denotes_of_parse? ht h
    exact ⟨n, hn, hn.inRange⟩
  · intro params s s' b e e' outer inner text type hs he hb hne hrun htype
    obtain ⟨e'', s'', hrun', hs', -⟩ := Binder.Binds.bindValue hs e he
    obtain ⟨-, rfl⟩ := Prod.mk.inj (Except.ok.inj (hrun.symm.trans hrun'))
    exact Binder.bindValue_throughText hs' hb hne hrun htype outer inner text type
  · intro file p s turns depth x b e σ σ' outer inner hbind hinvoke hv heval
    exact Bound.eval_throughText hbind hinvoke hv heval outer inner

/-- A script that casts a letter to a text and back. -/
def spelling : Parsed.File :=
  ⟨default, [], [], [],
    [.eval ⟨default, .cast default (.cast default (.char default 'a') ⟨default, "string", 0⟩)
      ⟨default, "char", 0⟩⟩]⟩

theorem scalars_read_back_letter :
    (∃ text, (∀ heap, (Value.int (-0x8000000000000000)).format? heap = some text) ∧
      Value.parse? .i64 text = some (.int (-0x8000000000000000))) ∧
    (∃ n, (Value.uint 200).Denotes .u8 n ∧ Tag.u8.InRange n) ∧
    Binder.bindValue (.cast default (.cast default (.char default 'a') ⟨default, "string", 0⟩)
      ⟨default, Builtin.char.name, 0⟩) Binder.initial =
        .ok (Binder.throughText default default .char (.literal default (.char 'a') (.builtin .char)),
          Binder.initial) ∧
    ∃ p s, Binder.bindProgram spelling Binder.initial = .ok (p, s) ∧
      ∀ turns depth routine args σ, Bound.eval ⟨s.registry, routine, args,
          p.call s.registry turns depth routine⟩
          (Binder.throughText default default .char (.literal default (.char 'a') (.builtin .char))) σ =
        .ok (.char 97) { σ with shared := { σ.shared with boxes := σ.shared.boxes + 1 } } := by
  obtain ⟨hvalue, -, hcast, -⟩ := scalars_read_back .i64 (.int (-0x8000000000000000))
  obtain ⟨-, hrange, -⟩ := scalars_read_back .u8 (.uint 200)
  obtain ⟨-, -, -, hrun⟩ := scalars_read_back .char (.char 97)
  refine ⟨?_, ?_, ?_, ?_⟩
  · exact hvalue (.integer rfl (.signed rfl (by decide)))
  · have hread : Value.parse? .u8 " 200 " = some (.uint 200) := by decide +kernel
    exact hrange _ rfl hread
  · exact hcast default default default default Binder.sound_initial trivial rfl (by decide) rfl rfl
  · have hproper : spelling.Proper :=
      ⟨by simp [spelling], by simp [spelling], by
        simp [spelling, Parsed.properStmts, Parsed.Stmt.Proper, Parsed.Expr.Proper]⟩
    obtain ⟨p, s, hbind, -⟩ := Binder.bindProgram_typed hproper
    refine ⟨p, s, hbind, fun turns depth routine args σ => ?_⟩
    have hletter : Bound.eval
        ⟨s.registry, routine, args, p.call s.registry turns depth routine⟩
        (.literal default (.char 'a') (.builtin .char)) σ = .ok (.char 97) σ := rfl
    obtain ⟨text, -, heval⟩ := hrun (b := .char) default default hbind rfl (.char 'a') hletter
    exact heval

end TypedScript
