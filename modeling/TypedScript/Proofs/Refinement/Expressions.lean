import TypedScript.Proofs.Execution.Expressions
import TypedScript.Proofs.Refinement.Scenes

/-!
# The code of expressions

The code of an expression leaves its value on the stack, with the effects of the expression; so do the
codes of operators, conversions and accesses, given their operands. What calls do is left open.
-/

namespace TypedScript

open Emission Execution Machine

@[simp] theorem Tag.ofByte_toByte (t : Tag) : Tag.ofByte t.toByte = t := by cases t <;> rfl

/-- The operand of a conversion stands for a tag. -/
theorem Tag.ofByte_operand (t : Tag) :
    Tag.ofByte (Int32.ofNat t.toByte.toNat).toUInt32.toUInt8 = t := by
  cases t <;> rfl

theorem Emission.isBinary_of_operation? {op : BinaryOperator} {o : Operation} {negated : Bool}
    (h : operation? op = some (o, negated)) : Action.isBinary o := by
  cases op <;> simp only [operation?, Option.some.injEq, Prod.mk.injEq, reduceCtorEq] at h <;>
    obtain ⟨rfl, -⟩ := h <;> rfl

theorem Execution.nameOf_eq {r : Registry} {t : TypeId} {n : String} (h : typeName r t = .ok n) :
    nameOf r t = n := by
  simp only [nameOf, h]

/-- Global variables have fields of their own. -/
theorem Generated.static_injective {r : Registry} {p : Flat.Program} {M : Module}
    (h : Generated r p M) {a b : Symbol} (ha : a ∈ p.globals) (hb : b ∈ p.globals) {i : Nat}
    (hi : staticOf (contextOf r p) a = .ok i) (hj : staticOf (contextOf r p) b = .ok i) : a = b := by
  have hid : ∀ {s : Symbol}, staticOf (contextOf r p) s = .ok i →
      (p.globals.map Symbol.id)[i]? = some s.id := by
    intro s hs
    unfold staticOf at hs
    split at hs
    · next e he =>
      obtain rfl := Except.ok.inj hs
      have hkey : e.1 = s.id := by simpa using List.find?_some he
      rw [← hkey]
      exact List.mem_zipIdx_iff_getElem?.mp (List.mem_of_find?_eq_some he)
    · cases hs
  have heq : a.id = b.id := Option.some.inj ((hid hi).symm.trans (hid hj))
  refine h.identified.distinct p.initializer (by simp [Flat.Program.routines]) a ?_ b ?_ heq
  · simp [ha]
  · simp [hb]

/-- Storing a global variable in its field leaves the others alone. -/
theorem Mirrors.setStatic {r : Registry} {p : Flat.Program} {M : Module} {σ : Shared} {w : Machine}
    (h : Mirrors r p M σ w) (hg : Generated r p M) {sym : Symbol} (hsym : sym ∈ p.globals) {i : Nat}
    (hi : staticOf (contextOf r p) sym = .ok i) {statics : Array Value}
    (hstatics : w.statics? = some statics) (v : Value) :
    Mirrors r p M { σ with globals := Function.update σ.globals sym v }
      { w with statics? := some (statics.set! i v) } := by
  obtain ⟨statics', hstatics', hvalues⟩ := h.statics
  obtain rfl := Option.some.inj (hstatics.symm.trans hstatics')
  refine { h with statics := ⟨_, rfl, fun other hother j hj => ?_⟩ }
  change _ = some (Function.update σ.globals sym v other)
  rw [Array.set!_eq_setIfInBounds]
  by_cases heq : other = sym
  · subst heq
    obtain rfl := Except.ok.inj (hi.symm.trans hj)
    have hlt := (Array.getElem?_eq_some_iff.mp (hvalues other hsym i hi)).1
    rw [Array.getElem?_setIfInBounds_self_of_lt hlt, Function.update_self]
  · have hne : i ≠ j := by
      rintro rfl
      exact heq (hg.static_injective hother hsym hj hi)
    rw [Array.getElem?_setIfInBounds_ne hne, Function.update_of_ne heq]
    exact hvalues other hother j hj

/-- The operands with the value of an expression of a type; one without a value leaves none. -/
def valued (t : TypeId) (v : Value) (ops : List Value) : List Value :=
  if t = .builtin .void then ops else v :: ops

theorem valued_of_ne {t : TypeId} (h : t ≠ .builtin .void) (v : Value) (ops : List Value) :
    valued t v ops = v :: ops :=
  if_neg h

namespace Scene

variable {r : Registry} {p : Flat.Program} {M : Module} {c : Scene r p M} {turns : Nat}
  {ops : List Value} {α : Type}

/-- What a routine runs in, given what calls do. -/
def environment (c : Scene r p M) (invoke : TypeId → List Value → Effect Value) : Environment :=
  ⟨r, c.routine.name, c.args, invoke⟩

theorem params_size (c : Scene r p M) : c.method.params.size = c.args.length := by
  rw [c.arity, c.holds.params.length_eq, Array.length_toList]

theorem lt_of_slot (c : Scene r p M) {i : Nat} {l : SymbolId × Slot} (h : c.slots[i]? = some l) :
    i < 0x80000000 := by
  have hsmall := c.holds.generated.small.locals _ c.holds.method
  rw [c.holds.locals, Array.size_map] at hsmall
  exact lt_of_getElem? h hsmall

/-- Storing a variable in its slot leaves the others alone. -/
theorem Keeps.set {locals : Symbol → Value} {vs : List Value} (h : c.Keeps locals vs) {sym : Symbol}
    (hmem : sym ∈ Flat.symbolsOf c.routine.body) {i : Nat} {slot : Slot}
    (hslot : c.slots[i]? = some (sym.id, slot)) (v : Value) :
    c.Keeps (Function.update locals sym v) (vs.set i v) := by
  refine ⟨by simpa using h.1, fun j sym' slot' hslot' hmem' => ?_⟩
  have hlt : i < vs.length := by
    rw [h.1]
    exact (Array.getElem?_eq_some_iff.mp hslot).1
  by_cases heq : sym' = sym
  · subst heq
    obtain rfl := c.holds.slots.nodup i j _ _ hslot hslot' rfl
    rw [List.getElem?_set_self hlt, Function.update_self]
  · have hne : i ≠ j := by
      rintro rfl
      have hid : sym.id = sym'.id := congrArg Prod.fst (Option.some.inj (hslot.symm.trans hslot'))
      refine heq (c.holds.generated.identified.distinct c.routine c.holds.routine sym' ?_ sym ?_ hid.symm)
      · simp [hmem']
      · simp [hmem]
    rw [List.getElem?_set_ne hne, Function.update_of_ne heq]
    exact h.2 j sym' slot' hslot' hmem'

/-- An instruction that takes some operands off and puts others in their place has an effect on what
is shared. -/
theorem Runs.effect (taken : List Value) (left : α → List Value) {i : Instruction} {op : Operation}
    (hop : i.operation? = some op) (hret : op ≠ .ret) (hretVoid : op ≠ .retVoid) {e : Effect α}
    (he : ∀ σ f w s, Mirrors r p M σ w →
      (∃ a σ' w', e σ = .ok a σ' ∧ (Action.perform op i f c.method).Does w (taken ++ s) (.ok ()) w'
        (left a ++ s) ∧ Mirrors r p M σ' w' ∧ w'.calls = w.calls ∧ w'.maxDepth = w.maxDepth) ∨
      ∃ stop σ' w' s', e σ = .error (.ofStop c.routine.name stop) σ' ∧
        (Action.perform op i f c.method).Does w (taken ++ s) (.error (stop.located w)) w' s' ∧
        Mirrors r p M σ' w') :
    c.Runs turns [.instruction i] (taken ++ ops) (perform e) fun a => left a ++ ops := by
  refine .instruction hop hret hretVoid fun σ f n w s _ hstands => ?_
  obtain ⟨vs, hkeeps, rfl⟩ := hstands.stack
  have hframe : ∀ top : List Value, frame (top ++ ops) vs c.args c.below =
      top ++ frame ops vs c.args c.below := fun top => List.append_assoc _ _ _
  rw [hframe]
  obtain ⟨a, σ', w', hrun, hdoes, hmirrors, hcalls, hlimit⟩ | ⟨stop, σ', w', s', hrun, hdoes, hmirrors⟩ :=
    he σ.shared f w (frame ops vs c.args c.below) hstands.mirrors
  · exact .inl ⟨a, _, w', _, perform_ok hrun, hdoes, hmirrors, hcalls.trans hstands.calls,
      hlimit.trans hstands.limit, vs, hkeeps, (hframe _).symm⟩
  · exact .inr ⟨_, _, _, w', s', perform_error hrun, hdoes, hstands.halt_located stop, hmirrors⟩

def fault (cause : Cause) : Stop := .fault ⟨"", 0, cause⟩

/-- An instruction that computes a value from operands, or faults. -/
theorem Runs.orFail (taken : List Value) (result : Shared → Except Cause Value)
    (invoke : TypeId → List Value → Effect Value) {i : Instruction} {op : Operation}
    (hop : i.operation? = some op) (hret : op ≠ .ret) (hretVoid : op ≠ .retVoid) {e : Effect Value}
    (he : ∀ σ, e σ = (c.environment invoke).orFail (result σ) σ)
    (hok : ∀ σ w, Mirrors r p M σ w → ∀ v, result σ = .ok v → ∀ f s,
      (Action.perform op i f c.method).Does w (taken ++ s) (.ok ()) w (v :: s))
    (hfault : ∀ σ w, Mirrors r p M σ w → ∀ cause, result σ = .error cause → ∀ f s,
      (Action.perform op i f c.method).Does w (taken ++ s) (.error (.fault (w.locate cause))) w s) :
    c.Runs turns [.instruction i] (taken ++ ops) (perform e) (· :: ops) := by
  refine .effect taken (fun v => [v]) hop hret hretVoid fun σ f w s hmirrors => ?_
  rw [he]
  cases hresult : result σ with
  | ok v => exact .inl ⟨v, σ, w, rfl, hok σ w hmirrors v hresult f s, hmirrors, rfl, rfl⟩
  | error cause =>
    exact .inr ⟨fault cause, σ, w, s, rfl, hfault σ w hmirrors cause hresult f s, hmirrors⟩

/-- An instruction that runs an action of the machine which looks at arrays and streams only. -/
theorem Runs.action (taken : List Value) (left : Value → List Value) {i : Instruction}
    {op : Operation} (hop : i.operation? = some op) (hret : op ≠ .ret) (hretVoid : op ≠ .retVoid)
    {a : Action Value} (ha : a.Shares)
    (hok : ∀ σ w, Mirrors r p M σ w → ∀ f s w' v, a.Does w s (.ok v) w' s →
      (Action.perform op i f c.method).Does w (taken ++ s) (.ok ()) w' (left v ++ s))
    (herror : ∀ σ w, Mirrors r p M σ w → ∀ f s w' e, a.Does w s (.error e) w' s →
      (Action.perform op i f c.method).Does w (taken ++ s) (.error e) w' s) :
    c.Runs turns [.instruction i] (taken ++ ops) (perform (ofAction c.routine.name a))
      fun v => left v ++ ops := by
  refine .effect taken left hop hret hretVoid fun σ f w s hmirrors => ?_
  cases hrun : a σ.machine with
  | ok v n =>
    have heq : ofAction c.routine.name a σ = .ok v (σ.update n) := by simp only [ofAction, hrun]
    have hdoes := hok σ w hmirrors f s _ v (hmirrors.does_ok ha hrun s)
    exact .inl ⟨v, _, _, heq, hdoes, hmirrors.update n, rfl, rfl⟩
  | error e n =>
    have heq : ofAction c.routine.name a σ = .error (.ofStop c.routine.name e) (σ.update n) := by
      simp only [ofAction, hrun]
    obtain ⟨calls, hstop⟩ := hmirrors.does_error ha hrun s
    have hdoes := herror σ w hmirrors f s _ _ hstop
    exact .inr ⟨e, _, _, s, heq, hdoes, (hmirrors.calls calls).update n⟩

variable {invoke : TypeId → List Value → Effect Value}

theorem tag_environment {t : TypeId} {tag : Tag} (h : tagOf r t = .ok tag) :
    (c.environment invoke).tag t = tag := by
  obtain ⟨n, hn, htag⟩ := exists_of_bind_eq_ok h
  rw [← Except.ok.inj htag, Environment.tag, environment, nameOf_eq hn]

theorem runs_push {i : Nat} {k : Constant} (hk : M.constants[i]? = some k) :
    c.Runs turns [plain .push i] ops (pure k.value : Run Value) (· :: ops) := by
  have his := Instruction.is_plain .push (lt_of_getElem? hk c.holds.generated.small.constants)
  have heffect : c.Runs turns [plain .push i] ([] ++ ops) (perform (pure k.value : Effect Value))
      fun v => [v] ++ ops :=
    Runs.effect [] (fun v => [v]) his.operation (by decide) (by decide) fun σ f w s hmirrors =>
      .inl ⟨k.value, σ, w, rfl,
        Action.performs_push his.operand (by rw [hmirrors.module]; exact hk), hmirrors, rfl, rfl⟩
  exact heffect

theorem runs_operation {o : Operation} {tag : Tag} (ho : Action.isBinary o) (a b : Value) :
    c.Runs turns [typed o tag] (b :: a :: ops)
      (perform ((c.environment invoke).orFail (Arithmetic.binary o tag a b))) (· :: ops) := by
  have htag : (Instruction.typed o tag).tag = tag := Tag.ofByte_toByte tag
  refine Runs.orFail [b, a] (fun _ => Arithmetic.binary o tag a b) invoke
    (Instruction.operation?_typed o tag)
    (by rintro rfl; cases ho) (by rintro rfl; cases ho) (fun _ => rfl) ?_ ?_
  · intro σ w _ v hv f s
    exact Action.performs_binary ho (by rw [htag]; exact hv)
  · intro σ w _ cause hcause f s
    exact Action.performs_binary_fault ho (by rw [htag]; exact hcause)

theorem runs_negation {lines : List CodeLine} (hcode : NegationCode ⟨M, c.slots⟩ lines) (v : Value) :
    c.Runs turns lines (v :: ops) (perform ((c.environment invoke).negation v)) (· :: ops) := by
  obtain ⟨hi⟩ := hcode
  exact Runs.append (runs_push hi) fun a => runs_operation rfl v a

theorem runs_binary {op : BinaryOperator} {tag : Tag} {lines : List CodeLine} {operand : TypeId}
    (hcode : BinaryCode ⟨M, c.slots⟩ op tag lines) (htag : tagOf r operand = .ok tag) (a b : Value) :
    c.Runs turns lines (b :: a :: ops)
      (perform ((c.environment invoke).binary (some (.binary op)) operand a b)) (· :: ops) := by
  cases hcode with
  | @plain o hop =>
    have heq : (c.environment invoke).binary (some (.binary op)) operand a b =
        (c.environment invoke).orFail (Arithmetic.binary o tag a b) := by
      simp only [Environment.binary, hop, tag_environment htag]
      exact bind_pure _
    rw [heq]
    exact runs_operation (isBinary_of_operation? hop) a b
  | @negated o last hop hneg =>
    have heq : (c.environment invoke).binary (some (.binary op)) operand a b =
        (c.environment invoke).orFail (Arithmetic.binary o tag a b) >>=
          fun v => (c.environment invoke).negation v := by
      simp only [Environment.binary, hop, tag_environment htag]
      rfl
    rw [heq, Flat.perform_bind]
    exact Runs.append (runs_operation (isBinary_of_operation? hop) a b) fun v => runs_negation hneg v

theorem runs_unary {op : UnaryOperator} {tag : Tag} {lines : List CodeLine} {operand : TypeId}
    (hcode : UnaryCode ⟨M, c.slots⟩ op tag lines) (htag : tagOf r operand = .ok tag) (v : Value) :
    c.Runs turns lines (v :: ops)
      (perform ((c.environment invoke).unary (some (.unary op)) operand v)) (· :: ops) := by
  have hoperation : ∀ o : Operation, o = .neg ∨ o = .compl →
      c.Runs turns [typed o tag] (v :: ops)
        (perform ((c.environment invoke).orFail (Arithmetic.unary o tag v))) (· :: ops) := by
    intro o ho
    have hi : (Instruction.typed o tag).tag = tag := Tag.ofByte_toByte tag
    refine Runs.orFail [v] (fun _ => Arithmetic.unary o tag v) invoke
      (Instruction.operation?_typed o tag)
      (by rintro rfl; simp at ho) (by rintro rfl; simp at ho) (fun _ => rfl) ?_ ?_
    · intro σ w _ u hu f s
      exact Action.performs_unary ho (by rw [hi]; exact hu)
    · intro σ w _ cause hcause f s
      exact Action.performs_unary_fault ho (by rw [hi]; exact hcause)
  cases hcode with
  | negate =>
    simp only [Environment.unary, tag_environment htag]
    exact hoperation .neg (.inl rfl)
  | plus => exact Runs.nil (a := v) (fun _ => rfl) rfl
  | not hneg => exact runs_negation hneg v
  | complement =>
    simp only [Environment.unary, tag_environment htag]
    exact hoperation .compl (.inr rfl)

theorem runs_conversion {kind : Conversion} {source target : TypeId} {lines : List CodeLine}
    (hcode : ConversionCode (contextOf r p) ⟨M, c.slots⟩ source target kind lines) (v : Value) :
    c.Runs turns lines (v :: ops)
      (perform ((c.environment invoke).conversion kind source target v)) (· :: ops) := by
  cases hcode with
  | @convert _ before after hkind hbefore hafter =>
    have heq : (c.environment invoke).conversion kind source target v =
        (c.environment invoke).orFail (Arithmetic.convert before after v) := by
      have hsource : (c.environment invoke).tag source = before := tag_environment hbefore
      have htarget : (c.environment invoke).tag target = after := tag_environment hafter
      rw [← hsource, ← htarget]
      obtain rfl | rfl := hkind <;> rfl
    rw [heq]
    have hop : Instruction.operation?
        ⟨Operation.convert.code, Int32.ofNat before.toByte.toNat, after.toByte⟩ = some .convert :=
      Operation.convert.ofCode?_code
    refine Runs.orFail [v] (fun _ => Arithmetic.convert before after v) invoke hop (by decide)
      (by decide) (fun _ => rfl) ?_ ?_
    · intro σ w _ u hu f s
      refine Action.performs_convert ?_
      rw [Instruction.tag, Tag.ofByte_operand, Tag.ofByte_toByte]
      exact hu
    · intro σ w _ cause hcause f s
      refine Action.performs_convert_fault ?_
      rw [Instruction.tag, Tag.ofByte_operand, Tag.ofByte_toByte]
      exact hcause
  | @box name i hname hi =>
    have his := Instruction.is_plain .box (lt_of_getElem? hi c.holds.generated.small.types)
    refine Runs.effect [v] (fun u => [u]) his.operation (by decide) (by decide)
      fun σ f w s hmirrors => .inl ⟨.boxed σ.boxes name v, { σ with boxes := σ.boxes + 1 },
        { w with boxes := w.boxes + 1 }, ?_, ?_, ?_, rfl, rfl⟩
    · rw [← nameOf_eq hname]
      rfl
    · rw [← hmirrors.boxes]
      exact Action.performs_box his.operand (by rw [hmirrors.module]; exact hi)
    · exact { hmirrors with boxes := congrArg (· + 1) hmirrors.boxes }
  | @unbox name i hname hi =>
    have his := Instruction.is_plain .unbox (lt_of_getElem? hi c.holds.generated.small.types)
    have heq : (c.environment invoke).conversion .unbox source target v =
        ofAction c.routine.name (Action.unbox name v) := by
      rw [← nameOf_eq hname]
      rfl
    rw [heq]
    refine Runs.action [v] (fun u => [u]) his.operation (by decide) (by decide)
      (Action.Shares.unbox name v) ?_ ?_
    · intro σ w hmirrors f s w' u hdoes
      exact Action.performs_unbox his.operand (by rw [hmirrors.module]; exact hi) hdoes
    · intro σ w hmirrors f s w' e hdoes
      exact Action.performs_unbox_error his.operand (by rw [hmirrors.module]; exact hi) hdoes

theorem runs_element (a i : Value) :
    c.Runs turns [plain .loadElem 0] (i :: a :: ops)
      (perform ((c.environment invoke).element a i)) (· :: ops) := by
  refine Runs.orFail [i, a] (fun σ => σ.machine.element a i) invoke
    (Instruction.operation?_plain .loadElem 0) (by decide) (by decide) (fun _ => rfl) ?_ ?_
  · intro σ w hmirrors v hv f s
    exact Action.performs_loadElem (by rw [hmirrors.element_eq]; exact hv)
  · intro σ w hmirrors cause hcause f s
    exact Action.performs_loadElem_fault (by rw [hmirrors.element_eq]; exact hcause)

theorem runs_setElement (a i v : Value) :
    c.Runs turns [plain .storeElem 0] (v :: i :: a :: ops)
      (perform ((c.environment invoke).setElement a i v)) fun _ => v :: ops := by
  refine Runs.effect [v, i, a] (fun _ => [v])
    (Instruction.operation?_plain .storeElem 0) (by decide) (by decide) fun σ f w s hmirrors => ?_
  cases hplace : σ.machine.place a i with
  | ok place =>
    have heq : (c.environment invoke).setElement a i v σ =
        .ok () (σ.update (σ.machine.setElement place.1 place.2 v)) := by
      simp only [Environment.setElement, hplace]
    have hdoes := Action.performs_storeElem (i := .plain .storeElem 0) (f := f) (g := c.method)
      (v := v) (s := s) ((hmirrors.place_eq a i).trans hplace)
    have hset : w.setElement place.1 place.2 v =
        w.sharing (σ.machine.setElement place.1 place.2 v) := by
      rw [← hmirrors.sharing_eq]
      rfl
    rw [hset] at hdoes
    exact .inl ⟨(), _, _, heq, hdoes, hmirrors.update _, rfl, rfl⟩
  | error cause =>
    have heq : (c.environment invoke).setElement a i v σ =
        .error (.ofStop c.routine.name (fault cause)) σ := by
      simp only [Environment.setElement, hplace]
      rfl
    exact .inr ⟨fault cause, σ, w, s, heq,
      Action.performs_storeElem_fault ((hmirrors.place_eq a i).trans hplace), hmirrors⟩

theorem runs_length (a : Value) :
    c.Runs turns [plain .length 0] (a :: ops) (perform ((c.environment invoke).length a))
      (· :: ops) := by
  refine Runs.orFail [a] (fun σ => (σ.machine.length a).map fun n => .int (Int64.ofNat n)) invoke
    (Instruction.operation?_plain .length 0) (by decide) (by decide) ?_ ?_ ?_
  · intro σ
    cases hlength : σ.machine.length a <;> simp only [Environment.length, hlength] <;> rfl
  · intro σ w hmirrors v hv f s
    cases hlength : σ.machine.length a with
    | ok n =>
      rw [hlength] at hv
      obtain rfl := Except.ok.inj hv
      exact Action.performs_length ((hmirrors.length_eq a).trans hlength)
    | error cause =>
      rw [hlength] at hv
      cases hv
  · intro σ w hmirrors cause hcause f s
    cases hlength : σ.machine.length a with
    | ok n =>
      rw [hlength] at hcause
      cases hcause
    | error cause' =>
      rw [hlength] at hcause
      obtain rfl := Except.error.inj hcause
      exact Action.performs_length_fault ((hmirrors.length_eq a).trans hlength)

theorem runs_newArray {element : TypeId} {name : String} {i : Nat}
    (hname : typeName r element = .ok name) (hi : M.types[i]? = some name) (size : Value) :
    c.Runs turns [plain .newArray i] (size :: ops)
      (perform ((c.environment invoke).newArray element size)) (· :: ops) := by
  have his := Instruction.is_plain .newArray (lt_of_getElem? hi c.holds.generated.small.types)
  refine Runs.effect [size] (fun v => [v]) his.operation (by decide) (by decide)
    fun σ f w s hmirrors => ?_
  have hi' : w.module.types[i]? = some name := by
    rw [hmirrors.module]
    exact hi
  cases hsize : size.index with
  | error cause =>
    have heq : (c.environment invoke).newArray element size σ =
        .error (.ofStop c.routine.name (fault cause)) σ := by
      simp only [Environment.newArray, hsize]
      rfl
    exact .inr ⟨fault cause, σ, w, s, heq, Action.performs_newArray_fault his.operand hi' hsize,
      hmirrors⟩
  | ok n =>
    by_cases hneg : n < 0
    · have heq : (c.environment invoke).newArray element size σ =
          .error (.ofStop c.routine.name (fault (.negativeSize n))) σ := by
        simp only [Environment.newArray, hsize, Environment.orFail, pure_bind, if_pos hneg]
        rfl
      exact .inr ⟨_, σ, w, s, heq, Action.performs_newArray_negative his.operand hi' hsize hneg,
        hmirrors⟩
    by_cases hmost : mostElements < n
    · have heq : (c.environment invoke).newArray element size σ =
          .error (.ofStop c.routine.name (.crash none)) σ := by
        simp only [Environment.newArray, hsize, Environment.orFail, pure_bind, if_neg hneg]
        exact congrFun (if_pos hmost) σ
      exact .inr ⟨_, σ, w, s, heq, Action.performs_newArray_huge his.operand hi' hsize hmost,
        hmirrors⟩
    obtain ⟨k, rfl⟩ := Int.eq_ofNat_of_zero_le (Int.not_lt.mp hneg)
    have heq : (c.environment invoke).newArray element size σ = .ok (.array σ.heap.size)
        { σ with heap := σ.heap.push ⟨name, Array.replicate k (.zero name)⟩ } := by
      rw [← nameOf_eq hname]
      simp only [Environment.newArray, hsize, Environment.orFail, pure_bind, if_neg hneg]
      exact congrFun (if_neg hmost) σ
    have hdoes := Action.performs_newArray (f := f) (g := c.method) (s := s) his.operand hi' hsize
      (Int.not_lt.mp hmost)
    rw [hmirrors.heap] at hdoes
    exact .inl ⟨_, _, _, heq, hdoes, { hmirrors with heap := rfl }, rfl, rfl⟩

/-- The value of a symbol is pushed. -/
theorem runs_load {sym : Symbol} {lines : List CodeLine}
    (hcode : LoadCode (contextOf r p) (· ∈ Flat.symbolsOf c.routine.body) ⟨M, c.slots⟩ sym lines)
    (hsym : (⟨r, p.globals, c.routine.params, False⟩ : Typing).Declares sym) :
    c.Runs turns lines ops ((c.environment invoke).read sym) (· :: ops) := by
  have hvisible := hsym.visible
  unfold Typing.Visible at hvisible
  cases hcode with
  | @loadLocal i slot hkind hmem hslot =>
    have his := Instruction.is_plain .loadLocal (c.lt_of_slot hslot)
    refine .instruction his.operation (by decide) (by decide) fun σ f n w s hf hstands => ?_
    subst hf
    obtain ⟨vs, hkeeps, rfl⟩ := hstands.stack
    refine .inl ⟨σ.locals sym, σ, w, _, ?_, Action.performs_loadLocal his.operand rfl c.params_size
      (hkeeps.2 i sym slot hslot hmem), hstands.mirrors, hstands.calls, hstands.limit, vs, hkeeps,
      rfl⟩
    simp only [Environment.read, hkind]
    rfl
  | @loadArg i hkind =>
    rw [hkind] at hvisible
    have hlt : i < c.args.length := by
      rw [c.arity]
      exact (List.getElem?_eq_some_iff.mp hvisible).1
    have his := Instruction.is_plain .loadArg (a := i)
      (Nat.lt_trans (c.params_size ▸ hlt) (c.holds.generated.small.params _ c.holds.method))
    refine .instruction his.operation (by decide) (by decide) fun σ f n w s hf hstands => ?_
    subst hf
    obtain ⟨vs, hkeeps, rfl⟩ := hstands.stack
    refine .inl ⟨c.args[i], σ, w, _, ?_, Action.performs_loadArg his.operand rfl
      (List.getElem?_eq_getElem hlt), hstands.mirrors, hstands.calls, hstands.limit, vs, hkeeps, rfl⟩
    simp only [Environment.read, hkind, environment, List.getD_eq_getElem?_getD,
      List.getElem?_eq_getElem hlt]
    rfl
  | @loadStatic i hkind hstatic =>
    rw [hkind] at hvisible
    obtain ⟨n, hn⟩ := exists_typeName c.holds.generated.wellFormed hsym.isType hsym.error
    obtain ⟨-, -, -, hi⟩ := c.holds.field_type hstatic hvisible hn
    have his := Instruction.is_plain .loadStatic hi
    refine .instruction his.operation (by decide) (by decide) fun σ f n w s _ hstands => ?_
    obtain ⟨vs, hkeeps, rfl⟩ := hstands.stack
    obtain ⟨statics, hstatics, hvalues⟩ := hstands.mirrors.statics
    refine .inl ⟨σ.shared.globals sym, σ, w, _, ?_, Action.performs_loadStatic his.operand hstatics
      (hvalues sym hvisible i hstatic), hstands.mirrors, hstands.calls, hstands.limit, vs, hkeeps,
      rfl⟩
    simp only [Environment.read, hkind]
    rfl
  | @loadField path i hkind hkey =>
    rw [hkind] at hvisible
    have hfind := (exists_constant hvisible).1
    have his := Instruction.is_plain .loadNative (lt_of_getElem? hkey c.holds.generated.small.natives)
    refine .instruction his.operation (by decide) (by decide) fun σ f n w s _ hstands => ?_
    obtain ⟨vs, hkeeps, rfl⟩ := hstands.stack
    have hnative : w.natives[i]? = some ⟨path, .constant (fieldValue path)⟩ := by
      simpa [fieldValue, hfind] using hstands.mirrors.exists_native hkey hfind
    refine .inl ⟨fieldValue path, σ, w, _, ?_, Action.performs_loadNative his.operand hnative,
      hstands.mirrors, hstands.calls, hstands.limit, vs, hkeeps, rfl⟩
    simp only [Environment.read, hkind]
    rfl

/-- The value on top of the stack is stored in a variable. -/
theorem runs_store {sym : Symbol} {lines : List CodeLine}
    (hcode : StoreCode (contextOf r p) (· ∈ Flat.symbolsOf c.routine.body) ⟨M, c.slots⟩ sym lines)
    (hsym : (⟨r, p.globals, c.routine.params, False⟩ : Typing).Declares sym) (v : Value) :
    c.Runs turns lines (v :: ops) (Execution.write sym v) fun _ => v :: ops := by
  have hvisible := hsym.visible
  unfold Typing.Visible at hvisible
  cases hcode with
  | @storeLocal i slot hkind hmem hslot =>
    have hlt := (Array.getElem?_eq_some_iff.mp hslot).1
    have his := Instruction.is_plain .storeLocal (c.lt_of_slot hslot)
    refine .instruction his.operation (by decide) (by decide) fun σ f n w s hf hstands => ?_
    subst hf
    obtain ⟨vs, hkeeps, rfl⟩ := hstands.stack
    refine .inl ⟨(), { σ with locals := Function.update σ.locals sym v }, w, _, ?_,
      Action.performs_storeLocal his.operand rfl c.params_size (by rw [hkeeps.1]; exact hlt),
      hstands.mirrors, hstands.calls, hstands.limit, _, hkeeps.set hmem hslot v, rfl⟩
    simp only [Execution.write, hkind]
    rfl
  | @storeStatic i hkind hstatic =>
    rw [hkind] at hvisible
    obtain ⟨n, hn⟩ := exists_typeName c.holds.generated.wellFormed hsym.isType hsym.error
    obtain ⟨-, -, -, hi⟩ := c.holds.field_type hstatic hvisible hn
    have his := Instruction.is_plain .storeStatic hi
    refine .instruction his.operation (by decide) (by decide) fun σ f n w s _ hstands => ?_
    obtain ⟨vs, hkeeps, rfl⟩ := hstands.stack
    obtain ⟨statics, hstatics, hvalues⟩ := hstands.mirrors.statics
    have hlt := (Array.getElem?_eq_some_iff.mp (hvalues sym hvisible i hstatic)).1
    refine .inl ⟨(), ⟨σ.locals, { σ.shared with globals := Function.update σ.shared.globals sym v }⟩,
      _, _, ?_, Action.performs_storeStatic his.operand hstatics hlt,
      hstands.mirrors.setStatic c.holds.generated hvisible hstatic hstatics v, hstands.calls,
      hstands.limit, vs, hkeeps, rfl⟩
    simp only [Execution.write, hkind]
    rfl

/-- Calls do what they should: given the arguments, the last on top, the code of a call follows it. -/
def Serves (c : Scene r p M) (turns : Nat) (invoke : TypeId → List Value → Effect Value) : Prop :=
  ∀ {callable t ts lines}, CallCode (contextOf r p) ⟨M, c.slots⟩ callable lines →
    r.Invokes callable ⟨t, ts⟩ → ∀ (args ops : List Value), args.length = ts.length →
    c.Runs turns lines (args.reverse ++ ops) (perform (invoke callable args)) fun v => valued t v ops

theorem valued_eq {t : TypeId} (h : t ≠ .builtin .void) (ops : List Value) :
    (fun v => valued t v ops) = (· :: ops) :=
  funext fun v => valued_of_ne h v ops

theorem length_evalAll {x : Environment} {es : List Flat.Expr} {σ σ' : State} {vs : List Value}
    (h : Flat.evalAll x es σ = .ok vs σ') : vs.length = es.length := by
  induction es generalizing σ vs with
  | nil =>
    simp only [Flat.evalAll] at h
    cases h
    rfl
  | cons e rest ih =>
    simp only [Flat.evalAll] at h
    cases hfirst : Flat.eval x e σ with
    | error k σ₁ =>
      rw [bind_error hfirst] at h
      cases h
    | ok v σ₁ =>
      rw [bind_ok hfirst] at h
      cases hrest : Flat.evalAll x rest σ₁ with
      | error k σ₂ =>
        rw [bind_error hrest] at h
        cases h
      | ok us σ₂ =>
        rw [bind_ok hrest] at h
        cases h
        simp [ih hrest]

theorem runs_exprs {args : List Flat.Expr} {lines : List CodeLine}
    (hcode : CodesAll (contextOf r p) (· ∈ Flat.symbolsOf c.routine.body) ⟨M, c.slots⟩ args lines)
    (hargs : ∀ e ∈ args, ∀ {lines},
      Codes (contextOf r p) (· ∈ Flat.symbolsOf c.routine.body) ⟨M, c.slots⟩ e lines →
      ∀ ops, c.Runs turns lines ops (Flat.eval (c.environment invoke) e) (· :: ops))
    (ops : List Value) :
    c.Runs turns lines ops (Flat.evalAll (c.environment invoke) args) (·.reverse ++ ops) := by
  induction args generalizing lines ops with
  | nil =>
    cases hcode
    exact Runs.nil (fun _ => rfl) rfl
  | cons e rest ih =>
    rw [List.forall_mem_cons] at hargs
    cases hcode with
    | cons he hrest =>
      simp only [Flat.evalAll]
      refine Runs.append (hargs.1 he ops) fun v => ?_
      exact (ih hrest hargs.2 (v :: ops)).map fun vs => by simp

/-- The code of an expression leaves its value. -/
theorem runs_expr (hserves : c.Serves turns invoke) {e : Flat.Expr} {lines : List CodeLine}
    (hcode : Codes (contextOf r p) (· ∈ Flat.symbolsOf c.routine.body) ⟨M, c.slots⟩ e lines)
    (he : e.Typed ⟨r, p.globals, c.routine.params, False⟩) (ops : List Value) :
    c.Runs turns lines ops (Flat.eval (c.environment invoke) e) fun v => valued e.type v ops := by
  have hw := c.holds.generated.wellFormed
  induction e using Flat.Expr.induction generalizing lines ops with
  | literal v t =>
    rw [valued_eq (he.ne_void hw (by simp))]
    cases hcode with
    | literal hi =>
      simp only [Flat.eval]
      exact runs_push hi
  | symbol s =>
    rw [valued_eq (he.ne_void hw (by simp))]
    cases hcode with
    | symbol hload =>
      simp only [Flat.eval]
      exact runs_load hload he
  | assign target value ih =>
    have hvoid := he.ne_void hw (by simp)
    rw [valued_eq hvoid]
    simp only [Flat.Expr.Typed] at he
    obtain ⟨-, htarget, hv, htype⟩ := he
    cases hcode with
    | assign hcode hstore =>
      simp only [Flat.eval]
      have hfirst := ih hcode hv ops
      rw [valued_eq (by rw [htype]; exact hvoid)] at hfirst
      exact hfirst.append fun v => (runs_store hstore htarget v).map fun _ => rfl
  | assignElement array index t value iha ihi ihv =>
    have hvoid := he.ne_void hw (by simp)
    rw [valued_eq hvoid]
    simp only [Flat.Expr.Typed] at he
    obtain ⟨ha, hi, hv, helement, hindex, htype⟩ := he
    have hreference : array.type ≠ .builtin .void :=
      Flat.ne_void_of_element (c := ⟨r, [], [], False⟩) (.inr helement)
    cases hcode with
    | assignElement hca hci hcv =>
      simp only [Flat.eval, List.append_assoc]
      have hfirst := iha hca ha
      have hsecond := ihi hci hi
      have hthird := ihv hcv hv
      simp only [valued_eq hreference] at hfirst
      simp only [valued_eq (show index.type ≠ .builtin .void by simp [hindex])] at hsecond
      simp only [valued_eq (show value.type ≠ .builtin .void by rw [htype]; exact hvoid)] at hthird
      refine (hfirst ops).append fun a => (hsecond _).append fun i => (hthird _).append fun v => ?_
      exact (runs_setElement a i v).map fun _ => rfl
  | binary op operand left right t ihl ihr =>
    rw [valued_eq (he.ne_void hw (by simp))]
    simp only [Flat.Expr.Typed] at he
    obtain ⟨hl, hr, rfl, o, rfl, -, hsig⟩ := he
    obtain ⟨-, hparams⟩ := Intrinsics.isBuiltin_of_mem_signatures hsig
    simp only [List.forall_mem_cons] at hparams
    have hne : left.type ≠ .builtin .void ∧ right.type ≠ .builtin .void := by
      obtain ⟨⟨c, hc, hcv⟩, ⟨d, hd, hdv⟩, -⟩ := hparams
      simp [hc, hd, hcv, hdv]
    cases hcode with
    | binary hcl hcr htag hop =>
      simp only [Flat.eval, List.append_assoc]
      have hfirst := ihl hcl hl
      have hsecond := ihr hcr hr
      simp only [valued_eq hne.1] at hfirst
      simp only [valued_eq hne.2] at hsecond
      exact (hfirst ops).append fun a => (hsecond _).append fun b => runs_binary hop htag a b
  | unary op operand t ih =>
    have hvoid := he.ne_void hw (by simp)
    rw [valued_eq hvoid]
    simp only [Flat.Expr.Typed] at he
    obtain ⟨ho, o, rfl, hsig⟩ := he
    obtain ⟨-, hparams⟩ := Intrinsics.isBuiltin_of_mem_signatures hsig
    simp only [List.forall_mem_cons] at hparams
    have hne : operand.type ≠ .builtin .void := by
      obtain ⟨⟨b, hb, hbv⟩, -⟩ := hparams
      simp [hb, hbv]
    cases hcode with
    | unary hco htag hop =>
      simp only [Flat.eval]
      have hfirst := ih hco ho
      simp only [valued_eq hne] at hfirst
      exact (hfirst ops).append fun v => runs_unary hop htag v
  | call callable args t ih =>
    simp only [Flat.Expr.Typed, Flat.typedAll_iff] at he
    obtain ⟨hargs, hinvokes, -⟩ := he
    obtain ⟨group, hgroup⟩ := hinvokes
    have hparams := hw.callable_params hgroup
    cases hcode with
    | call hca hcc =>
      simp only [Flat.eval]
      have hfirst : c.Runs turns _ ops (Flat.evalAll (c.environment invoke) args) _ :=
        runs_exprs hca (fun e hmem {_} hc ops => by
          have hvalue := ih e hmem hc (hargs e hmem) ops
          rwa [valued_eq (hparams e.type (List.mem_map_of_mem hmem)).2] at hvalue) ops
      refine hfirst.append_of (P := fun vs => vs.length = args.length) length_evalAll fun vs hvs => ?_
      exact hserves hcc ⟨group, hgroup⟩ vs ops (by rw [hvs, List.length_map])
  | convert kind operand t ih =>
    rw [valued_eq (he.ne_void hw (by simp))]
    simp only [Flat.Expr.Typed] at he
    obtain ⟨ho, hov, -⟩ := he
    cases hcode with
    | convert hco hconversion =>
      simp only [Flat.eval]
      have hfirst := ih hco ho
      simp only [valued_eq hov] at hfirst
      exact (hfirst ops).append fun v => runs_conversion hconversion v
  | index target index t iht ihi =>
    rw [valued_eq (he.ne_void hw (by simp))]
    simp only [Flat.Expr.Typed] at he
    obtain ⟨ht, hi, hindex, hkind⟩ := he
    have hvoid : target.type ≠ .builtin .void :=
      Flat.ne_void_of_element (c := ⟨r, [], [], False⟩) (u := t) (hkind.imp And.left id)
    cases hcode with
    | index hct hci =>
      simp only [Flat.eval, List.append_assoc]
      have hfirst := iht hct ht
      have hsecond := ihi hci hi
      simp only [valued_eq hvoid] at hfirst
      simp only [valued_eq (show index.type ≠ .builtin .void by simp [hindex])] at hsecond
      exact (hfirst ops).append fun a => (hsecond _).append fun i => runs_element a i
  | length target ih =>
    rw [valued_eq (he.ne_void hw (by simp))]
    simp only [Flat.Expr.Typed] at he
    obtain ⟨ht, hkind⟩ := he
    have hvoid : target.type ≠ .builtin .void := by
      obtain htext | ⟨u, helement⟩ := hkind
      · simp [htext]
      · exact Flat.ne_void_of_element (c := ⟨r, [], [], False⟩) (.inr helement)
    cases hcode with
    | length hct =>
      simp only [Flat.eval]
      have hfirst := ih hct ht
      simp only [valued_eq hvoid] at hfirst
      exact (hfirst ops).append fun a => runs_length a
  | newArray element size t ih =>
    rw [valued_eq (he.ne_void hw (by simp))]
    simp only [Flat.Expr.Typed] at he
    obtain ⟨hs, hsize, -⟩ := he
    cases hcode with
    | newArray hcs hname hi =>
      simp only [Flat.eval]
      have hfirst := ih hcs hs
      simp only [valued_eq (show size.type ≠ .builtin .void by simp [hsize])] at hfirst
      exact (hfirst ops).append fun n => runs_newArray hname hi n
  | invalid => exact he.elim

end Scene
end TypedScript
