import TypedScript.Proofs.Generation
import TypedScript.Proofs.Machine.Moves

/-!
# Balanced methods

How deep the operands of a method are stacked depends only on where control is, on whatever path it
came there: there are none at the start, between statements and where jumps lead, and exactly the
result before a return.
-/

namespace TypedScript

open Emission

namespace Emission

def instructionCount (lines : List CodeLine) : Nat := lines.countP fun line => line.label?.isNone

@[simp] theorem instructionCount_append (a b : List CodeLine) :
    instructionCount (a ++ b) = instructionCount a + instructionCount b :=
  List.countP_append

@[simp] theorem instructionCount_branch (op : Operation) (l : Flat.Label) (lines : List CodeLine) :
    instructionCount (.branch op l :: lines) = instructionCount lines + 1 :=
  List.countP_cons_of_pos rfl

@[simp] theorem instructionCount_instruction (i : Instruction) (lines : List CodeLine) :
    instructionCount (.instruction i :: lines) = instructionCount lines + 1 :=
  List.countP_cons_of_pos rfl

theorem length_filterMap_instruction? (labels : List (Flat.Label × Nat)) (lines : List CodeLine) :
    (lines.filterMap (instruction? labels)).length = instructionCount lines := by
  induction lines with
  | nil => rfl
  | cons line rest ih =>
    cases line with
    | label l => exact ih
    | instruction i => simpa [instruction?] using ih
    | branch op l => simpa [instruction?] using ih

/-! How many instructions stand for an expression or a statement does not depend on the tables. -/

section

variable {x y : EmissionContext} {S T : Symbol → Prop} {s t : Emitting}

theorem BinaryCode.length_eq {op : BinaryOperator} {tag tag' : Tag} {a b : List CodeLine}
    (h : BinaryCode s op tag a) (h' : BinaryCode t op tag' b) : a.length = b.length := by
  cases h with
  | plain hop =>
    cases h' with
    | plain => rfl
    | negated hop' => simp [hop] at hop'
  | negated hop hneg =>
    cases h' with
    | plain hop' => simp [hop] at hop'
    | negated _ hneg' =>
      cases hneg
      cases hneg'
      rfl

theorem UnaryCode.length_eq {op : UnaryOperator} {tag tag' : Tag} {a b : List CodeLine}
    (h : UnaryCode s op tag a) (h' : UnaryCode t op tag' b) : a.length = b.length := by
  cases h with
  | negate | plus | complement =>
    cases h'
    rfl
  | not hneg =>
    cases h' with
    | not hneg' =>
      cases hneg
      cases hneg'
      rfl

theorem CodesAll.length_eq {args : List Flat.Expr}
    (hargs : ∀ e ∈ args, ∀ {a b}, Codes x S s e a → Codes y T t e b → a.length = b.length)
    {a b : List CodeLine} (h : CodesAll x S s args a) (h' : CodesAll y T t args b) :
    a.length = b.length := by
  induction args generalizing a b with
  | nil =>
    cases h
    cases h'
    rfl
  | cons e rest ih =>
    rw [List.forall_mem_cons] at hargs
    cases h with
    | cons he hrest =>
      cases h' with
      | cons he' hrest' =>
        rw [List.length_append, List.length_append, hargs.1 he he', ih hargs.2 hrest hrest']

theorem Codes.length_eq {e : Flat.Expr} {a b : List CodeLine} (h : Codes x S s e a)
    (h' : Codes y T t e b) : a.length = b.length := by
  induction e using Flat.Expr.induction generalizing a b with
  | literal v type =>
    cases h
    cases h'
    rfl
  | symbol sym =>
    cases h with
    | symbol hload =>
      cases h' with
      | symbol hload' => cases hload <;> cases hload' <;> rfl
  | assign target value ih =>
    cases h with
    | assign hv hstore =>
      cases h' with
      | assign hv' hstore' =>
        rw [List.length_append, List.length_append, ih hv hv']
        cases hstore <;> cases hstore' <;> rfl
  | assignElement array index type value iha ihi ihv =>
    cases h with
    | assignElement ha hi hv =>
      cases h' with
      | assignElement ha' hi' hv' => simp [iha ha ha', ihi hi hi', ihv hv hv']
  | binary op operand left right type ihl ihr =>
    cases h with
    | binary hl hr _ hop =>
      cases h' with
      | binary hl' hr' _ hop' => simp [ihl hl hl', ihr hr hr', hop.length_eq hop']
  | unary op operand type ih =>
    cases h with
    | unary hv _ hop =>
      cases h' with
      | unary hv' _ hop' => simp [ih hv hv', hop.length_eq hop']
  | call callable args type ih =>
    cases h with
    | call hargs hcall =>
      cases h' with
      | call hargs' hcall' =>
        rw [List.length_append, List.length_append,
          hargs.length_eq (fun e he {_ _} h h' => ih e he h h') hargs']
        cases hcall <;> cases hcall' <;> rfl
  | convert kind operand type ih =>
    cases h with
    | convert hv hconv =>
      cases h' with
      | convert hv' hconv' =>
        rw [List.length_append, List.length_append, ih hv hv']
        cases hconv <;> cases hconv' <;> rfl
  | index target index type iht ihi =>
    cases h with
    | index ht hi =>
      cases h' with
      | index ht' hi' => simp [iht ht ht', ihi hi hi']
  | length target ih =>
    cases h with
    | length hv =>
      cases h' with
      | length hv' => simp [ih hv hv']
  | newArray element size type ih =>
    cases h with
    | newArray hv =>
      cases h' with
      | newArray hv' => simp [ih hv hv']
  | invalid => cases h

theorem instructionCount_of_instructions {lines : List CodeLine}
    (h : lines.all CodeLine.isInstruction) : instructionCount lines = lines.length := by
  rw [instructionCount, List.countP_eq_length]
  intro line hline
  have hi := List.all_eq_true.mp h line hline
  cases line with
  | instruction i => rfl
  | branch op l => cases hi
  | label l => cases hi

theorem Codes.instructionCount_eq {e : Flat.Expr} {a b : List CodeLine} (h : Codes x S s e a)
    (h' : Codes y T t e b) : instructionCount a = instructionCount b := by
  rw [instructionCount_of_instructions h.instructions,
    instructionCount_of_instructions h'.instructions, h.length_eq h']

theorem StmtCode.instructionCount_eq {stmt : Flat.Stmt} {a b : List CodeLine}
    (h : StmtCode x S s stmt a) (h' : StmtCode y T t stmt b) :
    instructionCount a = instructionCount b := by
  cases h with
  | declare | returnVoid | jump | label =>
    cases h'
    rfl
  | eval hvoid he =>
    cases h' with
    | eval _ he' => simp [he.instructionCount_eq he']
    | evalVoid hvoid' => exact absurd hvoid' hvoid
  | evalVoid hvoid he =>
    cases h' with
    | eval hvoid' => exact absurd hvoid hvoid'
    | evalVoid _ he' => exact he.instructionCount_eq he'
  | returnValue he =>
    cases h' with
    | returnValue he' => simp [he.instructionCount_eq he']
  | jumpIf he =>
    cases h' with
    | jumpIf he' => simp [he.instructionCount_eq he']

theorem BodyCode.instructionCount_eq {ss : List Flat.Stmt} {a b : List CodeLine}
    (h : BodyCode x S s ss a) (h' : BodyCode y T t ss b) :
    instructionCount a = instructionCount b := by
  induction h generalizing b with
  | nil =>
    cases h'
    rfl
  | cons hstmt _ ih =>
    cases h' with
    | cons hstmt' hrest' => simp [hstmt.instructionCount_eq hstmt', ih hrest']

theorem BodyCode.split {before after : List Flat.Stmt} {lines : List CodeLine}
    (h : BodyCode x S s (before ++ after) lines) :
    ∃ a b, lines = a ++ b ∧ BodyCode x S s before a ∧ BodyCode x S s after b := by
  induction before generalizing lines with
  | nil => exact ⟨[], lines, rfl, .nil, h⟩
  | cons stmt rest ih =>
    cases h with
    | @cons _ _ first _ hstmt hrest =>
      obtain ⟨a, b, rfl, ha, hb⟩ := ih hrest
      exact ⟨first ++ a, b, by simp, .cons hstmt ha, hb⟩

/-- The code of a body that ends with a return does too. -/
theorem BodyCode.ends {body : List Flat.Stmt} {lines : List CodeLine} (h : BodyCode x S s body lines)
    (hlast : body.getLast?.any Flat.Stmt.isReturn) :
    ∃ (before : List CodeLine) (last : Instruction), lines = before ++ [CodeLine.instruction last] ∧
      (last.operation? = some .ret ∨ last.operation? = some .retVoid) := by
  cases hstmt : body.getLast? with
  | none => simp [hstmt] at hlast
  | some stmt =>
    obtain ⟨rest, rfl⟩ := List.getLast?_eq_some_iff.mp hstmt
    obtain ⟨a, b, rfl, -, hb⟩ := h.split
    cases hb with
    | cons hcode hnil =>
      cases hnil
      cases hcode with
      | returnVoid => exact ⟨a, _, by simp [plain], .inr (Instruction.operation?_plain _ 0)⟩
      | @returnValue e lines he =>
        exact ⟨a ++ lines, _, by simp [plain], .inl (Instruction.operation?_plain _ 0)⟩
      | _ => simp [hstmt, Flat.Stmt.isReturn] at hlast

end

end Emission

theorem stackAt_append (shapes shapes' : List (List String)) (τ : List String) (n : Nat) :
    stackAt (shapes ++ shapes') τ (shapes.length + n) = stackAt shapes' τ n := by
  rw [stackAt, stackAt, List.append_assoc, List.getD_eq_getElem?_getD, List.getD_eq_getElem?_getD,
    List.getElem?_append_right (Nat.le_add_right _ n), Nat.add_sub_cancel_left]

/-- Statements leave no operands, and there are none between them. -/
theorem Holds.body {r : Registry} {p : Flat.Program} {M : Module} {g : Flat.Routine}
    {locals : Array (SymbolId × Slot)} {f : Method} (h : Holds r p M g locals f)
    {ss : List Flat.Stmt} {lines : List CodeLine}
    (hcode : BodyCode (contextOf r p) (· ∈ Flat.symbolsOf g.body) ⟨M, locals⟩ ss lines)
    (hss : Flat.typedStmts ⟨r, p.globals, g.params, False⟩ g.result ss) :
    ∃ shapes, Carries M f [] lines shapes [] ∧ ∀ before after, ss = before ++ after →
      ∀ {x S t a}, BodyCode x S t before a → stackAt shapes [] (instructionCount a) = [] := by
  induction hcode with
  | nil =>
    refine ⟨[], .nil, fun before after hsplit x S t a ha => ?_⟩
    obtain ⟨rfl, -⟩ := List.nil_eq_append_iff.mp hsplit
    cases ha
    rfl
  | @cons stmt rest first others hstmt hrest ih =>
    rw [Flat.typedStmts, List.forall_mem_cons] at hss
    obtain ⟨shapes, hshapes⟩ := h.stmt hstmt hss.1
    obtain ⟨shapes', hshapes', hbetween⟩ := ih hss.2
    refine ⟨shapes ++ shapes', hshapes.append hshapes', fun before after hsplit x S t a ha => ?_⟩
    cases ha with
    | nil => exact (hshapes.append hshapes').stackAt_zero
    | @cons _ before first' a' hfirst ha =>
      obtain ⟨rfl, hothers⟩ := List.cons.inj hsplit
      have hlength : instructionCount first' = shapes.length := by
        rw [← hshapes.length_eq [], length_filterMap_instruction?, hfirst.instructionCount_eq hstmt]
      rw [instructionCount_append, hlength, stackAt_append]
      exact hbetween before after hothers ha

namespace Generated

variable {r : Registry} {p : Flat.Program} {M : Module} (h : Generated r p M)

include h

/-- The operands before each instruction are known, and there are none between statements. -/
theorem verified {k : Nat} {g : Flat.Routine} {f : Method} (hg : p.routines[k]? = some g)
    (hf : M.method? k = some f) (hlast : g.body.getLast?.any Flat.Stmt.isReturn) :
    ∃ shapes, f.Verified M shapes ∧ ∀ before after, g.body = before ++ after →
      ∃ lines st, stmts (contextOf r p) g.name before ⟨M, #[]⟩ = .ok (lines, st) ∧
        shapes (instructionCount lines) = [] := by
  have hmem := List.mem_of_getElem? hg
  obtain ⟨f', hf', hmethod, himplements⟩ := h.exists_method hg
  obtain rfl : f = f' := Option.some.inj (hf.symm.trans hf')
  obtain ⟨locals, lines, hholds, hcode, hassembled⟩ := h.holds hmem hmethod himplements
  have htyped := h.typed.routines g hmem
  obtain ⟨shapes, hcarries, hbetween⟩ := hholds.body hcode htyped.body
  obtain ⟨hlabels, htargets⟩ := hcode.labels
  obtain ⟨front, last, hfront, hreturn⟩ := hcode.ends hlast
  refine ⟨stackAt shapes [], ?_, fun before after hsplit => ?_⟩
  · refine hcarries.verified hassembled ?_ (h.small.code f hmethod) hfront hreturn
    rw [hlabels, htargets]
    exact htyped.labels.defined
  · have hbefore : Flat.typedStmts ⟨r, p.globals, g.params, False⟩ g.result before :=
      fun s hs => htyped.body s (by simp [hsplit, hs])
    have hsymbols : ∀ sym ∈ Flat.symbolsOf before, sym ∈ Flat.symbolsOf g.body := by
      intro sym hsym
      simp [hsplit, hsym]
    have hemits : Emits (contextOf r p) (· ∈ Flat.symbolsOf g.body) ⟨M, #[]⟩
        (stmts (contextOf r p) g.name before) fun lines t =>
          BodyCode (contextOf r p) (· ∈ Flat.symbolsOf g.body) t before lines :=
      Emits.stmts (knows_contextOf h.wellFormed p g.params) hbefore hsymbols
    obtain ⟨lines', st, hrun, -, -, -, hcode'⟩ := hemits ⟨slots_empty r _, h.emitted.natives⟩
    exact ⟨lines', st, hrun, hbetween before after hsplit (hcode' st (Grows.refl st))⟩

end Generated
/-- The numbers of the instructions that may come after one; after a return there is none. -/
def Instruction.successors (i : Instruction) (n : Int) : List Int :=
  match i.operation? with
  | some .jump => [i.operand.toInt]
  | some .jumpTrue => [i.operand.toInt, n + 1]
  | some .ret | some .retVoid | none => []
  | some _ => [n + 1]

theorem Instruction.successors_eq {i : Instruction} {op : Operation} (h : i.operation? = some op)
    (hnot : op ∉ [.jump, .jumpTrue, .ret, .retVoid]) (n : Int) : i.successors n = [n + 1] := by
  unfold successors
  split <;> simp_all

namespace Method

/-- Control may come to an instruction with so many operands, if each instruction on the way takes and
leaves what it says. Nothing is checked on the way, so both numbers might be any. -/
inductive Reaches (M : Module) (f : Method) : Int → Int → Prop
  | start : Reaches M f 0 0
  | step {n : Nat} {depth : Int} {i : Instruction} {takes leaves : Nat} {next : Int} :
    Reaches M f n depth → f.code[n]? = some i → M.moves? i = some (takes, leaves) →
    next ∈ i.successors n → Reaches M f next (depth - takes + leaves)

/-- Wherever control comes there is an instruction, and the number of operands is the one given for
it, enough for what it takes. It is zero where jumps lead, one before a return with a result and zero
before one without. -/
structure Balanced (M : Module) (f : Method) (depth : Nat → Nat) : Prop where
  reaches : ∀ pc d, f.Reaches M pc d → ∃ n i takes leaves, pc = (n : Nat) ∧ d = depth n ∧
    f.code[n]? = some i ∧ M.moves? i = some (takes, leaves) ∧ takes ≤ depth n
  target : ∀ i ∈ f.code, ∀ op, i.operation? = some op → op.isJump → depth i.operand.toInt.toNat = 0
  ret : ∀ n i, f.code[n]? = some i → i.operation? = some .ret → depth n = 1
  retVoid : ∀ n i, f.code[n]? = some i → i.operation? = some .retVoid → depth n = 0

namespace Verified

variable {M : Module} {f : Method} {shapes : Nat → List String} (h : f.Verified M shapes)

include h

/-- The operands are enough for every instruction, and what comes next finds those that are left. -/
theorem advance {n : Nat} {i : Instruction} (hi : f.code[n]? = some i) :
    ∃ takes leaves, M.moves? i = some (takes, leaves) ∧ takes ≤ (shapes n).length ∧
      ∀ next ∈ i.successors n, ∃ k : Nat, next = k ∧ k < f.code.size ∧
        (shapes k).length + takes = (shapes n).length + leaves := by
  obtain ⟨target, hjump, hlt, hn, ht⟩ | ⟨target, hjump, hlt, hn, ht, hnext, hfall⟩ |
    ⟨hop, hn, -⟩ | ⟨hop, hn, -⟩ | ⟨heffect, hlt⟩ := h.step n i hi
  · refine ⟨0, 0, Module.moves?_eq hjump.operation (by decide) (by decide), by simp, ?_⟩
    simp only [Instruction.successors, hjump.operation, hjump.operand, List.mem_singleton]
    rintro next rfl
    exact ⟨target, rfl, hlt, by simp [hn, ht]⟩
  · refine ⟨1, 0, Module.moves?_eq hjump.operation (by decide) (by decide), by simp [hn], ?_⟩
    simp only [Instruction.successors, hjump.operation, hjump.operand, List.mem_cons,
      List.not_mem_nil, or_false]
    rintro next (rfl | rfl)
    · exact ⟨target, rfl, hlt, by simp [hn, ht]⟩
    · exact ⟨n + 1, rfl, hnext, by simp [hn, hfall]⟩
  · refine ⟨1, 0, Module.moves?_eq hop (by decide) (by decide), by simp [hn], ?_⟩
    simp [Instruction.successors, hop]
  · refine ⟨0, 0, Module.moves?_eq hop (by decide) (by decide), by simp, ?_⟩
    simp [Instruction.successors, hop]
  · obtain ⟨takes, leaves, hmoves, htakes, hlength⟩ := heffect.moves
    obtain ⟨op, hop, hnot⟩ := heffect.not_control
    refine ⟨takes, leaves, hmoves, htakes, ?_⟩
    rw [Instruction.successors_eq hop hnot]
    simp only [List.mem_singleton]
    rintro next rfl
    exact ⟨n + 1, rfl, hlt, hlength⟩

theorem ret_or {n : Nat} {i : Instruction} (hi : f.code[n]? = some i)
    (hop : i.operation? = some .ret ∨ i.operation? = some .retVoid) :
    (i.operation? = some .ret ∧ shapes n = [f.result] ∧ f.result ≠ "void") ∨
      (i.operation? = some .retVoid ∧ shapes n = [] ∧ f.result = "void") := by
  obtain ⟨target, hjump, -⟩ | ⟨target, hjump, -⟩ | hret | hret | ⟨heffect, -⟩ := h.step n i hi
  · simp [hjump.operation] at hop
  · simp [hjump.operation] at hop
  · exact .inl hret
  · exact .inr hret
  · obtain ⟨op', hop', hnot⟩ := heffect.not_control
    rw [hop', Option.some.injEq, Option.some.injEq] at hop
    obtain rfl | rfl := hop
    · simp at hnot
    · simp at hnot

theorem reaches {pc d : Int} (hr : f.Reaches M pc d) :
    ∃ n : Nat, pc = n ∧ n < f.code.size ∧ d = (shapes n).length := by
  induction hr with
  | start => exact ⟨0, rfl, h.nonempty, by simp [h.start]⟩
  | @step n depth i takes leaves next _ hi hmoves hnext ih =>
    obtain ⟨n', hn', hlt, rfl⟩ := ih
    obtain rfl : n = n' := by omega
    obtain ⟨takes', leaves', hmoves', -, hsuccessors⟩ := h.advance hi
    rw [hmoves, Option.some.injEq, Prod.mk.injEq] at hmoves'
    obtain ⟨rfl, rfl⟩ := hmoves'
    obtain ⟨k, rfl, hk, hlength⟩ := hsuccessors next hnext
    exact ⟨k, rfl, hk, by omega⟩

/-- A verified method is balanced. -/
theorem balanced : f.Balanced M fun n => (shapes n).length := by
  refine ⟨fun pc d hr => ?_, fun i hi op hop hjump => ?_, fun n i hi hop => ?_, fun n i hi hop => ?_⟩
  · obtain ⟨n, rfl, hlt, rfl⟩ := h.reaches hr
    have hi : f.code[n]? = some f.code[n] := Array.getElem?_eq_getElem hlt
    obtain ⟨takes, leaves, hmoves, htakes, -⟩ := h.advance hi
    exact ⟨n, _, takes, leaves, rfl, rfl, hi, hmoves, htakes⟩
  · obtain ⟨n, hn⟩ := Array.getElem?_of_mem hi
    obtain ⟨target, hjump, -, -, ht⟩ | ⟨target, hjump, -, -, ht, -, -⟩ | ⟨hop', -, -⟩ |
      ⟨hop', -, -⟩ | ⟨heffect, -⟩ := h.step n i hn
    · simp [hjump.operand, ht]
    · simp [hjump.operand, ht]
    · rw [hop, Option.some.injEq] at hop'
      simp [hop', Operation.isJump] at hjump
    · rw [hop, Option.some.injEq] at hop'
      simp [hop', Operation.isJump] at hjump
    · obtain ⟨op', hop', hnot⟩ := heffect.not_control
      rw [hop, Option.some.injEq] at hop'
      subst hop'
      cases op <;> simp_all [Operation.isJump]
  · obtain ⟨hop', hn, -⟩ | ⟨hop', -⟩ := h.ret_or hi (.inl hop)
    · simp [hn]
    · simp [hop] at hop'
  · obtain ⟨hop', -⟩ | ⟨hop', hn, -⟩ := h.ret_or hi (.inr hop)
    · simp [hop] at hop'
    · simp [hn]

end Verified
end Method
end TypedScript
