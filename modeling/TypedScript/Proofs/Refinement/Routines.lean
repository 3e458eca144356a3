import TypedScript.Proofs.Execution.Places
import TypedScript.Proofs.Refinement.Expressions

/-!
# The code of routines

The code of a statement goes where the statement goes, and a label is the number of the instruction
behind it. So the machine follows a routine from every statement on, whatever the number of turns, and
calls with it: by induction on how deep they may still be nested.
-/

namespace TypedScript

open Emission Execution Machine

namespace Emission

section

variable {x : EmissionContext} {S : Symbol → Prop} {t : Emitting}

theorem BodyCode.append {before rest : List Flat.Stmt} {a b : List CodeLine}
    (h : BodyCode x S t before a) (h' : BodyCode x S t rest b) :
    BodyCode x S t (before ++ rest) (a ++ b) := by
  induction h with
  | nil => exact h'
  | cons hstmt _ ih =>
    rw [List.cons_append, List.append_assoc]
    exact .cons hstmt ih

end

theorem positions_append (n : Nat) (a b : List CodeLine) :
    positions n (a ++ b) = positions n a ++ positions (n + instructionCount a) b := by
  induction a generalizing n with
  | nil => rfl
  | cons line rest ih =>
    cases line with
    | label l =>
      have hcount : instructionCount (.label l :: rest) = instructionCount rest := rfl
      simp [positions, ih, hcount]
    | instruction i => simp [positions, ih, Nat.add_assoc, Nat.add_comm]
    | branch op l => simp [positions, ih, Nat.add_assoc, Nat.add_comm]

/-- A label stands for the number of instructions before it. -/
theorem position_eq {l : Flat.Label} {a : List CodeLine} (h : l ∉ labelsIn a) (b : List CodeLine) :
    position (positions 0 (a ++ .label l :: b)) l = instructionCount a := by
  have hnone : ((positions 0 a).find? fun e => e.1 = l) = none := by
    rw [List.find?_eq_none]
    intro e he heq
    refine h ?_
    rw [← labels_positions 0, ← of_decide_eq_true heq]
    exact List.mem_map_of_mem he
  simp [position, positions_append, hnone, positions]

end Emission

theorem Flat.exists_after {l : Flat.Label} {ss : List Flat.Stmt} (h : l ∈ Flat.labelsOf ss) :
    ∃ rest, Flat.after l ss = some rest := by
  induction ss with
  | nil => cases h
  | cons s ss ih =>
    cases s with
    | label k =>
      by_cases hk : k = l
      · exact ⟨ss, by rw [Flat.after, if_pos hk]⟩
      · obtain ⟨rest, hrest⟩ := ih (by simpa [Ne.symm hk] using h)
        exact ⟨rest, by rw [Flat.after, if_neg hk, hrest]⟩
    | declare | eval | returnStmt | jump | jumpIf => exact ih h

namespace Scene

variable {r : Registry} {p : Flat.Program} {M : Module} {c : Scene r p M} {turns : Nat}

/-- The instruction where the statements that are left of the body begin. -/
def Rests (c : Scene r p M) (n : Nat) (rest : List Flat.Stmt) : Prop :=
  ∃ before a b, c.routine.body = before ++ rest ∧ c.lines = a ++ b ∧
    BodyCode (contextOf r p) (· ∈ Flat.symbolsOf c.routine.body) ⟨M, c.slots⟩ before a ∧
    BodyCode (contextOf r p) (· ∈ Flat.symbolsOf c.routine.body) ⟨M, c.slots⟩ rest b ∧
    instructionCount a = n

theorem rests_body (c : Scene r p M) : c.Rests 0 c.routine.body :=
  ⟨[], [], c.lines, rfl, rfl, .nil, c.body, rfl⟩

/-- Labels fit into an operand. -/
theorem position_lt (c : Scene r p M) (l : Flat.Label) :
    position (positions 0 c.lines) l < 0x80000000 := by
  have hsmall := c.holds.generated.small.code _ c.holds.method
  rw [c.code, List.size_toArray, instructions] at hsmall
  unfold position
  cases hfind : (positions 0 c.lines).find? fun e => e.1 = l with
  | none => exact (by decide : 0 < 0x80000000)
  | some e =>
    have hle := position_le (positions 0 c.lines) (List.mem_of_find?_eq_some hfind)
    rw [Nat.zero_add] at hle
    exact Nat.lt_of_le_of_lt hle hsmall

namespace Rests

variable {n : Nat} {rest : List Flat.Stmt}

theorem cons {stmt : Flat.Stmt} (h : c.Rests n (stmt :: rest)) :
    ∃ lines, StmtCode (contextOf r p) (· ∈ Flat.symbolsOf c.routine.body) ⟨M, c.slots⟩ stmt lines ∧
      c.Lies n lines ∧ c.Rests (n + instructionCount lines) rest := by
  obtain ⟨before, a, b, hbody, hlines, hbefore, hrest, rfl⟩ := h
  cases hrest with
  | @cons _ _ lines b hstmt hrest =>
    refine ⟨lines, hstmt, ⟨a, b, hlines, rfl⟩, before ++ [stmt], a ++ lines, b, by simpa using hbody,
      by simpa using hlines, ?_, hrest, by simp⟩
    have hlast := hbefore.append (.cons hstmt .nil)
    rwa [List.append_nil] at hlast

/-- The end of the body is the end of the code. -/
theorem nil (h : c.Rests n []) : c.method.code[n]? = none := by
  obtain ⟨before, a, b, -, hlines, -, hrest, rfl⟩ := h
  cases hrest
  rw [List.append_nil] at hlines
  rw [c.code, List.getElem?_toArray, List.getElem?_eq_none]
  rw [instructions, length_filterMap_instruction?, hlines]

/-- A jump leads behind the label. -/
theorem after (h : c.Rests n rest) {l : Flat.Label} {rest' : List Flat.Stmt}
    (hafter : Flat.after l rest = some rest') :
    c.Rests (position (positions 0 c.lines) l) rest' := by
  obtain ⟨between, rfl⟩ := Flat.suffix_of_after hafter
  obtain ⟨before, a, b, hbody, hlines, hbefore, hrest, rfl⟩ := h
  obtain ⟨b₁, b₂, rfl, hbetween, hlabel⟩ := hrest.split
  cases hlabel with
  | @cons _ _ lines b₃ hstmt hrest' =>
    cases hstmt
    have hnew : l ∉ labelsIn (a ++ b₁) := by
      have hnodup := (c.holds.generated.typed.routines _ c.holds.routine).labels.nodup
      rw [(hbefore.append hbetween).labels.1]
      rw [hbody, ← List.append_assoc, Flat.labelsOf_append, List.nodup_append] at hnodup
      exact fun hl => hnodup.2.2 l hl l (by simp) rfl
    have heq : c.lines = (a ++ b₁) ++ CodeLine.label l :: b₃ := by simpa using hlines
    have hposition : position (positions 0 c.lines) l = instructionCount (a ++ b₁) := by
      rw [heq]
      exact position_eq hnew b₃
    refine ⟨before ++ between ++ [Flat.Stmt.label l], a ++ b₁ ++ [CodeLine.label l], b₃,
      by simpa using hbody,
      by simpa using heq, ?_, hrest', ?_⟩
    · have hlast := (hbefore.append hbetween).append (.cons (.label (l := l)) .nil)
      simpa using hlast
    · rw [hposition, instructionCount_append]
      rfl

end Rests

/-- The next step ends the call with a value: for those who wait, or for the invocation. -/
def Returns (c : Scene r p M) (v : Value) (σ : State) (w : Machine) (s : List Value) : Prop :=
  ∃ w', (Action.step c.depth).Does w s
      (.ok (if c.callers.length = c.depth then some v else none)) w'
      (if c.callers.length = c.depth then c.below else valued c.routine.result v c.below) ∧
    w'.calls = c.callers ∧ w'.maxDepth = c.limit ∧ Mirrors r p M σ.shared w'

/-- Where a statement goes: to the next one, which begins at `n`, behind a label or back to the
caller. -/
def Goes (c : Scene r p M) (n : Nat) : Flat.Flow → State → Machine → List Value → Prop
  | .next, σ, w, s => c.Stands σ n [] w s
  | .jump l, σ, w, s => ∃ w' s', (Action.step c.depth).Does w s (.ok none) w' s' ∧
      c.Stands σ (position (positions 0 c.lines) l) [] w' s' ∧ l ∈ Flat.labelsOf c.routine.body
  | .done v, σ, w, s => c.Returns v σ w s

variable {invoke : TypeId → List Value → Effect Value}

/-- The code of a statement goes where the statement goes. -/
theorem follows_flow (hserves : c.Serves turns invoke) {stmt : Flat.Stmt} {lines : List CodeLine}
    (hcode : StmtCode (contextOf r p) (· ∈ Flat.symbolsOf c.routine.body) ⟨M, c.slots⟩ stmt lines)
    (hmem : stmt ∈ c.routine.body) {n : Nat} (hlies : c.Lies n lines) {σ : State} {w : Machine}
    {s : List Value} (hstands : c.Stands σ n [] w s) :
    Follows r p M c.depth turns (c.Goes (n + instructionCount lines)) w s
      (stmt.flow (c.environment invoke) σ) := by
  have htyped := c.holds.generated.typed.routines _ c.holds.routine
  have hstmt := htyped.body stmt hmem
  have hlabel : ∀ l, stmt.target? = some l → l ∈ Flat.labelsOf c.routine.body := fun l hl =>
    htyped.labels.defined l (List.mem_filterMap.mpr ⟨stmt, hmem, hl⟩)
  cases hcode with
  | declare => exact .ok (.refl w s) hstands
  | label => exact .ok (.refl w s) hstands
  | @eval e lines hvoid he =>
    have hvalue := runs_expr hserves he hstmt []
    rw [valued_eq hvoid] at hvalue
    refine (hvalue σ n w s hlies.left hstands).bind fun v σ' w' s' _ h => ?_
    have hat := h.at_instruction (hlies.right.getElem? rfl)
    have hnext := h.goto (n + instructionCount lines + 1)
    obtain ⟨vs, hkeeps, rfl⟩ := h.stack
    rw [instructionCount_append, ← Nat.add_assoc]
    exact .ok (.single (Action.does_step hat c.depth (Instruction.operation?_plain .pop 0) (by decide)
      (by decide) Action.performs_pop)) ⟨hnext.mirrors, hnext.calls, hnext.limit, vs, hkeeps, rfl⟩
  | evalVoid hvoid he =>
    have hvalue := runs_expr hserves he hstmt []
    simp only [valued, if_pos hvoid] at hvalue
    exact (hvalue σ n w s hlies hstands).bind fun v σ' w' s' _ h => .ok (.refl w' s') h
  | returnVoid =>
    have hat := hstands.at_instruction (hlies.getElem? rfl)
    obtain ⟨vs, -, rfl⟩ := hstands.stack
    refine .ok (.refl w _) ⟨{ w with calls := c.callers }, ?_, rfl, hstands.limit,
      hstands.mirrors.calls _⟩
    rw [show c.routine.result = .builtin .void from hstmt, valued, if_pos rfl, ite_self]
    exact Action.does_step_retVoid hat c.depth (Instruction.operation?_plain .retVoid 0) rfl
  | @returnValue e lines he =>
    obtain ⟨hvalue, htype, hvoid⟩ := hstmt
    have hrun := runs_expr hserves he hvalue []
    rw [valued_eq (by rw [htype]; exact hvoid)] at hrun
    refine (hrun σ n w s hlies.left hstands).bind fun v σ' w' s' _ h => .ok (.refl w' s') ?_
    have hat := h.at_instruction (hlies.right.getElem? rfl)
    obtain ⟨vs, -, rfl⟩ := h.stack
    refine ⟨{ w' with calls := c.callers }, ?_, rfl, h.limit, h.mirrors.calls _⟩
    rw [valued_of_ne hvoid]
    exact Action.does_step_ret hat c.depth (Instruction.operation?_plain .ret 0) rfl
  | @jump l =>
    have hat := hstands.at_instruction (hlies.getElem? rfl)
    have his := Instruction.is_plain .jump (c.position_lt l)
    exact .ok (.refl w s) ⟨_, s, Action.does_step hat c.depth his.operation (by decide) (by decide)
      (Action.performs_jump his.operand), (hstands.goto (n + 1)).goto _, hlabel l rfl⟩
  | @jumpIf e l lines he =>
    have hrun := runs_expr hserves he hstmt.1 []
    rw [valued_eq (by simp [hstmt.2])] at hrun
    refine (hrun σ n w s hlies.left hstands).bind fun v σ' w' s' _ h => ?_
    have hat := h.at_instruction (hlies.right.getElem? rfl)
    have his := Instruction.is_plain .jumpTrue (c.position_lt l)
    have hnext := h.goto (n + instructionCount lines + 1)
    obtain ⟨vs, hkeeps, rfl⟩ := h.stack
    rw [instructionCount_append, ← Nat.add_assoc]
    cases v with
    | bool b =>
      have hdoes := Action.does_step hat c.depth his.operation (by decide) (by decide)
        (Action.performs_jumpTrue (s := frame [] vs c.args c.below) his.operand b)
      have hpopped : c.Stands σ' (n + instructionCount lines + 1) []
          (w'.goto (n + instructionCount lines + 1 : Nat)) (frame [] vs c.args c.below) :=
        ⟨hnext.mirrors, hnext.calls, hnext.limit, vs, hkeeps, rfl⟩
      cases b with
      | false => exact .ok (.single hdoes) hpopped
      | true => exact .ok (.refl w' _) ⟨_, _, hdoes, hpopped.goto _, hlabel l rfl⟩
    | _ =>
      exact .stop (.refl w' _) (Action.does_step_error hat c.depth his.operation (by decide)
        (by decide) (Action.performs_jumpTrue_fault (by simp))) (hnext.halt_fault _) hnext.mirrors

theorem Rests.mem {n : Nat} {stmt : Flat.Stmt} {rest : List Flat.Stmt} (h : c.Rests n (stmt :: rest)) :
    stmt ∈ c.routine.body := by
  obtain ⟨before, -, -, hbody, -⟩ := h
  rw [hbody]
  simp

/-- The machine follows what is left of a body until the next jump back, and from there on if it does
so with one turn less. -/
theorem follows_rest (hserves : c.Serves turns invoke) {k : Nat} (hk : k ≤ turns)
    (hagain : ∀ j rest n σ w s, k = j + 1 → c.Rests n rest → c.Stands σ n [] w s →
      Follows r p M c.depth j c.Returns w s
        (Flat.exec (c.environment invoke) c.routine.body j rest σ))
    (rest : List Flat.Stmt) {n : Nat} (hrest : c.Rests n rest) {σ : State} {w : Machine}
    {s : List Value} (hstands : c.Stands σ n [] w s) :
    Follows r p M c.depth k c.Returns w s
      (Flat.exec (c.environment invoke) c.routine.body k rest σ) := by
  -- jumps ahead go to a shorter rest, so the induction is on its length
  induction hlength : rest.length using Nat.strong_induction_on generalizing rest n σ w s with
  | _ length ih =>
    subst hlength
    cases rest with
    | nil =>
      rw [Flat.exec]
      refine .stop (.refl w s) (Action.does_step_end c.depth hstands.calls rfl rfl
        (by rw [hstands.mirrors.module]; exact c.found) hrest.nil) ?_ hstands.mirrors
      rw [hstands.halt_fault, c.name]
      rfl
    | cons stmt rest =>
      obtain ⟨lines, hcode, hlies, hnext⟩ := hrest.cons
      rw [Flat.exec_cons]
      have hflow := follows_flow hserves hcode hrest.mem hlies hstands
      refine (hflow.mono hk).bind fun flow σ' w' s' _ hgoes => ?_
      cases flow with
      | next => exact ih _ (Nat.lt_succ_self _) rest hnext hgoes rfl
      | done v => exact .ok (.refl w' s') hgoes
      | jump l =>
        obtain ⟨w₁, s₁, hstep, hthere, hlabel⟩ := hgoes
        change Follows r p M c.depth k c.Returns w' s' (Flat.jumpTo _ _ k l rest σ')
        unfold Flat.jumpTo
        cases hafter : Flat.after l rest with
        | some rest' =>
          have hlt := Nat.lt_succ_of_lt (Flat.length_after hafter)
          exact (ih _ hlt rest' (hnext.after hafter) hthere rfl).step hstep
        | none =>
          obtain ⟨rest', hbody⟩ := Flat.exists_after hlabel
          rw [hbody]
          cases k with
          | zero => exact .unfinished (Nat.zero_le _) (.refl w' s')
          | succ j =>
            have hback := hagain j rest' _ σ' w₁ s₁ rfl (c.rests_body.after hbody) hthere
            exact hback.before (.single hstep)

/-- The machine follows a routine from every statement on. -/
theorem follows_exec (hserves : c.Serves turns invoke) (k : Nat) (hk : k ≤ turns)
    (rest : List Flat.Stmt) {n : Nat} (hrest : c.Rests n rest) {σ : State} {w : Machine}
    {s : List Value} (hstands : c.Stands σ n [] w s) :
    Follows r p M c.depth k c.Returns w s
      (Flat.exec (c.environment invoke) c.routine.body k rest σ) := by
  induction k generalizing rest n σ w s with
  | zero => exact follows_rest hserves hk (fun _ _ _ _ _ _ h => nomatch h) rest hrest hstands
  | succ k ih =>
    refine follows_rest hserves hk (fun j rest n σ w s hj hrest hstands => ?_) rest hrest hstands
    cases hj
    exact ih (by omega) rest hrest hstands

end Scene
end TypedScript
