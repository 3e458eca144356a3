import TypedScript.Proofs.Bytecode.Balance
import TypedScript.Proofs.Machine.Loading

/-!
# Modules that compilation returns are well formed

The machine accepts them: it knows their natives, and their operands are within the tables. Each of
their methods is balanced, and what an instruction is said to take and leave is what the machine takes
and leaves when it is executed.
-/

namespace TypedScript

open Emission

theorem Method.Verified.inRange {M : Module} {f : Method} {shapes : Nat → List String}
    (h : f.Verified M shapes) {i : Instruction} (hi : i ∈ f.code) : M.inRange f i := by
  obtain ⟨n, hn⟩ := Array.getElem?_of_mem hi
  obtain ⟨target, hjump, hlt, -⟩ | ⟨target, hjump, hlt, -⟩ | ⟨hop, -⟩ | ⟨hop, -⟩ | ⟨heffect, -⟩ :=
    h.step n i hn
  · simpa [Module.inRange, hjump.operation, hjump.operand, Operation.operand, Module.limit?] using hlt
  · simpa [Module.inRange, hjump.operation, hjump.operand, Operation.operand, Module.limit?] using hlt
  · simp [Module.inRange, hop, Operation.operand, Module.limit?]
  · simp [Module.inRange, hop, Operation.operand, Module.limit?]
  · exact heffect.inRange

namespace Generated

variable {r : Registry} {p : Flat.Program} {M : Module} (h : Generated r p M)

include h

/-- No method is missing, and each stands in the place of its routine. -/
theorem exists_getElem? {k : Nat} {f? : Option Method} (hf : M.methods[k]? = some f?) :
    ∃ g f, p.routines[k]? = some g ∧ f? = some f := by
  obtain ⟨ms, hms, hall⟩ := h.emitted.methods
  rw [hms, List.getElem?_toArray, List.getElem?_map, Option.map_eq_some_iff] at hf
  obtain ⟨f, hf, rfl⟩ := hf
  obtain ⟨g, hg, -⟩ := exists_getElem?_right hall.flip hf
  exact ⟨g, f, hg, rfl⟩

theorem inRange (hends : ∀ g ∈ p.routines, g.body.getLast?.any Flat.Stmt.isReturn) : M.InRange := by
  intro f? hf?
  obtain ⟨k, hk⟩ := Array.getElem?_of_mem hf?
  obtain ⟨g, f, hg, rfl⟩ := h.exists_getElem? hk
  have hf : M.method? k = some f := by simp [Module.method?, hk]
  obtain ⟨shapes, hverified, -⟩ := h.verified hg hf (hends g (List.mem_of_getElem? hg))
  exact ⟨f, rfl, fun i hi => hverified.inRange hi⟩

end Generated

/-- The place between two parts of a body, as the number of instructions before it. -/
def Flat.Routine.Divides (r : Registry) (p : Flat.Program) (M : Module) (g : Flat.Routine) (n : Nat) :
    Prop :=
  ∃ before after lines s, g.body = before ++ after ∧
    stmts (contextOf r p) g.name before ⟨M, #[]⟩ = .ok (lines, s) ∧ n = instructionCount lines

/-- A module that compilation returns is accepted by the machine. The number of operands of its
methods depends only on the instruction: control never leaves the code but by a return, the operands
are enough for every instruction, and there are none between statements and where jumps lead. -/
theorem compiled_well_formed {source : List Glyph} {options : CompileOptions} {c : Compilation}
    {M : Module} (h : compile source options = .ok c) (hM : c.module? = some M) (hsmall : M.Small) :
    (∀ s, ∃ m, Machine.load M s = .ok m) ∧
    (∃ a, c.analysis? = some a ∧ ∀ (k : Nat) (f? : Option Method), M.methods[k]? = some f? →
      ∃ (g : Flat.Routine) (f : Method) (depth : Nat → Nat), a.flat.routines[k]? = some g ∧
        f? = some f ∧ f.Balanced M depth ∧ ∀ n, g.Divides a.registry a.flat M n → depth n = 0) ∧
    ∀ (m m' : Machine) (op : Operation) (i : Instruction) (call : Activation) (f : Method)
      (takes leaves : Nat), m.module = M → M.linkNatives = .ok m.natives.toList →
      i.operation? = some op → op ≠ .call → op ≠ .ret → M.moves? i = some (takes, leaves) →
      Action.perform op i call f m = .ok () m' → m'.top = m.top - takes + leaves := by
  obtain ⟨a, ha, hgenerated, hends⟩ := exists_generated h hM hsmall
  refine ⟨fun s => ?_, ⟨a, ha, fun k f? hf? => ?_⟩, ?_⟩
  · exact Machine.exists_load (fun key hkey => hgenerated.find_native hkey)
      (hgenerated.inRange hends) s
  · obtain ⟨g, f, hg, rfl⟩ := hgenerated.exists_getElem? hf?
    have hf : M.method? k = some f := by simp [Module.method?, hf?]
    obtain ⟨shapes, hverified, hbetween⟩ :=
      hgenerated.verified hg hf (hends g (List.mem_of_getElem? hg))
    refine ⟨g, f, _, hg, rfl, hverified.balanced, ?_⟩
    rintro n ⟨before, after, lines, s, hsplit, hrun, rfl⟩
    obtain ⟨lines', s', hrun', hnone⟩ := hbetween before after hsplit
    rw [hrun, Except.ok.injEq, Prod.mk.injEq] at hrun'
    obtain ⟨rfl, rfl⟩ := hrun'
    simp [hnone]
  · rintro m m' op i call f takes leaves rfl hlinked hop hcall hret hmoves hrun
    exact Action.perform_moves hop hcall hret hlinked hmoves hrun

def countdown : List Glyph :=
  "func f(n: i32): i32 { while (n > 0 && true) { return f(n - 1); } return n; } f(3);".toList.map
    Glyph.ofChar

theorem countdown_compiles :
    ∃ c M, compile countdown ⟨"", "", false⟩ = .ok c ∧ c.module? = some M ∧ M.Small := by
  obtain ⟨c, M, hc, hM, hsmall⟩ := exists_module_of_any (P := Module.isSmall)
    (show ((compile countdown ⟨"", "", false⟩).toOption.any fun c => c.module?.any Module.isSmall) =
      true by decide +kernel)
  exact ⟨c, M, hc, hM, Module.isSmall_iff.mp hsmall⟩

theorem compiled_well_formed_countdown :
    ∃ c M, compile countdown ⟨"", "", false⟩ = .ok c ∧ c.module? = some M ∧ M.Small ∧
      ∀ s, ∃ m, Machine.load M s = .ok m := by
  obtain ⟨c, M, h, hM, hsmall⟩ := countdown_compiles
  exact ⟨c, M, h, hM, hsmall, (compiled_well_formed h hM hsmall).1⟩

end TypedScript
