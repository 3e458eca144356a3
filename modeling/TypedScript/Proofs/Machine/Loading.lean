import TypedScript.Proofs.Machine.Moves

/-!
# Which modules are loaded

A module is loaded exactly if the machine knows its natives, no method is missing and all operands
are within their tables.
-/

namespace TypedScript

/-- Every method is there, and the operands of its instructions are within their tables. -/
def Module.InRange (M : Module) : Prop :=
  ∀ f? ∈ M.methods, ∃ f, f? = some f ∧ ∀ i ∈ f.code, M.inRange f i

namespace Module

variable {M : Module}

theorem badOperand?_eq_none {f : Method} :
    M.badOperand? f = none ↔ ∀ i ∈ f.code, M.inRange f i := by
  rw [badOperand?]
  cases hfind : f.code.findIdx? fun i => !M.inRange f i with
  | none =>
    rw [Array.findIdx?_eq_none_iff] at hfind
    simpa using hfind
  | some pc =>
    obtain ⟨hlt, hbad, -⟩ := Array.findIdx?_eq_some_iff_getElem.mp hfind
    have hget : f.code[pc]? = some f.code[pc] := Array.getElem?_eq_getElem hlt
    constructor
    · intro h
      simp [hget] at h
    · intro h
      have := h f.code[pc] (Array.getElem_mem hlt)
      simp [this] at hbad

theorem checkMethods_eq_ok {index : Nat} {ms : List (Option Method)} :
    M.checkMethods index ms = .ok () ↔
      ∀ f? ∈ ms, ∃ f, f? = some f ∧ ∀ i ∈ f.code, M.inRange f i := by
  induction ms generalizing index with
  | nil => simp [checkMethods]
  | cons f? rest ih =>
    cases f? with
    | none => simp [checkMethods]
    | some f =>
      rw [checkMethods, List.forall_mem_cons]
      cases hbad : M.badOperand? f with
      | none =>
        have hrange := badOperand?_eq_none.mp hbad
        exact ih.trans ⟨fun h => ⟨⟨f, rfl, hrange⟩, h⟩, fun h => h.2⟩
      | some place =>
        have hrange : ¬∀ i ∈ f.code, M.inRange f i := by
          rw [← badOperand?_eq_none, hbad]
          simp
        constructor
        · intro h
          cases h
        · rintro ⟨⟨g, hg, hall⟩, -⟩
          obtain rfl := Option.some.inj hg
          exact absurd hall hrange

theorem exists_linkNatives (h : ∀ key ∈ M.natives, (Native.find? key).isSome) :
    ∃ natives, M.linkNatives = .ok natives := by
  refine ⟨M.natives.toList.filterMap Native.find?, linkNatives_eq_ok.mpr ?_⟩
  have hall : ∀ key ∈ M.natives.toList, (Native.find? key).isSome := by simpa using h
  generalize M.natives.toList = keys at hall
  induction keys with
  | nil => exact .nil
  | cons key rest ih =>
    rw [List.forall_mem_cons] at hall
    obtain ⟨n, hn⟩ := Option.isSome_iff_exists.mp hall.1
    rw [List.filterMap_cons_some hn]
    exact .cons hn (ih hall.2)

end Module

namespace Machine

structure Fresh (M : Module) (s : Settings) (m : Machine) : Prop where
  natives : M.linkNatives = .ok m.natives.toList
  eq : m = ⟨M, m.natives, none, Array.replicate firstCells .null, 0, [], #[], 0, s.input, "",
    ⟨0, s.tick⟩, ⟨s.seed⟩, s.maxDepth⟩

/-- Loading gives the machine at the start, and only if operands are in range. -/
theorem load_eq_ok {M : Module} {s : Settings} {m : Machine} :
    load M s = .ok m ↔ M.InRange ∧ m.Fresh M s := by
  have hrange : M.checkMethods 0 M.methods.toList = .ok () ↔ M.InRange := by
    rw [Module.checkMethods_eq_ok]
    simp [Module.InRange]
  constructor
  · intro h
    obtain ⟨natives, hnatives, h⟩ := exists_of_bind_eq_ok h
    obtain ⟨_, hcheck, h⟩ := exists_of_bind_eq_ok h
    obtain rfl := Except.ok.inj h
    exact ⟨hrange.mp hcheck, by simpa using hnatives, rfl⟩
  · rintro ⟨hcheck, hnatives, heq⟩
    rw [load, hnatives]
    change (M.checkMethods 0 M.methods.toList >>= _) = _
    rw [hrange.mpr hcheck, heq]
    rfl

theorem exists_load {M : Module} (hnatives : ∀ key ∈ M.natives, (Native.find? key).isSome)
    (hrange : M.InRange) (s : Settings) : ∃ m, load M s = .ok m := by
  obtain ⟨natives, hlink⟩ := Module.exists_linkNatives hnatives
  exact ⟨⟨M, natives.toArray, none, Array.replicate firstCells .null, 0, [], #[], 0, s.input, "",
    ⟨0, s.tick⟩, ⟨s.seed⟩, s.maxDepth⟩, load_eq_ok.mpr ⟨hrange, hlink, rfl⟩⟩

end Machine
end TypedScript
