import TypedScript.Proofs.Machine.Alike

/-!
# Machines that are alike take the same steps

One lemma for each thing that an instruction does, and the step from them.
-/

namespace TypedScript

variable {M : Module} {depth : Int} {p : Past}

/-- The machine's constants are plain values. -/
theorem Native.constant_after {native : Native} (h : native ∈ all) {v : Value}
    (hbody : native.body = .constant v) : v.after p = v := by
  have hall : ∀ n ∈ all, ∀ v, n.body = .constant v → v = .float Double.pi := by simp [all]
  obtain rfl := hall native h v hbody
  rfl

def Routine.takesAny : Routine → Bool
  | print _ | concat | equalObjects | toText => true
  | _ => false

/-- A routine that takes only values of certain kinds takes none that have a number. -/
theorem Action.callRoutine_after (key : String) {r : Routine} (hr : r.takesAny = false)
    (args : List Value) :
    callRoutine key r (args.map (Value.after p)) = callRoutine key r args := by
  cases r with
  | newline | input | random | clock => cases args <;> rfl
  | abs t | absFloat | sqrt | exit | parse t =>
    obtain _ | ⟨v, _ | ⟨w, rest⟩⟩ := args
    · rfl
    · cases v <;> rfl
    · cases v <;> rfl
  | randomBetween | equalTexts =>
    obtain _ | ⟨v, _ | ⟨w, _ | ⟨u, rest⟩⟩⟩ := args
    · rfl
    · cases v <;> rfl
    · cases v <;> first | rfl | cases w <;> rfl
    · cases v <;> first | rfl | cases w <;> rfl
  | _ => cases hr

namespace Machine

theorem write_later (n : Machine) (cells : Array Value) (s : String) :
    (n.later p cells).write s = (n.write s).later p cells := by
  simp [write, later, String.append_assoc]

namespace Alike

variable {m n : Machine}

theorem natives_eq (h : Alike M depth p m n) : m.natives = n.natives := by
  rw [h.eq]
  rfl

theorem statics_eq (h : Alike M depth p m n) :
    m.statics?.getD #[] = (n.statics?.getD #[]).map (Value.after p) := by
  rw [h.eq]
  cases hs : n.statics? <;> simp [later, hs]

theorem items_eq (h : Alike M depth p m n) (ref : Nat) :
    m.items (p.heap.size + ref) = (n.items ref).map (Value.after p) := by
  rw [h.eq]
  exact Heap.items_after ref

theorem element_eq (h : Alike M depth p m n) (target index : Value) :
    m.element (target.after p) (index.after p) = (n.element target index).map (Value.after p) := by
  unfold element
  rw [Value.index_after]
  cases index.index with
  | error c => rfl
  | ok i =>
    cases target with
    | array ref =>
      change entryAt (m.items (p.heap.size + ref)) i = (entryAt (n.items ref) i).map (Value.after p)
      rw [h.items_eq, entryAt, entryAt, Array.getElem?_map, Array.size_map]
      split
      · rfl
      · cases (n.items ref)[i.toNat]? <;> rfl
    | string s =>
      change (entryAt s.toList.toArray i >>= fun c => _) = Except.map _ (entryAt _ i >>= fun c => _)
      cases entryAt s.toList.toArray i <;> rfl
    | _ => rfl

theorem place_eq (h : Alike M depth p m n) (target index : Value) :
    m.place (target.after p) (index.after p) =
      (n.place target index).map fun place => (p.heap.size + place.1, place.2) := by
  unfold place
  rw [Value.index_after]
  cases index.index with
  | error c => rfl
  | ok i =>
    cases target with
    | array ref =>
      change (entryAt (m.items (p.heap.size + ref)) i >>= fun _ => _) =
        Except.map _ (entryAt (n.items ref) i >>= fun _ => _)
      rw [h.items_eq, entryAt, entryAt, Array.getElem?_map, Array.size_map]
      split
      · rfl
      · cases (n.items ref)[i.toNat]? <;> rfl
    | _ => rfl

theorem length_eq (h : Alike M depth p m n) (v : Value) : m.length (v.after p) = n.length v := by
  cases v with
  | array ref =>
    change Except.ok (m.items (p.heap.size + ref)).size = Except.ok (n.items ref).size
    rw [h.items_eq, Array.size_map]
  | _ => rfl

end Alike
end Machine

namespace Action
namespace Tracks

variable {α β : Type} {R : α → β → Prop}

theorem forM {xs : List α} {ys : List β} (hxs : List.Forall₂ R xs ys) {f : α → Action Unit}
    {g : β → Action Unit} (h : ∀ x y, R x y → Tracks M depth p Eq (f x) (g y)) :
    Tracks M depth p Eq (xs.forM f) (ys.forM g) := by
  induction hxs with
  | nil => exact pure rfl
  | cons hxy _ ih => exact (h _ _ hxy).bind fun _ _ _ => ih

theorem methodAt (a : Int) : Tracks M depth p Eq (methodAt a) (methodAt a) := by
  refine get_bind fun m n h => ?_
  rw [h.module_eq, h.upright.module]
  refine (entry_same _ _).bind ?_
  rintro f? _ rfl
  simpa using orCrash (M := M) (p := p) id f?

theorem jump (target : Int) : Tracks M depth p Eq (jump target) (jump target) := by
  intro m n h
  refine .ok rfl ?_
  dsimp only
  rw [h.calls_eq]
  cases hcalls : n.calls with
  | nil => exact h
  | cons f rest => exact h.goOn hcalls target

theorem await : Tracks M depth p R (await : Action α) (await : Action β) := by
  refine bind (R := Eq) (fun m n h => .ok rfl ?_) fun _ _ _ => throw _
  dsimp only
  rw [h.calls_eq]
  cases hcalls : n.calls with
  | nil => exact h
  | cons f rest => exact h.goOn hcalls _

theorem unbox (wanted : String) (v : Value) :
    Tracks M depth p (Value.IsAfter p) (unbox wanted (v.after p)) (unbox wanted v) := by
  have htext : ∀ w : Value, Tracks M depth p (Value.IsAfter p)
      (Action.text (w.after p) >>= fun s => (Action.fail (.unboxFailed s wanted) : Action Value))
      (Action.text w >>= fun s => Action.fail (.unboxFailed s wanted)) := by
    intro w
    refine (text w).bind ?_
    rintro s _ rfl
    exact fail _
  cases v with
  | boxed id type content =>
    unfold Action.unbox Value.after
    dsimp only
    split
    · exact pure rfl
    · exact fail _
  | _ => exact htext _

theorem randomBits : Tracks M depth p Eq randomBits randomBits := by
  intro m n h
  rw [h.eq]
  exact .ok rfl (h.update { n with generator := n.generator.next.2 } rfl)

theorem randomBetween (key : String) (low high : Int64) :
    Tracks M depth p (Value.IsAfter p) (randomBetween key low high) (randomBetween key low high) := by
  unfold Action.randomBetween
  split
  · exact fail _
  · split
    · exact pure rfl
    · split
      · exact throw _
      · refine randomBits.bind ?_
        rintro bits _ rfl
        exact pure rfl

theorem write (s : String) : Tracks M depth p Eq (fun m : Machine => .ok () (m.write s))
    (fun m : Machine => .ok () (m.write s)) :=
  modify (fun n cells => Machine.write_later n cells s) fun _ => rfl

theorem answers {key : String} {r : Routine} {args : List Value} {a : Action Value}
    (ha : Answers key r args a) (hr : r.takesAny = false) :
    Tracks M depth p (Value.IsAfter p) a a := by
  cases ha with
  | print | concat | equalObjects | toText => cases hr
  | newline => exact (write _).bind fun _ _ _ => pure rfl
  | input =>
    refine get_bind fun m n h => ?_
    rw [h.eq]
    dsimp only [Machine.later]
    cases n.input.line? with
    | none => exact await
    | some next => exact (modify (fun _ _ => rfl) fun _ => rfl).bind fun _ _ _ => pure rfl
  | random =>
    refine randomBits.bind ?_
    rintro bits _ rfl
    exact pure rfl
  | randomBetween low high => exact randomBetween key low high
  | exit code => exact throw _
  | clock =>
    refine get_bind fun m n h => ?_
    rw [h.eq]
    exact (modify (fun _ _ => rfl) fun _ => rfl).bind fun _ _ _ => pure rfl
  | parse t s =>
    cases hv : Value.parse? t s with
    | some v => exact pure (Value.parse?_after hv).symm
    | none => exact fail _
  | abs | absFloat | sqrt | equalTexts => exact pure rfl
  | refused => exact crash

theorem callRoutine (key : String) (r : Routine) (args : List Value) :
    Tracks M depth p (Value.IsAfter p) (callRoutine key r (args.map (Value.after p)))
      (callRoutine key r args) := by
  by_cases hr : r.takesAny
  · cases r with
    | print line =>
      obtain _ | ⟨v, _ | ⟨w, rest⟩⟩ := args
      · exact crash
      · refine (text v).bind ?_
        rintro s _ rfl
        exact (write _).bind fun _ _ _ => pure rfl
      · exact crash
    | toText =>
      obtain _ | ⟨v, _ | ⟨w, rest⟩⟩ := args
      · exact crash
      · refine (text v).bind ?_
        rintro s _ rfl
        exact pure rfl
      · exact crash
    | concat =>
      obtain _ | ⟨v, _ | ⟨w, _ | ⟨u, rest⟩⟩⟩ := args
      · exact crash
      · exact crash
      · refine (text v).bind ?_
        rintro s _ rfl
        refine (text w).bind ?_
        rintro t _ rfl
        exact pure rfl
      · exact crash
    | equalObjects =>
      obtain _ | ⟨v, _ | ⟨w, _ | ⟨u, rest⟩⟩⟩ := args
      · exact crash
      · exact crash
      · exact pure (congrArg Value.bool (Value.objectEquals_after v w))
      · exact crash
    | _ => cases hr
  · rw [callRoutine_after key (by simpa using hr)]
    exact answers (answers_callRoutine key r args) (by simpa using hr)

theorem callNative (i : Int) : Tracks M depth p Eq (callNative i) (callNative i) := by
  refine get_bind fun m n h => ?_
  rw [h.natives_eq]
  refine (entry_same _ _).bind ?_
  rintro native _ rfl
  cases hbody : native.body with
  | constant v => exact fail _
  | routine r =>
    refine (popArgs _).bind ?_
    rintro _ args rfl
    refine (callRoutine _ _ _).bind ?_
    rintro _ v rfl
    split
    · exact push v
    · exact pure rfl

theorem loadNative (i : Int) : Tracks M depth p Eq (loadNative i) (loadNative i) := by
  intro m n h
  refine .get_bind ?_
  rw [h.natives_eq]
  refine (entry_same _ _ m n h).bind ?_
  rintro native _ m₂ n₂ hentry rfl h₂
  cases hbody : native.body with
  | constant v =>
    obtain ⟨hnative, -⟩ := entry_eq_ok hentry
    obtain ⟨key, -, hfind⟩ := Module.exists_key h.upright.linked hnative
    have hafter := Native.constant_after (p := p) (List.mem_of_find?_eq_some hfind) hbody
    have hpush := push (p := p) v m₂ n₂ h₂
    rwa [hafter] at hpush
  | routine r => exact fail _ m₂ n₂ h₂

theorem loadStatic (i : Int) : Tracks M depth p Eq (loadStatic i) (loadStatic i) := by
  refine get_bind fun m n h => ?_
  rw [h.statics_eq]
  refine (entry _ _ _).bind ?_
  rintro _ v rfl
  exact push v

theorem storeStatic (i : Int) : Tracks M depth p Eq (storeStatic i) (storeStatic i) := by
  refine peek.bind ?_
  rintro _ v rfl
  refine get_bind fun m n h => ?_
  rw [h.statics_eq]
  refine (entry _ _ _).bind fun _ _ _ => modify (fun n cells => ?_) fun _ => rfl
  cases hs : n.statics? <;> simp [Machine.later, hs]

theorem newArray (type : String) : Tracks M depth p Eq (newArray type) (newArray type) := by
  refine pop.bind ?_
  rintro _ v rfl
  rw [Value.index_after]
  refine (orFail_same _).bind ?_
  rintro size _ rfl
  split
  · exact fail _
  · split
    · exact crash
    · refine bind (R := Value.IsAfter p) ?_ ?_
      · intro m n h
        have hzeros : Array.replicate size.toNat (Value.zero type) =
            (Array.replicate size.toNat (Value.zero type)).map (Value.after p) := by simp
        unfold Action.apply Machine.addArray
        rw [h.eq]
        refine .ok ?_ ?_
        · exact congrArg Value.array Heap.size_after
        · change Machine.Alike M depth p { n.later p m.cells with heap := (n.heap.after p).push _ } _
          rw [hzeros, Heap.push_after, ← hzeros]
          exact h.update
            { n with heap := n.heap.push ⟨type, Array.replicate size.toNat (Value.zero type)⟩ } rfl
      · rintro _ v rfl
        exact push v

theorem box (type : String) (v : Value) : Tracks M depth p (Value.IsAfter p)
    (apply fun m => m.box type (v.after p)) (apply fun m => m.box type v) := by
  intro m n h
  unfold Action.apply Machine.box
  rw [h.eq]
  exact .ok rfl (h.update { n with boxes := n.boxes + 1 } rfl)

theorem storeElement (ref i : Nat) (v : Value) : Tracks M depth p Eq
    (fun m : Machine => .ok () (m.setElement (p.heap.size + ref) i (v.after p)))
    (fun m : Machine => .ok () (m.setElement ref i v)) := by
  refine modify (fun n cells => ?_) fun _ => rfl
  unfold Machine.setElement Machine.later
  dsimp only
  rw [Heap.modify_after]

end Tracks
end Action

namespace Machine
namespace Alike

variable {m n : Machine}

/-- A call that begins finds its arguments on the stack and sets its locals. -/
theorem enter (h : Alike M depth p m n) {a : Int}
    (hbase : n.calls = [] → ∀ g, M.method? a.toNat = some g → n.top = g.params.size) :
    Outcome M depth p Eq (Action.enter a m) (Action.enter a n) := by
  refine (Action.Tracks.methodAt a m n h).bind ?_
  rintro g _ m₁ n₁ hmethod rfl h₁
  obtain ⟨hg, rfl⟩ := Action.methodAt_eq_ok hmethod
  rw [h.upright.module] at hg
  refine .get_bind ?_
  have hdepth : m₁.maxDepth = n₁.maxDepth := by rw [h₁.eq]; rfl
  rw [hdepth, h₁.calls_eq, h₁.top_eq]
  by_cases hfull : n₁.maxDepth ≤ n₁.calls.length
  · rw [if_pos hfull]
    exact Action.Tracks.fail _ m₁ n₁ h₁
  · rw [if_neg hfull]
    have hzeros : Action.Tracks M depth p Eq
        (g.locals.toList.forM fun slot => Action.push (Value.zero slot.type))
        (g.locals.toList.forM fun slot => Action.push (Value.zero slot.type)) := by
      refine Action.Tracks.forM (List.forall₂_same.mpr fun _ _ => rfl) ?_
      rintro slot _ rfl
      simpa using Action.Tracks.push (M := M) (p := p) (Value.zero slot.type)
    refine (hzeros m₁ n₁ h₁).bind ?_
    rintro _ _ m₃ n₃ hpush - h₃
    obtain ⟨htop, hcalls⟩ := Action.pushAll_moves hpush
    rw [Array.length_toList] at htop
    refine .ok rfl (h₃.addCall ?_ ?_ ?_)
    · have hmax := h.upright.maxDepth
      rw [hcalls]
      omega
    · intro hnone
      have htop₁ := hbase (hcalls ▸ hnone) g hg
      dsimp only
      omega
    · rintro i ⟨g', hg', hi⟩
      dsimp only at hg' hi
      obtain rfl := Option.some.inj (hg.symm.trans hg')
      omega

theorem leave (h : Alike M depth p m n) :
    Outcome M depth p Eq (Action.leave m) (Action.leave n) := by
  refine .get_bind ?_
  rw [h.calls_eq, h.top_eq]
  cases hcalls : n.calls with
  | nil => exact .crash _ h.output_eq
  | cons f rest =>
    refine (Action.Tracks.popMany _ m n h).bind ?_
    rintro _ _ m₂ n₂ hpop - h₂
    obtain ⟨-, hcalls₂⟩ := Action.popMany_moves hpop
    have hdrop := h₂.drop 1
    rw [hcalls₂, hcalls, List.drop_one, List.tail_cons] at hdrop
    exact .ok rfl hdrop

/-- An instruction reads only cells of its own call that are live. -/
theorem perform (h : Alike M depth p m n) {op : Operation} {i : Instruction} {f : Activation}
    {method : Method} {next : Int} {rest : List Activation}
    (hcalls : n.calls = { f with next } :: rest)
    (hmethod : M.method? f.method.toNat = some method) (hop : i.operation? = some op)
    (hrange : M.inRange method i) :
    Outcome M depth p Eq (Action.perform op i f method m) (Action.perform op i f method n) := by
  have howned : ∀ {k : Int}, k < f.base + method.params.size + method.locals.size → 0 ≤ k →
      n.Live k.toNat := by
    intro k hk hpos
    refine .inr ⟨{ f with next }, by simp [hcalls], method, ?_, ?_⟩
    · rw [h.upright.module]
      exact hmethod
    · dsimp only
      omega
  simp only [Module.inRange, hop, Option.bind_some] at hrange
  have hmodule := h.upright.module
  cases op with
  | nop | ret | retVoid => exact .ok rfl h
  | pop => exact (Action.Tracks.pop m n h).bind fun _ _ _ _ _ _ h => .ok rfl h
  | dup =>
    refine (Action.Tracks.peek.bind ?_) m n h
    rintro _ v rfl
    exact Action.Tracks.push v
  | push =>
    refine Action.Tracks.get_bind (fun m n h => ?_) m n h
    rw [h.module_eq, h.upright.module]
    refine (Action.Tracks.entry_same _ _).bind ?_
    rintro c _ rfl
    simpa using Action.Tracks.push (M := M) (p := p) c.value
  | loadArg =>
    simp only [Operation.operand, Module.limit?, Bool.and_eq_true, decide_eq_true_eq] at hrange
    refine (h.cell (howned (by omega))).bind ?_
    rintro _ v m' n' - rfl h'
    exact Action.Tracks.push v m' n' h'
  | loadLocal =>
    simp only [Operation.operand, Module.limit?, Bool.and_eq_true, decide_eq_true_eq] at hrange
    refine (h.cell (howned (by omega))).bind ?_
    rintro _ v m' n' - rfl h'
    exact Action.Tracks.push v m' n' h'
  | storeLocal =>
    simp only [Operation.operand, Module.limit?, Bool.and_eq_true, decide_eq_true_eq] at hrange
    refine (Action.Tracks.peek m n h).bind ?_
    rintro _ v m' n' hpeek rfl h'
    obtain rfl := Action.cell_eq_ok hpeek
    exact h'.setCell (howned (by omega)) v
  | loadStatic => exact Action.Tracks.loadStatic _ m n h
  | storeStatic => exact Action.Tracks.storeStatic _ m n h
  | loadNative => exact Action.Tracks.loadNative _ m n h
  | neg | compl =>
    refine (Action.Tracks.pop.bind ?_) m n h
    rintro _ v rfl
    rw [Arithmetic.unary_after]
    refine (Action.Tracks.orFail _ _).bind ?_
    rintro _ w rfl
    exact Action.Tracks.push w
  | convert =>
    refine (Action.Tracks.pop.bind ?_) m n h
    rintro _ v rfl
    rw [Arithmetic.convert_after]
    refine (Action.Tracks.orFail _ _).bind ?_
    rintro _ w rfl
    exact Action.Tracks.push w
  | box =>
    refine Action.Tracks.get_bind (fun m n h => ?_) m n h
    rw [h.module_eq, h.upright.module]
    refine (Action.Tracks.entry_same _ _).bind ?_
    rintro type _ rfl
    refine Action.Tracks.pop.bind ?_
    rintro _ v rfl
    refine (Action.Tracks.box type v).bind ?_
    rintro _ w rfl
    exact Action.Tracks.push w
  | unbox =>
    refine Action.Tracks.get_bind (fun m n h => ?_) m n h
    rw [h.module_eq, h.upright.module]
    refine (Action.Tracks.entry_same _ _).bind ?_
    rintro wanted _ rfl
    refine Action.Tracks.pop.bind ?_
    rintro _ v rfl
    refine (Action.Tracks.unbox wanted v).bind ?_
    rintro _ w rfl
    exact Action.Tracks.push w
  | newArray =>
    refine Action.Tracks.get_bind (fun m n h => ?_) m n h
    rw [h.module_eq, h.upright.module]
    refine (Action.Tracks.entry_same _ _).bind ?_
    rintro type _ rfl
    exact Action.Tracks.newArray type
  | loadElem =>
    refine (Action.Tracks.pop.bind ?_) m n h
    rintro _ index rfl
    refine Action.Tracks.pop.bind ?_
    rintro _ target rfl
    refine Action.Tracks.get_bind fun m n h => ?_
    rw [h.element_eq]
    refine (Action.Tracks.orFail _ _).bind ?_
    rintro _ w rfl
    exact Action.Tracks.push w
  | storeElem =>
    refine (Action.Tracks.pop.bind ?_) m n h
    rintro _ v rfl
    refine Action.Tracks.pop.bind ?_
    rintro _ index rfl
    refine Action.Tracks.pop.bind ?_
    rintro _ target rfl
    refine Action.Tracks.get_bind fun m n h => ?_
    rw [h.place_eq]
    refine (Action.Tracks.orFail _ _).bind ?_
    rintro _ ⟨ref, k⟩ rfl
    exact (Action.Tracks.storeElement ref k v).bind fun _ _ _ => Action.Tracks.push v
  | length =>
    refine (Action.Tracks.pop.bind ?_) m n h
    rintro _ v rfl
    refine Action.Tracks.get_bind fun m n h => ?_
    rw [h.length_eq]
    refine (Action.Tracks.orFail_same _).bind ?_
    rintro size _ rfl
    exact Action.Tracks.push (.int (Int64.ofNat size))
  | call =>
    refine h.enter fun hnone => ?_
    rw [hcalls] at hnone
    cases hnone
  | callNative => exact Action.Tracks.callNative _ m n h
  | jump => exact Action.Tracks.jump _ m n h
  | jumpTrue =>
    refine (Action.Tracks.pop.bind ?_) m n h
    rintro _ v rfl
    cases v with
    | bool b =>
      cases b with
      | true => exact Action.Tracks.jump _
      | false => exact Action.Tracks.pure rfl
    | _ => exact Action.Tracks.fail _
  | add | sub | mul | div | rem | and | or | xor | shl | shr | ceq | clt | cgt =>
    refine (Action.Tracks.pop.bind ?_) m n h
    rintro _ y rfl
    refine Action.Tracks.pop.bind ?_
    rintro _ x rfl
    rw [Arithmetic.binary_after]
    refine (Action.Tracks.orFail _ _).bind ?_
    rintro _ w rfl
    exact Action.Tracks.push w

theorem fetch (h : Alike M depth p m n) :
    Outcome M depth p Eq (Action.fetch m) (Action.fetch n) := by
  refine .get_bind ?_
  rw [h.calls_eq]
  cases hcalls : n.calls with
  | nil => exact .crash _ h.output_eq
  | cons f rest =>
    refine (Action.Tracks.methodAt _ m n h).bind ?_
    rintro method _ m₁ n₁ hmethod rfl h₁
    obtain ⟨-, rfl⟩ := Action.methodAt_eq_ok hmethod
    split
    · exact .crash _ h₁.output_eq
    · cases method.code[f.next.toNat]? with
      | none => exact Action.Tracks.fail _ m₁ n₁ h₁
      | some i => exact .ok rfl (h₁.goOn hcalls _)

end Alike
end Machine

namespace Action

/-- What is to be done next stands in the code of the method of the innermost call. -/
theorem fetch_eq_ok {m m' : Machine} {f : Activation} {method : Method} {i : Instruction}
    (h : fetch m = .ok (f, method, i) m') : ∃ rest, m.calls = f :: rest ∧
      m' = { m with calls := { f with next := f.next + 1 } :: rest } ∧ 0 ≤ f.next ∧
      m.module.method? f.method.toNat = some method ∧ method.code[f.next.toNat]? = some i := by
  obtain ⟨m₁, m₂, hget, hrest⟩ := bind_eq_ok h
  obtain ⟨rfl, rfl⟩ := EStateM.Result.ok.inj hget
  cases hcalls : m.calls with
  | nil =>
    rw [hcalls] at hrest
    cases hrest
  | cons g rest =>
    rw [hcalls] at hrest
    obtain ⟨method', m₃, hmethod, htaken⟩ := bind_eq_ok hrest
    obtain ⟨hfound, rfl⟩ := methodAt_eq_ok hmethod
    by_cases hnext : g.next < 0
    · rw [if_pos hnext] at htaken
      cases htaken
    · rw [if_neg hnext] at htaken
      cases hcode : method'.code[g.next.toNat]? with
      | none =>
        rw [hcode] at htaken
        cases htaken
      | some j =>
        rw [hcode] at htaken
        obtain ⟨hresult, rfl⟩ := EStateM.Result.ok.inj htaken
        cases hresult
        exact ⟨rest, rfl, rfl, by omega, hfound, hcode⟩

end Action

/-- Machines that are alike take the same step. -/
theorem Machine.Alike.step {m n : Machine} (h : m.Alike M depth p n) (outer : Nat) :
    Outcome M depth p (fun r s => r = s.map (Value.after p)) (Action.step outer m)
      (Action.step outer n) := by
  refine h.fetch.bind ?_
  rintro ⟨f, method, i⟩ _ m₁ n₁ hfetch rfl h₁
  obtain ⟨rest, hcalls, rfl, -, hmethod, hcode⟩ := Action.fetch_eq_ok hfetch
  have hrange : M.inRange method i := by
    rw [h.upright.module, Module.method?, Option.join_eq_some_iff] at hmethod
    obtain ⟨g, hg, hall⟩ := h.upright.inRange _ (Array.mem_of_getElem? hmethod)
    cases hg
    exact hall i (Array.mem_of_getElem? hcode)
  have hdone : ∀ {m n : Machine} (v : Value), m.Alike M depth p n →
      Outcome M depth p (fun r s => r = s.map (Value.after p))
        ((if m.calls.length = outer then pure (some (v.after p)) else do
          Action.push (v.after p)
          pure none : Action (Option Value)) m)
        ((if n.calls.length = outer then pure (some v) else do
          Action.push v
          pure none : Action (Option Value)) n) := by
    intro m n v h
    rw [h.calls_eq]
    split
    · exact .ok rfl h
    · exact (Action.Tracks.push v m n h).bind fun _ _ _ _ _ _ h => .ok rfl h
  dsimp only
  cases hop : i.operation? with
  | none => exact Action.Tracks.fail _ _ _ h₁
  | some op =>
    have hperform := h₁.perform rfl (h.upright.module ▸ hmethod) hop hrange
    cases op with
    | ret =>
      refine (Action.Tracks.pop _ _ h₁).bind ?_
      rintro _ v m₂ n₂ - rfl h₂
      refine h₂.leave.bind ?_
      rintro _ _ m₃ n₃ - - h₃
      exact hdone v h₃
    | retVoid =>
      refine h₁.leave.bind ?_
      rintro _ _ m₃ n₃ - - h₃
      refine .get_bind ?_
      rw [h₃.calls_eq]
      split
      · exact .ok rfl h₃
      · exact .ok rfl h₃
    | _ => exact hperform.bind fun _ _ _ _ _ _ h => .ok rfl h

end TypedScript
