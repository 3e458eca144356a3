import TypedScript.Proofs.Bytecode.Stacks
import TypedScript.Proofs.Machine.Cycles
import TypedScript.Proofs.Machine.Results

/-!
# States of the machine in which everything is of its type

Arguments, locals, operands, static fields and the elements of arrays hold values of the types that
they were declared with. A call that waits for another has the operands that its next instruction
wants, but for the result.
-/

namespace TypedScript

namespace Heap

def Extends (h h' : Heap) : Prop :=
  ∀ (ref : Nat) (a : ArrayObject), h[ref]? = some a → ∃ a', h'[ref]? = some a' ∧ a'.element = a.element

/-- The elements of arrays are of the types that the arrays were made for, and can be counted by an
`i32`. -/
structure Typed (h : Heap) : Prop where
  isValueType : ∀ a ∈ h, IsValueType a.element
  size : ∀ a ∈ h, a.items.size < 0x80000000
  items : ∀ a ∈ h, ∀ v ∈ a.items, v.Has h a.element

theorem Extends.refl (h : Heap) : h.Extends h := fun _ a ha => ⟨a, ha, rfl⟩

end Heap

theorem Value.Has.mono {h h' : Heap} (hle : h.Extends h') {v : Value} {t : String} (hv : v.Has h t) :
    v.Has h' t := by
  induction v generalizing t with
  | array ref =>
    obtain ⟨a, ha, rfl⟩ := hv
    obtain ⟨a', ha', heq⟩ := hle ref a ha
    exact ⟨a', ha', by rw [heq]⟩
  | boxed id type content ih => exact ⟨hv.1, ih hv.2⟩
  | _ => exact hv

namespace Heap

variable {h : Heap}

theorem extends_push (a : ArrayObject) : h.Extends (h.push a) := by
  intro ref b hb
  have hlt := (Array.getElem?_eq_some_iff.mp hb).1
  exact ⟨b, by rw [Array.getElem?_push, if_neg (by omega), hb], rfl⟩

theorem extends_store (ref i : Nat) (v : Value) :
    h.Extends (h.modify ref fun a => { a with items := a.items.set! i v }) := by
  intro ref' b hb
  refine ⟨if ref = ref' then { b with items := b.items.set! i v } else b, ?_, ?_⟩
  · rw [Array.getElem?_modify, hb]
    split <;> rfl
  · split <;> rfl

/-- A new array is made of zeros. -/
theorem Typed.push (ht : h.Typed) {t : String} (hvalue : IsValueType t) {n : Nat}
    (hn : n < 0x80000000) : Typed (h.push ⟨t, Array.replicate n (Value.zero t)⟩) := by
  refine ⟨fun a ha => ?_, fun a ha => ?_, fun a ha v hv => ?_⟩
  · rcases Array.mem_push.mp ha with ha | rfl
    · exact ht.isValueType a ha
    · exact hvalue
  · rcases Array.mem_push.mp ha with ha | rfl
    · exact ht.size a ha
    · simpa using hn
  · rcases Array.mem_push.mp ha with ha | rfl
    · exact (ht.items a ha v hv).mono (extends_push _)
    · obtain ⟨-, rfl⟩ := Array.mem_replicate.mp hv
      exact Value.zero_has _ hvalue

/-- What is stored into an array is of the type of its elements. -/
theorem Typed.store (ht : h.Typed) {ref : Nat} {a : ArrayObject} (ha : h[ref]? = some a) {v : Value}
    (hv : v.Has h a.element) (i : Nat) :
    Typed (h.modify ref fun a => { a with items := a.items.set! i v }) := by
  have hmem : ∀ b ∈ h.modify ref fun a => { a with items := a.items.set! i v },
      ∃ b' ∈ h, b.element = b'.element ∧ b.items.size = b'.items.size ∧
        ∀ x ∈ b.items, x.Has h b'.element := by
    intro b hb
    obtain ⟨ref', hb⟩ := Array.getElem?_of_mem hb
    rw [Array.getElem?_modify] at hb
    split at hb
    · rename_i heq
      subst heq
      rw [ha, Option.map_some, Option.some.injEq] at hb
      subst hb
      have hin := Array.mem_of_getElem? ha
      refine ⟨a, hin, rfl, by simp, fun x hx => ?_⟩
      rcases Array.mem_or_eq_of_mem_setIfInBounds hx with hx | rfl
      · exact ht.items a hin x hx
      · exact hv
    · exact ⟨b, Array.mem_of_getElem? hb, rfl, rfl, ht.items b (Array.mem_of_getElem? hb)⟩
  refine ⟨fun b hb => ?_, fun b hb => ?_, fun b hb x hx => ?_⟩
  · obtain ⟨b', hb', heq, -⟩ := hmem b hb
    rw [heq]
    exact ht.isValueType b' hb'
  · obtain ⟨b', hb', -, hsize, -⟩ := hmem b hb
    rw [hsize]
    exact ht.size b' hb'
  · obtain ⟨b', hb', heq, -, hall⟩ := hmem b hb
    rw [heq]
    exact (hall x hx).mono (extends_store ref i v)

end Heap

/-- A module of which the operands before all instructions are known, by methods. -/
structure Module.Verified (M : Module) (shapes : Nat → Nat → List String) : Prop where
  methods : ∀ k g, M.method? k = some g → g.Verified M (shapes k)
  locals : ∀ k g, M.method? k = some g → ∀ slot ∈ g.locals, IsValueType slot.type
  fields : ∀ field ∈ M.fields, IsValueType field.type

/-- What is shared by all calls is of its type. -/
structure Machine.Sound (M : Module) (w : Machine) : Prop where
  module : w.module = M
  linked : M.linkNatives = .ok w.natives.toList
  heap : w.heap.Typed
  statics : ∃ statics, w.statics? = some statics ∧
    List.Forall₂ (fun v field => v.Has w.heap field.type) statics.toList M.fields.toList

/-- A call is at an instruction, with operands of the given types; its arguments and locals are of
theirs. -/
structure Framed (M : Module) (heap : Heap) (f : Activation) (k n : Nat) (g : Method)
    (σ : List String) (ops locals args below : List Value) : Prop where
  index : f.method = k
  next : f.next = n
  method : M.method? k = some g
  code : n < g.code.size
  base : f.base = below.length
  ops : List.Forall₂ (fun v t => v.Has heap t) ops σ
  locals : List.Forall₂ (fun v slot => v.Has heap slot.type) locals g.locals.toList
  args : List.Forall₂ (fun v t => v.Has heap t) args g.params.toList

/-- Calls wait for a result of a type, with what is on the stack below the one that gives it. -/
inductive Waiting (M : Module) (shapes : Nat → Nat → List String) (heap : Heap) :
    List Activation → String → List Value → Prop
  | bottom {result : String} : Waiting M shapes heap [] result []
  | call {f : Activation} {rest : List Activation} {k n : Nat} {g : Method} {σ : List String}
    {ops locals args below : List Value} {result : String} :
    Framed M heap f k n g σ ops locals args below → shapes k n = leaving result σ →
    Waiting M shapes heap rest g.result below →
    Waiting M shapes heap (f :: rest) result (frame ops locals args below)

/-- A machine executes a call with everything of its type. -/
inductive Machine.Conforms (M : Module) (shapes : Nat → Nat → List String) (w : Machine) :
    List Value → Prop
  | mk {f : Activation} {rest : List Activation} {k n : Nat} {g : Method}
    {ops locals args below : List Value} : w.Sound M → w.calls = f :: rest →
    Framed M w.heap f k n g (shapes k n) ops locals args below →
    Waiting M shapes w.heap rest g.result below → Conforms M shapes w (frame ops locals args below)

section

variable {M : Module} {shapes : Nat → Nat → List String} {heap heap' : Heap}
  (hle : heap.Extends heap')

include hle

theorem Framed.mono {f : Activation} {k n : Nat} {g : Method} {σ : List String}
    {ops locals args below : List Value} (h : Framed M heap f k n g σ ops locals args below) :
    Framed M heap' f k n g σ ops locals args below :=
  ⟨h.index, h.next, h.method, h.code, h.base, h.ops.imp fun _ _ => .mono hle,
    h.locals.imp fun _ _ => .mono hle, h.args.imp fun _ _ => .mono hle⟩

theorem Waiting.mono {calls : List Activation} {result : String} {s : List Value}
    (h : Waiting M shapes heap calls result s) : Waiting M shapes heap' calls result s := by
  induction h with
  | bottom => exact .bottom
  | call hframed hshape _ ih => exact .call (hframed.mono hle) hshape ih

end

theorem forall₂_set {α β : Type} {R : α → β → Prop} {as : List α} {bs : List β}
    (h : List.Forall₂ R as bs) {i : Nat} {b : β} (hb : bs[i]? = some b) {a : α} (ha : R a b) :
    List.Forall₂ R (as.set i a) bs := by
  induction h generalizing i with
  | nil => simp at hb
  | cons hxy hrest ih =>
    cases i with
    | zero =>
      obtain rfl := Option.some.inj hb
      exact .cons ha hrest
    | succ i => exact .cons hxy (ih hb)

namespace Machine.Sound

variable {M : Module} {w w' : Machine} (h : w.Sound M)

include h

/-- Only what is shared matters. -/
theorem congr (hmodule : w'.module = w.module) (hnatives : w'.natives = w.natives)
    (hheap : w'.heap = w.heap) (hstatics : w'.statics? = w.statics?) : w'.Sound M := by
  refine ⟨hmodule.trans h.module, by rw [hnatives]; exact h.linked, by rw [hheap]; exact h.heap, ?_⟩
  rw [hheap, hstatics]
  exact h.statics

theorem streams (hs : w.Streams w') : w'.Sound M := by
  obtain ⟨_, _, _, _, rfl⟩ := hs
  exact h.congr rfl rfl rfl rfl

theorem goto (next : Int) : (w.goto next).Sound M := h.congr rfl rfl rfl rfl

theorem extend {heap : Heap} (hle : w.heap.Extends heap) (ht : heap.Typed) :
    { w with heap }.Sound M := by
  obtain ⟨statics, hstatics, hall⟩ := h.statics
  exact ⟨h.module, h.linked, ht, statics, hstatics, hall.imp fun _ _ => .mono hle⟩

/-- The machine has what a key of the module stands for. -/
theorem exists_native {a : Nat} {key : String} (ha : M.natives[a]? = some key) {native : Native}
    (hfind : Native.find? key = some native) : w.natives[a]? = some native := by
  have hlinked := Module.linkNatives_eq_ok.mp h.linked
  rw [← Array.getElem?_toList] at ha
  obtain ⟨native', hnative, hfind'⟩ := exists_getElem?_right hlinked ha
  obtain rfl := Option.some.inj (hfind.symm.trans hfind')
  rwa [Array.getElem?_toList] at hnative

/-- A static field holds a value of its type. -/
theorem exists_static {a : Nat} {field : Field} (ha : M.fields[a]? = some field) :
    ∃ statics v, w.statics? = some statics ∧ statics[a]? = some v ∧ v.Has w.heap field.type := by
  obtain ⟨statics, hstatics, hall⟩ := h.statics
  rw [← Array.getElem?_toList] at ha
  obtain ⟨v, hv, hhas⟩ := exists_getElem?_right hall.flip ha
  exact ⟨statics, v, hstatics, by rwa [← Array.getElem?_toList], hhas⟩

/-- A value of its type is stored into a static field. -/
theorem setStatic {a : Nat} {field : Field} (ha : M.fields[a]? = some field) {statics : Array Value}
    (hstatics : w.statics? = some statics) {v : Value} (hv : v.Has w.heap field.type) :
    { w with statics? := some (statics.set! a v) }.Sound M := by
  obtain ⟨statics', hstatics', hall⟩ := h.statics
  obtain rfl := Option.some.inj (hstatics.symm.trans hstatics')
  refine ⟨h.module, h.linked, h.heap, _, rfl, ?_⟩
  rw [← Array.getElem?_toList] at ha
  have hset := forall₂_set hall ha hv
  simpa using hset

end Machine.Sound

end TypedScript
