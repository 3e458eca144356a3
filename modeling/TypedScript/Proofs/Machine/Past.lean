import TypedScript.Machine.Step
import TypedScript.Proofs.Machine.Cycles

/-!
# Values on a machine that was used

A machine that was used keeps the arrays of earlier calls, and goes on to number arrays and boxed
values where these left off. A value that a later call makes is then the value that the same call makes
on a new machine, with other numbers. Nothing that a program can find out about values depends on the
numbers.
-/

namespace TypedScript

/-- What earlier calls have left on a machine. -/
structure Past where
  heap : Heap
  boxes : Nat
  output : String

def Past.none : Past := ⟨#[], 0, ""⟩

variable {p : Past}

namespace Value

def after (p : Past) : Value → Value
  | array ref => array (p.heap.size + ref)
  | boxed id type content => boxed (p.boxes + id) type (content.after p)
  | v => v

/-- A value is another one with the numbers that this has after what was before. -/
abbrev IsAfter (p : Past) (v w : Value) : Prop := v = w.after p

@[simp] theorem after_none (v : Value) : v.after .none = v := by
  induction v with
  | array ref => simp [after, Past.none]
  | boxed id type content ih =>
    rw [after, ih]
    simp [Past.none]
  | _ => rfl

@[simp] theorem representation_after (v : Value) : (v.after p).representation = v.representation := by
  cases v <;> rfl

@[simp] theorem index_after (v : Value) : (v.after p).index = v.index := by
  cases v <;> rfl

theorem identical_after (v w : Value) : (v.after p).identical (w.after p) = v.identical w := by
  cases v <;> cases w <;> simp [after, identical]

@[simp] theorem objectEquals_after (v w : Value) :
    (v.after p).objectEquals (w.after p) = v.objectEquals w := by
  cases v with
  | boxed id type content =>
    cases w with
    | boxed id' type' content' => exact congrArg (type == type' && ·) (identical_after _ _)
    | _ => rfl
  | _ => exact identical_after _ w

@[simp] theorem zero_after (type : String) : (Value.zero type).after p = Value.zero type := by
  unfold Value.zero
  split <;> rfl

@[simp] theorem constant_after (c : Constant) : c.value.after p = c.value := by
  unfold Constant.value
  split <;> rfl

theorem parse?_after {t : Tag} {s : String} {v : Value} (h : Value.parse? t s = some v) :
    v.after p = v := by
  unfold Value.parse? at h
  cases t with
  | i8 | i16 | i32 | i64 | u8 | u16 | u32 | u64 | f32 | f64 =>
    obtain ⟨x, -, rfl⟩ := Option.map_eq_some_iff.mp h
    rfl
  | bool =>
    dsimp only at h
    split at h
    · cases h
      rfl
    · split at h
      · cases h
        rfl
      · cases h
  | char =>
    dsimp only at h
    split at h
    · split at h
      · cases h
      · cases h
        rfl
    · cases h
  | _ => cases h

end Value

namespace Arithmetic

theorem views?_after (v : Value) : views? (v.after p) = views? v := by
  cases v <;> rfl

theorem signed_after (op : Operation) (t : Tag) (x y : Int64) :
    (signed op t x y).map (Value.after p) = signed op t x y := by
  unfold signed
  cases op <;> dsimp only <;> (try split) <;> rfl

theorem unsigned_after (op : Operation) (t : Tag) (x y : UInt64) :
    (unsigned op t x y).map (Value.after p) = unsigned op t x y := by
  unfold unsigned
  cases op <;> dsimp only <;> (try split) <;> rfl

theorem float_after (op : Operation) (t : Tag) (x y : Double) :
    (float op t x y).map (Value.after p) = float op t x y := by
  unfold float
  cases op <;> rfl

theorem logical_after (op : Operation) (t : Tag) (x y : Bool) :
    (logical op t x y).map (Value.after p) = logical op t x y := by
  unfold logical
  cases op <;> rfl

theorem character_after (op : Operation) (t : Tag) (x y : Int32) :
    (character op t x y).map (Value.after p) = character op t x y := by
  unfold character
  cases op <;> rfl

theorem textual_after (op : Operation) (t : Tag) (x y : String) :
    (textual op t x y).map (Value.after p) = textual op t x y := by
  unfold textual
  cases op <;> rfl

theorem binary_after (op : Operation) (t : Tag) (v w : Value) :
    binary op t (v.after p) (w.after p) = (binary op t v w).map (Value.after p) := by
  unfold binary
  cases t with
  | i8 | i16 | i32 | i64 =>
    cases v with
    | int x =>
      cases w with
      | int y => exact (signed_after op _ x y).symm
      | _ => rfl
    | _ => rfl
  | u8 | u16 | u32 | u64 =>
    cases v with
    | uint x =>
      cases w with
      | uint y => exact (unsigned_after op _ x y).symm
      | _ => rfl
    | _ => rfl
  | f32 | f64 =>
    cases v with
    | float x =>
      cases w with
      | float y => exact (float_after op _ x y).symm
      | _ => rfl
    | _ => rfl
  | bool =>
    cases v with
    | bool x =>
      cases w with
      | bool y => exact (logical_after op _ x y).symm
      | _ => rfl
    | _ => rfl
  | char =>
    cases v with
    | char x =>
      cases w with
      | char y => exact (character_after op _ x y).symm
      | _ => rfl
    | _ => rfl
  | string =>
    cases v with
    | string x =>
      cases w with
      | string y => exact (textual_after op _ x y).symm
      | _ => rfl
    | _ => rfl
  | reference =>
    dsimp only
    rw [Value.objectEquals_after]
    split <;> rfl
  | _ => rfl

theorem unary_after (op : Operation) (t : Tag) (v : Value) :
    unary op t (v.after p) = (unary op t v).map (Value.after p) := by
  cases v <;> cases op <;> rfl

theorem convert_after (source target : Tag) (v : Value) :
    convert source target (v.after p) = (convert source target v).map (Value.after p) := by
  unfold convert
  rw [views?_after, Value.representation_after]
  cases views? v with
  | none => rfl
  | some w => cases target <;> rfl

end Arithmetic

namespace Heap

def after (p : Past) (h : Heap) : Heap :=
  p.heap ++ h.map fun a => ⟨a.element, a.items.map (Value.after p)⟩

variable {h : Heap}

@[simp] theorem after_none : h.after .none = h := by
  have hid : Value.after .none = id := funext Value.after_none
  rw [after, hid]
  simp [Past.none]

theorem size_after : (h.after p).size = p.heap.size + h.size := by simp [after]

theorem getElem?_after (ref : Nat) : (h.after p)[p.heap.size + ref]? =
    h[ref]?.map fun a => ⟨a.element, a.items.map (Value.after p)⟩ := by
  simp [after, Array.getElem?_append]

@[simp] theorem items_after (ref : Nat) :
    (h.after p).items (p.heap.size + ref) = (h.items ref).map (Value.after p) := by
  rw [items, items, getElem?_after]
  cases h[ref]? <;> simp

theorem push_after (type : String) (items : Array Value) :
    (h.after p).push ⟨type, items.map (Value.after p)⟩ = Heap.after p (h.push ⟨type, items⟩) := by
  simp [after]

theorem modify_after (ref i : Nat) (v : Value) :
    (h.after p).modify (p.heap.size + ref) (fun a => { a with items := a.items.set! i (v.after p) }) =
      Heap.after p (h.modify ref fun a => { a with items := a.items.set! i v }) := by
  refine Array.ext_getElem? fun j => ?_
  by_cases hj : j < p.heap.size
  · have hne : p.heap.size + ref ≠ j := by omega
    simp [after, Array.getElem?_modify, Array.getElem?_append_left hj, hne]
  · obtain ⟨k, rfl⟩ := Nat.exists_eq_add_of_le (Nat.le_of_not_lt hj)
    rw [getElem?_after, Array.getElem?_modify, Array.getElem?_modify, getElem?_after]
    by_cases hk : ref = k
    · subst hk
      cases h[ref]? <;> simp
    · have hne : p.heap.size + ref ≠ p.heap.size + k := by omega
      simp [hk]

end Heap

namespace Value

variable {h : Heap}

theorem formatWith?_after (f : Nat → Option String) (v : Value) :
    (v.after p).formatWith? f = v.formatWith? fun ref => f (p.heap.size + ref) := by
  induction v with
  | boxed id type content ih => exact ih
  | _ => rfl

theorem formatWithin?_after (depth : Nat) (v : Value) :
    (v.after p).formatWithin? (h.after p) depth = v.formatWithin? h depth := by
  induction depth generalizing v with
  | zero => exact formatWith?_after _ v
  | succ depth ih =>
    have htexts : ∀ items : List Value, (items.map (Value.after p)).mapM
        (formatWithin? (h.after p) depth) = items.mapM (formatWithin? h depth) := by
      intro items
      induction items with
      | nil => rfl
      | cons v rest ihrest => simp only [List.map_cons, List.mapM_cons, ih, ihrest]
    rw [formatWithin?, formatWith?_after]
    refine formatWith?_congr fun ref _ => ?_
    have hitems := Heap.items_after (p := p) (h := h) ref
    rw [Heap.items, Heap.items] at hitems
    dsimp only
    rw [hitems, Array.toList_map, htexts]

/-- The text of a value does not depend on the numbers in it. -/
@[simp] theorem format?_after (v : Value) : (v.after p).format? (h.after p) = v.format? h := by
  rw [format?, formatWithin?_after, formatWithin?_eq_format?]
  rw [Heap.size_after]
  omega

end Value
end TypedScript
