import TypedScript.Proofs.Bound.Typing

/-!
# Expressions without mistakes

A judgement that passes over mistakes and the absence of mistakes in every part of an expression give
the judgement that passes over nothing.
-/

namespace TypedScript

def Callable.IsClear (c : Callable) : Prop := c.result ≠ .error ∧ .error ∉ c.params

namespace Registry

def ClearCallable (r : Registry) (t : TypeId) : Prop := ∀ c, r.callable t = .ok c → c.IsClear

def ClearGroup (r : Registry) (t : TypeId) : Prop :=
  ∀ g, r.group t = .ok g → ∀ m ∈ g.members, r.ClearCallable m

end Registry

namespace Bound

mutual

@[simp] def Expr.parts : Expr → List Expr
  | .literal span v t => [.literal span v t]
  | .symbol span s => [.symbol span s]
  | .group span name g => [.group span name g]
  | .typeName span t => [.typeName span t]
  | .assign span target value => .assign span target value :: (target.parts ++ value.parts)
  | .compound span target operator value =>
    .compound span target operator value :: (target.parts ++ value.parts)
  | .binary span operator left right t =>
    .binary span operator left right t :: (left.parts ++ right.parts)
  | .unary span operator operand t => .unary span operator operand t :: operand.parts
  | .call span callable args t => .call span callable args t :: partsOf args
  | .convert span kind operand t isExplicit =>
    .convert span kind operand t isExplicit :: operand.parts
  | .index span target index t => .index span target index t :: (target.parts ++ index.parts)
  | .length span target => .length span target :: target.parts
  | .newArray span element size t => .newArray span element size t :: size.parts
  | .invalid span children => .invalid span children :: partsOf children

@[simp] def partsOf : List Expr → List Expr
  | [] => []
  | e :: rest => e.parts ++ partsOf rest

end

/-- What an assignment stores to, if the expression is one. -/
def Expr.stored? : Expr → Option Expr
  | .assign _ target _ | .compound _ target _ _ => some target
  | _ => none

/-- No error stands at the root: the type is known, the overloads of a named group do not involve the
error type, and an assignment stores a value of its type to something that can be modified. -/
structure Expr.Settled (r : Registry) (e : Expr) : Prop where
  ne_error : e.type ≠ .error
  group : ∀ span name g, e = .group span name g → r.ClearGroup g
  modifiable : ∀ target, e.stored? = some target → target.category = .modifiable
  assigned : ∀ span target value, e = .assign span target value → value.type = target.type

def Expr.Clean (r : Registry) (e : Expr) : Prop := ∀ x ∈ e.parts, x.Settled r

theorem Expr.mem_parts (e : Expr) : e ∈ e.parts := by
  cases e <;> simp [Expr.parts]

theorem Expr.Clean.ne_error {r : Registry} {e : Expr} (h : e.Clean r) : e.type ≠ .error :=
  (h e e.mem_parts).ne_error

theorem Expr.Clean.isError {r : Registry} {e : Expr} (h : e.Clean r) : e.isError = false := by
  simpa [Expr.isError] using h.ne_error

theorem forall_mem_partsOf {P : Expr → Prop} {es : List Expr} :
    (∀ x ∈ partsOf es, P x) ↔ ∀ e ∈ es, ∀ x ∈ e.parts, P x := by
  induction es with
  | nil => simp [partsOf]
  | cons e es ih => simp only [partsOf, List.forall_mem_append, ih, List.forall_mem_cons]

/-- An expression that assigns nothing is settled when its type is known. -/
theorem Expr.settled {r : Registry} {e : Expr} (ht : e.type ≠ .error) (hs : e.stored? = none)
    (hg : ∀ span name g, e = .group span name g → r.ClearGroup g) : e.Settled r := by
  refine ⟨ht, hg, ?_, ?_⟩
  · intro target h
    cases hs.symm.trans h
  · rintro span target value rfl
    cases hs

theorem Expr.clean_leaf {r : Registry} {e : Expr} (hp : e.parts = [e]) (ht : e.type ≠ .error)
    (hs : e.stored? = none) (hg : ∀ span name g, e = .group span name g → r.ClearGroup g) :
    e.Clean r := by
  intro x hx
  rw [hp, List.mem_singleton] at hx
  rw [hx]
  exact Expr.settled ht hs hg

section

variable {r : Registry} {span : Span} {t : TypeId}

theorem clean_assign {target value : Expr} (ht : target.Clean r) (hv : value.Clean r)
    (hc : target.category = .modifiable) (heq : value.type = target.type) :
    (Expr.assign span target value).Clean r := by
  simp only [Expr.Clean, Expr.parts, List.forall_mem_cons, List.forall_mem_append]
  refine ⟨⟨ht.ne_error, by simp, ?_, ?_⟩, ht, hv⟩
  · rintro _ ⟨⟩
    exact hc
  · rintro _ _ _ ⟨⟩
    exact heq

theorem clean_compound {target value : Expr} {operator : TypeId} (ht : target.Clean r)
    (hv : value.Clean r) (hc : target.category = .modifiable) :
    (Expr.compound span target operator value).Clean r := by
  simp only [Expr.Clean, Expr.parts, List.forall_mem_cons, List.forall_mem_append]
  refine ⟨⟨ht.ne_error, by simp, ?_, by simp⟩, ht, hv⟩
  rintro _ ⟨⟩
  exact hc

theorem clean_binary {operator : TypeId} {left right : Expr} (hl : left.Clean r) (hr : right.Clean r)
    (ht : t ≠ .error) : (Expr.binary span operator left right t).Clean r := by
  simp only [Expr.Clean, Expr.parts, List.forall_mem_cons, List.forall_mem_append]
  exact ⟨Expr.settled ht rfl (by simp), hl, hr⟩

theorem clean_unary {operator : TypeId} {operand : Expr} (ho : operand.Clean r) (ht : t ≠ .error) :
    (Expr.unary span operator operand t).Clean r := by
  simp only [Expr.Clean, Expr.parts, List.forall_mem_cons]
  exact ⟨Expr.settled ht rfl (by simp), ho⟩

theorem clean_call {callable : TypeId} {args : List Expr} (ha : ∀ e ∈ args, e.Clean r)
    (ht : t ≠ .error) : (Expr.call span callable args t).Clean r := by
  simp only [Expr.Clean, Expr.parts, List.forall_mem_cons, forall_mem_partsOf]
  exact ⟨Expr.settled ht rfl (by simp), ha⟩

theorem clean_convert {kind : Conversion} {operand : Expr} {isExplicit : Bool} (ho : operand.Clean r)
    (ht : t ≠ .error) : (Expr.convert span kind operand t isExplicit).Clean r := by
  simp only [Expr.Clean, Expr.parts, List.forall_mem_cons]
  exact ⟨Expr.settled ht rfl (by simp), ho⟩

theorem clean_index {target index : Expr} (ha : target.Clean r) (hi : index.Clean r) (ht : t ≠ .error) :
    (Expr.index span target index t).Clean r := by
  simp only [Expr.Clean, Expr.parts, List.forall_mem_cons, List.forall_mem_append]
  exact ⟨Expr.settled ht rfl (by simp), ha, hi⟩

theorem clean_length {target : Expr} (ha : target.Clean r) : (Expr.length span target).Clean r := by
  simp only [Expr.Clean, Expr.parts, List.forall_mem_cons]
  exact ⟨Expr.settled (by simp [Expr.type]) rfl (by simp), ha⟩

theorem clean_newArray {element : TypeId} {size : Expr} (hs : size.Clean r) (ht : t ≠ .error) :
    (Expr.newArray span element size t).Clean r := by
  simp only [Expr.Clean, Expr.parts, List.forall_mem_cons]
  exact ⟨Expr.settled ht rfl (by simp), hs⟩

end

section

variable {c : Typing} {r : Registry}

mutual

/-- Where no part is a mistake, none was passed over. -/
theorem Expr.Typed.strict : (e : Expr) → e.Typed c → e.Clean r → e.Typed { c with lenient := False }
  | .literal _ _ _, h, _ => by simpa only [Expr.Typed] using h
  | .symbol _ _, h, hc => by
    simp only [Expr.Typed] at h ⊢
    exact ⟨⟨h.1.visible, h.1.isType, h.1.ne_void, fun he => hc.ne_error he⟩, h.2⟩
  | .group _ _ _, h, _ | .typeName _ _, h, _ => h.elim
  | .assign span target value, h, hc => by
    have hparts := hc
    simp only [Expr.Clean, Expr.parts, List.forall_mem_cons, List.forall_mem_append] at hparts
    simp only [Expr.Typed] at h ⊢
    exact ⟨h.1, Expr.Typed.strict target h.2.1 hparts.2.1,
      Expr.Typed.strict value h.2.2.1 hparts.2.2, .inl (hparts.1.assigned _ _ _ rfl)⟩
  | .compound span target operator value, h, hc => by
    simp only [Expr.Clean, Expr.parts, List.forall_mem_cons, List.forall_mem_append] at hc
    simp only [Expr.Typed] at h ⊢
    exact ⟨h.1, Expr.Typed.strict target h.2.1 hc.2.1, Expr.Typed.strict value h.2.2.1 hc.2.2,
      h.2.2.2⟩
  | .binary _ _ left right _, h, hc => by
    simp only [Expr.Clean, Expr.parts, List.forall_mem_cons, List.forall_mem_append] at hc
    simp only [Expr.Typed] at h ⊢
    exact ⟨Expr.Typed.strict left h.1 hc.2.1, Expr.Typed.strict right h.2.1 hc.2.2, h.2.2⟩
  | .unary _ _ operand _, h, hc => by
    simp only [Expr.Clean, Expr.parts, List.forall_mem_cons] at hc
    simp only [Expr.Typed] at h ⊢
    exact ⟨Expr.Typed.strict operand h.1 hc.2, h.2⟩
  | .call _ _ args t, h, hc => by
    have ht := hc.ne_error
    simp only [Expr.Clean, Expr.parts, List.forall_mem_cons] at hc
    simp only [Expr.Typed] at h ⊢
    exact ⟨typedAll_strict args h.1 hc.2, h.2.1, fun he => ht he⟩
  | .convert _ _ operand t _, h, hc => by
    have ht := hc.ne_error
    simp only [Expr.Clean, Expr.parts, List.forall_mem_cons] at hc
    simp only [Expr.Typed] at h ⊢
    exact ⟨Expr.Typed.strict operand h.1 hc.2, h.2.1, h.2.2.1, h.2.2.2.1, fun he => ht he,
      h.2.2.2.2.2⟩
  | .index _ target index _, h, hc => by
    simp only [Expr.Clean, Expr.parts, List.forall_mem_cons, List.forall_mem_append] at hc
    simp only [Expr.Typed] at h ⊢
    exact ⟨Expr.Typed.strict target h.1 hc.2.1, Expr.Typed.strict index h.2.1 hc.2.2, h.2.2⟩
  | .length _ target, h, hc => by
    simp only [Expr.Clean, Expr.parts, List.forall_mem_cons] at hc
    simp only [Expr.Typed] at h ⊢
    exact ⟨Expr.Typed.strict target h.1 hc.2, h.2⟩
  | .newArray _ _ size _, h, hc => by
    simp only [Expr.Clean, Expr.parts, List.forall_mem_cons] at hc
    simp only [Expr.Typed] at h ⊢
    exact ⟨Expr.Typed.strict size h.1 hc.2, h.2⟩
  | .invalid _ _, _, hc => absurd rfl hc.ne_error

theorem typedAll_strict : (es : List Expr) → typedAll c es → (∀ x ∈ partsOf es, x.Settled r) →
    typedAll { c with lenient := False } es
  | [], _, _ => trivial
  | e :: rest, h, hc => by
    simp only [partsOf, List.forall_mem_append] at hc
    simp only [typedAll] at h ⊢
    exact ⟨Expr.Typed.strict e h.1 hc.1, typedAll_strict rest h.2 hc.2⟩

end

theorem ne_void_of_element {t u : TypeId} (h : r.element t = .ok u) :
    t ≠ .builtin .void := by
  rintro rfl
  simp [Registry.element, Registry.get?] at h

variable (hr : c.registry.WellFormed) (hl : ¬c.lenient)
include hr hl

mutual

/-- All operands in an expression that has a value have values. -/
theorem Expr.Typed.parts_ne_void : (e : Expr) → e.Typed c → e.type ≠ .builtin .void →
    ∀ x ∈ e.parts, x.type ≠ .builtin .void
  | .literal _ _ _, _, hv | .symbol _ _, _, hv | .group _ _ _, _, hv | .typeName _ _, _, hv => by
    simpa [Expr.parts] using hv
  | .assign _ target value, h, hv => by
    simp only [Expr.Typed] at h
    obtain ⟨-, ht, hvalue, heq⟩ := h
    have hval : value.type ≠ .builtin .void := (heq.resolve_right hl).symm ▸ hv
    simp only [Expr.parts, List.forall_mem_cons, List.forall_mem_append]
    exact ⟨hv, Expr.Typed.parts_ne_void target ht hv, Expr.Typed.parts_ne_void value hvalue hval⟩
  | .compound _ target _ value, h, hv => by
    simp only [Expr.Typed] at h
    obtain ⟨-, ht, hvalue, param, result, hc, -⟩ := h
    obtain ⟨info, hinfo, -, hparams⟩ := hc.callable
    have hval := (hr.callable_params hinfo value.type (by simp [hparams])).2
    simp only [Expr.parts, List.forall_mem_cons, List.forall_mem_append]
    exact ⟨hv, Expr.Typed.parts_ne_void target ht hv, Expr.Typed.parts_ne_void value hvalue hval⟩
  | .binary _ _ left right _, h, hv => by
    simp only [Expr.Typed] at h
    obtain ⟨hleft, hright, op, ⟨g, hg⟩, -⟩ := h
    have hparams := hr.callable_params hg
    simp only [Expr.parts, List.forall_mem_cons, List.forall_mem_append]
    exact ⟨hv, Expr.Typed.parts_ne_void left hleft (hparams left.type (by simp)).2,
      Expr.Typed.parts_ne_void right hright (hparams right.type (by simp)).2⟩
  | .unary _ _ operand _, h, hv => by
    simp only [Expr.Typed] at h
    obtain ⟨ho, op, ⟨g, hg⟩, -⟩ := h
    simp only [Expr.parts, List.forall_mem_cons]
    exact ⟨hv, Expr.Typed.parts_ne_void operand ho
      (hr.callable_params hg operand.type (by simp)).2⟩
  | .call _ _ args _, h, hv => by
    simp only [Expr.Typed] at h
    obtain ⟨hargs, ⟨g, hg⟩, -⟩ := h
    simp only [Expr.parts, List.forall_mem_cons]
    refine ⟨hv, typedAll_parts_ne_void args hargs fun e he => ?_⟩
    exact (hr.callable_params hg e.type (List.mem_map_of_mem he)).2
  | .convert _ _ operand _ _, h, hv => by
    simp only [Expr.Typed] at h
    simp only [Expr.parts, List.forall_mem_cons]
    exact ⟨hv, Expr.Typed.parts_ne_void operand h.1 h.2.1⟩
  | .index _ target index _, h, hv => by
    simp only [Expr.Typed] at h
    obtain ⟨ht, hi, h32, hel⟩ := h
    have htarget : target.type ≠ .builtin .void := by
      obtain ⟨hs, -⟩ | he := hel
      · simp [hs]
      · exact ne_void_of_element he
    simp only [Expr.parts, List.forall_mem_cons, List.forall_mem_append]
    exact ⟨hv, Expr.Typed.parts_ne_void target ht htarget,
      Expr.Typed.parts_ne_void index hi (by simp [h32])⟩
  | .length _ target, h, hv => by
    simp only [Expr.Typed] at h
    have htarget : target.type ≠ .builtin .void := by
      obtain hs | ⟨u, he⟩ := h.2
      · simp [hs]
      · exact ne_void_of_element he
    simp only [Expr.parts, List.forall_mem_cons]
    exact ⟨hv, Expr.Typed.parts_ne_void target h.1 htarget⟩
  | .newArray _ _ size _, h, hv => by
    simp only [Expr.Typed] at h
    simp only [Expr.parts, List.forall_mem_cons]
    exact ⟨hv, Expr.Typed.parts_ne_void size h.1 (by simp [h.2.1])⟩
  | .invalid _ _, h, _ => absurd h hl

theorem typedAll_parts_ne_void : (es : List Expr) → typedAll c es →
    (∀ e ∈ es, e.type ≠ .builtin .void) → ∀ x ∈ partsOf es, x.type ≠ .builtin .void
  | [], _, _ => by simp [partsOf]
  | e :: rest, h, hv => by
    simp only [typedAll] at h
    rw [List.forall_mem_cons] at hv
    simp only [partsOf, List.forall_mem_append]
    exact ⟨Expr.Typed.parts_ne_void e h.1 hv.1, typedAll_parts_ne_void rest h.2 hv.2⟩

end

end

end Bound
end TypedScript
