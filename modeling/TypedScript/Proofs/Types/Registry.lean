import Mathlib.Data.List.Basic
import Mathlib.Order.Defs.PartialOrder
import TypedScript.Types.Resolution

/-!
# The growth of registries

A registry only grows: entries keep their places, and of a group only the list of members gets
longer. In a well-formed registry every type that is mentioned exists, so that its kind and its name
are known and conversions between types can be classified.
-/

namespace TypedScript

/-- An entry and what it may become: a group may get more members behind those that it has. -/
def TypeEntry.Grows : TypeEntry → TypeEntry → Prop
  | .group g, .group h => g.name = h.name ∧ g.parent = h.parent ∧ g.members <+: h.members
  | .array t, .array u => t = u
  | .callable c, .callable d => c = d
  | _, _ => False

theorem TypeEntry.Grows.refl (e : TypeEntry) : e.Grows e := by
  cases e <;> simp [TypeEntry.Grows]

theorem TypeEntry.Grows.trans {e f g : TypeEntry} (h : e.Grows f) (k : f.Grows g) : e.Grows g := by
  cases e <;> cases f <;> cases g <;> simp only [TypeEntry.Grows] at h k ⊢
  · exact h.trans k
  · exact ⟨h.1.trans k.1, h.2.1.trans k.2.1, h.2.2.trans k.2.2⟩
  · exact h.trans k

def TypeEntry.extended (m : TypeId) : TypeEntry → TypeEntry
  | .group g => .group { g with members := g.members ++ [m] }
  | e => e

theorem TypeEntry.grows_extended (m : TypeId) (e : TypeEntry) : e.Grows (e.extended m) := by
  cases e <;> simp [TypeEntry.Grows, TypeEntry.extended]

namespace Registry

instance : LE Registry where
  le r s := ∀ (i : Nat) (e : TypeEntry), r.entries[i]? = some e → ∃ f, s.entries[i]? = some f ∧ e.Grows f

theorem le_def {r s : Registry} :
    r ≤ s ↔ ∀ (i : Nat) (e : TypeEntry), r.entries[i]? = some e →
      ∃ f, s.entries[i]? = some f ∧ e.Grows f := Iff.rfl

instance : Preorder Registry where
  le_refl r i e h := ⟨e, h, TypeEntry.Grows.refl e⟩
  le_trans r s t h k i e he := by
    obtain ⟨f, hf, hef⟩ := h i e he
    obtain ⟨g, hg, hfg⟩ := k i f hf
    exact ⟨g, hg, hef.trans hfg⟩

/-- The entry of a derived type. -/
@[simp] theorem get?_derived (r : Registry) (i : Nat) : r.get? (.derived i) = r.entries[i]? := rfl

theorem size_le {r s : Registry} (h : r ≤ s) : r.entries.size ≤ s.entries.size := by
  by_contra hlt
  obtain ⟨e, he⟩ : ∃ e, r.entries[s.entries.size]? = some e :=
    ⟨_, Array.getElem?_eq_getElem (by omega)⟩
  obtain ⟨f, hf, -⟩ := h _ _ he
  simp at hf

theorem get?_mono {r s : Registry} (h : r ≤ s) {t : TypeId} {e : TypeEntry}
    (he : r.get? t = some e) : ∃ f, s.get? t = some f ∧ e.Grows f := by
  cases t with
  | derived i => exact h i e he
  | _ => simp [get?] at he

/-- A type that written types can denote: a built-in one, the error type, or an array. -/
def IsType (r : Registry) : TypeId → Prop
  | .absent => False
  | .builtin _ | .error => True
  | .derived i => ∃ t, r.entries[i]? = some (.array t)

def IsElement (r : Registry) (t : TypeId) : Prop :=
  r.IsType t ∧ t ≠ .error ∧ t ≠ .builtin .void

@[simp] theorem isType_builtin (r : Registry) (b : Builtin) : r.IsType (.builtin b) := trivial

@[simp] theorem isType_error (r : Registry) : r.IsType .error := trivial

theorem IsType.mono {r s : Registry} (h : r ≤ s) {t : TypeId} (ht : r.IsType t) : s.IsType t := by
  cases t with
  | derived i =>
    obtain ⟨u, hu⟩ := ht
    obtain ⟨f, hf, hg⟩ := h i _ hu
    cases f with
    | array v => exact ⟨v, hf⟩
    | group g => exact hg.elim
    | callable c => exact hg.elim
  | _ => exact ht

theorem IsElement.mono {r s : Registry} (h : r ≤ s) {t : TypeId} (ht : r.IsElement t) :
    s.IsElement t := ⟨ht.1.mono h, ht.2⟩

theorem callable_eq_ok {r : Registry} {t : TypeId} {c : Callable} :
    r.callable t = .ok c ↔ r.get? t = some (.callable c) := by
  unfold callable
  split <;> simp_all

theorem group_eq_ok {r : Registry} {t : TypeId} {g : Overloads} :
    r.group t = .ok g ↔ r.get? t = some (.group g) := by
  unfold group
  split <;> simp_all

theorem element_eq_ok {r : Registry} {t u : TypeId} :
    r.element t = .ok u ↔ r.get? t = some (.array u) := by
  unfold element
  split <;> simp_all

theorem callable_mono {r s : Registry} (h : r ≤ s) {t : TypeId} {c : Callable}
    (hc : r.callable t = .ok c) : s.callable t = .ok c := by
  rw [callable_eq_ok] at hc ⊢
  obtain ⟨f, hf, hg⟩ := get?_mono h hc
  cases f with
  | callable d => rw [hf, show c = d from hg]
  | array u => exact hg.elim
  | group g => exact hg.elim

theorem element_mono {r s : Registry} (h : r ≤ s) {t u : TypeId} (ht : r.element t = .ok u) :
    s.element t = .ok u := by
  rw [element_eq_ok] at ht ⊢
  obtain ⟨f, hf, hg⟩ := get?_mono h ht
  cases f with
  | array v => rw [hf, show u = v from hg]
  | callable c => exact hg.elim
  | group g => exact hg.elim

theorem group_mono {r s : Registry} (h : r ≤ s) {t : TypeId} {g : Overloads}
    (ht : r.group t = .ok g) : ∃ k, s.group t = .ok k ∧ g.members <+: k.members := by
  rw [group_eq_ok] at ht
  obtain ⟨f, hf, hg⟩ := get?_mono h ht
  cases f with
  | group k => exact ⟨k, group_eq_ok.2 hf, hg.2.2⟩
  | array u => exact hg.elim
  | callable c => exact hg.elim

theorem members_eq_ok {r : Registry} {t : TypeId} {g : Overloads} (h : r.group t = .ok g) :
    r.members t = .ok g.members := by
  rw [members, h]
  rfl

theorem isType_of_element {r : Registry} {t u : TypeId} (h : r.element t = .ok u) : r.IsType t := by
  rw [element_eq_ok] at h
  cases t with
  | derived i => exact ⟨u, h⟩
  | _ => simp [get?] at h

/-- The kind of a type that values can have. -/
theorem IsType.kind {r : Registry} {t : TypeId} (h : r.IsType t) :
    (∃ b, t = .builtin b ∧ r.kind t = .ok .builtin) ∨ (t = .error ∧ r.kind t = .ok .error) ∨
      ∃ u, r.element t = .ok u ∧ r.kind t = .ok .array := by
  cases t with
  | absent => exact h.elim
  | builtin b => exact .inl ⟨b, rfl, rfl⟩
  | error => exact .inr (.inl ⟨rfl, rfl⟩)
  | derived i =>
    obtain ⟨u, hu⟩ := h
    exact .inr (.inr ⟨u, element_eq_ok.2 hu, by simp [Registry.kind, hu]⟩)

/-- A type has values unless it is void. -/
theorem IsType.isValue {r : Registry} {t : TypeId} (h : r.IsType t) :
    r.isValue t = .ok (t ≠ .builtin .void) := by
  obtain ⟨b, rfl, hk⟩ | ⟨rfl, hk⟩ | ⟨u, hu, hk⟩ := h.kind
  · simp [Registry.isValue, hk, bind, Except.bind, pure, Except.pure]
  · simp [Registry.isValue, hk, bind, Except.bind, pure, Except.pure]
  · have hne : t ≠ .builtin .void := by
      rintro rfl
      simp [element, get?] at hu
    simp [Registry.isValue, hk, bind, Except.bind, pure, Except.pure, hne]

/-- Conversions between types are classified by the types alone. -/
theorem classify_eq {r : Registry} {s t : TypeId} (hs : r.IsType s) (ht : r.IsType t) :
    r.classify s t = .ok (
      if s = t ∨ s = .error ∨ t = .error then .identity
      else if s = .builtin .void ∨ t = .builtin .void then .none
      else classifyValues s t) := by
  by_cases h1 : s = t ∨ s = .error ∨ t = .error
  · rw [classify, if_pos (by simpa [Bool.or_eq_true, or_assoc] using h1), if_pos h1]
    rfl
  · rw [classify, if_neg (by simpa [Bool.or_eq_true, or_assoc] using h1), if_neg h1, hs.isValue,
      ht.isValue]
    by_cases h2 : s = .builtin .void
    · simp [h2, bind, Except.bind, pure, Except.pure]
    · by_cases h3 : t = .builtin .void
      · simp [h2, h3, bind, Except.bind, pure, Except.pure]
      · simp [h2, h3, bind, Except.bind, pure, Except.pure]

theorem classifyValues_ne_identity (s t : TypeId) : classifyValues s t ≠ .identity := by
  unfold classifyValues
  split
  · simp
  · repeat (first | simp only [ne_eq, reduceCtorEq, not_false_eq_true] | split)
  · simp
  · simp

/-- Only a type stays what it is, mistakes apart. -/
theorem eq_of_classify_identity {r : Registry} {s t : TypeId} (hs : r.IsType s) (ht : r.IsType t)
    (hse : s ≠ .error) (hte : t ≠ .error) (h : r.classify s t = .ok .identity) : s = t := by
  by_contra hne
  rw [classify_eq hs ht, if_neg (by simp [hne, hse, hte])] at h
  split at h
  · cases h
  · exact classifyValues_ne_identity s t (Except.ok.inj h)

theorem classify_mono {r r' : Registry} (h : r ≤ r') {s t : TypeId} {k : Conversion}
    (hs : r.IsType s) (ht : r.IsType t) (hk : r.classify s t = .ok k) : r'.classify s t = .ok k := by
  rw [classify_eq hs ht] at hk
  rw [classify_eq (hs.mono h) (ht.mono h), hk]

/-- Every type that an entry mentions exists. The element type of an array is no error, and a callable
takes values only. -/
structure WellFormed (r : Registry) : Prop where
  array : ∀ {i : Nat} {t : TypeId}, r.entries[i]? = some (.array t) → r.IsElement t
  members : ∀ {i : Nat} {g : Overloads}, r.entries[i]? = some (.group g) →
    ∀ m ∈ g.members, ∃ c, r.callable m = .ok c
  group : ∀ {i : Nat} {c : Callable}, r.entries[i]? = some (.callable c) → ∃ g, r.group c.group = .ok g
  result : ∀ {i : Nat} {c : Callable}, r.entries[i]? = some (.callable c) → r.IsType c.result
  params : ∀ {i : Nat} {c : Callable}, r.entries[i]? = some (.callable c) →
    ∀ p ∈ c.params, r.IsType p ∧ p ≠ .builtin .void

namespace WellFormed

variable {r : Registry} (h : r.WellFormed)
include h

theorem isElement {t u : TypeId} (hu : r.element t = .ok u) : r.IsElement u := by
  rw [element_eq_ok] at hu
  cases t with
  | derived i => exact h.array hu
  | _ => simp [get?] at hu

omit h in
theorem callable_entry {t : TypeId} {c : Callable} (hc : r.callable t = .ok c) :
    ∃ i : Nat, r.entries[i]? = some (.callable c) := by
  rw [callable_eq_ok] at hc
  cases t with
  | derived i => exact ⟨i, hc⟩
  | _ => simp [get?] at hc

theorem callable_group {t : TypeId} {c : Callable} (hc : r.callable t = .ok c) :
    ∃ g, r.group c.group = .ok g := by
  obtain ⟨i, hi⟩ := callable_entry hc
  exact h.group hi

theorem callable_result {t : TypeId} {c : Callable} (hc : r.callable t = .ok c) :
    r.IsType c.result := by
  obtain ⟨i, hi⟩ := callable_entry hc
  exact h.result hi

theorem callable_params {t : TypeId} {c : Callable} (hc : r.callable t = .ok c) :
    ∀ p ∈ c.params, r.IsType p ∧ p ≠ .builtin .void := by
  obtain ⟨i, hi⟩ := callable_entry hc
  exact h.params hi

theorem group_members {t : TypeId} {g : Overloads} (hg : r.group t = .ok g) :
    ∀ m ∈ g.members, ∃ c, r.callable m = .ok c := by
  rw [group_eq_ok] at hg
  cases t with
  | derived i => exact h.members hg
  | _ => simp [get?] at hg

/-- Every type has a name, however deep its arrays are nested. -/
theorem nameWithin (fuel : Nat) {t : TypeId} (ht : r.IsType t) :
    ∃ n, r.nameWithin fuel t = .ok n := by
  induction fuel generalizing t with
  | zero =>
    cases t with
    | absent => exact ht.elim
    | builtin b => simp [Registry.nameWithin]
    | error => simp [Registry.nameWithin]
    | derived i =>
      obtain ⟨u, hu⟩ := ht
      simp [Registry.nameWithin, hu]
  | succ fuel ih =>
    cases t with
    | absent => exact ht.elim
    | builtin b => simp [Registry.nameWithin]
    | error => simp [Registry.nameWithin]
    | derived i =>
      obtain ⟨u, hu⟩ := ht
      obtain ⟨n, hn⟩ := ih (h.array hu).1
      simp [Registry.nameWithin, hu, hn, bind, Except.bind, pure, Except.pure]

theorem name {t : TypeId} (ht : r.IsType t) : ∃ n, r.name t = .ok n := h.nameWithin _ ht

theorem joinNames {ts : List TypeId} (hts : ∀ t ∈ ts, r.IsType t) :
    ∃ n, r.joinNames ts = .ok n := by
  have hm : ∃ ns, ts.mapM r.name = .ok ns := by
    induction ts with
    | nil => exact ⟨[], rfl⟩
    | cons t ts ih =>
      obtain ⟨n, hn⟩ := h.name (hts t (by simp))
      obtain ⟨ns, hns⟩ := ih fun u hu => hts u (by simp [hu])
      exact ⟨n :: ns, by simp [List.mapM_cons, hn, hns, bind, Except.bind, pure, Except.pure]⟩
  obtain ⟨ns, hns⟩ := hm
  simp [Registry.joinNames, hns, bind, Except.bind, pure, Except.pure]

/-- A callable has a name in messages, with its signature. -/
theorem fullName_callable {t : TypeId} {c : Callable} (hc : r.callable t = .ok c) :
    ∃ n, r.fullName t = .ok n := by
  obtain ⟨g, hg⟩ := h.callable_group hc
  obtain ⟨ps, hps⟩ := h.joinNames fun p hp => (h.callable_params hc p hp).1
  obtain ⟨n, hn⟩ := h.name (h.callable_result hc)
  rw [callable_eq_ok] at hc
  simp [Registry.fullName, hc, qualifiedName, hg, hps, hn, bind, Except.bind, pure, Except.pure]

theorem fullName {t : TypeId} (ht : r.IsType t) : ∃ n, r.fullName t = .ok n := by
  obtain ⟨n, hn⟩ := h.name ht
  refine ⟨n, ?_⟩
  unfold Registry.fullName
  split
  · next g hg =>
    obtain ⟨i, rfl⟩ : ∃ i, t = .derived i := by cases t <;> simp_all [get?]
    obtain ⟨u, hu⟩ := ht
    simp [hu] at hg
  · next c hc =>
    obtain ⟨i, rfl⟩ : ∃ i, t = .derived i := by cases t <;> simp_all [get?]
    obtain ⟨u, hu⟩ := ht
    simp [hu] at hc
  · exact hn

end WellFormed

/-! What the operations that make a registry grow do. -/

def SameBelow (n : Nat) (r s : Registry) : Prop := ∀ i < n, s.entries[i]? = r.entries[i]?

theorem SameBelow.trans {n : Nat} {r s t : Registry} (h : SameBelow n r s) (k : SameBelow n s t) :
    SameBelow n r t := fun i hi => (k i hi).trans (h i hi)

theorem SameBelow.mono {m n : Nat} {r s : Registry} (h : SameBelow n r s) (hm : m ≤ n) :
    SameBelow m r s := fun i hi => h i (Nat.lt_of_lt_of_le hi hm)

theorem getElem?_push (r : Registry) (e : TypeEntry) (i : Nat) :
    (r.push e).2.entries[i]? = if i = r.entries.size then some e else r.entries[i]? := by
  simp [push, Array.getElem?_push]

theorem le_push (r : Registry) (e : TypeEntry) : r ≤ (r.push e).2 := by
  intro i f hf
  refine ⟨f, ?_, TypeEntry.Grows.refl f⟩
  have hi : i ≠ r.entries.size := by
    rintro rfl
    simp at hf
  rw [getElem?_push, if_neg hi, hf]

theorem sameBelow_push (r : Registry) (e : TypeEntry) : SameBelow r.entries.size r (r.push e).2 := by
  intro i hi
  rw [getElem?_push, if_neg (Nat.ne_of_lt hi)]

theorem group_mono_ok {r s : Registry} (h : r ≤ s) {t : TypeId} (ht : ∃ g, r.group t = .ok g) :
    ∃ g, s.group t = .ok g := by
  obtain ⟨g, hg⟩ := ht
  obtain ⟨k, hk, -⟩ := group_mono h hg
  exact ⟨k, hk⟩

/-- A registry stays well formed when it grows, if its new and longer entries mention only types that
exist. -/
theorem WellFormed.grow {r s : Registry} (h : r.WellFormed) (hs : r ≤ s)
    (ha : ∀ {i : Nat} {t : TypeId}, s.entries[i]? = some (.array t) →
      r.entries[i]? = some (.array t) ∨ s.IsElement t)
    (hg : ∀ {i : Nat} {g : Overloads}, s.entries[i]? = some (.group g) → ∀ m ∈ g.members,
      (∃ k, r.entries[i]? = some (.group k) ∧ m ∈ k.members) ∨ ∃ c, s.callable m = .ok c)
    (hc : ∀ {i : Nat} {c : Callable}, s.entries[i]? = some (.callable c) →
      r.entries[i]? = some (.callable c) ∨ (∃ g, s.group c.group = .ok g) ∧ s.IsType c.result ∧
        ∀ p ∈ c.params, s.IsType p ∧ p ≠ .builtin .void) : s.WellFormed where
  array hi := by
    obtain hr | hr := ha hi
    · exact (h.array hr).mono hs
    · exact hr
  members hi m hm := by
    obtain ⟨k, hk, hmk⟩ | hr := hg hi m hm
    · obtain ⟨c, hc⟩ := h.members hk m hmk
      exact ⟨c, callable_mono hs hc⟩
    · exact hr
  group hi := by
    obtain hr | hr := hc hi
    · exact group_mono_ok hs (h.group hr)
    · exact hr.1
  result hi := by
    obtain hr | hr := hc hi
    · exact (h.result hr).mono hs
    · exact hr.2.1
  params hi p hp := by
    obtain hr | hr := hc hi
    · exact ⟨(h.params hr p hp).1.mono hs, (h.params hr p hp).2⟩
    · exact hr.2.2 p hp

theorem WellFormed.push_array {r : Registry} (h : r.WellFormed) {t : TypeId} (ht : r.IsElement t) :
    (r.push (.array t)).2.WellFormed := by
  refine h.grow (le_push _ _) ?_ ?_ ?_
  · intro i u hu
    rw [getElem?_push] at hu
    split at hu
    · cases hu
      exact .inr (ht.mono (le_push _ _))
    · exact .inl hu
  · intro i g hg m hm
    rw [getElem?_push] at hg
    split at hg
    · cases hg
    · exact .inl ⟨g, hg, hm⟩
  · intro i c hc
    rw [getElem?_push] at hc
    split at hc
    · cases hc
    · exact .inl hc

theorem WellFormed.push_group {r : Registry} (h : r.WellFormed) (name parent : String) :
    (r.push (.group ⟨name, parent, []⟩)).2.WellFormed := by
  refine h.grow (le_push _ _) ?_ ?_ ?_
  · intro i u hu
    rw [getElem?_push] at hu
    split at hu
    · cases hu
    · exact .inl hu
  · intro i g hg m hm
    rw [getElem?_push] at hg
    split at hg
    · cases hg
      simp at hm
    · exact .inl ⟨g, hg, hm⟩
  · intro i c hc
    rw [getElem?_push] at hc
    split at hc
    · cases hc
    · exact .inl hc

theorem WellFormed.push_callable {r : Registry} (h : r.WellFormed) {c : Callable}
    (hg : ∃ g, r.group c.group = .ok g) (hr : r.IsType c.result)
    (hp : ∀ p ∈ c.params, r.IsType p ∧ p ≠ .builtin .void) :
    (r.push (.callable c)).2.WellFormed := by
  refine h.grow (le_push _ _) ?_ ?_ ?_
  · intro i u hu
    rw [getElem?_push] at hu
    split at hu
    · cases hu
    · exact .inl hu
  · intro i g hg m hm
    rw [getElem?_push] at hg
    split at hg
    · cases hg
    · exact .inl ⟨g, hg, hm⟩
  · intro i d hd
    rw [getElem?_push] at hd
    split at hd
    · cases hd
      exact .inr ⟨group_mono_ok (le_push _ _) hg, hr.mono (le_push _ _),
        fun p hm => ⟨(hp p hm).1.mono (le_push _ _), (hp p hm).2⟩⟩
    · exact .inl hd

theorem arrayOf_eq (r : Registry) (t : TypeId) : r.arrayOf t =
    match r.entries.findIdx? (· = .array t) with
    | some i => .ok (.derived i, r)
    | none => do
      let _ ← r.kind t
      return r.push (.array t) := by
  obtain ⟨⟨entries⟩⟩ := r
  rewrite [arrayOf, List.findIdx?_toArray]
  rfl

/-- The array type of an element type exists afterwards, and nothing else has changed. -/
theorem WellFormed.arrayOf {r : Registry} (h : r.WellFormed) {t : TypeId} (ht : r.IsElement t) :
    ∃ u s, r.arrayOf t = .ok (u, s) ∧ r ≤ s ∧ s.WellFormed ∧ SameBelow r.entries.size r s ∧
      s.element u = .ok t ∧
      ∀ (i : Nat) (e : TypeEntry), s.entries[i]? = some e → r.entries[i]? = some e ∨ e = .array t := by
  rw [Registry.arrayOf_eq]
  split
  · next i hi =>
    obtain ⟨hlt, he, -⟩ := Array.findIdx?_eq_some_iff_getElem.1 hi
    refine ⟨_, r, rfl, le_rfl, h, fun _ _ => rfl, ?_, fun _ _ hc => .inl hc⟩
    rw [element_eq_ok, get?_derived, Array.getElem?_eq_getElem hlt]
    simpa using he
  · have hk : ∃ k, r.kind t = .ok k := by
      obtain ⟨b, -, hk⟩ | ⟨-, hk⟩ | ⟨u, -, hk⟩ := ht.1.kind <;> exact ⟨_, hk⟩
    obtain ⟨k, hk⟩ := hk
    refine ⟨_, (r.push (.array t)).2, by simp [hk, bind, Except.bind, pure, Except.pure]; rfl,
      le_push _ _, h.push_array ht, sameBelow_push _ _, ?_, ?_⟩
    · rw [element_eq_ok]
      simp [push]
    · intro i e he
      rw [getElem?_push] at he
      split at he
      · cases he
        exact .inr rfl
      · exact .inl he

theorem getElem?_extendGroup (r : Registry) (i : Nat) (m : TypeId) (j : Nat) :
    (r.extendGroup (.derived i) m).entries[j]? =
      if i = j then r.entries[j]?.map (TypeEntry.extended m) else r.entries[j]? := by
  simp only [extendGroup, Array.getElem?_modify]
  rfl

theorem le_extendGroup (r : Registry) (i : Nat) (m : TypeId) :
    r ≤ r.extendGroup (.derived i) m := by
  intro j e he
  by_cases hij : i = j
  · exact ⟨_, by rw [getElem?_extendGroup, if_pos hij, he]; rfl, TypeEntry.grows_extended m e⟩
  · exact ⟨e, by rw [getElem?_extendGroup, if_neg hij, he], TypeEntry.Grows.refl e⟩

theorem sameBelow_extendGroup (r : Registry) (i : Nat) (m : TypeId) :
    SameBelow i r (r.extendGroup (.derived i) m) := by
  intro j hj
  rw [getElem?_extendGroup, if_neg (Nat.ne_of_gt hj)]

theorem callable_of_extendGroup {r : Registry} {i : Nat} {m t : TypeId} {c : Callable}
    (h : (r.extendGroup (.derived i) m).callable t = .ok c) : r.callable t = .ok c := by
  rw [callable_eq_ok] at h ⊢
  cases t with
  | derived j =>
    rw [get?_derived, getElem?_extendGroup] at h
    split at h
    · cases he : r.entries[j]? with
      | none => simp [he] at h
      | some e => cases e <;> simp_all [TypeEntry.extended]
    · exact h
  | _ => simp [get?] at h

theorem WellFormed.extendGroup {r : Registry} (h : r.WellFormed) (i : Nat) {m : TypeId}
    (hm : ∃ c, r.callable m = .ok c) : (r.extendGroup (.derived i) m).WellFormed := by
  have hle := le_extendGroup r i m
  refine h.grow hle ?_ ?_ ?_
  · intro j t hj
    rw [getElem?_extendGroup] at hj
    split at hj
    · cases he : r.entries[j]? with
      | none => simp [he] at hj
      | some e => cases e <;> simp_all [TypeEntry.extended]
    · exact .inl hj
  · intro j g hj n hn
    rw [getElem?_extendGroup] at hj
    split at hj
    · cases he : r.entries[j]? with
      | none => simp [he] at hj
      | some e =>
        cases e with
        | group k =>
          rw [he] at hj
          cases hj
          obtain hn | hn := List.mem_append.1 hn
          · exact .inl ⟨k, rfl, hn⟩
          · obtain ⟨c, hc⟩ := hm
            rw [List.mem_singleton.1 hn]
            exact .inr ⟨c, callable_mono hle hc⟩
        | array t => rw [he] at hj; cases hj
        | callable c => rw [he] at hj; cases hj
    · exact .inl ⟨g, hj, hn⟩
  · intro j c hj
    rw [getElem?_extendGroup] at hj
    split at hj
    · cases he : r.entries[j]? with
      | none => simp [he] at hj
      | some e => cases e <;> simp_all [TypeEntry.extended]
    · exact .inl hj

end Registry
end TypedScript
