import TypedScript.Proofs.Types.Registry
import TypedScript.Proofs.Types.Resolution

/-!
# Array types

While expressions are bound a registry grows by array types only, and by none twice. In two
registries that grew from the same one so, the same arrays may have different numbers; whatever is
asked about types does not depend on those.
-/

namespace TypedScript
namespace Registry

/-- The second registry is the first one with array types more, each of them once. -/
structure AddsArrays (r r' : Registry) : Prop where
  size_le : r.entries.size ≤ r'.entries.size
  same : ∀ i < r.entries.size, r'.entries[i]? = r.entries[i]?
  new : ∀ i, r.entries.size ≤ i → ∀ e, r'.entries[i]? = some e →
    ∃ t k, e = .array t ∧ r'.kind t = .ok k
  unique : ∀ i j t, r.entries.size ≤ i → r'.entries[i]? = some (.array t) →
    r'.entries[j]? = some (.array t) → i = j

theorem AddsArrays.refl (r : Registry) : r.AddsArrays r := by
  have hnone : ∀ {i e}, r.entries.size ≤ i → r.entries[i]? ≠ some e := by
    intro i e hi
    simp [Array.getElem?_eq_none hi]
  exact ⟨Nat.le_refl _, fun _ _ => rfl, fun i hi e he => absurd he (hnone hi),
    fun i j t hi he => absurd he (hnone hi)⟩

theorem kind_of_same {r r' : Registry}
    (h : ∀ i < r.entries.size, r'.entries[i]? = r.entries[i]?) {t : TypeId} {k : TypeKind}
    (hk : r.kind t = .ok k) : r'.kind t = .ok k := by
  cases t with
  | derived i =>
    by_cases hi : i < r.entries.size
    · simpa [Registry.kind, h i hi] using hk
    · simp [Registry.kind, Array.getElem?_eq_none (Nat.le_of_not_lt hi)] at hk
  | absent => simp [Registry.kind, Registry.get?] at hk
  | _ => simpa [Registry.kind] using hk

theorem AddsArrays.trans {r s t : Registry} (h : r.AddsArrays s) (k : s.AddsArrays t) :
    r.AddsArrays t := by
  refine ⟨Nat.le_trans h.size_le k.size_le, fun i hi => ?_, fun i hi e he => ?_, fun i j u hi hie hje => ?_⟩
  · rw [k.same i (by have := h.size_le; omega), h.same i hi]
  · by_cases his : i < s.entries.size
    · rw [k.same i his] at he
      obtain ⟨u, kd, rfl, hk⟩ := h.new i hi e he
      exact ⟨u, kd, rfl, kind_of_same k.same hk⟩
    · exact k.new i (Nat.le_of_not_lt his) e he
  · by_cases his : i < s.entries.size
    · by_cases hjs : j < s.entries.size
      · rw [k.same i his] at hie
        rw [k.same j hjs] at hje
        exact h.unique i j u hi hie hje
      · exact (k.unique j i u (Nat.le_of_not_lt hjs) hje hie).symm
    · exact k.unique i j u (Nat.le_of_not_lt his) hie hje

theorem addsArrays_push {r : Registry} {t : TypeId} {k : TypeKind} (hk : r.kind t = .ok k)
    (hnew : ∀ i : Nat, r.entries[i]? ≠ some (TypeEntry.array t)) : r.AddsArrays (r.push (.array t)).2 := by
  have hsame : ∀ i < r.entries.size, (r.push (.array t)).2.entries[i]? = r.entries[i]? := by
    intro i hi
    rw [getElem?_push, if_neg (by omega)]
  have hlast : ∀ i, r.entries.size ≤ i → ∀ e, (r.push (.array t)).2.entries[i]? = some e →
      i = r.entries.size ∧ e = .array t := by
    intro i hi e he
    rw [getElem?_push] at he
    split at he
    · next h => exact ⟨h, (Option.some.inj he).symm⟩
    · simp [Array.getElem?_eq_none hi] at he
  refine ⟨by simp [Registry.push], hsame, fun i hi e he => ?_, fun i j u hi hie hje => ?_⟩
  · obtain ⟨-, rfl⟩ := hlast i hi e he
    exact ⟨t, k, rfl, kind_of_same hsame hk⟩
  · obtain ⟨rfl, hu⟩ := hlast i hi _ hie
    cases hu
    by_cases hj : j < r.entries.size
    · rw [hsame j hj] at hje
      exact absurd hje (hnew j)
    · exact (hlast j (Nat.le_of_not_lt hj) _ hje).1.symm

/-- An array type is found, or added as the last one. -/
theorem arrayOf_eq_ok {r r' : Registry} {t u : TypeId} (h : r.arrayOf t = .ok (u, r')) :
    (∃ i, r.entries.findIdx? (· = .array t) = some i ∧ u = .derived i ∧ r' = r) ∨
      (∃ k, r.kind t = .ok k) ∧ (∀ i : Nat, r.entries[i]? ≠ some (TypeEntry.array t)) ∧
        u = .derived r.entries.size ∧ r' = (r.push (.array t)).2 := by
  rw [Registry.arrayOf_eq] at h
  split at h
  · next i hi =>
    cases h
    exact .inl ⟨i, hi, rfl, rfl⟩
  · next hnone =>
    cases hk : r.kind t with
    | error d => simp [hk, Bind.bind, Except.bind] at h
    | ok k =>
      simp only [hk, Bind.bind, Except.bind] at h
      cases h
      refine .inr ⟨⟨k, rfl⟩, fun i hi => ?_, rfl, rfl⟩
      have := Array.findIdx?_eq_none_iff.1 hnone _ (Array.mem_of_getElem? hi)
      simp at this

theorem addsArrays_arrayOf {r r' : Registry} {t u : TypeId} (h : r.arrayOf t = .ok (u, r')) :
    r.AddsArrays r' := by
  obtain ⟨i, -, -, rfl⟩ | ⟨⟨k, hk⟩, hnew, -, rfl⟩ := arrayOf_eq_ok h
  · exact AddsArrays.refl _
  · exact addsArrays_push hk hnew

/-- A type that needs none of the entries from the given number on. -/
def IsOld (n : Nat) : TypeId → Prop
  | .derived i => i < n
  | _ => True

/-- Types that mean the same in two registries that grew from a third: those of the third itself, and
arrays of such. -/
inductive Agree (r s s' : Registry) : TypeId → TypeId → Prop
  | old {t : TypeId} (h : IsOld r.entries.size t) : Agree r s s' t t
  | array {i j : Nat} {t u : TypeId} (hi : r.entries.size ≤ i) (hj : r.entries.size ≤ j)
      (hs : s.entries[i]? = some (.array t)) (hs' : s'.entries[j]? = some (.array u))
      (h : Agree r s s' t u) : Agree r s s' (.derived i) (.derived j)

theorem Agree.builtin {r s s' : Registry} (b : Builtin) : Agree r s s' (.builtin b) (.builtin b) :=
  .old trivial

theorem IsType.isOld {r : Registry} {t : TypeId} (h : r.IsType t) : IsOld r.entries.size t := by
  cases t with
  | derived i =>
    obtain ⟨u, hu⟩ := h
    exact (Array.getElem?_eq_some_iff.1 hu).1
  | _ => trivial

theorem isOld_of_group {r : Registry} {t : TypeId} {g : Overloads} (h : r.group t = .ok g) :
    IsOld r.entries.size t := by
  cases t with
  | derived i =>
    rw [group_eq_ok] at h
    exact (Array.getElem?_eq_some_iff.1 h).1
  | _ => trivial

theorem AddsArrays.getElem? {r s : Registry} (h : r.AddsArrays s) {i : Nat} {e : TypeEntry}
    (he : r.entries[i]? = some e) : s.entries[i]? = some e := by
  rw [h.same i (Array.getElem?_eq_some_iff.1 he).1, he]

theorem Agree.mono {r s s' t t' : Registry} (h : s.AddsArrays t) (h' : s'.AddsArrays t')
    {a b : TypeId} (hab : Agree r s s' a b) : Agree r t t' a b := by
  induction hab with
  | old h => exact .old h
  | array hi hj hs hs' _ ih => exact .array hi hj (h.getElem? hs) (h'.getElem? hs') ih

section

variable {r s s' : Registry} (h : r.AddsArrays s) (h' : r.AddsArrays s')
include h h'

/-- What means the same is told apart in the same way. -/
theorem Agree.eq_iff {a b c d : TypeId} (hab : Agree r s s' a b) (hcd : Agree r s s' c d) :
    a = c ↔ b = d := by
  induction hab generalizing c d with
  | @old t ht =>
    cases hcd with
    | old => exact Iff.rfl
    | array hi hj =>
      constructor
      · rintro rfl
        exact absurd ht (Nat.not_lt.2 hi)
      · rintro rfl
        exact absurd ht (Nat.not_lt.2 hj)
  | @array i j t u hi hj hs hs' _ ih =>
    cases hcd with
    | @old v hv =>
      constructor
      · rintro rfl
        exact absurd hv (Nat.not_lt.2 hi)
      · rintro rfl
        exact absurd hv (Nat.not_lt.2 hj)
    | @array k l v w hk hl hk' hl' hvw =>
      rw [TypeId.derived.injEq, TypeId.derived.injEq]
      constructor
      · rintro rfl
        cases hs.symm.trans hk'
        rw [(ih hvw).1 rfl] at hs'
        exact h'.unique j l w hj hs' hl'
      · rintro rfl
        cases hs'.symm.trans hl'
        rw [(ih hvw).2 rfl] at hs
        exact h.unique i k v hi hs hk'

theorem Agree.eq_old_iff {a b t : TypeId} (hab : Agree r s s' a b)
    (ht : IsOld r.entries.size t) : a = t ↔ b = t := hab.eq_iff h h' (.old ht)

theorem get?_of_isOld {t : TypeId} (ht : IsOld r.entries.size t) : s.get? t = s'.get? t := by
  cases t with
  | derived i => rw [get?_derived, get?_derived, h.same i ht, h'.same i ht]
  | _ => rfl

theorem Agree.kind {a b : TypeId} (hab : Agree r s s' a b) : s.kind a = s'.kind b := by
  cases hab with
  | old ht =>
    cases a with
    | derived i => simp only [Registry.kind, get?_of_isOld h h' ht]
    | _ => rfl
  | array _ _ hs hs' _ => simp [Registry.kind, hs, hs']

theorem members_of_isOld {t : TypeId} (ht : IsOld r.entries.size t) :
    s.members t = s'.members t := by
  simp only [Registry.members, Registry.group, Registry.kindDefect, get?_of_isOld h h' ht,
    (Agree.old ht : Agree r s s' t t).kind h h']

theorem Agree.isValue {a b : TypeId} (hab : Agree r s s' a b) : s.isValue a = s'.isValue b := by
  have hvoid : a = .builtin .void ↔ b = .builtin .void := hab.eq_old_iff h h' trivial
  simp only [Registry.isValue, hab.kind h h', hvoid, ne_eq]

omit h h' in
/-- Only what is built in counts for the conversion between values. -/
theorem Agree.classifyValues {a b c d : TypeId} (hab : Agree r s s' a b)
    (hcd : Agree r s s' c d) : classifyValues a c = classifyValues b d := by
  cases hab with
  | old =>
    cases hcd with
    | old => rfl
    | array => cases a with
      | builtin b => cases b <;> rfl
      | _ => rfl
  | array =>
    cases hcd with
    | old => cases c with
      | builtin b => cases b <;> rfl
      | _ => rfl
    | array => rfl

theorem Agree.classify {a b c d : TypeId} (hab : Agree r s s' a b) (hcd : Agree r s s' c d) :
    s.classify a c = s'.classify b d := by
  have heq : a = c ↔ b = d := hab.eq_iff h h' hcd
  have ha : a = .error ↔ b = .error := hab.eq_old_iff h h' trivial
  have hc : c = .error ↔ d = .error := hcd.eq_old_iff h h' trivial
  simp only [Registry.classify, heq, ha, hc, hab.isValue h h', hcd.isValue h h',
    hab.classifyValues hcd]

theorem Agree.isImplicitlyConvertible {a b c d : TypeId} (hab : Agree r s s' a b)
    (hcd : Agree r s s' c d) :
    s.isImplicitlyConvertible a c = s'.isImplicitlyConvertible b d := by
  simp only [Registry.isImplicitlyConvertible, hab.classify h h' hcd]

theorem Agree.element (hr : r.WellFormed) {a b e : TypeId} (hab : Agree r s s' a b)
    (he : s.element a = .ok e) : ∃ f, s'.element b = .ok f ∧ Agree r s s' e f := by
  rw [element_eq_ok] at he
  cases hab with
  | old ht =>
    refine ⟨e, element_eq_ok.2 (get?_of_isOld h h' ht ▸ he), .old ?_⟩
    cases a with
    | derived i =>
      rw [get?_derived, h.same i ht] at he
      exact (hr.array he).1.isOld
    | _ => simp [Registry.get?] at he
  | array _ _ hs hs' hel =>
    cases hs.symm.trans he
    exact ⟨_, element_eq_ok.2 hs', hel⟩

theorem conversionCost_eq {params args args' : List TypeId}
    (hp : ∀ p ∈ params, IsOld r.entries.size p) (ha : List.Forall₂ (Agree r s s') args args') :
    s.conversionCost params args = s'.conversionCost params args' := by
  induction params generalizing args args' with
  | nil => cases ha <;> rfl
  | cons p ps ih =>
    rw [List.forall_mem_cons] at hp
    cases ha with
    | nil => rfl
    | @cons a b as bs hab has =>
      have heq : a = p ↔ b = p := hab.eq_old_iff h h' hp.1
      simp only [Registry.conversionCost, has.length_eq, heq,
        hab.isImplicitlyConvertible h h' (.old hp.1), ih hp.2 has]

omit h' in
/-- A callable of the first registry is the same in the other, and its types are old. -/
theorem callable_of_adds (hr : r.WellFormed) {c : TypeId} {info : Callable}
    (hc : r.callable c = .ok info) : s.callable c = .ok info ∧
      (∀ p ∈ info.params, IsOld r.entries.size p) ∧ IsOld r.entries.size info.result := by
  refine ⟨?_, fun p hp => (hr.callable_params hc p hp).1.isOld, (hr.callable_result hc).isOld⟩
  rw [callable_eq_ok] at hc ⊢
  cases c with
  | derived i => exact h.getElem? hc
  | _ => simp [Registry.get?] at hc

theorem cheapestFrom_eq (hr : r.WellFormed) {args args' candidates : List TypeId}
    (hc : ∀ c ∈ candidates, ∃ info, r.callable c = .ok info)
    (ha : List.Forall₂ (Agree r s s') args args') (best : Option (Nat × List TypeId)) :
    s.cheapestFrom args best candidates = s'.cheapestFrom args' best candidates := by
  induction candidates generalizing best with
  | nil => rfl
  | cons c rest ih =>
    rw [List.forall_mem_cons] at hc
    obtain ⟨⟨info, hinfo⟩, hrest⟩ := hc
    obtain ⟨hcall, hparams, -⟩ := callable_of_adds h hr hinfo
    obtain ⟨hcall', -⟩ := callable_of_adds h' hr hinfo
    simp only [Registry.cheapestFrom, hcall, hcall', conversionCost_eq h h' hparams ha,
      ih hrest, bind, Except.bind]

theorem resolve_eq (hr : r.WellFormed) {group : TypeId} (hg : IsOld r.entries.size group)
    {args args' : List TypeId} (ha : List.Forall₂ (Agree r s s') args args') :
    s.resolve group args = s'.resolve group args' := by
  have hmembers : s.members group = r.members group := members_of_isOld h (AddsArrays.refl r) hg
  have hmembers' : s'.members group = r.members group := members_of_isOld h' (AddsArrays.refl r) hg
  cases hms : r.group group with
  | error d =>
    have hnone : r.members group = .error d := by simp [Registry.members, hms, bind, Except.bind]
    simp only [Registry.resolve, hmembers, hmembers', hnone, bind, Except.bind]
  | ok g =>
    simp only [Registry.resolve, hmembers, hmembers', members_eq_ok hms, bind, Except.bind,
      cheapestFrom_eq h h' hr (hr.group_members hms) ha]

omit h h' in
/-- Where an array type is found: nowhere before. -/
theorem findIdx?_eq_some {r : Registry} {t : TypeId} {i : Nat}
    (h : r.entries.findIdx? (· = .array t) = some i) :
    r.entries[i]? = some (.array t) ∧ ∀ j < i, r.entries[j]? ≠ some (.array t) := by
  obtain ⟨hi, heq, hbefore⟩ := Array.findIdx?_eq_some_iff_getElem.1 h
  refine ⟨?_, fun j hj hje => ?_⟩
  · rw [Array.getElem?_eq_getElem hi]
    simpa using heq
  · have hlt : j < r.entries.size := by omega
    rw [Array.getElem?_eq_getElem hlt, Option.some.injEq] at hje
    exact hbefore j hj (by simpa using hje)

omit h' in
/-- An array type stands in the registry that it was asked from, and so does its element type. -/
theorem arrayOf_spec (hr : r.WellFormed) {a u : TypeId} {t : Registry}
    (hrun : s.arrayOf a = .ok (u, t)) :
    (∃ k, s.kind a = .ok k) ∧ ∃ i, u = .derived i ∧ t.entries[i]? = some (.array a) ∧
      ∀ j < i, s.entries[j]? ≠ some (.array a) := by
  obtain ⟨i, hi, rfl, rfl⟩ | ⟨hk, hnew, rfl, rfl⟩ := arrayOf_eq_ok hrun
  · obtain ⟨hentry, hfirst⟩ := findIdx?_eq_some hi
    refine ⟨?_, i, rfl, hentry, hfirst⟩
    by_cases hin : i < r.entries.size
    · have helement : r.IsType a := (hr.array (h.same i hin ▸ hentry)).1
      obtain ⟨b, rfl, hk⟩ | ⟨-, hk⟩ | ⟨v, -, hk⟩ := helement.kind
      · exact ⟨_, kind_of_same h.same hk⟩
      · exact ⟨_, kind_of_same h.same hk⟩
      · exact ⟨_, kind_of_same h.same hk⟩
    · obtain ⟨_, k, ⟨⟩, hk⟩ := h.new i (Nat.le_of_not_lt hin) _ hentry
      exact ⟨k, hk⟩
  · refine ⟨hk, _, rfl, ?_, fun j _ => hnew j⟩
    rw [getElem?_push, if_pos rfl]

/-- Arrays of what means the same mean the same. -/
theorem Agree.arrayOf (hr : r.WellFormed) {a b u : TypeId} {t : Registry}
    (hab : Agree r s s' a b) (hrun : s.arrayOf a = .ok (u, t)) :
    ∃ v t', s'.arrayOf b = .ok (v, t') ∧ Agree r t t' u v := by
  obtain ⟨⟨k, hk⟩, i, rfl, hi, hfirst⟩ := arrayOf_spec h hr hrun
  obtain ⟨v, t', hrun'⟩ : ∃ v t', s'.arrayOf b = .ok (v, t') := by
    rw [hab.kind h h'] at hk
    rw [Registry.arrayOf_eq]
    split
    · exact ⟨_, _, rfl⟩
    · exact ⟨_, _, by simp [hk, Bind.bind, Except.bind, Pure.pure, Except.pure]; rfl⟩
  obtain ⟨-, j, rfl, hj, hfirst'⟩ := arrayOf_spec h' hr hrun'
  have ht := h.trans (addsArrays_arrayOf hrun)
  have ht' := h'.trans (addsArrays_arrayOf hrun')
  refine ⟨_, t', hrun', ?_⟩
  by_cases hin : i < r.entries.size
  · -- the element type is an old one, so both find the first of its arrays
    have hri : r.entries[i]? = some (.array a) := (ht.same i hin).symm.trans hi
    obtain rfl : b = a := ((hab.eq_old_iff h h' (hr.array hri).1.isOld).1 rfl)
    have hle : j ≤ i := by
      by_contra hlt
      exact hfirst' i (by omega) (h'.getElem? hri)
    have hrj : r.entries[j]? = some (.array b) := (ht'.same j (by omega)).symm.trans hj
    have hge : i ≤ j := by
      by_contra hlt
      exact hfirst j (by omega) (h.getElem? hrj)
    obtain rfl : i = j := by omega
    exact .old hin
  · have hjn : r.entries.size ≤ j := by
      by_contra hlt
      have hrj : r.entries[j]? = some (.array b) := (ht'.same j (by omega)).symm.trans hj
      obtain rfl : a = b := (hab.eq_old_iff h h' (hr.array hrj).1.isOld).2 rfl
      have := ht.unique i j a (by omega) hi (ht.getElem? hrj)
      omega
    exact .array (by omega) hjn hi hj
      (hab.mono (addsArrays_arrayOf hrun) (addsArrays_arrayOf hrun'))

end

end Registry
end TypedScript
