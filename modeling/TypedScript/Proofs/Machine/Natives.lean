import TypedScript.Machine.Native
import TypedScript.Proofs.Bound.Typing

/-!
# The library and the machine

Compilation knows the routines of the library by their signatures, the machine by their keys. Each
overload of the library has a key under which the machine finds a routine with that signature, and
each field a key under which it finds a constant.
-/

namespace TypedScript

def Builtin.tag : Builtin → Tag
  | i8 => .i8
  | i16 => .i16
  | i32 => .i32
  | i64 => .i64
  | u8 => .u8
  | u16 => .u16
  | u32 => .u32
  | u64 => .u64
  | f32 => .f32
  | f64 => .f64
  | bool => .bool
  | char => .char
  | string => .string
  | object => .reference
  | void => .none

namespace Routine

def signatures : Routine → List Signature
  | .print _ =>
    [⟨.builtin .void, [.builtin .string]⟩, ⟨.builtin .void, [.builtin .object]⟩]
  | .newline => [⟨.builtin .void, []⟩]
  | .input => [⟨.builtin .string, []⟩]
  | .random => [⟨.builtin .f64, []⟩]
  | .randomBetween => [⟨.builtin .i32, [.builtin .i32, .builtin .i32]⟩]
  | .abs t =>
    ([.i32, .i64].filter fun b => b.tag = t).map fun b => ⟨.builtin b, [.builtin b]⟩
  | .absFloat | .sqrt => [⟨.builtin .f64, [.builtin .f64]⟩]
  | .exit => [⟨.builtin .void, [.builtin .i32]⟩]
  | .clock => [⟨.builtin .i64, []⟩]
  | .concat =>
    [⟨.builtin .string, [.builtin .string, .builtin .string]⟩,
      ⟨.builtin .string, [.builtin .string, .builtin .object]⟩,
      ⟨.builtin .string, [.builtin .object, .builtin .string]⟩]
  | .equalTexts => [⟨.builtin .bool, [.builtin .string, .builtin .string]⟩]
  | .equalObjects => [⟨.builtin .bool, [.builtin .object, .builtin .object]⟩]
  | .toText => [⟨.builtin .string, [.builtin .object]⟩]
  | .parse t =>
    (Builtin.scalars.filter fun b => b ≠ .string && b.tag = t).map fun b =>
      ⟨.builtin b, [.builtin .string]⟩

theorem arity_of_mem_signatures {r : Routine} {s : Signature} (h : s ∈ r.signatures) :
    r.arity = s.params.length := by
  cases r with
  | abs t | parse t =>
    obtain ⟨b, -, rfl⟩ := List.mem_map.mp h
    rfl
  | _ =>
    revert s
    decide +revert

/-- A routine leaves a value unless its overloads have no result. -/
theorem returns_of_mem_signatures {r : Routine} {s : Signature} (h : s ∈ r.signatures) :
    r.returns = true ↔ s.result ≠ .builtin .void := by
  cases r with
  | abs t =>
    obtain ⟨b, hb, rfl⟩ := List.mem_map.mp h
    have hne : b ≠ .void := by
      rintro rfl
      simp at hb
    simp [returns, hne]
  | parse t =>
    obtain ⟨b, hb, rfl⟩ := List.mem_map.mp h
    have hne : b ≠ .void := by
      rintro rfl
      simp [Builtin.scalars, Builtin.isScalar] at hb
    simp [returns, hne]
  | _ =>
    revert s
    decide +revert

end Routine

namespace Registry

theorem qualifiedName_mono {r s : Registry} (h : r ≤ s) {t : TypeId} {name : String}
    (hn : r.qualifiedName t = .ok name) : s.qualifiedName t = .ok name := by
  cases hg : r.group t with
  | error d => simp [qualifiedName, hg, Bind.bind, Except.bind] at hn
  | ok g =>
    rw [group_eq_ok] at hg
    obtain ⟨f, hf, hgrows⟩ := get?_mono h hg
    cases f with
    | group k =>
      have hname : g.qualifiedName = k.qualifiedName := by
        simp only [Overloads.qualifiedName, hgrows.1, hgrows.2.1]
      rw [qualifiedName, group_eq_ok.mpr hg] at hn
      rw [qualifiedName, group_eq_ok.mpr hf, ← hn]
      exact congrArg Except.ok hname.symm
    | array u => exact hgrows.elim
    | callable c => exact hgrows.elim

/-- The names of built-in types do not depend on the registry. -/
theorem joinNames_builtin (r s : Registry) {ts : List TypeId} (h : ∀ t ∈ ts, ∃ b, t = .builtin b) :
    r.joinNames ts = s.joinNames ts := by
  have hnames : ts.mapM r.name = ts.mapM s.name := by
    induction ts with
    | nil => rfl
    | cons t ts ih =>
      rw [List.forall_mem_cons] at h
      obtain ⟨⟨b, rfl⟩, hrest⟩ := h
      rw [List.mapM_cons, List.mapM_cons, ih hrest]
      rfl
  rw [joinNames, joinNames, hnames]

theorem libraryKey_mono {r s : Registry} (h : r ≤ s) {t : TypeId} {c : Callable} {key : String}
    (hc : r.callable t = .ok c) (hparams : ∀ p ∈ c.params, ∃ b, p = .builtin b)
    (hk : r.libraryKey t = .ok key) : s.libraryKey t = .ok key := by
  simp only [libraryKey, hc, callable_mono h hc, Bind.bind, Except.bind] at hk ⊢
  cases hq : r.qualifiedName c.group with
  | error d => simp [hq] at hk
  | ok name =>
    rw [hq] at hk
    rw [qualifiedName_mono h hq, ← joinNames_builtin r s hparams]
    exact hk

end Registry

namespace Native

/-- Whether the machine has a routine for a callable, unless it computes an operator. -/
def serves (r : Registry) (t : TypeId) : Bool :=
  match r.callable t with
  | .error _ => true
  | .ok c =>
    c.op?.isSome ||
      match r.libraryKey t with
      | .error _ => false
      | .ok key =>
        (c.params.all fun p => p.satisfies fun _ => true) &&
          match find? key with
          | some ⟨key', .routine n⟩ => key' = key && n.signatures.contains ⟨c.result, c.params⟩
          | _ => false

/-- The machine has a routine for every overload of the library. -/
theorem serves_library (i : Nat) : serves (Library.load .empty).2 (.derived i) := by
  have hbound : ∀ i < (Library.load .empty).2.entries.size,
      serves (Library.load .empty).2 (.derived i) := by decide +kernel
  by_cases hi : i < (Library.load .empty).2.entries.size
  · exact hbound i hi
  · have hnone : Registry.get? (Library.load .empty).2 (.derived i) = none :=
      Array.getElem?_eq_none (Nat.le_of_not_lt hi)
    simp [serves, Registry.callable, hnone]

theorem exists_of_serves {r : Registry} {t : TypeId} {c : Callable} (h : serves r t)
    (hc : r.callable t = .ok c) (hop : c.op? = none) :
    ∃ key n, r.libraryKey t = .ok key ∧ find? key = some ⟨key, .routine n⟩ ∧
      ⟨c.result, c.params⟩ ∈ n.signatures ∧ ∀ p ∈ c.params, ∃ b, p = .builtin b := by
  simp only [serves, hc, hop, Option.isSome_none, Bool.false_or] at h
  split at h
  · cases h
  · next key hkey =>
    rw [Bool.and_eq_true, List.all_eq_true] at h
    obtain ⟨hparams, h⟩ := h
    split at h
    · next key' n hfind =>
      simp only [Bool.and_eq_true, decide_eq_true_eq, List.contains_iff_mem] at h
      obtain ⟨rfl, hsig⟩ := h
      refine ⟨key', n, hkey, hfind, hsig, fun p hp => ?_⟩
      obtain ⟨b, hb, -⟩ := TypeId.exists_builtin_of_satisfies (hparams p hp)
      exact ⟨b, hb⟩
    · cases h

end Native

/-- Registering operators makes no callable but those that compute them. -/
theorem Intrinsics.callable_of_registerAll {r : Registry} (ops : List Operator) {t : TypeId}
    {c : Callable} (hc : (registerAll r ops).2.callable t = .ok c) (hop : c.op? = none) :
    r.callable t = .ok c := by
  induction ops generalizing r with
  | nil => exact hc
  | cons op rest ih =>
    have hrest : (r.defineGroup op.symbol "" (some op) (signatures op)).2.callable t = .ok c := ih hc
    rw [Registry.callable_eq_ok] at hrest ⊢
    cases t with
    | derived i =>
      rw [Registry.get?_derived, Registry.getElem?_defineGroup] at hrest
      split at hrest
      · exact hrest
      · split at hrest
        · cases hrest
        · obtain ⟨s, -, hs⟩ := Option.map_eq_some_iff.mp hrest
          cases hs
          cases hop
    | _ => simp [Registry.get?] at hrest

theorem initial_registry : Binder.initial.registry =
    (Intrinsics.registerAll (Library.load .empty).2 Intrinsics.all).2 := by
  unfold Binder.initial Intrinsics.load
  generalize Library.load .empty = p
  rfl

theorem library_le_initial : (Library.load .empty).2 ≤ Binder.initial.registry := by
  rw [initial_registry]
  have hclean := (Library.load_spec Registry.clean_empty).1
  exact Registry.le_of_sameBelow (Intrinsics.registerAll_spec hclean Intrinsics.all).2.1

/-- The machine has a routine for each callable that is not of the program itself, under its key and
with its signature. -/
theorem exists_native {r : Registry} (hr : Binder.initial.registry ≤ r) {t : TypeId} {c : Callable}
    (hc : Binder.initial.registry.callable t = .ok c) (hop : c.op? = none) :
    ∃ key n, r.libraryKey t = .ok key ∧ Native.find? key = some ⟨key, .routine n⟩ ∧
      ⟨c.result, c.params⟩ ∈ n.signatures := by
  rw [initial_registry] at hc
  have hlib := Intrinsics.callable_of_registerAll Intrinsics.all hc hop
  have hserves : Native.serves (Library.load .empty).2 t := by
    cases t with
    | derived i => exact Native.serves_library i
    | _ => simp [Registry.callable, Registry.get?] at hlib
  obtain ⟨key, n, hkey, hfind, hsig, hparams⟩ := Native.exists_of_serves hserves hlib hop
  have hle := le_trans library_le_initial hr
  exact ⟨key, n, Registry.libraryKey_mono hle hlib hparams hkey, hfind, hsig⟩

/-- The machine has a constant for each field of the library. -/
theorem exists_constant {field : LibraryField} (h : field ∈ Library.allFields) :
    Native.find? field.path = some ⟨field.path, .constant (.float Double.pi)⟩ ∧
      field.type = .builtin .f64 := by
  obtain rfl := List.mem_singleton.mp h
  exact ⟨by decide +kernel, rfl⟩

end TypedScript
