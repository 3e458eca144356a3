import Mathlib.Data.List.Forall2
import TypedScript.Proofs.Types.Registry
import TypedScript.Types.Resolution

/-!
# What overload resolution returns

In a well-formed registry an overload can always be chosen or refused, and one that is chosen takes
the arguments: each has the type of its parameter or is converted to it unasked.
-/

namespace TypedScript
namespace Registry

def Adapts (r : Registry) (source target : TypeId) : Prop :=
  source = target ∨ ∃ k, r.classify source target = .ok k ∧ k.isImplicit

def Accepts (r : Registry) (params args : List TypeId) : Prop :=
  List.Forall₂ (fun p a => r.Adapts a p) params args

theorem Accepts.length_eq {r : Registry} {params args : List TypeId} (h : r.Accepts params args) :
    params.length = args.length := List.Forall₂.length_eq h

theorem isImplicitlyConvertible_eq {r : Registry} {s t : TypeId} (hs : r.IsType s) (ht : r.IsType t) :
    ∃ b, r.isImplicitlyConvertible s t = .ok b ∧ (b = true → r.Adapts s t) := by
  obtain ⟨k, hk⟩ : ∃ k, r.classify s t = .ok k := ⟨_, classify_eq hs ht⟩
  exact ⟨k.isImplicit, by simp [isImplicitlyConvertible, hk, bind, Except.bind, pure, Except.pure],
    fun hb => .inr ⟨k, hk, hb⟩⟩

theorem conversionCost_ok {r : Registry} {params args : List TypeId}
    (hp : ∀ p ∈ params, r.IsType p) (ha : ∀ a ∈ args, r.IsType a) :
    ∃ o, r.conversionCost params args = .ok o ∧ (o.isSome → r.Accepts params args) := by
  induction params generalizing args with
  | nil =>
    cases args with
    | nil => exact ⟨some 0, rfl, fun _ => .nil⟩
    | cons a as => exact ⟨none, rfl, by simp⟩
  | cons p ps ih =>
    cases args with
    | nil => exact ⟨none, rfl, by simp⟩
    | cons a as =>
      obtain ⟨o, ho, hs⟩ := ih (fun q hq => hp q (by simp [hq]))
        (fun b (hb : b ∈ as) => ha b (by simp [hb]))
      unfold conversionCost
      by_cases hl : as.length = ps.length
      · rw [if_neg (by simp [hl])]
        by_cases he : a = p
        · exact ⟨o, by rw [if_pos he, ho], fun h => .cons (.inl he) (hs h)⟩
        · obtain ⟨b, hb, hi⟩ := isImplicitlyConvertible_eq (ha a (by simp)) (hp p (by simp))
          rw [if_neg he, hb]
          cases b with
          | false => exact ⟨none, rfl, by simp⟩
          | true =>
            refine ⟨o.map (· + 1), by simp [ho, bind, Except.bind, pure, Except.pure], ?_⟩
            intro h
            exact .cons (hi rfl) (hs (by simpa using h))
      · exact ⟨none, by rw [if_pos hl], by simp⟩

/-- The candidates that are left take the arguments. -/
theorem cheapestFrom_ok {r : Registry} {args : List TypeId} (ha : ∀ a ∈ args, r.IsType a)
    {P : TypeId → Prop} {candidates : List TypeId}
    (hc : ∀ m ∈ candidates, ∃ c, r.callable m = .ok c ∧ (∀ p ∈ c.params, r.IsType p) ∧
      (r.Accepts c.params args → P m))
    {best : Option (Nat × List TypeId)} (hb : ∀ n ms, best = some (n, ms) → ∀ m ∈ ms, P m) :
    ∃ ms, r.cheapestFrom args best candidates = .ok ms ∧ ∀ m ∈ ms, P m := by
  induction candidates generalizing best with
  | nil =>
    refine ⟨_, rfl, ?_⟩
    cases best with
    | none => simp
    | some b => exact hb b.1 b.2 rfl
  | cons m rest ih =>
    obtain ⟨c, hm, hp, hP⟩ := hc m (by simp)
    obtain ⟨o, ho, hs⟩ := conversionCost_ok hp ha
    have hrest : ∀ n ∈ rest, ∃ c, r.callable n = .ok c ∧ (∀ p ∈ c.params, r.IsType p) ∧
        (r.Accepts c.params args → P n) := fun n hn => hc n (by simp [hn])
    unfold cheapestFrom
    simp only [hm, ho, bind, Except.bind]
    cases o with
    | none => cases best <;> exact ih hrest hb
    | some cost =>
      have hPm := hP (hs rfl)
      cases best with
      | none =>
        refine ih hrest ?_
        rintro n ms ⟨⟩ k hk
        rwa [List.mem_singleton.1 hk]
      | some b =>
        obtain ⟨least, tied⟩ := b
        simp only
        split
        · refine ih hrest ?_
          rintro n ms ⟨⟩ k hk
          rwa [List.mem_singleton.1 hk]
        · split
          · refine ih hrest ?_
            rintro n ms ⟨⟩ k hk
            obtain hk | hk := List.mem_append.1 hk
            · exact hb _ _ rfl k hk
            · rwa [List.mem_singleton.1 hk]
          · exact ih hrest hb

/-- An overload is chosen among the members of the group, and only if it takes the arguments. -/
theorem WellFormed.resolve {r : Registry} (h : r.WellFormed) {group : TypeId} {g : Overloads}
    (hg : r.group group = .ok g) {args : List TypeId} (ha : ∀ a ∈ args, r.IsType a) :
    ∃ o, r.resolve group args = .ok o ∧
      (∀ m, o = .resolved m → m ∈ g.members ∧
        ∃ c, r.callable m = .ok c ∧ r.Accepts c.params args) ∧
      (∀ tied, o = .ambiguous tied → 2 ≤ tied.length ∧ ∀ m ∈ tied, ∃ c, r.callable m = .ok c) := by
  have hmembers : ∀ m ∈ g.members, ∃ c, r.callable m = .ok c ∧ (∀ p ∈ c.params, r.IsType p) ∧
      (r.Accepts c.params args →
        m ∈ g.members ∧ ∃ c, r.callable m = .ok c ∧ r.Accepts c.params args) := by
    intro m hm
    obtain ⟨c, hc⟩ := h.group_members hg m hm
    exact ⟨c, hc, fun p hp => (h.callable_params hc p hp).1, fun hacc => ⟨hm, c, hc, hacc⟩⟩
  obtain ⟨ms, hms, hP⟩ := cheapestFrom_ok ha hmembers
    (fun n ms (h : none = some (n, ms)) => by cases h)
  refine ⟨.ofCheapest ms, ?_, ?_, ?_⟩
  · simp [Registry.resolve, Registry.members, hg, hms, bind, Except.bind, pure, Except.pure]
  · intro m hm
    cases ms with
    | nil => cases hm
    | cons c rest =>
      cases rest with
      | nil =>
        cases hm
        exact hP _ (by simp)
      | cons d rest => cases hm
  · intro tied ht
    cases ms with
    | nil => cases ht
    | cons a rest =>
      cases rest with
      | nil => cases ht
      | cons b rest =>
        cases ht
        refine ⟨by simp, fun m hm => ?_⟩
        obtain ⟨-, c, hc, -⟩ := hP m hm
        exact ⟨c, hc⟩

end Registry
end TypedScript
