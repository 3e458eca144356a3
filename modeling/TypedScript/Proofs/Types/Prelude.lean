import Mathlib.Data.List.Forall2
import TypedScript.Binding.Basic
import TypedScript.Proofs.Types.Registry

/-!
# What every compilation starts with

Before a program is bound the library and the operators are registered. The groups made for them hold
callables with the signatures listed there and nothing else, and what is registered later leaves them
as they are.
-/

namespace TypedScript

/-- A signature over built-in types that takes values only. -/
def Signature.IsBuiltin (s : Signature) : Prop :=
  (∃ b, s.result = .builtin b) ∧ ∀ p ∈ s.params, ∃ b, p = .builtin b ∧ b ≠ .void

namespace Registry

/-- A group whose members have the signatures in order and compute the same operator, or none. -/
def Offers (r : Registry) (group : TypeId) (op? : Option Operator) (overloads : List Signature) :
    Prop :=
  ∃ g, r.group group = .ok g ∧
    List.Forall₂ (fun m s => r.callable m = .ok ⟨group, s.result, s.params, op?⟩) g.members overloads

theorem exists_of_mem_left {α β : Type} {R : α → β → Prop} {as : List α} {bs : List β}
    (h : List.Forall₂ R as bs) {a : α} (ha : a ∈ as) : ∃ b ∈ bs, R a b := by
  induction h with
  | nil => simp at ha
  | cons hr _ ih =>
    obtain rfl | ha := List.mem_cons.1 ha
    · exact ⟨_, by simp, hr⟩
    · obtain ⟨b, hb, hr⟩ := ih ha
      exact ⟨b, by simp [hb], hr⟩

theorem get?_of_sameBelow {r s : Registry} (h : SameBelow r.entries.size r s) {t : TypeId}
    {e : TypeEntry} (he : r.get? t = some e) : s.get? t = some e := by
  cases t with
  | derived i =>
    rw [get?_derived] at he ⊢
    rw [h i (Array.getElem?_eq_some_iff.1 he).1, he]
  | _ => simp [get?] at he

theorem callable_of_sameBelow {r s : Registry} (h : SameBelow r.entries.size r s) {t : TypeId}
    {c : Callable} (hc : r.callable t = .ok c) : s.callable t = .ok c :=
  callable_eq_ok.2 (get?_of_sameBelow h (callable_eq_ok.1 hc))

theorem Offers.of_sameBelow {r s : Registry} (h : SameBelow r.entries.size r s) {group : TypeId}
    {op? : Option Operator} {overloads : List Signature} (ho : r.Offers group op? overloads) :
    s.Offers group op? overloads := by
  obtain ⟨g, hg, hm⟩ := ho
  exact ⟨g, group_eq_ok.2 (get?_of_sameBelow h (group_eq_ok.1 hg)),
    hm.imp fun _ _ hc => callable_of_sameBelow h hc⟩

theorem le_of_sameBelow {r s : Registry} (h : SameBelow r.entries.size r s) : r ≤ s := by
  intro i e he
  exact ⟨e, by rw [h i (Array.getElem?_eq_some_iff.1 he).1, he], TypeEntry.Grows.refl e⟩

/-- A well-formed registry whose callables do not mention the error type. -/
structure Clean (r : Registry) : Prop where
  wellFormed : r.WellFormed
  result : ∀ {t : TypeId} {c : Callable}, r.callable t = .ok c → c.result ≠ .error
  params : ∀ {t : TypeId} {c : Callable}, r.callable t = .ok c → .error ∉ c.params

theorem clean_empty : empty.Clean where
  wellFormed := by constructor <;> simp [empty]
  result h := by
    rw [callable_eq_ok] at h
    cases ‹TypeId› <;> simp [get?, empty] at h
  params h := by
    rw [callable_eq_ok] at h
    cases ‹TypeId› <;> simp [get?, empty] at h

/-- Where the group and its overloads stand after a group was defined. -/
theorem getElem?_defineGroup (r : Registry) (name parent : String) (op? : Option Operator)
    (overloads : List Signature) (i : Nat) :
    (r.defineGroup name parent op? overloads).2.entries[i]? =
      if i < r.entries.size then r.entries[i]?
      else if i = r.entries.size then
        some (.group ⟨name, parent, (List.range overloads.length).map fun k =>
          TypeId.derived (r.entries.size + 1 + k)⟩)
      else overloads[i - (r.entries.size + 1)]?.map fun s =>
        .callable ⟨.derived r.entries.size, s.result, s.params, op?⟩ := by
  simp only [defineGroup, ← Array.getElem?_toList, Array.toList_appendList, Array.toList_push,
    List.getElem?_append, List.length_append, Array.length_toList, List.length_singleton]
  by_cases h1 : i < r.entries.size
  · rw [if_pos (by omega), if_pos h1, if_pos h1]
  · by_cases h2 : i = r.entries.size
    · subst h2
      simp
    · rw [if_neg (by omega), if_neg h1, if_neg h2, List.getElem?_map]

theorem sameBelow_defineGroup (r : Registry) (name parent : String) (op? : Option Operator)
    (overloads : List Signature) :
    SameBelow r.entries.size r (r.defineGroup name parent op? overloads).2 := by
  intro i hi
  rw [getElem?_defineGroup, if_pos hi]

theorem callable_defineGroup (r : Registry) (name parent : String) (op? : Option Operator)
    {overloads : List Signature} {k : Nat} {s : Signature} (hs : overloads[k]? = some s) :
    (r.defineGroup name parent op? overloads).2.callable (.derived (r.entries.size + 1 + k)) =
      .ok ⟨.derived r.entries.size, s.result, s.params, op?⟩ := by
  rw [callable_eq_ok, get?_derived, getElem?_defineGroup, if_neg (by omega), if_neg (by omega),
    show r.entries.size + 1 + k - (r.entries.size + 1) = k by omega, hs]
  rfl

theorem group_defineGroup (r : Registry) (name parent : String) (op? : Option Operator)
    (overloads : List Signature) :
    (r.defineGroup name parent op? overloads).2.group (.derived r.entries.size) =
      .ok ⟨name, parent, (List.range overloads.length).map fun k =>
        TypeId.derived (r.entries.size + 1 + k)⟩ := by
  rw [group_eq_ok, get?_derived, getElem?_defineGroup, if_neg (by omega), if_pos rfl]

theorem offers_defineGroup (r : Registry) (name parent : String) (op? : Option Operator)
    (overloads : List Signature) :
    (r.defineGroup name parent op? overloads).2.Offers
      (r.defineGroup name parent op? overloads).1 op? overloads := by
  refine ⟨_, group_defineGroup r name parent op? overloads, ?_⟩
  rw [List.forall₂_iff_get]
  refine ⟨by simp, fun k hk hk' => ?_⟩
  simp only [List.get_eq_getElem, List.getElem_map, List.getElem_range]
  exact callable_defineGroup r name parent op? (List.getElem?_eq_getElem hk')

/-- A registry stays clean when a group with signatures over built-in types is defined. -/
theorem Clean.defineGroup {r : Registry} (h : r.Clean) (name parent : String)
    (op? : Option Operator) {overloads : List Signature} (ho : ∀ s ∈ overloads, s.IsBuiltin) :
    (r.defineGroup name parent op? overloads).2.Clean := by
  have hle := le_of_sameBelow (sameBelow_defineGroup r name parent op? overloads)
  have hnew : ∀ {i : Nat} {c : Callable},
      (r.defineGroup name parent op? overloads).2.entries[i]? = some (.callable c) →
      r.entries[i]? = some (.callable c) ∨
        c.group = .derived r.entries.size ∧ (⟨c.result, c.params⟩ : Signature).IsBuiltin := by
    intro i c hc
    rw [getElem?_defineGroup] at hc
    split at hc
    · exact .inl hc
    · split at hc
      · cases hc
      · obtain ⟨s, hs, he⟩ := Option.map_eq_some_iff.1 hc
        cases he
        exact .inr ⟨rfl, ho s (List.mem_of_getElem? hs)⟩
  have hcall : ∀ {t : TypeId} {c : Callable},
      (r.defineGroup name parent op? overloads).2.callable t = .ok c →
      r.callable t = .ok c ∨ (⟨c.result, c.params⟩ : Signature).IsBuiltin := by
    intro t c hc
    rw [callable_eq_ok] at hc
    cases t with
    | derived i =>
      obtain hr | ⟨-, hb⟩ := hnew hc
      · exact .inl (callable_eq_ok.2 hr)
      · exact .inr hb
    | _ => simp [get?] at hc
  refine ⟨h.wellFormed.grow hle ?_ ?_ ?_, ?_, ?_⟩
  · intro i t ht
    rw [getElem?_defineGroup] at ht
    split at ht
    · exact .inl ht
    · split at ht
      · cases ht
      · obtain ⟨s, hs, he⟩ := Option.map_eq_some_iff.1 ht
        cases he
  · intro i g hg m hm
    rw [getElem?_defineGroup] at hg
    split at hg
    · exact .inl ⟨g, hg, hm⟩
    · split at hg
      · cases hg
        obtain ⟨k, hk, rfl⟩ := List.mem_map.1 hm
        have hlt : k < overloads.length := List.mem_range.1 hk
        exact .inr ⟨_, callable_defineGroup r name parent op? (List.getElem?_eq_getElem hlt)⟩
      · obtain ⟨s, hs, he⟩ := Option.map_eq_some_iff.1 hg
        cases he
  · intro i c hc
    obtain hr | ⟨hg, ⟨b, hb⟩, hp⟩ := hnew hc
    · exact .inl hr
    · refine .inr ⟨⟨_, hg ▸ group_defineGroup r name parent op? overloads⟩, ?_, ?_⟩
      · rw [show c.result = .builtin b from hb]
        trivial
      · intro p hpm
        obtain ⟨b', rfl, hv⟩ := hp p hpm
        exact ⟨trivial, by simpa using hv⟩
  · intro t c hc
    obtain hr | ⟨⟨b, hb⟩, -⟩ := hcall hc
    · exact h.result hr
    · rw [show c.result = .builtin b from hb]
      simp
  · intro t c hc
    obtain hr | ⟨-, hp⟩ := hcall hc
    · exact h.params hr
    · intro hmem
      obtain ⟨b, hb, -⟩ := hp _ hmem
      cases hb

end Registry

namespace Intrinsics

open Registry

theorem isBuiltin_of_mem_signatures {op : Operator} {s : Signature} (hs : s ∈ signatures op) :
    s.IsBuiltin := by
  cases op with
  | binary op =>
    obtain ⟨b, hb, rfl⟩ := List.mem_map.1 hs
    have hv : b ≠ .void := by
      rintro rfl
      revert hb
      cases op <;> decide
    refine ⟨⟨_, rfl⟩, fun p hp => ⟨b, ?_, hv⟩⟩
    simpa [binarySignature] using hp
  | unary op =>
    obtain ⟨b, hb, rfl⟩ := List.mem_map.1 hs
    have hv : b ≠ .void := by
      rintro rfl
      revert hb
      cases op <;> decide
    refine ⟨⟨_, rfl⟩, fun p hp => ⟨b, ?_, hv⟩⟩
    simpa [unarySignature] using hp
  | unassigned code => simp [signatures] at hs

theorem result_ne_void {op : Operator} {s : Signature} (hs : s ∈ signatures op) :
    s.result ≠ .builtin .void := by
  cases op with
  | binary op =>
    obtain ⟨b, hb, rfl⟩ := List.mem_map.1 hs
    have hall : ∀ b ∈ operands op, b ≠ .void := by cases op <;> decide
    have hne := hall b hb
    simp only [binarySignature]
    split <;> simp [hne]
  | unary op =>
    obtain ⟨b, hb, rfl⟩ := List.mem_map.1 hs
    have hall : ∀ b ∈ operand op, b ≠ .void := by cases op <;> decide
    simpa [unarySignature] using hall b hb
  | unassigned code => simp [signatures] at hs

/-- Operators that may skip their right operand work on truth values. -/
theorem eq_of_isShortCircuit {op : BinaryOperator} (h : op.isShortCircuit) {s : Signature}
    (hs : s ∈ signatures (.binary op)) :
    s = ⟨.builtin .bool, [.builtin .bool, .builtin .bool]⟩ := by
  cases op with
  | andAlso | orElse => simpa [signatures, operands, binarySignature] using hs
  | _ => cases h

/-- Each of the operators gets a group with its overloads. -/
theorem registerAll_spec {r : Registry} (hr : r.Clean) (ops : List Operator) :
    (registerAll r ops).2.Clean ∧ SameBelow r.entries.size r (registerAll r ops).2 ∧
      ∀ op ∈ ops, ∃ t, (registerAll r ops).1.find? (fun g => g.1 = op) = some (op, t) ∧
        (registerAll r ops).2.Offers t (some op) (signatures op) := by
  induction ops generalizing r with
  | nil => exact ⟨hr, fun i _ => rfl, by simp⟩
  | cons op rest ih =>
    have hd := hr.defineGroup op.symbol "" (some op) fun s (hs : s ∈ signatures op) =>
      isBuiltin_of_mem_signatures hs
    have hsame := sameBelow_defineGroup r op.symbol "" (some op) (signatures op)
    have hoffer := offers_defineGroup r op.symbol "" (some op) (signatures op)
    obtain ⟨hclean, hbelow, hrest⟩ := ih hd
    refine ⟨hclean, hsame.trans (hbelow.mono ?_), ?_⟩
    · exact size_le (le_of_sameBelow hsame)
    · intro o ho
      by_cases he : op = o
      · subst he
        exact ⟨_, by simp [registerAll], hoffer.of_sameBelow hbelow⟩
      · obtain ⟨t, ht, hof⟩ := hrest o (by simpa [Ne.symm he] using ho)
        exact ⟨t, by simp [registerAll, he, ht], hof⟩

end Intrinsics

namespace Library

open Registry

/-- A group of the library as it stands in a registry: its members have the signatures described, and
the first of them stands behind the group. -/
structure Holds (r : Registry) (g : LibraryGroup) (t : TypeId) : Prop where
  offers : r.Offers t none g.signatures
  first : ∀ s, g.signatures.head? = some s →
    r.callable (firstOverload t) = .ok ⟨t, s.result, s.params, none⟩

theorem Holds.of_sameBelow {r s : Registry} (h : SameBelow r.entries.size r s) {g : LibraryGroup}
    {t : TypeId} (hg : Holds r g t) : Holds s g t :=
  ⟨hg.offers.of_sameBelow h, fun sig hs => callable_of_sameBelow h (hg.first sig hs)⟩

def TakesValues (g : LibraryGroup) : Prop := ∀ o ∈ g.overloads, .void ∉ o.2

instance : DecidablePred TakesValues := fun g => inferInstanceAs (Decidable (∀ o ∈ g.overloads, _))

theorem TakesValues.isBuiltin {g : LibraryGroup} (hg : TakesValues g) :
    ∀ s ∈ g.signatures, s.IsBuiltin := by
  intro s hs
  obtain ⟨⟨b, ps⟩, ho, rfl⟩ := List.mem_map.1 hs
  refine ⟨⟨b, rfl⟩, fun p hp => ?_⟩
  obtain ⟨q, hq, rfl⟩ := List.mem_map.1 hp
  exact ⟨q, rfl, fun he => hg _ ho (he ▸ hq)⟩

theorem register_spec {r : Registry} (hr : r.Clean) {g : LibraryGroup} (hg : TakesValues g) :
    (register r g).2.Clean ∧ SameBelow r.entries.size r (register r g).2 ∧
      Holds (register r g).2 g (register r g).1 := by
  refine ⟨hr.defineGroup _ _ _ hg.isBuiltin, sameBelow_defineGroup _ _ _ _ _,
    offers_defineGroup _ _ _ _ _, ?_⟩
  intro s hs
  exact callable_defineGroup r g.name g.parent none (k := 0) (by rwa [← List.head?_eq_getElem?])

theorem registerAll_spec {r : Registry} (hr : r.Clean) {gs : List LibraryGroup}
    (hgs : ∀ g ∈ gs, TakesValues g) :
    (registerAll r gs).2.Clean ∧ SameBelow r.entries.size r (registerAll r gs).2 ∧
      List.Forall₂ (fun g p => p.1 = g.path ∧ Holds (registerAll r gs).2 g p.2) gs
        (registerAll r gs).1 := by
  induction gs generalizing r with
  | nil => exact ⟨hr, fun i _ => rfl, .nil⟩
  | cons g rest ih =>
    obtain ⟨hclean, hsame, hholds⟩ := register_spec hr (hgs g (by simp))
    obtain ⟨hclean', hbelow, hrest⟩ := ih hclean fun g hg => hgs g (by simp [hg])
    refine ⟨hclean', hsame.trans (hbelow.mono (size_le (le_of_sameBelow hsame))), ?_⟩
    exact .cons ⟨rfl, hholds.of_sameBelow hbelow⟩ hrest

/-- What the library's parts are in a registry. -/
structure Loaded (l : Library) (r : Registry) : Prop where
  group : ∀ {path : String} {t : TypeId}, l.group? path = some t → ∃ g, Holds r g t
  concat : Holds r concatGroup l.concat
  equals : Holds r equalsGroup l.equals
  toText : ∃ g, r.callable l.toText = .ok ⟨g, .builtin .string, [.builtin .object], none⟩
  parser : ∀ b : Builtin, b.isScalar → b ≠ .string → ∃ c g, l.parser? (.builtin b) = some c ∧
    r.callable c = .ok ⟨g, .builtin b, [.builtin .string], none⟩
  fields : l.fields = allFields

theorem Loaded.of_sameBelow {l : Library} {r s : Registry} (h : SameBelow r.entries.size r s)
    (hl : Loaded l r) : Loaded l s where
  group hp := by
    obtain ⟨g, hg⟩ := hl.group hp
    exact ⟨g, hg.of_sameBelow h⟩
  concat := hl.concat.of_sameBelow h
  equals := hl.equals.of_sameBelow h
  toText := by
    obtain ⟨g, hg⟩ := hl.toText
    exact ⟨g, callable_of_sameBelow h hg⟩
  parser b hb hs := by
    obtain ⟨c, g, hc, hg⟩ := hl.parser b hb hs
    exact ⟨c, g, hc, callable_of_sameBelow h hg⟩
  fields := hl.fields

/-- Behind each scalar type stands the first overload of its group of readers. -/
theorem find?_parsers {r : Registry} {gs : List (Builtin × LibraryGroup)}
    {ts : List (String × TypeId)}
    (h : List.Forall₂ (fun g p => p.1 = g.path ∧ Holds r g p.2) (gs.map Prod.snd) ts)
    {b : Builtin} (hb : b ∈ gs.map Prod.fst) :
    ∃ g t, (b, g) ∈ gs ∧ Holds r g t ∧
      ((gs.map Prod.fst).zip (ts.map fun p => firstOverload p.2)).find? (fun p => p.1 = b) =
        some (b, firstOverload t) := by
  induction gs generalizing ts with
  | nil => simp at hb
  | cons g rest ih =>
    cases h with
    | cons hp hrest =>
      obtain ⟨-, hholds⟩ := hp
      by_cases he : g.1 = b
      · subst he
        exact ⟨g.2, _, by simp, hholds, by simp⟩
      · obtain ⟨g', t, hg, ht, hf⟩ := ih hrest (by simpa [Ne.symm he] using hb)
        exact ⟨g', t, by simp [hg], ht, by simpa [he] using hf⟩

theorem load_spec {r : Registry} (hr : r.Clean) :
    (load r).2.Clean ∧ Loaded (load r).1 (load r).2 := by
  obtain ⟨c1, s1, h1⟩ := registerAll_spec hr (show ∀ g ∈ plainGroups, TakesValues g by decide)
  unfold load
  generalize registerAll r plainGroups = p at *
  obtain ⟨plain, r1⟩ := p
  dsimp only at *
  obtain ⟨c2, s2, h2⟩ := register_spec c1 (g := concatGroup) (by decide)
  generalize register r1 concatGroup = p at *
  obtain ⟨concat, r2⟩ := p
  dsimp only at *
  obtain ⟨c3, s3, h3⟩ := register_spec c2 (g := equalsGroup) (by decide)
  generalize register r2 equalsGroup = p at *
  obtain ⟨equals, r3⟩ := p
  dsimp only at *
  obtain ⟨c4, s4, h4⟩ := register_spec c3 (g := toTextGroup) (by decide)
  generalize register r3 toTextGroup = p at *
  obtain ⟨toText, r4⟩ := p
  dsimp only at *
  obtain ⟨c5, s5, h5⟩ := registerAll_spec c4
    (show ∀ g ∈ parserGroups.map Prod.snd, TakesValues g by decide)
  generalize registerAll r4 (parserGroups.map Prod.snd) = p at *
  obtain ⟨parsers, r5⟩ := p
  dsimp only at *
  have s45 := s4.trans (s5.mono (size_le (le_of_sameBelow s4)))
  have s35 := s3.trans (s45.mono (size_le (le_of_sameBelow s3)))
  have s25 := s2.trans (s35.mono (size_le (le_of_sameBelow s2)))
  refine ⟨c5, ?_, h2.of_sameBelow s35, h3.of_sameBelow s45, ?_, ?_, rfl⟩
  · intro path t ht
    obtain ⟨p, hp, rfl⟩ := Option.map_eq_some_iff.1 ht
    have hmem := List.mem_of_find?_eq_some hp
    simp only [List.mem_append] at hmem
    obtain (hplain | hspecial) | hparse := hmem
    · obtain ⟨g, -, -, hg⟩ := exists_of_mem_left h1.flip hplain
      exact ⟨g, hg.of_sameBelow s25⟩
    · simp only [List.mem_cons, List.not_mem_nil, or_false] at hspecial
      obtain rfl | rfl | rfl := hspecial
      · exact ⟨_, h2.of_sameBelow s35⟩
      · exact ⟨_, h3.of_sameBelow s45⟩
      · exact ⟨_, h4.of_sameBelow s5⟩
    · obtain ⟨g, -, -, hg⟩ := exists_of_mem_left h5.flip hparse
      exact ⟨g, hg⟩
  · exact ⟨_, (h4.of_sameBelow s5).first _ rfl⟩
  · intro b hb hs
    have hmem : b ∈ parserGroups.map Prod.fst := by
      revert hb hs
      cases b <;> decide
    obtain ⟨g, t, hg, ht, hf⟩ := find?_parsers h5 hmem
    obtain ⟨b', -, hb'⟩ := List.mem_map.1 hg
    cases hb'
    refine ⟨firstOverload t, t, ?_, ht.first _ rfl⟩
    simp only [parser?]
    rw [hf]
    rfl

end Library

namespace Binder

open Registry

theorem mem_all_binary (op : BinaryOperator) : .binary op ∈ Intrinsics.all := by
  cases op <;> decide

theorem mem_all_unary (op : UnaryOperator) : .unary op ∈ Intrinsics.all := by
  cases op <;> decide

/-- What is registered before a program is bound. -/
theorem initial_spec :
    initial.registry.Clean ∧ Library.Loaded initial.library initial.registry ∧
      ∀ op ∈ Intrinsics.all, initial.registry.Offers (initial.intrinsics.group op) (some op)
        (Intrinsics.signatures op) := by
  obtain ⟨hclean, hloaded⟩ := Library.load_spec clean_empty
  unfold initial
  generalize Library.load .empty = p at *
  obtain ⟨library, r⟩ := p
  dsimp only at *
  obtain ⟨hclean', hsame, hops⟩ := Intrinsics.registerAll_spec hclean Intrinsics.all
  unfold Intrinsics.load
  generalize Intrinsics.registerAll r Intrinsics.all = q at *
  obtain ⟨groups, r'⟩ := q
  dsimp only at *
  refine ⟨hclean', hloaded.of_sameBelow hsame, ?_⟩
  intro op hop
  obtain ⟨t, ht, hof⟩ := hops op hop
  simpa [Intrinsics.group, ht] using hof

end Binder
end TypedScript
