import TypedScript.Proofs.Types.Overloads
import TypedScript.Proofs.Types.Prelude

/-!
# Groups whose members differ in their parameters

If no two members of a group take the same list of parameters, arguments with exactly the types of a
member's parameters choose that member: it needs no conversion, and each of the others needs one.
Every operation on a registry keeps the groups so, as long as a callable joins a group only where its
list of parameters is new.
-/

namespace TypedScript
namespace Registry

/-- The members of a group are callables with different lists of parameters. -/
def Distinct (r : Registry) (g : Overloads) : Prop :=
  ∃ cs, List.Forall₂ (fun m c => r.callable m = .ok c) g.members cs ∧
    (cs.map Callable.params).Nodup

/-- In no group two members take the same list of parameters. -/
def Unambiguous (r : Registry) : Prop :=
  ∀ (t : TypeId) (g : Overloads), r.group t = .ok g → r.Distinct g

variable {r s : Registry} {g : Overloads} {t m n : TypeId} {c d : Callable}

namespace Distinct

theorem mono (hle : r ≤ s) (h : r.Distinct g) : s.Distinct g := by
  obtain ⟨cs, hcs, hnodup⟩ := h
  exact ⟨cs, hcs.imp fun _ _ hc => callable_mono hle hc, hnodup⟩

theorem of_members_eq_nil (h : g.members = []) : r.Distinct g := ⟨[], h ▸ .nil, List.nodup_nil⟩

theorem members_nodup (h : r.Distinct g) : g.members.Nodup := by
  obtain ⟨cs, hcs, hnodup⟩ := h
  generalize g.members = ms at hcs
  induction hcs with
  | nil => exact List.nodup_nil
  | @cons m c ms cs hc hcs ih =>
    rw [List.map_cons, List.nodup_cons] at hnodup
    refine List.nodup_cons.2 ⟨fun hm => ?_, ih hnodup.2⟩
    obtain ⟨d, hd, hmd⟩ := exists_of_mem_left hcs hm
    rw [hc] at hmd
    cases hmd
    exact hnodup.1 (List.mem_map_of_mem hd)

theorem callable (h : r.Distinct g) (hm : m ∈ g.members) : ∃ c, r.callable m = .ok c := by
  obtain ⟨cs, hcs, -⟩ := h
  obtain ⟨c, -, hc⟩ := exists_of_mem_left hcs hm
  exact ⟨c, hc⟩

/-- A member is known by its parameters. -/
theorem eq_of_params_eq (h : r.Distinct g) (hm : m ∈ g.members) (hn : n ∈ g.members)
    (hc : r.callable m = .ok c) (hd : r.callable n = .ok d) (he : c.params = d.params) : m = n := by
  obtain ⟨cs, hcs, hnodup⟩ := h
  generalize g.members = ms at hcs hm hn
  have hparams : ∀ {k : TypeId} {e : Callable} {ks : List TypeId} {es : List Callable},
      List.Forall₂ (fun m c => r.callable m = .ok c) ks es → k ∈ ks → r.callable k = .ok e →
      e.params ∈ es.map Callable.params := by
    intro k e ks es hes hk hke
    obtain ⟨f, hf, hkf⟩ := exists_of_mem_left hes hk
    rw [hke] at hkf
    cases hkf
    exact List.mem_map_of_mem hf
  induction hcs with
  | nil => simp at hm
  | @cons k e ks es hk hes ih =>
    rw [List.map_cons, List.nodup_cons] at hnodup
    obtain rfl | hm' := List.mem_cons.1 hm <;> obtain rfl | hn' := List.mem_cons.1 hn
    · rfl
    · rw [hc] at hk
      cases hk
      exact absurd (he ▸ hparams hes hn' hd) hnodup.1
    · rw [hd] at hk
      cases hk
      exact absurd (he ▸ hparams hes hm' hc) hnodup.1
    · exact ih hnodup.2 hm' hn'

/-- Members that are known by their parameters have different ones. -/
theorem of_nodup (hnodup : g.members.Nodup) (hcallable : ∀ m ∈ g.members, ∃ c, r.callable m = .ok c)
    (heq : ∀ m ∈ g.members, ∀ n ∈ g.members, ∀ c d, r.callable m = .ok c → r.callable n = .ok d →
      c.params = d.params → m = n) : r.Distinct g := by
  unfold Distinct
  generalize g.members = ms at *
  induction ms with
  | nil => exact ⟨[], .nil, List.nodup_nil⟩
  | cons m ms ih =>
    rw [List.nodup_cons] at hnodup
    obtain ⟨c, hc⟩ := hcallable m (by simp)
    obtain ⟨cs, hcs, hparams⟩ := ih hnodup.2 (fun n hn => hcallable n (by simp [hn]))
      fun n hn k hk => heq n (by simp [hn]) k (by simp [hk])
    refine ⟨c :: cs, .cons hc hcs, List.nodup_cons.2 ⟨fun hmem => ?_, hparams⟩⟩
    obtain ⟨d, hd, hdc⟩ := List.mem_map.1 hmem
    obtain ⟨n, hn, hnd⟩ := exists_of_mem_left hcs.flip hd
    exact hnodup.1 (heq m (by simp) n (by simp [hn]) c d hc hnd hdc.symm ▸ hn)

theorem of_offers {op? : Option Operator} {overloads : List Signature}
    (hm : List.Forall₂ (fun m s => r.callable m = .ok ⟨t, s.result, s.params, op?⟩) g.members overloads)
    (h : (overloads.map Signature.params).Nodup) : r.Distinct g := by
  refine ⟨overloads.map fun s => ⟨t, s.result, s.params, op?⟩, List.forall₂_map_right_iff.2 hm, ?_⟩
  rwa [List.map_map]

/-- A callable joins the group with a new list of parameters. -/
theorem snoc (h : r.Distinct g) (hc : r.callable m = .ok c)
    (hnew : ∀ n ∈ g.members, ∀ d, r.callable n = .ok d → d.params ≠ c.params) :
    r.Distinct { g with members := g.members ++ [m] } := by
  obtain ⟨cs, hcs, hnodup⟩ := h
  refine ⟨cs ++ [c], List.rel_append hcs (.cons hc .nil), ?_⟩
  rw [List.map_append, List.map_singleton]
  refine List.Nodup.append hnodup (List.nodup_singleton _) ?_
  simp only [List.disjoint_singleton, List.mem_map, not_exists, not_and]
  intro d hd
  obtain ⟨n, hn, hnd⟩ := exists_of_mem_left hcs.flip hd
  exact hnew n hn d hnd

end Distinct

/-! Arguments that need no conversion -/

theorem accepts_self (params : List TypeId) : r.Accepts params params :=
  List.forall₂_same.2 fun _ _ => .inl rfl

theorem differing_self (params : List TypeId) : differing params params = 0 := by
  induction params with
  | nil => rfl
  | cons p ps ih => simpa [differing] using ih

theorem eq_of_differing_eq_zero {params args : List TypeId} (hl : params.length = args.length)
    (h : differing params args = 0) : params = args := by
  induction params generalizing args with
  | nil => exact (List.eq_nil_of_length_eq_zero hl.symm).symm
  | cons p ps ih =>
    cases args with
    | nil => simp at hl
    | cons a as =>
      simp only [differing, List.zip_cons_cons, List.countP_cons, Nat.add_eq_zero_iff] at h
      have hp : p = a := by simpa using h.2
      rw [hp, ih (by simpa using hl) h.1]

/-- Arguments of exactly the types that a member takes choose this member. -/
theorem Distinct.resolve_eq (hr : r.WellFormed) (hg : r.group t = .ok g) (h : r.Distinct g)
    (hm : m ∈ g.members) (hc : r.callable m = .ok c) :
    r.resolve t c.params = .ok (.resolved m) := by
  obtain ⟨o, ho, -⟩ := hr.resolve hg fun p hp => (hr.callable_params hc p hp).1
  obtain ⟨ms, hms, rfl⟩ := (resolve_eq_ok_iff (members_eq_ok hg)).1 ho
  obtain ⟨hsub, hmem, -⟩ := cheapestFrom_eq_ok hms
  have htakes : r.Takes c.params m 0 := ⟨c, hc, accepts_self _, differing_self _⟩
  rw [ho, (Resolution.ofCheapest_eq_resolved_iff (h.members_nodup.sublist hsub)).2]
  refine ⟨(hmem m).2 ⟨hm, 0, htakes, fun _ _ _ _ => Nat.zero_le _⟩, fun n hn => ?_⟩
  obtain ⟨hn, cost, ⟨d, hd, haccepts, hcost⟩, hleast⟩ := (hmem n).1 hn
  -- what is no dearer than the member itself converts nothing
  have hzero : differing d.params c.params = 0 :=
    hcost.trans (Nat.le_zero.1 (hleast m hm 0 htakes))
  exact h.eq_of_params_eq hn hm hd hc (eq_of_differing_eq_zero haccepts.length_eq hzero)

/-! What the operations of a registry keep -/

namespace Unambiguous

theorem empty : Registry.empty.Unambiguous := by
  intro t g hg
  rw [group_eq_ok] at hg
  cases t <;> simp [get?, Registry.empty] at hg

theorem push (h : r.Unambiguous) {e : TypeEntry} (he : ∀ g, e = .group g → g.members = []) :
    (r.push e).2.Unambiguous := by
  intro t g hg
  rw [group_eq_ok] at hg
  cases t with
  | derived i =>
    rw [get?_derived, getElem?_push] at hg
    split at hg
    · exact .of_members_eq_nil (he g (Option.some.inj hg))
    · exact Distinct.mono (le_push r e) (h (.derived i) g (group_eq_ok.2 hg))
  | _ => simp [get?] at hg

theorem extendGroup (h : r.Unambiguous) (hg : r.group t = .ok g) (hc : r.callable m = .ok c)
    (hnew : ∀ n ∈ g.members, ∀ d, r.callable n = .ok d → d.params ≠ c.params) :
    (r.extendGroup t m).Unambiguous := by
  have hold := h t g hg
  rw [group_eq_ok] at hg
  cases t with
  | derived i =>
    have hle := le_extendGroup r i m
    intro u k hk
    rw [group_eq_ok] at hk
    cases u with
    | derived j =>
      rw [get?_derived, getElem?_extendGroup] at hk
      split at hk
      · next hij =>
        subst hij
        rw [show r.entries[i]? = some (.group g) from hg] at hk
        cases hk
        exact (hold.snoc hc hnew).mono hle
      · exact Distinct.mono hle (h (.derived j) k (group_eq_ok.2 hk))
    | _ => simp [get?] at hk
  | _ => simp [get?] at hg

theorem addCallable (h : r.Unambiguous) (hg : r.group c.group = .ok g)
    (hnew : ∀ n ∈ g.members, ∀ d, r.callable n = .ok d → d.params ≠ c.params)
    (hs : r.addCallable c = .ok (t, s)) : s.Unambiguous := by
  simp only [Registry.addCallable, hg, bind, Except.bind, pure, Except.pure] at hs
  cases hs
  have hle := le_push r (.callable c)
  have hcall : (r.push (.callable c)).2.callable (.derived r.entries.size) = .ok c := by
    rw [callable_eq_ok, get?_derived, getElem?_push, if_pos rfl]
  have hgroup : (r.push (.callable c)).2.group c.group = .ok g := by
    rw [group_eq_ok] at hg ⊢
    cases hi : c.group with
    | derived i =>
      rw [hi] at hg
      rw [get?_derived, getElem?_push, if_neg (Nat.ne_of_lt (Array.getElem?_eq_some_iff.1 hg).1)]
      exact hg
    | _ => simp [hi, get?] at hg
  refine (h.push fun g hg => by cases hg).extendGroup hgroup hcall fun n hn d hd => ?_
  obtain ⟨e, he⟩ := (h _ g hg).callable hn
  rw [callable_mono hle he] at hd
  cases hd
  exact hnew n hn d he

theorem arrayOf (h : r.Unambiguous) (hs : r.arrayOf t = .ok (m, s)) : s.Unambiguous := by
  rw [Registry.arrayOf_eq] at hs
  split at hs
  · cases hs
    exact h
  · cases hk : r.kind t with
    | error d => simp [hk, bind, Except.bind] at hs
    | ok k =>
      simp only [hk, bind, Except.bind, pure, Except.pure] at hs
      cases hs
      exact h.push fun g hg => by cases hg

theorem defineGroup (h : r.Unambiguous) (name parent : String) (op? : Option Operator)
    {overloads : List Signature} (ho : (overloads.map Signature.params).Nodup) :
    (r.defineGroup name parent op? overloads).2.Unambiguous := by
  have hle := le_of_sameBelow (sameBelow_defineGroup r name parent op? overloads)
  obtain ⟨g, hg, hm⟩ := offers_defineGroup r name parent op? overloads
  intro t k hk
  by_cases ht : t = (r.defineGroup name parent op? overloads).1
  · rw [ht, hg] at hk
    cases hk
    exact .of_offers hm ho
  · rw [group_eq_ok] at hk
    cases t with
    | derived i =>
      rw [get?_derived, getElem?_defineGroup] at hk
      split at hk
      · exact Distinct.mono hle (h (.derived i) k (group_eq_ok.2 hk))
      · split at hk
        · next hi => exact absurd (congrArg TypeId.derived hi) ht
        · obtain ⟨s, hs, he⟩ := Option.map_eq_some_iff.1 hk
          cases he
    | _ => simp [get?] at hk

end Unambiguous

end Registry

/-! What every compilation starts with -/

namespace Intrinsics

/-- The overloads of an operator take different types of operands. -/
theorem nodup_signatures (op : Operator) : ((signatures op).map Signature.params).Nodup := by
  cases op with
  | binary op => cases op <;> decide
  | unary op => cases op <;> decide
  | unassigned code => exact List.nodup_nil

theorem unambiguous_registerAll {r : Registry} (h : r.Unambiguous) (ops : List Operator) :
    (registerAll r ops).2.Unambiguous := by
  induction ops generalizing r with
  | nil => exact h
  | cons op rest ih => exact ih (h.defineGroup _ _ _ (nodup_signatures op))

end Intrinsics

namespace Library

theorem unambiguous_register {r : Registry} (h : r.Unambiguous) {g : LibraryGroup}
    (hg : (g.signatures.map Signature.params).Nodup) : (register r g).2.Unambiguous :=
  h.defineGroup g.name g.parent none hg

theorem unambiguous_registerAll {r : Registry} (h : r.Unambiguous) (gs : List LibraryGroup)
    (hgs : ∀ g ∈ gs, (g.signatures.map Signature.params).Nodup) :
    (registerAll r gs).2.Unambiguous := by
  induction gs generalizing r with
  | nil => exact h
  | cons g rest ih =>
    rw [List.forall_mem_cons] at hgs
    exact ih (unambiguous_register h hgs.1) hgs.2

theorem unambiguous_load {r : Registry} (h : r.Unambiguous) : (load r).2.Unambiguous := by
  have hplain := unambiguous_registerAll h plainGroups (by decide)
  unfold load
  generalize registerAll r plainGroups = p at *
  obtain ⟨plain, r₁⟩ := p
  have hconcat := unambiguous_register hplain (g := concatGroup) (by decide)
  dsimp only at *
  generalize register r₁ concatGroup = p at *
  obtain ⟨concat, r₂⟩ := p
  have hequals := unambiguous_register hconcat (g := equalsGroup) (by decide)
  dsimp only at *
  generalize register r₂ equalsGroup = p at *
  obtain ⟨equals, r₃⟩ := p
  have htoText := unambiguous_register hequals (g := toTextGroup) (by decide)
  dsimp only at *
  generalize register r₃ toTextGroup = p at *
  obtain ⟨toText, r₄⟩ := p
  have hparsers := unambiguous_registerAll htoText (parserGroups.map Prod.snd) (by decide)
  dsimp only at *
  generalize registerAll r₄ (parserGroups.map Prod.snd) = p at *
  exact hparsers

end Library

theorem Binder.unambiguous_initial : initial.registry.Unambiguous := by
  have hlibrary := Library.unambiguous_load Registry.Unambiguous.empty
  unfold initial
  generalize Library.load .empty = p at *
  obtain ⟨library, r⟩ := p
  have hoperators := Intrinsics.unambiguous_registerAll hlibrary Intrinsics.all
  unfold Intrinsics.load
  dsimp only at *
  generalize Intrinsics.registerAll r Intrinsics.all = q at *
  exact hoperators

end TypedScript
