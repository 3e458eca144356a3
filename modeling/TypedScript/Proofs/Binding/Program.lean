import TypedScript.Binding.Program
import TypedScript.Proofs.Binding.Stmt

/-!
# Programs are bound well typed

Imports and signatures make the registry grow, global variables the outermost scope, and each routine
is bound in a context of its own. Together with the statements this gives: binding a proper program
never fails, and the program that results makes sense.
-/

namespace TypedScript
namespace Binder

open TypedScript.Binding TypedScript.Bound

/-! Groups that the program makes. -/

theorem SoundTypes.size_le {r : Registry} {lenient : Prop} (h : SoundTypes r lenient) :
    initial.registry.entries.size ≤ r.entries.size :=
  Registry.size_le (Registry.le_of_sameBelow h.same)

theorem callable_push_group {r : Registry} {g : Overloads} {t : TypeId} {c : Callable}
    (hc : (r.push (.group g)).2.callable t = .ok c) : r.callable t = .ok c := by
  rw [Registry.callable_eq_ok] at hc ⊢
  cases t with
  | derived i =>
    rw [Registry.get?_derived, Registry.getElem?_push] at hc
    split at hc
    · cases hc
    · exact hc
  | _ => simp [Registry.get?] at hc

theorem SoundTypes.newGroup {r : Registry} {lenient : Prop} (h : SoundTypes r lenient)
    (name parent : String) : r ≤ (r.newGroup name parent).2 ∧
      SoundTypes (r.newGroup name parent).2 lenient ∧
      IsOwnGroup (r.newGroup name parent).2 (r.newGroup name parent).1 := by
  have hentry : ∀ i : Nat, (r.newGroup name parent).2.entries[i]? =
      if i = r.entries.size then some (.group ⟨name, parent, []⟩) else r.entries[i]? :=
    Registry.getElem?_push r _
  refine ⟨Registry.le_push _ _, ⟨h.wellFormed.push_group name parent,
    h.same.trans ((Registry.sameBelow_push _ _).mono h.size_le), ?_, ?_⟩, ?_⟩
  · rintro t g ⟨i, rfl, hi, -⟩ hg m hm c hc
    rw [Registry.group_eq_ok, Registry.get?_derived, hentry] at hg
    split at hg
    · cases hg
      simp at hm
    · exact h.routines ⟨i, rfl, hi, g, hg⟩ (Registry.group_eq_ok.2 hg) m hm c (callable_push_group hc)
  · exact fun hc he => h.errors (callable_push_group hc) he
  · exact ⟨r.entries.size, rfl, h.size_le, _, by rw [hentry, if_pos rfl]⟩

/-- A routine may join a group that the program made. -/
theorem SoundTypes.extendGroup {r : Registry} {lenient : Prop} (h : SoundTypes r lenient)
    {group m : TypeId} (hg : IsOwnGroup r group) {info : Callable} (hm : r.callable m = .ok info)
    (hop : info.op? = none) :
    r ≤ r.extendGroup group m ∧ SoundTypes (r.extendGroup group m) lenient := by
  obtain ⟨i, rfl, hi, g, hgi⟩ := hg
  refine ⟨Registry.le_extendGroup r i m, h.wellFormed.extendGroup i ⟨info, hm⟩,
    h.same.trans ((Registry.sameBelow_extendGroup r i m).mono hi), ?_, ?_⟩
  · rintro t k ⟨j, rfl, hj, -⟩ hk x hx c hc
    replace hc := Registry.callable_of_extendGroup hc
    rw [Registry.group_eq_ok, Registry.get?_derived, Registry.getElem?_extendGroup] at hk
    split at hk
    · next hij =>
      subst hij
      rw [hgi] at hk
      simp only [Option.map_some, TypeEntry.extended, Option.some.injEq, TypeEntry.group.injEq] at hk
      subst hk
      obtain hx | hx := List.mem_append.1 hx
      · exact h.routines ⟨i, rfl, hi, g, hgi⟩ (Registry.group_eq_ok.2 hgi) x hx c hc
      · rw [List.mem_singleton] at hx
        subst hx
        rw [hm] at hc
        cases hc
        exact hop
    · exact h.routines ⟨j, rfl, hj, k, hk⟩ (Registry.group_eq_ok.2 hk) x hx c hc
  · exact fun hc he => h.errors (Registry.callable_of_extendGroup hc) he

theorem SoundTypes.adopt {r : Registry} {lenient : Prop} (h : SoundTypes r lenient)
    {group m : TypeId} (hg : IsOwnGroup r group) {info : Callable} (hm : r.callable m = .ok info)
    (hop : info.op? = none) :
    ∃ r', r.adopt group m = .ok r' ∧ r ≤ r' ∧ SoundTypes r' lenient := by
  obtain ⟨g, hgroup⟩ := hg.group
  by_cases hc : g.members.contains m
  · refine ⟨r, ?_, le_refl r, h⟩
    simp only [Registry.adopt, hm, hgroup, bind, Except.bind, hc, if_true]
    rfl
  · obtain ⟨hle, hs⟩ := h.extendGroup hg hm hop
    refine ⟨_, ?_, hle, hs⟩
    simp only [Registry.adopt, hm, hgroup, bind, Except.bind, hc]
    rfl

theorem getElem?_push_size (r : Registry) (e : TypeEntry) :
    (r.push e).2.entries[r.entries.size]? = some e := by
  rw [Registry.getElem?_push, if_pos rfl]

/-- A function of the program joins its group. -/
theorem SoundTypes.addCallable {r : Registry} {lenient : Prop} (h : SoundTypes r lenient)
    {group : TypeId} (hg : IsOwnGroup r group) {result : TypeId} {params : List TypeId}
    (hr : r.IsType result ∧ (result = .error → lenient))
    (hp : ∀ p ∈ params, r.IsType p ∧ p ≠ .builtin .void ∧ (p = .error → lenient)) :
    ∃ t r', r.addCallable ⟨group, result, params, none⟩ = .ok (t, r') ∧ r ≤ r' ∧
      SoundTypes r' lenient ∧ r'.callable t = .ok ⟨group, result, params, none⟩ := by
  obtain ⟨g, hgroup⟩ := hg.group
  let c : Callable := ⟨group, result, params, none⟩
  have hle := Registry.le_push r (.callable c)
  have hcall : (r.push (.callable c)).2.callable (.derived r.entries.size) = .ok c := by
    rw [Registry.callable_eq_ok, Registry.get?_derived, getElem?_push_size]
  have hold : ∀ {t : TypeId} {d : Callable}, (r.push (.callable c)).2.callable t = .ok d →
      r.callable t = .ok d ∨ d = c := by
    intro t d hd
    rw [Registry.callable_eq_ok] at hd ⊢
    cases t with
    | derived i =>
      rw [Registry.get?_derived, Registry.getElem?_push] at hd
      split at hd
      · cases hd
        exact .inr rfl
      · exact .inl hd
    | _ => simp [Registry.get?] at hd
  have hpush : SoundTypes (r.push (.callable c)).2 lenient := by
    refine ⟨h.wellFormed.push_callable ⟨g, hgroup⟩ hr.1 fun p hpm => ⟨(hp p hpm).1, (hp p hpm).2.1⟩,
      h.same.trans ((Registry.sameBelow_push _ _).mono h.size_le), ?_, ?_⟩
    · rintro t k ⟨i, rfl, hi, -⟩ hk m hm d hd
      obtain hd | rfl := hold hd
      · rw [Registry.group_eq_ok, Registry.get?_derived, Registry.getElem?_push] at hk
        split at hk
        · cases hk
        · exact h.routines ⟨i, rfl, hi, k, hk⟩ (Registry.group_eq_ok.2 hk) m hm d hd
      · rfl
    · intro t d hd he
      obtain hd | rfl := hold hd
      · exact h.errors hd he
      · obtain he | he := he
        · exact hr.2 he
        · exact (hp _ he).2.2 rfl
  obtain ⟨hle', hs⟩ := hpush.extendGroup (hg.mono hle) hcall rfl
  refine ⟨.derived r.entries.size, _, ?_, le_trans hle hle', hs, Registry.callable_mono hle' hcall⟩
  simp only [Registry.addCallable, hgroup, bind, Except.bind]
  rfl

/-! Declarations outside of routines. -/

section

variable {params : List Symbol} {s : State}

theorem known_group {t : TypeId} (ht : IsOwnGroup s.registry t) {sym : Symbol}
    (hk : sym.kind = .overloads) (htype : sym.type = t) :
    ∀ s', Grows s s' → sym ∈ s'.scope.outermost.symbols → Known params s' sym := by
  intro s' hg _
  unfold Known
  rw [if_pos hk, htype]
  exact ht.mono hg.registry

variable (hs : Sound params s)
include hs

theorem Binds.forM {α : Type} {f : α → Binder Unit} {l : List α}
    (hf : ∀ a ∈ l, ∀ s', Sound params s' → Follows s s' → Binds params s' (f a) fun _ _ => True) :
    Binds params s (l.forM f) fun _ _ => True := by
  induction l generalizing s with
  | nil => exact Binds.pure hs trivial
  | cons a l ih =>
    refine Binds.bind (hf a (by simp) s hs (Follows.refl s)) ?_
    intro _ s1 hs1 hf1 _
    exact ih hs1 fun b hb s2 hs2 hf2 => hf b (by simp [hb]) s2 hs2 (hf1.trans hf2)

/-- Mapping a step over a list; what holds of a result must still hold later. -/
theorem Binds.mapM {α β : Type} {f : α → Binder β} {Q : β → Typing → Prop} {l : List α}
    (hQ : ∀ b (s1 s2 : State), Grows s1 s2 → Q b (typing params s1) → Q b (typing params s2))
    (hf : ∀ a ∈ l, ∀ s', Sound params s' → Follows s s' → Binds params s' (f a) Q) :
    Binds params s (l.mapM f) fun bs c => bs.length = l.length ∧ ∀ b ∈ bs, Q b c := by
  induction l generalizing s with
  | nil => exact Binds.pure hs ⟨rfl, by simp⟩
  | cons a l ih =>
    rw [List.mapM_cons]
    refine Binds.bind (hf a (by simp) s hs (Follows.refl s)) ?_
    intro b s1 hs1 hf1 hb
    refine Binds.bind (ih hs1 fun x hx s2 hs2 hf2 => hf x (by simp [hx]) s2 hs2 (hf1.trans hf2)) ?_
    rintro bs s2 hs2 hf2 ⟨hlen, hbs⟩
    refine Binds.pure hs2 ⟨by simp [hlen], fun x hx => ?_⟩
    obtain rfl | hx := List.mem_cons.1 hx
    · exact hQ _ s1 s2 hf2.toGrows hb
    · exact hbs x hx

theorem Binds.localGroup (htop : s.scope.inner = []) (name : String) (span : Span) :
    Binds params s (Binder.localGroup name span) fun o c =>
      ∀ group, o = some group → IsOwnGroup c.registry group := by
  unfold Binder.localGroup
  refine Binds.get_bind ?_
  split
  · next sym hfind =>
    have hk := hs.symbols sym (.inl (Frame.mem_of_find? hfind))
    unfold Known at hk
    split
    · next hkind =>
      rw [if_pos hkind] at hk
      exact Binds.pure hs (by rintro _ ⟨⟩; exact hk)
    · refine Binds.bind (Binds.complain hs _ _) ?_
      intro _ s1 hs1 _ _
      exact Binds.pure hs1 (by simp)
  · obtain ⟨hle, htypes, hown⟩ := hs.types.newGroup name ""
    refine Binds.bind (Binds.register hs (a := (s.registry.newGroup name "").1)
      (r := (s.registry.newGroup name "").2) rfl hle htypes
      (Q := fun t c => IsOwnGroup c.registry t) hown) ?_
    intro group s1 hs1 hf1 hg
    refine Binds.bind (Binds.newSymbol hs1 name .overloads group true) ?_
    rintro sym s2 hs2 hf2 ⟨n, rfl⟩
    have hg2 := IsOwnGroup.mono hf2.registry hg
    refine Binds.bind (Binds.declareGlobal hs2 (hf2.nests.top (hf1.nests.top htop).1).1
      (known_group hg2 rfl rfl) (by simp)) ?_
    intro _ s3 hs3 hf3 _
    exact Binds.pure hs3 (by rintro _ ⟨⟩; exact hg2.mono hf3.registry)

def IsRoutine (r : Registry) (t : TypeId) : Prop := ∃ info, r.callable t = .ok info ∧ info.op? = none

omit hs in
theorem IsRoutine.mono {r r' : Registry} (h : r ≤ r') {t : TypeId} (ht : IsRoutine r t) :
    IsRoutine r' t := by
  obtain ⟨info, hinfo, hop⟩ := ht
  exact ⟨info, Registry.callable_mono h hinfo, hop⟩

theorem Binds.adoptAll {group : TypeId} (hg : IsOwnGroup s.registry group) {ms : List TypeId}
    (hms : ∀ m ∈ ms, IsRoutine s.registry m) :
    Binds params s (Binder.adoptAll group ms) fun _ _ => True := by
  induction ms generalizing s with
  | nil => exact Binds.pure hs trivial
  | cons m ms ih =>
    obtain ⟨info, hinfo, hop⟩ := hms m (by simp)
    obtain ⟨r, hrun, hle, htypes⟩ := hs.types.adopt hg hinfo hop
    refine Binds.bind (Binds.register hs (a := ()) (r := r) ?_ hle htypes
      (Q := fun _ _ => True) trivial) ?_
    · simp only [hrun]
      rfl
    · intro _ s1 hs1 hf1 _
      exact ih hs1 (hg.mono hf1.registry) fun x hx => (hms x (by simp [hx])).mono hf1.registry

theorem Binds.matching (types : List TypeId) (result? : Option TypeId) {ms : List TypeId}
    (hms : ∀ m ∈ ms, IsRoutine s.registry m) :
    Binds params s (Binder.matching types result? ms) fun found c =>
      c.registry = s.registry ∧ ∀ m ∈ found, m ∈ ms := by
  induction ms with
  | nil => exact Binds.pure hs ⟨rfl, by simp⟩
  | cons m ms ih =>
    obtain ⟨info, hinfo, -⟩ := hms m (by simp)
    refine Binds.ask_bind hinfo ?_
    refine Binds.bind (ih fun x hx => hms x (by simp [hx])) ?_
    rintro found s1 hs1 hf1 ⟨hreg, hfound⟩
    split
    · refine Binds.pure hs1 ⟨hreg, fun x hx => ?_⟩
      obtain rfl | hx := List.mem_cons.1 hx
      · simp
      · simp [hfound x hx]
    · exact Binds.pure hs1 ⟨hreg, fun x hx => by simp [hfound x hx]⟩

theorem Binds.resolveTypes (ts : List Parsed.TypeName) :
    Binds params s (ts.mapM Binder.resolveType) fun us c => ∀ t ∈ us, c.registry.IsType t := by
  refine (Binds.mapM hs (Q := fun t c => c.registry.IsType t)
    (fun t _ _ hg ht => ht.mono hg.registry) fun t _ s1 hs1 _ => ?_).imp fun _ _ _ _ h => h.2
  refine (Binds.resolveType hs1 t).imp ?_
  rintro u s2 _ _ (h | rfl)
  · exact h.1
  · trivial

theorem Binds.importedOverloads (i : Parsed.Import) {group : TypeId} {g : LibraryGroup}
    (hg : Library.Holds s.registry g group) :
    Binds params s (Binder.importedOverloads i group) fun o c =>
      ∀ ms, o = some ms → ∀ m ∈ ms, IsRoutine c.registry m := by
  obtain ⟨k, hk, hmembers⟩ := hg.offers
  have hroutine : ∀ m ∈ k.members, IsRoutine s.registry m := by
    intro m hmem
    obtain ⟨sig, -, hc⟩ := Registry.exists_of_mem_left hmembers hmem
    exact ⟨_, hc, rfl⟩
  unfold Binder.importedOverloads
  refine Binds.ask_bind (Registry.members_eq_ok hk) ?_
  split
  · exact Binds.pure hs (by rintro _ ⟨⟩; exact hroutine)
  · refine Binds.bind (Binds.resolveTypes hs i.params) ?_
    intro types s1 hs1 hf1 htypes
    refine Binds.bind (Binds.mapOption hs1 (f := Binder.resolveType) (Q := fun _ _ => True)
      fun t _ => (Binds.resolveType hs1 t).imp fun _ _ _ _ _ => trivial) ?_
    intro result? s2 hs2 hf2 _
    refine Binds.bind (Binds.matching hs2 types result?
      fun m hmem => (hroutine m hmem).mono (hf1.trans hf2).registry) ?_
    rintro found s3 hs3 hf3 ⟨hreg, hfound⟩
    refine Binds.bind (Binds.joinNames hs3
      fun t ht => (htypes t ht).mono (hf2.trans hf3).registry) ?_
    intro _ s4 hs4 hf4 _
    have hf04 := ((hf1.trans hf2).trans hf3).trans hf4
    split
    · refine Binds.bind (Binds.complain hs4 _ _) ?_
      intro _ s5 hs5 _ _
      exact Binds.pure hs5 (by simp)
    · refine Binds.pure hs4 ?_
      rintro _ ⟨⟩ m hmem
      exact (hroutine m (hfound m hmem)).mono hf04.registry
    · refine Binds.bind (Binds.complain hs4 _ _) ?_
      intro _ s5 hs5 _ _
      exact Binds.pure hs5 (by simp)

omit hs in
/-- The fields of the library have values. -/
theorem known_field {field : LibraryField} (hfield : field ∈ Library.allFields) (n : Nat)
    (name : String) {s' : State} :
    Known params s'
      ⟨.declared n, name, .libraryField field.path, field.type, field.readonly⟩ := by
  unfold Known
  rw [if_neg (by simp)]
  have htype : field.type = .builtin .f64 := by
    simp only [Library.allFields, List.mem_singleton] at hfield
    rw [hfield]
  refine ⟨⟨hfield, ?_, ?_, ?_⟩, n, rfl⟩
  · rw [htype]
    trivial
  · simp [htype]
  · simp [htype]

theorem Binds.bindImport (htop : s.scope.inner = []) (i : Parsed.Import) :
    Binds params s (Binder.bindImport i) fun _ _ => True := by
  have hl := hs.loaded
  unfold Binder.bindImport
  refine Binds.get_bind ?_
  dsimp only
  split
  · next field hfield =>
    split
    · exact (Binds.complain hs _ _).imp fun _ _ _ _ _ => trivial
    · refine Binds.bind (Binds.newSymbol hs _ _ _ _) ?_
      rintro sym s1 hs1 hf1 ⟨n, rfl⟩
      have hmem : field ∈ Library.allFields := by
        rw [← hl.fields]
        exact List.mem_of_find?_eq_some hfield
      refine Binds.bind (Binds.declareGlobal hs1 (hf1.nests.top htop).1
        (fun s' _ _ => known_field hmem n _) (by simp)) ?_
      intro declared s2 hs2 _ _
      split
      · exact (Binds.complain hs2 _ _).imp fun _ _ _ _ _ => trivial
      · exact Binds.pure hs2 trivial
  · next group hnone hgroup =>
    obtain ⟨g, hg⟩ := hl.group hgroup
    refine Binds.bind (Binds.importedOverloads hs i hg) ?_
    intro o s1 hs1 hf1 ho
    cases o with
    | none => exact Binds.pure hs1 trivial
    | some ms =>
      refine Binds.bind (Binds.localGroup hs1 (hf1.nests.top htop).1 _ _) ?_
      intro own s2 hs2 hf2 hown
      cases own with
      | none => exact Binds.pure hs2 trivial
      | some own =>
        exact Binds.adoptAll hs2 (hown own rfl)
          fun m hm => (ho ms rfl m hm).mono hf2.registry
  · exact (Binds.complain hs _ _).imp fun _ _ _ _ _ => trivial

theorem Binds.hasOverload (types : List TypeId) {ms : List TypeId}
    (hms : ∀ m ∈ ms, ∃ info, s.registry.callable m = .ok info) :
    Binds params s (Binder.hasOverload types ms) fun _ c => c.registry = s.registry := by
  induction ms with
  | nil => exact Binds.pure hs rfl
  | cons m ms ih =>
    obtain ⟨info, hinfo⟩ := hms m (by simp)
    refine Binds.ask_bind hinfo ?_
    split
    · exact Binds.pure hs rfl
    · exact ih fun x hx => hms x (by simp [hx])

/-- A function whose signature is entered can be called with it. -/
structure Entered (c : Typing) (p : Pending) : Prop where
  callable : c.registry.Invokes p.callable ⟨p.result, p.params⟩
  length : p.params.length = p.function.params.length
  params : ∀ t ∈ p.params, IsDeclarable c t
  result : c.registry.IsType p.result ∧ (p.result = .error → c.lenient)

omit hs in
theorem Entered.mono {s' : State} (h : Grows s s') {p : Pending} (hp : Entered (typing params s) p) :
    Entered (typing params s') p :=
  ⟨hp.callable.mono h.registry, hp.length, fun t ht => (hp.params t ht).mono h,
    hp.result.1.mono h.registry, fun he => h.errors (hp.result.2 he)⟩

def declareTyped (f : Parsed.Function) (types : List TypeId) (result : TypeId) :
    Binder (Option Pending) := do
  let some group ← Binder.localGroup f.name f.span | return none
  if ← Binder.hasOverload types (← Binder.ask (·.members group)) then
    Binder.complain f.span (.functionDeclared f.name (← Binder.ask (·.joinNames types)))
    return none
  else
    let callable ← Binder.register (·.addCallable ⟨group, result, types, none⟩)
    return some ⟨f, callable, types, result⟩

theorem Binds.declareFunction (htop : s.scope.inner = []) (f : Parsed.Function) :
    Binds params s (Binder.declareFunction f) fun o c =>
      ∀ p, o = some p → p.function = f ∧ Entered c p := by
  unfold Binder.declareFunction
  refine Binds.bind (Binds.mapM hs (f := fun p : Parsed.Param => Binder.valueType p.type)
    (Q := fun t c => IsDeclarable c t) (fun t _ _ hg ht => ht.mono hg)
    fun p _ s1 hs1 _ => Binds.valueType hs1 p.type) ?_
  rintro types s1 hs1 hf1 ⟨hlen, htypes⟩
  have hrest : ∀ result s2, Sound params s2 → Follows s1 s2 →
      s2.registry.IsType result ∧ (result = .error → s2.report.hasErrors) →
      Binds params s2 (declareTyped f types result) fun o c =>
        ∀ p, o = some p → p.function = f ∧ Entered c p := by
    intro result s2 hs2 hf2 hresult
    refine Binds.bind (Binds.localGroup hs2 ((hf1.trans hf2).nests.top htop).1 _ _) ?_
    intro own s3 hs3 hf3 hown
    cases own with
    | none => exact Binds.pure hs3 (by simp)
    | some group =>
      have hg := hown group rfl
      obtain ⟨g, hgroup⟩ := hg.group
      refine Binds.ask_bind (Registry.members_eq_ok hgroup) ?_
      refine Binds.bind (Binds.hasOverload hs3 types (hs3.types.wellFormed.group_members hgroup)) ?_
      intro found s4 hs4 hf4 _
      have hf14 := (hf2.trans hf3).trans hf4
      have htypes4 : ∀ t ∈ types, IsDeclarable (typing params s4) t :=
        fun t ht => (htypes t ht).mono hf14.toGrows
      have hf24 := hf3.trans hf4
      cases found with
      | true =>
        refine Binds.bind (Binds.joinNames hs4 fun t ht => (htypes4 t ht).1) ?_
        intro _ s5 hs5 _ _
        refine Binds.bind (Binds.complain hs5 _ _) ?_
        intro _ s6 hs6 _ _
        exact Binds.pure hs6 (by simp)
      | false =>
        have hres4 : s4.registry.IsType result ∧ (result = .error → s4.report.hasErrors) :=
          ⟨hresult.1.mono hf24.registry, fun he => hf24.errors (hresult.2 he)⟩
        obtain ⟨t, r, hrun, hle, hsound, hcall⟩ :=
          hs4.types.addCallable (hg.mono hf4.registry) hres4 htypes4
        refine Binds.bind (Binds.register hs4 hrun hle hsound
          (Q := fun t c => c.registry.callable t = .ok ⟨group, result, types, none⟩) hcall) ?_
        intro callable s5 hs5 hf5 hc
        refine Binds.pure hs5 ?_
        rintro _ ⟨⟩
        exact ⟨rfl, ⟨group, hc⟩, hlen, fun t ht => (htypes4 t ht).mono hf5.toGrows,
          hres4.1.mono hf5.registry, fun he => hf5.errors (hres4.2 he)⟩
  cases hresult : f.result? with
  | none =>
    exact hrest (.builtin .void) s1 hs1 (Follows.refl s1) ⟨trivial, by simp⟩
  | some t =>
    refine Binds.bind (Binds.resolveType hs1 t) ?_
    rintro result s2 hs2 hf2 (h | rfl)
    · exact hrest result s2 hs2 hf2 ⟨h.1, h.2.2⟩
    · exact hrest (.builtin .void) s2 hs2 hf2 ⟨trivial, by simp⟩

end

end Binder
end TypedScript
