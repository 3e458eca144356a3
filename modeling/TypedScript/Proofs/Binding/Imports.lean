import TypedScript.Proofs.Binding.Reports
import TypedScript.Proofs.Binding.Routine
import TypedScript.Proofs.Binding.Scoping
import TypedScript.Proofs.Types.Distinct

/-!
# Overloads after imports and signatures

Imports bring routines of the library into groups of the program, whole groups or single overloads,
in any order and as often as one likes. All routines under one name come from one group of the
library, since no two of its groups agree in the last part of their names. Functions join a group only
with a new list of parameters. So behind all declarations no two members of a group take the same
parameters, and a call with exactly the types of a member's parameters means that member.
-/

namespace TypedScript

def ending (name : String) : List Char := name.toList.reverse.takeWhile (· ≠ '.')

theorem ending_append (first rest : String) : ending (first ++ "." ++ rest) = ending rest := by
  have htake : ∀ xs ys : List Char,
      (xs ++ '.' :: ys).takeWhile (· ≠ '.') = xs.takeWhile (· ≠ '.') := by
    intro xs ys
    induction xs with
    | nil => simp
    | cons x xs ih => by_cases hx : x = '.' <;> simp_all
  simpa [ending] using htake rest.toList.reverse first.toList.reverse

/-- An import is known by the last part of the name of what it brings in. -/
theorem Parsed.Import.ending_qualified (i : Parsed.Import) :
    ending i.qualified = ending i.localName := by
  unfold Import.qualified Import.localName
  induction i.path with
  | nil => rfl
  | cons first rest ih =>
    cases rest with
    | nil => simp
    | cons second rest =>
      rw [String.intercalate_cons_cons, ending_append, ih]
      simp

namespace Binder

open TypedScript.Binding

/-- The groups of the library are told apart by the last parts of their names. -/
theorem nodup_endings : (initial.library.groups.map fun g => ending g.1).Nodup := by
  decide +kernel

theorem group?_eq_of_ending {p q : String} {t u : TypeId}
    (ht : initial.library.group? p = some t) (hu : initial.library.group? q = some u)
    (h : ending p = ending q) : t = u := by
  obtain ⟨a, ha, rfl⟩ := Option.map_eq_some_iff.1 ht
  obtain ⟨b, hb, rfl⟩ := Option.map_eq_some_iff.1 hu
  have hap : a.1 = p := by simpa using List.find?_some ha
  have hbq : b.1 = q := by simpa using List.find?_some hb
  have hab := List.inj_on_of_nodup_map nodup_endings (List.mem_of_find?_eq_some ha)
    (List.mem_of_find?_eq_some hb) (by rw [hap, hbq, h])
  rw [hab]

def IsLibraryRoutine (name : String) (m : TypeId) : Prop :=
  ∃ path t g, initial.library.group? path = some t ∧ ending path = ending name ∧
    initial.registry.group t = .ok g ∧ m ∈ g.members

/-- The states while imports are entered: the groups that the program made hold routines of the
library, none of them twice and all known by the name of the group. -/
structure Imported (s : State) : Prop where
  library : s.library = initial.library
  same : Registry.SameBelow initial.registry.entries.size initial.registry s.registry
  named : ∀ sym ∈ s.scope.outermost.symbols, sym.kind = .overloads →
    ∃ i g, sym.type = .derived i ∧ initial.registry.entries.size ≤ i ∧
      s.registry.entries[i]? = some (.group g) ∧ g.name = sym.name
  routines : ∀ i g, initial.registry.entries.size ≤ i → s.registry.entries[i]? = some (.group g) →
    g.members.Nodup ∧ ∀ m ∈ g.members, IsLibraryRoutine g.name m

theorem imported_initial : Imported initial where
  library := rfl
  same := fun _ _ => rfl
  named := by simp [initial, Scope.empty]
  routines := fun i g hi hg => by simp [Array.getElem?_eq_none hi] at hg

section

variable {s s' : State}

theorem Imported.size_le (h : Imported s) :
    initial.registry.entries.size ≤ s.registry.entries.size :=
  Registry.size_le (Registry.le_of_sameBelow h.same)

/-- Only the groups of the registry matter. -/
theorem Imported.withRegistry (h : Imported s) {r : Registry}
    (hsame : Registry.SameBelow initial.registry.entries.size initial.registry r)
    (hkeep : ∀ (i : Nat) (g : Overloads), s.registry.entries[i]? = some (.group g) →
      ∃ k, r.entries[i]? = some (.group k) ∧ k.name = g.name)
    (hnew : ∀ (i : Nat) (g : Overloads), initial.registry.entries.size ≤ i → r.entries[i]? = some (.group g) →
      g.members.Nodup ∧ ∀ m ∈ g.members, IsLibraryRoutine g.name m) :
    Imported { s with registry := r } := by
  refine ⟨h.library, hsame, fun sym hsym hkind => ?_, hnew⟩
  obtain ⟨i, g, ht, hi, hg, hname⟩ := h.named sym hsym hkind
  obtain ⟨k, hk, hkname⟩ := hkeep i g hg
  exact ⟨i, k, ht, hi, hk, hkname.trans hname⟩

theorem Imported.push (h : Imported s) {e : TypeEntry} (he : ∀ g, e = .group g → g.members = []) :
    Imported { s with registry := (s.registry.push e).2 } := by
  refine h.withRegistry (h.same.trans ((Registry.sameBelow_push _ _).mono h.size_le)) ?_ ?_
  · intro i g hg
    refine ⟨g, ?_, rfl⟩
    have hi : i < s.registry.entries.size := (Array.getElem?_eq_some_iff.1 hg).1
    rw [Registry.getElem?_push, if_neg (Nat.ne_of_lt hi), hg]
  · intro i g hi hg
    rw [Registry.getElem?_push] at hg
    split at hg
    · rw [he g (Option.some.inj hg)]
      exact ⟨List.nodup_nil, by simp⟩
    · exact h.routines i g hi hg

/-- A routine joins the group that bears its name. -/
theorem Imported.adopt (h : Imported s) {i : Nat} {g : Overloads} {m : TypeId} {r : Registry}
    (hi : initial.registry.entries.size ≤ i) (hg : s.registry.entries[i]? = some (.group g))
    (hm : IsLibraryRoutine g.name m) (hr : s.registry.adopt (.derived i) m = .ok r) :
    Imported { s with registry := r } ∧ ∃ k, r.entries[i]? = some (.group k) ∧ k.name = g.name := by
  unfold Registry.adopt at hr
  rw [show s.registry.group (.derived i) = .ok g from Registry.group_eq_ok.2 hg] at hr
  cases hc : s.registry.callable m with
  | error d => simp [hc, Bind.bind, Except.bind] at hr
  | ok c =>
    simp only [hc, Bind.bind, Except.bind, Pure.pure, Except.pure] at hr
    split at hr
    · cases hr
      exact ⟨h, g, hg, rfl⟩
    · next hnew =>
      cases hr
      have hentry := Registry.getElem?_extendGroup s.registry i m
      refine ⟨h.withRegistry (h.same.trans ((Registry.sameBelow_extendGroup _ _ _).mono hi)) ?_ ?_,
        { g with members := g.members ++ [m] }, by rw [hentry, if_pos rfl, hg]; rfl, rfl⟩
      · intro j k hk
        rw [hentry]
        split
        · rw [hk]
          exact ⟨_, rfl, rfl⟩
        · exact ⟨k, hk, rfl⟩
      · intro j k hj hk
        rw [hentry] at hk
        split at hk
        · next hij =>
          subst hij
          rw [hg] at hk
          cases hk
          obtain ⟨hnodup, hroutines⟩ := h.routines i g hi hg
          refine ⟨hnodup.append (List.nodup_singleton m) (by simpa using hnew), fun n hn => ?_⟩
          obtain hn | hn := List.mem_append.1 hn
          · exact hroutines n hn
          · rwa [List.mem_singleton.1 hn]
        · exact h.routines j k hj hk

instance : Stable Imported where
  report _ h := ⟨h.library, h.same, h.named, h.routines⟩
  reads _ h := ⟨h.library, h.same, h.named, h.routines⟩
  registry hr h := by
    obtain ⟨i, -, -, rfl⟩ | ⟨-, -, -, rfl⟩ := Registry.arrayOf_eq_ok hr
    · exact h
    · exact h.push fun g hg => by cases hg

theorem declareGlobal_eq_ok {sym : Symbol} {declared : Bool}
    (h : declareGlobal sym s = .ok (declared, s')) :
    ∃ scope, s' = { s with scope } ∧
      ∀ a ∈ scope.outermost.symbols, a ∈ s.scope.outermost.symbols ∨ a = sym := by
  rw [run_declareGlobal] at h
  cases hd : s.scope.declareGlobal? sym with
  | none =>
    rw [hd] at h
    cases h
    exact ⟨s.scope, rfl, fun _ ha => .inl ha⟩
  | some scope =>
    rw [hd] at h
    cases h
    refine ⟨scope, rfl, fun a ha => ?_⟩
    rw [(declareGlobal?_eq_some hd).1] at ha
    exact (List.mem_cons.1 ha).symm

/-- A group is found by its name, or made and declared. -/
theorem localGroup_eq_ok {name : String} {span : Span} {o : Option TypeId}
    (h : localGroup name span s = .ok (o, s')) :
    s'.library = s.library ∧
      (s'.registry = s.registry ∧ s'.scope = s.scope ∧
          (∀ t, o = some t → ∃ sym ∈ s.scope.outermost.symbols,
            sym.name = name ∧ sym.kind = .overloads ∧ sym.type = t) ∨
        s'.registry = (s.registry.newGroup name "").2 ∧ o = some (s.registry.newGroup name "").1 ∧
          ∀ sym ∈ s'.scope.outermost.symbols, sym ∈ s.scope.outermost.symbols ∨
            sym.name = name ∧ sym.type = (s.registry.newGroup name "").1) := by
  obtain ⟨_, _, hget, h⟩ := bind_eq_ok h
  cases hget
  cases hfind : s.scope.outermost.find? name with
  | some sym =>
    simp only [hfind] at h
    split at h
    · next hkind =>
      cases h
      refine ⟨rfl, .inl ⟨rfl, rfl, ?_⟩⟩
      rintro _ ⟨⟩
      exact ⟨sym, List.mem_of_find?_eq_some hfind, by simpa using List.find?_some hfind, hkind, rfl⟩
    · obtain ⟨_, _, hcomplain, h⟩ := bind_eq_ok h
      cases hcomplain
      cases h
      exact ⟨rfl, .inl ⟨rfl, rfl, by simp⟩⟩
  | none =>
    simp only [hfind] at h
    obtain ⟨group, s₁, hgroup, h⟩ := bind_eq_ok h
    obtain ⟨r, hr, rfl⟩ := Tells.register_eq_ok hgroup
    cases hr
    obtain ⟨sym, s₂, hsym, h⟩ := bind_eq_ok h
    cases hsym
    obtain ⟨declared, s₃, hdeclare, h⟩ := bind_eq_ok h
    obtain ⟨scope, rfl, hscope⟩ := declareGlobal_eq_ok hdeclare
    cases h
    refine ⟨rfl, .inr ⟨rfl, rfl, fun sym hsym => ?_⟩⟩
    obtain hsym | rfl := hscope sym hsym
    · exact .inl hsym
    · exact .inr ⟨rfl, rfl⟩

theorem Imported.localGroup (h : Imported s) {name : String} {span : Span} {o : Option TypeId}
    (hrun : Binder.localGroup name span s = .ok (o, s')) :
    Imported s' ∧ ∀ t, o = some t → ∃ i g, t = .derived i ∧ initial.registry.entries.size ≤ i ∧
      s'.registry.entries[i]? = some (.group g) ∧ g.name = name := by
  obtain ⟨hlibrary, ⟨hr, hscope, ho⟩ | ⟨hr, ho, hsyms⟩⟩ := localGroup_eq_ok hrun
  · refine ⟨⟨hlibrary.trans h.library, by rw [hr]; exact h.same, by rw [hr, hscope]; exact h.named,
      by rw [hr]; exact h.routines⟩, fun t ht => ?_⟩
    obtain ⟨sym, hsym, rfl, hkind, rfl⟩ := ho t ht
    rw [hr]
    exact h.named sym hsym hkind
  · have hpush := h.push (e := .group ⟨name, "", []⟩) (by rintro _ ⟨⟩; rfl)
    have hnew : s'.registry.entries[s.registry.entries.size]? = some (.group ⟨name, "", []⟩) := by
      rw [hr]
      exact getElem?_push_size _ _
    refine ⟨⟨hlibrary.trans h.library, by rw [hr]; exact hpush.same, fun sym hsym hkind => ?_,
      by rw [hr]; exact hpush.routines⟩, fun t ht => ?_⟩
    · obtain hold | ⟨hname, htype⟩ := hsyms sym hsym
      · rw [hr]
        exact hpush.named sym hold hkind
      · exact ⟨_, _, htype, h.size_le, hnew, hname.symm⟩
    · rw [ho] at ht
      cases ht
      exact ⟨_, _, rfl, h.size_le, hnew, rfl⟩

theorem Imported.adoptAll {ms : List TypeId} {i : Nat} {g : Overloads} (h : Imported s)
    (hi : initial.registry.entries.size ≤ i) (hg : s.registry.entries[i]? = some (.group g))
    (hms : ∀ m ∈ ms, IsLibraryRoutine g.name m)
    (hrun : Binder.adoptAll (.derived i) ms s = .ok ((), s')) : Imported s' := by
  induction ms generalizing s g with
  | nil =>
    cases hrun
    exact h
  | cons m ms ih =>
    rw [List.forall_mem_cons] at hms
    obtain ⟨_, s₁, hadopt, hrun⟩ := bind_eq_ok hrun
    obtain ⟨r, hr, rfl⟩ := Tells.register_eq_ok hadopt
    cases hr' : s.registry.adopt (.derived i) m with
    | error d => simp [hr', Bind.bind, Except.bind] at hr
    | ok r' =>
      simp only [hr', Bind.bind, Except.bind] at hr
      cases hr
      obtain ⟨hs, k, hk, hname⟩ := h.adopt hi hg hms.1 hr'
      exact ih hs hk (by rw [hname]; exact hms.2) hrun

theorem Preserves.matching {I : State → Prop} (params : List TypeId) (result? : Option TypeId)
    (ms : List TypeId) :
    Preserves I (Binder.matching params result? ms) fun found => ∀ m ∈ found, m ∈ ms := by
  induction ms with
  | nil => exact Preserves.pure (by simp)
  | cons c rest ih =>
    refine Preserves.bind (Preserves.ask _) fun info _ => Preserves.bind ih fun found hfound => ?_
    split
    · refine Preserves.pure (List.forall_mem_cons.2 ⟨by simp, fun m hm => ?_⟩)
      exact List.mem_cons_of_mem _ (hfound m hm)
    · exact Preserves.pure fun m hm => List.mem_cons_of_mem _ (hfound m hm)

/-- An import brings in members of its group. -/
theorem preserves_importedOverloads (i : Parsed.Import) {t : TypeId} {g : Overloads}
    (hg : initial.registry.group t = .ok g) :
    Preserves Imported (importedOverloads i t) fun o => ∀ ms, o = some ms → ∀ m ∈ ms, m ∈ g.members := by
  have hmembers : Preserves Imported (ask (·.members t)) fun ms => ms = g.members := by
    intro s ms s' hs hrun
    obtain ⟨hms, rfl⟩ := Tells.ask_eq_ok hrun
    have hsame := Registry.group_eq_ok.2 (Registry.get?_of_sameBelow hs.same (Registry.group_eq_ok.1 hg))
    rw [Registry.members_eq_ok hsame] at hms
    exact ⟨hs, (Except.ok.inj hms).symm⟩
  unfold importedOverloads
  refine Preserves.bind hmembers ?_
  rintro _ rfl
  split
  · exact Preserves.pure (by rintro _ ⟨⟩ m hm; exact hm)
  · refine Preserves.bind (preserves_mapM (fun t => Preserves.resolveType t) _) fun params _ => ?_
    refine Preserves.bind (preserves_option (fun t => Preserves.resolveType t) _) fun result? _ => ?_
    refine Preserves.bind (Preserves.matching _ _ _) fun found hfound => ?_
    refine Preserves.bind (Preserves.ask _) fun _ _ => ?_
    split
    · exact Preserves.bind (Preserves.complain _ _) fun _ _ => Preserves.pure (by simp)
    · exact Preserves.pure (by rintro _ ⟨⟩; exact hfound)
    · exact Preserves.bind (Preserves.complain _ _) fun _ _ => Preserves.pure (by simp)

theorem preserves_bindImport (i : Parsed.Import) :
    Preserves Imported (bindImport i) fun _ => True := by
  intro s _ s' hs hrun
  refine ⟨?_, trivial⟩
  obtain ⟨_, _, hget, hrun⟩ := bind_eq_ok hrun
  cases hget
  dsimp only at hrun
  cases hfield : s.library.field? i.qualified with
  | some field =>
    simp only [hfield] at hrun
    split at hrun
    · exact (Preserves.complain _ _ s _ s' hs hrun).1
    · obtain ⟨sym, s₁, hsym, hrun⟩ := bind_eq_ok hrun
      cases hsym
      obtain ⟨declared, s₂, hdeclare, hrun⟩ := bind_eq_ok hrun
      have hs₂ : Imported s₂ := by
        obtain ⟨scope, rfl, hscope⟩ := declareGlobal_eq_ok hdeclare
        refine ⟨hs.library, hs.same, fun a ha hkind => ?_, hs.routines⟩
        obtain ha | rfl := hscope a ha
        · exact hs.named a ha hkind
        · cases hkind
      split at hrun
      · exact (Preserves.complain _ _ s₂ _ s' hs₂ hrun).1
      · cases hrun
        exact hs₂
  | none =>
    cases hgroup : s.library.group? i.qualified with
    | none =>
      simp only [hfield, hgroup] at hrun
      exact (Preserves.complain _ _ s _ s' hs hrun).1
    | some t =>
      simp only [hfield, hgroup] at hrun
      rw [hs.library] at hgroup
      obtain ⟨k, ⟨⟨g, hg, -⟩, -⟩⟩ := initial_spec.2.1.group hgroup
      obtain ⟨members?, s₁, hmembers, hrun⟩ := bind_eq_ok hrun
      obtain ⟨hs₁, hmem⟩ := preserves_importedOverloads i hg s _ s₁ hs hmembers
      cases members? with
      | none =>
        cases hrun
        exact hs₁
      | some members =>
        obtain ⟨own?, s₂, hown, hrun⟩ := bind_eq_ok hrun
        obtain ⟨hs₂, hgroup₂⟩ := hs₁.localGroup hown
        cases own? with
        | none =>
          cases hrun
          exact hs₂
        | some own =>
          obtain ⟨j, k, rfl, hj, hk, hname⟩ := hgroup₂ own rfl
          refine hs₂.adoptAll hj hk (fun m hm => ?_) hrun
          exact ⟨i.qualified, t, g, hgroup, by rw [hname, i.ending_qualified], hg, hmem _ rfl m hm⟩

/-- All routines in a group come from one group of the library, where no two take the same
parameters. -/
theorem Imported.unambiguous (h : Imported s) : s.registry.Unambiguous := by
  have hle := Registry.le_of_sameBelow h.same
  intro t g hg
  rw [Registry.group_eq_ok] at hg
  cases t with
  | derived i =>
    by_cases hi : i < initial.registry.entries.size
    · refine Registry.Distinct.mono hle (unambiguous_initial (.derived i) g (Registry.group_eq_ok.2 ?_))
      rw [← hg, Registry.get?_derived, Registry.get?_derived, h.same i hi]
    · obtain ⟨hnodup, hroutines⟩ := h.routines i g (Nat.le_of_not_lt hi) hg
      have hcallable : ∀ m ∈ g.members, ∃ c, initial.registry.callable m = .ok c := by
        intro m hm
        obtain ⟨path, t, k, -, -, hk, hmk⟩ := hroutines m hm
        exact (unambiguous_initial t k hk).callable hmk
      have hsame : ∀ m ∈ g.members, ∀ c, s.registry.callable m = .ok c →
          initial.registry.callable m = .ok c := by
        intro m hm c hc
        obtain ⟨d, hd⟩ := hcallable m hm
        obtain rfl := Except.ok.inj (hc.symm.trans (Registry.callable_mono hle hd))
        exact hd
      refine .of_nodup hnodup (fun m hm => ?_) fun m hm n hn c d hc hd he => ?_
      · obtain ⟨c, hc⟩ := hcallable m hm
        exact ⟨c, Registry.callable_mono hle hc⟩
      · obtain ⟨p, t, k, hp, hpg, hk, hmk⟩ := hroutines m hm
        obtain ⟨q, u, l, hq, hqg, hl, hnl⟩ := hroutines n hn
        obtain rfl := group?_eq_of_ending hp hq (hpg.trans hqg.symm)
        rw [hk] at hl
        cases hl
        exact (unambiguous_initial t k hk).eq_of_params_eq hmk hnl (hsame m hm c hc) (hsame n hn d hd) he
  | _ => simp [Registry.get?] at hg

/-! Signatures of functions -/

/-- No group of the registry has two members with the same parameters. -/
def Settled (s : State) : Prop := s.registry.Unambiguous

instance : Stable Settled where
  report _ h := h
  reads _ h := h
  registry hr h := h.arrayOf hr

theorem preserves_localGroup (name : String) (span : Span) :
    Preserves Settled (localGroup name span) fun _ => True := by
  intro s o s' hs hrun
  refine ⟨?_, trivial⟩
  unfold Settled
  obtain ⟨-, ⟨hr, -⟩ | ⟨hr, -⟩⟩ := localGroup_eq_ok hrun
  · rw [hr]
    exact hs
  · rw [hr]
    exact hs.push (by rintro _ ⟨⟩; rfl)

theorem hasOverload_eq_ok {params ms : List TypeId} {found : Bool}
    (h : hasOverload params ms s = .ok (found, s')) :
    s' = s ∧ (found = false → ∀ m ∈ ms, ∀ c, s.registry.callable m = .ok c → c.params ≠ params) := by
  induction ms with
  | nil =>
    cases h
    exact ⟨rfl, by simp⟩
  | cons m ms ih =>
    obtain ⟨c, s₁, hask, hrest⟩ := bind_eq_ok h
    obtain ⟨hc, rfl⟩ := Tells.ask_eq_ok hask
    split at hrest
    · cases hrest
      exact ⟨rfl, by simp⟩
    · next hne =>
      obtain ⟨rfl, hms⟩ := ih hrest
      refine ⟨rfl, fun hf => List.forall_mem_cons.2 ⟨fun d hd => ?_, hms hf⟩⟩
      rw [hc] at hd
      cases hd
      exact hne

/-- A function joins its group only with a new list of parameters. -/
theorem preserves_declareFunction (f : Parsed.Function) :
    Preserves Settled (declareFunction f) fun _ => True := by
  have hrest : ∀ types result, Preserves Settled (declareTyped f types result) fun _ => True := by
    intro types result
    refine Preserves.bind (preserves_localGroup _ _) fun group? _ => ?_
    cases group? with
    | none => exact Preserves.pure trivial
    | some group =>
      intro s p? s' hs hrun
      refine ⟨?_, trivial⟩
      obtain ⟨members, s₁, hask, hrun₁⟩ := bind_eq_ok hrun
      obtain ⟨hmembers, rfl⟩ := Tells.ask_eq_ok hask
      obtain ⟨taken, s₂, htaken, hrun₂⟩ := bind_eq_ok hrun₁
      obtain ⟨rfl, hnew⟩ := hasOverload_eq_ok htaken
      cases taken with
      | true =>
        have hreject : Preserves Settled (do
            complain f.span (.functionDeclared f.name (← ask (·.joinNames types)))
            return (none : Option Pending)) fun _ => True :=
          Preserves.bind (Preserves.ask _) fun _ _ =>
            Preserves.bind (Preserves.complain _ _) fun _ _ => Preserves.pure trivial
        exact (hreject _ _ s' hs hrun₂).1
      | false =>
        obtain ⟨callable, s₃, hadd, hpure⟩ := bind_eq_ok hrun₂
        obtain ⟨r, hr, rfl⟩ := Tells.register_eq_ok hadd
        cases hpure
        obtain ⟨g, hg, rfl⟩ := Registry.group_of_members hmembers
        exact hs.addCallable (c := ⟨group, result, types, none⟩) hg (hnew rfl) hr
  unfold declareFunction
  refine Preserves.bind (preserves_mapM (fun p : Parsed.Param => Preserves.valueType p.type) _) ?_
  intro types _
  cases f.result? with
  | none => exact hrest types (.builtin .void)
  | some t => exact Preserves.bind (Preserves.resolveType t) fun result _ => hrest types result

theorem preserves_filterMapM {I : State → Prop} {α β : Type} {f : α → Binder (Option β)}
    (hf : ∀ a, Preserves I (f a) fun _ => True) (as : List α) :
    Preserves I (as.filterMapM f) fun _ => True := by
  induction as with
  | nil => exact Preserves.pure trivial
  | cons a rest ih =>
    rw [List.filterMapM_cons]
    refine Preserves.bind (hf a) fun b? _ => ?_
    cases b? with
    | none => exact ih
    | some b => exact Preserves.bind ih fun _ _ => Preserves.pure trivial

end

/-- Where groups of overloads are found: under a name of the global scope, for an operator, or in the
library. -/
inductive Reaches (s : State) : TypeId → Prop
  | declared {sym : Symbol} (hsym : sym ∈ s.scope.outermost.symbols) (hkind : sym.kind = .overloads) :
      Reaches s sym.type
  | operator {op : Operator} (hop : op ∈ Intrinsics.all) : Reaches s (s.intrinsics.group op)
  | library {path : String} {t : TypeId} (ht : s.library.group? path = some t) : Reaches s t

theorem Sound.group {params : List Symbol} {s : State} (hs : Sound params s) {t : TypeId}
    (h : Reaches s t) : ∃ g, s.registry.group t = .ok g := by
  obtain ⟨-, hloaded, hoperators⟩ := initial_spec
  have hle := Registry.le_of_sameBelow hs.types.same
  cases h with
  | @declared sym hsym hkind =>
    have hknown := hs.symbols sym (.inl hsym)
    unfold Known at hknown
    rw [if_pos hkind] at hknown
    exact hknown.group
  | @operator op hop =>
    obtain ⟨g, hg, -⟩ := hoperators op hop
    rw [hs.intrinsics]
    exact Registry.group_mono_ok hle ⟨g, hg⟩
  | library ht =>
    rw [hs.library] at ht
    obtain ⟨k, ⟨⟨g, hg, -⟩, -⟩⟩ := hloaded.group ht
    exact Registry.group_mono_ok hle ⟨g, hg⟩

/-- For every source file imports and signatures are entered, and behind them no two members of a group
take the same parameters, whether the group is known by a name, belongs to an operator or stands in
the library. So arguments of exactly the types that a member takes choose this member, also when
array types have been added. -/
theorem exact_match_wins (file : Parsed.File) :
    ∃ pending s, (do
        file.imports.forM bindImport
        file.functions.filterMapM declareFunction : Binder (List Pending)) initial = .ok (pending, s) ∧
      ∀ t, Reaches s t → ∃ g, s.registry.group t = .ok g ∧
        (∃ cs, List.Forall₂ (fun m c => s.registry.callable m = .ok c) g.members cs ∧
          (cs.map Callable.params).Nodup) ∧
        ∀ m ∈ g.members, ∀ c, s.registry.callable m = .ok c → ∀ r, s.registry.AddsArrays r →
          r.resolve t c.params = .ok (.resolved m) := by
  obtain ⟨_, s₁, hrun₁, hs₁, hf₁, -⟩ := Binds.forM sound_initial (f := bindImport)
    (l := file.imports) fun i _ s hs hf => Binds.bindImport hs (hf.nests.top rfl).1 i
  have htop := (hf₁.nests.top rfl).1
  obtain ⟨pending, s₂, hrun₂, hs₂, -, -⟩ := Binds.filterMapM hs₁ (f := declareFunction)
    (l := file.functions) (Q := fun _ _ => True) (fun _ _ _ _ _ => trivial) fun f _ s hs hf =>
      (Binds.declareFunction hs (hf.nests.top htop).1 f).imp fun _ _ _ _ _ _ _ => trivial
  have himported : Imported s₁ :=
    (preserves_forM preserves_bindImport file.imports _ _ s₁ imported_initial hrun₁).1
  have hsettled : Settled s₂ :=
    (preserves_filterMapM preserves_declareFunction file.functions _ _ s₂ himported.unambiguous
      hrun₂).1
  refine ⟨pending, s₂, by rw [run_bind hrun₁, hrun₂], fun t ht => ?_⟩
  obtain ⟨g, hg⟩ := hs₂.group ht
  have hwf := hs₂.types.wellFormed
  refine ⟨g, hg, hsettled t g hg, fun m hm c hc r hr => ?_⟩
  have hargs : List.Forall₂ (Registry.Agree s₂.registry s₂.registry r) c.params c.params :=
    List.forall₂_same.2 fun p hp => .old (hwf.callable_params hc p hp).1.isOld
  rw [← Registry.resolve_eq (.refl _) hr hwf (Registry.isOld_of_group hg) hargs]
  exact (hsettled t g hg).resolve_eq hwf hg hm hc

end Binder
end TypedScript
