import TypedScript.Proofs.Image.RoundTrip
import TypedScript.Proofs.Machine.Reuse
import TypedScript.Proofs.Machine.Tables

/-!
# Running modules of any origin

An image may hold any module. Loading checks the natives and the operands, and a module in which a
method is missing does not get through. The indexes of the initializer and of the entry point are not
looked at before they are used: a run begins with methods that are there, or crashes where there are
none.
-/

namespace TypedScript

theorem mapM_ne_error {α β ε : Type} {f : α → Except ε β} {e : ε} (h : ∀ a, f a ≠ .error e)
    (xs : List α) : xs.mapM f ≠ .error e := by
  induction xs with
  | nil => exact fun h => by cases h
  | cons x rest ih =>
    rw [List.mapM_cons]
    have hx := h x
    cases hfirst : f x with
    | error e' =>
      rw [hfirst] at hx
      exact fun h => hx (congrArg _ (Except.error.inj h))
    | ok y =>
      cases hrest : rest.mapM f with
      | error e' =>
        rw [hrest] at ih
        exact fun h => ih (congrArg _ (Except.error.inj h))
      | ok ys => exact fun h => by cases h

/-- The module of an image has the identifier of its content, whatever the codec. -/
theorem ImageCodec.contentId_of_ofImage {c : ImageCodec} {M : Module} {bytes : List UInt8}
    (h : c.ofImage bytes = .ok M) : M.id.isEmpty = false ∧ c.contentId M = M.id := by
  unfold ofImage at h
  split at h
  · cases h
  split at h
  · cases h
  split at h
  · cases h
  · next hempty =>
    split at h
    · cases h
    · next hid =>
      obtain rfl := Except.ok.inj h
      exact ⟨by simpa using hempty, not_ne_iff.mp hid⟩

namespace Module

variable {M : Module}

/-- The first of the methods that does not pass is missing. -/
def Incomplete (M : Module) (ms : List (Option Method)) : Prop :=
  ∃ before after, ms = before ++ none :: after ∧
    ∀ f? ∈ before, ∃ f, f? = some f ∧ ∀ i ∈ f.code, M.inRange f i

theorem checkMethods_eq_missing (index : Nat) {ms : List (Option Method)} :
    M.checkMethods index ms = .error .missingMethod ↔ M.Incomplete ms := by
  induction ms generalizing index with
  | nil => simp [checkMethods, Incomplete]
  | cons f? rest ih =>
    cases f? with
    | none => exact iff_of_true rfl ⟨[], rest, rfl, by simp⟩
    | some f =>
      rw [checkMethods]
      cases hbad : M.badOperand? f with
      | none =>
        have hrange := badOperand?_eq_none.mp hbad
        refine (ih _).trans ⟨?_, ?_⟩
        · rintro ⟨before, after, rfl, hbefore⟩
          exact ⟨some f :: before, after, rfl, List.forall_mem_cons.mpr ⟨⟨f, rfl, hrange⟩, hbefore⟩⟩
        · rintro ⟨before, after, heq, hbefore⟩
          cases before with
          | nil => cases heq
          | cons g? before =>
            obtain ⟨rfl, rfl⟩ := List.cons.inj heq
            exact ⟨before, after, rfl, (List.forall_mem_cons.mp hbefore).2⟩
      | some place =>
        refine iff_of_false (fun h => by cases h) ?_
        rintro ⟨before, after, heq, hbefore⟩
        cases before with
        | nil => cases heq
        | cons g? before =>
          obtain ⟨rfl, rfl⟩ := List.cons.inj heq
          obtain ⟨g, hg, hrange⟩ := (List.forall_mem_cons.mp hbefore).1
          obtain rfl := Option.some.inj hg
          rw [badOperand?_eq_none.mpr hrange] at hbad
          cases hbad

theorem linkNatives_ne_missing : M.linkNatives ≠ .error .missingMethod := by
  refine mapM_ne_error (fun key => ?_) _
  cases Native.find? key with
  | none => exact fun h => by cases h
  | some n => exact fun h => by cases h

theorem known_of_linkNatives {natives : List Native} (h : M.linkNatives = .ok natives) :
    ∀ key ∈ M.natives, (Native.find? key).isSome := by
  have hall := linkNatives_eq_ok.mp h
  intro key hkey
  obtain ⟨k, hk⟩ := List.mem_iff_getElem?.mp (Array.mem_toList_iff.mpr hkey)
  obtain ⟨n, -, hn⟩ := exists_getElem?_right hall hk
  exact Option.isSome_iff_exists.mpr ⟨n, hn⟩

end Module

namespace Machine

open TypedScript.Action

/-- Loading finds a method missing if the natives are known and no operand before is out of range. -/
theorem load_eq_missing {M : Module} {s : Settings} : load M s = .error .missingMethod ↔
    (∀ key ∈ M.natives, (Native.find? key).isSome) ∧ M.Incomplete M.methods.toList := by
  rw [← Module.checkMethods_eq_missing 0]
  cases hlink : M.linkNatives with
  | error fault =>
    refine iff_of_false ?_ fun h => ?_
    · intro h
      rw [load, hlink] at h
      obtain rfl := Except.error.inj h
      exact Module.linkNatives_ne_missing hlink
    · obtain ⟨natives, hnatives⟩ := Module.exists_linkNatives h.1
      rw [hlink] at hnatives
      cases hnatives
  | ok natives =>
    rw [and_iff_right (Module.known_of_linkNatives hlink), load, hlink]
    change (M.checkMethods 0 M.methods.toList >>= _) = _ ↔ _
    cases M.checkMethods 0 M.methods.toList with
    | error fault => exact ⟨fun h => congrArg _ (Except.error.inj h), fun h => congrArg _ (Except.error.inj h)⟩
    | ok _ => exact iff_of_false (fun h => by cases h) fun h => by cases h

/-- What a run comes to that goes on with the method at an index. -/
structure GoesOn (M : Module) (s : Settings) (fuel : Nat) (k : Int) (rest : List Int) (m : Machine)
    (r : RunResult × Machine) : Prop where
  absent : M.methods.size ≤ k → r.1 = .crashed none
  present : k < M.methods.size → ∃ g, methodAt k m = .ok g m ∧
    (g.params.size ≠ 0 → r.1 = .ended 1 (some ⟨g.name, 0, .argumentCount g.params.size 0⟩)) ∧
    (g.params.size = 0 → s.maxDepth ≤ 0 → r.1 = .ended 1 (some ⟨"", 0, .stackOverflow g.name⟩)) ∧
    (g.params.size = 0 → 0 < s.maxDepth → ∃ m', begin k [] m = .ok ⟨0, 0⟩ m' ∧
      m'.calls = [⟨k, 0, 0⟩] ∧ r = m'.proceed fuel ⟨0, 0⟩ rest)

theorem exists_pushAll {α : Type} (f : α → Value) (xs : List α) {m : Machine} (htop : 0 ≤ m.top) :
    ∃ m', xs.forM (fun x => push (f x)) m = .ok () m' := by
  induction xs generalizing m with
  | nil => exact ⟨m, rfl⟩
  | cons x rest ih =>
    have hpush : ∃ m', push (f x) m = .ok () m' := by
      unfold push
      rw [if_neg (Int.not_lt.mpr htop)]
      dsimp only
      split <;> exact ⟨_, rfl⟩
    obtain ⟨m₁, hm₁⟩ := hpush
    obtain ⟨htop₁, -⟩ := Moves.push _ _ _ _ hm₁
    obtain ⟨m', hm'⟩ := ih (m := m₁) (by omega)
    refine ⟨m', ?_⟩
    change (push (f x) >>= fun _ => rest.forM fun x => push (f x)) m = _
    simp only [Bind.bind, EStateM.bind, hm₁, hm']

section Begin

variable {M : Module} {s : Settings} {m : Machine} {k : Int} {g : Method}

def prepared (m : Machine) : Machine := if m.statics?.isNone then m.resetStatics else m

theorem prepared_module : m.prepared.module = m.module := by
  unfold prepared
  split <;> rfl

theorem Idle.prepared (h : m.Idle) : m.prepared.Idle := by
  unfold Machine.prepared
  split
  · exact h
  · exact h

theorem begin_absent (h : m.module.methodAt? k = none) :
    begin k [] m = .error (.crash none) m.prepared := by
  change (methodAt k >>= _) m.prepared = _
  simp only [Bind.bind, EStateM.bind, methodAt_apply, prepared_module, h]
  rfl

theorem begin_params (h : m.module.methodAt? k = some g) (hparams : g.params.size ≠ 0) :
    begin k [] m = .error (.fault ⟨g.name, 0, .argumentCount g.params.size 0⟩) m.prepared := by
  change (methodAt k >>= _) m.prepared = _
  have hmethod : methodAt k m.prepared = .ok g m.prepared :=
    methodAt_of_eq_some (by rw [prepared_module, h])
  simp only [Bind.bind, EStateM.bind, hmethod, List.length_nil, ne_eq, Ne.symm hparams,
    not_false_eq_true, if_true]
  rfl

theorem enter_too_deep (h : methodAt k m = .ok g m) (hdepth : m.maxDepth ≤ m.calls.length) :
    enter k m = .error (.fault (m.locate (.stackOverflow g.name))) m := by
  simp only [enter, Bind.bind, EStateM.bind, h, MonadState.get, getThe, MonadStateOf.get, get_machine,
    if_pos hdepth]
  rfl

theorem exists_enter (h : methodAt k m = .ok g m) (hdepth : m.calls.length < m.maxDepth)
    (htop : 0 ≤ m.top) : ∃ m', enter k m = .ok () m' := by
  obtain ⟨m', hm'⟩ := exists_pushAll (fun slot => Value.zero slot.type) g.locals.toList htop
  simp only [enter, Bind.bind, EStateM.bind, h, MonadState.get, getThe, MonadStateOf.get, get_machine,
    if_neg (Int.not_le.mpr hdepth), hm']
  exact ⟨_, rfl⟩

theorem begin_of_enter {m' : Machine} (h : m.module.methodAt? k = some g) (hparams : g.params.size = 0)
    (henter : enter k m.prepared = .ok () m') :
    begin k [] m = .ok ⟨m.prepared.calls.length, m.prepared.top⟩ m' := by
  have hmethod : methodAt k m.prepared = .ok g m.prepared :=
    methodAt_of_eq_some (by rw [prepared_module, h])
  change (methodAt k >>= _) m.prepared = _
  have hsettling : ∀ v, settling v (do ([] : List Value).forM push; enter k) m.prepared = .ok () m' := by
    intro v
    change settling v (enter k) m.prepared = _
    simp only [settling, henter]
  simp only [Bind.bind, EStateM.bind, hmethod, List.length_nil, hparams, ne_eq, not_true_eq_false,
    if_false, MonadState.get, getThe, MonadStateOf.get, get_machine] at hsettling ⊢
  rw [hsettling]
  rfl

theorem begin_too_deep (h : m.module.methodAt? k = some g) (hparams : g.params.size = 0)
    (hdepth : m.prepared.maxDepth ≤ m.prepared.calls.length) :
    ∃ m', begin k [] m = .error (.fault (m.prepared.locate (.stackOverflow g.name))) m' := by
  have hmethod : methodAt k m.prepared = .ok g m.prepared :=
    methodAt_of_eq_some (by rw [prepared_module, h])
  change ∃ m', (methodAt k >>= _) m.prepared = _
  have hsettling : ∀ v, ∃ m', settling v (do ([] : List Value).forM push; enter k) m.prepared =
      .error (.fault (m.prepared.locate (.stackOverflow g.name))) m' := by
    intro v
    change ∃ m', settling v (enter k) m.prepared = _
    simp only [settling, enter_too_deep hmethod hdepth]
    exact ⟨_, rfl⟩
  simp only [Bind.bind, EStateM.bind, hmethod, List.length_nil, hparams, ne_eq, not_true_eq_false,
    if_false, MonadState.get, getThe, MonadStateOf.get, get_machine] at hsettling ⊢
  obtain ⟨m', hm'⟩ := hsettling ⟨m.prepared.calls.length, m.prepared.top⟩
  rw [hm']
  exact ⟨m', rfl⟩

end Begin

section Run

variable {M : Module} {s : Settings} {fuel : Nat} {k : Int} {rest : List Int} {m : Machine}

/-- On an idle machine the method that is next begins at once, unless it is not there, wants arguments or
may not be called at all. -/
theorem goesOn {r : RunResult × Machine} (current : Invocation) (left : List Int) (hM : M.InRange)
    (hmodule : m.module = M) (hdepth : m.maxDepth = s.maxDepth) (hidle : m.Idle) (hk : 0 ≤ k)
    (hok : ∀ v m', begin k [] m = .ok v m' → r = m'.proceed fuel v rest)
    (herror : ∀ stop m', begin k [] m = .error stop m' → r.1 = .ofStop current left stop) :
    GoesOn M s fuel k rest m r where
  absent hsize := by
    have hnone : m.module.methodAt? k = none := by
      rw [hmodule, Module.methodAt?, entryAt?, if_neg (Int.not_lt.mpr hk),
        Array.getElem?_eq_none (by omega)]
      rfl
    exact herror _ _ (begin_absent hnone)
  present hsize := by
    obtain ⟨g, hg⟩ := hM.exists_methodAt? hk hsize
    rw [← hmodule] at hg
    obtain ⟨hcalls, htop⟩ := hidle.prepared
    have hmethod : methodAt k m.prepared = .ok g m.prepared :=
      methodAt_of_eq_some (by rw [prepared_module, hg])
    have hlimit : m.prepared.maxDepth = s.maxDepth := by
      rw [← hdepth, prepared]
      split <;> rfl
    refine ⟨g, methodAt_of_eq_some hg, fun hparams => ?_, fun hparams hdeep => ?_,
      fun hparams hroom => ?_⟩
    · exact herror _ _ (begin_params hg hparams)
    · obtain ⟨m', hm'⟩ := begin_too_deep hg hparams (by rw [hlimit, hcalls]; exact hdeep)
      rw [herror _ _ hm', locate, hcalls]
      rfl
    · obtain ⟨m', hm'⟩ := exists_enter hmethod (by rw [hlimit, hcalls]; exact hroom) (by rw [htop])
      have hbegin := begin_of_enter hg hparams hm'
      rw [hcalls, htop] at hbegin
      obtain ⟨g', hg', -, hcalls'⟩ := enter_moves hm'
      obtain rfl := Option.some.inj ((methodAt_eq_ok hmethod).1.symm.trans hg')
      rw [hcalls, htop, hparams] at hcalls'
      exact ⟨m', hbegin, hcalls', hok _ _ hbegin⟩

/-- A run with an entry point goes on with the initializer, or with the entry point if there is no
initializer. -/
theorem goesOn_of_run (fuel : Nat) (hM : M.InRange) (hmodule : m.module = M) (hdepth : m.maxDepth = s.maxDepth)
    (hidle : m.Idle) (hentry : 0 ≤ M.entry) :
    (M.initializer < 0 → GoesOn M s fuel M.entry [] m.resetStatics (m.run fuel)) ∧
    (0 ≤ M.initializer → GoesOn M s fuel M.initializer [M.entry] m.resetStatics (m.run fuel)) := by
  subst hmodule
  have hreset : m.resetStatics.module = m.module := rfl
  constructor
  · intro hnone
    refine goesOn ⟨0, 0⟩ [] hM rfl hdepth hidle hentry
      (fun v m' hbegin => ?_) fun stop m' hbegin => ?_
    · simp only [Machine.run, if_neg (Int.not_lt.mpr hentry), hreset, if_pos hnone, hbegin]
    · simp only [Machine.run, if_neg (Int.not_lt.mpr hentry), hreset, if_pos hnone, hbegin]
  · intro hsome
    refine goesOn ⟨0, 0⟩ [m.module.entry] hM rfl hdepth hidle hsome
      (fun v m' hbegin => ?_) fun stop m' hbegin => ?_
    · simp only [Machine.run, if_neg (Int.not_lt.mpr hentry), hreset, if_neg (Int.not_lt.mpr hsome),
        hbegin]
    · simp only [Machine.run, if_neg (Int.not_lt.mpr hentry), hreset, if_neg (Int.not_lt.mpr hsome),
        hbegin]

/-- When the initializer has returned, the run goes on with the entry point. -/
theorem goesOn_of_proceed {v : Invocation} {m' : Machine} {r : Value} (hM : M.InRange)
    (hmodule : m'.module = M) (hdepth : m'.maxDepth = s.maxDepth) (hidle : m'.Idle)
    (hentry : 0 ≤ M.entry) (hresume : resume v fuel m = .ok r m') :
    GoesOn M s fuel M.entry [] m' (m.proceed fuel v [M.entry]) := by
  refine goesOn v [M.entry] hM hmodule hdepth hidle hentry
    (fun v' m'' hbegin => ?_) fun stop m'' hbegin => ?_
  · simp only [proceed, hresume, hbegin]
  · simp only [proceed, hresume, hbegin]

end Run

/-- What becomes of an image. Its module has the identifier of its content. Where the first method that
does not pass the checks is a missing one, loading breaks off, and there is no wording for that. After
loading, a run without an entry point says so; otherwise it goes on with the initializer, if there is
one, and then with the entry point. A method whose index is within the methods is there, and begins
unless the call is refused; with any other index the run crashes. -/
theorem execution_of_image {bytes : List UInt8} {M : Module} (hM : Module.ofImage bytes = .ok M)
    (s : Settings) :
    (M.id.isEmpty = false ∧ M.contentId = M.id) ∧
    (load M s = .error .missingMethod ↔
      (∀ key ∈ M.natives, (Native.find? key).isSome) ∧ M.Incomplete M.methods.toList) ∧
    ∀ m, load M s = .ok m → ∀ fuel,
      (M.entry < 0 → m.run fuel = (.ended 1 (some ⟨"", 0, .noEntryPoint⟩), m)) ∧
      (0 ≤ M.entry → M.initializer < 0 →
        GoesOn M s fuel M.entry [] m.resetStatics (m.run fuel)) ∧
      (0 ≤ M.entry → 0 ≤ M.initializer →
        GoesOn M s fuel M.initializer [M.entry] m.resetStatics (m.run fuel) ∧
        ∀ m₁ r m₂, begin M.initializer [] m.resetStatics = .ok ⟨0, 0⟩ m₁ →
          resume ⟨0, 0⟩ fuel m₁ = .ok r m₂ → GoesOn M s fuel M.entry [] m₂ (m.run fuel)) := by
  refine ⟨ImageCodec.contentId_of_ofImage hM, load_eq_missing, fun m hload fuel => ?_⟩
  have hloaded : Reached M s none m := .loaded hload
  obtain ⟨hup, hidle, -⟩ := hloaded.alike
  have hmodule : m.module = M := hup.upright.module
  have hrun := goesOn_of_run fuel hup.upright.inRange hmodule hup.upright.maxDepth (hidle rfl)
  refine ⟨fun hentry => ?_, fun hentry => (hrun hentry).1, fun hentry hinit => ⟨(hrun hentry).2 hinit, ?_⟩⟩
  · rw [Machine.run, hmodule, if_pos hentry]
  · intro m₁ r m₂ hbegin hresume
    have hreturned : Reached M s none m₂ :=
      (hloaded.zeroed.begun hbegin).returned_of_resume (fun _ _ => trivial) hresume
    obtain ⟨hup₂, hidle₂, -⟩ := hreturned.alike
    have hproceed := goesOn_of_proceed hup₂.upright.inRange hup₂.upright.module
      hup₂.upright.maxDepth (hidle₂ rfl) hentry hresume
    obtain rfl := hmodule
    have hsame : m.run fuel = m₁.proceed fuel ⟨0, 0⟩ [m.module.entry] := by
      have hreset : m.resetStatics.module = m.module := rfl
      simp only [Machine.run, if_neg (Int.not_lt.mpr hentry), hreset,
        if_neg (Int.not_lt.mpr hinit), hbegin]
    rw [hsame]
    exact hproceed

/-- A module whose entry point is none of its methods. -/
def astray : Module :=
  { Module.empty "astray" with
    methods := #[some ⟨"main", #[], "void", #[], #[⟨Operation.code .retVoid, 0, 0⟩]⟩]
    entry := 5 }

def hollow : Module := { Module.empty "hollow" with methods := #[none] }

/-- A run of the one crashes, and the other is not loaded. -/
theorem execution_of_image_astray :
    (∃ M, Module.ofImage astray.image = .ok M ∧ ∃ m, load M .standard = .ok m ∧
      ∀ fuel, (m.run fuel).1 = .crashed none) ∧
    ∃ M, Module.ofImage hollow.image = .ok M ∧ load M .standard = .error .missingMethod := by
  constructor
  · have hread : Module.ofImage astray.image = .ok { astray with id := astray.contentId } := by
      refine (ImageCodec.standard_faithful.ofImage_image ⟨by decide, by decide, by decide, by decide⟩).1 ?_
      simp only [Module.Short]
      decide
    generalize astray.contentId = id at hread
    have hrange : Module.InRange { astray with id } := by
      intro f? hf
      obtain rfl := (Array.mem_singleton.mp hf)
      refine ⟨_, rfl, fun i hi => ?_⟩
      obtain rfl := Array.mem_singleton.mp hi
      rfl
    obtain ⟨m, hload⟩ := exists_load (M := { astray with id })
      (fun key hkey => absurd hkey (Array.not_mem_empty key)) hrange .standard
    have hruns := fun fuel => ((execution_of_image hread .standard).2.2 m hload fuel).2.1
    exact ⟨_, hread, m, hload, fun fuel =>
      (hruns fuel (Int.natCast_nonneg 5) (Int.negSucc_lt_zero 0)).absent (by change (1 : Int) ≤ 5; decide)⟩
  · have hread : Module.ofImage hollow.image = .ok { hollow with id := hollow.contentId } := by
      refine (ImageCodec.standard_faithful.ofImage_image ⟨by decide, by decide, by decide, by decide⟩).1 ?_
      simp only [Module.Short]
      decide
    generalize hollow.contentId = id at hread
    refine ⟨_, hread, (execution_of_image hread .standard).2.1.mpr ⟨?_, [], [], rfl, by simp⟩⟩
    exact fun key hkey => absurd hkey (Array.not_mem_empty key)

end Machine
end TypedScript
