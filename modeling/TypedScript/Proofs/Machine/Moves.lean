import TypedScript.Proofs.Bytecode.Stacks
import TypedScript.Proofs.Machine.Answers

/-!
# How instructions move the top of the stack

An instruction that is performed moves the top of the stack by as many places as the operands that it
takes and leaves. Only a call does not: it begins an activation whose arguments are the operands it
takes, and its return leaves the result in their place.
-/

namespace TypedScript

namespace Module

/-- Linking finds what each key refers to. -/
theorem linkNatives_eq_ok {M : Module} {natives : List Native} :
    M.linkNatives = .ok natives ↔
      List.Forall₂ (fun key n => Native.find? key = some n) M.natives.toList natives := by
  unfold linkNatives
  induction M.natives.toList generalizing natives with
  | nil =>
    rw [List.forall₂_nil_left_iff]
    exact ⟨fun h => (Except.ok.inj h).symm, fun h => congrArg Except.ok h.symm⟩
  | cons key rest ih =>
    rw [List.mapM_cons]
    cases hkey : Native.find? key with
    | none =>
      constructor
      · intro h
        cases h
      · intro h
        cases h with
        | cons hn => simp [hkey] at hn
    | some n =>
      constructor
      · intro h
        obtain ⟨n', hn', h⟩ := exists_of_bind_eq_ok h
        obtain rfl := Except.ok.inj hn'
        obtain ⟨ns, hns, h⟩ := exists_of_bind_eq_ok h
        obtain rfl := Except.ok.inj h
        exact .cons hkey (ih.mp hns)
      · intro h
        cases h with
        | cons hn hns =>
          obtain rfl := Option.some.inj (hkey.symm.trans hn)
          rw [ih.mpr hns]
          rfl

theorem exists_key {M : Module} {natives : Array Native} (h : M.linkNatives = .ok natives.toList)
    {k : Nat} {native : Native} (hk : natives[k]? = some native) :
    ∃ key, M.natives[k]? = some key ∧ Native.find? key = some native := by
  rw [linkNatives_eq_ok] at h
  rw [← Array.getElem?_toList] at hk
  obtain ⟨key, hkey, hfind⟩ := exists_getElem?_right h.flip hk
  exact ⟨key, by rwa [← Array.getElem?_toList], hfind⟩

end Module

namespace Action

/-- Whenever the action succeeds, the top of the stack has moved by `k`; the module stays. -/
def Moves {α : Type} (k : Int) (a : Action α) : Prop :=
  ∀ m x m', a m = .ok x m' → m'.top = m.top + k ∧ m'.module = m.module ∧ m'.natives = m.natives

theorem bind_eq_ok {α β : Type} {a : Action α} {f : α → Action β} {m m' : Machine} {y : β}
    (h : (a >>= f) m = .ok y m') : ∃ x m₁, a m = .ok x m₁ ∧ f x m₁ = .ok y m' := by
  simp only [Bind.bind, EStateM.bind] at h
  split at h
  · exact ⟨_, _, ‹_›, h⟩
  · cases h

namespace Moves

variable {α β : Type}

theorem bind {k l : Int} {a : Action α} {f : α → Action β} (ha : Moves k a)
    (hf : ∀ x, Moves l (f x)) : Moves (k + l) (a >>= f) := by
  intro m y m' h
  obtain ⟨x, m₁, h₁, h₂⟩ := bind_eq_ok h
  obtain ⟨htop, hmodule, hnatives⟩ := ha m x m₁ h₁
  obtain ⟨htop', hmodule', hnatives'⟩ := hf x m₁ y m' h₂
  exact ⟨by omega, hmodule'.trans hmodule, hnatives'.trans hnatives⟩

theorem pure (x : α) : Moves 0 (Pure.pure x : Action α) := by
  rintro m y m' h
  obtain ⟨-, rfl⟩ := EStateM.Result.ok.inj h
  simp

theorem get : Moves 0 (MonadState.get : Action Machine) := by
  rintro m y m' h
  obtain ⟨-, rfl⟩ := EStateM.Result.ok.inj h
  simp

theorem modify {f : Machine → Machine} (htop : ∀ m, (f m).top = m.top)
    (hmodule : ∀ m, (f m).module = m.module) (hnatives : ∀ m, (f m).natives = m.natives) :
    Moves 0 (modify f : Action Unit) := by
  rintro m y m' h
  obtain ⟨-, rfl⟩ := EStateM.Result.ok.inj h
  exact ⟨by rw [Int.add_zero]; exact htop m, hmodule m, hnatives m⟩

theorem of_error {k : Int} {a : Action α} (h : ∀ m, ∃ s m', a m = .error s m') : Moves k a := by
  intro m x m' hok
  obtain ⟨s, m₁, herror⟩ := h m
  rw [hok] at herror
  cases herror

theorem throw (k : Int) (s : Stop) : Moves k (MonadExcept.throw s : Action α) :=
  of_error fun m => ⟨s, m, rfl⟩

theorem crash (k : Int) : Moves k (crash : Action α) := throw k _

theorem fail (k : Int) (c : Cause) : Moves k (fail c : Action α) :=
  of_error fun m => ⟨_, m, rfl⟩

theorem orFail (r : Except Cause α) : Moves 0 (orFail r) := by
  cases r with
  | ok x => exact pure x
  | error c => exact fail 0 c

theorem orCrash (r : Option α) : Moves 0 (orCrash r) := by
  cases r with
  | some x => exact pure x
  | none => exact crash 0

theorem entry (table : Array α) (i : Int) : Moves 0 (entry table i) := by
  unfold Action.entry
  split
  · exact crash 0
  · exact orCrash _

theorem push (v : Value) : Moves 1 (push v) := by
  intro m x m' h
  unfold Action.push at h
  dsimp only at h
  split at h
  · cases h
  · split at h
    · obtain ⟨-, rfl⟩ := EStateM.Result.ok.inj h
      simp
    · obtain ⟨-, rfl⟩ := EStateM.Result.ok.inj h
      simp

theorem pop : Moves (-1) pop := by
  intro m x m' h
  unfold Action.pop at h
  dsimp only at h
  split at h
  · cases h
  · split at h
    · cases h
    · obtain ⟨-, rfl⟩ := EStateM.Result.ok.inj h
      exact ⟨rfl, rfl, rfl⟩

theorem popArgs (n : Nat) : Moves (-n) (popArgs n) := by
  have hgo : ∀ (n : Nat) args, Moves (-(n : Int)) (Action.popArgs.go n args) := by
    intro n
    induction n with
    | zero => exact fun args => pure args
    | succ n ih =>
      intro args
      have hstep := pop.bind fun v => ih (v :: args)
      rw [show -1 + -(n : Int) = -((n + 1 : Nat) : Int) by omega] at hstep
      exact hstep
  exact hgo n []

theorem cell (i : Int) : Moves 0 (cell i) := by
  intro m x m' h
  unfold Action.cell at h
  split at h
  · cases h
  · split at h
    · cases h
    · obtain ⟨-, rfl⟩ := EStateM.Result.ok.inj h
      simp

theorem peek : Moves 0 peek := fun m => cell (m.top - 1) m

theorem setCell (i : Int) (v : Value) : Moves 0 (setCell i v) := by
  intro m x m' h
  unfold Action.setCell at h
  split at h
  · cases h
  · obtain ⟨-, rfl⟩ := EStateM.Result.ok.inj h
    simp

theorem text (v : Value) : Moves 0 (text v) := get.bind fun _ => orCrash _

theorem jump (target : Int) : Moves 0 (jump target) := by
  refine modify ?_ ?_ ?_ <;>
  · intro m
    split <;> rfl

theorem unbox (wanted : String) (v : Value) : Moves 0 (unbox wanted v) := by
  unfold Action.unbox
  split
  · split
    · exact pure _
    · exact fail 0 _
  · exact (text _).bind fun _ => fail 0 _

theorem randomBits : Moves 0 randomBits := by
  intro m x m' h
  obtain ⟨-, rfl⟩ := EStateM.Result.ok.inj h
  simp

theorem randomBetween (key : String) (low high : Int64) : Moves 0 (randomBetween key low high) := by
  unfold Action.randomBetween
  split
  · exact fail 0 _
  · split
    · exact pure _
    · split
      · exact throw 0 _
      · exact randomBits.bind fun _ => pure _

theorem callRoutine (key : String) (r : Routine) (args : List Value) :
    Moves 0 (callRoutine key r args) := by
  have h := answers_callRoutine key r args
  generalize Action.callRoutine key r args = a at h ⊢
  cases h with
  | print line v =>
    refine (text _).bind fun s => (modify ?_ ?_ ?_).bind fun _ => pure _ <;> exact fun _ => rfl
  | newline => refine (modify ?_ ?_ ?_).bind fun _ => pure _ <;> exact fun _ => rfl
  | input =>
    refine Moves.bind (l := 0) get fun m => ?_
    split
    · exact Moves.bind (k := 0) (l := 0)
        (modify (fun m => by split <;> rfl) (fun m => by split <;> rfl) fun m => by split <;> rfl)
        fun _ => throw 0 _
    · refine (modify ?_ ?_ ?_).bind fun _ => pure _ <;> exact fun _ => rfl
  | random => exact randomBits.bind fun _ => pure _
  | randomBetween low high => exact randomBetween _ _ _
  | abs t v => exact pure _
  | absFloat v => exact pure _
  | sqrt v => exact pure _
  | exit code => exact throw 0 _
  | clock => refine get.bind fun m => (modify ?_ ?_ ?_).bind fun _ => pure _ <;> exact fun _ => rfl
  | concat v w => exact (text _).bind fun _ => (text _).bind fun _ => pure _
  | equalTexts s t => exact pure _
  | equalObjects v w => exact pure _
  | toText v => exact (text _).bind fun _ => pure _
  | parse t s =>
    split
    · exact pure _
    · exact fail 0 _
  | refused => exact crash 0

theorem apply {f : Machine → Value × Machine} (htop : ∀ m, (f m).2.top = m.top)
    (hmodule : ∀ m, (f m).2.module = m.module) (hnatives : ∀ m, (f m).2.natives = m.natives) :
    Moves 0 (apply f) := by
  intro m x m' h
  obtain ⟨-, rfl⟩ := EStateM.Result.ok.inj h
  exact ⟨by rw [Int.add_zero]; exact htop m, hmodule m, hnatives m⟩

theorem newArray (type : String) : Moves 0 (newArray type) := by
  unfold Action.newArray
  refine Moves.bind (l := 0 + 1) pop fun v => Moves.bind (l := 1) (orFail _) fun n => ?_
  split
  · exact fail 1 _
  · split
    · exact crash 1
    · refine (apply ?_ ?_ ?_).bind fun v => push v <;> exact fun _ => rfl

theorem storeStatic (i : Int) : Moves 0 (storeStatic i) := by
  unfold Action.storeStatic
  refine peek.bind fun v => get.bind fun m => (entry _ _).bind fun _ => modify ?_ ?_ ?_ <;>
    exact fun _ => rfl

end Moves

theorem moves_setElement (ref i : Nat) (v : Value) :
    Moves 0 (modify fun m : Machine => m.setElement ref i v : Action Unit) :=
  Moves.modify (fun _ => rfl) (fun _ => rfl) fun _ => rfl

theorem entry_eq_ok {α : Type} {table : Array α} {i : Int} {m m' : Machine} {x : α}
    (h : entry table i m = .ok x m') : table[i.toNat]? = some x ∧ m' = m := by
  unfold entry at h
  split at h
  · cases h
  · cases hx : table[i.toNat]? with
    | none =>
      rw [hx] at h
      cases h
    | some y =>
      rw [hx] at h
      obtain ⟨rfl, rfl⟩ := EStateM.Result.ok.inj h
      exact ⟨rfl, rfl⟩

/-- An instruction that is neither a call nor a return moves the top of the stack by the operands that
it takes and leaves. -/
theorem perform_moves {op : Operation} {i : Instruction} {f : Activation} {method : Method}
    {m m' : Machine} (hop : i.operation? = some op) (hcall : op ≠ .call) (hret : op ≠ .ret)
    (hlinked : m.module.linkNatives = .ok m.natives.toList) {takes leaves : Nat}
    (hmoves : m.module.moves? i = some (takes, leaves))
    (h : perform op i f method m = .ok () m') : m'.top = m.top - takes + leaves := by
  have hone : ∀ {k : Int}, Moves k (perform op i f method) → m'.top = m.top + k :=
    fun hk => (hk m () m' h).1
  simp only [Module.moves?, hop, Option.bind_some] at hmoves
  cases op with
  | call => exact absurd rfl hcall
  | ret => exact absurd rfl hret
  | nop | retVoid =>
    cases hmoves
    have := hone (Moves.pure ())
    omega
  | pop =>
    cases hmoves
    have := hone (Moves.pop.bind fun _ => Moves.pure ())
    omega
  | dup =>
    cases hmoves
    have := hone (Moves.peek.bind fun _ => Moves.push _)
    omega
  | push =>
    cases hmoves
    have := hone (Moves.get.bind fun _ => (Moves.entry _ _).bind fun _ => Moves.push _)
    omega
  | loadArg | loadLocal =>
    cases hmoves
    have := hone ((Moves.cell _).bind fun _ => Moves.push _)
    omega
  | storeLocal =>
    cases hmoves
    have := hone (Moves.peek.bind fun _ => Moves.setCell _ _)
    omega
  | loadStatic =>
    cases hmoves
    have := hone (Moves.get.bind fun _ => (Moves.entry _ _).bind fun _ => Moves.push _)
    omega
  | storeStatic =>
    cases hmoves
    have := hone (Moves.storeStatic _)
    omega
  | loadNative =>
    cases hmoves
    have := hone (Moves.get.bind fun _ => Moves.bind (l := 1) (Moves.entry _ _) fun native => by
      split
      · exact Moves.push _
      · exact Moves.fail 1 _)
    omega
  | neg | compl | convert =>
    cases hmoves
    have := hone (Moves.pop.bind fun _ => (Moves.orFail _).bind fun _ => Moves.push _)
    omega
  | box =>
    cases hmoves
    have := hone (Moves.get.bind fun _ => (Moves.entry _ _).bind fun _ => Moves.pop.bind fun _ =>
      (Moves.apply (fun _ => rfl) (fun _ => rfl) fun _ => rfl).bind fun _ => Moves.push _)
    omega
  | unbox =>
    cases hmoves
    have := hone (Moves.get.bind fun _ => (Moves.entry _ _).bind fun _ => Moves.pop.bind fun _ =>
      (Moves.unbox _ _).bind fun _ => Moves.push _)
    omega
  | newArray =>
    cases hmoves
    have := hone (Moves.get.bind fun _ => (Moves.entry _ _).bind fun _ => Moves.newArray _)
    omega
  | loadElem =>
    cases hmoves
    have := hone (Moves.pop.bind fun _ => Moves.pop.bind fun _ => Moves.get.bind fun _ =>
      (Moves.orFail _).bind fun _ => Moves.push _)
    omega
  | storeElem =>
    cases hmoves
    have := hone (Moves.pop.bind fun _ => Moves.pop.bind fun _ => Moves.pop.bind fun _ =>
      Moves.get.bind fun _ => Moves.bind (l := 0 + 1) (Moves.orFail _) fun place => by
        obtain ⟨ref, i⟩ := place
        exact (moves_setElement ref i _).bind fun _ => Moves.push _)
    omega
  | length =>
    cases hmoves
    have := hone (Moves.pop.bind fun _ => Moves.get.bind fun _ => (Moves.orFail _).bind fun _ =>
      Moves.push _)
    omega
  | jump =>
    cases hmoves
    have := hone (Moves.jump _)
    omega
  | jumpTrue =>
    cases hmoves
    have := hone (Moves.bind (l := 0) Moves.pop fun v => by
      split
      · exact Moves.jump _
      · exact Moves.pure ()
      · exact Moves.fail 0 _)
    omega
  | add | sub | mul | div | rem | and | or | xor | shl | shr | ceq | clt | cgt =>
    cases hmoves
    have := hone (Moves.pop.bind fun _ => Moves.pop.bind fun _ => (Moves.orFail _).bind fun _ =>
      Moves.push _)
    omega
  | callNative =>
    obtain ⟨m₁, m₂, hget, hrest⟩ := bind_eq_ok h
    obtain ⟨rfl, rfl⟩ := EStateM.Result.ok.inj hget
    obtain ⟨native, m₃, hentry, hbody⟩ := bind_eq_ok hrest
    obtain ⟨hnative, rfl⟩ := entry_eq_ok hentry
    obtain ⟨key, hkey, hfind⟩ := Module.exists_key hlinked hnative
    simp only [hkey, Option.bind_some, hfind, Option.map_some, Option.some.injEq,
      Prod.mk.injEq] at hmoves
    obtain ⟨rfl, rfl⟩ := hmoves
    cases hkind : native.body with
    | constant v =>
      rw [hkind] at hbody
      cases hbody
    | routine r =>
      rw [hkind] at hbody
      have hcalled : Moves (-r.arity + (0 + if r.returns then 1 else 0))
          (popArgs r.arity >>= fun args => callRoutine native.key r args >>= fun v =>
            if r.returns then push v else Pure.pure ()) :=
        (Moves.popArgs _).bind fun _ => (Moves.callRoutine _ _ _).bind fun v => by
          split
          · exact Moves.push v
          · exact Moves.pure ()
      obtain ⟨htop', -, -⟩ := hcalled _ _ _ hbody
      simp only [Native.arity, Native.returns, hkind]
      split at htop' <;> simp_all <;> omega

theorem calls_of_push {v : Value} {m m' : Machine} (h : push v m = .ok () m') :
    m'.calls = m.calls := by
  unfold push at h
  dsimp only at h
  split at h
  · cases h
  · split at h
    · obtain ⟨-, rfl⟩ := EStateM.Result.ok.inj h
      rfl
    · obtain ⟨-, rfl⟩ := EStateM.Result.ok.inj h
      rfl

theorem calls_of_pop {v : Value} {m m' : Machine} (h : pop m = .ok v m') : m'.calls = m.calls := by
  unfold pop at h
  dsimp only at h
  split at h
  · cases h
  · split at h
    · cases h
    · obtain ⟨-, rfl⟩ := EStateM.Result.ok.inj h
      rfl

theorem pushAll_moves {α : Type} {f : α → Value} {xs : List α} {m m' : Machine}
    (h : xs.forM (fun x => push (f x)) m = .ok () m') :
    m'.top = m.top + xs.length ∧ m'.calls = m.calls := by
  induction xs generalizing m with
  | nil =>
    obtain ⟨-, rfl⟩ := EStateM.Result.ok.inj h
    simp
  | cons x rest ih =>
    obtain ⟨_, m₁, hpush, hrest⟩ := bind_eq_ok h
    obtain ⟨htop, hcalls⟩ := ih hrest
    obtain ⟨hone, -, -⟩ := Moves.push _ _ _ _ hpush
    refine ⟨?_, hcalls.trans (calls_of_push hpush)⟩
    rw [htop, hone, List.length_cons]
    omega

theorem popMany_moves {n : Nat} {m m' : Machine} (h : popMany n m = .ok () m') :
    m'.top = m.top - n ∧ m'.calls = m.calls := by
  induction n generalizing m with
  | zero =>
    obtain ⟨-, rfl⟩ := EStateM.Result.ok.inj h
    simp
  | succ n ih =>
    obtain ⟨v, m₁, hpop, hrest⟩ := bind_eq_ok h
    obtain ⟨htop, hcalls⟩ := ih hrest
    obtain ⟨hone, -, -⟩ := Moves.pop _ _ _ hpop
    exact ⟨by omega, hcalls.trans (calls_of_pop hpop)⟩

theorem methodAt_eq_ok {a : Int} {m m' : Machine} {g : Method} (h : methodAt a m = .ok g m') :
    m.module.method? a.toNat = some g ∧ m' = m := by
  obtain ⟨m₁, m₂, hget, hrest⟩ := bind_eq_ok h
  obtain ⟨rfl, rfl⟩ := EStateM.Result.ok.inj hget
  obtain ⟨g?, m₃, hentry, hsome⟩ := bind_eq_ok hrest
  obtain ⟨hg, rfl⟩ := entry_eq_ok hentry
  cases g? with
  | none => cases hsome
  | some f =>
    obtain ⟨rfl, rfl⟩ := EStateM.Result.ok.inj hsome
    exact ⟨by simp [Module.method?, hg], rfl⟩

/-- A call begins with its arguments and locals and without operands. -/
theorem enter_moves {a : Int} {m m' : Machine} (h : enter a m = .ok () m') :
    ∃ g, m.module.method? a.toNat = some g ∧ m'.top = m.top + g.locals.size ∧
      m'.calls = ⟨a, 0, m.top - g.params.size⟩ :: m.calls := by
  obtain ⟨g, m₁, hmethod, hrest⟩ := bind_eq_ok h
  obtain ⟨hg, rfl⟩ := methodAt_eq_ok hmethod
  obtain ⟨m₂, m₃, hget, hbegin⟩ := bind_eq_ok hrest
  obtain ⟨rfl, rfl⟩ := EStateM.Result.ok.inj hget
  by_cases hdepth : m₁.maxDepth ≤ m₁.calls.length
  · rw [if_pos hdepth] at hbegin
    cases hbegin
  · rw [if_neg hdepth] at hbegin
    obtain ⟨_, m₄, hpush, hlast⟩ := bind_eq_ok hbegin
    obtain ⟨-, rfl⟩ := EStateM.Result.ok.inj hlast
    obtain ⟨htop, hcalls⟩ := pushAll_moves hpush
    exact ⟨g, hg, by simpa using htop, congrArg (List.cons _) hcalls⟩

/-- A return takes arguments and locals off with the operands. -/
theorem leave_moves {m m' : Machine} (h : leave m = .ok () m') :
    ∃ f, m.calls = f :: m'.calls ∧ (f.base ≤ m.top → m'.top = f.base) := by
  obtain ⟨m₁, m₂, hget, hrest⟩ := bind_eq_ok h
  obtain ⟨rfl, rfl⟩ := EStateM.Result.ok.inj hget
  cases hcalls : m.calls with
  | nil =>
    rw [hcalls] at hrest
    cases hrest
  | cons f rest =>
    rw [hcalls] at hrest
    obtain ⟨_, m₃, hpop, hlast⟩ := bind_eq_ok hrest
    obtain ⟨-, rfl⟩ := EStateM.Result.ok.inj hlast
    obtain ⟨htop, -⟩ := popMany_moves hpop
    refine ⟨f, rfl, fun hbase => ?_⟩
    change m₃.top = f.base
    omega

end Action
end TypedScript
