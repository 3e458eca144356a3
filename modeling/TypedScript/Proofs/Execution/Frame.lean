import TypedScript.Proofs.Execution.Flat

/-!
# What expressions depend on

Two computations match if they have the same outcome from two states. A flat expression depends on
what is shared, on declared variables and on the temporaries that it mentions, and it never changes a
temporary.
-/

namespace TypedScript
namespace Execution

section

variable {ε σ α β : Type} {m : EStateM ε σ α} {f : α → EStateM ε σ β} {s s' : σ}

theorem bind_ok {a : α} (h : m s = .ok a s') : (m >>= f) s = f a s' := by
  change EStateM.bind m f s = _
  simp only [EStateM.bind, h]

theorem bind_error {e : ε} (h : m s = .error e s') : (m >>= f) s = .error e s' := by
  change EStateM.bind m f s = _
  simp only [EStateM.bind, h]

end

theorem perform_ok {α : Type} {e : Effect α} {σ : State} {a : α} {w : Shared}
    (h : e σ.shared = .ok a w) : perform e σ = .ok a { σ with shared := w } := by
  simp only [perform, h]

theorem perform_error {α : Type} {e : Effect α} {σ : State} {k : Halt} {w : Shared}
    (h : e σ.shared = .error k w) : perform e σ = .error k { σ with shared := w } := by
  simp only [perform, h]

def IsTemporary (s : Symbol) (n : Nat) : Prop := s.id = .temporary n

/-- Two states that are the same except for temporaries of which nothing is said. -/
structure Alike (P : Nat → Prop) (σ τ : State) : Prop where
  shared : τ.shared = σ.shared
  locals : ∀ s, (∀ n, IsTemporary s n → P n) → τ.locals s = σ.locals s

/-- Two states that are the same except for temporaries. -/
abbrev Agree : State → State → Prop := Alike fun _ => False

theorem Alike.refl (P : Nat → Prop) (σ : State) : Alike P σ σ := ⟨rfl, fun _ _ => rfl⟩

theorem Alike.symm {P : Nat → Prop} {σ τ : State} (h : Alike P σ τ) : Alike P τ σ :=
  ⟨h.shared.symm, fun s hs => (h.locals s hs).symm⟩

theorem Alike.trans {P : Nat → Prop} {σ τ υ : State} (h : Alike P σ τ) (k : Alike P τ υ) :
    Alike P σ υ :=
  ⟨k.shared.trans h.shared, fun s hs => (k.locals s hs).trans (h.locals s hs)⟩

theorem Alike.imp {P Q : Nat → Prop} {σ τ : State} (h : Alike P σ τ) (hQ : ∀ n, Q n → P n) :
    Alike Q σ τ :=
  ⟨h.shared, fun s hs => h.locals s fun n hn => hQ n (hs n hn)⟩

/-- Two computations have the same outcome: the same value in related states, or the same halt with
the same shared state. -/
inductive Matches {α : Type} (R : State → State → Prop) (m m' : Run α) (σ τ : State) : Prop
  | ok {a : α} {σ' τ' : State} : m σ = .ok a σ' → m' τ = .ok a τ' → R σ' τ' → Matches R m m' σ τ
  | error {h : Halt} {σ' τ' : State} : m σ = .error h σ' → m' τ = .error h τ' →
    τ'.shared = σ'.shared → Matches R m m' σ τ

namespace Matches

variable {α β : Type} {R S : State → State → Prop} {P : Nat → Prop} {σ τ : State}

theorem pure (a : α) (h : R σ τ) : Matches R (Pure.pure a) (Pure.pure a) σ τ := .ok rfl rfl h

theorem bind {m m' : Run α} {f f' : α → Run β} (hm : Matches R m m' σ τ)
    (hf : ∀ a σ' τ', R σ' τ' → Matches S (f a) (f' a) σ' τ') :
    Matches S (m >>= f) (m' >>= f') σ τ := by
  cases hm with
  | @ok a σ' τ' h h' hR =>
    cases hf a σ' τ' hR with
    | ok k k' hS => exact .ok ((bind_ok h).trans k) ((bind_ok h').trans k') hS
    | error k k' hs => exact .error ((bind_ok h).trans k) ((bind_ok h').trans k') hs
  | error h h' hs => exact .error (bind_error h) (bind_error h') hs

theorem effect (e : Effect α) (h : Alike P σ τ) :
    Matches (Alike P) (perform e) (perform e) σ τ := by
  cases he : e σ.shared with
  | ok a w =>
    have he' : e τ.shared = .ok a w := by rw [h.shared, he]
    exact .ok (perform_ok he) (perform_ok he') ⟨rfl, h.locals⟩
  | error k w =>
    have he' : e τ.shared = .error k w := by rw [h.shared, he]
    exact .error (perform_error he) (perform_error he') rfl

theorem read (x : Environment) {s : Symbol} (h : Alike P σ τ) (hs : ∀ n, IsTemporary s n → P n) :
    Matches (Alike P) (x.read s) (x.read s) σ τ := by
  unfold Environment.read
  split
  · exact .ok rfl (by simp only [← h.locals s hs]; rfl) h
  · exact Matches.pure _ h
  · exact .ok rfl (by simp only [← h.shared]; rfl) h
  · exact Matches.pure _ h
  · exact Matches.effect _ h

theorem write (s : Symbol) (v : Value) (h : Alike P σ τ) :
    Matches (Alike P) (Execution.write s v) (Execution.write s v) σ τ := by
  unfold Execution.write
  split
  · refine .ok rfl rfl ⟨h.shared, fun s' hs' => ?_⟩
    by_cases heq : s' = s
    · subst heq
      simp
    · simpa [heq] using h.locals s' hs'
  · refine .ok rfl rfl ⟨?_, h.locals⟩
    simp [h.shared]
  · exact Matches.effect _ h

end Matches
def Keeps (P : Nat → Prop) (τ τ' : State) : Prop :=
  ∀ s n, IsTemporary s n → P n → τ'.locals s = τ.locals s

theorem Keeps.refl (P : Nat → Prop) (τ : State) : Keeps P τ τ := fun _ _ _ _ => rfl

theorem Keeps.trans {P : Nat → Prop} {τ τ₁ τ₂ : State} (h : Keeps P τ τ₁) (k : Keeps P τ₁ τ₂) :
    Keeps P τ τ₂ :=
  fun s n hs hn => (k s n hs hn).trans (h s n hs hn)

theorem Keeps.imp {P Q : Nat → Prop} {τ τ' : State} (h : Keeps P τ τ') (hQ : ∀ n, Q n → P n) :
    Keeps Q τ τ' :=
  fun s n hs hn => h s n hs (hQ n hn)

theorem Alike.keeps {P : Nat → Prop} {τ τ' : State} (h : Alike P τ τ') : Keeps P τ τ' := by
  intro s n hs hn
  refine h.locals s fun m hm => ?_
  have heq : SymbolId.temporary n = .temporary m := hs.symm.trans hm
  cases heq
  exact hn

theorem Agree.alike {P : Nat → Prop} {τ τ' : State} (h : Agree τ τ') (k : Keeps P τ τ') :
    Alike P τ τ' := by
  refine ⟨h.shared, fun s hs => ?_⟩
  by_cases htemp : ∃ n, IsTemporary s n
  · obtain ⟨n, hn⟩ := htemp
    exact k s n hn (hs n hn)
  · exact h.locals s fun n hn => htemp ⟨n, hn⟩

def Spares {α : Type} (m : Run α) : Prop := ∀ τ a τ', m τ = .ok a τ' → Keeps (fun _ => True) τ τ'

namespace Spares

variable {α β : Type}

theorem pure (a : α) : Spares (Pure.pure a : Run α) := by
  rintro τ _ _ ⟨⟩
  exact Keeps.refl _ τ

theorem bind {m : Run α} {f : α → Run β} (hm : Spares m) (hf : ∀ a, Spares (f a)) :
    Spares (m >>= f) := by
  intro τ b τ'' h
  cases hrun : m τ with
  | ok a τ' =>
    rw [bind_ok hrun] at h
    exact (hm τ a τ' hrun).trans (hf a τ' b τ'' h)
  | error k τ' =>
    rw [bind_error hrun] at h
    cases h

theorem effect (e : Effect α) : Spares (perform e) := by
  intro τ a τ' h
  cases he : e τ.shared with
  | ok b w =>
    rw [perform_ok he] at h
    cases h
    exact fun _ _ _ _ => rfl
  | error k w =>
    rw [perform_error he] at h
    cases h

theorem read (x : Environment) (s : Symbol) : Spares (x.read s) := by
  unfold Environment.read
  split
  · rintro τ _ _ ⟨⟩
    exact Keeps.refl _ τ
  · exact Spares.pure _
  · rintro τ _ _ ⟨⟩
    exact Keeps.refl _ τ
  · exact Spares.pure _
  · exact Spares.effect _

theorem write {s : Symbol} (hs : ∀ n, ¬IsTemporary s n) (v : Value) :
    Spares (Execution.write s v) := by
  unfold Execution.write
  split
  · rintro τ _ _ ⟨⟩ s' n hs' -
    have hne : s' ≠ s := by
      rintro rfl
      exact hs n hs'
    simp [hne]
  · rintro τ _ _ ⟨⟩
    exact fun _ _ _ _ => rfl
  · exact Spares.effect _

end Spares
end Execution

namespace Flat

open Execution

mutual

/-- An expression mentions only temporaries up to a number, which are local variables, and sets
none. -/
def Expr.Within (k : Nat) : Expr → Prop
  | .symbol s => ∀ n, IsTemporary s n → n ≤ k ∧ s.kind = .localVariable
  | .assign target value => (∀ n, ¬IsTemporary target n) ∧ value.Within k
  | .assignElement array index _ value => array.Within k ∧ index.Within k ∧ value.Within k
  | .binary _ _ left right _ => left.Within k ∧ right.Within k
  | .unary _ operand _ | .convert _ operand _ => operand.Within k
  | .call _ args _ => withinAll k args
  | .index target index _ => target.Within k ∧ index.Within k
  | .length target => target.Within k
  | .newArray _ size _ => size.Within k
  | .literal _ _ | .invalid => True

/-- Expressions mention only temporaries up to a number and set none. -/
def withinAll (k : Nat) : List Expr → Prop
  | [] => True
  | e :: rest => e.Within k ∧ withinAll k rest

end

theorem withinAll_iff {k : Nat} {es : List Expr} : withinAll k es ↔ ∀ e ∈ es, e.Within k := by
  induction es with
  | nil => simp [withinAll]
  | cons e es ih => simp [withinAll, ih]

theorem withinAll_append {k : Nat} {a b : List Expr} :
    withinAll k (a ++ b) ↔ withinAll k a ∧ withinAll k b := by
  simp [withinAll_iff, or_imp, forall_and]

theorem Expr.Within.mono {k k' : Nat} (hk : k ≤ k') {e : Expr} (h : e.Within k) : e.Within k' := by
  induction e using Expr.induction with
  | literal | invalid => trivial
  | symbol s => exact fun n hn => ⟨Nat.le_trans (h n hn).1 hk, (h n hn).2⟩
  | assign target value ih =>
    simp only [Expr.Within] at h ⊢
    exact ⟨h.1, ih h.2⟩
  | assignElement array index t value iha ihi ihv =>
    simp only [Expr.Within] at h ⊢
    exact ⟨iha h.1, ihi h.2.1, ihv h.2.2⟩
  | binary op operand left right t ihl ihr =>
    simp only [Expr.Within] at h ⊢
    exact ⟨ihl h.1, ihr h.2⟩
  | unary op operand t ih =>
    simp only [Expr.Within] at h ⊢
    exact ih h
  | call callable args t ih =>
    simp only [Expr.Within, withinAll_iff] at h ⊢
    exact fun e he => ih e he (h e he)
  | convert kind operand t ih =>
    simp only [Expr.Within] at h ⊢
    exact ih h
  | index target index t iht ihi =>
    simp only [Expr.Within] at h ⊢
    exact ⟨iht h.1, ihi h.2⟩
  | length target ih =>
    simp only [Expr.Within] at h ⊢
    exact ih h
  | newArray element size t ih =>
    simp only [Expr.Within] at h ⊢
    exact ih h

theorem withinAll.mono {k k' : Nat} (hk : k ≤ k') {es : List Expr} (h : withinAll k es) :
    withinAll k' es := by
  rw [withinAll_iff] at h ⊢
  exact fun e he => (h e he).mono hk

section

variable {x : Environment} {k : Nat}

theorem spares_evalAll {es : List Expr} (h : ∀ e ∈ es, Spares (eval x e)) :
    Spares (evalAll x es) := by
  induction es with
  | nil =>
    simp only [evalAll]
    exact Spares.pure _
  | cons e rest ih =>
    rw [List.forall_mem_cons] at h
    simp only [evalAll]
    exact Spares.bind h.1 fun v => Spares.bind (ih h.2) fun vs => Spares.pure _

/-- Evaluation changes no temporary. -/
theorem spares_eval {e : Expr} (h : e.Within k) : Spares (eval x e) := by
  induction e using Expr.induction with
  | literal v t =>
    simp only [eval]
    exact Spares.pure _
  | symbol s =>
    simp only [eval]
    exact Spares.read x s
  | assign target value ih =>
    simp only [Expr.Within] at h
    simp only [eval]
    exact Spares.bind (ih h.2) fun v => Spares.bind (Spares.write h.1 v) fun _ => Spares.pure _
  | assignElement array index t value iha ihi ihv =>
    simp only [Expr.Within] at h
    simp only [eval]
    refine Spares.bind (iha h.1) fun a => Spares.bind (ihi h.2.1) fun i => ?_
    exact Spares.bind (ihv h.2.2) fun v => Spares.bind (Spares.effect _) fun _ => Spares.pure _
  | binary op operand left right t ihl ihr =>
    simp only [Expr.Within] at h
    simp only [eval]
    exact Spares.bind (ihl h.1) fun a => Spares.bind (ihr h.2) fun b => Spares.effect _
  | unary op operand t ih =>
    simp only [Expr.Within] at h
    simp only [eval]
    exact Spares.bind (ih h) fun v => Spares.effect _
  | call callable args t ih =>
    simp only [Expr.Within, withinAll_iff] at h
    simp only [eval]
    exact Spares.bind (spares_evalAll fun e he => ih e he (h e he)) fun vs => Spares.effect _
  | convert kind operand t ih =>
    simp only [Expr.Within] at h
    simp only [eval]
    exact Spares.bind (ih h) fun v => Spares.effect _
  | index target index t iht ihi =>
    simp only [Expr.Within] at h
    simp only [eval]
    exact Spares.bind (iht h.1) fun a => Spares.bind (ihi h.2) fun i => Spares.effect _
  | length target ih =>
    simp only [Expr.Within] at h
    simp only [eval]
    exact Spares.bind (ih h) fun a => Spares.effect _
  | newArray element size t ih =>
    simp only [Expr.Within] at h
    simp only [eval]
    exact Spares.bind (ih h) fun n => Spares.effect _
  | invalid =>
    simp only [eval]
    exact Spares.effect _

theorem matches_evalAll {P : Nat → Prop} {es : List Expr}
    (h : ∀ e ∈ es, ∀ {σ τ}, Alike P σ τ → Matches (Alike P) (eval x e) (eval x e) σ τ)
    {σ τ : State} (ha : Alike P σ τ) : Matches (Alike P) (evalAll x es) (evalAll x es) σ τ := by
  induction es generalizing σ τ with
  | nil =>
    simp only [evalAll]
    exact Matches.pure _ ha
  | cons e rest ih =>
    rw [List.forall_mem_cons] at h
    simp only [evalAll]
    refine Matches.bind (h.1 ha) fun v σ₁ τ₁ ha₁ => Matches.bind (ih h.2 ha₁) ?_
    exact fun vs _ _ ha₂ => Matches.pure _ ha₂

/-- An expression has the same outcome whatever the temporaries are that it does not mention. -/
theorem matches_eval {e : Expr} (h : e.Within k) {σ τ : State} (ha : Alike (· ≤ k) σ τ) :
    Matches (Alike (· ≤ k)) (eval x e) (eval x e) σ τ := by
  induction e using Expr.induction generalizing σ τ with
  | literal v t =>
    simp only [eval]
    exact Matches.pure _ ha
  | symbol s =>
    simp only [eval]
    exact Matches.read x ha fun n hn => (h n hn).1
  | assign target value ih =>
    simp only [Expr.Within] at h
    simp only [eval]
    refine Matches.bind (ih h.2 ha) fun v _ _ ha₁ => Matches.bind (Matches.write _ v ha₁) ?_
    exact fun _ _ _ ha₂ => Matches.pure _ ha₂
  | assignElement array index t value iha ihi ihv =>
    simp only [Expr.Within] at h
    simp only [eval]
    refine Matches.bind (iha h.1 ha) fun a _ _ ha₁ => Matches.bind (ihi h.2.1 ha₁) ?_
    refine fun i _ _ ha₂ => Matches.bind (ihv h.2.2 ha₂) fun v _ _ ha₃ => ?_
    exact Matches.bind (Matches.effect _ ha₃) fun _ _ _ ha₄ => Matches.pure _ ha₄
  | binary op operand left right t ihl ihr =>
    simp only [Expr.Within] at h
    simp only [eval]
    refine Matches.bind (ihl h.1 ha) fun a _ _ ha₁ => Matches.bind (ihr h.2 ha₁) ?_
    exact fun b _ _ ha₂ => Matches.effect _ ha₂
  | unary op operand t ih =>
    simp only [Expr.Within] at h
    simp only [eval]
    exact Matches.bind (ih h ha) fun v _ _ ha₁ => Matches.effect _ ha₁
  | call callable args t ih =>
    simp only [Expr.Within, withinAll_iff] at h
    simp only [eval]
    refine Matches.bind (matches_evalAll (fun e he {_ _} ha => ih e he (h e he) ha) ha) ?_
    exact fun vs _ _ ha₁ => Matches.effect _ ha₁
  | convert kind operand t ih =>
    simp only [Expr.Within] at h
    simp only [eval]
    exact Matches.bind (ih h ha) fun v _ _ ha₁ => Matches.effect _ ha₁
  | index target index t iht ihi =>
    simp only [Expr.Within] at h
    simp only [eval]
    refine Matches.bind (iht h.1 ha) fun a _ _ ha₁ => Matches.bind (ihi h.2 ha₁) ?_
    exact fun i _ _ ha₂ => Matches.effect _ ha₂
  | length target ih =>
    simp only [Expr.Within] at h
    simp only [eval]
    exact Matches.bind (ih h ha) fun a _ _ ha₁ => Matches.effect _ ha₁
  | newArray element size t ih =>
    simp only [Expr.Within] at h
    simp only [eval]
    exact Matches.bind (ih h ha) fun n _ _ ha₁ => Matches.effect _ ha₁
  | invalid =>
    simp only [eval]
    exact Matches.effect _ ha

end

end Flat
end TypedScript
