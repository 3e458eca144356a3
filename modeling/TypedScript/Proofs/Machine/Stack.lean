import TypedScript.Proofs.Machine.Answers
import TypedScript.Proofs.Machine.Loading

/-!
# What instructions do, told by the values on the stack

Cells that grow in number and a top are how the machine keeps its stack. What an action does is told
by the list of values that are on the stack, uppermost first, and by the machine around it: where the
stack holds `s` and all else is as in `w`, it comes to a result and leaves `s'` and `w'`.
-/

namespace TypedScript

namespace Machine

def bare (m : Machine) : Machine := { m with cells := #[], top := 0 }

/-- The stack of `m` holds the values `s`, uppermost first; otherwise `m` is like `w`. -/
structure Stacked (w : Machine) (s : List Value) (m : Machine) : Prop where
  same : m.bare = w.bare
  top : m.top = s.length
  cells : ∀ i < s.length, m.cells[i]? = s.reverse[i]?
  room : 0 < m.cells.size

def goto (w : Machine) (next : Int) : Machine :=
  { w with calls := match w.calls with
    | [] => []
    | f :: rest => { f with next } :: rest }

theorem bare_eq_iff {m w : Machine} : m.bare = w.bare ↔
    ∃ cells top, m = { w with cells, top } := by
  constructor
  · intro h
    refine ⟨m.cells, m.top, ?_⟩
    cases m
    cases w
    simp only [bare, mk.injEq] at h ⊢
    simp [h]
  · rintro ⟨cells, top, rfl⟩
    rfl

namespace Stacked

variable {w w' m : Machine} {s : List Value} {v : Value}

/-- A machine is like another if all but their stacks is the same. -/
theorem exists_eq (h : w.Stacked s m) : ∃ cells top, m = { w with cells, top } :=
  bare_eq_iff.mp h.same

theorem module (h : w.Stacked s m) : m.module = w.module := by
  obtain ⟨_, _, rfl⟩ := h.exists_eq
  rfl

theorem natives (h : w.Stacked s m) : m.natives = w.natives := by
  obtain ⟨_, _, rfl⟩ := h.exists_eq
  rfl

theorem calls (h : w.Stacked s m) : m.calls = w.calls := by
  obtain ⟨_, _, rfl⟩ := h.exists_eq
  rfl

theorem statics (h : w.Stacked s m) : m.statics? = w.statics? := by
  obtain ⟨_, _, rfl⟩ := h.exists_eq
  rfl

theorem heap (h : w.Stacked s m) : m.heap = w.heap := by
  obtain ⟨_, _, rfl⟩ := h.exists_eq
  rfl

theorem maxDepth (h : w.Stacked s m) : m.maxDepth = w.maxDepth := by
  obtain ⟨_, _, rfl⟩ := h.exists_eq
  rfl

theorem locate (h : w.Stacked s m) (c : Cause) : m.locate c = w.locate c := by
  obtain ⟨_, _, rfl⟩ := h.exists_eq
  rfl

theorem length_le (h : w.Stacked s m) : s.length ≤ m.cells.size := by
  by_contra hlt
  have hcell := h.cells m.cells.size (by omega)
  rw [Array.getElem?_eq_none (Nat.le_refl _), List.getElem?_eq_getElem (by simp; omega)] at hcell
  cases hcell

/-- A machine is like itself. -/
theorem refl (h : w.Stacked s m) : m.Stacked s m := ⟨rfl, h.top, h.cells, h.room⟩

/-- What is around the stack may change. -/
theorem congr (h : w.Stacked s m) {n : Machine} (hsame : n.bare = w'.bare)
    (hcells : n.cells = m.cells) (htop : n.top = m.top) : w'.Stacked s n :=
  ⟨hsame, htop.trans h.top, fun i hi => by rw [hcells]; exact h.cells i hi, by
    rw [hcells]
    exact h.room⟩

theorem set (h : w.Stacked s m) {cells : Array Value} {s' : List Value} {top : Int}
    (htop : top = s'.length) (hcells : ∀ i < s'.length, cells[i]? = s'.reverse[i]?)
    (hroom : 0 < cells.size) : w.Stacked s' { m with cells, top } :=
  ⟨h.same, htop, hcells, hroom⟩

end Stacked
end Machine

open Machine

def EStateM.Result.of {ε σ α : Type} : Except ε α → σ → EStateM.Result ε σ α
  | .ok x, m => .ok x m
  | .error e, m => .error e m

namespace Action

variable {α β : Type}

/-- With `s` on the stack of a machine like `w` the action ends with `r`, and then `s'` is on the stack
of one like `w'`. -/
def Does (a : Action α) (w : Machine) (s : List Value) (r : Except Stop α) (w' : Machine)
    (s' : List Value) : Prop :=
  ∀ m, w.Stacked s m → ∃ m', a m = EStateM.Result.of r m' ∧ w'.Stacked s' m'

section

variable {a : Action α} {f : α → Action β} {w w₁ w₂ : Machine} {s s₁ s₂ : List Value}

theorem Does.bind {x : α} {r : Except Stop β} (ha : Does a w s (.ok x) w₁ s₁)
    (hf : Does (f x) w₁ s₁ r w₂ s₂) : Does (a >>= f) w s r w₂ s₂ := by
  intro m hm
  obtain ⟨m₁, hrun, hm₁⟩ := ha m hm
  obtain ⟨m₂, hrest, hm₂⟩ := hf m₁ hm₁
  refine ⟨m₂, ?_, hm₂⟩
  change EStateM.bind a f m = _
  rw [EStateM.bind, hrun]
  exact hrest

theorem Does.bind_error {e : Stop} (ha : Does a w s (.error e) w₁ s₁) :
    Does (a >>= f) w s (.error e) w₁ s₁ := by
  intro m hm
  obtain ⟨m₁, hrun, hm₁⟩ := ha m hm
  refine ⟨m₁, ?_, hm₁⟩
  change EStateM.bind a f m = _
  rw [EStateM.bind, hrun]
  rfl

theorem Does.get_bind {f : Machine → Action β} {r : Except Stop β}
    (h : ∀ m, w.Stacked s m → Does (f m) w s r w₁ s₁) : Does (get >>= f) w s r w₁ s₁ := by
  intro m hm
  exact h m hm m hm

theorem does_pure (x : α) : Does (pure x) w s (.ok x) w s := fun m hm => ⟨m, rfl, hm⟩

theorem does_throw (e : Stop) : Does (throw e : Action α) w s (.error e) w s :=
  fun m hm => ⟨m, rfl, hm⟩

theorem does_fail (c : Cause) : Does (fail c : Action α) w s (.error (.fault (w.locate c))) w s := by
  intro m hm
  exact ⟨m, by rw [fail, hm.locate]; rfl, hm⟩

theorem does_orFail_ok {r : Except Cause α} {x : α} (h : r = .ok x) :
    Does (orFail r) w s (.ok x) w s := by
  subst h
  exact does_pure x

theorem does_orFail_error {r : Except Cause α} {c : Cause} (h : r = .error c) :
    Does (orFail r) w s (.error (.fault (w.locate c))) w s := by
  subst h
  exact does_fail c

theorem does_entry {table : Array α} {i : Nat} {x : α} (h : table[i]? = some x) :
    Does (entry table i) w s (.ok x) w s := by
  have hentry : entry table (i : Int) = pure x := by
    rw [entry, if_neg (by omega), Int.toNat_natCast, h]
    rfl
  rw [hentry]
  exact does_pure x

/-- What is around the stack changes. -/
theorem does_modify {f : Machine → Machine}
    (h : ∀ cells top, f { w with cells, top } = { w₁ with cells, top }) :
    Does (modify f : Action Unit) w s (.ok ()) w₁ s := by
  intro m hm
  obtain ⟨cells, top, rfl⟩ := hm.exists_eq
  refine ⟨f { w with cells, top }, rfl, ?_⟩
  rw [h]
  exact hm.congr rfl rfl rfl

end

variable {w w' : Machine} {s s' : List Value} {v : Value}

theorem does_push : Does (push v) w s (.ok ()) w (v :: s) := by
  intro m hm
  have hle := hm.length_le
  have htop : ¬m.top < 0 := by
    rw [hm.top]
    omega
  have hindex : m.top.toNat = s.length := by rw [hm.top, Int.toNat_natCast]
  have hcells : ∀ cells : Array Value, s.length < cells.size →
      (∀ i < s.length, cells[i]? = m.cells[i]?) →
      ∀ i < (v :: s).length, (cells.set! s.length v)[i]? = (v :: s).reverse[i]? := by
    intro cells hsize hsame i hi
    rw [Array.set!_eq_setIfInBounds, Array.getElem?_setIfInBounds, List.reverse_cons]
    by_cases heq : s.length = i
    · subst heq
      simp [hsize]
    · have hlt : i < s.length := by
        rw [List.length_cons] at hi
        omega
      rw [if_neg heq, hsame i hlt, hm.cells i hlt, List.getElem?_append_left (by simpa using hlt)]
  unfold push
  simp only [if_neg htop, hindex]
  by_cases hroom : s.length < m.cells.size
  · rw [if_pos hroom]
    refine ⟨_, rfl, hm.set (by rw [hm.top]; rfl) (hcells m.cells hroom fun _ _ => rfl) ?_⟩
    simpa using hm.room
  · rw [if_neg hroom]
    have hroom' := hm.room
    refine ⟨_, rfl, hm.set (by rw [hm.top]; rfl) (hcells _ ?_ fun i hi => ?_) ?_⟩
    · simp only [Array.size_append, Array.size_replicate]
      omega
    · rw [Array.getElem?_append_left (by omega)]
    · simp only [Array.set!_eq_setIfInBounds, Array.size_setIfInBounds, Array.size_append]
      omega

theorem does_pop : Does pop w (v :: s) (.ok v) w s := by
  intro m hm
  have htop : m.top - 1 = s.length := by
    rw [hm.top, List.length_cons]
    omega
  have hcell : m.cells[s.length]? = some v := by
    rw [hm.cells s.length (by simp), List.reverse_cons]
    simp
  unfold pop
  simp only [htop, Int.toNat_natCast, hcell]
  rw [if_neg (by omega)]
  refine ⟨_, rfl, hm.set rfl (fun i hi => ?_) (by simpa using hm.room)⟩
  rw [Array.set!_eq_setIfInBounds, Array.getElem?_setIfInBounds, if_neg (by omega),
    hm.cells i (by rw [List.length_cons]; omega), List.reverse_cons,
    List.getElem?_append_left (by simpa using hi)]

theorem does_popMany (vs : List Value) : Does (popMany vs.length) w (vs ++ s) (.ok ()) w s := by
  induction vs with
  | nil => exact does_pure ()
  | cons v vs ih => exact does_pop.bind ih

theorem does_popArgs (args : List Value) :
    Does (popArgs args.length) w (args.reverse ++ s) (.ok args) w s := by
  have hgo : ∀ (vs rest : List Value),
      Does (popArgs.go vs.length rest) w (vs ++ s) (.ok (vs.reverse ++ rest)) w s := by
    intro vs
    induction vs with
    | nil => exact fun rest => does_pure rest
    | cons v vs ih =>
      intro rest
      rw [List.reverse_cons, List.append_assoc]
      exact does_pop.bind (ih (v :: rest))
  have h := hgo args.reverse []
  rwa [List.length_reverse, List.reverse_reverse, List.append_nil] at h

theorem does_pushAll {f : α → Value} (xs : List α) :
    Does (xs.forM fun x => push (f x)) w s (.ok ()) w ((xs.map f).reverse ++ s) := by
  induction xs generalizing s with
  | nil => exact does_pure ()
  | cons x rest ih =>
    rw [List.map_cons, List.reverse_cons, List.append_assoc]
    exact does_push.bind ih

theorem does_cell {i : Nat} (h : s.reverse[i]? = some v) : Does (cell i) w s (.ok v) w s := by
  intro m hm
  have hi : i < s.length := by simpa using (List.getElem?_eq_some_iff.mp h).1
  refine ⟨m, ?_, hm⟩
  simp only [cell, Int.toNat_natCast, hm.cells i hi, h]
  rw [if_neg (by omega)]
  rfl

theorem does_peek : Does peek w (v :: s) (.ok v) w (v :: s) := by
  intro m hm
  have htop : m.top - 1 = s.length := by
    rw [hm.top, List.length_cons]
    omega
  rw [peek, htop]
  exact does_cell (by simp) m hm

theorem does_setCell {i : Nat} (hi : i < s.length) :
    Does (setCell i v) w s (.ok ()) w (s.reverse.set i v).reverse := by
  intro m hm
  have hle := hm.length_le
  unfold setCell
  rw [if_neg (by omega), Int.toNat_natCast]
  refine ⟨_, rfl, hm.set (by rw [hm.top]; simp) (fun j hj => ?_) (by simpa using hm.room)⟩
  have hj' : j < s.length := by simpa using hj
  rw [Array.set!_eq_setIfInBounds, Array.getElem?_setIfInBounds, List.reverse_reverse,
    List.getElem?_set]
  by_cases heq : i = j
  · subst heq
    rw [if_pos rfl, if_pos rfl, if_pos (by omega), if_pos (by simpa using hj')]
  · rw [if_neg heq, if_neg heq, hm.cells j hj']

theorem does_methodAt {k : Nat} {g : Method} (h : w.module.method? k = some g) :
    Does (methodAt k) w s (.ok g) w s := by
  refine Does.get_bind fun m hm => ?_
  obtain ⟨hk, -⟩ : w.module.methods[k]? = some (some g) ∧ True :=
    ⟨Option.join_eq_some_iff.mp h, trivial⟩
  rw [← hm.module] at hk
  exact (does_entry hk).bind (does_pure g)

def zeros (g : Method) : List Value := (g.locals.toList.map fun slot => Value.zero slot.type).reverse

/-- A call begins with its locals. -/
theorem does_enter {k : Nat} {g : Method} (h : w.module.method? k = some g)
    (hdepth : (w.calls.length : Int) < w.maxDepth) :
    Does (enter k) w s (.ok ())
      { w with calls := ⟨k, 0, s.length - g.params.size⟩ :: w.calls } (zeros g ++ s) := by
  refine (does_methodAt h).bind (Does.get_bind fun m hm => ?_)
  rw [hm.maxDepth, hm.calls, hm.top, if_neg (by omega)]
  exact (does_pushAll g.locals.toList).bind (does_modify fun _ _ => rfl)

/-- Calls are not nested too deep. -/
theorem does_enter_overflow {k : Nat} {g : Method} (h : w.module.method? k = some g)
    (hdepth : w.maxDepth ≤ w.calls.length) :
    Does (enter k) w s (.error (.fault (w.locate (.stackOverflow g.name)))) w s := by
  refine (does_methodAt h).bind (Does.get_bind fun m hm => ?_)
  rw [hm.maxDepth, hm.calls, if_pos hdepth]
  exact does_fail _

/-- A call ends and takes all off that is above its base. -/
theorem does_leave {f : Activation} {rest : List Activation} (hcalls : w.calls = f :: rest)
    {vs : List Value} (hbase : f.base = s.length) :
    Does leave w (vs ++ s) (.ok ()) { w with calls := rest } s := by
  refine Does.get_bind fun m hm => ?_
  have hcount : (m.top - f.base).toNat = vs.length := by
    rw [hm.top, hbase, List.length_append]
    omega
  rw [hm.calls, hcalls]
  dsimp only
  rw [hcount]
  exact (does_popMany vs).bind (does_modify fun _ _ => rfl)

theorem does_jump (target : Int) : Does (jump target) w s (.ok ()) (w.goto target) s := by
  refine does_modify fun cells top => ?_
  cases w with
  | mk _ _ _ _ _ calls => cases calls <;> rfl

/-- The next instruction is taken, and the call moves on behind it. -/
theorem does_fetch {f : Activation} {rest : List Activation} (hcalls : w.calls = f :: rest)
    {k n : Nat} (hk : f.method = k) (hn : f.next = n) {g : Method}
    (hg : w.module.method? k = some g) {i : Instruction} (hi : g.code[n]? = some i) :
    Does fetch w s (.ok (f, g, i)) (w.goto (n + 1)) s := by
  refine Does.get_bind fun m hm => ?_
  rw [hm.calls, hcalls]
  dsimp only
  rw [hk]
  refine (does_methodAt hg).bind ?_
  rw [hn, if_neg (by omega), Int.toNat_natCast, hi]
  refine Does.bind (does_modify fun cells top => ?_) (does_pure _)
  simp [goto, hcalls, hk]

end Action
end TypedScript
