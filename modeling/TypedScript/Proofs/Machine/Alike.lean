import TypedScript.Machine.Run
import TypedScript.Proofs.Machine.Loading
import TypedScript.Proofs.Machine.Past

/-!
# Two machines that do the same

The cells of the stack above all calls in progress hold whatever earlier calls have left there. A call
sets its cells before it reads them, so two machines that differ in what was before, and in what these
cells hold, take the same steps. It may take more off the stack than it put there, and store into its
cells above the top; this is why cells stay live until the call that owns them has ended.
-/

namespace TypedScript

/-- The cells up to the end of the arguments and locals of a call. -/
def Activation.Owns (M : Module) (f : Activation) (i : Nat) : Prop :=
  ∃ g, M.method? f.method.toNat = some g ∧ (i : Int) < f.base + g.params.size + g.locals.size

namespace Machine

def Live (m : Machine) (i : Nat) : Prop :=
  (i : Int) < m.top ∨ ∃ f ∈ m.calls, f.Owns m.module i

/-- The outermost call begins at the bottom of the stack, and calls are not nested too deep. -/
structure Upright (M : Module) (depth : Int) (m : Machine) : Prop where
  module : m.module = M
  inRange : M.InRange
  linked : M.linkNatives = .ok m.natives.toList
  maxDepth : m.maxDepth = depth
  calls : (m.calls.length : Int) ≤ max depth 0
  top : 0 ≤ m.top
  outermost : ∀ f, m.calls.getLast? = some f → f.base = 0

def later (p : Past) (cells : Array Value) (m : Machine) : Machine :=
  { m with
    statics? := m.statics?.map fun s => s.map (Value.after p)
    cells
    heap := m.heap.after p
    boxes := p.boxes + m.boxes
    output := p.output ++ m.output }

/-- A machine differs from another by what was before, and in the cells that are not live. -/
structure Alike (M : Module) (depth : Int) (p : Past) (m n : Machine) : Prop where
  upright : n.Upright M depth
  eq : m = n.later p m.cells
  cells : ∀ i, n.Live i → ∃ v, n.cells[i]? = some v ∧ m.cells[i]? = some (v.after p)
  room : 0 < n.cells.size ∧ 0 < m.cells.size

variable {M : Module} {depth : Int} {p : Past} {m n : Machine}

namespace Alike

theorem top_eq (h : Alike M depth p m n) : m.top = n.top := by rw [h.eq]; rfl

theorem calls_eq (h : Alike M depth p m n) : m.calls = n.calls := by rw [h.eq]; rfl

theorem output_eq (h : Alike M depth p m n) : m.output = p.output ++ n.output := by rw [h.eq]; rfl

theorem module_eq (h : Alike M depth p m n) : m.module = M := by
  rw [h.eq]
  exact h.upright.module

theorem locate_eq (h : Alike M depth p m n) (c : Cause) : m.locate c = n.locate c := by
  rw [h.eq]
  rfl

/-- Everything below the top is stored. -/
theorem top_le (h : Alike M depth p m n) : n.top ≤ n.cells.size ∧ n.top ≤ m.cells.size := by
  constructor
  · by_contra hlt
    obtain ⟨v, hv, -⟩ := h.cells n.cells.size (.inl (Int.lt_of_not_ge hlt))
    simp at hv
  · by_contra hlt
    obtain ⟨v, -, hv⟩ := h.cells m.cells.size (.inl (Int.lt_of_not_ge hlt))
    simp at hv

/-- What is neither on the stack nor a call may change on both in the same way. -/
theorem update (h : Alike M depth p m n) (n' : Machine)
    (hn : n' = { n with
      statics? := n'.statics?, heap := n'.heap, boxes := n'.boxes, input := n'.input
      output := n'.output, clock := n'.clock, generator := n'.generator }) :
    Alike M depth p (n'.later p m.cells) n' := by
  obtain ⟨hup, -, hcells, hroom⟩ := h
  rw [hn]
  exact ⟨⟨hup.module, hup.inRange, hup.linked, hup.maxDepth, hup.calls, hup.top, hup.outermost⟩, rfl,
    hcells, hroom⟩

/-- Fewer calls and a lower stack leave fewer cells live. -/
theorem drop (h : Alike M depth p m n) (k : Nat) :
    Alike M depth p { m with calls := n.calls.drop k } { n with calls := n.calls.drop k } := by
  obtain ⟨hup, heq, hcells, hroom⟩ := h
  refine ⟨⟨hup.module, hup.inRange, hup.linked, hup.maxDepth, ?_, hup.top, ?_⟩, ?_, ?_, hroom⟩
  · have hcalls := hup.calls
    simp only [List.length_drop]
    omega
  · intro f hf
    rw [List.getLast?_drop] at hf
    split at hf
    · cases hf
    · exact hup.outermost f hf
  · rw [heq]
    rfl
  · rintro i (hi | ⟨f, hf, hi⟩)
    · exact hcells i (.inl hi)
    · exact hcells i (.inr ⟨f, List.mem_of_mem_drop hf, hi⟩)

/-- A call begins whose arguments and locals are on the stack. -/
theorem addCall (h : Alike M depth p m n) {f : Activation} (hdepth : (n.calls.length : Int) < depth)
    (houtermost : n.calls = [] → f.base = 0) (howns : ∀ i, f.Owns M i → (i : Int) < n.top) :
    Alike M depth p { m with calls := f :: m.calls } { n with calls := f :: n.calls } := by
  obtain ⟨hup, heq, hcells, hroom⟩ := h
  refine ⟨⟨hup.module, hup.inRange, hup.linked, hup.maxDepth, ?_, hup.top, ?_⟩, ?_, ?_, hroom⟩
  · simp only [List.length_cons]
    omega
  · intro g hg
    dsimp only at hg
    cases hcalls : n.calls with
    | nil =>
      rw [hcalls] at hg
      obtain rfl := Option.some.inj hg
      exact houtermost hcalls
    | cons f' rest =>
      rw [hcalls, List.getLast?_cons_cons, ← hcalls] at hg
      exact hup.outermost g hg
  · rw [heq]
    rfl
  · rintro i (hi | ⟨g, hg, hi⟩)
    · exact hcells i (.inl hi)
    · rcases List.mem_cons.mp hg with rfl | hg
      · dsimp only at hi
        rw [hup.module] at hi
        exact hcells i (.inl (howns i hi))
      · exact hcells i (.inr ⟨g, hg, hi⟩)

/-- A call goes on elsewhere. -/
theorem goOn (h : Alike M depth p m n) {f : Activation} {rest : List Activation}
    (hcalls : n.calls = f :: rest) (next : Int) :
    Alike M depth p { m with calls := { f with next } :: rest }
      { n with calls := { f with next } :: rest } := by
  obtain ⟨hup, heq, hcells, hroom⟩ := h
  refine ⟨⟨hup.module, hup.inRange, hup.linked, hup.maxDepth, ?_, hup.top, ?_⟩, ?_, ?_, hroom⟩
  · simpa [hcalls] using hup.calls
  · intro g hg
    have houter := hup.outermost
    rw [hcalls] at houter
    cases rest with
    | nil =>
      obtain rfl := Option.some.inj hg
      exact houter f rfl
    | cons f' rest =>
      rw [List.getLast?_cons_cons] at hg houter
      exact houter g hg
  · rw [heq]
    rfl
  · rintro i (hi | ⟨g, hg, hi⟩)
    · exact hcells i (.inl hi)
    · rcases List.mem_cons.mp hg with rfl | hg
      · exact hcells i (.inr ⟨f, by simp [hcalls], hi⟩)
      · exact hcells i (.inr ⟨g, by simp [hcalls, hg], hi⟩)

end Alike
end Machine

/-- Two machines did the same: with related results, or they stopped for the same reason. Of a machine
that crashed only the output counts. -/
inductive Outcome (M : Module) (depth : Int) (p : Past) {α β : Type} (R : α → β → Prop) :
    EStateM.Result Stop Machine α → EStateM.Result Stop Machine β → Prop
  | ok {x : α} {y : β} {m n : Machine} (hxy : R x y) (h : m.Alike M depth p n) :
    Outcome M depth p R (.ok x m) (.ok y n)
  | stop {m n : Machine} (s : Stop) (h : m.Alike M depth p n) :
    Outcome M depth p R (.error s m) (.error s n)
  | crash (message? : Option String) {m n : Machine} (h : m.output = p.output ++ n.output) :
    Outcome M depth p R (.error (.crash message?) m) (.error (.crash message?) n)

namespace Action

def Tracks (M : Module) (depth : Int) (p : Past) {α β : Type} (R : α → β → Prop) (a : Action α)
    (b : Action β) : Prop :=
  ∀ m n, m.Alike M depth p n → Outcome M depth p R (a m) (b n)

end Action

variable {M : Module} {depth : Int} {p : Past} {α β γ δ : Type} {R : α → β → Prop} {S : γ → δ → Prop}

theorem Outcome.bind {a : Action α} {b : Action β} {f : α → Action γ} {g : β → Action δ}
    {m n : Machine} (h : Outcome M depth p R (a m) (b n))
    (hf : ∀ x y m' n', b n = .ok y n' → R x y → m'.Alike M depth p n' →
      Outcome M depth p S (f x m') (g y n')) :
    Outcome M depth p S ((a >>= f) m) ((b >>= g) n) := by
  simp only [Bind.bind, EStateM.bind]
  generalize ha : a m = r at h
  generalize hb : b n = r' at h
  cases h with
  | ok hxy h => exact hf _ _ _ _ hb hxy h
  | stop s h => exact .stop s h
  | crash message? h => exact .crash message? h

theorem Outcome.get_bind {f : Machine → Action γ} {g : Machine → Action δ} {m n : Machine}
    (h : Outcome M depth p S (f m m) (g n n)) :
    Outcome M depth p S ((MonadState.get >>= f) m) ((MonadState.get >>= g) n) := h

namespace Action
namespace Tracks

theorem bind {a : Action α} {b : Action β} {f : α → Action γ} {g : β → Action δ}
    (ha : Tracks M depth p R a b) (hf : ∀ x y, R x y → Tracks M depth p S (f x) (g y)) :
    Tracks M depth p S (a >>= f) (b >>= g) := fun m n h =>
  (ha m n h).bind fun x y m' n' _ hxy h' => hf x y hxy m' n' h'

theorem pure {x : α} {y : β} (h : R x y) :
    Tracks M depth p R (Pure.pure x : Action α) (Pure.pure y : Action β) := fun _ _ hmn => .ok h hmn

theorem get_bind {f : Machine → Action γ} {g : Machine → Action δ}
    (hf : ∀ m n, m.Alike M depth p n → Tracks M depth p S (f m) (g n)) :
    Tracks M depth p S (MonadState.get >>= f) (MonadState.get >>= g) := fun m n h => hf m n h m n h

theorem modify {f g : Machine → Machine} (hf : ∀ n cells, f (n.later p cells) = (g n).later p cells)
    (hg : ∀ n, g n = { n with
      statics? := (g n).statics?, heap := (g n).heap, boxes := (g n).boxes, input := (g n).input
      output := (g n).output, clock := (g n).clock, generator := (g n).generator }) :
    Tracks M depth p Eq (modify f : Action Unit) (modify g) := by
  intro m n h
  refine .ok rfl ?_
  have hm := h.eq
  change Machine.Alike M depth p (f m) (g n)
  rw [hm, hf]
  exact h.update (g n) (hg n)

theorem throw (s : Stop) :
    Tracks M depth p R (MonadExcept.throw s : Action α) (MonadExcept.throw s : Action β) :=
  fun _ _ h => .stop s h

theorem crash : Tracks M depth p R (crash : Action α) (crash : Action β) := throw _

theorem fail (c : Cause) : Tracks M depth p R (fail c : Action α) (fail c : Action β) := by
  intro m n h
  unfold Action.fail
  rw [h.locate_eq]
  exact .stop _ h

theorem orFail (f : β → α) (r : Except Cause β) :
    Tracks M depth p (fun x y => x = f y) (orFail (r.map f)) (orFail r) := by
  cases r with
  | ok y => exact pure rfl
  | error c => exact fail c

theorem orFail_same (r : Except Cause α) : Tracks M depth p Eq (Action.orFail r) (Action.orFail r) := by
  cases r with
  | ok y => exact pure rfl
  | error c => exact fail c

theorem orCrash (f : β → α) (o : Option β) :
    Tracks M depth p (fun x y => x = f y) (orCrash (o.map f)) (orCrash o) := by
  cases o with
  | some y => exact pure rfl
  | none => exact crash

theorem entry (f : β → α) (table : Array β) (i : Int) :
    Tracks M depth p (fun x y => x = f y) (entry (table.map f) i) (entry table i) := by
  unfold Action.entry
  split
  · exact crash
  · rw [Array.getElem?_map]
    exact orCrash f _

theorem entry_same (table : Array α) (i : Int) :
    Tracks M depth p Eq (Action.entry table i) (Action.entry table i) := by
  simpa using entry (M := M) (p := p) id table i

end Tracks

/-- Pushing stores a value at the top and changes no other cell. -/
theorem push_eq (v : Value) {m : Machine} (htop : 0 ≤ m.top) (hle : m.top ≤ m.cells.size)
    (hroom : 0 < m.cells.size) :
    ∃ cells, push v m = .ok () { m with cells, top := m.top + 1 } ∧
      cells[m.top.toNat]? = some v ∧ (∀ i < m.cells.size, i ≠ m.top.toNat → cells[i]? = m.cells[i]?) ∧
      m.cells.size ≤ cells.size := by
  unfold push
  rw [if_neg (Int.not_lt.mpr htop)]
  by_cases hfull : m.top.toNat < m.cells.size
  · refine ⟨m.cells.set! m.top.toNat v, by simp [hfull], by simp [hfull], fun i hi hne => ?_, by simp⟩
    simp [hne.symm]
  · refine ⟨(m.cells ++ Array.replicate m.cells.size Value.null).set! m.top.toNat v, by simp [hfull],
      ?_, fun i hi hne => ?_, by simp⟩
    · have hlt : m.top.toNat < m.cells.size + m.cells.size := by omega
      simp [hlt]
    · simp [hne.symm, Array.getElem?_append_left hi]

namespace Tracks

theorem push (v : Value) : Tracks M depth p Eq (push (v.after p)) (push v) := by
  intro m n h
  obtain ⟨hn, hm⟩ := h.top_le
  have htop := h.upright.top
  obtain ⟨cells, hpush, hat, hother, hsize⟩ := push_eq v htop hn h.room.1
  obtain ⟨cells', hpush', hat', hother', hsize'⟩ := push_eq (v.after p) (m := m)
    (by rw [h.top_eq]; exact htop) (by rw [h.top_eq]; exact hm) h.room.2
  rw [h.top_eq] at hat' hother'
  rw [hpush, hpush']
  obtain ⟨hup, heq, hcells, hroom⟩ := h
  refine .ok rfl ⟨⟨hup.module, hup.inRange, hup.linked, hup.maxDepth, hup.calls, ?_, hup.outermost⟩,
    ?_, ?_, ?_⟩
  · exact Int.le_add_one htop
  · rw [heq]
    rfl
  · intro i hi
    by_cases hne : i = n.top.toNat
    · subst hne
      exact ⟨v, hat, hat'⟩
    · have hlive : n.Live i := by
        rcases hi with hi | hi
        · refine .inl ?_
          change (i : Int) < n.top + 1 at hi
          omega
        · exact .inr hi
      obtain ⟨w, hw, hw'⟩ := hcells i hlive
      refine ⟨w, ?_, ?_⟩
      · rw [← hw]
        exact hother i (Array.getElem?_eq_some_iff.mp hw).1 hne
      · rw [← hw']
        exact hother' i (Array.getElem?_eq_some_iff.mp hw').1 hne
  · exact ⟨hroom.1.trans_le hsize, hroom.2.trans_le hsize'⟩

end Tracks
end Action

namespace Machine
namespace Alike

variable {m n : Machine}

/-- Where there is something on the stack it can be taken off. -/
theorem pop (h : Alike M depth p m n) (htop : 0 < n.top) :
    ∃ v m' n', Action.pop m = .ok (v.after p) m' ∧ Action.pop n = .ok v n' ∧
      Alike M depth p m' n' ∧ n'.top = n.top - 1 ∧ n'.calls = n.calls := by
  have hpos : 0 ≤ n.top - 1 := by omega
  obtain ⟨v, hv, hv'⟩ := h.cells (n.top - 1).toNat (.inl (by omega))
  refine ⟨v, { m with cells := m.cells.set! (n.top - 1).toNat .null, top := n.top - 1 },
    { n with cells := n.cells.set! (n.top - 1).toNat .null, top := n.top - 1 }, ?_, ?_, ?_, rfl, rfl⟩
  · unfold Action.pop
    simp only [h.top_eq, if_neg (Int.not_lt.mpr hpos), hv']
  · unfold Action.pop
    simp only [if_neg (Int.not_lt.mpr hpos), hv]
  · obtain ⟨hup, heq, hcells, hroom⟩ := h
    refine ⟨⟨hup.module, hup.inRange, hup.linked, hup.maxDepth, hup.calls, hpos, hup.outermost⟩, ?_,
      ?_, by simpa using hroom⟩
    · rw [heq]
      rfl
    · intro i hi
      have hlive : n.Live i := by
        rcases hi with hi | hi
        · refine .inl ?_
          change (i : Int) < n.top - 1 at hi
          omega
        · exact .inr hi
      obtain ⟨w, hw, hw'⟩ := hcells i hlive
      have hlt := (Array.getElem?_eq_some_iff.mp hw).1
      have hlt' := (Array.getElem?_eq_some_iff.mp hw').1
      by_cases hne : (n.top - 1).toNat = i
      · refine ⟨.null, ?_, ?_⟩ <;> simp [hne, hlt, hlt', Value.after]
      · refine ⟨w, ?_, ?_⟩
        · rw [← hw]
          exact Array.getElem?_setIfInBounds_ne hne
        · rw [← hw']
          exact Array.getElem?_setIfInBounds_ne hne

theorem cell (h : Alike M depth p m n) {i : Int} (hi : 0 ≤ i → n.Live i.toNat) :
    Outcome M depth p (Value.IsAfter p) (Action.cell i m) (Action.cell i n) := by
  unfold Action.cell
  by_cases hneg : i < 0
  · rw [if_pos hneg, if_pos hneg]
    exact .crash _ h.output_eq
  · obtain ⟨v, hv, hv'⟩ := h.cells i.toNat (hi (Int.not_lt.mp hneg))
    rw [if_neg hneg, if_neg hneg, hv, hv']
    exact .ok rfl h

theorem setCell (h : Alike M depth p m n) {i : Int} (hi : 0 ≤ i → n.Live i.toNat) (v : Value) :
    Outcome M depth p Eq (Action.setCell i (v.after p) m) (Action.setCell i v n) := by
  unfold Action.setCell
  by_cases hneg : i < 0
  · rw [if_pos (.inl hneg), if_pos (.inl hneg)]
    exact .crash _ h.output_eq
  · obtain ⟨w, hw, hw'⟩ := h.cells i.toNat (hi (Int.not_lt.mp hneg))
    have hlt := (Array.getElem?_eq_some_iff.mp hw).1
    have hlt' := (Array.getElem?_eq_some_iff.mp hw').1
    rw [if_neg (by omega), if_neg (by omega)]
    obtain ⟨hup, heq, hcells, hroom⟩ := h
    refine .ok rfl ⟨⟨hup.module, hup.inRange, hup.linked, hup.maxDepth, hup.calls, hup.top,
      hup.outermost⟩, ?_, ?_, by simpa using hroom⟩
    · rw [heq]
      rfl
    · intro j hj
      obtain ⟨w, hw, hw'⟩ := hcells j hj
      by_cases hne : i.toNat = j
      · subst hne
        exact ⟨v, by simp [hlt], by simp [hlt']⟩
      · exact ⟨w, by simp [hne, hw], by simp [hne, hw']⟩

end Alike
end Machine

namespace Action

/-- Reading a cell changes nothing. -/
theorem cell_eq_ok {i : Int} {v : Value} {m m' : Machine} (h : cell i m = .ok v m') : m' = m := by
  unfold cell at h
  split at h
  · cases h
  · split at h
    · cases h
    · obtain ⟨-, rfl⟩ := EStateM.Result.ok.inj h
      rfl

namespace Tracks

theorem pop : Tracks M depth p (Value.IsAfter p) pop pop := by
  intro m n h
  by_cases htop : 0 < n.top
  · obtain ⟨v, m', n', hm, hn, h', -⟩ := h.pop htop
    rw [hm, hn]
    exact .ok rfl h'
  · unfold Action.pop
    simp only [h.top_eq, if_pos (show n.top - 1 < 0 by omega)]
    exact .crash _ h.output_eq

theorem popMany (k : Nat) : Tracks M depth p Eq (popMany k) (popMany k) := by
  induction k with
  | zero => exact pure rfl
  | succ k ih => exact pop.bind fun _ _ _ => ih

theorem popArgs (k : Nat) :
    Tracks M depth p (fun xs ys => xs = ys.map (Value.after p)) (popArgs k) (popArgs k) := by
  have hgo : ∀ (k : Nat) (args : List Value),
      Tracks M depth p (fun xs ys => xs = ys.map (Value.after p))
        (popArgs.go k (args.map (Value.after p))) (popArgs.go k args) := by
    intro k
    induction k with
    | zero => exact fun args => pure rfl
    | succ k ih =>
      intro args
      refine pop.bind ?_
      rintro _ v rfl
      exact ih (v :: args)
  exact hgo k []

theorem peek : Tracks M depth p (Value.IsAfter p) peek peek := by
  intro m n h
  unfold Action.peek
  rw [h.top_eq]
  exact h.cell fun hpos => .inl (by omega)

theorem text (v : Value) : Tracks M depth p Eq (text (v.after p)) (text v) := by
  refine get_bind fun m n h => ?_
  have heq : (v.after p).format? m.heap = v.format? n.heap := by
    rw [h.eq]
    exact Value.format?_after v
  rw [heq]
  simpa using orCrash (M := M) (p := p) id (v.format? n.heap)

end Tracks
end Action
end TypedScript
