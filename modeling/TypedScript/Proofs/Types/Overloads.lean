import Mathlib.Data.List.Nodup
import TypedScript.Proofs.Types.Resolution

/-!
# The cheapest overload

The candidates of a group are gone through once, in the order of their declaration, with the least
cost so far and the candidates of that cost. What is left at the end are all cheapest members of the
group, in order. So an overload is chosen exactly if it is the only cheapest one, and in which order
the members stand does not matter.
-/

namespace TypedScript

/-- Two outcomes that differ at most in the order of the overloads that tie. -/
def Resolution.Same : Resolution → Resolution → Prop
  | .resolved c, .resolved d => c = d
  | .notApplicable, .notApplicable => True
  | .ambiguous tied, .ambiguous tied' => tied.Perm tied'
  | _, _ => False

namespace Resolution

variable {ms ns tied : List TypeId} {c : TypeId}

theorem same_ofCheapest (h : ms.Perm ns) : (ofCheapest ms).Same (ofCheapest ns) := by
  match ms, ns, h with
  | [], ns, h =>
    obtain rfl := h.symm.eq_nil
    trivial
  | [c], ns, h =>
    obtain rfl := List.perm_singleton.mp h.symm
    rfl
  | a :: b :: ms, ns, h =>
    have hlength := h.length_eq
    match ns, hlength with
    | _ :: _ :: _, _ => exact h

theorem ofCheapest_eq_resolved_iff (hms : ms.Nodup) :
    ofCheapest ms = .resolved c ↔ c ∈ ms ∧ ∀ d ∈ ms, d = c := by
  match ms, hms with
  | [], _ => simp [ofCheapest]
  | [a], _ => simp [ofCheapest, eq_comm]
  | a :: b :: ms, hms =>
    have hne : a ≠ b := fun h => (List.nodup_cons.mp hms).1 (h ▸ List.mem_cons_self)
    refine ⟨fun h => (by cases h), fun ⟨_, hall⟩ => absurd ?_ hne⟩
    exact (hall a (by simp)).trans (hall b (by simp)).symm

theorem ofCheapest_eq_ambiguous_iff (hms : ms.Nodup) :
    ofCheapest ms = .ambiguous tied ↔ tied = ms ∧ ∃ c ∈ ms, ∃ d ∈ ms, c ≠ d := by
  match ms, hms with
  | [], _ => simp [ofCheapest]
  | [a], _ => simp [ofCheapest]
  | a :: b :: ms, hms =>
    have hne : a ≠ b := fun h => (List.nodup_cons.mp hms).1 (h ▸ List.mem_cons_self)
    constructor
    · rintro ⟨⟩
      exact ⟨rfl, a, by simp, b, by simp, hne⟩
    · rintro ⟨rfl, -⟩
      rfl

theorem ofCheapest_eq_notApplicable_iff : ofCheapest ms = .notApplicable ↔ ms = [] := by
  match ms with
  | [] => simp [ofCheapest]
  | [a] => simp [ofCheapest]
  | a :: b :: ms => simp [ofCheapest]

end Resolution

/-- What is left of a list without repetitions is determined by its elements. -/
theorem eq_of_sublist_of_nodup {α : Type} [DecidableEq α] {xs ys zs : List α} (hzs : zs.Nodup)
    (hx : xs.Sublist zs) (hy : ys.Sublist zs) (h : ∀ a, a ∈ xs ↔ a ∈ ys) : xs = ys := by
  have hfilter : ∀ {ws vs : List α}, vs.Nodup → ws.Sublist vs → vs.filter (· ∈ ws) = ws := by
    intro ws vs hvs hw
    induction hw with
    | slnil => rfl
    | cons a hw ih =>
      have hnot : a ∉ _ := fun ha => (List.nodup_cons.mp hvs).1 (hw.subset ha)
      rw [List.filter_cons_of_neg (by simpa using hnot), ih (List.nodup_cons.mp hvs).2]
    | @cons_cons ws vs a hw ih =>
      rw [List.filter_cons_of_pos (by simp)]
      refine congrArg (a :: ·) (Eq.trans (List.filter_congr fun b hb => ?_)
        (ih (List.nodup_cons.mp hvs).2))
      have hne : b ≠ a := fun hba => (List.nodup_cons.mp hvs).1 (hba ▸ hb)
      simp [hne]
  rw [← hfilter hzs hx, ← hfilter hzs hy]
  exact List.filter_congr fun a _ => by simp [h a]

namespace Registry

/-- A registry as its operations make it. -/
inductive Built : Registry → Prop
  | empty : Built .empty
  | arrayOf {r s : Registry} {element t : TypeId} (h : Built r)
      (hs : r.arrayOf element = .ok (t, s)) : Built s
  | newGroup {r : Registry} (h : Built r) (name parent : String) : Built (r.newGroup name parent).2
  | addCallable {r s : Registry} {c : Callable} {t : TypeId} (h : Built r)
      (hs : r.addCallable c = .ok (t, s)) : Built s
  | adopt {r s : Registry} {group callable : TypeId} (h : Built r)
      (hs : r.adopt group callable = .ok s) : Built s

/-- The registry has a type. -/
def Exists (r : Registry) (t : TypeId) : Prop := ∃ k, r.kind t = .ok k

/-- The members of every group are different callables. -/
def Listed (r : Registry) : Prop := ∀ (i : Nat) (g : Overloads), r.entries[i]? = some (.group g) →
  g.members.Nodup ∧ ∀ m ∈ g.members, ∃ c, r.callable m = .ok c

theorem Listed.push {r : Registry} (h : r.Listed) {e : TypeEntry}
    (he : ∀ g, e = .group g → g.members = []) : (r.push e).2.Listed := by
  intro i g hg
  rw [getElem?_push] at hg
  split at hg
  · rw [he g (Option.some.inj hg)]
    exact ⟨List.nodup_nil, by simp⟩
  · obtain ⟨hnodup, hcallable⟩ := h i g hg
    refine ⟨hnodup, fun m hm => ?_⟩
    obtain ⟨c, hc⟩ := hcallable m hm
    exact ⟨c, callable_mono (le_push r e) hc⟩

theorem Listed.extendGroup {r : Registry} (h : r.Listed) {group m : TypeId} {g : Overloads}
    {c : Callable} (hg : r.group group = .ok g) (hm : r.callable m = .ok c) (hnew : m ∉ g.members) :
    (r.extendGroup group m).Listed := by
  rw [group_eq_ok] at hg
  cases group with
  | derived j =>
    intro i k hk
    have hkeep : ∀ n, (∃ c, r.callable n = .ok c) →
        ∃ c, (r.extendGroup (.derived j) m).callable n = .ok c :=
      fun n ⟨c, hc⟩ => ⟨c, callable_mono (le_extendGroup r j m) hc⟩
    rw [getElem?_extendGroup] at hk
    by_cases hij : j = i
    · subst hij
      rw [if_pos rfl, show r.entries[j]? = some (.group g) from hg] at hk
      obtain ⟨hnodup, hcallable⟩ := h j g hg
      cases hk
      constructor
      · exact List.Nodup.append hnodup (List.nodup_singleton m) (by simpa using hnew)
      · intro n hn
        rcases List.mem_append.mp hn with hn | hn
        · exact hkeep n (hcallable n hn)
        · rw [List.mem_singleton.mp hn]
          exact hkeep m ⟨c, hm⟩
    · rw [if_neg hij] at hk
      obtain ⟨hnodup, hcallable⟩ := h i k hk
      exact ⟨hnodup, fun n hn => hkeep n (hcallable n hn)⟩
  | _ => simp [get?] at hg

/-- No member stands twice in a group: a new callable has a new number, and one that is adopted is
looked for first. -/
theorem Built.listed {r : Registry} (h : r.Built) : r.Listed := by
  induction h with
  | empty =>
    intro i g hg
    simp [Registry.empty] at hg
  | @arrayOf r s element t _ hs ih =>
    rw [Registry.arrayOf_eq] at hs
    split at hs
    · cases hs
      exact ih
    · cases hk : r.kind element with
      | error d =>
        rw [hk] at hs
        cases hs
      | ok k =>
        rw [hk] at hs
        cases hs
        exact ih.push fun g hg => by cases hg
  | newGroup _ name parent ih =>
    refine ih.push fun g hg => ?_
    cases hg
    rfl
  | @addCallable r s c t _ hs ih =>
    cases hg : r.group c.group with
    | error d => simp [Registry.addCallable, hg, bind, Except.bind] at hs
    | ok g =>
      simp only [Registry.addCallable, hg, bind, Except.bind, pure, Except.pure] at hs
      cases hs
      have hold : (r.push (.callable c)).2.entries[r.entries.size]? = some (.callable c) := by
        rw [getElem?_push, if_pos rfl]
      obtain ⟨i, hi⟩ : ∃ i, c.group = .derived i := by
        cases ht : c.group with
        | derived i => exact ⟨i, rfl⟩
        | _ =>
          rw [group_eq_ok, ht] at hg
          simp [get?] at hg
      have hentry : r.entries[i]? = some (.group g) := by
        rw [group_eq_ok, hi] at hg
        exact hg
      have hlt : i < r.entries.size := (Array.getElem?_eq_some_iff.mp hentry).1
      refine (ih.push fun g hg => by cases hg).extendGroup (g := g) (c := c) ?_ ?_ ?_
      · rw [group_eq_ok, hi, get?_derived, getElem?_push, if_neg (Nat.ne_of_lt hlt), hentry]
      · rw [callable_eq_ok]
        exact hold
      · intro hmem
        obtain ⟨d, hd⟩ := (ih i g hentry).2 _ hmem
        rw [callable_eq_ok] at hd
        simp [Registry.push] at hd
  | @adopt r s group callable _ hs ih =>
    cases hc : r.callable callable with
    | error d => simp [Registry.adopt, hc, bind, Except.bind] at hs
    | ok c =>
      cases hg : r.group group with
      | error d => simp [Registry.adopt, hc, hg, bind, Except.bind] at hs
      | ok g =>
        simp only [Registry.adopt, hc, hg, bind, Except.bind, pure, Except.pure] at hs
        split at hs
        · cases hs
          exact ih
        · rename_i hnew
          cases hs
          exact ih.extendGroup hg hc (by simpa using hnew)

def differing (params args : List TypeId) : Nat := (params.zip args).countP fun pa => pa.1 ≠ pa.2

/-- A callable takes arguments of the given types with so many conversions. -/
def Takes (r : Registry) (args : List TypeId) (m : TypeId) (cost : Nat) : Prop :=
  ∃ c, r.callable m = .ok c ∧ r.Accepts c.params args ∧ differing c.params args = cost

/-- A candidate takes the arguments, and none of the candidates does with fewer conversions. -/
def Cheapest (r : Registry) (args candidates : List TypeId) (m : TypeId) : Prop :=
  m ∈ candidates ∧ ∃ cost, r.Takes args m cost ∧
    ∀ n ∈ candidates, ∀ cost', r.Takes args n cost' → cost ≤ cost'

def costOf (r : Registry) (args : List TypeId) (m : TypeId) : Except Defect (Option Nat) := do
  r.conversionCost (← r.callable m).params args

theorem adapts_of_isImplicitlyConvertible {r : Registry} {a p : TypeId} {b : Bool} (hne : a ≠ p)
    (h : r.isImplicitlyConvertible a p = .ok b) : r.Adapts a p ↔ b = true := by
  unfold isImplicitlyConvertible at h
  cases hk : r.classify a p with
  | error d => simp [hk, bind, Except.bind] at h
  | ok k =>
    simp only [hk, bind, Except.bind, pure, Except.pure, Except.ok.injEq] at h
    simp [Adapts, hne, hk, h]

/-- A cost is found exactly if the arguments can be passed, and then it counts the conversions. -/
theorem conversionCost_eq_some {r : Registry} {params args : List TypeId} {o : Option Nat}
    (h : r.conversionCost params args = .ok o) (n : Nat) :
    o = some n ↔ r.Accepts params args ∧ differing params args = n := by
  induction params generalizing args o n with
  | nil =>
    cases args with
    | nil =>
      cases h
      simp [Accepts, differing]
    | cons a as =>
      cases h
      simp [Accepts]
  | cons p ps ih =>
    cases args with
    | nil =>
      cases h
      simp [Accepts]
    | cons a as =>
      have haccepts : r.Accepts (p :: ps) (a :: as) ↔ r.Adapts a p ∧ r.Accepts ps as :=
        List.forall₂_cons
      have hcount : differing (p :: ps) (a :: as) = differing ps as + if p ≠ a then 1 else 0 := by
        simp [differing, List.countP_cons]
      unfold conversionCost at h
      split at h
      · rename_i hlength
        cases h
        have hno : ¬r.Accepts ps as := fun hacc => hlength hacc.length_eq.symm
        simp [haccepts, hno]
      · by_cases heq : a = p
        · subst heq
          rw [if_pos rfl] at h
          rw [ih h, haccepts, hcount]
          simp [Adapts]
        · rw [if_neg heq] at h
          cases hb : r.isImplicitlyConvertible a p with
          | error d => simp [hb, bind, Except.bind] at h
          | ok b =>
            have hadapts := adapts_of_isImplicitlyConvertible heq hb
            cases b with
            | false =>
              simp only [hb, bind, Except.bind, pure, Except.pure] at h
              cases h
              simp [haccepts, hadapts]
            | true =>
              cases hc : r.conversionCost ps as with
              | error d => simp [hb, hc, bind, Except.bind] at h
              | ok o' =>
                simp only [hb, hc, bind, Except.bind, pure, Except.pure] at h
                cases h
                rw [haccepts, hcount, if_pos (Ne.symm heq), Option.map_eq_some_iff]
                constructor
                · rintro ⟨k, hk, rfl⟩
                  obtain ⟨hacc, rfl⟩ := (ih hc k).mp hk
                  exact ⟨⟨hadapts.mpr rfl, hacc⟩, rfl⟩
                · rintro ⟨⟨-, hacc⟩, rfl⟩
                  exact ⟨_, (ih hc _).mpr ⟨hacc, rfl⟩, rfl⟩

theorem costOf_eq_some {r : Registry} {args : List TypeId} {m : TypeId} {o : Option Nat}
    (h : r.costOf args m = .ok o) (n : Nat) : o = some n ↔ r.Takes args m n := by
  unfold costOf at h
  cases hc : r.callable m with
  | error d => simp [hc, bind, Except.bind] at h
  | ok c =>
    simp only [hc, bind, Except.bind] at h
    simp [Takes, hc, conversionCost_eq_some h]

theorem Exists.classify {r : Registry} {s t : TypeId} (hs : r.Exists s) (ht : r.Exists t) :
    ∃ k, r.classify s t = .ok k := by
  obtain ⟨a, ha⟩ := hs
  obtain ⟨b, hb⟩ := ht
  have hvalue : ∀ {u : TypeId} {k : TypeKind}, r.kind u = .ok k → ∃ v, r.isValue u = .ok v := by
    intro u k hk
    cases k <;> exact ⟨_, by simp only [isValue, hk, bind, Except.bind]; rfl⟩
  obtain ⟨v, hv⟩ := hvalue ha
  obtain ⟨w, hw⟩ := hvalue hb
  unfold Registry.classify
  rw [hv, hw]
  split
  · exact ⟨_, rfl⟩
  · cases v with
    | false => exact ⟨_, rfl⟩
    | true => cases w <;> exact ⟨_, rfl⟩

theorem exists_conversionCost {r : Registry} {params args : List TypeId}
    (hp : ∀ p ∈ params, r.Exists p) (ha : ∀ a ∈ args, r.Exists a) :
    ∃ o, r.conversionCost params args = .ok o := by
  induction params generalizing args with
  | nil => cases args <;> exact ⟨_, rfl⟩
  | cons p ps ih =>
    cases args with
    | nil => exact ⟨_, rfl⟩
    | cons a as =>
      rw [List.forall_mem_cons] at hp ha
      obtain ⟨o, ho⟩ := ih hp.2 ha.2
      obtain ⟨k, hk⟩ := ha.1.classify hp.1
      unfold conversionCost
      split
      · exact ⟨_, rfl⟩
      · split
        · exact ⟨o, ho⟩
        · simp only [isImplicitlyConvertible, hk, ho, bind, Except.bind, pure, Except.pure]
          cases k.isImplicit <;> exact ⟨_, rfl⟩

/-- What is known after some candidates: none of them takes the arguments, or there is a least cost,
with all candidates of that cost in order. -/
def Scanned (cost : TypeId → Option Nat) (done : List TypeId) : Option (Nat × List TypeId) → Prop
  | none => ∀ m ∈ done, cost m = none
  | some (least, tied) => tied = done.filter (cost · = some least) ∧ tied ≠ [] ∧
      ∀ m ∈ done, ∀ k, cost m = some k → least ≤ k

section Scan

variable {r : Registry} {args done : List TypeId} {cost : TypeId → Option Nat} {c : TypeId}

theorem Scanned.skip {best : Option (Nat × List TypeId)} (h : Scanned cost done best)
    (hc : cost c = none) : Scanned cost (done ++ [c]) best := by
  cases best with
  | none =>
    intro m hm
    rcases List.mem_append.mp hm with hm | hm
    · exact h m hm
    · rwa [List.mem_singleton.mp hm]
  | some b =>
    obtain ⟨htied, hne, hleast⟩ := h
    refine ⟨?_, hne, ?_⟩
    · rw [List.filter_append, ← htied]
      simp [hc]
    · intro m hm k hk
      rcases List.mem_append.mp hm with hm | hm
      · exact hleast m hm k hk
      · rw [List.mem_singleton.mp hm, hc] at hk
        cases hk

/-- A candidate that is cheaper than all before it is the only one left. -/
theorem Scanned.restart {n : Nat} (hn : cost c = some n)
    (hbefore : ∀ m ∈ done, ∀ k, cost m = some k → n < k) :
    Scanned cost (done ++ [c]) (some (n, [c])) := by
  refine ⟨?_, by simp, ?_⟩
  · have hnone : done.filter (cost · = some n) = [] := by
      rw [List.filter_eq_nil_iff]
      intro m hm heq
      exact Nat.lt_irrefl n (hbefore m hm n (by simpa using heq))
    rw [List.filter_append, hnone]
    simp [hn]
  · intro m hm k hk
    rcases List.mem_append.mp hm with hm | hm
    · exact Nat.le_of_lt (hbefore m hm k hk)
    · rw [List.mem_singleton.mp hm, hn] at hk
      exact Nat.le_of_eq (Option.some.inj hk)

theorem Scanned.keep {least n : Nat} {tied : List TypeId} (h : Scanned cost done (some (least, tied)))
    (hn : cost c = some n) (hle : least ≤ n) :
    Scanned cost (done ++ [c]) (some (least, if n = least then tied ++ [c] else tied)) := by
  obtain ⟨htied, hne, hleast⟩ := h
  refine ⟨?_, ?_, ?_⟩
  · rw [List.filter_append, ← htied]
    split <;> simp_all
  · split
    · simp
    · exact hne
  · intro m hm k hk
    rcases List.mem_append.mp hm with hm | hm
    · exact hleast m hm k hk
    · rw [List.mem_singleton.mp hm, hn] at hk
      exact Nat.le_trans hle (Nat.le_of_eq (Option.some.inj hk))

/-- One candidate after the other is taken into account. -/
theorem Scanned.cheapestFrom {rest : List TypeId} {best : Option (Nat × List TypeId)}
    (h : Scanned cost done best) (hcost : ∀ m ∈ rest, r.costOf args m = .ok (cost m)) :
    ∃ best', Scanned cost (done ++ rest) best' ∧
      r.cheapestFrom args best rest = .ok ((best'.map Prod.snd).getD []) := by
  induction rest generalizing done best with
  | nil => exact ⟨best, by simpa using h, rfl⟩
  | cons c rest ih =>
    rw [List.forall_mem_cons] at hcost
    obtain ⟨hc, hrest⟩ := hcost
    have hstep : ∀ b, Scanned cost (done ++ [c]) b → r.cheapestFrom args best (c :: rest) =
        r.cheapestFrom args b rest → ∃ best', Scanned cost (done ++ c :: rest) best' ∧
          r.cheapestFrom args best (c :: rest) = .ok ((best'.map Prod.snd).getD []) := by
      intro b hb heq
      obtain ⟨best', hbest', hrun⟩ := ih hb hrest
      exact ⟨best', by simpa using hbest', heq.trans hrun⟩
    unfold costOf at hc
    cases hinfo : r.callable c with
    | error d => simp [hinfo, bind, Except.bind] at hc
    | ok info =>
      simp only [hinfo, bind, Except.bind] at hc
      cases hn : cost c with
      | none =>
        rw [hn] at hc
        refine hstep best (h.skip hn) ?_
        cases best <;> simp [Registry.cheapestFrom, hinfo, hc, bind, Except.bind]
      | some n =>
        rw [hn] at hc
        cases best with
        | none =>
          refine hstep (some (n, [c])) (Scanned.restart hn fun m hm k hk => ?_) ?_
          · rw [h m hm] at hk
            cases hk
          · simp [Registry.cheapestFrom, hinfo, hc, bind, Except.bind]
        | some b =>
          obtain ⟨least, tied⟩ := b
          by_cases hlt : n < least
          · refine hstep (some (n, [c])) (Scanned.restart hn fun m hm k hk => ?_) ?_
            · exact Nat.lt_of_lt_of_le hlt (h.2.2 m hm k hk)
            · simp [Registry.cheapestFrom, hinfo, hc, hlt, bind, Except.bind]
          · refine hstep _ (h.keep hn (Nat.le_of_not_lt hlt)) ?_
            by_cases heq : n = least
            · simp [Registry.cheapestFrom, hinfo, hc, heq, bind, Except.bind]
            · simp [Registry.cheapestFrom, hinfo, hc, hlt, heq, bind, Except.bind]

/-- The scan comes to an end only if every candidate has been looked at. -/
theorem costOf_of_cheapestFrom {rest : List TypeId} {best : Option (Nat × List TypeId)}
    {ms : List TypeId} (h : r.cheapestFrom args best rest = .ok ms) :
    ∀ m ∈ rest, ∃ o, r.costOf args m = .ok o := by
  induction rest generalizing best with
  | nil => simp
  | cons c rest ih =>
    unfold Registry.cheapestFrom at h
    cases hinfo : r.callable c with
    | error d => simp [hinfo, bind, Except.bind] at h
    | ok info =>
      cases hcost : r.conversionCost info.params args with
      | error d => simp [hinfo, hcost, bind, Except.bind] at h
      | ok o =>
        have hc : r.costOf args c = .ok o := by simp [costOf, hinfo, hcost, bind, Except.bind]
        simp only [hinfo, hcost, bind, Except.bind] at h
        rw [List.forall_mem_cons]
        refine ⟨⟨o, hc⟩, ?_⟩
        split at h
        · exact ih h
        · exact ih h
        · split at h
          · exact ih h
          · split at h <;> exact ih h

end Scan

/-- The candidates that are left are the cheapest ones, in order, and there are some if there is one
that takes the arguments. -/
theorem cheapestFrom_eq_ok {r : Registry} {args candidates ms : List TypeId}
    (h : r.cheapestFrom args none candidates = .ok ms) :
    ms.Sublist candidates ∧ (∀ m, m ∈ ms ↔ r.Cheapest args candidates m) ∧
      (ms = [] → ∀ m ∈ candidates, ∀ cost, ¬r.Takes args m cost) := by
  have hall := costOf_of_cheapestFrom h
  choose! cost hcost using hall
  have hnone : Scanned cost [] none := by simp [Scanned]
  obtain ⟨best, hbest, hrun⟩ := hnone.cheapestFrom hcost
  rw [h, List.nil_append] at *
  cases hrun
  have htakes : ∀ m ∈ candidates, ∀ k, cost m = some k ↔ r.Takes args m k :=
    fun m hm => costOf_eq_some (hcost m hm)
  cases best with
  | none =>
    have hno : ∀ m ∈ candidates, ∀ k, ¬r.Takes args m k := by
      intro m hm k hk
      have hnone := hbest m hm
      rw [(htakes m hm k).mpr hk] at hnone
      cases hnone
    refine ⟨List.nil_sublist _, fun m => ⟨fun hm => by simp at hm, ?_⟩, fun _ => hno⟩
    rintro ⟨hm, k, hk, -⟩
    exact absurd hk (hno m hm k)
  | some b =>
    obtain ⟨least, tied⟩ := b
    obtain ⟨htied, hne, hleast⟩ := hbest
    have hmem : ∀ m, m ∈ tied ↔ m ∈ candidates ∧ cost m = some least := by
      intro m
      rw [htied, List.mem_filter, decide_eq_true_eq]
    refine ⟨?_, fun m => ?_, fun hnil => absurd hnil hne⟩
    · change tied.Sublist candidates
      rw [htied]
      exact List.filter_sublist
    · change m ∈ tied ↔ _
      rw [hmem]
      constructor
      · rintro ⟨hm, hk⟩
        refine ⟨hm, least, (htakes m hm least).mp hk, fun n hn j hj => ?_⟩
        exact hleast n hn j ((htakes n hn j).mpr hj)
      · rintro ⟨hm, k, hk, hmin⟩
        obtain ⟨w, hw⟩ := List.exists_mem_of_ne_nil tied hne
        obtain ⟨hwmem, hwcost⟩ := (hmem w).mp hw
        have hle := hmin w hwmem least ((htakes w hwmem least).mp hwcost)
        have hcostm := (htakes m hm k).mpr hk
        have hge := hleast m hm k hcostm
        exact ⟨hm, by rw [hcostm, Nat.le_antisymm hle hge]⟩

/-- The registry with the members of a group replaced. -/
def withMembers (r : Registry) (group : TypeId) (members : List TypeId) : Registry :=
  match group with
  | .derived i =>
    ⟨r.entries.modify i fun
      | .group g => .group { g with members }
      | e => e⟩
  | _ => r

section Reordered

variable {r : Registry} {group : TypeId} {g : Overloads} {ms : List TypeId}

theorem get?_withMembers (hg : r.group group = .ok g) (t : TypeId) :
    Registry.get? (r.withMembers group ms) t =
      if t = group then some (.group { g with members := ms }) else r.get? t := by
  rw [group_eq_ok] at hg
  cases group with
  | derived i =>
    cases t with
    | derived j =>
      simp only [withMembers, get?_derived, Array.getElem?_modify, TypeId.derived.injEq]
      by_cases hij : i = j
      · subst hij
        rw [if_pos rfl, if_pos rfl, show r.entries[i]? = some (.group g) from hg]
        rfl
      · rw [if_neg hij, if_neg (Ne.symm hij)]
    | _ => simp [get?]
  | _ => simp [get?] at hg

theorem kind_withMembers (hg : r.group group = .ok g) (t : TypeId) :
    (r.withMembers group ms).kind t = r.kind t := by
  unfold kind
  rw [get?_withMembers hg]
  by_cases ht : t = group
  · subst ht
    rw [if_pos rfl, group_eq_ok.mp hg]
  · rw [if_neg ht]

theorem callable_withMembers (hg : r.group group = .ok g) (t : TypeId) :
    (r.withMembers group ms).callable t = r.callable t := by
  unfold callable kindDefect
  rw [get?_withMembers hg, kind_withMembers hg]
  by_cases ht : t = group
  · subst ht
    rw [if_pos rfl, group_eq_ok.mp hg]
  · rw [if_neg ht]

theorem conversionCost_withMembers (hg : r.group group = .ok g) (params args : List TypeId) :
    (r.withMembers group ms).conversionCost params args = r.conversionCost params args := by
  have hconvertible : ∀ s t, (r.withMembers group ms).isImplicitlyConvertible s t =
      r.isImplicitlyConvertible s t := by
    intro s t
    simp only [isImplicitlyConvertible, classify, isValue, kind_withMembers hg]
  induction params generalizing args with
  | nil => cases args <;> rfl
  | cons p ps ih =>
    cases args with
    | nil => rfl
    | cons a as => simp only [conversionCost, hconvertible, ih]

theorem costOf_withMembers (hg : r.group group = .ok g) (args : List TypeId) (m : TypeId) :
    (r.withMembers group ms).costOf args m = r.costOf args m := by
  simp only [costOf, callable_withMembers hg, conversionCost_withMembers hg]

theorem members_withMembers (hg : r.group group = .ok g) :
    (r.withMembers group ms).members group = .ok ms := by
  have hentry := @get?_withMembers r group g ms hg group
  rw [if_pos rfl] at hentry
  rw [members_eq_ok (group_eq_ok.mpr hentry)]

theorem cheapest_withMembers (hg : r.group group = .ok g) {args candidates : List TypeId}
    {m : TypeId} : (r.withMembers group ms).Cheapest args candidates m ↔ r.Cheapest args candidates m := by
  have hadapts : ∀ s t, (r.withMembers group ms).Adapts s t ↔ r.Adapts s t := by
    intro s t
    simp only [Adapts, classify, isValue, kind_withMembers hg]
  simp only [Cheapest, Takes, Accepts, hadapts, callable_withMembers hg]

end Reordered

theorem resolve_eq_ok_iff {r : Registry} {group : TypeId} {members args : List TypeId}
    (hg : r.members group = .ok members) {o : Resolution} :
    r.resolve group args = .ok o ↔
      ∃ ms, r.cheapestFrom args none members = .ok ms ∧ o = .ofCheapest ms := by
  simp only [resolve, hg, bind, Except.bind, pure, Except.pure]
  cases r.cheapestFrom args none members <;> simp [eq_comm]

theorem exists_cheapestFrom {r : Registry} {args candidates : List TypeId}
    (h : ∀ m ∈ candidates, ∃ o, r.costOf args m = .ok o) :
    ∃ ms, r.cheapestFrom args none candidates = .ok ms := by
  choose! cost hcost using h
  have hnone : Scanned cost [] none := by simp [Scanned]
  obtain ⟨best, -, hrun⟩ := hnone.cheapestFrom hcost
  exact ⟨_, hrun⟩

/-- Overload resolution gives a result if the types exist. It chooses an overload exactly if that is the
only cheapest member, lists all cheapest members in their order exactly if there are two, and finds
none applicable exactly if no member takes the arguments. No other order of the members changes the
outcome, the chosen overload or the set of those that tie. -/
theorem resolve_cheapest {r : Registry} (hr : r.Built) {group : TypeId} {g : Overloads}
    (hg : r.group group = .ok g) (args : List TypeId) :
    ((∀ a ∈ args, r.Exists a) →
      (∀ m ∈ g.members, ∀ c, r.callable m = .ok c → ∀ p ∈ c.params, r.Exists p) →
      ∃ o, r.resolve group args = .ok o) ∧
    ∀ o, r.resolve group args = .ok o →
      (∀ c, o = .resolved c ↔
        r.Cheapest args g.members c ∧ ∀ d, r.Cheapest args g.members d → d = c) ∧
      (∀ tied, o = .ambiguous tied ↔
        (∃ c d, c ≠ d ∧ r.Cheapest args g.members c ∧ r.Cheapest args g.members d) ∧
          tied.Sublist g.members ∧ ∀ m, m ∈ tied ↔ r.Cheapest args g.members m) ∧
      (o = .notApplicable ↔ ∀ m ∈ g.members, ∀ cost, ¬r.Takes args m cost) ∧
      ∀ ms, ms.Perm g.members →
        ∃ o', (r.withMembers group ms).resolve group args = .ok o' ∧ o.Same o' := by
  obtain ⟨hnodup, hcallable⟩ : g.members.Nodup ∧ ∀ m ∈ g.members, ∃ c, r.callable m = .ok c := by
    have hentry := group_eq_ok.mp hg
    cases group with
    | derived i => exact hr.listed i g hentry
    | _ => simp [get?] at hentry
  have hmembers := members_eq_ok hg
  refine ⟨fun ha hp => ?_, fun o ho => ?_⟩
  · have hcosts : ∀ m ∈ g.members, ∃ o, r.costOf args m = .ok o := by
      intro m hm
      obtain ⟨c, hc⟩ := hcallable m hm
      obtain ⟨o, ho⟩ := exists_conversionCost (hp m hm c hc) ha
      exact ⟨o, by simp [costOf, hc, ho, bind, Except.bind]⟩
    obtain ⟨ms, hms⟩ := exists_cheapestFrom hcosts
    exact ⟨_, (resolve_eq_ok_iff hmembers).mpr ⟨ms, hms, rfl⟩⟩
  obtain ⟨left, hleft, rfl⟩ := (resolve_eq_ok_iff hmembers).mp ho
  obtain ⟨hsub, hmem, hnone⟩ := cheapestFrom_eq_ok hleft
  have hleftNodup : left.Nodup := hnodup.sublist hsub
  refine ⟨fun c => ?_, fun tied => ?_, ?_, fun ms hms => ?_⟩
  · simp only [Resolution.ofCheapest_eq_resolved_iff hleftNodup, hmem]
  · rw [Resolution.ofCheapest_eq_ambiguous_iff hleftNodup]
    constructor
    · rintro ⟨rfl, c, hc, d, hd, hne⟩
      exact ⟨⟨c, d, hne, (hmem c).mp hc, (hmem d).mp hd⟩, hsub, hmem⟩
    · rintro ⟨⟨c, d, hne, hc, hd⟩, htied, hall⟩
      refine ⟨?_, c, (hmem c).mpr hc, d, (hmem d).mpr hd, hne⟩
      exact eq_of_sublist_of_nodup hnodup htied hsub fun m => (hall m).trans (hmem m).symm
  · rw [Resolution.ofCheapest_eq_notApplicable_iff]
    refine ⟨hnone, fun hno => ?_⟩
    rw [List.eq_nil_iff_forall_not_mem]
    intro m hm
    obtain ⟨hin, k, hk, -⟩ := (hmem m).mp hm
    exact hno m hin k hk
  · have hcosts : ∀ m ∈ ms, ∃ o, (r.withMembers group ms).costOf args m = .ok o := by
      intro m hm
      rw [costOf_withMembers hg]
      exact costOf_of_cheapestFrom hleft m (hms.mem_iff.mp hm)
    obtain ⟨left', hleft'⟩ := exists_cheapestFrom hcosts
    obtain ⟨hsub', hmem', -⟩ := cheapestFrom_eq_ok hleft'
    refine ⟨_, (resolve_eq_ok_iff (members_withMembers hg)).mpr ⟨left', hleft', rfl⟩,
      Resolution.same_ofCheapest ?_⟩
    rw [List.perm_ext_iff_of_nodup hleftNodup ((hms.nodup_iff.mpr hnodup).sublist hsub')]
    intro m
    rw [hmem, hmem', cheapest_withMembers hg]
    simp only [Cheapest, hms.mem_iff]

def numberGroup : Registry :=
  ⟨#[.group ⟨"f", "", [.derived 1, .derived 2, .derived 3]⟩,
    .callable ⟨.derived 0, .builtin .void, [.builtin .i32], none⟩,
    .callable ⟨.derived 0, .builtin .void, [.builtin .i64], none⟩,
    .callable ⟨.derived 0, .builtin .void, [.builtin .f64], none⟩]⟩

theorem built_numberGroup : numberGroup.Built := by
  have hgroup : Built (Registry.empty.newGroup "f" "").2 := .newGroup .empty "f" ""
  have hfirst := Built.addCallable (c := ⟨.derived 0, .builtin .void, [.builtin .i32], none⟩) hgroup rfl
  have hsecond := Built.addCallable (c := ⟨.derived 0, .builtin .void, [.builtin .i64], none⟩) hfirst rfl
  exact .addCallable (c := ⟨.derived 0, .builtin .void, [.builtin .f64], none⟩) hsecond rfl

/-- For a narrower integer all three tie, in whatever order they were declared. -/
theorem resolve_cheapest_narrow : ∃ g, numberGroup.group (.derived 0) = .ok g ∧
    numberGroup.resolve (.derived 0) [.builtin .i16] =
      .ok (.ambiguous [.derived 1, .derived 2, .derived 3]) ∧
    (∀ m, m ∈ [.derived 1, .derived 2, .derived 3] ↔
      numberGroup.Cheapest [.builtin .i16] g.members m) ∧
    ∃ o, (numberGroup.withMembers (.derived 0) [.derived 3, .derived 1, .derived 2]).resolve
        (.derived 0) [.builtin .i16] = .ok o ∧
      (Resolution.ambiguous [.derived 1, .derived 2, .derived 3]).Same o := by
  have hg : numberGroup.group (.derived 0) =
      .ok ⟨"f", "", [.derived 1, .derived 2, .derived 3]⟩ := rfl
  have hresolve : numberGroup.resolve (.derived 0) [.builtin .i16] =
      .ok (.ambiguous [.derived 1, .derived 2, .derived 3]) := rfl
  obtain ⟨-, hties, -, hreorder⟩ :=
    (resolve_cheapest built_numberGroup hg [.builtin .i16]).2 _ hresolve
  refine ⟨_, hg, hresolve, ((hties _).mp rfl).2.2, hreorder _ ?_⟩
  decide

end Registry
end TypedScript
