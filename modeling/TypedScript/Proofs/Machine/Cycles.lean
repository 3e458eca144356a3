import Mathlib.Data.Finset.Card
import Mathlib.Order.Monotone.Basic
import TypedScript.Value
import Mathlib.Data.Fintype.Pigeonhole
import Mathlib.Logic.Relation
import TypedScript.Bytecode.Module

/-!
# Which values have a text

The text of an array contains the texts of its elements, so a value has a text exactly if no array that
it leads to is among its own elements, directly or further down. How far the arrays are nested then is
bounded by their number: looking deeper than that changes nothing.
-/

namespace TypedScript

namespace Value

def ref? : Value → Option Nat
  | array ref => some ref
  | boxed _ _ content => content.ref?
  | _ => none

variable {f g : Nat → Option String} {v : Value}

theorem formatWith?_congr (h : ∀ ref, v.ref? = some ref → f ref = g ref) :
    v.formatWith? f = v.formatWith? g := by
  induction v with
  | array ref => exact h ref rfl
  | boxed id type content ih => exact ih h
  | _ => rfl

theorem isSome_formatWith? :
    (v.formatWith? f).isSome ↔ ∀ ref, v.ref? = some ref → (f ref).isSome := by
  induction v with
  | array ref => simp [formatWith?, ref?]
  | boxed id type content ih => exact ih
  | _ => simp [formatWith?, ref?]

theorem formatWith?_mono (h : ∀ ref t, f ref = some t → g ref = some t) {t : String}
    (hv : v.formatWith? f = some t) : v.formatWith? g = some t := by
  induction v with
  | array ref => exact h ref t hv
  | boxed id type content ih => exact ih hv
  | _ => exact hv

end Value

namespace Heap

def items (h : Heap) (ref : Nat) : Array Value := (h[ref]?.map ArrayObject.items).getD #[]

def Contains (h : Heap) (outer inner : Nat) : Prop := ∃ v ∈ h.items outer, v.ref? = some inner

/-- An array has a text in which arrays are nested at most to the given depth. -/
def Shallow (h : Heap) (depth ref : Nat) : Prop := ((Value.array ref).formatWithin? h depth).isSome

instance (h : Heap) (depth : Nat) : DecidablePred (h.Shallow depth) := fun ref =>
  inferInstanceAs (Decidable (((Value.array ref).formatWithin? h depth).isSome = true))

end Heap

theorem isSome_mapM {α β : Type} {f : α → Option β} {xs : List α} :
    (xs.mapM f).isSome ↔ ∀ x ∈ xs, (f x).isSome := by
  induction xs with
  | nil => simp
  | cons x rest ih =>
    rw [List.mapM_cons, List.forall_mem_cons, ← ih]
    cases f x with
    | none => simp
    | some y => cases rest.mapM f <;> simp

theorem mapM_mono {α β : Type} {f g : α → Option β} (h : ∀ x y, f x = some y → g x = some y)
    {xs : List α} {ys : List β} (hxs : xs.mapM f = some ys) : xs.mapM g = some ys := by
  induction xs generalizing ys with
  | nil => simpa using hxs
  | cons x rest ih =>
    rw [List.mapM_cons] at hxs ⊢
    obtain ⟨y, hy, hxs⟩ := Option.bind_eq_some_iff.mp hxs
    obtain ⟨zs, hzs, hxs⟩ := Option.bind_eq_some_iff.mp hxs
    rw [h x y hy, ih hzs]
    exact hxs

namespace Value

variable {h : Heap} {depth : Nat} {v : Value}

theorem isSome_formatWithin? :
    (v.formatWithin? h depth).isSome ↔ ∀ ref, v.ref? = some ref → h.Shallow depth ref := by
  cases depth <;> exact isSome_formatWith?

theorem formatWithin?_succ {t : String} (ht : v.formatWithin? h depth = some t) :
    v.formatWithin? h (depth + 1) = some t := by
  induction depth generalizing v t with
  | zero => exact formatWith?_mono (fun _ _ hnone => by cases hnone) ht
  | succ depth ih =>
    refine formatWith?_mono (fun ref t hitems => ?_) ht
    obtain ⟨texts, htexts, hjoin⟩ := Option.bind_eq_some_iff.mp hitems
    exact Option.bind_eq_some_iff.mpr ⟨texts, mapM_mono (fun _ _ => ih) htexts, hjoin⟩

theorem formatWithin?_mono {deeper : Nat} (hle : depth ≤ deeper) {t : String}
    (ht : v.formatWithin? h depth = some t) : v.formatWithin? h deeper = some t := by
  induction hle with
  | refl => exact ht
  | step _ ih => exact formatWithin?_succ ih

end Value

namespace Heap

variable {h : Heap} {depth ref : Nat}

theorem not_shallow_zero : ¬h.Shallow 0 ref := by simp [Shallow, Value.formatWithin?, Value.formatWith?]

theorem shallow_succ :
    h.Shallow (depth + 1) ref ↔ ∀ inner, h.Contains ref inner → h.Shallow depth inner := by
  have htexts : h.Shallow (depth + 1) ref ↔
      ((h.items ref).toList.mapM (Value.formatWithin? h depth)).isSome := by
    simp only [Shallow, Value.formatWithin?, Value.formatWith?, items]
    cases List.mapM (Value.formatWithin? h depth) _ <;> simp
  rw [htexts, isSome_mapM]
  constructor
  · rintro hall inner ⟨v, hv, hinner⟩
    exact Value.isSome_formatWithin?.mp (hall v (by simpa using hv)) inner hinner
  · intro hall v hv
    exact Value.isSome_formatWithin?.mpr fun inner hinner => hall inner ⟨v, by simpa using hv, hinner⟩

theorem Shallow.mono {deeper : Nat} (hle : depth ≤ deeper) (hs : h.Shallow depth ref) :
    h.Shallow deeper ref := by
  obtain ⟨t, ht⟩ := Option.isSome_iff_exists.mp hs
  exact Option.isSome_iff_exists.mpr ⟨t, Value.formatWithin?_mono hle ht⟩

/-- A reference to no array counts as an array without elements. -/
theorem shallow_of_size_le (hle : h.size ≤ ref) : h.Shallow (depth + 1) ref := by
  rw [shallow_succ]
  rintro inner ⟨v, hv, -⟩
  simp [items, hle] at hv

def countShallow (h : Heap) (depth : Nat) : Nat :=
  ((Finset.range h.size).filter fun ref => h.Shallow (depth + 1) ref).card

theorem countShallow_mono : Monotone h.countShallow := by
  intro depth deeper hle
  refine Finset.card_le_card fun ref href => ?_
  rw [Finset.mem_filter] at href ⊢
  exact ⟨href.1, href.2.mono (Nat.succ_le_succ hle)⟩

/-- Where no further array has a text one level deeper, none has at any depth. -/
theorem shallow_of_countShallow_eq {deeper : Nat} (hle : depth ≤ deeper)
    (heq : h.countShallow depth = h.countShallow deeper) (hs : h.Shallow (deeper + 1) ref) :
    h.Shallow (depth + 1) ref := by
  by_cases hlt : ref < h.size
  · have hsub : (Finset.range h.size).filter (fun ref => h.Shallow (depth + 1) ref) ⊆
        (Finset.range h.size).filter fun ref => h.Shallow (deeper + 1) ref := by
      intro ref href
      rw [Finset.mem_filter] at href ⊢
      exact ⟨href.1, href.2.mono (Nat.succ_le_succ hle)⟩
    have hsame := Finset.eq_of_subset_of_card_le hsub heq.ge
    have hmem : ref ∈ (Finset.range h.size).filter fun ref => h.Shallow (deeper + 1) ref :=
      Finset.mem_filter.mpr ⟨Finset.mem_range.mpr hlt, hs⟩
    rw [← hsame, Finset.mem_filter] at hmem
    exact hmem.2
  · exact shallow_of_size_le (Nat.le_of_not_lt hlt)

theorem countShallow_stable (heq : h.countShallow depth = h.countShallow (depth + 1)) :
    h.countShallow (depth + 1) = h.countShallow (depth + 2) := by
  refine le_antisymm (countShallow_mono (Nat.le_succ _)) (Finset.card_le_card fun ref href => ?_)
  rw [Finset.mem_filter] at href ⊢
  refine ⟨href.1, shallow_succ.mpr fun inner hinner => ?_⟩
  exact shallow_of_countShallow_eq (Nat.le_succ _) heq (shallow_succ.mp href.2 inner hinner)

/-- Arrays are nested at most as deep as there are arrays. -/
theorem Shallow.within_size (hs : h.Shallow depth ref) : h.Shallow (h.size + 1) ref := by
  by_cases hle : depth ≤ h.size + 1
  · exact hs.mono hle
  · have hbound : ∀ d, h.countShallow d ≤ h.size := fun d =>
      (Finset.card_filter_le _ _).trans (Finset.card_range _).le
    have heq := Nat.stabilises_of_monotone countShallow_mono hbound
      (fun d => countShallow_stable) (show h.size ≤ depth by omega)
    exact shallow_of_countShallow_eq (by omega) heq.symm (hs.mono (Nat.le_succ depth))

end Heap

namespace Value

variable {h : Heap} {v : Value}

/-- Looking deeper than there are arrays changes nothing. -/
theorem formatWithin?_eq_format? {depth : Nat} (hle : h.size + 1 ≤ depth) :
    v.formatWithin? h depth = v.format? h := by
  cases htext : v.format? h with
  | some t => exact formatWithin?_mono hle htext
  | none =>
    rw [← Option.not_isSome_iff_eq_none]
    intro hsome
    have hall : (v.formatWithin? h (h.size + 1)).isSome := isSome_formatWithin?.mpr fun ref href =>
      (isSome_formatWithin?.mp hsome ref href).within_size
    rw [format?] at htext
    simp [htext] at hall

end Value

/-!
## Arrays that contain themselves

A value has a text exactly if none of the arrays that it leads to contains itself, directly or further
down. A new array has no elements that are arrays, so it is on no cycle; a store closes a cycle only
if the stored value leads back to the array that it is stored into.
-/

open Relation

namespace Heap

/-- From an array one comes to another: it is this one, or contains an array that leads to it. -/
def Leads (h : Heap) : Nat → Nat → Prop := ReflTransGen h.Contains

/-- An array contains itself, directly or further down. -/
def OnCycle (h : Heap) (ref : Nat) : Prop := TransGen h.Contains ref ref

/-- No array contains itself. -/
def Acyclic (h : Heap) : Prop := ∀ ref, ¬h.OnCycle ref

variable {h : Heap} {depth ref : Nat}

theorem Shallow.leads (hs : h.Shallow depth ref) {inner : Nat} (hl : h.Leads ref inner) :
    h.Shallow depth inner := by
  induction hl with
  | refl => exact hs
  | tail _ hinner ih =>
    cases depth with
    | zero => exact absurd ih not_shallow_zero
    | succ depth => exact (shallow_succ.mp ih _ hinner).mono (Nat.le_succ depth)

theorem Shallow.not_onCycle (hs : h.Shallow depth ref) : ¬h.OnCycle ref := by
  induction depth generalizing ref with
  | zero => exact absurd hs not_shallow_zero
  | succ depth ih =>
    intro hcycle
    obtain ⟨inner, hinner, hback⟩ := TransGen.head'_iff.mp hcycle
    exact ih (shallow_succ.mp hs inner hinner) (TransGen.tail' hback hinner)

/-- An array without a text contains one without a text. -/
theorem exists_contains_of_not_shallow (hbad : ¬h.Shallow (h.size + 1) ref) :
    ∃ inner, h.Contains ref inner ∧ ¬h.Shallow (h.size + 1) inner := by
  by_contra hnone
  push Not at hnone
  have hdeep : h.Shallow (h.size + 2) ref := shallow_succ.mpr hnone
  exact hbad hdeep.within_size

/-- An array without a text leads to one that contains itself: going on from one to the next, one of
finitely many comes up twice. -/
theorem exists_onCycle (hbad : ¬h.Shallow (h.size + 1) ref) :
    ∃ inner, h.Leads ref inner ∧ h.OnCycle inner := by
  have hstep : ∀ r : { r // ¬h.Shallow (h.size + 1) r },
      ∃ s : { r // ¬h.Shallow (h.size + 1) r }, h.Contains r s := by
    rintro ⟨r, hr⟩
    obtain ⟨s, hs, hbad⟩ := exists_contains_of_not_shallow hr
    exact ⟨⟨s, hbad⟩, hs⟩
  choose next hnext using hstep
  let chain : Nat → { r // ¬h.Shallow (h.size + 1) r } := fun k => next^[k] ⟨ref, hbad⟩
  have hchain : ∀ k, h.Contains (chain k) (chain (k + 1)) := by
    intro k
    simp only [chain, Function.iterate_succ_apply']
    exact hnext _
  have hlater : ∀ j k, TransGen h.Contains (chain j) (chain (j + k + 1)) := by
    intro j k
    induction k with
    | zero => exact .single (hchain j)
    | succ k ih => exact ih.tail (hchain _)
  have hbound : ∀ k, (chain k : Nat) < h.size := by
    intro k
    by_contra hlt
    exact (chain k).2 (shallow_of_size_le (Nat.le_of_not_lt hlt))
  obtain ⟨i, j, hne, heq⟩ :=
    Finite.exists_ne_map_eq_of_infinite fun k => (⟨chain k, hbound k⟩ : Fin h.size)
  have hsame : (chain i : Nat) = chain j := congrArg Fin.val heq
  have hleads : ∀ k, h.Leads ref (chain k) := by
    intro k
    cases k with
    | zero => exact .refl
    | succ k => exact (Nat.zero_add k ▸ hlater 0 k).to_reflTransGen
  refine ⟨chain i, hleads i, ?_⟩
  rcases Nat.lt_or_gt_of_ne hne with hlt | hlt
  · have hcycle := hlater i (j - i - 1)
    rw [show i + (j - i - 1) + 1 = j by omega, ← hsame] at hcycle
    exact hcycle
  · have hcycle := hlater j (i - j - 1)
    rw [show j + (i - j - 1) + 1 = i by omega, ← hsame] at hcycle
    exact hcycle

/-- From the value one comes to an array that contains itself. -/
def LeadsToCycle (h : Heap) (v : Value) : Prop :=
  ∃ ref inner, v.ref? = some ref ∧ h.Leads ref inner ∧ h.OnCycle inner

/-- A value has a text exactly if it leads to no array that contains itself. -/
theorem isSome_format?_iff (v : Value) : (v.format? h).isSome ↔
    ∀ ref inner, v.ref? = some ref → h.Leads ref inner → ¬h.OnCycle inner := by
  rw [Value.format?, Value.isSome_formatWithin?]
  constructor
  · intro hall ref inner href hleads
    exact ((hall ref href).leads hleads).not_onCycle
  · intro hall ref href
    by_contra hbad
    obtain ⟨inner, hleads, hcycle⟩ := exists_onCycle hbad
    exact hall ref inner href hleads hcycle

theorem format?_eq_none_iff {v : Value} : v.format? h = none ↔ h.LeadsToCycle v := by
  rw [← Option.not_isSome_iff_eq_none, isSome_format?_iff, LeadsToCycle]
  push Not
  rfl

theorem items_push (a : ArrayObject) (outer : Nat) :
    Heap.items (h.push a) outer = if outer = h.size then a.items else h.items outer := by
  simp only [items, Array.getElem?_push]
  split <;> rfl

/-- A new array contains none. -/
theorem Acyclic.push (ha : h.Acyclic) (type : String) (size : Nat) :
    Heap.Acyclic (h.push ⟨type, Array.replicate size (Value.zero type)⟩) := by
  have hzero : (Value.zero type).ref? = none := by
    unfold Value.zero
    split <;> rfl
  have hcontains : ∀ outer inner, Heap.Contains
      (h.push ⟨type, Array.replicate size (Value.zero type)⟩) outer inner → h.Contains outer inner := by
    rintro outer inner ⟨v, hv, hinner⟩
    rw [items_push] at hv
    split at hv
    · rw [(Array.mem_replicate.mp hv).2, hzero] at hinner
      cases hinner
    · exact ⟨v, hv, hinner⟩
  exact fun ref hcycle => ha ref (TransGen.mono hcontains ref ref hcycle)

theorem items_modify (i : Nat) (v : Value) (outer : Nat) :
    Heap.items (h.modify ref fun a => { a with items := a.items.set! i v }) outer =
      if ref = outer then (h.items outer).set! i v else h.items outer := by
  simp only [items, Array.getElem?_modify]
  split
  · cases h[outer]? <;> simp
  · rfl

theorem contains_of_store {i : Nat} {v : Value} {outer inner : Nat}
    (hc : Heap.Contains (h.modify ref fun a => { a with items := a.items.set! i v }) outer inner) :
    h.Contains outer inner ∨ outer = ref ∧ v.ref? = some inner := by
  obtain ⟨w, hw, hinner⟩ := hc
  rw [items_modify] at hw
  split at hw
  · obtain rfl | hw := Array.mem_or_eq_of_mem_setIfInBounds hw |>.symm
    · exact .inr ⟨Eq.symm ‹_›, hinner⟩
    · exact .inl ⟨w, hw, hinner⟩
  · exact .inl ⟨w, hw, hinner⟩

/-- A store keeps the arrays free of cycles if the stored value does not lead to the array that it is
stored into. -/
theorem Acyclic.store (ha : h.Acyclic) {i : Nat} {v : Value}
    (hv : ∀ inner, v.ref? = some inner → ¬h.Leads inner ref) :
    Heap.Acyclic (h.modify ref fun a => { a with items := a.items.set! i v }) := by
  -- A way through the new element passes the array, so it goes there and on from the value.
  have hway : ∀ x y, TransGen (Heap.Contains
      (h.modify ref fun a => { a with items := a.items.set! i v })) x y → TransGen h.Contains x y ∨
      h.Leads x ref ∧ ∃ inner, v.ref? = some inner ∧ h.Leads inner y := by
    intro x y hxy
    induction hxy with
    | single hc =>
      obtain hc | ⟨rfl, hinner⟩ := contains_of_store hc
      · exact .inl (.single hc)
      · exact .inr ⟨.refl, _, hinner, .refl⟩
    | tail _ hc ih =>
      obtain hc | ⟨rfl, hinner⟩ := contains_of_store hc
      · obtain hold | ⟨hto, inner, hinner, hon⟩ := ih
        · exact .inl (hold.tail hc)
        · exact .inr ⟨hto, inner, hinner, hon.tail hc⟩
      · obtain hold | ⟨hto, -⟩ := ih
        · exact .inr ⟨hold.to_reflTransGen, _, hinner, .refl⟩
        · exact .inr ⟨hto, _, hinner, .refl⟩
  intro x hcycle
  obtain hold | ⟨hto, inner, hinner, hon⟩ := hway x x hcycle
  · exact ha x hold
  · exact hv inner hinner (hon.trans hto)

end Heap
end TypedScript
