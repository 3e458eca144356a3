import TypedScript.Proofs.Parsed.Outline
import TypedScript.Proofs.Parsed.Pending

/-!
# Where nodes stand

What is read between two states stands between the next token of the first and the last token consumed at
the second, in order. A node that ends there takes in all that was read since its start. So mistakes do
no harm: what is dropped leaves a gap.
-/

namespace TypedScript
namespace Parsed

variable {limit : Nat}

namespace State

/-- Where the next token starts; behind the last one that is the end of the text. -/
def front (limit : Nat) (s : State) : Nat := (s.pending.head?.map (·.span.start.offset)).getD limit

/-- The tokens to come are disjoint and in order, behind those that were consumed. -/
structure Apart (limit : Nat) (s : State) : Prop where
  whole : s.Whole
  tokens : Outline.Ordered s.lastEnd.offset (s.pending.map Outline.ofToken) limit
  lastEnd : s.lastEnd.offset ≤ limit

/-- Reading went from one state to another and found what is outlined. -/
structure Covers (limit : Nat) (s t : State) (os : List Outline) : Prop where
  goes : s.Goes t
  apart : t.Apart limit
  lastEnd : s.lastEnd.offset ≤ t.lastEnd.offset
  front : s.front limit ≤ t.front limit
  consumed : t.left < s.left → s.front limit < t.lastEnd.offset
  outlines : Outline.Ordered (s.front limit) os t.lastEnd.offset

theorem front_of_not_end {s : State} (h : s.current.kind ≠ .endOfInput) :
    s.front limit = s.current.span.start.offset := by
  rw [front, pending_of_not_end h]
  rfl

theorem front_of_end {s : State} (h : s.current.kind = .endOfInput) : s.front limit = limit := by
  rw [front, pending_of_end h]
  rfl

theorem Apart.lastEnd_le_front {s : State} (h : s.Apart limit) :
    s.lastEnd.offset ≤ s.front limit := by
  by_cases hend : s.current.kind = .endOfInput
  · rw [front_of_end hend]
    exact h.lastEnd
  · rw [front_of_not_end hend]
    have htokens := h.tokens
    rw [pending_of_not_end hend] at htokens
    exact (htokens.bounds (.ofToken s.current) List.mem_cons_self).1

/-- Consuming a token finds nothing. -/
theorem Apart.step {s : State} (h : s.Apart limit) (hend : s.current.kind ≠ .endOfInput) :
    s.Covers limit s.step [] ∧ s.step.left < s.left := by
  obtain ⟨hgoes, hpending⟩ := goes_step h.whole hend
  have htokens := h.tokens
  rw [hpending, List.map_cons] at htokens
  cases htokens with
  | cons hstart hspan hstop _ hrest =>
    have hstep : s.step.Apart limit := ⟨hgoes.whole, hrest, hstop⟩
    have hfront := hstep.lastEnd_le_front
    have hstop' : s.step.lastEnd = s.current.span.stop := rfl
    have hleft := left_step h.whole hend
    rw [hstop'] at hfront
    refine ⟨⟨hgoes, hstep, ?_, ?_, fun _ => ?_, .nil⟩, by omega⟩
    · rw [hstop']
      omega
    · rw [front_of_not_end hend]
      omega
    · rw [front_of_not_end hend, hstop']
      exact hspan

namespace Covers

variable {s t u : State} {os ps : List Outline}

theorem refl (h : s.Apart limit) : s.Covers limit s [] :=
  ⟨.refl h.whole, h, Nat.le_refl _, Nat.le_refl _, fun hlt => absurd hlt (Nat.lt_irrefl _), .nil⟩

/-- What was found on two stretches, one behind the other. -/
theorem trans (h : s.Covers limit t os) (h' : t.Covers limit u ps) : s.Covers limit u (os ++ ps) := by
  refine ⟨h.goes.trans h'.goes, h'.apart, Nat.le_trans h.lastEnd h'.lastEnd,
    Nat.le_trans h.front h'.front, fun hlt => ?_,
    h.outlines.append h'.outlines h.front h.apart.lastEnd_le_front h'.lastEnd⟩
  obtain hless | hsame := Nat.lt_or_ge t.left s.left
  · exact Nat.lt_of_lt_of_le (h.consumed hless) h'.lastEnd
  · exact Nat.lt_of_le_of_lt h.front (h'.consumed (by omega))

/-- Some of what was found is dropped. -/
theorem drop (h : s.Covers limit t os) (hps : ps.Sublist os) : s.Covers limit t ps :=
  { h with outlines := h.outlines.sublist hps }

theorem none (h : s.Covers limit t os) : s.Covers limit t [] := h.drop (List.nil_sublist os)

theorem step (h : s.Covers limit t os) (hend : t.current.kind ≠ .endOfInput) :
    s.Covers limit t.step os ∧ t.step.left < t.left := by
  obtain ⟨hstep, hless⟩ := h.apart.step hend
  exact ⟨by simpa using h.trans hstep, hless⟩

/-- What was found is behind the first token, so that one was consumed. -/
theorem moved {o : Outline} (h : s.Covers limit t (o :: os)) : s.front limit < t.lastEnd.offset := by
  cases h.outlines with
  | cons hstart hspan hstop _ _ => omega

/-- A node that starts at the first token and takes in all that was found. -/
theorem close (h : s.Covers limit t os) (hmoved : s.front limit < t.lastEnd.offset) :
    s.Covers limit t [.node ⟨s.current.span.start, t.lastEnd⟩ os] := by
  have hend : s.current.kind ≠ .endOfInput := fun hend => by
    rw [front_of_end hend] at hmoved
    exact absurd h.apart.lastEnd (Nat.not_le_of_lt hmoved)
  have hfront : s.front limit = s.current.span.start.offset := front_of_not_end hend
  have houtlines := h.outlines
  rw [hfront] at hmoved houtlines
  exact { h with outlines := .one (Nat.le_of_eq hfront) hmoved (Nat.le_refl _) houtlines }

end Covers

/-- Recording a mistake finds nothing. -/
theorem Apart.report {s : State} (h : s.Apart limit) (e : Error) :
    s.Covers limit { s with errors := s.errors.push e } [] :=
  ⟨goes_report h.whole e, ⟨(goes_report h.whole e).whole, h.tokens, h.lastEnd⟩, Nat.le_refl _,
    Nat.le_refl _, fun hlt => absurd hlt (Nat.lt_irrefl _), .nil⟩

theorem Apart.recoverWithin {fuel : Nat} {s : State} (h : s.Apart limit) :
    s.Covers limit (s.recoverWithin fuel) [] := by
  induction fuel generalizing s with
  | zero => exact .refl h
  | succ fuel ih =>
    unfold State.recoverWithin
    split
    · exact .refl h
    · next hend =>
      have hstep := (h.step hend).1
      split
      · exact hstep
      split
      · exact .refl h
      · exact hstep.trans (ih hstep.apart)

end State

namespace Reader

/-- What a reader finds and where it ends, with the way to go on behind a mistake that a file has. -/
def Tells {α : Type} (m : Reader α) (s : State) (Q : α → State → Prop) : Prop :=
  Q (m State.recover s).1 (m State.recover s).2

section

variable {α β : Type} {s s₀ : State} {os : List Outline} {Q : β → State → Prop}

theorem Tells.bind {m : Reader α} {f : α → Reader β} {P : α → State → Prop} (hm : Tells m s P)
    (hf : ∀ a t, P a t → Tells (f a) t Q) : Tells (m >>= f) s Q := hf _ _ hm

theorem Tells.pure {a : β} (h : Q a s) : Tells (Pure.pure a) s Q := h

theorem Tells.imp {m : Reader β} {P : β → State → Prop} (hm : Tells m s P)
    (h : ∀ a t, P a t → Q a t) : Tells m s Q := h _ _ hm

/-- What is found behind what was found before. -/
theorem Tells.behind {m : Reader α} {f : α → Reader β} {outlines : α → List Outline}
    (hm : Tells m s fun a t => s.Covers limit t (outlines a)) (h : s₀.Covers limit s os)
    (hf : ∀ a t, t.left ≤ s.left → s₀.Covers limit t (os ++ outlines a) → Tells (f a) t Q) :
    Tells (m >>= f) s Q :=
  hm.bind fun a t ht => hf a t ht.goes.left_le (h.trans ht)

/-- A reader that finds nothing by itself. -/
theorem Tells.after {m : Reader α} {f : α → Reader β}
    (hm : Tells m s fun _ t => s.Covers limit t []) (h : s₀.Covers limit s os)
    (hf : ∀ a t, t.left ≤ s.left → s₀.Covers limit t os → Tells (f a) t Q) :
    Tells (m >>= f) s Q :=
  hm.behind h fun a t hle ht => hf a t hle (by simpa using ht)

/-- A reader that gives up if the one before it does. -/
theorem Tells.optional {m : Reader (Option α)} {f : Option α → Reader β} {outline : α → Outline}
    {b : β} (hm : Tells m s fun o t => s.Covers limit t (o.toList.map outline))
    (h : s₀.Covers limit s os) (hnone : f none = Pure.pure b)
    (hQ : ∀ t, s₀.Covers limit t [] → Q b t)
    (hf : ∀ a t, t.left ≤ s.left → s₀.Covers limit t (os ++ [outline a]) → Tells (f (some a)) t Q) :
    Tells (m >>= f) s Q := by
  refine hm.behind h fun o t hle ht => ?_
  cases o with
  | none =>
    rw [hnone]
    exact hQ t ht.none
  | some a => exact hf a t hle ht

/-- The current token is consumed. -/
theorem Tells.advance {f : Unit → Reader β} (h : s₀.Covers limit s os)
    (hend : s.current.kind ≠ .endOfInput)
    (hf : s.step.left < s.left → s₀.Covers limit s.step os → Tells (f ()) s.step Q) :
    Tells (Reader.advance >>= f) s Q :=
  hf (h.step hend).2 (h.step hend).1

/-- A mistake noted on the way has no say in what is found. -/
theorem Tells.noting {b : Bool} {note : Reader Unit} {m : Reader β}
    (hnote : Tells note s fun _ t => s.Covers limit t []) (h : s₀.Covers limit s os)
    (hm : ∀ t, t.left ≤ s.left → s₀.Covers limit t os → Tells m t Q) :
    let noted : Reader β := do
      if b then note
      m
    Tells noted s Q := by
  dsimp only
  split
  · exact hnote.after h fun _ => hm
  · exact hm s (Nat.le_refl _) h

/-- A reader that only looks. -/
theorem Tells.look {m : Reader α} {f : α → Reader β} {a : α} (hm : m State.recover s = (a, s))
    (hf : Tells (f a) s Q) : Tells (m >>= f) s Q :=
  Tells.bind (P := fun b t => b = a ∧ t = s) (by simp [Tells, hm]) (by rintro _ _ ⟨rfl, rfl⟩; exact hf)

theorem tells_get {f : State → Reader β} (hf : Tells (f s) s Q) :
    Tells ((get : Reader State) >>= f) s Q := hf

theorem tells_kind {f : Token.Kind → Reader β} (hf : Tells (f s.current.kind) s Q) :
    Tells (kind >>= f) s Q := hf

theorem tells_at {k : Token.Kind} {f : Bool → Reader β}
    (hf : Tells (f (decide (s.current.kind = k))) s Q) : Tells (at? k >>= f) s Q := hf

theorem tells_ahead {k : Token.Kind} {f : Bool → Reader β}
    (hf : Tells (f (decide (s.ahead.kind = k))) s Q) : Tells (ahead? k >>= f) s Q := hf

theorem tells_position {f : Position → Reader β} (hf : Tells (f s.current.span.start) s Q) :
    Tells (position >>= f) s Q := hf

theorem tells_literal {f : String → Reader β} (hf : Tells (f s.current.literal) s Q) :
    Tells (literal >>= f) s Q := hf

theorem tells_spanFrom {start : Position} {f : Span → Reader β}
    (hf : Tells (f ⟨start, s.lastEnd⟩) s Q) : Tells (spanFrom start >>= f) s Q := hf

end

variable {s : State}

theorem tells_reportAt (h : s.Apart limit) (span : Span) (fault : Fault) :
    Tells (reportAt span fault) s fun _ t => s.Covers limit t [] := h.report _

theorem tells_report (h : s.Apart limit) (fault : Fault) :
    Tells (report fault) s fun _ t => s.Covers limit t [] := h.report _

theorem tells_reportExpected (h : s.Apart limit) (what : Expectation) :
    Tells (reportExpected what) s fun _ t => s.Covers limit t [] := h.report _

theorem tells_recover (h : s.Apart limit) : Tells recover s fun _ t => s.Covers limit t [] :=
  h.recoverWithin

/-- An expected token is consumed if it is there. -/
theorem tells_expect {k : Token.Kind} (hk : k ≠ .endOfInput) (h : s.Apart limit) :
    Tells (expect k) s fun _ t => s.Covers limit t [] := by
  refine tells_at ?_
  split
  · next hb =>
    rw [decide_eq_true_eq] at hb
    exact (h.step (hb ▸ hk)).1
  · exact h.report _

theorem tells_terminate (h : s.Apart limit) :
    Tells terminate s fun _ t => s.Covers limit t [] := by
  refine (tells_expect (by decide) h).after (.refl h) fun b t _ ht => ?_
  split
  · exact (tells_recover ht.apart).imp fun _ u hu => ht.trans hu
  · exact ht

end Reader
end Parsed
end TypedScript
