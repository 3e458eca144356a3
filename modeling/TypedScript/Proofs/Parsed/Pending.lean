import TypedScript.Parsed.Parser

/-!
# Pending tokens

What is left to be read at a state are the tokens up to the end of the input, without the invalid ones.
Consuming a token takes the first of them, so reading only goes forward.
-/

namespace TypedScript

def Token.isInvalid (t : Token) : Bool :=
  match t.kind with
  | .invalid _ => true
  | _ => false

namespace Parsed

theorem fetch_of_invalid {last t : Token} {errors : Array Error} {rest : List Token}
    (h : t.isInvalid) : ∃ e, fetch last errors (t :: rest) = fetch last (errors.push e) rest := by
  unfold Token.isInvalid at h
  split at h
  · rename_i f hf
    exact ⟨⟨t.span, .lexical f⟩, by rw [fetch, hf]⟩
  · cases h

theorem fetch_of_valid {last t : Token} {errors : Array Error} {rest : List Token}
    (h : t.isInvalid = false) : fetch last errors (t :: rest) = (t, rest, errors) := by
  unfold Token.isInvalid at h
  unfold fetch
  split
  · rename_i f hf
    rw [hf] at h
    cases h
  · rfl

/-- Fetching takes the first valid token. -/
theorem fetch_eq (last : Token) (errors : Array Error) (tokens : List Token) :
    (fetch last errors tokens).1 = (tokens.filter fun t => !t.isInvalid).headD last ∧
      ((fetch last errors tokens).2.1.filter fun t => !t.isInvalid) =
        (tokens.filter fun t => !t.isInvalid).tail ∧
      errors.size ≤ (fetch last errors tokens).2.2.size := by
  induction tokens generalizing errors with
  | nil => exact ⟨rfl, rfl, Nat.le_refl _⟩
  | cons t rest ih =>
    cases ht : t.isInvalid with
    | true =>
      obtain ⟨e, he⟩ : ∃ e, fetch last errors (t :: rest) = fetch last (errors.push e) rest :=
        fetch_of_invalid ht
      have hfilter : (t :: rest).filter (fun t => !t.isInvalid) =
          rest.filter fun t => !t.isInvalid := by simp [ht]
      rw [he, hfilter]
      obtain ⟨hhead, htail, hsize⟩ := ih (errors.push e)
      exact ⟨hhead, htail, by simp at hsize; omega⟩
    | false =>
      rw [fetch_of_valid ht]
      simp [ht]

namespace State

def valid (s : State) : List Token :=
  s.current :: s.ahead :: s.rest.filter fun t => !t.isInvalid

/-- The tokens that are still to be consumed. -/
def pending (s : State) : List Token := s.valid.takeWhile fun t => t.kind != .endOfInput

def left (s : State) : Nat := s.pending.length

/-- The tokens in view are valid, and the end of the input is yet to come. -/
structure Whole (s : State) : Prop where
  current : s.current.isInvalid = false
  ahead : s.ahead.isInvalid = false
  ends : ∃ t ∈ s.valid, t.kind = .endOfInput

theorem pending_of_end {s : State} (h : s.current.kind = .endOfInput) : s.pending = [] := by
  simp [pending, valid, h]

theorem pending_of_not_end {s : State} (h : s.current.kind ≠ .endOfInput) :
    s.pending = s.current :: (s.ahead :: s.rest.filter fun t => !t.isInvalid).takeWhile
      fun t => t.kind != .endOfInput := by
  simp [pending, valid, h]

theorem left_pos {s : State} (h : s.current.kind ≠ .endOfInput) : 0 < s.left := by
  rw [left, pending_of_not_end h]
  exact Nat.succ_pos _

/-- The end of the input is not among the tokens that can be consumed. -/
theorem Whole.left_lt {s : State} (h : s.Whole) : s.left < s.remaining := by
  obtain ⟨t, ht, hend⟩ := h.ends
  have hlt : s.pending.length < s.valid.length := by
    refine Nat.lt_of_le_of_ne (List.takeWhile_prefix _).length_le fun heq => ?_
    have hself : s.pending = s.valid := (List.takeWhile_prefix _).eq_of_length heq
    have hall : s.pending.all fun t => t.kind != .endOfInput := List.all_takeWhile
    rw [hself, List.all_eq_true] at hall
    simpa [hend] using hall t ht
  have hvalid : s.valid.length ≤ s.rest.length + 2 := by
    simpa [valid] using List.length_filter_le _ _
  exact Nat.lt_of_lt_of_le hlt hvalid

/-- Reading went from one state to another: forward, and without forgetting a mistake. -/
structure Goes (s s' : State) : Prop where
  whole : s'.Whole
  pending : s'.pending <:+ s.pending
  errors : s.errors.size ≤ s'.errors.size

theorem Goes.refl {s : State} (h : s.Whole) : s.Goes s := ⟨h, List.suffix_rfl, Nat.le_refl _⟩

theorem Goes.trans {s t u : State} (h : s.Goes t) (h' : t.Goes u) : s.Goes u :=
  ⟨h'.whole, h'.pending.trans h.pending, Nat.le_trans h.errors h'.errors⟩

theorem Goes.left_le {s t : State} (h : s.Goes t) : t.left ≤ s.left := h.pending.length_le

/-- Consuming a token takes the first of those pending. -/
theorem goes_step {s : State} (h : s.Whole) (hend : s.current.kind ≠ .endOfInput) :
    s.Goes s.step ∧ s.pending = s.current :: s.step.pending := by
  obtain ⟨hhead, htail, hsize⟩ := fetch_eq s.ahead s.errors s.rest
  have hcurrent : s.step.current = s.ahead := rfl
  have hahead : s.step.ahead = (s.rest.filter fun t => !t.isInvalid).headD s.ahead := hhead
  have hrest : (s.step.rest.filter fun t => !t.isInvalid) =
      (s.rest.filter fun t => !t.isInvalid).tail := htail
  have hvalid : s.step.valid = s.ahead :: (s.rest.filter fun t => !t.isInvalid).headD s.ahead ::
      (s.rest.filter fun t => !t.isInvalid).tail := by rw [valid, hcurrent, hahead, hrest]
  obtain ⟨t, ht, htend⟩ := h.ends
  have htmem : t ∈ s.ahead :: s.rest.filter fun t => !t.isInvalid := by
    obtain rfl | ht := List.mem_cons.mp ht
    · exact absurd htend hend
    · exact ht
  have hpending : s.step.pending = (s.ahead :: s.rest.filter fun t => !t.isInvalid).takeWhile
      fun t => t.kind != .endOfInput := by
    rw [pending, hvalid]
    cases hfilter : s.rest.filter fun t => !t.isInvalid with
    | nil =>
      rw [hfilter, List.mem_singleton] at htmem
      simp [← htmem, htend]
    | cons u us => rfl
  have hfirst := pending_of_not_end hend
  rw [← hpending] at hfirst
  refine ⟨⟨⟨?_, ?_, ?_⟩, hfirst ▸ List.suffix_cons _ _, hsize⟩, hfirst⟩
  · rw [hcurrent]
    exact h.ahead
  · rw [hahead]
    cases hfilter : s.rest.filter fun t => !t.isInvalid with
    | nil => exact h.ahead
    | cons u us =>
      have hu : u ∈ s.rest.filter fun t => !t.isInvalid := by rw [hfilter]; exact List.mem_cons_self
      simpa using (List.mem_filter.mp hu).2
  · refine ⟨t, ?_, htend⟩
    rw [hvalid]
    cases hfilter : s.rest.filter fun t => !t.isInvalid with
    | nil =>
      rw [hfilter, List.mem_singleton] at htmem
      simp [htmem]
    | cons u us =>
      rw [hfilter] at htmem
      exact htmem

theorem left_step {s : State} (h : s.Whole) (hend : s.current.kind ≠ .endOfInput) :
    s.step.left + 1 = s.left := by
  rw [left, left, (goes_step h hend).2, List.length_cons]

/-- Skipping ends where it should with any fuel beyond the number of tokens. -/
theorem goes_recoverWithin {fuel : Nat} {s : State} (h : s.Whole) (hfuel : s.left < fuel) :
    s.Goes (s.recoverWithin fuel) ∧ ∀ more, s.recoverWithin (fuel + more) = s.recoverWithin fuel := by
  induction fuel generalizing s with
  | zero => omega
  | succ fuel ih =>
    by_cases hend : s.current.kind = .endOfInput
    · simpa [Nat.succ_add, recoverWithin, hend] using Goes.refl h
    have hstep := (goes_step h hend).1
    have hleft := left_step h hend
    obtain ⟨hgoes, hmore⟩ := ih hstep.whole (by omega)
    simp only [Nat.succ_add, recoverWithin, if_neg hend]
    split
    · exact ⟨hstep, fun _ => rfl⟩
    split
    · exact ⟨Goes.refl h, fun _ => rfl⟩
    · exact ⟨hstep.trans hgoes, hmore⟩

theorem goes_recover {s : State} (h : s.Whole) : s.Goes s.recover :=
  (goes_recoverWithin h h.left_lt).1

/-- Recording a mistake consumes nothing. -/
theorem goes_report {s : State} (h : s.Whole) (e : Error) :
    s.Goes { s with errors := s.errors.push e } :=
  ⟨⟨h.current, h.ahead, h.ends⟩, List.suffix_rfl, by simp⟩

/-- Before the first token of a list that has an end, all of its valid tokens are to come. -/
theorem whole_ofTokens {tokens : List Token} (h : ∃ t ∈ tokens, t.kind = .endOfInput) :
    (ofTokens tokens).Whole ∧ (ofTokens tokens).pending =
      (tokens.filter fun t => !t.isInvalid).takeWhile fun t => t.kind != .endOfInput := by
  obtain ⟨t, ht, hend⟩ := h
  have hmem : t ∈ tokens.filter fun t => !t.isInvalid := by
    refine List.mem_filter.mpr ⟨ht, ?_⟩
    simp [Token.isInvalid, hend]
  have hvalid : ∀ {u : Token}, u ∈ (tokens.filter fun t => !t.isInvalid) → u.isInvalid = false :=
    fun hu => by simpa using (List.mem_filter.mp hu).2
  obtain ⟨hhead, htail, -⟩ :=
    fetch_eq ⟨.endOfInput, "", ⟨Position.zero, Position.zero⟩⟩ #[] tokens
  simp only [ofTokens]
  generalize fetch _ _ tokens = first at hhead htail
  obtain ⟨current, rest, errors⟩ := first
  obtain ⟨hhead', htail', -⟩ := fetch_eq current errors rest
  generalize fetch _ _ rest = second at hhead' htail'
  obtain ⟨ahead, rest', errors'⟩ := second
  dsimp only at hhead htail hhead' htail' ⊢
  rw [htail] at hhead' htail'
  cases hfilter : tokens.filter fun t => !t.isInvalid with
  | nil =>
    rw [hfilter] at hmem
    cases hmem
  | cons u us =>
    rw [hfilter] at hmem hhead hhead' htail'
    have hu : u.isInvalid = false := hvalid (by rw [hfilter]; exact List.mem_cons_self)
    dsimp only [List.headD_cons, List.tail_cons] at hhead hhead' htail'
    subst hhead hhead'
    simp only [pending, valid, htail']
    cases hus : us with
    | nil =>
      rw [hus, List.mem_singleton] at hmem
      subst hmem
      exact ⟨⟨hu, hu, t, by simp [valid], hend⟩, by simp [hend]⟩
    | cons v vs =>
      have hv : v.isInvalid = false :=
        hvalid (by rw [hfilter, hus]; exact List.mem_cons_of_mem _ List.mem_cons_self)
      rw [hus] at hmem htail'
      refine ⟨⟨hu, hv, t, ?_, hend⟩, rfl⟩
      simpa [valid, htail'] using hmem

/-- Before the first of some words in front of the end, the valid ones are to come. -/
theorem pending_ofTokens {words : List Token} {stop : Token} (hwords : ∀ t ∈ words, t.kind ≠ .endOfInput)
    (hstop : stop.kind = .endOfInput) : (ofTokens (words ++ [stop])).Whole ∧
      (ofTokens (words ++ [stop])).pending = words.filter fun t => !t.isInvalid := by
  have hmem : stop ∈ words ++ [stop] := List.mem_append_right _ List.mem_cons_self
  obtain ⟨hwhole, hpending⟩ := whole_ofTokens ⟨stop, hmem, hstop⟩
  refine ⟨hwhole, ?_⟩
  rw [hpending, List.filter_append, List.takeWhile_append_of_pos]
  · simp [Token.isInvalid, hstop]
  · intro t ht
    simpa using hwords t (List.mem_filter.mp ht).1

end State
end Parsed
end TypedScript
