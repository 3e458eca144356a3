import TypedScript.Proofs.Parsed.Following
import TypedScript.Proofs.Parsed.Nesting
import TypedScript.Proofs.Token.Joined

/-!
# Tokens at another place, and with more behind them

What is read of tokens at another place stands there: every state of the run is the one of the first run,
moved. Only where nothing has been read yet, the place behind the last token is one that comes from before.
-/

namespace TypedScript
namespace Parsed

/-- What stands in at the end of the tokens makes no difference where a valid one is left. -/
theorem fetch_congr {tokens : List Token} (h : ∃ t ∈ tokens, t.isInvalid = false) (last last' : Token)
    (errors : Array Error) : fetch last errors tokens = fetch last' errors tokens := by
  induction tokens generalizing errors with
  | nil => obtain ⟨t, ht, -⟩ := h; cases ht
  | cons t rest ih =>
    cases ht : t.isInvalid with
    | false => rw [fetch_of_valid ht, fetch_of_valid ht]
    | true =>
      have hrest : ∃ t ∈ rest, t.isInvalid = false := by simpa [ht] using h
      unfold fetch
      split
      · exact ih hrest _
      · rfl

theorem isInvalid_of_end {t : Token} (h : t.kind = .endOfInput) : t.isInvalid = false := by
  rw [Token.isInvalid, h]

namespace State

def before (p : Position) (tokens : List Token) : State := { ofTokens tokens with lastEnd := p }

theorem before_zero (tokens : List Token) : before .zero tokens = ofTokens tokens := rfl

/-- Consuming the first of some tokens leads before the others. -/
theorem step_before {p : Position} {t : Token} {tokens : List Token} (ht : t.isInvalid = false)
    (htokens : ∃ u ∈ tokens, u.isInvalid = false) :
    (before p (t :: tokens)).step = before t.span.stop tokens := by
  simp only [before, ofTokens, fetch_of_valid ht, step,
    fetch_congr htokens t ⟨.endOfInput, "", ⟨Position.zero, Position.zero⟩⟩]

theorem pending_before {p : Position} {tokens : List Token} (h : ∃ t ∈ tokens, t.kind = .endOfInput) :
    (before p tokens).Whole ∧ (before p tokens).pending =
      (tokens.filter fun t => !t.isInvalid).takeWhile fun t => t.kind != .endOfInput := by
  obtain ⟨hwhole, hpending⟩ := whole_ofTokens h
  exact ⟨⟨hwhole.current, hwhole.ahead, hwhole.ends⟩, hpending⟩

section

variable (m : Move)

def moved (s : State) : State :=
  ⟨s.current.moved m, s.ahead.moved m, s.rest.map (Token.moved m), m.stop s.lastEnd,
    s.errors.map (Error.moved m)⟩

theorem fetch_moved (last : Token) (errors : Array Error) (tokens : List Token) :
    fetch (last.moved m) (errors.map (Error.moved m)) (tokens.map (Token.moved m)) =
      ((fetch last errors tokens).1.moved m, (fetch last errors tokens).2.1.map (Token.moved m),
        (fetch last errors tokens).2.2.map (Error.moved m)) := by
  induction tokens generalizing errors with
  | nil => rfl
  | cons t rest ih =>
    have hkind : (t.moved m).kind = t.kind := rfl
    simp only [List.map_cons, fetch, hkind]
    split
    · rw [← ih, Array.map_push]
      rfl
    · rfl

theorem step_moved (s : State) : (s.moved m).step = s.step.moved m := by
  have hfetch := fetch_moved m s.ahead s.errors s.rest
  simp only [step, moved, hfetch]
  rfl

theorem recoverWithin_moved (fuel : Nat) (s : State) :
    (s.moved m).recoverWithin fuel = (s.recoverWithin fuel).moved m := by
  induction fuel generalizing s with
  | zero => rfl
  | succ fuel ih =>
    have hkind : (s.moved m).current.kind = s.current.kind := rfl
    rw [recoverWithin, recoverWithin, hkind, step_moved]
    split
    · rfl
    split
    · rfl
    split
    · rfl
    · exact ih _

theorem recover_moved (s : State) : (s.moved m).recover = s.recover.moved m := by
  have hremaining : (s.moved m).remaining = s.remaining := by simp [remaining, moved]
  rw [recover, hremaining, recoverWithin_moved]
  rfl

theorem whole_moved {s : State} (h : s.Whole) : (s.moved m).Whole := by
  have hvalid : (s.moved m).valid = s.valid.map (Token.moved m) := by
    simp only [valid, moved, List.map_cons, List.filter_map]
    rfl
  refine ⟨h.current, h.ahead, ?_⟩
  obtain ⟨t, ht, hend⟩ := h.ends
  exact ⟨t.moved m, hvalid ▸ List.mem_map_of_mem ht, hend⟩

/-- The state before tokens that were moved. -/
theorem ofTokens_moved {tokens : List Token} (h : ∃ t ∈ tokens, t.isInvalid = false) :
    (ofTokens tokens).moved m = before (m.stop .zero) (tokens.map (Token.moved m)) := by
  let nothing : Token := ⟨.endOfInput, "", ⟨Position.zero, Position.zero⟩⟩
  have h' : ∃ t ∈ tokens.map (Token.moved m), t.isInvalid = false := by
    obtain ⟨t, ht, hvalid⟩ := h
    exact ⟨t.moved m, List.mem_map_of_mem ht, hvalid⟩
  have hfirst := fetch_moved m nothing #[] tokens
  rw [fetch_congr h' (nothing.moved m) nothing, Array.map_empty] at hfirst
  have hsecond := fetch_moved m (fetch nothing #[] tokens).1 (fetch nothing #[] tokens).2.2
    (fetch nothing #[] tokens).2.1
  simp only [before, ofTokens]
  rw [hfirst, hsecond]
  rfl

end
end State

/-- A run at another place, where tokens that start at different places still do. -/
def Companion.placed (m : Move)
    (offset : ∀ {p q}, (m.start p).offset = (m.start q).offset ↔ p.offset = q.offset) : Companion where
  move := m
  Beside s s' := s' = s.moved m
  Counts _ := True
  Stuck _ := False
  elseAhead := False
  counts_of_goes _ _ := trivial
  stuck_of_goes _ h := h.elim
  not_stuck h := h.elim
  mistaken h := h.elim
  whole hs _ h := h ▸ State.whole_moved m hs
  current _ h := .inl (h ▸ rfl)
  ahead _ h _ _ _ := .inl (h ▸ rfl)
  lastEnd _ h := h ▸ rfl
  beside_step _ _ _ h := by rw [h, State.step_moved]
  beside_reported e _ h := by
    rw [h, State.moved, State.reported, State.moved, State.reported, Array.map_push]
  beside_recover _ _ _ h := by rw [h, State.recover_moved]
  offset := offset

namespace Reader

theorem Item.moved_congr {m m' : Move} (i : Item) (h : Outline.Agree m m' i.outlines) :
    i.moved m = i.moved m' := by
  cases i with
  | «import» i => exact congrArg Item.import (i.moved_congr h)
  | global d => exact congrArg Item.global (d.moved_congr h)
  | function f => exact congrArg Item.function (f.moved_congr h)
  | statement st => exact congrArg Item.statement (st.moved_congr h)

theorem items_moved_congr {m m' : Move} {is : List Item}
    (h : Outline.Agree m m' (is.flatMap Item.outlines)) :
    is.map (Item.moved m) = is.map (Item.moved m') := by
  induction is with
  | nil => rfl
  | cons i is ih =>
    rw [List.flatMap_cons, Outline.agree_append] at h
    rw [List.map_cons, List.map_cons, i.moved_congr h.1, ih h.2]

end Reader

open Reader in
/-- The parts of a source file at another place, behind something else. -/
theorem items_placed (text : List UInt8) (p : Position) (bytes lines : Nat) {fuel : Nat}
    (hfuel : 10 * (State.ofTokens (tokenize (Glyph.ofBytes text))).left + 8 ≤ fuel) :
    let tokens := tokenize (Glyph.ofBytes text)
    let run := items fuel State.recover (State.ofTokens tokens)
    let run' := items fuel State.recover
      (State.before p (tokens.map (Token.moved (.down bytes lines))))
    run'.1 = run.1.map (Item.moved (.down bytes lines)) ∧
      run'.2.errors.size = run.2.errors.size := by
  intro tokens run run'
  let m := Move.behind p bytes lines
  obtain ⟨hapart, -⟩ := State.apart_ofTokens text
  have hlaid := Lexer.laid_tokenize (Glyph.ofBytes text)
  have hvalid : ∃ t ∈ tokens, t.isInvalid = false := by
    obtain ⟨words, hwords, -⟩ := hlaid.last_eq
    exact ⟨_, hwords ▸ List.mem_append_right words (List.mem_singleton_self _), rfl⟩
  have htokens : tokens.map (Token.moved m) = tokens.map (Token.moved (.down bytes lines)) := by
    refine List.map_congr_left fun t ht => ?_
    have hline := hlaid.line_pos Nat.one_pos t ht
    have hstop : t.span.stop ≠ .zero := fun heq => absurd hline (by rw [heq]; decide)
    simp only [Token.moved, m, Span.moved_behind hstop]
  have hbefore : (State.ofTokens tokens).moved m =
      State.before p (tokens.map (Token.moved (.down bytes lines))) := by
    rw [State.ofTokens_moved m hvalid, htokens]
    rfl
  let c := Companion.placed m (by simp [m, Move.behind, Position.down])
  have hfollows : c.Follows True (List.map (Item.moved m)) (items fuel) (items fuel)
      (State.ofTokens tokens) (some ((State.ofTokens tokens).moved m)) :=
    Companion.follows_items hapart.whole hfuel fun _ => rfl
  obtain ⟨s', hs', hitems, hbeside⟩ | hstuck := hfollows.result trivial
  · obtain rfl := Option.some.inj hs'
    rw [hbefore] at hitems hbeside
    have hcovers : (State.ofTokens tokens).Covers text.length run.2
        (run.1.flatMap Item.outlines) := tells_items hapart (by dsimp only [tokens]; omega)
    refine ⟨hitems.trans (items_moved_congr fun o ho => ?_), ?_⟩
    · have hproper := hcovers.outlines.proper hcovers.apart.lastEnd o ho
      have hstop : o.span.stop ≠ .zero := fun heq => by
        have := hproper.nonempty
        rw [heq] at this
        exact absurd this (Nat.not_lt_zero _)
      exact Span.moved_behind hstop p bytes lines
    · have hrun : run'.2 = run.2.moved m := hbeside
      rw [hrun, State.moved, Array.size_map]
  · exact hstuck.1.elim

end Parsed

/-!
## Tokens with more behind them

Where reading some tokens to their end finds no mistake, reading them with more tokens behind finds the same
parts first and then those of the others. Every part ends with a semicolon or a brace, so that none goes on;
only a conditional statement does, with an `else`.
-/

/-- A token that stands before the end of the input. -/
structure Token.Consumable (t : Token) : Prop where
  valid : t.isInvalid = false
  not_end : t.kind ≠ .endOfInput

namespace Parsed

namespace State

variable {p : Position} {t u : Token} {words more : List Token}

theorem current_before (ht : t.isInvalid = false) : (before p (t :: more)).current = t := by
  simp only [before, ofTokens, fetch_of_valid ht]

theorem ahead_before (ht : t.isInvalid = false) (hu : u.isInvalid = false) :
    (before p (t :: u :: more)).ahead = u := by
  simp only [before, ofTokens, fetch_of_valid ht, fetch_of_valid hu]

theorem pending_before_append (hwords : ∀ t ∈ words, t.Consumable)
    (hmore : ∃ t ∈ more, t.kind = .endOfInput) (q : Position) :
    (before p (words ++ more)).Whole ∧
      (before p (words ++ more)).pending = words ++ (before q more).pending := by
  have hall : ∃ t ∈ words ++ more, t.kind = .endOfInput := by
    obtain ⟨t, ht, hend⟩ := hmore
    exact ⟨t, List.mem_append_right _ ht, hend⟩
  obtain ⟨hwhole, hpending⟩ := pending_before (p := p) hall
  refine ⟨hwhole, ?_⟩
  have hfilter : words.filter (fun t => !t.isInvalid) = words :=
    List.filter_eq_self.mpr fun t ht => by simp [(hwords t ht).valid]
  rw [hpending, (pending_before hmore).2, List.filter_append, hfilter,
    List.takeWhile_append_of_pos fun t ht => by simpa using (hwords t ht).not_end]

end State

/-- A run has more tokens to come behind those of the first run. -/
def Continues (stop : Token) (more : List Token) (s s' : State) : Prop :=
  ∃ p words, (∀ t ∈ words, t.Consumable) ∧ s = State.before p (words ++ [stop]) ∧
    s' = State.before p (words ++ more)

/-- Less than one token is left that could close a part of a file. -/
def Stranded (s : State) : Prop :=
  s.left ≤ 1 ∧ ∀ t ∈ s.pending, t.kind ≠ .semicolon ∧ t.kind ≠ .rightBrace

section

variable {stop : Token} {more : List Token} (hstop : stop.kind = .endOfInput)
  (hmore : ∃ t ∈ more, t.kind = .endOfInput)

include hstop

theorem pending_before_stop {p : Position} {words : List Token} (hwords : ∀ t ∈ words, t.Consumable) :
    (State.before p (words ++ [stop])).Whole ∧ (State.before p (words ++ [stop])).pending = words := by
  have hmore : ∃ t ∈ [stop], t.kind = .endOfInput := ⟨stop, List.mem_singleton_self _, hstop⟩
  obtain ⟨hwhole, hpending⟩ := State.pending_before_append (p := p) hwords hmore p
  refine ⟨hwhole, ?_⟩
  have hnil : (State.before p [stop]).pending = [] :=
    State.pending_of_end (by rw [State.current_before (isInvalid_of_end hstop), hstop])
  rw [hpending, hnil, List.append_nil]

include hmore

/-- A run with more tokens behind is a companion as long as there is no mistake, up to where the first run
is stranded. -/
def Companion.continued : Companion where
  move := .stay
  Beside := Continues stop more
  Counts s := s.errors = #[]
  Stuck := Stranded
  elseAhead := (State.ofTokens more).current.kind = .elseWord
  counts_of_goes hgoes ht := by
    have hle := hgoes.errors
    rw [ht, Array.size_empty, Nat.le_zero] at hle
    exact Array.eq_empty_of_size_eq_zero hle
  stuck_of_goes hgoes hs := by
    refine ⟨Nat.le_trans hgoes.left_le hs.1, fun t ht => hs.2 t (hgoes.pending.subset ht)⟩
  not_stuck {s} hs := by
    by_cases hend : s.current.kind = .endOfInput
    · simp [hend]
    · exact hs.2 _ (by rw [State.pending_of_not_end hend]; exact List.mem_cons_self)
  mistaken _ herrors := herrors
  whole _ _ h := by
    obtain ⟨p, words, hwords, -, rfl⟩ := h
    exact (State.pending_before_append hwords hmore p).1
  current {s s'} _ h := by
    obtain ⟨p, words, hwords, rfl, rfl⟩ := h
    cases words with
    | nil =>
      have hend : (State.before p [stop]).current.kind = .endOfInput := by
        rw [State.current_before (isInvalid_of_end hstop), hstop]
      refine .inr ⟨?_, hend, id⟩
      rw [Stranded, State.left, List.nil_append, State.pending_of_end hend]
      simp
    | cons t words =>
      have ht := (hwords t List.mem_cons_self).valid
      rw [List.cons_append, List.cons_append, State.current_before ht, State.current_before ht]
      exact .inl rfl
  ahead {s s'} _ h hend hsemicolon hbrace := by
    obtain ⟨p, words, hwords, rfl, rfl⟩ := h
    match words, hwords with
    | [], _ =>
      rw [List.nil_append, State.current_before (isInvalid_of_end hstop)] at hend
      exact absurd hstop hend
    | [t], hwords =>
      have ht := (hwords t List.mem_cons_self).valid
      rw [List.singleton_append, State.current_before ht] at hsemicolon hbrace
      refine .inr ?_
      rw [Stranded, State.left, (pending_before_stop hstop hwords).2]
      simpa using ⟨hsemicolon, hbrace⟩
    | t :: u :: words, hwords =>
      have ht := (hwords t List.mem_cons_self).valid
      have hu := (hwords u (List.mem_cons_of_mem _ List.mem_cons_self)).valid
      simp only [List.cons_append, State.ahead_before ht hu]
      exact .inl rfl
  lastEnd _ h := by
    obtain ⟨p, words, -, rfl, rfl⟩ := h
    rfl
  beside_step {s s'} hs hend _ h := by
    obtain ⟨p, words, hwords, rfl, rfl⟩ := h
    cases words with
    | nil =>
      rw [List.nil_append, State.current_before (isInvalid_of_end hstop)] at hend
      exact absurd hstop hend
    | cons t words =>
      rw [List.forall_mem_cons] at hwords
      refine ⟨t.span.stop, words, hwords.2, ?_, ?_⟩
      · exact State.step_before hwords.1.valid
          ⟨stop, List.mem_append_right _ (List.mem_singleton_self _), isInvalid_of_end hstop⟩
      · obtain ⟨u, hu, hend⟩ := hmore
        exact State.step_before hwords.1.valid
          ⟨u, List.mem_append_right _ hu, isInvalid_of_end hend⟩
  beside_reported e hcounts _ := absurd hcounts (by simp [State.reported])
  beside_recover {s _} hs herrors hcounts _ := by
    have hle := (State.goes_recover hs).errors
    rw [hcounts, Array.size_empty, Nat.le_zero] at hle
    exact absurd (Array.eq_empty_of_size_eq_zero hle) herrors
  offset := .rfl

namespace Reader

omit hstop hmore

theorem items_of_not_end {s : State} (hend : s.current.kind ≠ .endOfInput) (fuel : Nat) :
    items (fuel + 1) State.recover s =
      let turn := progressing (at? .endOfInput) (item fuel) State.recover s
      let others := items fuel State.recover turn.2
      (turn.1.toList ++ others.1, others.2) := by
  have hat : at? .endOfInput State.recover s = (false, s) := by
    change (decide (s.current.kind = .endOfInput), s) = _
    rw [decide_eq_false hend]
  rw [items]
  change (if (at? .endOfInput State.recover s).1 = true then _ else _ : Reader (List Item))
    State.recover (at? .endOfInput State.recover s).2 = _
  rw [hat]
  rfl

theorem items_of_end {s : State} (hend : s.current.kind = .endOfInput) (fuel : Nat) :
    items (fuel + 1) State.recover s = ([], s) := by
  have hat : at? .endOfInput State.recover s = (true, s) := by
    change (decide (s.current.kind = .endOfInput), s) = _
    rw [decide_eq_true hend]
  rw [items]
  change (if (at? .endOfInput State.recover s).1 = true then _ else _ : Reader (List Item))
    State.recover (at? .endOfInput State.recover s).2 = _
  rw [hat]
  rfl

/-- A turn passes a token over only if the next one starts where the turn did. -/
theorem progressing_cases {α : Type} {part : Reader (Option α)} {s t : State} {found : Option α}
    (hpart : part State.recover s = (found, t)) :
    progressing (at? .endOfInput) part State.recover s = (found, t) ∨
      progressing (at? .endOfInput) part State.recover s = (found, t.step) ∧
        t.current.kind ≠ .endOfInput ∧ t.current.span.start.offset = s.current.span.start.offset := by
  have hturn : progressing (at? .endOfInput) part State.recover s =
      (if (decide ((part State.recover s).2.current.span.start.offset = s.current.span.start.offset) &&
        !decide ((part State.recover s).2.current.kind = .endOfInput)) = true
        then (advance >>= fun _ => pure (part State.recover s).1)
        else pure (part State.recover s).1 : Reader (Option α))
          State.recover (part State.recover s).2 := rfl
  rw [hturn, hpart]
  dsimp only
  split
  · next hstay =>
    simp only [Bool.and_eq_true, decide_eq_true_eq, Bool.not_eq_true', decide_eq_false_iff_not] at hstay
    exact .inr ⟨rfl, hstay.2, hstay.1⟩
  · exact .inl rfl

/-- What stands before the tokens that are read does not go away. -/
theorem ordered_of_goes {s t : State} (hs : s.Ordered) (hgoes : s.Goes t) : t.Ordered :=
  hs.sublist hgoes.pending.sublist

/-- What no word for a declaration opens is a statement. -/
theorem statement_of_item {s : State} {fuel : Nat} {i : Item}
    (hkind : Companion.opensDeclaration s.current.kind = false)
    (hitem : (item fuel State.recover s).1 = some i) : ∃ st, i = .statement st := by
  have hstatement : item fuel State.recover s =
      (do return (← statement fuel).map .statement : Reader (Option Item)) State.recover s := by
    simp only [item, kind, Bind.bind, ReaderT.bind, StateT.bind, MonadState.get, getThe, liftM,
      monadLift, MonadStateOf.get, MonadLift.monadLift, StateT.get, Pure.pure, ReaderT.pure]
    generalize s.current.kind = k at hkind
    cases k <;> first | rfl | cases hkind
  rw [hstatement] at hitem
  obtain ⟨st, -, rfl⟩ := Option.map_eq_some_iff.mp hitem
  exact ⟨st, rfl⟩

include hstop hmore

/-- A part that is read without a mistake is the same with more tokens behind it, and so is what is left of
the tokens. -/
theorem item_continued {fuel : Nat} {p : Position} {words : List Token}
    (hwords : ∀ t ∈ words, t.Consumable) (hfuel : 10 * words.length + 7 ≤ fuel)
    {found : Option Item} {u : State}
    (hrun : item fuel State.recover (State.before p (words ++ [stop])) = (found, u))
    (herrors : u.errors = #[])
    (helse : (State.ofTokens more).current.kind = .elseWord → ∀ st, found ≠ some (.statement st)) :
    ∃ i q rest, found = some i ∧ (∀ t ∈ rest, t.Consumable) ∧ rest.length < words.length ∧
      u = State.before q (rest ++ [stop]) ∧
      item fuel State.recover (State.before p (words ++ more)) =
        (some i, State.before q (rest ++ more)) := by
  obtain ⟨hs, hpending⟩ := pending_before_stop hstop hwords (p := p)
  have hfuel' : 10 * (State.before p (words ++ [stop])).left + 7 ≤ fuel := by
    rw [State.left, hpending]
    exact hfuel
  have hends := (runs_item Companion.recoveries_self hs hfuel' hfuel').result
  let c := Companion.continued hstop hmore
  have hbeside : c.Tracks True (State.before p (words ++ [stop]))
      (some (State.before p (words ++ more))) := fun _ => ⟨p, words, hwords, rfl, rfl⟩
  have hfollows := (Companion.follows_item hs hfuel' hbeside).result
  rw [hrun] at hends hfollows
  cases found with
  | none => exact absurd herrors (Companion.errors_ne_of_lt hends)
  | some i =>
    obtain ⟨s', hs', hsame, q, rest, hrest, hu, hu'⟩ | ⟨-, helseAhead, hkind⟩ := hfollows herrors
    · obtain rfl := Option.some.inj hs'
      refine ⟨i, q, rest, rfl, hrest, ?_, hu, Prod.ext ?_ hu'⟩
      · have hlt := hends.1
        dsimp only at hu
        rw [hu, State.left, State.left, hpending, (pending_before_stop hstop hrest).2] at hlt
        exact hlt
      · rw [hsame]
        exact congrArg some i.moved_stay
    · obtain ⟨st, rfl⟩ := statement_of_item hkind (by rw [hrun])
      exact absurd rfl (helse helseAhead st)

/-- A turn of the loop over the parts of a file is the same with more tokens behind. It passes no token
over, since it consumed some. -/
theorem turn_continued {fuel : Nat} {p : Position} {t : Token} {words : List Token}
    (hwords : ∀ u ∈ t :: words, u.Consumable)
    (hordered : (State.before p (t :: words ++ more)).Ordered)
    (hfuel : 10 * (State.before p (t :: words ++ more)).left + 7 ≤ fuel)
    {turn : Option Item × State} (hturn : progressing (at? .endOfInput) (item fuel) State.recover
      (State.before p (t :: words ++ [stop])) = turn)
    (herrors : turn.2.errors = #[])
    (helse : (State.ofTokens more).current.kind = .elseWord → ∀ st, turn.1 ≠ some (.statement st)) :
    ∃ i q rest, turn = (some i, State.before q (rest ++ [stop])) ∧ (∀ u ∈ rest, u.Consumable) ∧
      progressing (at? .endOfInput) (item fuel) State.recover (State.before p (t :: words ++ more)) =
        (some i, State.before q (rest ++ more)) ∧
      (State.before q (rest ++ more)).left < (State.before p (t :: words ++ more)).left ∧
      (State.before p (t :: words ++ more)).Goes (State.before q (rest ++ more)) := by
  obtain ⟨hs, hpending⟩ := pending_before_stop hstop hwords (p := p)
  obtain ⟨hs', hpending'⟩ := State.pending_before_append (p := p) hwords hmore p
  have hconsumable := hwords t List.mem_cons_self
  have hend {rest : List Token} : (State.before p (t :: rest)).current.kind ≠ .endOfInput := by
    rw [State.current_before hconsumable.valid]
    exact hconsumable.not_end
  have hleft : (State.before p (t :: words ++ more)).left =
      (t :: words).length + (State.before p more).left := by
    rw [State.left, hpending', List.length_append]
    rfl
  have hordered₁ : (State.before p (t :: words ++ [stop])).Ordered := by
    rw [State.Ordered, hpending'] at hordered
    rw [State.Ordered, hpending]
    exact hordered.sublist (List.sublist_append_left _ _)
  have hfuel₁ : 10 * (State.before p (t :: words ++ [stop])).left + 7 ≤ fuel := by
    rw [State.left, hpending]
    omega
  have hruns := runs_item Companion.recoveries_self hs hfuel₁ hfuel₁
  have hruns' := runs_item Companion.recoveries_self hs' hfuel hfuel
  obtain ⟨found, u, hitem⟩ : ∃ found u,
      item fuel State.recover (State.before p (t :: words ++ [stop])) = (found, u) := ⟨_, _, rfl⟩
  have hpart : u.errors = #[] ∧ turn.1 = found := by
    obtain hcase | ⟨hcase, hgoing, -⟩ := progressing_cases hitem
    · rw [hturn] at hcase
      rw [hcase] at herrors ⊢
      exact ⟨herrors, rfl⟩
    · rw [hturn] at hcase
      rw [hcase] at herrors ⊢
      have hu : u.Whole := by
        have := hruns.goes.whole
        rwa [hitem] at this
      have hle := (State.goes_step hu hgoing).1.errors
      rw [herrors, Array.size_empty, Nat.le_zero] at hle
      exact ⟨Array.eq_empty_of_size_eq_zero hle, rfl⟩
  rw [hpart.2] at helse
  obtain ⟨i, q, rest, rfl, hrest, hlt, rfl, hitem'⟩ :=
    item_continued hstop hmore hwords (by omega) hitem hpart.1 helse
  have hgoes : (State.before p (t :: words ++ [stop])).Goes (State.before q (rest ++ [stop])) := by
    have := hruns.goes
    rwa [hitem] at this
  have hgoes' : (State.before p (t :: words ++ more)).Goes (State.before q (rest ++ more)) := by
    have := hruns'.goes
    rwa [hitem'] at this
  have hless : (State.before q (rest ++ [stop])).left < (State.before p (t :: words ++ [stop])).left := by
    rw [State.left, State.left, hpending, (pending_before_stop hstop hrest).2]
    exact hlt
  have hless' : (State.before q (rest ++ more)).left < (State.before p (t :: words ++ more)).left := by
    have hbehind : (State.before q (rest ++ more)).left = rest.length + (State.before p more).left := by
      rw [State.left, (State.pending_before_append hrest hmore p).2, List.length_append]
      rfl
    omega
  refine ⟨i, q, rest, ?_, hrest, ?_, hless', hgoes'⟩
  · obtain hcase | ⟨-, hgoing, hsame⟩ := progressing_cases hitem
    · exact hturn.symm.trans hcase
    · exact absurd (offset_lt_of_goes hordered₁ hgoes hend hgoing hless) (by omega)
  · obtain hcase | ⟨-, hgoing, hsame⟩ := progressing_cases hitem'
    · exact hcase
    · exact absurd (offset_lt_of_goes hordered hgoes' hend hgoing hless') (by omega)

/-- Where some tokens are read to their end without a mistake, more tokens behind them are read next. -/
theorem items_continued {fuel : Nat} {p : Position} {words : List Token}
    (hwords : ∀ t ∈ words, t.Consumable) (hordered : (State.before p (words ++ more)).Ordered)
    (hfuel : 10 * (State.before p (words ++ more)).left + 8 ≤ fuel)
    (herrors : (items fuel State.recover (State.before p (words ++ [stop]))).2.errors = #[])
    (helse : (State.ofTokens more).current.kind = .elseWord →
      ∀ st, Item.statement st ∉ (items fuel State.recover (State.before p (words ++ [stop]))).1) :
    ∃ q enough, 10 * (State.before q more).left + 8 ≤ enough ∧
      items fuel State.recover (State.before p (words ++ more)) =
        ((items fuel State.recover (State.before p (words ++ [stop]))).1 ++
          (items enough State.recover (State.before q more)).1,
          (items enough State.recover (State.before q more)).2) := by
  induction fuel generalizing p words with
  | zero => omega
  | succ fuel ih =>
    cases words with
    | nil =>
      have hend : (State.before p [stop]).current.kind = .endOfInput := by
        rw [State.current_before (isInvalid_of_end hstop), hstop]
      refine ⟨p, fuel + 1, hfuel, ?_⟩
      rw [List.nil_append, List.nil_append, items_of_end hend, List.nil_append]
      rfl
    | cons t words =>
      have hconsumable := hwords t List.mem_cons_self
      have hend {rest : List Token} :
          (State.before p (t :: words ++ rest)).current.kind ≠ .endOfInput := by
        rw [List.cons_append, State.current_before hconsumable.valid]
        exact hconsumable.not_end
      obtain ⟨hs, hpending⟩ := pending_before_stop hstop hwords (p := p)
      have hleft : (State.before p (t :: words ++ [stop])).left ≤
          (State.before p (t :: words ++ more)).left := by
        rw [State.left, State.left, hpending, (State.pending_before_append hwords hmore p).2,
          List.length_append]
        exact Nat.le_add_right _ _
      have hitem : Runs State.recover State.recover (item fuel) (item fuel) _ _ :=
        runs_item Companion.recoveries_self hs (by omega) (by omega)
      have hturn := runs_progressing ender_at (decide_eq_false hend) hitem
      have hless := hturn.result.1
      have hothers : Runs State.recover State.recover (items fuel) (items fuel) _ _ :=
        runs_items Companion.recoveries_self hturn.goes.whole (by omega) (by omega)
      rw [items_of_not_end hend] at herrors helse ⊢
      rw [items_of_not_end hend]
      dsimp only at herrors helse ⊢
      have hclean := hothers.goes.errors
      rw [herrors, Array.size_empty, Nat.le_zero] at hclean
      obtain ⟨i, q, rest, hsame, hrest, hsame', hless, hgoes⟩ := turn_continued hstop hmore hwords hordered
        (by omega) rfl (Array.eq_empty_of_size_eq_zero hclean) fun helseAhead st hst =>
          helse helseAhead st (List.mem_append_left _ (by rw [hst]; exact List.mem_singleton_self _))
      rw [hsame] at herrors helse ⊢
      rw [hsame']
      obtain ⟨r, enough, henough, hrun⟩ := ih hrest (ordered_of_goes hordered hgoes) (by omega) herrors
        fun helseAhead st hst => helse helseAhead st (List.mem_append_right _ hst)
      refine ⟨r, enough, henough, ?_⟩
      rw [hrun, List.append_assoc]

end Reader

end

end Parsed
end TypedScript
