import TypedScript.Proofs.Parsed.Before
import TypedScript.Proofs.Parsed.Continued

/-!
# Texts with a line break between them

A text that is read without a mistake, a line break and another text are read as the parts of both. No
token, no comment and no part of the first goes over the break, and of what the second starts with only an
`else` could belong to the first.
-/

namespace TypedScript
namespace Parsed

/-! ## What every state of a run keeps -/

theorem Fault.moved_stay (f : Fault) : f.moved .stay = f := by
  cases f <;> rfl

theorem Error.moved_stay (e : Error) : e.moved .stay = e := by
  rw [Error.moved, Fault.moved_stay]
  rfl

/-- What consuming a token and recording a mistake keep, recovery keeps. -/
theorem State.keeps_recoverWithin {I : State → Prop}
    (step : ∀ {s : State}, s.Whole → s.current.kind ≠ .endOfInput → I s → I s.step) {fuel : Nat} {s : State}
    (hs : s.Whole) (h : I s) : I (s.recoverWithin fuel) := by
  induction fuel generalizing s with
  | zero => exact h
  | succ fuel ih =>
    unfold State.recoverWithin
    split
    · exact h
    · next hend =>
      have hstep := step hs hend h
      split
      · exact hstep
      split
      · exact h
      · exact ih (State.goes_step hs hend).1.whole hstep

theorem State.counts_of_goes {s t : State} (_ : s.Goes t) (h : True) : True := h

theorem State.not_stuck_of_goes {s t : State} (_ : s.Goes t) (h : False) : False := h

theorem State.not_stuck_here {s : State} (h : False) :
    s.current.kind ≠ .semicolon ∧ s.current.kind ≠ .rightBrace := h.elim

theorem State.not_mistaken {s : State} (h : False) (_ : s.errors ≠ #[]) : ¬True := h.elim

theorem Move.offset_stay {p q : Position} :
    (Move.stay.start p).offset = (Move.stay.start q).offset ↔ p.offset = q.offset := .rfl

/-- A run is its own companion, so that what consuming a token and recording a mistake keep is kept by
every reader. -/
def Companion.keeping (I : State → Prop)
    (step : ∀ {s : State}, s.Whole → s.current.kind ≠ .endOfInput → I s → I s.step)
    (reported : ∀ {s : State} (e : Error), I s → I (s.reported e)) : Companion where
  move := .stay
  Beside s s' := s' = s ∧ I s
  Counts _ := True
  Stuck _ := False
  elseAhead := False
  counts_of_goes := State.counts_of_goes
  stuck_of_goes := State.not_stuck_of_goes
  not_stuck := State.not_stuck_here
  mistaken := State.not_mistaken
  whole hs _ h := h.1 ▸ hs
  current _ h := .inl (h.1 ▸ rfl)
  ahead _ h _ _ _ := .inl (h.1 ▸ rfl)
  lastEnd _ h := h.1 ▸ rfl
  beside_step hs hend _ h := ⟨congrArg State.step h.1, step hs hend h.2⟩
  beside_reported e _ h := ⟨by rw [h.1, Error.moved_stay], reported e h.2⟩
  beside_recover hs _ _ h := ⟨congrArg State.recover h.1, State.keeps_recoverWithin step hs h.2⟩
  offset := Move.offset_stay

/-- What consuming a token and recording a mistake keep is kept up to the end of a file. -/
theorem keeps_items {I : State → Prop}
    (step : ∀ {s : State}, s.Whole → s.current.kind ≠ .endOfInput → I s → I s.step)
    (reported : ∀ {s : State} (e : Error), I s → I (s.reported e)) {s : State} (hs : s.Whole) (h : I s)
    {fuel : Nat} (hfuel : 10 * s.left + 8 ≤ fuel) : I (Reader.items fuel State.recover s).2 := by
  have hbeside : (Companion.keeping I step reported).Tracks True s (some s) := fun _ => ⟨rfl, h⟩
  obtain ⟨_, -, -, -, hI⟩ | hstuck := (Companion.follows_items hs hfuel hbeside).result trivial
  · exact hI
  · exact hstuck.1.elim

/-! ## Texts without a mistake -/

/-- Fetching passes invalid tokens over, and each of them leaves a mistake. -/
theorem fetch_counts (last : Token) (errors : Array Error) (tokens : List Token) :
    let f := fetch last errors tokens
    errors.size + tokens.countP Token.isInvalid = f.2.2.size + f.2.1.countP Token.isInvalid ∧
      f.2.1 <:+ tokens ∧ (f.1 = last ∧ f.2.1 = [] ∨ f.1 :: f.2.1 <:+ tokens) := by
  induction tokens generalizing errors with
  | nil => exact ⟨rfl, List.suffix_rfl, .inl ⟨rfl, rfl⟩⟩
  | cons t rest ih =>
    cases ht : t.isInvalid with
    | true =>
      obtain ⟨e, he⟩ := @fetch_of_invalid last t errors rest ht
      obtain ⟨hcount, hsuffix, hfirst⟩ := ih (errors.push e)
      rw [Array.size_push] at hcount
      simp only [he, List.countP_cons, ht, if_true]
      refine ⟨by omega, hsuffix.trans (List.suffix_cons t rest), hfirst.imp_right fun h => ?_⟩
      exact h.trans (List.suffix_cons t rest)
    | false =>
      rw [fetch_of_valid ht]
      exact ⟨by simp [ht], List.suffix_cons t rest, .inr List.suffix_rfl⟩

/-- What is left of some tokens, of which only the last is the end: the invalid ones among them are still to
come or have left a mistake. -/
structure Accounts (tokens : List Token) (s : State) : Prop where
  rest : s.rest <:+ tokens
  current : s.current.kind = .endOfInput → s.rest = []
  ahead : s.ahead.kind = .endOfInput → s.rest = []
  counts : tokens.countP Token.isInvalid ≤ s.errors.size + s.rest.countP Token.isInvalid

section

variable {words : List Token} {stop : Token} (hwords : ∀ t ∈ words, t.kind ≠ .endOfInput)

include hwords

theorem eq_nil_of_suffix {t : Token} {rest : List Token} (h : t :: rest <:+ words ++ [stop])
    (ht : t.kind = .endOfInput) : rest = [] := by
  obtain rfl | ⟨rest, u, rfl⟩ := List.eq_nil_or_concat rest
  · rfl
  · obtain ⟨before, heq⟩ := h
    rw [List.concat_eq_append, ← List.cons_append, ← List.append_assoc] at heq
    obtain ⟨hsame, -⟩ := List.append_inj' heq rfl
    exact absurd ht (hwords t (hsame ▸ List.mem_append_right _ List.mem_cons_self))

theorem accounts_step {s : State} (h : Accounts (words ++ [stop]) s) : Accounts (words ++ [stop]) s.step := by
  obtain ⟨hcount, hsuffix, hfirst⟩ := fetch_counts s.ahead s.errors s.rest
  refine ⟨hsuffix.trans h.rest, fun hend => ?_, fun hend => ?_, ?_⟩
  · have hnil : (fetch s.ahead s.errors s.rest).2.1 <:+ [] := (h.ahead hend) ▸ hsuffix
    exact List.suffix_nil.mp hnil
  · obtain ⟨hsame, hnil⟩ | hfirst := hfirst
    · exact hnil
    · exact eq_nil_of_suffix hwords (hfirst.trans h.rest) hend
  · exact Nat.le_trans h.counts (Nat.le_of_eq hcount)

theorem accounts_ofTokens : Accounts (words ++ [stop]) (State.ofTokens (words ++ [stop])) := by
  let nothing : Token := ⟨.endOfInput, "", ⟨Position.zero, Position.zero⟩⟩
  let first := fetch nothing #[] (words ++ [stop])
  obtain ⟨hcount, hsuffix, hfirst⟩ := fetch_counts nothing #[] (words ++ [stop])
  obtain ⟨hcount', hsuffix', hfirst'⟩ := fetch_counts first.1 first.2.2 first.2.1
  refine ⟨hsuffix'.trans hsuffix, fun hend => ?_, fun hend => ?_, ?_⟩
  · have hnil : first.2.1 = [] := by
      obtain ⟨-, hnil⟩ | hfirst := hfirst
      · exact hnil
      · exact eq_nil_of_suffix hwords hfirst hend
    exact List.suffix_nil.mp (hsuffix'.trans (hnil ▸ List.suffix_rfl))
  · obtain ⟨-, hnil⟩ | hfirst' := hfirst'
    · exact hnil
    · exact eq_nil_of_suffix hwords (hfirst'.trans hsuffix) hend
  · rw [Array.size_empty, Nat.zero_add] at hcount
    exact Nat.le_of_eq (hcount.trans hcount')

end

/-- How far a text leads that is read as a file. -/
theorem parse_eq (source : List Glyph) : ∃ fuel, 10 * (State.ofTokens (tokenize source)).left + 8 ≤ fuel ∧
    (State.ofTokens (tokenize source)).Whole ∧
    let run := Reader.items fuel State.recover (State.ofTokens (tokenize source))
    let start := (State.ofTokens (tokenize source)).current.span.start
    parse source = (Reader.sortItems ⟨start, run.2.lastEnd⟩ run.1, run.2.errors) := by
  obtain ⟨words, hwords, hne⟩ := (Lexer.laid_tokenize source).last_eq
  obtain ⟨hwhole, hpending⟩ := hwords ▸ State.pending_ofTokens hne rfl
  refine ⟨10 * ((tokenize source).length + 2), ?_, hwhole, ?_⟩
  · have hle := List.length_filter_le (fun t => !t.isInvalid) words
    rw [State.left, hpending, hwords, List.length_append]
    omega
  · rw [parse, readWith]
    generalize 10 * ((tokenize source).length + 2) = fuel
    rfl

/-- A text that is read without a mistake has valid tokens only. -/
theorem valid_of_parse {source : List Glyph} (h : (parse source).2 = #[]) :
    ∀ t ∈ tokenize source, t.isInvalid = false := by
  obtain ⟨words, hwords, hne⟩ := (Lexer.laid_tokenize source).last_eq
  obtain ⟨fuel, hfuel, hwhole, hparse⟩ := parse_eq source
  have hend := (Reader.runs_items Companion.recoveries_self hwhole hfuel hfuel).result.1
  have haccounts : Accounts (tokenize source)
      (Reader.items fuel State.recover (State.ofTokens (tokenize source))).2 := by
    refine keeps_items (fun _ _ hs => ?_) (fun e hs => ?_) hwhole ?_ hfuel
    · rw [hwords] at hs ⊢
      exact accounts_step hne hs
    · refine ⟨hs.rest, hs.current, hs.ahead, Nat.le_trans hs.counts ?_⟩
      rw [State.reported, Array.size_push]
      exact Nat.add_le_add_right (Nat.le_succ _) _
    · rw [hwords]
      exact accounts_ofTokens hne
  rw [hparse] at h
  dsimp only at h
  have hcounts := haccounts.counts
  rw [h, haccounts.current hend, Array.size_empty, List.countP_nil, Nat.add_zero, Nat.le_zero,
    List.countP_eq_zero] at hcounts
  simpa using hcounts

/-- No part of a source file starts with an `else`. -/
theorem Clause.Spelt.kindOf_ne {st : Stmt} {ts : List Lexeme} (h : Clause.Spelt (.stmt st) ts) :
    kindOf ts ≠ .elseWord ∧ kindOf ts ≠ .endOfInput := by
  cases h with
  | @eval v ts hv =>
    have hopens : opensExpression (kindOf ts) := hv.opens
    rw [kindOf_append (ne_endOfInput_of_opens hopens)]
    refine ⟨fun h => ?_, ne_endOfInput_of_opens hopens⟩
    rw [h] at hopens
    cases hopens
  | declare hd =>
    obtain ⟨us, -, rfl⟩ := hd.spelt
    cases ‹Declaration›.isConst <;> exact ⟨nofun, nofun⟩
  | _ => exact ⟨nofun, nofun⟩

/-- The tokens of a text are in order. -/
theorem State.Apart.ordered {limit : Nat} {s : State} (h : s.Apart limit) : s.Ordered := by
  have hbefore := h.tokens.pairwise
  rw [List.pairwise_map] at hbefore
  refine hbefore.imp_of_mem fun ht _ hbefore => ?_
  have hproper := h.tokens.proper (Nat.le_refl limit) (.ofToken _)
    (Outline.mem_allOf.mpr ⟨_, List.mem_map_of_mem ht, List.mem_cons_self⟩)
  exact Nat.lt_of_lt_of_le hproper.nonempty hbefore

theorem Reader.ItemsSpelt.kindOf_ne {is : List Reader.Item} {ts : List Lexeme}
    (h : Reader.ItemsSpelt is ts) : kindOf ts ≠ .elseWord := by
  cases h with
  | nil => exact nofun
  | cons hi _ =>
    cases hi with
    | «import» hi => cases hi <;> exact nofun
    | global hd =>
      obtain ⟨us, -, rfl⟩ := hd.spelt
      cases ‹Declaration›.isConst <;> exact nofun
    | function hf =>
      cases hf
      exact nofun
    | statement hst _ =>
      rw [kindOf_append hst.kindOf_ne.2]
      exact hst.kindOf_ne.1

/-- A text that is read without a mistake does not start with an `else`. -/
theorem current_of_parse {source : List Glyph} (hordered : (State.ofTokens (tokenize source)).Ordered)
    (h : (parse source).2 = #[]) : (State.ofTokens (tokenize source)).current.kind ≠ .elseWord := by
  obtain ⟨fuel, hfuel, hwhole, hparse⟩ := parse_eq source
  obtain ⟨hend, hreads⟩ := (Reader.runs_items Companion.recoveries_self hwhole hfuel hfuel).result
  rw [hparse] at h
  dsimp only at h
  obtain ⟨ts, hts, -, hspelt⟩ := hreads hordered (by rw [h]; exact Nat.zero_le _)
  rw [State.lexemes, State.lexemes, State.pending_of_end hend, List.map_nil, List.append_nil] at hts
  intro helse
  rw [State.pending_of_not_end (by rw [helse]; decide), List.map_cons] at hts
  refine hspelt.kindOf_ne ?_
  rw [← hts, kindOf, Token.lexeme, helse]

/-! ## Sorting -/

/-- The parts of two files, those of the first before those of the second. -/
structure Joins (f g whole : File) : Prop where
  imports : whole.imports = f.imports ++ g.imports
  globals : whole.globals = f.globals ++ g.globals
  functions : whole.functions = f.functions ++ g.functions
  statements : whole.statements = f.statements ++ g.statements

namespace Reader

theorem sortItems_eq (span span' : Span) (is : List Item) :
    sortItems span is = { sortItems span' is with span } := by
  induction is with
  | nil => rfl
  | cons i is ih => cases i <;> simp only [sortItems, ih]

theorem joins_sortItems (span span₁ span₂ : Span) (is js : List Item) :
    Joins (sortItems span₁ is) (sortItems span₂ js) (sortItems span (is ++ js)) := by
  induction is with
  | nil =>
    rw [List.nil_append, sortItems_eq span span₂ js]
    exact ⟨rfl, rfl, rfl, rfl⟩
  | cons i is ih =>
    obtain ⟨himports, hglobals, hfunctions, hstatements⟩ := ih
    cases i <;> constructor <;> simp_all [sortItems]

theorem sortItems_moved (m : Move) (span : Span) (is : List Item) :
    sortItems (span.moved m) (is.map (Item.moved m)) = (sortItems span is).moved m := by
  induction is with
  | nil => rfl
  | cons i is ih =>
    cases i <;> simp only [List.map_cons, Item.moved, sortItems, ih] <;> rfl

theorem mem_statements {span : Span} {is : List Item} {st : Stmt} (h : Item.statement st ∈ is) :
    st ∈ (sortItems span is).statements := by
  induction is with
  | nil => cases h
  | cons i is ih =>
    obtain rfl | hrest := List.mem_cons.mp h
    · exact List.mem_cons_self
    · cases i with
      | statement s => exact List.mem_cons_of_mem _ (ih hrest)
      | «import» | global | function => exact ih hrest

end Reader

/-- Moving tokens does not change what they start with. -/
theorem current_moved {tokens : List Token} (h : ∃ t ∈ tokens, t.isInvalid = false) (m : Move) :
    (State.ofTokens (tokens.map (Token.moved m))).current.kind = (State.ofTokens tokens).current.kind := by
  have hmoved := congrArg (fun s => s.current.kind) (State.ofTokens_moved m h)
  exact hmoved.symm

/-- With enough fuel, more of it makes no difference. -/
theorem items_eq_of_le {s : State} (hs : s.Whole) {fuel fuel' : Nat} (h : 10 * s.left + 8 ≤ fuel)
    (h' : 10 * s.left + 8 ≤ fuel') :
    Reader.items fuel' State.recover s = Reader.items fuel State.recover s :=
  (Reader.runs_items Companion.recoveries_self hs h h').same

/-- The parts of a text and what follows it, where its tokens are followed by those of another one. -/
theorem parse_of_tokens {a b whole : List UInt8} {words : List Token} {stop : Token} {bytes lines : Nat}
    (hwords : tokenize (Glyph.ofBytes a) = words ++ [stop]) (hstop : stop.kind = .endOfInput)
    (hconsumable : ∀ t ∈ words, t.Consumable)
    (hwhole : tokenize (Glyph.ofBytes whole) =
      words ++ (tokenize (Glyph.ofBytes b)).map (Token.moved (.down bytes lines)))
    (ha : (parse (Glyph.ofBytes a)).2 = #[])
    (helse : (State.ofTokens (tokenize (Glyph.ofBytes b))).current.kind = .elseWord →
      (parse (Glyph.ofBytes a)).1.statements = []) :
    (parse (Glyph.ofBytes whole)).2.size = (parse (Glyph.ofBytes b)).2.size ∧
      Joins (parse (Glyph.ofBytes a)).1 ((parse (Glyph.ofBytes b)).1.moved (.down bytes lines))
        (parse (Glyph.ofBytes whole)).1 := by
  obtain ⟨others, hothers, -⟩ := (Lexer.laid_tokenize (Glyph.ofBytes b)).last_eq
  let more := (tokenize (Glyph.ofBytes b)).map (Token.moved (.down bytes lines))
  have hlast : ∃ t ∈ tokenize (Glyph.ofBytes b), t.kind = .endOfInput :=
    ⟨_, hothers ▸ List.mem_append_right others (List.mem_singleton_self _), rfl⟩
  have hmore : ∃ t ∈ more, t.kind = .endOfInput := by
    obtain ⟨t, ht, hend⟩ := hlast
    exact ⟨t.moved (.down bytes lines), List.mem_map_of_mem ht, hend⟩
  obtain ⟨fuel₁, hfuel₁, hs₁, hparse₁⟩ := parse_eq (Glyph.ofBytes a)
  obtain ⟨fuel₂, hfuel₂, hs₂, hparse₂⟩ := parse_eq (Glyph.ofBytes b)
  obtain ⟨fuel, hfuel, hs, hparse⟩ := parse_eq (Glyph.ofBytes whole)
  have hordered := (State.apart_ofTokens whole).1.ordered
  -- With the fuel for the whole text, the first one is read as with its own.
  have hleft : (State.ofTokens (tokenize (Glyph.ofBytes a))).left ≤
      (State.ofTokens (tokenize (Glyph.ofBytes whole))).left := by
    have hpending := (State.pending_before_append (p := .zero) hconsumable hmore .zero).2
    have hpending₁ := (pending_before_stop hstop hconsumable (p := .zero)).2
    rw [State.before_zero] at hpending hpending₁
    rw [hwords, hwhole, State.left, State.left, hpending₁, hpending, List.length_append]
    exact Nat.le_add_right _ _
  have hrun₁ : Reader.items fuel State.recover _ = _ := items_eq_of_le hs₁ hfuel₁ (by omega)
  rw [hparse₁, ← hrun₁] at ha helse ⊢
  rw [hparse₂, hparse]
  dsimp only at ha helse ⊢
  rw [hwords] at ha helse ⊢
  rw [hwhole] at hordered hfuel ⊢
  obtain ⟨q, enough, henough, hrun⟩ := Reader.items_continued hstop hmore hconsumable hordered hfuel ha
    (fun helseAhead st hst => by
      have hvalid : ∃ t ∈ tokenize (Glyph.ofBytes b), t.isInvalid = false := by
        obtain ⟨t, ht, hend⟩ := hlast
        exact ⟨t, ht, isInvalid_of_end hend⟩
      have hnil := helse (by rw [← current_moved hvalid (.down bytes lines)]; exact helseAhead)
      have hmem : st ∈ (Reader.sortItems ⟨(State.ofTokens (words ++ [stop])).current.span.start,
          (Reader.items fuel State.recover (State.ofTokens (words ++ [stop]))).2.lastEnd⟩ _).statements :=
        Reader.mem_statements hst
      rw [State.before_zero] at hmem
      rw [hnil] at hmem
      cases hmem)
  have hbehind := (State.pending_before (p := q) hmore).1
  have hrun₂ : Reader.items (fuel₂ + enough) State.recover _ = _ :=
    items_eq_of_le hs₂ hfuel₂ (by omega)
  have hrun' : Reader.items (fuel₂ + enough) State.recover _ = _ :=
    items_eq_of_le hbehind henough (by omega)
  have hboth : 10 * (State.ofTokens (tokenize (Glyph.ofBytes b))).left + 8 ≤ fuel₂ + enough := by omega
  obtain ⟨hitems, hsize⟩ := items_placed b q bytes lines hboth
  rw [State.before_zero, State.before_zero] at hrun
  rw [hrun, ← hrun', ← hrun₂]
  refine ⟨hsize, ?_⟩
  dsimp only
  rw [← Reader.sortItems_moved, ← hitems]
  exact Reader.joins_sortItems _ _ _ _ _

/-- A text that is read without a mistake, a line break and another text are read as the parts of both, and
the mistakes are those of the second; unless that starts with an `else` and there is a statement that it
might belong to. -/
theorem parse_lineBreak {a : List UInt8} (b : List UInt8) (hnul : 0 ∉ a)
    (ha : (parse (Glyph.ofBytes a)).2 = #[])
    (helse : (State.ofTokens (tokenize (Glyph.ofBytes b))).current.kind = .elseWord →
      (parse (Glyph.ofBytes a)).1.statements = []) :
    let whole := parse (Glyph.ofBytes (a ++ 10 :: b))
    whole.2.size = (parse (Glyph.ofBytes b)).2.size ∧
      Joins (parse (Glyph.ofBytes a)).1
        ((parse (Glyph.ofBytes b)).1.moved (.down (a.length + 1) (a.count 10 + 1))) whole.1 := by
  have hbreaks : ((Glyph.ofBytes a).map Glyph.char).count '\n' = a.count 10 :=
    Glyph.count_ofBytes (n := 10) (by decide) a
  have hnuls : '\x00' ∉ (Glyph.ofBytes a).map Glyph.char := by
    have hcount : ((Glyph.ofBytes a).map Glyph.char).count '\x00' = a.count 0 :=
      Glyph.count_ofBytes (n := 0) (by decide) a
    rw [List.count_eq_zero.mpr hnul] at hcount
    exact List.count_eq_zero.mp hcount
  have hvalid := valid_of_parse ha
  have hvalid' : ∀ t ∈ tokenize (Glyph.ofBytes a), ∀ f, t.kind ≠ .invalid f := fun t ht f hf => by
    have hinvalid := hvalid t ht
    rw [Token.isInvalid, hf] at hinvalid
    cases hinvalid
  obtain ⟨words, stop, hwords, hstop, hne, hwhole⟩ :=
    Lexer.tokenize_lineBreak (l := ⟨'\n', 1⟩) (Glyph.ofBytes b) hnuls rfl hvalid'
  rw [Glyph.widthOf_ofBytes, hbreaks] at hwhole
  have hjoined : Glyph.ofBytes (a ++ 10 :: b) = Glyph.ofBytes a ++ ⟨'\n', 1⟩ :: Glyph.ofBytes b :=
    Glyph.ofBytes_append (n := 10) (by decide) a b
  rw [← hjoined] at hwhole
  refine parse_of_tokens hwords hstop (fun t ht => ⟨?_, hne t ht⟩) hwhole ha helse
  exact hvalid t (hwords ▸ List.mem_append_left _ ht)

end Parsed
end TypedScript
