import TypedScript.Proofs.Parsed.Moved
import TypedScript.Proofs.Parsed.Recovery

/-!
# Companions of a run

A companion is another run of the same reader that starts at a state of its own and is to find the same
at another place. It may have more in view than the first run, where the first one is at its end: then the
two part, and the first run is stuck, for it ends with less than one token that could close a part of a
file. What holds of every companion is told by a few laws on states; a reader is followed if its parts
are.
-/

namespace TypedScript
namespace Parsed

def State.reported (s : State) (e : Error) : State := { s with errors := s.errors.push e }

/-- The laws of the states at which two runs are beside each other. Only the runs that count are followed,
and where a run is stuck before an `else` of its companion is told apart. -/
structure Companion where
  move : Move
  Beside : State → State → Prop
  Counts : State → Prop
  Stuck : State → Prop
  elseAhead : Prop
  counts_of_goes : ∀ {s t}, s.Goes t → Counts t → Counts s
  stuck_of_goes : ∀ {s t}, s.Goes t → Stuck s → Stuck t
  not_stuck : ∀ {s}, Stuck s → s.current.kind ≠ .semicolon ∧ s.current.kind ≠ .rightBrace
  mistaken : ∀ {s}, Stuck s → s.errors ≠ #[] → ¬Counts s
  whole : ∀ {s s'}, s.Whole → Counts s → Beside s s' → s'.Whole
  current : ∀ {s s'}, Counts s → Beside s s' → s'.current = s.current.moved move ∨
    Stuck s ∧ s.current.kind = .endOfInput ∧ (s'.current.kind = .elseWord → elseAhead)
  ahead : ∀ {s s'}, Counts s → Beside s s' → s.current.kind ≠ .endOfInput →
    s.current.kind ≠ .semicolon → s.current.kind ≠ .rightBrace →
    s'.ahead = s.ahead.moved move ∨ Stuck s
  lastEnd : ∀ {s s'}, Counts s → Beside s s' → s'.lastEnd = move.stop s.lastEnd
  beside_step : ∀ {s s'}, s.Whole → s.current.kind ≠ .endOfInput → Counts s.step → Beside s s' →
    Beside s.step s'.step
  beside_reported : ∀ {s s'} e, Counts (s.reported e) → Beside s s' →
    Beside (s.reported e) (s'.reported (e.moved move))
  beside_recover : ∀ {s s'}, s.Whole → s.errors ≠ #[] → Counts s.recover → Beside s s' →
    Beside s.recover s'.recover
  offset : ∀ {p q}, (move.start p).offset = (move.start q).offset ↔ p.offset = q.offset

namespace Companion

open Reader

variable (c : Companion)

/-- A run at a state has its companion beside it, or is stuck without one. -/
def Tracks (loose : Prop) (s : State) : Option State → Prop
  | some s' => c.Counts s → c.Beside s s'
  | none => c.Counts s → c.Stuck s ∧ loose

/-- A reader finds what its companion finds at another place, and they end beside each other, unless the
first one ends stuck. -/
structure Follows (loose : Prop) {α : Type} (out : α → α) (m m' : Reader α) (s : State)
    (s'? : Option State) : Prop where
  goes : s.Goes (m State.recover s).2
  result : c.Counts (m State.recover s).2 →
    (∃ s', s'? = some s' ∧ (m' State.recover s').1 = out (m State.recover s).1 ∧
      c.Beside (m State.recover s).2 (m' State.recover s').2) ∨
    c.Stuck (m State.recover s).2 ∧ loose

variable {c} {α β γ : Type} {s : State} {s'? : Option State} {k l l₀ : Prop}

theorem Tracks.loosen (h : c.Tracks l s s'?) (hl : l → k) : c.Tracks k s s'? := by
  cases s'? with
  | none => exact fun hs => (h hs).imp_right hl
  | some s' => exact h

/-- Where a companion is asked for and there is none, the run is stuck. -/
theorem Follows.exists_tracks {out : α → α} {m m' : Reader α} (hm : c.Follows l out m m' s s'?) :
    ∃ t'?, c.Tracks l (m State.recover s).2 t'? := by
  by_cases hcounts : c.Counts (m State.recover s).2
  · obtain ⟨s', -, -, hbeside⟩ | hstuck := hm.result hcounts
    · exact ⟨some _, fun _ => hbeside⟩
    · exact ⟨none, fun _ => hstuck⟩
  · exact ⟨none, fun h => absurd h hcounts⟩

theorem Follows.bind {out₁ : α → α} {out : β → β} {m m' : Reader α} {f f' : α → Reader β}
    (hm : c.Follows k out₁ m m' s s'?)
    (hf : ∀ a t t'?, m State.recover s = (a, t) → t.Whole → s.Goes t → c.Tracks k t t'? →
      c.Follows l out (f a) (f' (out₁ a)) t t'?) : c.Follows l out (m >>= f) (m' >>= f') s s'? := by
  have hrest : ∀ t'?, c.Tracks k (m State.recover s).2 t'? →
      c.Follows l out (f (m State.recover s).1) (f' (out₁ (m State.recover s).1))
        (m State.recover s).2 t'? :=
    fun t'? ht => hf _ _ t'? rfl hm.goes.whole hm.goes ht
  obtain ⟨t'?, ht⟩ := hm.exists_tracks
  refine ⟨hm.goes.trans (hrest t'? ht).goes, fun hcounts => ?_⟩
  have hcounts' := c.counts_of_goes (hrest t'? ht).goes hcounts
  obtain ⟨s', hs', hsame, hbeside⟩ | hstuck := hm.result hcounts'
  · obtain ⟨t', ht', hsame', hbeside'⟩ | hstuck := (hrest (some _) fun _ => hbeside).result hcounts
    · obtain rfl := Option.some.inj ht'
      refine .inl ⟨s', hs', ?_, ?_⟩
      · change (f' (m' State.recover s').1 State.recover (m' State.recover s').2).1 = _
        rw [hsame, hsame']
        rfl
      · change c.Beside _ (f' (m' State.recover s').1 State.recover (m' State.recover s').2).2
        rw [hsame]
        exact hbeside'
    · exact .inr hstuck
  · obtain ⟨t', ht', -⟩ | hstuck := (hrest none fun _ => hstuck).result hcounts
    · cases ht'
    · exact .inr hstuck

theorem Follows.pure {out : α → α} {a a' : α} (hs : s.Whole) (h : c.Tracks l s s'?) (ha : a' = out a) :
    c.Follows l out (Pure.pure a) (Pure.pure a') s s'? := by
  refine ⟨.refl hs, fun hcounts => ?_⟩
  cases s'? with
  | none => exact .inr (h hcounts)
  | some s' => exact .inl ⟨s', rfl, ha, h hcounts⟩

theorem Follows.loosen {out : α → α} {m m' : Reader α} (h : c.Follows l out m m' s s'?) (hl : l → k) :
    c.Follows k out m m' s s'? :=
  ⟨h.goes, fun hcounts => (h.result hcounts).imp_right (·.imp_right hl)⟩

/-- A reader that only looks. What its companion sees is told by a property. -/
theorem Follows.sees {out : β → β} {m m' : Reader α} {a : α} {P : α → Prop} {f f' : α → Reader β}
    (hm : m State.recover s = (a, s)) (hP : ∃ a', P a') (h : c.Tracks l₀ s s'?) (hl : l₀ → k)
    (hm' : ∀ s', c.Counts s → c.Beside s s' →
      (∃ a', P a' ∧ m' State.recover s' = (a', s')) ∨ c.Stuck s ∧ k)
    (hf : ∀ a' s'?, P a' → c.Tracks k s s'? → c.Follows l out (f a) (f' a') s s'?) :
    c.Follows l out (m >>= f) (m' >>= f') s s'? := by
  obtain ⟨a₀, hP⟩ := hP
  have hsame : (m >>= f) State.recover s = f a State.recover s := by
    change f (m State.recover s).1 State.recover (m State.recover s).2 = _
    rw [hm]
  have hgoes : s.Goes (f a State.recover s).2 := by
    obtain ⟨t'?, ht⟩ : ∃ t'?, c.Tracks k s t'? := ⟨s'?, h.loosen hl⟩
    exact (hf a₀ t'? hP ht).goes
  refine ⟨by rwa [hsame], fun hcounts => ?_⟩
  rw [hsame] at hcounts ⊢
  have hs := c.counts_of_goes hgoes hcounts
  have hnone : c.Stuck s ∧ k → c.Stuck (f a State.recover s).2 ∧ l := fun hstuck => by
    obtain ⟨s', hs', -⟩ | hstuck := (hf a₀ none hP fun _ => hstuck).result hcounts
    · cases hs'
    · exact hstuck
  cases s'? with
  | none => exact .inr (hnone ((h hs).imp_right hl))
  | some s' =>
    obtain ⟨a', hP', hm'⟩ | hstuck := hm' s' hs (h hs)
    · have hsame' : (m' >>= f') State.recover s' = f' a' State.recover s' := by
        change f' (m' State.recover s').1 State.recover (m' State.recover s').2 = _
        rw [hm']
      obtain ⟨t', ht', hresult⟩ | hstuck := (hf a' (some s') hP' h).result hcounts
      · obtain rfl := Option.some.inj ht'
        exact .inl ⟨s', rfl, by rw [hsame']; exact hresult⟩
      · exact .inr hstuck
    · exact .inr (hnone hstuck)

theorem Follows.look {out : β → β} {m m' : Reader α} {a a' : α} {f f' : α → Reader β}
    (hm : m State.recover s = (a, s)) (h : c.Tracks l₀ s s'?) (hl : l₀ → k)
    (hm' : ∀ s', c.Counts s → c.Beside s s' → m' State.recover s' = (a', s') ∨ c.Stuck s ∧ k)
    (hf : ∀ s'?, c.Tracks k s s'? → c.Follows l out (f a) (f' a') s s'?) :
    c.Follows l out (m >>= f) (m' >>= f') s s'? :=
  .sees (P := (· = a')) hm ⟨a', rfl⟩ h hl
    (fun s' hs hbeside => (hm' s' hs hbeside).imp_left fun hsame => ⟨a', rfl, hsame⟩)
    fun _ s'? ha h => ha ▸ hf s'? h

section

variable {out : β → β}

/-- A reader that looks at the current token. -/
theorem follows_looking {m : Reader α} {g : Token → α} {f f' : α → Reader β}
    (hm : ∀ s, m State.recover s = (g s.current, s)) (h : c.Tracks l₀ s s'?)
    (hf : ∀ s'?, c.Tracks True s s'? →
      c.Follows l out (f (g s.current)) (f' (g (s.current.moved c.move))) s s'?) :
    c.Follows l out (m >>= f) (m >>= f') s s'? := by
  refine .look (hm s) h (fun _ => trivial) (fun s' hs hbeside => ?_) hf
  refine (c.current hs hbeside).imp (fun hcurrent => ?_) fun hstuck => ⟨hstuck.1, trivial⟩
  rw [hm, hcurrent]

theorem follows_kind {f f' : Token.Kind → Reader β} (h : c.Tracks l₀ s s'?)
    (hf : ∀ s'?, c.Tracks True s s'? →
      c.Follows l out (f s.current.kind) (f' s.current.kind) s s'?) :
    c.Follows l out (kind >>= f) (kind >>= f') s s'? :=
  follows_looking (g := Token.kind) (fun _ => rfl) h hf

theorem follows_at {k : Token.Kind} {f f' : Bool → Reader β} (h : c.Tracks l₀ s s'?)
    (hf : ∀ s'?, c.Tracks True s s'? → c.Follows l out (f (decide (s.current.kind = k)))
      (f' (decide (s.current.kind = k))) s s'?) :
    c.Follows l out (at? k >>= f) (at? k >>= f') s s'? :=
  follows_looking (g := fun t => decide (t.kind = k)) (fun _ => rfl) h hf

theorem follows_position {f f' : Position → Reader β} (h : c.Tracks l₀ s s'?)
    (hf : ∀ s'?, c.Tracks True s s'? → c.Follows l out (f s.current.span.start)
      (f' (c.move.start s.current.span.start)) s s'?) :
    c.Follows l out (position >>= f) (position >>= f') s s'? :=
  follows_looking (g := fun t => t.span.start) (fun _ => rfl) h hf

theorem follows_literal {f f' : String → Reader β} (h : c.Tracks l₀ s s'?)
    (hf : ∀ s'?, c.Tracks True s s'? →
      c.Follows l out (f s.current.literal) (f' s.current.literal) s s'?) :
    c.Follows l out (literal >>= f) (literal >>= f') s s'? :=
  follows_looking (g := Token.literal) (fun _ => rfl) h hf

/-- The whole state, for a reader that makes use of nothing but its current token. -/
theorem follows_get {f f' : State → Reader β} (h : c.Tracks l₀ s s'?)
    (hf : ∀ s'?, c.Tracks True s s'? → ∀ s₁ : State, s₁.current = s.current.moved c.move →
      c.Follows l out (f s) (f' s₁) s s'?) :
    c.Follows l out ((get : Reader State) >>= f) ((get : Reader State) >>= f') s s'? := by
  refine .sees (P := fun s₁ => s₁.current = s.current.moved c.move) rfl
    ⟨{ s with current := s.current.moved c.move }, rfl⟩ h (fun _ => trivial)
    (fun s' hs hbeside => ?_) fun s₁ s'? hcurrent h => hf s'? h s₁ hcurrent
  exact (c.current hs hbeside).imp (fun hcurrent => ⟨s', hcurrent, rfl⟩)
    fun hstuck => ⟨hstuck.1, trivial⟩

/-- Only an `else` of the companion can part the two where a conditional statement may go on. -/
theorem follows_at_else {f f' : Bool → Reader β} (h : c.Tracks c.elseAhead s s'?)
    (hf : ∀ s'?, c.Tracks c.elseAhead s s'? → c.Follows l out
      (f (decide (s.current.kind = .elseWord))) (f' (decide (s.current.kind = .elseWord))) s s'?) :
    c.Follows l out (at? .elseWord >>= f) (at? .elseWord >>= f') s s'? := by
  refine .look rfl h id (fun s' hs hbeside => ?_) hf
  change (decide (s'.current.kind = .elseWord), s') = _ ∨ _
  obtain hcurrent | ⟨hstuck, hend, helse⟩ := c.current hs hbeside
  · rw [hcurrent]
    exact .inl rfl
  · by_cases hkind : s'.current.kind = .elseWord
    · exact .inr ⟨hstuck, helse hkind⟩
    · rw [hend, decide_eq_false hkind]
      exact .inl rfl

theorem follows_ahead {k : Token.Kind} {f f' : Bool → Reader β} (h : c.Tracks True s s'?)
    (hend : s.current.kind ≠ .endOfInput) (hsemicolon : s.current.kind ≠ .semicolon)
    (hbrace : s.current.kind ≠ .rightBrace)
    (hf : ∀ s'?, c.Tracks True s s'? → c.Follows l out (f (decide (s.ahead.kind = k)))
      (f' (decide (s.ahead.kind = k))) s s'?) :
    c.Follows l out (ahead? k >>= f) (ahead? k >>= f') s s'? := by
  refine .look rfl h id (fun s' hs hbeside => ?_) hf
  refine (c.ahead hs hbeside hend hsemicolon hbrace).imp (fun hahead => ?_) fun h => ⟨h, trivial⟩
  change (decide (s'.ahead.kind = k), s') = (decide (s.ahead.kind = k), s')
  rw [hahead]
  rfl

theorem follows_spanFrom {start : Position} {f f' : Span → Reader β} (h : c.Tracks l₀ s s'?)
    (hf : ∀ s'?, c.Tracks l₀ s s'? → c.Follows l out (f ⟨start, s.lastEnd⟩)
      (f' (Span.moved c.move ⟨start, s.lastEnd⟩)) s s'?) :
    c.Follows l out (spanFrom start >>= f) (spanFrom (c.move.start start) >>= f') s s'? := by
  refine .look rfl h id (fun s' hs hbeside => .inl ?_) hf
  change (Span.mk (c.move.start start) s'.lastEnd, s') = _
  rw [c.lastEnd hs hbeside]
  rfl

theorem Tracks.step (hs : s.Whole) (hend : s.current.kind ≠ .endOfInput) (h : c.Tracks l s s'?) :
    c.Tracks l s.step (s'?.map State.step) := by
  have hgoes := (State.goes_step hs hend).1
  cases s'? with
  | none => exact fun hcounts => (h (c.counts_of_goes hgoes hcounts)).imp_left (c.stuck_of_goes hgoes)
  | some s' => exact fun hcounts => c.beside_step hs hend hcounts (h (c.counts_of_goes hgoes hcounts))

theorem Follows.advance {f f' : Unit → Reader β} (hs : s.Whole) (hend : s.current.kind ≠ .endOfInput)
    (h : c.Tracks l₀ s s'?)
    (hf : s.step.Whole → s.step.left + 1 = s.left → ∀ s'?, c.Tracks l₀ s.step s'? →
      c.Follows l out (f ()) (f' ()) s.step s'?) :
    c.Follows l out (Reader.advance >>= f) (Reader.advance >>= f') s s'? := by
  have hgoes := (State.goes_step hs hend).1
  have hrest := hf hgoes.whole (State.left_step hs hend) _ (h.step hs hend)
  refine ⟨hgoes.trans hrest.goes, fun hcounts => ?_⟩
  obtain ⟨t', ht', hresult⟩ | hstuck := hrest.result hcounts
  · obtain ⟨s', rfl, rfl⟩ := Option.map_eq_some_iff.mp ht'
    exact .inl ⟨s', rfl, hresult⟩
  · exact .inr hstuck

end

/-- A mistake recorded where the run is stuck is one that the companion need not share. -/
theorem follows_reportAt (hs : s.Whole) (h : c.Tracks l₀ s s'?) (span : Span) (fault : Fault) :
    c.Follows l id (reportAt span fault) (reportAt (span.moved c.move) (fault.moved c.move)) s s'? := by
  have hgoes : s.Goes (s.reported ⟨span, fault⟩) := State.goes_report hs _
  refine ⟨hgoes, fun hcounts => ?_⟩
  have hcounts' := c.counts_of_goes hgoes hcounts
  cases s'? with
  | none =>
    have hne : (s.reported ⟨span, fault⟩).errors ≠ #[] := by simp [State.reported]
    exact absurd hcounts (c.mistaken (c.stuck_of_goes hgoes (h hcounts').1) hne)
  | some s' => exact .inl ⟨s', rfl, rfl, c.beside_reported _ hcounts (h hcounts')⟩

theorem follows_report (hs : s.Whole) (h : c.Tracks l₀ s s'?) (fault : Fault) :
    c.Follows l id (report fault) (report (fault.moved c.move)) s s'? := by
  refine follows_get h fun s'? h s₁ hcurrent => ?_
  rw [hcurrent]
  exact follows_reportAt hs h _ _

theorem follows_reportExpected (hs : s.Whole) (h : c.Tracks l₀ s s'?) (what : Expectation) :
    c.Follows l id (reportExpected what) (reportExpected what) s s'? := by
  refine follows_get h fun s'? h s₁ hcurrent => ?_
  rw [hcurrent]
  exact follows_report hs h (.expected what s.current)

/-- Where the run is not stuck behind it, a closing token was there for both. -/
theorem follows_expect {k : Token.Kind} (hk : k ≠ .endOfInput) (hs : s.Whole) (h : c.Tracks l₀ s s'?) :
    c.Follows (k ≠ .semicolon ∧ k ≠ .rightBrace) id (expect k) (expect k) s s'? := by
  refine follows_at h fun s'? h => ?_
  split
  · next hkind =>
    rw [decide_eq_true_eq] at hkind
    have hclosed : c.Tracks (k ≠ .semicolon ∧ k ≠ .rightBrace) s s'? := by
      cases s'? with
      | none => exact fun hcounts => ⟨(h hcounts).1, hkind ▸ c.not_stuck (h hcounts).1⟩
      | some s' => exact h
    exact .advance hs (hkind ▸ hk) hclosed fun hstep _ _ h => .pure hstep h rfl
  · refine (follows_reportExpected hs h _).bind (k := False) fun _ t t'? _ ht _ h => .pure ht ?_ rfl
    exact h.loosen False.elim

theorem follows_recover (hs : s.Whole) (herrors : s.errors ≠ #[]) (h : c.Tracks l₀ s s'?) :
    c.Follows l id recover recover s s'? := by
  have hgoes := State.goes_recover hs
  refine ⟨hgoes, fun hcounts => ?_⟩
  have hcounts' : c.Counts s := c.counts_of_goes hgoes hcounts
  cases s'? with
  | none => exact absurd hcounts' (c.mistaken (h hcounts').1 herrors)
  | some s' => exact .inl ⟨s', rfl, rfl, c.beside_recover hs herrors hcounts (h hcounts')⟩

/-- A reader that gives up if the one before it does. -/
theorem Follows.optional {out₁ : α → α} {out : β → β} {m m' : Reader (Option α)}
    {f f' : Option α → Reader (Option β)} (hm : c.Follows l (Option.map out₁) m m' s s'?)
    (hnone : f none = Pure.pure none) (hnone' : f' none = Pure.pure none)
    (hf : ∀ a t t'?, m State.recover s = (some a, t) → t.Whole → s.Goes t → c.Tracks l t t'? →
      c.Follows l (Option.map out) (f (some a)) (f' (some (out₁ a))) t t'?) :
    c.Follows l (Option.map out) (m >>= f) (m' >>= f') s s'? := by
  refine hm.bind fun o t t'? hrun ht hgoes h => ?_
  cases o with
  | none =>
    rw [Option.map_none, hnone, hnone']
    exact .pure ht h rfl
  | some a => exact hf a t t'? hrun ht hgoes h

theorem Follows.congr {out : α → α} {m m' n n' : Reader α} (hn : c.Follows l out n n' s s'?)
    (hm : m State.recover s = n State.recover s)
    (hm' : ∀ s', s'? = some s' → c.Counts s → m' State.recover s' = n' State.recover s') :
    c.Follows l out m m' s s'? := by
  refine ⟨by rw [hm]; exact hn.goes, fun hcounts => ?_⟩
  rw [hm] at hcounts ⊢
  refine (hn.result hcounts).imp_left fun ⟨s', hs', hresult⟩ => ⟨s', hs', ?_⟩
  rwa [hm' s' hs' (c.counts_of_goes hn.goes hcounts)]

end Companion
end Parsed
end TypedScript
