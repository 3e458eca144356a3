import Mathlib.Data.List.Nodup
import Mathlib.Logic.Relation
import TypedScript.Proofs.Execution.Flow

/-!
# The places of a flat body that control comes to

A place of a body is given by the statements that are left from there on. Where control can go from a
place is over-approximated without regard to values, except that a jump on the literal false is never
taken. A statement that flow analysis says cannot complete has a flat form that control does not leave
at its end; so it never comes to the return that is put behind such a body.
-/

namespace TypedScript
namespace Flat

open Execution Lowering

/-- Control goes from one place of a body to the next, with the state that the statement leaves. -/
inductive Goes (x : Environment) (body : List Stmt) : List Stmt × State → List Stmt × State → Prop
  | next {s : Stmt} {rest : List Stmt} {σ σ' : State} : s.flow x σ = .ok .next σ' →
    Goes x body (s :: rest, σ) (rest, σ')
  | ahead {s : Stmt} {rest rest' : List Stmt} {l : Label} {σ σ' : State} :
    s.flow x σ = .ok (.jump l) σ' → after l rest = some rest' →
      Goes x body (s :: rest, σ) (rest', σ')
  | back {s : Stmt} {rest rest' : List Stmt} {l : Label} {σ σ' : State} :
    s.flow x σ = .ok (.jump l) σ' → after l rest = none → after l body = some rest' →
      Goes x body (s :: rest, σ) (rest', σ')

/-- Control comes from one place of a body to another. -/
abbrev Comes (x : Environment) (body : List Stmt) : List Stmt × State → List Stmt × State → Prop :=
  Relation.ReflTransGen (Goes x body)

/-- A body returns from a place that control comes to. -/
theorem exists_comes {x : Environment} {body ss : List Stmt} {n : Nat} {σ σ' : State} {v : Value}
    (h : exec x body n ss σ = .ok v σ') :
    ∃ s rest τ, Comes x body (ss, σ) (s :: rest, τ) ∧ s.flow x τ = .ok (.done v) σ' := by
  obtain ⟨m, hm⟩ : ∃ m, m = (n, ss.length) := ⟨_, rfl⟩
  induction m using (Prod.instWellFoundedRelation (α := Nat) (β := Nat)).wf.induction
    generalizing n ss σ with
  | _ m ih =>
    subst hm
    cases ss with
    | nil =>
      rw [exec] at h
      cases h
    | cons s rest =>
      rw [exec_cons] at h
      cases hflow : s.flow x σ with
      | error stop σ₁ =>
        rw [bind_error hflow] at h
        cases h
      | ok flow σ₁ =>
        rw [bind_ok hflow] at h
        have hstep : ∀ {m rest'}, Goes x body (s :: rest, σ) (rest', σ₁) →
            exec x body m rest' σ₁ = .ok v σ' → Prod.Lex (· < ·) (· < ·) (m, rest'.length)
              (n, (s :: rest).length) →
            ∃ s' rest'' τ, Comes x body (s :: rest, σ) (s' :: rest'', τ) ∧
              s'.flow x τ = .ok (.done v) σ' := by
          intro m rest' hgoes hrun hlt
          obtain ⟨s', rest'', τ, hcomes, hdone⟩ := ih _ hlt hrun rfl
          exact ⟨s', rest'', τ, .head hgoes hcomes, hdone⟩
        cases flow with
        | next => exact hstep (.next hflow) h (Prod.Lex.right _ (by simp))
        | done w =>
          cases h
          exact ⟨s, rest, σ, .refl, hflow⟩
        | jump l =>
          simp only [jumpTo] at h
          cases hahead : after l rest with
          | some rest' =>
            simp only [hahead] at h
            have hlt := length_after hahead
            exact hstep (.ahead hflow hahead) h (Prod.Lex.right _ (by simp; omega))
          | none =>
            simp only [hahead] at h
            cases hback : after l body with
            | none =>
              simp only [hback] at h
              cases h
            | some rest' =>
              simp only [hback] at h
              cases n with
              | zero => cases h
              | succ n => exact hstep (.back hflow hahead hback) h (Prod.Lex.left _ _ (by simp))

/-- Whether an expression is the literal `false`. -/
def Expr.isFalse : Expr → Bool
  | .literal (some (.bool false)) _ => true
  | _ => false

def Stmt.passes : Stmt → Bool
  | .jump _ | .returnStmt _ => false
  | _ => true

/-- Where control may go from a place, whatever the values are. It comes to a label before it goes on
behind it. -/
inductive Leads (body : List Stmt) : List Stmt → List Stmt → Prop
  | next {s : Stmt} {rest : List Stmt} : s.passes → Leads body (s :: rest) rest
  | jump {l : Label} {rest rest' : List Stmt} : .label l :: rest' <:+ body →
    Leads body (.jump l :: rest) (.label l :: rest')
  | jumpIf {cond : Expr} {l : Label} {rest rest' : List Stmt} : cond.isFalse = false →
    .label l :: rest' <:+ body → Leads body (.jumpIf cond l :: rest) (.label l :: rest')

section

variable {x : Environment} {body : List Stmt}

/-- What is behind a label begins where the label stands. -/
theorem suffix_of_after {l : Label} {ss rest : List Stmt} (h : after l ss = some rest) :
    .label l :: rest <:+ ss := by
  induction ss using after.induct l with
  | case1 => cases h
  | case2 ss =>
    simp only [after] at h
    cases h
    exact List.suffix_refl _
  | case3 k ss hk ih =>
    simp only [after, if_neg hk] at h
    exact (ih h).trans (List.suffix_cons _ _)
  | case4 s ss hs ih =>
    rw [after] at h
    · exact (ih h).trans (List.suffix_cons _ _)
    · exact hs

/-- A label has one place in a body that defines it once. -/
theorem after_of_suffix {l : Label} {rest : List Stmt} (hnodup : (labelsOf body).Nodup)
    (h : .label l :: rest <:+ body) : after l body = some rest := by
  obtain ⟨pre, rfl⟩ := h
  have hnot : l ∉ labelsOf pre := by
    simp only [labelsOf_append, labelsOf_label] at hnodup
    exact fun hmem => List.disjoint_of_nodup_append hnodup hmem List.mem_cons_self
  rw [after_append hnot, after_label]

theorem label_unique {l : Label} {rest rest' : List Stmt} (hnodup : (labelsOf body).Nodup)
    (h : .label l :: rest <:+ body) (h' : .label l :: rest' <:+ body) : rest = rest' :=
  Option.some.inj ((after_of_suffix hnodup h).symm.trans (after_of_suffix hnodup h'))

theorem passes_of_flow {s : Stmt} {σ σ' : State} (h : s.flow x σ = .ok .next σ') : s.passes := by
  cases s with
  | jump l => cases h
  | returnStmt value =>
    cases value with
    | none => cases h
    | some e =>
      obtain ⟨v, σ₁, -, hdone⟩ := exists_of_bind_ok h
      cases hdone
  | declare | eval | jumpIf | label => rfl

/-- The literal does not hold as a condition. -/
theorem flow_isFalse {cond : Expr} (h : cond.isFalse) (l : Label) (σ : State) :
    (Stmt.jumpIf cond l).flow x σ = .ok .next σ := by
  unfold Expr.isFalse at h
  split at h
  · simp only [Stmt.flow, eval]
    rfl
  · cases h

/-- A statement that jumps is a jump, and not one on the literal false. -/
theorem eq_jump_of_flow {s : Stmt} {l : Label} {σ σ' : State} (h : s.flow x σ = .ok (.jump l) σ') :
    s = .jump l ∨ ∃ cond, s = .jumpIf cond l ∧ cond.isFalse = false := by
  cases s with
  | declare | label => cases h
  | jump k =>
    cases h
    exact .inl rfl
  | eval e =>
    obtain ⟨v, σ₁, -, hnext⟩ := exists_of_bind_ok h
    cases hnext
  | returnStmt value =>
    cases value with
    | none => cases h
    | some e =>
      obtain ⟨v, σ₁, -, hdone⟩ := exists_of_bind_ok h
      cases hdone
  | jumpIf cond k =>
    have hcond : cond.isFalse = false := by
      by_contra hfalse
      rw [flow_isFalse (by simpa using hfalse)] at h
      cases h
    obtain ⟨v, σ₁, -, htest⟩ := exists_of_bind_ok h
    obtain ⟨b, σ₂, -, hgo⟩ := exists_of_bind_ok htest
    cases b with
    | false => cases hgo
    | true =>
      cases hgo
      exact .inr ⟨cond, rfl, hcond⟩

/-- Control goes only where the form of the statements lets it go. -/
theorem Goes.leads {ss ss' : List Stmt} {σ σ' : State} (hss : ss <:+ body)
    (h : Goes x body (ss, σ) (ss', σ')) :
    Relation.ReflTransGen (Leads body) ss ss' ∧ ss' <:+ body := by
  have hjump : ∀ {s : Stmt} {rest : List Stmt} {l rest'}, s.flow x σ = .ok (.jump l) σ' →
      .label l :: rest' <:+ body →
      Relation.ReflTransGen (Leads body) (s :: rest) rest' ∧ rest' <:+ body := by
    intro s rest l rest' hflow hsuffix
    have hlabel : Leads body (.label l :: rest') rest' := .next rfl
    refine ⟨.head ?_ (.single hlabel), (List.suffix_cons _ _).trans hsuffix⟩
    obtain rfl | ⟨cond, rfl, hcond⟩ := eq_jump_of_flow hflow
    · exact .jump hsuffix
    · exact .jumpIf hcond hsuffix
  cases h with
  | next hflow =>
    exact ⟨.single (.next (passes_of_flow hflow)), (List.suffix_cons _ _).trans hss⟩
  | ahead hflow hafter =>
    exact hjump hflow (((suffix_of_after hafter).trans (List.suffix_cons _ _)).trans hss)
  | back hflow _ hafter => exact hjump hflow (suffix_of_after hafter)

theorem Comes.leads {p q : List Stmt × State} (hp : p.1 <:+ body) (h : Comes x body p q) :
    Relation.ReflTransGen (Leads body) p.1 q.1 ∧ q.1 <:+ body := by
  induction h with
  | refl => exact ⟨.refl, hp⟩
  | tail _ hgoes ih =>
    obtain ⟨hleads, hsuffix⟩ := hgoes.leads ih.2
    exact ⟨ih.1.trans hleads, hsuffix⟩

end

/-- From a place control comes, before it comes to an exit, only to places where more than `n`
statements are left. -/
def Stays (body : List Stmt) (n : Nat) (exits : List Stmt → Prop) (p : List Stmt) : Prop :=
  exits p ∨ ∃ inside : List Stmt → Prop, inside p ∧
    ∀ q, inside q → n < q.length ∧ ∀ q', Leads body q q' → exits q' ∨ inside q'

namespace Stays

variable {body : List Stmt} {n : Nat} {exits mid : List Stmt → Prop} {p : List Stmt}

theorem imp (h : Stays body n mid p) (hmid : ∀ q, mid q → exits q) : Stays body n exits p := by
  obtain hexit | ⟨inside, hp, hinside⟩ := h
  · exact .inl (hmid p hexit)
  · refine .inr ⟨inside, hp, fun q hq => ⟨(hinside q hq).1, fun q' hq' => ?_⟩⟩
    exact ((hinside q hq).2 q' hq').imp_left (hmid q')

/-- To show where control stays, it is enough to go from each place of a set on until it is back in
the set. -/
theorem coinduct (inside : List Stmt → Prop) (hp : inside p)
    (h : ∀ q, inside q → n < q.length ∧
      ∀ q', Leads body q q' → Stays body n (fun q => exits q ∨ inside q) q') :
    Stays body n exits p := by
  have hinside : ∀ {q}, Stays body n (fun q => exits q ∨ inside q) q → exits q ∨ inside q ∨
      ∃ inner : List Stmt → Prop, inner q ∧ ∀ q, inner q → n < q.length ∧
        ∀ q', Leads body q q' → (exits q' ∨ inside q') ∨ inner q' := by
    rintro q ((hexit | hmem) | hinner)
    · exact .inl hexit
    · exact .inr (.inl hmem)
    · exact .inr (.inr hinner)
  refine .inr ⟨fun q => inside q ∨ ∃ inner : List Stmt → Prop, inner q ∧ ∀ q, inner q → n < q.length ∧
    ∀ q', Leads body q q' → (exits q' ∨ inside q') ∨ inner q', .inl hp, ?_⟩
  rintro q (hq | ⟨inner, hq, hinner⟩)
  · exact ⟨(h q hq).1, fun q' hq' => hinside ((h q hq).2 q' hq')⟩
  · refine ⟨(hinner q hq).1, fun q' hq' => hinside ?_⟩
    exact ((hinner q hq).2 q' hq').imp_right fun hmem => ⟨inner, hmem, hinner⟩

/-- Behind a part of which the exits are known. -/
theorem bind (h : Stays body n mid p) (hmid : ∀ q, mid q → Stays body n exits q) :
    Stays body n exits p := by
  obtain hexit | ⟨inside, hp, hinside⟩ := h
  · exact hmid p hexit
  · refine coinduct inside hp fun q hq => ⟨(hinside q hq).1, fun q' hq' => ?_⟩
    obtain hexit | hmem := (hinside q hq).2 q' hq'
    · exact (hmid q' hexit).imp fun _ => .inl
    · exact .inl (.inr hmem)

/-- A place to which control may come back. -/
theorem again (hp : n < p.length)
    (h : ∀ q, Leads body p q → Stays body n (fun q => exits q ∨ q = p) q) :
    Stays body n exits p := by
  refine coinduct (· = p) rfl ?_
  rintro q rfl
  exact ⟨hp, h⟩

theorem step (hp : n < p.length) (h : ∀ q, Leads body p q → Stays body n exits q) :
    Stays body n exits p :=
  again hp fun q hq => (h q hq).imp fun _ hexit => .inl hexit

/-- A label is passed. -/
theorem label {l : Label} {rest : List Stmt} (hn : n ≤ rest.length) (h : Stays body n exits rest) :
    Stays body n exits (.label l :: rest) := by
  refine step (by simp; omega) fun q hq => ?_
  cases hq
  exact h

theorem not_comes (h : Stays body n (fun _ => False) p) {q : List Stmt}
    (hq : Relation.ReflTransGen (Leads body) p q) : n < q.length := by
  obtain hexit | ⟨inside, hp, hinside⟩ := h
  · exact hexit.elim
  · have hmem : inside q := by
      induction hq with
      | refl => exact hp
      | tail _ hleads ih => exact ((hinside _ ih).2 _ hleads).resolve_left id
    exact (hinside q hmem).1

end Stays

/-- Where control leaves a flat statement: at its end, if the statement can complete, or for a label of
the loop around it. -/
inductive Leaves (body : List Stmt) (loop? : Option LoopLabels) (completes breaks : Bool)
    (post : List Stmt) : List Stmt → Prop
  | done : completes → Leaves body loop? completes breaks post post
  | breakLoop {l : LoopLabels} {rest : List Stmt} : breaks → loop? = some l →
    .label l.breakTo :: rest <:+ body →
      Leaves body loop? completes breaks post (.label l.breakTo :: rest)
  | continueLoop {l : LoopLabels} {rest : List Stmt} : loop? = some l →
    .label l.continueTo :: rest <:+ body →
      Leaves body loop? completes breaks post (.label l.continueTo :: rest)

section

variable {r : Registry} {body post : List Stmt} {n : Nat}

theorem exists_suffix_of_label {l : Label} {out : List Stmt} (h : l ∈ labelsOf out) :
    ∃ rest, .label l :: rest <:+ out := by
  induction out with
  | nil => simp at h
  | cons s out ih =>
    have hrest : l ∈ labelsOf out → ∃ rest, .label l :: rest <:+ s :: out := fun hmem =>
      (ih hmem).imp fun _ hsuffix => hsuffix.trans (List.suffix_cons _ _)
    cases s with
    | label k =>
      rw [labelsOf_label, List.mem_cons] at h
      obtain rfl | h := h
      · exact ⟨out, List.suffix_refl _⟩
      · exact hrest h
    | declare | eval | returnStmt | jump | jumpIf => exact hrest h

/-- Control leaves statements that jump only to their own labels at their end. -/
theorem stays_of_closed {out : List Stmt} (hnodup : (labelsOf body).Nodup)
    (hbody : out ++ post <:+ body) (hn : n ≤ post.length)
    (hclosed : ∀ l ∈ targetsOf out, l ∈ labelsOf out) : Stays body n (· = post) (out ++ post) := by
  by_cases hempty : out = []
  · exact .inl (by simp [hempty])
  · refine Stays.coinduct (fun q => ∃ b, b ≠ [] ∧ b <:+ out ∧ q = b ++ post)
      ⟨out, hempty, List.suffix_refl _, rfl⟩ ?_
    rintro _ ⟨b, hb, hsuffix, rfl⟩
    cases b with
    | nil => exact absurd rfl hb
    | cons s b =>
      have hmem : s ∈ out := hsuffix.subset List.mem_cons_self
      have hjump : ∀ {l rest}, s.target? = some l → .label l :: rest <:+ body →
          ∃ c, c ≠ [] ∧ c <:+ out ∧ .label l :: rest = c ++ post := by
        intro l rest htarget hrest
        obtain ⟨c, hc⟩ := exists_suffix_of_label
          (hclosed l (List.mem_filterMap.mpr ⟨s, hmem, htarget⟩))
        have hplace : .label l :: (c ++ post) <:+ body := by
          obtain ⟨pre, hpre⟩ := hc
          refine List.IsSuffix.trans ⟨pre, ?_⟩ hbody
          rw [← hpre]
          simp
        exact ⟨.label l :: c, by simp, hc, by rw [label_unique hnodup hrest hplace]; rfl⟩
      refine ⟨by simp; omega, fun q hq => .inl ?_⟩
      cases hq with
      | next _ =>
        by_cases hrest : b = []
        · exact .inl (by simp [hrest])
        · exact .inr ⟨b, hrest, (List.suffix_cons _ _).trans hsuffix, rfl⟩
      | jump hrest => exact .inr (hjump rfl hrest)
      | jumpIf _ hrest => exact .inr (hjump rfl hrest)

/-- Control leaves the flat form of a test at its end, or for the label to which it jumps when the
condition does not hold; it does not do so if the condition is the literal true. -/
theorem stays_test {e : Bound.Expr} {s s' : Supply} {v : Lowered} {done : Label}
    {exits : List Stmt → Prop} (h : Lowers r e s v s') (hnodup : (labelsOf body).Nodup)
    (hbody : v.before ++ (.jumpIf (negate v.expr) done :: post) <:+ body) (hn : n ≤ post.length)
    (hpost : Stays body n exits post)
    (hdone : e.isTrue = false → ∀ rest, .label done :: rest <:+ body →
      Stays body n exits (.label done :: rest)) :
    Stays body n exits (v.before ++ (.jumpIf (negate v.expr) done :: post)) := by
  have hbefore := stays_of_closed (n := n) hnodup hbody (by simp; omega)
    (by simpa using h.labelled.closed)
  refine hbefore.bind ?_
  rintro _ rfl
  refine Stays.step (by simp; omega) fun q hq => ?_
  cases hq with
  | next _ => exact hpost
  | jumpIf hcond hrest =>
    refine hdone ?_ _ hrest
    unfold Bound.Expr.isTrue
    split
    · cases h
      simp [negate, Expr.isFalse] at hcond
    · rfl

/-- Control leaves the flat form of an expression that is evaluated for its effect at its end. -/
theorem stays_eval {e : Bound.Expr} {s s' : Supply} {v : Lowered} (h : Lowers r e s v s')
    (hnodup : (labelsOf body).Nodup) (hbody : v.before ++ [Stmt.eval v.expr] ++ post <:+ body)
    (hn : n ≤ post.length) : Stays body n (· = post) (v.before ++ [Stmt.eval v.expr] ++ post) :=
  stays_of_closed hnodup hbody hn (by simpa using h.labelled.closed)

theorem LowersDeclaration.stays {d : Bound.Declaration} {s s' : Supply} {out : List Stmt}
    (h : LowersDeclaration r d s out s') (hnodup : (labelsOf body).Nodup)
    (hbody : out ++ post <:+ body) (hn : n ≤ post.length) :
    Stays body n (· = post) (out ++ post) :=
  stays_of_closed hnodup hbody hn (by simpa using h.labelled.closed)

theorem LowersTest.stays {done : Label} {cond : Option Bound.Expr} {s s' : Supply}
    {test : List Stmt} {exits : List Stmt → Prop} (h : LowersTest r done cond s test s')
    (hnodup : (labelsOf body).Nodup) (hbody : test ++ post <:+ body) (hn : n ≤ post.length)
    (hpost : Stays body n exits post)
    (hdone : cond.any (fun e => !e.isTrue) → ∀ rest, .label done :: rest <:+ body →
      Stays body n exits (.label done :: rest)) : Stays body n exits (test ++ post) := by
  cases h with
  | none => exact hpost
  | some hv =>
    rw [List.append_assoc] at hbody ⊢
    exact stays_test hv hnodup hbody hn hpost fun hcond => hdone (by simp [hcond])

/-- A loop is left at its end only if its test can fail or its body has a break. From behind its body
control comes back to its top. -/
theorem stays_loop {l : LoopLabels} {top : Label} {cond : Option Bound.Expr} {inner : Bound.Stmt}
    {s s' : Supply} {test out tail : List Stmt} {exits : List Stmt → Prop}
    (htest : LowersTest r l.breakTo cond s test s') (hnodup : (labelsOf body).Nodup)
    (hbody : .label top :: (test ++ (out ++ tail)) <:+ body) (hn : n ≤ tail.length)
    (hinner : Stays body n (Leaves body (some l) inner.canComplete inner.breaks tail) (out ++ tail))
    (htail : Stays body n (fun q => exits q ∨ q = .label top :: (test ++ (out ++ tail))) tail)
    (hcontinue : ∀ rest, .label l.continueTo :: rest <:+ body → Stays body n
      (fun q => exits q ∨ q = .label top :: (test ++ (out ++ tail))) (.label l.continueTo :: rest))
    (hdone : cond.any (fun e => !e.isTrue) || inner.breaks →
      ∀ rest, .label l.breakTo :: rest <:+ body → Stays body n exits (.label l.breakTo :: rest)) :
    Stays body n exits (.label top :: (test ++ (out ++ tail))) := by
  refine Stays.again (by simp; omega) fun q hq => ?_
  cases hq
  have hleft : cond.any (fun e => !e.isTrue) || inner.breaks → ∀ rest,
      .label l.breakTo :: rest <:+ body → Stays body n
        (fun q => exits q ∨ q = .label top :: (test ++ (out ++ tail))) (.label l.breakTo :: rest) :=
    fun h rest hrest => (hdone h rest hrest).imp fun _ => .inl
  refine htest.stays hnodup ((List.suffix_cons _ _).trans hbody) (by simp; omega) ?_
    fun hcond => hleft (by simp [hcond])
  refine hinner.bind fun q hq => ?_
  cases hq with
  | done _ => exact htail
  | breakLoop hb hl hq =>
    cases hl
    exact hleft (by simp [hb]) _ hq
  | continueLoop hl hq =>
    cases hl
    exact hcontinue _ hq

/-- A jump back to the top of a loop. -/
theorem stays_jump {l : Label} {rest place : List Stmt} {exits : List Stmt → Prop}
    (hnodup : (labelsOf body).Nodup) (hplace : .label l :: place <:+ body) (hn : n ≤ rest.length)
    (h : Stays body n exits (.label l :: place)) : Stays body n exits (.jump l :: rest) := by
  refine Stays.step (by simp; omega) fun q hq => ?_
  cases hq with
  | next hpasses => cases hpasses
  | jump hrest =>
    rw [label_unique hnodup hrest hplace]
    exact h

/-- Control leaves the flat form of statements at its end only if all of them can complete. -/
theorem LowersStmts.stays {loop? : Option LoopLabels} {stmts : List Bound.Stmt}
    (hstmts : ∀ stmt ∈ stmts, ∀ {s s' out post}, LowersStmt r loop? stmt s out s' →
      out ++ post <:+ body → n ≤ post.length →
      Stays body n (Leaves body loop? stmt.canComplete stmt.breaks post) (out ++ post))
    {s s' : Supply} {out : List Stmt} (h : LowersStmts r loop? stmts s out s')
    (hbody : out ++ post <:+ body) (hn : n ≤ post.length) :
    Stays body n (Leaves body loop? (Bound.allComplete stmts) (Bound.anyBreaks stmts) post)
      (out ++ post) := by
  induction stmts generalizing s out with
  | nil =>
    cases h
    exact .inl (.done rfl)
  | cons stmt rest ih =>
    rw [List.forall_mem_cons] at hstmts
    cases h with
    | @cons _ _ _ _ _ _ out₁ out₂ hfirst hrest =>
      rw [List.append_assoc] at hbody ⊢
      have hbehind : out₂ ++ post <:+ body := (List.suffix_append _ _).trans hbody
      refine (hstmts.1 hfirst hbody (by simp; omega)).bind fun q hq => ?_
      cases hq with
      | done hcompletes =>
        refine (ih hstmts.2 hrest hbehind).imp fun q hq => ?_
        cases hq with
        | done hc => exact .done (by simp [Bound.allComplete, hcompletes, hc])
        | breakLoop hb hl hq => exact .breakLoop (by simp [Bound.anyBreaks, hb]) hl hq
        | continueLoop hl hq => exact .continueLoop hl hq
      | breakLoop hb hl hq => exact .inl (.breakLoop (by simp [Bound.anyBreaks, hb]) hl hq)
      | continueLoop hl hq => exact .inl (.continueLoop hl hq)

/-- Control leaves the flat form of a statement at its end only if the statement can complete, and
for the label of a break only if it has one. -/
theorem LowersStmt.stays {loop? : Option LoopLabels} {stmt : Bound.Stmt} {s s' : Supply}
    {out : List Stmt} (h : LowersStmt r loop? stmt s out s') (hnodup : (labelsOf body).Nodup)
    (hbody : out ++ post <:+ body) (hn : n ≤ post.length) :
    Stays body n (Leaves body loop? stmt.canComplete stmt.breaks post) (out ++ post) := by
  induction stmt using Bound.Stmt.induction generalizing loop? s s' out post with
  | block span body ih =>
    cases h with
    | block hstmts =>
      simp only [Bound.Stmt.canComplete, Bound.Stmt.breaks]
      exact hstmts.stays (fun stmt hmem {_ _ _ _} h hbody hn => ih stmt hmem h hbody hn) hbody hn
  | declare d =>
    cases h with
    | declare hd =>
      refine (hd.stays hnodup hbody hn).imp ?_
      rintro _ rfl
      exact .done rfl
  | eval e =>
    cases h with
    | eval hv =>
      refine (stays_eval hv hnodup hbody hn).imp ?_
      rintro _ rfl
      exact .done rfl
  | ifThen span cond yes ih =>
    cases h with
    | @ifThen _ _ _ _ _ s₁ _ v out hv hyes =>
      simp only [List.append_assoc, List.cons_append, List.nil_append] at hbody ⊢
      have hyesBody : out ++ .label (s₁.labels + 1) :: post <:+ body :=
        (List.suffix_cons _ _).trans ((List.suffix_append _ _).trans hbody)
      have hend : .label (s₁.labels + 1) :: post <:+ body := (List.suffix_append _ _).trans hyesBody
      have hdone : Stays body n (Leaves body loop? true yes.breaks post)
          (.label (s₁.labels + 1) :: post) := .label hn (.inl (.done rfl))
      refine stays_test hv hnodup hbody (by simp; omega) ?_ fun _ rest hrest => ?_
      · refine (ih hyes hyesBody (by simp; omega)).bind fun q hq => ?_
        cases hq with
        | done _ => exact hdone
        | breakLoop hb hl hq => exact .inl (.breakLoop hb hl hq)
        | continueLoop hl hq => exact .inl (.continueLoop hl hq)
      · rw [label_unique hnodup hrest hend]
        exact hdone
  | ifElse span cond yes no ihyes ihno =>
    cases h with
    | @ifElse _ _ _ _ _ _ s₁ _ _ v out out' hv hyes hno =>
      simp only [List.append_assoc, List.cons_append, List.nil_append] at hbody ⊢
      have hyesBody : out ++ .jump (s₁.labels + 1) :: .label (s₁.labels + 2) ::
          (out' ++ .label (s₁.labels + 1) :: post) <:+ body :=
        (List.suffix_cons _ _).trans ((List.suffix_append _ _).trans hbody)
      have helse : .label (s₁.labels + 2) :: (out' ++ .label (s₁.labels + 1) :: post) <:+ body :=
        (List.suffix_cons _ _).trans ((List.suffix_append _ _).trans hyesBody)
      have hnoBody := (List.suffix_cons _ _).trans helse
      have hend : .label (s₁.labels + 1) :: post <:+ body := (List.suffix_append _ _).trans hnoBody
      have hdone : ∀ {completes}, completes = true → Stays body n
          (Leaves body loop? completes (yes.breaks || no.breaks) post)
          (.label (s₁.labels + 1) :: post) := fun hc => .label hn (.inl (.done hc))
      simp only [Bound.Stmt.canComplete, Bound.Stmt.breaks]
      refine stays_test hv hnodup hbody (by simp; omega) ?_ fun _ rest hrest => ?_
      · refine (ihyes hyes hyesBody (by simp; omega)).bind fun q hq => ?_
        cases hq with
        | done hc =>
          refine Stays.step (by simp; omega) fun q hq => ?_
          cases hq with
          | next hpasses => cases hpasses
          | jump hrest =>
            rw [label_unique hnodup hrest hend]
            exact hdone (by simp [hc])
        | breakLoop hb hl hq => exact .inl (.breakLoop (by simp [hb]) hl hq)
        | continueLoop hl hq => exact .inl (.continueLoop hl hq)
      · rw [label_unique hnodup hrest helse]
        refine .label (by simp; omega) ((ihno hno hnoBody (by simp; omega)).bind fun q hq => ?_)
        cases hq with
        | done hc => exact hdone (by simp [hc])
        | breakLoop hb hl hq => exact .inl (.breakLoop (by simp [hb]) hl hq)
        | continueLoop hl hq => exact .inl (.continueLoop hl hq)
  | whileLoop span cond inner ih =>
    cases h with
    | @whileLoop _ _ _ _ _ s₁ _ v out hv hinner =>
      simp only [List.append_assoc, List.cons_append, List.nil_append] at hbody ⊢
      have htest : LowersTest r (s.labels + 2) (some cond) (s.nextLabels 2)
          (v.before ++ [Stmt.jumpIf (negate v.expr) (s.labels + 2)]) s₁ := .some hv
      have hloop : .label (s.labels + 1) :: (v.before ++ [Stmt.jumpIf (negate v.expr) (s.labels + 2)] ++
          (out ++ .jump (s.labels + 1) :: .label (s.labels + 2) :: post)) <:+ body := by
        simpa using hbody
      have hinnerBody : out ++ .jump (s.labels + 1) :: .label (s.labels + 2) :: post <:+ body :=
        (List.suffix_append _ _).trans ((List.suffix_cons _ _).trans hloop)
      have hend : .label (s.labels + 2) :: post <:+ body :=
        (List.suffix_cons _ _).trans ((List.suffix_append _ _).trans hinnerBody)
      have hstays : Stays body n (Leaves body loop? (!cond.isTrue || inner.breaks) false post) _ :=
        stays_loop htest hnodup hloop (by simp; omega) (ih hinner hinnerBody (by simp; omega))
        (stays_jump hnodup hloop (by simp; omega) (.inl (.inr rfl)))
        (fun rest hrest => .inl (.inr (by rw [label_unique hnodup hrest hloop])))
        (fun hdone rest hrest => by
          rw [label_unique hnodup hrest hend]
          exact .label hn (.inl (.done (by simpa using hdone))))
      simpa [Bound.Stmt.canComplete, Bound.Stmt.breaks] using hstays
  | forLoop span setup cond last inner ih =>
    cases h with
    | @forLoop _ _ _ _ _ _ _ s₁ s₂ s₃ _ first test out after hsetup htest hinner hlast =>
      simp only [List.append_assoc, List.cons_append, List.nil_append] at hbody ⊢
      have hloop := (List.suffix_append _ _).trans hbody
      have hinnerBody := (List.suffix_append _ _).trans ((List.suffix_cons _ _).trans hloop)
      have hnext : .label (s₁.labels + 2) :: (after ++ .jump (s₁.labels + 1) ::
          .label (s₁.labels + 3) :: post) <:+ body := (List.suffix_append _ _).trans hinnerBody
      have hlastBody := (List.suffix_cons _ _).trans hnext
      have hend : .label (s₁.labels + 3) :: post <:+ body :=
        (List.suffix_cons _ _).trans ((List.suffix_append _ _).trans hlastBody)
      have hback : Stays body n
          (fun q => Leaves body loop? (cond.any (fun e => !e.isTrue) || inner.breaks) false post q ∨
            q = .label (s₁.labels + 1) :: (test ++ (out ++ .label (s₁.labels + 2) ::
              (after ++ .jump (s₁.labels + 1) :: .label (s₁.labels + 3) :: post)))) _ :=
        (stays_of_closed hnodup hlastBody (by simp; omega)
          (by simpa using hlast.labelled.closed)).bind (by
          rintro _ rfl
          exact stays_jump hnodup hloop (by simp; omega) (.inl (.inr rfl)))
      have hfirst := stays_of_closed (n := n) hnodup hbody (by simp; omega)
        (by simpa using hsetup.labelled.closed)
      have hcomplete : (Bound.Stmt.forLoop span setup cond last inner).canComplete =
          (cond.any (fun e => !e.isTrue) || inner.breaks) := by
        cases cond <;> simp [Bound.Stmt.canComplete]
      have hbreaks : (Bound.Stmt.forLoop span setup cond last inner).breaks = false := by
        simp [Bound.Stmt.breaks]
      rw [hcomplete, hbreaks]
      refine hfirst.bind ?_
      rintro _ rfl
      refine stays_loop htest hnodup hloop (by simp; omega) (ih hinner hinnerBody (by simp; omega))
        (.label (by simp; omega) hback) (fun rest hrest => ?_) fun hdone rest hrest => ?_
      · rw [label_unique hnodup hrest hnext]
        exact .label (by simp; omega) hback
      · rw [label_unique hnodup hrest hend]
        exact .label hn (.inl (.done hdone))
  | breakLoop span =>
    cases h
    refine Stays.step (by simp; omega) fun q hq => ?_
    cases hq with
    | next hpasses => cases hpasses
    | jump hrest => exact .inl (.breakLoop rfl rfl hrest)
  | continueLoop span =>
    cases h
    refine Stays.step (by simp; omega) fun q hq => ?_
    cases hq with
    | next hpasses => cases hpasses
    | jump hrest => exact .inl (.continueLoop rfl hrest)
  | returnStmt span value =>
    cases h with
    | returnNone =>
      refine Stays.step (by simp; omega) fun q hq => ?_
      cases hq with
      | next hpasses => cases hpasses
    | returnSome hv =>
      rw [List.append_assoc] at hbody ⊢
      have hbefore := stays_of_closed (n := n) hnodup hbody (by simp; omega)
        (by simpa using hv.labelled.closed)
      refine hbefore.bind ?_
      rintro _ rfl
      refine Stays.step (by simp; omega) fun q hq => ?_
      cases hq with
      | next hpasses => cases hpasses

/-- If the statements of a body cannot all complete, control never comes to what is put behind their
flat form. -/
theorem LowersStmts.not_comes {x : Environment} {stmts : List Bound.Stmt} {s s' : Supply}
    {out : List Stmt} {last : Stmt} (h : LowersStmts r none stmts s out s')
    (hcomplete : Bound.allComplete stmts = false) (hnodup : (labelsOf (out ++ [last])).Nodup)
    (σ σ' : State) : ¬Comes x (out ++ [last]) (out ++ [last], σ) ([last], σ') := by
  intro hcomes
  have hstays : Stays (out ++ [last]) 1 _ (out ++ [last]) :=
    h.stays (fun stmt _ {_ _ _ _} hstmt => hstmt.stays hnodup) (List.suffix_refl _) (by simp)
  have hnever : Stays (out ++ [last]) 1 (fun _ => False) (out ++ [last]) := by
    refine hstays.imp fun q hq => ?_
    cases hq with
    | done hc => simp [hcomplete] at hc
    | breakLoop _ hl _ => cases hl
    | continueLoop hl _ => cases hl
  have hleads := Comes.leads (List.suffix_refl (out ++ [last])) hcomes
  have hlength := hnever.not_comes hleads.1
  simp at hlength

end

end Flat
end TypedScript
