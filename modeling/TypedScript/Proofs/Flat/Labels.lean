import TypedScript.Proofs.Bound.Induction
import TypedScript.Proofs.Flat.Lowers

/-!
# The labels of flat programs

Which labels a list of statements defines and which it jumps to. Flattening takes each label from the
supply once, so that no label is defined twice, and every jump has a target: in the same statement, or
in a loop around it.
-/

namespace TypedScript
namespace Flat

def Stmt.label? : Stmt → Option Label
  | .label l => some l
  | _ => none

def Stmt.target? : Stmt → Option Label
  | .jump l | .jumpIf _ l => some l
  | _ => none

def labelsOf (ss : List Stmt) : List Label := ss.filterMap Stmt.label?

def targetsOf (ss : List Stmt) : List Label := ss.filterMap Stmt.target?

@[simp] theorem labelsOf_nil : labelsOf [] = [] := rfl

@[simp] theorem targetsOf_nil : targetsOf [] = [] := rfl

@[simp] theorem labelsOf_append (a b : List Stmt) : labelsOf (a ++ b) = labelsOf a ++ labelsOf b :=
  List.filterMap_append

@[simp] theorem targetsOf_append (a b : List Stmt) :
    targetsOf (a ++ b) = targetsOf a ++ targetsOf b :=
  List.filterMap_append

@[simp] theorem labelsOf_declare (s : Symbol) (ss : List Stmt) :
    labelsOf (.declare s :: ss) = labelsOf ss := rfl

@[simp] theorem labelsOf_eval (e : Expr) (ss : List Stmt) :
    labelsOf (.eval e :: ss) = labelsOf ss := rfl

@[simp] theorem labelsOf_return (v : Option Expr) (ss : List Stmt) :
    labelsOf (.returnStmt v :: ss) = labelsOf ss := rfl

@[simp] theorem labelsOf_jump (l : Label) (ss : List Stmt) :
    labelsOf (.jump l :: ss) = labelsOf ss := rfl

@[simp] theorem labelsOf_jumpIf (e : Expr) (l : Label) (ss : List Stmt) :
    labelsOf (.jumpIf e l :: ss) = labelsOf ss := rfl

@[simp] theorem labelsOf_label (l : Label) (ss : List Stmt) :
    labelsOf (.label l :: ss) = l :: labelsOf ss := rfl

@[simp] theorem targetsOf_declare (s : Symbol) (ss : List Stmt) :
    targetsOf (.declare s :: ss) = targetsOf ss := rfl

@[simp] theorem targetsOf_eval (e : Expr) (ss : List Stmt) :
    targetsOf (.eval e :: ss) = targetsOf ss := rfl

@[simp] theorem targetsOf_return (v : Option Expr) (ss : List Stmt) :
    targetsOf (.returnStmt v :: ss) = targetsOf ss := rfl

@[simp] theorem targetsOf_jump (l : Label) (ss : List Stmt) :
    targetsOf (.jump l :: ss) = l :: targetsOf ss := rfl

@[simp] theorem targetsOf_jumpIf (e : Expr) (l : Label) (ss : List Stmt) :
    targetsOf (.jumpIf e l :: ss) = l :: targetsOf ss := rfl

@[simp] theorem targetsOf_label (l : Label) (ss : List Stmt) :
    targetsOf (.label l :: ss) = targetsOf ss := rfl

/-- Statements whose labels were taken from the supply between two states of it, each of them once.
They jump to these labels and to those of a loop around them. -/
structure Labelled (lo hi : Nat) (outer : List Label) (ss : List Stmt) : Prop where
  le : lo ≤ hi
  range : ∀ l ∈ labelsOf ss, lo < l ∧ l ≤ hi
  nodup : (labelsOf ss).Nodup
  closed : ∀ l ∈ targetsOf ss, l ∈ labelsOf ss ∨ l ∈ outer

section

variable {lo mid hi : Nat} {outer : List Label} {a b : List Stmt}

theorem Labelled.nil (n : Nat) (outer : List Label) : Labelled n n outer [] :=
  ⟨Nat.le_refl n, by simp, by simp, by simp⟩

theorem Labelled.append (ha : Labelled lo mid outer a) (hb : Labelled mid hi outer b) :
    Labelled lo hi outer (a ++ b) := by
  obtain ⟨hle, hrange, hnodup, hclosed⟩ := ha
  obtain ⟨hle', hrange', hnodup', hclosed'⟩ := hb
  refine ⟨Nat.le_trans hle hle', ?_, ?_, ?_⟩ <;> simp only [labelsOf_append, targetsOf_append]
  · grind
  · rw [List.nodup_append]
    grind
  · grind

/-- Statements without labels and jumps change nothing. -/
theorem Labelled.insert (h : Labelled lo hi outer (a ++ b)) {c : List Stmt}
    (hc : labelsOf c = []) (hj : targetsOf c = []) : Labelled lo hi outer (a ++ c ++ b) := by
  obtain ⟨hle, hrange, hnodup, hclosed⟩ := h
  exact ⟨hle, by simpa [hc] using hrange, by simpa [hc] using hnodup,
    by simpa [hc, hj] using hclosed⟩

theorem Labelled.snoc (h : Labelled lo hi outer a) {c : List Stmt} (hc : labelsOf c = [])
    (hj : targetsOf c = []) : Labelled lo hi outer (a ++ c) := by
  have hinsert := Labelled.insert (by simpa using h : Labelled lo hi outer (a ++ [])) hc hj
  simpa using hinsert

theorem Labelled.within (h : Labelled lo hi [] a) (outer : List Label) : Labelled lo hi outer a :=
  ⟨h.le, h.range, h.nodup, fun l hl => .inl (by simpa using h.closed l hl)⟩

end

theorem Hoists.labels {es kept : List Expr} {s s' : Supply} {before : List Stmt}
    (h : Hoists es s before kept s') :
    s'.labels = s.labels ∧ labelsOf before = [] ∧ targetsOf before = [] := by
  induction h with
  | nil => simp
  | stable _ _ ih => exact ih
  | store _ _ ih => simpa [Lowering.store] using ih

theorem Spills.labels {e : Expr} {s s' : Supply} {out : Lowered} (h : Spills e s out s') :
    s'.labels = s.labels ∧ labelsOf out.before = [] ∧ targetsOf out.before = [] := by
  cases h with
  | symbol => simp
  | literal => simp
  | store => simp [Lowering.store]

theorem Joins.labelled {lo : Nat} {before before' : List Stmt} {done done' : List Expr}
    {next : Lowered} {s s₁ s' : Supply} (h : Joins before done next s₁ before' done' s')
    (hb : Labelled lo s.labels [] before) (hn : Labelled s.labels s₁.labels [] next.before) :
    Labelled lo s'.labels [] before' := by
  cases h with
  | plain hempty =>
    rw [hempty] at hn
    simpa using hb.append hn
  | keep _ hoists =>
    obtain ⟨hs, hlabels, htargets⟩ := hoists.labels
    rw [hs]
    exact (hb.append hn).insert hlabels htargets

section

variable {r : Registry}

/-- Operands whose labels come from the supply in order. -/
theorem LowersAll.labelled {es : List Bound.Expr}
    (hes : ∀ e ∈ es, ∀ {s s' out}, Lowers r e s out s' → Labelled s.labels s'.labels [] out.before)
    {before before' : List Stmt} {done done' : List Expr} {lo : Nat} {s s' : Supply}
    (h : LowersAll r before done es s before' done' s') (hb : Labelled lo s.labels [] before) :
    Labelled lo s'.labels [] before' := by
  induction es generalizing before done s with
  | nil =>
    cases h
    exact hb
  | cons e rest ih =>
    cases h with
    | cons he hjoin hrest =>
      have hnext := hes e List.mem_cons_self he
      exact ih (fun x hx => hes x (List.mem_cons_of_mem e hx)) hrest (hjoin.labelled hb hnext)

/-- The labels of a flat expression are those of the operators in it that skip an operand. -/
theorem Lowers.labelled {e : Bound.Expr} {s s' : Supply} {out : Lowered} (h : Lowers r e s out s') :
    Labelled s.labels s'.labels [] out.before := by
  induction e using Bound.Expr.induction generalizing s s' out with
  | literal | symbol | group | typeName | invalid =>
    cases h
    exact .nil _ _
  | assign span target value ihparts ihv =>
    cases h with
    | assign hv => simpa using ihv hv
    | assignElement hall =>
      obtain ⟨iha, ihi⟩ := ihparts _ _ _ _ rfl
      exact hall.labelled (by simpa using ⟨iha, ihi, ihv⟩) (.nil _ _)
  | compound span target operator value ihparts ihv =>
    cases h with
    | compound hv _ => simpa using ihv hv
    | compoundElement hall ha hi _ =>
      obtain ⟨iha, ihi⟩ := ihparts _ _ _ _ rfl
      obtain ⟨hs₂, hlabels, htargets⟩ := ha.labels
      obtain ⟨hs', hlabels', htargets'⟩ := hi.labels
      rw [hs', hs₂]
      have hb := hall.labelled (by simpa using ⟨iha, ihi, ihv⟩) (.nil _ _)
      exact (hb.snoc hlabels htargets).snoc hlabels' htargets'
  | binary span operator left right t ihl ihr =>
    cases h with
    | shortCircuit _ _ _ ha hb =>
      obtain ⟨hle, hrange, hnodup, hclosed⟩ := ihl ha
      obtain ⟨hle', hrange', hnodup', hclosed'⟩ := ihr hb
      simp only [Supply.labels_nextTemporary, Supply.labels_nextLabels] at hle hrange hle' hrange'
      refine ⟨by omega, ?_, ?_, ?_⟩
      · simp
        grind
      · simp [List.nodup_append]
        grind
      · simp
        grind
    | binary _ _ hall => exact hall.labelled (by simpa using ⟨ihl, ihr⟩) (.nil _ _)
  | unary span operator operand t ih =>
    cases h with
    | unary _ hv => simpa using ih hv
  | call span callable args t ih =>
    cases h with
    | call hall => exact hall.labelled ih (.nil _ _)
  | convert span kind operand t isExplicit ih =>
    cases h with
    | keep hv => exact ih hv
    | convert _ hv => simpa using ih hv
  | index span target index t iht ihi =>
    cases h with
    | index hall => exact hall.labelled (by simpa using ⟨iht, ihi⟩) (.nil _ _)
  | length span target ih =>
    cases h with
    | length hv => simpa using ih hv
  | newArray span element size t ih =>
    cases h with
    | newArray hv => simpa using ih hv

theorem LowersDeclaration.labelled {d : Bound.Declaration} {s s' : Supply} {out : List Stmt}
    (h : LowersDeclaration r d s out s') : Labelled s.labels s'.labels [] out := by
  cases h with
  | init _ hv =>
    obtain ⟨hle, hrange, hnodup, hclosed⟩ := hv.labelled
    exact ⟨hle, by simpa using hrange, by simpa using hnodup, by simpa using hclosed⟩
  | zero _ _ => exact ⟨Nat.le_refl _, by simp, by simp, by simp⟩
  | unset _ _ => exact ⟨Nat.le_refl _, by simp, by simp, by simp⟩

theorem LowersSetup.labelled {setup : Option Bound.Setup} {s s' : Supply} {out : List Stmt}
    (h : LowersSetup r setup s out s') : Labelled s.labels s'.labels [] out := by
  cases h with
  | none => exact .nil _ _
  | declare hd => exact hd.labelled
  | eval hv => exact hv.labelled.snoc rfl rfl

theorem LowersTest.labelled {cond : Option Bound.Expr} {done : Label} {s s' : Supply}
    {out : List Stmt} (h : LowersTest r done cond s out s') :
    Labelled s.labels s'.labels [done] out := by
  cases h with
  | none => exact .nil _ _
  | some hv =>
    obtain ⟨hle, hrange, hnodup, hclosed⟩ := hv.labelled
    refine ⟨hle, by simpa using hrange, by simpa using hnodup, ?_⟩
    simp
    grind

theorem LowersPost.labelled {post : Option Bound.Expr} {s s' : Supply} {out : List Stmt}
    (h : LowersPost r post s out s') : Labelled s.labels s'.labels [] out := by
  cases h with
  | none => exact .nil _ _
  | some hv => exact hv.labelled.snoc rfl rfl

def LoopLabels.toList (l : LoopLabels) : List Label := [l.continueTo, l.breakTo]

def outerLabels (loop? : Option LoopLabels) : List Label := loop?.elim [] LoopLabels.toList

theorem LowersStmts.labelled {loop? : Option LoopLabels} {stmts : List Bound.Stmt}
    (hstmts : ∀ stmt ∈ stmts, ∀ {s s' out}, LowersStmt r loop? stmt s out s' →
      Labelled s.labels s'.labels (outerLabels loop?) out)
    {s s' : Supply} {out : List Stmt} (h : LowersStmts r loop? stmts s out s') :
    Labelled s.labels s'.labels (outerLabels loop?) out := by
  induction stmts generalizing s out with
  | nil =>
    cases h
    exact .nil _ _
  | cons stmt rest ih =>
    cases h with
    | cons hfirst hrest =>
      have htail := ih (fun x hx => hstmts x (List.mem_cons_of_mem _ hx)) hrest
      exact (hstmts stmt List.mem_cons_self hfirst).append htail

/-- A flat statement defines its own labels and jumps to them or out of the loop around it. -/
theorem LowersStmt.labelled {loop? : Option LoopLabels} {stmt : Bound.Stmt} {s s' : Supply}
    {out : List Stmt} (h : LowersStmt r loop? stmt s out s') :
    Labelled s.labels s'.labels (outerLabels loop?) out := by
  induction stmt using Bound.Stmt.induction generalizing loop? s s' out with
  | block span body ih =>
    cases h with
    | block hbody => exact hbody.labelled fun stmt hmem => ih stmt hmem
  | declare d =>
    cases h with
    | declare hd => exact hd.labelled.within _
  | eval e =>
    cases h with
    | eval hv => exact (hv.labelled.snoc rfl rfl).within _
  | ifThen span cond yes ih =>
    cases h with
    | ifThen hv hyes =>
      obtain ⟨hle, hrange, hnodup, hclosed⟩ := hv.labelled
      obtain ⟨hle', hrange', hnodup', hclosed'⟩ := ih hyes
      simp only [Supply.labels_nextLabels] at hle' hrange'
      refine ⟨by omega, ?_, ?_, ?_⟩
      · simp
        grind
      · simp [List.nodup_append]
        grind
      · simp
        grind
  | ifElse span cond yes no ihyes ihno =>
    cases h with
    | ifElse hv hyes hno =>
      obtain ⟨hle, hrange, hnodup, hclosed⟩ := hv.labelled
      obtain ⟨hle', hrange', hnodup', hclosed'⟩ := ihyes hyes
      obtain ⟨hle'', hrange'', hnodup'', hclosed''⟩ := ihno hno
      simp only [Supply.labels_nextLabels] at hle' hrange'
      refine ⟨by omega, ?_, ?_, ?_⟩
      · simp
        grind
      · simp [List.nodup_append]
        grind
      · simp
        grind
  | whileLoop span cond body ih =>
    cases h with
    | whileLoop hv hbody =>
      obtain ⟨hle, hrange, hnodup, hclosed⟩ := hv.labelled
      obtain ⟨hle', hrange', hnodup', hclosed'⟩ := ih hbody
      simp only [Supply.labels_nextLabels] at hle hrange
      simp only [outerLabels, Option.elim, LoopLabels.toList] at hclosed'
      refine ⟨by omega, ?_, ?_, ?_⟩
      · simp
        grind
      · simp [List.nodup_append]
        grind
      · simp
        grind
  | forLoop span setup cond post body ih =>
    cases h with
    | forLoop hsetup htest hbody hpost =>
      obtain ⟨hle, hrange, hnodup, hclosed⟩ := hsetup.labelled
      obtain ⟨hle', hrange', hnodup', hclosed'⟩ := htest.labelled
      obtain ⟨hle₂, hrange₂, hnodup₂, hclosed₂⟩ := ih hbody
      obtain ⟨hle₃, hrange₃, hnodup₃, hclosed₃⟩ := hpost.labelled
      simp only [Supply.labels_nextLabels] at hle' hrange'
      simp only [outerLabels, Option.elim, LoopLabels.toList] at hclosed₂
      refine ⟨by omega, ?_, ?_, ?_⟩
      · simp
        grind
      · simp [List.nodup_append]
        grind
      · simp
        grind
  | breakLoop span =>
    cases h
    exact ⟨Nat.le_refl _, by simp, by simp, by simp [outerLabels, LoopLabels.toList]⟩
  | continueLoop span =>
    cases h
    exact ⟨Nat.le_refl _, by simp, by simp, by simp [outerLabels, LoopLabels.toList]⟩
  | returnStmt span value =>
    cases h with
    | returnNone => exact ⟨Nat.le_refl _, by simp, by simp, by simp⟩
    | returnSome hv => exact (hv.labelled.snoc rfl rfl).within _

/-- Ending the body of a routine with a return adds no labels. -/
theorem Labelled.terminated {lo hi : Nat} {body : List Stmt} (h : Labelled lo hi [] body)
    (result : TypeId) : Labelled lo hi [] (Lowering.terminated result body) := by
  unfold Lowering.terminated
  split
  · exact h
  · split
    · exact h.snoc rfl rfl
    · exact h.snoc rfl rfl

end

/-- In the body of a routine no label is defined twice, and every jump goes to one of them. -/
structure Resolvable (body : List Stmt) : Prop where
  nodup : (labelsOf body).Nodup
  defined : ∀ l ∈ targetsOf body, l ∈ labelsOf body

theorem LowersStmts.resolvable {r : Registry} {stmts : List Bound.Stmt} {s s' : Supply}
    {out : List Stmt} (h : LowersStmts r none stmts s out s') (result : TypeId) :
    Resolvable (Lowering.terminated result out) := by
  have hlabelled := (h.labelled fun _ _ => LowersStmt.labelled).terminated result
  exact ⟨hlabelled.nodup, fun l hl => (hlabelled.closed l hl).resolve_right (by simp)⟩

end Flat
end TypedScript
