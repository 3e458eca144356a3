import TypedScript.Proofs.Machine.Progress

/-!
# Steps keep everything of its type

In a module of which the operands before all instructions are known, each step of a call leads to a
state in which everything is of its type, or to the end of the outermost call, or it stops for a reason
that programs can come to.
-/

namespace TypedScript

open Machine TypedScript.Action

namespace Machine

theorem locate_cause (w : Machine) (c : Cause) : (w.locate c).cause = c := by
  unfold locate
  split <;> rfl

theorem goto_goto (w : Machine) (a b : Int) : (w.goto a).goto b = w.goto b := by
  cases w with
  | mk _ _ _ _ _ calls => cases calls <;> rfl

theorem back_goto {w : Machine} {f : Activation} {rest : List Activation} (h : w.calls = f :: rest)
    {n : Nat} (hn : f.next = n) : (w.goto (n + 1)).back = w := by
  cases w with
  | mk _ _ _ _ _ calls =>
    dsimp only at h
    subst h
    cases f
    simp only at hn
    subst hn
    simp [goto, back]

end Machine

/-- What comes of a step of a call in a state in which everything is of its type. -/
inductive Advances (M : Module) (shapes : Nat → Nat → List String) (w : Machine) (s : List Value) : Prop
  | goes {w' : Machine} {s' : List Value} : Does (step 0) w s (.ok none) w' s' →
    w'.Conforms M shapes s' → Advances M shapes w s
  | returns {v : Value} {w' : Machine} : Does (step 0) w s (.ok (some v)) w' [] → w'.Sound M →
    w'.calls = [] → Advances M shapes w s
  | fault {fault : RuntimeFault} {w' : Machine} {s' : List Value} :
    Does (step 0) w s (.error (.fault fault)) w' s' → fault.cause.isExpected → Advances M shapes w s
  | exit {code : Int} {w' : Machine} {s' : List Value} : Does (step 0) w s (.error (.exit code)) w' s' →
    Advances M shapes w s
  | await : Does (step 0) w s (.error .awaitInput) w s → Advances M shapes w s
  | endless {f : Activation} {rest : List Activation} {k n : Nat} {g : Method} {i : Instruction}
    {v : Value} {w' : Machine} {s' : List Value} :
    Does (step 0) w s (.error (.crash none)) w' s' → w.At f rest k n g i → WrittenBy w i s v →
    v.format? w.heap = none → Advances M shapes w s

section

variable {M : Module} {shapes : Nat → Nat → List String} {w : Machine} {f : Activation}
  {rest : List Activation} {k n : Nat} {g : Method} {ops locals args below : List Value}
  {i : Instruction}

/-- The call goes on at an instruction. -/
theorem Framed.goto {heap : Heap} {σ τ : List String} {ops' : List Value}
    (h : Framed M heap f k n g σ ops locals args below) {next : Nat} (hnext : next < g.code.size)
    (hops : List.Forall₂ (fun v t => v.Has heap t) ops' τ) :
    Framed M heap { f with next } k next g τ ops' locals args below :=
  ⟨h.index, rfl, h.method, hnext, h.base, hops, h.locals, h.args⟩

/-- The result of a call is left to the one that waits for it. -/
theorem Waiting.resume {heap : Heap} {result : String} {s : List Value}
    (h : Waiting M shapes heap rest result s) (hw : w.Sound M) (hheap : w.heap = heap)
    (hcalls : w.calls = rest) (hrest : rest ≠ []) {vs : List Value}
    (hvs : List.Forall₂ (fun v t => v.Has heap t) vs (leaving result [])) :
    w.Conforms M shapes (vs ++ s) := by
  subst hheap
  cases h with
  | bottom => exact absurd rfl hrest
  | @call f rest k n g σ ops locals args below _ hframed hshape hwaiting =>
    have hops : List.Forall₂ (fun v t => v.Has w.heap t) (vs ++ ops) (shapes k n) := by
      have hleaving : leaving result σ = leaving result [] ++ σ := by
        unfold leaving
        split <;> rfl
      rw [hshape, hleaving]
      exact List.rel_append hvs hframed.ops
    have hstack : vs ++ frame ops locals args below = frame (vs ++ ops) locals args below := by
      simp [frame]
    rw [hstack]
    exact .mk hw hcalls ⟨hframed.index, hframed.next, hframed.method, hframed.code, hframed.base, hops,
      hframed.locals, hframed.args⟩ hwaiting

/-- A call begins without operands, and with zeros in its locals. -/
theorem Module.Verified.framed (hM : M.Verified shapes) (hg : M.method? k = some g) {heap : Heap}
    (hargs : List.Forall₂ (fun v t => v.Has heap t) args g.params.toList) (below : List Value) :
    Framed M heap ⟨k, 0, below.length⟩ k 0 g (shapes k 0) []
      (g.locals.toList.map fun slot => Value.zero slot.type) args below := by
  have hverified := hM.methods k g hg
  refine ⟨rfl, rfl, hg, hverified.nonempty, rfl, ?_, ?_, hargs⟩
  · rw [hverified.start]
    exact .nil
  · rw [List.forall₂_map_left_iff]
    refine List.forall₂_same.mpr fun slot hslot => Value.zero_has _ ?_
    exact hM.locals k g hg slot (Array.mem_toList_iff.mp hslot)

/-- A call of a method begins, unless too many are nested. -/
theorem advances_call (hM : M.Verified shapes) (hw : w.Sound M) (hat : w.At f rest k n g i)
    {σ : List String} {a : Nat} {callee : Method} (hi : i.Is .call a)
    (hcallee : M.method? a = some callee)
    (hframed : Framed M w.heap f k n g (callee.params.toList.reverse ++ σ) ops locals args below)
    (hnext : n + 1 < g.code.size) (hshape : shapes k (n + 1) = leaving callee.result σ)
    (hwaiting : Waiting M shapes w.heap rest g.result below) :
    Advances M shapes w (frame ops locals args below) := by
  have hmethod : (w.goto (n + 1)).module.method? a = some callee := by
    rw [show (w.goto (n + 1)).module = M from hw.module]
    exact hcallee
  by_cases hdepth : (w.goto (n + 1)).maxDepth ≤ (w.goto (n + 1)).calls.length
  · exact .fault (does_step_error hat 0 hi.operation (by decide) (by decide)
      (performs_call hi.operand (does_enter_overflow hmethod hdepth))) (by rw [locate_cause]; rfl)
  · have hops := hframed.ops
    obtain ⟨rev, rest', hrev, hrest, rfl⟩ : ∃ rev rest',
        List.Forall₂ (fun v t => v.Has w.heap t) rev callee.params.toList.reverse ∧
          List.Forall₂ (fun v t => v.Has w.heap t) rest' σ ∧ ops = rev ++ rest' :=
      ⟨_, _, List.forall₂_take_append _ _ _ hops, List.forall₂_drop_append _ _ _ hops,
        (List.take_append_drop _ _).symm⟩
    have hgiven : List.Forall₂ (fun v t => v.Has w.heap t) rev.reverse callee.params.toList := by
      rw [← List.reverse_reverse callee.params.toList]
      exact List.forall₂_reverse_iff.mpr hrev
    have hstack : zeros callee ++ frame (rev ++ rest') locals args below =
        frame [] (callee.locals.toList.map fun slot => Value.zero slot.type) rev.reverse
          (frame rest' locals args below) := by
      simp [zeros, frame]
    have hbase : ((frame (rev ++ rest') locals args below).length : Int) - callee.params.size =
        (frame rest' locals args below).length := by
      have hcount : callee.params.size = rev.length := by
        rw [← List.length_reverse, hgiven.length_eq, Array.length_toList]
      simp only [length_frame, List.length_append, hcount]
      omega
    have henter := does_step hat 0 hi.operation (by decide) (by decide)
      (performs_call hi.operand (does_enter (s := frame (rev ++ rest') locals args below) hmethod
        (Int.lt_of_not_ge hdepth)))
    rw [hstack, hbase] at henter
    have hframed' := hM.framed hcallee hgiven (frame rest' locals args below)
    have hcaller : Framed M w.heap { f with next := (n : Int) + 1 } k (n + 1) g σ rest' locals args
        below :=
      hframed.goto hnext hrest
    exact .goes henter (.mk (hw.congr rfl rfl rfl rfl) rfl hframed'
      (by rw [goto_calls hat]; exact .call hcaller hshape hwaiting))

/-- The operands that a call takes and leaves. -/
theorem Module.Effect.exists_call {σ τ : List String} (h : M.Effect g i σ τ)
    (hcall : i.operation? = some .call) :
    ∃ a callee ρ, i.Is .call a ∧ M.method? a = some callee ∧
      σ = callee.params.toList.reverse ++ ρ ∧ τ = leaving callee.result ρ := by
  cases h with
  | call hi hcallee => exact ⟨_, _, _, hi, hcallee, rfl, rfl⟩
  | pop hi | negate hi | complement hi | convert hi | loadElem hi | loadChar hi | storeElem hi
  | arrayLength hi | textLength hi =>
    rw [hi] at hcall
    cases hcall
  | binary hi hop =>
    have hnot := (Emission.of_operation? hop).2.2.1
    rw [hi, Option.some.injEq] at hcall
    simp [hcall] at hnot
  | push hi | loadArg hi | loadLocal hi | storeLocal hi | loadStatic hi | storeStatic hi
  | loadNative hi | box hi | unbox hi | newArray hi | callNative hi =>
    rw [hi.operation] at hcall
    cases hcall

/-- Each step keeps everything of its type, or stops for a reason that programs can come to. -/
theorem Machine.Conforms.advances (hM : M.Verified shapes) {s : List Value}
    (h : w.Conforms M shapes s) (hshort : ShortTexts s) : Advances M shapes w s := by
  cases h with
  | @mk f rest k n g ops locals args below hw hcalls hframed hwaiting =>
  obtain ⟨i, hi⟩ : ∃ i, g.code[n]? = some i := ⟨_, Array.getElem?_eq_getElem hframed.code⟩
  have hat : w.At f rest k n g i :=
    ⟨hcalls, hframed.index, hframed.next, by rw [hw.module]; exact hframed.method, hi⟩
  have hops := hframed.ops
  obtain ⟨target, hjump, hlt, hn, ht⟩ | ⟨target, hjump, hlt, hn, ht, hnext, hfall⟩ |
    ⟨hop, hn, hresult⟩ | ⟨hop, hn, hresult⟩ | ⟨heffect, hnext⟩ :=
    (hM.methods k g hframed.method).step n i hi
  · have hstep := does_step (s := frame ops locals args below) hat 0 hjump.operation (by decide)
      (by decide) (performs_jump hjump.operand)
    rw [goto_goto] at hstep
    rw [hn, ← ht] at hops
    exact .goes hstep (.mk (hw.goto target) (goto_calls hat target) (hframed.goto hlt hops) hwaiting)
  · rw [hn] at hops
    obtain _ | ⟨hv, _ | _⟩ := hops
    obtain ⟨b, rfl⟩ := (Value.has_builtin_iff.mp hv).exists_bool
    have hstep : Does (step 0) w (frame [.bool b] locals args below) (.ok none)
        (if b then (w.goto (n + 1)).goto target else w.goto (n + 1)) (frame [] locals args below) :=
      does_step hat 0 hjump.operation (by decide) (by decide) (performs_jumpTrue hjump.operand b)
    cases b with
    | true =>
      rw [if_pos rfl, goto_goto] at hstep
      refine .goes hstep (.mk (hw.goto target) (goto_calls hat target) (hframed.goto hlt ?_) hwaiting)
      rw [ht]
      exact .nil
    | false =>
      rw [if_neg (by decide)] at hstep
      refine .goes hstep (.mk (hw.goto (n + 1)) (goto_calls hat (n + 1)) (hframed.goto hnext ?_)
        hwaiting)
      rw [hfall]
      exact .nil
  · rw [hn] at hops
    cases hops with
    | @cons v _ _ _ hv hnil =>
      cases hnil
      have hstep : Does (step 0) w (frame [v] locals args below)
          (.ok (if rest.length = 0 then some v else none)) { w with calls := rest }
          (if rest.length = 0 then below else v :: below) :=
        does_step_ret hat 0 hop hframed.base
      by_cases hrest : rest.length = 0
      · obtain rfl := List.length_eq_zero_iff.mp hrest
        cases hwaiting
        exact .returns hstep (hw.congr rfl rfl rfl rfl) rfl
      · rw [if_neg hrest, if_neg hrest] at hstep
        have hleft : List.Forall₂ (fun v t => v.Has w.heap t) [v] (leaving g.result []) := by
          rw [leaving, if_neg hresult]
          exact .cons hv .nil
        have hrest' : rest ≠ [] := fun h => hrest (by rw [h]; rfl)
        have hsound : { w with calls := rest }.Sound M := hw.congr rfl rfl rfl rfl
        exact .goes hstep (hwaiting.resume hsound rfl rfl hrest' hleft)
  · rw [hn] at hops
    cases hops
    have hstep : Does (step 0) w (frame [] locals args below)
        (.ok (if rest.length = 0 then some .null else none)) { w with calls := rest } below :=
      does_step_retVoid hat 0 hop hframed.base
    by_cases hrest : rest.length = 0
    · obtain rfl := List.length_eq_zero_iff.mp hrest
      cases hwaiting
      exact .returns hstep (hw.congr rfl rfl rfl rfl) rfl
    · rw [if_neg hrest] at hstep
      have hleft : List.Forall₂ (fun (v : Value) t => v.Has w.heap t) [] (leaving g.result []) := by
        rw [leaving, if_pos hresult]
        exact .nil
      have hrest' : rest ≠ [] := fun h => hrest (by rw [h]; rfl)
      have hsound : { w with calls := rest }.Sound M := hw.congr rfl rfl rfl rfl
      exact .goes hstep (hwaiting.resume hsound rfl rfl hrest' hleft)
  · by_cases hcall : i.operation? = some .call
    · obtain ⟨a, callee, σ, hi', hcallee, hσ, hτ⟩ := heffect.exists_call hcall
      rw [hσ] at hframed
      exact advances_call hM hw hat hi' hcallee hframed hnext hτ hwaiting
    · obtain ⟨op, hop, hperforms⟩ := performs_effect (hw.goto (n + 1)) hframed heffect hcall hshort
      obtain ⟨op', hop', hnot⟩ := heffect.not_control
      obtain rfl := Option.some.inj (hop.symm.trans hop')
      have hret : op ≠ .ret := by
        rintro rfl
        simp at hnot
      have hretVoid : op ≠ .retVoid := by
        rintro rfl
        simp at hnot
      cases hperforms with
      | @done w' ops' locals' hdoes hsound hle hcalls' hops' hlocals' =>
        have hgoto := (hframed.mono hle).goto hnext hops'
        have hframed' : Framed M w'.heap { f with next := (n : Int) + 1 } k (n + 1) g
            (shapes k (n + 1)) ops' locals' args below :=
          ⟨hgoto.index, hgoto.next, hgoto.method, hgoto.code, hgoto.base, hgoto.ops, hlocals',
            hgoto.args⟩
        exact .goes (does_step hat 0 hop hret hretVoid hdoes) (.mk hsound
          (hcalls'.trans (goto_calls hat (n + 1))) hframed' (hwaiting.mono hle))
      | fault hdoes hc =>
        exact .fault (does_step_error hat 0 hop hret hretVoid hdoes) (by rw [locate_cause]; exact hc)
      | exit hdoes => exact .exit (does_step_error hat 0 hop hret hretVoid hdoes)
      | await hdoes =>
        rw [back_goto hcalls hframed.next] at hdoes
        exact .await (does_step_error hat 0 hop hret hretVoid hdoes)
      | endless hdoes hwritten hnone =>
        exact .endless (does_step_error hat 0 hop hret hretVoid hdoes) hat hwritten hnone

end
end TypedScript
