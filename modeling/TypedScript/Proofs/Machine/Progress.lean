import TypedScript.Proofs.Machine.Frames

/-!
# Instructions keep everything of its type

An instruction that finds operands of the types that it wants leaves operands of the types that it is
said to leave, or it stops for a reason that programs can come to.
-/

namespace TypedScript

open Machine TypedScript.Action

/-- The instruction calls a routine that makes a text of the value, which is one of its arguments. -/
def WrittenBy (w : Machine) (i : Instruction) (s : List Value) (v : Value) : Prop :=
  ∃ (a : Nat) (key : String) (r : Routine), i.Is .callNative a ∧
    w.natives[a]? = some ⟨key, .routine r⟩ ∧ r.writes ∧ v ∈ s.take r.arity

/-- What comes of an instruction in a call with the stack `s`: the operands are of the types `τ` and all
else is still of its type; or a fault that programs can come to, the end of the program, waiting for
input, or a text to be written that never comes to an end. -/
inductive Performs (M : Module) (w : Machine) (i : Instruction) (g : Method) (τ : List String)
    (s args below : List Value) (a : Action Unit) : Prop
  | done {w' : Machine} {ops locals : List Value} :
    Does a w s (.ok ()) w' (frame ops locals args below) → w'.Sound M →
    w.heap.Extends w'.heap → w'.calls = w.calls → List.Forall₂ (fun v t => v.Has w'.heap t) ops τ →
    List.Forall₂ (fun v slot => v.Has w'.heap slot.type) locals g.locals.toList →
    Performs M w i g τ s args below a
  | fault {c : Cause} {w' : Machine} {s' : List Value} :
    Does a w s (.error (.fault (w.locate c))) w' s' → c.isExpected → Performs M w i g τ s args below a
  | exit {code : Int} {w' : Machine} {s' : List Value} : Does a w s (.error (.exit code)) w' s' →
    Performs M w i g τ s args below a
  | await : Does a w s (.error .awaitInput) w.back s → Performs M w i g τ s args below a
  | endless {v : Value} {w' : Machine} {s' : List Value} :
    Does a w s (.error (.crash none)) w' s' → WrittenBy w i s v → v.format? w.heap = none →
    Performs M w i g τ s args below a

/-- No text on the stack is too long to be counted by an `i32`. -/
def ShortTexts (s : List Value) : Prop := ∀ text, .string text ∈ s → text.length < 0x80000000

theorem mem_frame_of_mem {ops locals args below : List Value} {v : Value} (h : v ∈ ops) :
    v ∈ frame ops locals args below :=
  List.mem_append_left _ h

section

variable {M : Module} {w : Machine} {f : Activation} {k n : Nat} {g : Method} {σ τ : List String}
  {ops locals args below : List Value} {i : Instruction}

/-- Only the operands change. -/
theorem performs_ops (hw : w.Sound M)
    (hlocals : List.Forall₂ (fun v slot => v.Has w.heap slot.type) locals g.locals.toList)
    {a : Action Unit} {s ops' : List Value}
    (hdoes : Does a w s (.ok ()) w (frame ops' locals args below))
    (hops : List.Forall₂ (fun v t => v.Has w.heap t) ops' τ) : Performs M w i g τ s args below a :=
  .done hdoes hw (.refl _) rfl hops hlocals

/-- An operator on operands that are of its types. -/
theorem performs_yields (hw : w.Sound M)
    (hlocals : List.Forall₂ (fun v slot => v.Has w.heap slot.type) locals g.locals.toList)
    {a : Action Unit} {s ops' : List Value} {b : Builtin} {r : Except Cause Value}
    (hr : Arithmetic.Yields w.heap b r)
    (hok : ∀ v, r = .ok v → Does a w s (.ok ()) w (frame (v :: ops') locals args below))
    (herror : ∀ c, r = .error c → ∃ s', Does a w s (.error (.fault (w.locate c))) w s')
    (hops : List.Forall₂ (fun v t => v.Has w.heap t) ops' τ) :
    Performs M w i g (b.name :: τ) s args below a := by
  cases r with
  | ok v => exact performs_ops hw hlocals (hok v rfl) (.cons (Value.has_builtin_iff.mpr hr) hops)
  | error c =>
    obtain ⟨s', hdoes⟩ := herror c rfl
    exact .fault hdoes hr

/-- An index is an `i32`. -/
theorem index_eq_ok {heap : Heap} {v : Value} (hv : v.Has heap Builtin.i32.name) :
    ∃ x : Int64, v = .int x ∧ v.index = .ok x.toInt ∧ -0x80000000 ≤ x.toInt ∧ x.toInt < 0x80000000 := by
  obtain ⟨x, rfl, hx⟩ := (Value.has_builtin_iff.mp hv).exists_int rfl
  have hrange := Arithmetic.fitsSigned_eq_true.mp hx
  norm_num [Builtin.tag, Tag.bits] at hrange
  exact ⟨x, rfl, rfl, hrange⟩

/-- An entry, or an index that is out of range. -/
theorem entryAt_cases {α : Type} (items : Array α) (i : Int) :
    (∃ a, entryAt items i = .ok a ∧ 0 ≤ i ∧ items[i.toNat]? = some a) ∨
      entryAt items i = .error (.indexOutOfRange i items.size) := by
  unfold entryAt
  by_cases hneg : i < 0
  · rw [if_pos hneg]
    exact .inr rfl
  · rw [if_neg hneg]
    cases hitem : items[i.toNat]? with
    | none => exact .inr rfl
    | some a => exact .inl ⟨a, rfl, by omega, rfl⟩

/-- The element of an array, if it is there. -/
theorem element_cases (hw : w.heap.Typed) {target index : Value} {t : String}
    (htarget : target.Has w.heap (arrayName t)) (hindex : index.Has w.heap Builtin.i32.name) :
    (∃ v, w.element target index = .ok v ∧ v.Has w.heap t) ∨
      ∃ c, w.element target index = .error c ∧ c.isExpected := by
  obtain ⟨x, rfl, hx, -⟩ := index_eq_ok hindex
  rcases Value.has_array_iff.mp htarget with rfl | ⟨ref, a, rfl, ha, rfl⟩
  · exact .inr ⟨.indexOfNull, rfl, rfl⟩
  · have hitems : w.items ref = a.items := by simp [Machine.items, ha]
    have helement : w.element (.array ref) (.int x) = entryAt a.items x.toInt := by
      rw [← hitems]
      rfl
    rw [helement]
    rcases entryAt_cases a.items x.toInt with ⟨v, hv, -, hmem⟩ | hout
    · exact .inl ⟨v, hv, hw.items a (Array.mem_of_getElem? ha) v (Array.mem_of_getElem? hmem)⟩
    · exact .inr ⟨_, hout, rfl⟩

/-- The character of a text, if it is there. -/
theorem character_cases {target index : Value} (htarget : target.Has w.heap Builtin.string.name)
    (hindex : index.Has w.heap Builtin.i32.name) :
    (∃ v, w.element target index = .ok v ∧ v.Has w.heap Builtin.char.name) ∨
      ∃ c, w.element target index = .error c ∧ c.isExpected := by
  obtain ⟨x, rfl, hx, -⟩ := index_eq_ok hindex
  obtain ⟨text, rfl⟩ := (Value.has_builtin_iff.mp htarget).exists_string
  have helement : w.element (.string text) (.int x) = (do
      let c ← entryAt text.toList.toArray x.toInt
      return .char (Int32.ofNat c.toNat)) := rfl
  rw [helement]
  rcases entryAt_cases text.toList.toArray x.toInt with ⟨c, hc, -, -⟩ | hout
  · rw [hc]
    exact .inl ⟨_, rfl, Value.has_builtin_iff.mpr (.char _)⟩
  · rw [hout]
    exact .inr ⟨_, rfl, rfl⟩

/-- Where an element is stored, if there is such a place. -/
theorem place_cases {target index : Value} {t : String} (htarget : target.Has w.heap (arrayName t))
    (hindex : index.Has w.heap Builtin.i32.name) :
    (∃ ref k a, w.place target index = .ok (ref, k) ∧ w.heap[ref]? = some a ∧ a.element = t) ∨
      ∃ c, w.place target index = .error c ∧ c.isExpected := by
  obtain ⟨x, rfl, hx, -⟩ := index_eq_ok hindex
  rcases Value.has_array_iff.mp htarget with rfl | ⟨ref, a, rfl, ha, ht⟩
  · exact .inr ⟨.indexOfNull, rfl, rfl⟩
  · have hplace : w.place (.array ref) (.int x) = (do
        let _ ← entryAt (w.items ref) x.toInt
        return (ref, x.toInt.toNat)) := rfl
    rw [hplace]
    rcases entryAt_cases (w.items ref) x.toInt with ⟨v, hv, -, -⟩ | hout
    · rw [hv]
      exact .inl ⟨ref, _, a, rfl, ha, ht⟩
    · rw [hout]
      exact .inr ⟨_, rfl, rfl⟩

theorem has_count {heap : Heap} {n : Nat} (hn : n < 0x80000000) :
    (Value.int (Int64.ofNat n)).Has heap Builtin.i32.name := by
  refine Value.has_builtin_iff.mpr (.int rfl ?_)
  have hcount : (Int64.ofNat n).toInt = n := Int64.toInt_ofNat_of_lt (by norm_num; omega)
  rw [Arithmetic.fitsSigned_eq_true, hcount]
  norm_num [Builtin.tag, Tag.bits]
  omega

/-- The number of elements of an array. -/
theorem length_cases (hw : w.heap.Typed) {target : Value} {t : String}
    (htarget : target.Has w.heap (arrayName t)) :
    (∃ n, w.length target = .ok n ∧ n < 0x80000000) ∨ w.length target = .error .lengthOfNull := by
  rcases Value.has_array_iff.mp htarget with rfl | ⟨ref, a, rfl, ha, -⟩
  · exact .inr rfl
  · refine .inl ⟨_, rfl, ?_⟩
    have hitems : w.items ref = a.items := by simp [Machine.items, ha]
    rw [hitems]
    exact hw.size a (Array.mem_of_getElem? ha)

/-- The content of an object, if it is of the wanted type. -/
theorem unbox_cases {x : Value} (hx : x.Has w.heap Builtin.object.name) (wanted : String)
    (s : List Value) :
    (∃ v, Does (unbox wanted x) w s (.ok v) w s ∧ v.Has w.heap wanted) ∨
      ∃ c, Does (unbox wanted x) w s (.error (.fault (w.locate c))) w s ∧ c.isExpected := by
  cases Value.has_builtin_iff.mp hx with
  | int hb | uint hb | float _ hb => cases hb
  | null =>
    have htext : Value.null.format? w.heap = some "null" := rfl
    exact .inr ⟨_, (does_text htext).bind (does_fail _), rfl⟩
  | @boxed id type content hcontent =>
    by_cases htype : type = wanted
    · subst htype
      refine .inl ⟨content, ?_, hcontent⟩
      rw [unbox, if_pos rfl]
      exact does_pure content
    · refine .inr ⟨.unboxFailed type wanted, ?_, rfl⟩
      rw [unbox, if_neg htype]
      exact does_fail _

/-- A native leaves a result of its type. -/
theorem performs_native (hw : w.Sound M)
    (hlocals : List.Forall₂ (fun v slot => v.Has w.heap slot.type) locals g.locals.toList) {a : Nat}
    (hi : i.Is .callNative a) {key : String} {r : Routine}
    (hkey : w.natives[a]? = some ⟨key, .routine r⟩) {result : Builtin} {params : List Builtin}
    (hsig : ⟨.builtin result, params.map .builtin⟩ ∈ r.signatures)
    (hops : List.Forall₂ (fun v t => v.Has w.heap t) ops ((params.map Builtin.name).reverse ++ σ)) :
    Performs M w i g (leaving result.name σ) (frame ops locals args below) args below
      (perform .callNative i f g) := by
  obtain ⟨rev, rest, hrev, hrest, rfl⟩ : ∃ rev rest,
      List.Forall₂ (fun v t => v.Has w.heap t) rev (params.map Builtin.name).reverse ∧
        List.Forall₂ (fun v t => v.Has w.heap t) rest σ ∧ ops = rev ++ rest :=
    ⟨_, _, List.forall₂_take_append _ _ _ hops, List.forall₂_drop_append _ _ _ hops,
      (List.take_append_drop _ _).symm⟩
  have hgiven : List.Forall₂ (fun v b => v.Represents w.heap b) rev.reverse params := by
    have hnames : List.Forall₂ (fun v t => v.Has w.heap t) rev.reverse (params.map Builtin.name) := by
      rw [← List.reverse_reverse (params.map Builtin.name)]
      exact List.forall₂_reverse_iff.mpr hrev
    rw [List.forall₂_map_right_iff] at hnames
    exact hnames.imp fun _ _ => Value.has_builtin_iff.mp
  have harity : rev.reverse.length = r.arity := by
    rw [Routine.arity_of_mem_signatures hsig, List.length_map, hgiven.length_eq]
  have hstack : frame (rev ++ rest) locals args below =
      rev.reverse.reverse ++ frame rest locals args below := by
    simp [frame]
  have hreturns := Routine.returns_of_mem_signatures hsig
  rw [hstack]
  have hsettles : Settles w (frame rest locals args below) result r.writes rev.reverse
      (callRoutine key r rev.reverse) :=
    callRoutine_settles (Routine.takes_of_mem_signatures hsig) hgiven
  cases hsettles with
  | @value v w' hdoes hstreams hresult =>
    have hrun := performs_callNative (f := f) (g := g) hi.operand hkey harity hdoes
    have hheap : w'.heap = w.heap := by
      obtain ⟨_, _, _, _, rfl⟩ := hstreams
      rfl
    have hcalls : w'.calls = w.calls := by
      obtain ⟨_, _, _, _, rfl⟩ := hstreams
      rfl
    by_cases hvoid : result = .void
    · subst hvoid
      rw [if_neg (by simpa using hreturns)] at hrun
      refine .done hrun (hw.streams hstreams) (by rw [hheap]; exact .refl _) hcalls ?_ ?_
      · rw [hheap]
        exact hrest
      · rw [hheap]
        exact hlocals
    · rw [if_pos (by simpa using hreturns.mpr (by simpa using hvoid))] at hrun
      have hname : result.name ≠ "void" := fun h => hvoid (Builtin.name_injective (c := .void) h)
      rw [leaving, if_neg hname]
      have hleft : List.Forall₂ (fun v t => v.Has w'.heap t) (v :: rest) (result.name :: σ) := by
        rw [hheap]
        exact .cons (Value.has_builtin_iff.mpr (hresult hvoid)) hrest
      refine .done hrun (hw.streams hstreams) (by rw [hheap]; exact .refl _) hcalls hleft ?_
      rw [hheap]
      exact hlocals
  | fault hdoes hc => exact .fault (performs_callNative_error hi.operand hkey harity hdoes) hc
  | exit hdoes => exact .exit (performs_callNative_error hi.operand hkey harity hdoes)
  | await hdoes hnone =>
    have hrun := performs_callNative_error (f := f) (g := g) hi.operand hkey harity hdoes
    rw [hnone] at hrun ⊢
    exact .await hrun
  | endless hdoes hwrites hmem hnone =>
    refine .endless (performs_callNative_error hi.operand hkey harity hdoes)
      ⟨a, key, r, hi, hkey, hwrites, ?_⟩ hnone
    rw [← harity, List.take_left' List.length_reverse]
    exact List.mem_reverse.mpr hmem

/-- An instruction with an effect on the operands, calls apart. -/
theorem performs_effect (hw : w.Sound M) (hframed : Framed M w.heap f k n g σ ops locals args below)
    (heffect : M.Effect g i σ τ) (hcall : i.operation? ≠ some .call)
    (hshort : ShortTexts (frame ops locals args below)) :
    ∃ op, i.operation? = some op ∧
      Performs M w i g τ (frame ops locals args below) args below (perform op i f g) := by
  have hops := hframed.ops
  have hlocals := hframed.locals
  have hargs : g.params.size = args.length := by simpa using hframed.args.length_eq.symm
  cases heffect with
  | pop hi =>
    refine ⟨.pop, hi, ?_⟩
    obtain _ | ⟨hv, hrest⟩ := hops
    exact performs_ops hw hlocals performs_pop hrest
  | push hi hc ht hv =>
    refine ⟨.push, hi.operation, ?_⟩
    rw [← hw.module] at hc
    exact performs_ops hw hlocals (performs_push hi.operand hc) (.cons (hv _) hops)
  | @loadArg a t _ hi ht =>
    refine ⟨.loadArg, hi.operation, ?_⟩
    rw [← Array.getElem?_toList] at ht
    obtain ⟨v, hv, hhas⟩ := exists_getElem?_right hframed.args.flip ht
    exact performs_ops hw hlocals (performs_loadArg hi.operand hframed.base hv) (.cons hhas hops)
  | @loadLocal a slot _ hi hslot =>
    refine ⟨.loadLocal, hi.operation, ?_⟩
    rw [← Array.getElem?_toList] at hslot
    obtain ⟨v, hv, hhas⟩ := exists_getElem?_right hlocals.flip hslot
    exact performs_ops hw hlocals (performs_loadLocal hi.operand hframed.base hargs hv)
      (.cons hhas hops)
  | @storeLocal a slot _ hi hslot =>
    refine ⟨.storeLocal, hi.operation, ?_⟩
    rw [← Array.getElem?_toList] at hslot
    obtain _ | ⟨hv, hrest⟩ := hops
    have hlt : a < locals.length := by
      rw [hlocals.length_eq]
      exact (List.getElem?_eq_some_iff.mp hslot).1
    exact .done (performs_storeLocal hi.operand hframed.base hargs hlt) hw (.refl _) rfl
      (.cons hv hrest) (forall₂_set hlocals hslot hv)
  | @loadStatic a field _ hi hfield =>
    refine ⟨.loadStatic, hi.operation, ?_⟩
    obtain ⟨statics, v, hstatics, hv, hhas⟩ := hw.exists_static hfield
    exact performs_ops hw hlocals (performs_loadStatic hi.operand hstatics hv) (.cons hhas hops)
  | @storeStatic a field _ hi hfield =>
    refine ⟨.storeStatic, hi.operation, ?_⟩
    obtain ⟨statics, v, hstatics, hv, -⟩ := hw.exists_static hfield
    obtain _ | ⟨hhas, hrest⟩ := hops
    have hlt := (Array.getElem?_eq_some_iff.mp hv).1
    exact .done (performs_storeStatic hi.operand hstatics hlt) (hw.setStatic hfield hstatics hhas)
      (.refl _) rfl (.cons hhas hrest) hlocals
  | @loadNative a key v _ hi hkey hfind =>
    refine ⟨.loadNative, hi.operation, ?_⟩
    exact performs_ops hw hlocals (performs_loadNative hi.operand (hw.exists_native hkey hfind))
      (.cons (Value.has_builtin_iff.mpr (.float v rfl)) hops)
  | @binary op o negated b _ hi hop hb htag =>
    refine ⟨o, hi, ?_⟩
    obtain _ | ⟨hy, _ | ⟨hx, hrest⟩⟩ := hops
    have hbinary : isBinary o := by cases op <;> cases hop <;> rfl
    refine performs_yields hw hlocals (Arithmetic.binary_yields hop hb (Value.has_builtin_iff.mp hx)
      (Value.has_builtin_iff.mp hy)) (fun v hv => ?_)
      (fun c hc => ⟨_, performs_binary_fault hbinary (by rw [htag]; exact hc)⟩) hrest
    exact performs_binary hbinary (by rw [htag]; exact hv)
  | negate hi hb htag =>
    refine ⟨.neg, hi, ?_⟩
    obtain _ | ⟨hx, hrest⟩ := hops
    refine performs_yields hw hlocals (Arithmetic.negate_yields hb (Value.has_builtin_iff.mp hx))
      (fun v hv => ?_) (fun c hc => ⟨_, performs_unary_fault (.inl rfl) (by rw [htag]; exact hc)⟩) hrest
    exact performs_unary (.inl rfl) (by rw [htag]; exact hv)
  | complement hi hb htag =>
    refine ⟨.compl, hi, ?_⟩
    obtain _ | ⟨hx, hrest⟩ := hops
    refine performs_yields hw hlocals (Arithmetic.complement_yields hb (Value.has_builtin_iff.mp hx))
      (fun v hv => ?_) (fun c hc => ⟨_, performs_unary_fault (.inr rfl) (by rw [htag]; exact hc)⟩) hrest
    exact performs_unary (.inr rfl) (by rw [htag]; exact hv)
  | convert hi hb hc htag =>
    refine ⟨.convert, hi, ?_⟩
    obtain _ | ⟨hx, hrest⟩ := hops
    obtain ⟨v, hv, hhas⟩ := Arithmetic.convert_yields hb hc
      (Tag.ofByte i.operand.toUInt32.toUInt8) (Value.has_builtin_iff.mp hx)
    rw [← htag] at hv
    exact performs_ops hw hlocals (performs_convert hv) (.cons (Value.has_builtin_iff.mpr hhas) hrest)
  | @box a t _ hi ht =>
    refine ⟨.box, hi.operation, ?_⟩
    rw [← hw.module] at ht
    cases hops with
    | @cons v _ rest _ hv hrest =>
      have hbox : Does (perform .box i f g) w (frame (v :: rest) locals args below) (.ok ())
          { w with boxes := w.boxes + 1 } (frame (.boxed w.boxes t v :: rest) locals args below) :=
        performs_box hi.operand ht
      exact .done hbox (hw.congr rfl rfl rfl rfl) (.refl _) rfl (.cons ⟨rfl, hv⟩ hrest) hlocals
  | @unbox a t _ hi ht =>
    refine ⟨.unbox, hi.operation, ?_⟩
    rw [← hw.module] at ht
    obtain _ | ⟨hx, hrest⟩ := hops
    rcases unbox_cases hx t _ with ⟨v, hv, hhas⟩ | ⟨c, hc, hexpected⟩
    · exact performs_ops hw hlocals (performs_unbox hi.operand ht hv) (.cons hhas hrest)
    · exact .fault (performs_unbox_error hi.operand ht hc) hexpected
  | @newArray a t _ hi ht hvalue =>
    refine ⟨.newArray, hi.operation, ?_⟩
    rw [← hw.module] at ht
    obtain _ | ⟨hx, hrest⟩ := hops
    obtain ⟨x, rfl, hindex, -, hmost⟩ := index_eq_ok hx
    by_cases hneg : x.toInt < 0
    · exact .fault (performs_newArray_negative hi.operand ht hindex hneg) rfl
    · have hsize : x.toInt = x.toInt.toNat := by omega
      rw [hsize] at hindex
      have hle := Heap.extends_push (h := w.heap) ⟨t, Array.replicate x.toInt.toNat (Value.zero t)⟩
      refine .done (performs_newArray hi.operand ht hindex (by rw [mostElements]; omega))
        (hw.extend hle (hw.heap.push hvalue (by omega))) hle rfl (.cons ?_ ?_) ?_
      · exact ⟨_, Array.getElem?_push_size, rfl⟩
      · exact hrest.imp fun _ _ => .mono hle
      · exact hlocals.imp fun _ _ => .mono hle
  | loadElem hi =>
    refine ⟨.loadElem, hi, ?_⟩
    obtain _ | ⟨hindex, _ | ⟨htarget, hrest⟩⟩ := hops
    rcases element_cases hw.heap htarget hindex with ⟨v, hv, hhas⟩ | ⟨c, hc, hexpected⟩
    · exact performs_ops hw hlocals (performs_loadElem hv) (.cons hhas hrest)
    · exact .fault (performs_loadElem_fault hc) hexpected
  | loadChar hi =>
    refine ⟨.loadElem, hi, ?_⟩
    obtain _ | ⟨hindex, _ | ⟨htarget, hrest⟩⟩ := hops
    rcases character_cases htarget hindex with ⟨v, hv, hhas⟩ | ⟨c, hc, hexpected⟩
    · exact performs_ops hw hlocals (performs_loadElem hv) (.cons hhas hrest)
    · exact .fault (performs_loadElem_fault hc) hexpected
  | storeElem hi =>
    refine ⟨.storeElem, hi, ?_⟩
    obtain _ | ⟨hv, _ | ⟨hindex, _ | ⟨htarget, hrest⟩⟩⟩ := hops
    rcases place_cases htarget hindex with ⟨ref, k, a, hplace, ha, rfl⟩ | ⟨c, hc, hexpected⟩
    · have hle := Heap.extends_store (h := w.heap) ref k
      refine .done (performs_storeElem hplace) (hw.extend (hle _) (hw.heap.store ha hv k)) (hle _) rfl
        (.cons (hv.mono (hle _)) ?_) ?_
      · exact hrest.imp fun _ _ => .mono (hle _)
      · exact hlocals.imp fun _ _ => .mono (hle _)
    · exact .fault (performs_storeElem_fault hc) hexpected
  | arrayLength hi =>
    refine ⟨.length, hi, ?_⟩
    obtain _ | ⟨htarget, hrest⟩ := hops
    rcases length_cases hw.heap htarget with ⟨n, hn, hlt⟩ | hnull
    · exact performs_ops hw hlocals (performs_length hn) (.cons (has_count hlt) hrest)
    · exact .fault (performs_length_fault hnull) rfl
  | textLength hi =>
    refine ⟨.length, hi, ?_⟩
    obtain _ | ⟨htarget, hrest⟩ := hops
    obtain ⟨text, rfl⟩ := (Value.has_builtin_iff.mp htarget).exists_string
    have hlt := hshort text (mem_frame_of_mem (by simp))
    exact performs_ops hw hlocals (performs_length rfl) (.cons (has_count hlt) hrest)
  | call hi => exact absurd hi.operation hcall
  | callNative hi hkey hfind hsig =>
    exact ⟨.callNative, hi.operation, performs_native hw hlocals hi
      (hw.exists_native hkey hfind) hsig hops⟩

end
end TypedScript
