import TypedScript.Proofs.Machine.Stack

/-!
# What each instruction does to the stack

One lemma for each instruction, and the step of the machine from them. The stack in a call consists of
its operands, its locals and arguments, and what is below.
-/

namespace TypedScript

open Machine

def frame (ops locals args below : List Value) : List Value :=
  ops ++ ((args ++ locals).reverse ++ below)

section

variable {ops locals args below : List Value} {i : Nat} {v : Value}

theorem reverse_frame : (frame ops locals args below).reverse =
    below.reverse ++ (args ++ (locals ++ ops.reverse)) := by
  simp [frame]

theorem length_frame : (frame ops locals args below).length =
    ops.length + locals.length + args.length + below.length := by
  simp [frame]
  omega

theorem frame_arg (h : args[i]? = some v) :
    (frame ops locals args below).reverse[below.length + i]? = some v := by
  have hi := (List.getElem?_eq_some_iff.mp h).1
  rw [reverse_frame, List.getElem?_append_right (by simp), List.length_reverse,
    Nat.add_sub_cancel_left, List.getElem?_append_left hi, h]

theorem frame_local (h : locals[i]? = some v) :
    (frame ops locals args below).reverse[below.length + args.length + i]? = some v := by
  have hi := (List.getElem?_eq_some_iff.mp h).1
  rw [reverse_frame, List.getElem?_append_right (by simp; omega), List.length_reverse,
    List.getElem?_append_right (by omega), List.getElem?_append_left (by omega),
    show below.length + args.length + i - below.length - args.length = i by omega, h]

theorem set_frame (hi : i < locals.length) :
    ((frame ops locals args below).reverse.set (below.length + args.length + i) v).reverse =
      frame ops (locals.set i v) args below := by
  rw [← List.reverse_reverse (frame ops (locals.set i v) args below), reverse_frame, reverse_frame,
    List.set_append, if_neg (by simp; omega), List.set_append, if_neg (by simp; omega),
    List.set_append, if_pos (by simp; omega)]
  simp only [List.length_reverse]
  rw [show below.length + args.length + i - below.length - args.length = i by omega]

end

namespace Action

variable {α : Type} {w w' : Machine} {s s' : List Value} {v : Value} {i : Instruction}
  {f : Activation} {g : Method} {a : Nat}

theorem performs_pop : Does (perform .pop i f g) w (v :: s) (.ok ()) w s :=
  does_pop.bind (does_pure ())

theorem performs_push (ha : i.operand.toInt = a) {c : Constant}
    (hc : w.module.constants[a]? = some c) :
    Does (perform .push i f g) w s (.ok ()) w (c.value :: s) := by
  unfold perform
  dsimp only
  refine Does.get_bind fun m hm => ?_
  rw [← hm.module] at hc
  rw [ha]
  exact (does_entry hc).bind does_push

section

variable {ops locals args below : List Value}

theorem performs_loadArg (ha : i.operand.toInt = a) (hbase : f.base = below.length)
    (hv : args[a]? = some v) :
    Does (perform .loadArg i f g) w (frame ops locals args below) (.ok ()) w
      (frame (v :: ops) locals args below) := by
  unfold perform
  dsimp only
  rw [ha, hbase, ← Int.natCast_add]
  exact (does_cell (frame_arg hv)).bind does_push

theorem performs_loadLocal (ha : i.operand.toInt = a) (hbase : f.base = below.length)
    (hargs : g.params.size = args.length) (hv : locals[a]? = some v) :
    Does (perform .loadLocal i f g) w (frame ops locals args below) (.ok ()) w
      (frame (v :: ops) locals args below) := by
  unfold perform
  dsimp only
  rw [ha, hbase, hargs, ← Int.natCast_add, ← Int.natCast_add]
  exact (does_cell (frame_local hv)).bind does_push

theorem performs_storeLocal (ha : i.operand.toInt = a) (hbase : f.base = below.length)
    (hargs : g.params.size = args.length) (hlt : a < locals.length) :
    Does (perform .storeLocal i f g) w (frame (v :: ops) locals args below) (.ok ()) w
      (frame (v :: ops) (locals.set a v) args below) := by
  unfold perform
  dsimp only
  refine does_peek.bind ?_
  rw [ha, hbase, hargs, ← Int.natCast_add, ← Int.natCast_add, ← set_frame hlt]
  refine does_setCell ?_
  change _ < (frame (v :: ops) locals args below).length
  rw [length_frame]
  omega

end

theorem performs_loadStatic (ha : i.operand.toInt = a) {statics : Array Value}
    (hs : w.statics? = some statics) (hv : statics[a]? = some v) :
    Does (perform .loadStatic i f g) w s (.ok ()) w (v :: s) := by
  unfold perform loadStatic
  dsimp only
  refine Does.get_bind fun m hm => ?_
  rw [ha, hm.statics, hs]
  exact (does_entry hv).bind does_push

theorem performs_storeStatic (ha : i.operand.toInt = a) {statics : Array Value}
    (hs : w.statics? = some statics) (hlt : a < statics.size) :
    Does (perform .storeStatic i f g) w (v :: s) (.ok ())
      { w with statics? := some (statics.set! a v) } (v :: s) := by
  unfold perform storeStatic
  dsimp only
  refine does_peek.bind (Does.get_bind fun m hm => ?_)
  rw [ha, hm.statics, hs]
  refine (does_entry (Array.getElem?_eq_getElem hlt)).bind (does_modify fun cells top => ?_)
  simp [hs]

theorem performs_loadNative (ha : i.operand.toInt = a) {key : String}
    (hn : w.natives[a]? = some ⟨key, .constant v⟩) :
    Does (perform .loadNative i f g) w s (.ok ()) w (v :: s) := by
  unfold perform loadNative
  dsimp only
  refine Does.get_bind fun m hm => ?_
  rw [← hm.natives] at hn
  rw [ha]
  exact (does_entry hn).bind does_push

def isBinary : Operation → Bool
  | .add | .sub | .mul | .div | .rem | .and | .or | .xor | .shl | .shr | .ceq | .clt | .cgt => true
  | _ => false

section

variable {op : Operation} {x y : Value}

theorem performs_binary (hop : isBinary op) (hv : Arithmetic.binary op i.tag x y = .ok v) :
    Does (perform op i f g) w (y :: x :: s) (.ok ()) w (v :: s) := by
  have hrun : Does (pop >>= fun y => pop >>= fun x =>
      orFail (Arithmetic.binary op i.tag x y) >>= push) w (y :: x :: s) (.ok ()) w (v :: s) :=
    does_pop.bind (does_pop.bind ((does_orFail_ok hv).bind does_push))
  cases op <;> first | exact hrun | cases hop

theorem performs_binary_fault (hop : isBinary op) {c : Cause}
    (hc : Arithmetic.binary op i.tag x y = .error c) :
    Does (perform op i f g) w (y :: x :: s) (.error (.fault (w.locate c))) w s := by
  have hrun : Does (pop >>= fun y => pop >>= fun x =>
      orFail (Arithmetic.binary op i.tag x y) >>= push) w (y :: x :: s)
      (.error (.fault (w.locate c))) w s :=
    does_pop.bind (does_pop.bind (does_orFail_error hc).bind_error)
  cases op <;> first | exact hrun | cases hop

theorem performs_unary (hop : op = .neg ∨ op = .compl) (hv : Arithmetic.unary op i.tag x = .ok v) :
    Does (perform op i f g) w (x :: s) (.ok ()) w (v :: s) := by
  rcases hop with rfl | rfl
  · exact does_pop.bind ((does_orFail_ok hv).bind does_push)
  · exact does_pop.bind ((does_orFail_ok hv).bind does_push)

theorem performs_unary_fault (hop : op = .neg ∨ op = .compl) {c : Cause}
    (hc : Arithmetic.unary op i.tag x = .error c) :
    Does (perform op i f g) w (x :: s) (.error (.fault (w.locate c))) w s := by
  rcases hop with rfl | rfl
  · exact does_pop.bind (does_orFail_error hc).bind_error
  · exact does_pop.bind (does_orFail_error hc).bind_error

theorem performs_convert
    (hv : Arithmetic.convert (Tag.ofByte i.operand.toUInt32.toUInt8) i.tag x = .ok v) :
    Does (perform .convert i f g) w (x :: s) (.ok ()) w (v :: s) :=
  does_pop.bind ((does_orFail_ok hv).bind does_push)

theorem performs_convert_fault {c : Cause}
    (hc : Arithmetic.convert (Tag.ofByte i.operand.toUInt32.toUInt8) i.tag x = .error c) :
    Does (perform .convert i f g) w (x :: s) (.error (.fault (w.locate c))) w s :=
  does_pop.bind (does_orFail_error hc).bind_error

end

theorem performs_box (ha : i.operand.toInt = a) {type : String} (ht : w.module.types[a]? = some type) :
    Does (perform .box i f g) w (v :: s) (.ok ()) { w with boxes := w.boxes + 1 }
      (.boxed w.boxes type v :: s) := by
  unfold perform
  dsimp only
  refine Does.get_bind fun m hm => ?_
  rw [← hm.module] at ht
  rw [ha]
  have hbox : Does (apply fun m => m.box type v) w s (.ok (.boxed w.boxes type v))
      { w with boxes := w.boxes + 1 } s := by
    intro n hn
    obtain ⟨cells, top, rfl⟩ := hn.exists_eq
    exact ⟨_, rfl, hn.congr rfl rfl rfl⟩
  exact (does_entry ht).bind (does_pop.bind (hbox.bind does_push))

/-- The text of a value, if writing it comes to an end. -/
theorem does_text {text : String} (h : v.format? w.heap = some text) :
    Does (Action.text v) w s (.ok text) w s := by
  refine Does.get_bind fun m hm => ?_
  rw [hm.heap, h]
  exact does_pure text

theorem does_text_endless (h : v.format? w.heap = none) :
    Does (Action.text v) w s (.error (.crash none)) w s := by
  refine Does.get_bind fun m hm => ?_
  rw [hm.heap, h]
  exact does_throw _

theorem performs_unbox (ha : i.operand.toInt = a) {wanted : String}
    (ht : w.module.types[a]? = some wanted) {x : Value}
    (h : Does (unbox wanted x) w s (.ok v) w' s) :
    Does (perform .unbox i f g) w (x :: s) (.ok ()) w' (v :: s) := by
  unfold perform
  dsimp only
  refine Does.get_bind fun m hm => ?_
  rw [← hm.module] at ht
  rw [ha]
  exact (does_entry ht).bind (does_pop.bind (h.bind does_push))

theorem performs_unbox_error (ha : i.operand.toInt = a) {wanted : String}
    (ht : w.module.types[a]? = some wanted) {x : Value} {e : Stop}
    (h : Does (unbox wanted x) w s (.error e) w' s) :
    Does (perform .unbox i f g) w (x :: s) (.error e) w' s := by
  unfold perform
  dsimp only
  refine Does.get_bind fun m hm => ?_
  rw [← hm.module] at ht
  rw [ha]
  exact (does_entry ht).bind (does_pop.bind h.bind_error)

section

variable {type : String} {size : Value}

theorem performs_newArray (ha : i.operand.toInt = a) (ht : w.module.types[a]? = some type) {n : Nat}
    (hsize : size.index = .ok n) (hmost : (n : Int) ≤ mostElements) :
    Does (perform .newArray i f g) w (size :: s) (.ok ())
      { w with heap := w.heap.push ⟨type, Array.replicate n (Value.zero type)⟩ }
      (.array w.heap.size :: s) := by
  unfold perform newArray
  dsimp only
  refine Does.get_bind fun m hm => ?_
  rw [← hm.module] at ht
  rw [ha]
  refine (does_entry ht).bind (does_pop.bind ((does_orFail_ok hsize).bind ?_))
  rw [if_neg (by omega), if_neg (by omega)]
  have hadd : Does (apply fun m => m.addArray ⟨type, Array.replicate n (Value.zero type)⟩) w s
      (.ok (.array w.heap.size))
      { w with heap := w.heap.push ⟨type, Array.replicate n (Value.zero type)⟩ } s := by
    intro m' hm'
    obtain ⟨cells, top, rfl⟩ := hm'.exists_eq
    exact ⟨_, rfl, hm'.congr rfl rfl rfl⟩
  exact hadd.bind does_push

theorem performs_newArray_fault (ha : i.operand.toInt = a) (ht : w.module.types[a]? = some type)
    {c : Cause} (hsize : size.index = .error c) :
    Does (perform .newArray i f g) w (size :: s) (.error (.fault (w.locate c))) w s := by
  unfold perform newArray
  dsimp only
  refine Does.get_bind fun m hm => ?_
  rw [← hm.module] at ht
  rw [ha]
  exact (does_entry ht).bind (does_pop.bind (does_orFail_error hsize).bind_error)

theorem performs_newArray_negative (ha : i.operand.toInt = a) (ht : w.module.types[a]? = some type)
    {n : Int} (hsize : size.index = .ok n) (hneg : n < 0) :
    Does (perform .newArray i f g) w (size :: s) (.error (.fault (w.locate (.negativeSize n)))) w
      s := by
  unfold perform newArray
  dsimp only
  refine Does.get_bind fun m hm => ?_
  rw [← hm.module] at ht
  rw [ha]
  refine (does_entry ht).bind (does_pop.bind ((does_orFail_ok hsize).bind ?_))
  rw [if_pos hneg]
  exact does_fail _

theorem performs_newArray_huge (ha : i.operand.toInt = a) (ht : w.module.types[a]? = some type)
    {n : Int} (hsize : size.index = .ok n) (hmost : mostElements < n) :
    Does (perform .newArray i f g) w (size :: s) (.error (.crash none)) w s := by
  have hpositive : ¬n < 0 := by
    simp only [mostElements] at hmost
    omega
  unfold perform newArray
  dsimp only
  refine Does.get_bind fun m hm => ?_
  rw [← hm.module] at ht
  rw [ha]
  refine (does_entry ht).bind (does_pop.bind ((does_orFail_ok hsize).bind ?_))
  rw [if_neg hpositive, if_pos hmost]
  exact does_throw _

end

section

variable {target index : Value}

theorem performs_loadElem (h : w.element target index = .ok v) :
    Does (perform .loadElem i f g) w (index :: target :: s) (.ok ()) w (v :: s) := by
  refine does_pop.bind (does_pop.bind (Does.get_bind fun m hm => ?_))
  obtain ⟨cells, top, rfl⟩ := hm.exists_eq
  exact (does_orFail_ok h).bind does_push

theorem performs_loadElem_fault {c : Cause} (h : w.element target index = .error c) :
    Does (perform .loadElem i f g) w (index :: target :: s) (.error (.fault (w.locate c))) w s := by
  refine does_pop.bind (does_pop.bind (Does.get_bind fun m hm => ?_))
  obtain ⟨cells, top, rfl⟩ := hm.exists_eq
  exact (does_orFail_error h).bind_error

theorem performs_storeElem {ref k : Nat} (h : w.place target index = .ok (ref, k)) :
    Does (perform .storeElem i f g) w (v :: index :: target :: s) (.ok ()) (w.setElement ref k v)
      (v :: s) := by
  refine does_pop.bind (does_pop.bind (does_pop.bind (Does.get_bind fun m hm => ?_)))
  obtain ⟨cells, top, rfl⟩ := hm.exists_eq
  exact (does_orFail_ok h).bind (Does.bind (does_modify fun _ _ => rfl) does_push)

theorem performs_storeElem_fault {c : Cause} (h : w.place target index = .error c) :
    Does (perform .storeElem i f g) w (v :: index :: target :: s) (.error (.fault (w.locate c))) w
      s := by
  refine does_pop.bind (does_pop.bind (does_pop.bind (Does.get_bind fun m hm => ?_)))
  obtain ⟨cells, top, rfl⟩ := hm.exists_eq
  exact (does_orFail_error h).bind_error

theorem performs_length {n : Nat} (h : w.length target = .ok n) :
    Does (perform .length i f g) w (target :: s) (.ok ()) w (.int (Int64.ofNat n) :: s) := by
  refine does_pop.bind (Does.get_bind fun m hm => ?_)
  obtain ⟨cells, top, rfl⟩ := hm.exists_eq
  exact (does_orFail_ok h).bind does_push

theorem performs_length_fault {c : Cause} (h : w.length target = .error c) :
    Does (perform .length i f g) w (target :: s) (.error (.fault (w.locate c))) w s := by
  refine does_pop.bind (Does.get_bind fun m hm => ?_)
  obtain ⟨cells, top, rfl⟩ := hm.exists_eq
  exact (does_orFail_error h).bind_error

end

theorem performs_jump (ha : i.operand.toInt = a) :
    Does (perform .jump i f g) w s (.ok ()) (w.goto a) s := by
  unfold perform
  dsimp only
  rw [ha]
  exact does_jump _

theorem performs_jumpTrue (ha : i.operand.toInt = a) (b : Bool) :
    Does (perform .jumpTrue i f g) w (.bool b :: s) (.ok ()) (if b then w.goto a else w) s := by
  unfold perform
  dsimp only
  rw [ha]
  refine does_pop.bind ?_
  cases b with
  | true => exact does_jump _
  | false => exact does_pure ()

theorem performs_jumpTrue_fault (h : ∀ b, v ≠ .bool b) :
    Does (perform .jumpTrue i f g) w (v :: s) (.error (.fault (w.locate .branchOnNonBool))) w s := by
  refine does_pop.bind ?_
  cases v with
  | bool b => exact absurd rfl (h b)
  | _ => exact does_fail _

section

variable {key : String} {r : Routine} {args : List Value}

theorem performs_callNative (ha : i.operand.toInt = a) (hn : w.natives[a]? = some ⟨key, .routine r⟩)
    (hargs : args.length = r.arity) (h : Does (callRoutine key r args) w s (.ok v) w' s) :
    Does (perform .callNative i f g) w (args.reverse ++ s) (.ok ()) w'
      (if r.returns then v :: s else s) := by
  unfold perform callNative
  dsimp only
  refine Does.get_bind fun m hm => ?_
  rw [← hm.natives] at hn
  rw [ha]
  refine (does_entry hn).bind ?_
  dsimp only
  rw [← hargs]
  refine (does_popArgs args).bind (h.bind ?_)
  cases r.returns with
  | true => exact does_push
  | false => exact does_pure ()

theorem performs_callNative_error (ha : i.operand.toInt = a)
    (hn : w.natives[a]? = some ⟨key, .routine r⟩) (hargs : args.length = r.arity) {e : Stop}
    (h : Does (callRoutine key r args) w s (.error e) w' s) :
    Does (perform .callNative i f g) w (args.reverse ++ s) (.error e) w' s := by
  unfold perform callNative
  dsimp only
  refine Does.get_bind fun m hm => ?_
  rw [← hm.natives] at hn
  rw [ha]
  refine (does_entry hn).bind ?_
  dsimp only
  rw [← hargs]
  exact (does_popArgs args).bind h.bind_error

end

theorem performs_call (ha : i.operand.toInt = a) {r : Except Stop Unit}
    (h : Does (enter a) w s r w' s') : Does (perform .call i f g) w s r w' s' := by
  unfold perform
  dsimp only
  rw [ha]
  exact h

end Action

/-- A machine is about to take an instruction of a call. -/
structure Machine.At (w : Machine) (f : Activation) (rest : List Activation) (k n : Nat) (g : Method)
    (i : Instruction) : Prop where
  calls : w.calls = f :: rest
  index : f.method = k
  next : f.next = n
  method : w.module.method? k = some g
  code : g.code[n]? = some i

namespace Action

variable {w w' : Machine} {s s' : List Value} {v : Value} {i : Instruction} {f : Activation}
  {rest : List Activation} {g : Method} {k n : Nat} (h : w.At f rest k n g i) (depth : Nat)

include h

theorem does_step {op : Operation} (hop : i.operation? = some op) (hret : op ≠ .ret)
    (hretVoid : op ≠ .retVoid) (hp : Does (perform op i f g) (w.goto (n + 1)) s (.ok ()) w' s') :
    Does (step depth) w s (.ok none) w' s' := by
  refine (does_fetch h.calls h.index h.next h.method h.code).bind ?_
  dsimp only
  rw [hop]
  cases op <;> first | exact absurd rfl hret | exact absurd rfl hretVoid | exact hp.bind (does_pure none)

theorem does_step_error {op : Operation} (hop : i.operation? = some op) (hret : op ≠ .ret)
    (hretVoid : op ≠ .retVoid) {e : Stop}
    (hp : Does (perform op i f g) (w.goto (n + 1)) s (.error e) w' s') :
    Does (step depth) w s (.error e) w' s' := by
  refine (does_fetch h.calls h.index h.next h.method h.code).bind ?_
  dsimp only
  rw [hop]
  cases op <;> first | exact absurd rfl hret | exact absurd rfl hretVoid | exact hp.bind_error

theorem goto_calls (next : Int) : (w.goto next).calls = { f with next } :: rest := by
  simp [goto, h.calls]

omit h in
/-- A call has no more instructions. -/
theorem does_step_end (hcalls : w.calls = f :: rest) (hk : f.method = k) (hn : f.next = n)
    (hg : w.module.method? k = some g) (hnone : g.code[n]? = none) :
    Does (step depth) w s (.error (.fault (w.locate (.fellOffEnd g.name)))) w s := by
  refine Does.bind_error (Does.get_bind fun m hm => ?_)
  rw [hm.calls, hcalls]
  dsimp only
  rw [hk]
  refine (does_methodAt hg).bind ?_
  rw [hn, if_neg (by omega), Int.toNat_natCast, hnone]
  exact does_fail _

/-- A return from a call that was made in the module leaves the result to the caller. -/
theorem does_step_ret (hop : i.operation? = some .ret) {vs : List Value} (hbase : f.base = s.length) :
    Does (step depth) w (v :: (vs ++ s)) (.ok (if rest.length = depth then some v else none))
      { w with calls := rest } (if rest.length = depth then s else v :: s) := by
  refine (does_fetch h.calls h.index h.next h.method h.code).bind ?_
  dsimp only
  rw [hop]
  have hcalls := goto_calls h (n + 1)
  have hleave : Does leave (w.goto (n + 1)) (vs ++ s) (.ok ()) { w with calls := rest } s := by
    have hrun : Does leave (w.goto (n + 1)) (vs ++ s) (.ok ())
        { w.goto (n + 1) with calls := rest } s := does_leave hcalls hbase
    simpa [goto, h.calls] using hrun
  refine does_pop.bind (hleave.bind (Does.get_bind fun m hm => ?_))
  rw [show m.calls = rest from hm.calls]
  by_cases hdepth : rest.length = depth
  · rw [if_pos hdepth, if_pos hdepth, if_pos hdepth]
    exact does_pure _
  · rw [if_neg hdepth, if_neg hdepth, if_neg hdepth]
    exact does_push.bind (does_pure none)

theorem does_step_retVoid (hop : i.operation? = some .retVoid) {vs : List Value}
    (hbase : f.base = s.length) :
    Does (step depth) w (vs ++ s) (.ok (if rest.length = depth then some .null else none))
      { w with calls := rest } s := by
  refine (does_fetch h.calls h.index h.next h.method h.code).bind ?_
  dsimp only
  rw [hop]
  have hcalls := goto_calls h (n + 1)
  have hleave : Does leave (w.goto (n + 1)) (vs ++ s) (.ok ()) { w with calls := rest } s := by
    have hrun : Does leave (w.goto (n + 1)) (vs ++ s) (.ok ())
        { w.goto (n + 1) with calls := rest } s := does_leave hcalls hbase
    simpa [goto, h.calls] using hrun
  refine hleave.bind (Does.get_bind fun m hm => ?_)
  rw [show m.calls = rest from hm.calls]
  by_cases hdepth : rest.length = depth
  · rw [if_pos hdepth, if_pos hdepth]
    exact does_pure _
  · rw [if_neg hdepth, if_neg hdepth]
    exact does_pure _

end Action
end TypedScript
