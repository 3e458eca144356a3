import TypedScript.Proofs.Machine.Instructions
import TypedScript.Proofs.Machine.Ranges

/-!
# Routines give values of their result type

Called with arguments of the types of one of its signatures, a routine of the machine gives a value of
the result type, or it stops for a reason that a program can come to. It changes nothing but the
streams.
-/

namespace TypedScript

namespace Number

theorem le_of_digitsFrom {base most soFar n : Nat} {cs : List Char} (hsoFar : soFar ≤ most)
    (h : digitsFrom base most soFar cs = .ok n) : n ≤ most := by
  induction cs generalizing soFar with
  | nil =>
    cases h
    exact hsoFar
  | cons c rest ih =>
    unfold digitsFrom at h
    cases hd : digitValue? c with
    | none =>
      rw [hd] at h
      cases h
    | some d =>
      rw [hd] at h
      dsimp only at h
      by_cases hbase : base ≤ d
      · rw [if_pos hbase] at h
        cases h
      · rw [if_neg hbase] at h
        by_cases hmost : most < soFar * base + d
        · rw [if_pos hmost] at h
          cases h
        · rw [if_neg hmost] at h
          exact ih (Nat.le_of_not_lt hmost) h

theorem le_of_natural {base most n : Nat} {cs : List Char} (h : natural base most cs = .ok n) :
    n ≤ most := by
  unfold natural at h
  split at h
  · cases h
  · exact le_of_digitsFrom (Nat.zero_le most) h

theorem exists_of_toOption {α ε : Type} {r : Except ε α} {a : α} (h : r.toOption = some a) :
    r = .ok a := by
  cases r with
  | error e => cases h
  | ok b =>
    cases h
    rfl

/-- A signed number that was read is within the range of its width. -/
theorem signed?_range {width : Nat} {cs : List Char} {v : Int} (h : signed? width cs = some v) :
    -(2 ^ (width - 1) : Int) ≤ v ∧ v < 2 ^ (width - 1) := by
  have hpos : 0 < 2 ^ (width - 1) := Nat.two_pow_pos _
  have hcast : ((2 ^ (width - 1) : Nat) : Int) = 2 ^ (width - 1) := by norm_cast
  unfold signed? at h
  split at h
  · obtain ⟨n, hn, hv⟩ := Option.bind_eq_some_iff.mp h
    obtain rfl := Option.some.inj hv
    have hle : n ≤ 2 ^ (width - 1) := le_of_natural (exists_of_toOption hn)
    omega
  · obtain ⟨n, hn, hv⟩ := Option.bind_eq_some_iff.mp h
    obtain rfl := Option.some.inj hv
    have hle : n ≤ 2 ^ (width - 1) - 1 := le_of_natural (exists_of_toOption hn)
    omega
  · obtain ⟨n, hn, hv⟩ := Option.bind_eq_some_iff.mp h
    obtain rfl := Option.some.inj hv
    have hle : n ≤ 2 ^ (width - 1) - 1 := le_of_natural (exists_of_toOption hn)
    omega

theorem unsigned?_range {width n : Nat} {cs : List Char} (h : unsigned? width cs = some n) :
    n < 2 ^ width := by
  have hpos : 0 < 2 ^ width := Nat.two_pow_pos _
  have hle : n ≤ 2 ^ width - 1 := le_of_natural (exists_of_toOption h)
  omega

end Number

open Arithmetic

/-- What is read from a text for a type is one of its values. -/
theorem Value.represents_of_parse? {heap : Heap} {b : Builtin} {text : String} {v : Value}
    (h : Value.parse? b.tag text = some v) : v.Represents heap b := by
  have hsigned : ∀ (t : Tag) {v : Int} {cs : List Char}, t.isSigned →
      Number.signed? t.bits cs = some v → Literal.fitsSigned (Int64.ofInt v) t.bits := by
    intro t v cs ht hv
    have hrange := Number.signed?_range hv
    rw [fitsSigned_eq_true]
    have hsmall : (2 ^ (t.bits - 1) : Int) ≤ 2 ^ 63 := by cases t <;> simp [Tag.bits]
    rw [Int64.toInt_ofInt_of_le (by omega) (by omega)]
    exact .inr hrange
  have hunsigned : ∀ (t : Tag) {n : Nat} {cs : List Char}, t.isUnsigned →
      Number.unsigned? t.bits cs = some n →
        Literal.fitsUnsigned (UInt64.ofNat n).toNat t.bits := by
    intro t n cs ht hn
    have hrange := Number.unsigned?_range hn
    have hsmall : 2 ^ t.bits ≤ 2 ^ 64 := by cases t <;> simp [Tag.bits]
    rw [fitsUnsigned_eq_true, UInt64.toNat_ofNat_of_lt' (Nat.lt_of_lt_of_le hrange hsmall)]
    exact .inr hrange
  cases b with
  | i8 | i16 | i32 | i64 =>
    obtain ⟨n, hn, rfl⟩ := Option.map_eq_some_iff.mp h
    exact .int rfl (hsigned _ rfl hn)
  | u8 | u16 | u32 | u64 =>
    obtain ⟨n, hn, rfl⟩ := Option.map_eq_some_iff.mp h
    exact .uint rfl (hunsigned _ rfl hn)
  | f32 | f64 =>
    obtain ⟨x, -, rfl⟩ := Option.map_eq_some_iff.mp h
    exact .float x rfl
  | bool =>
    unfold parse? at h
    dsimp only [Builtin.tag] at h
    split at h
    · cases h
      exact .bool true
    · split at h
      · cases h
        exact .bool false
      · cases h
  | char =>
    unfold parse? at h
    dsimp only [Builtin.tag] at h
    split at h
    · split at h
      · cases h
      · cases h
        exact .char _
    · cases h
  | string | object | void => cases h

namespace Machine

def Streams (w w' : Machine) : Prop :=
  ∃ input output clock generator, w' = { w with input, output, clock, generator }

theorem Streams.refl (w : Machine) : w.Streams w := ⟨_, _, _, _, rfl⟩

def back (w : Machine) : Machine :=
  { w with calls := match w.calls with
    | [] => []
    | f :: rest => { f with next := f.next - 1 } :: rest }

end Machine

namespace Action

/-- What can come of a call of a routine with arguments of its types: a value of the result type, a
fault that programs can come to, the end of the program, waiting for input, or, if the routine writes its
arguments as text, a text that never comes to an end. -/
inductive Settles (w : Machine) (s : List Value) (result : Builtin) (writes : Bool) (args : List Value)
    (a : Action Value) : Prop
  | value {v : Value} {w' : Machine} : Does a w s (.ok v) w' s → w.Streams w' →
    (result ≠ .void → v.Represents w.heap result) → Settles w s result writes args a
  | fault {c : Cause} : Does a w s (.error (.fault (w.locate c))) w s → c.isExpected →
    Settles w s result writes args a
  | exit {code : Int} : Does a w s (.error (.exit code)) w s → Settles w s result writes args a
  | await : Does a w s (.error .awaitInput) w.back s → args = [] → Settles w s result writes args a
  | endless {v : Value} : Does a w s (.error (.crash none)) w s → writes → v ∈ args →
    v.format? w.heap = none → Settles w s result writes args a

variable {w : Machine} {s : List Value} {key : String} {writes : Bool}

theorem does_randomBits (w : Machine) (s : List Value) : ∃ bits generator,
    Does randomBits w s (.ok bits) { w with generator } s := by
  refine ⟨w.generator.next.1, w.generator.next.2, fun m hm => ?_⟩
  have hrun : randomBits m =
      .ok m.generator.next.1 { m with generator := m.generator.next.2 } := rfl
  obtain ⟨cells, top, rfl⟩ := hm.exists_eq
  exact ⟨_, hrun, hm.congr rfl rfl rfl⟩

/-- A random number between two bounds that are not too far apart. -/
theorem randomBetween_settles {low high : Int64} (hlow : Literal.fitsSigned low 32)
    (hhigh : Literal.fitsSigned high 32) (args : List Value) :
    Settles w s .i32 writes args (randomBetween key low high) := by
  have hrange := fitsSigned_eq_true.mp hlow
  have hrange' := fitsSigned_eq_true.mp hhigh
  norm_num at hrange hrange'
  unfold randomBetween
  by_cases hempty : high < low
  · rw [if_pos hempty]
    exact .fault (does_fail _) rfl
  rw [if_neg hempty]
  by_cases hone : high = low
  · rw [if_pos hone]
    exact .value (does_pure _) (.refl w) fun _ => .int rfl hlow
  rw [if_neg hone]
  have hlt : low.toInt < high.toInt := by
    have hle : ¬high.toInt < low.toInt := fun h => hempty (Int64.lt_iff_toInt_lt.mpr h)
    have hne : high.toInt ≠ low.toInt := fun h => hone (Int64.toInt_inj.mp h)
    omega
  have hsize : (high - low).toInt = high.toInt - low.toInt := by
    rw [Int64.toInt_sub]
    exact Int.bmod_eq_of_le (by norm_num; omega) (by norm_num; omega)
  have hpositive : ¬high - low ≤ 0 := by
    rw [Int64.le_iff_toInt_le, hsize]
    simp
    omega
  rw [if_neg hpositive]
  obtain ⟨bits, generator, hbits⟩ := does_randomBits w s
  refine .value (hbits.bind (does_pure _)) ⟨_, _, _, _, rfl⟩ fun _ => .int rfl ?_
  have hmod : bits.toNat % (high - low).toInt.toNat < (high - low).toInt.toNat :=
    Nat.mod_lt _ (by omega)
  generalize bits.toNat % (high - low).toInt.toNat = k at hmod
  have hk : (Int64.ofNat k).toInt = k := by
    rw [Int64.toInt_ofNat_of_lt]
    norm_num
    omega
  have hsum : (low + Int64.ofNat k).toInt = low.toInt + k := by
    rw [Int64.toInt_add, hk]
    exact Int.bmod_eq_of_le (by norm_num; omega) (by norm_num; omega)
  rw [fitsSigned_eq_true, hsum]
  norm_num [Builtin.tag, Tag.bits]
  omega

theorem text_settles {v : Value} {args : List Value} (hwrites : writes) (hv : v ∈ args)
    {result : Builtin} {f : String → Action Value}
    (h : ∀ text, Settles w s result writes args (f text)) :
    Settles w s result writes args (text v >>= f) := by
  cases htext : v.format? w.heap with
  | none => exact .endless (does_text_endless htext).bind_error hwrites hv htext
  | some text =>
    cases h text with
    | value hdoes hstreams hresult => exact .value ((does_text htext).bind hdoes) hstreams hresult
    | fault hdoes hc => exact .fault ((does_text htext).bind hdoes) hc
    | exit hdoes => exact .exit ((does_text htext).bind hdoes)
    | await hdoes hnone => exact .await ((does_text htext).bind hdoes) hnone
    | endless hdoes hwrites hmem hnone =>
      exact .endless ((does_text htext).bind hdoes) hwrites hmem hnone

theorem pure_settles {v : Value} {result : Builtin} {args : List Value}
    (hv : result ≠ .void → v.Represents w.heap result) : Settles w s result writes args (pure v) :=
  .value (does_pure v) (.refl w) hv

theorem write_settles (text : String) (args : List Value) : Settles w s .void writes args (do
    modify fun m => m.write text
    return .null) := by
  have hwrite : Does (modify fun m => m.write text) w s (.ok ()) (w.write text) s :=
    does_modify fun _ _ => rfl
  exact .value (hwrite.bind (does_pure _)) ⟨_, _, _, _, rfl⟩ fun h => absurd rfl h

theorem does_await {α : Type} : Does (await : Action α) w s (.error .awaitInput) w.back s := by
  refine Does.bind (?_ : Does _ w s (.ok ()) w.back s) (does_throw _)
  refine does_modify fun cells top => ?_
  cases w with
  | mk _ _ _ _ _ calls => cases calls <;> rfl

theorem input_settles : Settles w s .string writes [] (callRoutine key .input []) := by
  cases hline : w.input.line? with
  | none =>
    refine .await (Does.get_bind fun m hm => ?_) rfl
    obtain ⟨cells, top, rfl⟩ := hm.exists_eq
    simp only [hline]
    exact does_await
  | some p =>
    have hread : Does (modify fun m => { m with input := p.2 } : Action Unit) w s (.ok ())
        { w with input := p.2 } s := does_modify fun _ _ => rfl
    have hrun : Does (callRoutine key .input []) w s (.ok (.string p.1)) { w with input := p.2 } s := by
      refine Does.get_bind fun m hm => ?_
      obtain ⟨cells, top, rfl⟩ := hm.exists_eq
      simp only [hline]
      exact hread.bind (does_pure _)
    exact .value hrun ⟨_, _, _, _, rfl⟩ fun _ => .string p.1

theorem clock_settles (args : List Value) : Settles w s .i64 writes args (callRoutine key .clock []) := by
  have htick : Does (modify fun m => { m with clock := { m.clock with
      now := w.clock.now + w.clock.tick } } : Action Unit) w s (.ok ())
      { w with clock := { w.clock with now := w.clock.now + w.clock.tick } } s :=
    does_modify fun _ _ => rfl
  have hrun : Does (callRoutine key .clock []) w s
      (.ok (.int (Int64.ofInt (w.clock.now + w.clock.tick))))
      { w with clock := { w.clock with now := w.clock.now + w.clock.tick } } s := by
    refine Does.get_bind fun m hm => ?_
    obtain ⟨cells, top, rfl⟩ := hm.exists_eq
    exact htick.bind (does_pure _)
  exact .value hrun ⟨_, _, _, _, rfl⟩ fun _ => .int rfl rfl

end Action

namespace Routine

/-- Whether a routine makes texts of its arguments. -/
def writes : Routine → Bool
  | print _ | concat | toText => true
  | _ => false

/-- The types of arguments that a routine takes and of the result that it gives for them. -/
inductive Takes : Routine → Builtin → List Builtin → Prop
  | printText (line : Bool) : Takes (.print line) .void [.string]
  | printObject (line : Bool) : Takes (.print line) .void [.object]
  | newline : Takes .newline .void []
  | input : Takes .input .string []
  | random : Takes .random .f64 []
  | randomBetween : Takes .randomBetween .i32 [.i32, .i32]
  | absInt : Takes (.abs .i32) .i32 [.i32]
  | absLong : Takes (.abs .i64) .i64 [.i64]
  | absFloat : Takes .absFloat .f64 [.f64]
  | sqrt : Takes .sqrt .f64 [.f64]
  | exit : Takes .exit .void [.i32]
  | clock : Takes .clock .i64 []
  | concatTexts : Takes .concat .string [.string, .string]
  | concatObject : Takes .concat .string [.string, .object]
  | concatText : Takes .concat .string [.object, .string]
  | equalTexts : Takes .equalTexts .bool [.string, .string]
  | equalObjects : Takes .equalObjects .bool [.object, .object]
  | toText : Takes .toText .string [.object]
  | parse (b : Builtin) : Takes (.parse b.tag) b [.string]

theorem takes_of_eq {r : Routine} {result result' : Builtin} {params params' : List Builtin}
    (hr : r.Takes result' params') (h : (⟨.builtin result, params.map .builtin⟩ : Signature) =
      ⟨.builtin result', params'.map .builtin⟩) : r.Takes result params := by
  obtain ⟨hresult, hparams⟩ := Signature.mk.inj h
  have hinj : Function.Injective TypeId.builtin := fun _ _ h => TypeId.builtin.inj h
  rw [hinj hresult, hinj.list_map hparams]
  exact hr

theorem takes_of_mem_signatures {r : Routine} {result : Builtin} {params : List Builtin}
    (h : ⟨.builtin result, params.map .builtin⟩ ∈ r.signatures) : r.Takes result params := by
  cases r with
  | abs t =>
    obtain ⟨b, hb, heq⟩ := List.mem_map.mp h
    obtain ⟨hmem, ht⟩ := List.mem_filter.mp hb
    obtain rfl := of_decide_eq_true ht
    rcases List.mem_cons.mp hmem with rfl | hmem
    · exact takes_of_eq .absInt heq.symm
    · obtain rfl := List.mem_singleton.mp hmem
      exact takes_of_eq .absLong heq.symm
  | parse t =>
    obtain ⟨b, hb, heq⟩ := List.mem_map.mp h
    obtain ⟨-, ht⟩ := List.mem_filter.mp hb
    rw [Bool.and_eq_true] at ht
    obtain rfl := of_decide_eq_true ht.2
    exact takes_of_eq (.parse b) heq.symm
  | print line =>
    rcases List.mem_cons.mp h with h | h
    · exact takes_of_eq (.printText line) h
    · exact takes_of_eq (.printObject line) (List.mem_singleton.mp h)
  | concat =>
    rcases List.mem_cons.mp h with h | h
    · exact takes_of_eq .concatTexts h
    · rcases List.mem_cons.mp h with h | h
      · exact takes_of_eq .concatObject h
      · exact takes_of_eq .concatText (List.mem_singleton.mp h)
  | newline => exact takes_of_eq .newline (List.mem_singleton.mp h)
  | input => exact takes_of_eq .input (List.mem_singleton.mp h)
  | random => exact takes_of_eq .random (List.mem_singleton.mp h)
  | randomBetween => exact takes_of_eq .randomBetween (List.mem_singleton.mp h)
  | absFloat => exact takes_of_eq .absFloat (List.mem_singleton.mp h)
  | sqrt => exact takes_of_eq .sqrt (List.mem_singleton.mp h)
  | exit => exact takes_of_eq .exit (List.mem_singleton.mp h)
  | clock => exact takes_of_eq .clock (List.mem_singleton.mp h)
  | equalTexts => exact takes_of_eq .equalTexts (List.mem_singleton.mp h)
  | equalObjects => exact takes_of_eq .equalObjects (List.mem_singleton.mp h)
  | toText => exact takes_of_eq .toText (List.mem_singleton.mp h)

end Routine

namespace Action

variable {w : Machine} {s : List Value} {key : String}

/-- Routines keep to their signatures. -/
theorem callRoutine_settles {r : Routine} {result : Builtin} {params : List Builtin}
    (hr : r.Takes result params) {args : List Value}
    (hargs : List.Forall₂ (fun v b => v.Represents w.heap b) args params) :
    Settles w s result r.writes args (callRoutine key r args) := by
  cases hr with
  | printText line | printObject line =>
    obtain _ | ⟨hv, _ | _⟩ := hargs
    exact text_settles rfl (by simp) fun text => write_settles _ _
  | newline =>
    obtain _ | _ := hargs
    exact write_settles _ _
  | input =>
    obtain _ | _ := hargs
    exact input_settles
  | random =>
    obtain _ | _ := hargs
    obtain ⟨bits, generator, hbits⟩ := does_randomBits w s
    exact .value (hbits.bind (does_pure _)) ⟨_, _, _, _, rfl⟩ fun _ => .float _ rfl
  | randomBetween =>
    obtain _ | ⟨hlow, _ | ⟨hhigh, _ | _⟩⟩ := hargs
    obtain ⟨low, rfl, hfits⟩ := hlow.exists_int rfl
    obtain ⟨high, rfl, hfits'⟩ := hhigh.exists_int rfl
    exact randomBetween_settles hfits hfits' _
  | absInt | absLong =>
    obtain _ | ⟨hv, _ | _⟩ := hargs
    obtain ⟨v, rfl, hfits⟩ := hv.exists_int rfl
    refine pure_settles fun _ => .int rfl ?_
    split
    · exact fitsSigned_wrapSigned rfl _
    · exact hfits
  | absFloat | sqrt =>
    obtain _ | ⟨hv, _ | _⟩ := hargs
    obtain ⟨v, rfl⟩ := hv.exists_float rfl
    exact pure_settles fun _ => .float _ rfl
  | exit =>
    obtain _ | ⟨hv, _ | _⟩ := hargs
    obtain ⟨v, rfl, -⟩ := hv.exists_int rfl
    exact .exit (does_throw _)
  | clock =>
    obtain _ | _ := hargs
    exact clock_settles _
  | concatTexts | concatObject | concatText =>
    obtain _ | ⟨hv, _ | ⟨hw, _ | _⟩⟩ := hargs
    exact text_settles rfl (by simp) fun _ => text_settles rfl (by simp) fun _ =>
      pure_settles fun _ => .string _
  | equalTexts =>
    obtain _ | ⟨hv, _ | ⟨hw, _ | _⟩⟩ := hargs
    obtain ⟨x, rfl⟩ := hv.exists_string
    obtain ⟨y, rfl⟩ := hw.exists_string
    exact pure_settles fun _ => .bool _
  | equalObjects =>
    obtain _ | ⟨hv, _ | ⟨hw, _ | _⟩⟩ := hargs
    exact pure_settles fun _ => .bool _
  | toText =>
    obtain _ | ⟨hv, _ | _⟩ := hargs
    exact text_settles rfl (by simp) fun _ => pure_settles fun _ => .string _
  | parse =>
    obtain _ | ⟨hv, _ | _⟩ := hargs
    obtain ⟨x, rfl⟩ := hv.exists_string
    unfold callRoutine
    dsimp only
    cases hparse : Value.parse? result.tag x with
    | none => exact .fault (does_fail _) rfl
    | some v => exact pure_settles fun _ => Value.represents_of_parse? hparse

end Action
end TypedScript
