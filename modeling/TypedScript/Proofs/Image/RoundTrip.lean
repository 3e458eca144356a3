import Mathlib.Data.List.ReduceOption
import Mathlib.Data.Nat.Digits.Defs
import TypedScript.Image.Basic
import TypedScript.Proofs.Image.Cbor
import TypedScript.Proofs.Text.Decoding

/-!
# Reading back images

A module is read back from its image, with the identifier of its content, if none of its lists is
longer than what is read; otherwise the image is refused. The identifier and the image do not depend
on the identifier that the module had before, and modules with the same image are the same except for
that.
-/

namespace TypedScript
/-! ### Identifiers -/

namespace Text

theorem length_bytes_le (s : String) : (bytes s).length ≤ 4 * s.length := by
  rw [bytes, ← String.length_toList]
  induction s.toList with
  | nil => simp
  | cons c cs ih =>
    have hc := c.utf8Size_le_four
    rw [List.flatMap_cons, List.length_append, String.length_utf8EncodeChar, List.length_cons]
    omega

theorem length_hexadecimalBytes_le (bytes : List UInt8) :
    (hexadecimalBytes bytes).length ≤ 2 * bytes.length := by
  rw [hexadecimalBytes, String.length_join]
  induction bytes with
  | nil => simp
  | cons b bytes ih =>
    have hdigits : (Nat.toDigits 16 b.toNat).length ≤ 2 :=
      Nat.toDigits_length 16 b.toNat 2 (by decide) b.toNat_lt
    have hbyte : (hexadecimal 2 b.toNat).length ≤ 2 := by
      simp only [hexadecimal, zeroPadded, String.length_ofList, List.length_append,
        List.length_replicate]
      omega
    simp only [List.map_cons, List.sum_cons, List.length_cons] at ih ⊢
    omega

end Text

/-- An identifier is a short text with dashes in it. -/
theorem Uuid.length_text (id : List UInt8) : 4 ≤ (text id).length ∧ (text id).length ≤ 36 := by
  have hpart : ∀ start count,
      (Text.hexadecimalBytes ((id.drop start).take count)).length ≤ 2 * count := by
    intro start count
    have htake := List.length_take_le count (id.drop start)
    have hhex := Text.length_hexadecimalBytes_le ((id.drop start).take count)
    omega
  have h₀ := hpart 0 4
  have h₄ := hpart 4 2
  have h₆ := hpart 6 2
  have h₈ := hpart 8 2
  have h₁₀ := hpart 10 6
  have hdash : "-".length = 1 := by decide
  simp only [text, String.intercalate_cons_cons, String.intercalate_singleton, String.length_append,
    hdash]
  omega

namespace Layout

open Cbor

/-! ### Reading single items -/

section

attribute [local simp] untagged?

theorem text?_ofText (current s : String) : text? current (ofText s) = some s := by
  have hjoin : String.join [s] = s := by simp
  simp [text?, ofText, chunksText?, hjoin]

theorem int?_ofInt {low high v : Int} (current : Int) (h : low ≤ v ∧ v ≤ high) :
    int? low high current (ofInt v) = some v := by
  cases v with
  | ofNat n =>
    have hn : low ≤ (n : Int) ∧ (n : Int) ≤ high := h
    simp [int?, ofInt, hn]
  | negSucc n =>
    have hn : low ≤ -1 - (n : Int) ∧ -1 - (n : Int) ≤ high := by omega
    simp only [int?, ofInt, untagged?, Option.bind_eq_bind, Option.bind_some, if_pos hn]
    congr 1
    omega

theorem byte?_ofInt (current b : UInt8) : byte? current (ofInt b.toNat) = some b := by
  have hb := b.toNat_lt
  rw [byte?, int?_ofInt _ ⟨by omega, by omega⟩]
  simp

theorem list?_map {α β : Type} {one : Item → Option β} {f : α → Item} {p : α → β} {xs : List α}
    (h : ∀ x ∈ xs, one (f x) = some (p x)) : list? one (.sequence (xs.map f)) = some (xs.map p) := by
  have hall : (xs.map f).mapM one = some (xs.map p) := by
    induction xs with
    | nil => rfl
    | cons x xs ih =>
      have hx := h x (by simp)
      have hxs := ih fun y hy => h y (List.mem_cons_of_mem _ hy)
      simp [List.mapM_cons, hx, hxs]
  simp [list?, hall]

end

/-! ### Reading fields that may be left out -/

section

variable {α : Type} {a : α}

theorem elim_ofTextField {g : String → α} (current : String) (s : String) (h : g "" = a) :
    (ofTextField s).elim (some a) (fun i => (text? current i).map g) = some (g s) := by
  by_cases hs : s = ""
  · simp [ofTextField, hs, h]
  · simp [ofTextField, hs, text?_ofText]

theorem elim_ofIntField {g : Int → α} {low high v : Int} (current : Int) (hv : low ≤ v ∧ v ≤ high)
    (h : g 0 = a) :
    (ofIntField v).elim (some a) (fun i => (int? low high current i).map g) = some (g v) := by
  by_cases hzero : v = 0
  · simp [ofIntField, hzero, h]
  · simp [ofIntField, hzero, int?_ofInt _ hv]

theorem elim_ofByteField {g : UInt8 → α} (current b : UInt8) (h : g 0 = a) :
    (ofIntField b.toNat).elim (some a) (fun i => (byte? current i).map g) = some (g b) := by
  by_cases hzero : b = 0
  · simp [ofIntField, hzero, h]
  · have hne : b.toNat ≠ 0 := fun hb => hzero (UInt8.toNat_inj.mp hb)
    simp [ofIntField, hne, byte?_ofInt]

theorem elim_ofList {β γ : Type} {one : Item → Option γ} {f : β → Item} {p : β → γ} {xs : List β}
    {g : List γ → α} (hone : ∀ x ∈ xs, one (f x) = some (p x)) (h : g [] = a) :
    (ofList f xs).elim (some a) (fun i => (list? one i).map g) = some (g (xs.map p)) := by
  cases xs with
  | nil => simp [ofList, h]
  | cons x xs => simp [ofList, list?_map hone, - List.map_cons]

theorem elim_ofItems {β : Type} {one : Item → Option β} {f : β → Item} {xs : List β}
    {g : List β → α} (hone : ∀ x, one (f x) = some x) (h : g [] = a) :
    (ofList f xs).elim (some a) (fun i => (list? one i).map g) = some (g xs) := by
  have hread := elim_ofList (p := id) (g := g) (fun x (_ : x ∈ xs) => hone x) h
  rwa [List.map_id] at hread

end

/-! ### Reading records -/

def flatFields (fields : List (Nat × Option Item)) : List Item :=
  fields.flatMap fun f => (f.2.map fun i => [Item.unsigned f.1, i]).getD []

theorem ofFields_eq (fields : List (Nat × Option Item)) : ofFields fields = .map (flatFields fields) :=
  rfl

theorem fields?_flatFields {α : Type} (set : Nat → Item → α → Option α) (seen : List Nat)
    (fields : List (Nat × Option Item)) (a : α) (hdistinct : (fields.map Prod.fst).Nodup)
    (hseen : ∀ f ∈ fields, f.1 ∉ seen) :
    fields? set seen (flatFields fields) a =
      fields.foldlM (fun a f => f.2.elim (some a) fun i => set f.1 i a) a := by
  induction fields generalizing seen a with
  | nil => simp [flatFields, fields?]
  | cons f fields ih =>
    obtain ⟨k, i?⟩ := f
    simp only [List.map_cons, List.nodup_cons] at hdistinct
    have hk : k ∉ seen := hseen (k, i?) (by simp)
    have hothers : ∀ f ∈ fields, f.1 ∉ seen := fun f hf => hseen f (List.mem_cons_of_mem _ hf)
    cases i? with
    | none =>
      have h := ih seen a hdistinct.2 hothers
      simpa [flatFields, List.foldlM_cons] using h
    | some i =>
      have hnext : ∀ f ∈ fields, f.1 ∉ k :: seen := by
        intro f hf
        rw [List.mem_cons, not_or]
        refine ⟨fun heq => ?_, hothers f hf⟩
        exact hdistinct.1 (heq ▸ List.mem_map_of_mem hf)
      have hcons : flatFields ((k, some i) :: fields) = .unsigned k :: i :: flatFields fields := rfl
      have hunseen : seen.contains k = false := by simpa using hk
      simp only [hcons, fields?, key?, Option.bind_eq_bind, Option.bind_some, hunseen,
        Bool.false_eq_true, if_false, List.foldlM_cons, Option.elim_some]
      cases set k i a with
      | none => rfl
      | some b => exact ih (k :: seen) b hdistinct.2 hnext

theorem record?_ofFields {α : Type} (set : Nat → Item → α → Option α) (start : α)
    {fields : List (Nat × Option Item)} (hdistinct : (fields.map Prod.fst).Nodup) :
    record? set start (ofFields fields) =
      fields.foldlM (fun a f => f.2.elim (some a) fun i => set f.1 i a) start := by
  rw [← fields?_flatFields set [] fields start hdistinct (by simp)]
  rfl

theorem pair?_ofEntry (name type : String) : pair? (ofEntry name type) = some (name, type) := by
  rw [pair?, ofEntry, record?_ofFields _ _ (by simp)]
  simp [text?_ofText]

theorem instruction?_ofInstruction (i : Instruction) : instruction? (ofInstruction i) = some i := by
  have hoperand : (-0x80000000 : Int) ≤ i.operand.toInt ∧ i.operand.toInt ≤ 0x7FFFFFFF :=
    ⟨i.operand.le_toInt, i.operand.toInt_le⟩
  rw [instruction?, ofInstruction, record?_ofFields _ _ (by simp)]
  simp [byte?_ofInt, elim_ofIntField _ hoperand, elim_ofByteField]

theorem constant?_ofConstant (c : Constant) : constant? (ofConstant c) = some c := by
  have hbits : (0 : Int) ≤ c.bits.toNat ∧ (c.bits.toNat : Int) ≤ 0xFFFFFFFFFFFFFFFF := by
    have := c.bits.toNat_lt
    omega
  rw [constant?, ofConstant, record?_ofFields _ _ (by simp)]
  simp [byte?_ofInt, elim_ofIntField _ hbits, elim_ofTextField]

theorem elim_ofEntries {α β : Type} {a : α} {name type : β → String} {g : List (String × String) → α}
    (xs : List β) (h : g [] = a) :
    (ofList (fun x => ofEntry (name x) (type x)) xs).elim (some a)
        (fun i => (list? pair? i).map g) = some (g (xs.map fun x => (name x, type x))) :=
  elim_ofList (fun x _ => pair?_ofEntry (name x) (type x)) h

theorem method?_ofMethod (f : Option Method) : method? (ofMethod f) = some f := by
  cases f with
  | none => rfl
  | some f =>
    simp only [method?, ofMethod]
    rw [record?_ofFields _ _ (by simp)]
    simp [text?_ofText, elim_ofItems, elim_ofEntries, instruction?_ofInstruction, ofFields,
      Function.comp_def]

/-- A module whose indexes have 64 bits is read back from its item. -/
theorem module?_ofModule {m : Module}
    (hinitializer : -0x8000000000000000 ≤ m.initializer ∧ m.initializer ≤ 0x7FFFFFFFFFFFFFFF)
    (hentry : -0x8000000000000000 ≤ m.entry ∧ m.entry ≤ 0x7FFFFFFFFFFFFFFF) :
    module? (ofModule m) = some m := by
  rw [module?, ofModule, record?_ofFields _ _ (by simp)]
  simp [text?_ofText, elim_ofTextField, elim_ofItems, elim_ofEntries, method?_ofMethod,
    constant?_ofConstant, index?, int?_ofInt _ hinitializer, int?_ofInt _ hentry, Module.empty,
    Function.comp_def]

/-! ### What the items are like -/

theorem mem_flatFields {fields : List (Nat × Option Item)} {i : Item} :
    i ∈ flatFields fields ↔
      ∃ f ∈ fields, ∃ content, f.2 = some content ∧ (i = .unsigned f.1 ∨ i = content) := by
  simp only [flatFields, List.mem_flatMap]
  refine exists_congr fun f => and_congr_right fun _ => ?_
  cases f.2 with
  | none => simp
  | some content => simp

theorem length_flatFields (fields : List (Nat × Option Item)) :
    (flatFields fields).length = 2 * fields.countP (·.2.isSome) := by
  induction fields with
  | nil => rfl
  | cons f fields ih =>
    have hcons : flatFields (f :: fields) =
        (f.2.map fun i => [Item.unsigned f.1, i]).getD [] ++ flatFields fields := rfl
    rw [hcons, List.length_append, ih, List.countP_cons]
    cases f.2 with
    | none => simp
    | some i => simp; omega

def InFields (p : Item → Prop) (fields : List (Nat × Option Item)) : Prop :=
  ∀ f ∈ fields, ∀ i, f.2 = some i → p i

theorem plain_ofFields {fields : List (Nat × Option Item)} (hsome : ∃ f ∈ fields, f.2.isSome)
    (hkeys : ∀ f ∈ fields, f.1 < 10) (hlength : fields.length < 10)
    (hplain : InFields Item.Plain fields) : (ofFields fields).Plain := by
  have hcount := List.countP_le_length (p := fun f : Nat × Option Item => f.2.isSome) (l := fields)
  have hpos : 0 < fields.countP (·.2.isSome) := List.countP_pos_iff.mpr hsome
  have hitems := length_flatFields fields
  simp only [ofFields_eq, Item.Plain, plainAll_iff, mem_flatFields]
  refine ⟨fun hnil => ?_, by omega, by omega, ?_⟩
  · rw [hnil] at hitems
    simp only [List.length_nil] at hitems
    omega
  · rintro i ⟨f, hf, content, hcontent, rfl | rfl⟩
    · have := hkeys f hf
      simp only [Item.Plain]
      omega
    · exact hplain f hf i hcontent

theorem short_ofFields {fields : List (Nat × Option Item)} (hlength : fields.length < 10) :
    (ofFields fields).Short ↔ InFields Item.Short fields := by
  have hcount := List.countP_le_length (p := fun f : Nat × Option Item => f.2.isSome) (l := fields)
  have hitems := length_flatFields fields
  simp only [ofFields_eq, Item.Short, shortAll_iff, mem_flatFields, mostEntries]
  constructor
  · rintro ⟨-, h⟩ f hf i hi
    exact h i ⟨f, hf, i, hi, .inr rfl⟩
  · intro h
    refine ⟨by omega, ?_⟩
    rintro i ⟨f, hf, content, hcontent, rfl | rfl⟩
    · trivial
    · exact h f hf i hcontent

theorem depth_ofFields_le {fields : List (Nat × Option Item)} {n : Nat}
    (h : InFields (·.depth ≤ n) fields) : (ofFields fields).depth ≤ n + 1 := by
  simp only [ofFields_eq, Item.depth, Nat.add_le_add_iff_right, depthAll_le, mem_flatFields]
  rintro i ⟨f, hf, content, hcontent, rfl | rfl⟩
  · exact Nat.zero_le _
  · exact h f hf i hcontent

@[simp] theorem inFields_nil {p : Item → Prop} : InFields p [] := by simp [InFields]

@[simp] theorem inFields_cons {p : Item → Prop} {k : Nat} {i? : Option Item}
    {fields : List (Nat × Option Item)} :
    InFields p ((k, i?) :: fields) ↔ (∀ i, i? = some i → p i) ∧ InFields p fields := by
  simp [InFields]

section

variable {α : Type} {f : α → Item} {xs : List α}

theorem eq_of_ofList {i : Item} (h : ofList f xs = some i) : xs ≠ [] ∧ i = .sequence (xs.map f) := by
  by_cases hxs : xs = []
  · simp [ofList, hxs] at h
  · simp only [ofList, List.isEmpty_iff, if_neg hxs, Option.some.injEq] at h
    exact ⟨hxs, h.symm⟩

theorem plain_ofList (hlength : xs.length < 2 ^ 64) (h : ∀ x ∈ xs, (f x).Plain) {i : Item}
    (hi : ofList f xs = some i) : i.Plain := by
  obtain ⟨hxs, rfl⟩ := eq_of_ofList hi
  simp only [Item.Plain, plainAll_iff, List.length_map]
  exact ⟨by simpa using hxs, hlength, by simpa using h⟩

theorem depth_ofList_le {n : Nat} (h : ∀ x ∈ xs, (f x).depth ≤ n) {i : Item}
    (hi : ofList f xs = some i) : i.depth ≤ n + 1 := by
  obtain ⟨-, rfl⟩ := eq_of_ofList hi
  simp only [Item.depth, Nat.add_le_add_iff_right, depthAll_le]
  simpa using h

theorem short_ofList : (∀ i, ofList f xs = some i → i.Short) ↔
    xs.length ≤ mostEntries ∧ ∀ x ∈ xs, (f x).Short := by
  by_cases hxs : xs = []
  · simp [ofList, hxs]
  · simp [ofList, hxs, Item.Short, shortAll_iff]

end

theorem plain_ofText {s : String} (h : (Text.bytes s).length < 2 ^ 64) : (ofText s).Plain :=
  ⟨_, rfl, h⟩

theorem plain_ofInt {v : Int} (hlow : -2 ^ 63 ≤ v) (hhigh : v < 2 ^ 64) : (ofInt v).Plain := by
  cases v with
  | ofNat n =>
    have hn : (n : Int) < 2 ^ 64 := hhigh
    simp only [ofInt, Item.Plain]
    omega
  | negSucc n =>
    simp only [ofInt, Item.Plain]
    omega

theorem eq_of_ofIntField {v : Int} {i : Item} (h : ofIntField v = some i) : i = ofInt v := by
  simp only [ofIntField, Option.ite_none_left_eq_some, Option.some.injEq] at h
  exact h.2.symm

theorem eq_of_ofTextField {s : String} {i : Item} (h : ofTextField s = some i) : i = ofText s := by
  simp only [ofTextField, Option.ite_none_left_eq_some, Option.some.injEq] at h
  exact h.2.symm

/-- Numbers and texts have no levels and nothing that could be too long. -/
def Leaf (i : Item) : Prop := i.depth = 0 ∧ i.Short

theorem leaf_ofText (s : String) : Leaf (ofText s) := ⟨rfl, trivial⟩

theorem leaf_ofInt (v : Int) : Leaf (ofInt v) := by
  cases v with
  | ofNat n => exact ⟨rfl, trivial⟩
  | negSucc n => exact ⟨rfl, trivial⟩

theorem leaf_ofTextField (s : String) (i : Item) (h : ofTextField s = some i) : Leaf i :=
  eq_of_ofTextField h ▸ leaf_ofText s

theorem leaf_ofIntField (v : Int) (i : Item) (h : ofIntField v = some i) : Leaf i :=
  eq_of_ofIntField h ▸ leaf_ofInt v

/-- A record of numbers and texts. -/
theorem leaves_ofFields {fields : List (Nat × Option Item)} (hlength : fields.length < 10)
    (h : InFields Leaf fields) : (ofFields fields).depth ≤ 1 ∧ (ofFields fields).Short :=
  ⟨depth_ofFields_le fun f hf i hi => (h f hf i hi).1.le,
    (short_ofFields hlength).mpr fun f hf i hi => (h f hf i hi).2⟩

theorem leaves_ofEntry (name type : String) :
    (ofEntry name type).depth ≤ 1 ∧ (ofEntry name type).Short :=
  leaves_ofFields (by simp) (by simp [leaf_ofText])

theorem leaves_ofInstruction (i : Instruction) :
    (ofInstruction i).depth ≤ 1 ∧ (ofInstruction i).Short :=
  leaves_ofFields (by simp) (by simpa [leaf_ofInt] using ⟨leaf_ofIntField _, leaf_ofIntField _⟩)

theorem leaves_ofConstant (c : Constant) : (ofConstant c).depth ≤ 1 ∧ (ofConstant c).Short :=
  leaves_ofFields (by simp) (by simpa [leaf_ofInt] using ⟨leaf_ofIntField _, leaf_ofTextField _⟩)

theorem plain_ofIntField {v : Int} (hlow : -2 ^ 63 ≤ v) (hhigh : v < 2 ^ 64) (i : Item)
    (hi : ofIntField v = some i) : i.Plain :=
  eq_of_ofIntField hi ▸ plain_ofInt hlow hhigh

theorem plain_ofTextField {s : String} (h : (Text.bytes s).length < 2 ^ 64) (i : Item)
    (hi : ofTextField s = some i) : i.Plain :=
  eq_of_ofTextField hi ▸ plain_ofText h

theorem plain_ofEntry {name type : String} (hname : (Text.bytes name).length < 2 ^ 64)
    (htype : (Text.bytes type).length < 2 ^ 64) : (ofEntry name type).Plain :=
  plain_ofFields (by simp) (by simp) (by simp) (by simp [plain_ofText hname, plain_ofText htype])

theorem plain_ofByte (b : UInt8) : (ofInt b.toNat).Plain := by
  have hb := b.toNat_lt
  exact plain_ofInt (by omega) (by omega)

theorem plain_ofInstruction (i : Instruction) : (ofInstruction i).Plain := by
  have hlow : -0x80000000 ≤ i.operand.toInt := i.operand.le_toInt
  have hhigh : i.operand.toInt ≤ 0x7FFFFFFF := i.operand.toInt_le
  have htag := i.tagByte.toNat_lt
  refine plain_ofFields (by simp) (by simp) (by simp) ?_
  simp only [inFields_cons, Option.some.injEq, forall_eq', inFields_nil, and_true]
  exact ⟨plain_ofByte _, plain_ofIntField (by omega) (by omega),
    plain_ofIntField (by omega) (by omega)⟩

theorem plain_ofConstant {c : Constant} (h : (Text.bytes c.text).length < 2 ^ 64) :
    (ofConstant c).Plain := by
  have hbits := c.bits.toNat_lt
  refine plain_ofFields (by simp) (by simp) (by simp) ?_
  simp only [inFields_cons, Option.some.injEq, forall_eq', inFields_nil, and_true]
  exact ⟨plain_ofByte _, plain_ofIntField (by omega) (by omega), plain_ofTextField h⟩

end Layout

/-! ### Modules -/

def Method.texts (f : Method) : List String :=
  f.name :: f.result :: f.params.toList ++ f.locals.toList.flatMap fun s => [s.name, s.type]

def Method.sizes (f : Method) : List Nat := [f.params.size, f.locals.size, f.code.size]

namespace Module

def texts (m : Module) : List String :=
  m.id :: m.name :: m.fields.toList.flatMap (fun f => [f.name, f.type]) ++
    m.methods.toList.reduceOption.flatMap Method.texts ++ m.constants.toList.map Constant.text ++
    m.types.toList ++ m.natives.toList

def sizes (m : Module) : List Nat :=
  [m.fields.size, m.methods.size, m.constants.size, m.types.size, m.natives.size] ++
    m.methods.toList.reduceOption.flatMap Method.sizes

/-- The sizes and indexes of a module have 64 bits. -/
structure Representable (m : Module) : Prop where
  texts : ∀ s ∈ m.texts, (Text.bytes s).length < 2 ^ 64
  sizes : ∀ n ∈ m.sizes, n < 2 ^ 64
  initializer : -2 ^ 63 ≤ m.initializer ∧ m.initializer < 2 ^ 63
  entry : -2 ^ 63 ≤ m.entry ∧ m.entry < 2 ^ 63

/-- All lists of a module are short enough to be read. -/
def Short (m : Module) : Prop := ∀ n ∈ m.sizes, n ≤ Cbor.mostEntries

end Module

namespace Layout

open Cbor

theorem plain_ofMethod {f : Option Method}
    (htexts : ∀ g, f = some g → ∀ s ∈ g.texts, (Text.bytes s).length < 2 ^ 64)
    (hsizes : ∀ g, f = some g → ∀ n ∈ g.sizes, n < 2 ^ 64) : (ofMethod f).Plain := by
  cases f with
  | none => simp [ofMethod, Item.Plain]
  | some f =>
    have htext := htexts f rfl
    have hsize := hsizes f rfl
    simp only [Method.texts, Method.sizes, List.cons_append, List.forall_mem_cons,
      List.forall_mem_append, List.mem_flatMap, List.not_mem_nil, false_implies, implies_true,
      and_true] at htext hsize
    obtain ⟨hname, hresult, hparams, hlocals⟩ := htext
    refine plain_ofFields (by simp) (by simp) (by simp) ?_
    simp only [inFields_cons, Option.some.injEq, forall_eq', inFields_nil, and_true]
    refine ⟨plain_ofText hname, fun i => plain_ofList (by simpa using hsize.1) ?_,
      plain_ofText hresult, fun i => plain_ofList (by simpa using hsize.2.1) ?_,
      fun i => plain_ofList (by simpa using hsize.2.2) fun i _ => plain_ofInstruction i⟩
    · exact fun s hs => plain_ofText (hparams s hs)
    · intro s hs
      exact plain_ofEntry (hlocals _ ⟨s, hs, by simp⟩) (hlocals _ ⟨s, hs, by simp⟩)

theorem depth_ofMethod_le (f : Option Method) : (ofMethod f).depth ≤ 3 := by
  cases f with
  | none => simp [ofMethod, Item.depth]
  | some f =>
    refine depth_ofFields_le ?_
    simp only [inFields_cons, Option.some.injEq, forall_eq', inFields_nil, and_true]
    refine ⟨by simp [(leaf_ofText _).1], fun i hi => ?_, by simp [(leaf_ofText _).1], fun i hi => ?_,
      fun i hi => ?_⟩
    · exact (depth_ofList_le (n := 1) (fun s _ => by simp [(leaf_ofText s).1]) hi)
    · exact depth_ofList_le (fun s _ => (leaves_ofEntry _ _).1) hi
    · exact depth_ofList_le (fun s _ => (leaves_ofInstruction _).1) hi

theorem short_ofMethod {f : Option Method} :
    (ofMethod f).Short ↔ ∀ g, f = some g → ∀ n ∈ g.sizes, n ≤ mostEntries := by
  cases f with
  | none => simp [ofMethod, Item.Short]
  | some f =>
    rw [ofMethod, short_ofFields (by simp)]
    simp [short_ofList, (leaf_ofText _).2, (leaves_ofEntry _ _).2, (leaves_ofInstruction _).2,
      Method.sizes]

end Layout

namespace Module

open Layout Cbor

theorem forall_method_texts {m : Module} {p : String → Prop} (h : ∀ s ∈ m.texts, p s)
    {f : Method} (hf : some f ∈ m.methods.toList) : ∀ s ∈ f.texts, p s := by
  intro s hs
  refine h s ?_
  have hmem : s ∈ m.methods.toList.reduceOption.flatMap Method.texts :=
    List.mem_flatMap.mpr ⟨f, List.reduceOption_mem_iff.mpr hf, hs⟩
  simp [Module.texts, hmem]

theorem sizes_iff {m : Module} {p : Nat → Prop} : (∀ n ∈ m.sizes, p n) ↔
    (p m.fields.size ∧ p m.methods.size ∧ p m.constants.size ∧ p m.types.size ∧ p m.natives.size) ∧
      ∀ f, some f ∈ m.methods.toList → ∀ n ∈ f.sizes, p n := by
  simp only [Module.sizes, List.forall_mem_append, List.forall_mem_cons, List.mem_flatMap,
    List.reduceOption_mem_iff, List.not_mem_nil, false_implies, implies_true, and_true]
  constructor
  · rintro ⟨hown, hmethods⟩
    exact ⟨hown, fun f hf n hn => hmethods n ⟨f, hf, hn⟩⟩
  · rintro ⟨hown, hmethods⟩
    refine ⟨hown, fun n hn => ?_⟩
    obtain ⟨f, hf, hn⟩ := hn
    exact hmethods f hf n hn

theorem Representable.plain {m : Module} (hm : m.Representable) : (ofModule m).Plain := by
  have htexts := hm.texts
  simp only [Module.texts, List.cons_append, List.forall_mem_cons, List.forall_mem_append,
    List.mem_flatMap, List.forall_mem_map] at htexts
  obtain ⟨hid, hname, ⟨⟨⟨hfields, -⟩, hconstants⟩, htypes⟩, hnatives⟩ := htexts
  obtain ⟨hsizes, hmethods⟩ := sizes_iff.mp hm.sizes
  have hinitializer := hm.initializer
  have hentry := hm.entry
  refine plain_ofFields (by simp) (by simp) (by simp) ?_
  simp only [inFields_cons, Option.some.injEq, forall_eq', inFields_nil, and_true]
  refine ⟨plain_ofTextField hid, plain_ofText hname,
    fun i => plain_ofList (by simpa using hsizes.1) ?_,
    fun i => plain_ofList (by simpa using hsizes.2.1) ?_,
    fun i => plain_ofList (by simpa using hsizes.2.2.1) fun c hc => plain_ofConstant (hconstants c hc),
    fun i => plain_ofList (by simpa using hsizes.2.2.2.1) fun s hs => plain_ofText (htypes s hs),
    fun i => plain_ofList (by simpa using hsizes.2.2.2.2) fun s hs => plain_ofText (hnatives s hs),
    plain_ofInt (by omega) (by omega), plain_ofInt (by omega) (by omega)⟩
  · intro f hf
    exact plain_ofEntry (hfields _ ⟨f, hf, by simp⟩) (hfields _ ⟨f, hf, by simp⟩)
  · intro f hf
    refine plain_ofMethod ?_ ?_
    · rintro g rfl
      exact forall_method_texts hm.texts hf
    · rintro g rfl
      exact hmethods g hf

theorem depth_ofModule_le (m : Module) : (ofModule m).depth ≤ mostLevels := by
  refine Nat.le_trans (depth_ofFields_le (n := 4) ?_) (by decide)
  simp only [inFields_cons, Option.some.injEq, forall_eq', inFields_nil, and_true]
  refine ⟨fun i hi => by simp [(leaf_ofTextField _ i hi).1], by simp [(leaf_ofText _).1],
    fun i hi => ?_, fun i hi => depth_ofList_le (fun f _ => depth_ofMethod_le f) hi, fun i hi => ?_,
    fun i hi => ?_, fun i hi => ?_, by simp [(leaf_ofInt _).1], by simp [(leaf_ofInt _).1]⟩
  · refine Nat.le_trans (depth_ofList_le (fun f _ => (leaves_ofEntry _ _).1) hi) (by decide)
  · refine Nat.le_trans (depth_ofList_le (fun c _ => (leaves_ofConstant c).1) hi) (by decide)
  · refine Nat.le_trans (depth_ofList_le (fun s _ => (leaf_ofText s).1.le) hi) (by decide)
  · refine Nat.le_trans (depth_ofList_le (fun s _ => (leaf_ofText s).1.le) hi) (by decide)

theorem short_ofModule {m : Module} : (ofModule m).Short ↔ m.Short := by
  rw [ofModule, short_ofFields (by simp), Module.Short, sizes_iff]
  have hid : ∀ i, ofTextField m.id = some i → i.Short := fun i hi => (leaf_ofTextField _ i hi).2
  have hmethods : (∀ f ∈ m.methods.toList, (ofMethod f).Short) ↔
      ∀ f, some f ∈ m.methods.toList → ∀ n ∈ f.sizes, n ≤ mostEntries := by
    simp only [short_ofMethod]
    exact ⟨fun h f hf => h (some f) hf f rfl, fun h f hf g hg => h g (hg ▸ hf)⟩
  simp only [inFields_cons, Option.some.injEq, forall_eq', inFields_nil, short_ofList, hmethods,
    (leaf_ofText _).2, (leaf_ofInt _).2, (leaves_ofEntry _ _).2, (leaves_ofConstant _).2,
    Array.length_toList, implies_true, true_and, and_true]
  exact ⟨fun ⟨_, hf, ⟨hm, hmethods⟩, hc, ht, hn⟩ => ⟨⟨hf, hm, hc, ht, hn⟩, hmethods⟩,
    fun ⟨⟨hf, hm, hc, ht, hn⟩, hmethods⟩ => ⟨hid, hf, ⟨hm, hmethods⟩, hc, ht, hn⟩⟩

/-- Another identifier changes neither the lists nor the indexes. -/
theorem Representable.identified {m : Module} (hm : m.Representable) {id : String}
    (hid : (Text.bytes id).length < 2 ^ 64) : ({ m with id } : Module).Representable := by
  have htexts := hm.texts
  simp only [Module.texts, List.cons_append, List.forall_mem_cons] at htexts
  refine ⟨?_, hm.sizes, hm.initializer, hm.entry⟩
  simp only [Module.texts, List.cons_append, List.forall_mem_cons]
  exact ⟨hid, htexts.2⟩

theorem Representable.module?_ofModule {m : Module} (hm : m.Representable) :
    Layout.module? (Layout.ofModule m) = some m := by
  have hinitializer := hm.initializer
  have hentry := hm.entry
  exact Layout.module?_ofModule (by omega) (by omega)

end Module

namespace ImageCodec

open Cbor

/-- What images rely on. Items of the forms that records are stored in are read back from their bytes if
none of their sequences and maps has more than 131072 entries, and nothing is read otherwise; no two of
them have the same bytes. An identifier is a text that is not empty and has a size of 64 bits. -/
structure Faithful (c : ImageCodec) : Prop where
  reads : ∀ {i : Item}, i.Plain → i.depth ≤ mostLevels → i.Short → c.decode? (c.encode i) = some i
  refuses : ∀ {i : Item}, i.Plain → i.depth ≤ mostLevels → ¬i.Short → c.decode? (c.encode i) = none
  separates : ∀ {i j : Item}, i.Plain → j.Plain → c.encode i = c.encode j → i = j
  identifies : ∀ bytes, (c.identify bytes).isEmpty = false ∧
    (Text.bytes (c.identify bytes)).length < 2 ^ 64

theorem standard_faithful : standard.Faithful where
  reads hi hdepth := (parse?_encode hi hdepth).1
  refuses hi hdepth := (parse?_encode hi hdepth).2
  separates := encode_inj
  identifies bytes := by
    obtain ⟨hlow, hhigh⟩ := Uuid.length_text (Uuid.bytes Uuid.objectSpace bytes)
    have hbytes := Text.length_bytes_le (Uuid.text (Uuid.bytes Uuid.objectSpace bytes))
    change (Uuid.text (Uuid.bytes Uuid.objectSpace bytes)).isEmpty = false ∧
      (Text.bytes (Uuid.text (Uuid.bytes Uuid.objectSpace bytes))).length < 2 ^ 64
    generalize Uuid.text (Uuid.bytes Uuid.objectSpace bytes) = id at hlow hhigh hbytes ⊢
    refine ⟨?_, by omega⟩
    rw [Bool.eq_false_iff, ne_eq, String.isEmpty_iff]
    rintro rfl
    exact absurd hlow (by decide)

section

variable {c : ImageCodec} (hc : c.Faithful) {m m' : Module}

include hc

/-- Modules with the same bytes are the same. -/
theorem Faithful.body_inj (hm : m.Representable) (hm' : m'.Representable)
    (h : c.body m = c.body m') : m = m' := by
  have hread := hm.module?_ofModule
  rw [hc.separates hm.plain hm'.plain h, hm'.module?_ofModule] at hread
  exact (Option.some.inj hread).symm

/-- A module with its identifier can be represented as well. -/
theorem Faithful.stamped (hm : m.Representable) : (c.stamped m).Representable :=
  hm.identified (hc.identifies _).2

/-- The module of an image, or the reason why there is none. -/
theorem Faithful.ofImage_image (hm : m.Representable) :
    (m.Short → c.ofImage (c.image m) = .ok (c.stamped m)) ∧
      (¬m.Short → c.ofImage (c.image m) = .error .malformed) := by
  have hstamped := hc.stamped hm
  have hdrop : (c.image m).drop imageMark.length = c.encode (Layout.ofModule (c.stamped m)) :=
    List.drop_left
  have hmark : imageMark.isPrefixOf (c.image m) = true :=
    List.isPrefixOf_iff_prefix.mpr (List.prefix_append _ _)
  have hshort : (Layout.ofModule (c.stamped m)).Short ↔ m.Short := Module.short_ofModule
  have hdepth := Module.depth_ofModule_le (c.stamped m)
  constructor
  · intro h
    have hread := hc.reads hstamped.plain hdepth (hshort.mpr h)
    have hempty : (c.stamped m).id.isEmpty = false := (hc.identifies _).1
    have hid : c.contentId (c.stamped m) = (c.stamped m).id := rfl
    simp [ofImage, hmark, hdrop, hread, hstamped.module?_ofModule, hempty, hid]
  · intro h
    have hread := hc.refuses hstamped.plain hdepth fun hs => h (hshort.mp hs)
    simp [ofImage, hmark, hdrop, hread]

/-- Modules with the same image are the same except for the identifiers that they had before. -/
theorem Faithful.eq_of_image_eq (hm : m.Representable) (hm' : m'.Representable)
    (h : c.image m' = c.image m) : m' = { m with id := m'.id } := by
  have hsame := hc.body_inj (hc.stamped hm') (hc.stamped hm) (List.append_cancel_left h)
  cases m
  cases m'
  simp only [ImageCodec.stamped, Module.mk.injEq] at hsame ⊢
  exact ⟨trivial, hsame.2⟩

/-- Images round-trip with any such codec. -/
theorem Faithful.round_trip (hm : m.Representable) :
    (m.Short → c.ofImage (c.image m) = .ok { m with id := c.contentId m }) ∧
      (¬m.Short → c.ofImage (c.image m) = .error .malformed) ∧
      (∀ id, c.contentId { m with id } = c.contentId m ∧ c.image { m with id } = c.image m) ∧
      ∀ m' : Module, m'.Representable →
        (c.body m' = c.body m → m' = m) ∧ (c.image m' = c.image m → m' = { m with id := m'.id }) :=
  ⟨(hc.ofImage_image hm).1, (hc.ofImage_image hm).2, fun _ => ⟨rfl, rfl⟩,
    fun _ hm' => ⟨hc.body_inj hm' hm, hc.eq_of_image_eq hm hm'⟩⟩

end
end ImageCodec

namespace Module

/-- Module images round-trip. A module whose sizes and indexes have 64 bits is read back from its image
with the identifier of its content and all else unchanged, unless one of its lists has more entries
than are read, and then nothing is read. The identifier and the image do not depend on the identifier
that the module had before. Modules with the same bytes, and but for their identifiers those with the
same image, are the same. -/
theorem image_round_trip {m : Module} (hm : m.Representable) :
    (m.Short → ofImage m.image = .ok { m with id := m.contentId }) ∧
      (¬m.Short → ofImage m.image = .error .malformed) ∧
      (∀ id, ({ m with id } : Module).contentId = m.contentId ∧ ({ m with id } : Module).image = m.image) ∧
      ∀ m' : Module, m'.Representable →
        (m'.body = m.body → m' = m) ∧ (m'.image = m.image → m' = { m with id := m'.id }) :=
  ImageCodec.standard_faithful.round_trip hm

/-- A module with an absent method, operands of zero and less, all bits set, and no entry point. -/
def sparse : Module where
  id := "before"
  name := "sparse"
  fields := #[]
  methods := #[none, some ⟨"main", #["i32"], "void", #[⟨"x", "f64"⟩], #[⟨0, 0, 0⟩, ⟨1, -1, 255⟩]⟩]
  constants := #[⟨3, 0xFFFFFFFFFFFFFFFF, ""⟩, ⟨6, 0, "\u00e9"⟩]
  types := #[""]
  natives := #[]
  initializer := -1
  entry := -0x8000000000000000

theorem image_round_trip_sparse :
    sparse.Representable ∧ sparse.Short ∧
      ofImage sparse.image = .ok { sparse with id := sparse.contentId } := by
  have hrepresentable : sparse.Representable := by
    refine ⟨?_, ?_, by decide, by decide⟩
    · decide
    · decide
  have hshort : sparse.Short := by
    simp only [Module.Short]
    decide
  exact ⟨hrepresentable, hshort, (image_round_trip hrepresentable).1 hshort⟩

def crowded (n : Nat) : Module := { Module.empty "" with types := Array.replicate n "" }

theorem sizes_crowded (n : Nat) : (crowded n).sizes = [0, 0, 0, n, 0] := by
  simp [sizes, crowded, empty]

theorem crowded_representable {n : Nat} (h : n < 2 ^ 64) : (crowded n).Representable := by
  refine ⟨fun s hs => ?_, ?_, by simp [crowded, empty], by simp [crowded, empty]⟩
  · have hempty : s = "" := by
      have hcases : s = "" ∨ n ≠ 0 ∧ s = "" := by
        simpa [texts, crowded, empty] using hs
      exact hcases.elim (fun h => h) And.right
    rw [hempty]
    decide
  · rw [sizes_crowded]
    simpa using h

/-- One type more than are read, and the image cannot be read. -/
theorem crowded_unreadable :
    (crowded (Cbor.mostEntries + 1)).Representable ∧
      ofImage (crowded (Cbor.mostEntries + 1)).image = .error .malformed := by
  have hrepresentable := crowded_representable (n := Cbor.mostEntries + 1) (by decide)
  have hcrowded : ¬(crowded (Cbor.mostEntries + 1)).Short := by
    rw [Short, sizes_crowded]
    simp
  exact ⟨hrepresentable, (ImageCodec.standard_faithful.ofImage_image hrepresentable).2 hcrowded⟩

end Module
end TypedScript
