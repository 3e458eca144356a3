import Mathlib.Tactic.Ring
import TypedScript.Image.Cbor

/-!
# Reading back binary items

An item of the forms that records are stored in is read back from its bytes exactly if none of its
sequences and maps has too many entries and it is not nested too deeply; otherwise nothing is read.
Whatever the sizes, no two of these items are written in the same way, whatever follows them.
-/

namespace TypedScript
namespace Cbor

/-! ### Heads -/

theorem take?_append (bytes rest : List UInt8) :
    take? bytes.length (bytes ++ rest) = some (bytes, rest) := by
  induction bytes with
  | nil => rfl
  | cons b bytes ih => simp [take?, ih]

section

attribute [local simp] bigEndian

theorem length_bigEndian (width n : Nat) : (bigEndian width n).length = width := by
  induction width generalizing n with
  | zero => rfl
  | succ width ih => simp [ih]

theorem natOfBytes_bigEndian (width n : Nat) : natOfBytes (bigEndian width n) = n % 256 ^ width := by
  induction width generalizing n with
  | zero => simp [natOfBytes, Nat.mod_one]
  | succ width ih =>
    have hlast : (UInt8.ofNat (n % 256)).toNat = n % 256 := by simp
    have hfront : List.foldl (fun n b => n * 256 + b.toNat) 0 (bigEndian width (n / 256)) =
        n / 256 % 256 ^ width := ih (n / 256)
    rw [bigEndian, natOfBytes, List.foldl_append, hfront, List.foldl_cons, List.foldl_nil, hlast,
      pow_succ', Nat.mod_mul]
    ring

end

theorem take?_bigEndian (width n : Nat) (rest : List UInt8) :
    take? width (bigEndian width n ++ rest) = some (bigEndian width n, rest) := by
  have h := take?_append (bigEndian width n) rest
  rwa [length_bigEndian] at h

/-- A head is read back. The additional information of a small number is the number itself, and it is
never the one of an open length. -/
theorem head?_head (major : Nat) {n : Nat} (hmajor : major < 7 ∨ major = 7 ∧ n < 24) (hn : n < 2 ^ 64)
    (rest : List UInt8) :
    ∃ info, info ≠ 31 ∧ (n < 24 → info = n) ∧
      head? (head major n ++ rest) = some (⟨major, info, n⟩, rest) := by
  have hfirst : ∀ info < 32, (major * 32 + info) % 256 / 32 = major := by
    intro info hinfo
    omega
  have hvalue : ∀ width, n < 256 ^ width → natOfBytes (bigEndian width n) = n := by
    intro width hwidth
    rw [natOfBytes_bigEndian, Nat.mod_eq_of_lt hwidth]
  by_cases h₀ : n < 24
  · refine ⟨n, by omega, fun _ => rfl, ?_⟩
    have hinfo : n % 32 = n := Nat.mod_eq_of_lt (by omega)
    simp [head, head?, h₀, hinfo, hfirst n (by omega)]
  have hseven : major ≠ 7 := by omega
  by_cases h₁ : n < 0x100
  · refine ⟨24, by decide, by omega, ?_⟩
    simp [head, head?, h₀, h₁, hfirst 24 (by omega), take?_bigEndian, hvalue 1 h₁, hseven]
  by_cases h₂ : n < 0x10000
  · refine ⟨25, by decide, by omega, ?_⟩
    simp [head, head?, h₀, h₁, h₂, hfirst 25 (by omega), take?_bigEndian, hvalue 2 h₂]
  by_cases h₃ : n < 0x100000000
  · refine ⟨26, by decide, by omega, ?_⟩
    simp [head, head?, h₀, h₁, h₂, h₃, hfirst 26 (by omega), take?_bigEndian, hvalue 4 h₃]
  · refine ⟨27, by decide, by omega, ?_⟩
    simp [head, head?, h₀, h₁, h₂, h₃, hfirst 27 (by omega), take?_bigEndian, hvalue 8 hn]

/-! ### Items -/

mutual

/-- The forms of items that records are stored in: texts in one chunk, sequences and maps that are not
empty and small simple values, with numbers that heads can hold. -/
def Item.Plain : Item → Prop
  | .unsigned n | .negative n => n < 2 ^ 64
  | .text chunks => ∃ bytes, chunks = [bytes] ∧ bytes.length < 2 ^ 64
  | .sequence items => items ≠ [] ∧ items.length < 2 ^ 64 ∧ plainAll items
  | .map items => items ≠ [] ∧ items.length % 2 = 0 ∧ items.length / 2 < 2 ^ 64 ∧ plainAll items
  | .simple n => n < 24
  | .bytes _ | .tagged _ _ | .float _ _ => False

def plainAll : List Item → Prop
  | [] => True
  | i :: rest => i.Plain ∧ plainAll rest

end

mutual

/-- No sequence or map of the item has too many entries. -/
def Item.Short : Item → Prop
  | .sequence items => items.length ≤ mostEntries ∧ shortAll items
  | .map items => items.length / 2 ≤ mostEntries ∧ shortAll items
  | .tagged _ content => content.Short
  | .unsigned _ | .negative _ | .bytes _ | .text _ | .simple _ | .float _ _ => True

/-- No sequence or map of the items has too many entries. -/
def shortAll : List Item → Prop
  | [] => True
  | i :: rest => i.Short ∧ shortAll rest

end

mutual

/-- How many sequences and maps are around the innermost items. -/
def Item.depth : Item → Nat
  | .sequence items | .map items => depthAll items + 1
  | .tagged _ content => content.depth
  | .unsigned _ | .negative _ | .bytes _ | .text _ | .simple _ | .float _ _ => 0

def depthAll : List Item → Nat
  | [] => 0
  | i :: rest => max i.depth (depthAll rest)

end

theorem plainAll_iff {items : List Item} : plainAll items ↔ ∀ i ∈ items, i.Plain := by
  induction items with
  | nil => simp [plainAll]
  | cons i items ih => simp [plainAll, ih]

theorem shortAll_iff {items : List Item} : shortAll items ↔ ∀ i ∈ items, i.Short := by
  induction items with
  | nil => simp [shortAll]
  | cons i items ih => simp [shortAll, ih]

theorem depthAll_le {items : List Item} {n : Nat} : depthAll items ≤ n ↔ ∀ i ∈ items, i.depth ≤ n := by
  induction items with
  | nil => simp [depthAll]
  | cons i items ih => simp [depthAll, ih]

/-- An item has a property if the items in it having it implies that it has it itself. -/
theorem Item.induction {motive : Item → Prop} (unsigned : ∀ n, motive (.unsigned n))
    (negative : ∀ n, motive (.negative n)) (bytes : ∀ chunks, motive (.bytes chunks))
    (text : ∀ chunks, motive (.text chunks))
    (sequence : ∀ items, (∀ i ∈ items, motive i) → motive (.sequence items))
    (map : ∀ items, (∀ i ∈ items, motive i) → motive (.map items))
    (tagged : ∀ number content, motive content → motive (.tagged number content))
    (simple : ∀ n, motive (.simple n)) (float : ∀ width bits, motive (.float width bits))
    (i : Item) : motive i :=
  @Item.rec motive (fun items => ∀ i ∈ items, motive i) unsigned negative bytes text sequence map
    tagged simple float (by simp) (fun i items hi hitems => by simpa using ⟨hi, hitems⟩) i

/-- The reader takes the written item, and only that, exactly under the given condition. -/
def Recovers (one : List UInt8 → Option (Item × List UInt8)) (i : Item) (p : Prop) : Prop :=
  ∀ rest, (p → one (i.encode ++ rest) = some (i, rest)) ∧ (¬p → one (i.encode ++ rest) = none)

theorem counted_encodeAll {one : List UInt8 → Option (Item × List UInt8)} {p : Item → Prop}
    {items : List Item} (h : ∀ i ∈ items, Recovers one i (p i)) (rest : List UInt8) :
    ((∀ i ∈ items, p i) → counted one items.length (encodeAll items ++ rest) = some (items, rest)) ∧
      (¬(∀ i ∈ items, p i) → counted one items.length (encodeAll items ++ rest) = none) := by
  induction items with
  | nil => simp [counted, encodeAll]
  | cons i items ih =>
    have hfirst := h i (by simp) (encodeAll items ++ rest)
    have hothers := ih fun j hj => h j (List.mem_cons_of_mem _ hj)
    simp only [encodeAll, List.append_assoc, List.length_cons, counted, List.forall_mem_cons]
    by_cases hi : p i
    · rw [hfirst.1 hi]
      by_cases hall : ∀ j ∈ items, p j
      · simpa [hothers.1 hall, hi] using hall
      · simp [hothers.2 hall, hi, hall]
    · simp [hfirst.2 hi, hi]

theorem body_encodeAll {one : List UInt8 → Option (Item × List UInt8)} {p : Item → Prop}
    {items : List Item} (h : ∀ i ∈ items, Recovers one i (p i)) (hd : Head) (hopen : hd.info ≠ 31)
    (hcount : (if hd.major = 5 then 2 else 1) * hd.value = items.length) (fuel : Nat)
    (rest : List UInt8) :
    (hd.value ≤ mostEntries ∧ (∀ i ∈ items, p i) →
        body one fuel hd (encodeAll items ++ rest) = some (items, rest)) ∧
      (¬(hd.value ≤ mostEntries ∧ ∀ i ∈ items, p i) →
        body one fuel hd (encodeAll items ++ rest) = none) := by
  have hisOpen : hd.isOpen = false := by simp [Head.isOpen, hopen]
  have hcounted := counted_encodeAll h rest
  simp only [body, hisOpen, Bool.false_eq_true, if_false, hcount]
  by_cases hmost : mostEntries < hd.value
  · rw [if_pos hmost]
    exact ⟨fun h => absurd h.1 (by omega), fun _ => rfl⟩
  · simp only [if_neg hmost]
    exact ⟨fun h => hcounted.1 h.2, fun h => hcounted.2 fun hall => h ⟨by omega, hall⟩⟩

def Item.Readable (i : Item) (fuel levels : Nat) : Prop :=
  i.Short ∧ i.depth ≤ levels ∧ i.depth < fuel

theorem readable_all {items : List Item} (hitems : items ≠ []) {fuel levels : Nat} :
    (∀ i ∈ items, i.Readable fuel levels) ↔
      shortAll items ∧ depthAll items ≤ levels ∧ depthAll items < fuel := by
  have hlt : depthAll items < fuel ↔ ∀ i ∈ items, i.depth < fuel := by
    obtain ⟨first, hfirst⟩ := List.exists_mem_of_ne_nil items hitems
    have hle : depthAll items ≤ fuel - 1 ↔ ∀ i ∈ items, i.depth ≤ fuel - 1 := depthAll_le
    constructor
    · intro h i hi
      have := hle.mp (by omega) i hi
      omega
    · intro h
      have hpos := h first hfirst
      have := hle.mpr fun i hi => by have := h i hi; omega
      omega
  rw [shortAll_iff, depthAll_le, hlt]
  exact ⟨fun h => ⟨fun i hi => (h i hi).1, fun i hi => (h i hi).2.1, fun i hi => (h i hi).2.2⟩,
    fun h i hi => ⟨h.1 i hi, h.2.1 i hi, h.2.2 i hi⟩⟩

theorem readable_sequence {items : List Item} (hitems : items ≠ []) {fuel levels : Nat} :
    (Item.sequence items).Readable (fuel + 1) (levels + 1) ↔
      items.length ≤ mostEntries ∧ ∀ i ∈ items, i.Readable fuel levels := by
  rw [readable_all hitems]
  simp only [Item.Readable, Item.Short, Item.depth, Nat.add_le_add_iff_right, Nat.add_lt_add_iff_right]
  tauto

theorem readable_map {items : List Item} (hitems : items ≠ []) {fuel levels : Nat} :
    (Item.map items).Readable (fuel + 1) (levels + 1) ↔
      items.length / 2 ≤ mostEntries ∧ ∀ i ∈ items, i.Readable fuel levels := by
  rw [readable_all hitems]
  simp only [Item.Readable, Item.Short, Item.depth, Nat.add_le_add_iff_right, Nat.add_lt_add_iff_right]
  tauto

/-- An item of a plain form is read back if it is readable, and nothing is read otherwise. -/
theorem recovers_item? {i : Item} (hi : i.Plain) (fuel levels : Nat) :
    Recovers (item? fuel levels false) i (i.Readable fuel levels) := by
  induction fuel generalizing i levels with
  | zero => exact fun rest => ⟨fun h => absurd h.2.2 (Nat.not_lt_zero _), fun _ => rfl⟩
  | succ fuel ih =>
    intro rest
    cases i with
    | bytes | tagged | float => exact hi.elim
    | unsigned n =>
      obtain ⟨info, -, -, hhead⟩ := head?_head 0 (.inl (by decide)) hi rest
      simp [Item.encode, item?, hhead, Item.Readable, Item.Short, Item.depth]
    | negative n =>
      obtain ⟨info, -, -, hhead⟩ := head?_head 1 (.inl (by decide)) hi rest
      simp [Item.encode, item?, hhead, Item.Readable, Item.Short, Item.depth]
    | text chunks =>
      obtain ⟨bytes, rfl, hlength⟩ := hi
      obtain ⟨info, hinfo, -, hhead⟩ :=
        head?_head 3 (.inl (by decide)) hlength (bytes ++ rest)
      simp [Item.encode, item?, hhead, Head.isOpen, hinfo, take?_append, Item.Readable, Item.Short,
        Item.depth]
    | simple n =>
      simp only [Item.Plain] at hi
      obtain ⟨info, -, hinfo, hhead⟩ := head?_head 7 (.inr ⟨rfl, hi⟩) (by omega) rest
      have hsmall : info ≤ 24 := by have := hinfo hi; omega
      simp [Item.encode, item?, hhead, hsmall, Item.Readable, Item.Short, Item.depth]
    | sequence items =>
      simp only [Item.Plain, plainAll_iff] at hi
      obtain ⟨hitems, hlength, hplain⟩ := hi
      obtain ⟨info, hinfo, -, hhead⟩ :=
        head?_head 4 (.inl (by decide)) hlength (encodeAll items ++ rest)
      cases levels with
      | zero => simp [Item.encode, item?, hhead, Item.Readable, Item.depth]
      | succ levels =>
        have hbody := body_encodeAll (fun i hi => ih (hplain i hi) levels)
          ⟨4, info, items.length⟩ hinfo (by simp) fuel rest
        rw [readable_sequence hitems]
        constructor
        · intro h
          simp [Item.encode, item?, hhead, hbody.1 h]
        · intro h
          simp [Item.encode, item?, hhead, hbody.2 h]
    | map items =>
      simp only [Item.Plain, plainAll_iff] at hi
      obtain ⟨hitems, heven, hlength, hplain⟩ := hi
      obtain ⟨info, hinfo, -, hhead⟩ :=
        head?_head 5 (.inl (by decide)) hlength (encodeAll items ++ rest)
      cases levels with
      | zero => simp [Item.encode, item?, hhead, Item.Readable, Item.depth]
      | succ levels =>
        have hbody := body_encodeAll (fun i hi => ih (hplain i hi) levels)
          ⟨5, info, items.length / 2⟩ hinfo (by simp; omega) fuel rest
        rw [readable_map hitems]
        constructor
        · intro h
          simp [Item.encode, item?, hhead, hbody.1 h]
        · intro h
          simp [Item.encode, item?, hhead, hbody.2 h]

theorem length_head_pos (major n : Nat) : 0 < (head major n).length := by
  simp only [head]
  repeat' split
  all_goals simp

/-- The bytes of an item are at least as many as its levels. -/
theorem depth_le_length {i : Item} (hi : i.Plain) : i.depth ≤ i.encode.length := by
  have hall : ∀ items : List Item, (∀ i ∈ items, i.depth ≤ i.encode.length) →
      depthAll items ≤ (encodeAll items).length := by
    intro items h
    induction items with
    | nil => exact Nat.le_refl 0
    | cons i items ih =>
      have hfirst := h i (by simp)
      have hothers := ih fun j hj => h j (List.mem_cons_of_mem _ hj)
      simp only [depthAll, encodeAll, List.length_append]
      omega
  induction i using Item.induction with
  | bytes | tagged | float => exact hi.elim
  | unsigned | negative | text | simple => exact Nat.zero_le _
  | sequence items ih =>
    simp only [Item.Plain, plainAll_iff] at hi
    have hitems := hall items fun i h => ih i h (hi.2.2 i h)
    have hhead := length_head_pos 4 items.length
    simp only [Item.depth, Item.encode, List.length_append]
    omega
  | map items ih =>
    simp only [Item.Plain, plainAll_iff] at hi
    have hitems := hall items fun i h => ih i h (hi.2.2.2 i h)
    have hhead := length_head_pos 5 (items.length / 2)
    simp only [Item.depth, Item.encode, List.length_append]
    omega

/-- An item of a plain form that is not nested too deeply is read back from its bytes if none of its
sequences and maps is too long, and nothing is read otherwise. -/
theorem parse?_encode {i : Item} (hi : i.Plain) (hdepth : i.depth ≤ mostLevels) :
    (i.Short → parse? i.encode = some i) ∧ (¬i.Short → parse? i.encode = none) := by
  have hread := recovers_item? hi (i.encode.length + 1) mostLevels []
  have hlength := depth_le_length hi
  rw [List.append_nil] at hread
  constructor
  · intro h
    simp [parse?, hread.1 ⟨h, hdepth, by omega⟩]
  · intro h
    simp [parse?, hread.2 fun hr => h hr.1]

/-! ### No two items are written in the same way -/

theorem head_append_inj {a b n m : Nat} (ha : a < 7 ∨ a = 7 ∧ n < 24) (hn : n < 2 ^ 64)
    (hb : b < 7 ∨ b = 7 ∧ m < 24) (hm : m < 2 ^ 64) {r s : List UInt8}
    (h : head a n ++ r = head b m ++ s) : a = b ∧ n = m ∧ r = s := by
  obtain ⟨info, -, -, hleft⟩ := head?_head _ ha hn r
  obtain ⟨info', -, -, hright⟩ := head?_head _ hb hm s
  rw [h, hright] at hleft
  simp only [Option.some.injEq, Prod.mk.injEq, Head.mk.injEq] at hleft
  obtain ⟨⟨rfl, -, rfl⟩, rfl⟩ := hleft
  exact ⟨rfl, rfl, rfl⟩

def Item.major : Item → Nat
  | .unsigned _ => 0
  | .negative _ => 1
  | .bytes _ => 2
  | .text _ => 3
  | .sequence _ => 4
  | .map _ => 5
  | .tagged _ _ => 6
  | .simple _ | .float _ _ => 7

/-- The number that the head of an item gives, and what comes behind the head. -/
def Item.content : Item → Nat × List UInt8
  | .unsigned n | .negative n | .simple n => (n, [])
  | .bytes chunks | .text chunks => (chunks.flatten.length, chunks.flatten)
  | .sequence items => (items.length, encodeAll items)
  | .map items => (items.length / 2, encodeAll items)
  | .tagged number content => (number, content.encode)
  | .float _ bits => (bits, [])

theorem Item.Plain.encode_eq {i : Item} (hi : i.Plain) :
    i.encode = head i.major i.content.1 ++ i.content.2 := by
  cases i with
  | bytes | tagged | float => exact hi.elim
  | unsigned | negative | simple => simp [Item.encode, Item.major, Item.content]
  | text | sequence | map => simp [Item.encode, Item.major, Item.content]

theorem Item.Plain.number_lt {i : Item} (hi : i.Plain) :
    (i.major < 7 ∨ i.major = 7 ∧ i.content.1 < 24) ∧ i.content.1 < 2 ^ 64 := by
  cases i with
  | bytes | tagged | float => exact hi.elim
  | unsigned | negative => exact ⟨.inl (by simp [Item.major]), hi⟩
  | text chunks =>
    obtain ⟨bytes, rfl, hlength⟩ := hi
    exact ⟨.inl (by simp [Item.major]), by simpa [Item.content] using hlength⟩
  | sequence items =>
    simp only [Item.Plain] at hi
    exact ⟨.inl (by simp [Item.major]), hi.2.1⟩
  | map items =>
    simp only [Item.Plain] at hi
    exact ⟨.inl (by simp [Item.major]), hi.2.2.1⟩
  | simple n =>
    simp only [Item.Plain] at hi
    exact ⟨.inr ⟨rfl, hi⟩, by simp only [Item.content]; omega⟩

theorem Item.Plain.head_inj {i j : Item} (hi : i.Plain) (hj : j.Plain) {r s : List UInt8}
    (h : i.encode ++ r = j.encode ++ s) :
    i.major = j.major ∧ i.content.1 = j.content.1 ∧ i.content.2 ++ r = j.content.2 ++ s := by
  rw [hi.encode_eq, hj.encode_eq, List.append_assoc, List.append_assoc] at h
  exact head_append_inj hi.number_lt.1 hi.number_lt.2 hj.number_lt.1 hj.number_lt.2 h

/-- The bytes of an item are told apart from what follows them, and no other item has the same. -/
def Item.Separates (i : Item) : Prop :=
  ∀ j : Item, j.Plain → ∀ r s, i.encode ++ r = j.encode ++ s → i = j ∧ r = s

theorem encodeAll_append_inj {items : List Item} (h : ∀ i ∈ items, i.Separates) {others : List Item}
    (hothers : ∀ j ∈ others, j.Plain) (hlength : items.length = others.length) {r s : List UInt8}
    (heq : encodeAll items ++ r = encodeAll others ++ s) : items = others ∧ r = s := by
  induction items generalizing others with
  | nil =>
    obtain rfl := List.length_eq_zero_iff.mp hlength.symm
    exact ⟨rfl, heq⟩
  | cons i items ih =>
    cases others with
    | nil => simp at hlength
    | cons j others =>
      simp only [encodeAll, List.append_assoc] at heq
      obtain ⟨rfl, hrest⟩ := h i (by simp) j (hothers j (by simp)) _ _ heq
      obtain ⟨rfl, rfl⟩ := ih (fun i hi => h i (List.mem_cons_of_mem _ hi))
        (fun j hj => hothers j (List.mem_cons_of_mem _ hj)) (by simpa using hlength) hrest
      exact ⟨rfl, rfl⟩

theorem Item.Plain.separates {i : Item} (hi : i.Plain) : i.Separates := by
  induction i using Item.induction with
  | bytes | tagged | float => exact hi.elim
  | unsigned n =>
    intro j hj r s h
    obtain ⟨hmajor, hnumber, hrest⟩ := hi.head_inj hj h
    cases j with
    | unsigned m => exact ⟨congrArg Item.unsigned hnumber, hrest⟩
    | bytes | tagged | float => exact hj.elim
    | _ => simp [Item.major] at hmajor
  | negative n =>
    intro j hj r s h
    obtain ⟨hmajor, hnumber, hrest⟩ := hi.head_inj hj h
    cases j with
    | negative m => exact ⟨congrArg Item.negative hnumber, hrest⟩
    | bytes | tagged | float => exact hj.elim
    | _ => simp [Item.major] at hmajor
  | simple n =>
    intro j hj r s h
    obtain ⟨hmajor, hnumber, hrest⟩ := hi.head_inj hj h
    cases j with
    | simple m => exact ⟨congrArg Item.simple hnumber, hrest⟩
    | bytes | tagged | float => exact hj.elim
    | _ => simp [Item.major] at hmajor
  | text chunks =>
    intro j hj r s h
    obtain ⟨hmajor, hnumber, hrest⟩ := hi.head_inj hj h
    cases j with
    | text chunks' =>
      obtain ⟨bytes, rfl, -⟩ := hi
      obtain ⟨bytes', rfl, -⟩ := hj
      simp only [Item.content, List.flatten_cons, List.flatten_nil, List.append_nil] at hnumber hrest
      obtain ⟨rfl, rfl⟩ := List.append_inj hrest hnumber
      exact ⟨rfl, rfl⟩
    | bytes | tagged | float => exact hj.elim
    | _ => simp [Item.major] at hmajor
  | sequence items ih =>
    intro j hj r s h
    obtain ⟨hmajor, hnumber, hrest⟩ := hi.head_inj hj h
    cases j with
    | sequence others =>
      simp only [Item.Plain, plainAll_iff] at hi hj
      obtain ⟨rfl, rfl⟩ :=
        encodeAll_append_inj (fun i h => ih i h (hi.2.2 i h)) hj.2.2 hnumber hrest
      exact ⟨rfl, rfl⟩
    | bytes | tagged | float => exact hj.elim
    | _ => simp [Item.major] at hmajor
  | map items ih =>
    intro j hj r s h
    obtain ⟨hmajor, hnumber, hrest⟩ := hi.head_inj hj h
    cases j with
    | map others =>
      simp only [Item.Plain, plainAll_iff] at hi hj
      have hlength : items.length = others.length := by
        simp only [Item.content] at hnumber
        omega
      obtain ⟨rfl, rfl⟩ :=
        encodeAll_append_inj (fun i h => ih i h (hi.2.2.2 i h)) hj.2.2.2 hlength hrest
      exact ⟨rfl, rfl⟩
    | bytes | tagged | float => exact hj.elim
    | _ => simp [Item.major] at hmajor

theorem encode_inj {i j : Item} (hi : i.Plain) (hj : j.Plain) (h : i.encode = j.encode) : i = j :=
  (hi.separates j hj [] [] (by rw [h])).1

end Cbor
end TypedScript
