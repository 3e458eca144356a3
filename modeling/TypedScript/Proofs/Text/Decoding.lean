import TypedScript.Text.Utf8

/-!
# Bytes and glyphs

The bytes of a text are well formed and spell the text.
-/

namespace TypedScript
namespace Glyph

theorem isContinuation_iff {b : UInt8} : isContinuation b ↔ 0x80 ≤ b.toNat ∧ b.toNat ≤ 0xBF := by
  simp [isContinuation, UInt8.le_iff_toNat_le]

theorem leading_one {a : UInt8} {rest : List UInt8} (ha : a.toNat < 0x80) :
    leading a rest = ⟨Char.ofNat a.toNat, 1⟩ := by
  have hfirst : a < 0x80 := UInt8.lt_iff_toNat_lt.mpr ha
  simp [leading, hfirst]

theorem leading_two {a b : UInt8} {rest : List UInt8} (ha : 0xC2 ≤ a.toNat ∧ a.toNat ≤ 0xDF)
    (hb : isContinuation b) :
    leading a (b :: rest) = ⟨Char.ofNat (a.toNat % 32 * 64 + b.toNat % 64), 2⟩ := by
  have hone : ¬a < 0x80 := by
    rw [UInt8.lt_iff_toNat_lt]
    simp
    omega
  have htwo : 0xC2 ≤ a ∧ a ≤ 0xDF := by simpa [UInt8.le_iff_toNat_le] using ha
  simp [leading, hone, htwo, hb]

/-- The second byte of a sequence of three or four is in its bounds. -/
theorem secondBounds_le {a b : UInt8} (hb : isContinuation b)
    (hlow : a.toNat = 0xE0 → 0xA0 ≤ b.toNat) (hhigh : a.toNat = 0xED → b.toNat ≤ 0x9F)
    (hlow' : a.toNat = 0xF0 → 0x90 ≤ b.toNat) (hhigh' : a.toNat = 0xF4 → b.toNat ≤ 0x8F) :
    (secondBounds a).1 ≤ b ∧ b ≤ (secondBounds a).2 := by
  rw [isContinuation_iff] at hb
  simp only [secondBounds, ← UInt8.toNat_inj, UInt8.le_iff_toNat_le]
  split
  · exact ⟨hlow ‹_›, hb.2⟩
  split
  · exact ⟨hb.1, hhigh ‹_›⟩
  split
  · exact ⟨hlow' ‹_›, hb.2⟩
  split
  · exact ⟨hb.1, hhigh' ‹_›⟩
  · exact hb

theorem leading_three {a b c : UInt8} {rest : List UInt8} (ha : 0xE0 ≤ a.toNat ∧ a.toNat ≤ 0xEF)
    (hb : (secondBounds a).1 ≤ b ∧ b ≤ (secondBounds a).2) (hc : isContinuation c) :
    leading a (b :: c :: rest) =
      ⟨Char.ofNat ((a.toNat % 16 * 64 + b.toNat % 64) * 64 + c.toNat % 64), 3⟩ := by
  have hone : ¬a < 0x80 := by
    rw [UInt8.lt_iff_toNat_lt]
    simp
    omega
  have htwo : ¬(0xC2 ≤ a ∧ a ≤ 0xDF) := by
    simp only [UInt8.le_iff_toNat_le]
    simp
    omega
  have hthree : 0xE0 ≤ a ∧ a ≤ 0xEF := by simpa [UInt8.le_iff_toNat_le] using ha
  simp [leading, hone, htwo, hthree, hb, hc]

theorem leading_four {a b c d : UInt8} {rest : List UInt8}
    (ha : 0xF0 ≤ a.toNat ∧ a.toNat ≤ 0xF4)
    (hb : (secondBounds a).1 ≤ b ∧ b ≤ (secondBounds a).2) (hc : isContinuation c)
    (hd : isContinuation d) :
    leading a (b :: c :: d :: rest) = ⟨Char.ofNat
      (((a.toNat % 8 * 64 + b.toNat % 64) * 64 + c.toNat % 64) * 64 + d.toNat % 64), 4⟩ := by
  have hone : ¬a < 0x80 := by
    rw [UInt8.lt_iff_toNat_lt]
    simp
    omega
  have htwo : ¬(0xC2 ≤ a ∧ a ≤ 0xDF) := by
    simp only [UInt8.le_iff_toNat_le]
    simp
    omega
  have hthree : ¬(0xE0 ≤ a ∧ a ≤ 0xEF) := by
    simp only [UInt8.le_iff_toNat_le]
    simp
    omega
  have hfour : 0xF0 ≤ a ∧ a ≤ 0xF4 := by simpa [UInt8.le_iff_toNat_le] using ha
  simp [leading, hone, htwo, hthree, hfour, hb, hc, hd]

theorem toNat_ofNat {n : Nat} (h : n < 256) : (UInt8.ofNat n).toNat = n := by
  rw [UInt8.toNat_ofNat']
  exact Nat.mod_eq_of_lt h

/-- The byte with the given six bits can follow the first of a sequence. -/
theorem toNat_continuation (n : Nat) :
    (UInt8.ofNat (n % 64 + 128)).toNat = n % 64 + 128 := toNat_ofNat (by omega)

theorem isContinuation_ofNat (n : Nat) : isContinuation (UInt8.ofNat (n % 64 + 128)) := by
  rw [isContinuation_iff, toNat_continuation]
  omega

/-- A character is read back from its bytes. -/
theorem leading_utf8EncodeChar (c : Char) (rest : List UInt8) :
    ∃ first more, String.utf8EncodeChar c = first :: more ∧
      leading first (more ++ rest) = ofChar c := by
  have hsize := String.length_utf8EncodeChar c
  have hchar : Char.ofNat c.val.toNat = c := Char.ofNat_toNat c
  have hvalid : c.val.toNat < 0xD800 ∨ 0xDFFF < c.val.toNat ∧ c.val.toNat < 0x110000 := c.valid
  rw [String.utf8EncodeChar.eq_1] at hsize ⊢
  generalize c.val.toNat = v at hsize hchar hvalid ⊢
  by_cases h₁ : v ≤ 0x7F
  · rw [if_pos h₁] at hsize ⊢
    refine ⟨_, _, rfl, ?_⟩
    have ha : (UInt8.ofNat v).toNat = v := toNat_ofNat (by omega)
    rw [leading_one (by omega), ha, hchar, ofChar, ← hsize]
    rfl
  rw [if_neg h₁] at hsize ⊢
  by_cases h₂ : v ≤ 0x7FF
  · rw [if_pos h₂] at hsize ⊢
    refine ⟨_, _, rfl, ?_⟩
    have ha : (UInt8.ofNat (v / 64 % 32 + 192)).toNat = v / 64 % 32 + 192 := toNat_ofNat (by omega)
    rw [List.cons_append, leading_two (by omega) (isContinuation_ofNat v), ha, toNat_continuation,
      ofChar, ← hsize, ← hchar]
    congr 2
    omega
  rw [if_neg h₂] at hsize ⊢
  by_cases h₃ : v ≤ 0xFFFF
  · rw [if_pos h₃] at hsize ⊢
    refine ⟨_, _, rfl, ?_⟩
    have ha : (UInt8.ofNat (v / 4096 % 16 + 224)).toNat = v / 4096 % 16 + 224 :=
      toNat_ofNat (by omega)
    have hb := toNat_continuation (v / 64)
    have hbounds := secondBounds_le (a := UInt8.ofNat (v / 4096 % 16 + 224))
      (isContinuation_ofNat (v / 64)) (by omega) (by omega) (by omega) (by omega)
    rw [List.cons_append, List.cons_append,
      leading_three (by omega) hbounds (isContinuation_ofNat v), ha, hb, toNat_continuation, ofChar,
      ← hsize, ← hchar]
    congr 2
    omega
  · rw [if_neg h₃] at hsize ⊢
    refine ⟨_, _, rfl, ?_⟩
    have ha : (UInt8.ofNat (v / 262144 % 8 + 240)).toNat = v / 262144 % 8 + 240 :=
      toNat_ofNat (by omega)
    have hb := toNat_continuation (v / 4096)
    have hbounds := secondBounds_le (a := UInt8.ofNat (v / 262144 % 8 + 240))
      (isContinuation_ofNat (v / 4096)) (by omega) (by omega) (by omega) (by omega)
    rw [List.cons_append, List.cons_append, List.cons_append,
      leading_four (by omega) hbounds (isContinuation_ofNat _) (isContinuation_ofNat v), ha, hb,
      toNat_continuation, toNat_continuation, ofChar, ← hsize, ← hchar]
    congr 2
    omega

theorem splitFrom_append (bytes rest : List UInt8) :
    splitFrom bytes.length (bytes ++ rest) = splitFrom 0 rest := by
  induction bytes with
  | nil => rfl
  | cons b bytes ih => exact ih

/-- The glyphs of a text are read back from its bytes. -/
theorem ofBytes_bytes (cs : List Char) :
    ofBytes (cs.flatMap String.utf8EncodeChar) = cs.map ofChar := by
  induction cs with
  | nil => rfl
  | cons c cs ih =>
    obtain ⟨first, more, hbytes, hleading⟩ :=
      leading_utf8EncodeChar c (cs.flatMap String.utf8EncodeChar)
    have hwidth : (ofChar c).width - 1 = more.length := by
      have hsize := String.length_utf8EncodeChar c
      rw [hbytes, List.length_cons] at hsize
      simp only [ofChar]
      omega
    rw [List.flatMap_cons, hbytes, List.cons_append, ofBytes, splitFrom]
    simp only [hleading, hwidth, splitFrom_append, List.map_cons]
    rw [← ih, ofBytes]

theorem ofChar_ne_stray (c : Char) : ofChar c ≠ stray := by
  intro h
  have hchar : c = '\uFFFD' := congrArg Glyph.char h
  subst hchar
  exact absurd h (by decide)

end Glyph

namespace Text

/-- The bytes of a text spell it. -/
@[simp] theorem ofBytes?_bytes (s : String) : ofBytes? (bytes s) = some s := by
  have hglyphs : Glyph.ofBytes (bytes s) = s.toList.map Glyph.ofChar := Glyph.ofBytes_bytes s.toList
  have hstray : (s.toList.map Glyph.ofChar).contains Glyph.stray = false := by
    simp [Glyph.ofChar_ne_stray]
  have htext : Glyph.text (s.toList.map Glyph.ofChar) = s := by
    simp [Glyph.text, Function.comp_def, Glyph.ofChar]
  simp only [ofBytes?, hglyphs, hstray, htext]
  rfl

end Text

/-!
## Bytes and glyphs

No byte is lost when bytes are read as glyphs, and what stands before or behind a glyph has no say in
how it is read: any cut between two glyphs cuts the bytes into parts that are read as the parts of the
glyphs. The bytes of a glyph other than the replacement character are those of its character.
-/

namespace Glyph

def widthOf : List Glyph → Nat
  | [] => 0
  | g :: gs => g.width + widthOf gs

@[simp] theorem widthOf_nil : widthOf [] = 0 := rfl

@[simp] theorem widthOf_cons (g : Glyph) (gs : List Glyph) : widthOf (g :: gs) = g.width + widthOf gs :=
  rfl

@[simp] theorem widthOf_append (gs hs : List Glyph) : widthOf (gs ++ hs) = widthOf gs + widthOf hs := by
  induction gs with
  | nil => simp
  | cons g gs ih => rw [List.cons_append, widthOf_cons, widthOf_cons, ih, Nat.add_assoc]

/-- What a byte and those behind it are read as: a stray byte, or a sequence that is all there. -/
inductive Leads : UInt8 → List UInt8 → Glyph → Prop
  | stray {a : UInt8} (rest : List UInt8) : 0x80 ≤ a.toNat → Leads a rest stray
  | one {a : UInt8} (rest : List UInt8) : a.toNat < 0x80 → Leads a rest ⟨Char.ofNat a.toNat, 1⟩
  | two {a b : UInt8} (rest : List UInt8) : 0xC2 ≤ a.toNat ∧ a.toNat ≤ 0xDF → isContinuation b →
    Leads a (b :: rest) ⟨Char.ofNat (a.toNat % 32 * 64 + b.toNat % 64), 2⟩
  | three {a b c : UInt8} (rest : List UInt8) : 0xE0 ≤ a.toNat ∧ a.toNat ≤ 0xEF →
    (secondBounds a).1 ≤ b ∧ b ≤ (secondBounds a).2 → isContinuation c →
    Leads a (b :: c :: rest)
      ⟨Char.ofNat ((a.toNat % 16 * 64 + b.toNat % 64) * 64 + c.toNat % 64), 3⟩
  | four {a b c d : UInt8} (rest : List UInt8) : 0xF0 ≤ a.toNat ∧ a.toNat ≤ 0xF4 →
    (secondBounds a).1 ≤ b ∧ b ≤ (secondBounds a).2 → isContinuation c → isContinuation d →
    Leads a (b :: c :: d :: rest) ⟨Char.ofNat
      (((a.toNat % 8 * 64 + b.toNat % 64) * 64 + c.toNat % 64) * 64 + d.toNat % 64), 4⟩

theorem leads_leading (a : UInt8) (rest : List UInt8) : Leads a rest (leading a rest) := by
  unfold leading
  dsimp only
  split
  · rename_i ha
    exact .one rest (by simpa [UInt8.lt_iff_toNat_lt] using ha)
  rename_i hlarge
  have hstray : ∀ rest, Leads a rest stray := fun rest =>
    .stray rest (by simpa [UInt8.lt_iff_toNat_lt] using hlarge)
  split
  · rename_i ha
    split
    · split
      · exact .two _ (by simpa [UInt8.le_iff_toNat_le] using ha) ‹_›
      · exact hstray _
    · exact hstray _
  split
  · rename_i ha
    split
    · split
      · rename_i h
        simp only [Bool.and_eq_true, decide_eq_true_eq] at h
        exact .three _ (by simpa [UInt8.le_iff_toNat_le] using ha) h.1 h.2
      · exact hstray _
    · exact hstray _
  split
  · rename_i ha
    split
    · split
      · rename_i h
        simp only [Bool.and_eq_true, decide_eq_true_eq] at h
        exact .four _ (by simpa [UInt8.le_iff_toNat_le] using ha) h.1.1 h.1.2 h.2
      · exact hstray _
    · exact hstray _
  · exact hstray _

namespace Leads

variable {a : UInt8} {rest : List UInt8} {g : Glyph}

theorem width_pos (h : Leads a rest g) : 0 < g.width := by
  cases h <;> exact Nat.succ_pos _

theorem width_le (h : Leads a rest g) : g.width ≤ rest.length + 1 := by
  cases h <;> simp [Glyph.stray]

/-- What is all there is read as what it is. -/
theorem eq_leading (h : Leads a rest g) (hg : g ≠ Glyph.stray) : leading a rest = g := by
  cases h with
  | stray => exact absurd rfl hg
  | one _ ha => exact leading_one ha
  | two _ ha hb => exact leading_two ha hb
  | three _ ha hb hc => exact leading_three ha hb hc
  | four _ ha hb hc hd => exact leading_four ha hb hc hd

theorem append (h : Leads a rest g) (more : List UInt8) : Leads a (rest ++ more) g := by
  cases h with
  | stray _ ha => exact .stray _ ha
  | one _ ha => exact .one _ ha
  | two _ ha hb => exact .two _ ha hb
  | three _ ha hb hc => exact .three _ ha hb hc
  | four _ ha hb hc hd => exact .four _ ha hb hc hd

/-- The bytes behind those of a glyph do not matter. -/
theorem take {n : Nat} (h : Leads a rest g) (hn : g.width ≤ n + 1) : Leads a (rest.take n) g := by
  cases h with
  | stray _ ha => exact .stray _ ha
  | one _ ha => exact .one _ ha
  | two rest ha hb =>
    obtain ⟨k, rfl⟩ : ∃ k, n = k + 1 := ⟨n - 1, by simp at hn; omega⟩
    exact .two _ ha hb
  | three rest ha hb hc =>
    obtain ⟨k, rfl⟩ : ∃ k, n = k + 2 := ⟨n - 2, by simp at hn; omega⟩
    exact .three _ ha hb hc
  | four rest ha hb hc hd =>
    obtain ⟨k, rfl⟩ : ∃ k, n = k + 3 := ⟨n - 3, by simp at hn; omega⟩
    exact .four _ ha hb hc hd

end Leads

theorem leading_take {a : UInt8} {rest : List UInt8} {n : Nat}
    (hn : (leading a rest).width ≤ n + 1) : leading a (rest.take n) = leading a rest := by
  have hwhole := leads_leading a rest
  by_cases hstray : leading a rest = stray
  · by_cases hcut : leading a (rest.take n) = stray
    · exact hcut.trans hstray.symm
    · have hlonger := (leads_leading a (rest.take n)).append (rest.drop n)
      rw [List.take_append_drop] at hlonger
      exact (hlonger.eq_leading hcut).symm
  · exact (hwhole.take hn).eq_leading hstray

theorem splitFrom_eq_drop (n : Nat) (bytes : List UInt8) :
    splitFrom n bytes = splitFrom 0 (bytes.drop n) := by
  induction n generalizing bytes with
  | zero => rfl
  | succ n ih =>
    cases bytes with
    | nil => rfl
    | cons b rest => exact ih rest

@[simp] theorem ofBytes_nil : ofBytes [] = [] := rfl

theorem ofBytes_cons (b : UInt8) (rest : List UInt8) :
    ofBytes (b :: rest) = leading b rest :: ofBytes (rest.drop ((leading b rest).width - 1)) := by
  rw [ofBytes, splitFrom, splitFrom_eq_drop]
  rfl

/-- The glyphs of a text are read back from its bytes, whatever follows them. -/
theorem ofBytes_bytes_append (cs : List Char) (more : List UInt8) :
    ofBytes (cs.flatMap String.utf8EncodeChar ++ more) = cs.map ofChar ++ ofBytes more := by
  induction cs with
  | nil => rfl
  | cons c cs ih =>
    obtain ⟨first, rest, hbytes, hleading⟩ :=
      leading_utf8EncodeChar c (cs.flatMap String.utf8EncodeChar ++ more)
    have hwidth : (ofChar c).width - 1 = rest.length := by
      have hsize := String.length_utf8EncodeChar c
      rw [hbytes, List.length_cons] at hsize
      simp only [ofChar]
      omega
    rw [List.flatMap_cons, hbytes, List.append_assoc, List.cons_append, ofBytes_cons, hleading, hwidth,
      List.drop_left, ih]
    rfl

/-- Glyphs can be cut anywhere: their bytes are read as the two parts. -/
theorem ofBytes_cut {bytes : List UInt8} {gs hs : List Glyph} (h : ofBytes bytes = gs ++ hs) :
    ofBytes (bytes.take (widthOf gs)) = gs ∧ ofBytes (bytes.drop (widthOf gs)) = hs := by
  induction gs generalizing bytes with
  | nil => exact ⟨rfl, h⟩
  | cons g gs ih =>
    cases bytes with
    | nil => cases h
    | cons b rest =>
      rw [ofBytes_cons, List.cons_append, List.cons.injEq] at h
      obtain ⟨rfl, h⟩ := h
      obtain ⟨k, hk⟩ : ∃ k, (leading b rest).width = k + 1 :=
        Nat.exists_eq_add_one.mpr (leads_leading b rest).width_pos
      have hcut : leading b (rest.take (k + widthOf gs)) = leading b rest := leading_take (by omega)
      rw [hk, Nat.add_sub_cancel] at h
      obtain ⟨hfirst, hsecond⟩ := ih h
      rw [widthOf_cons, hk, Nat.add_right_comm, List.take_succ_cons, List.drop_succ_cons,
        ofBytes_cons, hcut, hk, Nat.add_sub_cancel, List.drop_take, Nat.add_sub_cancel_left, hfirst,
        ← List.drop_drop, hsecond]
      exact ⟨rfl, rfl⟩

/-- No byte is lost. -/
theorem widthOf_ofBytes (bytes : List UInt8) : widthOf (ofBytes bytes) = bytes.length := by
  induction hn : bytes.length using Nat.strongRecOn generalizing bytes with
  | ind n ih =>
    cases bytes with
    | nil => exact hn
    | cons b rest =>
      have hpos := (leads_leading b rest).width_pos
      have hle := (leads_leading b rest).width_le
      simp only [List.length_cons] at hn
      rw [ofBytes_cons, widthOf_cons, ih _ _ _ rfl]
      · rw [List.length_drop]
        omega
      · rw [List.length_drop]
        omega

theorem width_pos_of_mem_ofBytes {bytes : List UInt8} {g : Glyph} (h : g ∈ ofBytes bytes) :
    0 < g.width := by
  induction hn : bytes.length using Nat.strongRecOn generalizing bytes with
  | ind n ih =>
    cases bytes with
    | nil => cases h
    | cons b rest =>
      rw [ofBytes_cons, List.mem_cons] at h
      obtain rfl | h := h
      · exact (leads_leading b rest).width_pos
      · refine ih _ ?_ h rfl
        rw [List.length_drop, ← hn, List.length_cons]
        omega

/-- What stands for characters that cannot be read. -/
def replacement : Char := '\uFFFD'

theorem toNat_ofNat_of_valid {n : Nat} (h : n.isValidChar) : (Char.ofNat n).val.toNat = n := by
  rw [Char.ofNat, dif_pos h]
  rfl

/-- The bounds of the second byte keep out what is no sequence. -/
theorem le_secondBounds {a b : UInt8} (h : (secondBounds a).1 ≤ b ∧ b ≤ (secondBounds a).2) :
    (0x80 ≤ b.toNat ∧ b.toNat ≤ 0xBF) ∧ (a.toNat = 0xE0 → 0xA0 ≤ b.toNat) ∧
      (a.toNat = 0xED → b.toNat ≤ 0x9F) ∧ (a.toNat = 0xF0 → 0x90 ≤ b.toNat) ∧
      (a.toNat = 0xF4 → b.toNat ≤ 0x8F) := by
  simp only [secondBounds, ← UInt8.toNat_inj, UInt8.le_iff_toNat_le] at h
  have h₀ : (0xE0 : UInt8).toNat = 0xE0 := rfl
  have h₁ : (0xED : UInt8).toNat = 0xED := rfl
  have h₂ : (0xF0 : UInt8).toNat = 0xF0 := rfl
  have h₃ : (0xF4 : UInt8).toNat = 0xF4 := rfl
  rw [h₀, h₁, h₂, h₃] at h
  split at h
  · simp at h
    omega
  split at h
  · simp at h
    omega
  split at h
  · simp at h
    omega
  split at h <;> simp at h <;> omega

/-- The bytes of a glyph are those of its character, unless it cannot be read. -/
theorem Leads.bytes_eq {a : UInt8} {rest : List UInt8} {g : Glyph} (h : Leads a rest g)
    (hg : g.char ≠ replacement) : a :: rest.take (g.width - 1) = String.utf8EncodeChar g.char := by
  cases h with
  | stray => exact absurd rfl hg
  | one _ ha =>
    have hvalid : a.toNat.isValidChar := .inl (by omega)
    rw [String.utf8EncodeChar.eq_1, toNat_ofNat_of_valid hvalid, if_pos (by omega)]
    simp
  | @two b _ ha hb =>
    rw [isContinuation_iff] at hb
    have hvalid : (a.toNat % 32 * 64 + b.toNat % 64).isValidChar := .inl (by omega)
    rw [String.utf8EncodeChar.eq_1, toNat_ofNat_of_valid hvalid, if_neg (by omega), if_pos (by omega)]
    simp only [Nat.add_one_sub_one, List.take_succ_cons, List.take_zero, List.cons.injEq, and_true,
      ← UInt8.toNat_inj]
    rw [toNat_ofNat (by omega), toNat_ofNat (by omega)]
    omega
  | @three b c _ ha hb hc =>
    rw [isContinuation_iff] at hc
    have hbounds := le_secondBounds hb
    have hvalid : ((a.toNat % 16 * 64 + b.toNat % 64) * 64 + c.toNat % 64).isValidChar := by
      rw [Nat.isValidChar]
      omega
    rw [String.utf8EncodeChar.eq_1, toNat_ofNat_of_valid hvalid, if_neg (by omega), if_neg (by omega),
      if_pos (by omega)]
    simp only [Nat.add_one_sub_one, List.take_succ_cons, List.take_zero, List.cons.injEq, and_true,
      ← UInt8.toNat_inj]
    rw [toNat_ofNat (by omega), toNat_ofNat (by omega), toNat_ofNat (by omega)]
    omega
  | @four b c d _ ha hb hc hd =>
    rw [isContinuation_iff] at hc hd
    have hbounds := le_secondBounds hb
    have hvalid : (((a.toNat % 8 * 64 + b.toNat % 64) * 64 + c.toNat % 64) * 64 +
        d.toNat % 64).isValidChar := by
      rw [Nat.isValidChar]
      omega
    rw [String.utf8EncodeChar.eq_1, toNat_ofNat_of_valid hvalid, if_neg (by omega), if_neg (by omega),
      if_neg (by omega)]
    simp only [Nat.add_one_sub_one, List.take_succ_cons, List.take_zero, List.cons.injEq, and_true,
      ← UInt8.toNat_inj]
    rw [toNat_ofNat (by omega), toNat_ofNat (by omega), toNat_ofNat (by omega), toNat_ofNat (by omega)]
    omega

/-- Glyphs that can be read spell their bytes. -/
theorem bytes_text {bytes : List UInt8} {gs hs : List Glyph} (h : ofBytes bytes = gs ++ hs)
    (hgs : ∀ g ∈ gs, g.char ≠ replacement) : Text.bytes (text gs) = bytes.take (widthOf gs) := by
  induction gs generalizing bytes with
  | nil => rfl
  | cons g gs ih =>
    cases bytes with
    | nil => cases h
    | cons b rest =>
      rw [ofBytes_cons, List.cons_append, List.cons.injEq] at h
      obtain ⟨rfl, h⟩ := h
      rw [List.forall_mem_cons] at hgs
      have hleads := leads_leading b rest
      have hfirst := hleads.bytes_eq hgs.1
      obtain ⟨k, hk⟩ : ∃ k, (leading b rest).width = k + 1 := Nat.exists_eq_add_one.mpr hleads.width_pos
      have hrest := ih h hgs.2
      simp only [Text.bytes, text, String.toList_ofList, List.map_cons, List.flatMap_cons] at hrest ⊢
      rw [hrest, ← hfirst, widthOf_cons, hk, Nat.add_right_comm, List.take_succ_cons,
        Nat.add_sub_cancel, List.cons_append, List.take_add]

/-- A byte below 128 is read as the character that it stands for, and no other byte is. -/
theorem Leads.ascii_iff {a : UInt8} {rest : List UInt8} {g : Glyph} (h : Leads a rest g) {n : UInt8}
    (hn : n.toNat < 0x80) : a = n ↔ g.char = Char.ofNat n.toNat := by
  have hsame : ∀ {v : Nat}, v.isValidChar → (Char.ofNat v = Char.ofNat n.toNat ↔ v = n.toNat) := by
    intro v hv
    have hn' : n.toNat.isValidChar := .inl (by omega)
    rw [← Char.val_inj, ← UInt32.toNat_inj, toNat_ofNat_of_valid hv, toNat_ofNat_of_valid hn']
  rw [← UInt8.toNat_inj]
  cases h with
  | stray _ ha =>
    have hreplacement : replacement = Char.ofNat 0xFFFD := rfl
    change _ ↔ replacement = _
    rw [hreplacement, hsame (.inr (by decide))]
    omega
  | one _ ha => exact (hsame (.inl (by omega))).symm
  | @two b _ ha hb =>
    rw [hsame (.inl (by omega))]
    omega
  | @three b c _ ha hb hc =>
    have hbounds := le_secondBounds hb
    rw [hsame (by rw [Nat.isValidChar]; omega)]
    omega
  | @four b c d _ ha hb hc hd =>
    have hbounds := le_secondBounds hb
    rw [hsame (by rw [Nat.isValidChar]; omega)]
    omega

/-- Behind the first byte of a sequence there are none below 128. -/
theorem Leads.ne_of_mem {a b : UInt8} {rest : List UInt8} {g : Glyph} (h : Leads a rest g)
    (hb : b ∈ rest.take (g.width - 1)) : 0x80 ≤ b.toNat := by
  cases h with
  | stray | one => simp [Glyph.stray] at hb
  | two _ _ hb' =>
    rw [isContinuation_iff] at hb'
    simp only [Nat.add_one_sub_one, List.take_succ_cons, List.take_zero, List.mem_singleton] at hb
    rw [hb]
    exact hb'.1
  | three _ _ hb' hc =>
    rw [isContinuation_iff] at hc
    have hbounds := (le_secondBounds hb').1
    simp only [Nat.add_one_sub_one, List.take_succ_cons, List.take_zero, List.mem_cons,
      List.not_mem_nil, or_false] at hb
    obtain rfl | rfl := hb
    · exact hbounds.1
    · exact hc.1
  | four _ _ hb' hc hd =>
    rw [isContinuation_iff] at hc hd
    have hbounds := (le_secondBounds hb').1
    simp only [Nat.add_one_sub_one, List.take_succ_cons, List.take_zero, List.mem_cons,
      List.not_mem_nil, or_false] at hb
    obtain rfl | rfl | rfl := hb
    · exact hbounds.1
    · exact hc.1
    · exact hd.1

/-- A byte below 128 stands as often as the character that it stands for. -/
theorem count_ofBytes {n : UInt8} (hn : n.toNat < 0x80) (bytes : List UInt8) :
    ((ofBytes bytes).map char).count (Char.ofNat n.toNat) = bytes.count n := by
  induction hlen : bytes.length using Nat.strongRecOn generalizing bytes with
  | ind len ih =>
    cases bytes with
    | nil => rfl
    | cons b rest =>
      have hleads := leads_leading b rest
      have hhead : (rest.take ((leading b rest).width - 1)).count n = 0 := by
        rw [List.count_eq_zero]
        intro hmem
        have := hleads.ne_of_mem hmem
        omega
      have hrest := ih _ (by rw [List.length_drop, ← hlen, List.length_cons]; omega)
        (rest.drop ((leading b rest).width - 1)) rfl
      have hsplit := congrArg (List.count n)
        (List.take_append_drop ((leading b rest).width - 1) rest)
      rw [List.count_append, hhead, Nat.zero_add] at hsplit
      rw [ofBytes_cons, List.map_cons, List.count_cons, List.count_cons, hrest, hsplit]
      simp only [beq_iff_eq, hleads.ascii_iff hn]

end Glyph
end TypedScript
