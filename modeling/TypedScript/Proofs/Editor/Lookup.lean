import TypedScript.Editor.Basic
import TypedScript.Proofs.Compilation
import TypedScript.Proofs.Token.Names

/-!
# Names at the cursor

The tokens of a document say where its names are, and an editor finds the name again at that place if the
line is ASCII up to there: only then its column counts bytes as well as characters. The name itself has
to consist of bytes that belong to words, and the byte behind it must not be one.
-/

namespace TypedScript
namespace Editor

theorem lines_ne_nil (bytes : List UInt8) : lines bytes ≠ [] := by
  cases bytes with
  | nil => simp [lines]
  | cons b rest =>
    rw [lines]
    split
    · simp
    · split <;> simp

/-- The first line ends before the first line break. -/
theorem head_lines (bytes : List UInt8) : (lines bytes)[0]? = some (bytes.takeWhile (· != 10)) := by
  induction bytes with
  | nil => rfl
  | cons b rest ih =>
    rw [lines]
    split
    · next hb => simp [hb]
    · next hb =>
      obtain ⟨line, others, hlines⟩ := List.exists_cons_of_ne_nil (lines_ne_nil rest)
      rw [hlines] at ih
      obtain rfl : line = rest.takeWhile (· != 10) := by simpa using ih
      simp [hlines, hb]

/-- Behind whole lines the first line of what is left is the one with their number. -/
theorem lines_append {whole : List UInt8} (hwhole : ∀ b ∈ whole.getLast?, b = 10)
    (rest : List UInt8) : (lines (whole ++ rest))[whole.count 10]? = (lines rest)[0]? := by
  induction whole with
  | nil => rfl
  | cons b whole ih =>
    cases whole with
    | nil =>
      obtain rfl : b = 10 := hwhole b rfl
      rfl
    | cons a whole =>
      have hrest := ih (by simpa using hwhole)
      rw [List.cons_append, lines]
      by_cases hb : b = 10
      · rw [if_pos hb, hb, List.count_cons_self, List.getElem?_cons_succ]
        exact hrest
      · have hpos : 0 < (a :: whole).count 10 := by
          have hlast : (a :: whole).getLast (by simp) = 10 := by
            refine hwhole _ ?_
            rw [List.getLast?_cons_cons]
            exact List.getLast?_eq_some_getLast _
          exact List.count_pos_iff.mpr (hlast ▸ List.getLast_mem _)
        obtain ⟨n, hn⟩ := Nat.exists_eq_succ_of_ne_zero hpos.ne'
        obtain ⟨line, others, hlines⟩ := List.exists_cons_of_ne_nil (lines_ne_nil (a :: whole ++ rest))
        rw [if_neg hb, hlines]
        rw [hlines, hn, List.getElem?_cons_succ] at hrest
        rw [List.count_cons_of_ne hb, hn, List.getElem?_cons_succ]
        exact hrest

theorem isWordByte_lineBreak : isWordByte 10 = false := by decide +kernel

/-- A word does not go over the end of a line. -/
theorem takeWhile_line (bytes : List UInt8) :
    (bytes.takeWhile (· != 10)).takeWhile isWordByte = bytes.takeWhile isWordByte := by
  rw [List.takeWhile_takeWhile]
  congr 1
  funext b
  by_cases hb : b = 10
  · rw [hb, isWordByte_lineBreak]
    rfl
  · simp [hb]

/-- At the end of an ASCII part of a line that is no part of a word, the word is what follows. -/
theorem wordAt_eq {text : String} {c : Cursor} {whole before behind : List UInt8}
    (htext : Text.bytes text = whole ++ (before ++ behind)) (hwhole : ∀ b ∈ whole.getLast?, b = 10)
    (hbefore : ∀ b ∈ before, b ≠ 10) (hlast : ∀ b ∈ before.getLast?, isWordByte b = false)
    (hline : c.line = whole.count 10) (hcolumn : c.column = before.length) :
    wordAt text c = behind.takeWhile isWordByte := by
  have hcurrent : (lines (Text.bytes text))[c.line]? =
      some (before ++ behind.takeWhile (· != 10)) := by
    rw [htext, hline, lines_append hwhole, head_lines,
      List.takeWhile_append_of_pos (by simpa using hbefore)]
  have htrailing : trailing isWordByte before = [] := by
    cases before using List.reverseRecOn with
    | nil => rfl
    | append_singleton before b => simp [trailing, hlast b (by simp)]
  rw [wordAt, around?, hcurrent, Option.map_some, hcolumn, List.take_left, List.drop_left]
  dsimp only
  rw [htrailing, List.nil_append, takeWhile_line]

end Editor

/-- Bytes that stand for the first characters. -/
def Text.IsAscii (bytes : List UInt8) : Prop := ∀ b ∈ bytes, b.toNat < 0x80

theorem Glyph.ofBytes_of_isAscii {bytes : List UInt8} (h : Text.IsAscii bytes) :
    ofBytes bytes = bytes.map fun b => ⟨Char.ofNat b.toNat, 1⟩ := by
  induction bytes with
  | nil => rfl
  | cons b rest ih =>
    rw [Text.IsAscii, List.forall_mem_cons] at h
    rw [ofBytes_cons, leading_one h.1]
    exact congrArg _ (ih h.2)

theorem Text.bytes_injective {s t : String} (h : bytes s = bytes t) : s = t := by
  have hsame := congrArg ofBytes? h
  rwa [ofBytes?_bytes, ofBytes?_bytes, Option.some.injEq] at hsame

namespace Editor

def lineBefore (text : String) (p : Position) : List UInt8 :=
  ((Text.bytes text).take p.offset).rtakeWhile (· != 10)

/-- A position does not stand directly behind a digit or a character of a name. -/
def StandsFree (text : String) (p : Position) : Prop :=
  ∀ g ∈ (Glyph.ofBytes ((Text.bytes text).take p.offset)).getLast?, Lexer.isNameChar g.char = false

section

variable {text : String} {t : Token}

theorem exact_token (ht : t ∈ tokenize (Glyph.ofString text)) : t.Exact (Text.bytes text) := by
  have hsource : Glyph.ofString text = Glyph.ofBytes (Text.bytes text) :=
    (Glyph.ofBytes_bytes text.toList).symm
  rw [hsource] at ht
  exact (Lexer.exact_tokenize (Text.bytes text)).1 t ht

/-- Where a token starts on an ASCII line, the cursor is before the token. -/
theorem wordAt_token (ht : t ∈ tokenize (Glyph.ofString text))
    (hline : Text.IsAscii (lineBefore text t.span.start)) (hfree : StandsFree text t.span.start) :
    wordAt text (.ofPosition t.span.start) =
      ((Text.bytes text).drop t.span.start.offset).takeWhile isWordByte := by
  have hstart := (exact_token ht).start
  obtain ⟨part, hpart⟩ : ∃ part, part = (Text.bytes text).take t.span.start.offset := ⟨_, rfl⟩
  have hsplit : part.rdropWhile (· != 10) ++ part.rtakeWhile (· != 10) = part :=
    List.rdropWhile_append_rtakeWhile
  have hbefore : ∀ b ∈ part.rtakeWhile (· != 10), b ≠ 10 := fun b hb => by
    simpa using List.mem_rtakeWhile_imp hb
  have hascii : Text.IsAscii (part.rtakeWhile (· != 10)) := hpart ▸ hline
  have htext : Text.bytes text = part.rdropWhile (· != 10) ++
      (part.rtakeWhile (· != 10) ++ (Text.bytes text).drop t.span.start.offset) := by
    rw [← List.append_assoc, hsplit, hpart, List.take_append_drop]
  refine wordAt_eq htext ?_ hbefore ?_ ?_ ?_
  · intro b hb
    obtain ⟨hne, hlast⟩ := List.mem_getLast?_eq_getLast hb
    have hnot := List.rdropWhile_last_not (fun b : UInt8 => b != 10) part hne
    simpa [hlast] using hnot
  · intro b hb
    obtain ⟨rest, hrest⟩ : ∃ rest, part.rtakeWhile (· != 10) = rest ++ [b] :=
      List.getLast?_eq_some_iff.mp hb
    have hglyphs : Glyph.ofBytes (part.rtakeWhile (· != 10)) =
        (Glyph.ofBytes part).rtakeWhile Glyph.isInLine := Glyph.ofBytes_rtakeWhile rfl
    rw [Glyph.ofBytes_of_isAscii hascii, hrest, List.map_append] at hglyphs
    obtain ⟨earlier, hearlier⟩ := List.rtakeWhile_suffix Glyph.isInLine (Glyph.ofBytes part)
    rw [← hglyphs] at hearlier
    have hname := hfree ⟨Char.ofNat b.toNat, 1⟩ (by rw [← hpart, ← hearlier]; simp)
    exact hname
  · have hcount : part.count 10 = (part.rdropWhile (· != 10)).count 10 := by
      have hzero : (part.rtakeWhile (· != 10)).count 10 = 0 :=
        List.count_eq_zero.mpr fun h => hbefore 10 h rfl
      rw [← hsplit, List.count_append, hsplit, hzero, Nat.add_zero]
    rw [hstart, ← hcount, hpart]
    exact Nat.add_sub_cancel_left _ _
  · have hlength := congrArg List.length (Glyph.ofBytes_of_isAscii hascii)
    rw [List.length_map] at hlength
    rw [hstart, ← hlength, hpart]
    exact Nat.add_sub_cancel_left _ _

/-- The literal of a name is what stands at its place. -/
theorem bytes_at_name (ht : t ∈ tokenize (Glyph.ofString text)) (hkind : t.kind = .identifier) :
    (Text.bytes text).drop t.span.start.offset =
      Text.bytes t.literal ++ (Text.bytes text).drop t.span.stop.offset := by
  have hle := ((exact_token ht).nonempty (by rw [hkind]; decide)).le
  obtain ⟨n, hn⟩ := Nat.exists_eq_add_of_le hle
  rw [(exact_token ht).verbatim (by rw [hkind]; decide), Text.slice, hn, Nat.add_sub_cancel_left,
    ← List.drop_drop]
  exact (List.take_append_drop _ _).symm

theorem takeWhile_append_eq_left {α : Type} {p : α → Bool} {xs ys : List α} :
    (xs ++ ys).takeWhile p = xs ↔ (∀ x ∈ xs, p x) ∧ ∀ y ∈ ys.head?, p y = false := by
  constructor
  · intro h
    have hxs : ∀ x ∈ xs, p x := fun x hx => List.mem_takeWhile_imp (h ▸ hx)
    refine ⟨hxs, fun y hy => ?_⟩
    rw [List.takeWhile_append_of_pos hxs, List.append_right_eq_self] at h
    obtain ⟨rest, rfl⟩ := List.head?_eq_some_iff.mp hy
    by_contra hne
    rw [List.takeWhile_cons_of_pos (by simpa using hne)] at h
    cases h
  · rintro ⟨hxs, hys⟩
    rw [List.takeWhile_append_of_pos hxs]
    cases ys with
    | nil => simp
    | cons y ys => simp [hys y rfl]

/-- A name of ASCII characters is a word, unless a byte beyond ASCII follows it. -/
theorem isWord_name (ht : t ∈ tokenize (Glyph.ofString text)) (hkind : t.kind = .identifier)
    (hliteral : Text.IsAscii (Text.bytes t.literal))
    (hnext : ∀ b ∈ ((Text.bytes text).drop t.span.stop.offset).head?, b.toNat < 0x80) :
    (∀ b ∈ Text.bytes t.literal, isWordByte b) ∧
      ∀ b ∈ ((Text.bytes text).drop t.span.stop.offset).head?, isWordByte b = false := by
  obtain ⟨before, read, rest, hnamed⟩ := Lexer.named_tokenize ht hkind
  have hsource : Glyph.ofBytes (Text.bytes text) = before ++ read ++ rest := by
    rw [List.append_assoc, ← hnamed.glyphs]
    exact Glyph.ofBytes_bytes text.toList
  refine ⟨fun b hb => ?_, fun b hb => ?_⟩
  · have hglyphs : Glyph.ofBytes (Text.bytes t.literal) = t.literal.toList.map Glyph.ofChar :=
      Glyph.ofBytes_bytes _
    rw [Glyph.ofBytes_of_isAscii hliteral] at hglyphs
    have hmem : (⟨Char.ofNat b.toNat, 1⟩ : Glyph) ∈ t.literal.toList.map Glyph.ofChar := by
      rw [← hglyphs]
      exact List.mem_map_of_mem hb
    obtain ⟨c, hc, hglyph⟩ := List.mem_map.mp hmem
    obtain rfl : c = Char.ofNat b.toNat := congrArg Glyph.char hglyph
    rw [hnamed.literal, Glyph.text, String.toList_ofList] at hc
    obtain ⟨g, hg, hchar⟩ := List.mem_map.mp hc
    have hname := hnamed.name g hg
    rw [hchar] at hname
    exact hname
  · have hoffset : t.span.stop.offset = Glyph.widthOf (before ++ read) := by
      rw [hnamed.span, Position.afterAll_offset]
      exact Nat.zero_add _
    have hbehind := (Glyph.ofBytes_cut hsource).2
    rw [← hoffset] at hbehind
    obtain ⟨more, hmore⟩ := List.head?_eq_some_iff.mp hb
    rw [hmore, Glyph.ofBytes_cons, Glyph.leading_one (hnext b hb)] at hbehind
    have hname := hnamed.longest ⟨Char.ofNat b.toNat, 1⟩ (by rw [← hbehind]; rfl)
    exact hname

/-- Whether a word is a name. -/
theorem beq_bytes (name literal : String) :
    (Text.bytes name == Text.bytes literal) = (name == literal) := by
  by_cases h : name = literal
  · rw [h, beq_self_eq_true, beq_self_eq_true]
  · have hbytes : Text.bytes name ≠ Text.bytes literal := fun heq => h (Text.bytes_injective heq)
    rw [beq_eq_false_iff_ne.mpr h, beq_eq_false_iff_ne.mpr hbytes]

variable {e : Editor} {uri : String} {d : Document} {c : Cursor} {name : String}

/-- The declaration of the name at the cursor. -/
theorem hover_eq (hd : e.document? uri = some d) (hword : wordAt d.text c = Text.bytes name)
    {a : Analysis} (ha : d.compilation.analysis? = some a) :
    e.hover uri c = match a.globals.find? name with
      | some s => some <$> describe a.registry s
      | none => .ok none := by
  have hfind : globalNamed? a.globals (Text.bytes name) = a.globals.find? name := by
    simp only [globalNamed?, Frame.find?, beq_bytes]
  rw [hover, hd]
  dsimp only
  rw [ha]
  dsimp only
  rw [hword, hfind]
  cases a.globals.find? name with
  | none => rfl
  | some s => rfl

/-- The place of the function or global with the name at the cursor. -/
theorem definition_eq (hd : e.document? uri = some d) (hname : name ≠ "")
    (hword : wordAt d.text c = Text.bytes name) :
    e.definition uri c = (((d.compilation.file.functions.find? (·.name == name)).map (·.span)) <|>
      ((d.compilation.file.globals.find? (·.name == name)).map (·.span))).map CursorRange.ofSpan := by
  have hsome : (Text.bytes name).isEmpty = false := by
    rw [List.isEmpty_eq_false_iff]
    exact fun hnil => hname (Text.bytes_injective hnil)
  rw [definition, hd]
  simp only [Option.bind_eq_bind, Option.bind_some, hword, hsome, beq_bytes,
    Bool.false_eq_true, if_false]
  exact Option.map_eq_bind.symm

/-- The editor finds the name of a token where the token starts, if the line is ASCII up to the character
behind the name; and where it finds it, it shows the declaration of the global and the place of the
function or global with that name. In general, on a line that is ASCII before the name, it finds just the
names whose bytes all belong to words, with none that does behind them. -/
theorem lookup_agrees (ht : t ∈ tokenize (Glyph.ofString text)) (hkind : t.kind = .identifier)
    (hline : Text.IsAscii (lineBefore text t.span.start)) (hfree : StandsFree text t.span.start) :
    (Text.IsAscii (Text.bytes t.literal) →
      (∀ b ∈ ((Text.bytes text).drop t.span.stop.offset).head?, b.toNat < 0x80) →
      wordAt text (.ofPosition t.span.start) = Text.bytes t.literal) ∧
    (wordAt text (.ofPosition t.span.start) = Text.bytes t.literal ↔
      (∀ b ∈ Text.bytes t.literal, isWordByte b) ∧
        ∀ b ∈ ((Text.bytes text).drop t.span.stop.offset).head?, isWordByte b = false) ∧
    (wordAt text (.ofPosition t.span.start) = Text.bytes t.literal →
      ∀ {e : Editor} {uri : String} {d : Document}, e.document? uri = some d → d.text = text →
        (∀ a, d.compilation.analysis? = some a →
          e.hover uri (.ofPosition t.span.start) = match a.globals.find? t.literal with
            | some s => some <$> describe a.registry s
            | none => .ok none) ∧
        e.definition uri (.ofPosition t.span.start) =
          (((d.compilation.file.functions.find? (·.name == t.literal)).map (·.span)) <|>
            ((d.compilation.file.globals.find? (·.name == t.literal)).map (·.span))).map
              CursorRange.ofSpan) := by
  have hword : wordAt text (.ofPosition t.span.start) = Text.bytes t.literal ↔
      (∀ b ∈ Text.bytes t.literal, isWordByte b) ∧
        ∀ b ∈ ((Text.bytes text).drop t.span.stop.offset).head?, isWordByte b = false := by
    rw [wordAt_token ht hline hfree, bytes_at_name ht hkind, takeWhile_append_eq_left]
  refine ⟨fun hliteral hnext => hword.mpr (isWord_name ht hkind hliteral hnext), hword, ?_⟩
  intro heq e uri d hd htext
  subst htext
  have hname : t.literal ≠ "" := by
    intro hnil
    have hnonempty := (exact_token ht).nonempty (by rw [hkind]; decide)
    have hinside := (exact_token ht).inside
    have hlength := congrArg List.length (bytes_at_name ht hkind)
    simp only [hnil, Text.bytes, String.toList_empty, List.flatMap_nil, List.nil_append,
      List.length_drop] at hlength hinside
    omega
  exact ⟨fun a ha => hover_eq hd heq ha, definition_eq hd hname heq⟩

end

theorem document?_of_update {e e' : Editor} {uri text : String} {d : Document}
    (h : e.update uri text = .ok (d, e')) : e'.document? uri = some d ∧ d.text = text := by
  unfold update at h
  cases hrun : compile (Glyph.ofString text) ⟨uri, "", e.warningsAsErrors⟩ with
  | error defect =>
    rw [hrun] at h
    cases h
  | ok c =>
    rw [hrun] at h
    cases h
    simp [document?]

def counting : String := "var n = 1;"

theorem lookup_agrees_counting : ∃ d e, update ⟨false, []⟩ "counting" counting = .ok (d, e) ∧
    ⟨.identifier, "n", ⟨⟨4, 1, 5⟩, ⟨5, 1, 6⟩⟩⟩ ∈ tokenize (Glyph.ofString counting) ∧
    wordAt counting ⟨0, 4⟩ = Text.bytes "n" ∧
    e.hover "counting" ⟨0, 4⟩ = .ok (some "var n: i32") ∧
    e.definition "counting" ⟨0, 4⟩ = some ⟨⟨0, 0⟩, ⟨0, 10⟩⟩ := by
  have ht : ⟨.identifier, "n", ⟨⟨4, 1, 5⟩, ⟨5, 1, 6⟩⟩⟩ ∈ tokenize (Glyph.ofString counting) := by
    decide +kernel
  obtain ⟨hascii, -, hfinds⟩ := lookup_agrees ht rfl
    (show ∀ b ∈ lineBefore counting ⟨4, 1, 5⟩, b.toNat < 0x80 by decide +kernel)
    (show ∀ g ∈ (Glyph.ofBytes ((Text.bytes counting).take 4)).getLast?,
      Lexer.isNameChar g.char = false by decide +kernel)
  have hword : wordAt counting ⟨0, 4⟩ = Text.bytes "n" :=
    hascii (show ∀ b ∈ Text.bytes "n", b.toNat < 0x80 by decide +kernel)
      (show ∀ b ∈ ((Text.bytes counting).drop 5).head?, b.toNat < 0x80 by decide +kernel)
  have hall : ((update ⟨false, []⟩ "counting" counting).toOption.any fun updated =>
      (updated.1.compilation.analysis?.any fun a => (a.globals.find? "n").any fun s =>
        (describe a.registry s).toOption == some "var n: i32") &&
      updated.1.compilation.file.functions.isEmpty &&
      (updated.1.compilation.file.globals.find? (·.name == "n")).map (CursorRange.ofSpan ·.span) ==
        some ⟨⟨0, 0⟩, ⟨0, 10⟩⟩) = true := by decide +kernel
  obtain ⟨⟨d, e⟩, hupdate, hall⟩ := exists_of_toOption_any hall
  obtain ⟨hdocument, htext⟩ := document?_of_update hupdate
  obtain ⟨hhover, hdefinition⟩ := hfinds hword hdocument htext
  simp only [Bool.and_eq_true, beq_iff_eq, List.isEmpty_iff] at hall
  obtain ⟨⟨hglobal, hfunctions⟩, hspan⟩ := hall
  obtain ⟨a, ha, hsymbol⟩ := (Option.any_eq_true _ _).mp hglobal
  obtain ⟨s, hs, hdescribed⟩ := (Option.any_eq_true _ _).mp hsymbol
  refine ⟨d, e, hupdate, ht, hword, ?_, ?_⟩
  · have hdescribe : describe a.registry s = .ok "var n: i32" := by
      cases hrun : describe a.registry s with
      | error => simp [hrun, Except.toOption] at hdescribed
      | ok text => simpa [hrun, Except.toOption] using hdescribed
    refine (hhover a ha).trans ?_
    rw [hs]
    dsimp only
    rw [hdescribe]
    rfl
  · refine hdefinition.trans ?_
    rw [hfunctions]
    simpa using hspan

end Editor
end TypedScript
