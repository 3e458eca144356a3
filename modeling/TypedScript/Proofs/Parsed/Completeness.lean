import TypedScript.Proofs.Parsed.Recovery
import TypedScript.Proofs.Token.Layout

/-!
# How far a text is read

A source text is read up to its first NUL and no further: there the lexer sees the end of the input, and
reading a file consumes every token before it.
-/

namespace TypedScript

namespace Lexer

/-- What is read of a text are the bytes before its first NUL. -/
theorem widthOf_readable (bytes : List UInt8) :
    Glyph.widthOf (readable (Glyph.ofBytes bytes)) = (bytes.takeWhile (· != 0)).length := by
  obtain ⟨beyond, hsplit, hbeyond⟩ := readable_append (Glyph.ofBytes bytes)
  obtain ⟨hread, hrest⟩ := Glyph.ofBytes_cut hsplit
  have hle : Glyph.widthOf (readable (Glyph.ofBytes bytes)) ≤ bytes.length := by
    rw [← Glyph.widthOf_ofBytes bytes]
    conv => rhs; rw [hsplit]
    rw [Glyph.widthOf_append]
    exact Nat.le_add_right _ _
  generalize Glyph.widthOf (readable (Glyph.ofBytes bytes)) = n at hread hrest hle ⊢
  have hbefore : ∀ b ∈ bytes.take n, (b != 0) = true := by
    have hcount := Glyph.count_ofBytes (n := 0) (by decide) (bytes.take n)
    have hzero : ((readable (Glyph.ofBytes bytes)).map Glyph.char).count '\x00' = 0 := by
      rw [List.count_eq_zero, List.mem_map]
      rintro ⟨g, hg, hchar⟩
      have hp := List.all_eq_true.mp List.all_takeWhile g hg
      simp [hchar] at hp
    rw [hread, show Char.ofNat (0 : UInt8).toNat = '\x00' from rfl, hzero] at hcount
    intro b hb
    have hne : b ≠ 0 := fun hb' => List.count_eq_zero.mp hcount.symm (hb' ▸ hb)
    simpa using hne
  have hbehind : (bytes.drop n).takeWhile (· != 0) = [] := by
    cases hdrop : bytes.drop n with
    | nil => rfl
    | cons b rest =>
      rw [hdrop, Glyph.ofBytes_cons] at hrest
      have hnul : (Glyph.leading b rest).char = '\x00' := hbeyond _ (by rw [← hrest]; rfl)
      have hb : b = 0 := ((Glyph.leads_leading b rest).ascii_iff (by decide)).mpr hnul
      simp [hb]
  conv => rhs; rw [← List.take_append_drop n bytes]
  rw [List.takeWhile_append_of_pos hbefore, hbehind, List.append_nil, List.length_take]
  omega

end Lexer

namespace Parsed
namespace Reader

/-- A text is read up to its first NUL. The last token, the only one that marks the end of the input,
stands there, and reading a file consumes all valid tokens before it; so a text without a NUL is read to
its last byte. -/
theorem reads_to_first_nul (bytes : List UInt8) :
    let tokens := tokenize (Glyph.ofBytes bytes)
    let stop := (bytes.takeWhile (· != 0)).length
    let start := State.ofTokens tokens
    (∃ words last, tokens = words ++ [last] ∧ last.kind = .endOfInput ∧
      last.span.start.offset = stop ∧ last.span.stop.offset = stop ∧
      start.pending = words.filter fun t => !t.isInvalid) ∧
    ((file (10 * (tokens.length + 2))).run State.recover start).2.pending = [] ∧
    (0 ∉ bytes → stop = bytes.length) := by
  intro tokens stop start
  have hlaid := Lexer.laid_tokenize (Glyph.ofBytes bytes)
  obtain ⟨words, hwords, hne⟩ := hlaid.last_eq
  have htokens : tokens = words ++ _ := hwords
  have hend : ∃ t ∈ tokens, t.kind = .endOfInput :=
    ⟨_, by rw [htokens]; exact List.mem_append_right _ List.mem_cons_self, rfl⟩
  obtain ⟨hwhole, hpending⟩ := State.whole_ofTokens hend
  have hstop : (Position.start.afterAll (Lexer.readable (Glyph.ofBytes bytes))).offset = stop := by
    rw [Position.afterAll_offset, Lexer.widthOf_readable]
    exact Nat.zero_add _
  refine ⟨⟨words, _, htokens, rfl, hstop, hstop, ?_⟩, ?_, fun hnul => ?_⟩
  · rw [hpending, htokens, List.filter_append, List.takeWhile_append_of_pos]
    · simp [Token.isInvalid]
    · intro t ht
      simpa using hne t (List.mem_filter.mp ht).1
  · have hle : (State.ofTokens tokens).left ≤ tokens.length := by
      rw [State.left, hpending]
      exact Nat.le_trans (List.takeWhile_prefix _).length_le (List.length_filter_le _ _)
    have hself : SameBehindMistakes State.recover := fun _ _ => rfl
    have hfile : Runs State.recover State.recover (file (10 * (tokens.length + 2)))
        (file (10 * (tokens.length + 2))) (State.ofTokens tokens)
        fun _ s' => s'.current.kind = .endOfInput := by
      refine (runs_file (recoveries_of_same hself) hwhole ?_ ?_).imp fun _ _ _ h => h.1
      · omega
      · omega
    have hend := State.pending_of_end hfile.result
    generalize file (10 * (tokens.length + 2)) = reader at hend ⊢
    exact hend
  · have hall : bytes.takeWhile (· != 0) = bytes := by
      rw [List.takeWhile_eq_self_iff]
      intro b hb
      simpa using fun hzero : b = 0 => hnul (hzero ▸ hb)
    exact congrArg List.length hall

/-- What follows the NUL is not read. -/
theorem reads_to_first_nul_word :
    (∃ words last, tokenize (Glyph.ofBytes [0x61, 0x3B, 0, 0x62]) = words ++ [last] ∧
      last.kind = .endOfInput ∧ last.span.start.offset = 2) ∧
    0 ∉ ([0x61, 0x3B] : List UInt8) ∧
    ∃ words last, tokenize (Glyph.ofBytes [0x61, 0x3B]) = words ++ [last] ∧
      last.kind = .endOfInput ∧ last.span.start.offset = ([0x61, 0x3B] : List UInt8).length := by
  have hnul : 0 ∉ ([0x61, 0x3B] : List UInt8) := by decide
  obtain ⟨⟨words, last, htokens, hkind, hoffset, -⟩, -⟩ := reads_to_first_nul [0x61, 0x3B, 0, 0x62]
  obtain ⟨⟨words', last', htokens', hkind', hoffset', -⟩, -, hwhole⟩ := reads_to_first_nul [0x61, 0x3B]
  exact ⟨⟨words, last, htokens, hkind, hoffset⟩, hnul, words', last', htokens', hkind',
    hoffset'.trans (hwhole hnul)⟩

end Reader
end Parsed
end TypedScript
