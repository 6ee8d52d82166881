import FractalBreeder.Toml.Writer
import Mathlib.Tactic.SplitIfs

/-!
A text is read back as it was written, whichever quotes it got, and what stands behind its closing
quotes is left over.
-/
namespace FractalBreeder.Toml

/-- What may follow a text: no quote, which would be taken for one of its own. -/
def Unquoted (rest : List Char) : Prop := ∀ c ∈ rest.head?, c ≠ '"' ∧ c ≠ '\''

theorem isPlain_of_not_isControl {c : Char} (harmless : isControl c = false) (inside : c ≠ '\n') :
    isPlain c = true := by
  by_cases tab : c = '\t'
  · simp [isPlain, tab]
  · simp [isControl, tab, inside] at harmless
    simp [isPlain, harmless]

/-! ### Escapes -/

/-- The forms in which a character may stand between basic quotes. -/
inductive Shown (c : Char) : List Char → Prop where
  | symbol {d : Char} : escaped? d = some c → Shown c ['\\', d]
  | code {a b d e : Char} : codePoint? [a, b, d, e] = some c → Shown c ['\\', 'u', a, b, d, e]
  | plain : isPlain c = true → c ≠ '"' → c ≠ '\\' → Shown c [c]

theorem hex4_spec : ∀ n < 128, (hex4 n).length = 4 ∧ codePoint? (hex4 n) = some (Char.ofNat n) := by
  decide +kernel

theorem shown_code {c : Char} (control : isControl c = true) :
    Shown c ('\\' :: 'u' :: hex4 c.toNat) := by
  have small : c.toNat < 128 := by
    simp [isControl] at control
    omega
  obtain ⟨four, back⟩ := hex4_spec c.toNat small
  rw [Char.ofNat_toNat] at back
  match written : hex4 c.toNat, four with
  | [a, b, d, e], _ => exact .code (written ▸ back)

/-- A line break stands as it is where the quotes allow several lines. -/
theorem shown_escape {c : Char} {multiline : Bool} (bare : c ≠ '"')
    (inside : multiline = true → c ≠ '\n') : Shown c (escape multiline c) := by
  unfold escape
  split_ifs with bell tab break_ many feed back slash control
  · exact .symbol (bell ▸ rfl)
  · exact .symbol (tab ▸ rfl)
  · exact absurd break_ (inside many)
  · exact .symbol (break_ ▸ rfl)
  · exact .symbol (feed ▸ rfl)
  · exact .symbol (back ▸ rfl)
  · subst slash
    exact .symbol rfl
  · exact shown_code control
  · exact .plain (isPlain_of_not_isControl (Bool.eq_false_iff.mpr control) break_) bare slash

/-- No code of a character begins like an escape by name, and no name is a blank. -/
theorem named_of_escaped? {c d : Char} (named : escaped? d = some c) :
    d ∉ ['x', 'u', 'U', ' ', '\t', '\n', '\r'] := by
  intro member
  simp only [List.mem_cons, List.not_mem_nil, or_false] at member
  rcases member with rfl | rfl | rfl | rfl | rfl | rfl | rfl <;> cases named

/-! ### On one line -/

theorem basic?_shown {c : Char} {shown : List Char} (s : Shown c shown) (rest : List Char) :
    basic? (shown ++ rest) = push c (basic? rest) := by
  cases s with
  | symbol named =>
      have other := named_of_escaped? named
      simp only [List.mem_cons, not_or] at other
      simp [basic?, named, other]
  | code value => simp [basic?, value]
  | plain plain bare slash => simp [basic?, plain, slash]

theorem basic?_escapeAll (cs rest : List Char) :
    basic? (escapeAll false 0 cs ++ '"' :: rest) = some (cs, rest) := by
  induction cs with
  | nil => simp [escapeAll, basic?]
  | cons c cs ih =>
      by_cases quote : c = '"'
      · subst quote
        have shown : Shown '"' ['\\', '"'] := .symbol rfl
        have reads := basic?_shown shown (escapeAll false 0 cs ++ '"' :: rest)
        simpa [escapeAll, ih, push] using reads
      · have shown : Shown c (escape false c) := shown_escape quote nofun
        simp [escapeAll, quote, basic?_shown shown, ih, push]

theorem literal?_plain {cs : List Char} (plain : ∀ c ∈ cs, isPlain c = true) (bare : '\'' ∉ cs)
    (rest : List Char) : literal? (cs ++ '\'' :: rest) = some (cs, rest) := by
  induction cs with
  | nil => simp [literal?]
  | cons c cs ih =>
      simp only [List.mem_cons, forall_eq_or_imp, not_or] at plain bare
      simp [literal?, Ne.symm bare.1, plain.1, ih plain.2 bare.2, push]

/-! ### Over several lines -/

/-- How a reader of a text in tripled quotes tells the closing ones from those of the content. -/
structure Tripled (q : Char) (read? : List Char → Option (List Char × List Char)) : Prop where
  three {rest : List Char} : Unquoted rest → read? (q :: q :: q :: rest) = some ([], rest)
  four {rest : List Char} : Unquoted rest → read? (q :: q :: q :: q :: rest) = some ([q], rest)
  five {rest : List Char} : read? (q :: q :: q :: q :: q :: rest) = some ([q, q], rest)
  one {c : Char} {rest : List Char} : c ≠ q →
    read? (q :: c :: rest) = push q (read? (c :: rest))
  two {c : Char} {rest : List Char} : c ≠ q →
    read? (q :: q :: c :: rest) = push q (read? (q :: c :: rest))

/-- A content and its written form behind a number of quotes: at most two quotes stand together, and
any other piece is read as one character. -/
inductive Written (q : Char) (read? : List Char → Option (List Char × List Char)) :
    Nat → List Char → List Char → Prop where
  | nil {run : Nat} : Written q read? run [] []
  | quote {run : Nat} {cs written : List Char} : run < 2 → Written q read? (run + 1) cs written →
      Written q read? run (q :: cs) (q :: written)
  | piece {run : Nat} {c d : Char} {cs shown written : List Char} : d ≠ q →
      (∀ rest, read? (d :: shown ++ rest) = push c (read? rest)) → Written q read? 0 cs written →
      Written q read? run (c :: cs) (d :: shown ++ written)

/-- Of five quotes in a row the last three close the text, so that up to two may end the content. -/
theorem Tripled.reads {q : Char} {read? : List Char → Option (List Char × List Char)}
    (tripled : Tripled q read?) {run : Nat} {cs written rest : List Char} (ends : Unquoted rest)
    (w : Written q read? run cs written) :
    read? (written ++ q :: q :: q :: rest) = some (cs, rest) := by
  induction w with
  | nil => exact tripled.three ends
  | piece _ reads _ ih =>
      rw [List.append_assoc, reads, ih]
      rfl
  | quote room inner ih =>
      cases inner with
      | nil => exact tripled.four ends
      | piece other reads after =>
          simp only [List.cons_append, List.append_assoc] at ih ⊢
          rw [tripled.one other, ih]
          rfl
      | quote roomier inner =>
          cases inner with
          | nil => exact tripled.five
          | quote none _ => omega
          | piece other reads after =>
              simp only [List.cons_append, List.append_assoc] at ih ⊢
              rw [tripled.two other, ih]
              rfl

theorem tripled_basicLines : Tripled '"' (basicLines? 0) where
  three {rest} ends := by
    cases rest with
    | nil => simp [basicLines?]
    | cons c rest => simp [basicLines?, (ends c rfl).1]
  four {rest} ends := by
    cases rest with
    | nil => simp [basicLines?]
    | cons c rest => simp [basicLines?, (ends c rfl).1]
  five := by simp [basicLines?]
  one other := by simp [basicLines?, other, isPlain]
  two other := by simp [basicLines?, other, isPlain]

theorem tripled_literalLines : Tripled '\'' literalLines? where
  three {rest} ends := by
    cases rest with
    | nil => simp [literalLines?]
    | cons c rest => simp [literalLines?, (ends c rfl).2]
  four {rest} ends := by
    cases rest with
    | nil => simp [literalLines?]
    | cons c rest => simp [literalLines?, (ends c rfl).2]
  five := by simp [literalLines?]
  one other := by simp [literalLines?, other, isPlain]
  two other := by simp [literalLines?, other, isPlain]

theorem basicLines?_shown {c : Char} {shown : List Char} (s : Shown c shown) (rest : List Char) :
    basicLines? 0 (shown ++ rest) = push c (basicLines? 0 rest) := by
  cases s with
  | @symbol d named =>
      have other := named_of_escaped? named
      simp only [List.mem_cons, not_or] at other
      have unskipped : skipped (d :: rest) = none := by
        simp [skipped, blanksAhead, other]
      simp [basicLines?, named, other, unskipped]
  | code value => simp [basicLines?, value]
  | plain plain bare slash =>
      have kept : c ≠ '\r' := by
        rintro rfl
        cases plain
      simp [basicLines?, plain, bare, slash, kept]

/-- No form of a character begins with a quote or a line break. -/
theorem Shown.head {c : Char} {shown : List Char} (s : Shown c shown) :
    ∃ d more, shown = d :: more ∧ d ∉ ['"', '\n', '\r'] := by
  cases s with
  | symbol _ => exact ⟨_, _, rfl, by decide⟩
  | code _ => exact ⟨_, _, rfl, by decide⟩
  | plain plain bare _ =>
      refine ⟨_, _, rfl, ?_⟩
      simp only [List.mem_cons, List.not_mem_nil, or_false]
      rintro (rfl | rfl | rfl)
      · exact bare rfl
      · cases plain
      · cases plain

theorem written_shown {c : Char} {run : Nat} {shown cs written : List Char} (s : Shown c shown)
    (w : Written '"' (basicLines? 0) 0 cs written) :
    Written '"' (basicLines? 0) run (c :: cs) (shown ++ written) := by
  obtain ⟨d, more, rfl, other⟩ := s.head
  exact .piece (List.ne_of_not_mem_cons other) (basicLines?_shown s) w

theorem written_escapeAll (cs : List Char) :
    ∀ run, Written '"' (basicLines? 0) run cs (escapeAll true run cs) := by
  induction cs with
  | nil => exact fun _ => .nil
  | cons c cs ih =>
      intro run
      unfold escapeAll
      by_cases quote : c = '"'
      · subst quote
        by_cases room : run < 2
        · simpa [room] using .quote room (ih (run + 1))
        · simpa [room] using written_shown (.symbol rfl) (ih 0)
      · rw [if_neg quote]
        by_cases break_ : c = '\n'
        · subst break_
          exact .piece quote (fun rest => by simp [basicLines?]) (ih 0)
        · exact written_shown (shown_escape quote fun _ => break_) (ih 0)

theorem written_plain {cs : List Char} (harmless : ∀ c ∈ cs, isControl c = false) :
    ∀ {run : Nat}, longestRun '\'' cs run ≤ 2 → Written '\'' literalLines? run cs cs := by
  induction cs with
  | nil => exact fun _ => .nil
  | cons c cs ih =>
      intro run short
      simp only [List.mem_cons, forall_eq_or_imp] at harmless
      unfold longestRun at short
      by_cases quote : c = '\''
      · rw [if_pos quote] at short
        subst quote
        exact .quote (by omega) (ih harmless.2 (by omega))
      · rw [if_neg quote] at short
        have kept : c ≠ '\r' := by
          rintro rfl
          exact absurd harmless.1 (by decide)
        have plain : isPlain c = true ∨ c = '\n' := by
          by_cases break_ : c = '\n'
          · exact .inr break_
          · exact .inl (isPlain_of_not_isControl harmless.1 break_)
        have reads (rest : List Char) :
            literalLines? ([c] ++ rest) = push c (literalLines? rest) := by
          simp [literalLines?, quote, kept, plain]
        exact .piece quote reads (ih harmless.2 short)

/-! ### Any text -/

theorem not_mem_of_longestRun {c : Char} {cs : List Char} :
    ∀ {run : Nat}, longestRun c cs run = 0 → c ∉ cs := by
  induction cs with
  | nil => exact fun _ => List.not_mem_nil
  | cons d cs ih =>
      intro run none
      unfold longestRun at none
      split_ifs at none with same
      · omega
      · rw [List.mem_cons, not_or]
        exact ⟨Ne.symm same, ih none⟩

theorem text?_basic {cs : List Char} (single : ¬ ['"', '"'] <+: cs) :
    text? ('"' :: cs) = basic? cs := by
  unfold text?
  split
  next same => exact absurd ⟨_, (List.cons.inj same).2.symm⟩ single
  next same => cases same
  next same => rw [(List.cons.inj same).2]
  next same => cases same
  next other _ => exact absurd rfl (other _)

theorem text?_literal {cs : List Char} (single : ¬ ['\'', '\''] <+: cs) :
    text? ('\'' :: cs) = literal? cs := by
  unfold text?
  split
  next same => cases same
  next same => exact absurd ⟨_, (List.cons.inj same).2.symm⟩ single
  next same => cases same
  next same => rw [(List.cons.inj same).2]
  next other => exact absurd rfl (other _)

theorem opening_eq (quotes cs : List Char) : opening quotes cs = quotes ++ opening [] cs := by
  unfold opening
  split_ifs
  · rfl
  · exact (List.append_nil quotes).symm

/-- The line break that an opening may have does not count, and no other is taken for it. -/
theorem dropBreak_opening {q : Char} {cs written rest : List Char} (quote : q ≠ '\n' ∧ q ≠ '\r')
    (first : ∀ c ∈ written.head?, c ≠ '\r' ∧ (c = '\n' → '\n' ∈ cs)) :
    dropBreak (opening [] cs ++ (written ++ q :: rest)) = written ++ q :: rest := by
  unfold opening
  split_ifs with breaks
  · rfl
  · cases written with
    | nil => simp [dropBreak, quote]
    | cons c written =>
        obtain ⟨kept, same⟩ := first c rfl
        have line : c ≠ '\n' := fun break_ => breaks (List.contains_iff_mem.mpr (same break_))
        simp [dropBreak, line, kept]

theorem head_escapeAll {multiline : Bool} {run : Nat} {cs : List Char} {d : Char}
    (first : d ∈ (escapeAll multiline run cs).head?) :
    d ≠ '\r' ∧ (d = '\n' → '\n' ∈ cs) ∧ (d = '"' → multiline = true) := by
  cases cs with
  | nil => cases first
  | cons c cs =>
      by_cases quote : c = '"'
      · subst quote
        rw [escapeAll, if_pos rfl] at first
        by_cases room : run < if multiline then 2 else 0
        · rw [if_pos room] at first
          obtain rfl := Option.some.inj first
          cases multiline with
          | true => simp
          | false => cases room
        · rw [if_neg room] at first
          obtain rfl := Option.some.inj first
          simp
      · by_cases break_ : multiline = true ∧ c = '\n'
        · obtain ⟨rfl, rfl⟩ := break_
          obtain rfl := Option.some.inj first
          simp
        · have shown := shown_escape quote fun many same => break_ ⟨many, same⟩
          obtain ⟨e, more, form, other⟩ := shown.head
          rw [escapeAll, if_neg quote, form] at first
          obtain rfl := Option.some.inj first
          simp only [List.mem_cons, List.not_mem_nil, or_false, not_or] at other
          exact ⟨other.2.2, fun same => absurd same other.2.1, fun same => absurd same other.1⟩

section

variable {cs : List Char}

theorem bare_of_literal (chosen : quoting cs = .literal) :
    (∀ c ∈ cs, isPlain c = true) ∧ '\'' ∉ cs := by
  simp only [quoting] at chosen
  split_ifs at chosen with _ literal
  simp only [Bool.and_eq_true, Bool.not_eq_true', decide_eq_true_eq] at literal
  obtain ⟨⟨harmless, none⟩, line⟩ := literal
  refine ⟨fun c member => ?_, not_mem_of_longestRun none⟩
  apply isPlain_of_not_isControl (by simpa using List.any_eq_false.mp harmless c member)
  rintro rfl
  simp [member] at line

theorem sparse_of_literalLines (chosen : quoting cs = .literalLines) :
    (∀ c ∈ cs, isControl c = false) ∧ longestRun '\'' cs 0 ≤ 2 := by
  simp only [quoting] at chosen
  split_ifs at chosen with _ _ _ literal
  simp only [Bool.and_eq_true, Bool.not_eq_true', decide_eq_true_eq] at literal
  exact ⟨fun c member => by simpa using List.any_eq_false.mp literal.1 c member, literal.2⟩

end

/-- Where the content does not begin with a quote, the opening one stands alone. -/
theorem alone_of_head {q : Char} {written rest : List Char} (bare : q ∉ written.head?)
    (ends : q ∉ rest.head?) : ¬ [q, q] <+: written ++ q :: rest := by
  rintro ⟨tail, same⟩
  cases written with
  | nil => exact ends ((List.cons.inj same).2 ▸ rfl)
  | cons c written => exact bare ((List.cons.inj same).1 ▸ rfl)

/-- A text is read back as it was written. -/
theorem text?_writeText (cs : List Char) {rest : List Char} (ends : Unquoted rest) :
    text? (writeText cs ++ rest) = some (cs, rest) := by
  unfold writeText
  cases chosen : quoting cs with
  | basic =>
      have single : ¬ ['"', '"'] <+: escapeAll false 0 cs ++ '"' :: rest :=
        alone_of_head (fun first => nomatch (head_escapeAll first).2.2 rfl)
          fun first => (ends _ first).1 rfl
      simp only [List.append_assoc, List.cons_append, List.nil_append]
      rw [text?_basic single, basic?_escapeAll]
  | literal =>
      obtain ⟨plain, bare⟩ := bare_of_literal chosen
      have single : ¬ ['\'', '\''] <+: cs ++ '\'' :: rest :=
        alone_of_head (fun first => bare (List.mem_of_mem_head? first))
          fun first => (ends _ first).2 rfl
      simp only [List.append_assoc, List.cons_append, List.nil_append]
      rw [text?_literal single, literal?_plain plain bare]
  | basicLines =>
      have reads := tripled_basicLines.reads ends (written_escapeAll cs 0)
      have first : ∀ c ∈ (escapeAll true 0 cs).head?, c ≠ '\r' ∧ (c = '\n' → '\n' ∈ cs) :=
        fun c first => ⟨(head_escapeAll first).1, (head_escapeAll first).2.1⟩
      simp only [List.append_assoc, List.cons_append, List.nil_append, opening_eq ['"', '"', '"']]
      change basicLines? 0 (dropBreak _) = _
      rw [dropBreak_opening (by decide) first, reads]
  | literalLines =>
      obtain ⟨harmless, short⟩ := sparse_of_literalLines chosen
      have reads := tripled_literalLines.reads ends (written_plain harmless short)
      have first : ∀ c ∈ cs.head?, c ≠ '\r' ∧ (c = '\n' → '\n' ∈ cs) := by
        intro c first
        have member := List.mem_of_mem_head? first
        refine ⟨?_, fun same => same ▸ member⟩
        rintro rfl
        exact absurd (harmless _ member) (by decide)
      simp only [List.append_assoc, List.cons_append, List.nil_append,
        opening_eq ['\'', '\'', '\'']]
      change literalLines? (dropBreak _) = _
      rw [dropBreak_opening (by decide) first, reads]

end FractalBreeder.Toml
