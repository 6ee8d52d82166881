import FractalBreeder.Proofs.Toml.Numerals
import FractalBreeder.Proofs.Toml.Quoting

/-!
A file of sections is read back as it was written: every line gives its value to its key, in the
section whose header stands above it.
-/
namespace FractalBreeder

/-- A value as a file keeps it: what is no number loses its sign. -/
def Value.unsigned : Value → Value
  | .float x => .float (.float x.value)
  | v => v

/-- Lists, tables and integers beyond 64 bits with a sign have no place on a line. -/
def Value.IsScalar : Value → Prop
  | .bool _ | .float _ | .text _ => True
  | .int n => -2 ^ 63 ≤ n ∧ n < 2 ^ 63
  | _ => False

namespace Toml

open Text (skipBlanks isBlank)

/-! ### Values -/

/-- A value on its line: no blank comes first, and it is read up to the end of the line. -/
structure Stands (cs : List Char) (v : Value) : Prop where
  solid : ∃ c more, cs = c :: more ∧ isBlank c = false
  reads : ∀ nesting rest, value? nesting (cs ++ '\n' :: rest) = some (v, '\n' :: rest)

theorem head_writeText (cs : List Char) :
    ∃ q more, writeText cs = q :: more ∧ (q = '"' ∨ q = '\'') := by
  unfold writeText
  cases quoting cs with
  | basic => exact ⟨_, _, rfl, .inl rfl⟩
  | literal => exact ⟨_, _, rfl, .inr rfl⟩
  | basicLines =>
      simp only [opening_eq ['"', '"', '"']]
      exact ⟨_, _, rfl, .inl rfl⟩
  | literalLines =>
      simp only [opening_eq ['\'', '\'', '\'']]
      exact ⟨_, _, rfl, .inr rfl⟩

theorem stands_text (s : String) : Stands (writeText s.toList) (.text s) := by
  obtain ⟨q, more, form, quote⟩ := head_writeText s.toList
  refine ⟨⟨q, more, form, ?_⟩, fun nesting rest => ?_⟩
  · rcases quote with rfl | rfl <;> rfl
  · have ends : Unquoted ('\n' :: rest) := by simp [Unquoted]
    have reads := text?_writeText s.toList ends
    rw [form, List.cons_append] at reads ⊢
    rcases quote with rfl | rfl
    · simp [value?, reads]
    · simp [value?, reads]

/-- No token begins like a text, a list or a table, or is blank. -/
theorem not_mem_of_isTokenChar {c : Char} (inside : isTokenChar c = true) :
    c ∉ ['"', '\'', '[', '\x7b', ' ', '\t'] := by
  intro member
  simp only [List.mem_cons, List.not_mem_nil, or_false] at member
  rcases member with rfl | rfl | rfl | rfl | rfl | rfl <;> cases inside

theorem value?_token {c : Char} (inside : isTokenChar c = true) (nesting : Nat) (cs : List Char) :
    value? nesting (c :: cs) =
      (scalar? (token (c :: cs)).1).map (·, (token (c :: cs)).2) := by
  have other := not_mem_of_isTokenChar inside
  simp only [List.mem_cons, not_or] at other
  unfold value?
  split <;> simp_all

theorem stands_token {cs : List Char} {v : Value} (nonempty : cs ≠ [])
    (all : ∀ c ∈ cs, isTokenChar c = true) (read : scalar? cs = some v) : Stands cs v := by
  obtain ⟨c, more, rfl⟩ := List.exists_cons_of_ne_nil nonempty
  have first := all c List.mem_cons_self
  have other := not_mem_of_isTokenChar first
  simp only [List.mem_cons, not_or] at other
  refine ⟨⟨c, more, rfl, by simp [isBlank, other]⟩, fun nesting rest => ?_⟩
  have stops : ∀ d ∈ ('\n' :: rest).head?, isTokenChar d = false := by
    simp [isTokenChar, isBare]
  have cut : token (c :: more ++ '\n' :: rest) = (c :: more, '\n' :: rest) := by
    simp only [token, Literal.takeWhile_stopped all stops]
    rfl
  rw [List.cons_append, value?_token first, ← List.cons_append, cut, read]
  rfl

theorem isTokenChar_of_isDigit {c : Char} (digit : Decimal.isDigit c = true) :
    isTokenChar c = true := by
  have bare : isBare c = true := by
    simp only [Decimal.isDigit] at digit
    simp [isBare, digit]
  rw [isTokenChar, bare, Bool.true_or, Bool.true_or, Bool.true_or]

theorem token_signed {negative : Bool} {cs : List Char} (all : ∀ c ∈ cs, isTokenChar c = true) :
    ∀ c ∈ signed negative cs, isTokenChar c = true := by
  cases negative with
  | false => exact all
  | true => exact List.forall_mem_cons.mpr ⟨rfl, all⟩

theorem signed_ne_nil {negative : Bool} {cs : List Char} (nonempty : cs ≠ []) :
    signed negative cs ≠ [] := by
  cases negative with
  | false => exact nonempty
  | true => exact List.cons_ne_nil _ _

theorem Pointed.ne_nil {cs : List Char} {d : Decimal} (p : Pointed cs d) : cs ≠ [] := by
  obtain @⟨whole, fraction, isWhole, -, -⟩ := p
  exact List.append_ne_nil_of_left_ne_nil isWhole.nonempty _

theorem token_pointed {cs : List Char} {d : Decimal} (p : Pointed cs d) :
    ∀ c ∈ cs, isTokenChar c = true := by
  obtain @⟨whole, fraction, isWhole, -, digits⟩ := p
  intro c member
  rcases List.mem_append.mp member with front | back
  · exact isTokenChar_of_isDigit (isWhole.digits c front)
  · rcases List.mem_cons.mp back with rfl | behind
    · rfl
    · exact isTokenChar_of_isDigit (digits c behind)

theorem stands_writeInt {n : Int} {cs : List Char} (written : writeInt? n = some cs) :
    Stands cs (.int n) := by
  have read := scalar?_writeInt written
  obtain ⟨m, -, rfl⟩ := Option.map_eq_some_iff.mp written
  rw [toList_toString] at read ⊢
  have whole := whole_toDigits m.natAbs
  refine stands_token (signed_ne_nil whole.nonempty) (token_signed ?_) read
  exact fun c member => isTokenChar_of_isDigit (whole.digits c member)

theorem stands_float {x : Float} {cs : List Char} (form : FloatForm x cs) :
    Stands cs (.float (.float x)) := by
  have read := form.scalar?
  cases form with
  | notANumber _ => exact stands_token (by decide) (List.all_eq_true.mp rfl) read
  | infinite _ =>
      have letters : ∀ c ∈ "inf".toList, isTokenChar c = true := List.all_eq_true.mp rfl
      exact stands_token (signed_ne_nil (by decide)) (token_signed letters) read
  | finite pointed _ =>
      exact stands_token (signed_ne_nil pointed.ne_nil) (token_signed (token_pointed pointed)) read

theorem stands_writeScalar {v : Value} {cs : List Char} (written : writeScalar? v = some cs) :
    Stands cs v.unsigned := by
  cases v with
  | bool b =>
      obtain rfl := Option.some.inj written
      cases b with
      | true => exact stands_token (by decide) (List.all_eq_true.mp rfl) rfl
      | false => exact stands_token (by decide) (List.all_eq_true.mp rfl) rfl
  | int n => exact stands_writeInt written
  | float x =>
      obtain rfl := Option.some.inj written
      exact stands_float (floatForm x.value)
  | text s =>
      obtain rfl := Option.some.inj written
      exact stands_text s
  | _ => cases written

/-! ### Keys -/

/-- Keys that stand in a file without quotes. -/
def IsBareKey (key : String) : Prop := key.toList ≠ [] ∧ key.toList.all isBare = true

instance : DecidablePred IsBareKey := fun _ => inferInstanceAs (Decidable (_ ∧ _))

/-- No bare key begins like a text, a header or a comment, or is blank. -/
theorem not_mem_of_isBare {c : Char} (bare : isBare c = true) :
    c ∉ ['"', '\'', '[', '#', ' ', '\t', '\n', '\r'] := by
  intro member
  simp only [List.mem_cons, List.not_mem_nil, or_false] at member
  rcases member with rfl | rfl | rfl | rfl | rfl | rfl | rfl | rfl <;> cases bare

theorem IsBareKey.first {key : String} (bare : IsBareKey key) :
    ∃ c more, key.toList = c :: more ∧ c ∉ ['"', '\'', '[', '#', ' ', '\t', '\n', '\r'] := by
  obtain ⟨nonempty, all⟩ := bare
  cases named : key.toList with
  | nil => exact absurd named nonempty
  | cons c more =>
      rw [named, List.all_cons, Bool.and_eq_true] at all
      exact ⟨c, more, rfl, not_mem_of_isBare all.1⟩

theorem key?_bare {key : String} (bare : IsBareKey key) {rest : List Char}
    (stops : ∀ c ∈ rest.head?, isBare c = false) : key? (key.toList ++ rest) = some (key, rest) := by
  obtain ⟨front, back⟩ := Literal.takeWhile_stopped (List.all_eq_true.mp bare.2) stops
  obtain ⟨c, more, named, other⟩ := bare.first
  simp only [List.mem_cons, not_or] at other
  unfold key?
  split
  next same =>
    rw [named] at same
    exact absurd (List.cons.inj same).1 other.1
  next same =>
    rw [named] at same
    exact absurd (List.cons.inj same).1 other.2.1
  next =>
    rw [front, back, String.ofList_toList, if_neg]
    simpa using bare.1

theorem path?_bare {key : String} (bare : IsBareKey key) {rest : List Char}
    (stops : ∀ c ∈ rest.head?, isBare c = false) (single : '.' ∉ (skipBlanks rest).head?) :
    path? (key.toList ++ rest) = some ([key], skipBlanks rest) := by
  change keys? (79 + 1) _ = _
  rw [keys?, key?_bare bare stops]
  simp only [Option.bind_eq_bind, Option.bind_some]
  split
  next behind => exact absurd (behind ▸ rfl) single
  next => rfl

theorem keyValue?_bare {key : String} (bare : IsBareKey key) {cs : List Char} {v : Value}
    (stands : Stands cs v) (nesting : Nat) (rest : List Char) :
    keyValue? skipBlanks (value? nesting) (key.toList ++ (" = ".toList ++ (cs ++ '\n' :: rest))) =
      some ([], key, v, '\n' :: rest) := by
  obtain ⟨c, more, rfl, solid⟩ := stands.solid
  have path : path? (key.toList ++ (" = ".toList ++ (c :: more ++ '\n' :: rest))) =
      some ([key], '=' :: ' ' :: (c :: more ++ '\n' :: rest)) :=
    path?_bare bare (by simp [isBare]) (by simp [skipBlanks, isBlank])
  have gap : skipBlanks (' ' :: (c :: more ++ '\n' :: rest)) = c :: more ++ '\n' :: rest := by
    change List.dropWhile isBlank (c :: (more ++ '\n' :: rest)) = _
    rw [List.dropWhile_cons_of_neg (by simp [solid])]
    rfl
  unfold keyValue?
  rw [path]
  change (value? nesting (skipBlanks (' ' :: (c :: more ++ '\n' :: rest)))).bind _ = _
  rw [gap, stands.reads]
  rfl

/-! ### Lines -/

/-- What begins a line that is neither blank nor a comment. -/
def Opens (cs : List Char) : Prop := ∃ c more, cs = c :: more ∧ c ∉ ['#', ' ', '\t', '\n', '\r']

theorem endOfLine?_opens {cs : List Char} (opens : Opens cs) :
    skipBlanks cs = cs ∧ endOfLine? cs = none := by
  obtain ⟨c, more, rfl, other⟩ := opens
  simp only [List.mem_cons, not_or] at other
  have solid : isBlank c = false := by simp [isBlank, other]
  have kept : skipBlanks (c :: more) = c :: more :=
    List.dropWhile_cons_of_neg (by simp [solid])
  refine ⟨kept, ?_⟩
  unfold endOfLine?
  simp only [kept]
  simp [other]

theorem Opens.append {cs : List Char} (opens : Opens cs) (rest : List Char) : Opens (cs ++ rest) := by
  obtain ⟨c, more, rfl, other⟩ := opens
  exact ⟨c, more ++ rest, rfl, other⟩

/-- The items that a draft becomes by a text, which has at most as many lines as characters. -/
def Makes (draft : Draft) (cs : List Char) (items : Items) : Prop :=
  ∃ count ≤ cs.length, lines? count draft cs = some items

theorem Makes.done (draft : Draft) : Makes draft [] draft.root := ⟨0, le_rfl, rfl⟩

theorem Makes.blank {draft : Draft} {rest : List Char} {items : Items}
    (makes : Makes draft rest items) : Makes draft ('\n' :: rest) items := by
  obtain ⟨count, bounded, read⟩ := makes
  exact ⟨count + 1, Nat.succ_le_succ bounded, read⟩

theorem Makes.line {draft next : Draft} {line rest : List Char} {items : Items} (opens : Opens line)
    (read : line? draft (line ++ '\n' :: rest) = some (next, '\n' :: rest))
    (makes : Makes next rest items) : Makes draft (line ++ '\n' :: rest) items := by
  obtain ⟨count, bounded, reads⟩ := makes
  obtain ⟨kept, none⟩ := endOfLine?_opens (opens.append ('\n' :: rest))
  refine ⟨count + 1, ?_, ?_⟩
  · rw [List.length_append, List.length_cons]
    omega
  · have proper : (line ++ '\n' :: rest).isEmpty = false := by simp
    rw [lines?, proper, none, kept]
    simp only [Bool.false_eq_true, if_false, read, Option.bind_eq_bind, Option.bind_some]
    exact reads

theorem lines?_mono {count : Nat} {items : Items} :
    ∀ {more : Nat} {draft : Draft} {cs : List Char}, lines? count draft cs = some items →
      count ≤ more → lines? more draft cs = some items := by
  induction count with
  | zero =>
      intro more draft cs read _
      unfold lines? at read
      split_ifs at read with done
      unfold lines?
      cases more with
      | zero => simpa [done] using read
      | succ more => simpa [done] using read
  | succ count ih =>
      intro more draft cs read le
      obtain ⟨more, rfl⟩ : ∃ less, more = less + 1 := ⟨more - 1, by omega⟩
      unfold lines? at read ⊢
      split_ifs at read ⊢ with done
      · exact read
      · cases ended : endOfLine? cs with
        | some rest =>
            rw [ended] at read
            exact ih read (by omega)
        | none =>
            rw [ended] at read
            obtain ⟨⟨next, rest⟩, line, read⟩ := Option.bind_eq_some_iff.mp read
            obtain ⟨rest, ended, read⟩ := Option.bind_eq_some_iff.mp read
            simp only [line, ended, Option.bind_eq_bind, Option.bind_some]
            exact ih read (by omega)

/-- A text that does not begin with the mark of the byte order is read line by line. -/
theorem Makes.read? {cs : List Char} {items : Items} (makes : Makes {} cs items)
    (unmarked : dropMark cs = cs) : read? (String.ofList cs) = some (fieldsToValues items) := by
  obtain ⟨count, bounded, read⟩ := makes
  unfold Toml.read?
  rw [String.toList_ofList]
  simp only [unmarked, lines?_mono read (Nat.le_succ_of_le bounded)]
  rfl

/-! ### Sections -/

namespace Items

section

variable {key : String} {items : Items}

theorem put_append (new : items.lookup key = none) (item : Item) (rest : Items) :
    put key item (items ++ rest) = items ++ put key item rest := by
  induction items with
  | nil => rfl
  | cons first items ih =>
      obtain ⟨k, old⟩ := first
      rw [List.lookup_cons] at new
      split at new
      · cases new
      next other =>
        have differ : k ≠ key := by
          rintro rfl
          simp at other
        rw [List.cons_append, put, if_neg differ, ih new, List.cons_append]

theorem put_new (new : items.lookup key = none) (item : Item) :
    put key item items = items ++ [(key, item)] := by
  simpa [put] using put_append new item []

theorem put_last (new : items.lookup key = none) (old item : Item) :
    put key item (items ++ [(key, old)]) = items ++ [(key, item)] := by
  rw [put_append new, put, if_pos rfl]

theorem lookup_last (new : items.lookup key = none) (item : Item) :
    (items ++ [(key, item)]).lookup key = some item := by
  simp [List.lookup_append, new]

end

end Items

/-- The draft while a section is read that is the last so far. -/
def Draft.ofSection (front : Items) (header : String) (fields : Items) : Draft :=
  ⟨front ++ [(header, .table .byHeader fields)], [header]⟩

section

variable {draft : Draft} {header key : String} {front fields : Items}

theorem line?_header (bare : IsBareKey header) (new : draft.root.lookup header = none)
    (rest : List Char) : line? draft ('[' :: (header.toList ++ ']' :: '\n' :: rest)) =
      some (.ofSection draft.root header [], '\n' :: rest) := by
  obtain ⟨c, more, named, other⟩ := bare.first
  simp only [List.mem_cons, not_or] at other
  have kept : skipBlanks (header.toList ++ ']' :: '\n' :: rest) =
      header.toList ++ ']' :: '\n' :: rest := by
    rw [named]
    exact List.dropWhile_cons_of_neg (by simp [isBlank, other])
  have path : path? (header.toList ++ ']' :: '\n' :: rest) =
      some ([header], ']' :: '\n' :: rest) :=
    path?_bare bare (by simp [isBare]) (by simp [skipBlanks, isBlank])
  have opened : header? Items.openTable draft (header.toList ++ ']' :: '\n' :: rest) =
      some (.ofSection draft.root header [], ']' :: '\n' :: rest) := by
    unfold header?
    rw [kept, path]
    simp [Items.within, Items.openTable, new, Items.put_new, Draft.ofSection]
  unfold line?
  split
  next same =>
    rw [named] at same
    exact absurd (List.cons.inj (List.cons.inj same).2).1 other.2.2.1
  next same =>
    obtain rfl := (List.cons.inj same).2
    rw [opened]
    rfl
  next none => exact absurd rfl (none _)

theorem line?_keyValue {cs : List Char} {v : Value} {root : Items} (bare : IsBareKey key)
    (stands : Stands cs v)
    (fits : Items.within (Items.insert [] key v true) draft.header draft.root = some root)
    (rest : List Char) : line? draft (key.toList ++ (" = ".toList ++ (cs ++ '\n' :: rest))) =
      some ({ draft with root }, '\n' :: rest) := by
  obtain ⟨c, more, named, other⟩ := bare.first
  simp only [List.mem_cons, not_or] at other
  have read := keyValue?_bare bare stands maxNesting rest
  unfold line?
  split
  next same =>
    rw [named] at same
    exact absurd (List.cons.inj same).1 other.2.2.1
  next same =>
    rw [named] at same
    exact absurd (List.cons.inj same).1 other.2.2.1
  next =>
    rw [read]
    simp only [Option.bind_eq_bind, Option.bind_some, fits]

theorem within_ofSection (absent : front.lookup header = none) (new : fields.lookup key = none)
    (v : Value) : Items.within (Items.insert [] key v true) [header]
        (front ++ [(header, .table .byHeader fields)]) =
      some (front ++ [(header, .table .byHeader (fields ++ [(key, .value v)]))]) := by
  rw [Items.within, Items.lookup_last absent]
  simp [Items.within, Items.insert, new, Items.put_new new, Items.put_last absent]

end

/-! ### Files -/

theorem writeScalar?_isSome {v : Value} : (writeScalar? v).isSome ↔ v.IsScalar := by
  cases v with
  | int n =>
      simp only [writeScalar?, writeInt?, Option.isSome_map, Decimal.signed64?, Value.IsScalar]
      split_ifs with inside
      · exact iff_of_true rfl inside
      · exact iff_of_false nofun inside
  | bool b => exact iff_of_true rfl trivial
  | float x => exact iff_of_true rfl trivial
  | text s => exact iff_of_true rfl trivial
  | _ => exact iff_of_false nofun id

theorem writeLines?_isSome {fields : Fields} :
    (writeLines? fields).isSome ↔ ∀ field ∈ fields, field.2.IsScalar := by
  induction fields with
  | nil => exact iff_of_true rfl nofun
  | cons field fields ih =>
      obtain ⟨key, v⟩ := field
      rw [List.forall_mem_cons, ← ih, ← writeScalar?_isSome, writeLines?, writeLine?]
      cases writeScalar? v with
      | none => exact iff_of_false nofun (fun both => nomatch both.1)
      | some cs =>
          cases writeLines? fields with
          | none => exact iff_of_false nofun (fun both => nomatch both.2)
          | some lines => exact iff_of_true rfl ⟨rfl, rfl⟩

theorem writeTable?_isSome {header : String} {fields : Fields} :
    (writeTable? header fields).isSome ↔ ∀ field ∈ fields, field.2.IsScalar := by
  rw [writeTable?, Option.isSome_map, writeLines?_isSome]

/-- What a field becomes when it is read. -/
def entry (field : String × Value) : String × Item := (field.1, .value field.2.unsigned)

theorem fieldsToValues_entries (fields : Fields) :
    fieldsToValues (fields.map entry) = fields.map fun field => (field.1, field.2.unsigned) := by
  induction fields with
  | nil => rfl
  | cons field fields ih =>
      rw [List.map_cons, List.map_cons, fieldsToValues.eq_def]
      simp only [entry, Item.toValue, ih]

theorem makes_writeLine {draft : Draft} {key : String} {v : Value} {line rest : List Char}
    {root items : Items} (bare : IsBareKey key) (written : writeLine? key v = some line)
    (fits : Items.within (Items.insert [] key v.unsigned true) draft.header draft.root = some root)
    (makes : Makes { draft with root } rest items) : Makes draft (line ++ rest) items := by
  obtain ⟨cs, shown, rfl⟩ := Option.map_eq_some_iff.mp written
  have read := line?_keyValue bare (stands_writeScalar shown) fits rest
  have opens : Opens (key.toList ++ (" = ".toList ++ cs)) := by
    obtain ⟨c, more, named, other⟩ := bare.first
    rw [named]
    refine ⟨c, _, rfl, ?_⟩
    simp only [List.mem_cons, not_or] at other ⊢
    exact ⟨other.2.2.2.1, other.2.2.2.2⟩
  have whole : line? draft ((key.toList ++ (" = ".toList ++ cs)) ++ '\n' :: rest) =
      some ({ draft with root }, '\n' :: rest) := by
    simpa using read
  simpa using Makes.line opens whole makes

theorem makes_writeLines {front : Items} {header : String} {items : Items} {rest : List Char}
    (absent : front.lookup header = none) {written : Fields} :
    ∀ {fields : Items} {lines : List Char}, writeLines? written = some lines →
      (∀ field ∈ written, IsBareKey field.1 ∧ fields.lookup field.1 = none) →
      (written.map (·.1)).Nodup →
      Makes (.ofSection front header (fields ++ written.map entry)) rest items →
      Makes (.ofSection front header fields) (lines ++ rest) items := by
  induction written with
  | nil =>
      intro fields lines shown _ _ makes
      obtain rfl := Option.some.inj shown
      simpa using makes
  | cons field written ih =>
      obtain ⟨key, v⟩ := field
      intro fields lines shown keys distinct makes
      obtain ⟨line, first, remaining⟩ := Option.bind_eq_some_iff.mp shown
      obtain ⟨lines, others, joined⟩ := Option.bind_eq_some_iff.mp remaining
      obtain rfl := Option.some.inj joined
      obtain ⟨⟨bare, new⟩, keys⟩ := List.forall_mem_cons.mp keys
      obtain ⟨differ, distinct⟩ := List.nodup_cons.mp distinct
      rw [List.append_assoc]
      refine makes_writeLine bare first (within_ofSection absent new v.unsigned) ?_
      refine ih others (fun other member => ?_) distinct ?_
      · refine ⟨(keys other member).1, ?_⟩
        have apart : other.1 ≠ key := fun same =>
          differ (List.mem_map.mpr ⟨other, member, same⟩)
        simp [List.lookup_append, (keys other member).2, apart]
      · simpa [entry] using makes

/-- Keys of one section: none needs quotes, and none stands twice. -/
def Keys (keys : List String) : Prop := (∀ key ∈ keys, IsBareKey key) ∧ keys.Nodup

instance : DecidablePred Keys := fun _ => inferInstanceAs (Decidable (_ ∧ _))

/-- A section whose header no other section has. -/
theorem makes_writeTable {draft : Draft} {header : String} {written : Fields}
    {section_ rest : List Char} {items : Items} (shown : writeTable? header written = some section_)
    (bare : IsBareKey header) (absent : draft.root.lookup header = none)
    (keys : Keys (written.map (·.1)))
    (makes : Makes (.ofSection draft.root header (written.map entry)) rest items) :
    Makes draft (section_ ++ rest) items := by
  obtain ⟨lines, inner, rfl⟩ := Option.map_eq_some_iff.mp shown
  have inside : Makes (.ofSection draft.root header []) (lines ++ rest) items :=
    makes_writeLines absent inner
      (fun _ member => ⟨keys.1 _ (List.mem_map_of_mem member), rfl⟩) keys.2 makes
  have opens : Opens ('[' :: (header.toList ++ [']'])) := ⟨'[', _, rfl, by decide⟩
  have read : line? draft (('[' :: (header.toList ++ [']'])) ++ '\n' :: (lines ++ rest)) =
      some (.ofSection draft.root header [], '\n' :: (lines ++ rest)) := by
    simpa using line?_header bare absent (lines ++ rest)
  simpa using Makes.line opens read inside

/-- Sections one after another. -/
def writeSections? : List (String × Fields) → Option (List Char)
  | [] => some []
  | (header, fields) :: rest => do
    let first ← writeTable? header fields
    let others ← writeSections? rest
    some (first ++ others)

/-- What a section becomes when it is read. -/
def sectionItem (written : String × Fields) : String × Item :=
  (written.1, .table .byHeader (written.2.map entry))

theorem fieldsToValues_sections (sections : List (String × Fields)) :
    fieldsToValues (sections.map sectionItem) = sections.map fun written =>
      (written.1, .table (written.2.map fun field => (field.1, field.2.unsigned))) := by
  induction sections with
  | nil => rfl
  | cons written sections ih =>
      rw [List.map_cons, List.map_cons, fieldsToValues.eq_def]
      simp only [sectionItem, Item.toValue, fieldsToValues_entries, ih]

/-- Sections whose headers and keys need no quotes, and none of which stands twice. -/
def Headed (sections : List (String × Fields)) : Prop :=
  (∀ written ∈ sections, IsBareKey written.1 ∧ Keys (written.2.map (·.1))) ∧
  (sections.map (·.1)).Nodup

instance : DecidablePred Headed := fun _ => inferInstanceAs (Decidable (_ ∧ _))

theorem makes_writeSections {sections : List (String × Fields)} (headed : Headed sections) :
    ∀ {draft : Draft} {text : List Char}, writeSections? sections = some text →
      (∀ written ∈ sections, draft.root.lookup written.1 = none) →
      Makes draft text (draft.root ++ sections.map sectionItem) := by
  induction sections with
  | nil =>
      intro draft text shown _
      obtain rfl := Option.some.inj shown
      simpa using Makes.done draft
  | cons first sections ih =>
      obtain ⟨header, fields⟩ := first
      intro draft text shown absent
      obtain ⟨table, tableShown, remaining⟩ := Option.bind_eq_some_iff.mp shown
      obtain ⟨others, othersShown, joined⟩ := Option.bind_eq_some_iff.mp remaining
      obtain rfl := Option.some.inj joined
      obtain ⟨⟨bare, keys⟩, sound⟩ := List.forall_mem_cons.mp headed.1
      obtain ⟨apart, distinct⟩ := List.nodup_cons.mp headed.2
      obtain ⟨new, absent⟩ := List.forall_mem_cons.mp absent
      have rest : Makes (.ofSection draft.root header (fields.map entry)) others
          (draft.root ++ [sectionItem (header, fields)] ++ sections.map sectionItem) := by
        refine ih ⟨sound, distinct⟩ othersShown fun written member => ?_
        have other : written.1 ≠ header := fun same =>
          apart (List.mem_map.mpr ⟨written, member, same⟩)
        simp [Draft.ofSection, List.lookup_append, absent written member, other]
      refine makes_writeTable tableShown bare new keys ?_
      rwa [List.append_assoc, List.singleton_append] at rest

/-- Sections are read back in the order in which they were written. -/
theorem read?_writeSections {sections : List (String × Fields)} (headed : Headed sections)
    {text : List Char} (written : writeSections? sections = some text) :
    dropMark text = text ∧ read? (String.ofList text) = some (sections.map fun written =>
      (written.1, .table (written.2.map fun field => (field.1, field.2.unsigned)))) := by
  have unmarked : dropMark text = text := by
    cases sections with
    | nil =>
        obtain rfl := Option.some.inj written
        rfl
    | cons first sections =>
        obtain ⟨table, tableShown, remaining⟩ := Option.bind_eq_some_iff.mp written
        obtain ⟨others, -, joined⟩ := Option.bind_eq_some_iff.mp remaining
        obtain rfl := Option.some.inj joined
        obtain ⟨lines, -, rfl⟩ := Option.map_eq_some_iff.mp tableShown
        rfl
  have makes : Makes {} text (sections.map sectionItem) :=
    makes_writeSections headed written fun _ _ => rfl
  exact ⟨unmarked, by rw [makes.read? unmarked, fieldsToValues_sections]⟩

end Toml

end FractalBreeder
