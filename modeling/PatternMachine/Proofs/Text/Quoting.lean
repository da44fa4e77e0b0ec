import PatternMachine.Proofs.Text.Numerals

/-!
# Reading quoted texts

A quoted text is read back from its front, whatever follows it (`readsTo_quoted`): behind the
opening mark stand spelled characters up to the first mark that no backslash hides. A reading
carries the rest that it leaves, which is shorter than the text that was read. So different texts
are quoted differently, and a quoted text stands on one line.
-/

namespace PatternMachine.Text

/-! ## Readings -/

/-- What is read at the front of a text, and the rest behind it, which is shorter. -/
structure Reading (α : Type) (text : Text) where
  value : α
  rest : Text
  shorter : rest.length < text.length

variable {α β γ : Type} {text : Text}

namespace Reading

def followed (first : Reading α text) (combine : α → β → γ) (next : Reading β first.rest) :
    Reading γ text :=
  ⟨combine first.value next.value, next.rest, Nat.lt_trans next.shorter first.shorter⟩

def mapValue? (reading : Reading α text) (change : α → Option β) : Option (Reading β text) :=
  (change reading.value).map fun value => ⟨value, reading.rest, reading.shorter⟩

/-- The reading and an expected text behind it, which adds nothing to the value. -/
def expecting? (reading : Reading α text) (expected : Text) : Option (Reading α text) :=
  if expected.isPrefixOf reading.rest then
    some ⟨reading.value, reading.rest.drop expected.length,
      Nat.lt_of_le_of_lt (List.length_drop ▸ Nat.sub_le _ _) reading.shorter⟩
  else
    none

end Reading

/-- Whether there is a reading, with the given value and rest. -/
def ReadsTo (attempt : Option (Reading α text)) (value : α) (rest : Text) : Prop :=
  ∃ reading, attempt = some reading ∧ reading.value = value ∧ reading.rest = rest

namespace ReadsTo

variable {attempt : Option (Reading α text)} {value : α} {middle rest outer : Text}

theorem unique
    {other : α} {behind : Text}
    (reads : ReadsTo attempt value rest) (again : ReadsTo attempt other behind) :
    value = other ∧ rest = behind := by
  obtain ⟨reading, rfl, rfl, rfl⟩ := reads
  obtain ⟨_, same, rfl, rfl⟩ := again
  cases same
  exact ⟨rfl, rfl⟩

theorem bind
    (first : ReadsTo attempt value middle) {next : Reading α text → Option (Reading β outer)}
    {result : β}
    (onward : ∀ reading : Reading α text, reading.value = value → reading.rest = middle →
      ReadsTo (next reading) result rest) :
    ReadsTo (attempt.bind next) result rest := by
  obtain ⟨reading, rfl, value_eq, rest_eq⟩ := first
  exact onward reading value_eq rest_eq

theorem followed
    {reading : Reading α text} {combine : α → β → γ} {attempt : Option (Reading β reading.rest)}
    {result : β} {total : γ}
    (next : ReadsTo attempt result rest) (combined : combine reading.value result = total) :
    ReadsTo (attempt.map (reading.followed combine)) total rest := by
  obtain ⟨other, rfl, rfl, rfl⟩ := next
  exact ⟨_, rfl, combined, rfl⟩

theorem behind
    {attempt : Option (Reading β text)} {result : β}
    (next : ReadsTo attempt result rest) (c : Char) :
    ReadsTo
      (attempt.map (Reading.followed (⟨c, text, Nat.lt_succ_self _⟩ : Reading Char (c :: text))
        fun _ found => found))
      result rest :=
  next.followed rfl

theorem mapValue?
    {reading : Reading α text} {change : α → Option β} {result : β}
    (changed : change reading.value = some result) (behind : reading.rest = rest) :
    ReadsTo (reading.mapValue? change) result rest := by
  rw [Reading.mapValue?, changed]
  exact ⟨_, rfl, rfl, behind⟩

theorem expecting?
    {reading : Reading α text} {expected : Text}
    (value_eq : reading.value = value) (behind : reading.rest = expected ++ rest) :
    ReadsTo (reading.expecting? expected) value rest := by
  have begins : expected.isPrefixOf reading.rest = true := by
    rw [behind, List.isPrefixOf_iff_prefix]
    exact List.prefix_append expected rest
  rw [Reading.expecting?, if_pos begins]
  exact ⟨_, rfl, value_eq, by simp only [behind, List.drop_left]⟩

end ReadsTo

/-! ## Spelled characters -/

def letterCharacter? : Char → Option Char
  | '\\' => some '\\'
  | '\'' => some '\''
  | '"' => some '"'
  | 'n' => some '\n'
  | 'r' => some '\r'
  | 't' => some '\t'
  | _ => none

/-- The number of hexadecimal digits that a backslash and a letter ask for. -/
def digitsBehind? : Char → Option Nat
  | 'x' => some 2
  | 'u' => some 4
  | 'U' => some 8
  | _ => none

/-- The character whose number has exactly so many hexadecimal digits as asked for. -/
def numberedCharacter? (width : Nat) (digits : Text) : Option Char :=
  if digits.length = width then
    (hexValue? digits).bind fun n => if n.isValidChar then some (Char.ofNat n) else none
  else
    none

def readEscape? : (text : Text) → Option (Reading Char text)
  | [] => none
  | letter :: rest =>
      match digitsBehind? letter with
      | some width =>
          (numberedCharacter? width (rest.take width)).map fun c =>
            ⟨c, rest.drop width, Nat.lt_succ_of_le (List.length_drop ▸ Nat.sub_le _ _)⟩
      | none => (letterCharacter? letter).map fun c => ⟨c, rest, Nat.lt_succ_self _⟩

/-- The character spelled at the front of a text. A line feed cannot stand for itself. -/
def readCharacter? : (text : Text) → Option (Reading Char text)
  | [] => none
  | c :: rest =>
      let single : Reading Char (c :: rest) := ⟨c, rest, Nat.lt_succ_self _⟩
      if c = '\\' then (readEscape? rest).map (single.followed fun _ spelt => spelt)
      else if c = '\n' then none
      else some single

theorem readsTo_letter {letter c : Char} (spelt : letterCharacter? letter = some c) (rest : Text) :
    ReadsTo (readCharacter? ('\\' :: letter :: rest)) c rest := by
  have no_digits : digitsBehind? letter = none := by
    unfold letterCharacter? at spelt
    split at spelt <;> first | rfl | cases spelt
  have escape : ReadsTo (readEscape? (letter :: rest)) c rest := by
    simp only [readEscape?, no_digits, spelt]
    exact ⟨_, rfl, rfl, rfl⟩
  exact escape.behind '\\'

theorem readsTo_digits
    {letter c : Char} {width : Nat} (asked : digitsBehind? letter = some width)
    (positive : 0 < width) (fits : c.toNat < 16 ^ width) (rest : Text) :
    ReadsTo (readCharacter? ('\\' :: letter :: hexadecimal width c.toNat ++ rest)) c rest := by
  have length_eq := length_hexadecimal positive fits
  have front : (hexadecimal width c.toNat ++ rest).take width = hexadecimal width c.toNat :=
    List.take_left' length_eq
  have back : (hexadecimal width c.toNat ++ rest).drop width = rest := List.drop_left' length_eq
  have spelt : numberedCharacter? width (hexadecimal width c.toNat) = some c := by
    have valid : c.toNat.isValidChar := c.valid
    rw [numberedCharacter?, if_pos length_eq, hexValue?_hexadecimal, Option.bind_some,
      if_pos valid, Char.ofNat_toNat]
  have escape : ReadsTo (readEscape? (letter :: hexadecimal width c.toNat ++ rest)) c rest := by
    simp only [List.cons_append, readEscape?, asked, front, spelt]
    exact ⟨_, rfl, rfl, back⟩
  exact escape.behind '\\'

/-- How a character is spelled between two marks: by a letter, by its number, or as itself. -/
inductive SpelledAs (mark c : Char) : Text → Prop where
  | letter {letter : Char} (spelt : letterCharacter? letter = some c) :
      SpelledAs mark c ['\\', letter]
  | digits {letter : Char} {width : Nat} (asked : digitsBehind? letter = some width)
      (positive : 0 < width) (fits : c.toNat < 16 ^ width) :
      SpelledAs mark c ('\\' :: letter :: hexadecimal width c.toNat)
  | itself (no_backslash : c ≠ '\\') (no_newline : c ≠ '\n') (no_mark : c ≠ mark) :
      SpelledAs mark c [c]

theorem spelledAs_numbered (mark c : Char) : SpelledAs mark c (numbered c) := by
  unfold numbered
  split
  next small => exact .digits rfl (by omega) small
  next =>
    split
    next small => exact .digits rfl (by omega) small
    next => exact .digits rfl (by omega) c.val.toNat_lt

def IsMark (mark : Char) : Prop :=
  mark = '\'' ∨ mark = '"'

instance : DecidablePred IsMark := fun _ =>
  inferInstanceAs (Decidable (_ ∨ _))

theorem spelledAs_spelled {mark : Char} (is_mark : IsMark mark) (c : Char) :
    SpelledAs mark c (spelled mark c) := by
  unfold spelled
  split
  next special =>
    refine .letter ?_
    rcases special with rfl | rfl
    · rfl
    · rcases is_mark with rfl | rfl <;> rfl
  next plain =>
    split
    next newline => exact .letter (newline ▸ rfl)
    next no_newline =>
      split
      next carriage => exact .letter (carriage ▸ rfl)
      next =>
        split
        next tab => exact .letter (tab ▸ rfl)
        next =>
          split
          · exact spelledAs_numbered mark c
          · exact .itself (fun same => plain (.inl same)) no_newline fun same => plain (.inr same)

/-- A spelled character is read back, whatever follows it. -/
theorem SpelledAs.readsTo {mark c : Char} {spelling : Text}
    (spelt : SpelledAs mark c spelling) (rest : Text) :
    ReadsTo (readCharacter? (spelling ++ rest)) c rest := by
  cases spelt with
  | letter spelt => exact readsTo_letter spelt rest
  | digits asked positive fits => exact readsTo_digits asked positive fits rest
  | itself no_backslash no_newline no_mark =>
      simp only [List.singleton_append, readCharacter?, if_neg no_backslash, if_neg no_newline]
      exact ⟨_, rfl, rfl, rfl⟩

theorem SpelledAs.exists_head {mark c : Char} {spelling : Text}
    (spelt : SpelledAs mark c spelling) (is_mark : IsMark mark) :
    ∃ head tail, spelling = head :: tail ∧ head ≠ mark := by
  have escape : '\\' ≠ mark := by rcases is_mark with rfl | rfl <;> decide
  cases spelt with
  | letter => exact ⟨_, _, rfl, escape⟩
  | digits => exact ⟨_, _, rfl, escape⟩
  | itself _ _ no_mark => exact ⟨_, _, rfl, no_mark⟩

theorem SpelledAs.newline_not_mem {mark c : Char} {spelling : Text}
    (spelt : SpelledAs mark c spelling) :
    '\n' ∉ spelling := by
  have no_digit : ∀ digit < 16, '\n' ≠ Nat.digitChar digit := by decide
  cases spelt with
  | letter spelt =>
      intro member
      rcases List.mem_cons.mp member with impossible | member
      · cases impossible
      · obtain rfl := List.mem_singleton.mp member
        cases spelt
  | digits asked =>
      intro member
      rcases List.mem_cons.mp member with impossible | member
      · cases impossible
      · rcases List.mem_cons.mp member with rfl | member
        · cases asked
        · exact not_mem_hexadecimal no_digit member
  | itself _ no_newline _ => exact fun member => no_newline (List.mem_singleton.mp member).symm

/-! ## Quoted texts -/

def readUntil? (mark : Char) : (text : Text) → Option (Reading Text text)
  | [] => none
  | c :: rest =>
      if c = mark then
        some ⟨[], rest, Nat.lt_succ_self _⟩
      else
        (readCharacter? (c :: rest)).bind fun first =>
          (readUntil? mark first.rest).map (first.followed List.cons)
termination_by text => text.length
decreasing_by exact first.shorter

def readQuoted? : (text : Text) → Option (Reading Text text)
  | [] => none
  | mark :: rest =>
      if IsMark mark then
        let opening : Reading Char (mark :: rest) := ⟨mark, rest, Nat.lt_succ_self _⟩
        (readUntil? mark rest).map (opening.followed fun _ inner => inner)
      else
        none

theorem readsTo_flatMap_spelled {mark : Char} (is_mark : IsMark mark) (text rest : Text) :
    ReadsTo (readUntil? mark (text.flatMap (spelled mark) ++ mark :: rest)) text rest := by
  induction text with
  | nil =>
      rw [List.flatMap_nil, List.nil_append, readUntil?, if_pos rfl]
      exact ⟨_, rfl, rfl, rfl⟩
  | cons c text ih =>
      have spelt := spelledAs_spelled is_mark c
      obtain ⟨head, tail, spelled_eq, other⟩ := spelt.exists_head is_mark
      have first := spelt.readsTo (text.flatMap (spelled mark) ++ mark :: rest)
      rw [List.flatMap_cons, List.append_assoc]
      rw [spelled_eq, List.cons_append] at first ⊢
      rw [readUntil?, if_neg other]
      refine first.bind fun reading value_eq rest_eq => ?_
      rw [← rest_eq] at ih
      exact ih.followed (by rw [value_eq])

/-- A quoted text is read back, whatever follows it. -/
theorem readsTo_quoted (text rest : Text) :
    ReadsTo (readQuoted? (text.quoted ++ rest)) text rest := by
  have is_mark : IsMark (quoteMark text) := quoteMark_eq text
  have inner := readsTo_flatMap_spelled is_mark text rest
  rw [quoted, List.append_assoc, List.cons_append, readQuoted?, if_pos is_mark]
  exact inner.behind (quoteMark text)

theorem quoted_injective {text other : Text} (same : text.quoted = other.quoted) :
    text = other := by
  have reads := readsTo_quoted text []
  rw [same] at reads
  exact (reads.unique (readsTo_quoted other [])).1

theorem newline_not_mem_quoted (text : Text) : '\n' ∉ text.quoted := by
  have is_mark : IsMark (quoteMark text) := quoteMark_eq text
  have no_mark : '\n' ≠ quoteMark text := by
    rcases is_mark with mark_eq | mark_eq <;> rw [mark_eq] <;> decide
  intro member
  rcases List.mem_append.mp member with front | final
  · rcases List.mem_cons.mp front with opening | inner
    · exact no_mark opening
    · obtain ⟨c, _, inside⟩ := List.mem_flatMap.mp inner
      exact (spelledAs_spelled is_mark c).newline_not_mem inside
  · exact no_mark (List.mem_singleton.mp final)

end PatternMachine.Text
