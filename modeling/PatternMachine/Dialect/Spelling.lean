import PatternMachine.Dialect.Basic
import PatternMachine.Text.Quoted

/-!
# Spellings of dialects

A spelling proposes a text for each role. It makes a dialect if every text is a single character
and all characters differ; the first text of another length is reported before any clash.
`ofSpelling?_symbol` says that every dialect arises from its own spelling.
-/

namespace PatternMachine.Dialect

/-- A proposed text for each role. -/
abbrev Spelling := Role → Text

def Spelling.standard : Spelling
  | .escape => ['\\']
  | .union => ['|']
  | .groupBegin => ['(']
  | .groupEnd => [')']
  | .quantifier .optional => ['?']
  | .quantifier .oneOrMore => ['+']
  | .quantifier .zeroOrMore => ['*']

inductive SpellingFault where
  | notOneCharacter (text : Text)
  | notDistinct (texts : List Text)
  deriving DecidableEq

def SpellingFault.message : SpellingFault → Text
  | .notOneCharacter text =>
      "special characters have to be single characters, got ".toList ++ text.quoted
  | .notDistinct texts =>
      "special characters have to be distinct, got ".toList ++ Text.quotedList texts

/-- The dialect of a spelling, or the first fault in the order of the roles. -/
def ofSpelling? (spelling : Spelling) : Except SpellingFault Dialect :=
  match Role.all.find? fun role => (spelling role).length ≠ 1 with
  | some role => .error (.notOneCharacter (spelling role))
  | none =>
      let symbol role := (spelling role).headD ' '
      if distinct : ∀ role other, symbol role = symbol other → role = other then
        .ok ⟨symbol, distinct⟩
      else
        .error (.notDistinct (Role.all.map spelling))

theorem ofSpelling?_symbol (d : Dialect) :
    ofSpelling? (fun role => [d.symbol role]) = .ok d := by
  have single : (Role.all.find? fun role => decide ([d.symbol role].length ≠ 1)) = none := by
    simp
  unfold ofSpelling?
  rw [single]
  exact dif_pos d.symbol_injective

def standard : Dialect where
  symbol role := (Spelling.standard role).headD ' '
  symbol_injective := by decide

end PatternMachine.Dialect
