import PatternMachine.Dialect.Role

/-!
# Dialects

A dialect gives each role a character of its own. Because no two roles share a character, the
role of a character is determined: `role?_eq_some_iff` says that looking a character up inverts
the assignment. A character with a role has to be escaped to stand for itself.
-/

namespace PatternMachine

/-- An assignment of one character to each role, no character having two roles. -/
structure Dialect where
  symbol : Role → Char
  symbol_injective : ∀ role other, symbol role = symbol other → role = other

namespace Dialect

theorem ext_symbol
    {d e : Dialect} (agree : ∀ role, d.symbol role = e.symbol role) :
    d = e := by
  rcases d with ⟨symbol, _⟩
  rcases e with ⟨other, _⟩
  obtain rfl : symbol = other := funext agree
  rfl

instance : DecidableEq Dialect := fun d e =>
  decidable_of_iff (∀ role, d.symbol role = e.symbol role)
    ⟨ext_symbol, fun equal _ => equal ▸ rfl⟩

/-- The role that a dialect gives to a character, if any. -/
def role? (d : Dialect) (c : Char) : Option Role :=
  Role.all.find? fun role => d.symbol role = c

theorem role?_eq_some_iff {d : Dialect} {c : Char} {role : Role} :
    d.role? c = some role ↔ d.symbol role = c := by
  constructor
  · intro found
    simpa using List.find?_some found
  · rintro rfl
    cases found : d.role? (d.symbol role) with
    | none => simpa using List.find?_eq_none.mp found role (Role.mem_all role)
    | some other =>
        have same : d.symbol other = d.symbol role := by simpa using List.find?_some found
        rw [d.symbol_injective other role same]

@[simp]
theorem role?_symbol (d : Dialect) (role : Role) : d.role? (d.symbol role) = some role :=
  role?_eq_some_iff.mpr rfl

/-- Whether a character has a role, and so does not stand for itself. -/
def isSpecial (d : Dialect) (c : Char) : Bool :=
  (d.role? c).isSome

def escaped (d : Dialect) (c : Char) : Text :=
  if d.isSpecial c then [d.symbol .escape, c] else [c]

/-- A text of one character is escaped as that character, any other text stays as it is. -/
def escapedText (d : Dialect) : Text → Text
  | [c] => d.escaped c
  | text => text

def grouped (d : Dialect) (inner : Text) : Text :=
  d.symbol .groupBegin :: inner ++ [d.symbol .groupEnd]

/-- The special characters in ascending order. -/
def specials (d : Dialect) : Text :=
  (Role.all.map d.symbol).mergeSort (· ≤ ·)

def quantifiers (d : Dialect) : List (Char × Quantifier) :=
  [.optional, .oneOrMore, .zeroOrMore].map fun q => (d.symbol (.quantifier q), q)

end Dialect

end PatternMachine
