import FloatLang.Numeral
import FloatLang.Text.Quoted

/-!
# Reading numerals from text

## Main definitions

* `Numeral.SpellingError` — a text that is no numeric literal
* `Numeral.ofString` — reads a numeric literal
-/

namespace FloatLang.Numeral

/-- A text that is no numeric literal. -/
structure SpellingError where
  spelling : String
  deriving DecidableEq, Repr

/-- The message about a text that is no numeric literal. -/
def SpellingError.message (e : SpellingError) : String :=
  Text.quoted e.spelling ++ " is not a valid numeric literal"

/-- Reads a numeric literal. -/
def ofString (text : String) : Except SpellingError Numeral :=
  match parse? text.toList with
  | some x => .ok x
  | none => .error ⟨text⟩

end FloatLang.Numeral
