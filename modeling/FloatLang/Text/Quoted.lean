import FloatLang.Text.Printable

/-!
# Quoted text

Text between double quotes, with every character that can not be shown written by an escape.

## Main definitions

* `Text.escape` — a character inside quoted text
* `Text.quoted` — a text in double quotes
-/

namespace FloatLang.Text

/-- A character inside quoted text. Characters that can not be shown are written by number. -/
def escape (c : Char) : List Char :=
  match c with
  | '\x00' => ['\\', '0']
  | '\t' => ['\\', 't']
  | '\r' => ['\\', 'r']
  | '\n' => ['\\', 'n']
  | '"' => ['\\', '"']
  | '\\' => ['\\', '\\']
  | _ =>
    if isPrintable c then [c]
    else ['\\', 'u', '\x7b'] ++ Nat.toDigits 16 c.toNat ++ ['\x7d']

/-- A text in double quotes. -/
def quoted (text : String) : String :=
  String.ofList ('"' :: text.toList.flatMap escape ++ ['"'])

end FloatLang.Text
