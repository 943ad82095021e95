/-!
# Message templates

A template is text with directives. `%s` and its kin (`d i u f g c x`) take the next argument as
it is, `%q` in front of such a letter puts the argument between quotes, `%<` and `%>` are the
quotes alone, `%m` is the text of the last system error and `%%` a percent sign. A directive
that lacks its argument, and any other letter, is kept as written.

## Main definitions

* `Quotes` — the pair of quotation marks
* `Directive`, `Directive.ofTemplate` — the pieces of a template
* `Message.expand` — a template with its arguments filled in
-/

namespace FloatLang

/-- The marks that a message puts around a quoted argument. -/
structure Quotes where
  opening : String := "'"
  closing : String := "'"
  deriving DecidableEq, Repr, Inhabited

/-- Puts a text between the marks. -/
def Quotes.around (quotes : Quotes) (text : String) : String :=
  quotes.opening ++ text ++ quotes.closing

/-- The text of the last system error: the one that a missing file leaves. -/
def lastSystemError : String := "No such file or directory (os error 2)"

/-- A piece of a message template. -/
inductive Directive
  | verbatim (text : List Char)
  | opening
  | closing
  | systemError (quoted : Bool)
  | argument (quoted : Bool) (conversion : Char)
  deriving DecidableEq, Repr

namespace Directive

/-- The letters that take an argument. -/
def isConversion (c : Char) : Bool := ['s', 'd', 'i', 'u', 'f', 'g', 'c', 'x'].contains c

/-- The directive of a letter after `%q`. -/
def ofQuoted (c : Char) : Directive :=
  if c = 'm' then .systemError true
  else if isConversion c then .argument true c
  else .verbatim ['%', 'q', c]

/-- The directive of a character after `%`, other than `q`. -/
def ofLetter (c : Char) : Directive :=
  if c = '%' then .verbatim ['%']
  else if c = 'm' then .systemError false
  else if c = '<' then .opening
  else if c = '>' then .closing
  else if isConversion c then .argument false c
  else .verbatim ['%', c]

/-- Divides a template into its directives and the characters between them. -/
def ofTemplate : List Char → List Directive
  | [] => []
  | ['%'] => [.verbatim ['%']]
  | ['%', 'q'] => [.verbatim ['%', 'q']]
  | '%' :: 'q' :: c :: template => ofQuoted c :: ofTemplate template
  | '%' :: c :: template => ofLetter c :: ofTemplate template
  | c :: template => .verbatim [c] :: ofTemplate template

/-- Whether a directive takes an argument. -/
def takesArgument : Directive → Bool
  | .argument _ _ => true
  | _ => false

/-- An argument directive as it was written. -/
def written (quoted : Bool) (conversion : Char) : List Char :=
  if quoted then ['%', 'q', conversion] else ['%', conversion]

end Directive

namespace Message

/-- Fills arguments into the directives that take one, in order. -/
def fill (quotes : Quotes) : List Directive → List String → String
  | [], _ => ""
  | .verbatim text :: rest, args => String.ofList text ++ fill quotes rest args
  | .opening :: rest, args => quotes.opening ++ fill quotes rest args
  | .closing :: rest, args => quotes.closing ++ fill quotes rest args
  | .systemError quoted :: rest, args =>
    (if quoted then quotes.around lastSystemError else lastSystemError) ++ fill quotes rest args
  | .argument quoted _ :: rest, arg :: args =>
    (if quoted then quotes.around arg else arg) ++ fill quotes rest args
  | .argument quoted conversion :: rest, [] =>
    String.ofList (Directive.written quoted conversion) ++ fill quotes rest []

/-- The message of a template. -/
def expand (quotes : Quotes) (template : String) (args : List String) : String :=
  fill quotes (Directive.ofTemplate template.toList) args

end Message

end FloatLang
