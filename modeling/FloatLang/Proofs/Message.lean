import FloatLang.Message
import Mathlib.Data.List.Basic
import Mathlib.Data.Nat.Init

/-!
# Expanding templates

Every template is, in one way only, a sequence of characters and complete directives, perhaps with an
incomplete directive behind them. A template without such an end can be expanded on its own: whatever
comes behind it is expanded with the arguments that it leaves. So each directive that takes an argument
takes the one with its own number, and what it makes of the argument is not looked at again.

## Main definitions

* `Message.Piece` — a character or a complete directive
* `Message.Piece.shown` — what a piece is expanded to
* `Message.EndsInside` — a template that ends inside of a directive

## Main results

* `Message.Piece.pieces_unique`, `Message.exists_pieces` — the pieces of a template
* `Message.fill_append` — directives in a row share the arguments
* `Message.expand_append_of_complete` — the expansion of a template with another behind it
-/

namespace FloatLang.Message

/-! ### Pieces -/

/-- A piece of a template, as it is written. -/
inductive Piece
  | plain (c : Char) (ne : c ≠ '%')
  /-- A directive of one character. The letter `q` has another one behind it. -/
  | letter (c : Char) (ne : c ≠ 'q')
  /-- A directive with the letter `q` in front. -/
  | quoted (c : Char)
  deriving DecidableEq

namespace Piece

/-- How a piece is written. -/
def letters : Piece → List Char
  | plain c _ => [c]
  | letter c _ => ['%', c]
  | quoted c => ['%', 'q', c]

/-- Whether a piece takes an argument. -/
def takesArgument : Piece → Bool
  | plain _ _ => false
  | letter c _ => Directive.isConversion c
  | quoted c => Directive.isConversion c

/-- Whether a piece puts quotes around what it stands for. -/
def isQuoted : Piece → Bool
  | quoted _ => true
  | _ => false

/-- What a piece that takes no argument stands for. What is no directive stands for itself. -/
def fixed (quotes : Quotes) : Piece → String
  | letter '%' _ => "%"
  | letter 'm' _ => lastSystemError
  | letter '<' _ => quotes.opening
  | letter '>' _ => quotes.closing
  | quoted 'm' => quotes.around lastSystemError
  | p => String.ofList p.letters

/-- What a piece is expanded to, with the argument that is left for it: the argument, in quotes or not,
and the piece as it is written if there is none. -/
def shown (quotes : Quotes) (arg? : Option String) (p : Piece) : String :=
  if p.takesArgument then
    match arg? with
    | some arg => if p.isQuoted then quotes.around arg else arg
    | none => String.ofList p.letters
  else p.fixed quotes

/-- The directive of a piece. -/
def directive : Piece → Directive
  | plain c _ => .verbatim [c]
  | letter c _ => .ofLetter c
  | quoted c => .ofQuoted c

end Piece

/-- The number of arguments that pieces take. -/
def argumentsTaken (pieces : List Piece) : Nat := pieces.countP Piece.takesArgument

/-- The template that is written in pieces. -/
def written (pieces : List Piece) : String := String.ofList (pieces.flatMap Piece.letters)

/-- A template with an incomplete directive at its end. -/
def EndsInside (template : String) : Prop :=
  ∃ pieces, template = written pieces ++ "%" ∨ template = written pieces ++ "%q"

/-- What an incomplete directive at the end of a template may be, nothing included. -/
inductive IsTail : List Char → Prop
  | nil : IsTail []
  | percent : IsTail ['%']
  | quote : IsTail ['%', 'q']

variable {p p' : Piece} {pieces pieces' : List Piece} {text text' tail tail' : List Char}
  {quotes : Quotes} {args : List String}

namespace Piece

/-- No piece is the beginning of another. -/
theorem letters_append_inj (h : p.letters ++ text = p'.letters ++ text') : p = p' ∧ text = text' := by
  cases p with
  | plain c ne =>
    cases p' with
    | plain c' ne' => simpa [letters] using h
    | letter c' ne' => exact absurd (List.cons.inj h).1 ne
    | quoted c' => exact absurd (List.cons.inj h).1 ne
  | letter c ne =>
    cases p' with
    | plain c' ne' => exact absurd (List.cons.inj h).1.symm ne'
    | letter c' ne' => simpa [letters] using h
    | quoted c' => exact absurd (List.cons.inj (List.cons.inj h).2).1 ne
  | quoted c =>
    cases p' with
    | plain c' ne' => exact absurd (List.cons.inj h).1.symm ne'
    | letter c' ne' => exact absurd (List.cons.inj (List.cons.inj h).2).1.symm ne'
    | quoted c' => simpa [letters] using h

/-- What may be left at the end starts with no piece. -/
theorem letters_append_ne (htail : IsTail tail) : p.letters ++ text ≠ tail := by
  cases htail <;> cases p <;> simp_all [letters]

/-- There is one way only to divide a template. -/
theorem pieces_unique (htail : IsTail tail) (htail' : IsTail tail')
    (h : pieces.flatMap letters ++ tail = pieces'.flatMap letters ++ tail') :
    pieces = pieces' ∧ tail = tail' := by
  induction pieces generalizing pieces' with
  | nil =>
    cases pieces' with
    | nil => exact ⟨rfl, h⟩
    | cons p' pieces' =>
      rw [List.flatMap_cons, List.append_assoc] at h
      exact absurd h.symm (letters_append_ne htail)
  | cons p pieces ih =>
    cases pieces' with
    | nil =>
      rw [List.flatMap_cons, List.append_assoc] at h
      exact absurd h (letters_append_ne htail')
    | cons p' pieces' =>
      rw [List.flatMap_cons, List.flatMap_cons, List.append_assoc, List.append_assoc] at h
      obtain ⟨rfl, hrest⟩ := letters_append_inj h
      obtain ⟨rfl, rfl⟩ := ih hrest
      exact ⟨rfl, rfl⟩

/-- A piece in front of a template is divided off. -/
theorem ofTemplate_letters_append (p : Piece) (text : List Char) :
    Directive.ofTemplate (p.letters ++ text) = p.directive :: Directive.ofTemplate text := by
  cases p with
  | plain c ne =>
    change Directive.ofTemplate (c :: text) = _
    rw [Directive.ofTemplate]
    · rfl
    all_goals
      intros
      contradiction
  | letter c ne =>
    change Directive.ofTemplate ('%' :: c :: text) = _
    rw [Directive.ofTemplate]
    · rfl
    all_goals
      intros
      contradiction
  | quoted c => rfl

end Piece

theorem ofTemplate_pieces_append (pieces : List Piece) (text : List Char) :
    Directive.ofTemplate (pieces.flatMap Piece.letters ++ text) =
      pieces.map Piece.directive ++ Directive.ofTemplate text := by
  induction pieces with
  | nil => rfl
  | cons p pieces ih =>
    rw [List.flatMap_cons, List.append_assoc, Piece.ofTemplate_letters_append, ih]
    rfl

/-- Every text can be divided into pieces, up to an incomplete directive. -/
theorem exists_pieces (text : List Char) :
    ∃ (pieces : List Piece) (tail : List Char),
      text = pieces.flatMap Piece.letters ++ tail ∧ IsTail tail := by
  induction text using Directive.ofTemplate.induct with
  | case1 => exact ⟨[], [], rfl, .nil⟩
  | case2 => exact ⟨[], _, rfl, .percent⟩
  | case3 => exact ⟨[], _, rfl, .quote⟩
  | case4 c text ih =>
    obtain ⟨pieces, tail, rfl, htail⟩ := ih
    exact ⟨.quoted c :: pieces, tail, rfl, htail⟩
  | case5 c text hend hquoted ih =>
    -- the letter `q` was met before, at the end and with a letter behind it
    have hc : c ≠ 'q' := by
      intro hc
      cases text with
      | nil => exact hend hc rfl
      | cons c' text => exact hquoted c' text hc rfl
    obtain ⟨pieces, tail, rfl, htail⟩ := ih
    exact ⟨.letter c hc :: pieces, tail, rfl, htail⟩
  | case6 c text hend _ _ hletter ih =>
    -- so was the percent sign
    have hc : c ≠ '%' := by
      intro hc
      cases text with
      | nil => exact hend hc rfl
      | cons c' text => exact hletter c' text hc rfl
    obtain ⟨pieces, tail, rfl, htail⟩ := ih
    exact ⟨.plain c hc :: pieces, tail, rfl, htail⟩

/-- A template that ends inside of no directive consists of pieces. -/
theorem exists_written {template : String} (h : ¬ EndsInside template) :
    ∃ pieces, template = written pieces := by
  obtain ⟨pieces, tail, htext, htail⟩ := exists_pieces template.toList
  rw [← String.ofList_inj, String.ofList_toList, String.ofList_append] at htext
  cases htail with
  | nil => exact ⟨pieces, by rw [htext, String.ofList_nil, String.append_empty]; rfl⟩
  | percent => exact absurd ⟨pieces, .inl htext⟩ h
  | quote => exact absurd ⟨pieces, .inr htext⟩ h

theorem written_injective : Function.Injective written := by
  intro pieces pieces' h
  refine (Piece.pieces_unique .nil .nil ?_).1
  rw [List.append_nil, List.append_nil]
  exact String.ofList_inj.1 h

/-- A template that consists of pieces ends inside of no directive. -/
theorem not_endsInside_written (pieces : List Piece) : ¬ EndsInside (written pieces) := by
  have hne {tail : List Char} (pieces' : List Piece) (htail : IsTail tail) (hnil : tail ≠ []) :
      written pieces ≠ written pieces' ++ String.ofList tail := by
    intro h
    rw [written, written, ← String.ofList_append, String.ofList_inj] at h
    rw [← List.append_nil (pieces.flatMap _)] at h
    exact hnil (Piece.pieces_unique .nil htail h).2.symm
  rintro ⟨pieces', h | h⟩
  · exact hne pieces' .percent (List.cons_ne_nil _ _) h
  · exact hne pieces' .quote (List.cons_ne_nil _ _) h

/-! ### Filling in -/

/-- A directive with others behind it leaves them the arguments that it does not take. -/
theorem fill_cons (d : Directive) (ds : List Directive) :
    fill quotes (d :: ds) args =
      fill quotes [d] args ++ fill quotes ds (args.drop (if d.takesArgument then 1 else 0)) := by
  cases d with
  | argument quoted conversion => cases args <;> simp [fill, Directive.takesArgument]
  | _ => simp [fill, Directive.takesArgument]

/-- Directives in a row share the arguments: the later ones get what the earlier ones leave. -/
theorem fill_append (ds ds' : List Directive) :
    fill quotes (ds ++ ds') args =
      fill quotes ds args ++ fill quotes ds' (args.drop (ds.countP Directive.takesArgument)) := by
  induction ds generalizing args with
  | nil => rw [fill, String.empty_append]; rfl
  | cons d ds ih =>
    rw [List.cons_append, fill_cons, fill_cons d ds, ih, String.append_assoc, List.drop_drop,
      List.countP_cons, Nat.add_comm]

namespace Piece

/-- The directive of a piece that takes an argument. -/
theorem directive_of_takesArgument (h : p.takesArgument = true) :
    ∃ c, p.directive = .argument p.isQuoted c ∧ p.letters = Directive.written p.isQuoted c := by
  cases p with
  | plain c ne => contradiction
  | letter c ne =>
    have hne {x : Char} (hx : Directive.isConversion x = false) : c ≠ x := by
      rintro rfl
      exact Bool.false_ne_true (hx.symm.trans h)
    refine ⟨c, ?_, rfl⟩
    change Directive.ofLetter c = .argument false c
    rw [Directive.ofLetter, if_neg (hne (by decide)), if_neg (hne (by decide)),
      if_neg (hne (by decide)), if_neg (hne (by decide))]
    exact if_pos h
  | quoted c =>
    have hne : c ≠ 'm' := by
      rintro rfl
      contradiction
    refine ⟨c, ?_, rfl⟩
    change Directive.ofQuoted c = .argument true c
    rw [Directive.ofQuoted, if_neg hne]
    exact if_pos h

/-- The directive of a piece that takes no argument stands for the same, whatever is left. -/
theorem fill_of_not_takesArgument (h : p.takesArgument = false) :
    p.directive.takesArgument = false ∧ fill quotes [p.directive] args = p.fixed quotes := by
  cases p with
  | plain c ne => exact ⟨rfl, String.append_empty⟩
  | letter c ne =>
    by_cases hknown : c = '%' ∨ c = 'm' ∨ c = '<' ∨ c = '>'
    · rcases hknown with rfl | rfl | rfl | rfl <;> exact ⟨rfl, String.append_empty⟩
    -- any other letter is unknown
    rw [not_or, not_or, not_or] at hknown
    obtain ⟨hpercent, hm, hopening, hclosing⟩ := hknown
    have hdirective : (letter c ne).directive = .verbatim ['%', c] := by
      change Directive.ofLetter c = _
      rw [Directive.ofLetter, if_neg hpercent, if_neg hm, if_neg hopening, if_neg hclosing]
      exact if_neg (Bool.not_eq_true _ ▸ h)
    have hfixed : (letter c ne).fixed quotes = String.ofList ['%', c] := by
      rw [fixed]
      · rfl
      all_goals
        intros
        simp_all
    rw [hdirective, hfixed]
    exact ⟨rfl, String.append_empty⟩
  | quoted c =>
    by_cases hm : c = 'm'
    · subst hm
      exact ⟨rfl, String.append_empty⟩
    have hdirective : (quoted c).directive = .verbatim ['%', 'q', c] := by
      change Directive.ofQuoted c = _
      rw [Directive.ofQuoted, if_neg hm]
      exact if_neg (Bool.not_eq_true _ ▸ h)
    have hfixed : (quoted c).fixed quotes = String.ofList ['%', 'q', c] := by
      rw [fixed]
      · rfl
      all_goals
        intros
        simp_all
    rw [hdirective, hfixed]
    exact ⟨rfl, String.append_empty⟩

theorem takesArgument_directive (p : Piece) : p.directive.takesArgument = p.takesArgument := by
  cases h : p.takesArgument with
  | true =>
    obtain ⟨c, hdirective, -⟩ := directive_of_takesArgument h
    rw [hdirective]
    rfl
  | false => exact (@fill_of_not_takesArgument _ {} [] h).1

/-- A directive alone gets the first of the arguments. -/
theorem fill_directive (p : Piece) : fill quotes [p.directive] args = p.shown quotes args.head? := by
  cases h : p.takesArgument with
  | true =>
    obtain ⟨c, hdirective, hletters⟩ := directive_of_takesArgument h
    unfold shown
    rw [hdirective, if_pos h, hletters]
    cases args <;> simp [fill]
  | false =>
    unfold shown
    rw [(fill_of_not_takesArgument h).2, h]
    rfl

end Piece

/-- What pieces are expanded to, one after the other. Each of them that takes an argument is left the
one with the number of those in front of it that do. -/
def shownAll (quotes : Quotes) (pieces : List Piece) (args : List String) : String :=
  String.join (pieces.mapIdx fun i p => p.shown quotes args[argumentsTaken (pieces.take i)]?)

theorem argumentsTaken_cons (p : Piece) (pieces : List Piece) :
    argumentsTaken (p :: pieces) = (if p.takesArgument then 1 else 0) + argumentsTaken pieces := by
  rw [argumentsTaken, List.countP_cons, Nat.add_comm]
  rfl

theorem shownAll_cons (p : Piece) (pieces : List Piece) :
    shownAll quotes (p :: pieces) args = p.shown quotes args.head? ++
      shownAll quotes pieces (args.drop (if p.takesArgument then 1 else 0)) := by
  unfold shownAll
  rw [List.mapIdx_cons, String.join_cons]
  simp only [List.take_zero, List.take_succ_cons, argumentsTaken_cons, List.getElem?_drop]
  rw [List.head?_eq_getElem?]
  rfl

/-- The directives of pieces, filled in. -/
theorem fill_pieces (pieces : List Piece) :
    fill quotes (pieces.map Piece.directive) args = shownAll quotes pieces args := by
  induction pieces generalizing args with
  | nil => rfl
  | cons p pieces ih =>
    rw [List.map_cons, fill_cons, Piece.fill_directive, Piece.takesArgument_directive, ih,
      shownAll_cons]

theorem countP_directives (pieces : List Piece) :
    (pieces.map Piece.directive).countP Directive.takesArgument = argumentsTaken pieces := by
  rw [List.countP_map, argumentsTaken]
  exact List.countP_congr fun p _ => by rw [Function.comp_apply, Piece.takesArgument_directive]

/-- Pieces are expanded first, and what is behind them with the arguments that they leave. -/
theorem expand_written_append (pieces : List Piece) (g : String) :
    expand quotes (written pieces ++ g) args =
      shownAll quotes pieces args ++ expand quotes g (args.drop (argumentsTaken pieces)) := by
  rw [expand, String.toList_append, written, String.toList_ofList, ofTemplate_pieces_append,
    fill_append, fill_pieces, countP_directives]
  rfl

theorem expand_written (pieces : List Piece) :
    expand quotes (written pieces) args = shownAll quotes pieces args := by
  have happend : expand quotes (written pieces ++ "") args =
      shownAll quotes pieces args ++ expand quotes "" (args.drop (argumentsTaken pieces)) :=
    expand_written_append pieces ""
  have hempty : expand quotes "" (args.drop (argumentsTaken pieces)) = "" := rfl
  rwa [hempty, String.append_empty, String.append_empty] at happend

/-- Without a percent sign there is nothing to expand. -/
theorem expand_of_notMem {template : String} (h : '%' ∉ template.toList) :
    expand quotes template args = template := by
  have hfill : ∀ text : List Char, '%' ∉ text →
      fill quotes (Directive.ofTemplate text) args = String.ofList text := by
    intro text htext
    induction text with
    | nil => rfl
    | cons c text ih =>
      obtain ⟨hc, hrest⟩ := not_or.1 (mt List.mem_cons.2 htext)
      have hplain := Piece.ofTemplate_letters_append (.plain c (Ne.symm hc)) text
      change fill quotes (Directive.ofTemplate (c :: text)) args = _
      rw [show Directive.ofTemplate (c :: text) = _ from hplain, Piece.directive, fill, ih hrest,
        ← String.ofList_append]
      rfl
  rw [expand, hfill _ h, String.ofList_toList]

/-- A template that ends inside of no directive consists of pieces, in one way only. It is expanded piece
by piece: each directive that takes an argument is expanded to the argument with its own number, between
quotes if it asks for them, and to itself if there is none. What comes behind the template is expanded
as it would be alone, with the arguments that are left. Without a percent sign nothing changes. -/
theorem expand_append_of_complete (quotes : Quotes) (f g : String) (args : List String)
    (hf : ¬ EndsInside f) :
    ∃ pieces, f = written pieces ∧ (∀ pieces', f = written pieces' → pieces' = pieces) ∧
      expand quotes (f ++ g) args =
        expand quotes f args ++ expand quotes g (args.drop (argumentsTaken pieces)) ∧
      expand quotes f args =
        String.join (pieces.mapIdx fun i p => p.shown quotes args[argumentsTaken (pieces.take i)]?) ∧
      ('%' ∉ f.toList → expand quotes f args = f) := by
  obtain ⟨pieces, rfl⟩ := exists_written hf
  refine ⟨pieces, rfl, fun pieces' h => (written_injective h).symm, ?_, expand_written pieces,
    expand_of_notMem⟩
  rw [expand_written_append, expand_written]

/-- The first argument looks like a directive, the second one is a percent sign, and none is left for
the third directive. -/
theorem expand_percent_sign_argument :
    ¬ EndsInside "%qs is %d" ∧ expand {} ("%qs is %d" ++ ", %s%%") ["%d", "%"] = "'%d' is %, %s%" := by
  have hpieces : "%qs is %d" = written [.quoted 's', .plain ' ' (by decide), .plain 'i' (by decide),
      .plain 's' (by decide), .plain ' ' (by decide), .letter 'd' (by decide)] := rfl
  have hcomplete : ¬ EndsInside "%qs is %d" := by
    rw [hpieces]
    exact not_endsInside_written _
  obtain ⟨pieces, -, hunique, happend, hshown, -⟩ :=
    expand_append_of_complete {} "%qs is %d" ", %s%%" ["%d", "%"] hcomplete
  obtain rfl := hunique _ hpieces
  refine ⟨hcomplete, ?_⟩
  rw [happend, hshown]
  decide

end FloatLang.Message
