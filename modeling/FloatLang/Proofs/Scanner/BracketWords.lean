import FloatLang.Proofs.Scanner.Peeking
import FloatLang.Proofs.Scanner.Tiling

/-!
# Words of brackets

The brackets of a source, read from left to right, are a word over opening and closing brackets of
three kinds. A scanner that hands out every token and then gives up on what is still open has nothing
to report about brackets just if this word is balanced. In between, the kinds of the open brackets are
the stack of a machine that reads the word.

## Main definitions

* `Mark`, `Token.mark?` — a bracket, and the bracket that a token is
* `Mark.Balanced` — the balanced words
* `Mark.follow?` — a machine with a stack that reads a word
* `Scanner.Simulates` — a scanner that runs like the machine

## Main results

* `Mark.balanced_iff` — the machine accepts the balanced words
* `Scanner.simulates_advance` — one token
* `Scanner.silent_iff_balanced` — a session that hands out a whole source
-/

namespace FloatLang

/-- A bracket of a word. -/
inductive Mark
  | opening (b : Bracket)
  | closing (b : Bracket)
  deriving DecidableEq, Repr

/-- The bracket that a token is. -/
def Token.mark? (t : Token) : Option Mark :=
  t.operator?.bind fun op => (op.opens?.map Mark.opening).or (op.closes?.map Mark.closing)

/-- The brackets among tokens. -/
def marks (ts : List Token) : List Mark := ts.filterMap Token.mark?

theorem marks_append (ts us : List Token) : marks (ts ++ us) = marks ts ++ marks us :=
  List.filterMap_append

namespace Mark

/-- The words in which every bracket is closed, or closes one, of its kind, and the brackets in
between as well. -/
inductive Balanced : List Mark → Prop
  | nil : Balanced []
  | append {u v : List Mark} (hu : Balanced u) (hv : Balanced v) : Balanced (u ++ v)
  | enclosed (b : Bracket) {w : List Mark} (hw : Balanced w) :
      Balanced (opening b :: (w ++ [closing b]))

/-- The kinds of the brackets that are open after a word, the innermost first, unless one of its
brackets closes another kind than that of the innermost open one. -/
def follow? : List Bracket → List Mark → Option (List Bracket)
  | stack, [] => some stack
  | stack, opening b :: w => follow? (b :: stack) w
  | b :: stack, closing b' :: w => if b = b' then follow? stack w else none
  | [], closing _ :: _ => none

/-- The word closes the brackets that are open, the innermost first, with balanced words in front of
each and behind the last one. -/
def Unwinds : List Bracket → List Mark → Prop
  | [], w => Balanced w
  | b :: stack, w => ∃ u v, w = u ++ closing b :: v ∧ Balanced u ∧ Unwinds stack v

variable {stack stack' : List Bracket} {u v w : List Mark}

theorem follow?_append (stack : List Bracket) (u v : List Mark) :
    follow? stack (u ++ v) = (follow? stack u).bind (follow? · v) := by
  induction u generalizing stack with
  | nil => rfl
  | cons m u ih =>
    cases m with
    | opening b => exact ih (b :: stack)
    | closing b' =>
      cases stack with
      | nil => rfl
      | cons b stack =>
        rw [List.cons_append, follow?, follow?]
        split
        · exact ih stack
        · rfl

/-- A balanced word leaves the open brackets as they were. -/
theorem Balanced.follow?_eq (h : Balanced w) (stack : List Bracket) :
    follow? stack w = some stack := by
  induction h generalizing stack with
  | nil => rfl
  | append _ _ ihu ihv => rw [follow?_append, ihu, Option.bind_some, ihv]
  | enclosed b _ ih =>
    rw [follow?, follow?_append, ih, Option.bind_some, follow?, if_pos rfl]
    rfl

theorem Unwinds.append (hu : Balanced u) (hv : Unwinds stack v) : Unwinds stack (u ++ v) := by
  cases stack with
  | nil => exact .append hu hv
  | cons b stack =>
    obtain ⟨u', v', rfl, hu', hv'⟩ := hv
    exact ⟨u ++ u', v', (List.append_assoc _ _ _).symm, .append hu hu', hv'⟩

/-- Whatever leaves no bracket open has closed those that were open, one after the other. -/
theorem unwinds_of_follow? (h : follow? stack w = some []) : Unwinds stack w := by
  -- one bracket at a time, so the induction is over every list of open ones
  induction w generalizing stack with
  | nil =>
    obtain rfl := Option.some.inj h
    exact .nil
  | cons m w ih =>
    cases m with
    | opening b =>
      obtain ⟨u, v, rfl, hu, hv⟩ := ih h
      have henclosed := Unwinds.append (.enclosed b hu) hv
      rwa [List.cons_append, List.append_assoc, List.singleton_append] at henclosed
    | closing b' =>
      cases stack with
      | nil => contradiction
      | cons b stack =>
        rw [follow?] at h
        split at h
        next hkind =>
          subst hkind
          exact ⟨[], w, rfl, .nil, ih h⟩
        · contradiction

/-- The balanced words are those after which no bracket is open. -/
theorem balanced_iff : Balanced w ↔ follow? [] w = some [] :=
  ⟨fun h => h.follow?_eq [], unwinds_of_follow?⟩

end Mark

/-! ### The brackets that tokens are -/

theorem Token.mark?_of_opening {t : Token} {b : Bracket} (h : t.kind = .operator (.opening b)) :
    t.mark? = some (.opening b) := by
  rw [mark?, operator?, h]
  cases b <;> rfl

theorem Token.mark?_of_closing {t : Token} {b : Bracket} (h : t.kind = .operator (.closing b)) :
    t.mark? = some (.closing b) := by
  rw [mark?, operator?, h]
  cases b <;> rfl

/-- A token opens a bracket, closes one or is none. -/
theorem Token.mark?_cases (t : Token) :
    (∃ b, t.kind = .operator (.opening b)) ∨ (∃ b, t.kind = .operator (.closing b)) ∨
      (∀ b, t.kind ≠ .operator (.opening b)) ∧ (∀ b, t.kind ≠ .operator (.closing b)) ∧
        t.mark? = none := by
  by_cases hopening : ∃ b, t.kind = .operator (.opening b)
  · exact .inl hopening
  by_cases hclosing : ∃ b, t.kind = .operator (.closing b)
  · exact .inr (.inl hclosing)
  simp only [not_exists] at hopening hclosing
  refine .inr (.inr ⟨hopening, hclosing, ?_⟩)
  rw [mark?, operator?]
  split
  next op hop =>
    rw [hop] at hopening hclosing
    cases op with
    | leftParen => exact absurd rfl (hopening .parenthesis)
    | leftBracket => exact absurd rfl (hopening .square)
    | leftBrace => exact absurd rfl (hopening .brace)
    | rightParen => exact absurd rfl (hclosing .parenthesis)
    | rightBracket => exact absurd rfl (hclosing .square)
    | rightBrace => exact absurd rfl (hclosing .brace)
    | _ => rfl
  · rfl

theorem Token.mark?_of_isEndOfFile {t : Token} (h : t.isEndOfFile = true) : t.mark? = none := by
  have hkind : t.kind = .endOfFile := by simpa [isEndOfFile] using h
  rw [mark?, operator?, hkind]
  rfl

/-- The end of the file has no brackets. -/
theorem Source.marks_of_le {s : Source} {m n : Nat} (hend : (s.tokenAt m).isEndOfFile = true)
    (hmn : m ≤ n) :
    marks ((List.range n).map s.tokenAt) = marks ((List.range m).map s.tokenAt) := by
  obtain ⟨k, rfl⟩ := Nat.exists_eq_add_of_le hmn
  have hnone : marks (((List.range k).map (m + ·)).map s.tokenAt) = [] := by
    rw [marks, List.filterMap_eq_nil_iff]
    intro t ht
    rw [List.map_map] at ht
    obtain ⟨i, -, rfl⟩ := List.mem_map.1 ht
    exact Token.mark?_of_isEndOfFile (isEndOfFile_of_le hend (Nat.le_add_right m i))
  rw [List.range_add, List.map_append, marks_append, hnone, List.append_nil]

namespace Scanner

/-- The kinds of the open brackets, the innermost first. -/
def kinds (s : Scanner) : List Bracket := s.pending.map Opening.bracket

/-- The scanner comes to `s'` with the tokens `ts` as the machine does with their brackets: when the
machine stops, a bracket is reported, and otherwise none is. -/
def Simulates (s : Scanner) (ts : List Token) (s' : Scanner) : Prop :=
  ∃ news : List Report, s'.reports = s.reports ++ news ∧
    Mark.follow? s.kinds (marks ts) =
      if news.any (·.problem.isBracket) then none else some s'.kinds

variable {s s' s'' : Scanner} {ts us : List Token}

theorem simulates_of_eq (hpending : s'.pending = s.pending) (hreports : s'.reports = s.reports) :
    s.Simulates [] s' := by
  refine ⟨[], by rw [hreports, List.append_nil], ?_⟩
  rw [kinds, kinds, hpending]
  rfl

theorem Simulates.trans (h : s.Simulates ts s') (h' : s'.Simulates us s'') :
    s.Simulates (ts ++ us) s'' := by
  obtain ⟨news, hreports, hfollow⟩ := h
  obtain ⟨more, hreports', hfollow'⟩ := h'
  refine ⟨news ++ more, by rw [hreports', hreports, List.append_assoc], ?_⟩
  rw [marks_append, Mark.follow?_append, hfollow, List.any_append]
  by_cases hany : news.any (·.problem.isBracket) = true
  · simp [hany]
  · simpa [hany] using hfollow'

/-- The next token. -/
theorem simulates_advance (s : Scanner) : s.Simulates [s.next] s.advance := by
  rcases s.next.mark?_cases with ⟨b, hopening⟩ | ⟨b, hclosing⟩ | ⟨hopening, hclosing, hnone⟩
  · obtain ⟨hpending, hreports⟩ := advance_of_opening hopening
    refine ⟨[], by rw [hreports, List.append_nil], ?_⟩
    simp only [marks, List.filterMap_cons, Token.mark?_of_opening hopening, kinds, hpending]
    rfl
  · have hmark : marks [s.next] = [.closing b] := by
      rw [marks, List.filterMap_cons, Token.mark?_of_closing hclosing]
      rfl
    rw [Simulates, hmark]
    by_cases hhead : s.pending.head?.map Opening.bracket = some b
    · obtain ⟨hpending, hreports⟩ := advance_of_closing hclosing hhead
      refine ⟨[], by rw [hreports, List.append_nil], ?_⟩
      rw [kinds, kinds, hpending]
      cases hopen : s.pending with
      | nil => simp [hopen] at hhead
      | cons o os =>
        rw [hopen] at hhead
        rw [List.map_cons, Mark.follow?, if_pos (Option.some.inj hhead)]
        rfl
    · obtain ⟨-, hreports⟩ := advance_of_unopened hclosing hhead
      refine ⟨_, hreports, ?_⟩
      rw [kinds]
      cases hopen : s.pending with
      | nil => rfl
      | cons o os =>
        rw [hopen] at hhead
        rw [List.map_cons, Mark.follow?, if_neg fun hkind => hhead (congrArg some hkind)]
        rfl
  · obtain ⟨hpending, news, hreports, hnews⟩ := advance_of_other hopening hclosing
    refine ⟨news, hreports, ?_⟩
    have hany : news.any (·.problem.isBracket) = false := by simpa using hnews
    rw [hany, kinds, kinds, hpending, marks, List.filterMap_cons, hnone]
    rfl

theorem simulates_lineWithin (n : Nat) (s : Scanner) :
    s.Simulates (lineWithin n s) (skipLineWithin n s) := by
  induction n generalizing s with
  | zero => exact simulates_of_eq rfl rfl
  | succ n ih =>
    unfold lineWithin skipLineWithin
    split
    · exact s.simulates_advance
    · exact s.simulates_advance.trans (ih s.advance)

/-- Whether a request gives up on no bracket. -/
def Request.isPatient : Request → Bool
  | flush | forget _ => false
  | next | peek _ | skipLine | last => true

theorem simulates_performAll {rs : List Request} (hrs : ∀ r ∈ rs, r.isPatient = true) (s : Scanner) :
    s.Simulates (takesAll rs s) (performAll rs s) := by
  induction rs generalizing s with
  | nil => exact simulates_of_eq rfl rfl
  | cons r rs ih =>
    obtain ⟨hr, hrs⟩ := List.forall_mem_cons.1 hrs
    refine Simulates.trans ?_ (ih hrs _)
    cases r with
    | next => exact s.simulates_advance
    | peek n => exact simulates_of_eq (s.pending_fill (n + 1)) (s.reports_fill (n + 1))
    | skipLine => exact simulates_lineWithin _ s
    | last => exact simulates_of_eq rfl rfl
    | flush => contradiction
    | forget opened => contradiction

/-- When the end of a source is next, its brackets are those that were handed out. -/
theorem marks_takesAll {source : Source} {rs : List Request}
    (hend : (performAll rs { source }).next.isEndOfFile = true) :
    marks (takesAll rs { source }) = marks (tokens { source }).1 := by
  have hout := handsOut_performAll rs { source }
  have hahead : ahead { source } = source.tokenAt := by
    funext n
    rw [ahead_eq]
    rfl
  obtain ⟨m, hbefore, hm⟩ := source.exists_endOfFile
  have hnext : (source.tokenAt (takesAll rs { source }).length).isEndOfFile = true := by
    rw [next, hout.ahead 0, hahead, Nat.zero_add] at hend
    exact hend
  have hle : m ≤ (takesAll rs { source }).length := by
    by_contra hlt
    rw [hbefore _ (Nat.lt_of_not_le hlt)] at hnext
    contradiction
  rw [hout.tokens_eq, hahead, Source.tokens_eq_map hbefore hm, Source.marks_of_le hm hle,
    Source.marks_of_le hm (Nat.le_succ m)]

/-- When every token of a source has been handed out, and no bracket is waited for any more, none was
reported just if the brackets of the source are balanced. -/
theorem silent_iff_balanced {source : Source} {rs : List Request}
    (hrs : ∀ r ∈ rs, r.isPatient = true)
    (hend : (performAll rs { source }).next.isEndOfFile = true) :
    (∀ r ∈ (performAll rs { source }).flush.reports, r.problem.isBracket = false) ↔
      Mark.Balanced (marks (tokens { source }).1) := by
  obtain ⟨news, hreports, hfollow⟩ := simulates_performAll hrs { source }
  have hnews : (performAll rs { source }).reports = news := hreports
  have hflush : (performAll rs { source }).flush.reports =
      news ++ (performAll rs { source }).pending.map unclosedReport := by
    rw [flush, hnews]
  have hstart : kinds { source } = [] := rfl
  rw [← marks_takesAll hend, Mark.balanced_iff, ← hstart, hfollow, hflush]
  by_cases hany : news.any (·.problem.isBracket) = true
  · obtain ⟨r, hr, hbracket⟩ := List.any_eq_true.1 hany
    rw [if_pos hany]
    refine iff_of_false (fun hall => ?_) (by simp)
    rw [hall r (List.mem_append_left _ hr)] at hbracket
    contradiction
  · rw [if_neg hany, Option.some.injEq, hstart, kinds, List.map_eq_nil_iff]
    constructor
    · intro hall
      rw [List.eq_nil_iff_forall_not_mem]
      intro o ho
      have hsilent := hall _ (List.mem_append_right _ (List.mem_map_of_mem ho))
      contradiction
    · intro hnone r hr
      rw [hnone, List.map_nil, List.append_nil] at hr
      simpa using fun hbracket => hany (List.any_eq_true.2 ⟨r, hr, hbracket⟩)

end Scanner

end FloatLang
