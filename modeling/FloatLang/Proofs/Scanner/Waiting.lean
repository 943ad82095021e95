import Mathlib.Data.List.Forall2
import FloatLang.Proofs.Lists
import FloatLang.Proofs.Scanner.BracketWords

/-!
# The brackets a scanner waits for

What a scanner keeps of its brackets is a matter of its history: which tokens it has handed out, and
what it has been told to give up on in between. An opening bracket is waited for until it is given up,
or until a closing bracket of its kind comes while no later one is waited for. The pending brackets
of a scanner are those that are waited for in this sense, in the order in which they were handed out.

## Main definitions

* `Scanner.Event`, `Scanner.history` — what happens in a session
* `Scanner.Ends`, `Scanner.IsWaiting` — until when an opening bracket is waited for
* `Scanner.Lists` — the brackets waited for at the end of a history
* `Scanner.Tracks` — a scanner whose pending brackets are those of its history

## Main results

* `Scanner.isWaiting_iff` — what it means to be waited for
* `Scanner.Lists.advance` — one token
* `Scanner.tracks_performAll` — every session
* `Scanner.brackets_match` — the brackets of a scanner after a session, and of a whole source
-/

namespace FloatLang.Scanner

/-- What may happen to the brackets of a scanner. -/
inductive Event
  /-- A token is handed out. -/
  | take (t : Token)
  /-- The bracket opened at a place is given up. -/
  | forget (opened : Location)
  /-- Every bracket is given up. -/
  | flush
  deriving DecidableEq, Repr

/-- What happens when a request is performed. -/
def events (s : Scanner) (r : Request) : List Event :=
  (s.takes r).map .take ++
    match r with
    | .forget opened => [.forget opened]
    | .flush => [.flush]
    | .next | .peek _ | .skipLine | .last => []

/-- What happens in a session. -/
def history : List Request → Scanner → List Event
  | [], _ => []
  | r :: rs, s => s.events r ++ history rs (s.perform r).2

/-! ### Waiting -/

/-- The event of number `i` hands out an opening bracket. -/
def Opens (h : List Event) (i : Nat) (b : Bracket) : Prop :=
  ∃ t, h[i]? = some (.take t) ∧ t.kind = .operator (.opening b)

/-- The event of number `j` hands out a closing bracket. -/
def Closes (h : List Event) (j : Nat) (b : Bracket) : Prop :=
  ∃ t, h[j]? = some (.take t) ∧ t.kind = .operator (.closing b)

/-- The event of number `j` gives up the bracket that the event of number `i` hands out. -/
def Forgets (h : List Event) (j i : Nat) : Prop :=
  ∃ opened t, h[j]? = some (.forget opened) ∧ h[i]? = some (.take t) ∧
    t.location.same opened = true

/-- The event of number `j` gives the opening bracket of number `i` up, or closes it: they are of the
same kind, and of those that are waited for none was opened later. -/
def Ends (h : List Event) (waiting : Nat → Prop) (j i : Nat) : Prop :=
  h[j]? = some .flush ∨ Forgets h j i ∨ ∃ b, Opens h i b ∧ Closes h j b ∧ ∀ k, waiting k → k ≤ i

/-- Whether the opening bracket of number `i` is waited for after the first `n` events. -/
def IsWaiting (h : List Event) : Nat → Nat → Prop
  | 0, _ => False
  | n + 1, i =>
    (i = n ∧ ∃ b, Opens h n b) ∨ (IsWaiting h n i ∧ ¬ Ends h (IsWaiting h n) n i)

variable {h more : List Event} {e : Event} {i j n : Nat} {b : Bracket} {t : Token} {o : Opening}
  {os os' : List Opening}

/-- What is waited for are the opening brackets that were handed out and not ended by any event
since. -/
theorem isWaiting_iff :
    IsWaiting h n i ↔
      i < n ∧ (∃ b, Opens h i b) ∧ ∀ j, i < j → j < n → ¬ Ends h (IsWaiting h j) j i := by
  induction n with
  | zero => exact ⟨fun hi => absurd hi id, fun hi => absurd hi.1 (Nat.not_lt_zero i)⟩
  | succ n ih =>
    rw [IsWaiting, ih]
    constructor
    · rintro (⟨rfl, hopens⟩ | ⟨⟨hlt, hopens, hearlier⟩, hnow⟩)
      · exact ⟨Nat.lt_succ_self i, hopens, fun j hij hj => by omega⟩
      · refine ⟨Nat.lt_succ_of_lt hlt, hopens, fun j hij hj => ?_⟩
        rcases Nat.lt_or_eq_of_le (Nat.le_of_lt_succ hj) with hjn | rfl
        · exact hearlier j hij hjn
        · exact hnow
    · rintro ⟨hlt, hopens, hends⟩
      rcases Nat.lt_or_eq_of_le (Nat.le_of_lt_succ hlt) with hin | rfl
      · exact .inr ⟨⟨hin, hopens, fun j hij hj => hends j hij (Nat.lt_succ_of_lt hj)⟩,
          hends n hin (Nat.lt_succ_self n)⟩
      · exact .inl ⟨rfl, hopens⟩

theorem IsWaiting.lt (hi : IsWaiting h n i) : i < n := (isWaiting_iff.1 hi).1

/-! ### One more event -/

theorem opens_concat (hi : i < h.length) : Opens (h ++ [e]) i b ↔ Opens h i b := by
  rw [Opens, Opens, List.getElem?_append_left hi]

/-- Nothing that happens later has been waited for before. -/
theorem isWaiting_concat_of_le (hn : n ≤ h.length) :
    IsWaiting (h ++ [e]) n = IsWaiting h n := by
  induction n with
  | zero => rfl
  | succ n ih =>
    have hlt : n < h.length := hn
    funext i
    rw [IsWaiting, IsWaiting, ih (Nat.le_of_lt hlt)]
    refine propext (or_congr ?_ (and_congr_right fun hi => not_congr ?_))
    · exact and_congr_right fun _ => exists_congr fun b => opens_concat hlt
    · have hlt' := hi.lt.trans hlt
      simp only [Ends, Forgets, Closes, opens_concat hlt', List.getElem?_append_left hlt,
        List.getElem?_append_left hlt']

/-- What is waited for after one more event. -/
theorem isWaiting_concat :
    IsWaiting (h ++ [e]) (h ++ [e]).length i ↔
      (i = h.length ∧ ∃ b t, e = .take t ∧ t.kind = .operator (.opening b)) ∨
        IsWaiting h h.length i ∧ ¬ (e = .flush ∨
          (∃ opened t, e = .forget opened ∧ h[i]? = some (.take t) ∧
            t.location.same opened = true) ∨
          ∃ b t, e = .take t ∧ t.kind = .operator (.closing b) ∧ Opens h i b ∧
            ∀ k, IsWaiting h h.length k → k ≤ i) := by
  have hlast : (h ++ [e])[h.length]? = some e := List.getElem?_concat_length
  rw [List.length_append, List.length_singleton, IsWaiting, isWaiting_concat_of_le (Nat.le_refl _)]
  refine or_congr ?_ (and_congr_right fun hi => not_congr ?_)
  · simp only [Opens, hlast, Option.some.injEq]
  · simp only [Ends, Forgets, Closes, opens_concat hi.lt, hlast, List.getElem?_append_left hi.lt,
      Option.some.injEq]
    refine or_congr_right (or_congr_right (exists_congr fun b => ?_))
    constructor
    · rintro ⟨hopens, ⟨t, rfl, hkind⟩, hlater⟩
      exact ⟨t, rfl, hkind, hopens, hlater⟩
    · rintro ⟨t, rfl, hkind, hopens, hlater⟩
      exact ⟨hopens, ⟨t, rfl, hkind⟩, hlater⟩

/-! ### Lists of brackets that are waited for -/

/-- The opening bracket is the one that the event of number `i` hands out. -/
def Opened (h : List Event) (o : Opening) (i : Nat) : Prop :=
  ∃ t, h[i]? = some (.take t) ∧ t.kind = .operator (.opening o.bracket) ∧ o.location = t.location

theorem Opened.opens (ho : Opened h o i) : Opens h i o.bracket := by
  obtain ⟨t, ht, hkind, -⟩ := ho
  exact ⟨t, ht, hkind⟩

theorem Opened.bracket_eq (ho : Opened h o i) (hb : Opens h i b) : o.bracket = b := by
  obtain ⟨t, ht, hkind, -⟩ := ho
  obtain ⟨t', ht', hkind'⟩ := hb
  obtain rfl := Event.take.inj (Option.some.inj (ht.symm.trans ht'))
  exact Operator.opening_injective (TokenKind.operator.inj (hkind.symm.trans hkind'))

theorem Opened.concat (ho : Opened h o i) : Opened (h ++ [e]) o i := by
  obtain ⟨t, ht, hopened⟩ := ho
  have hi : i < h.length := (List.getElem?_eq_some_iff.1 ht).1
  exact ⟨t, by rwa [List.getElem?_append_left hi], hopened⟩

/-- The openings are those that are waited for at the end of the history, the last one first. -/
def Lists (h : List Event) (os : List Opening) : Prop :=
  ∃ is : List Nat, is.Pairwise (· > ·) ∧ (∀ i, i ∈ is ↔ IsWaiting h h.length i) ∧
    List.Forall₂ (Opened h) os is

namespace Lists

/-- The event makes no difference to the brackets that are waited for. -/
theorem keep (hos : Lists h os)
    (hwaiting : ∀ i, IsWaiting (h ++ [e]) (h ++ [e]).length i ↔ IsWaiting h h.length i) :
    Lists (h ++ [e]) os := by
  obtain ⟨is, hsorted, hmem, hopened⟩ := hos
  exact ⟨is, hsorted, fun i => (hmem i).trans (hwaiting i).symm,
    hopened.imp fun _ _ ho => ho.concat⟩

/-- An opening bracket is waited for from then on. -/
theorem opening (hos : Lists h os) (hkind : t.kind = .operator (.opening b)) :
    Lists (h ++ [.take t]) (⟨b, t.location⟩ :: os) := by
  obtain ⟨is, hsorted, hmem, hopened⟩ := hos
  refine ⟨h.length :: is, List.pairwise_cons.2 ⟨fun i hi => ((hmem i).1 hi).lt, hsorted⟩,
    fun i => ?_, .cons ⟨t, List.getElem?_concat_length, hkind, rfl⟩
      (hopened.imp fun _ _ ho => ho.concat)⟩
  rw [List.mem_cons, hmem, isWaiting_concat]
  refine or_congr ?_ ?_
  · exact ⟨fun hi => ⟨hi, b, t, rfl, hkind⟩, fun hi => hi.1⟩
  · refine (and_iff_left ?_).symm
    rintro (hflush | ⟨opened, t', hforget, -⟩ | ⟨b', t', htake, hclosing, -⟩)
    · contradiction
    · contradiction
    · obtain rfl := Event.take.inj htake
      rw [hkind] at hclosing
      cases b <;> cases b' <;> contradiction

/-- A closing bracket ends what is waited for only if it closes the last bracket of the list. -/
theorem isWaiting_closing (hkind : t.kind = .operator (.closing b)) :
    IsWaiting (h ++ [Event.take t]) (h ++ [Event.take t]).length i ↔
      IsWaiting h h.length i ∧ ¬ (Opens h i b ∧ ∀ k, IsWaiting h h.length k → k ≤ i) := by
  rw [isWaiting_concat]
  constructor
  · rintro (⟨-, b', t', htake, hopening⟩ | ⟨hi, hends⟩)
    · obtain rfl := Event.take.inj htake
      rw [hkind] at hopening
      cases b <;> cases b' <;> contradiction
    · exact ⟨hi, fun hcloses => hends (.inr (.inr ⟨b, t, rfl, hkind, hcloses⟩))⟩
  · rintro ⟨hi, hcloses⟩
    refine .inr ⟨hi, ?_⟩
    rintro (hflush | ⟨opened, t', hforget, -⟩ | ⟨b', t', htake, hclosing, hopens⟩)
    · contradiction
    · contradiction
    · obtain rfl := Event.take.inj htake
      obtain rfl := Operator.closing_injective
        (TokenKind.operator.inj (hkind.symm.trans hclosing))
      exact hcloses hopens

/-- A closing bracket closes the last one, if that is of its kind. -/
theorem closing (hos : Lists h os) (hkind : t.kind = .operator (.closing b))
    (hhead : os.head?.map Opening.bracket = some b) : Lists (h ++ [.take t]) os.tail := by
  obtain ⟨is, hsorted, hmem, hopened⟩ := hos
  cases hopened with
  | nil => contradiction
  | @cons o k os is ho hrest =>
    obtain ⟨hlater, hsorted'⟩ := List.pairwise_cons.1 hsorted
    have hbracket : o.bracket = b := Option.some.inj hhead
    refine ⟨is, hsorted', fun i => ?_, hrest.imp fun _ _ ho => ho.concat⟩
    rw [isWaiting_closing hkind, ← hmem, List.mem_cons]
    constructor
    · intro hi
      refine ⟨.inr hi, fun hends => ?_⟩
      have hle := hends.2 k ((hmem k).1 List.mem_cons_self)
      exact absurd hle (Nat.not_le.2 (hlater i hi))
    · rintro ⟨rfl | hi, hends⟩
      · refine absurd ⟨hbracket ▸ ho.opens, fun k hk => ?_⟩ hends
        rcases List.mem_cons.1 ((hmem k).2 hk) with rfl | hk
        · exact Nat.le_refl k
        · exact Nat.le_of_lt (hlater k hk)
      · exact hi

/-- Any other closing bracket closes nothing. -/
theorem unopened (hos : Lists h os) (hkind : t.kind = .operator (.closing b))
    (hhead : os.head?.map Opening.bracket ≠ some b) : Lists (h ++ [.take t]) os := by
  have hall := hos
  obtain ⟨is, hsorted, hmem, hopened⟩ := hos
  refine hall.keep fun i => ?_
  rw [isWaiting_closing hkind]
  refine and_iff_left_of_imp fun hi hends => ?_
  -- it would have to close the last one
  cases hopened with
  | nil => simp [← hmem] at hi
  | @cons o k os is ho hrest =>
    obtain rfl : i = k := by
      rcases List.mem_cons.1 ((hmem i).2 hi) with hik | hlater
      · exact hik
      · have hlt := (List.pairwise_cons.1 hsorted).1 i hlater
        have hle := hends.2 k ((hmem k).1 List.mem_cons_self)
        omega
    exact hhead (congrArg some (ho.bracket_eq hends.1))

/-- A token that is no bracket makes no difference. -/
theorem other (hos : Lists h os) (hopening : ∀ b, t.kind ≠ .operator (.opening b))
    (hclosing : ∀ b, t.kind ≠ .operator (.closing b)) : Lists (h ++ [.take t]) os := by
  refine hos.keep fun i => ?_
  rw [isWaiting_concat]
  constructor
  · rintro (⟨-, b, t', htake, hkind⟩ | ⟨hi, -⟩)
    · obtain rfl := Event.take.inj htake
      exact absurd hkind (hopening b)
    · exact hi
  · refine fun hi => .inr ⟨hi, ?_⟩
    rintro (hflush | ⟨opened, t', hforget, -⟩ | ⟨b, t', htake, hkind, -⟩)
    · contradiction
    · contradiction
    · obtain rfl := Event.take.inj htake
      exact absurd hkind (hclosing b)

/-- Of the openings in a list, those that are left, and the events that handed them out. -/
theorem exists_filter {is : List Nat} (p : Opening → Bool) (gone : Nat → Prop)
    (hopened : List.Forall₂ (Opened h) os is)
    (hgone : ∀ o i, Opened h o i → (p o = true ↔ ¬ gone i)) :
    ∃ is' : List Nat, is'.Sublist is ∧ (∀ i, i ∈ is' ↔ i ∈ is ∧ ¬ gone i) ∧
      List.Forall₂ (Opened h) (os.filter p) is' := by
  induction hopened with
  | nil => exact ⟨[], .slnil, by simp, .nil⟩
  | @cons o i os is ho _ ih =>
    obtain ⟨is', hsublist, hmem, hrest⟩ := ih
    by_cases hp : p o = true
    · refine ⟨i :: is', hsublist.cons_cons i, fun j => ?_, ?_⟩
      · rw [List.mem_cons, List.mem_cons, hmem, or_and_right]
        refine or_congr_left ⟨fun hj => ⟨hj, ?_⟩, fun hj => hj.1⟩
        rw [hj]
        exact (hgone o i ho).1 hp
      · rw [List.filter_cons_of_pos hp]
        exact .cons ho hrest
    · refine ⟨is', hsublist.cons i, fun j => ?_, ?_⟩
      · rw [List.mem_cons, hmem, or_and_right]
        refine (or_iff_right ?_).symm
        rintro ⟨rfl, hj⟩
        exact hp ((hgone o j ho).2 hj)
      · rwa [List.filter_cons_of_neg hp]

/-- A bracket is not waited for any more when its place is forgotten. -/
theorem forget (hos : Lists h os) (opened : Location) :
    Lists (h ++ [.forget opened]) (os.filter (!·.location.same opened)) := by
  obtain ⟨is, hsorted, hmem, hopened⟩ := hos
  obtain ⟨is', hsublist, hmem', hrest⟩ := exists_filter (!·.location.same opened)
    (fun i => ∃ t, h[i]? = some (.take t) ∧ t.location.same opened = true) hopened (by
      rintro o i ⟨t, ht, -, hlocation⟩
      simp [ht, hlocation])
  refine ⟨is', hsorted.sublist hsublist, fun i => ?_, hrest.imp fun _ _ ho => ho.concat⟩
  rw [hmem', hmem, isWaiting_concat]
  constructor
  · rintro ⟨hi, hkept⟩
    refine .inr ⟨hi, ?_⟩
    rintro (hflush | ⟨opened', t, hforget, ht, hsame⟩ | ⟨b, t, htake, -⟩)
    · contradiction
    · obtain rfl := Event.forget.inj hforget
      exact hkept ⟨t, ht, hsame⟩
    · contradiction
  · rintro (⟨-, b, t, htake, -⟩ | ⟨hi, hends⟩)
    · contradiction
    · exact ⟨hi, fun ⟨t, ht, hsame⟩ => hends (.inr (.inl ⟨opened, t, rfl, ht, hsame⟩))⟩

theorem flush : Lists (h ++ [.flush]) [] := by
  refine ⟨[], .nil, fun i => ?_, .nil⟩
  rw [isWaiting_concat]
  constructor
  · exact fun hi => absurd hi List.not_mem_nil
  · rintro (⟨-, b, t, htake, -⟩ | ⟨-, hends⟩)
    · contradiction
    · exact absurd (.inl rfl) hends

end Lists

/-! ### Sessions -/

/-- The places of the openings are further and further in front. -/
def Falling (os : List Opening) : Prop :=
  os.Pairwise fun o o' => o'.location.offset < o.location.offset

/-- No two brackets are at the same place. -/
theorem Falling.pairwise_same (hos : Falling os) (opened : Location) :
    os.Pairwise fun o o' =>
      o.location.same opened = true → o'.location.same opened = false := by
  refine hos.imp fun {o o'} hlt hsame => ?_
  rw [Bool.eq_false_iff]
  intro hsame'
  simp only [Location.same, Bool.and_eq_true, beq_iff_eq] at hsame hsame'
  rw [hsame.2, hsame'.2] at hlt
  exact Nat.lt_irrefl _ hlt

/-- The scanner has come to a token of the source, and its open brackets are those that are waited for
at the end of the history. They stand in front of the tokens ahead, and one in front of the other. -/
structure Tracks (source : Source) (h : List Event) (s : Scanner) : Prop where
  ahead : ∃ c, ∀ k, s.ahead k = source.tokenAt (c + k)
  below : ∀ o ∈ s.pending, ∀ k, o.location.offset < (s.ahead k).location.offset
  falling : Falling s.pending
  lists : Lists h s.pending

variable {source : Source} {h' : List Event} {s s' : Scanner}

theorem tracks_start (source : Source) : Tracks source [] { source } where
  ahead := ⟨0, fun k => by rw [ahead_eq, Nat.zero_add]; rfl⟩
  below o ho := absurd ho List.not_mem_nil
  falling := .nil
  lists := ⟨[], .nil, fun i => ⟨fun hi => absurd hi List.not_mem_nil, fun hi => absurd hi id⟩, .nil⟩

/-- Brackets that are left stand where they stood. -/
theorem Tracks.sublist (htracks : Tracks source h s) {d : Nat}
    (hahead : ∀ k, s'.ahead k = s.ahead (k + d)) (hsublist : s'.pending.Sublist s.pending)
    (hlists : Lists h' s'.pending) : Tracks source h' s' where
  ahead := by
    obtain ⟨c, hc⟩ := htracks.ahead
    exact ⟨c + d, fun k => by rw [hahead, hc, Nat.add_assoc, Nat.add_comm d]⟩
  below o ho k := by
    rw [hahead]
    exact htracks.below o (hsublist.subset ho) _
  falling := htracks.falling.sublist hsublist
  lists := hlists

/-- A bracket that is opened stands behind the others and in front of the tokens ahead. -/
theorem Tracks.opening (htracks : Tracks source h s)
    (hkind : s.next.kind = .operator (.opening b)) :
    Tracks source (h ++ [.take s.next]) s.advance := by
  obtain ⟨hpending, -⟩ := advance_of_opening hkind
  obtain ⟨c, hc⟩ := htracks.ahead
  have hnext : s.next = source.tokenAt c := hc 0
  refine ⟨⟨c + 1, fun k => ?_⟩, fun o ho k => ?_, ?_, ?_⟩
  · rw [ahead_advance, hc, Nat.add_assoc, Nat.add_comm 1]
  · rw [ahead_advance]
    rw [hpending] at ho
    rcases List.mem_cons.1 ho with rfl | hold
    · have hend : (source.tokenAt c).isEndOfFile = false := by
        rw [← hnext, Token.isEndOfFile, hkind]
        rfl
      rw [hc, hnext]
      exact Source.offset_lt hend (Nat.lt_add_of_pos_right k.succ_pos)
    · exact htracks.below o hold (k + 1)
  · rw [hpending]
    exact List.pairwise_cons.2 ⟨fun o ho => htracks.below o ho 0, htracks.falling⟩
  · rw [hpending]
    exact htracks.lists.opening hkind

/-- The next token. -/
theorem Tracks.advance (htracks : Tracks source h s) :
    Tracks source (h ++ [.take s.next]) s.advance := by
  rcases s.next.mark?_cases with ⟨b, hopening⟩ | ⟨b, hclosing⟩ | ⟨hopening, hclosing, -⟩
  · exact htracks.opening hopening
  · by_cases hhead : s.pending.head?.map Opening.bracket = some b
    · obtain ⟨hpending, -⟩ := advance_of_closing hclosing hhead
      refine htracks.sublist s.ahead_advance ?_ ?_
      · rw [hpending]
        exact List.tail_sublist _
      · rw [hpending]
        exact htracks.lists.closing hclosing hhead
    · obtain ⟨hpending, -⟩ := advance_of_unopened hclosing hhead
      refine htracks.sublist s.ahead_advance (by rw [hpending]) ?_
      rw [hpending]
      exact htracks.lists.unopened hclosing hhead
  · obtain ⟨hpending, -⟩ := advance_of_other hopening hclosing
    refine htracks.sublist s.ahead_advance (by rw [hpending]) ?_
    rw [hpending]
    exact htracks.lists.other hopening hclosing

theorem Tracks.skipLineWithin (htracks : Tracks source h s) (n : Nat) :
    Tracks source (h ++ (lineWithin n s).map .take) (Scanner.skipLineWithin n s) := by
  induction n generalizing h s with
  | zero => simpa [lineWithin, Scanner.skipLineWithin] using htracks
  | succ n ih =>
    unfold lineWithin Scanner.skipLineWithin
    split
    · exact htracks.advance
    · have hrest := ih htracks.advance
      rwa [List.append_assoc, List.singleton_append] at hrest

theorem Tracks.forget (htracks : Tracks source h s) (opened : Location) :
    Tracks source (h ++ [.forget opened]) (s.perform (.forget opened)).2 := by
  have hpending : (s.perform (.forget opened)).2.pending =
      s.pending.eraseP (·.location.same opened) := by
    rw [perform, forget?]
    cases hfind : s.pending.find? (·.location.same opened) with
    | none => exact (List.eraseP_of_forall_not (by simpa using hfind)).symm
    | some o => rfl
  have hahead : (s.perform (.forget opened)).2.ahead = s.ahead := by
    rw [perform]
    split
    next hforget => exact ahead_forget? hforget
    · rfl
  refine htracks.sublist (d := 0) (fun k => by rw [hahead, Nat.add_zero]) ?_ ?_
  · rw [hpending]
    exact List.eraseP_sublist
  · rw [hpending, eraseP_eq_filter (htracks.falling.pairwise_same opened)]
    exact htracks.lists.forget opened

theorem Tracks.perform (htracks : Tracks source h s) (r : Request) :
    Tracks source (h ++ s.events r) (s.perform r).2 := by
  cases r with
  | next => exact htracks.advance
  | peek n =>
    have hnothing : s.events (.peek n) = [] := rfl
    rw [hnothing, List.append_nil]
    refine htracks.sublist (d := 0) (fun k => s.ahead_fill (n + 1) k) ?_ ?_
    · rw [Scanner.perform, pending_fill]
    · rw [Scanner.perform, pending_fill]
      exact htracks.lists
  | skipLine =>
    rw [events, List.append_nil]
    exact htracks.skipLineWithin _
  | flush =>
    refine htracks.sublist (d := 0) (fun k => congrFun s.ahead_flush k) (List.nil_sublist _) ?_
    exact .flush
  | forget opened => exact htracks.forget opened
  | last =>
    have hnothing : s.events .last = [] := rfl
    rw [hnothing, List.append_nil]
    exact htracks

/-- After every session, the open brackets are those that are waited for. -/
theorem Tracks.performAll (htracks : Tracks source h s) (rs : List Request) :
    Tracks source (h ++ history rs s) (Scanner.performAll rs s) := by
  induction rs generalizing h s with
  | nil => rwa [history, List.append_nil]
  | cons r rs ih =>
    have hrest := ih (htracks.perform r)
    rwa [List.append_assoc] at hrest

/-- In whatever way a source is read, the open brackets are those opening brackets, in the order in
which they were handed out and at growing offsets, that are waited for: they were not closed,
forgotten or given up since. The next closing bracket closes the last of them, if it is of the same
kind, and otherwise it is reported and closes none. So if the whole source has been handed out without
giving up on brackets, those that are open are reported then, and no bracket is reported at all just
if the brackets of the source are balanced. -/
theorem brackets_match (source : Source) (rs : List Request) :
    let s := performAll rs { source }
    let h := history rs { source }
    (∃ is : List Nat, is.Pairwise (· < ·) ∧ (∀ i, i ∈ is ↔ IsWaiting h h.length i) ∧
        List.Forall₂ (Opened h) s.pending.reverse is) ∧
      s.pending.reverse.Pairwise (fun o o' => o.location.offset < o'.location.offset) ∧
      (∀ b, s.next.kind = .operator (.closing b) →
        if s.pending.head?.map Opening.bracket = some b then
          s.advance.pending = s.pending.tail ∧ s.advance.reports = s.reports
        else s.advance.pending = s.pending ∧
          s.advance.reports = s.reports ++ [unopenedReport b s.next.location]) ∧
      ((∀ r ∈ rs, r.isPatient = true) → s.next.isEndOfFile = true →
        ((∀ r ∈ s.flush.reports, r.problem.isBracket = false) ↔
          Mark.Balanced (marks (tokens { source }).1))) := by
  intro s h
  have htracks : Tracks source h s := (tracks_start source).performAll rs
  refine ⟨?_, ?_, fun b hclosing => ?_, fun hrs hend => silent_iff_balanced hrs hend⟩
  · obtain ⟨is, hsorted, hmem, hopened⟩ := htracks.lists
    refine ⟨is.reverse, List.pairwise_reverse.2 hsorted, fun i => ?_, ?_⟩
    · rw [List.mem_reverse, hmem]
    · exact List.forall₂_reverse_iff.2 hopened
  · exact List.pairwise_reverse.2 htracks.falling
  · split
    next hhead => exact advance_of_closing hclosing hhead
    next hhead => exact advance_of_unopened hclosing hhead

/-- Brackets that are closed on the next line, and one that is closed in place of another. -/
theorem brackets_match_across_lines :
    let source : Source := .ofText ⟨"main.rin"⟩ "([]\x7b\n\x7d)"
    let source' : Source := .ofText ⟨"main.rin"⟩ "([)"
    let rs : List Request := [.next, .peek 2, .skipLine, .skipLine]
    let s := performAll rs { source }
    let s' := performAll [.next, .next] { source := source' }
    ((∀ r ∈ rs, r.isPatient = true) ∧ s.next.isEndOfFile = true ∧
        (∀ r ∈ s.flush.reports, r.problem.isBracket = false) ∧
        Mark.Balanced (marks (tokens { source }).1)) ∧
      s'.next.kind = .operator (.closing .parenthesis) ∧
        s'.pending.head?.map Opening.bracket = some .square ∧ s'.advance.pending = s'.pending := by
  intro source source' rs s s'
  have hrs : ∀ r ∈ rs, r.isPatient = true := by decide
  have hend : s.next.isEndOfFile = true := by decide +kernel
  have hsilent : ∀ r ∈ s.flush.reports, r.problem.isBracket = false := by decide +kernel
  have hkind : s'.next.kind = .operator (.closing .parenthesis) := by decide +kernel
  have hhead : s'.pending.head?.map Opening.bracket = some .square := by decide +kernel
  have hclosing := (brackets_match source' [.next, .next]).2.2.1 .parenthesis hkind
  rw [if_neg (by rw [hhead]; decide)] at hclosing
  exact ⟨⟨hrs, hend, hsilent, ((brackets_match source rs).2.2.2 hrs hend).1 hsilent⟩, hkind, hhead,
    hclosing.1⟩

end FloatLang.Scanner
