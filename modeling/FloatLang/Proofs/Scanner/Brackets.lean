import FloatLang.Proofs.Scanner.HandsOut

/-!
# Tokens without objection

A scanner objects to invalid tokens and to brackets that do not match. Tokens whose brackets are
balanced are handed out without objection, whatever brackets are open around them.

## Main definitions

* `follow?`, `followAll?` — the brackets open after tokens to which there is no objection
* `Balanced` — every bracket among the tokens is closed
* `Scanner.Accepts` — a scanner hands out tokens and reports nothing

## Main results

* `followAll?_of_balanced` — balanced tokens leave the open brackets as they were
* `Scanner.accepts_advance` — handing out a token to which there is no objection
-/

namespace FloatLang

/-- The open brackets after a token, if there is no objection to it. -/
def follow? (pending : List Opening) (t : Token) : Option (List Opening) :=
  match t.kind with
  | .invalid _ => none
  | .operator op =>
    match op.opens?, op.closes? with
    | some bracket, _ => some (⟨bracket, t.location⟩ :: pending)
    | none, some bracket =>
      if pending.head?.map Opening.bracket = some bracket then some pending.tail else none
    | none, none => some pending
  | _ => some pending

/-- The open brackets after tokens, if there is no objection to any of them. -/
def followAll? (pending : List Opening) (ts : List Token) : Option (List Opening) :=
  ts.foldlM follow? pending

section Follow

variable {pending : List Opening} {t : Token} {ts us : List Token}

@[simp] theorem followAll?_nil : followAll? pending [] = some pending := rfl

@[simp] theorem followAll?_cons :
    followAll? pending (t :: ts) = (follow? pending t).bind (followAll? · ts) := by
  simp [followAll?]

theorem followAll?_append :
    followAll? pending (ts ++ us) = (followAll? pending ts).bind (followAll? · us) := by
  simp [followAll?]

end Follow

/-- Whether a token is neither invalid nor a bracket. -/
def Token.isPlain (t : Token) : Bool := t.error?.isNone && (t.operator?.bind Operator.bracket?).isNone

/-- Every bracket among the tokens is closed among them. -/
inductive Balanced : List Token → Prop
  | nil : Balanced []
  | plain {t : Token} (h : t.isPlain = true) : Balanced [t]
  | append {ts us : List Token} (hts : Balanced ts) (hus : Balanced us) : Balanced (ts ++ us)
  | enclosed {t u : Token} {ts : List Token} (bracket : Bracket)
      (ht : t.kind = .operator (.opening bracket)) (hts : Balanced ts)
      (hu : u.kind = .operator (.closing bracket)) : Balanced (t :: (ts ++ [u]))

theorem Balanced.cons {t : Token} {ts : List Token} (ht : t.isPlain = true) (hts : Balanced ts) :
    Balanced (t :: ts) := .append (.plain ht) hts

theorem follow?_of_isPlain {pending : List Opening} {t : Token} (h : t.isPlain = true) :
    follow? pending t = some pending := by
  unfold follow?
  split
  next error hkind => simp [Token.isPlain, Token.error?, hkind] at h
  next op hkind =>
    simp only [Token.isPlain, Token.operator?, hkind, Bool.and_eq_true] at h
    have hnone := Option.isNone_iff_eq_none.1 h.2
    cases op <;> first | rfl | (simp [Operator.bracket?, Operator.opens?, Operator.closes?] at hnone)
  · rfl

/-- Balanced tokens leave the open brackets as they were. -/
theorem followAll?_of_balanced {ts : List Token} (h : Balanced ts) (pending : List Opening) :
    followAll? pending ts = some pending := by
  -- inside brackets one more is open, so the induction is over every list of open ones
  induction h generalizing pending with
  | nil => rfl
  | plain h => simp [follow?_of_isPlain h]
  | append _ _ ihts ihus => rw [followAll?_append, ihts, Option.bind_some, ihus]
  | @enclosed t u ts bracket ht _ hu ih =>
    have hopen : follow? pending t = some (⟨bracket, t.location⟩ :: pending) := by
      unfold follow?
      rw [ht]
      cases bracket <;> rfl
    have hclose : follow? (⟨bracket, t.location⟩ :: pending) u = some pending := by
      unfold follow?
      rw [hu]
      cases bracket <;> rfl
    rw [followAll?_cons, hopen, Option.bind_some, followAll?_append, ih, Option.bind_some,
      followAll?_cons, hclose]
    rfl

namespace Scanner

/-! ### Reading ahead reports nothing -/

theorem unchanged_readAheadTimes (s : Scanner) (n : Nat) :
    (readAheadTimes n s).pending = s.pending ∧ (readAheadTimes n s).reports = s.reports := by
  induction n generalizing s with
  | zero => exact ⟨rfl, rfl⟩
  | succ n ih => exact ih s.readAhead

@[simp] theorem pending_fill (s : Scanner) (n : Nat) : (s.fill n).pending = s.pending :=
  (s.unchanged_readAheadTimes _).1

@[simp] theorem reports_fill (s : Scanner) (n : Nat) : (s.fill n).reports = s.reports :=
  (s.unchanged_readAheadTimes _).2

/-- The scanner `s'` comes from `s` by handing out the tokens `ts` without objection. -/
structure Accepts (s : Scanner) (ts : List Token) (s' : Scanner) : Prop where
  handsOut : s.HandsOut ts s'
  reports : s'.reports = s.reports
  pending : followAll? s.pending ts = some s'.pending

theorem Accepts.refl (s : Scanner) : s.Accepts [] s := ⟨.refl s, rfl, rfl⟩

theorem Accepts.trans {s s' s'' : Scanner} {ts us : List Token} (h : s.Accepts ts s')
    (h' : s'.Accepts us s'') : s.Accepts (ts ++ us) s'' where
  handsOut := h.handsOut.trans h'.handsOut
  reports := h'.reports.trans h.reports
  pending := by rw [followAll?_append, h.pending, Option.bind_some, h'.pending]

theorem accepts_fill (s : Scanner) (n : Nat) : s.Accepts [] (s.fill n) :=
  ⟨.fill n (.refl _), s.reports_fill n, congrArg some (s.pending_fill n).symm⟩

/-- Following a token and watching it handed out come to the same. -/
theorem objection?_of_follow? {s : Scanner} {t : Token} {pending : List Opening}
    (h : follow? s.pending t = some pending) :
    s.objection? t = none ∧ s.pendingAfter t = pending := by
  unfold follow? at h
  -- the same three questions are asked in both: is the token valid, does it open, does it close
  unfold pendingAfter objection? Token.operator?
  split at h
  · contradiction
  next op hkind =>
    rw [hkind]
    dsimp only
    split at h
    next bracket _ hopens =>
      obtain rfl := Option.some.inj h
      have hcloses : op.closes? = none := by cases op <;> first | rfl | contradiction
      simp [hopens, hcloses]
    next bracket hopens hcloses =>
      split at h
      next hmatch =>
        obtain rfl := Option.some.inj h
        simp [hopens, hcloses, hmatch, Operator.isClosing]
      · contradiction
    next hopens hcloses =>
      obtain rfl := Option.some.inj h
      simp [hopens, hcloses, Operator.isClosing]
  next hinvalid hoperator =>
    obtain rfl := Option.some.inj h
    cases hkind : t.kind with
    | invalid error => exact absurd hkind (hinvalid error)
    | operator op => exact absurd hkind (hoperator op)
    | _ => exact ⟨rfl, rfl⟩

/-- A token to which there is no objection is followed. -/
theorem follow?_of_objection? {s : Scanner} {t : Token} (h : s.objection? t = none) :
    follow? s.pending t = some (s.pendingAfter t) := by
  unfold objection? at h
  unfold follow? pendingAfter Token.operator?
  split at h
  · contradiction
  next op hkind =>
    rw [hkind]
    dsimp only
    split at h
    next bracket hcloses =>
      have hopens : op.opens? = none := by cases op <;> first | rfl | contradiction
      split at h
      next hmatch => simp [hopens, hcloses, hmatch, objection?, hkind, Operator.isClosing]
      · contradiction
    next hcloses => cases hopens : op.opens? <;> simp [hcloses, Operator.isClosing]
  next hinvalid hoperator =>
    cases hkind : t.kind with
    | invalid error => exact absurd hkind (hinvalid error)
    | operator op => exact absurd hkind (hoperator op)
    | _ => rfl

theorem acknowledge_of_follow? {s : Scanner} {t : Token} {pending : List Opening}
    (h : follow? s.pending t = some pending) :
    s.acknowledge t = { s with pending, last? := some t } := by
  obtain ⟨hobjection, hafter⟩ := objection?_of_follow? h
  simp only [acknowledge, hobjection, hafter]

/-- A token to which there is no objection is handed out without a report. -/
theorem accepts_advance {s : Scanner} {pending : List Opening}
    (h : follow? s.pending s.next = some pending) :
    s.Accepts [s.next] s.advance ∧ s.advance.pending = pending := by
  have hfill : follow? (s.fill 1).pending s.next = some pending := by rwa [pending_fill]
  have hadvance : s.advance = { s.fill 1 with
      lookahead := (s.fill 1).lookahead.tail, pending, last? := some s.next } :=
    acknowledge_of_follow? (s := { s.fill 1 with lookahead := (s.fill 1).lookahead.tail }) hfill
  refine ⟨⟨.advance (.refl _), ?_, ?_⟩, ?_⟩
  · rw [hadvance]
    exact s.reports_fill 1
  · rw [hadvance, followAll?_cons, h]
    rfl
  · rw [hadvance]

end Scanner

end FloatLang
