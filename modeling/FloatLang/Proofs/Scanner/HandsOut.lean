import FloatLang.Proofs.Scanner.Ahead

/-!
# Handing out tokens

A parser changes its scanner in six ways: it takes the next token, looks ahead, records a report,
and gives up on one or all of the open brackets. `Scanner.HandsOut` records the tokens that are
taken in between. Everything a scanner keeps on such a way is proved here once.

## Main definitions

* `Scanner.HandsOut` — a scanner comes from another by handing out tokens
* `Scanner.EndsOnce` — nothing comes after the end of the file

## Main results

* `Scanner.HandsOut.ahead` — the tokens ahead move up by as many as were handed out
* `Scanner.HandsOut.tokens_eq` — the tokens handed out are those that were ahead
* `Scanner.HandsOut.remaining_le` — each of them is taken from what is left
* `Scanner.HandsOut.source` — the source moves over characters only
-/

namespace FloatLang.Scanner

/-- The scanner `s'` comes from `s` by handing out exactly the tokens `ts`. -/
inductive HandsOut : Scanner → List Token → Scanner → Prop
  | refl (s : Scanner) : HandsOut s [] s
  | advance {s s' : Scanner} {ts : List Token} (rest : HandsOut s.advance ts s') :
      HandsOut s (s.next :: ts) s'
  | fill {s s' : Scanner} {ts : List Token} (n : Nat) (rest : HandsOut (s.fill n) ts s') :
      HandsOut s ts s'
  | report {s s' : Scanner} {ts : List Token} (r : Report) (rest : HandsOut (s.report r) ts s') :
      HandsOut s ts s'
  | forget {s f s' : Scanner} {ts : List Token} {l : Location} {b : Bracket}
      (forgotten : s.forget? l = some (b, f)) (rest : HandsOut f ts s') : HandsOut s ts s'
  | flush {s s' : Scanner} {ts : List Token} (rest : HandsOut s.flush ts s') : HandsOut s ts s'

/-! ### Steps that hand out nothing -/

/-- To stop waiting for a bracket changes nothing but the open brackets. -/
theorem eq_of_forget? {s f : Scanner} {l : Location} {b : Bracket}
    (h : s.forget? l = some (b, f)) :
    f = { s with pending := s.pending.eraseP (·.location.same l) } := by
  unfold forget? at h
  split at h
  · contradiction
  · exact (Prod.mk.inj (Option.some.inj h)).2.symm

/-- The innermost open bracket is the first one that is found. -/
theorem forget?_innermost {s : Scanner} {o : Opening} {os : List Opening}
    (h : s.pending = o :: os) :
    s.forget? o.location = some (o.bracket, { s with pending := os }) := by
  simp [forget?, h]

theorem source_forget? {s f : Scanner} {l : Location} {b : Bracket}
    (h : s.forget? l = some (b, f)) : f.source = s.source := by
  rw [eq_of_forget? h]

theorem lookahead_forget? {s f : Scanner} {l : Location} {b : Bracket}
    (h : s.forget? l = some (b, f)) : f.lookahead = s.lookahead := by
  rw [eq_of_forget? h]

@[simp] theorem ahead_report (s : Scanner) (r : Report) : (s.report r).ahead = s.ahead :=
  ahead_congr rfl rfl

@[simp] theorem ahead_flush (s : Scanner) : s.flush.ahead = s.ahead := ahead_congr rfl rfl

theorem ahead_forget? {s f : Scanner} {l : Location} {b : Bracket}
    (h : s.forget? l = some (b, f)) : f.ahead = s.ahead :=
  ahead_congr (source_forget? h) (lookahead_forget? h)

theorem remaining_congr {s s' : Scanner} (hsource : s'.source = s.source)
    (hlookahead : s'.lookahead = s.lookahead) : s'.remaining = s.remaining := by
  rw [remaining, remaining, hsource, hlookahead]

/-! ### The end of the file -/

/-- Once the end of the file has been read ahead, no character is left. -/
def Drained (s : Scanner) : Prop :=
  ∀ t ∈ s.lookahead, t.isEndOfFile = true → s.source.rest = []

theorem Drained.readAhead {s : Scanner} (h : s.Drained) : s.readAhead.Drained := by
  intro t ht hend
  simp only [Scanner.readAhead] at ht ⊢
  -- a token from before was the last one already, the new one has just come to the end
  rcases List.mem_append.1 ht with hold | hnew
  · have hle := s.source.length_rest_scan_le
    rw [h t hold hend] at hle
    exact List.eq_nil_of_length_eq_zero (Nat.le_zero.1 hle)
  · obtain rfl := List.mem_singleton.1 hnew
    exact s.source.rest_scan_of_isEndOfFile hend

theorem Drained.readAheadTimes {s : Scanner} (h : s.Drained) (n : Nat) :
    (readAheadTimes n s).Drained := by
  induction n generalizing s with
  | zero => exact h
  | succ n ih => exact ih h.readAhead

/-- The end of the file is the last token, and it is read ahead after the last character only. -/
structure EndsOnce (s : Scanner) : Prop where
  drained : s.Drained
  stays : ∀ n, (s.ahead n).isEndOfFile = true → (s.ahead (n + 1)).isEndOfFile = true

theorem EndsOnce.ofSource (source : Source) : EndsOnce { source } where
  drained := by simp [Drained]
  stays n h := by
    rw [ahead_eq] at h ⊢
    exact source.isEndOfFile_tokenAt_succ n h

theorem EndsOnce.congr {s s' : Scanner} (h : s.EndsOnce) (hsource : s'.source = s.source)
    (hlookahead : s'.lookahead = s.lookahead) : s'.EndsOnce where
  drained := by
    rw [Drained, hsource, hlookahead]
    exact h.drained
  stays := by
    rw [ahead_congr hsource hlookahead]
    exact h.stays

theorem EndsOnce.fill {s : Scanner} (h : s.EndsOnce) (n : Nat) : (s.fill n).EndsOnce where
  drained := h.drained.readAheadTimes _
  stays := by
    rw [s.ahead_fill_eq]
    exact h.stays

theorem EndsOnce.advance {s : Scanner} (h : s.EndsOnce) : s.advance.EndsOnce where
  drained t ht hend := by
    simp only [Scanner.advance, lookahead_acknowledge, source_acknowledge] at ht ⊢
    exact (h.fill 1).drained t (List.mem_of_mem_tail ht) hend
  stays n hn := by
    rw [ahead_advance] at hn ⊢
    exact h.stays (n + 1) hn

/-- After the end of the file there is nothing but the end of the file. -/
theorem EndsOnce.ahead {s : Scanner} (h : s.EndsOnce) (hnext : s.next.isEndOfFile = true)
    (n : Nat) : (s.ahead n).isEndOfFile = true := by
  induction n with
  | zero => exact hnext
  | succ n ih => exact h.stays n ih

theorem EndsOnce.rest_eq_nil {s : Scanner} (h : s.EndsOnce) (hnext : s.next.isEndOfFile = true) :
    (s.fill 1).source.rest = [] := by
  have hmem : s.next ∈ (s.fill 1).lookahead := by
    rw [lookahead_fill_one]
    exact List.mem_cons_self
  exact (h.fill 1).drained _ hmem hnext

/-- Before the end of the file nothing is left to read. -/
theorem EndsOnce.hasNext_eq_false {s : Scanner} (h : s.EndsOnce)
    (hnext : s.next.isEndOfFile = true) : (s.fill 1).hasNext = false := by
  -- what was read ahead is ahead, and so it is the end of the file too
  have hread : ∀ t ∈ (s.fill 1).lookahead, t.isEndOfFile = true := by
    intro t ht
    obtain ⟨n, hn, rfl⟩ := List.mem_iff_getElem.1 ht
    have hahead := (s.fill 1).ahead_eq n
    rw [List.getElem?_eq_getElem hn, Option.getD_some, ahead_fill] at hahead
    rw [← hahead]
    exact h.ahead hnext n
  rw [hasNext, Source.hasNext, h.rest_eq_nil hnext]
  simpa using hread

/-! ### Moving through the source -/

theorem source_readAhead (s : Scanner) :
    ∃ passed, s.source.rest = passed ++ s.readAhead.source.rest ∧
      s.readAhead.source.position = s.source.position.after passed :=
  ⟨_, s.source.consumed_append_rest_scan.symm, s.source.position_scan⟩

theorem source_fill (s : Scanner) (n : Nat) :
    ∃ passed, s.source.rest = passed ++ (s.fill n).source.rest ∧
      (s.fill n).source.position = s.source.position.after passed := by
  unfold fill
  generalize n - s.lookahead.length = k
  induction k generalizing s with
  | zero => exact ⟨[], rfl, rfl⟩
  | succ k ih =>
    obtain ⟨first, hfirst, hposition⟩ := s.source_readAhead
    obtain ⟨more, hmore, hposition'⟩ := ih s.readAhead
    refine ⟨first ++ more, ?_, ?_⟩
    · rw [hfirst, hmore, List.append_assoc]
      rfl
    · rw [Position.after_append, ← hposition, ← hposition']
      rfl

namespace HandsOut

variable {s s' s'' : Scanner} {ts us : List Token}

theorem trans (h : HandsOut s ts s') (h' : HandsOut s' us s'') : HandsOut s (ts ++ us) s'' := by
  induction h with
  | refl s => exact h'
  | advance _ ih => exact .advance (ih h')
  | fill n _ ih => exact .fill n (ih h')
  | report r _ ih => exact .report r (ih h')
  | forget hf _ ih => exact .forget hf (ih h')
  | flush _ ih => exact .flush (ih h')

/-- The tokens ahead move up by as many as were handed out. -/
theorem ahead (h : HandsOut s ts s') (n : Nat) : s'.ahead n = s.ahead (n + ts.length) := by
  -- only an advance moves the tokens ahead
  induction h with
  | refl s => rfl
  | advance _ ih => rw [ih, ahead_advance, List.length_cons, Nat.add_assoc]
  | fill k _ ih => rw [ih, ahead_fill]
  | report r _ ih => rw [ih, ahead_report]
  | forget hf _ ih => rw [ih, ahead_forget? hf]
  | flush _ ih => rw [ih, ahead_flush]

/-- The tokens handed out are those that were ahead. -/
theorem tokens_eq (h : HandsOut s ts s') : ts = (List.range ts.length).map s.ahead := by
  induction h with
  | refl s => rfl
  | @advance s _ ts _ ih =>
    rw [List.length_cons, List.range_succ_eq_map, List.map_cons, List.map_map]
    conv => lhs; rw [ih]
    simp [Scanner.next, Function.comp_def]
  | fill k _ ih => rwa [ahead_fill_eq] at ih
  | report r _ ih => rwa [ahead_report] at ih
  | forget hf _ ih => rwa [ahead_forget? hf] at ih
  | flush _ ih => rwa [ahead_flush] at ih

/-- Whatever is handed out before the end of the file is taken from what is left. -/
theorem remaining_le (h : HandsOut s ts s') :
    s'.remaining + ts.countP (!·.isEndOfFile) ≤ s.remaining := by
  -- reports and brackets have no bearing on what is left
  induction h with
  | refl s => exact Nat.le_refl _
  | @advance s _ ts _ ih =>
    have heq := s.remaining_advance_eq
    have hfill := s.remaining_fill_le 1
    rw [List.countP_singleton] at heq
    rw [List.countP_cons]
    omega
  | @fill s _ _ n _ ih => exact Nat.le_trans ih (s.remaining_fill_le n)
  | report r _ ih => exact ih
  | forget hf _ ih => rwa [remaining_congr (source_forget? hf) (lookahead_forget? hf)] at ih
  | flush _ ih => exact ih

/-- Progress: less is left after a token that is not the end of the file. -/
theorem remaining_lt {t : Token} (h : HandsOut s (t :: ts) s') (ht : t.isEndOfFile = false) :
    s'.remaining < s.remaining := by
  have hle := h.remaining_le
  rw [List.countP_cons] at hle
  simp only [ht, Bool.not_false, ite_true] at hle
  omega

theorem endsOnce (h : HandsOut s ts s') (hs : s.EndsOnce) : s'.EndsOnce := by
  induction h with
  | refl s => exact hs
  | advance _ ih => exact ih hs.advance
  | fill n _ ih => exact ih (hs.fill n)
  | report r _ ih => exact ih (hs.congr rfl rfl)
  | forget hf _ ih => exact ih (hs.congr (source_forget? hf) (lookahead_forget? hf))
  | flush _ ih => exact ih (hs.congr rfl rfl)

/-- The source moves over characters, and its position with it. -/
theorem source (h : HandsOut s ts s') :
    ∃ passed, s.source.rest = passed ++ s'.source.rest ∧
      s'.source.position = s.source.position.after passed := by
  -- only reading ahead moves the source, and an advance reads one token ahead
  induction h with
  | refl s => exact ⟨[], rfl, rfl⟩
  | @advance s s' _ _ ih =>
    obtain ⟨first, hfirst, hposition⟩ := s.source_fill 1
    obtain ⟨more, hmore, hposition'⟩ := ih
    simp only [Scanner.advance, source_acknowledge] at hmore hposition'
    exact ⟨first ++ more, by rw [hfirst, hmore, List.append_assoc],
      by rw [Position.after_append, ← hposition, ← hposition']⟩
  | @fill s s' _ n _ ih =>
    obtain ⟨first, hfirst, hposition⟩ := s.source_fill n
    obtain ⟨more, hmore, hposition'⟩ := ih
    exact ⟨first ++ more, by rw [hfirst, hmore, List.append_assoc],
      by rw [Position.after_append, ← hposition, ← hposition']⟩
  | report r _ ih => exact ih
  | forget hf _ ih => rwa [source_forget? hf] at ih
  | flush _ ih => exact ih

/-- The token that was handed out last is the last of those that were handed out. -/
theorem last? (h : HandsOut s ts s') : s'.last? = ts.getLast?.or s.last? := by
  induction h with
  | refl s => rfl
  | @advance s s' ts _ ih =>
    rw [ih, last?_advance, List.getLast?_cons]
    cases ts.getLast? <;> rfl
  | fill n _ ih => rw [ih, last?_fill]
  | report r _ ih => exact ih
  | forget hf _ ih => rw [ih, eq_of_forget? hf]
  | flush _ ih => exact ih

end HandsOut

end FloatLang.Scanner
