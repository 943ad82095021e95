import FloatLang.Proofs.Rendering.Scanning
import FloatLang.Proofs.Scanner.Tiling

/-!
# Scanning is a normal form

What a token is depends on its own characters and never on what followed them in the source. So the
tokens of a source, written again with single blanks between them, are the same tokens.

## Main definitions

* `Source.bytesOf` — the bytes of a text
* `joined` — the spellings of tokens, with single blanks between them
* `Token.reading` — what a token is, wherever it stands

## Main results

* `Lexeme.HasShape.ofText_append` — a lexeme is found again where a blank or the end comes after it
* `Source.reading_tokenAt` — all tokens are found again
* `Scanner.tokens_respelled` — the tokens of every file are those of the file written again
-/

namespace FloatLang

open Rendering (Stops)

/-- The bytes of a text, one for each character: a character beyond 255 has none of its own. -/
def Source.bytesOf (text : List Char) : ByteArray :=
  ⟨(text.map fun c => UInt8.ofNat c.toNat).toArray⟩

/-- What a token is, wherever it stands. -/
def Token.reading (t : Token) : TokenKind × String := (t.kind, t.spelling)

/-- The spellings of tokens, with single blanks between them. -/
def joined (ts : List Token) : List Char := [' '].intercalate (ts.map (·.spelling.toList))

/-- The spellings of tokens, each with a blank in front. -/
def spaced (ts : List Token) : List Char := ts.flatMap fun t => ' ' :: t.spelling.toList

theorem joined_cons (t : Token) (ts : List Token) :
    joined (t :: ts) = t.spelling.toList ++ spaced ts := by
  induction ts generalizing t with
  | nil => simp [joined, spaced]
  | cons u ts ih =>
    have hmore := ih u
    simp only [joined, List.map_cons, spaced, List.flatMap_cons] at hmore ⊢
    rw [List.intercalate_cons_cons, hmore]
    simp

/-- Every character of joined spellings is a blank or belongs to one of them. -/
theorem mem_joined {ts : List Token} {c : Char} (hc : c ∈ joined ts) :
    c = ' ' ∨ ∃ t ∈ ts, c ∈ t.spelling.toList := by
  cases ts with
  | nil => simp [joined] at hc
  | cons t ts =>
    rw [joined_cons, List.mem_append] at hc
    rcases hc with hc | hc
    · exact .inr ⟨t, List.mem_cons_self, hc⟩
    · obtain ⟨u, hu, hc⟩ := List.mem_flatMap.1 hc
      rcases List.mem_cons.1 hc with rfl | hc
      · exact .inl rfl
      · exact .inr ⟨u, List.mem_cons_of_mem _ hu, hc⟩

theorem stops_spaced (ts : List Token) : Stops (spaced ts) := by
  cases ts with
  | nil => exact .nil
  | cons t ts => exact .blank _

/-! ### Lexemes -/

theorem operatorExtent_of_stops (symbol : List Char) {stop : List Char} (hstop : Stops stop) :
    operatorExtent symbol stop = (symbol, stop) := by
  cases hstop with
  | nil => rfl
  | blank text => simp [operatorExtent, ofSymbol?_concat (c := ' ') (.inl rfl)]

/-- An operator takes the same characters again, whatever came after them. -/
theorem operatorExtent_again (symbol text : List Char) {stop : List Char} (hstop : Stops stop) :
    ∃ more, (operatorExtent symbol text).1 = symbol ++ more ∧
      operatorExtent symbol (more ++ stop) = ((operatorExtent symbol text).1, stop) := by
  induction text generalizing symbol with
  | nil => exact ⟨[], by simp [operatorExtent], operatorExtent_of_stops symbol hstop⟩
  | cons c text ih =>
    rw [operatorExtent]
    split
    next hlonger =>
      obtain ⟨more, hmore, hagain⟩ := ih (symbol ++ [c])
      refine ⟨c :: more, by simp [hmore], ?_⟩
      rw [List.cons_append, operatorExtent, if_pos hlonger, hagain]
    next => exact ⟨[], by simp, operatorExtent_of_stops symbol hstop⟩

/-- No operator but the slash starts with a slash. -/
theorem operatorExtent_slash (text : List Char) : operatorExtent ['/'] text = (['/'], text) := by
  cases text with
  | nil => rfl
  | cons c text =>
    have hnone : Operator.ofSymbol? ['/', c] = none := by
      cases h : Operator.ofSymbol? ['/', c] with
      | none => rfl
      | some op =>
        have hsymbol := Operator.symbol_of_ofSymbol? h
        cases op <;> simp [Operator.symbol] at hsymbol
    simp [operatorExtent, hnone]

/-- There is no gap in front of what an operator starts, and a blank or the end comes after it. -/
theorem Gap.ofText_symbol {first : Char} (hfirst : Operator.startsSymbol first = true)
    (text : List Char) {stop : List Char} (hstop : Stops stop) :
    ofText ((operatorExtent [first] text).1 ++ stop) =
      ⟨[], (operatorExtent [first] text).1 ++ stop, false⟩ := by
  have hblank : isBlank first = false := by
    cases h : isBlank first with
    | false => rfl
    | true =>
      rcases (by simpa [isBlank] using h : first = ' ' ∨ first = '\t') with rfl | rfl <;>
        contradiction
  by_cases hslash : first = '/'
  · -- a comment would need a second character, but the slash is alone
    subst hslash
    rw [operatorExtent_slash]
    cases hstop with
    | nil => rfl
    | blank text => simp [ofText, isBlank]
  · obtain ⟨more, hmore, -⟩ := operatorExtent_again [first] text hstop
    rw [hmore, List.append_assoc, List.singleton_append, ofText_cons, hblank]
    · rfl
    · exact fun t heq => hslash (List.cons.inj heq).1
    · exact fun t heq => hslash (List.cons.inj heq).1

/-- A lexeme is found again where a blank or the end comes after its characters. Nothing may come
after those of a comment that never ends. -/
theorem Lexeme.HasShape.ofText_append {l : Lexeme} (h : l.HasShape) (hend : l.kind ≠ .endOfFile)
    {stop : List Char} (hstop : Stops stop)
    (hlast : l.kind = .invalid .unterminatedComment → stop = []) :
    Lexeme.ofText (l.text ++ stop) = ⟨[], l.kind, l.text, [], stop⟩ := by
  cases h with
  | comment hdropped =>
    obtain rfl := hlast rfl
    rfl
  | endOfFile skipped => contradiction
  | endOfLine skipped rest => simp [Lexeme.ofText, Gap.ofText, isBlank]
  | @operator _ text symbol _ first hfirst hsymbol =>
    obtain rfl : (operatorExtent [first] text).1 = symbol := congrArg Prod.fst hsymbol
    obtain ⟨more, hmore, hagain⟩ := operatorExtent_again [first] text hstop
    have hline : first ≠ '\n' := by
      rintro rfl
      contradiction
    have hgap := Gap.ofText_symbol hfirst text hstop
    simp only [Lexeme.ofText, hgap]
    rw [hmore] at hagain ⊢
    simp [hline, hfirst, hagain]
  | word hne hword => exact Rendering.ofText_letters hne hword rfl hstop

/-! ### Sources -/

namespace Source

variable {s s' : Source}

/-- What a source reads first does not change when a blank is put in front. -/
theorem scan_blank {text : List Char} (hs : s.rest = ' ' :: text) :
    s.scan.token.reading = ((Lexeme.ofText text).kind, String.ofList (Lexeme.ofText text).text) ∧
      s.scan.source.rest = (Lexeme.ofText text).rest := by
  rw [scan, hs, Rendering.ofText_blank]
  exact ⟨rfl, rfl⟩

/-- The first token of a source is found again, and then what comes after it. -/
theorem reading_scan {ts : List Token} (hend : s.scan.token.isEndOfFile = false)
    (hlast : s.scan.source.rest = [] → ts = [])
    (hs' : s'.rest = joined (s.scan.token :: ts) ∨ s'.rest = spaced (s.scan.token :: ts)) :
    s'.scan.token.reading = s.scan.token.reading ∧ s'.scan.source.rest = spaced ts := by
  have hkind : (Lexeme.ofText s.rest).kind ≠ .endOfFile := by
    simpa [Token.isEndOfFile, scan] using hend
  have hlexeme := (Lexeme.hasShape_ofText s.rest).ofText_append hkind (stops_spaced ts) fun h => by
    rw [hlast (Lexeme.dropped_of_comment h).2]
    rfl
  have hspelling : s.scan.token.spelling.toList = (Lexeme.ofText s.rest).text :=
    String.toList_ofList
  rcases hs' with hs' | hs'
  · rw [joined_cons, hspelling] at hs'
    rw [scan, hs', hlexeme]
    exact ⟨rfl, rfl⟩
  · rw [spaced, List.flatMap_cons, hspelling, List.cons_append] at hs'
    obtain ⟨hreading, hrest⟩ := scan_blank hs'
    rw [show List.flatMap _ ts = spaced ts from rfl, hlexeme] at hreading hrest
    exact ⟨hreading, hrest⟩

/-- The tokens of a source are found again in their spellings. -/
theorem reading_tokenAt {n : Nat} (hbefore : ∀ k < n, (s.tokenAt k).isEndOfFile = false)
    (hs' : s'.rest = joined ((List.range n).map s.tokenAt) ∨
      s'.rest = spaced ((List.range n).map s.tokenAt)) :
    (∀ k < n, (s'.tokenAt k).reading = (s.tokenAt k).reading) ∧ (skip n s').rest = [] := by
  induction n generalizing s s' with
  | zero =>
    have hnone : s'.rest = [] := by simpa [joined, spaced] using hs'
    exact ⟨fun k hk => absurd hk k.not_lt_zero, hnone⟩
  | succ n ih =>
    have hsucc (k : Nat) (hk : k < n) : (s.scan.source.tokenAt k).isEndOfFile = false :=
      hbefore (k + 1) (Nat.succ_lt_succ hk)
    have htokens : (List.range (n + 1)).map s.tokenAt =
        s.scan.token :: (List.range n).map s.scan.source.tokenAt := by
      rw [List.range_succ_eq_map, List.map_cons, List.map_map]
      rfl
    -- only the end of the file comes after the last character
    have hlast : s.scan.source.rest = [] → (List.range n).map s.scan.source.tokenAt = [] := by
      intro hrest
      have hle := le_length_of_before hsucc
      rw [hrest] at hle
      rw [Nat.le_zero.1 hle]
      rfl
    rw [htokens] at hs'
    obtain ⟨hfirst, hrest⟩ := reading_scan (hbefore 0 n.succ_pos) hlast hs'
    obtain ⟨hmore, hleft⟩ := ih hsucc (.inr hrest)
    refine ⟨fun k hk => ?_, hleft⟩
    cases k with
    | zero => exact hfirst
    | succ k => exact hmore k (Nat.lt_of_succ_lt_succ hk)

/-- The end of the file has no characters. -/
theorem reading_of_isEndOfFile {n : Nat} (h : (s.tokenAt n).isEndOfFile = true) :
    (s.tokenAt n).reading = (.endOfFile, "") := by
  have hkind : (Lexeme.ofText (skip n s).rest).kind = .endOfFile := by
    simpa [Token.isEndOfFile, tokenAt, scan] using h
  simp only [tokenAt, scan, Token.reading, hkind, Lexeme.text_of_endOfFile hkind]

/-- The tokens of a source but for the end of the file. -/
theorem filter_tokens {m : Nat} (hbefore : ∀ k < m, (s.tokenAt k).isEndOfFile = false)
    (hend : (s.tokenAt m).isEndOfFile = true) :
    (Scanner.tokens { source := s }).1.filter (!·.isEndOfFile) = (List.range m).map s.tokenAt := by
  rw [tokens_eq_map hbefore hend, List.range_succ, List.map_append, List.filter_append,
    List.map_singleton, List.filter_eq_self.2]
  · simp [hend]
  · intro t ht
    obtain ⟨k, hk, rfl⟩ := List.mem_map.1 ht
    simp [hbefore k (List.mem_range.1 hk)]

/-- Two sources have the same tokens if they have up to the first end of the file. -/
theorem map_reading_congr {m : Nat}
    (hreading : ∀ k ≤ m, (s'.tokenAt k).reading = (s.tokenAt k).reading)
    (hbefore : ∀ k < m, (s.tokenAt k).isEndOfFile = false) (hend : (s.tokenAt m).isEndOfFile = true) :
    (Scanner.tokens { source := s' }).1.map Token.reading =
      (Scanner.tokens { source := s }).1.map Token.reading := by
  have hends (k : Nat) (hk : k ≤ m) : (s'.tokenAt k).isEndOfFile = (s.tokenAt k).isEndOfFile := by
    have hkind : (s'.tokenAt k).kind = (s.tokenAt k).kind := congrArg Prod.fst (hreading k hk)
    rw [Token.isEndOfFile, hkind]
    rfl
  have hbefore' (k : Nat) (hk : k < m) : (s'.tokenAt k).isEndOfFile = false :=
    (hends k (Nat.le_of_lt hk)).trans (hbefore k hk)
  have hend' : (s'.tokenAt m).isEndOfFile = true := (hends m (Nat.le_refl m)).trans hend
  rw [tokens_eq_map hbefore' hend', tokens_eq_map hbefore hend, List.map_map, List.map_map]
  exact List.map_congr_left fun k hk => hreading k (Nat.le_of_lt_succ (List.mem_range.1 hk))

/-- A source whose text is the spellings of the tokens of another has these tokens. -/
theorem map_reading_tokens
    (hs' : s'.rest = joined ((Scanner.tokens { source := s }).1.filter (!·.isEndOfFile))) :
    (Scanner.tokens { source := s' }).1.map Token.reading =
      (Scanner.tokens { source := s }).1.map Token.reading := by
  obtain ⟨m, hbefore, hend⟩ := s.exists_endOfFile
  rw [filter_tokens hbefore hend] at hs'
  obtain ⟨hreading, hrest⟩ := reading_tokenAt hbefore (.inl hs')
  refine map_reading_congr (fun k hk => ?_) hbefore hend
  rcases Nat.lt_or_eq_of_le hk with hlt | rfl
  · exact hreading k hlt
  · exact (reading_of_isEndOfFile (isEndOfFile_of_rest_skip hrest)).trans
      (reading_of_isEndOfFile hend).symm

/-! ### Bytes -/

/-- A text in characters up to 255 is read from its bytes. -/
theorem charactersOf_bytesOf {text : List Char} (h : ∀ c ∈ text, c.toNat < 256) :
    charactersOf (bytesOf text) = text := by
  rw [charactersOf, bytesOf, List.toList_toArray, List.map_map]
  conv => rhs; rw [← List.map_id text]
  apply List.map_congr_left
  intro c hc
  apply Char.ext
  apply UInt32.toNat_inj.1
  change (UInt8.ofNat c.toNat).toUInt32.toNat = c.toNat
  rw [UInt8.toNat_toUInt32, UInt8.toNat_ofNat', Nat.mod_eq_of_lt (h c hc)]

/-- Every character of a file is one of the first 256. -/
theorem toNat_lt_of_mem {bytes : ByteArray} {c : Char} (hc : c ∈ charactersOf bytes) :
    c.toNat < 256 := by
  obtain ⟨b, -, rfl⟩ := List.mem_map.1 hc
  exact b.toNat_lt

/-- The characters of a token stand in the source. -/
theorem mem_rest_of_mem_spelling {n : Nat} {c : Char}
    (hc : c ∈ (s.tokenAt n).spelling.toList) : c ∈ s.rest := by
  rw [show (s.tokenAt n).spelling.toList = _ from String.toList_ofList] at hc
  exact (s.rest_skip_suffix n).subset (Lexeme.mem_of_mem_text hc)

theorem toNat_lt_of_mem_joined {file : Path} {bytes : ByteArray} {n : Nat} {c : Char}
    (hc : c ∈ joined ((List.range n).map (ofBytes file bytes).tokenAt)) : c.toNat < 256 := by
  rcases mem_joined hc with rfl | ⟨t, ht, hc⟩
  · decide
  · obtain ⟨k, -, rfl⟩ := List.mem_map.1 ht
    exact toNat_lt_of_mem (mem_rest_of_mem_spelling hc)

end Source

/-- The spellings of the tokens of a file with single blanks between them, written to a file byte by
byte, have the tokens of that file: of the same kinds, with the same values, names and errors, and
spelled alike. -/
theorem Scanner.tokens_respelled (file file' : Path) (bytes : ByteArray) :
    let ts := (tokens { source := .ofBytes file bytes }).1
    let again := Source.bytesOf (joined (ts.filter (!·.isEndOfFile)))
    (tokens { source := .ofBytes file' again }).1.map Token.reading = ts.map Token.reading := by
  apply Source.map_reading_tokens
  apply Source.charactersOf_bytesOf
  intro c hc
  obtain ⟨m, hbefore, hend⟩ := (Source.ofBytes file bytes).exists_endOfFile
  rw [Source.filter_tokens hbefore hend] at hc
  exact Source.toNat_lt_of_mem_joined hc

end FloatLang
