/-!
# White space at the end of a text

## Main definitions

* `Text.isWhiteSpace` — the characters of Unicode's `White_Space` property
* `Text.trimEnd` — a text without the characters of a kind at its end
-/

namespace FloatLang.Text

/-- The ranges of Unicode's `White_Space` property. -/
def whiteSpaceRanges : List (Nat × Nat) :=
  [(0x9, 0xd), (0x20, 0x20), (0x85, 0x85), (0xa0, 0xa0), (0x1680, 0x1680), (0x2000, 0x200a),
    (0x2028, 0x2029), (0x202f, 0x202f), (0x205f, 0x205f), (0x3000, 0x3000)]

/-- White space of any script, line breaks included. -/
def isWhiteSpace (c : Char) : Bool :=
  whiteSpaceRanges.any fun (first, last) => first ≤ c.toNat && c.toNat ≤ last

/-- Removes the characters of a kind from the end of a text. -/
def trimEnd (drop : Char → Bool) (text : List Char) : List Char :=
  (text.reverse.dropWhile drop).reverse

theorem trimEnd_append_of_all {drop : Char → Bool} {text tail : List Char}
    (h : ∀ c ∈ tail, drop c = true) : trimEnd drop (text ++ tail) = trimEnd drop text := by
  simp only [trimEnd, List.reverse_append]
  rw [List.dropWhile_append_of_pos (by simpa using h)]

end FloatLang.Text
