import OpGraph.Json.Numeral
import OpGraph.Json.Text

/-!
# Tokens

A text is cut into brackets, marks, words, numerals and string literals.  Where no token can be
read the cutting ends with `unreadable`.
-/

namespace OpGraph.Json

inductive Token
  | openList
  | closeList
  | openRecord
  | closeRecord
  | comma
  | colon
  | null
  | bool (value : Bool)
  | num (value : Numeral)
  /-- A string literal, with its text unless half a surrogate pair stands in it. -/
  | text (content : Option String)
  | unreadable
  deriving DecidableEq, Repr

def isBlank (c : Char) : Bool := c = ' ' ∨ c = '\t' ∨ c = '\n' ∨ c = '\r'

def lexeme : List Char → Option (Token × List Char)
  | '[' :: rest => some (.openList, rest)
  | ']' :: rest => some (.closeList, rest)
  | '\x7b' :: rest => some (.openRecord, rest)
  | '\x7d' :: rest => some (.closeRecord, rest)
  | ',' :: rest => some (.comma, rest)
  | ':' :: rest => some (.colon, rest)
  | 'n' :: 'u' :: 'l' :: 'l' :: rest => some (.null, rest)
  | 't' :: 'r' :: 'u' :: 'e' :: rest => some (.bool true, rest)
  | 'f' :: 'a' :: 'l' :: 's' :: 'e' :: rest => some (.bool false, rest)
  | '"' :: rest =>
      (scanBody rest).map fun (units, rest) =>
        (.text ((joinSurrogates units).map String.ofList), rest)
  | cs => (Numeral.scan cs).map fun (n, rest) => (.num n, rest)

theorem length_of_lexeme {cs rest : List Char} {t : Token}
    (h : lexeme cs = some (t, rest)) : rest.length < cs.length := by
  unfold lexeme at h
  split at h
  case h_10 =>
    simp only [Option.map_eq_some_iff, Prod.exists, Prod.mk.injEq] at h
    obtain ⟨_, _, hs, _, rfl⟩ := h
    exact Nat.lt_succ_of_lt (length_of_scanBody hs)
  case h_11 =>
    simp only [Option.map_eq_some_iff, Prod.exists, Prod.mk.injEq] at h
    obtain ⟨_, _, hs, _, rfl⟩ := h
    exact Numeral.length_of_scan hs
  all_goals
    simp only [Option.some.injEq, Prod.mk.injEq] at h
    obtain ⟨_, rfl⟩ := h
    simp only [List.length_cons]
    omega

def tokens (cs : List Char) : List Token :=
  match cs with
  | [] => []
  | c :: rest =>
      if isBlank c then tokens rest
      else match _h : lexeme (c :: rest) with
        | none => [.unreadable]
        | some (t, rest') => t :: tokens rest'
termination_by cs.length
decreasing_by
  · simp
  · exact length_of_lexeme ‹_›

end OpGraph.Json
