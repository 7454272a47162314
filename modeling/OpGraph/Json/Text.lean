/-!
# String literals

A literal is read in two steps: its body gives code points, where an escape may give one half of
a surrogate pair, and then the halves are joined.  A half that stays alone spells no text; such a
literal is still well formed, and only a reader that wants its text refuses it.
-/

namespace OpGraph.Json

def hexValue (c : Char) : Option Nat :=
  if c.isDigit then some (c.toNat - '0'.toNat)
  else if 'a' ≤ c ∧ c ≤ 'f' then some (c.toNat - 'a'.toNat + 10)
  else if 'A' ≤ c ∧ c ≤ 'F' then some (c.toNat - 'A'.toNat + 10)
  else none

def hexUnit (a b c d : Char) : Option Nat := do
  some ((((← hexValue a) * 16 + (← hexValue b)) * 16 + (← hexValue c)) * 16 + (← hexValue d))

def shortEscape : Char → Option Char
  | '"' => some '"'
  | '\\' => some '\\'
  | '/' => some '/'
  | 'b' => some '\x08'
  | 'f' => some '\x0c'
  | 'n' => some '\n'
  | 'r' => some '\r'
  | 't' => some '\t'
  | _ => none

/-- The code points of a literal's body, up to and without the closing quote, and what follows
it.  Control characters have to be escaped. -/
def scanBody : List Char → Option (List Nat × List Char)
  | [] => none
  | '"' :: rest => some ([], rest)
  | '\\' :: 'u' :: a :: b :: c :: d :: rest => do
      let unit ← hexUnit a b c d
      let (units, rest) ← scanBody rest
      some (unit :: units, rest)
  | '\\' :: e :: rest => do
      let c ← shortEscape e
      let (units, rest) ← scanBody rest
      some (c.toNat :: units, rest)
  | c :: rest =>
      if c.toNat < 0x20 then none
      else do
        let (units, rest) ← scanBody rest
        some (c.toNat :: units, rest)

def isHighSurrogate (u : Nat) : Bool := 0xD800 ≤ u ∧ u < 0xDC00

def isLowSurrogate (u : Nat) : Bool := 0xDC00 ≤ u ∧ u < 0xE000

/-- Joins surrogate pairs; nothing if a half has no partner. -/
def joinSurrogates : List Nat → Option (List Char)
  | [] => some []
  | [u] => if isHighSurrogate u ∨ isLowSurrogate u then none else some [Char.ofNat u]
  | u :: v :: rest =>
      if isHighSurrogate u then
        if isLowSurrogate v then
          (joinSurrogates rest).map
            (Char.ofNat (0x10000 + (u - 0xD800) * 0x400 + (v - 0xDC00)) :: ·)
        else none
      else if isLowSurrogate u then none
      else (joinSurrogates (v :: rest)).map (Char.ofNat u :: ·)

theorem length_of_scanBody {cs rest : List Char} {units : List Nat}
    (h : scanBody cs = some (units, rest)) : rest.length < cs.length := by
  fun_induction scanBody cs generalizing units with
  | case1 => simp at h
  | case2 => simp_all
  | case3 a b c d tail ih =>
      simp only [bind, Option.bind_eq_some_iff] at h
      obtain ⟨_, _, ⟨us, r⟩, hs, hr⟩ := h
      simp only [Option.some.injEq, Prod.mk.injEq] at hr
      obtain ⟨_, rfl⟩ := hr
      have := ih hs
      simp only [List.length_cons]
      omega
  | case4 e tail _ ih =>
      simp only [bind, Option.bind_eq_some_iff] at h
      obtain ⟨_, _, ⟨us, r⟩, hs, hr⟩ := h
      simp only [Option.some.injEq, Prod.mk.injEq] at hr
      obtain ⟨_, rfl⟩ := hr
      have := ih hs
      simp only [List.length_cons]
      omega
  | case5 => simp at h
  | case6 c tail _ _ _ _ ih =>
      simp only [bind, Option.bind_eq_some_iff] at h
      obtain ⟨⟨us, r⟩, hs, hr⟩ := h
      simp only [Option.some.injEq, Prod.mk.injEq] at hr
      obtain ⟨_, rfl⟩ := hr
      have := ih hs
      simp only [List.length_cons]
      omega

def hexPair (n : Nat) : List Char := [Nat.digitChar (n / 16), Nat.digitChar (n % 16)]

/-- Quotes, backslashes and control characters are escaped, all else stands for itself. -/
def escape (c : Char) : List Char :=
  if c = '"' then ['\\', '"']
  else if c = '\\' then ['\\', '\\']
  else if c = '\x08' then ['\\', 'b']
  else if c = '\x0c' then ['\\', 'f']
  else if c = '\n' then ['\\', 'n']
  else if c = '\r' then ['\\', 'r']
  else if c = '\t' then ['\\', 't']
  else if c.toNat < 0x20 then '\\' :: 'u' :: '0' :: '0' :: hexPair c.toNat
  else [c]

def quote (s : String) : List Char := '"' :: s.toList.flatMap escape ++ ['"']

end OpGraph.Json
