import OpGraph.Json.Layout
import OpGraph.Proofs.Json.Numerals

/-!
# Written documents

A whole tree is written to a text that is read as the same tree, under every layout that puts
nothing but blanks between the tokens.
-/

namespace OpGraph.Json

/-! ## String literals -/

theorem scanBody_shortEscape {e c : Char} (cs : List Char) (h : shortEscape e = some c) :
    scanBody ('\\' :: e :: cs) = (scanBody cs).map fun (us, rest) => (c.toNat :: us, rest) := by
  have he : e ≠ 'u' := by
    rintro rfl
    cases h
  rw [scanBody]
  · rw [h]
    cases scanBody cs <;> rfl
  · rintro _ _ _ _ _ rfl
    exact absurd rfl he

theorem hexUnit_hexPair :
    ∀ n < 0x20, hexUnit '0' '0' (Nat.digitChar (n / 16)) (Nat.digitChar (n % 16)) = some n := by
  decide

theorem scanBody_hexPair {n : Nat} (cs : List Char) (h : n < 0x20) :
    scanBody ('\\' :: 'u' :: '0' :: '0' :: (hexPair n ++ cs)) =
      (scanBody cs).map fun (us, rest) => (n :: us, rest) := by
  rw [hexPair, List.cons_append, List.cons_append, List.nil_append, scanBody, hexUnit_hexPair n h]
  cases scanBody cs <;> rfl

theorem scanBody_plain {c : Char} (cs : List Char) (hquote : c ≠ '"') (hslash : c ≠ '\\')
    (h : ¬ c.toNat < 0x20) :
    scanBody (c :: cs) = (scanBody cs).map fun (us, rest) => (c.toNat :: us, rest) := by
  rw [scanBody]
  · rw [if_neg h]
    cases scanBody cs <;> rfl
  · exact hquote
  · rintro _ _ _ _ _ rfl
    exact absurd rfl hslash
  · rintro _ _ rfl
    exact absurd rfl hslash

theorem scanBody_escape (c : Char) (cs : List Char) :
    scanBody (escape c ++ cs) = (scanBody cs).map fun (us, rest) => (c.toNat :: us, rest) := by
  unfold escape
  iterate 7
    split
    · rename_i h
      subst h
      exact scanBody_shortEscape cs rfl
  split
  · rename_i h
    exact scanBody_hexPair cs h
  · rename_i hquote hslash _ _ _ _ _ h
    exact scanBody_plain cs hquote hslash h

theorem scanBody_escapes (cs rest : List Char) :
    scanBody (cs.flatMap escape ++ '"' :: rest) = some (cs.map Char.toNat, rest) := by
  induction cs with
  | nil => rfl
  | cons c cs ih =>
      rw [List.flatMap_cons, List.append_assoc, scanBody_escape, ih]
      rfl

theorem not_surrogate (c : Char) : ¬ (isHighSurrogate c.toNat ∨ isLowSurrogate c.toNat) := by
  have h : c.toNat < 0xD800 ∨ 0xDFFF < c.toNat ∧ c.toNat < 0x110000 := c.valid
  simp only [isHighSurrogate, isLowSurrogate, decide_eq_true_eq]
  omega

theorem joinSurrogates_map_toNat (cs : List Char) :
    joinSurrogates (cs.map Char.toNat) = some cs := by
  induction cs with
  | nil => rfl
  | cons c cs ih =>
      have hc := not_surrogate c
      cases cs with
      | nil => rw [List.map_cons, List.map_nil, joinSurrogates, if_neg hc, Char.ofNat_toNat]
      | cons d cs =>
          rw [not_or] at hc
          rw [List.map_cons] at ih
          rw [List.map_cons, List.map_cons, joinSurrogates, if_neg hc.1, if_neg hc.2, ih,
            Option.map_some, Char.ofNat_toNat]

/-! ## Lexemes -/

theorem lexeme_quote (cs : List Char) :
    lexeme ('"' :: cs) = (scanBody cs).map fun (units, rest) =>
      (.text ((joinSurrogates units).map String.ofList), rest) := rfl

theorem nameChars_some (s : String) : nameChars (some s) = quote s := rfl

theorem lexeme_nameChars (s : Option String) (rest : List Char) :
    lexeme (nameChars s ++ rest) = some (.text s, rest) := by
  cases s with
  | none =>
      have hscan : scanBody ('\\' :: 'u' :: 'd' :: '8' :: '0' :: '0' :: '"' :: rest) =
          some ([0xD800], rest) := by rfl
      have hchars : nameChars none = ['"', '\\', 'u', 'd', '8', '0', '0', '"'] := by decide
      simp only [hchars, List.cons_append, List.nil_append, lexeme_quote, hscan]
      rfl
  | some s =>
      have hscan := scanBody_escapes s.toList rest
      have hchars : nameChars (some s) ++ rest =
          '"' :: (s.toList.flatMap escape ++ '"' :: rest) := by
        simp only [nameChars_some, quote, List.cons_append, List.append_assoc, List.nil_append]
      simp only [hchars, lexeme_quote, hscan, Option.map_some, joinSurrogates_map_toNat,
        String.ofList_toList]

theorem lexeme_eq_scan {c : Char} (cs : List Char) (h : c = '-' ∨ c.isDigit) :
    lexeme (c :: cs) = (Numeral.scan (c :: cs)).map fun (n, rest) => (.num n, rest) := by
  unfold lexeme
  split
  case h_11 => rfl
  all_goals
    rename_i heq
    cases heq
    simp at h

theorem Numeral.exists_chars_eq (n : Numeral) :
    ∃ c cs, n.chars = c :: cs ∧ (c = '-' ∨ c.isDigit) := by
  obtain ⟨c, cs, hwhole⟩ := List.exists_cons_of_ne_nil
    (Nat.toDigits_ne_nil (b := 10) (n := n.digits / Nat.pow 10 n.places))
  have hc : c.isDigit := isDigit_of_mem_toDigits (hwhole ▸ List.mem_cons_self)
  rw [chars, hwhole]
  cases n.negative with
  | true => exact ⟨'-', _, rfl, .inl rfl⟩
  | false => exact ⟨c, _, rfl, .inr hc⟩

theorem lexeme_numeral (n : Numeral) {rest : List Char} (h : Numeral.Stops rest) :
    lexeme (n.chars ++ rest) = some (.num n, rest) := by
  have hscan := n.scan_chars h
  obtain ⟨c, cs, hchars, hc⟩ := n.exists_chars_eq
  rw [hchars, List.cons_append] at hscan ⊢
  rw [lexeme_eq_scan _ hc, hscan]
  rfl

/-! ## Tokens -/

theorem tokens_blank {c : Char} (cs : List Char) (h : isBlank c) :
    tokens (c :: cs) = tokens cs := by
  rw [tokens, if_pos h]

theorem tokens_blanks {bs : List Char} (cs : List Char) (h : ∀ c ∈ bs, isBlank c) :
    tokens (bs ++ cs) = tokens cs := by
  induction bs with
  | nil => rfl
  | cons b bs ih =>
      rw [List.cons_append, tokens_blank _ (h b List.mem_cons_self)]
      exact ih fun c hc => h c (List.mem_cons_of_mem b hc)

theorem tokens_lexeme {c : Char} {cs rest : List Char} {t : Token}
    (h : lexeme (c :: cs) = some (t, rest)) (hc : isBlank c = false) :
    tokens (c :: cs) = t :: tokens rest := by
  rw [tokens, hc, if_neg Bool.false_ne_true]
  split
  · rename_i hnone
    rw [h] at hnone
    cases hnone
  · rename_i hsome
    rw [h] at hsome
    cases hsome
    rfl

theorem tokens_nameChars (s : Option String) (rest : List Char) :
    tokens (nameChars s ++ rest) = .text s :: tokens rest := by
  have h := lexeme_nameChars s rest
  cases s <;> exact tokens_lexeme h rfl

theorem isBlank_eq_false {c : Char} (h : c = '-' ∨ c.isDigit) : isBlank c = false := by
  rw [← Bool.not_eq_true]
  intro hblank
  simp only [isBlank, decide_eq_true_eq] at hblank
  rcases hblank with rfl | rfl | rfl | rfl <;> simp at h

theorem tokens_numeral (n : Numeral) {rest : List Char} (h : Numeral.Stops rest) :
    tokens (n.chars ++ rest) = .num n :: tokens rest := by
  have hlexeme := lexeme_numeral n h
  obtain ⟨c, cs, hchars, hc⟩ := n.exists_chars_eq
  rw [hchars, List.cons_append] at hlexeme ⊢
  exact tokens_lexeme hlexeme (isBlank_eq_false hc)

/-! ## Trees -/

mutual

/-- Every bracket is closed and every value is there. -/
def Whole : Json → Prop
  | .list js ending => ending = .closed ∧ WholeItems js
  | .record ms ending => ending = .closed ∧ WholeMembers ms
  | .broken => False
  | _ => True

def WholeItems : List Json → Prop
  | [] => True
  | j :: js => j.Whole ∧ WholeItems js

def WholeMembers : List (Option String × Json) → Prop
  | [] => True
  | (_, j) :: ms => j.Whole ∧ WholeMembers ms

end

theorem wholeItems_iff {js : List Json} : WholeItems js ↔ ∀ j ∈ js, j.Whole := by
  induction js with
  | nil => simp [WholeItems]
  | cons j js ih => simp [WholeItems, ih]

@[simp] theorem whole_array {js : List Json} : (array js).Whole ↔ ∀ j ∈ js, j.Whole := by
  rw [array, Whole, wholeItems_iff]
  simp

@[simp] theorem whole_object {ms : List (String × Json)} :
    (object ms).Whole ↔ ∀ m ∈ ms, m.2.Whole := by
  rw [object, Whole, eq_self, true_and]
  induction ms with
  | nil => simp [WholeMembers]
  | cons m ms ih => simp [WholeMembers, ih]

@[simp] theorem whole_string (s : String) : (string s).Whole := trivial

@[simp] theorem whole_variant {name : String} {j : Json} : (variant name j).Whole ↔ j.Whole := by
  simp [variant]

theorem whole_optional {α : Type} {w : α → Json} {o : Option α} (h : ∀ a ∈ o, (w a).Whole) :
    (Json.optional w o).Whole := by
  cases o with
  | none => trivial
  | some a => exact h a rfl

/-- Nothing but blanks stands between the tokens. -/
structure Layout.Blank (l : Layout) : Prop where
  lineBreak : ∀ depth, ∀ c ∈ l.lineBreak depth, isBlank c
  afterColon : ∀ c ∈ l.afterColon, isBlank c

theorem Layout.compact_blank : compact.Blank := ⟨nofun, nofun⟩

theorem Layout.pretty_blank : pretty.Blank := by
  refine ⟨fun depth c hc => ?_, fun c hc => ?_⟩
  · rcases List.mem_cons.mp hc with rfl | hc
    · rfl
    · rw [List.eq_of_mem_replicate hc]
      rfl
  · rw [List.mem_singleton.mp hc]
    rfl

theorem stops_of_isBlank {c : Char} {rest : List Char} (h : isBlank c) :
    Numeral.Stops (c :: rest) := by
  rintro _ _ ⟨⟩
  simp only [isBlank, decide_eq_true_eq] at h
  rcases h with rfl | rfl | rfl | rfl <;> decide

theorem stops_blanks {bs rest : List Char} (hb : ∀ c ∈ bs, isBlank c) (h : Numeral.Stops rest) :
    Numeral.Stops (bs ++ rest) := by
  cases bs with
  | nil => exact h
  | cons b bs => exact stops_of_isBlank (hb b List.mem_cons_self)

theorem stops_of_mem {c : Char} {rest : List Char} (h : c ∈ [',', ']', '\x7d']) :
    Numeral.Stops (c :: rest) := by
  rintro _ _ ⟨⟩
  simp only [List.mem_cons, List.not_mem_nil, or_false] at h
  rcases h with rfl | rfl | rfl <;> decide

namespace Spot

/-- A value that may be placed here goes into the frames. -/
def Awaits (s : Spot) (outer : List Frame) : Prop :=
  ∀ t, t ≠ .closeList → s.step t = start outer t

theorem awaits_value (outer : List Frame) : (value outer).Awaits outer := fun _ _ => rfl

theorem awaits_listStart (outer : List Frame) : (listStart outer).Awaits (.item [] :: outer) := by
  intro t ht
  cases t with
  | closeList => exact absurd rfl ht
  | _ => rfl

end Spot

theorem place_cons {s s' : Spot} {t : Token} (ts : List Token) (h : s.step t = some s') :
    place s (t :: ts) = place s' ts := by
  rw [place, h]

variable {l : Layout}

theorem write_list (depth : Nat) (j : Json) (js : List Json) (ending : Ending) (rest : List Char) :
    write l depth (.list (j :: js) ending) ++ rest =
      '[' :: (l.lineBreak (depth + 1) ++ (write l (depth + 1) j ++
        (writeItems l (depth + 1) js ++ (l.lineBreak depth ++ ']' :: rest)))) := by
  simp [write]

theorem write_record (depth : Nat) (name : Option String) (j : Json)
    (ms : List (Option String × Json)) (ending : Ending) (rest : List Char) :
    write l depth (.record ((name, j) :: ms) ending) ++ rest =
      '\x7b' :: (l.lineBreak (depth + 1) ++ (nameChars name ++ ':' :: (l.afterColon ++
        (write l (depth + 1) j ++
          (writeMembers l (depth + 1) ms ++ (l.lineBreak depth ++ '\x7d' :: rest)))))) := by
  simp [write]

theorem writeItems_cons (depth : Nat) (j : Json) (js : List Json) (rest : List Char) :
    writeItems l depth (j :: js) ++ rest =
      ',' :: (l.lineBreak depth ++ (write l depth j ++ (writeItems l depth js ++ rest))) := by
  simp [writeItems]

theorem writeMembers_cons (depth : Nat) (name : Option String) (j : Json)
    (ms : List (Option String × Json)) (rest : List Char) :
    writeMembers l depth ((name, j) :: ms) ++ rest =
      ',' :: (l.lineBreak depth ++ (nameChars name ++ ':' :: (l.afterColon ++ (write l depth j ++
        (writeMembers l depth ms ++ rest))))) := by
  simp [writeMembers]

theorem stops_writeItems (depth : Nat) (js : List Json) {rest : List Char}
    (h : Numeral.Stops rest) : Numeral.Stops (writeItems l depth js ++ rest) := by
  cases js with
  | nil => exact h
  | cons j js =>
      rw [writeItems_cons]
      exact stops_of_mem (by decide)

theorem stops_writeMembers (depth : Nat) (ms : List (Option String × Json)) {rest : List Char}
    (h : Numeral.Stops rest) : Numeral.Stops (writeMembers l depth ms ++ rest) := by
  cases ms with
  | nil => exact h
  | cons m ms =>
      obtain ⟨name, j⟩ := m
      rw [writeMembers_cons]
      exact stops_of_mem (by decide)

theorem place_lexeme {s s' : Spot} {c : Char} {cs rest : List Char} {t : Token}
    (hc : lexeme (c :: cs) = some (t, rest)) (hblank : isBlank c = false)
    (h : s.step t = some s') : place s (tokens (c :: cs)) = place s' (tokens rest) := by
  rw [tokens_lexeme hc hblank, place_cons _ h]

mutual

/-- A written value is placed where it is awaited. -/
theorem place_write (hl : l.Blank) : (j : Json) → j.Whole → ∀ (depth : Nat) {s : Spot}
    {outer : List Frame} {rest : List Char}, s.Awaits outer → Numeral.Stops rest →
      place s (tokens (write l depth j ++ rest)) = place (.resume j outer) (tokens rest)
  | .null, _, depth, s, outer, rest, hs, _ => by
      show place s (tokens ('n' :: 'u' :: 'l' :: 'l' :: rest)) = _
      exact place_lexeme rfl rfl (hs .null nofun)
  | .bool true, _, depth, s, outer, rest, hs, _ => by
      show place s (tokens ('t' :: 'r' :: 'u' :: 'e' :: rest)) = _
      exact place_lexeme rfl rfl (hs (.bool true) nofun)
  | .bool false, _, depth, s, outer, rest, hs, _ => by
      show place s (tokens ('f' :: 'a' :: 'l' :: 's' :: 'e' :: rest)) = _
      exact place_lexeme rfl rfl (hs (.bool false) nofun)
  | .num n, _, depth, s, outer, rest, hs, hrest => by
      show place s (tokens (n.chars ++ rest)) = _
      rw [tokens_numeral n hrest, place_cons _ (hs (.num n) nofun)]
  | .text name, _, depth, s, outer, rest, hs, _ => by
      show place s (tokens (nameChars name ++ rest)) = _
      rw [tokens_nameChars, place_cons _ (hs (.text name) nofun)]
  | .list [] ending, hj, depth, s, outer, rest, hs, _ => by
      obtain ⟨rfl, _⟩ := hj
      show place s (tokens ('[' :: ']' :: rest)) = _
      rw [place_lexeme rfl rfl (hs .openList nofun)]
      exact place_lexeme rfl rfl rfl
  | .list (j :: js) ending, hj, depth, s, outer, rest, hs, _ => by
      obtain ⟨rfl, hj, hjs⟩ := hj
      have hclose : Numeral.Stops (l.lineBreak depth ++ ']' :: rest) :=
        stops_blanks (hl.lineBreak depth) (stops_of_mem (by decide))
      rw [write_list, place_lexeme rfl rfl (hs .openList nofun),
        tokens_blanks _ (hl.lineBreak (depth + 1)),
        place_write hl j hj (depth + 1) (Spot.awaits_listStart outer)
          (stops_writeItems _ js hclose)]
      refine (place_writeItems hl js hjs (depth + 1) [j] outer hclose).trans ?_
      rw [tokens_blanks _ (hl.lineBreak depth), place_lexeme rfl rfl rfl, List.reverse_append,
        List.reverse_reverse]
      rfl
  | .record [] ending, hj, depth, s, outer, rest, hs, _ => by
      obtain ⟨rfl, _⟩ := hj
      show place s (tokens ('\x7b' :: '\x7d' :: rest)) = _
      rw [place_lexeme rfl rfl (hs .openRecord nofun)]
      exact place_lexeme rfl rfl rfl
  | .record ((name, j) :: ms) ending, hj, depth, s, outer, rest, hs, _ => by
      obtain ⟨rfl, hj, hms⟩ := hj
      have hclose : Numeral.Stops (l.lineBreak depth ++ '\x7d' :: rest) :=
        stops_blanks (hl.lineBreak depth) (stops_of_mem (by decide))
      rw [write_record, place_lexeme rfl rfl (hs .openRecord nofun),
        tokens_blanks _ (hl.lineBreak (depth + 1)), tokens_nameChars, place_cons _ rfl,
        place_lexeme rfl rfl rfl, tokens_blanks _ hl.afterColon,
        place_write hl j hj (depth + 1) (Spot.awaits_value _) (stops_writeMembers _ ms hclose)]
      refine (place_writeMembers hl ms hms (depth + 1) [(name, j)] outer hclose).trans ?_
      rw [tokens_blanks _ (hl.lineBreak depth), place_lexeme rfl rfl rfl, List.reverse_append,
        List.reverse_reverse]
      rfl
  | .broken, hj, _, _, _, _, _, _ => hj.elim

theorem place_writeItems (hl : l.Blank) : (js : List Json) → WholeItems js → ∀ (depth : Nat)
    (before : List Json) (outer : List Frame) {rest : List Char}, Numeral.Stops rest →
      place (.afterItem before outer) (tokens (writeItems l depth js ++ rest)) =
        place (.afterItem (js.reverse ++ before) outer) (tokens rest)
  | [], _, _, _, _, _, _ => rfl
  | j :: js, ⟨hj, hjs⟩, depth, before, outer, rest, hrest => by
      rw [writeItems_cons, place_lexeme rfl rfl rfl, tokens_blanks _ (hl.lineBreak depth),
        place_write hl j hj depth (Spot.awaits_value _) (stops_writeItems _ js hrest)]
      refine (place_writeItems hl js hjs depth (j :: before) outer hrest).trans ?_
      rw [List.reverse_cons, List.append_assoc, List.singleton_append]

theorem place_writeMembers (hl : l.Blank) : (ms : List (Option String × Json)) →
    WholeMembers ms → ∀ (depth : Nat) (before : List (Option String × Json)) (outer : List Frame)
    {rest : List Char}, Numeral.Stops rest →
      place (.afterMember before outer) (tokens (writeMembers l depth ms ++ rest)) =
        place (.afterMember (ms.reverse ++ before) outer) (tokens rest)
  | [], _, _, _, _, _, _ => rfl
  | (name, j) :: ms, ⟨hj, hms⟩, depth, before, outer, rest, hrest => by
      rw [writeMembers_cons, place_lexeme rfl rfl rfl, tokens_blanks _ (hl.lineBreak depth),
        tokens_nameChars, place_cons _ rfl, place_lexeme rfl rfl rfl,
        tokens_blanks _ hl.afterColon,
        place_write hl j hj depth (Spot.awaits_value _) (stops_writeMembers _ ms hrest)]
      refine (place_writeMembers hl ms hms depth ((name, j) :: before) outer hrest).trans ?_
      rw [List.reverse_cons, List.append_assoc, List.singleton_append]

end

/-- A written tree is the whole of its text. -/
theorem document_write (hl : l.Blank) {j : Json} (hj : j.Whole) :
    document (.ofList (write l 0 j)) = ⟨j, true⟩ := by
  have hend : Numeral.Stops [] := nofun
  have hplace := place_write hl j hj 0 (Spot.awaits_value []) hend
  rw [List.append_nil] at hplace
  rw [document, String.toList_ofList, hplace, tokens]
  rfl

/-- Trees that are written alike are the same. -/
theorem eq_of_write_eq (hl : l.Blank) {j k : Json} (hj : j.Whole) (hk : k.Whole)
    (h : write l 0 j = write l 0 k) : j = k := by
  have hdocument := document_write hl hj
  rw [h, document_write hl hk, Document.mk.injEq] at hdocument
  exact hdocument.1.symm

end OpGraph.Json
