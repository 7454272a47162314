import OpGraph.Json.Reader

/-!
# Records

A record of known fields is read from its members in any order, or from a list of the values in
the declared order.  Members of other names are skipped, a name may stand only once, and a field
with a fallback may be left out.
-/

namespace OpGraph.Json

/-- The fields of a record in their declared order.  While members are read, `σ` holds those
seen so far; at the end `τ` holds all values. -/
inductive Fields : (σ τ : Type) → Type 1
  | done : Fields Unit Unit
  | field {β σ τ : Type} (name : String) (reader : Reader β) (fallback : Option β)
      (rest : Fields σ τ) : Fields (Option β × σ) (β × τ)

namespace Fields

def count {σ τ : Type} : Fields σ τ → Nat
  | .done => 0
  | .field _ _ _ rest => rest.count + 1

def none {σ τ : Type} : Fields σ τ → σ
  | .done => ()
  | .field _ _ _ rest => (Option.none, rest.none)

/-- Reads the member of some name, if there is a field of that name. -/
def take {σ τ : Type} (room : Nat) (name : String) (j : Json) :
    Fields σ τ → σ → Option (Except ReadError σ)
  | .done, _ => Option.none
  | .field own reader _ rest, (seen, others) =>
      if own = name then
        some <|
          if seen.isSome then .error (.duplicateField name)
          else (reader room j).map fun b => (some b, others)
      else (rest.take room name j others).map fun r => r.map fun others => (seen, others)

/-- Reads members one after the other and skips those of no field. -/
def gather {σ τ : Type} (room : Nat) (fields : Fields σ τ) :
    List (Option String × Json) → σ → Except ReadError σ
  | [], seen => .ok seen
  | (Option.none, _) :: _, _ => .error .malformed
  | (some name, j) :: ms, seen =>
      match fields.take room name j seen with
      | Option.none => gather room fields ms seen
      | some (.ok seen) => gather room fields ms seen
      | some (.error e) => .error e

def complete {σ τ : Type} : Fields σ τ → σ → Except ReadError τ
  | .done, _ => .ok ()
  | .field name _ fallback rest, (seen, others) =>
      match seen.or fallback with
      | some b => (rest.complete others).map fun t => (b, t)
      | Option.none => .error (.missingField name)

/-- Reads the values of a list in the declared order; the last ones may be left out as members
may be.  `wanted` describes the whole list, and `before` counts the values already read. -/
def inOrder {σ τ : Type} (room : Nat) (wanted : String) :
    Fields σ τ → (before : Nat) → List Json → Ending → Except ReadError τ
  | .done, _, [], .closed => .ok ()
  | .done, _, _, _ => .error .malformed
  | .field _ reader _ rest, before, j :: js, ending => do
      let b ← reader room j
      let t ← rest.inOrder room wanted (before + 1) js ending
      .ok (b, t)
  | .field _ _ (some b) rest, before, [], .closed =>
      (rest.inOrder room wanted before [] .closed).map fun t => (b, t)
  | .field _ _ Option.none _, before, [], .closed => .error (.wrongLength before wanted)
  | .field _ _ _ _, _, [], _ => .error .malformed

end Fields

/-- A record of known fields, given by their names or as a list. -/
def Reader.record {σ τ : Type} (title : String) (fields : Fields σ τ) : Reader τ
  | 0, .record _ _ => .error .malformed
  | 0, .list _ _ => .error .malformed
  | room + 1, .record ms ending => do
      let seen ← fields.gather room ms fields.none
      closing ending
      fields.complete seen
  | room + 1, .list js ending =>
      fields.inOrder room s!"{title} with {fields.count} elements" 0 js ending
  | _, j => mismatch title j

end OpGraph.Json
