import OpGraph.Json.Token

/-!
# Trees of JSON text

A text is read into a tree before anything is known about what it should hold.  The tree keeps
what has been read when the text breaks off or goes wrong: the brackets that are still open then
end with `cut`, and a value that cannot be read is `broken`.  So a reader that follows the tree
from left to right meets the faults of a text in their order.

`document` places one token after the other; `Spot` is where the next one goes.
-/

namespace OpGraph.Json

inductive Ending
  | closed
  /-- The text ends or goes wrong before the bracket is closed. -/
  | cut
  deriving DecidableEq, Repr

end Json

inductive Json
  | null
  | bool (value : Bool)
  | num (value : Json.Numeral)
  | text (content : Option String)
  | list (items : List Json) (ending : Json.Ending)
  | record (members : List (Option String × Json)) (ending : Json.Ending)
  | broken

namespace Json

/-- What a finished value is put into. -/
inductive Frame
  | item (before : List Json)
  | member (before : List (Option String × Json)) (name : Option String)

/-- Where in a text the next token goes.  What stands before it inside each open bracket is kept
last one first, and the brackets around are kept innermost first. -/
inductive Spot
  | value (outer : List Frame)
  | listStart (outer : List Frame)
  | afterItem (items : List Json) (outer : List Frame)
  | recordStart (outer : List Frame)
  | nextName (members : List (Option String × Json)) (outer : List Frame)
  | colon (members : List (Option String × Json)) (name : Option String) (outer : List Frame)
  | afterMember (members : List (Option String × Json)) (outer : List Frame)
  | done (root : Json)

namespace Spot

def resume (j : Json) : List Frame → Spot
  | [] => .done j
  | .item before :: outer => .afterItem (j :: before) outer
  | .member before name :: outer => .afterMember ((name, j) :: before) outer

def start (outer : List Frame) : Token → Option Spot
  | .null => some (resume .null outer)
  | .bool b => some (resume (.bool b) outer)
  | .num n => some (resume (.num n) outer)
  | .text s => some (resume (.text s) outer)
  | .openList => some (.listStart outer)
  | .openRecord => some (.recordStart outer)
  | _ => none

/-- The spot after a token, if the token may stand here. -/
def step : Spot → Token → Option Spot
  | .value outer, t => start outer t
  | .listStart outer, .closeList => some (resume (.list [] .closed) outer)
  | .listStart outer, t => start (.item [] :: outer) t
  | .afterItem items outer, .comma => some (.value (.item items :: outer))
  | .afterItem items outer, .closeList => some (resume (.list items.reverse .closed) outer)
  | .recordStart outer, .closeRecord => some (resume (.record [] .closed) outer)
  | .recordStart outer, .text name => some (.colon [] name outer)
  | .nextName members outer, .text name => some (.colon members name outer)
  | .colon members name outer, .colon => some (.value (.member members name :: outer))
  | .afterMember members outer, .comma => some (.nextName members outer)
  | .afterMember members outer, .closeRecord =>
      some (resume (.record members.reverse .closed) outer)
  | _, _ => none

/-- The brackets around a value are left open. -/
def abandon (j : Json) : List Frame → Json
  | [] => j
  | .item before :: outer => abandon (.list (j :: before).reverse .cut) outer
  | .member before name :: outer => abandon (.record ((name, j) :: before).reverse .cut) outer

def close : Spot → Json
  | .value outer => abandon .broken outer
  | .listStart outer => abandon (.list [] .cut) outer
  | .afterItem items outer => abandon (.list items.reverse .cut) outer
  | .recordStart outer => abandon (.record [] .cut) outer
  | .nextName members outer => abandon (.record members.reverse .cut) outer
  | .colon members name outer => abandon (.record ((name, .broken) :: members).reverse .cut) outer
  | .afterMember members outer => abandon (.record members.reverse .cut) outer
  | .done root => root

end Spot

/-- A text's first value, and whether the text ends with it. -/
structure Document where
  root : Json
  ended : Bool

/-- Places tokens from a spot on. -/
def place (spot : Spot) : List Token → Document
  | [] => ⟨spot.close, true⟩
  | t :: ts =>
      match spot.step t with
      | some spot => place spot ts
      | none => ⟨spot.close, false⟩

def document (s : String) : Document := place (.value []) (tokens s.toList)

end OpGraph.Json
