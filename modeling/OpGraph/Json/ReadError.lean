import OpGraph.Json.Tree
import OpGraph.Text.Shown

/-!
# Errors of reading

What can be wrong with a text, and how it is told.  Everything that is wrong with the text as such
is one and the same error; the others name what stands where something else is wanted.
-/

namespace OpGraph.Json

inductive Found
  | null
  | bool (value : Bool)
  | integer (value : Int)
  | float (value : Binary64)
  | text (content : String)
  | record
  | list
  /-- A variant that is named without what it carries. -/
  | bare
  deriving DecidableEq, Repr

inductive ReadError
  | malformed
  | wrongType (found : Found) (wanted : String)
  | wrongValue (value : Int) (wanted : String)
  | missingField (name : String)
  | duplicateField (name : String)
  | wrongLength (count : Nat) (wanted : String)
  | unknownVariant (name : String) (known : List String)
  /-- The value fits none of the forms of an untagged type. -/
  | noForm (type : String)
  deriving DecidableEq, Repr

def Found.message : Found → String
  | .null => "null"
  | .bool b => s!"boolean `{b}`"
  | .integer n => s!"integer `{n}`"
  | .float x => "floating point `" ++ .ofList (Numeral.ofFloat x).chars ++ "`"
  | .text s => "string " ++ Text.shown s
  | .record => "map"
  | .list => "sequence"
  | .bare => "unit variant"

def alternatives (known : List String) : String :=
  match known.map fun name => "`" ++ name ++ "`" with
  | [a] => a
  | [a, b] => a ++ " or " ++ b
  | names => "one of " ++ ", ".intercalate names

def ReadError.message : ReadError → String
  | .malformed => "<syntax>"
  | .wrongType found wanted => "invalid type: " ++ found.message ++ ", expected " ++ wanted
  | .wrongValue value wanted => s!"invalid value: integer `{value}`, expected " ++ wanted
  | .missingField name => "missing field `" ++ name ++ "`"
  | .duplicateField name => "duplicate field `" ++ name ++ "`"
  | .wrongLength count wanted => s!"invalid length {count}, expected " ++ wanted
  | .unknownVariant name known =>
      "unknown variant `" ++ name ++ "`, expected " ++ alternatives known
  | .noForm type => "data did not match any variant of untagged enum " ++ type

def Number.found : Number → Found
  | .integer n => .integer n
  | .float x => .float x

/-- A tree as an error describes it; nothing where its text cannot be read that far. -/
def found : Json → Option Found
  | .null => some .null
  | .bool b => some (.bool b)
  | .num n => n.number.map Number.found
  | .text s => s.map .text
  | .list _ _ => some .list
  | .record _ _ => some .record
  | .broken => none

end OpGraph.Json
