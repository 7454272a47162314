import OpGraph.Dump
import OpGraph.Json.Layout
import OpGraph.Json.Record

/-!
# The JSON of a dump

A list that is left out is empty; `schema`, `literal` and `blocks` are not written when there is
nothing to say.
-/

namespace OpGraph.Dump

/-! ## Writing -/

def idsJson (ids : List ValueId) : Json := .array (ids.map ValueId.json)

def Entry.json (e : Entry) : Json :=
  .object <| [("id", e.id.json), ("type", e.type.json)] ++
    (e.literal.map fun l => ("literal", l.json)).toList

mutual

def Node.json : Node → Json
  | ⟨kind, schema, inputs, outputs, blocks⟩ =>
      .object <| [("kind", .string kind)] ++ (schema.map fun s => ("schema", .string s)).toList ++
        [("inputs", idsJson inputs), ("outputs", idsJson outputs)] ++
        if blocks.isEmpty then [] else [("blocks", .array (blocksJson blocks))]

def blocksJson : List Block → List Json
  | [] => []
  | b :: rest => b.json :: blocksJson rest

def Block.json : Block → Json
  | ⟨inputs, outputs, nodes⟩ =>
      .object [("inputs", idsJson inputs), ("outputs", idsJson outputs),
        ("nodes", .array (nodesJson nodes))]

def nodesJson : List Node → List Json
  | [] => []
  | n :: rest => n.json :: nodesJson rest

end

def json (d : Dump) : Json :=
  .object [("values", .array (d.values.map Entry.json)), ("inputs", idsJson d.inputs),
    ("outputs", idsJson d.outputs), ("nodes", .array (nodesJson d.nodes))]

/-! ## Reading -/

def idsReader : Json.Reader (List ValueId) := .list ValueId.reader

def Entry.reader : Json.Reader Entry :=
  (Json.Reader.record "struct ValueInfo" <|
    .field "id" ValueId.reader none <|
    .field "type" ValueType.reader none <|
    .field "literal" (.option Literal.reader) (some none) .done).map
      fun (id, type, literal, _) => ⟨id, type, literal⟩

def Block.reader (node : Json.Reader Node) : Json.Reader Block :=
  (Json.Reader.record "struct BlockDef" <|
    .field "inputs" idsReader (some []) <|
    .field "outputs" idsReader (some []) <|
    .field "nodes" (.list node) (some []) .done).map
      fun (inputs, outputs, nodes, _) => ⟨inputs, outputs, nodes⟩

/-- The reader of a node, given the reader of the nodes inside it. -/
def Node.readerOver (node : Json.Reader Node) : Json.Reader Node :=
  (Json.Reader.record "struct NodeDef" <|
    .field "kind" .string none <|
    .field "schema" (.option .string) (some none) <|
    .field "inputs" idsReader (some []) <|
    .field "outputs" idsReader (some []) <|
    .field "blocks" (.list (Block.reader node)) (some []) .done).map
      fun (kind, schema, inputs, outputs, blocks, _) => ⟨kind, schema, inputs, outputs, blocks⟩

def Node.reader : Json.Reader Node := .fix Node.readerOver

def reader : Json.Reader Dump :=
  (Json.Reader.record "struct GraphDef" <|
    .field "values" (.list Entry.reader) none <|
    .field "inputs" idsReader (some []) <|
    .field "outputs" idsReader (some []) <|
    .field "nodes" (.list Node.reader) (some []) .done).map
      fun (values, inputs, outputs, nodes, _) => ⟨values, inputs, outputs, nodes⟩

def parse (s : String) : Except Json.ReadError Dump := reader.text s

end OpGraph.Dump
