import Mathlib.Data.List.Basic
import Mathlib.Logic.Relation
import OpGraph.Files
import OpGraph.Proofs.DumpText
import OpGraph.Proofs.Json.Tolerance

/-!
# Rearranged dumps

The records of a dump may have their members in any order, and members of unknown names, at any
depth: what the text is read as stays the same.  Records that name a variant are not among them.
-/

namespace OpGraph

namespace Dump

open Json Json.Reader

/-! ## Edits -/

/-- The records that a dump is made of; a layout is what a tensor type carries. -/
inductive RecordKind
  | dump
  | entry
  | layout
  | node
  | block

/-- The parts of a dump that have such records in them. -/
inductive Part
  | record (kind : RecordKind)
  | records (kind : RecordKind)
  | type

namespace RecordKind

/-- The fields in their declared order, with what has records in it. -/
def fields : RecordKind → List (String × Option Part)
  | dump =>
      [("values", some (.records .entry)), ("inputs", none), ("outputs", none),
        ("nodes", some (.records .node))]
  | entry => [("id", none), ("type", some .type), ("literal", none)]
  | layout => [("dtype", none), ("sizes", none)]
  | node =>
      [("kind", none), ("schema", none), ("inputs", none), ("outputs", none),
        ("blocks", some (.records .block))]
  | block => [("inputs", none), ("outputs", none), ("nodes", some (.records .node))]

def names (kind : RecordKind) : List String := kind.fields.map Prod.fst

theorem nodup_names (kind : RecordKind) : kind.names.Nodup := by
  cases kind <;> decide

end RecordKind

/-- The variants of a type that carry records, or types in turn. -/
def typeParts : List (String × Part) := [("tensor", .record .layout), ("list", .type)]

/-- One record somewhere in a part is given with its members in another order, or with a further
member of a name that is no field's, put first. -/
inductive Edit : Part → Json → Json → Prop
  | order {kind : RecordKind} {ms ms' : List (Option String × Json)} {ending : Ending}
      (perm : ms.Perm ms') : Edit (.record kind) (.record ms ending) (.record ms' ending)
  | extra {kind : RecordKind} {ms : List (Option String × Json)} {ending : Ending} {name : String}
      (unknown : name ∉ kind.names) (j : Json) :
      Edit (.record kind) (.record ms ending) (.record ((some name, j) :: ms) ending)
  | member {kind : RecordKind} {name : String} {part : Part} {j k : Json} {ending : Ending}
      (before after : List (Option String × Json)) (field : (name, some part) ∈ kind.fields)
      (inside : Edit part j k) :
      Edit (.record kind) (.record (before ++ (some name, j) :: after) ending)
        (.record (before ++ (some name, k) :: after) ending)
  /-- Records are also given as lists, by the values of their fields. -/
  | place {kind : RecordKind} {name : String} {part : Part} {j k : Json} {ending : Ending}
      (before after : List Json) (field : kind.fields[before.length]? = some (name, some part))
      (inside : Edit part j k) :
      Edit (.record kind) (.list (before ++ j :: after) ending)
        (.list (before ++ k :: after) ending)
  | item {kind : RecordKind} {j k : Json} {ending : Ending} (before after : List Json)
      (inside : Edit (.record kind) j k) :
      Edit (.records kind) (.list (before ++ j :: after) ending)
        (.list (before ++ k :: after) ending)
  | payload {name : String} {part : Part} {j k : Json} {ending : Ending}
      (variant : (name, part) ∈ typeParts) (inside : Edit part j k) :
      Edit .type (.record [(some name, j)] ending) (.record [(some name, k)] ending)

/-! ## Readers -/

/-- The changes that the fields of a record tolerate. -/
def RecordKind.changes (kind : RecordKind) : List (String × (Json → Json → Prop)) :=
  kind.fields.map fun (name, part) => (name, fun j k => ∃ p ∈ part, Edit p j k)

section Records

variable {α σ τ : Type} {kind : RecordKind} {r : Json.Reader α}

theorem tolerates_none : r.Tolerates fun j k => ∃ p ∈ (none : Option Part), Edit p j k := by
  rintro j k ⟨p, hp, _⟩
  cases hp

theorem tolerates_some {p : Part} (h : r.Tolerates (Edit p)) :
    r.Tolerates fun j k => ∃ q ∈ some p, Edit q j k := by
  rintro j k ⟨q, hq, hedit⟩
  cases hq
  exact h j k hedit

theorem tolerates_records (h : r.Tolerates (Edit (.record kind))) :
    r.list.Tolerates (Edit (.records kind)) := by
  intro j k hedit room
  cases hedit with
  | item before after inside => exact h.item inside before after _ room

theorem tolerates_record {fields : Fields σ τ} (h : fields.Tolerates kind.changes)
    (title : String) : (Json.Reader.record title fields).Tolerates (Edit (.record kind)) := by
  have hnames : fields.names = kind.names := by
    rw [h.names_eq, RecordKind.changes, RecordKind.names, List.map_map]
    rfl
  intro j k hedit room
  cases hedit with
  | order perm => exact Fields.toOption_record_perm fields title perm _ room
  | extra unknown j => exact Fields.toOption_record_extra (hnames ▸ unknown) title j _ _ room
  | @member kind name part j k ending before after field inside =>
      have hchange : (name, fun j k => ∃ p ∈ some part, Edit p j k) ∈ kind.changes := by
        apply List.mem_map.mpr
        exact ⟨(name, some part), field, rfl⟩
      exact h.member (hnames ▸ kind.nodup_names) hchange ⟨part, rfl, inside⟩ title before after
        ending room
  | @place kind name part j k ending before after field inside =>
      have hchange : kind.changes[before.length]? =
          some (name, fun j k => ∃ p ∈ some part, Edit p j k) := by
        rw [RecordKind.changes, List.getElem?_map, field, Option.map_some]
      exact h.place hchange ⟨part, rfl, inside⟩ title after ending room

end Records

theorem tolerates_type : ValueType.reader.Tolerates (Edit .type) := by
  have hlayout : ValueType.tensorReader.Tolerates (Edit (.record .layout)) :=
    tolerates_record (.field tolerates_none (.field tolerates_none .done)) _
  refine Tolerates.fix fun item hitem => ?_
  intro j k hedit room
  cases hedit with
  | @payload name part j k ending variant inside =>
      refine Tolerates.payload ?_ inside [] ending room
      rcases List.mem_pair.mp variant with heq | heq
      · cases heq
        simp [Variant.name, Variant.withPayload, hlayout.map]
      · cases heq
        simp [Variant.name, Variant.withPayload, hitem.map]

theorem Entry.tolerates : Entry.reader.Tolerates (Edit (.record .entry)) :=
  Tolerates.map (tolerates_record (.field tolerates_none (.field (tolerates_some tolerates_type)
    (.field tolerates_none .done))) _) _

theorem Block.tolerates {node : Json.Reader Node} (h : node.Tolerates (Edit (.record .node))) :
    (Block.reader node).Tolerates (Edit (.record .block)) := by
  have hnodes := tolerates_some (tolerates_records h)
  exact Tolerates.map (tolerates_record (.field tolerates_none (.field tolerates_none
    (.field hnodes .done))) _) _

theorem Node.tolerates : Node.reader.Tolerates (Edit (.record .node)) := by
  refine Tolerates.fix fun node hnode => ?_
  have hblocks := tolerates_some (tolerates_records (Block.tolerates hnode))
  exact Tolerates.map (tolerates_record (.field tolerates_none (.field tolerates_none
    (.field tolerates_none (.field tolerates_none (.field hblocks .done))))) _) _

theorem tolerates : reader.Tolerates (Edit (.record .dump)) := by
  have hvalues := tolerates_some (tolerates_records Entry.tolerates)
  have hnodes := tolerates_some (tolerates_records Node.tolerates)
  exact Tolerates.map (tolerates_record (.field hvalues (.field tolerates_none
    (.field tolerates_none (.field hnodes .done)))) _) _

/-! ## Texts -/

theorem tolerates_edits : reader.Tolerates (Relation.ReflTransGen (Edit (.record .dump))) := by
  intro j k hedits room
  induction hedits with
  | refl => rfl
  | tail _ hedit ih => exact ih.trans (tolerates _ _ hedit room)

/-- A text that differs from one that reads as a dump by the order of the members of its records,
and by members of unknown names with any values, reads as the same dump, and gives the same graph
or the same defect. -/
theorem parse_of_edits {s t : String} {d : Dump} (h : parse s = .ok d)
    (hedits : Relation.ReflTransGen (Edit (.record .dump)) (document s).root (document t).root)
    (hended : (document t).ended) : parse t = .ok d ∧ Graph.parse t = Graph.parse s := by
  have hread : parse t = .ok d := tolerates_edits.text h hedits hended
  rw [Graph.parse, Graph.parse, h, hread]
  exact ⟨rfl, rfl⟩

/-- The members of a dump with one tensor value, and a node with one block. -/
def scattered (layout block : List (String × Json)) : List (String × Json) :=
  [("values", .array [.object [("id", .ofInt 0), ("type", .variant "tensor" (.object layout))]]),
    ("nodes", .array [.object [("kind", .string "prim::If"), ("blocks", .array [.object block])]])]

theorem edits_scattered (layout block : List (String × Json)) (j : Json) :
    Relation.ReflTransGen (Edit (.record .dump)) (object (scattered layout block))
      (object (scattered (("id", j) :: layout) (("id", j) :: block)).reverse) := by
  have hlayout : Edit (.record .dump) (object (scattered layout block))
      (object (scattered (("id", j) :: layout) block)) := by
    refine .member [] _ (List.mem_of_getElem? (i := 0) rfl) (.item [] [] ?_)
    refine .member [_] [] (List.mem_of_getElem? (i := 1) rfl) (.payload List.mem_cons_self ?_)
    exact .extra (by decide) j
  have hblock : Edit (.record .dump) (object (scattered (("id", j) :: layout) block))
      (object (scattered (("id", j) :: layout) (("id", j) :: block))) := by
    refine .member [_] [] (List.mem_of_getElem? (i := 3) rfl) (.item [] [] ?_)
    refine .member [_] [] (List.mem_of_getElem? (i := 4) rfl) (.item [] [] ?_)
    exact .extra (by decide) j
  refine .tail (.tail (.single hlayout) hblock) (.order ?_)
  exact .swap _ _ []

/-- Nested more deeply than a dump may be, with a number and a text that no field could hold. -/
def unreadable : Nat → Json
  | 0 => .array [.num ⟨false, 1, 0, some 999⟩, .text none]
  | n + 1 => .array [unreadable n]

theorem whole_unreadable (n : Nat) : (unreadable n).Whole := by
  induction n with
  | zero => simp [unreadable, Whole]
  | succ n ih => simp [unreadable, ih]

/-- The result of the block refers to no value. -/
def dangling : Dump where
  values := [{ id := ⟨0⟩, type := .tensor (some "f32") none }]
  nodes := [{ kind := "prim::If", blocks := [{ outputs := [⟨7⟩] }] }]

def plain : Json :=
  object (scattered [("dtype", .string "f32")] [("outputs", .array [.ofInt 7])])

def edited : Json :=
  object (scattered [("id", unreadable 200), ("dtype", .string "f32")]
    [("id", unreadable 200), ("outputs", .array [.ofInt 7])]).reverse

theorem parse_of_edits_scattered :
    parse plain.pretty = .ok dangling ∧
      Relation.ReflTransGen (Edit (.record .dump)) (document plain.pretty).root
        (document edited.compact).root ∧
      (document edited.compact).ended ∧ parse edited.compact = .ok dangling ∧
      Graph.parse edited.compact = .error (.defect (.unknownValue Kind.block ⟨7⟩)) := by
  have hplain : plain.Whole := by simp [plain, scattered, ofInt, Whole]
  have hedited : edited.Whole := by simp [edited, scattered, ofInt, Whole, whole_unreadable]
  have hread : parse plain.pretty = .ok dangling :=
    (parse_write Layout.pretty_blank hplain).trans rfl
  have hbefore : document plain.pretty = ⟨plain, true⟩ :=
    document_write Layout.pretty_blank hplain
  have hafter : document edited.compact = ⟨edited, true⟩ :=
    document_write Layout.compact_blank hedited
  have hedits : Relation.ReflTransGen (Edit (.record .dump)) (document plain.pretty).root
      (document edited.compact).root := by
    rw [hbefore, hafter]
    exact edits_scattered _ _ _
  have hended : (document edited.compact).ended = true := by rw [hafter]
  obtain ⟨hsame, hgraph⟩ := parse_of_edits hread hedits hended
  refine ⟨hread, hedits, hended, hsame, ?_⟩
  rw [hgraph, Graph.parse, hread]
  rfl

/-- A dump with one value, and with some members before those of its entry. -/
def keyed (members : List (Option String × Json)) : Json :=
  object [("values", .array
    [.record (members ++ [(some "id", .ofInt 0), (some "type", .string "none")]) .closed])]

/-- A name with an unpaired surrogate is no field's either, but it is malformed where a record looks
for its fields. -/
theorem parse_keyed_surrogate :
    (keyed [(none, .ofInt 1)]).compact =
      "\x7b\"values\":[\x7b\"\\ud800\":1,\"id\":0,\"type\":\"none\"\x7d]\x7d" ∧
    document (keyed [(none, .ofInt 1)]).compact = ⟨keyed [(none, .ofInt 1)], true⟩ ∧
    document (keyed []).compact = ⟨keyed [], true⟩ ∧
    parse (keyed []).compact = .ok { values := [{ id := ⟨0⟩, type := .absent }] } ∧
    parse (keyed [(none, .ofInt 1)]).compact = .error .malformed := by
  have hplain : (keyed []).Whole := by simp [keyed, ofInt, Whole, WholeMembers]
  have hkeyed : (keyed [(none, .ofInt 1)]).Whole := by simp [keyed, ofInt, Whole, WholeMembers]
  refine ⟨by decide, ?_, ?_, ?_, ?_⟩
  · exact document_write Layout.compact_blank hkeyed
  · exact document_write Layout.compact_blank hplain
  · exact (parse_write Layout.compact_blank hplain).trans rfl
  · exact (parse_write Layout.compact_blank hkeyed).trans rfl

end Dump

end OpGraph
