import OpGraph.Dump.Format
import OpGraph.Proofs.Json.ReadingBack

/-!
# The text of a dump

A dump is read back from the text written for it exactly when its floats are finite and the text
nests no deeper than a reader goes.  This takes for granted that the text of each finite float reads
back to that float.
-/

namespace OpGraph

open Json Json.Reader

/-! ## Floats of a dump -/

def Scalar.finite : Scalar → Bool
  | .float x => x.finite
  | _ => true

/-- The text of a finite float reads back to it. -/
def Scalar.ReadsBack : Scalar → Prop
  | .float x => x.finite → x.ReadsBack
  | _ => True

instance : DecidablePred Scalar.ReadsBack
  | .int _ => .isTrue trivial
  | .float x => inferInstanceAs (Decidable (x.finite → x.ReadsBack))
  | .bool _ => .isTrue trivial

def Literal.scalars : Literal → List Scalar
  | .scalar s => [s]
  | .list ss => ss
  | .tensor ss => ss
  | .unsupported => []

def Dump.Entry.scalars (e : Entry) : List Scalar := e.literal.elim [] Literal.scalars

/-- All scalars that stand in the value table. -/
def Dump.scalars (d : Dump) : List Scalar := d.values.flatMap Entry.scalars

/-! ## Scalars and types -/

variable {bound : Nat}

theorem Scalar.depth_json (s : Scalar) : s.json.depth = 0 := by
  cases s with
  | float x =>
      simp only [json, ofFloat]
      split <;> rfl
  | _ => rfl

theorem Scalar.reader_num {n : Numeral} {v : Number} (h : n.number = some v) (room : Nat) :
    reader room (.num n) = .ok (ofNumber v) := by
  simp only [reader, kept, ofJson?, h, Option.isSome_some, if_true, Option.map_some]

theorem Scalar.readsBack {s : Scalar} (h : s.ReadsBack) :
    reader.ReadsBack bound s.json s s.finite := by
  apply readsBack_flat s.depth_json
  intro room
  cases s with
  | int n =>
      have hnumber : (Numeral.ofInt n.toInt).number = some (.integer n.toInt) :=
        Numeral.number_ofInt n.minValue_le_toInt (Int.lt_of_le_of_lt n.toInt_le (by decide))
      have hread : reader room (int n).json = .ok (int n) := by
        refine (reader_num hnumber room).trans ?_
        rw [ofNumber, if_pos ⟨n.minValue_le_toInt, n.toInt_le⟩, Int64.ofInt_toInt]
      rw [hread]
      exact (Gives.ok (int n)).congr (by simp [finite])
  | float x =>
      by_cases hx : x.finite
      · have hread : reader room (float x).json = .ok (float x) := by
          rw [json, ofFloat, if_pos hx]
          exact reader_num (h hx) room
        rw [hread]
        exact (Gives.ok (float x)).congr (by simp [finite, hx])
      · have hread : reader room (float x).json = .error (.noForm "Scalar") := by
          rw [json, ofFloat, if_neg hx]
          rfl
        rw [hread]
        exact Gives.error _ _ hx
  | bool b => exact (Gives.ok (bool b)).congr (by simp [finite])

theorem ValueId.readsBack (id : ValueId) : reader.ReadsBack bound id.json id True :=
  (readsBack_word id.number).map mk

theorem Dump.readsBack_ids (ids : List ValueId) :
    idsReader.ReadsBack bound (idsJson ids) ids True :=
  (readsBack_list fun id _ => id.readsBack).congr (by simp)

theorem Dim.readsBack (d : Dim) : reader.ReadsBack bound d.json d True :=
  (readsBack_optional (fun n _ => readsBack_word n) fun _ => nofun).congr (by simp)

namespace ValueType

theorem readsBack_tensor (element : Option String) (sizes : Option (List Dim)) :
    tensorReader.ReadsBack bound
      (.object [("dtype", .optional .string element),
        ("sizes", .optional (fun dims => .array (dims.map Dim.json)) sizes)])
      (element, sizes, ()) True := by
  have helement : Reader.string.option.ReadsBack (bound - 1) (.optional .string element) element
      (∀ s ∈ element, True) :=
    readsBack_optional (fun s _ => readsBack_string s) fun _ => nofun
  have hdims (dims : List Dim) : (Reader.list Dim.reader).ReadsBack (bound - 1)
      (.array (dims.map Dim.json)) dims True :=
    (readsBack_list fun d _ => Dim.readsBack d).congr (by simp)
  have hsizes := readsBack_optional (o := sizes) (fun dims _ => hdims dims) fun _ => nofun
  apply Fields.Written.readsBack
  · exact (Fields.Written.member helement (.member hsizes .done)).congr (by simp)
  · decide

theorem rounds_readsBack : (t : ValueType) → ∀ n, (rounds readerOver n).ReadsBack n t.json t True
  | _, 0 => nofun
  | .tensor element sizes, n + 1 => by
      apply ReadsBack.carrying
      · exact readsBack_tensor element sizes
      · rfl
      · rfl
  | .scalar name, n + 1 => by
      apply ReadsBack.carrying
      · exact readsBack_string name
      · rfl
      · rfl
  | .list item, n + 1 => by
      apply ReadsBack.carrying
      · exact rounds_readsBack item n
      · rfl
      · rfl
  | .absent, n + 1 => readsBack_plain rfl
  | .other name, n + 1 => by
      apply ReadsBack.carrying
      · exact readsBack_string name
      · rfl
      · rfl

theorem readsBack (t : ValueType) : reader.ReadsBack bound t.json t True :=
  readsBack_fix t.rounds_readsBack

end ValueType

theorem Literal.readsBack {l : Literal} (h : ∀ s ∈ l.scalars, s.ReadsBack) :
    reader.ReadsBack bound l.json l (∀ s ∈ l.scalars, s.finite) := by
  have hlist {ss : List Scalar} (h : ∀ s ∈ ss, s.ReadsBack) :
      (Reader.list Scalar.reader).ReadsBack (bound - 1) (.array (ss.map Scalar.json)) ss
        (∀ s ∈ ss, s.finite) :=
    readsBack_list fun s hs => Scalar.readsBack (h s hs)
  cases l with
  | scalar s =>
      have hs : s.ReadsBack := h s (List.mem_singleton.mpr rfl)
      apply ReadsBack.carrying
      · exact (Scalar.readsBack hs).congr (by simp [scalars])
      · rfl
      · rfl
  | list ss =>
      apply ReadsBack.carrying
      · exact hlist h
      · rfl
      · rfl
  | tensor ss =>
      apply ReadsBack.carrying
      · exact hlist h
      · rfl
      · rfl
  | unsupported => exact (readsBack_plain rfl).congr (by simp [scalars])

namespace Dump

/-! ## Entries and nodes -/

theorem Entry.readsBack {e : Entry} (h : ∀ s ∈ e.scalars, s.ReadsBack) :
    reader.ReadsBack bound e.json e (∀ s ∈ e.scalars, s.finite) := by
  obtain ⟨id, type, literal⟩ := e
  have hliteral (l : Literal) (hl : l ∈ literal) : Literal.reader.ReadsBack (bound - 1) l.json l
      (∀ s ∈ l.scalars, s.finite) := by
    obtain rfl := Option.mem_def.mp hl
    exact Literal.readsBack h
  have hnull (l : Literal) : l.json ≠ .null := by
    cases l <;> nofun
  have hjson : json ⟨id, type, literal⟩ = .object (("id", id.json) :: ("type", type.json) ::
      ((literal.map fun l => ("literal", l.json)).toList ++ [])) := by
    rw [List.append_nil]
    rfl
  rw [hjson]
  refine ReadsBack.map (a := (id, type, literal, ())) _ ?_
  apply Fields.Written.readsBack
  · refine (Fields.Written.member id.readsBack
      (.member type.readsBack (.optional hliteral hnull .done))).congr ?_
    cases literal <;> simp [scalars]
  · decide

theorem blocksJson_eq_map (bs : List Block) : blocksJson bs = bs.map Block.json := by
  induction bs with
  | nil => rfl
  | cons b bs ih => rw [blocksJson, ih, List.map_cons]

theorem nodesJson_eq_map (vs : List Node) : nodesJson vs = vs.map Node.json := by
  induction vs with
  | nil => rfl
  | cons v vs ih => rw [nodesJson, ih, List.map_cons]

mutual

theorem Node.rounds_readsBack : (v : Node) → ∀ n,
    (rounds Node.readerOver n).ReadsBack n v.json v True
  | _, 0 => nofun
  | ⟨kind, schema, inputs, outputs, blocks⟩, n + 1 => by
      have hschema (s : String) (_ : s ∈ schema) :
          Reader.string.ReadsBack n (.string s) s True := readsBack_string s
      have hblocks := (readsBack_list fun b hb => blocks_readsBack blocks n b hb).congr
        (q := True) (by simp)
      have hlast : Fields.Written n
          (.field "blocks" (Reader.list (Block.reader (rounds Node.readerOver n))) (some []) .done)
          (if blocks.isEmpty then [] else [("blocks", .array (blocksJson blocks))]) (blocks, ())
          True := by
        rw [blocksJson_eq_map]
        cases blocks with
        | nil => exact .absent .done
        | cons b bs => exact (Fields.Written.member hblocks .done).congr (by simp)
      rw [Node.json, List.append_assoc, List.append_assoc]
      show (Node.readerOver _).ReadsBack _ _ _ _
      refine ReadsBack.map (a := (kind, schema, inputs, outputs, blocks, ())) _ ?_
      apply Fields.Written.readsBack
      · refine (Fields.Written.member (readsBack_string kind) (.optional hschema (fun _ => nofun)
          (.member (readsBack_ids inputs) (.member (readsBack_ids outputs) hlast)))).congr ?_
        simp
      · simp [Fields.names]

theorem Block.readsBack : (b : Block) → ∀ n,
    (Block.reader (rounds Node.readerOver n)).ReadsBack n b.json b True
  | ⟨inputs, outputs, nodes⟩, n => by
      -- Read as a field, the nodes have one bracket less than the round is good for.
      have hnodes := ((readsBack_list fun v hv => nodes_readsBack nodes n v hv).mono
        (Nat.sub_le n 1)).congr (q := True) (by simp)
      rw [Block.json, nodesJson_eq_map]
      refine ReadsBack.map (a := (inputs, outputs, nodes, ())) _ ?_
      apply Fields.Written.readsBack
      · refine (Fields.Written.member (readsBack_ids inputs)
          (.member (readsBack_ids outputs) (.member hnodes .done))).congr ?_
        simp
      · simp [Fields.names]

theorem blocks_readsBack : (bs : List Block) → ∀ n, ∀ b ∈ bs,
    (Block.reader (rounds Node.readerOver n)).ReadsBack n b.json b True
  | c :: bs, n, b, hb => by
      rcases List.mem_cons.mp hb with heq | hb
      · exact heq ▸ c.readsBack n
      · exact blocks_readsBack bs n b hb

theorem nodes_readsBack : (vs : List Node) → ∀ n, ∀ v ∈ vs,
    (rounds Node.readerOver n).ReadsBack n v.json v True
  | u :: vs, n, v, hv => by
      rcases List.mem_cons.mp hv with heq | hv
      · exact heq ▸ u.rounds_readsBack n
      · exact nodes_readsBack vs n v hv

end

theorem Node.readsBack (v : Node) : reader.ReadsBack bound v.json v True :=
  readsBack_fix v.rounds_readsBack

/-! ## Dumps -/

theorem readsBack {d : Dump} (h : ∀ s ∈ d.scalars, s.ReadsBack) :
    reader.ReadsBack bound d.json d (∀ s ∈ d.scalars, s.finite) := by
  obtain ⟨values, inputs, outputs, nodes⟩ := d
  have hentries (e : Entry) (he : e ∈ values) (s : Scalar) (hs : s ∈ e.scalars) : s.ReadsBack :=
    h s (List.mem_flatMap_of_mem he hs)
  have hvalues : (Reader.list Entry.reader).ReadsBack (bound - 1) (.array (values.map Entry.json))
      values (∀ e ∈ values, ∀ s ∈ e.scalars, s.finite) :=
    readsBack_list fun e he => Entry.readsBack (hentries e he)
  have hnodes : (Reader.list Node.reader).ReadsBack (bound - 1) (.array (nodes.map Node.json))
      nodes (∀ v ∈ nodes, True) := readsBack_list fun v _ => v.readsBack
  rw [json, nodesJson_eq_map]
  refine ReadsBack.map (a := (values, inputs, outputs, nodes, ())) _ ?_
  apply Fields.Written.readsBack
  · refine (Fields.Written.member hvalues (.member (readsBack_ids inputs)
      (.member (readsBack_ids outputs) (.member hnodes .done)))).congr ?_
    simp only [scalars, List.forall_mem_flatMap]
    simp
  · decide

end Dump

/-! ## Whole trees -/

@[simp] theorem Scalar.whole_json (s : Scalar) : s.json.Whole := by
  cases s with
  | float x =>
      simp only [json, ofFloat]
      split <;> trivial
  | _ => trivial

@[simp] theorem ValueId.whole_json (id : ValueId) : id.json.Whole := trivial

@[simp] theorem Dim.whole_json (d : Dim) : d.json.Whole := whole_optional fun _ _ => trivial

@[simp] theorem ValueType.whole_json (t : ValueType) : t.json.Whole := by
  induction t with
  | tensor element sizes =>
      have hsizes : (Json.optional (fun dims => .array (dims.map Dim.json)) sizes).Whole :=
        whole_optional (by simp)
      have helement : (Json.optional .string element).Whole := whole_optional (by simp)
      simp [json, helement, hsizes]
  | list item ih => simp [json, ih]
  | _ => simp [json]

@[simp] theorem Literal.whole_json (l : Literal) : l.json.Whole := by
  cases l <;> simp [json]

namespace Dump

@[simp] theorem whole_idsJson (ids : List ValueId) : (idsJson ids).Whole := by
  simp [idsJson]

@[simp] theorem Entry.whole_json (e : Entry) : e.json.Whole := by
  cases h : e.literal <;> simp [json, h]

mutual

theorem Node.whole_json : (v : Node) → v.json.Whole
  | ⟨kind, schema, inputs, outputs, blocks⟩ => by
      have hblocks : (array (blocksJson blocks)).Whole := ⟨rfl, whole_blocksJson blocks⟩
      rw [Node.json, whole_object]
      cases schema <;> split <;> simp [hblocks]

theorem whole_blocksJson : (bs : List Block) → WholeItems (blocksJson bs)
  | [] => trivial
  | b :: bs => ⟨b.whole_json, whole_blocksJson bs⟩

theorem Block.whole_json : (b : Block) → b.json.Whole
  | ⟨inputs, outputs, nodes⟩ => by
      have hnodes : (array (nodesJson nodes)).Whole := ⟨rfl, whole_nodesJson nodes⟩
      simp [Block.json, hnodes]

theorem whole_nodesJson : (vs : List Node) → WholeItems (nodesJson vs)
  | [] => trivial
  | v :: vs => ⟨v.whole_json, whole_nodesJson vs⟩

end

theorem whole_json (d : Dump) : d.json.Whole := by
  have hnodes : (array (nodesJson d.nodes)).Whole := ⟨rfl, whole_nodesJson d.nodes⟩
  simp [json, hnodes]

/-! ## Texts -/

theorem parse_write {l : Layout} (hl : l.Blank) {j : Json} (hj : j.Whole) :
    parse (.ofList (write l 0 j)) = reader maxDepth j :=
  text_write hl hj

theorem gives_parse {d : Dump} (hscalars : ∀ s ∈ d.scalars, s.ReadsBack) {text : String}
    (h : text ∈ [d.json.compact, d.json.pretty]) :
    Gives (parse text) d ((∀ s ∈ d.scalars, s.finite) ∧ d.json.depth ≤ maxDepth) := by
  have hread := readsBack hscalars maxDepth (Nat.lt_succ_self maxDepth)
  rcases List.mem_cons.mp h with rfl | h
  · rw [compact, parse_write Layout.compact_blank d.whole_json]
    exact hread
  · rw [List.mem_singleton.mp h, pretty, parse_write Layout.pretty_blank d.whole_json]
    exact hread

/-- Reading undoes writing, and what it does not undo it refuses. -/
theorem parse_written (d : Dump) (hscalars : ∀ s ∈ d.scalars, s.ReadsBack) {text : String}
    (h : text ∈ [d.json.compact, d.json.pretty]) :
    ((∃ e, parse text = .error e) ∨ parse text = .ok d) ∧
      (parse text = .ok d ↔ (∀ s ∈ d.scalars, s.finite) ∧ d.json.depth ≤ maxDepth) := by
  have hgives := gives_parse hscalars h
  exact ⟨hgives.error_or_ok, hgives.eq_ok_iff⟩

/-- Escapes, unknown sizes, every kind of scalar and a node inside a block. -/
def annotated : Dump where
  values :=
    [{ id := ⟨0⟩, type := .tensor none (some [some 2, none]) },
      { id := ⟨1⟩, type := .list (.scalar "float"),
        literal := some (.list [.float ⟨0x3FB999999999999A⟩, .int (-3), .bool true]) },
      { id := ⟨2⟩, type := .absent, literal := some .unsupported }]
  inputs := [⟨0⟩]
  nodes :=
    [{ kind := "prim::If", schema := some "if \"so\"\n", inputs := [⟨0⟩],
       blocks := [{ nodes := [{ kind := "aten::add", outputs := [⟨3⟩] }] }] }]

theorem parse_written_annotated :
    (∀ s ∈ annotated.scalars, s.ReadsBack) ∧
      annotated.json.pretty ∈ [annotated.json.compact, annotated.json.pretty] ∧
        parse annotated.json.pretty = .ok annotated := by
  have hscalars : ∀ s ∈ annotated.scalars, s.ReadsBack := by decide +kernel
  have hmem : annotated.json.pretty ∈ [annotated.json.compact, annotated.json.pretty] :=
    List.mem_cons_of_mem _ List.mem_cons_self
  refine ⟨hscalars, hmem, (parse_written annotated hscalars hmem).2.mpr ⟨?_, ?_⟩⟩
  · decide
  · decide

end Dump

end OpGraph
