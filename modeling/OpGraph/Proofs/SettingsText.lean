import OpGraph.Files
import OpGraph.Proofs.Json.ReadingBack

/-!
# The text of settings

Settings are read back from the text saved for them, whatever names they have.
-/

namespace OpGraph

open Json Json.Reader

variable {bound : Nat}

theorem Element.readsBack (e : Element) : reader.ReadsBack bound e.json e True := by
  apply readsBack_plain
  cases e <;> rfl

@[simp] theorem Element.whole_json (e : Element) : e.json.Whole := whole_string e.name

theorem Verbosity.readsBack (v : Verbosity) : reader.ReadsBack bound v.json v True := by
  apply readsBack_plain
  cases v <;> rfl

theorem FileBytes.text_toUTF8 (s : String) : FileBytes.text (.ok s.toUTF8) = .ok s := by
  have hdecode : String.fromUTF8? s.toUTF8 = some s := by
    rw [String.fromUTF8?, String.toUTF8_eq_toByteArray, dif_pos s.isValidUTF8]
    rfl
  simp only [text, bind, Except.bind, hdecode]

namespace Settings

theorem readsBack (s : Settings) : reader.ReadsBack bound s.json s True := by
  obtain ⟨types, verbosity⟩ := s
  have hentries : (dictionary Element.reader).ReadsBack (bound - 1)
      (.object (types.entries.map fun m => (m.1, m.2.json))) types.entries True :=
    (readsBack_dictionary fun m _ => m.2.readsBack).congr (by simp)
  have htypes := hentries.map NameMap.ofList
  rw [NameMap.ofList_entries] at htypes
  refine ReadsBack.map (a := (types, verbosity, ())) _ ?_
  apply Fields.Written.readsBack
  · exact (Fields.Written.member htypes (.member verbosity.readsBack .done)).congr (by simp)
  · decide

theorem whole_json (s : Settings) : s.json.Whole := by
  have htypes : (object (s.types.entries.map fun m => (m.1, m.2.json))).Whole := by
    rw [whole_object, List.forall_mem_map]
    exact fun m _ => m.2.whole_json
  rw [json, whole_object, List.forall_mem_cons, List.forall_mem_singleton]
  exact ⟨htypes, whole_string s.verbosity.name⟩

theorem depth_json_le (s : Settings) : s.json.depth ≤ 2 := by
  have hverbosity : s.verbosity.json.depth ≤ 1 := Nat.zero_le 1
  have htypes : (object (s.types.entries.map fun m => (m.1, m.2.json))).depth ≤ 1 := by
    rw [depth_object_le, List.forall_mem_map]
    exact fun m _ => Nat.le_refl 0
  rw [json, depth_object_le, List.forall_mem_cons, List.forall_mem_singleton]
  exact ⟨htypes, hverbosity⟩

/-- Saved settings are read back, as a text or as a file of any name. -/
theorem parse_text (s : Settings) :
    parse s.text = .ok s ∧ ∀ path, load path (.ok s.text.toUTF8) = .ok s := by
  have hdepth : s.json.depth ≤ maxDepth := Nat.le_trans s.depth_json_le (by decide)
  have hparse : parse s.text = .ok s := by
    rw [parse, text, Json.pretty, text_write Layout.pretty_blank s.whole_json]
    apply (s.readsBack maxDepth (Nat.lt_succ_self maxDepth)).eq_ok_iff.mpr
    exact ⟨trivial, hdepth⟩
  refine ⟨hparse, fun path => ?_⟩
  rw [load, FileBytes.text_toUTF8]
  change (parse s.text).mapError _ = .ok s
  rw [hparse]
  rfl

/-- The settings' own names are escaped like any text. -/
example :
    (Settings.standard.setType "a\"\n" .u8).text =
      "\x7b\n  \"types\": \x7b\n    \"a\\\"\\n\": \"u8\"\n  \x7d,\n" ++
        "  \"log_level\": \"info\"\n\x7d" := by
  decide

end Settings

end OpGraph
