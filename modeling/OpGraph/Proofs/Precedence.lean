import Mathlib.Data.Finset.Card
import OpGraph.Settings

/-!
# Which type a name gets

A table of type names holds for every name the first type that was put in for it and is not
dynamic.  So what a graph's settings add never changes a standard name, and the order in which they
add it is of no importance.
-/

namespace OpGraph

/-! ## Names of a map -/

namespace NameMap

variable {α : Type} {name : String}

def names (m : NameMap α) : List String := m.entries.map Prod.fst

theorem nodup_names (m : NameMap α) : m.names.Nodup :=
  List.pairwise_map.mpr (m.ascending.imp String.ne_of_lt)

theorem mem_entries_iff {m : NameMap α} {a : α} :
    (name, a) ∈ m.entries ↔ m.get? name = some a := by
  rw [get?, List.lookup_eq_some_iff]
  constructor
  · intro h
    obtain ⟨before, after, hsplit⟩ := List.append_of_mem h
    refine ⟨before, after, hsplit, fun e he => ?_⟩
    have hascending := m.ascending
    rw [hsplit] at hascending
    have hlt : e.1 < name := (List.pairwise_append.mp hascending).2.2 e he _ List.mem_cons_self
    simpa using (String.ne_of_lt hlt).symm
  · rintro ⟨before, after, hsplit, _⟩
    rw [hsplit]
    exact List.mem_append_right _ List.mem_cons_self

theorem mem_names_iff {m : NameMap α} : name ∈ m.names ↔ (m.get? name).isSome := by
  rw [Option.isSome_iff_exists, names, List.mem_map]
  constructor
  · rintro ⟨⟨_, a⟩, h, rfl⟩
    exact ⟨a, mem_entries_iff.mp h⟩
  · rintro ⟨a, h⟩
    exact ⟨(name, a), mem_entries_iff.mpr h, rfl⟩

end NameMap

namespace TypeNames

/-! ## The first known type -/

/-- The type of the first entry of a name that is not dynamic. -/
def firstKnown (entries : List (String × Element)) (name : String) : Option Element :=
  (entries.find? fun entry => entry.1 = name ∧ entry.2 ≠ .dynamic).map Prod.snd

/-- The names of the entries that are not dynamic. -/
def knownNames (entries : List (String × Element)) : List String :=
  (entries.filter fun entry => entry.2 ≠ .dynamic).map Prod.fst

variable {entries : List (String × Element)} {t : TypeNames} {name : String} {e : Element}

theorem firstKnown_append (entries more : List (String × Element)) (name : String) :
    firstKnown (entries ++ more) name = (firstKnown entries name).or (firstKnown more name) := by
  rw [firstKnown, List.find?_append, Option.map_or]
  rfl

theorem firstKnown_singleton (n : String) :
    firstKnown [(name, e)] n = if name = n ∧ e ≠ .dynamic then some e else none := by
  rw [firstKnown, List.find?_singleton]
  by_cases h : name = n ∧ e ≠ .dynamic <;> simp [h]

theorem mem_of_firstKnown_eq_some (h : firstKnown entries name = some e) :
    (name, e) ∈ entries ∧ e ≠ .dynamic := by
  obtain ⟨entry, hfound, rfl⟩ := Option.map_eq_some_iff.mp h
  obtain ⟨rfl, hknown⟩ : entry.1 = name ∧ entry.2 ≠ .dynamic := by
    simpa using List.find?_some hfound
  exact ⟨List.mem_of_find?_eq_some hfound, hknown⟩

theorem firstKnown_isSome_iff :
    (firstKnown entries name).isSome ↔ name ∈ knownNames entries := by
  rw [firstKnown, Option.isSome_map, List.find?_isSome, knownNames, List.mem_map]
  constructor
  · rintro ⟨entry, hentry, h⟩
    obtain ⟨rfl, hknown⟩ : entry.1 = name ∧ entry.2 ≠ .dynamic := by simpa using h
    exact ⟨entry, List.mem_filter.mpr ⟨hentry, by simpa using hknown⟩, rfl⟩
  · rintro ⟨entry, hentry, rfl⟩
    obtain ⟨hentry, hknown⟩ := List.mem_filter.mp hentry
    exact ⟨entry, hentry, by simpa using hknown⟩

/-! ## One call -/

theorem get?_insert (n : String) :
    (t.insert name e).1.get? n = (t.get? n).or (firstKnown [(name, e)] n) := by
  rw [firstKnown_singleton, insert]
  by_cases h : e = .dynamic ∨ t.contains name
  · rw [if_pos h]
    rcases h with rfl | h
    · simp
    · by_cases hn : name = n
      · subst hn
        obtain ⟨d, hd⟩ := Option.isSome_iff_exists.mp h
        rw [hd, Option.some_or]
      · simp [hn]
  · rw [if_neg h]
    obtain ⟨hknown, hnew⟩ := not_or.mp h
    have hput : (t.map.put name e).get? n = if n = name then some e else t.get? n :=
      NameMap.get?_put t.map name n e
    refine hput.trans ?_
    by_cases hn : n = name
    · subst hn
      have hnone : t.get? n = none := by simpa [contains] using hnew
      rw [if_pos rfl, hnone, if_pos ⟨rfl, hknown⟩, Option.none_or]
    · rw [if_neg hn, if_neg fun h => hn h.1.symm, Option.or_none]

theorem get?_extend (n : String) :
    (t.extend entries).get? n = (t.get? n).or (firstKnown entries n) := by
  induction entries generalizing t with
  | nil => simp [firstKnown]
  | cons entry rest ih =>
      obtain ⟨name, e⟩ := entry
      have hcons : firstKnown ((name, e) :: rest) n =
          (firstKnown [(name, e)] n).or (firstKnown rest n) := firstKnown_append [(name, e)] rest n
      rw [extend_cons, ih, add, get?_insert, Option.or_assoc, hcons]

theorem insert_eq_of_not (h : (t.insert name e).2 = false) : (t.insert name e).1 = t := by
  unfold insert at h ⊢
  split
  · rfl
  · rename_i hnew
    rw [if_neg hnew] at h
    cases h

theorem size_insert :
    (t.insert name e).1.size = if (t.insert name e).2 then t.size + 1 else t.size := by
  unfold insert
  split
  · rfl
  · rename_i h
    have hnone : t.map.get? name = none := by
      simpa [contains, get?] using (not_or.mp h).2
    exact NameMap.size_put e hnone

theorem insert_iff_size_lt :
    (t.insert name e).2 = true ↔ t.size < (t.insert name e).1.size := by
  rw [size_insert]
  cases (t.insert name e).2 <;> simp

/-! ## Any number of calls -/

/-- A table, and all entries that it was given in their order. -/
inductive Built : List (String × Element) → TypeNames → Prop
  | empty : Built [] .empty
  | standard : Built standardEntries .standard
  | insert {entries : List (String × Element)} {t : TypeNames} (h : Built entries t)
      (name : String) (e : Element) : Built (entries ++ [(name, e)]) (t.insert name e).1
  | add {entries : List (String × Element)} {t : TypeNames} (h : Built entries t)
      (name : String) (e : Element) : Built (entries ++ [(name, e)]) (t.add name e)
  | extend {entries : List (String × Element)} {t : TypeNames} (h : Built entries t)
      (more : List (String × Element)) : Built (entries ++ more) (t.extend more)

theorem get?_standard (n : String) : standard.get? n = firstKnown standardEntries n :=
  get?_extend n

theorem Built.get?_eq (h : Built entries t) (n : String) : t.get? n = firstKnown entries n := by
  induction h with
  | empty => rfl
  | standard => exact get?_standard n
  | insert _ name e ih => rw [get?_insert, ih, firstKnown_append]
  | add _ name e ih => rw [TypeNames.add, get?_insert, ih, firstKnown_append]
  | extend _ more ih => rw [get?_extend, ih, firstKnown_append]

theorem Built.contains_iff (h : Built entries t) (n : String) :
    t.contains n ↔ t.lookup n ≠ .dynamic := by
  rw [contains, lookup, h.get?_eq]
  cases hfirst : firstKnown entries n with
  | none => simp
  | some e => simpa using (mem_of_firstKnown_eq_some hfirst).2

theorem Built.size_eq (h : Built entries t) : t.size = (knownNames entries).toFinset.card := by
  have hnames : t.map.names.toFinset = (knownNames entries).toFinset := by
    ext n
    rw [List.mem_toFinset, List.mem_toFinset, NameMap.mem_names_iff, ← firstKnown_isSome_iff,
      ← h.get?_eq, get?]
  rw [← hnames, List.toFinset_card_of_nodup t.map.nodup_names, NameMap.names, List.length_map]
  rfl

/-! ## Tables of settings -/

/-- Where every name stands once, all orders of the entries give the same types. -/
theorem firstKnown_eq_of_perm {m : NameMap Element} (h : entries.Perm m.entries) :
    firstKnown entries name = (m.get? name).filter (· ≠ .dynamic) := by
  cases hfirst : firstKnown entries name with
  | some e =>
      obtain ⟨hmem, hknown⟩ := mem_of_firstKnown_eq_some hfirst
      have hget : m.get? name = some e := NameMap.mem_entries_iff.mp (h.mem_iff.mp hmem)
      rw [hget, Option.filter_some_pos (by simpa using hknown)]
  | none =>
      symm
      rw [Option.filter_eq_none_iff]
      intro e he hknown
      have hmem : (name, e) ∈ entries := h.mem_iff.mpr (NameMap.mem_entries_iff.mpr he)
      have hsome : (firstKnown entries name).isSome := by
        rw [firstKnown_isSome_iff, knownNames, List.mem_map]
        exact ⟨(name, e), List.mem_filter.mpr ⟨hmem, hknown⟩, rfl⟩
      rw [hfirst] at hsome
      cases hsome

theorem lookup_extend_of_perm {m : NameMap Element} (h : entries.Perm m.entries) :
    (t.extend entries).lookup name = ((t.get? name).or (m.get? name)).getD .dynamic := by
  rw [lookup, get?_extend, firstKnown_eq_of_perm h]
  cases t.get? name with
  | some e => rfl
  | none =>
      rw [Option.none_or, Option.none_or]
      cases m.get? name with
      | none => rfl
      | some e =>
          rw [Option.filter_some]
          by_cases he : e = .dynamic <;> simp [he]

/-- A table maps a name to the first type put in for it that is not dynamic, counts the names that
have one, and says of every insertion whether it added a name.  A name of the standard table keeps
its type under any settings, and any other has the type of the settings, whatever their order. -/
theorem precedence_of_built :
    (∀ (entries : List (String × Element)) (t : TypeNames), Built entries t →
      (∀ name, t.get? name = firstKnown entries name) ∧
      (∀ name, (t.contains name ↔ (t.get? name).isSome) ∧
        (t.contains name ↔ t.lookup name ≠ .dynamic)) ∧
      t.size = (knownNames entries).toFinset.card ∧
      ∀ name e, ((t.insert name e).2 = true ↔ t.size < (t.insert name e).1.size) ∧
        ((t.insert name e).2 = false → (t.insert name e).1 = t)) ∧
    ∀ (s : Settings) (name : String),
      s.typeNames.lookup name =
        ((standard.get? name).or (s.types.get? name)).getD .dynamic ∧
      ∀ entries, entries.Perm s.types.entries →
        (standard.extend entries).lookup name = s.typeNames.lookup name := by
  refine ⟨fun entries t h => ⟨h.get?_eq, fun name => ⟨Iff.rfl, h.contains_iff name⟩, h.size_eq,
    fun name e => ⟨insert_iff_size_lt, insert_eq_of_not⟩⟩, fun s name => ?_⟩
  have hsettings : s.typeNames.lookup name =
      ((standard.get? name).or (s.types.get? name)).getD .dynamic :=
    lookup_extend_of_perm (.refl _)
  exact ⟨hsettings, fun entries h => (lookup_extend_of_perm h).trans hsettings.symm⟩

/-- A standard name again, a dynamic entry before a known one, and a name put in twice. -/
def contested : TypeNames :=
  ((standard.insert "int" .i64).1.add "half" .dynamic).extend
    [("half", .f32), ("byte", .u8), ("half", .f64)]

def contestedEntries : List (String × Element) :=
  standardEntries ++ [("int", .i64)] ++ [("half", .dynamic)] ++
    [("half", .f32), ("byte", .u8), ("half", .f64)]

def contestedSettings : Settings :=
  ((Settings.standard.setType "int" .i64).setType "half" .f64).setType "none" .dynamic

theorem precedence_of_built_contested :
    Built contestedEntries contested ∧
      (∀ name, contested.get? name = firstKnown contestedEntries name) ∧
      contested.size = (knownNames contestedEntries).toFinset.card ∧
      ["int", "half", "byte", "none"].map contested.lookup = [.i32, .f32, .u8, .dynamic] ∧
      (contested.insert "byte" .i8).2 = false ∧ (contested.insert "byte" .i8).1 = contested ∧
      contestedSettings.types.entries.reverse.Perm contestedSettings.types.entries ∧
      (standard.extend contestedSettings.types.entries.reverse).lookup "int" =
        contestedSettings.typeNames.lookup "int" ∧
      ["int", "half", "none"].map contestedSettings.typeNames.lookup =
        [.i32, .f64, .dynamic] := by
  have hbuilt : Built contestedEntries contested := .extend (.add (.insert .standard _ _) _ _) _
  have hperm := contestedSettings.types.entries.reverse_perm
  obtain ⟨hget, _, hsize, hinsert⟩ := precedence_of_built.1 _ _ hbuilt
  have hsettings := (precedence_of_built.2 contestedSettings "int").2 _ hperm
  have hrefused : (contested.insert "byte" .i8).2 = false := by decide
  exact ⟨hbuilt, hget, hsize, by decide, hrefused, (hinsert "byte" .i8).2 hrefused, hperm,
    hsettings, by decide⟩

end TypeNames

end OpGraph
