import Mathlib.Data.List.Induction
import Mathlib.Data.List.Nodup
import OpGraph.Graph

/-!
# The index of the value table

While the entries of a table are entered, the index has each of them in its place.  It is complete
exactly when no identity repeats, and fails at the first that does.  What a graph looks up through
its index is then what a search of the table finds.
-/

namespace OpGraph

namespace Dump

/-- The identities in the value table, in its order. -/
def defined (d : Dump) : List ValueId := d.values.map Entry.id

/-- The first entry of an identity. -/
def entry? (d : Dump) (id : ValueId) : Option Entry := d.values.find? fun e => e.id = id

def value (d : Dump) (id : ValueId) : Value := valueOf id (d.entry? id)

/-- The graph with its values searched for in the table. -/
def root (d : Dump) : OpGraph.Node := d.resolve d.value

namespace Index

variable {index : Index} {es rest : List Entry} {e : Entry} {id : ValueId}

theorem position?_insert (index : Index) (id other : ValueId) (position : Nat) :
    (index.insert id position).position? other =
      if other = id then some position else index.position? other := by
  rw [position?, insert, List.lookup_cons]
  by_cases h : other = id
  · rw [if_pos h, beq_iff_eq.mpr h]
  · rw [if_neg h, beq_eq_false_iff_ne.mpr h]
    rfl

/-! ## Entering -/

/-- The index has these entries and no others, each in its place. -/
def Locates (index : Index) (es : List Entry) : Prop :=
  ∀ id, index.position? id = es.findIdx? fun e => e.id = id

theorem locates_empty : empty.Locates [] := fun _ => rfl

theorem Locates.mem_iff (h : index.Locates es) : id ∈ index ↔ id ∈ es.map Entry.id := by
  show (index.position? id).isSome ↔ _
  rw [h, List.findIdx?_isSome]
  simp

theorem Locates.insert (h : index.Locates es) (hfresh : e.id ∉ index) :
    (index.insert e.id es.length).Locates (es ++ [e]) := by
  intro id
  rw [position?_insert, List.findIdx?_append]
  by_cases hid : id = e.id
  · subst hid
    have hnone : (es.findIdx? fun e' => e'.id = e.id) = none := by
      rw [← h]
      exact Option.not_isSome_iff_eq_none.mp hfresh
    simp [hnone]
  · simp [h id, hid, Ne.symm hid]

/-- Entries of new identities are all entered. -/
theorem Locates.enter (h : index.Locates es) (hnodup : ((es ++ rest).map Entry.id).Nodup) :
    ∃ full, index.enter es.length rest = .ok full ∧ full.Locates (es ++ rest) := by
  induction rest generalizing index es with
  | nil => exact ⟨index, rfl, by simpa using h⟩
  | cons e rest ih =>
      have hfresh : e.id ∉ index := by
        rw [h.mem_iff]
        rw [List.map_append, List.map_cons] at hnodup
        exact fun he => (List.nodup_append.mp hnodup).2.2 _ he _ List.mem_cons_self rfl
      obtain ⟨full, hfull, hlocates⟩ := ih (h.insert hfresh) (by simpa using hnodup)
      refine ⟨full, ?_, by simpa using hlocates⟩
      rw [Index.enter, if_neg hfresh]
      simpa using hfull

theorem enter_append (index : Index) (position : Nat) (before after : List Entry) :
    index.enter position (before ++ after) =
      (index.enter position before).bind fun full =>
        full.enter (position + before.length) after := by
  induction before generalizing index position with
  | nil => rfl
  | cons e before ih =>
      rw [List.cons_append, enter, enter]
      split
      · rfl
      · rw [ih, List.length_cons, Nat.add_right_comm, Nat.add_assoc]

/-! ## Whole tables -/

theorem exists_ofEntries_of_nodup (h : (es.map Entry.id).Nodup) :
    ∃ index, ofEntries es = .ok index ∧ index.Locates es :=
  locates_empty.enter h

theorem ofEntries_of_repeated {before after : List Entry} (hbefore : (before.map Entry.id).Nodup)
    (he : e.id ∈ before.map Entry.id) :
    ofEntries (before ++ e :: after) = .error (.duplicateValue e.id) := by
  obtain ⟨index, hindex, hlocates⟩ := exists_ofEntries_of_nodup hbefore
  rw [ofEntries] at hindex
  rw [ofEntries, enter_append, hindex, Except.bind, enter, if_pos (hlocates.mem_iff.mpr he)]

/-- Either nothing repeats in a list, or something is the first to. -/
theorem nodup_or_exists_repeated (es : List Entry) :
    (es.map Entry.id).Nodup ∨ ∃ before e after, es = before ++ e :: after ∧
      (before.map Entry.id).Nodup ∧ e.id ∈ before.map Entry.id := by
  induction es using List.reverseRecOn with
  | nil => exact .inl .nil
  | append_singleton es e ih =>
      rcases ih with hnodup | ⟨before, e', after, rfl, hbefore, he'⟩
      · by_cases he : e.id ∈ es.map Entry.id
        · exact .inr ⟨es, e, [], rfl, hnodup, he⟩
        · rw [List.map_append, List.map_singleton]
          exact .inl (List.nodup_append.mpr ⟨hnodup, List.nodup_singleton _, by
            rintro _ hid _ hlast rfl
            exact he (List.mem_singleton.mp hlast ▸ hid)⟩)
      · exact .inr ⟨before, e', after ++ [e], by simp, hbefore, he'⟩

theorem locates_of_ofEntries_eq_ok (h : ofEntries es = .ok index) : index.Locates es := by
  rcases nodup_or_exists_repeated es with hnodup | ⟨before, e, after, rfl, hbefore, he⟩
  · obtain ⟨index', hindex, hlocates⟩ := exists_ofEntries_of_nodup hnodup
    obtain rfl : index' = index := Except.ok.inj (hindex.symm.trans h)
    exact hlocates
  · rw [ofEntries_of_repeated hbefore he] at h
    cases h

theorem exists_ofEntries_eq_ok_iff :
    (∃ index, ofEntries es = .ok index) ↔ (es.map Entry.id).Nodup := by
  constructor
  · rintro ⟨index, h⟩
    rcases nodup_or_exists_repeated es with hnodup | ⟨before, e, after, rfl, hbefore, he⟩
    · exact hnodup
    · rw [ofEntries_of_repeated hbefore he] at h
      cases h
  · intro hnodup
    obtain ⟨index, hindex, _⟩ := exists_ofEntries_of_nodup hnodup
    exact ⟨index, hindex⟩

/-- The table fails at the first entry whose identity came before. -/
theorem ofEntries_eq_error_iff {defect : Defect} :
    ofEntries es = .error defect ↔ ∃ before id after, es.map Entry.id = before ++ id :: after ∧
      before.Nodup ∧ id ∈ before ∧ defect = .duplicateValue id := by
  constructor
  · intro h
    rcases nodup_or_exists_repeated es with hnodup | ⟨before, e, after, rfl, hbefore, he⟩
    · obtain ⟨index, hindex, _⟩ := exists_ofEntries_of_nodup hnodup
      rw [hindex] at h
      cases h
    · rw [ofEntries_of_repeated hbefore he] at h
      cases h
      exact ⟨_, e.id, after.map Entry.id, by simp, hbefore, he, rfl⟩
  · rintro ⟨_, _, _, hids, hbefore, hid, rfl⟩
    obtain ⟨before, rest, rfl, rfl, hrest⟩ := List.map_eq_append_iff.mp hids
    obtain ⟨e, after, rfl, rfl, rfl⟩ := List.map_eq_cons_iff.mp hrest
    exact ofEntries_of_repeated hbefore hid

end Index

theorem check_eq_ok_iff {d : Dump} {index : Index} :
    d.check = .ok index ↔
      Index.ofEntries d.values = .ok index ∧ d.checkReferences index = .ok () := by
  rw [check]
  constructor
  · intro h
    cases hbuilt : Index.ofEntries d.values with
    | error e =>
        rw [hbuilt] at h
        cases h
    | ok built =>
        rw [hbuilt] at h
        cases hrefs : d.checkReferences built with
        | error e => simp [bind, Except.bind, hrefs] at h
        | ok =>
            obtain rfl : built = index := by simpa [bind, Except.bind, hrefs] using h
            exact ⟨rfl, hrefs⟩
  · rintro ⟨hbuilt, hrefs⟩
    simp [bind, Except.bind, hbuilt, hrefs]

end Dump

/-! ## Looking up -/

namespace Graph

theorem locates (g : Graph) : g.index.Locates g.dump.values :=
  Dump.Index.locates_of_ofEntries_eq_ok (Dump.check_eq_ok_iff.mp g.checked).1

/-- What the index finds is what a search of the table finds. -/
theorem entry?_eq (g : Graph) (id : ValueId) : g.entry? id = g.dump.entry? id := by
  unfold entry? Dump.entry?
  rw [g.locates, List.find?_eq_bind_findIdx?_getElem?]

theorem root_eq (g : Graph) : g.root = g.dump.root := by
  have hvalue : g.value = g.dump.value := by
    funext id
    rw [value, g.entry?_eq, Dump.value]
  rw [root, hvalue, Dump.root]

theorem dump_of_ofDump_eq_ok {d : Dump} {g : Graph} (h : ofDump d = .ok g) : g.dump = d := by
  unfold ofDump at h
  split at h
  · cases h
    rfl
  · cases h

theorem root_of_ofDump_eq_ok {d : Dump} {g : Graph} (h : ofDump d = .ok g) : g.root = d.root := by
  rw [root_eq, dump_of_ofDump_eq_ok h]

end Graph

end OpGraph
