/-!
# Maps from names

A finite map is its list of entries in ascending order of names, so equal maps are equal lists.
The order is that of code points, which is also that of the UTF-8 bytes.
-/

namespace OpGraph

structure NameMap (α : Type) where
  entries : List (String × α)
  ascending : entries.Pairwise fun a b => a.1 < b.1
  deriving DecidableEq

namespace NameMap

variable {α : Type}

/-- Puts an entry in its place, instead of one of the same name. -/
def putEntry (name : String) (a : α) : List (String × α) → List (String × α)
  | [] => [(name, a)]
  | (n, b) :: rest =>
      if name < n then (name, a) :: (n, b) :: rest
      else if name = n then (name, a) :: rest
      else (n, b) :: putEntry name a rest

theorem mem_putEntry {name : String} {a : α} {e : String × α} {l : List (String × α)}
    (h : e ∈ putEntry name a l) : e = (name, a) ∨ e ∈ l := by
  induction l with
  | nil => simpa [putEntry] using h
  | cons d rest ih =>
      simp only [putEntry] at h
      split at h
      · simpa using h
      · split at h
        · rcases List.mem_cons.mp h with h | h
          · exact .inl h
          · exact .inr (List.mem_cons_of_mem _ h)
        · rcases List.mem_cons.mp h with h | h
          · exact .inr (h ▸ List.mem_cons_self)
          · rcases ih h with h | h
            · exact .inl h
            · exact .inr (List.mem_cons_of_mem _ h)

theorem putEntry_ascending {name : String} {a : α} {l : List (String × α)}
    (h : l.Pairwise fun a b => a.1 < b.1) :
    (putEntry name a l).Pairwise fun a b => a.1 < b.1 := by
  induction l with
  | nil => simp [putEntry]
  | cons d rest ih =>
      obtain ⟨hd, hr⟩ := List.pairwise_cons.mp h
      simp only [putEntry]
      split
      · rename_i hlt
        refine List.pairwise_cons.mpr ⟨fun e he => ?_, h⟩
        rcases List.mem_cons.mp he with rfl | he
        · exact hlt
        · exact String.lt_trans hlt (hd e he)
      · split
        · rename_i heq
          exact List.pairwise_cons.mpr ⟨fun e he => heq ▸ hd e he, hr⟩
        · rename_i hlt hne
          refine List.pairwise_cons.mpr ⟨fun e he => ?_, ih hr⟩
          rcases mem_putEntry he with rfl | he
          · exact Std.lt_of_le_of_ne (String.not_lt.mp hlt) (Ne.symm hne)
          · exact hd e he

def empty : NameMap α := ⟨[], .nil⟩

instance : Inhabited (NameMap α) := ⟨empty⟩

def put (m : NameMap α) (name : String) (a : α) : NameMap α :=
  ⟨putEntry name a m.entries, putEntry_ascending m.ascending⟩

def get? (m : NameMap α) (name : String) : Option α := m.entries.lookup name

def size (m : NameMap α) : Nat := m.entries.length

private theorem lookup_cons_entry (n k : String) (b : α) (l : List (String × α)) :
    List.lookup n ((k, b) :: l) = if n = k then some b else l.lookup n := by
  by_cases h : n = k
  · subst h
    simp
  · have hf : (n == k) = false := by simpa using h
    simp [List.lookup_cons, hf, h]

theorem lookup_putEntry (name n : String) (a : α) (l : List (String × α)) :
    (putEntry name a l).lookup n = if n = name then some a else l.lookup n := by
  induction l with
  | nil => simp [putEntry, lookup_cons_entry]
  | cons d rest ih =>
      obtain ⟨k, b⟩ := d
      simp only [putEntry]
      split
      · rw [lookup_cons_entry]
      · split
        · rename_i hk
          subst hk
          simp only [lookup_cons_entry]
          split <;> rfl
        · rename_i hne
          simp only [lookup_cons_entry, ih]
          split
          · rename_i h
            rw [if_neg fun e => hne (e.symm.trans h)]
          · rfl

@[simp] theorem get?_empty (name : String) : (empty : NameMap α).get? name = none := rfl

theorem get?_put (m : NameMap α) (name n : String) (a : α) :
    (m.put name a).get? n = if n = name then some a else m.get? n :=
  lookup_putEntry name n a m.entries

theorem length_putEntry {name : String} {a : α} {l : List (String × α)}
    (h : l.lookup name = none) : (putEntry name a l).length = l.length + 1 := by
  induction l with
  | nil => rfl
  | cons d rest ih =>
      obtain ⟨k, b⟩ := d
      rw [lookup_cons_entry] at h
      simp only [putEntry]
      split
      · rfl
      · split
        · rename_i hk
          rw [if_pos hk] at h
          cases h
        · rename_i hne
          rw [if_neg hne] at h
          rw [List.length_cons, List.length_cons, ih h]

theorem size_put {m : NameMap α} {name : String} (a : α) (h : m.get? name = none) :
    (m.put name a).size = m.size + 1 :=
  length_putEntry h

/-- Puts entries one after the other, so that of equal names the last stays. -/
def ofList (entries : List (String × α)) : NameMap α :=
  entries.foldl (fun m (name, a) => m.put name a) empty

theorem putEntry_eq_append {name : String} {a : α} {l : List (String × α)}
    (h : ∀ e ∈ l, e.1 < name) : putEntry name a l = l ++ [(name, a)] := by
  induction l with
  | nil => rfl
  | cons d rest ih =>
      have hd : d.1 < name := h d List.mem_cons_self
      have hne : name ≠ d.1 := (String.ne_of_lt hd).symm
      rw [putEntry, if_neg (String.lt_asymm hd), if_neg hne,
        ih fun e he => h e (List.mem_cons_of_mem _ he), List.cons_append]

/-- Entries that go up from those of a map are put behind them. -/
theorem entries_foldl_put {m : NameMap α} {l : List (String × α)}
    (h : (m.entries ++ l).Pairwise fun a b => a.1 < b.1) :
    (l.foldl (fun m (name, a) => m.put name a) m).entries = m.entries ++ l := by
  induction l generalizing m with
  | nil => rw [List.foldl_nil, List.append_nil]
  | cons d rest ih =>
      have hput : (m.put d.1 d.2).entries = m.entries ++ [d] :=
        putEntry_eq_append fun e he =>
          (List.pairwise_append.mp h).2.2 e he d List.mem_cons_self
      rw [List.foldl_cons, ih, hput, List.append_assoc, List.singleton_append]
      rw [hput, List.append_assoc, List.singleton_append]
      exact h

@[simp] theorem ofList_entries (m : NameMap α) : ofList m.entries = m := by
  have h : (ofList m.entries).entries = m.entries := entries_foldl_put m.ascending
  generalize ofList m.entries = n at h
  cases m
  cases n
  cases h
  rfl

end NameMap

end OpGraph
