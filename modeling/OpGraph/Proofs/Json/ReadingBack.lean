import OpGraph.Json.Layout
import OpGraph.Json.Record
import OpGraph.Json.Variant
import OpGraph.Proofs.Json.Documents
import OpGraph.Proofs.Json.Numbers

/-!
# Reading back

A reader gives a value back from the tree written for it as long as the tree fits in the room,
and an error otherwise.  There is one law for every way to build a reader, so that a type reads
back when its parts do.
-/

namespace OpGraph.Json

variable {α β σ τ : Type}

/-! ## Depth -/

mutual

/-- How many brackets are open at once around the innermost value. -/
def depth : Json → Nat
  | .list js _ => depthItems js + 1
  | .record ms _ => depthMembers ms + 1
  | _ => 0

def depthItems : List Json → Nat
  | [] => 0
  | j :: js => max j.depth (depthItems js)

def depthMembers : List (Option String × Json) → Nat
  | [] => 0
  | (_, j) :: ms => max j.depth (depthMembers ms)

end

theorem depth_array_map_le {w : α → Json} {as : List α} {n : Nat} :
    (array (as.map w)).depth ≤ n + 1 ↔ ∀ a ∈ as, (w a).depth ≤ n := by
  rw [array, depth, Nat.add_le_add_iff_right]
  induction as with
  | nil => simp [depthItems]
  | cons a as ih => rw [List.map_cons, depthItems, Nat.max_le, ih, List.forall_mem_cons]

theorem depth_object_le {ms : List (String × Json)} {n : Nat} :
    (object ms).depth ≤ n + 1 ↔ ∀ m ∈ ms, m.2.depth ≤ n := by
  rw [object, depth, Nat.add_le_add_iff_right]
  induction ms with
  | nil => simp [depthMembers]
  | cons m ms ih => rw [List.map_cons, depthMembers, Nat.max_le, ih, List.forall_mem_cons]

theorem depth_variant (name : String) (j : Json) : (variant name j).depth = j.depth + 1 := by
  simp [variant, object, depth, depthMembers]

/-! ## Results -/

/-- The result is the value where the condition holds, and an error elsewhere. -/
def Gives (x : Except ReadError α) (a : α) (p : Prop) : Prop := ∀ b, x = .ok b ↔ p ∧ b = a

namespace Gives

variable {x : Except ReadError α} {a : α} {p q : Prop}

theorem ok (a : α) : Gives (.ok a) a True := by
  intro b
  rw [Except.ok.injEq, true_and, eq_comm]

theorem error (e : ReadError) (a : α) (h : ¬ p) : Gives (.error e) a p := by
  intro b
  constructor
  · intro hb
    cases hb
  · intro hb
    exact absurd hb.1 h

theorem congr (hx : Gives x a p) (h : p ↔ q) : Gives x a q := by
  intro b
  rw [hx b, h]

theorem eq_ok_iff (hx : Gives x a p) : x = .ok a ↔ p := by
  rw [hx a, eq_self, and_true]

theorem error_or_ok (hx : Gives x a p) : (∃ e, x = .error e) ∨ x = .ok a := by
  cases hcase : x with
  | error e => exact .inl ⟨e, rfl⟩
  | ok b =>
      obtain ⟨_, rfl⟩ := (hx b).mp hcase
      exact .inr rfl

theorem bind {f : α → Except ReadError β} {b : β} (hx : Gives x a p) (hf : Gives (f a) b q) :
    Gives (x >>= f) b (p ∧ q) := by
  intro c
  cases hcase : x with
  | error e =>
      have hp : ¬ p := by
        intro hp
        have hok := hx.eq_ok_iff.mpr hp
        rw [hcase] at hok
        cases hok
      constructor
      · intro hc
        cases hc
      · intro hc
        exact absurd hc.1.1 hp
  | ok a' =>
      obtain ⟨hp, rfl⟩ := (hx a').mp hcase
      show f a' = .ok c ↔ _
      rw [hf c]
      simp [hp]

theorem map (f : α → β) (hx : Gives x a p) : Gives (x.map f) (f a) p := by
  have hbind : Gives (x >>= fun a => .ok (f a)) (f a) (p ∧ True) := hx.bind (ok (f a))
  have hmap : (x >>= fun a => .ok (f a)) = x.map f := by
    cases x <;> rfl
  rw [hmap] at hbind
  exact hbind.congr (iff_of_eq (and_true p))

end Gives

/-! ## Readers -/

namespace Reader

/-- With less room than `bound` the tree is read as the value where the condition holds and the
tree fits in the room, and refused elsewhere.  The bound is there for recursive types, where a
round of the recursion is good for so much room only. -/
def ReadsBack (bound : Nat) (r : Reader α) (j : Json) (a : α) (p : Prop) : Prop :=
  ∀ room < bound, Gives (r room j) a (p ∧ j.depth ≤ room)

variable {bound : Nat} {r : Reader α} {j : Json} {a : α} {p q : Prop}

theorem ReadsBack.congr (h : r.ReadsBack bound j a p) (hpq : p ↔ q) : r.ReadsBack bound j a q := by
  intro room hroom
  exact (h room hroom).congr (and_congr_left' hpq)

theorem ReadsBack.map (f : α → β) (h : r.ReadsBack bound j a p) :
    (r.map f).ReadsBack bound j (f a) p := by
  intro room hroom
  exact (h room hroom).map f

theorem ReadsBack.mono {smaller : Nat} (h : r.ReadsBack bound j a p) (hle : smaller ≤ bound) :
    r.ReadsBack smaller j a p := by
  intro room hroom
  exact h room (Nat.lt_of_lt_of_le hroom hle)

/-- Values that are read back are told apart by what is written for them. -/
theorem eq_of_readsBack {w : α → Json} {good : α → Prop}
    (h : ∀ a bound, r.ReadsBack bound (w a) a (good a)) {a b : α} (ha : good a) (hb : good b)
    (hw : w a = w b) : a = b := by
  have hread {c : α} (hc : good c) : r (w c).depth (w c) = .ok c :=
    (h c _ _ (Nat.lt_succ_self _)).eq_ok_iff.mpr ⟨hc, Nat.le_refl _⟩
  have hsame := hread ha
  rw [hw, hread hb, Except.ok.injEq] at hsame
  exact hsame.symm

/-- What opens no bracket and is read under any room. -/
theorem readsBack_flat (hj : j.depth = 0) (h : ∀ room, Gives (r room j) a p) :
    r.ReadsBack bound j a p := by
  intro room _
  apply (h room).congr
  simp [hj]

/-- What opens a bracket is malformed without room. -/
theorem readsBack_bracket (hj : 0 < j.depth) (hnone : r 0 j = .error .malformed)
    (h : ∀ room, room + 1 < bound → Gives (r (room + 1) j) a (p ∧ j.depth ≤ room + 1)) :
    r.ReadsBack bound j a p := by
  intro room hroom
  cases room with
  | zero =>
      rw [hnone]
      exact Gives.error .malformed a fun hfits => absurd hfits.2 (Nat.not_le_of_lt hj)
  | succ room => exact h room hroom

theorem readsBack_word (n : UInt64) : word.ReadsBack bound (.ofInt n.toNat) n True := by
  have hn := n.toNat_lt
  have hlow : Int64.minValue.toInt ≤ (n.toNat : Int) :=
    Int.le_trans (by decide) (Int.natCast_nonneg _)
  have hhigh : (n.toNat : Int) < UInt64.size := Int.ofNat_lt.mpr hn
  apply readsBack_flat rfl
  intro room
  have hread : word room (.ofInt n.toNat) = .ok n := by
    simp only [ofInt, word, Numeral.number_ofInt hlow hhigh]
    simp
  rw [hread]
  exact Gives.ok n

theorem readsBack_string (s : String) : string.ReadsBack bound (.string s) s True :=
  readsBack_flat rfl fun _ => Gives.ok s

theorem readsBack_option_none : r.option.ReadsBack bound .null none True :=
  readsBack_flat rfl fun _ => Gives.ok none

theorem ReadsBack.option (h : r.ReadsBack bound j a p) (hj : j ≠ .null) :
    r.option.ReadsBack bound j (some a) p := by
  intro room hroom
  have hread : r.option room j = (r room j).map some := by
    cases j with
    | null => exact absurd rfl hj
    | _ => rfl
  rw [hread]
  exact (h room hroom).map some

theorem readsBack_optional {w : α → Json} {good : α → Prop} {o : Option α}
    (h : ∀ a ∈ o, r.ReadsBack bound (w a) a (good a)) (hw : ∀ a, w a ≠ .null) :
    r.option.ReadsBack bound (.optional w o) o (∀ a ∈ o, good a) := by
  cases o with
  | none => exact readsBack_option_none.congr (by simp)
  | some a => exact ((h a rfl).option (hw a)).congr (by simp)

/-! ### Lists -/

theorem gives_items {read : Json → Except ReadError α} {w : α → Json} {good : α → Prop} :
    (as : List α) → (∀ a ∈ as, Gives (read (w a)) a (good a)) →
      Gives (items read (as.map w)) as (∀ a ∈ as, good a)
  | [], _ => (Gives.ok []).congr (by simp)
  | a :: as, h => by
      have hhead := h a List.mem_cons_self
      have htail := gives_items as fun b hb => h b (List.mem_cons_of_mem a hb)
      apply (hhead.bind (htail.bind (Gives.ok (a :: as)))).congr
      simp

theorem readsBack_list {w : α → Json} {good : α → Prop} {as : List α}
    (h : ∀ a ∈ as, r.ReadsBack bound (w a) a (good a)) :
    r.list.ReadsBack bound (.array (as.map w)) as (∀ a ∈ as, good a) := by
  refine readsBack_bracket (Nat.succ_pos _) rfl fun room hroom => ?_
  have hitems := gives_items as fun a ha => h a ha room (Nat.lt_of_succ_lt hroom)
  apply (hitems.bind ((Gives.ok ()).bind (Gives.ok as))).congr
  rw [depth_array_map_le, and_true, and_true]
  constructor
  · intro hall
    exact ⟨fun a ha => (hall a ha).1, fun a ha => (hall a ha).2⟩
  · intro hall a ha
    exact ⟨hall.1 a ha, hall.2 a ha⟩

end Reader

/-! ### Records -/

namespace Fields

def names {σ τ : Type} : Fields σ τ → List String
  | .done => []
  | .field name _ _ rest => name :: rest.names

/-- The members are those written for the values of the fields, in the declared order.  A value
that the field falls back to may be left out. -/
inductive Written (bound : Nat) : {σ τ : Type} → Fields σ τ → List (String × Json) → τ → Prop → Prop
  | done : Written bound .done [] () True
  | member {β σ τ : Type} {name : String} {r : Reader β} {fallback : Option β} {rest : Fields σ τ}
      {j : Json} {ms : List (String × Json)} {b : β} {t : τ} {p q : Prop} :
      r.ReadsBack bound j b p → Written bound rest ms t q →
        Written bound (.field name r fallback rest) ((name, j) :: ms) (b, t) (p ∧ q)
  | absent {β σ τ : Type} {name : String} {r : Reader β} {rest : Fields σ τ}
      {ms : List (String × Json)} {b : β} {t : τ} {q : Prop} :
      Written bound rest ms t q → Written bound (.field name r (some b) rest) ms (b, t) q

variable {bound room : Nat} {fields : Fields σ τ} {ms : List (String × Json)} {t : τ} {p q : Prop}

theorem Written.congr (h : Written bound fields ms t p) (hpq : p ↔ q) :
    Written bound fields ms t q := propext hpq ▸ h

theorem Written.optional {name : String} {r : Reader β} {rest : Fields σ τ} {w : β → Json}
    {o : Option β} {good : β → Prop} (h : ∀ b ∈ o, r.ReadsBack bound (w b) b (good b))
    (hw : ∀ b, w b ≠ .null) (hrest : Written bound rest ms t q) :
    Written bound (.field name r.option (some Option.none) rest)
      ((o.map fun b => (name, w b)).toList ++ ms) (o, t) ((∀ b ∈ o, good b) ∧ q) := by
  cases o with
  | none => exact (Written.absent hrest).congr (by simp)
  | some b =>
      have hread := (h b rfl).option (hw b)
      exact (Written.member hread hrest).congr (by simp)

theorem Written.mem_names (h : Written bound fields ms t p) :
    ∀ m ∈ ms, m.1 ∈ fields.names := by
  induction h with
  | done => intro m hm; cases hm
  | member _ _ ih =>
      intro m hm
      rcases List.mem_cons.mp hm with rfl | hm
      · exact List.mem_cons_self
      · exact List.mem_cons_of_mem _ (ih m hm)
  | absent _ ih =>
      intro m hm
      exact List.mem_cons_of_mem _ (ih m hm)

theorem Written.ne_of_notMem (h : Written bound fields ms t p) {name : String}
    (hname : name ∉ fields.names) : ∀ m ∈ ms, m.1 ≠ name := by
  rintro m hm rfl
  exact hname (h.mem_names m hm)

/-- The members of an object, as a record holds them. -/
def namedMembers (ms : List (String × Json)) : List (Option String × Json) :=
  ms.map fun (name, j) => (some name, j)

/-- Members of other names are left to the other fields. -/
theorem gather_field {name : String} {r : Reader β} {fallback : Option β} {rest : Fields σ τ}
    (seen : Option β) (others : σ) (h : ∀ m ∈ ms, m.1 ≠ name) :
    gather room (.field name r fallback rest) (namedMembers ms) (seen, others) =
      (gather room rest (namedMembers ms) others).map fun others => (seen, others) := by
  induction ms generalizing others with
  | nil => rfl
  | cons m ms ih =>
      obtain ⟨own, j⟩ := m
      have htail : ∀ m ∈ ms, m.1 ≠ name := fun m hm => h m (List.mem_cons_of_mem _ hm)
      have hne : name ≠ own := (h (own, j) List.mem_cons_self).symm
      simp only [namedMembers, List.map_cons, gather, take, if_neg hne] at ih ⊢
      cases rest.take room own j others with
      | none => exact ih others htail
      | some result =>
          cases result with
          | error e => rfl
          | ok others => exact ih others htail

/-- What one field and the others give is what the others give, with the value of the one. -/
theorem complete_field {name : String} {r : Reader β} {fallback : Option β} {rest : Fields σ τ}
    {seen : Option β} {b : β} (others : σ) (h : ∀ m ∈ ms, m.1 ≠ name)
    (hb : seen.or fallback = some b) :
    (gather room (.field name r fallback rest) (namedMembers ms) (seen, others) >>=
        complete (.field name r fallback rest)) =
      (gather room rest (namedMembers ms) others >>= rest.complete).map fun t => (b, t) := by
  rw [gather_field seen others h]
  cases gather room rest (namedMembers ms) others with
  | error e => rfl
  | ok others =>
      show complete (.field name r fallback rest) (seen, others) =
        (rest.complete others).map fun t => (b, t)
      rw [complete, hb]

theorem Written.gives (h : Written bound fields ms t p) (hnames : fields.names.Nodup)
    (hroom : room < bound) :
    Gives (gather room fields (namedMembers ms) fields.none >>= fields.complete) t
      (p ∧ depthMembers (namedMembers ms) ≤ room) := by
  induction h with
  | done => exact (Gives.ok ()).congr (by simp [depthMembers, namedMembers])
  | @member β σ τ name r fallback rest j ms b t p q hread hrest ih =>
      obtain ⟨hname, hnames⟩ := List.nodup_cons.mp hnames
      have hother := hrest.ne_of_notMem hname
      -- The value read first waits in the record while the members of the others pass it by.
      have hsplit : (gather room (.field name r fallback rest) (namedMembers ((name, j) :: ms))
            (Fields.none (.field name r fallback rest)) >>=
              complete (.field name r fallback rest)) =
          r room j >>= fun b =>
            (gather room rest (namedMembers ms) rest.none >>= rest.complete).map
              fun t => (b, t) := by
        simp only [namedMembers, List.map_cons, gather, take, Fields.none, if_true,
          Option.isSome_none, Bool.false_eq_true, if_false]
        cases r room j with
        | error e => rfl
        | ok b => exact complete_field rest.none hother rfl
      rw [hsplit]
      apply ((hread room hroom).bind ((ih hnames).map fun t => (b, t))).congr
      simp only [namedMembers, List.map_cons, depthMembers, Nat.max_le]
      constructor
      · rintro ⟨⟨hp, hj⟩, hq, hms⟩
        exact ⟨⟨hp, hq⟩, hj, hms⟩
      · rintro ⟨⟨hp, hq⟩, hj, hms⟩
        exact ⟨⟨hp, hj⟩, hq, hms⟩
  | absent hrest ih =>
      obtain ⟨hname, hnames⟩ := List.nodup_cons.mp hnames
      rw [Fields.none, complete_field _ (hrest.ne_of_notMem hname) rfl]
      exact (ih hnames).map _

/-- A written record is read back when its parts are. -/
theorem Written.readsBack (h : Written (bound - 1) fields ms t p) (hnames : fields.names.Nodup)
    (title : String) : (Reader.record title fields).ReadsBack bound (.object ms) t p := by
  refine Reader.readsBack_bracket (Nat.succ_pos _) rfl fun room hroom => ?_
  apply (h.gives hnames (Nat.lt_sub_of_add_lt hroom)).congr
  rw [object, depth, Nat.add_le_add_iff_right]
  rfl

end Fields

/-! ### Dictionaries -/

namespace Reader

variable {bound : Nat} {r : Reader α} {w : α → Json} {good : String × α → Prop}

theorem gives_entries {read : Json → Except ReadError α} : (ms : List (String × α)) →
    (∀ m ∈ ms, Gives (read (w m.2)) m.2 (good m)) →
      Gives (entries read (Fields.namedMembers (ms.map fun (name, a) => (name, w a)))) ms
        (∀ m ∈ ms, good m)
  | [], _ => (Gives.ok []).congr (by simp)
  | m :: ms, h => by
      have hhead := h m List.mem_cons_self
      have htail := gives_entries ms fun n hn => h n (List.mem_cons_of_mem m hn)
      apply (hhead.bind (htail.bind (Gives.ok (m :: ms)))).congr
      rw [and_true, List.forall_mem_cons]

theorem readsBack_dictionary {ms : List (String × α)}
    (h : ∀ m ∈ ms, r.ReadsBack bound (w m.2) m.2 (good m)) :
    r.dictionary.ReadsBack bound (.object (ms.map fun (name, a) => (name, w a))) ms
      (∀ m ∈ ms, good m) := by
  refine readsBack_bracket (Nat.succ_pos _) rfl fun room hroom => ?_
  have hentries := gives_entries ms fun m hm => h m hm room (Nat.lt_of_succ_lt hroom)
  apply (hentries.bind ((Gives.ok ()).bind (Gives.ok ms))).congr
  rw [depth_object_le, List.forall_mem_map, and_true, and_true]
  constructor
  · intro hall
    exact ⟨fun m hm => (hall m hm).1, fun m hm => (hall m hm).2⟩
  · intro hall m hm
    exact ⟨hall.1 m hm, hall.2 m hm⟩

end Reader

/-! ### Variants -/

namespace Reader

variable {bound : Nat} {variants : List (Variant α)} {name : String} {a : α} {p : Prop}

theorem readsBack_plain (h : variants.find? (fun v => v.name = name) = some (.plain name a)) :
    (choice variants).ReadsBack bound (.string name) a True := by
  apply readsBack_flat rfl
  intro room
  have hread : choice variants room (.string name) = .ok a := by
    simp only [Json.string, choice, Variant.select, h, Variant.alone]
  rw [hread]
  exact Gives.ok a

theorem ReadsBack.carrying {r : Reader β} {j : Json} {b : β} {wrap : β → α} {kind : String}
    (h : r.ReadsBack (bound - 1) j b p)
    (hfind : variants.find? (fun v => v.name = name) = some (.carrying name r wrap kind))
    (ha : wrap b = a) : (choice variants).ReadsBack bound (.variant name j) a p := by
  refine readsBack_bracket (Nat.succ_pos _) rfl fun room hroom => ?_
  have hread : choice variants (room + 1) (.variant name j) = (r room j).map wrap := by
    simp only [variant, object, List.map_cons, List.map_nil, choice, Variant.select, hfind,
      Variant.withPayload, Reader.map]
    cases r room j <;> rfl
  rw [hread, ← ha]
  apply ((h room (Nat.lt_sub_of_add_lt hroom)).map wrap).congr
  rw [depth_variant, Nat.add_le_add_iff_right]

/-- A recursive type reads back when every round of its recursion does. -/
theorem readsBack_fix {step : Reader α → Reader α} {j : Json}
    (h : ∀ n, (rounds step n).ReadsBack n j a p) : (fix step).ReadsBack bound j a p := by
  intro room _
  exact h (room + 1) room (Nat.lt_succ_self room)

/-! ### Whole texts -/

theorem text_write {r : Reader α} {l : Layout} (hl : l.Blank) {j : Json} (hj : j.Whole) :
    r.text (.ofList (write l 0 j)) = r maxDepth j := by
  simp only [text, document_write hl hj, if_true]
  cases r maxDepth j <;> rfl

end Reader

end OpGraph.Json
