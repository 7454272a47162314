import OpGraph.Proofs.Json.Guarantees
import OpGraph.Proofs.Json.ReadingBack

/-!
# What readers tolerate

Changes to a tree that make no difference to what a reader gives.  There is one law for every way
to build a reader, so that a change deep inside is tolerated when the reader of that part tolerates
it.  Records tolerate any order of their members, and members of other names.

Which fault is found in a refused text depends on the order of its parts, so that faults are left
out: `toOption` keeps only what is given.
-/

namespace OpGraph.Json

variable {α β σ τ : Type}

theorem toOption_eq_some_iff {x : Except ReadError α} {a : α} :
    x.toOption = some a ↔ x = .ok a := by
  cases x with
  | error e => exact ⟨nofun, nofun⟩
  | ok b => rw [Except.toOption, Option.some.injEq, Except.ok.injEq]

theorem toOption_bind (x : Except ReadError α) (f : α → Except ReadError β) :
    (x >>= f).toOption = x.toOption.bind fun a => (f a).toOption := by
  cases x <;> rfl

theorem toOption_map (x : Except ReadError α) (f : α → β) :
    (x.map f).toOption = x.toOption.map f := by
  cases x <;> rfl

namespace Reader

/-- The change makes no difference to what is given, nor to whether anything is. -/
def Tolerates (r : Reader α) (change : Json → Json → Prop) : Prop :=
  ∀ j k, change j k → ∀ room, (r room j).toOption = (r room k).toOption

variable {r : Reader α} {change : Json → Json → Prop} {j k : Json}

theorem Tolerates.map (h : r.Tolerates change) (f : α → β) : (r.map f).Tolerates change := by
  intro j k hjk room
  rw [Reader.map, Reader.map, toOption_map, toOption_map, h j k hjk]

/-! ### Lists -/

theorem toOption_items {read : Json → Except ReadError α}
    (h : (read j).toOption = (read k).toOption) (before after : List Json) :
    (items read (before ++ j :: after)).toOption =
      (items read (before ++ k :: after)).toOption := by
  induction before with
  | nil =>
      simp only [List.nil_append, items, toOption_bind]
      rw [h]
  | cons i before ih =>
      simp only [List.cons_append, items, toOption_bind]
      rw [ih]

/-- A list tolerates what the reader of its items tolerates. -/
theorem Tolerates.item (h : r.Tolerates change) (hjk : change j k) (before after : List Json)
    (ending : Ending) (room : Nat) :
    (r.list room (.list (before ++ j :: after) ending)).toOption =
      (r.list room (.list (before ++ k :: after) ending)).toOption := by
  cases room with
  | zero => rfl
  | succ room =>
      rw [list, list, toOption_bind, toOption_bind, toOption_items (h j k hjk room)]

/-! ### Variants and recursion -/

/-- A value given by a variant tolerates what the reader of the variant tolerates. -/
theorem Tolerates.payload {variants : List (Variant α)} {name : String}
    (h : ∀ v ∈ variants, v.name = name → v.withPayload.Tolerates change) (hjk : change j k)
    (ms : List (Option String × Json)) (ending : Ending) (room : Nat) :
    (choice variants room (.record ((some name, j) :: ms) ending)).toOption =
      (choice variants room (.record ((some name, k) :: ms) ending)).toOption := by
  cases room with
  | zero => rfl
  | succ room =>
      have hselect : (Variant.select variants name fun v => v.withPayload room j).toOption =
          (Variant.select variants name fun v => v.withPayload room k).toOption := by
        unfold Variant.select
        split
        · rename_i v hv
          have hname : v.name = name := by simpa using List.find?_some hv
          exact h v (List.mem_of_find?_eq_some hv) hname j k hjk room
        · rfl
      rw [choice, choice, toOption_bind, toOption_bind, hselect]

theorem Tolerates.fix {step : Reader α → Reader α}
    (h : ∀ r : Reader α, r.Tolerates change → (step r).Tolerates change) :
    (fix step).Tolerates change := by
  have hrounds (n : Nat) : (rounds step n).Tolerates change := by
    induction n with
    | zero => exact fun _ _ _ _ => rfl
    | succ n ih => exact h _ ih
  intro j k hjk room
  exact hrounds (room + 1) j k hjk room

end Reader

/-! ### Records -/

namespace Fields

variable {fields : Fields σ τ} {room : Nat}

/-- What has been seen of a record after one more member. -/
def seenAfter (room : Nat) (fields : Fields σ τ) : Option String × Json → σ → Option σ
  | (Option.none, _), _ => Option.none
  | (some name, j), seen => ((fields.take room name j seen).getD (.ok seen)).toOption

theorem seenAfter_own {name : String} {r : Reader β} {fallback : Option β} {rest : Fields σ τ}
    (j : Json) (seen : Option β) (others : σ) :
    seenAfter room (.field name r fallback rest) (some name, j) (seen, others) =
      if seen.isSome then Option.none
      else (r room j).toOption.map fun b => (some b, others) := by
  rw [seenAfter, take, if_pos rfl, Option.getD_some]
  split
  · rfl
  · exact toOption_map _ _

theorem seenAfter_other {own name : String} {r : Reader β} {fallback : Option β}
    {rest : Fields σ τ} (h : own ≠ name) (j : Json) (seen : Option β) (others : σ) :
    seenAfter room (.field own r fallback rest) (some name, j) (seen, others) =
      (seenAfter room rest (some name, j) others).map fun others => (seen, others) := by
  rw [seenAfter, take, if_neg h, seenAfter]
  cases rest.take room name j others with
  | none => rfl
  | some result => exact toOption_map _ _

theorem toOption_gather_cons (m : Option String × Json) (ms : List (Option String × Json))
    (seen : σ) :
    (gather room fields (m :: ms) seen).toOption =
      (seenAfter room fields m seen).bind fun seen => (gather room fields ms seen).toOption := by
  obtain ⟨name, j⟩ := m
  cases name with
  | none => rfl
  | some name =>
      rw [gather, seenAfter]
      cases fields.take room name j seen with
      | none => rfl
      | some result => cases result <;> rfl

/-- A field is not read twice. -/
theorem seenAfter_own_own {own : String} {r : Reader β} {fallback : Option β} {rest : Fields σ τ}
    (j k : Json) (seen : Option β × σ) :
    ((seenAfter room (.field own r fallback rest) (some own, j) seen).bind fun seen =>
      seenAfter room (.field own r fallback rest) (some own, k) seen) = Option.none := by
  obtain ⟨seen, others⟩ := seen
  rw [seenAfter_own]
  split
  · rfl
  · rw [Option.bind_map]
    simp only [Function.comp_def, seenAfter_own, Option.isSome_some, if_true, Option.bind_fun_none]

/-- The member of a field and that of another one can be read in either order. -/
theorem seenAfter_own_other {own name : String} {r : Reader β} {fallback : Option β}
    {rest : Fields σ τ} (h : own ≠ name) (j k : Json) (seen : Option β × σ) :
    ((seenAfter room (.field own r fallback rest) (some own, j) seen).bind fun seen =>
        seenAfter room (.field own r fallback rest) (some name, k) seen) =
      (seenAfter room (.field own r fallback rest) (some name, k) seen).bind fun seen =>
        seenAfter room (.field own r fallback rest) (some own, j) seen := by
  obtain ⟨seen, others⟩ := seen
  rw [seenAfter_own, seenAfter_other h, Option.bind_map]
  cases seen with
  | some b =>
      simp only [Function.comp_def, seenAfter_own, Option.isSome_some, if_true, Option.bind_none,
        Option.bind_fun_none]
  | none =>
      simp only [Function.comp_def, seenAfter_own, seenAfter_other h, Option.isSome_none,
        Bool.false_eq_true, if_false, Option.bind_map]
      cases (r room j).toOption <;> cases seenAfter room rest (some name, k) others <;> rfl

theorem seenAfter_named_comm (fields : Fields σ τ) (a b : String) (j k : Json) (seen : σ) :
    ((seenAfter room fields (some a, j) seen).bind fun seen =>
        seenAfter room fields (some b, k) seen) =
      (seenAfter room fields (some b, k) seen).bind fun seen =>
        seenAfter room fields (some a, j) seen := by
  induction fields with
  | done => rfl
  | field own r fallback rest ih =>
      by_cases ha : own = a
      · subst ha
        by_cases hb : own = b
        · subst hb
          rw [seenAfter_own_own, seenAfter_own_own]
        · exact seenAfter_own_other hb j k seen
      · by_cases hb : own = b
        · subst hb
          exact (seenAfter_own_other ha k j seen).symm
        · obtain ⟨seen, others⟩ := seen
          have hrest := congrArg (Option.map fun others => (seen, others)) (ih others)
          rw [Option.map_bind, Option.map_bind] at hrest
          rw [seenAfter_other ha, seenAfter_other hb, Option.bind_map, Option.bind_map]
          simp only [Function.comp_def, seenAfter_other ha, seenAfter_other hb] at hrest ⊢
          exact hrest

/-- Two members can be read in either order. -/
theorem seenAfter_comm (fields : Fields σ τ) (m n : Option String × Json) (seen : σ) :
    ((seenAfter room fields m seen).bind fun seen => seenAfter room fields n seen) =
      (seenAfter room fields n seen).bind fun seen => seenAfter room fields m seen := by
  obtain ⟨a, j⟩ := m
  obtain ⟨b, k⟩ := n
  cases a with
  | none => exact (Option.bind_fun_none _).symm
  | some a =>
      cases b with
      | none => exact Option.bind_fun_none _
      | some b => exact seenAfter_named_comm fields a b j k seen

/-- The order of the members makes no difference. -/
theorem toOption_gather_perm {ms ms' : List (Option String × Json)} (h : ms.Perm ms') (seen : σ) :
    (gather room fields ms seen).toOption = (gather room fields ms' seen).toOption := by
  induction h generalizing seen with
  | nil => rfl
  | cons m _ ih =>
      rw [toOption_gather_cons, toOption_gather_cons]
      simp only [ih]
  | swap m n ms =>
      simp only [toOption_gather_cons]
      rw [← Option.bind_assoc, ← Option.bind_assoc, seenAfter_comm]
  | trans _ _ ih ih' => exact (ih seen).trans (ih' seen)

theorem take_of_notMem {name : String} (h : name ∉ fields.names) (j : Json) (seen : σ) :
    fields.take room name j seen = Option.none := by
  induction fields with
  | done => rfl
  | field own r fallback rest ih =>
      rw [names, List.mem_cons, not_or] at h
      obtain ⟨seen, others⟩ := seen
      rw [take, if_neg (Ne.symm h.1), ih h.2 others, Option.map_none]

theorem toOption_record {fields : Fields σ τ} (title : String)
    {ms ms' : List (Option String × Json)}
    (h : ∀ room, (gather room fields ms fields.none).toOption =
      (gather room fields ms' fields.none).toOption) (ending : Ending) (room : Nat) :
    (Reader.record title fields room (.record ms ending)).toOption =
      (Reader.record title fields room (.record ms' ending)).toOption := by
  cases room with
  | zero => rfl
  | succ room =>
      rw [Reader.record, Reader.record, toOption_bind, toOption_bind, h]

/-- A record tolerates any order of its members. -/
theorem toOption_record_perm (fields : Fields σ τ) (title : String)
    {ms ms' : List (Option String × Json)} (h : ms.Perm ms') (ending : Ending) (room : Nat) :
    (Reader.record title fields room (.record ms ending)).toOption =
      (Reader.record title fields room (.record ms' ending)).toOption :=
  toOption_record title (fun _ => toOption_gather_perm h _) ending room

/-- A record tolerates a member of another name, whatever its value is. -/
theorem toOption_record_extra {name : String} (h : name ∉ fields.names) (title : String) (j : Json)
    (ms : List (Option String × Json)) (ending : Ending) (room : Nat) :
    (Reader.record title fields room (.record ms ending)).toOption =
      (Reader.record title fields room (.record ((some name, j) :: ms) ending)).toOption := by
  apply toOption_record
  intro room
  rw [gather, take_of_notMem h]

/-! ### Changes inside a record -/

/-- The reader of each field tolerates a change of its own. -/
inductive Tolerates : {σ τ : Type} → Fields σ τ → List (String × (Json → Json → Prop)) → Prop
  | done : Tolerates .done []
  | field {β σ τ : Type} {name : String} {r : Reader β} {fallback : Option β} {rest : Fields σ τ}
      {change : Json → Json → Prop} {changes : List (String × (Json → Json → Prop))} :
      r.Tolerates change → Tolerates rest changes →
        Tolerates (.field name r fallback rest) ((name, change) :: changes)

variable {changes : List (String × (Json → Json → Prop))} {name : String}
  {change : Json → Json → Prop} {j k : Json}

theorem Tolerates.names_eq (h : fields.Tolerates changes) :
    fields.names = changes.map Prod.fst := by
  induction h with
  | done => rfl
  | field _ _ ih => rw [names, List.map_cons, ih]

theorem Tolerates.seenAfter_eq (h : fields.Tolerates changes) (hnames : fields.names.Nodup)
    (hchange : (name, change) ∈ changes) (hjk : change j k) (room : Nat) (seen : σ) :
    seenAfter room fields (some name, j) seen = seenAfter room fields (some name, k) seen := by
  induction h with
  | done => cases hchange
  | @field β σ τ own r fallback rest change' changes hread hrest ih =>
      obtain ⟨hown, hnames⟩ := List.nodup_cons.mp hnames
      obtain ⟨seen, others⟩ := seen
      rcases List.mem_cons.mp hchange with heq | hchange
      · cases heq
        rw [seenAfter_own, seenAfter_own, hread j k hjk]
      · have hmem : name ∈ rest.names := by
          rw [hrest.names_eq]
          exact List.mem_map_of_mem hchange
        have hne : own ≠ name := (ne_of_mem_of_not_mem hmem hown).symm
        rw [seenAfter_other hne, seenAfter_other hne, ih hnames hchange]

/-- A record tolerates in a member what the reader of its field tolerates. -/
theorem Tolerates.member (h : fields.Tolerates changes) (hnames : fields.names.Nodup)
    (hchange : (name, change) ∈ changes) (hjk : change j k) (title : String)
    (before after : List (Option String × Json)) (ending : Ending) (room : Nat) :
    (Reader.record title fields room
        (.record (before ++ (some name, j) :: after) ending)).toOption =
      (Reader.record title fields room
        (.record (before ++ (some name, k) :: after) ending)).toOption := by
  apply toOption_record
  intro room
  -- The member may as well come first.
  have hfirst (i : Json) (seen : σ) :
      (gather room fields (before ++ (some name, i) :: after) seen).toOption =
        (gather room fields ((some name, i) :: (before ++ after)) seen).toOption :=
    toOption_gather_perm List.perm_middle seen
  rw [hfirst, hfirst, toOption_gather_cons, toOption_gather_cons,
    h.seenAfter_eq hnames hchange hjk]

theorem Tolerates.toOption_inOrder (h : fields.Tolerates changes) {before : List Json}
    (hchange : changes[before.length]? = some (name, change)) (hjk : change j k)
    (after : List Json) (ending : Ending) (room : Nat) (wanted : String) (count : Nat) :
    (fields.inOrder room wanted count (before ++ j :: after) ending).toOption =
      (fields.inOrder room wanted count (before ++ k :: after) ending).toOption := by
  induction h generalizing before count with
  | done => cases hchange
  | @field β σ τ own r fallback rest change' changes hread hrest ih =>
      cases before with
      | nil =>
          cases hchange
          simp only [List.nil_append, inOrder, toOption_bind]
          rw [hread j k hjk]
      | cons i before =>
          simp only [List.cons_append, inOrder, toOption_bind]
          rw [ih hchange]

/-- A record given as a list tolerates at a place what the reader of the field there tolerates. -/
theorem Tolerates.place (h : fields.Tolerates changes) {before : List Json}
    (hchange : changes[before.length]? = some (name, change)) (hjk : change j k)
    (title : String) (after : List Json) (ending : Ending) (room : Nat) :
    (Reader.record title fields room (.list (before ++ j :: after) ending)).toOption =
      (Reader.record title fields room (.list (before ++ k :: after) ending)).toOption := by
  cases room with
  | zero => rfl
  | succ room => exact h.toOption_inOrder hchange hjk after ending room _ 0

end Fields

/-! ### Whole texts -/

theorem Reader.text_eq_ok_iff {r : Reader α} {s : String} {a : α} :
    r.text s = .ok a ↔ r maxDepth (document s).root = .ok a ∧ (document s).ended := by
  constructor
  · intro h
    obtain ⟨b, hread, h⟩ := exists_of_bind_eq_ok h
    split at h
    · rename_i hended
      cases h
      exact ⟨hread, hended⟩
    · cases h
  · rintro ⟨hread, hended⟩
    rw [Reader.text, hread]
    exact if_pos hended

/-- A text is still read when its tree is changed in a way that the reader tolerates. -/
theorem Reader.Tolerates.text {r : Reader α} {change : Json → Json → Prop}
    (h : r.Tolerates change) {s t : String} {a : α} (hread : r.text s = .ok a)
    (hchange : change (document s).root (document t).root) (hended : (document t).ended) :
    r.text t = .ok a := by
  obtain ⟨hroot, _⟩ := text_eq_ok_iff.mp hread
  rw [← toOption_eq_some_iff, h _ _ hchange maxDepth, toOption_eq_some_iff] at hroot
  exact text_eq_ok_iff.mpr ⟨hroot, hended⟩

end OpGraph.Json
