import OpGraph.Json.Record
import OpGraph.Json.Variant

/-!
# What readers guarantee

A property of everything that a reader gives, stated together with the room it was given.  There
is one law for every way to build a reader; it asks nothing of the text, so that it covers records
given as lists, members in any order and fields that are left out.
-/

namespace OpGraph.Json

variable {α β σ τ : Type}

theorem exists_of_bind_eq_ok {x : Except ReadError α} {f : α → Except ReadError β} {b : β}
    (h : x >>= f = .ok b) : ∃ a, x = .ok a ∧ f a = .ok b := by
  cases x with
  | error e => cases h
  | ok a => exact ⟨a, rfl, h⟩

theorem exists_of_map_eq_ok {x : Except ReadError α} {f : α → β} {b : β}
    (h : x.map f = .ok b) : ∃ a, x = .ok a ∧ f a = b := by
  cases x with
  | error e => cases h
  | ok a =>
      cases h
      exact ⟨a, rfl, rfl⟩

theorem mismatch_ne_ok (wanted : String) (j : Json) (a : α) : mismatch wanted j ≠ .ok a := by
  unfold mismatch
  split <;> nofun

namespace Reader

/-- Whatever is read has the property. -/
def Ensures (r : Reader α) (post : Nat → α → Prop) : Prop :=
  ∀ room j a, r room j = .ok a → post room a

variable {r : Reader α} {post : Nat → α → Prop}

theorem ensures_true (r : Reader α) : r.Ensures fun _ _ => True := fun _ _ _ _ => trivial

theorem Ensures.mono {weaker : Nat → α → Prop} (h : r.Ensures post)
    (hpost : ∀ room a, post room a → weaker room a) : r.Ensures weaker := by
  intro room j a hread
  exact hpost room a (h room j a hread)

theorem Ensures.map {f : α → β} {post : Nat → β → Prop}
    (h : r.Ensures fun room a => post room (f a)) : (r.map f).Ensures post := by
  intro room j b hread
  obtain ⟨a, ha, rfl⟩ := exists_of_map_eq_ok hread
  exact h room j a ha

theorem Ensures.option {post : Nat → Option α → Prop} (hnone : ∀ room, post room none)
    (hsome : r.Ensures fun room a => post room (some a)) : r.option.Ensures post := by
  intro room j o hread
  unfold Reader.option at hread
  split at hread
  · cases hread
    exact hnone room
  · obtain ⟨a, ha, rfl⟩ := exists_of_map_eq_ok hread
    exact hsome room j a ha

/-! ### Lists -/

theorem exists_of_mem_items {read : Json → Except ReadError α} {js : List Json} {as : List α}
    (h : items read js = .ok as) : ∀ a ∈ as, ∃ j, read j = .ok a := by
  induction js generalizing as with
  | nil =>
      cases h
      nofun
  | cons j js ih =>
      obtain ⟨b, hhead, h⟩ := exists_of_bind_eq_ok h
      obtain ⟨bs, htail, h⟩ := exists_of_bind_eq_ok h
      cases h
      intro a ha
      rcases List.mem_cons.mp ha with rfl | ha
      · exact ⟨j, hhead⟩
      · exact ih htail a ha

/-- A list takes one bracket of the room. -/
theorem Ensures.list (h : r.Ensures post) :
    r.list.Ensures fun room as => ∃ inner, room = inner + 1 ∧ ∀ a ∈ as, post inner a := by
  intro room j as hread
  unfold Reader.list at hread
  split at hread
  · cases hread
  · rename_i inner js ending
    obtain ⟨bs, hitems, hread⟩ := exists_of_bind_eq_ok hread
    obtain ⟨_, _, hread⟩ := exists_of_bind_eq_ok hread
    cases hread
    refine ⟨inner, rfl, fun a ha => ?_⟩
    obtain ⟨k, hk⟩ := exists_of_mem_items hitems a ha
    exact h inner k a hk
  · exact absurd hread (mismatch_ne_ok _ _ _)

end Reader

/-! ### Records -/

namespace Fields

/-- A property of the values of all fields, made of one property for each field that its reader
ensures and its fallback has. -/
inductive Ensures : {σ τ : Type} → Fields σ τ → (Nat → τ → Prop) → Prop
  | done : Ensures .done fun _ _ => True
  | field {β σ τ : Type} {name : String} {r : Reader β} {fallback : Option β} {rest : Fields σ τ}
      {q : Nat → β → Prop} {post : Nat → τ → Prop} :
      r.Ensures q → (∀ room, ∀ b ∈ fallback, q room b) → Ensures rest post →
        Ensures (.field name r fallback rest) fun room t => q room t.1 ∧ post room t.2

variable {fields : Fields σ τ} {post : Nat → τ → Prop}

/-- What has been seen of a record keeps an invariant from which the property follows. -/
theorem Ensures.exists_invariant (h : fields.Ensures post) (room : Nat) :
    ∃ inv : σ → Prop, inv fields.none ∧
      (∀ name j seen next, fields.take room name j seen = some (.ok next) → inv seen → inv next) ∧
      ∀ seen t, inv seen → fields.complete seen = .ok t → post room t := by
  induction h with
  | done => exact ⟨fun _ => True, trivial, fun _ _ _ _ _ _ => trivial, fun _ _ _ _ => trivial⟩
  | @field β σ τ name r fallback rest q post hread hfallback _ ih =>
      obtain ⟨inv, hnone, htake, hcomplete⟩ := ih
      -- A value that was seen has its property; the fallback is only looked at in the end.
      refine ⟨fun seen => (∀ b ∈ seen.1, q room b) ∧ inv seen.2, ⟨nofun, hnone⟩, ?_, ?_⟩
      · rintro other j ⟨seen, others⟩ ⟨seen', others'⟩ hstep ⟨hseen, hothers⟩
        rw [take] at hstep
        split at hstep
        · split at hstep
          · cases hstep
          · obtain ⟨b, hb, heq⟩ := exists_of_map_eq_ok (Option.some.inj hstep)
            cases heq
            refine ⟨fun c hc => ?_, hothers⟩
            cases hc
            exact hread room j b hb
        · obtain ⟨result, hresult, hstep⟩ := Option.map_eq_some_iff.mp hstep
          obtain ⟨next, hnext, heq⟩ := exists_of_map_eq_ok hstep
          cases heq
          exact ⟨hseen, htake other j others others' (hnext ▸ hresult) hothers⟩
      · rintro ⟨seen, others⟩ t ⟨hseen, hothers⟩ hdone
        rw [complete] at hdone
        split at hdone
        · rename_i b hb
          obtain ⟨t, hrest, rfl⟩ := exists_of_map_eq_ok hdone
          refine ⟨?_, hcomplete others t hothers hrest⟩
          rcases Option.or_eq_some_iff.mp hb with hb | ⟨_, hb⟩
          · exact hseen b hb
          · exact hfallback room b hb
        · cases hdone

theorem gather_invariant {room : Nat} {inv : σ → Prop} {ms : List (Option String × Json)}
    {seen next : σ}
    (htake : ∀ name j seen next,
      fields.take room name j seen = some (.ok next) → inv seen → inv next)
    (hseen : inv seen) (h : gather room fields ms seen = .ok next) : inv next := by
  induction ms generalizing seen with
  | nil =>
      cases h
      exact hseen
  | cons m ms ih =>
      obtain ⟨name, j⟩ := m
      cases name with
      | none => cases h
      | some name =>
          rw [gather] at h
          cases hstep : fields.take room name j seen with
          | none =>
              rw [hstep] at h
              exact ih hseen h
          | some result =>
              cases result with
              | error e =>
                  rw [hstep] at h
                  cases h
              | ok after =>
                  rw [hstep] at h
                  exact ih (htake name j seen after hstep hseen) h

theorem Ensures.inOrder (h : fields.Ensures post) {room : Nat} {wanted : String} {ending : Ending} :
    ∀ {before : Nat} {js : List Json} {t : τ},
      fields.inOrder room wanted before js ending = .ok t → post room t := by
  induction h with
  | done => exact fun _ => trivial
  | @field β σ τ name r fallback rest q post hread hfallback _ ih =>
      intro before js t hlist
      cases js with
      | cons j js =>
          obtain ⟨b, hb, hlist⟩ := exists_of_bind_eq_ok hlist
          obtain ⟨t, hrest, hlist⟩ := exists_of_bind_eq_ok hlist
          cases hlist
          exact ⟨hread room j b hb, ih hrest⟩
      | nil =>
          cases ending with
          | cut => cases fallback <;> cases hlist
          | closed =>
              cases fallback with
              | none => cases hlist
              | some b =>
                  obtain ⟨t, hrest, rfl⟩ := exists_of_map_eq_ok hlist
                  exact ⟨hfallback room b rfl, ih hrest⟩

/-- A record takes one bracket of the room, whichever way it is given. -/
theorem Ensures.record (h : fields.Ensures post) (title : String) :
    (Reader.record title fields).Ensures fun room t =>
      ∃ inner, room = inner + 1 ∧ post inner t := by
  intro room j t hread
  unfold Reader.record at hread
  split at hread
  · cases hread
  · cases hread
  · rename_i inner ms ending
    obtain ⟨inv, hnone, htake, hcomplete⟩ := h.exists_invariant inner
    obtain ⟨seen, hgather, hread⟩ := exists_of_bind_eq_ok hread
    obtain ⟨_, _, hread⟩ := exists_of_bind_eq_ok hread
    exact ⟨inner, rfl, hcomplete seen t (gather_invariant htake hnone hgather) hread⟩
  · rename_i inner js ending
    exact ⟨inner, rfl, h.inOrder hread⟩
  · exact absurd hread (mismatch_ne_ok _ _ _)

end Fields

/-! ### Variants and recursion -/

/-- The property holds of what is read by the name of a variant. -/
def Variant.Ensures (post : Nat → α → Prop) : Variant α → Prop
  | plain _ a => ∀ room, post room a
  | carrying _ payload wrap _ => payload.Ensures fun room b => post (room + 1) (wrap b)

namespace Reader

variable {post : Nat → α → Prop}

theorem Ensures.choice {variants : List (Variant α)} (h : ∀ v ∈ variants, v.Ensures post) :
    (choice variants).Ensures post := by
  have hselect {name : String} {use : Variant α → Except ReadError α} {a : α}
      (ha : Variant.select variants name use = .ok a) : ∃ v, v.Ensures post ∧ use v = .ok a := by
    unfold Variant.select at ha
    split at ha
    · rename_i v hv
      exact ⟨v, h v (List.mem_of_find?_eq_some hv), ha⟩
    · cases ha
  intro room j a hread
  unfold Reader.choice at hread
  split at hread
  · obtain ⟨v, hv, ha⟩ := hselect hread
    cases v with
    | plain name value =>
        cases ha
        exact hv room
    | carrying name payload wrap kind => cases ha
  · cases hread
  · rename_i inner name j ms ending
    obtain ⟨b, hvariant, hrest⟩ := exists_of_bind_eq_ok hread
    have hab : b = a := by
      split at hrest
      · obtain ⟨_, _, hrest⟩ := exists_of_bind_eq_ok hrest
        exact Except.ok.inj hrest
      · cases hrest
    obtain ⟨v, hv, hb⟩ := hselect (hab ▸ hvariant)
    cases v with
    | plain name value =>
        obtain ⟨_, _, rfl⟩ := exists_of_map_eq_ok hb
        exact hv (inner + 1)
    | carrying name payload wrap kind =>
        obtain ⟨c, hc, rfl⟩ := exists_of_map_eq_ok hb
        exact hv inner j c hc
  · cases hread

/-- A recursive type has the property when every round of its recursion keeps it. -/
theorem Ensures.fix {step : Reader α → Reader α}
    (h : ∀ r : Reader α, r.Ensures post → (step r).Ensures post) : (fix step).Ensures post := by
  have hrounds (n : Nat) : (rounds step n).Ensures post := by
    induction n with
    | zero => exact fun _ _ _ hread => nomatch hread
    | succ n ih => exact h _ ih
  intro room j a hread
  exact hrounds (room + 1) room j a hread

end Reader

end OpGraph.Json
