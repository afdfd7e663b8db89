import Mathlib.Data.List.Induction
import Mathlib.Data.List.ReduceOption
import VeiledLedger.GroupTable
import VeiledLedger.Proofs.BodyContents

set_option autoImplicit false

/-! # Groups after any calls

A table that starts empty always is the table of a grouping, and every call does to it what the
operation on groupings does (`GroupCall.run_ofGrouping`). So the order of checks and changes inside
a call cannot be noticed from outside, and what the type of groupings promises holds of the table.
The three ways to add a group are one (`GroupCall.Makes.apply_eq`); what is left is padding, which
only extends. -/

namespace VeiledLedger

variable {p : Padding} {g g' : Grouping} {call call₁ call₂ : GroupCall}
  {ordinal ordinal₁ ordinal₂ : UInt32} {components components₁ components₂ : List Bytes}

/-! ## The table of a grouping -/

namespace GroupTable

/-- The table of a grouping: every group stands under its own ordinal. -/
def ofGrouping (g : Grouping) : GroupTable := g.groups.map ComponentGroup.mk

/-- What an outcome on a grouping is on its table: a failure leaves it as it was. -/
def outcome (g : Grouping) : Except Error Grouping → Except Error Unit × GroupTable
  | .ok g' => (.ok (), ofGrouping g')
  | .error e => (.error e, ofGrouping g)

@[simp] theorem get?_ofGrouping (g : Grouping) (k : UInt32) :
    GroupMap.get? (ofGrouping g) k = (g.groups.get? k).map (ComponentGroup.mk k) :=
  GroupMap.get?_map _ _ k

@[simp] theorem contains_ofGrouping (g : Grouping) (k : UInt32) :
    GroupMap.contains (ofGrouping g) k = g.groups.contains k := by
  simp [GroupMap.contains]

theorem exists_of_get?_ofGrouping {k : UInt32} {group : ComponentGroup}
    (h : GroupMap.get? (ofGrouping g) k = some group) :
    ∃ components, g.groups.get? k = some components ∧ group = ⟨k, components⟩ := by
  rw [get?_ofGrouping, Option.map_eq_some_iff] at h
  obtain ⟨components, hcomponents, rfl⟩ := h
  exact ⟨components, hcomponents, rfl⟩

theorem eq_of_outcome_eq_error {x : Except Error Grouping} {e : Error} {table : GroupTable}
    (h : outcome g x = (.error e, table)) : table = ofGrouping g := by
  cases x with
  | error _ => exact (congrArg Prod.snd h).symm
  | ok _ => simp [outcome] at h

theorem insert_ofGrouping (g : Grouping) (ordinal : UInt32) (components : List Bytes)
    (h : components ≠ []) : GroupMap.insert (ofGrouping g) ordinal ⟨ordinal, components⟩
      = ofGrouping (g.put ordinal components h) := by
  refine GroupMap.ext_get? fun k => ?_
  rw [GroupMap.get?_insert, get?_ofGrouping, get?_ofGrouping, Grouping.put, GroupMap.get?_insert]
  split_ifs with hk
  · rw [hk]
    rfl
  · rfl

/-! ## Calls one by one -/

theorem run_get_bind (f : GroupTable → Update) (table : GroupTable) :
    (get >>= f).run.run table = (f table).run.run table := rfl

theorem run_addOrdinal (g : Grouping) (ordinal : UInt32) (values : List (Option Bytes)) :
    (addOrdinal ordinal values).run.run (ofGrouping g)
      = outcome g (g.addOrdinal ordinal values) := by
  unfold addOrdinal Grouping.addOrdinal
  rw [run_get_bind, contains_ofGrouping]
  split_ifs with htaken
  · rfl
  · by_cases hnil : values.reduceOption = []
    · simp only [hnil]
      rfl
    · simp only [hnil, ne_eq, not_false_eq_true, if_true, dite_false]
      exact congrArg (Prod.mk _) (insert_ofGrouping g ordinal _ hnil)

theorem length_le_of_checkSize {role : Role} {count : Nat} (h : p.checkSize role count = .ok ()) :
    count ≤ (p.target? role).getD count := by
  unfold Padding.checkSize at h
  split at h
  · next target htarget =>
    split_ifs at h with hlt
    simpa [htarget] using hlt
  · next habsent => simp [habsent]

/-- Nothing is cut off if the list is not too long. -/
theorem resize_eq_rightpad {size : Nat} (filler : Bytes) (h : components.length ≤ size) :
    resize components size filler = components.rightpad size filler := by
  rw [resize, List.take_of_length_le h, List.rightpad]

theorem run_padGroup (p : Padding) (g : Grouping) (role : Role) (filler : Bytes) :
    (padGroup p role filler).run.run (ofGrouping g) = outcome g (p.padGroup g role filler) := by
  unfold padGroup Padding.padGroup
  split_ifs with hpaddable
  · rfl
  · dsimp only
    rw [run_get_bind, get?_ofGrouping]
    split
    · next habsent =>
      split
      · rfl
      · next hpresent => simp [hpresent] at habsent
    · next group hgroup =>
      split
      · next habsent => simp [habsent] at hgroup
      · next components hpresent =>
        obtain rfl : ComponentGroup.mk role.ordinal components = group := by
          simpa [hpresent] using hgroup
        dsimp only
        cases hsize : p.checkSize role components.length with
        | error e => rfl
        | ok _ =>
          -- a group that passes the check is not cut off
          rw [resize_eq_rightpad filler (length_le_of_checkSize hsize)]
          exact congrArg (Prod.mk _) (insert_ofGrouping g role.ordinal _ _)

end GroupTable

open GroupTable

/-- A call does to the table of a grouping what the operation does to the grouping. -/
theorem GroupCall.run_ofGrouping (p : Padding) (g : Grouping) (call : GroupCall) :
    call.run p (ofGrouping g) = outcome g (call.apply p g) := by
  cases call with
  | add role values => exact run_addOrdinal g role.ordinal values
  | addOrdinal ordinal values => exact run_addOrdinal g ordinal values
  | addTagged role values => exact run_addOrdinal g role.ordinal _
  | pad role filler => exact run_padGroup p g role filler

theorem GroupCall.run_ofGrouping_snd (p : Padding) (g : Grouping) (call : GroupCall) :
    (call.run p (ofGrouping g)).2 = ofGrouping (call.next p g) := by
  rw [call.run_ofGrouping, next]
  cases call.apply p g <;> rfl

theorem GroupTable.after_eq_ofGrouping (p : Padding) (calls : List GroupCall) :
    after p calls = ofGrouping (Grouping.after p calls) := by
  induction calls using List.reverseRecOn with
  | nil => rfl
  | append_singleton calls call ih =>
    simp only [after, Grouping.after, List.foldl_append, List.foldl_cons, List.foldl_nil] at ih ⊢
    rw [ih, call.run_ofGrouping_snd]

/-! ## Calls that add -/

namespace GroupCall

/-- The group that a call adds: the values that are present in the given order, or, if they have
tags, in the order of their tags and otherwise in the given one. -/
inductive Makes : GroupCall → UInt32 → List Bytes → Prop where
  | add (role : Role) (values : List (Option Bytes)) :
    Makes (.add role values) role.ordinal values.reduceOption
  | addOrdinal (ordinal : UInt32) (values : List (Option Bytes)) :
    Makes (.addOrdinal ordinal values) ordinal values.reduceOption
  | addTagged {role : Role} {values : List (Option TaggedComponent)} {sorted : List TaggedComponent}
    (h : StablySorted (·.discriminant) values.reduceOption sorted) :
    Makes (.addTagged role values) role.ordinal (sorted.map (·.bytes))

/-- Some value of a call that adds is present. -/
def GivesValue : GroupCall → Prop
  | .add _ values => ∃ value, some value ∈ values
  | .addOrdinal _ values => ∃ value, some value ∈ values
  | .addTagged _ values => ∃ value, some value ∈ values
  | .pad .. => False

theorem pads_or_makes (call : GroupCall) : (∃ role filler, call = .pad role filler) ∨
    ∃ ordinal components, call.Makes ordinal components := by
  cases call with
  | add role values => exact .inr ⟨_, _, .add role values⟩
  | addOrdinal ordinal values => exact .inr ⟨_, _, .addOrdinal ordinal values⟩
  | addTagged role values => exact .inr ⟨_, _, .addTagged (stablySorted_sortByKey _ _)⟩
  | pad role filler => exact .inl ⟨role, filler, rfl⟩

theorem reduceOption_ne_nil_iff {α : Type} {values : List (Option α)} :
    values.reduceOption ≠ [] ↔ ∃ value, some value ∈ values := by
  constructor
  · intro h
    obtain ⟨value, hvalue⟩ := List.exists_mem_of_ne_nil _ h
    exact ⟨value, List.reduceOption_mem_iff.mp hvalue⟩
  · rintro ⟨value, hvalue⟩
    exact List.ne_nil_of_mem (List.reduceOption_mem_iff.mpr hvalue)

namespace Makes

theorem ne_nil_iff (h : call.Makes ordinal components) : components ≠ [] ↔ call.GivesValue := by
  cases h with
  | add | addOrdinal => exact reduceOption_ne_nil_iff
  | addTagged h =>
    rw [h.eq_sortByKey, ← List.length_pos_iff, List.length_map, length_sortByKey,
      List.length_pos_iff]
    exact reduceOption_ne_nil_iff

/-- Of the values only those that are present count. -/
theorem addOrdinal_congr {values values' : List (Option Bytes)}
    (h : values.reduceOption = values'.reduceOption) :
    g.addOrdinal ordinal values = g.addOrdinal ordinal values' := by
  unfold Grouping.addOrdinal
  simp only [h]

/-- Every call that adds is one of an ordinal with its components. -/
theorem apply_eq (h : call.Makes ordinal components) :
    call.apply p g = g.addOrdinal ordinal (components.map some) := by
  cases h with
  | add | addOrdinal => exact addOrdinal_congr (reduceOption_map_some _).symm
  | addTagged h =>
    rw [h.eq_sortByKey, List.map_map]
    rfl

/-- A call that adds is refused if there is a group already, and otherwise succeeds. -/
theorem apply_cases (h : call.Makes ordinal components) (p : Padding) (g : Grouping) :
    (g.groups.contains ordinal = true ∧
      call.apply p g = .error (.configuration (.groupAddedTwice ordinal))) ∨
    (g.groups.get? ordinal = none ∧ ∃ g', call.apply p g = .ok g' ∧ ∀ k, g'.groups.get? k =
      if k = ordinal ∧ components ≠ [] then some components else g.groups.get? k) := by
  rw [h.apply_eq]
  by_cases htaken : g.groups.contains ordinal = true
  · exact .inl ⟨htaken, if_pos htaken⟩
  · have hfree : g.groups.get? ordinal = none := by simpa [GroupMap.contains] using htaken
    obtain ⟨g', hg'⟩ : ∃ g', g.addOrdinal ordinal (components.map some) = .ok g' := by
      unfold Grouping.addOrdinal
      rw [if_neg htaken]
      dsimp only
      split_ifs <;> exact ⟨_, rfl⟩
    refine .inr ⟨hfree, g', hg', fun k => ?_⟩
    rw [Grouping.get?_of_addOrdinal hg', reduceOption_map_some]

/-- The groups after a call that adds, whether it succeeds or not. -/
theorem get?_next (h : call.Makes ordinal components) (p : Padding) (g : Grouping) (k : UInt32) :
    (call.next p g).groups.get? k = if k = ordinal ∧ components ≠ []
      then (g.groups.get? k).or (some components) else g.groups.get? k := by
  rw [next]
  rcases h.apply_cases p g with ⟨htaken, herror⟩ | ⟨hfree, g', hg', hget⟩
  · rw [herror]
    obtain ⟨present, hpresent⟩ := Option.isSome_iff_exists.mp htaken
    split_ifs with hk
    · rw [hk.1]
      simp [Except.toOption, hpresent]
    · rfl
  · rw [hg']
    refine (hget k).trans ?_
    split_ifs with hk
    · rw [hk.1, hfree]
      rfl
    · rfl

/-- Calls that add groups at different ordinals can be exchanged. -/
theorem next_comm (h₁ : call₁.Makes ordinal₁ components₁) (h₂ : call₂.Makes ordinal₂ components₂)
    (hne : ordinal₁ ≠ ordinal₂) (p : Padding) (g : Grouping) :
    call₂.next p (call₁.next p g) = call₁.next p (call₂.next p g) := by
  refine Grouping.ext_groups (GroupMap.ext_get? fun k => ?_)
  simp only [h₁.get?_next, h₂.get?_next]
  by_cases hk : k = ordinal₁
  · have hk₂ : k ≠ ordinal₂ := hk ▸ hne
    simp [hk₂]
  · simp [hk]

/-- Whether a call that adds succeeds depends on its own ordinal alone. -/
theorem answer_congr (h : call.Makes ordinal components)
    (hsame : g.groups.get? ordinal = g'.groups.get? ordinal) :
    (call.run p (ofGrouping g)).1 = (call.run p (ofGrouping g')).1 := by
  rw [call.run_ofGrouping, call.run_ofGrouping]
  have hcontains : g.groups.contains ordinal = g'.groups.contains ordinal := by
    rw [GroupMap.contains, GroupMap.contains, hsame]
  rcases h.apply_cases p g with ⟨htaken, happly⟩ | ⟨hfree, _, happly, -⟩ <;>
    rcases h.apply_cases p g' with ⟨htaken', happly'⟩ | ⟨hfree', _, happly', -⟩
  · rw [happly, happly']
    rfl
  · simp [GroupMap.contains, hsame, hfree'] at htaken
  · simp [GroupMap.contains, ← hsame, hfree] at htaken'
  · rw [happly, happly']
    rfl

end Makes

/-! ## Groups that are present -/

/-- A call keeps a group that is present and at most extends it. -/
theorem exists_tail_next {k : UInt32} (p : Padding) (call : GroupCall)
    (h : g.groups.get? k = some components) :
    ∃ tail, (call.next p g).groups.get? k = some (components ++ tail) ∧
      ∀ c ∈ tail, ∃ role : Role, role.ordinal = k ∧ call = .pad role c := by
  rcases call.pads_or_makes with ⟨role, filler, rfl⟩ | ⟨ordinal, added, hmakes⟩
  · cases hpad : p.padGroup g role filler with
    | error e => exact ⟨[], by simp [next, apply, hpad, Except.toOption, h], nofun⟩
    | ok g' =>
      have hnext : (GroupCall.pad role filler).next p g = g' := by
        simp [next, apply, hpad, Except.toOption]
      rw [hnext, Padding.get?_of_padGroup hpad, h]
      by_cases hk : k = role.ordinal
      · rw [if_pos hk]
        exact ⟨_, rfl, fun c hc => ⟨role, hk.symm, by rw [List.eq_of_mem_replicate hc]⟩⟩
      · exact ⟨[], by rw [if_neg hk, List.append_nil], nofun⟩
  · refine ⟨[], ?_, nofun⟩
    rw [hmakes.get?_next, h, List.append_nil]
    split_ifs <;> rfl

end GroupCall

/-- The same of calls one after another: every group that was present stays, and what is behind it
afterwards is filler that it was padded with in between. -/
theorem Grouping.exists_tail_after {before : List GroupCall} {k : UInt32}
    (h : (after p before).groups.get? k = some components) (later : List GroupCall) :
    ∃ tail, (after p (before ++ later)).groups.get? k = some (components ++ tail) ∧
      ∀ c ∈ tail, ∃ role : Role, role.ordinal = k ∧ .pad role c ∈ later := by
  induction later using List.reverseRecOn with
  | nil => exact ⟨[], by rw [List.append_nil, List.append_nil, h], nofun⟩
  | append_singleton later call ih =>
    obtain ⟨tail, hget, htail⟩ := ih
    obtain ⟨more, hnext, hmore⟩ := call.exists_tail_next p hget
    refine ⟨tail ++ more, ?_, fun c hc => ?_⟩
    · rw [← List.append_assoc, ← List.append_assoc, ← hnext]
      simp [after]
    · rcases List.mem_append.mp hc with hc | hc
      · obtain ⟨role, hrole, hpad⟩ := htail c hc
        exact ⟨role, hrole, List.mem_append_left _ hpad⟩
      · obtain ⟨role, hrole, hpad⟩ := hmore c hc
        exact ⟨role, hrole, by simp [hpad]⟩

/-! ## Tables after any calls -/

namespace GroupTable

/-- What a call that adds makes of a table when it succeeds: a group at an ordinal that had none, if
some value is present, and nothing else. -/
structure Added (call : GroupCall) (ordinal : UInt32) (components : List Bytes)
    (before after : GroupTable) : Prop where
  free : before.get? ordinal = none
  made : call.GivesValue → after.get? ordinal = some ⟨ordinal, components⟩
  empty : ¬ call.GivesValue → after.get? ordinal = none
  others : ∀ k, k ≠ ordinal → after.get? k = before.get? k

theorem added_of_run {table : GroupTable} (h : call.Makes ordinal components)
    (hrun : call.run p (ofGrouping g) = (.ok (), table)) :
    Added call ordinal components (ofGrouping g) table := by
  rw [call.run_ofGrouping] at hrun
  rcases h.apply_cases p g with ⟨-, herror⟩ | ⟨hfree, g', hg', hget⟩
  · simp [herror, outcome] at hrun
  · rw [hg'] at hrun
    obtain rfl : ofGrouping g' = table := congrArg Prod.snd hrun
    refine ⟨?_, fun hgives => ?_, fun hgives => ?_, fun k hk => ?_⟩
    · rw [get?_ofGrouping, hfree]
      rfl
    · rw [get?_ofGrouping, hget, if_pos ⟨rfl, h.ne_nil_iff.mpr hgives⟩]
      rfl
    · rw [get?_ofGrouping, hget, if_neg fun hboth => hgives (h.ne_nil_iff.mp hboth.2), hfree]
      rfl
    · rw [get?_ofGrouping, get?_ofGrouping, hget, if_neg fun hboth => hk hboth.1]

/-- What holds of a table after any calls. It is the table of the grouping after the same calls, and
a call does the same to both. Its groups have components and stand under their own ordinals. A call
that fails leaves it as it was, and one that adds makes its group and nothing else. A group that is
present stays, and only padding extends it, at its end. Two calls that add groups at different
ordinals can be exchanged. -/
theorem after_calls (p : Padding) (before : List GroupCall) :
    (after p before = ofGrouping (Grouping.after p before) ∧
      ∀ call, GroupCall.run p call (after p before)
        = outcome (Grouping.after p before) (call.apply p (Grouping.after p before))) ∧
    (∀ k group, (after p before).get? k = some group →
      group.ordinal = k ∧ group.components ≠ []) ∧
    (∀ call e table, GroupCall.run p call (after p before) = (.error e, table) →
      table = after p before) ∧
    (∀ call ordinal components table, GroupCall.Makes call ordinal components →
      call.run p (after p before) = (.ok (), table) →
      Added call ordinal components (after p before) table) ∧
    (∀ later k group, (after p before).get? k = some group →
      ∃ tail, (after p (before ++ later)).get? k
          = some { group with components := group.components ++ tail } ∧
        ∀ c ∈ tail, ∃ role : Role, role.ordinal = k ∧ .pad role c ∈ later) ∧
    ∀ call₁ call₂ ordinal₁ ordinal₂ components₁ components₂,
      GroupCall.Makes call₁ ordinal₁ components₁ → GroupCall.Makes call₂ ordinal₂ components₂ →
      ordinal₁ ≠ ordinal₂ →
      (call₁.run p (after p (before ++ [call₂]))).1 = (call₁.run p (after p before)).1 ∧
      (call₂.run p (after p (before ++ [call₁]))).1 = (call₂.run p (after p before)).1 ∧
      ∀ later, after p (before ++ call₁ :: call₂ :: later)
        = after p (before ++ call₂ :: call₁ :: later) := by
  have hafter := after_eq_ofGrouping p before
  have hconcat (call : GroupCall) : after p (before ++ [call])
      = ofGrouping (call.next p (Grouping.after p before)) := by
    rw [after_eq_ofGrouping]
    simp [Grouping.after]
  refine ⟨⟨hafter, fun call => by rw [hafter, call.run_ofGrouping]⟩, ?_, ?_, ?_, ?_, ?_⟩
  · intro k group hgroup
    obtain ⟨components, hcomponents, rfl⟩ := exists_of_get?_ofGrouping (hafter ▸ hgroup)
    exact ⟨rfl, Grouping.nonempty _ _ ((GroupMap.mem_entries_iff _ _ _).mpr hcomponents)⟩
  · intro call e table hrun
    rw [hafter, call.run_ofGrouping] at hrun
    rw [hafter]
    exact eq_of_outcome_eq_error hrun
  · intro call ordinal components table hmakes hrun
    rw [hafter] at hrun ⊢
    exact added_of_run hmakes hrun
  · intro later k group hgroup
    obtain ⟨components, hcomponents, rfl⟩ := exists_of_get?_ofGrouping (hafter ▸ hgroup)
    obtain ⟨tail, hget, htail⟩ := Grouping.exists_tail_after hcomponents later
    refine ⟨tail, ?_, htail⟩
    rw [after_eq_ofGrouping, get?_ofGrouping, hget]
    rfl
  · intro call₁ call₂ ordinal₁ ordinal₂ components₁ components₂ h₁ h₂ hne
    refine ⟨?_, ?_, fun later => ?_⟩
    · rw [hconcat, hafter]
      refine h₁.answer_congr ?_
      rw [h₂.get?_next, if_neg fun hboth => hne hboth.1]
    · rw [hconcat, hafter]
      refine h₂.answer_congr ?_
      rw [h₁.get?_next, if_neg fun hboth => hne hboth.1.symm]
    · rw [after_eq_ofGrouping, after_eq_ofGrouping]
      simp only [Grouping.after, List.foldl_append, List.foldl_cons]
      rw [h₁.next_comm h₂ hne]

/-- Two outputs whose tags are not in order, and one that is absent. -/
def outputsCall : GroupCall := .addTagged .outputs [some ⟨2, [7]⟩, none, some ⟨1, [8]⟩]

def inputsCall : GroupCall := .addOrdinal 0 [some [1], none]

def threePadding : Padding :=
  { FullView.plainPadding with outputs := ⟨3, 0xFFFFFFFF, []⟩ }

/-- The outputs are added in the order of their tags and padded behind, a second group of outputs is
refused, and the inputs may come first. -/
theorem after_calls_outputs :
    (outputsCall.run threePadding (after threePadding [])).1 = .ok () ∧
    Added outputsCall 1 [[8], [7]] (after threePadding []) (after threePadding [outputsCall]) ∧
    (∃ e table, outputsCall.run threePadding (after threePadding [outputsCall])
      = (.error e, table) ∧ table = after threePadding [outputsCall]) ∧
    (∃ tail, tail ≠ [] ∧ (after threePadding [outputsCall, .pad .outputs [9]]).get? 1
      = some ⟨1, [[8], [7]] ++ tail⟩) ∧
    after threePadding [outputsCall, inputsCall]
      = after threePadding [inputsCall, outputsCall] := by
  have houtputs : outputsCall.Makes 1 [[8], [7]] := .addTagged (stablySorted_sortByKey _ _)
  have hinputs : inputsCall.Makes 0 [[1]] := .addOrdinal 0 _
  have hgroup : (after threePadding [outputsCall]).get? 1 = some ⟨1, [[8], [7]]⟩ := by decide
  obtain ⟨-, -, -, hadded, -, hexchange⟩ := after_calls threePadding []
  obtain ⟨-, -, herror, -, hkept, -⟩ := after_calls threePadding [outputsCall]
  obtain ⟨tail, htail, -⟩ := hkept [.pad .outputs [9]] 1 _ hgroup
  refine ⟨rfl, hadded _ _ _ _ houtputs rfl, ⟨_, _, rfl, herror outputsCall _ _ rfl⟩,
    ⟨tail, ?_, htail⟩, (hexchange _ _ _ _ _ _ houtputs hinputs (by decide)).2.2 []⟩
  rintro rfl
  exact absurd htail (by decide)

end GroupTable

end VeiledLedger
