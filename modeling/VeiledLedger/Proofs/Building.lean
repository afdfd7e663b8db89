import VeiledLedger.Proofs.FullView
import VeiledLedger.Proofs.PartialView
import VeiledLedger.Wire.FieldBytes

set_option autoImplicit false

/-! # What a view is made of

Each step of building a view has one equation about look-up in the groups that it returns, and so
the groups of a built view can be told from those of its body (`build_spec`). Of the views themselves
only those count that come out of `build` or `ofGroups`; both see to it that there is exactly one
command (`Made.exists_command`). -/

namespace VeiledLedger

/-! ## Groups -/

/-- Of values that are all present none is left out. -/
theorem reduceOption_map_some {α : Type} (l : List α) : (l.map some).reduceOption = l := by
  show (l.map some).filterMap (fun x => x) = l
  rw [List.filterMap_map]
  exact List.filterMap_some

namespace Grouping

variable {g g' : Grouping}

theorem ext_groups (h : g.groups = g'.groups) : g = g' := by
  cases g; cases g'; cases h; rfl

/-- No group is present without components. -/
theorem components_eq_nil_iff {role : Role} :
    g.components role = [] ↔ g.groups.get? role.ordinal = none := by
  unfold components
  cases hrole : g.groups.get? role.ordinal with
  | none => exact iff_of_true rfl rfl
  | some components =>
    have hne := g.nonempty _ ((g.groups.mem_entries_iff _ _).mpr hrole)
    exact iff_of_false hne (by simp)

/-- A group is added at its own ordinal, and only if it has a component. -/
theorem get?_of_addOrdinal {ordinal : UInt32} {values : List (Option Bytes)}
    (h : g.addOrdinal ordinal values = .ok g') (k : UInt32) : g'.groups.get? k =
      if k = ordinal ∧ values.reduceOption ≠ [] then some values.reduceOption
      else g.groups.get? k := by
  unfold addOrdinal at h
  dsimp only at h
  split_ifs at h with hcontains hnil
  · obtain rfl := Except.ok.inj h
    simp [hnil]
  · obtain rfl := Except.ok.inj h
    simp [put, GroupMap.get?_insert, hnil]

theorem get?_of_add {role : Role} {values : List (Option Bytes)} (h : g.add role values = .ok g')
    (k : UInt32) : g'.groups.get? k =
      if k = role.ordinal ∧ values.reduceOption ≠ [] then some values.reduceOption
      else g.groups.get? k :=
  get?_of_addOrdinal h k

theorem get?_of_add_ne {role : Role} {values : List (Option Bytes)}
    (h : g.add role values = .ok g') {k : UInt32} (hk : k ≠ role.ordinal) :
    g'.groups.get? k = g.groups.get? k := by
  rw [get?_of_add h, if_neg fun hboth => hk hboth.1]

end Grouping

/-- A group is extended at its own ordinal, and stays absent if it is absent. -/
theorem Padding.get?_of_padGroup {padding : Padding} {g g' : Grouping} {role : Role}
    {filler : Bytes} (h : padding.padGroup g role filler = .ok g') (k : UInt32) :
    g'.groups.get? k = if k = role.ordinal then (g.groups.get? k).map fun components =>
        components.rightpad ((padding.target? role).getD components.length) filler
      else g.groups.get? k := by
  unfold padGroup at h
  split_ifs at h with hpaddable
  split at h
  · next hnone =>
    obtain rfl := Except.ok.inj h
    split_ifs with hk
    · rw [hk, hnone]
      rfl
    · rfl
  · next components hsome =>
    rw [bind_unit_eq_ok_iff] at h
    obtain rfl := Except.ok.inj h.2
    rw [Grouping.put, GroupMap.get?_insert]
    split_ifs with hk
    · rw [hk, hsome]
      rfl
    · rfl

theorem Serializer.components_binary (fields : List Field) :
    Serializer.binary.components fields = .ok (fields.map Field.bytes) := by
  induction fields with
  | nil => rfl
  | cons field rest ih =>
    rw [Serializer.components, List.mapM_cons, ← Serializer.components, ih]
    rfl

/-! ## Views -/

namespace FullView

/-- The views that can be made. -/
inductive Made : FullView → Prop where
  | build {body : Body} {padding : Padding} {salt : Salt} {digests : DigestPair} {z : Serializer}
      {v : FullView} (h : FullView.build body padding salt digests z = .ok v) : Made v
  | ofGroups {groups : Grouping} {salt : Salt} {digests : DigestPair} {v : FullView}
      (h : FullView.ofGroups groups salt digests = .ok v) : Made v

/-- The groups of a body: the command and the notary are the only components of their groups, and
every group has a role. -/
theorem unpaddedGroups_spec {z : Serializer} {body : Body} {command : Command} {notary : Party}
    {outputs : List TaggedComponent} {signers : List Bytes} {g : Grouping}
    (h : unpaddedGroups z body command notary outputs signers = .ok g) :
    (∃ value, g.groups.get? Role.commands.ordinal = some [value]) ∧
      (∃ party, g.groups.get? Role.notary.ordinal = some [party]) ∧
      ∀ k, (∀ role : Role, k ≠ role.ordinal) → g.groups.get? k = none := by
  unfold unpaddedGroups at h
  simp only [bind_eq_ok_iff] at h
  obtain ⟨_, -, g₁, h₁, g₂, h₂, value, -, g₃, h₃, _, -, g₄, h₄, party, -, g₅, h₅, _, -, g₆, h₆,
    g₇, h₇, _, -, g₈, h₈, _, -, h₉⟩ := h
  -- every group is added once, so what was added is not touched again
  refine ⟨⟨value, ?_⟩, ⟨party, ?_⟩, fun k hk => ?_⟩
  · rw [Grouping.get?_of_add_ne h₉ (by decide), Grouping.get?_of_add_ne h₈ (by decide),
      Grouping.get?_of_add_ne h₇ (by decide), Grouping.get?_of_add_ne h₆ (by decide),
      Grouping.get?_of_add_ne h₅ (by decide), Grouping.get?_of_add_ne h₄ (by decide),
      Grouping.get?_of_add h₃]
    exact if_pos ⟨rfl, List.cons_ne_nil _ _⟩
  · rw [Grouping.get?_of_add_ne h₉ (by decide), Grouping.get?_of_add_ne h₈ (by decide),
      Grouping.get?_of_add_ne h₇ (by decide), Grouping.get?_of_add_ne h₆ (by decide),
      Grouping.get?_of_add h₅]
    exact if_pos ⟨rfl, List.cons_ne_nil _ _⟩
  · rw [Grouping.get?_of_add_ne h₉ (hk _), Grouping.get?_of_add_ne h₈ (hk _),
      Grouping.get?_of_add_ne h₇ (hk _), Grouping.get?_of_add_ne h₆ (hk _),
      Grouping.get?_of_add_ne h₅ (hk _), Grouping.get?_of_add_ne h₄ (hk _),
      Grouping.get?_of_add_ne h₃ (hk _), Grouping.get?_of_add_ne h₂ (hk _),
      Grouping.get?_of_add_ne h₁ (hk _)]
    rfl

/-- The same of the view of a body: padding does not reach these groups. -/
theorem build_spec {body : Body} {padding : Padding} {salt : Salt} {digests : DigestPair}
    {z : Serializer} {v : FullView} (h : build body padding salt digests z = .ok v) :
    (∃ value, v.groups.groups.get? Role.commands.ordinal = some [value]) ∧
      (∃ party, v.groups.groups.get? Role.notary.ordinal = some [party]) ∧
      ∀ k, (∀ role : Role, k ≠ role.ordinal) → v.groups.groups.get? k = none := by
  unfold build at h
  simp only [bind_eq_ok_iff] at h
  obtain ⟨⟨command, notary⟩, -, outputs, -, signers, -, g, hg, _, -, _, -, _, -, _, -, g₁, h₁,
    g₂, h₂, g₃, h₃, _, -, h⟩ := h
  obtain rfl := Except.ok.inj h
  have hkept {k : UInt32} (hinputs : k ≠ Role.inputs.ordinal) (houtputs : k ≠ Role.outputs.ordinal)
      (hreferences : k ≠ Role.references.ordinal) : g₃.groups.get? k = g.groups.get? k := by
    rw [Padding.get?_of_padGroup h₃, Padding.get?_of_padGroup h₂, Padding.get?_of_padGroup h₁,
      if_neg hreferences, if_neg houtputs, if_neg hinputs]
  obtain ⟨⟨value, hvalue⟩, ⟨party, hparty⟩, hnone⟩ := unpaddedGroups_spec hg
  exact ⟨⟨value, (hkept (by decide) (by decide) (by decide)).trans hvalue⟩,
    ⟨party, (hkept (by decide) (by decide) (by decide)).trans hparty⟩,
    fun k hk => (hkept (hk _) (hk _) (hk _)).trans (hnone k hk)⟩

/-- Every view that can be made has exactly one command. -/
theorem Made.exists_command {v : FullView} (h : v.Made) :
    ∃ value, v.groups.groups.get? Role.commands.ordinal = some [value] := by
  cases h with
  | build h => exact (build_spec h).1
  | ofGroups h =>
    unfold FullView.ofGroups at h
    dsimp only at h
    split_ifs at h with hcount hnotary
    obtain rfl := Except.ok.inj h
    obtain ⟨value, hvalue⟩ := List.length_eq_one_iff.mp (not_not.mp hcount)
    refine ⟨value, (Option.getD_eq_iff.mp hvalue).resolve_right ?_⟩
    simp

/-! ## A small transaction -/

/-- A body of one command and a notary. -/
def plainBody : Body := ⟨[], [], [], [⟨1, [], []⟩], [], some ⟨"", [5]⟩, none, none⟩

def plainPadding : Padding :=
  ⟨⟨2, Hash.zero, 0⟩, ⟨2, 0xFFFFFFFF, []⟩, ⟨2, Hash.zero, 0⟩, ⟨2, List.replicate 32 0⟩⟩

/-- The groups of that body. -/
def plainGroups : Grouping where
  groups := .ofList [(Role.commands.ordinal, [(Field.command ⟨1, [], []⟩).bytes]),
    (Role.notary.ordinal, [(Field.notary ⟨"", [5]⟩).bytes])]
  nonempty := by decide

theorem exists_build_plainBody (digests : DigestPair) :
    ∃ signers, build plainBody plainPadding .sample digests .binary
      = .ok (assemble plainGroups .sample digests signers) := ⟨_, rfl⟩

end FullView

end VeiledLedger
