import VeiledLedger.Proofs.Building
import VeiledLedger.Proofs.StableOrder

set_option autoImplicit false

/-! # What a body puts into its view

A body of the required shape fails to become a view only if one of the lists that have a target
size outgrows it, and the first of them is named. Otherwise the view has one group for each role,
made of the fields that the body has for it and, where the role is padded, of filler
(`Body.fields`). Every group is added at an ordinal that is still free (`exists_addEach`), and what
padding makes of a group depends on this group alone. What the author of a transaction relies on is
`FullView.Carries`, and what a verifier gets to see of it is `FullView.BuiltFrom`. -/

namespace VeiledLedger

/-! ## The shape of a body -/

/-- A window has a bound, and its start comes before its end. -/
structure TimeWindow.Valid (w : TimeWindow) : Prop where
  bounded : w.start? ≠ none ∨ w.stop? ≠ none
  ordered : ∀ start stop, w.start? = some start → w.stop? = some stop → start < stop

theorem TimeWindow.check_cases (w : TimeWindow) :
    w.Valid ∧ w.check = .ok () ∨ ¬ w.Valid ∧ ∃ fault, w.check = .error (.configuration fault) := by
  obtain ⟨start?, stop?⟩ := w
  cases start? with
  | none =>
    cases stop? with
    | none => exact .inr ⟨fun h => by simpa using h.bounded, _, rfl⟩
    | some stop => exact .inl ⟨⟨.inr (by simp), by simp⟩, rfl⟩
  | some start =>
    cases stop? with
    | none => exact .inl ⟨⟨.inl (by simp), by simp⟩, rfl⟩
    | some stop =>
      by_cases hlt : start < stop
      · exact .inl ⟨⟨.inl (by simp), by simpa using hlt⟩, if_pos hlt⟩
      · exact .inr ⟨fun h => hlt (h.ordered start stop rfl rfl), _, if_neg hlt⟩

/-- A body has one command and no other, a notary, and a valid window or none. -/
structure Body.Shaped (body : Body) (command : Command) (notary : Party) : Prop where
  commands_eq : body.commands = [command]
  notary_eq : body.notary? = some notary
  window_valid : ∀ w, body.timeWindow? = some w → w.Valid

/-- A body without the required shape is a fault of configuration. -/
theorem Body.shape_cases (body : Body) :
    (∃ command notary, body.Shaped command notary ∧ body.shape = .ok (command, notary)) ∨
      (¬ ∃ command notary, body.Shaped command notary) ∧
        ∃ fault, body.shape = .error (.configuration fault) := by
  obtain ⟨inputs, outputs, references, commands, attachments, notary?, window?, parameters?⟩ := body
  rcases commands with _ | ⟨command, _ | ⟨second, rest⟩⟩
  · exact .inr ⟨fun ⟨_, _, h⟩ => by simpa using h.commands_eq, _, rfl⟩
  · cases notary? with
    | none => exact .inr ⟨fun ⟨_, _, h⟩ => by simpa using h.notary_eq, _, rfl⟩
    | some notary =>
      cases window? with
      | none => exact .inl ⟨command, notary, ⟨rfl, rfl, by simp⟩, rfl⟩
      | some w =>
        rcases w.check_cases with ⟨hvalid, hcheck⟩ | ⟨hvalid, fault, hcheck⟩
        · refine .inl ⟨command, notary, ⟨rfl, rfl, by simpa using hvalid⟩, ?_⟩
          simp [shape, hcheck]
        · refine .inr ⟨fun ⟨_, _, h⟩ => hvalid (h.window_valid w rfl), fault, ?_⟩
          simp [shape, hcheck]
  · exact .inr ⟨fun ⟨_, _, h⟩ => by simpa using h.commands_eq, _, rfl⟩

theorem Body.Shaped.unique {body : Body} {c₁ c₂ : Command} {n₁ n₂ : Party}
    (h₁ : body.Shaped c₁ n₁) (h₂ : body.Shaped c₂ n₂) : c₁ = c₂ ∧ n₁ = n₂ := by
  have hcommands := h₁.commands_eq.symm.trans h₂.commands_eq
  have hnotary := h₁.notary_eq.symm.trans h₂.notary_eq
  simpa using And.intro hcommands hnotary

theorem Body.Shaped.shape_eq {body : Body} {command : Command} {notary : Party}
    (h : body.Shaped command notary) : body.shape = .ok (command, notary) := by
  rcases body.shape_cases with ⟨c, n, hshaped, hshape⟩ | ⟨hnone, -⟩
  · obtain ⟨rfl, rfl⟩ := h.unique hshaped
    exact hshape
  · exact absurd ⟨command, notary, h⟩ hnone

/-! ## Fields and sizes -/

namespace PaddingTarget

variable {α β : Type}

/-- A list followed by filler up to the target size. -/
def fill (t : PaddingTarget α) (l : List α) : List α :=
  l ++ List.replicate (t.size.toNat - l.length) t.filler

/-- The same of a list that is left as it is when it is empty. -/
def extend (t : PaddingTarget α) (l : List α) : List α := if l.isEmpty then [] else t.fill l

theorem length_fill {t : PaddingTarget α} {l : List α} (h : l.length ≤ t.size.toNat) :
    (t.fill l).length = t.size.toNat := by
  simp [fill, h]

theorem map_fill (f : α → β) (t : PaddingTarget α) (l : List α) :
    (t.fill l).map f = (PaddingTarget.mk t.size (f t.filler)).fill (l.map f) := by
  simp [fill]

theorem map_extend (f : α → β) (t : PaddingTarget α) (l : List α) :
    (t.extend l).map f = (PaddingTarget.mk t.size (f t.filler)).extend (l.map f) := by
  cases l with
  | nil => rfl
  | cons a rest => exact map_fill f t (a :: rest)

theorem length_extend {t : PaddingTarget α} {l : List α} (h : l.length ≤ t.size.toNat) :
    (t.extend l).length = 0 ∨ (t.extend l).length = t.size.toNat := by
  cases l with
  | nil => exact .inl rfl
  | cons a rest => exact .inr (length_fill h)

theorem mem_extend {t : PaddingTarget α} {l : List α} {a : α} (h : a ∈ t.extend l) :
    a = t.filler ∨ a ∈ l := by
  cases l with
  | nil => cases h
  | cons b rest =>
    rcases List.mem_append.mp h with hmem | hfill
    · exact .inr hmem
    · exact .inl (List.eq_of_mem_replicate hfill)

end PaddingTarget

namespace Body

/-- The fields of a transaction by role, with given lists of inputs, outputs and references. -/
def fields (body : Body) (command : Command) (notary : Party) (inputs : List StateRef)
    (outputs : List Output) (references : List StateRef) : Role → List Field
  | .inputs => inputs.map .stateRef
  | .outputs => outputs.map .output
  | .commands => [.command command]
  | .attachments => body.attachments.map .attachment
  | .notary => [.notary notary]
  | .timeWindow => body.timeWindow?.toList.map .timeWindow
  | .signers => command.signers.map .signer
  | .references => references.map .stateRef
  | .parameters => body.parametersHash?.toList.map .parametersHash

/-- The lists of a transaction that have a target: role, count and target, in the order in which the
counts are checked. -/
def sized (body : Body) (command : Command) (padding : Padding) : List (Role × Nat × Nat) :=
  [(.inputs, body.inputs.length, padding.inputs.size.toNat),
    (.outputs, body.outputs.length, padding.outputs.size.toNat),
    (.references, body.references.length, padding.references.size.toNat),
    (.signers, command.signers.length, padding.signers.size.toNat)]

/-- The first of these lists that is longer than its target. -/
def oversized? (body : Body) (command : Command) (padding : Padding) : Option (Role × Nat × Nat) :=
  (body.sized command padding).find? fun (_, count, target) => target < count

theorem oversized?_eq_none_iff {body : Body} {command : Command} {padding : Padding} :
    body.oversized? command padding = none ↔
      body.inputs.length ≤ padding.inputs.size.toNat ∧
      body.outputs.length ≤ padding.outputs.size.toNat ∧
      body.references.length ≤ padding.references.size.toNat ∧
      command.signers.length ≤ padding.signers.size.toNat := by
  simp [oversized?, sized]

end Body

/-! ## Groups of fields -/

namespace Grouping

variable {g g' : Grouping} {fields : Role → List Field} {role : Role}

/-- A grouping has the fields of each role as the components of its group, no group for a role
without fields, and no group without a role. -/
structure Holds (g : Grouping) (fields : Role → List Field) : Prop where
  group : ∀ role, g.groups.get? role.ordinal =
    if (fields role).isEmpty then none else some ((fields role).map Field.bytes)
  others : ∀ k, (∀ role : Role, k ≠ role.ordinal) → g.groups.get? k = none

theorem Holds.components_eq (h : g.Holds fields) (role : Role) :
    g.components role = (fields role).map Field.bytes := by
  rw [components, h.group]
  cases fields role <;> rfl

theorem exists_add (values : List (Option Bytes)) (hfree : g.groups.get? role.ordinal = none) :
    ∃ g', g.add role values = .ok g' := by
  unfold add addOrdinal
  rw [if_neg (by simp [GroupMap.contains, hfree])]
  dsimp only
  split_ifs <;> exact ⟨_, rfl⟩

/-- Adds the fields of roles, group by group. -/
def addEach (fields : Role → List Field) (roles : List Role) (g : Grouping) :
    Except Error Grouping :=
  roles.foldlM (fun g role => g.add role (((fields role).map Field.bytes).map some)) g

/-- Groups can be added one after another if their roles differ and none of them is present. -/
theorem exists_addEach (fields : Role → List Field) {roles : List Role} (hnodup : roles.Nodup)
    (hfree : ∀ role ∈ roles, g.groups.get? role.ordinal = none) :
    ∃ g', g.addEach fields roles = .ok g' ∧
      (∀ role ∈ roles, g'.groups.get? role.ordinal =
        if (fields role).isEmpty then none else some ((fields role).map Field.bytes)) ∧
      ∀ k, (∀ role ∈ roles, k ≠ role.ordinal) → g'.groups.get? k = g.groups.get? k := by
  induction roles generalizing g with
  | nil => exact ⟨g, rfl, by simp, by simp⟩
  | cons role rest ih =>
    obtain ⟨hrole, hnodup⟩ := List.nodup_cons.mp hnodup
    have hne : ∀ r ∈ rest, r.ordinal ≠ role.ordinal := by
      intro r hr heq
      exact hrole (Role.ordinal_inj heq ▸ hr)
    have hvacant := hfree role List.mem_cons_self
    obtain ⟨g₁, h₁⟩ := exists_add (((fields role).map Field.bytes).map some) hvacant
    have hfree₁ : ∀ r ∈ rest, g₁.groups.get? r.ordinal = none := by
      intro r hr
      rw [get?_of_add_ne h₁ (hne r hr)]
      exact hfree r (List.mem_cons_of_mem _ hr)
    obtain ⟨g', h', hgroups, hothers⟩ := ih hnodup hfree₁
    refine ⟨g', ?_, ?_, ?_⟩
    · rw [addEach, List.foldlM_cons, h₁]
      exact h'
    · intro r hr
      rcases List.mem_cons.mp hr with rfl | hr
      · rw [hothers _ fun s hs heq => hne s hs heq.symm, get?_of_add h₁, hvacant,
          reduceOption_map_some]
        cases fields r <;> simp
      · exact hgroups r hr
    · intro k hk
      rw [hothers k fun r hr => hk r (List.mem_cons_of_mem _ hr),
        get?_of_add_ne h₁ (hk role List.mem_cons_self)]

theorem exists_addEach_all (fields : Role → List Field) :
    ∃ g, empty.addEach fields Role.all = .ok g ∧ g.Holds fields := by
  have hfree : ∀ role ∈ Role.all, empty.groups.get? role.ordinal = none := fun _ _ => rfl
  obtain ⟨g, hg, hgroups, hothers⟩ := exists_addEach fields (by decide) hfree
  refine ⟨g, hg, fun role => hgroups role (Role.mem_all role), fun k hk => ?_⟩
  rw [hothers k fun role _ => hk role]
  rfl

end Grouping

/-! ## Padding a group -/

namespace Padding

variable {p : Padding} {role : Role} {target : Nat}

theorem checkSize_of_target (h : p.target? role = some target) (count : Nat) :
    p.checkSize role count
      = if target < count then .error (.oversizedGroup role count target) else .ok () := by
  rw [checkSize, h]

/-- A list is refused or extended. -/
theorem padComponents_of_target (h : p.target? role = some target) (components : List Bytes)
    (filler : Bytes) : p.padComponents role components filler
      = if target < components.length then .error (.oversizedGroup role components.length target)
        else .ok (components.rightpad target filler) := by
  rw [padComponents, checkSize_of_target h, h]
  split_ifs <;> rfl

end Padding

/-- Whether a group can be padded is decided by its size alone. -/
theorem Padding.padGroup_cases (padding : Padding) (g : Grouping) {role : Role} (filler : Bytes)
    (hpaddable : role.isPaddable = true) :
    (∃ e, padding.checkSize role (g.components role).length = .error e ∧
      padding.padGroup g role filler = .error e) ∨
    (padding.checkSize role (g.components role).length = .ok () ∧
      ∃ g', padding.padGroup g role filler = .ok g') := by
  unfold padGroup
  rw [if_neg (by simp [hpaddable])]
  split
  · next habsent =>
    rw [Grouping.components_eq_nil_iff.mpr habsent]
    refine .inr ⟨?_, g, rfl⟩
    unfold checkSize
    split <;> simp
  · next components hpresent =>
    have hcomponents : g.components role = components := by
      rw [Grouping.components, hpresent]
      rfl
    rw [hcomponents]
    cases hsize : padding.checkSize role components.length with
    | error e => exact .inl ⟨e, rfl, rfl⟩
    | ok _ => exact .inr ⟨rfl, _, rfl⟩

namespace Grouping

variable {g g' : Grouping} {fields : Role → List Field} {padding : Padding}

theorem Holds.of_padGroup {role : Role} {size : UInt64} {filler : Field} (h : g.Holds fields)
    (hpad : padding.padGroup g role filler.bytes = .ok g')
    (htarget : padding.target? role = some size.toNat) : g'.Holds
      (Function.update fields role ((PaddingTarget.mk size filler).extend (fields role))) := by
  refine ⟨fun r => ?_, fun k hk => ?_⟩
  · rw [Padding.get?_of_padGroup hpad, htarget, h.group]
    by_cases hr : r = role
    · subst hr
      cases fields r <;> simp [PaddingTarget.extend, PaddingTarget.fill, List.rightpad]
    · have hne : r.ordinal ≠ role.ordinal := fun heq => hr (Role.ordinal_inj heq)
      simp [hr, hne]
  · rw [Padding.get?_of_padGroup hpad, if_neg (hk role), h.others k hk]

/-- A group that is larger than its target is refused. Any other can be padded, and then it is
extended and nothing else is changed. -/
theorem Holds.padGroup_cases (h : g.Holds fields) (padding : Padding) (role : Role) (size : UInt64)
    (filler : Field) {count : Nat} (hpaddable : role.isPaddable = true)
    (htarget : padding.target? role = some size.toNat) (hcount : (fields role).length = count) :
    (size.toNat < count ∧
      padding.padGroup g role filler.bytes = .error (.oversizedGroup role count size.toNat)) ∨
    (count ≤ size.toNat ∧ ∃ g', padding.padGroup g role filler.bytes = .ok g' ∧ g'.Holds
      (Function.update fields role ((PaddingTarget.mk size filler).extend (fields role)))) := by
  have hsize : padding.checkSize role (g.components role).length
      = if size.toNat < count then .error (.oversizedGroup role count size.toNat) else .ok () := by
    rw [h.components_eq, List.length_map, hcount, Padding.checkSize_of_target htarget]
  rcases padding.padGroup_cases g filler.bytes hpaddable
    with ⟨e, hcheck, hpad⟩ | ⟨hcheck, g', hpad⟩
  · rw [hsize] at hcheck
    split_ifs at hcheck with hlt
    exact .inl ⟨hlt, by rw [hpad, Except.error.inj hcheck]⟩
  · rw [hsize] at hcheck
    split_ifs at hcheck with hlt
    exact .inr ⟨Nat.le_of_not_lt hlt, g', hpad, h.of_padGroup hpad htarget⟩

end Grouping

/-! ## The view of a body -/

namespace FullView

variable {body : Body} {command : Command} {notary : Party} {padding : Padding} {salt : Salt}
  {digests : DigestPair}

/-- The groups of a body before padding hold its fields, the outputs in the order of their tags. -/
theorem exists_unpaddedGroups (body : Body) (command : Command) (notary : Party) :
    ∃ g, unpaddedGroups .binary body command notary
        (body.outputs.map fun o => ⟨o.discriminant, (Field.output o).bytes⟩)
        ((command.signers.map .signer).map Field.bytes) = .ok g ∧
      g.Holds (body.fields command notary body.inputs (sortByKey (·.discriminant) body.outputs)
        body.references) := by
  let sorted := sortByKey (·.discriminant) body.outputs
  have htagged : (sorted.map fun o => TaggedComponent.mk o.discriminant (Field.output o).bytes).map
      (fun c => some c.bytes) = ((sorted.map .output).map Field.bytes).map some := by
    simp
  obtain ⟨g, hg, hholds⟩ := Grouping.exists_addEach_all
    (body.fields command notary body.inputs sorted body.references)
  refine ⟨g, ?_, hholds⟩
  rw [← hg]
  unfold unpaddedGroups Grouping.addTagged
  simp only [Serializer.components_binary, reduceOption_map_some, sortByKey_map, htagged, sorted,
    Grouping.addEach, Role.all, List.foldlM_cons, List.foldlM_nil, bind_pure]
  rfl

/-- What is left of building once the fields are grouped. -/
theorem build_eq_of_shape {g : Grouping} (hshape : body.shape = .ok (command, notary))
    (hg : unpaddedGroups .binary body command notary
      (body.outputs.map fun o => ⟨o.discriminant, (Field.output o).bytes⟩)
      ((command.signers.map .signer).map Field.bytes) = .ok g) :
    build body padding salt digests .binary = do
      let g ← padding.padGroup g .inputs (Field.stateRef padding.inputs.filler).bytes
      let g ← padding.padGroup g .outputs (Field.output padding.outputs.filler).bytes
      let g ← padding.padGroup g .references (Field.stateRef padding.references.filler).bytes
      let witnessSigners ← padding.padComponents .signers
        ((command.signers.map .signer).map Field.bytes) (Field.signer padding.signers.filler).bytes
      return assemble g salt digests witnessSigners := by
  have houtputs : body.outputs.mapM (taggedOutput .binary)
      = .ok (body.outputs.map fun o => ⟨o.discriminant, (Field.output o).bytes⟩) :=
    List.mapM_pure
  unfold build
  rw [hshape]
  simp only [Serializer.components_binary, houtputs]
  show (unpaddedGroups .binary body command notary _ _ >>= fun g => _) = _
  rw [hg]
  rfl

/-- The signers for the proof witness are refused or extended. -/
theorem padComponents_signers_cases (padding : Padding) (command : Command) :
    (padding.signers.size.toNat < command.signers.length ∧
      padding.padComponents .signers ((command.signers.map .signer).map Field.bytes)
          (Field.signer padding.signers.filler).bytes
        = .error (.oversizedGroup .signers command.signers.length padding.signers.size.toNat)) ∨
    (command.signers.length ≤ padding.signers.size.toNat ∧
      padding.padComponents .signers ((command.signers.map .signer).map Field.bytes)
          (Field.signer padding.signers.filler).bytes
        = .ok ((padding.signers.fill command.signers).map fun k => (Field.signer k).bytes)) := by
  have htarget : padding.target? .signers = some padding.signers.size.toNat := rfl
  rw [Padding.padComponents_of_target htarget, List.length_map, List.length_map]
  rcases Nat.lt_or_ge padding.signers.size.toNat command.signers.length with hlt | hle
  · exact .inl ⟨hlt, if_pos hlt⟩
  · refine .inr ⟨hle, ?_⟩
    rw [if_neg (Nat.not_lt.mpr hle), List.map_map, PaddingTarget.map_fill]
    simp only [PaddingTarget.fill, List.length_map, List.rightpad]
    rfl

/-- A view has what a body has for each role, with its inputs, outputs and references extended to
their target sizes and the outputs in the order of their tags; for the proof witness it has the
signers, extended as well. -/
structure Carries (v : FullView) (body : Body) (command : Command) (notary : Party)
    (padding : Padding) : Prop where
  groups : ∃ outputs, StablySorted (·.discriminant) body.outputs outputs ∧
    v.groups.Holds (body.fields command notary (padding.inputs.extend body.inputs)
      (padding.outputs.extend outputs) (padding.references.extend body.references))
  padded : ∀ role target, role.isPaddable = true → padding.target? role = some target →
    (v.groups.components role).length = 0 ∨ (v.groups.components role).length = target
  witnessSigners : v.witnessSigners
    = (padding.signers.fill command.signers).map fun key => (Field.signer key).bytes
  witness_length : v.witnessSigners.length = padding.signers.size.toNat

/-- Groups that hold the fields of a body with its lists extended make a view that carries it, if no
list is beyond its target. -/
theorem carries_assemble {g : Grouping} (hfits : body.oversized? command padding = none)
    (hholds : g.Holds (body.fields command notary (padding.inputs.extend body.inputs)
      (padding.outputs.extend (sortByKey (·.discriminant) body.outputs))
      (padding.references.extend body.references))) :
    (assemble g salt digests ((padding.signers.fill command.signers).map fun key =>
      (Field.signer key).bytes)).Carries body command notary padding := by
  obtain ⟨hinputs, houtputs, hreferences, hsigners⟩ := Body.oversized?_eq_none_iff.mp hfits
  refine ⟨⟨_, stablySorted_sortByKey _ _, hholds⟩, ?_, rfl, ?_⟩
  · intro role target hpaddable htarget
    show (g.components role).length = 0 ∨ (g.components role).length = target
    rw [hholds.components_eq, List.length_map]
    cases role with
    | inputs =>
      obtain rfl := Option.some.inj htarget
      simpa [Body.fields] using PaddingTarget.length_extend hinputs
    | outputs =>
      obtain rfl := Option.some.inj htarget
      rw [← length_sortByKey (·.discriminant)] at houtputs
      simpa [Body.fields] using PaddingTarget.length_extend houtputs
    | references =>
      obtain rfl := Option.some.inj htarget
      simpa [Body.fields] using PaddingTarget.length_extend hreferences
    | commands | attachments | notary | timeWindow | signers | parameters => cases hpaddable
  · show List.length (List.map _ _) = _
    rw [List.length_map, PaddingTarget.length_fill hsigners]

/-- A body of the required shape becomes a view unless one of its lists outgrows its target, and the
first of these is named. -/
theorem build_cases (padding : Padding) (salt : Salt) (digests : DigestPair)
    (hshaped : body.Shaped command notary) :
    (∃ role count target, body.oversized? command padding = some (role, count, target) ∧
      build body padding salt digests .binary = .error (.oversizedGroup role count target)) ∨
    (body.oversized? command padding = none ∧ ∃ v, build body padding salt digests .binary = .ok v ∧
      v.salt = salt ∧ v.digests = digests ∧ v.Carries body command notary padding) := by
  obtain ⟨g, hg, hholds⟩ := exists_unpaddedGroups body command notary
  have hbuild : build body padding salt digests .binary = _ :=
    build_eq_of_shape hshaped.shape_eq hg
  -- the groups are padded one after another, and the first that is too large is the error
  rcases hholds.padGroup_cases padding .inputs padding.inputs.size
    (.stateRef padding.inputs.filler) rfl rfl (List.length_map _)
    with ⟨hlt, h₁⟩ | ⟨hinputs, g₁, h₁, hholds₁⟩
  · refine .inl ⟨.inputs, body.inputs.length, padding.inputs.size.toNat, ?_, ?_⟩
    · simp [Body.oversized?, Body.sized, hlt]
    · simp only [hbuild, h₁, bind, Except.bind]
  rcases hholds₁.padGroup_cases padding .outputs padding.outputs.size
    (.output padding.outputs.filler) rfl rfl
    ((List.length_map _).trans (length_sortByKey _ _))
    with ⟨hlt, h₂⟩ | ⟨houtputs, g₂, h₂, hholds₂⟩
  · refine .inl ⟨.outputs, body.outputs.length, padding.outputs.size.toNat, ?_, ?_⟩
    · simp [Body.oversized?, Body.sized, hinputs, hlt]
    · simp only [hbuild, h₁, h₂, bind, Except.bind]
  rcases hholds₂.padGroup_cases padding .references padding.references.size
    (.stateRef padding.references.filler) rfl rfl (List.length_map _)
    with ⟨hlt, h₃⟩ | ⟨hreferences, g₃, h₃, hholds₃⟩
  · refine .inl ⟨.references, body.references.length, padding.references.size.toNat, ?_, ?_⟩
    · simp [Body.oversized?, Body.sized, hinputs, houtputs, hlt]
    · simp only [hbuild, h₁, h₂, h₃, bind, Except.bind]
  have hfields : g₃.Holds (body.fields command notary (padding.inputs.extend body.inputs)
      (padding.outputs.extend (sortByKey (·.discriminant) body.outputs))
      (padding.references.extend body.references)) := by
    convert hholds₃ using 1
    funext role
    cases role <;> simp [Body.fields, PaddingTarget.map_extend]
  rcases padComponents_signers_cases padding command with ⟨hlt, h₄⟩ | ⟨hsigners, h₄⟩
  · refine .inl ⟨.signers, command.signers.length, padding.signers.size.toNat, ?_, ?_⟩
    · simp [Body.oversized?, Body.sized, hinputs, houtputs, hreferences, hlt]
    · simp only [hbuild, h₁, h₂, h₃, h₄, bind, Except.bind]
  have hview : build body padding salt digests .binary = .ok (assemble g₃ salt digests
      ((padding.signers.fill command.signers).map fun key => (Field.signer key).bytes)) := by
    simp only [hbuild, h₁, h₂, h₃, h₄, bind, Except.bind]
    rfl
  have hfits := Body.oversized?_eq_none_iff.mpr ⟨hinputs, houtputs, hreferences, hsigners⟩
  exact .inr ⟨hfits, _, hview, rfl, rfl, carries_assemble hfits hfields⟩

/-- A body that is accepted has the required shape, and its view carries its contents. -/
theorem exists_carries_of_build {v : FullView}
    (h : build body padding salt digests .binary = .ok v) : ∃ command notary,
      body.Shaped command notary ∧ body.oversized? command padding = none ∧ v.salt = salt ∧
      v.digests = digests ∧ v.Carries body command notary padding := by
  rcases body.shape_cases with ⟨command, notary, hshaped, -⟩ | ⟨-, fault, hshape⟩
  · rcases build_cases padding salt digests hshaped with
      ⟨role, count, target, -, herror⟩ | ⟨hfits, w, hw, hsalt, hdigests, hcarries⟩
    · rw [herror] at h
      cases h
    · obtain rfl : w = v := Except.ok.inj (hw.symm.trans h)
      exact ⟨command, notary, hshaped, hfits, hsalt, hdigests, hcarries⟩
  · rw [build, hshape] at h
    cases h

/-- The groups of a view, with the outputs in the one order that they can have. -/
theorem Carries.holds {v : FullView}
    (h : v.Carries body command notary padding) :
    v.groups.Holds (body.fields command notary (padding.inputs.extend body.inputs)
      (padding.outputs.extend (sortByKey (·.discriminant) body.outputs))
      (padding.references.extend body.references)) := by
  obtain ⟨outputs, hsorted, hholds⟩ := h.groups
  rwa [hsorted.eq_sortByKey] at hholds

/-! ## What a verifier gets to see -/

/-- What a view that was built from a body has, as far as a verifier gets to see it: states of the
body or filler, as many as there is room for, and groups of at most one component. -/
structure BuiltFrom (v : FullView) (body : Body) (padding : Padding) : Prop where
  inputs : ∀ component ∈ v.groups.components .inputs,
    component = (Field.stateRef padding.inputs.filler).bytes ∨
      ∃ r ∈ body.inputs, (Field.stateRef r).bytes = component
  references : ∀ component ∈ v.groups.components .references,
    component = (Field.stateRef padding.references.filler).bytes ∨
      ∃ r ∈ body.references, (Field.stateRef r).bytes = component
  padded : ∀ role target, role.isPaddable = true → padding.target? role = some target →
    (v.groups.components role).length = 0 ∨ (v.groups.components role).length = target
  single : ∀ role : Role, role.visibility = .disclosed → role.isPaddable = false →
    (v.groups.components role).length ≤ 1

theorem builtFrom_of_build {v : FullView} (h : build body padding salt digests .binary = .ok v) :
    v.BuiltFrom body padding ∧ v.digests = digests := by
  obtain ⟨command, notary, -, -, -, hdigests, hcarries⟩ := exists_carries_of_build h
  have hcomponents := hcarries.holds.components_eq
  have hstates {padded states : List StateRef} {filler : StateRef} {component : Bytes}
      (hmem : component ∈ (padded.map .stateRef).map Field.bytes)
      (hpadded : ∀ r ∈ padded, r = filler ∨ r ∈ states) :
      component = (Field.stateRef filler).bytes ∨
        ∃ r ∈ states, (Field.stateRef r).bytes = component := by
    rw [List.map_map, List.mem_map] at hmem
    obtain ⟨r, hr, rfl⟩ := hmem
    rcases hpadded r hr with rfl | hstate
    · exact .inl rfl
    · exact .inr ⟨r, hstate, rfl⟩
  refine ⟨⟨fun component hmem => ?_, fun component hmem => ?_, hcarries.padded,
    fun role hdisclosed hplain => ?_⟩, hdigests⟩
  · exact hstates (hcomponents .inputs ▸ hmem) fun r => PaddingTarget.mem_extend
  · exact hstates (hcomponents .references ▸ hmem) fun r => PaddingTarget.mem_extend
  · rw [hcomponents, List.length_map]
    cases role with
    | notary => exact Nat.le_refl 1
    | timeWindow => cases hwindow : body.timeWindow? <;> simp [Body.fields, hwindow]
    | parameters => cases hhash : body.parametersHash? <;> simp [Body.fields, hhash]
    | inputs | references => cases hplain
    | outputs | commands | attachments | signers => cases hdisclosed

/-! ## The outcome of building -/

/-- The groups of a view that was built from a body make a view again, with the same id. -/
theorem exists_ofGroups_of_build {z : Serializer} {v : FullView}
    (h : build body padding salt digests z = .ok v) :
    ∃ w, ofGroups v.groups v.salt v.digests = .ok w ∧ w.id = v.id := by
  obtain ⟨⟨value, hcommand⟩, ⟨party, hnotary⟩, -⟩ := build_spec h
  have hcount : (v.groups.components .commands).length = 1 := by
    simp [Grouping.components, hcommand]
  have hpresent : v.groups.groups.contains Role.notary.ordinal = true := by
    simp [GroupMap.contains, hnotary]
  refine ⟨assemble v.groups v.salt v.digests (v.groups.components .signers), ?_, ?_⟩
  · simp [ofGroups, hcount, hpresent]
  · exact (congrArg CommitmentTree.root v.tree_eq_build).symm

/-- A body is a fault of configuration exactly if it does not have the required shape. -/
theorem build_configuration_iff : (∃ fault,
    build body padding salt digests .binary = .error (.configuration fault)) ↔
      ¬ ∃ command notary, body.Shaped command notary := by
  rcases body.shape_cases with ⟨command, notary, hshaped, -⟩ | ⟨hunshaped, fault, hshape⟩
  · refine iff_of_false ?_ (not_not.mpr ⟨command, notary, hshaped⟩)
    rintro ⟨fault, hfault⟩
    rcases build_cases padding salt digests hshaped with
      ⟨role, count, target, -, herror⟩ | ⟨-, v, hv, -⟩
    · simp [herror] at hfault
    · simp [hv] at hfault
  · refine iff_of_true ⟨fault, ?_⟩ hunshaped
    rw [build, hshape]
    rfl

/-- What becomes of a body. Without the required shape it is a fault of configuration. Otherwise
the first list that outgrows its target is named, or the view has what the body has, and its groups
alone make a view with the same id. -/
theorem build_outcome (body : Body) (padding : Padding) (salt : Salt) (digests : DigestPair) :
    ((∃ fault, build body padding salt digests .binary = .error (.configuration fault)) ↔
      ¬ ∃ command notary, body.Shaped command notary) ∧
    ∀ command notary, body.Shaped command notary →
      (∀ role count target, body.oversized? command padding = some (role, count, target) →
        build body padding salt digests .binary = .error (.oversizedGroup role count target)) ∧
      (body.oversized? command padding = none → ∃ v,
        build body padding salt digests .binary = .ok v ∧ v.salt = salt ∧ v.digests = digests ∧
        v.Carries body command notary padding ∧
        ∃ w, ofGroups v.groups salt digests = .ok w ∧ w.id = v.id) := by
  refine ⟨build_configuration_iff, fun command notary hshaped => ?_⟩
  rcases build_cases padding salt digests hshaped with
    ⟨role, count, target, hover, herror⟩ | ⟨hfits, v, hv, hsalt, hdigests, hcarries⟩
  · constructor
    · intro role' count' target' hover'
      rw [hover] at hover'
      obtain ⟨rfl, rfl, rfl⟩ := hover'
      exact herror
    · intro hfits
      simp [hover] at hfits
  · constructor
    · intro role count target hover
      simp [hfits] at hover
    · intro _
      have hagain := exists_ofGroups_of_build hv
      rw [hsalt, hdigests] at hagain
      exact ⟨v, hv, hsalt, hdigests, hcarries, hagain⟩

/-- A body whose outputs are not in the order of their tags. -/
def mixedBody : Body where
  inputs := [⟨Hash.zero, 1⟩]
  outputs := [⟨2, [7]⟩, ⟨1, [8]⟩]
  references := []
  commands := [⟨1, [], [[5]]⟩]
  attachments := [Hash.zero]
  notary? := some ⟨"", [5]⟩
  timeWindow? := some ⟨some 1, none⟩
  parametersHash? := none

/-- With room for two outputs that body becomes a view, and with room for one it is refused. -/
theorem build_outcome_mixedBody :
    (∃ v, build mixedBody plainPadding .sample .standard .binary = .ok v ∧
      v.Carries mixedBody ⟨1, [], [[5]]⟩ ⟨"", [5]⟩ plainPadding) ∧
    build mixedBody { plainPadding with outputs := ⟨1, ⟨0, []⟩⟩ } .sample .standard .binary
      = .error (.oversizedGroup .outputs 2 1) := by
  have hshaped : mixedBody.Shaped ⟨1, [], [[5]]⟩ ⟨"", [5]⟩ := by
    refine ⟨rfl, rfl, fun w hw => ?_⟩
    obtain rfl : _ = w := Option.some.inj hw
    exact ⟨by simp, by simp⟩
  constructor
  · obtain ⟨-, hbuild⟩ := build_outcome mixedBody plainPadding .sample .standard
    obtain ⟨v, hv, -, -, hcarries, -⟩ := (hbuild _ _ hshaped).2 (by decide)
    exact ⟨v, hv, hcarries⟩
  · obtain ⟨-, hbuild⟩ :=
      build_outcome mixedBody { plainPadding with outputs := ⟨1, ⟨0, []⟩⟩ } .sample .standard
    exact (hbuild _ _ hshaped).1 _ _ _ (by decide)

end FullView

end VeiledLedger
