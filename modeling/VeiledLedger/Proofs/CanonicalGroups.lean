import VeiledLedger.Proofs.BodyContents
import VeiledLedger.Proofs.FieldBytes

set_option autoImplicit false

/-! # Bodies with the same groups

Under one padding, two bodies get the same groups exactly if they say the same (`Body.SameContent`):
inputs, outputs and references count with their filler, and outputs in the order of their tags. The
groups hold the bytes of fields role by role, and within a role bytes determine fields, so nothing is
confused. Two outputs with different tags can be exchanged as long as neither is moved past another
output with its own tag. -/

namespace VeiledLedger

/-! ## Contents -/

theorem PaddingTarget.extend_inj {α : Type} {t : PaddingTarget α} {l₁ l₂ : List α}
    (h : l₁.length = l₂.length) : t.extend l₁ = t.extend l₂ ↔ l₁ = l₂ := by
  constructor
  · intro heq
    cases l₁ with
    | nil => exact (List.length_eq_zero_iff.mp h.symm).symm
    | cons a l₁ =>
      cases l₂ with
      | nil => simp at h
      | cons b l₂ => exact (List.append_inj heq h).1
  · intro heq
    rw [heq]

/-- Two bodies say the same under a padding. A list that is padded counts with its filler, so an
entry that equals the filler need not be written out at the end of a list. -/
structure Body.SameContent (padding : Padding) (b₁ b₂ : Body) : Prop where
  commands : b₁.commands = b₂.commands
  attachments : b₁.attachments = b₂.attachments
  notary : b₁.notary? = b₂.notary?
  timeWindow : b₁.timeWindow? = b₂.timeWindow?
  parametersHash : b₁.parametersHash? = b₂.parametersHash?
  inputs : padding.inputs.extend b₁.inputs = padding.inputs.extend b₂.inputs
  outputs : padding.outputs.extend (sortByKey (·.discriminant) b₁.outputs)
    = padding.outputs.extend (sortByKey (·.discriminant) b₂.outputs)
  references : padding.references.extend b₁.references = padding.references.extend b₂.references

/-! ## Groups of equal bytes -/

namespace Grouping

variable {g g₁ g₂ : Grouping} {fields₁ fields₂ : Role → List Field}

/-- Groupings are equal exactly if the fields of each role have the same bytes. -/
theorem Holds.eq_iff (h₁ : g₁.Holds fields₁) (h₂ : g₂.Holds fields₂) :
    g₁ = g₂ ↔ ∀ role, (fields₁ role).map Field.bytes = (fields₂ role).map Field.bytes := by
  constructor
  · intro heq role
    rw [← h₁.components_eq, ← h₂.components_eq, heq]
  · intro hbytes
    have hlookup (role : Role) : g₁.groups.get? role.ordinal = g₂.groups.get? role.ordinal := by
      have hempty : (fields₁ role).isEmpty = (fields₂ role).isEmpty := by
        rw [← List.isEmpty_map (f := Field.bytes), hbytes, List.isEmpty_map]
      rw [h₁.group, h₂.group, hbytes, hempty]
    refine ext_groups (GroupMap.ext_get? fun k => ?_)
    by_cases hk : ∃ role : Role, k = role.ordinal
    · obtain ⟨role, rfl⟩ := hk
      exact hlookup role
    · rw [h₁.others k fun role heq => hk ⟨role, heq⟩, h₂.others k fun role heq => hk ⟨role, heq⟩]

end Grouping

theorem eq_of_toList_eq {α : Type} {a? b? : Option α} (h : a?.toList = b?.toList) :
    a? = b? := by
  simpa using congrArg List.head? h

/-- Lists of values are equal if their fields have the same bytes and these determine the values. -/
theorem eq_of_map_bytes_eq {α : Type} (f : α → Field) {l₁ l₂ : List α}
    (hf : ∀ a b, (f a).bytes = (f b).bytes → a = b)
    (h : (l₁.map f).map Field.bytes = (l₂.map f).map Field.bytes) : l₁ = l₂ := by
  rw [List.map_map, List.map_map] at h
  exact List.map_injective_iff.mpr (fun a b => hf a b) h

namespace FullView

variable {padding : Padding} {b₁ b₂ : Body} {s₁ s₂ : Salt} {p₁ p₂ : DigestPair} {v₁ v₂ : FullView}

/-- Under one padding, views have the same groups exactly if their bodies say the same. The lengths
of the notaries' names must be lengths that can be written. -/
theorem groups_eq_iff_sameContent (h₁ : build b₁ padding s₁ p₁ .binary = .ok v₁)
    (h₂ : build b₂ padding s₂ p₂ .binary = .ok v₂)
    (hname₁ : ∀ party, b₁.notary? = some party → Wire.Schema.text.Fits party.name)
    (hname₂ : ∀ party, b₂.notary? = some party → Wire.Schema.text.Fits party.name) :
    v₁.groups = v₂.groups ↔ Body.SameContent padding b₁ b₂ := by
  obtain ⟨c₁, n₁, hshaped₁, -, -, -, hcarries₁⟩ := exists_carries_of_build h₁
  obtain ⟨c₂, n₂, hshaped₂, -, -, -, hcarries₂⟩ := exists_carries_of_build h₂
  rw [hcarries₁.holds.eq_iff hcarries₂.holds]
  constructor
  · intro h
    have hcommand : (Field.command c₁).bytes = (Field.command c₂).bytes := by
      simpa [Body.fields] using h .commands
    have hnotary : (Field.notary n₁).bytes = (Field.notary n₂).bytes := by
      simpa [Body.fields] using h .notary
    have hsigners : c₁.signers = c₂.signers :=
      eq_of_map_bytes_eq .signer (fun _ _ => Wire.Binary.eq_of_encode_bytes_eq) (h .signers)
    obtain ⟨htag, hdata⟩ := command_value_eq_of_bytes_eq hcommand
    obtain rfl : c₁ = c₂ := by
      cases c₁
      cases c₂
      simp_all
    obtain rfl : n₁ = n₂ := notary_eq_of_bytes_eq (hname₁ _ hshaped₁.notary_eq)
      (hname₂ _ hshaped₂.notary_eq) hnotary
    exact {
      commands := hshaped₁.commands_eq.trans hshaped₂.commands_eq.symm
      attachments := eq_of_map_bytes_eq .attachment (fun _ _ => Hash.ext) (h .attachments)
      notary := hshaped₁.notary_eq.trans hshaped₂.notary_eq.symm
      timeWindow := eq_of_toList_eq
        (eq_of_map_bytes_eq .timeWindow (fun _ _ => timeWindow_eq_of_bytes_eq) (h .timeWindow))
      parametersHash := eq_of_toList_eq
        (eq_of_map_bytes_eq .parametersHash (fun _ _ => Hash.ext) (h .parameters))
      inputs := eq_of_map_bytes_eq .stateRef (fun _ _ => stateRef_eq_of_bytes_eq) (h .inputs)
      outputs := eq_of_map_bytes_eq .output (fun _ _ => output_eq_of_bytes_eq) (h .outputs)
      references :=
        eq_of_map_bytes_eq .stateRef (fun _ _ => stateRef_eq_of_bytes_eq) (h .references) }
  · intro h role
    obtain rfl : c₁ = c₂ := by
      simpa [hshaped₁.commands_eq, hshaped₂.commands_eq] using h.commands
    obtain rfl : n₁ = n₂ := by
      simpa [hshaped₁.notary_eq, hshaped₂.notary_eq] using h.notary
    cases role <;> simp [Body.fields, h.attachments, h.timeWindow, h.parametersHash, h.inputs,
      h.outputs, h.references]

/-! ## Rearranged outputs -/

theorem id_eq_of_groups_eq (hgroups : v₁.groups = v₂.groups) (hsalt : v₁.salt = v₂.salt)
    (hdigests : v₁.digests = v₂.digests) : v₁.id = v₂.id := by
  have htree : v₁.tree = v₂.tree := by
    rw [v₁.tree_eq_build, v₂.tree_eq_build, hgroups, hsalt, hdigests]
  exact congrArg CommitmentTree.root htree

/-- A body with other outputs of the same number is accepted as well, and it is noticed exactly if
they come in another order once they are sorted. -/
theorem exists_build_with_outputs {body : Body} {salt : Salt} {digests : DigestPair} {v : FullView}
    (h : build body padding salt digests .binary = .ok v) (outputs : List Output)
    (hlength : outputs.length = body.outputs.length) : ∃ w,
      build { body with outputs } padding salt digests .binary = .ok w ∧
      (w.groups = v.groups ↔
        sortByKey (·.discriminant) outputs = sortByKey (·.discriminant) body.outputs) ∧
      (w.groups = v.groups → w.id = v.id) := by
  obtain ⟨command, notary, hshaped, hfits, hsalt, hdigests, hcarries⟩ := exists_carries_of_build h
  have hshaped' : Body.Shaped { body with outputs } command notary :=
    ⟨hshaped.commands_eq, hshaped.notary_eq, hshaped.window_valid⟩
  have hfits' : Body.oversized? { body with outputs } command padding = none := by
    rw [← hfits]
    simp [Body.oversized?, Body.sized, hlength]
  rcases build_cases padding salt digests hshaped' with
    ⟨role, count, target, hover, -⟩ | ⟨-, w, hw, hwsalt, hwdigests, hwcarries⟩
  · rw [hfits'] at hover
    cases hover
  refine ⟨w, hw, ?_, fun hgroups => ?_⟩
  · rw [hwcarries.holds.eq_iff hcarries.holds]
    constructor
    · intro hbytes
      have hextended := eq_of_map_bytes_eq .output (fun _ _ => output_eq_of_bytes_eq)
        (hbytes .outputs)
      exact (PaddingTarget.extend_inj (by simp [hlength])).mp hextended
    · intro hsorted role
      cases role <;> simp [Body.fields, hsorted]
  · exact id_eq_of_groups_eq hgroups (hwsalt.trans hsalt.symm) (hwdigests.trans hdigests.symm)

/-- Two views under one padding have the same groups exactly if their bodies say the same. Exchanging
two outputs with different tags keeps the groups, and with them the id, exactly if no output between
the two has the tag of one of them without being equal to it. -/
theorem build_canonical (h₁ : build b₁ padding s₁ p₁ .binary = .ok v₁)
    (h₂ : build b₂ padding s₂ p₂ .binary = .ok v₂)
    (hname₁ : ∀ party, b₁.notary? = some party → Wire.Schema.text.Fits party.name)
    (hname₂ : ∀ party, b₂.notary? = some party → Wire.Schema.text.Fits party.name) :
    (v₁.groups = v₂.groups ↔ Body.SameContent padding b₁ b₂) ∧
    ∀ before x between y after, b₁.outputs = before ++ x :: (between ++ y :: after) →
      x.discriminant ≠ y.discriminant → ∃ w,
        build { b₁ with outputs := before ++ y :: (between ++ x :: after) } padding s₁ p₁ .binary
          = .ok w ∧
        (w.groups = v₁.groups ↔ ∀ z ∈ between, (z.discriminant = x.discriminant → z = x) ∧
          (z.discriminant = y.discriminant → z = y)) ∧
        (w.groups = v₁.groups → w.id = v₁.id) := by
  refine ⟨groups_eq_iff_sameContent h₁ h₂ hname₁ hname₂, ?_⟩
  intro before x between y after houtputs hne
  have hlength : (before ++ y :: (between ++ x :: after)).length = b₁.outputs.length := by
    simp [houtputs]
  obtain ⟨w, hw, hgroups, hid⟩ := exists_build_with_outputs h₁ _ hlength
  refine ⟨w, hw, ?_, hid⟩
  rw [hgroups, houtputs, eq_comm]
  exact sortByKey_exchange_iff hne

/-- A body of one command and a notary with given outputs. -/
def bodyOfOutputs (outputs : List Output) : Body := { plainBody with outputs }

def paddingOfThree : Padding := { plainPadding with outputs := ⟨3, ⟨0xFFFFFFFF, []⟩⟩ }

/-- Neighbours with different tags can be exchanged. -/
theorem build_canonical_neighbours : ∃ v w,
    build (bodyOfOutputs [⟨2, [1]⟩, ⟨1, [2]⟩]) paddingOfThree .sample .standard .binary = .ok v ∧
    build (bodyOfOutputs [⟨1, [2]⟩, ⟨2, [1]⟩]) paddingOfThree .sample .standard .binary = .ok w ∧
    w.groups = v.groups ∧ w.id = v.id := by
  have hname : ∀ party, (bodyOfOutputs [⟨2, [1]⟩, ⟨1, [2]⟩]).notary? = some party →
      Wire.Schema.text.Fits party.name := by
    intro party hparty
    obtain rfl : _ = party := Option.some.inj hparty
    show ([] : Bytes).length < 2 ^ 64
    decide
  obtain ⟨v, hv⟩ : ∃ v, build (bodyOfOutputs [⟨2, [1]⟩, ⟨1, [2]⟩]) paddingOfThree .sample .standard
      .binary = .ok v := ⟨_, rfl⟩
  obtain ⟨-, hexchange⟩ := build_canonical hv hv hname hname
  obtain ⟨w, hw, hgroups, hid⟩ := hexchange [] ⟨2, [1]⟩ [] ⟨1, [2]⟩ [] rfl (by decide)
  have hkept := hgroups.mpr (by simp)
  exact ⟨v, w, hv, hw, hkept, hid hkept⟩

/-- An exchange that moves an output past another one with its tag is noticed. -/
theorem exists_exchange_changing_groups : ∃ v w,
    build (bodyOfOutputs [⟨1, [1]⟩, ⟨1, [2]⟩, ⟨2, []⟩]) paddingOfThree .sample .standard .binary
      = .ok v ∧
    build (bodyOfOutputs [⟨2, []⟩, ⟨1, [2]⟩, ⟨1, [1]⟩]) paddingOfThree .sample .standard .binary
      = .ok w ∧ v.groups ≠ w.groups := by
  refine ⟨_, _, rfl, rfl, ?_⟩
  decide

end FullView

end VeiledLedger
