import VeiledLedger.Proofs.GroupTable

set_option autoImplicit false

/-! # Padding a group and padding a list

A group is padded where it stands, with the check made on the group itself; a list is copied, with the
check made first. Both give the same components or the same error (`padGroup_agrees`): a group that is
larger than its target is refused and left alone, and any other one keeps its content, in order, and
has only filler behind it. Then it has the target size, so that a second padding finds nothing to
do. -/

namespace VeiledLedger.Padding

open GroupTable

variable {p : Padding} {g g' : Grouping} {role : Role} {target : Nat}
  {components padded : List Bytes} {filler : Bytes}

theorem exists_target_of_isPaddable (p : Padding) (h : role.isPaddable = true) :
    ∃ target, p.target? role = some target := by
  cases role <;> first | exact ⟨_, rfl⟩ | cases h

/-! ## Lists -/

/-- A list of a given size that starts with some content and has only filler behind it. -/
structure FilledUp (size : Nat) (filler : Bytes) (content padded : List Bytes) : Prop where
  length_eq : padded.length = size
  front : content <+: padded
  behind : ∀ c ∈ padded.drop content.length, c = filler

theorem filledUp_rightpad (h : components.length ≤ target) :
    FilledUp target filler components (components.rightpad target filler) := by
  refine ⟨?_, List.prefix_append _ _, fun c hc => ?_⟩
  · rw [List.rightpad, List.length_append, List.length_replicate, Nat.add_sub_of_le h]
  · rw [List.rightpad, List.drop_left] at hc
    exact List.eq_of_mem_replicate hc

/-! ## Groups -/

/-- What a grouping is after the group of a role was padded: the group is the padded list, no other
group has changed, and padding it again changes nothing, whatever the filler is. -/
structure Padded (p : Padding) (role : Role) (padded : List Bytes) (before after : Grouping) :
    Prop where
  group : after.groups.get? role.ordinal = some padded
  others : ∀ k, k ≠ role.ordinal → after.groups.get? k = before.groups.get? k
  again : ∀ filler, p.padGroup after role filler = .ok after
  again_in_place : ∀ filler,
    (GroupCall.pad role filler).run p (ofGrouping after) = (.ok (), ofGrouping after)

/-- A group that is present is refused or padded, as its size decides. -/
theorem padGroup_of_present (hpaddable : role.isPaddable = true)
    (htarget : p.target? role = some target)
    (hpresent : g.groups.get? role.ordinal = some components) (filler : Bytes) :
    (target < components.length ∧
      p.padGroup g role filler = .error (.oversizedGroup role components.length target)) ∨
    (components.length ≤ target ∧ ∃ g', p.padGroup g role filler = .ok g' ∧
      ∀ k, g'.groups.get? k = if k = role.ordinal then some (components.rightpad target filler)
        else g.groups.get? k) := by
  have hcomponents : g.components role = components := by rw [Grouping.components, hpresent]; rfl
  have hcases := p.padGroup_cases g filler hpaddable
  rw [hcomponents, checkSize_of_target htarget] at hcases
  rcases hcases with ⟨e, hcheck, hpad⟩ | ⟨hcheck, g', hpad⟩
  · split_ifs at hcheck with hlt
    exact .inl ⟨hlt, by rw [hpad, Except.error.inj hcheck]⟩
  · split_ifs at hcheck with hlt
    refine .inr ⟨Nat.le_of_not_lt hlt, g', hpad, fun k => ?_⟩
    rw [get?_of_padGroup hpad]
    split_ifs with hk
    · rw [hk, hpresent, htarget]
      rfl
    · rfl

/-- A group that has its target size already is left as it is. -/
theorem padGroup_of_full (hpaddable : role.isPaddable = true)
    (hpresent : g.groups.get? role.ordinal = some components)
    (hfull : p.target? role = some components.length) (filler : Bytes) :
    p.padGroup g role filler = .ok g := by
  rcases padGroup_of_present hpaddable hfull hpresent filler with ⟨hlt, -⟩ | ⟨-, g', hpad, hget⟩
  · exact absurd hlt (Nat.lt_irrefl _)
  · have hsame : g' = g := by
      refine Grouping.ext_groups (GroupMap.ext_get? fun k => ?_)
      rw [hget]
      split_ifs with hk
      -- nothing is put behind a list of full size
      · rw [hk, hpresent, List.rightpad, Nat.sub_self, List.replicate_zero, List.append_nil]
      · rfl
    rw [hpad, hsame]

/-- On the table of a grouping, padding in place has the outcome of padding the grouping. -/
theorem run_pad_ofGrouping (p : Padding) (g : Grouping) (role : Role) (filler : Bytes) :
    (GroupCall.pad role filler).run p (ofGrouping g) = outcome g (p.padGroup g role filler) :=
  GroupCall.run_ofGrouping p g _

theorem padded_of_get? (hpaddable : role.isPaddable = true) (htarget : p.target? role = some target)
    (hle : components.length ≤ target)
    (hget : ∀ k, g'.groups.get? k = if k = role.ordinal
      then some (components.rightpad target filler) else g.groups.get? k) :
    Padded p role (components.rightpad target filler) g g' := by
  have hgroup : g'.groups.get? role.ordinal = some (components.rightpad target filler) := by
    rw [hget, if_pos rfl]
  have hfull : p.target? role = some (components.rightpad target filler).length := by
    rw [htarget, (filledUp_rightpad hle).length_eq]
  have hagain (other : Bytes) : p.padGroup g' role other = .ok g' :=
    padGroup_of_full hpaddable hgroup hfull other
  refine ⟨hgroup, fun k hk => by rw [hget, if_neg hk], hagain, fun other => ?_⟩
  rw [run_pad_ofGrouping, hagain]
  rfl

/-- Padding the group of a role and padding a list of its components have the same outcome. Where
the components are not more than the target, both succeed, with one list, which is filled up to the
target. Otherwise both fail, with one error, and the groups stay as they were, also where they are
changed in place. -/
theorem padGroup_agrees (p : Padding) (hpaddable : role.isPaddable = true)
    (hpresent : g.groups.get? role.ordinal = some components) (filler : Bytes) :
    ∃ target, p.target? role = some target ∧
      ((components.length ≤ target ∧ ∃ padded g',
          p.padComponents role components filler = .ok padded ∧
          p.padGroup g role filler = .ok g' ∧
          (GroupCall.pad role filler).run p (ofGrouping g) = (.ok (), ofGrouping g') ∧
          FilledUp target filler components padded ∧ Padded p role padded g g') ∨
        (target < components.length ∧ ∃ e, e = .oversizedGroup role components.length target ∧
          p.padComponents role components filler = .error e ∧
          p.padGroup g role filler = .error e ∧
          (GroupCall.pad role filler).run p (ofGrouping g) = (.error e, ofGrouping g))) := by
  obtain ⟨target, htarget⟩ := p.exists_target_of_isPaddable hpaddable
  have hlist := padComponents_of_target htarget components filler
  have hrun := p.run_pad_ofGrouping g role filler
  refine ⟨target, htarget, ?_⟩
  rcases padGroup_of_present hpaddable htarget hpresent filler
    with ⟨hlt, hpad⟩ | ⟨hle, g', hpad, hget⟩
  · rw [if_pos hlt] at hlist
    rw [hpad] at hrun
    exact .inr ⟨hlt, _, rfl, hlist, hpad, hrun⟩
  · rw [if_neg (Nat.not_lt.mpr hle)] at hlist
    rw [hpad] at hrun
    exact .inl ⟨hle, _, g', hlist, hpad, hrun, filledUp_rightpad hle,
      padded_of_get? hpaddable htarget hle hget⟩

/-- One output is padded to two, once and for all; three are refused. -/
theorem padGroup_agrees_outputs :
    let p := FullView.plainPadding
    let one := Grouping.empty.put Role.outputs.ordinal [[8]] (by decide)
    let three := Grouping.empty.put Role.outputs.ordinal [[8], [7], [6]] (by decide)
    let e := Error.oversizedGroup .outputs 3 2
    Role.outputs.isPaddable = true ∧
      one.groups.get? Role.outputs.ordinal = some [[8]] ∧
      three.groups.get? Role.outputs.ordinal = some [[8], [7], [6]] ∧
      (∃ g', p.padGroup one .outputs [9] = .ok g' ∧
        g'.groups.get? Role.outputs.ordinal = some [[8], [9]] ∧
        ∀ filler, p.padGroup g' .outputs filler = .ok g') ∧
      p.padComponents .outputs [[8], [7], [6]] [9] = .error e ∧
      (GroupCall.pad .outputs [9]).run p (ofGrouping three) = (.error e, ofGrouping three) := by
  intro p one three e
  have hpaddable : Role.outputs.isPaddable = true := rfl
  have hone : one.groups.get? Role.outputs.ordinal = some [[8]] := rfl
  have hthree : three.groups.get? Role.outputs.ordinal = some [[8], [7], [6]] := rfl
  refine ⟨hpaddable, hone, hthree, ?_, ?_⟩
  · obtain ⟨target, htarget, ⟨-, padded, g', hlist, hpad, -, -, hpadded⟩ | ⟨hlt, -⟩⟩ :=
      padGroup_agrees p hpaddable hone [9]
    · obtain rfl : [[8], [9]] = padded := Except.ok.inj hlist
      exact ⟨g', hpad, hpadded.group, hpadded.again⟩
    · obtain rfl : 2 = target := Option.some.inj htarget
      exact absurd hlt (by decide)
  · obtain ⟨target, htarget, ⟨hle, -⟩ | ⟨-, _, rfl, hlist, -, hrun⟩⟩ :=
      padGroup_agrees p hpaddable hthree [9]
    · obtain rfl : 2 = target := Option.some.inj htarget
      exact absurd hle (by decide)
    · obtain rfl : 2 = target := Option.some.inj htarget
      exact ⟨hlist, hrun⟩

end VeiledLedger.Padding
