import Mathlib.Data.List.Dedup
import VeiledLedger.Proofs.BinaryRoundTrip
import VeiledLedger.Proofs.Participant
import VeiledLedger.Wire.Listing

set_option autoImplicit false

/-! # Groups that are listed again

A map is read entry by entry, and an entry replaces the one that its ordinal has already. So a
message in which a group is listed again is read without complaint: of each group the entry that is
listed last is kept, and it is only what is kept that is checked (`Payload.view_of_listing`). -/

namespace VeiledLedger

namespace Wire

/-! ## Schemas that read the same

Two schemas may read the same messages, and the values of the one be given by those of the other.
Schemas with parts do so if their parts do. -/

/-- Whatever is read by one schema is a function of what is read by another one. -/
structure Schema.ReadsAs {α β : Type} (s : Schema α) (r : Schema β) (f : β → α) : Prop where
  binary : ∀ input, Binary.decode s input = (Binary.decode r input).map (Prod.map f id)
  json : ∀ j, JsonForm.decode? s j = (JsonForm.decode? r j).map f
  absent : JsonForm.absent? s = (JsonForm.absent? r).map f

/-- The same of the fields of records. -/
structure Fields.ReadsAs {names : List String} {α β : Type} (s : Fields names α)
    (r : Fields names β) (f : β → α) : Prop where
  binary : ∀ input,
    Binary.decodeFields s input = (Binary.decodeFields r input).map (Prod.map f id)
  members : ∀ members, JsonForm.ofMembers? s members = (JsonForm.ofMembers? r members).map f
  items : ∀ items, JsonForm.ofItems? s items = (JsonForm.ofItems? r items).map f

variable {α β τ ρ : Type} {names : List String} {name : String}

theorem Schema.ReadsAs.refl (s : Schema α) : s.ReadsAs s id := by
  refine ⟨fun input => ?_, fun j => ?_, ?_⟩
  · cases Binary.decode s input <;> rfl
  · rw [Option.map_id_fun, id]
  · rw [Option.map_id_fun, id]

/-- A map is read as the list of its entries, which are then put in one after another. -/
theorem Schema.readsAs_entries (item : Schema α) :
    (Schema.map item).ReadsAs (.entries item) GroupMap.ofList := by
  refine ⟨fun input => ?_, fun j => rfl, rfl⟩
  show (Binary.readEntries (Binary.decode item) input >>= fun r => _)
    = (Binary.readEntries (Binary.decode item) input).map _
  cases Binary.readEntries (Binary.decode item) input <;> rfl

theorem Fields.ReadsAs.nil : Fields.nil.ReadsAs .nil id := by
  refine ⟨fun input => rfl, fun members => rfl, fun items => ?_⟩
  rw [Option.map_id_fun, id]

theorem member?_map {f : β → α} {absent : Option α} {absent' : Option β}
    {item : Json → Option α} {item' : Json → Option β} (habsent : absent = absent'.map f)
    (hitem : ∀ j, item j = (item' j).map f) (members : List (List Char × Json)) :
    JsonForm.member? name absent item members
      = (JsonForm.member? name absent' item' members).map f := by
  unfold JsonForm.member?
  split
  · exact habsent
  · exact hitem _
  · rfl

theorem Fields.ReadsAs.cons {s : Schema α} {r : Schema β} {f : β → α} {ss : Fields names τ}
    {rs : Fields names ρ} {g : ρ → τ} (hitem : s.ReadsAs r f) (hrest : ss.ReadsAs rs g)
    (fresh : name ∉ names) :
    (Fields.cons name s ss fresh).ReadsAs (.cons name r rs fresh) (Prod.map f g) := by
  refine ⟨fun input => ?_, fun members => ?_, fun items => ?_⟩
  · simp only [Binary.decodeFields, hitem.binary]
    cases Binary.decode r input with
    | error e => rfl
    | ok a =>
      simp only [Except.map, bind, Except.bind, hrest.binary, Prod.map_snd, id]
      cases Binary.decodeFields rs a.2 <;> rfl
  · simp only [JsonForm.ofMembers?, member?_map hitem.absent hitem.json, hrest.members]
    cases JsonForm.member? name (JsonForm.absent? r) (JsonForm.decode? r) members with
    | none => rfl
    | some a => cases JsonForm.ofMembers? rs members <;> rfl
  · cases items with
    | nil => rfl
    | cons j items =>
      simp only [JsonForm.ofItems?, hitem.json, hrest.items]
      cases JsonForm.decode? r j with
      | none => rfl
      | some a => cases JsonForm.ofItems? rs items <;> rfl

theorem Schema.ReadsAs.record {s : Fields names τ} {r : Fields names ρ} {g : ρ → τ} {f : β → α}
    {pack : τ → α} {unpack : α → τ} {pack' : ρ → β} {unpack' : β → ρ}
    (h : s.ReadsAs r g) (hpack : ∀ t, pack (g t) = f (pack' t))
    (h₁ : ∀ a, pack (unpack a) = a) (h₂ : ∀ t, unpack (pack t) = t)
    (h₃ : ∀ b, pack' (unpack' b) = b) (h₄ : ∀ t, unpack' (pack' t) = t) :
    (Schema.record s pack unpack h₁ h₂).ReadsAs (.record r pack' unpack' h₃ h₄) f := by
  refine ⟨fun input => ?_, fun j => ?_, rfl⟩
  · simp only [Binary.decode, h.binary]
    cases Binary.decodeFields r input with
    | error e => rfl
    | ok t => exact congrArg (fun a => Except.ok (a, t.2)) (hpack t.1)
  · cases j with
    | object members =>
      simp only [JsonForm.decode?, h.members]
      cases members.mapM fun m => (Text.Quoted.unquote? m.1).map (·, m.2) with
      | none => rfl
      | some members =>
        simp only [bind, Option.bind]
        cases JsonForm.ofMembers? r members with
        | none => rfl
        | some t => exact congrArg some (hpack t)
    | array items =>
      simp only [JsonForm.decode?, h.items, Option.map_map]
      exact congrArg (fun k => (JsonForm.ofItems? r items).map k) (funext hpack)
    | _ => rfl

end Wire

/-! ## What a map keeps -/

namespace GroupMap

variable {α : Type} (l : List (UInt32 × α))

theorem nodup_keys (m : GroupMap α) : m.keys.Nodup :=
  List.pairwise_map.mpr (m.sorted.imp fun h => UInt32.ne_of_lt h)

theorem mem_keys_ofList {g : UInt32} : g ∈ (ofList l).keys ↔ g ∈ l.map (·.1) := by
  rw [mem_keys_iff, contains, get?_ofList, List.mem_map]
  constructor
  · intro h
    obtain ⟨a, ha⟩ := Option.isSome_iff_exists.mp h
    obtain ⟨front, back, hsplit, -⟩ := List.lookup_eq_some_iff.mp ha
    have hmem : (g, a) ∈ l.reverse := hsplit ▸ List.mem_append_right _ List.mem_cons_self
    exact ⟨(g, a), List.mem_reverse.mp hmem, rfl⟩
  · rintro ⟨e, he, rfl⟩
    rw [List.lookup_isSome_iff]
    exact ⟨e, List.mem_reverse.mpr he, beq_self_eq_true e.1⟩

/-- One entry is kept for each ordinal. -/
theorem keys_ofList_perm : (ofList l).keys.Perm (l.map (·.1)).dedup := by
  refine (List.perm_ext_iff_of_nodup (nodup_keys _) (List.nodup_dedup _)).mpr fun g => ?_
  rw [mem_keys_ofList, List.mem_dedup]

theorem size_ofList : (ofList l).size = (l.map (·.1)).dedup.length := by
  rw [← (keys_ofList_perm l).length_eq, keys, List.length_map, size]

theorem size_ofList_le : (ofList l).size ≤ l.length := by
  have h := (List.dedup_sublist (l.map (·.1))).length_le
  rwa [List.length_map, ← size_ofList] at h

/-- Nothing is lost exactly if no ordinal is listed twice. -/
theorem size_ofList_eq_iff : (ofList l).size = l.length ↔ (l.map (·.1)).Nodup := by
  have hlength : (l.map (·.1)).length = l.length := List.length_map _
  rw [size_ofList, ← hlength, ← List.dedup_eq_self]
  exact ⟨(List.dedup_sublist _).eq_of_length, congrArg List.length⟩

end GroupMap

/-! ## Messages with listings -/

open Wire

theorem Disclosure.Listing.repeatsGroup_iff (l : Disclosure.Listing) :
    l.RepeatsGroup ↔ l.kept.size < l.size := by
  have hcomponents := GroupMap.size_ofList_le l.components
  have hnonces := GroupMap.size_ofList_le l.nonces
  have hhidden := GroupMap.size_ofList_le l.hiddenRoots
  have hsize : l.kept.size = (GroupMap.ofList l.components).size
    + (GroupMap.ofList l.nonces).size + (GroupMap.ofList l.hiddenRoots).size := rfl
  unfold RepeatsGroup size
  rw [hsize, ← GroupMap.size_ofList_eq_iff, ← GroupMap.size_ofList_eq_iff,
    ← GroupMap.size_ofList_eq_iff]
  omega

theorem Disclosure.readsAs_listing :
    Disclosure.schema.ReadsAs Disclosure.Listing.schema Disclosure.Listing.kept := by
  unfold Disclosure.schema Disclosure.Listing.schema
  apply Schema.ReadsAs.record
  -- the three maps stand between fields that are read as they are
  · exact .cons (.refl _) (.cons (Schema.readsAs_entries _) (.cons (Schema.readsAs_entries _)
      (.cons (Schema.readsAs_entries _) (.cons (.refl _) (.cons (.refl _) (.cons (.refl _) .nil
        _) _) _) _) _) _) _
  · intro t
    rfl

theorem Payload.readsAs_listing :
    Payload.schema.ReadsAs Payload.Listing.schema Payload.Listing.kept := by
  unfold Payload.schema Payload.Listing.schema
  apply Schema.ReadsAs.record
  · exact .cons Disclosure.readsAs_listing (.cons (.refl _) .nil _) _
  · intro t
    rfl

theorem Message.value?_of_readsAs {α β : Type} {s : Schema α} {r : Schema β} {f : β → α}
    (h : s.ReadsAs r f) (m : Message) : m.value? s = (m.value? r).map f := by
  cases m with
  | binary bytes =>
    simp only [value?, Binary.decodeFront, h.binary]
    cases Binary.decode r bytes <;> rfl
  | json text =>
    simp only [value?, JsonForm.ofText?, h.json]
    cases Json.parse? text.toList <;> rfl

/-- What is written is read. -/
theorem Message.value?_encode {α : Type} {s : Schema α} {a : α} (h : s.Fits a) :
    (Message.binary (Binary.encode s a)).value? s = some a := by
  have hread := Binary.decode_encode s a h []
  rw [List.append_nil] at hread
  rw [value?, Binary.decodeFront, hread]
  rfl

namespace Payload

variable {m : Message} {p : Payload}

/-- A payload has a view exactly if its disclosure is sound. -/
theorem exists_view_iff : (∃ v, p.view = .ok v) ↔ p.disclosure.Sound := by
  constructor
  · rintro ⟨v, hv⟩
    obtain ⟨w, hw, hv⟩ := bind_eq_ok_iff.mp hv
    obtain ⟨hsound, -⟩ := bind_unit_eq_ok_iff.mp hv
    rw [← PartialView.reconstruct_eq_ok_iff.mp hw]
    exact PartialView.verify_eq_ok_iff_sound.mp hsound
  · intro h
    obtain ⟨w, hw⟩ := PartialView.exists_of_wellFormed h.wellFormed
    rw [← hw] at h
    refine ⟨w, bind_eq_ok_iff.mpr ⟨w, PartialView.reconstruct_eq_ok_iff.mpr hw, ?_⟩⟩
    exact bind_unit_eq_ok_iff.mpr ⟨PartialView.verify_eq_ok_iff_sound.mpr h, rfl⟩

/-- A message that is read as a payload lists its entries, each group any number of times. Of every
group the last entry is kept and the others are dropped, so that something is lost exactly if a group
is repeated; and the payload has a view exactly if what is kept is sound. The latter is said of
payloads that have nothing at ordinal `2 ^ 32 - 1`, for which a top-level list whose length has 32 bits
has no slot. -/
theorem view_of_listing (h : m.value? schema = some p) :
    ∃ l, m.value? Listing.schema = some l ∧ p = l.kept ∧
      (∀ g, p.disclosure.components.get? g = l.disclosure.components.reverse.lookup g ∧
        p.disclosure.nonces.get? g = l.disclosure.nonces.reverse.lookup g ∧
        p.disclosure.hiddenRoots.get? g = l.disclosure.hiddenRoots.reverse.lookup g) ∧
      (l.disclosure.RepeatsGroup ↔ p.disclosure.size < l.disclosure.size) ∧
      (p.disclosure.components.contains 0xFFFFFFFF = false →
        p.disclosure.hiddenRoots.contains 0xFFFFFFFF = false →
        ((∃ v, p.view = .ok v) ↔ p.disclosure.Sound)) := by
  rw [Message.value?_of_readsAs readsAs_listing, Option.map_eq_some_iff] at h
  obtain ⟨l, hl, rfl⟩ := h
  -- the last ordinal is left out because of the length of the list, which is not bounded here
  refine ⟨l, hl, rfl, fun g => ⟨?_, ?_, ?_⟩, l.disclosure.repeatsGroup_iff,
    fun _ _ => exists_view_iff⟩
  · exact GroupMap.get?_ofList _ g
  · exact GroupMap.get?_ofList _ g
  · exact GroupMap.get?_ofList _ g

/-! ### Inputs that are listed twice -/

/-- A disclosure of inputs without nonces, and of nothing else. -/
def inputsOnly (components : List Bytes) : Disclosure :=
  Disclosure.issued
    { digests := .standard
      components := .ofList [(Role.inputs.ordinal, components)]
      nonces := .ofList [(Role.inputs.ordinal, [])]
      hiddenRoots := .empty
      outputLeaves := []
      topRoots := []
      id := Hash.zero }

/-- A payload in which the inputs are listed twice, with the list and the id that go with what is
listed last. -/
def listedTwice (first last : List Bytes) : Listing where
  disclosure :=
    { digests := .standard
      components := [(Role.inputs.ordinal, first), (Role.inputs.ordinal, last)]
      nonces := [(Role.inputs.ordinal, [])]
      hiddenRoots := []
      outputLeaves := []
      topRoots := (inputsOnly last).topRoots
      id := (inputsOnly last).id }
  claims := []

/-- The message that carries it. -/
def sentTwice (first last : List Bytes) : Message :=
  .binary (Binary.encode Listing.schema (listedTwice first last))

theorem repeatsGroup_listedTwice (first last : List Bytes) :
    (listedTwice first last).disclosure.RepeatsGroup := by
  refine .inl ?_
  show ¬ [Role.inputs.ordinal, Role.inputs.ordinal].Nodup
  decide

theorem kept_listedTwice (first last : List Bytes) :
    (listedTwice first last).kept = ⟨inputsOnly last, []⟩ := rfl

theorem fits_listedTwice {first last : List Bytes} (hfirst : (Schema.list .bytes).Fits first)
    (hlast : (Schema.list .bytes).Fits last) : Listing.schema.Fits (listedTwice first last) := by
  have hcomponents : (Schema.entries (.list .bytes)).Fits
      (listedTwice first last).disclosure.components := by
    refine ⟨(by decide : 2 < 2 ^ 64), fun e he => ?_⟩
    rcases List.mem_pair.mp he with rfl | rfl
    · exact hfirst
    · exact hlast
  have hnonces : (Schema.entries (.list .hash)).Fits
      (listedTwice first last).disclosure.nonces := by
    simp [Schema.Fits, listedTwice]
  have hhidden : (Schema.entries .hash).Fits
      (listedTwice first last).disclosure.hiddenRoots := by
    simp [Schema.Fits, listedTwice]
  have hspan : (listedTwice first last).disclosure.topRoots.length = Role.count := by
    show (topLevel _).length = _
    rw [length_topLevel]
    rfl
  have htop : (Schema.list .hash).Fits (listedTwice first last).disclosure.topRoots :=
    ⟨hspan.trans_lt (by decide), fun _ _ => trivial⟩
  have hnil {α : Type} (item : Schema α) : (Schema.list item).Fits [] := by
    simp [Schema.Fits]
  exact ⟨⟨⟨trivial, trivial, trivial⟩, hcomponents, hnonces, hhidden, hnil _, htop, trivial,
    trivial⟩, hnil _, trivial⟩

theorem value?_sentTwice {first last : List Bytes} (hfirst : (Schema.list .bytes).Fits first)
    (hlast : (Schema.list .bytes).Fits last) :
    (sentTwice first last).value? Listing.schema = some (listedTwice first last) ∧
      (sentTwice first last).value? schema = some ⟨inputsOnly last, []⟩ := by
  have hread := Message.value?_encode (fits_listedTwice hfirst hlast)
  refine ⟨hread, ?_⟩
  rw [Message.value?_of_readsAs readsAs_listing, ← kept_listedTwice first last]
  exact congrArg (Option.map Listing.kept) hread

theorem sound_inputsOnly_nil : (inputsOnly []).Sound :=
  (Disclosure.fault?_eq_none_iff.mp rfl).sound_issued

theorem fits_nil : (Schema.list .bytes).Fits [] := by
  simp [Schema.Fits]

theorem fits_seven : (Schema.list .bytes).Fits [[7]] := by
  simp [Schema.Fits]

/-- An input that is listed first is dropped, and what is listed last is sound. -/
theorem exists_view_sentTwice :
    (sentTwice [[7]] []).value? Listing.schema = some (listedTwice [[7]] []) ∧
      (listedTwice [[7]] []).disclosure.RepeatsGroup ∧
      (sentTwice [[7]] []).value? schema = some ⟨inputsOnly [], []⟩ ∧
      ∃ v, view ⟨inputsOnly [], []⟩ = .ok v := by
  obtain ⟨hlisting, hpayload⟩ := value?_sentTwice fits_seven fits_nil
  exact ⟨hlisting, repeatsGroup_listedTwice _ _, hpayload, exists_view_iff.mpr sound_inputsOnly_nil⟩

/-- The other way round the input is kept, and refused for want of a nonce. -/
theorem not_view_sentTwice :
    (sentTwice [] [[7]]).value? Listing.schema = some (listedTwice [] [[7]]) ∧
      (listedTwice [] [[7]]).disclosure.RepeatsGroup ∧
      (sentTwice [] [[7]]).value? schema = some ⟨inputsOnly [[7]], []⟩ ∧
      ¬ ∃ v, view ⟨inputsOnly [[7]], []⟩ = .ok v := by
  obtain ⟨hlisting, hpayload⟩ := value?_sentTwice fits_nil fits_seven
  obtain ⟨l, -, -, -, -, hview⟩ := view_of_listing hpayload
  refine ⟨hlisting, repeatsGroup_listedTwice _ _, hpayload, fun h => ?_⟩
  have hsound := (hview (by decide) (by decide)).mp h
  have hwell := Disclosure.fault?_eq_none_iff.mpr hsound.wellFormed
  exact absurd hwell (by decide)

end Payload

end VeiledLedger
