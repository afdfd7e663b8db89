import VeiledLedger.Proofs.JsonDocuments
import VeiledLedger.Wire.JsonForm
import VeiledLedger.Wire.WireType

set_option autoImplicit false

/-! # Reading back the JSON form

Every value of every type that travels is read back from its JSON text (`WireType.ofText?_toText`). The
text is the print of a document, and the document is read back by the law of printed documents
(`Json.parse?_print`), so what is left is that the value is read back from the document
(`decode?_encode`). This needs one condition on the schema: `null` is written for an absent value only,
which it is unless an optional value holds an optional value again (`Schema.optionsApart`). -/

namespace VeiledLedger.Wire

/-! ## Optional values -/

def Schema.isOption : {α : Type} → Schema α → Bool
  | _, .option _ => true
  | _, _ => false

mutual

/-- No optional value holds an optional value. -/
def Schema.optionsApart : {α : Type} → Schema α → Bool
  | _, .octet => true
  | _, .word => true
  | _, .long => true
  | _, .text => true
  | _, .hash => true
  | _, .choice _ => true
  | _, .option item => !item.isOption && item.optionsApart
  | _, .list item => item.optionsApart
  | _, .map item => item.optionsApart
  | _, .entries item => item.optionsApart
  | _, .record fields _ _ _ _ => fields.optionsApart
  termination_by structural _ s => s

/-- The same of the fields of a record. -/
def Fields.optionsApart : {names : List String} → {τ : Type} → Fields names τ → Bool
  | _, _, .nil => true
  | _, _, .cons _ item rest _ => item.optionsApart && rest.optionsApart
  termination_by structural _ _ s => s

end

namespace JsonForm

open Text

/-! ## Texts and numbers -/

/-- Digits are quoted as they are. -/
theorem quoteChar_of_isDigit {c : Char} (h : c.isDigit = true) : Quoted.quoteChar c = [c] := by
  have hrange : 48 ≤ c.toNat ∧ c.toNat ≤ 57 := by
    simpa [Char.isDigit, UInt32.le_iff_toNat_le] using h
  have hprintable : ¬ c.toNat < 0x20 := by omega
  simp [Quoted.quoteChar, Json.ne_of_isDigit h, hprintable]

theorem quote_of_forall_isDigit {text : List Char} (h : ∀ c ∈ text, c.isDigit = true) :
    Quoted.quote text = text := by
  induction text with
  | nil => rfl
  | cons c rest ih =>
    have hrest := ih fun d hd => h d (List.mem_cons_of_mem _ hd)
    show Quoted.quoteChar c ++ Quoted.quote rest = c :: rest
    rw [quoteChar_of_isDigit (h c List.mem_cons_self), hrest]
    rfl

theorem quote_digits (n : Nat) : Quoted.quote (Decimal.digits n) = Decimal.digits n :=
  quote_of_forall_isDigit (List.all_eq_true.mp (Decimal.all_isDigit_digits n))

/-! ## The document of a value -/

theorem written_items {α : Type} {write : α → Json} {l : List α} (h : ∀ a ∈ l, (write a).Written) :
    (Json.array (l.map write)).Written := by
  refine .array fun j hj => ?_
  obtain ⟨a, ha, rfl⟩ := List.mem_map.mp hj
  exact h a ha

theorem written_bindings {α : Type} {write : α → Json} {l : List (UInt32 × α)}
    (h : ∀ e ∈ l, (write e.2).Written) :
    (Json.object (l.map fun e => (Decimal.digits e.1.toNat, write e.2))).Written := by
  refine .object (fun m hm => ?_) (fun m hm => ?_)
  · obtain ⟨e, -, rfl⟩ := List.mem_map.mp hm
    exact ⟨_, (quote_digits e.1.toNat).symm⟩
  · obtain ⟨e, he, rfl⟩ := List.mem_map.mp hm
    exact h e he

mutual

/-- The document of a value is read back from its print. -/
theorem written_encode : {α : Type} → (s : Schema α) → (a : α) → (encode s a).Written
  | _, .octet, b => .number b.toNat
  | _, .word, n => .number n.toNat
  | _, .long, n => .number n.toNat
  | _, .text, s => .string s.toList
  | _, .hash, _ => written_items fun b _ => .number b.toNat
  | _, .choice variants, a => .string (variants.name a).toList
  | _, .option _, none => .null
  | _, .option item, some a => written_encode item a
  | _, .list item, _ => written_items fun a _ => written_encode item a
  | _, .map item, _ => written_bindings fun e _ => written_encode item e.2
  | _, .entries item, _ => written_bindings fun e _ => written_encode item e.2
  | _, .record fields _ unpack _ _, a =>
    .object (fun m hm => (written_encodeFields fields (unpack a) m hm).1)
      (fun m hm => (written_encodeFields fields (unpack a) m hm).2)
  termination_by structural _ s => s

theorem written_encodeFields : {names : List String} → {τ : Type} → (fields : Fields names τ) →
    (t : τ) → ∀ m ∈ encodeFields fields t, (∃ chars, m.1 = Quoted.quote chars) ∧ m.2.Written
  | _, _, .nil, _, _, hm => absurd hm List.not_mem_nil
  | _, _, .cons name item rest _, t, m, hm => by
    rcases List.mem_cons.mp hm with rfl | hm
    · exact ⟨⟨name.toList, rfl⟩, written_encode item t.1⟩
    · exact written_encodeFields rest t.2 m hm
  termination_by structural _ _ fields => fields

end

/-! ## Parts of a value -/

theorem natBelow?_ofNat {bound n : Nat} (h : n < bound) : natBelow? bound (ofNat n) = some n := by
  simp [natBelow?, ofNat, Decimal.parse?_digits, h]

theorem octet?_ofNat (b : UInt8) : octet? (ofNat b.toNat) = some b := by
  simp [octet?, natBelow?_ofNat (show b.toNat < 0x100 from b.toNat_lt)]

/-- What is read back item by item is read back. -/
theorem mapM_map {α β : Type} {read : β → Option α} {write : α → β} {l : List α}
    (h : ∀ a ∈ l, read (write a) = some a) : (l.map write).mapM read = some l := by
  induction l with
  | nil => rfl
  | cons a rest ih =>
    have hrest := ih fun b hb => h b (List.mem_cons_of_mem _ hb)
    simp [List.mapM_cons, h a List.mem_cons_self, hrest]

theorem hash?_encode (h : Hash) : hash? (encode .hash h) = some h := by
  have hbytes : (h.bytes.map fun b => ofNat b.toNat).mapM octet? = some h.bytes :=
    mapM_map fun b _ => octet?_ofNat b
  show ((h.bytes.map fun b => ofNat b.toNat).mapM octet? >>= Hash.ofBytes?) = some h
  rw [hbytes]
  exact dif_pos h.length_eq

theorem choice?_encode {α : Type} (variants : Variants α) (a : α) :
    choice? variants (encode (.choice variants) a) = some a := by
  have hname : variantName? (encode (.choice variants) a) = some (variants.name a).toList :=
    Quoted.unquote?_quote _
  have hfound : (variants.all.find? fun b => (variants.name b).toList = (variants.name a).toList)
      = some a := by
    cases hb : variants.all.find? fun b => (variants.name b).toList = (variants.name a).toList with
    | none =>
      have hnot := List.find?_eq_none.mp hb a (variants.complete a)
      simp at hnot
    | some b =>
      have hsame : (variants.name b).toList = (variants.name a).toList := by
        simpa using List.find?_some hb
      rw [variants.name_inj b a (String.toList_inj.mp hsame)]
  simp [choice?, hname, hfound]

theorem encode_ne_null {α : Type} {s : Schema α} (h : s.isOption = false) (a : α) :
    encode s a ≠ .null := by
  intro hnull
  cases s with
  | option item => cases h
  | _ => simp [encode, ofNat] at hnull

theorem option?_encode {α : Type} {item : Schema α} {read : Json → Option α}
    (hitem : item.isOption = false) {a : α} (hread : read (encode item a) = some a) :
    option? read (encode (.option item) (some a)) = some (some a) := by
  show option? read (encode item a) = some (some a)
  have hnull := encode_ne_null hitem a
  cases hj : encode item a with
  | null => exact absurd hj hnull
  | _ => rw [option?, ← hj, hread]; rfl; simp

theorem binding?_encode {α : Type} {read : Json → Option α} {write : α → Json} (e : UInt32 × α)
    (h : read (write e.2) = some e.2) :
    binding? read (Decimal.digits e.1.toNat, write e.2) = some e := by
  have hkey : (Decimal.parse? (Decimal.digits e.1.toNat)).filter (· < 0x100000000)
      = some e.1.toNat := by
    rw [Decimal.parse?_digits, Option.filter_some, if_pos (decide_eq_true e.1.toNat_lt)]
  simp [binding?, hkey, h]

theorem entries?_encode {α : Type} {read : Json → Option α} {write : α → Json}
    {l : List (UInt32 × α)} (h : ∀ e ∈ l, read (write e.2) = some e.2) :
    entries? read (.object (l.map fun e => (Decimal.digits e.1.toNat, write e.2))) = some l :=
  mapM_map fun e he => binding?_encode e (h e he)

/-! ## Records -/

/-- The members of a record under their names as they are. -/
def namedFields : {names : List String} → {τ : Type} → Fields names τ → τ → List (List Char × Json)
  | _, _, .nil, _ => []
  | _, _, .cons name item rest _, t => (name.toList, encode item t.1) :: namedFields rest t.2
  termination_by structural _ _ s => s

theorem encodeFields_eq_map : {names : List String} → {τ : Type} → (fields : Fields names τ) →
    (t : τ) → encodeFields fields t
      = (namedFields fields t).map fun m => (Quoted.quote m.1, m.2)
  | _, _, .nil, _ => rfl
  | _, _, .cons _ _ rest _, t => congrArg (List.cons _) (encodeFields_eq_map rest t.2)
  termination_by structural _ _ fields => fields

/-- The members of a record are read under their names. -/
theorem mapM_unquote_encodeFields {names : List String} {τ : Type} (fields : Fields names τ) (t : τ) :
    (encodeFields fields t).mapM (fun m => (Quoted.unquote? m.1).map (·, m.2))
      = some (namedFields fields t) := by
  rw [encodeFields_eq_map]
  exact mapM_map fun m _ => by rw [Quoted.unquote?_quote]; rfl

theorem exists_name_of_mem_namedFields : {names : List String} → {τ : Type} →
    (fields : Fields names τ) → (t : τ) → ∀ m ∈ namedFields fields t,
    ∃ name ∈ names, m.1 = name.toList
  | _, _, .nil, _, _, hm => absurd hm List.not_mem_nil
  | _, _, .cons name _ rest _, t, m, hm => by
    rcases List.mem_cons.mp hm with rfl | hm
    · exact ⟨name, List.mem_cons_self, rfl⟩
    · obtain ⟨other, hother, heq⟩ := exists_name_of_mem_namedFields rest t.2 m hm
      exact ⟨other, List.mem_cons_of_mem _ hother, heq⟩
  termination_by structural _ _ fields => fields

/-- A member whose name nothing else has is found. -/
theorem member?_of_fresh {α : Type} {name : String} {absent : Option α} {read : Json → Option α}
    {front rest : List (List Char × Json)} (j : Json) (hfront : ∀ m ∈ front, m.1 ≠ name.toList)
    (hrest : ∀ m ∈ rest, m.1 ≠ name.toList) :
    member? name absent read (front ++ (name.toList, j) :: rest) = read j := by
  have hnone {l : List (List Char × Json)} (h : ∀ m ∈ l, m.1 ≠ name.toList) :
      (l.filter fun m => m.1 = name.toList) = [] :=
    List.filter_eq_nil_iff.mpr fun m hm => by simpa using h m hm
  have hone : ((front ++ (name.toList, j) :: rest).filter fun m => m.1 = name.toList)
      = [(name.toList, j)] := by
    rw [List.filter_append, List.filter_cons_of_pos (by simp), hnone hfront, hnone hrest]
    rfl
  rw [member?, hone]

/-! ## Values -/

mutual

/-- A value is read back from its document. -/
theorem decode?_encode : {α : Type} → (s : Schema α) → (a : α) → s.optionsApart = true →
    decode? s (encode s a) = some a
  | _, .octet, b, _ => octet?_ofNat b
  | _, .word, n, _ => by
    show (natBelow? 0x100000000 (ofNat n.toNat)).map UInt32.ofNat = some n
    rw [natBelow?_ofNat n.toNat_lt, Option.map_some, UInt32.ofNat_toNat]
  | _, .long, n, _ => by
    show (natBelow? 0x10000000000000000 (ofNat n.toNat)).map UInt64.ofNat = some n
    rw [natBelow?_ofNat n.toNat_lt, Option.map_some, UInt64.ofNat_toNat]
  | _, .text, s, _ => by
    show (Quoted.unquote? (Quoted.quote s.toList)).map String.ofList = some s
    rw [Quoted.unquote?_quote, Option.map_some, String.ofList_toList]
  | _, .hash, h, _ => hash?_encode h
  | _, .choice variants, a, _ => choice?_encode variants a
  | _, .option _, none, _ => rfl
  | _, .option item, some a, h => by
    obtain ⟨hitem, hparts⟩ := Bool.and_eq_true_iff.mp h
    exact option?_encode (by simpa using hitem) (decode?_encode item a hparts)
  | _, .list item, _, h => mapM_map fun a _ => decode?_encode item a h
  | _, .map item, m, h => by
    show (entries? (decode? item) (.object (m.entries.map fun e =>
      (Decimal.digits e.1.toNat, encode item e.2)))).map GroupMap.ofList = some m
    rw [entries?_encode fun e _ => decode?_encode item e.2 h, Option.map_some,
      GroupMap.ofList_entries]
  | _, .entries item, _, h => entries?_encode fun e _ => decode?_encode item e.2 h
  | _, .record fields pack unpack pack_unpack _, a, h => by
    have hread := ofMembers?_namedFields fields (unpack a) h [] (fun m hm => absurd hm List.not_mem_nil)
    show ((encodeFields fields (unpack a)).mapM (fun m => (Quoted.unquote? m.1).map (·, m.2))
      >>= fun members => ofMembers? fields members >>= fun t => some (pack t)) = some a
    rw [mapM_unquote_encodeFields]
    show (ofMembers? fields (namedFields fields (unpack a)) >>= fun t => some (pack t)) = some a
    rw [List.nil_append] at hread
    rw [hread]
    exact congrArg some (pack_unpack a)
  termination_by structural _ s => s

theorem ofMembers?_namedFields : {names : List String} → {τ : Type} → (fields : Fields names τ) →
    (t : τ) → fields.optionsApart = true → (front : List (List Char × Json)) →
    (∀ m ∈ front, ∀ name ∈ names, m.1 ≠ name.toList) →
    ofMembers? fields (front ++ namedFields fields t) = some t
  | _, _, .nil, _, _, _, _ => rfl
  | _, _, .cons name item rest fresh, t, h, front, hfront => by
    obtain ⟨hitem, hrest⟩ := Bool.and_eq_true_iff.mp h
    let members := front ++ (name.toList, encode item t.1) :: namedFields rest t.2
    have hfirst : member? name (absent? item) (decode? item) members = some t.1 := by
      rw [member?_of_fresh _ (fun m hm => hfront m hm name List.mem_cons_self)]
      · exact decode?_encode item t.1 hitem
      · intro m hm hsame
        obtain ⟨other, hother, heq⟩ := exists_name_of_mem_namedFields rest t.2 m hm
        exact fresh (String.toList_inj.mp (hsame.symm.trans heq) ▸ hother)
    have hothers : ofMembers? rest members = some t.2 := by
      -- for the fields after it, this field belongs to what stands in front
      have hread := ofMembers?_namedFields rest t.2 hrest (front ++ [(name.toList, encode item t.1)])
        (by
          intro m hm other hother hsame
          rcases List.mem_append.mp hm with hm | hm
          · exact hfront m hm other (List.mem_cons_of_mem _ hother) hsame
          · obtain rfl := List.mem_singleton.mp hm
            exact fresh (String.toList_inj.mp hsame ▸ hother))
      rwa [List.append_assoc] at hread
    show (member? name (absent? item) (decode? item) members >>= fun a =>
      ofMembers? rest members >>= fun r => some (a, r)) = some t
    rw [hfirst, Option.bind_eq_bind, Option.bind_some, hothers]
    rfl
  termination_by structural _ _ fields => fields

end

/-- A value is read back from its text. -/
theorem ofText?_toText_of_optionsApart {α : Type} {s : Schema α} (h : s.optionsApart = true) (a : α) :
    ofText? s (toText s a) = some a := by
  rw [ofText?, toText, String.toList_ofList, Json.parse?_print (written_encode s a)]
  exact decode?_encode s a h

/-- An optional value inside an optional one cannot be told from an absent one. -/
example : ofText? (.option (.option .long)) (toText (.option (.option .long)) (some none))
    = some none := by decide

end JsonForm

/-! ## The types that travel -/

namespace WireType

/-- What may be absent in a type that travels is never an optional value itself. -/
theorem optionsApart_schema (t : WireType) : t.schema.optionsApart = true := by
  cases t <;> rfl

/-- Every value of a type that travels is read back from its JSON text. -/
theorem ofText?_toText (t : WireType) (a : t.Value) :
    JsonForm.ofText? t.schema (JsonForm.toText t.schema a) = some a :=
  JsonForm.ofText?_toText_of_optionsApart t.optionsApart_schema a

end WireType

end VeiledLedger.Wire
