import VeiledLedger.Proofs.FixedWidth
import VeiledLedger.Proofs.PartialView
import VeiledLedger.Proofs.Utf8Octets
import VeiledLedger.Wire.Binary
import VeiledLedger.Wire.WireType

set_option autoImplicit false

/-! # One binary form for each value

Reading looks at nothing but the octets that it uses up, and it lets no octet be otherwise than the
writer writes it: the value that is read, written again, gives the octets that were read
(`faithful_decode`). The parts of a value are read one after another, so the law is about a reader
that goes on after some octets (`Faithful`), and the law of two readers in a row is the law of the
second one after what the first has used up (`Faithful.bind`). Only a map has more than one form:
its entries may be listed in any order, and some of them twice. -/

namespace VeiledLedger.Wire

mutual

/-- There is no map in a value. -/
def Schema.mapFree : {α : Type} → Schema α → Bool
  | _, .octet => true
  | _, .word => true
  | _, .long => true
  | _, .text => true
  | _, .hash => true
  | _, .choice _ => true
  | _, .option item => item.mapFree
  | _, .list item => item.mapFree
  | _, .map _ => false
  | _, .entries item => item.mapFree
  | _, .record fields _ _ _ _ => fields.mapFree
  termination_by structural _ s => s

/-- The same of the fields of a record. -/
def Fields.mapFree : {names : List String} → {τ : Type} → Fields names τ → Bool
  | _, _, .nil => true
  | _, _, .cons _ item rest _ => item.mapFree && rest.mapFree
  termination_by structural _ _ s => s

end

namespace Binary

variable {α β : Type} {front : Bytes} {f : Reader α} {u : α → Bytes} {w : β → Bytes}

/-- A reader goes on after some octets, and what it gives is written with these octets and those
that it used up. -/
def Faithful (front : Bytes) (read : Reader α) (write : α → Bytes) : Prop :=
  ∀ ⦃input a rest⦄, read input = .ok (a, rest) → write a ++ rest = front ++ input

namespace Faithful

/-! ## Readers from readers -/

theorem pure {a : α} (h : u a = front) : Faithful front (fun input => .ok (a, input)) u := by
  intro input b rest hread
  obtain ⟨rfl, rfl⟩ := Prod.mk.inj (Except.ok.inj hread)
  rw [h]

theorem error (fault : Fault) : Faithful front (fun _ => .error fault) u := by
  intro input b rest hread
  cases hread

theorem bind {k : α → Reader β} (hf : Faithful front f u) (hk : ∀ a, Faithful (u a) (k a) w) :
    Faithful front (fun input => f input >>= fun r => k r.1 r.2) w := by
  intro input b rest hread
  obtain ⟨⟨a, middle⟩, hfirst, hsecond⟩ := bind_eq_ok_iff.mp hread
  calc w b ++ rest = u a ++ middle := hk a hsecond
    _ = front ++ input := hf hfirst

theorem map (hf : Faithful front f u) (g : α → β) (h : ∀ a, w (g a) = u a) :
    Faithful front (fun input => f input >>= fun r => .ok (g r.1, r.2)) w :=
  hf.bind fun a => pure (h a)

/-- What comes before makes no difference. -/
theorem after (hf : Faithful [] f u) (front : Bytes) : Faithful front f fun a => front ++ u a := by
  intro input a rest hread
  rw [List.append_assoc, hf hread]
  rfl

end Faithful

/-! ## Parts -/

/-- Only the octets that a width has room for are written. -/
theorem leBytes_mod (width n : Nat) : leBytes width (n % 256 ^ width) = leBytes width n := by
  have hwritten := leBytes_ofLE (leBytes width n)
  rwa [length_leBytes, ofLE_leBytes] at hwritten

theorem faithful_readNat (width : Nat) : Faithful [] (readNat width) (leBytes width) := by
  intro input n rest hread
  obtain ⟨⟨bytes, left⟩, hoctets, hn⟩ := bind_eq_ok_iff.mp hread
  obtain ⟨rfl, rfl⟩ := Prod.mk.inj (Except.ok.inj hn)
  by_cases hshort : (input.take width).length < width
  · rw [readOctets, if_pos hshort] at hoctets
    cases hoctets
  · rw [readOctets, if_neg hshort] at hoctets
    obtain ⟨rfl, rfl⟩ := Prod.mk.inj (Except.ok.inj hoctets)
    have hwidth : (input.take width).length = width := by
      rw [List.length_take] at hshort ⊢
      omega
    have hwritten := leBytes_ofLE (input.take width)
    rw [hwidth] at hwritten
    rw [hwritten, List.take_append_drop]
    rfl

theorem faithful_readOctet : Faithful [] readOctet fun b => [b] := by
  intro input b rest hread
  cases input with
  | nil => cases hread
  | cons first others =>
    obtain ⟨rfl, rfl⟩ := Prod.mk.inj (Except.ok.inj hread)
    rfl

theorem faithful_readHash : Faithful [] readHash Hash.bytes := by
  intro input h rest hread
  unfold readHash Hash.ofBytes? at hread
  by_cases hlen : (input.take 32).length = 32
  · rw [dif_pos hlen] at hread
    obtain ⟨rfl, rfl⟩ := Prod.mk.inj (Except.ok.inj hread)
    exact List.take_append_drop 32 input
  · rw [dif_neg hlen] at hread
    cases hread

/-- The octets of a text, after its length. -/
theorem faithful_textOctets (n : Nat) : Faithful (encodeLength n) (fun input =>
    if input.length < n then .error .truncatedText
    else
      match Text.Utf8.decode (input.take n) with
      | .ok chars => .ok (String.ofList chars, input.drop n)
      | .error fault => .error (.invalidText fault)) (encode .text) := by
  intro input s rest hread
  dsimp only at hread
  by_cases hshort : input.length < n
  · rw [if_pos hshort] at hread
    cases hread
  · rw [if_neg hshort] at hread
    cases hchars : Text.Utf8.decode (input.take n) with
    | error fault =>
      rw [hchars] at hread
      cases hread
    | ok chars =>
      rw [hchars] at hread
      obtain ⟨rfl, rfl⟩ := Prod.mk.inj (Except.ok.inj hread)
      have hoctets := Text.Utf8.encode_of_decode hchars
      have hlength : (input.take n).length = n := by
        rw [List.length_take]
        omega
      show encodeLength (Text.Utf8.encode (String.ofList chars).toList).length
          ++ Text.Utf8.encode (String.ofList chars).toList ++ input.drop n = _
      rw [String.toList_ofList, hoctets, hlength, List.append_assoc, List.take_append_drop]

theorem faithful_readText : Faithful [] readText (encode .text) :=
  (faithful_readNat 8).bind faithful_textOctets

/-- No value stands at two places. -/
theorem faithful_place (variants : Variants α) (n : Nat) : Faithful (leBytes 4 n) (fun input =>
    match variants.all[n]? with
    | some a => .ok (a, input)
    | none => .error (.unknownVariant (UInt32.ofNat n) variants.all.length))
    (encode (.choice variants)) := by
  let _ := variants.decEq
  cases hplace : variants.all[n]? with
  | none => exact .error _
  | some a =>
    obtain ⟨hn, rfl⟩ := List.getElem?_eq_some_iff.mp hplace
    exact .pure (congrArg (leBytes 4) (variants.nodup.idxOf_getElem n hn))

theorem faithful_readChoice (variants : Variants α) :
    Faithful [] (readChoice variants) (encode (.choice variants)) :=
  (faithful_readNat 4).bind (faithful_place variants)

theorem Faithful.readOption {item : Schema α} (hitem : Faithful [] (decode item) (encode item)) :
    Faithful [] (readOption (decode item)) (encode (.option item)) := by
  have htagged (tag : UInt8) : Faithful [tag] (fun input =>
      if tag = 0 then .ok (none, input)
      else if tag = 1 then decode item input >>= fun r => .ok (some r.1, r.2)
      else .error (.unknownTag tag)) (encode (.option item)) := by
    split_ifs with habsent hpresent
    · exact .pure (by rw [habsent]; rfl)
    · exact (hitem.after [tag]).map some fun a => by rw [hpresent]; rfl
    · exact .error _
  exact faithful_readOctet.bind htagged

theorem length_of_readMany {n : Nat} {input : Bytes} {l : List α} {rest : Bytes}
    (h : readMany f n input = .ok (l, rest)) : l.length = n := by
  induction n generalizing input l rest with
  | zero =>
    obtain ⟨rfl, rfl⟩ := Prod.mk.inj (Except.ok.inj h)
    rfl
  | succ n ih =>
    obtain ⟨⟨a, middle⟩, -, htail⟩ := bind_eq_ok_iff.mp h
    obtain ⟨⟨others, left⟩, hothers, hl⟩ := bind_eq_ok_iff.mp htail
    obtain ⟨rfl, rfl⟩ := Prod.mk.inj (Except.ok.inj hl)
    rw [List.length_cons, ih hothers]

theorem Faithful.readMany (hf : Faithful [] f u) (n : Nat) :
    Faithful [] (readMany f n) fun l => l.flatMap u := by
  induction n with
  | zero => exact .pure rfl
  | succ n ih => exact hf.bind fun a => (ih.after (u a)).map (a :: ·) fun _ => rfl

/-- A number, and as many values as it says. -/
theorem Faithful.counted (hf : Faithful [] f u) : Faithful []
    (fun input => readNat 8 input >>= fun r => Binary.readMany f r.1 r.2)
    fun l => encodeLength l.length ++ l.flatMap u := by
  refine (faithful_readNat 8).bind fun n => ?_
  intro input l rest hread
  show encodeLength l.length ++ l.flatMap u ++ rest = encodeLength n ++ input
  rw [length_of_readMany hread]
  exact (hf.readMany n).after (encodeLength n) hread

theorem toNat_ofNat_word (n : Nat) : leBytes 4 (UInt32.ofNat n).toNat = leBytes 4 n := by
  rw [UInt32.toNat_ofNat']
  exact leBytes_mod 4 n

theorem toNat_ofNat_long (n : Nat) : leBytes 8 (UInt64.ofNat n).toNat = leBytes 8 n := by
  rw [UInt64.toNat_ofNat']
  exact leBytes_mod 8 n

theorem Faithful.readEntry (hf : Faithful [] f u) :
    Faithful [] (readEntry f) fun e => leBytes 4 e.1.toNat ++ u e.2 :=
  (faithful_readNat 4).bind fun n =>
    (hf.after (leBytes 4 n)).map (Prod.mk (UInt32.ofNat n)) fun _ => by rw [toNat_ofNat_word]

/-! ## Values -/

mutual

/-- Without maps, a value is written with the octets that it was read from. -/
theorem faithful_decode : {α : Type} → (s : Schema α) → s.mapFree = true →
    Faithful [] (decode s) (encode s)
  | _, .octet, _ => faithful_readOctet
  | _, .word, _ => (faithful_readNat 4).map UInt32.ofNat toNat_ofNat_word
  | _, .long, _ => (faithful_readNat 8).map UInt64.ofNat toNat_ofNat_long
  | _, .text, _ => faithful_readText
  | _, .hash, _ => faithful_readHash
  | _, .choice variants, _ => faithful_readChoice variants
  | _, .option item, h => (faithful_decode item h).readOption
  | _, .list item, h => (faithful_decode item h).counted
  | _, .map _, h => by cases h
  | _, .entries item, h => (faithful_decode item h).readEntry.counted
  | _, .record fields pack unpack _ unpack_pack, h =>
    (faithful_decodeFields fields h).map pack fun t =>
      congrArg (encodeFields fields) (unpack_pack t)
  termination_by structural _ s => s

theorem faithful_decodeFields : {names : List String} → {τ : Type} → (fields : Fields names τ) →
    fields.mapFree = true → Faithful [] (decodeFields fields) (encodeFields fields)
  | _, _, .nil, _ => .pure rfl
  | _, _, .cons _ item rest _, h =>
    (faithful_decode item (Bool.and_eq_true_iff.mp h).1).bind fun a =>
      ((faithful_decodeFields rest (Bool.and_eq_true_iff.mp h).2).after (encode item a)).map
        (Prod.mk a) fun _ => rfl
  termination_by structural _ _ fields => fields

end

/-- What was read of a byte string is the binary form of the value. -/
theorem encode_prefix_of_decodeFront {s : Schema α} (hs : s.mapFree = true) {bytes : Bytes} {a : α}
    (h : decodeFront s bytes = .ok a) : encode s a <+: bytes := by
  cases hread : decode s bytes with
  | error fault =>
    rw [decodeFront, hread] at h
    cases h
  | ok r =>
    obtain ⟨b, rest⟩ := r
    rw [decodeFront, hread] at h
    obtain rfl : b = a := Except.ok.inj h
    exact ⟨rest, faithful_decode s hs hread⟩

end Binary

/-! ## The types that travel -/

namespace WireType

theorem mapFree_schema {t : WireType} (h : t ≠ .disclosure ∧ t ≠ .payload) :
    t.schema.mapFree = true := by
  cases t with
  | disclosure => exact absurd rfl h.1
  | payload => exact absurd rfl h.2
  | _ => rfl

/-- Whatever is read as a value of a type without maps starts with the binary form of this value.
So two different byte strings of one length are read as one value only if something follows the
value in them, and up to there they agree. -/
theorem binary_canonical (t : WireType) (hmap : t ≠ .disclosure ∧ t ≠ .payload) (bytes : Bytes)
    (a : t.Value) (hread : Binary.decodeFront t.schema bytes = .ok a) :
    Binary.encode t.schema a <+: bytes ∧
      ∀ other, Binary.decodeFront t.schema other = .ok a → other.length = bytes.length →
        other ≠ bytes → (Binary.encode t.schema a).length < bytes.length ∧
          other.take (Binary.encode t.schema a).length
            = bytes.take (Binary.encode t.schema a).length := by
  have hfree := mapFree_schema hmap
  have hwritten := Binary.encode_prefix_of_decodeFront hfree hread
  refine ⟨hwritten, fun other hother hlength hne => ?_⟩
  have hwritten' := Binary.encode_prefix_of_decodeFront hfree hother
  have hfront := List.prefix_iff_eq_take.mp hwritten
  have hfront' := List.prefix_iff_eq_take.mp hwritten'
  refine ⟨Nat.lt_of_le_of_ne hwritten.length_le fun hwhole => hne ?_, hfront'.symm.trans hfront⟩
  -- nothing follows the value in either of them
  have hbytes := hwritten.eq_of_length hwhole
  have hother' := hwritten'.eq_of_length (hwhole.trans hlength.symm)
  exact hother'.symm.trans hbytes

/-- A notary in 19 octets. -/
def notaryOctets : Bytes := [2, 0, 0, 0, 0, 0, 0, 0, 0xC3, 0xA9, 1, 0, 0, 0, 0, 0, 0, 0, 3]

theorem binary_canonical_notary :
    Binary.decodeFront Party.schema (notaryOctets ++ [4]) = .ok ⟨"é", [3]⟩ ∧
      Binary.decodeFront Party.schema (notaryOctets ++ [5]) = .ok ⟨"é", [3]⟩ ∧
      Binary.encode Party.schema ⟨"é", [3]⟩ <+: notaryOctets ++ [4] ∧
      (Binary.encode Party.schema ⟨"é", [3]⟩).length < (notaryOctets ++ [4]).length := by
  have hread : Binary.decodeFront Party.schema (notaryOctets ++ [4]) = .ok ⟨"é", [3]⟩ := rfl
  have hother : Binary.decodeFront Party.schema (notaryOctets ++ [5]) = .ok ⟨"é", [3]⟩ := rfl
  obtain ⟨hwritten, hsame⟩ := binary_canonical .party ⟨nofun, nofun⟩ (notaryOctets ++ [4]) _ hread
  exact ⟨hread, hother, hwritten, (hsame _ hother rfl (by decide)).1⟩

/-- What follows a value is left over and may be anything: two byte strings of one length that are
read as one state reference. -/
theorem exists_leftover_differing : ∃ (bytes other : Bytes) (r : StateRef),
    bytes ≠ other ∧ bytes.length = other.length ∧
      Binary.decodeFront StateRef.schema bytes = .ok r ∧
      Binary.decodeFront StateRef.schema other = .ok r :=
  ⟨List.replicate 36 0 ++ [0], List.replicate 36 0 ++ [1], ⟨Hash.zero, 0⟩, by decide, rfl, rfl, rfl⟩

end WireType

end VeiledLedger.Wire
