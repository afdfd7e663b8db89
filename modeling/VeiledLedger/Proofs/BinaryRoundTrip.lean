import VeiledLedger.Proofs.FixedWidth
import VeiledLedger.Wire.Binary

set_option autoImplicit false

/-! # Reading back the binary form

What was written is read from the front of a byte string, and what comes after it is left
(`decode_encode`). Each reader is shown to undo its writer in this sense, and the reader of a
composite value does so because the readers of its parts do. Lengths have 64 bits, so the law is about
values whose lengths can be written (`Schema.Fits`). -/

namespace VeiledLedger.Wire

mutual

/-- Every length in a value can be written with 64 bits. -/
def Schema.Fits : {α : Type} → Schema α → α → Prop
  | _, .octet, _ => True
  | _, .word, _ => True
  | _, .long, _ => True
  | _, .text, s => (Text.Utf8.encode s.toList).length < 2 ^ 64
  | _, .hash, _ => True
  | _, .choice _, _ => True
  | _, .option _, none => True
  | _, .option item, some a => item.Fits a
  | _, .list item, l => l.length < 2 ^ 64 ∧ ∀ a ∈ l, item.Fits a
  | _, .map item, m => m.size < 2 ^ 64 ∧ ∀ e ∈ m.entries, item.Fits e.2
  | _, .entries item, l => l.length < 2 ^ 64 ∧ ∀ e ∈ l, item.Fits e.2
  | _, .record fields _ unpack _ _, a => fields.Fits (unpack a)
  termination_by structural _ s => s

/-- The same of the fields of a record. -/
def Fields.Fits : {names : List String} → {τ : Type} → Fields names τ → τ → Prop
  | _, _, .nil, _ => True
  | _, _, .cons _ item rest _, t => item.Fits t.1 ∧ rest.Fits t.2
  termination_by structural _ _ s => s

end

namespace Binary

variable {α : Type} {item : Reader α} {write : α → Bytes}

/-! ## Parts -/

theorem readOctets_append {n : Nat} {bytes : Bytes} (h : bytes.length = n) (rest : Bytes) :
    readOctets n (bytes ++ rest) = .ok (bytes, rest) := by
  unfold readOctets
  rw [List.take_left' h, List.drop_left' h]
  exact if_neg (by omega)

theorem readNat_leBytes {width n : Nat} (h : n < 256 ^ width) (rest : Bytes) :
    readNat width (leBytes width n ++ rest) = .ok (n, rest) := by
  rw [readNat, readOctets_append (length_leBytes width n)]
  show Except.ok (ofLE (leBytes width n), rest) = _
  rw [ofLE_leBytes, Nat.mod_eq_of_lt h]

theorem readNat_encodeLength {n : Nat} (h : n < 2 ^ 64) (rest : Bytes) :
    readNat 8 (encodeLength n ++ rest) = .ok (n, rest) :=
  readNat_leBytes h rest

theorem readHash_append (h : Hash) (rest : Bytes) :
    readHash (h.bytes ++ rest) = .ok (h, rest) := by
  unfold readHash Hash.ofBytes?
  rw [List.take_left' h.length_eq, List.drop_left' h.length_eq, dif_pos h.length_eq]

theorem readText_append {s : String} (h : (Text.Utf8.encode s.toList).length < 2 ^ 64)
    (rest : Bytes) : readText (encode .text s ++ rest) = .ok (s, rest) := by
  have hshort : ¬ (Text.Utf8.encode s.toList ++ rest).length
      < (Text.Utf8.encode s.toList).length := by
    rw [List.length_append]
    omega
  show readText (encodeLength _ ++ Text.Utf8.encode s.toList ++ rest) = _
  rw [readText, List.append_assoc, readNat_encodeLength h]
  show (if _ then _ else _) = _
  rw [if_neg hshort, List.take_left, List.drop_left, Text.Utf8.decode_encode]
  show Except.ok (String.ofList s.toList, rest) = _
  rw [String.ofList_toList]

theorem readChoice_append (variants : Variants α) (a : α) (rest : Bytes) :
    readChoice variants (encode (.choice variants) a ++ rest) = .ok (a, rest) := by
  let _ := variants.decEq
  have hindex : variants.index a < variants.all.length :=
    List.idxOf_lt_length_of_mem (variants.complete a)
  have hplace : variants.all[variants.index a]? = some a := by
    rw [List.getElem?_eq_getElem hindex]
    exact congrArg some (List.getElem_idxOf hindex)
  have hsmall := variants.small
  show readChoice variants (leBytes 4 _ ++ rest) = _
  rw [readChoice, readNat_leBytes (by omega)]
  simp only [bind, Except.bind, hplace]
  rfl

theorem readMany_flatMap {l : List α}
    (h : ∀ a ∈ l, ∀ rest, item (write a ++ rest) = .ok (a, rest)) (rest : Bytes) :
    readMany item l.length (l.flatMap write ++ rest) = .ok (l, rest) := by
  induction l with
  | nil => rfl
  | cons a l ih =>
    have hhead := h a List.mem_cons_self (l.flatMap write ++ rest)
    have htail := ih fun b hb => h b (List.mem_cons_of_mem _ hb)
    rw [List.flatMap_cons, List.append_assoc, List.length_cons, readMany, hhead]
    show (readMany item l.length (l.flatMap write ++ rest) >>= fun t => _) = _
    rw [htail]
    rfl

theorem readEntries_flatMap {l : List (UInt32 × α)} (hlength : l.length < 2 ^ 64)
    (h : ∀ e ∈ l, ∀ rest, item (write e.2 ++ rest) = .ok (e.2, rest)) (rest : Bytes) :
    readEntries item (encodeLength l.length
      ++ (l.flatMap fun e => leBytes 4 e.1.toNat ++ write e.2) ++ rest) = .ok (l, rest) := by
  have hentry : ∀ e ∈ l, ∀ rest,
      readEntry item (leBytes 4 e.1.toNat ++ write e.2 ++ rest) = .ok (e, rest) := by
    intro e he rest
    have hkey : e.1.toNat < 256 ^ 4 := e.1.toNat_lt
    rw [readEntry, List.append_assoc, readNat_leBytes hkey]
    show (item (write e.2 ++ rest) >>= fun r => _) = _
    rw [h e he, UInt32.ofNat_toNat]
    rfl
  rw [readEntries, List.append_assoc, readNat_encodeLength hlength]
  exact readMany_flatMap hentry rest

/-! ## Values -/

mutual

/-- A value is read back from the front of what was written, and what follows it is left. -/
theorem decode_encode : {α : Type} → (s : Schema α) → (a : α) → s.Fits a → ∀ rest,
    decode s (encode s a ++ rest) = .ok (a, rest)
  | _, .octet, b, _, rest => rfl
  | _, .word, n, _, rest => by
    show (readNat 4 (leBytes 4 n.toNat ++ rest) >>= fun r => _) = _
    rw [readNat_leBytes n.toNat_lt]
    show Except.ok (UInt32.ofNat n.toNat, rest) = _
    rw [UInt32.ofNat_toNat]
  | _, .long, n, _, rest => by
    show (readNat 8 (leBytes 8 n.toNat ++ rest) >>= fun r => _) = _
    rw [readNat_leBytes n.toNat_lt]
    show Except.ok (UInt64.ofNat n.toNat, rest) = _
    rw [UInt64.ofNat_toNat]
  | _, .text, s, h, rest => readText_append h rest
  | _, .hash, h, _, rest => readHash_append h rest
  | _, .choice variants, a, _, rest => readChoice_append variants a rest
  | _, .option _, none, _, rest => rfl
  | _, .option item, some a, h, rest => by
    show (decode item (encode item a ++ rest) >>= fun r => _) = _
    rw [decode_encode item a h]
    rfl
  | _, .list item, l, h, rest => by
    show (readNat 8 (encodeLength l.length ++ l.flatMap (encode item) ++ rest) >>= fun r => _) = _
    rw [List.append_assoc, readNat_encodeLength h.1]
    exact readMany_flatMap (fun a ha => decode_encode item a (h.2 a ha)) rest
  | _, .map item, m, h, rest => by
    show (readEntries (decode item) (encodeLength m.entries.length ++ _ ++ rest) >>= fun r => _) = _
    rw [readEntries_flatMap h.1 fun e he => decode_encode item e.2 (h.2 e he)]
    show Except.ok (GroupMap.ofList m.entries, rest) = _
    rw [GroupMap.ofList_entries]
  | _, .entries item, l, h, rest =>
    readEntries_flatMap h.1 (fun e he => decode_encode item e.2 (h.2 e he)) rest
  | _, .record fields pack unpack pack_unpack _, a, h, rest => by
    show (decodeFields fields (encodeFields fields (unpack a) ++ rest) >>= fun r => _) = _
    rw [decodeFields_encodeFields fields (unpack a) h]
    show Except.ok (pack (unpack a), rest) = _
    rw [pack_unpack]
  termination_by structural _ s => s

theorem decodeFields_encodeFields : {names : List String} → {τ : Type} →
    (fields : Fields names τ) → (t : τ) → fields.Fits t → ∀ rest,
    decodeFields fields (encodeFields fields t ++ rest) = .ok (t, rest)
  | _, _, .nil, _, _, rest => rfl
  | _, _, .cons _ item others _, t, h, rest => by
    show (decode item (encode item t.1 ++ encodeFields others t.2 ++ rest) >>= fun r => _) = _
    rw [List.append_assoc, decode_encode item t.1 h.1]
    show (decodeFields others (encodeFields others t.2 ++ rest) >>= fun r => _) = _
    rw [decodeFields_encodeFields others t.2 h.2]
    rfl
  termination_by structural _ _ s => s

end

/-- Values with one binary form are equal. -/
theorem eq_of_encode_eq {s : Schema α} {a b : α} (ha : s.Fits a) (hb : s.Fits b)
    (h : encode s a = encode s b) : a = b := by
  have hread := decode_encode s a ha []
  rw [h, decode_encode s b hb] at hread
  exact (Prod.mk.inj (Except.ok.inj hread)).1.symm

end Binary

end VeiledLedger.Wire
