import VeiledLedger.Proofs.BinaryRoundTrip
import VeiledLedger.Wire.Formats

set_option autoImplicit false

/-! # Byte strings that end too early

A reader goes through its input from front to back (`Sequential`): what follows a value makes no
difference to it, and neither does it to a fault, unless the fault is that the input ends. The parts
of the format are read in this way and one after another, so every value is. Hence of the binary form
of a value nothing can be cut off: if its front could be read, so could the whole with something left
over, and nothing is left over (`decodeFront_encode`). -/

namespace VeiledLedger.Wire.Binary

variable {α β : Type}

/-- The input ended inside a value. -/
def Fault.IsTruncation (fault : Fault) : Prop :=
  fault = .endOfInput ∨ fault = .truncatedText

/-- What a reader gives stays the same when more follows, unless it had come to the end. -/
structure Sequential (read : Reader α) : Prop where
  ok_append : ∀ {input : Bytes} {a : α} {rest : Bytes}, read input = .ok (a, rest) →
    ∀ more, read (input ++ more) = .ok (a, rest ++ more)
  error_append : ∀ {input : Bytes} {fault : Fault}, read input = .error fault →
    fault.IsTruncation ∨ ∀ more, read (input ++ more) = .error fault

namespace Sequential

/-! ## Readers from readers -/

theorem pure (a : α) : Sequential fun input => .ok (a, input) := by
  refine ⟨fun h more => ?_, fun h => ?_⟩
  · obtain ⟨rfl, rfl⟩ := Prod.mk.inj (Except.ok.inj h)
    rfl
  · cases h

theorem error (fault : Fault) : Sequential fun _ => (.error fault : Except Fault (α × Bytes)) := by
  refine ⟨fun h => ?_, fun h => .inr fun _ => h⟩
  cases h

theorem bind {f : Reader α} {k : α → Reader β} (hf : Sequential f) (hk : ∀ a, Sequential (k a)) :
    Sequential fun input => f input >>= fun r => k r.1 r.2 := by
  constructor
  · intro input b rest h more
    cases hfirst : f input with
    | error fault =>
      rw [hfirst] at h
      cases h
    | ok r =>
      obtain ⟨a, middle⟩ := r
      rw [hfirst] at h
      rw [hf.ok_append hfirst more]
      exact (hk a).ok_append h more
  · intro input fault h
    cases hfirst : f input with
    | error first =>
      rw [hfirst] at h
      obtain rfl := Except.error.inj h
      rcases hf.error_append hfirst with htruncated | hsame
      · exact .inl htruncated
      · refine .inr fun more => ?_
        rw [hsame more]
        rfl
    | ok r =>
      obtain ⟨a, middle⟩ := r
      rw [hfirst] at h
      rcases (hk a).error_append h with htruncated | hsame
      · exact .inl htruncated
      · refine .inr fun more => ?_
        rw [hf.ok_append hfirst more]
        exact hsame more

theorem map {f : Reader α} (hf : Sequential f) (g : α → β) :
    Sequential fun input => f input >>= fun r => .ok (g r.1, r.2) :=
  hf.bind fun a => pure (g a)

end Sequential

/-! ## Parts -/

theorem sequential_readOctets (n : Nat) : Sequential (readOctets n) := by
  constructor
  · intro input bytes rest h more
    by_cases hshort : (input.take n).length < n
    · rw [readOctets, if_pos hshort] at h
      cases h
    · have hle : n ≤ input.length := by
        rw [List.length_take] at hshort
        omega
      rw [readOctets, if_neg hshort] at h
      obtain ⟨rfl, rfl⟩ := Prod.mk.inj (Except.ok.inj h)
      rw [readOctets, List.take_append_of_le_length hle, List.drop_append_of_le_length hle,
        if_neg hshort]
  · intro input fault h
    by_cases hshort : (input.take n).length < n
    · rw [readOctets, if_pos hshort] at h
      exact .inl (.inl (Except.error.inj h).symm)
    · rw [readOctets, if_neg hshort] at h
      cases h

theorem sequential_readNat (width : Nat) : Sequential (readNat width) :=
  (sequential_readOctets width).map ofLE

theorem sequential_readOctet : Sequential readOctet := by
  constructor
  · intro input b rest h more
    cases input with
    | nil => cases h
    | cons first others =>
      obtain ⟨rfl, rfl⟩ := Prod.mk.inj (Except.ok.inj h)
      rfl
  · intro input fault h
    cases input with
    | nil => exact .inl (.inl (Except.error.inj h).symm)
    | cons first others => cases h

theorem sequential_readHash : Sequential readHash := by
  constructor
  · intro input hash rest h more
    unfold readHash Hash.ofBytes? at h ⊢
    by_cases hlen : (input.take 32).length = 32
    · have hle : 32 ≤ input.length := by
        rw [List.length_take] at hlen
        omega
      rw [dif_pos hlen] at h
      obtain ⟨rfl, rfl⟩ := Prod.mk.inj (Except.ok.inj h)
      rw [List.take_append_of_le_length hle, List.drop_append_of_le_length hle, dif_pos hlen]
    · rw [dif_neg hlen] at h
      cases h
  · intro input fault h
    unfold readHash at h
    split at h
    · cases h
    · exact .inl (.inl (Except.error.inj h).symm)

/-- The octets of a text are looked at when all of them are there, so what follows them is no part of
a fault either. -/
theorem sequential_textOctets (n : Nat) : Sequential fun input =>
    if input.length < n then .error .truncatedText
    else
      match Text.Utf8.decode (input.take n) with
      | .ok chars => .ok (String.ofList chars, input.drop n)
      | .error fault => .error (.invalidText fault) := by
  have hlonger {input : Bytes} (hlen : ¬ input.length < n) (more : Bytes) :
      ¬ (input ++ more).length < n := by
    rw [List.length_append]
    omega
  constructor
  · intro input s rest h more
    by_cases hlen : input.length < n
    · rw [if_pos hlen] at h
      cases h
    · have hle : n ≤ input.length := Nat.le_of_not_lt hlen
      rw [if_neg hlen] at h
      rw [if_neg (hlonger hlen more), List.take_append_of_le_length hle,
        List.drop_append_of_le_length hle]
      cases hchars : Text.Utf8.decode (input.take n) with
      | error fault =>
        rw [hchars] at h
        cases h
      | ok chars =>
        rw [hchars] at h
        obtain ⟨rfl, rfl⟩ := Prod.mk.inj (Except.ok.inj h)
        rfl
  · intro input fault h
    by_cases hlen : input.length < n
    · rw [if_pos hlen] at h
      exact .inl (.inr (Except.error.inj h).symm)
    · refine .inr fun more => ?_
      rw [if_neg hlen] at h
      rw [if_neg (hlonger hlen more), List.take_append_of_le_length (Nat.le_of_not_lt hlen)]
      cases hchars : Text.Utf8.decode (input.take n) with
      | error invalid =>
        rw [hchars] at h
        exact h
      | ok chars =>
        rw [hchars] at h
        cases h

theorem sequential_readText : Sequential readText :=
  (sequential_readNat 8).bind sequential_textOctets

/-- The place of an enumeration value is all that is read of it. -/
theorem sequential_place (variants : Variants α) (n : Nat) : Sequential fun input =>
    match variants.all[n]? with
    | some a => .ok (a, input)
    | none => .error (.unknownVariant (UInt32.ofNat n) variants.all.length) := by
  cases variants.all[n]? with
  | some a => exact .pure a
  | none => exact .error _

theorem sequential_readChoice (variants : Variants α) : Sequential (readChoice variants) :=
  (sequential_readNat 4).bind (sequential_place variants)

theorem Sequential.readOption {item : Reader α} (hitem : Sequential item) :
    Sequential (readOption item) := by
  have htagged (tag : UInt8) : Sequential fun input =>
      if tag = 0 then .ok (none, input)
      else if tag = 1 then item input >>= fun r => .ok (some r.1, r.2)
      else .error (.unknownTag tag) := by
    split_ifs
    · exact .pure none
    · exact hitem.map some
    · exact .error _
  exact sequential_readOctet.bind htagged

theorem Sequential.readMany {item : Reader α} (hitem : Sequential item) (n : Nat) :
    Sequential (readMany item n) := by
  induction n with
  | zero => exact .pure []
  | succ n ih => exact hitem.bind fun a => ih.map (a :: ·)

theorem Sequential.readEntries {item : Reader α} (hitem : Sequential item) :
    Sequential (readEntries item) := by
  have hentry : Sequential (readEntry item) :=
    (sequential_readNat 4).bind fun n => hitem.map (Prod.mk (UInt32.ofNat n))
  exact (sequential_readNat 8).bind fun n => hentry.readMany n

/-! ## Values -/

mutual

/-- Every value is read from front to back, by the readers of its parts. -/
theorem sequential_decode : {α : Type} → (s : Schema α) → Sequential (decode s)
  | _, .octet => sequential_readOctet
  | _, .word => (sequential_readNat 4).map UInt32.ofNat
  | _, .long => (sequential_readNat 8).map UInt64.ofNat
  | _, .text => sequential_readText
  | _, .hash => sequential_readHash
  | _, .choice variants => sequential_readChoice variants
  | _, .option item => (sequential_decode item).readOption
  | _, .list item => (sequential_readNat 8).bind fun n => (sequential_decode item).readMany n
  | _, .map item => (sequential_decode item).readEntries.map GroupMap.ofList
  | _, .entries item => (sequential_decode item).readEntries
  | _, .record fields pack _ _ _ => (sequential_decodeFields fields).map pack
  termination_by structural _ s => s

theorem sequential_decodeFields : {names : List String} → {τ : Type} →
    (fields : Fields names τ) → Sequential (decodeFields fields)
  | _, _, .nil => .pure ()
  | _, _, .cons _ item rest _ =>
    (sequential_decode item).bind fun a => (sequential_decodeFields rest).map (Prod.mk a)
  termination_by structural _ _ fields => fields

end

/-- A value is read back from the front of what was written, whatever follows it; and from what was
written with something cut off, nothing is read. -/
theorem decodeFront_encode (s : Schema α) (a : α) (h : s.Fits a) :
    (∀ rest, decodeFront s (encode s a ++ rest) = .ok a) ∧
      ∀ front, front <+: encode s a → front ≠ encode s a →
        ∃ fault, decodeFront s front = .error fault ∧ fault.IsTruncation := by
  refine ⟨fun rest => ?_, fun front hprefix hproper => ?_⟩
  · rw [decodeFront, decode_encode s a h]
    rfl
  · obtain ⟨more, hwhole⟩ := hprefix
    have hread := decode_encode s a h []
    rw [List.append_nil, ← hwhole] at hread
    cases hfront : decode s front with
    | ok r =>
      -- what was cut off would be left over
      obtain ⟨b, rest⟩ := r
      rw [(sequential_decode s).ok_append hfront more] at hread
      obtain ⟨-, hnone⟩ := Prod.mk.inj (Except.ok.inj hread)
      obtain ⟨-, rfl⟩ := List.append_eq_nil_iff.mp hnone
      exact absurd (by rwa [List.append_nil] at hwhole) hproper
    | error fault =>
      -- any other fault would be one of the whole, which is read without a fault
      refine ⟨fault, by rw [decodeFront, hfront]; rfl, ?_⟩
      rcases (sequential_decode s).error_append hfront with htruncated | hsame
      · exact htruncated
      · rw [hsame more] at hread
        cases hread

/-- A transaction with a command, a notary and an open time window. -/
def windowedBody : Body :=
  ⟨[], [], [], [⟨1, [2], []⟩], [], some ⟨"Zoë", [3]⟩, some ⟨some 4, none⟩, none⟩

theorem decodeFront_windowedBody :
    Body.schema.Fits windowedBody ∧
      decodeFront Body.schema (encode Body.schema windowedBody ++ [0]) = .ok windowedBody ∧
      ∃ fault, decodeFront Body.schema (encode Body.schema windowedBody).dropLast = .error fault ∧
        fault.IsTruncation := by
  have hfits : Body.schema.Fits windowedBody := by
    have hname : Schema.text.Fits "Zoë" :=
      (by decide : (Text.Utf8.encode "Zoë".toList).length < 2 ^ 64)
    have hnotary : Party.schema.Fits ⟨"Zoë", [3]⟩ := ⟨hname, by simp [Schema.Fits], trivial⟩
    simp [Schema.Fits, Fields.Fits, Body.schema, Command.schema, TimeWindow.schema, windowedBody,
      hnotary]
  obtain ⟨hwhole, hcut⟩ := decodeFront_encode Body.schema windowedBody hfits
  exact ⟨hfits, hwhole [0], hcut _ (List.dropLast_prefix _) (by decide)⟩

end VeiledLedger.Wire.Binary
