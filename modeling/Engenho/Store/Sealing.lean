import Engenho.Store.Catalog

/-!
# Sealed values at rest

A store writes the values of sealed kinds encrypted, as a JSON string that begins with
`envelopeHead` and names the key: `engenho-sealed:v1:<key id>:<base64 of nonce and body>`. The
cipher, base64 and the JSON text are outside this repository and come in through `SealCodec`.

* `KeyId.parse_hex`: the printed key id reads back;
* `SecretSealer.open_seal`: with a lawful cipher and base64, a sealer opens what it sealed.
-/

namespace Engenho
open List

abbrev Bytes := List UInt8

/-- Every sealed value begins with this. -/
def envelopeHead : String := "engenho-sealed:v1:"

def nonceLen : Nat := 24

def sealedKinds : List String := ["Secret"]

/-- The object is sealed at rest. -/
def isSealedKind (key : ResourceKey) : Bool :=
  key.group.isEmpty && sealedKinds.contains key.kind

/-- The value is a string that begins like an envelope. No JSON object is. -/
def isEnvelope (value : ResourceValue) : Bool :=
  value.asStr.any fun text => envelopeHead.toList.isPrefixOf text.toList

/-! ## Key ids -/

/-- The public fingerprint of a secrets key. -/
structure KeyId where
  bytes : Bytes
  length_eq : bytes.length = 8
deriving DecidableEq, Repr

def hexByte (b : UInt8) : List Char := [Nat.digitChar (b.toNat / 16), Nat.digitChar (b.toNat % 16)]

def KeyId.hex (id : KeyId) : String := String.ofList (id.bytes.flatMap hexByte)

/-- The value of a hexadecimal digit of either case. -/
def hexValue (c : Char) : Option Nat :=
  if '0' ≤ c ∧ c ≤ '9' then some (c.toNat - '0'.toNat)
  else if 'a' ≤ c ∧ c ≤ 'f' then some (c.toNat - 'a'.toNat + 10)
  else if 'A' ≤ c ∧ c ≤ 'F' then some (c.toNat - 'A'.toNat + 10)
  else none

/-- Two characters as a byte in base 16. A plus sign may stand before a single digit. -/
def byteOfHex (high low : Char) : Option UInt8 :=
  if high = '+' then (hexValue low).map UInt8.ofNat
  else do
    let h ← hexValue high
    let l ← hexValue low
    return UInt8.ofNat (16 * h + l)

def bytesOfHex : List Char → Option Bytes
  | [] => some []
  | [_] => none
  | high :: low :: rest => do
    let b ← byteOfHex high low
    let bs ← bytesOfHex rest
    return b :: bs

/-- Sixteen ASCII characters, two for each byte. -/
def KeyId.parse (hex : List Char) : Option KeyId :=
  if hex.length ≠ 16 || !hex.all (·.toNat < 128) then none
  else (bytesOfHex hex).bind fun bytes =>
    if h : bytes.length = 8 then some ⟨bytes, h⟩ else none

/-- What `hexByte` prints of each byte: it reads back, and both digits are ASCII but no colon. -/
theorem hexByte_spec (b : UInt8) :
    byteOfHex (Nat.digitChar (b.toNat / 16)) (Nat.digitChar (b.toNat % 16)) = some b ∧
      ∀ c ∈ hexByte b, c.toNat < 128 ∧ c ≠ ':' := by
  have key : ∀ n < 256, byteOfHex (Nat.digitChar (n / 16)) (Nat.digitChar (n % 16)) =
    some (UInt8.ofNat n) ∧
        ((Nat.digitChar (n / 16)).toNat < 128 ∧ Nat.digitChar (n / 16) ≠ ':') ∧
        (Nat.digitChar (n % 16)).toNat < 128 ∧ Nat.digitChar (n % 16) ≠ ':' := by
    decide +kernel
  obtain ⟨hread, hhigh, hlow⟩ := key b.toNat b.toNat_lt
  rw [UInt8.ofNat_toNat] at hread
  refine ⟨hread, forall_mem_cons.mpr ⟨hhigh, forall_mem_singleton.mpr hlow⟩⟩

theorem bytesOfHex_hex (bs : Bytes) : bytesOfHex (bs.flatMap hexByte) = some bs := by
  induction bs with
  | nil => rfl
  | cons b bs ih =>
    have hb := (hexByte_spec b).1
    rw [flatMap_cons, hexByte, cons_append, cons_append, nil_append, bytesOfHex, hb, ih]
    rfl

theorem length_hex (bs : Bytes) : (bs.flatMap hexByte).length = 2 * bs.length := by
  induction bs with
  | nil => rfl
  | cons b bs ih =>
    rw [flatMap_cons, length_append, hexByte]
    simp only [length_cons, length_nil]
    omega

theorem hex_char {bs : Bytes} {c : Char} (h : c ∈ bs.flatMap hexByte) :
    c.toNat < 128 ∧ c ≠ ':' := by
  obtain ⟨b, -, hc⟩ := mem_flatMap.mp h
  exact (hexByte_spec b).2 c hc

theorem KeyId.parse_hex (id : KeyId) : KeyId.parse id.hex.toList = some id := by
  have hlen : (id.bytes.flatMap hexByte).length = 16 := by rw [length_hex, id.length_eq]
  have hascii : (id.bytes.flatMap hexByte).all (·.toNat < 128) = true := by
    rw [all_eq_true]
    intro c hc
    simpa using (hex_char hc).1
  rw [KeyId.hex, String.toList_ofList, KeyId.parse, if_neg (by simp [hlen, hascii]), bytesOfHex_hex]
  simp [id.length_eq]

/-! ## The sealer -/

/-- Whether a store seals what it writes. -/
inductive SealWrites where
  | seal
  | plain
deriving DecidableEq, Repr

/-- The key of a store. A cipher is kept as the key it was made from. -/
inductive KeyState where
  | held (cipher : Bytes) (id : KeyId)
  | absent
  | unusable
deriving DecidableEq, Repr

/-- The key of a store and what it does with it. -/
structure SecretSealer where
  writes : SealWrites
  key : KeyState
  pinned : Option KeyId
deriving DecidableEq, Repr

/-- The bytes that make each sealing different. -/
structure Nonce where
  bytes : Bytes
  length_eq : bytes.length = nonceLen

/-- What sealing takes from outside: the cipher (key, nonce, associated data, message), base64, and
the JSON texts of a key and of a value. -/
structure SealCodec where
  encrypt : Bytes → Nonce → Bytes → Bytes → Option Bytes
  decrypt : Bytes → Nonce → Bytes → Bytes → Option Bytes
  encode64 : Bytes → String
  decode64 : String → Option Bytes
  keyText : ResourceKey → Bytes
  valueText : ResourceValue → Bytes
  readValue : Bytes → Option ResourceValue

/-- The text before the first `sep` and the text after it. -/
def splitOnce (sep : Char) : List Char → Option (List Char × List Char)
  | [] => none
  | c :: cs => if c = sep then some ([], cs) else (splitOnce sep cs).map fun s => (c :: s.1, s.2)

/-- The envelope without its head. -/
def stripHead (text : List Char) : Option (List Char) :=
  if envelopeHead.toList.isPrefixOf text then some (text.drop envelopeHead.toList.length) else none

theorem splitOnce_append {sep : Char} {before : List Char} (h : sep ∉ before) (after : List Char) :
    splitOnce sep (before ++ sep :: after) = some (before, after) := by
  induction before with
  | nil => simp [splitOnce]
  | cons c cs ih =>
    obtain ⟨hc, hcs⟩ := not_or.mp (mem_cons.not.mp h)
    rw [cons_append, splitOnce, if_neg (Ne.symm hc), ih hcs]
    rfl

theorem stripHead_append (text : List Char) :
    stripHead (envelopeHead.toList ++ text) = some text := by
  have hhead : envelopeHead.toList.isPrefixOf (envelopeHead.toList ++ text) = true :=
    isPrefixOf_iff_prefix.mpr (prefix_append ..)
  rw [stripHead, if_pos hhead, drop_left]

namespace SecretSealer

/-- Why a sealed kind cannot be written now. -/
def writeFault (s : SecretSealer) : Option SealFault :=
  if s.writes = .plain then none
  else
    match s.key, s.pinned with
    | .held _ id, some wanted => if id ≠ wanted then some (.wrongKey wanted.hex id.hex) else none
    | .held _ _, none => none
    | .absent, some wanted => some (.keyMissing wanted.hex)
    | .absent, none => some .keyUnusable
    | .unusable, _ => some .keyUnusable

/-- The sealer has a key and is to use it. -/
def seals (s : SecretSealer) : Bool := decide (s.writes = .seal) && s.writeFault.isNone

/-- The fault of an envelope that does not parse or does not authenticate. -/
def damaged (s : SecretSealer) : SealFault :=
  match s.key with
  | .held _ id => .damaged id.hex
  | .absent | .unusable => .keyUnusable

/-- The envelope of `plain`; the nonce is drawn at random. -/
def seal_ (codec : SealCodec) (s : SecretSealer) (nonce : Nonce) (aad plain : Bytes) :
    Except SealFault String :=
  match s.key, s.writeFault with
  | .held cipher id, none =>
    match codec.encrypt cipher nonce aad plain with
    | none => .error (.damaged id.hex)
    | some body => .ok (envelopeHead ++ id.hex ++ ":" ++ codec.encode64 (nonce.bytes ++ body))
  | _, fault => .error (fault.getD .keyUnusable)

/-- The bytes sealed in an envelope. -/
def open_ (codec : SealCodec) (s : SecretSealer) (aad : Bytes) (envelope : String) :
    Except SealFault Bytes :=
  match (stripHead envelope.toList).bind (splitOnce ':') with
  | none => .error s.damaged
  | some (id, encoded) =>
    match KeyId.parse id with
    | none => .error s.damaged
    | some wanted =>
      match s.key with
      | .absent => .error (.keyMissing wanted.hex)
      | .unusable => .error .keyUnusable
      | .held cipher have_ =>
        if have_ ≠ wanted then .error (.wrongKey wanted.hex have_.hex)
        else
          match codec.decode64 (String.ofList encoded) with
          | none => .error (.damaged have_.hex)
          | some sealed =>
            if h : sealed.length < nonceLen then .error (.damaged have_.hex)
            else
              match codec.decrypt cipher ⟨sealed.take nonceLen,
                List.length_take_of_le (not_lt.mp h)⟩
                  aad (sealed.drop nonceLen) with
              | none => .error (.damaged have_.hex)
              | some plain => .ok plain

/-- The data a sealed value is bound to: its own key. -/
def resourceAad (codec : SealCodec) (key : ResourceKey) : Bytes :=
  "resource:".toList.map (fun c => UInt8.ofNat c.toNat) ++ codec.keyText key

/-- An object as its envelope. -/
def sealValue (codec : SealCodec) (s : SecretSealer) (nonce : Nonce) (key : ResourceKey)
    (value : ResourceValue) : Except SealFault ResourceValue :=
  (s.seal_ codec nonce (resourceAad codec key) (codec.valueText value)).map .str

/-- The object of an envelope. -/
def openValue (codec : SealCodec) (s : SecretSealer) (key : ResourceKey) (envelope : String) :
    Except SealFault ResourceValue :=
  match s.open_ codec (resourceAad codec key) envelope with
  | .error fault => .error fault
  | .ok plain =>
    match codec.readValue plain with
    | none => .error s.damaged
    | some value => .ok value

/-- The sealer opens whatever it sealed, under the same associated data. -/
def Inverts (codec : SealCodec) (s : SecretSealer) : Prop :=
  ∀ nonce aad plain envelope, s.seal_ codec nonce aad plain = .ok envelope →
    s.open_ codec aad envelope = .ok plain

variable {codec : SealCodec} {s : SecretSealer}
variable {envelope : String} {nonce : Nonce} {key : ResourceKey} {value : ResourceValue}

/-- A sealed envelope was made by the key the store holds. -/
theorem seal_eq_ok {aad plain : Bytes} (h : s.seal_ codec nonce aad plain = .ok envelope) :
    ∃ cipher id body, s.key = .held cipher id ∧ codec.encrypt cipher nonce aad plain = some body ∧
      envelope = envelopeHead ++ id.hex ++ ":" ++ codec.encode64 (nonce.bytes ++ body) := by
  unfold seal_ at h
  split at h
  · rename_i cipher id hkey hfault
    split at h
    · cases h
    · rename_i body hbody
      cases h
      exact ⟨cipher, id, body, hkey, hbody, rfl⟩
  · cases h

theorem isEnvelope_sealValue {sealed : ResourceValue}
    (h : s.sealValue codec nonce key value = .ok sealed) :
    isEnvelope sealed = true ∧ ∃ envelope, sealed = .str envelope := by
  cases hseal : s.seal_ codec nonce (resourceAad codec key) (codec.valueText value) with
  | error fault => simp [sealValue, hseal, Except.map] at h
  | ok envelope =>
    obtain ⟨cipher, id, body, -, -, rfl⟩ := seal_eq_ok hseal
    simp only [sealValue, hseal, Except.map, Except.ok.injEq] at h
    subst h
    refine ⟨?_, _, rfl⟩
    simp [isEnvelope, Json.asStr]

/-- A cipher and a base64 that read back what they wrote make every sealer open what it seals. -/
theorem open_seal (haead : ∀ cipher nonce aad plain body,
    codec.encrypt cipher nonce aad plain = some body →
      codec.decrypt cipher nonce aad body = some plain)
    (h64 : ∀ bytes, codec.decode64 (codec.encode64 bytes) = some bytes) : s.Inverts codec := by
  intro nonce aad plain envelope h
  obtain ⟨cipher, id, body, hkey, hbody, rfl⟩ := seal_eq_ok h
  have hcolon : ':' ∉ id.hex.toList := by
    rw [KeyId.hex, String.toList_ofList]
    exact fun hc => (hex_char hc).2 rfl
  have hsplit : (stripHead (envelopeHead ++ id.hex ++ ":" ++
      codec.encode64 (nonce.bytes ++ body)).toList).bind (splitOnce ':') =
      some (id.hex.toList, (codec.encode64 (nonce.bytes ++ body)).toList) := by
    simp only [String.toList_append, append_assoc]
    rw [stripHead_append]
    exact splitOnce_append hcolon _
  have hlen : ¬ (nonce.bytes ++ body).length < nonceLen := by
    rw [length_append, nonce.length_eq]
    omega
  have htake : (nonce.bytes ++ body).take nonceLen = nonce.bytes := take_left' nonce.length_eq
  have hdrop : (nonce.bytes ++ body).drop nonceLen = body := drop_left' nonce.length_eq
  simp only [open_, hsplit, KeyId.parse_hex, hkey, ne_eq, not_true_eq_false, if_false,
    String.ofList_toList, h64, hlen, dite_false, htake, hdrop, haead _ _ _ _ _ hbody]

/-- A value whose text reads back is opened from its own sealed form. -/
theorem openValue_sealValue (hinv : s.Inverts codec)
    (htext : codec.readValue (codec.valueText value) = some value)
    (h : s.sealValue codec nonce key value = .ok (.str envelope)) :
    s.openValue codec key envelope = .ok value := by
  cases hseal : s.seal_ codec nonce (resourceAad codec key) (codec.valueText value) with
  | error fault => simp [sealValue, hseal, Except.map] at h
  | ok text =>
    simp only [sealValue, hseal, Except.map, Except.ok.injEq, Json.str.injEq] at h
    subst h
    simp [openValue, hinv _ _ _ _ hseal, htext]

end SecretSealer
end Engenho
