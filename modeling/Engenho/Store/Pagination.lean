import Engenho.Store.Read

/-!
# The continue token of a paged LIST

A page hands its reader an opaque token: the revision of the series and the last key it emitted, as
hexadecimal text over a version byte, eight bytes of a digest and the JSON body. Decoding checks
each part; `ContinueToken.decode_encode` says that a token handed out is read back.

Serialisation to JSON bytes and the digest are a parameter (`TokenCodec`).
-/

namespace Engenho
open List

/-- The revision of a series and where it stands. -/
structure ContinueToken where
  snapshotRev : Nat
  lastKey : ResourceKey
deriving DecidableEq

/-- The JSON serialisation of tokens and the digest over it. -/
structure TokenCodec where
  toJson : ContinueToken → List UInt8
  fromJson : List UInt8 → Option ContinueToken
  digest : List UInt8 → List UInt8
  fromJson_toJson : ∀ t, fromJson (toJson t) = some t
  length_digest : ∀ bytes, (digest bytes).length = 32

/-- Why a token was refused. -/
inductive ContinueInvalid where
  | badHex
  | tooShort
  | badVersion
  | digestMismatch
  | badJson
deriving DecidableEq, Repr

def ContinueInvalid.reason : ContinueInvalid → String
  | .badHex => "bad_hex"
  | .tooShort => "too_short"
  | .badVersion => "bad_version"
  | .digestMismatch => "digest_mismatch"
  | .badJson => "bad_json"

def continueTokenVersion : UInt8 := 1

def digestPrefixLen : Nat := 8

/-! ## Hexadecimal text -/

def hexDigits : List Char :=
  ['0', '1', '2', '3', '4', '5', '6', '7', '8', '9', 'a', 'b', 'c', 'd', 'e', 'f']

def hexDigit (n : Nat) : Char := hexDigits.getD n '0'

def toHexChars : List UInt8 → List Char
  | [] => []
  | b :: bs => hexDigit (b.toNat / 16) :: hexDigit (b.toNat % 16) :: toHexChars bs

def toHex (bytes : List UInt8) : String := String.ofList (toHexChars bytes)

def nibble (c : Char) : Option Nat :=
  if '0' ≤ c ∧ c ≤ '9' then some (c.toNat - '0'.toNat)
  else if 'a' ≤ c ∧ c ≤ 'f' then some (c.toNat - 'a'.toNat + 10)
  else if 'A' ≤ c ∧ c ≤ 'F' then some (c.toNat - 'A'.toNat + 10)
  else none

/-- Pairs of nibbles. The source reads bytes; a character of more than one byte has no nibble, so
both refuse the same texts. -/
def fromHexChars : List Char → Option (List UInt8)
  | [] => some []
  | [_] => none
  | hi :: lo :: rest => do
    let hi ← nibble hi
    let lo ← nibble lo
    let bytes ← fromHexChars rest
    return UInt8.ofNat (hi * 16 + lo) :: bytes

def fromHex (s : String) : Option (List UInt8) := fromHexChars s.toList

theorem nibble_hexDigit {n : Nat} (h : n < 16) : nibble (hexDigit n) = some n := by
  have all : ∀ i : Fin 16, nibble (hexDigit i) = some i.val := by decide
  exact all ⟨n, h⟩

variable (bytes : List UInt8)

theorem fromHexChars_toHexChars : fromHexChars (toHexChars bytes) = some bytes := by
  induction bytes with
  | nil => rfl
  | cons b bs ih =>
    have hb : b.toNat < 256 := b.toNat_lt
    have hhi := nibble_hexDigit (n := b.toNat / 16) (by omega)
    have hlo := nibble_hexDigit (n := b.toNat % 16) (by omega)
    have hsum : b.toNat / 16 * 16 + b.toNat % 16 = b.toNat := by omega
    simp only [toHexChars, fromHexChars, hhi, hlo, ih, Option.bind_eq_bind, Option.bind_some, hsum,
      UInt8.ofNat_toNat, Option.pure_def]

theorem fromHex_toHex : fromHex (toHex bytes) = some bytes := by
  rw [fromHex, toHex, String.toList_ofList, fromHexChars_toHexChars]

/-! ## Tokens -/

namespace ContinueToken
variable (codec : TokenCodec)

/-- The text of a token. -/
def encode (t : ContinueToken) : String :=
  let json := codec.toJson t
  toHex (continueTokenVersion :: (codec.digest json).take digestPrefixLen ++ json)

/-- A token, if its version and digest are right. -/
def decode (s : String) : Except ContinueInvalid ContinueToken :=
  match fromHex s with
  | none => .error .badHex
  | some raw =>
    if raw.length < 1 + digestPrefixLen then .error .tooShort
    else if raw.head? ≠ some continueTokenVersion then .error .badVersion
    else
      let json := raw.drop (1 + digestPrefixLen)
      if (codec.digest json).take digestPrefixLen ≠ (raw.drop 1).take digestPrefixLen then
        .error .digestMismatch
      else
        match codec.fromJson json with
        | some t => .ok t
        | none => .error .badJson

variable (t : ContinueToken)

theorem decode_encode : decode codec (encode codec t) = .ok t := by
  have hlen : ((codec.digest (codec.toJson t)).take digestPrefixLen).length = digestPrefixLen := by
    rw [length_take, codec.length_digest]
    rfl
  simp only [decode, encode, fromHex_toHex]
  generalize hd : (codec.digest (codec.toJson t)).take digestPrefixLen = digest at hlen
  have hjson : (continueTokenVersion :: digest ++ codec.toJson t).drop (1 + digestPrefixLen) =
      codec.toJson t := by
    rw [cons_append]
    exact drop_left' hlen
  have hdigest : ((continueTokenVersion :: digest ++ codec.toJson t).drop 1).take digestPrefixLen =
      digest :=
    take_left' hlen
  have hnotShort : ¬ (continueTokenVersion :: digest ++ codec.toJson t).length <
      1 + digestPrefixLen := by
    rw [length_append, length_cons]
    omega
  simp only [hjson, hdigest, hd, if_neg hnotShort, codec.fromJson_toJson]
  simp

/-- A token of the client is never empty, so it is not read as "first page". -/
theorem encode_ne_empty : encode codec t ≠ "" := by
  intro h
  have := congrArg String.toList h
  simp [encode, toHex, toHexChars] at this

end ContinueToken

/-! ## A codec for concrete runs -/

/-- Numbers in unary, each list closed by a zero byte. -/
def tally : List (List Nat) → List UInt8
  | [] => []
  | ns :: rest => ns.flatMap (fun n => List.replicate n 1 ++ [2]) ++ 0 :: tally rest

def untally (n : Nat) (ns : List Nat) : List UInt8 → List (List Nat)
  | [] => []
  | b :: bytes =>
    if b = 0 then ns :: untally 0 [] bytes
    else if b = 1 then untally (n + 1) ns bytes
    else untally 0 (ns ++ [n]) bytes

theorem untally_number (n k : Nat) (ns : List Nat) (bytes : List UInt8) :
    untally n ns (List.replicate k 1 ++ 2 :: bytes) = untally 0 (ns ++ [n + k]) bytes := by
  induction k generalizing n with
  | zero => rfl
  | succ k ih =>
    rw [replicate_succ, cons_append, untally, if_neg (by decide), if_pos rfl, ih,
      Nat.add_right_comm, Nat.add_assoc]

theorem untally_list (ns acc : List Nat) (bytes : List UInt8) :
    untally 0 acc (ns.flatMap (fun n => List.replicate n 1 ++ [2]) ++ 0 :: bytes) =
      (acc ++ ns) :: untally 0 [] bytes := by
  induction ns generalizing acc with
  | nil => simp [untally]
  | cons n ns ih =>
    rw [flatMap_cons, append_assoc, append_assoc, singleton_append, untally_number, ih]
    simp

theorem untally_tally (nss : List (List Nat)) : untally 0 [] (tally nss) = nss := by
  induction nss with
  | nil => rfl
  | cons ns nss ih => rw [tally, untally_list, ih, nil_append]

def codes (s : String) : List Nat := s.toList.map Char.toNat

def ofCodes (ns : List Nat) : String := String.ofList (ns.map Char.ofNat)

theorem ofCodes_codes (s : String) : ofCodes (codes s) = s := by
  simp [ofCodes, codes, Function.comp_def]

/-- Tokens in unary, with a digest that is the same for all. -/
def tallyCodec : TokenCodec where
  toJson t := tally [[t.snapshotRev], codes t.lastKey.group, codes t.lastKey.version,
    codes t.lastKey.kind, (t.lastKey.ns.map fun s => 0 :: codes s).getD [], codes t.lastKey.name]
  fromJson bytes :=
    match untally 0 [] bytes with
    | [[rev], g, v, k, ns, n] =>
      some ⟨rev, ⟨ofCodes g, ofCodes v, ofCodes k, ns.tail?.map ofCodes, ofCodes n⟩⟩
    | _ => none
  digest _ := List.replicate 32 0
  fromJson_toJson t := by
    obtain ⟨rev, g, v, k, ns, n⟩ := t
    simp only [untally_tally, ofCodes_codes]
    cases ns with
    | none => rfl
    | some s => simp [ofCodes_codes]
  length_digest _ := rfl

end Engenho
