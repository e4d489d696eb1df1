/-
Identifiers, bytes, digests, errors.

The values every server module shares: identifiers and times, byte strings with
their hex spelling, the error type of `error.rs`, the digest check of `hash.rs`
and the magic-byte classification of `classify.rs`.

SHA-256 itself is a parameter wherever it occurs.  The hex spelling is not:
`hexToRaw_hexEncode` makes it invertible, so object keys determine digests.
-/
import Corpus.Encodings

namespace Corpus

export Encodings (hexDigit hexValue hexValue_hexDigit isWhiteSpace trimMatches trim fromLe toLe
  fieldAt length_toLe fromLe_lt fieldAt_lt fromLe_toLe_mod fromLe_toLe toLe_fromLe)

/-- A UUID, read as the 128-bit number whose order is the order of its bytes. -/
abbrev Uuid := ℕ

/-- A point in time. -/
abbrev Time := ℤ

abbrev Bytes := List UInt8

/-- A JSON value, as the request bodies and `jsonb` columns carry it. -/
inductive Json where
  | null
  | bool (b : Bool)
  | num (n : ℤ)
  | str (s : String)
  | arr (items : List Json)
  | obj (fields : List (String × Json))

namespace Json

/-- Member of an object (`Value::get`). -/
def get? : Json → String → Option Json
  | obj fields, k => (fields.find? fun f => f.1 = k).map Prod.snd
  | _, _ => none

/-- The text of a string value (`Value::as_str`). -/
def asStr : Json → Option String
  | str s => some s
  | _ => none

end Json

/-- The errors of `error.rs` that the modelled functions return. -/
inductive Error where
  | db (msg : String)
  | io (msg : String)
  | hashMismatch (announced recomputed : String)
  | ruleCompile (msg : String)
  | notFound (msg : String)
  | conflict (msg : String)
  | unauthorized (msg : String)
  | badRequest (msg : String)
  | forbidden (msg : String)
  deriving DecidableEq

/-! ### Hex -/

/-- The two digits of one byte. -/
def hexByte (b : UInt8) : List Char := [hexDigit (b.toNat / 16), hexDigit (b.toNat % 16)]

/-- `hex::encode`. -/
def hexEncode (b : Bytes) : String := String.ofList (b.flatMap hexByte)

/-- The bytes spelled by pairs of digits; an odd digit or a foreign character
is an error. -/
def hexPairs : List Char → Option Bytes
  | [] => some []
  | [_] => none
  | c :: d :: rest => do
    let hi ← hexValue c
    let lo ← hexValue d
    let tail ← hexPairs rest
    some (UInt8.ofNat (16 * hi + lo) :: tail)

/-- `hash::hex_to_raw`. -/
def hexToRaw (s : String) : Option Bytes := hexPairs s.toList

theorem hexPairs_flatMap (b : Bytes) : hexPairs (b.flatMap hexByte) = some b := by
  induction b with
  | nil => rfl
  | cons x b ih =>
    have hx : x.toNat < 256 := x.toNat_lt
    have hhi := hexValue_hexDigit (x.toNat / 16) (by omega)
    have hlo := hexValue_hexDigit (x.toNat % 16) (by omega)
    have hsum : 16 * (x.toNat / 16) + x.toNat % 16 = x.toNat := Nat.div_add_mod _ _
    simp only [List.flatMap_cons, hexByte, List.cons_append, List.nil_append, hexPairs, hhi, hlo,
      Option.bind_eq_bind, Option.bind_some, hsum, UInt8.ofNat_toNat]
    rw [ih]
    rfl

/-- Decoding inverts encoding. -/
theorem hexToRaw_hexEncode (b : Bytes) : hexToRaw (hexEncode b) = some b := by
  rw [hexToRaw, hexEncode, String.toList_ofList, hexPairs_flatMap]

theorem hexEncode_injective {a b : Bytes} (h : hexEncode a = hexEncode b) : a = b := by
  have ha := hexToRaw_hexEncode a
  rw [h, hexToRaw_hexEncode b] at ha
  exact (Option.some.inj ha).symm

/-! ### Texts -/

/-- `str::to_ascii_lowercase`. -/
def asciiLowercase (s : String) : String := String.ofList (s.toList.map Char.toLower)

/-! ### Digests -/

/-- `str::eq_ignore_ascii_case`. -/
def eqIgnoreAsciiCase (a b : String) : Bool :=
  a.toList.map Char.toLower = b.toList.map Char.toLower

/-- `hash::verify_upload`: the recomputed digest is the identity, the announced
one a hint that must agree with it. -/
def verifyUpload (sha256 : Bytes → Bytes) (bytes : Bytes) (announced : String) :
    Except Error Bytes :=
  if eqIgnoreAsciiCase (hexEncode (sha256 bytes)) announced then .ok (sha256 bytes)
  else .error (.hashMismatch announced (hexEncode (sha256 bytes)))

/-! ### Classification -/

/-- The classes of `classify.rs`. -/
inductive ArtifactClass where
  | pe
  | elf
  | machO
  | machOFat
  | script
  | unknown
  deriving DecidableEq

/-- `ArtifactClass::as_str`. -/
def ArtifactClass.asStr : ArtifactClass → String
  | pe => "pe"
  | elf => "elf"
  | machO => "macho"
  | machOFat => "macho_fat"
  | script => "script"
  | unknown => "unknown"

/-- The four bytes at `0x3c`, little endian. -/
def eLfanew (bytes : Bytes) : ℕ :=
  match bytes.drop 0x3c with
  | a :: b :: c :: d :: _ => a.toNat + 256 * (b.toNat + 256 * (c.toNat + 256 * d.toNat))
  | _ => 0

/-- `classify::classify`: the leading bytes decide. -/
def classify (bytes : Bytes) : ArtifactClass :=
  let magic := bytes.take 4
  if magic = [0x7f, 0x45, 0x4c, 0x46] then .elf
  else if magic = [0xfe, 0xed, 0xfa, 0xce] ∨ magic = [0xfe, 0xed, 0xfa, 0xcf] ∨
      magic = [0xce, 0xfa, 0xed, 0xfe] ∨ magic = [0xcf, 0xfa, 0xed, 0xfe] then .machO
  else if magic = [0xca, 0xfe, 0xba, 0xbe] ∨ magic = [0xbe, 0xba, 0xfe, 0xca] then .machOFat
  else if 0x40 ≤ bytes.length ∧ bytes.take 2 = [0x4d, 0x5a] ∧
      eLfanew bytes + 4 ≤ bytes.length ∧
      (bytes.drop (eLfanew bytes)).take 4 = [0x50, 0x45, 0, 0] then .pe
  else if bytes.take 2 = [0x23, 0x21] then .script
  else .unknown

end Corpus
