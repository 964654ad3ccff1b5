import BundleHook.Markup.Prolog
import BundleHook.Markup.Lexer
import BundleHook.PropertyList.Charset
import BundleHook.PropertyList.Octets
import BundleHook.PropertyList.Problem
import BundleHook.Text.Utf8

/-!
# Encodings of a document

A document begins with a byte order mark or in UTF-8, and may then declare another encoding that
writes ASCII characters as themselves. Octets that are no character become marks that no document
may hold, so that the place where a document cannot be read is a place in its text.
-/

namespace BundleHook.PropertyList

open Markup
open Utf8 (isTrail trailBits)

/-- The character of a code point; the code point that marks a cut is no character. -/
def charOf (n : Nat) : Char := if n = cutOff.toNat then garbled else Char.ofNat n

/-- The text of octets in UTF-8, up to the first that are no character. -/
def decodeUtf8 : Bytes → Text
  | [] => []
  | a :: rest =>
    if a < 0x80 then Char.ofNat a.toNat :: decodeUtf8 rest
    else if a < 0xC0 || 0xF5 ≤ a then [garbled]
    else if a < 0xE0 then
      match rest with
      | b :: rest =>
        if 0xC2 ≤ a && isTrail b then
          Char.ofNat (a.toNat % 32 * 64 + trailBits b) :: decodeUtf8 rest
        else [garbled]
      | _ => [cutOff]
    else if a < 0xF0 then
      match rest with
      | b :: c :: rest =>
        let n := (a.toNat % 16 * 64 + trailBits b) * 64 + trailBits c
        if isTrail b && isTrail c && 0x800 ≤ n && !(0xD800 ≤ n && n < 0xE000) then
          charOf n :: decodeUtf8 rest
        else [garbled]
      | _ => [cutOff]
    else
      match rest with
      | b :: c :: d :: rest =>
        let n := ((a.toNat % 8 * 64 + trailBits b) * 64 + trailBits c) * 64 + trailBits d
        if isTrail b && isTrail c && isTrail d && 0x10000 ≤ n && n < 0x110000 then
          Char.ofNat n :: decodeUtf8 rest
        else [garbled]
      | _ => [cutOff]

/-- The order of the two octets of a unit. -/
inductive Endian where
  | big
  | little
  deriving DecidableEq, Repr

def Endian.unit (endian : Endian) (a b : UInt8) : Nat :=
  match endian with
  | big => a.toNat * 256 + b.toNat
  | little => b.toNat * 256 + a.toNat

/-- The text of octets in UTF-16, up to the first that are no character. -/
def decodeUtf16 (endian : Endian) : Bytes → Text
  | [] => []
  | [_] => [cutOff]
  | a :: b :: rest =>
    let high := endian.unit a b
    if 0xD800 ≤ high && high < 0xDC00 then
      match rest with
      | c :: d :: rest =>
        let low := endian.unit c d
        if 0xDC00 ≤ low && low < 0xE000 then
          Char.ofNat (0x10000 + (high - 0xD800) * 0x400 + (low - 0xDC00)) ::
            decodeUtf16 endian rest
        else [garbled]
      | _ => [cutOff]
    else if 0xDC00 ≤ high && high < 0xE000 then [garbled]
    else charOf high :: decodeUtf16 endian rest

/-- What a declared encoding comes to. -/
inductive DeclaredEncoding where
  | utf8
  | utf16
  | utf16In (endian : Endian)
  | octets (charset : Charset)
  /-- More than one octet for some characters. -/
  | wide
  | unknown

def DeclaredEncoding.named (name : Text) : DeclaredEncoding :=
  let small := String.ofList (name.map Char.toLower)
  if small = "utf-8" then .utf8
  else if small = "utf-16" then .utf16
  else if small = "utf-16be" then .utf16In .big
  else if small = "utf-16le" then .utf16In .little
  else
    match Charset.named? name with
    | some charset => .octets charset
    | none => if wideNames.contains (plainName name) then .wide else .unknown

/-- The encoding a document begins in. -/
inductive OpeningEncoding where
  | utf8
  | utf16 (endian : Endian)
  deriving DecidableEq, Repr

def OpeningEncoding.of : Bytes → OpeningEncoding
  | 0xFE :: 0xFF :: _ => .utf16 .big
  | 0xFF :: 0xFE :: _ => .utf16 .little
  | _ => .utf8

def OpeningEncoding.decode (opening : OpeningEncoding) (bytes : Bytes) : Text :=
  match opening with
  | utf8 => decodeUtf8 bytes
  | utf16 endian => decodeUtf16 endian bytes

/-- The encoding that a document declares in its first token, with its offset. -/
def declaredEncoding? (tokens : Tokens) : Option (Text × Nat) :=
  match tokens.list with
  | (offset, .declaration body) :: _ =>
    match (Prolog.initial false false).step offset (.declaration body) with
    | (p, none) => p.encoding
    | _ => none
  | _ => none

/-- A document that cannot be decoded for its declared encoding. -/
inductive EncodingFault where
  | wrong (offset : Nat)
  | wide
  | unknown (name : Text)

/-- The text of a document with its tokens. -/
structure Decoded where
  text : Text
  tokens : Tokens

def Decoded.of (text : Text) : Decoded := ⟨text, .ofDocument false text⟩

/-- The text of a document in the encoding that it begins in and declares. An encoding of another
width than the document begins in is wrong. -/
def Decoded.ofBytes (bytes : Bytes) : Decoded × Option EncodingFault :=
  let opening := OpeningEncoding.of bytes
  let first := Decoded.of (opening.decode bytes)
  match declaredEncoding? first.tokens with
  | none => (first, none)
  | some (name, offset) =>
    match opening, DeclaredEncoding.named name with
    | _, .unknown => (first, some (.unknown name))
    | _, .wide => (first, some .wide)
    | .utf8, .utf8 | .utf16 _, .utf16 => (first, none)
    | .utf8, .octets charset => (.of (charset.decode bytes), none)
    | .utf16 endian, .utf16In other =>
      (first, if endian = other then none else some (.wrong offset))
    | _, _ => (first, some (.wrong offset))

end BundleHook.PropertyList
