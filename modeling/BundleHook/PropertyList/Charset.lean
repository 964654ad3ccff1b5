import BundleHook.Markup.Prolog
import BundleHook.PropertyList.Octets

/-!
# Charsets

Encodings that write a character as one octet, and ASCII characters as themselves. They differ in
the characters of the octets from 0x80 on. A charset goes by many names; case does not count in
them, nor which of dashes and underlines they have.
-/

namespace BundleHook.PropertyList

open Markup

/-- An encoding of one octet a character. -/
inductive Charset where
  | ascii
  | latin1
  | latin9
  | windows1252
  deriving DecidableEq, Repr

/-- The code points of the octets in which the ninth Latin charset differs from the first. -/
def latin9Extras : List (Nat × Nat) :=
  [(0xA4, 0x20AC), (0xA6, 0x160), (0xA8, 0x161), (0xB4, 0x17D), (0xB8, 0x17E), (0xBC, 0x152),
   (0xBD, 0x153), (0xBE, 0x178)]

/-- The code points of the octets from 0x80 to 0x9F in the Windows encoding; zero is none. -/
def windowsExtras : List Nat :=
  [0x20AC, 0, 0x201A, 0x192, 0x201E, 0x2026, 0x2020, 0x2021, 0x2C6, 0x2030, 0x160, 0x2039, 0x152,
   0, 0x17D, 0, 0, 0x2018, 0x2019, 0x201C, 0x201D, 0x2022, 0x2013, 0x2014, 0x2DC, 0x2122, 0x161,
   0x203A, 0x153, 0, 0x17E, 0x178]

/-- The code point of an octet, if it stands for a character. -/
def Charset.codePoint? (charset : Charset) (n : Nat) : Option Nat :=
  if n < 0x80 then some n
  else match charset with
    | ascii => none
    | latin1 => some n
    | latin9 => some ((latin9Extras.lookup n).getD n)
    | windows1252 =>
      match windowsExtras[n - 0x80]? with
      | some 0 => none
      | some extra => some extra
      | none => some n

/-- Every charset writes the ASCII characters as themselves. -/
theorem Charset.codePoint?_of_lt (charset : Charset) {n : Nat} (h : n < 0x80) :
    charset.codePoint? n = some n := by
  simp [codePoint?, h]

def Charset.char (charset : Charset) (b : UInt8) : Char :=
  match charset.codePoint? b.toNat with
  | some n => Char.ofNat n
  | none => garbled

/-- The text of octets in a charset; a mark of UTF-8 before them is kept. -/
def Charset.decode (charset : Charset) : Bytes → Text
  | 0xEF :: 0xBB :: 0xBF :: rest => '\uFEFF' :: rest.map charset.char
  | bytes => bytes.map charset.char

/-! ## Names -/

/-- A name in small letters, with one underline for dashes and underlines in a row, and none at its
ends. -/
def plainName (name : Text) : String :=
  let small := name.map fun c => if c = '-' then '_' else c.toLower
  String.ofList (Text.join ['_'] ((Text.splitOn '_' small).filter fun part => !part.isEmpty))

/-- The charsets by their plain names. Octets of UTF-8 that are taken one by one are ASCII. -/
def charsetNames : List (String × Charset) :=
  (["ascii", "us_ascii", "us", "csascii", "cp367", "ibm367", "iso646_us", "iso_ir_6",
    "ansi_x3.4_1968", "ansi_x3_4_1968", "ansi_x3.4_1986", "iso_646.irv_1991", "utf_8", "utf8",
    "utf", "u8", "utf8_ucs2", "utf8_ucs4", "cp65001", "utf_8_sig"].map (·, .ascii)) ++
  (["latin_1", "latin1", "latin", "l1", "iso8859", "iso8859_1", "iso_8859_1", "iso_8859_1_1987",
    "iso_ir_100", "cp819", "ibm819", "csisolatin1"].map (·, .latin1)) ++
  (["iso8859_15", "iso_8859_15", "latin9", "l9"].map (·, .latin9)) ++
  (["windows_1252", "cp1252"].map (·, .windows1252))

def Charset.named? (name : Text) : Option Charset := charsetNames.lookup (plainName name)

/-- Encodings that take more than one octet for some characters, by their plain names. -/
def wideNames : List String :=
  ["utf_16", "utf16", "u16", "utf_16_be", "utf_16be", "utf_16_le", "utf_16le", "utf_32", "utf32",
   "u32", "utf_32be", "utf_32_be", "utf_32le", "utf_32_le", "shift_jis", "sjis", "s_jis",
   "shiftjis", "csshiftjis", "euc_jp", "eucjp", "ujis", "u_jis", "euc_kr", "euckr", "korean",
   "gb2312", "gbk",
   "gb18030", "gb18030_2000", "chinese", "big5", "big5_tw", "csbig5", "big5hkscs", "cp932", "cp936",
   "cp949", "cp950", "iso2022_jp", "iso_2022_jp"]

end BundleHook.PropertyList
