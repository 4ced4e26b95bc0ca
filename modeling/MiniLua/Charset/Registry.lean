import MiniLua.Charset.Decode
import MiniLua.Text.Lower

/-!
Names of charsets, as they are registered. Case and blanks around a name do not matter.
-/

namespace MiniLua.Charset

open Text

/-- Registered charsets; the ones without a reader can be named, but not read. -/
def registry : List (List String × Option Charset) := [
  (["utf-8", "csutf8"], some .utf8Checked),
  (["us-ascii", "us", "iso-ir-6", "ansi_x3.4-1968", "ansi_x3.4-1986", "iso_646.irv:1991", "iso646-us", "ibm367", "cp367",
    "csascii"], some (.page 0x80 "")),
  (["iso-8859-1", "iso_8859-1", "iso_8859-1:1987", "iso-ir-100", "latin1", "l1", "ibm819", "cp819", "csisolatin1"],
    some (.page 0x100 "")),
  (["iso-8859-5", "iso_8859-5", "iso_8859-5:1988", "iso-ir-144", "cyrillic", "csisolatincyrillic"],
    some (.page 0x80 cyrillic)),
  (["iso-8859-15", "iso_8859-15", "latin-9", "csiso885915"], some (.page 0x80 latin9)),
  (["windows-1251", "cswindows1251"], some (.page 0x80 windows1251)),
  (["windows-1252", "cswindows1252"], some (.page 0x80 windows1252)),
  (["koi8-r", "cskoi8r"], some (.page 0x80 koi8)),
  (["utf-16be", "csutf16be"], some (.utf16 .big)),
  (["utf-16le", "csutf16le"], some (.utf16 .little)),
  (["utf-16", "csutf16"], some .marked),
  (["shift_jis", "ms_kanji", "csshiftjis"], some .shiftJis),
  (["utf-7", "csutf7"], none),
  (["utf-32", "csutf32"], none),
  (["utf-32be", "csutf32be"], none),
  (["utf-32le", "csutf32le"], none),
  (["iso-10646-ucs-2", "csunicode"], none),
  (["iso-10646-ucs-4", "csucs4"], none),
  (["scsu", "csscsu"], none),
  (["cesu-8", "cscesu8", "cscesu-8"], none),
  (["ebcdic-us", "csebcdicus"], none),
  (["iso-2022-kr", "csiso2022kr"], none)]

def isWhite (code : Nat) : Bool :=
  (0x09 ≤ code && code ≤ 0x0d) || (0x2000 ≤ code && code ≤ 0x200a) ||
    [0x20, 0x85, 0xa0, 0x1680, 0x2028, 0x2029, 0x202f, 0x205f, 0x3000].contains code

def isWhiteRune (r : Rune) : Bool := r.isScalar && isWhite r.code

/-- Code points of a name in lower case, without white space around it. -/
def plainName (name : Bytes) : List Nat :=
  let inner := ((runes name).dropWhile isWhiteRune).reverse.dropWhile isWhiteRune
  inner.reverse.map fun r => lowerCode r.code

def isNamed (name : Bytes) (names : List String) : Bool := names.any fun n => plainName (utf8 n) == plainName name

inductive NameFault where
  | notRegistered (name : Bytes)
  | noReader (name : Bytes)
  deriving DecidableEq, Repr

/-- The charset of a name; none if texts are taken as they are. -/
def ofName (name : Bytes) : Except NameFault (Option Charset) :=
  if isNamed name ["", "utf-8", "utf8"] then .ok none
  else match registry.find? fun e => isNamed name e.1 with
    | some (_, some cs) => .ok (some cs)
    | some (_, none) => .error (.noReader name)
    | none => .error (.notRegistered name)

end MiniLua.Charset
