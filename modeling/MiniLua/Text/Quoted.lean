import MiniLua.Text.Utf8
import MiniLua.Text.Printable

/-!
Quoted text: one line of UTF-8 between double quotes, whatever the bytes.
-/

namespace MiniLua.Text

/-- Letter of the short escape of a control character. -/
def shortEscape (code : Nat) : Option Char :=
  [(0x07, 'a'), (0x08, 'b'), (0x0c, 'f'), (0x0a, 'n'), (0x0d, 'r'), (0x09, 't'), (0x0b, 'v')].lookup code

def backslash : UInt8 := 0x5c

def doubleQuote : UInt8 := 0x22

/-- The two marks of the quoted form get a backslash, printable characters stand for themselves, and the rest is
escaped by letter or in hexadecimal. -/
def quoteRune : Rune → Bytes
  | .stray b => utf8 "\\x" ++ hexByte b
  | .scalar code =>
    if code = 0x22 ∨ code = 0x5c then backslash :: encodeScalar code
    else if isPrintable code then encodeScalar code
    else match shortEscape code with
      | some c => backslash :: encodeScalar c.toNat
      | none =>
        if code < 0x20 ∨ code = 0x7f then utf8 "\\x" ++ hexWidth 2 code
        else if code < 0x10000 then utf8 "\\u" ++ hexWidth 4 code
        else utf8 "\\U" ++ hexWidth 8 code

def quote (bs : Bytes) : Bytes := doubleQuote :: (runes bs).flatMap quoteRune ++ [doubleQuote]

end MiniLua.Text
