import MiniLua.Binary64.Basic
import MiniLua.Position
import MiniLua.Text.Quoted

/-!
Tokens: keywords, symbols, names, literals, the end of the input, and faults found while scanning.
-/

namespace MiniLua

open Text

inductive Keyword where
  | and_ | break_ | do_ | else_ | elseif_ | end_ | false_ | for_ | function_ | goto_ | if_ | in_ | local_ | nil_ | not_
  | or_ | repeat_ | return_ | then_ | true_ | until_ | while_
  deriving DecidableEq, Repr

namespace Keyword

def all : List Keyword :=
  [and_, break_, do_, else_, elseif_, end_, false_, for_, function_, goto_, if_, in_, local_, nil_, not_, or_, repeat_,
    return_, then_, true_, until_, while_]

def spelling : Keyword → String
  | and_ => "and" | break_ => "break" | do_ => "do" | else_ => "else" | elseif_ => "elseif" | end_ => "end"
  | false_ => "false" | for_ => "for" | function_ => "function" | goto_ => "goto" | if_ => "if" | in_ => "in"
  | local_ => "local" | nil_ => "nil" | not_ => "not" | or_ => "or" | repeat_ => "repeat" | return_ => "return"
  | then_ => "then" | true_ => "true" | until_ => "until" | while_ => "while"

def ofBytes? (bs : Bytes) : Option Keyword := all.find? fun k => utf8 k.spelling == bs

end Keyword

inductive Symbol where
  | add | sub | mul | div | floorDiv | mod | pow | len | bitAnd | bitXor | bitOr | shiftLeft | shiftRight | concat
  | equal | notEqual | less | lessEqual | greater | greaterEqual | assign
  | leftParen | rightParen | leftBrace | rightBrace | leftBracket | rightBracket
  | doubleColon | semicolon | colon | comma | dot | dots
  deriving DecidableEq, Repr

namespace Symbol

def all : List Symbol :=
  [add, sub, mul, div, floorDiv, mod, pow, len, bitAnd, bitXor, bitOr, shiftLeft, shiftRight, concat, equal, notEqual,
    less, lessEqual, greater, greaterEqual, assign, leftParen, rightParen, leftBrace, rightBrace, leftBracket,
    rightBracket, doubleColon, semicolon, colon, comma, dot, dots]

def spelling : Symbol → String
  | add => "+" | sub => "-" | mul => "*" | div => "/" | floorDiv => "//" | mod => "%" | pow => "^" | len => "#"
  | bitAnd => "&" | bitXor => "~" | bitOr => "|" | shiftLeft => "<<" | shiftRight => ">>" | concat => ".."
  | equal => "==" | notEqual => "~=" | less => "<" | lessEqual => "<=" | greater => ">" | greaterEqual => ">="
  | assign => "=" | leftParen => "(" | rightParen => ")" | leftBrace => "\x7b" | rightBrace => "\x7d"
  | leftBracket => "[" | rightBracket => "]" | doubleColon => "::" | semicolon => ";" | colon => ":" | comma => ","
  | dot => "." | dots => "..."

def bytes (s : Symbol) : Bytes := utf8 s.spelling

/-- The longest symbol that the input starts with. -/
def leading? (bs : Bytes) : Option Symbol :=
  (all.filter fun s => s.bytes.isPrefixOf bs).foldl
    (fun best s => match best with
      | some t => if t.bytes.length < s.bytes.length then some s else some t
      | none => some s)
    none

end Symbol

/-- Why the input at some place is no token. -/
inductive ScanFault where
  | unfinishedString
  | unfinishedLongString
  | unfinishedLongComment
  | badLongDelimiter
  | hexDigitExpected
  | missingOpenBrace
  | missingCloseBrace
  | codePointTooLarge
  | decimalEscapeTooLarge
  | badEscape (byte : UInt8)
  | malformedNumber (text : Bytes)
  | unexpectedByte (byte : UInt8)
  | unreadable (reason : Bytes)
  deriving DecidableEq, Repr

def ScanFault.message : ScanFault → Bytes
  | .unfinishedString => utf8 "unfinished string"
  | .unfinishedLongString => utf8 "unfinished long string"
  | .unfinishedLongComment => utf8 "unfinished long comment"
  | .badLongDelimiter => utf8 "invalid long string delimiter"
  | .hexDigitExpected => utf8 "hexadecimal digit expected"
  | .missingOpenBrace => utf8 "missing '\x7b' in \\u\x7bxxxx\x7d"
  | .missingCloseBrace => utf8 "missing '\x7d' in \\u\x7bxxxx\x7d"
  | .codePointTooLarge => utf8 "UTF-8 value too large"
  | .decimalEscapeTooLarge => utf8 "decimal escape too large"
  | .badEscape b => utf8 "invalid escape sequence '\\" ++ encodeScalar b.toNat ++ utf8 "'"
  | .malformedNumber text => utf8 "malformed number near '" ++ text ++ utf8 "'"
  | .unexpectedByte b =>
    if 0x20 ≤ b && b < 0x7f then utf8 "unexpected character: " ++ [b]
    else utf8 "unexpected character: <\\" ++ decimal b.toNat ++ utf8 ">"
  | .unreadable reason => utf8 "read error: " ++ reason

inductive Lexeme where
  | eof
  | fault (cause : ScanFault)
  | name (text : Bytes)
  | string (content : Bytes)
  | integer (literal : Bytes) (value : Int64)
  | float (literal : Bytes) (value : Binary64)
  | keyword (k : Keyword)
  | symbol (s : Symbol)
  deriving DecidableEq, Repr

namespace Lexeme

/-- Names of the kinds of lexeme: the open kinds, then the keywords and the symbols by their spelling. -/
def kindNames : List Bytes :=
  ["EOF", "ERROR", "NAME", "STRING", "INTEGER", "FLOAT"].map utf8 ++ Keyword.all.map (fun k => utf8 k.spelling) ++
    Symbol.all.map Symbol.bytes

def kindNameOf (code : Int) : Bytes :=
  match code with
  | .ofNat n => kindNames.getD n (utf8 "Token(" ++ decimal n ++ utf8 ")")
  | .negSucc _ => utf8 "Token(" ++ Text.integer code ++ utf8 ")"

def kindName : Lexeme → Bytes
  | eof => utf8 "EOF"
  | fault _ => utf8 "ERROR"
  | name _ => utf8 "NAME"
  | string _ => utf8 "STRING"
  | integer .. => utf8 "INTEGER"
  | float .. => utf8 "FLOAT"
  | keyword k => utf8 k.spelling
  | symbol s => s.bytes

/-- The name, the content of a string, the numeral as written, the message of a fault, or the spelling. -/
def literal : Lexeme → Bytes
  | eof => []
  | fault cause => cause.message
  | name text => text
  | string content => content
  | integer literal _ | float literal _ => literal
  | keyword k => utf8 k.spelling
  | symbol s => s.bytes

/-- Whether scanning a whole input stops here. -/
def isLast : Lexeme → Bool
  | eof | fault _ => true
  | _ => false

/-- How a lexeme is named in a message about it. -/
def describe : Lexeme → Bytes
  | eof => utf8 "<eof>"
  | string content => utf8 "string " ++ quote content
  | l@(name _) | l@(integer ..) | l@(float ..) => utf8 "'" ++ l.literal ++ utf8 "'"
  | l => utf8 "'" ++ l.kindName ++ utf8 "'"

/-- Open kinds show their literal in quotes, cut after twenty bytes. -/
def display : Lexeme → Bytes
  | eof => utf8 "EOF"
  | fault cause => utf8 "ERROR(" ++ cause.message ++ utf8 ")"
  | l@(name _) | l@(string _) | l@(integer ..) | l@(float ..) =>
    let shown := if 20 < l.literal.length then quote (l.literal.take 20) ++ utf8 "..." else quote l.literal
    l.kindName ++ utf8 "(" ++ shown ++ utf8 ")"
  | l => utf8 "'" ++ l.kindName ++ utf8 "'"

end Lexeme

structure Token where
  lexeme : Lexeme
  pos : Position
  deriving DecidableEq, Repr

end MiniLua
