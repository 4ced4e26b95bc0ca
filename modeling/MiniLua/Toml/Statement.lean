import MiniLua.Toml.Scalar

/-!
A TOML document as a list of statements: headers of tables, and keys with their values.
-/

namespace MiniLua.Toml

open Text

mutual

inductive Exp where
  | scalar (v : Value)
  | array (items : Exps)
  | inline (pairs : Pairs)

inductive Exps where
  | nil
  | cons (head : Exp) (tail : Exps)

inductive Pairs where
  | nil
  | cons (key : Key) (value : Exp) (tail : Pairs)

end

inductive Statement where
  | table (key : Key)
  /-- A further element of an array of tables. -/
  | element (key : Key)
  | pair (key : Key) (value : Exp)

def skipBlanks (bs : Bytes) : Bytes := bs.dropWhile isBlank

/-- Skips blanks, line ends and comments; `inComment` tells whether a comment goes on. -/
def skipFrom ( inComment : Bool) : Bytes → Bytes
  | [] => []
  | b :: r =>
    if isLineEnd b then skipFrom false r
    else if inComment then skipFrom true r
    else if isBlank b then skipFrom false r
    else if b == 0x23 then skipFrom true r
    else b :: r

def skipLines (bs : Bytes) : Bytes := skipFrom false bs

def isBareByte (b : UInt8) : Bool := isNameByte b || b == 0x2d

def keyPart : Reader Bytes
  | 0x22 :: r => basicString r
  | 0x27 :: r => literalString r
  | bs =>
    let name := bs.takeWhile isBareByte
    if name.isEmpty then none else some (name, bs.drop name.length)

/-- Parts with points between them, with blanks around each. -/
def keyUpTo : Nat → Reader Key
  | 0, _ => none
  | n + 1, bs => do
    let (part, r) ← keyPart (skipBlanks bs)
    match skipBlanks r with
    | 0x2e :: r => (keyUpTo n r).map fun (parts, r) => (part :: parts, r)
    | r => some ([part], r)

def key : Reader Key := fun bs => keyUpTo bs.length bs

mutual

/-- Reads a value; the number bounds how deep it goes on. -/
def value : Nat → Reader Exp
  | 0, _ => none
  | n + 1, bs =>
    match bs with
    | 0x5b :: r => (items n r).map fun (es, r) => (.array es, r)
    | 0x7b :: r => (pairs n r).map fun (ps, r) => (.inline ps, r)
    | b :: _ =>
      if b == quoteMark || b == apostrophe then (stringValue bs).map fun (s, r) => (.scalar (.string s), r)
      else (wordValue bs).map fun (v, r) => (.scalar v, r)
    | [] => none

/-- Elements of an array up to its closing bracket. A comma may follow the last one. -/
def items : Nat → Reader Exps
  | 0, _ => none
  | n + 1, bs =>
    match skipLines bs with
    | 0x5d :: r => some (.nil, r)
    | bs => do
      let (e, r) ← value n bs
      match skipLines r with
      | 0x2c :: r => (items n r).map fun (es, r) => (.cons e es, r)
      | 0x5d :: r => some (.cons e .nil, r)
      | _ => none

/-- Entries of a table up to its closing brace. A comma may follow the last one. -/
def pairs : Nat → Reader Pairs
  | 0, _ => none
  | n + 1, bs =>
    match skipLines bs with
    | 0x7d :: r => some (.nil, r)
    | bs => do
      let (k, r) ← key bs
      let (e, r) ← value n (skipBlanks (← expect 0x3d r))
      match skipLines r with
      | 0x2c :: r => (pairs n r).map fun (ps, r) => (.cons k e ps, r)
      | 0x7d :: r => some (.cons k e .nil, r)
      | _ => none

end

def statement : Reader Statement
  | 0x5b :: 0x5b :: r => do
    let (k, r) ← key r
    return (.element k, ← expect 0x5d (← expect 0x5d r))
  | 0x5b :: r => do
    let (k, r) ← key r
    return (.table k, ← expect 0x5d r)
  | bs => do
    let (k, r) ← key bs
    let r ← expect 0x3d r
    let (e, r) ← value (2 * r.length + 2) (skipBlanks r)
    return (.pair k e, r)

/-- Nothing but a comment may follow a statement on its line. -/
def endsLine (bs : Bytes) : Bool :=
  match skipBlanks bs with
  | [] => true
  | b :: _ => isLineEnd b || b == 0x23

def statementsUpTo : Nat → Bytes → Option (List Statement)
  | 0, _ => none
  | n + 1, bs =>
    match skipLines bs with
    | [] => some []
    | bs => do
      let (s, r) ← statement bs
      if endsLine r then (statementsUpTo n r).map (s :: ·) else none

/-- Control characters apart from the tab and line ends, which are `LF` or `CR LF`. -/
def hasControl : Bytes → Bool
  | [] => false
  | b :: r =>
    let bad :=
      if b == 0x0d then r.head? != some newline
      else (b < 0x20 && b != 0x09 && b != newline) || b == 0x7f
    bad || hasControl r

/-- Skips a byte order mark. -/
def skipMark : Bytes → Bytes
  | 0xff :: 0xfe :: r => r
  | 0xfe :: 0xff :: r => r
  | 0xef :: 0xbb :: 0xbf :: r => r
  | bs => bs

def statements (source : Bytes) : Option (List Statement) :=
  let bs := skipMark source
  if isUtf8 bs && !hasControl bs then statementsUpTo (bs.length + 1) bs else none

end MiniLua.Toml
