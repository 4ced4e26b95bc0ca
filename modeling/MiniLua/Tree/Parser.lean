import MiniLua.Scan.Scanner
import MiniLua.Tree.Basic

/-!
Parsing: recursive descent with one token of look-ahead. The result is always a tree; where the tokens break the
grammar, the tree ends in a fault.
-/

namespace MiniLua

/-- A tree and the tokens behind it, or a tree in which reading stopped. -/
inductive Parsed (α : Type) where
  | done (tree : α) (rest : List Token)
  | stopped (tree : α)

namespace Parsed

variable {α β : Type}

def map (f : α → β) : Parsed α → Parsed β
  | done a rest => done (f a) rest
  | stopped a => stopped (f a)

/-- Goes on behind a complete tree; `wrap` builds the result around one in which reading stopped. -/
def andThen (wrap : α → β) (next : α → List Token → Parsed β) : Parsed α → Parsed β
  | done a rest => next a rest
  | stopped a => stopped (wrap a)

end Parsed

namespace Parser

/-- The first of the tokens; a list of tokens never ends before its end-of-input token. -/
def head : List Token → Token
  | t :: _ => t
  | [] => ⟨.eof, Position.start⟩

/-- The fault of finding a token where another was asked for. -/
def mismatch (what : Expectation) (t : Token) : SourceFault :=
  match t.lexeme with
  | .fault cause => ⟨.scan cause, t.pos⟩
  | found => ⟨.expected what found, t.pos⟩

def surprise (t : Token) : SourceFault :=
  match t.lexeme with
  | .fault cause => ⟨.scan cause, t.pos⟩
  | found => ⟨.unexpected found, t.pos⟩

/-- Asks for a symbol: its place, or the fault. -/
def expect (s : Symbol) (ts : List Token) : Except SourceFault Position :=
  if (head ts).lexeme = .symbol s then .ok (head ts).pos else .error (mismatch (.symbol s) (head ts))

def expectName (ts : List Token) : Except SourceFault Name :=
  match (head ts).lexeme with
  | .name text => .ok ⟨text, (head ts).pos⟩
  | _ => .error (mismatch .name (head ts))

/-- Whether a prefix expression would go on with the arguments of a call. -/
def startsCall (ts : List Token) : Bool :=
  match (head ts).lexeme with
  | .string _ | .symbol .leftParen | .symbol .leftBrace => true
  | _ => false

/-- A prefix expression as a value: it may not be called. -/
def asValue (start : Position) (e : Exp) (ts : List Token) : Parsed Exp :=
  if startsCall ts then .stopped (.faultAfter e ⟨.callAsValue, start⟩) else .done e ts

mutual

def expression : Nat → List Token → Parsed Exp
  | 0, ts => .stopped (.fault (surprise (head ts)))
  | fuel + 1, ts =>
    let t := head ts
    let r := ts.tail
    match t.lexeme with
    | .keyword .nil_ => .done (.literal .nil t.pos) r
    | .keyword .true_ => .done (.literal (.bool true) t.pos) r
    | .keyword .false_ => .done (.literal (.bool false) t.pos) r
    | .integer _ i => .done (.literal (.int i) t.pos) r
    | .float _ x => .done (.literal (.float x) t.pos) r
    | .string content => .done (.literal (.str content) t.pos) r
    | .symbol .leftBrace => (fields fuel r).map (.table t.pos)
    | .symbol .sub =>
      (expression fuel r).andThen (.minus t.pos) fun e r =>
        if e.isNumeral then .done (.minus t.pos e) r else .stopped (.faultAfter e ⟨.minusOperand, t.pos⟩)
    | .name text => (suffixes fuel (.var ⟨text, t.pos⟩) r).andThen id (asValue t.pos)
    | .symbol .leftParen =>
      (expression fuel r).andThen id fun e r =>
        match expect .rightParen r with
        | .ok closed => (suffixes fuel (.paren e closed) r.tail).andThen id (asValue t.pos)
        | .error f => .stopped (.faultAfter e f)
    | _ => .stopped (.fault (surprise t))

/-- Field and index suffixes behind a prefix expression. -/
def suffixes : Nat → Exp → List Token → Parsed Exp
  | 0, e, ts => .stopped (.faultAfter e (surprise (head ts)))
  | fuel + 1, e, ts =>
    let t := head ts
    let r := ts.tail
    match t.lexeme with
    | .symbol .dot =>
      match expectName r with
      | .ok name => suffixes fuel (.field e t.pos name) r.tail
      | .error f => .stopped (.index e t.pos (.fault f) t.pos)
    | .symbol .leftBracket =>
      (expression fuel r).andThen (fun key => .index e t.pos key t.pos) fun key r =>
        match expect .rightBracket r with
        | .ok closed => suffixes fuel (.index e t.pos key closed) r.tail
        | .error f => .stopped (.faultAfter (.index e t.pos key t.pos) f)
    | .fault _ => .stopped (.faultAfter e (surprise t))
    | _ => .done e ts

/-- Entries of a table constructor up to the closing brace. -/
def fields : Nat → List Token → Parsed Fields
  | 0, ts => .stopped (.stop (.fault (surprise (head ts))))
  | fuel + 1, ts =>
    let t := head ts
    let r := ts.tail
    match t.lexeme, (head r).lexeme with
    | .symbol .rightBrace, _ => .done (.done t.pos) r
    | .symbol .leftBracket, _ =>
      (expression fuel r).andThen .stop fun key r =>
        match expect .rightBracket r, expect .assign r.tail with
        | .error f, _ | .ok _, .error f => .stopped (.stop (.faultAfter key f))
        | .ok _, .ok assign =>
          (expression fuel r.tail.tail).andThen (fun value => .keyed t.pos key assign value (.done assign))
            fun value r => (separated fuel r).map (.keyed t.pos key assign value)
    | .name _, .fault _ => .stopped (.stop (.fault (surprise (head r))))
    | .name text, .symbol .assign =>
      (expression fuel r.tail).andThen (fun value => .named ⟨text, t.pos⟩ (head r).pos value (.done t.pos))
        fun value r' => (separated fuel r').map (.named ⟨text, t.pos⟩ (head r).pos value)
    | .fault _, _ => .stopped (.stop (.fault (surprise t)))
    | _, _ =>
      (expression fuel ts).andThen .stop fun e r => (separated fuel r).map (.positional e)

/-- What may follow an entry: a separator and further entries, or the closing brace. -/
def separated : Nat → List Token → Parsed Fields
  | 0, ts => .stopped (.stop (.fault (surprise (head ts))))
  | fuel + 1, ts =>
    match (head ts).lexeme with
    | .symbol .comma | .symbol .semicolon => fields fuel ts.tail
    | .symbol .rightBrace => .done (.done (head ts).pos) ts.tail
    | _ => .stopped (.stop (.fault (mismatch (.symbol .rightBrace) (head ts))))

end

/-- Enough for any nesting that so many tokens allow. -/
def depth (ts : List Token) : Nat := 3 * ts.length + 3

/-- Arguments behind an opening parenthesis or a comma; with the fault at which reading stopped. -/
def arguments : Nat → List Token → Parsed (List Exp × Option SourceFault)
  | 0, ts => .stopped ([], some (surprise (head ts)))
  | fuel + 1, ts =>
    (expression (depth ts) ts).andThen (fun e => ([e], none)) fun e r =>
      match (head r).lexeme with
      | .symbol .comma => (arguments fuel r.tail).map fun (es, stop) => (e :: es, stop)
      | .symbol .rightParen => .done ([e], none) r.tail
      | _ => .stopped ([e], some (mismatch (.symbol .rightParen) (head r)))

/-- The arguments of a call: a string, a table, or a list in parentheses. -/
def callArguments (ts : List Token) : Parsed (List Exp × Option SourceFault) :=
  let t := head ts
  let r := ts.tail
  match t.lexeme, (head r).lexeme with
  | .string content, _ => .done ([.literal (.str content) t.pos], none) r
  | .symbol .leftBrace, _ => (fields (depth r) r).map fun fs => ([.table t.pos fs], none)
  | _, .symbol .rightParen => .done ([], none) r.tail
  | _, .fault _ => .stopped ([], some (surprise (head r)))
  | _, _ => arguments r.length r

/-- An assignment or a call, behind the name it starts with. -/
def nameStatement (name : Name) (ts : List Token) : Parsed Stat :=
  (suffixes (depth ts) (.var name) ts).andThen .stop fun e r =>
    if startsCall r then (callArguments r).map fun (args, stop) => .call e args stop
    else if (head r).lexeme = .symbol .assign then
      (expression (depth r.tail) r.tail).map (.assign e)
    else .stopped (.stop (.faultAfter e (surprise (head r))))

/-- A local declaration, behind the keyword. -/
def declaration (ts : List Token) : Parsed Stat :=
  match expectName ts with
  | .error f => .stopped (.stop (.fault f))
  | .ok name =>
    match (head ts.tail).lexeme with
    | .symbol .assign => (expression (depth ts) ts.tail.tail).map fun e => .declare name (some e)
    | .fault _ => .stopped (.declare name (some (.fault (surprise (head ts.tail)))))
    | _ => .done (.declare name none) ts.tail

def block : Nat → List Token → Block
  | 0, ts => [.stop (.fault (surprise (head ts)))]
  | fuel + 1, ts =>
    let t := head ts
    let goOn : Parsed Stat → Block
      | .done s rest => s :: block fuel rest
      | .stopped s => [s]
    match t.lexeme with
    | .eof => []
    | .symbol .semicolon => block fuel ts.tail
    | .keyword .local_ => goOn (declaration ts.tail)
    | .name text => goOn (nameStatement ⟨text, t.pos⟩ ts.tail)
    | .symbol .leftBrace => goOn ((fields (depth ts) ts.tail).map fun fs => .construct (.table t.pos fs))
    | _ => [.stop (.fault (surprise t))]

end Parser

/-- The program in a sequence of tokens that ends with the end of input or with a fault. -/
def Block.ofTokens (ts : List Token) : Block := Parser.block (ts.length + 1) ts

end MiniLua
