import MiniLua.Editor.Analysis
import MiniLua.Machine.Basic
import MiniLua.Text.Lower

/-!
Names to choose from while one is being typed, and what is shown of a name.
-/

namespace MiniLua.Editor

open Text

inductive CompletionKind where
  | function
  | var
  | keyword
  deriving DecidableEq, Repr

def CompletionKind.code : CompletionKind → Nat
  | function => 3
  | var => 6
  | keyword => 14

structure Completion where
  label : Bytes
  kind : CompletionKind
  detail : Bytes
  deriving DecidableEq, Repr

def ofLocal (l : LocalInfo) : Completion :=
  ⟨l.name, .var, utf8 "local (line " ++ integer l.line.toInt ++ utf8 ")"⟩

def ofGlobal (m : Machine) (name : Bytes) : Completion :=
  let v := m.getGlobal name
  if v.kind = .function then ⟨name, .function, utf8 "builtin function"⟩
  else ⟨name, .var, utf8 "global " ++ v.typeName⟩

/-- All names that are known: locals, the last one first, globals of the machine, globals of the document, keywords. -/
def candidates (m : Machine) (chunk : Option Chunk) : List Completion :=
  let locals := (chunk.map fun c => c.locals.toList).getD []
  let used := (chunk.map globalNames).getD []
  locals.reverse.map ofLocal ++ m.globalNames.map (ofGlobal m) ++
    used.map (fun name => ⟨name, .var, utf8 "global"⟩) ++
    Keyword.all.map fun k => ⟨utf8 k.spelling, .keyword, utf8 "keyword"⟩

def continues (fragment : Bytes) (c : Completion) : Bool := startsWith (lower fragment) (lower c.label)

def maxCompletions : Nat := 100

/-- Completions of a fragment, whatever its case. Of several with one label the first counts. -/
def complete (m : Machine) (chunk : Option Chunk) (fragment : Bytes) : List Completion :=
  (((candidates m chunk).filter (continues fragment)).eraseDupsBy fun a b => a.label == b.label).take maxCompletions

def inTicks (name : Bytes) : Bytes := 0x60 :: name ++ [0x60]

/-- What is shown of a name in a line; none if nothing is known of it. -/
def hover (m : Machine) (chunk : Option Chunk) (word : Bytes) (line : Int) : Option Bytes :=
  match chunk.bind (lookupLocal · word line) with
  | some l =>
    some (utf8 "**local** " ++ inTicks l.name ++ utf8 "\n\nslot " ++ integer l.slot.toInt ++
      utf8 ", declared at line " ++ integer l.line.toInt)
  | none =>
    let title := utf8 "**global** " ++ inTicks word
    let v := m.getGlobal word
    if v.isNil then if ((chunk.map globalNames).getD []).contains word then some title else none
    else if v.kind = .function then some (title ++ utf8 "\n\nbuiltin function")
    else some (title ++ utf8 "\n\n" ++ v.typeName ++ utf8 " = " ++ inTicks (m.inspect v))

end MiniLua.Editor
