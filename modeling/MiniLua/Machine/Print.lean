import MiniLua.Machine.Native

/-!
The native function `print`: its arguments with tabs between them, and a line end. The line goes out through a buffer.
-/

namespace MiniLua.Print

open Text

def bufferSize : Nat := 4096

/-- Adds a piece to the bytes that wait: what is handed on now, and what waits afterwards. A piece that does not fit
fills up the buffer; what is left of it is handed on at once if it is larger than the whole buffer. -/
def add (waiting piece : Bytes) : List Bytes × Bytes :=
  let room := bufferSize - waiting.length
  if piece.length ≤ room then ([], waiting ++ piece)
  else if waiting.isEmpty then ([piece], [])
  else
    let rest := piece.drop room
    let full := waiting ++ piece.take room
    if rest.length ≤ bufferSize then ([full], rest) else ([full, rest], [])

/-- The pieces as they are handed on. -/
def blocks (waiting : Bytes) : List Bytes → List Bytes
  | [] => if waiting.isEmpty then [] else [waiting]
  | piece :: rest =>
    let (out, waiting) := add waiting piece
    out ++ blocks waiting rest

def pieces (values : List Value) : List Bytes :=
  (values.map Value.display).intersperse [0x09] ++ [[newline]]

def writeAll : List Bytes → Act Nat
  | [] => .done 0
  | b :: rest =>
    .write b fun
      | some reason => .raise { stage := .runtime, message := utf8 "print: " ++ reason }
      | none => writeAll rest

def native : Native where
  name := utf8 "print"
  body := .argCount fun n => (Act.args 0 n).bind fun values => writeAll (blocks [] (pieces values))

end MiniLua.Print
