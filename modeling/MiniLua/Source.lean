import MiniLua.Charset.Registry
import MiniLua.Files
import MiniLua.Text.Quoted

/-!
Source files, decoded from the charset they are written in.
-/

namespace MiniLua

open Text

def Charset.NameFault.message : Charset.NameFault → Bytes
  | .notRegistered name =>
    utf8 "source: unknown encoding " ++ quote name ++ utf8 ": ianaindex: invalid encoding name"
  | .noReader name => utf8 "source: encoding " ++ quote name ++ utf8 " is not supported"

namespace Source

inductive OpenFault where
  | file (fault : FileFault)
  | charset (fault : Charset.NameFault)
  deriving DecidableEq, Repr

def OpenFault.message : OpenFault → Bytes
  | file fault => fault.message
  | charset fault => fault.message

/-- A text in the charset of the given name, as UTF-8. -/
def decode (name data : Bytes) : Except Charset.NameFault Bytes :=
  (Charset.ofName name).map fun
    | some cs => cs.decode data
    | none => data

/-- An open source: its text, and why there may be no more of it than that. -/
structure Stream where
  text : Bytes
  failure : Option FileFault := none

/-- Opens a file. It must be there before the charset is looked up, and is read after that. -/
def openFile (fs : Files) (path name : Bytes) : Except OpenFault Stream :=
  match fs.read path with
  | .error ⟨.opening, p, reason⟩ => .error (.file ⟨.opening, p, reason⟩)
  | .error fault =>
    match Charset.ofName name with
    | .ok _ => .ok ⟨[], some fault⟩
    | .error e => .error (.charset e)
  | .ok data =>
    match decode name data with
    | .ok text => .ok ⟨text, none⟩
    | .error e => .error (.charset e)

inductive ReadFault where
  | unopened (fault : OpenFault)
  | broken (path : Bytes) (fault : FileFault)
  deriving DecidableEq, Repr

def ReadFault.message : ReadFault → Bytes
  | unopened fault => fault.message
  | broken path fault => utf8 "source: reading " ++ path ++ utf8 ": " ++ fault.message

def readAll (fs : Files) (path name : Bytes) : Except ReadFault Bytes :=
  match openFile fs path name with
  | .error fault => .error (.unopened fault)
  | .ok ⟨text, none⟩ => .ok text
  | .ok ⟨_, some fault⟩ => .error (.broken path fault)

end Source

end MiniLua
