import MiniLua.Text.Quoted

/-!
Flags of the command line. A flag starts with one or two dashes and may carry its value behind an equals sign; reading
stops at the first argument that is no flag, and behind two dashes alone.
-/

namespace MiniLua.Command

open Text

/-- Whole numbers in decimal with an optional sign. -/
def wholeNumber? (bs : Bytes) : Option Int64 :=
  let (negative, ds) : Bool × Bytes := match bs with
    | 0x2b :: r => (false, r)
    | 0x2d :: r => (true, r)
    | r => (false, r)
  let n : Int := if negative then -(digitsValue 10 ds : Int) else digitsValue 10 ds
  if !ds.isEmpty && ds.all isDigit && Int64.minValue.toInt ≤ n && n ≤ Int64.maxValue.toInt then some (Int64.ofInt n) else none

/-- How much is logged. Each mention without a number adds one. -/
structure Verbosity where
  level : Int64 := 0
  given : Bool := false
  deriving DecidableEq, Repr

def Verbosity.text (v : Verbosity) : Bytes := integer v.level.toInt

inductive ValueFault where
  | verbosity (value : Bytes)
  | truth
  deriving DecidableEq, Repr

def ValueFault.message : ValueFault → Bytes
  | verbosity value => utf8 "invalid verbosity " ++ quote value
  | truth => utf8 "parse error"

/-- Takes a value; a value that is no number still counts as a mention. -/
def Verbosity.set (v : Verbosity) (value : Bytes) : Option ValueFault × Verbosity :=
  let v : Verbosity := if v.given then v else ⟨0, true⟩
  if value = utf8 "true" then (none, { v with level := v.level + 1 })
  else match wholeNumber? value with
    | some n => (none, { v with level := n })
    | none => (some (.verbosity value), v)

def truth? (value : Bytes) : Option Bool :=
  if ["1", "t", "T", "true", "TRUE", "True"].any (utf8 · == value) then some true
  else if ["0", "f", "F", "false", "FALSE", "False"].any (utf8 · == value) then some false
  else none

inductive Flag where
  | verbosity
  | dump
  | config
  | service
  deriving DecidableEq, Repr

namespace Flag

def all : List Flag := [verbosity, dump, config, service]

def name : Flag → Bytes
  | verbosity => utf8 "v"
  | dump => utf8 "dump"
  | config => utf8 "config"
  | service => utf8 "lsp"

/-- A switch needs no value. -/
def isSwitch : Flag → Bool
  | verbosity | service => true
  | dump | config => false

end Flag

structure Options where
  verbosity : Verbosity := {}
  dump : Bytes := []
  config : Bytes := []
  service : Bool := false
  operands : List Bytes := []
  deriving DecidableEq, Repr

inductive FlagFault where
  | malformed (argument : Bytes)
  | undefined (name : Bytes)
  | needsValue (name : Bytes)
  | badValue (value name : Bytes) (fault : ValueFault)
  deriving DecidableEq, Repr

def FlagFault.message : FlagFault → Bytes
  | malformed argument => utf8 "bad flag syntax: " ++ argument
  | undefined name => utf8 "flag provided but not defined: -" ++ name
  | needsValue name => utf8 "flag needs an argument: -" ++ name
  | badValue value name fault =>
    utf8 "invalid boolean value " ++ quote value ++ utf8 " for -" ++ name ++ utf8 ": " ++ fault.message

/-- Why no options came out: help was asked for, or a flag is wrong. -/
inductive Halt where
  | help
  | fault (fault : FlagFault)
  deriving DecidableEq, Repr

inductive Argument where
  | operand
  | ending
  | malformed
  | flag (name : Bytes) (value : Option Bytes)
  deriving DecidableEq, Repr

/-- Splits what stands behind the dashes at an equals sign, which cannot come first. -/
def splitFlag : Bytes → Argument
  | [] => .malformed
  | b :: r =>
    if b == 0x2d || b == 0x3d then .malformed
    else
      let name := r.takeWhile (· != 0x3d)
      .flag (b :: name) ((r.drop name.length).tail?)

def Argument.ofBytes : Bytes → Argument
  | [0x2d, 0x2d] => .ending
  | 0x2d :: 0x2d :: r => splitFlag r
  | 0x2d :: b :: r => splitFlag (b :: r)
  | _ => .operand

namespace Options

def set (o : Options) (value : Bytes) : Flag → Except ValueFault Options
  | .verbosity =>
    match o.verbosity.set value with
    | (none, v) => .ok { o with verbosity := v }
    | (some fault, _) => .error fault
  | .dump => .ok { o with dump := value }
  | .config => .ok { o with config := value }
  | .service =>
    match truth? value with
    | some b => .ok { o with service := b }
    | none => .error .truth

def setNamed (o : Options) (value name : Bytes) (flag : Flag) : Except Halt Options :=
  (o.set value flag).mapError fun fault => .fault (.badValue value name fault)

def read (o : Options) : List Bytes → Except Halt Options
  | [] => .ok o
  | argument :: rest =>
    match Argument.ofBytes argument with
    | .operand => .ok { o with operands := argument :: rest }
    | .ending => .ok { o with operands := rest }
    | .malformed => .error (.fault (.malformed argument))
    | .flag name value =>
      match Flag.all.find? (·.name == name), value with
      | none, _ => .error (if name = utf8 "help" ∨ name = utf8 "h" then .help else .fault (.undefined name))
      | some flag, some value => do (← o.setNamed value name flag).read rest
      | some flag, none =>
        if flag.isSwitch then do (← o.setNamed (utf8 "true") name flag).read rest
        else match rest with
          | [] => .error (.fault (.needsValue name))
          | value :: rest => do (← o.setNamed value name flag).read rest

end Options

def usage : Bytes := utf8 <|
  "Usage: lunette [options] <script.lua>\n\n" ++
  "Compiles a Lua script, prints its bytecode listing and runs it.\n\n" ++
  "Options:\n" ++
  "  -config string\n" ++
  "    \tPath to lunette.toml (default: search upwards from the script)\n" ++
  "  -dump string\n" ++
  "    \tListing printed before running: text, cbor or none (default from lunette.toml, else text)\n" ++
  "  -lsp\n" ++
  "    \tStart the language server on stdio\n" ++
  "  -v\tIncrease log verbosity (repeatable, or -v=N)\n" ++
  "\nExamples:\n" ++
  "  lunette hello.lua            # Print listing, then run\n" ++
  "  lunette -dump=none hello.lua # Run without listing\n" ++
  "  lunette -v -v hello.lua      # Debug logging to stderr\n" ++
  "  lunette -lsp                 # Language server for editors\n"

end MiniLua.Command
