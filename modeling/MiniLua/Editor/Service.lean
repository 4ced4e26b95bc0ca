import MiniLua.Editor.Completion
import MiniLua.Editor.Word
import MiniLua.Editor.Worker

/-!
The service for editors: it keeps the open documents and answers requests about them.
-/

namespace MiniLua.Editor

open Text

def serviceName : Bytes := utf8 "lunette-lsp"

def serviceVersion : Bytes := utf8 "0.1.0"

structure Document where
  text : Bytes
  analysis : Analysis
  /-- The last chunk that compiled. -/
  lastGood : Option Chunk

structure Service where
  worker : Worker
  documents : Std.ExtTreeMap Bytes Document := ∅

inductive Change where
  | whole (text : Bytes)
  | part (text : Bytes)
  deriving DecidableEq, Repr

inductive Request where
  | greet
  | greeted
  | setTrace
  | shutdown
  | didOpen (uri text : Bytes)
  | didChange (uri : Bytes) (changes : List Change)
  | didClose (uri : Bytes)
  | completion (uri : Bytes) (at_ : Place)
  | hover (uri : Bytes) (at_ : Place)
  | definition (uri : Bytes) (at_ : Place)
  | references (uri : Bytes) (at_ : Place)
  deriving DecidableEq, Repr

/-- What the service offers beyond the open documents: completions after these characters. -/
structure Capabilities where
  name : Bytes
  version : Bytes
  triggers : List Bytes
  deriving DecidableEq, Repr

inductive Result where
  | nothing
  | capabilities (offer : Capabilities)
  | completions (items : List Completion)
  | hover (text : Bytes)
  /-- Places in a document. -/
  | locations (uri : Bytes) (ranges : List Range)
  deriving DecidableEq, Repr

structure Publication where
  uri : Bytes
  diagnostics : List Diagnostic
  deriving DecidableEq, Repr

structure Answer where
  result : Result := .nothing
  fault : Option WorkerFault := none
  published : List Publication := []

namespace Service

def ofMachine (m : Machine) : Service := { worker := { machine := m } }

/-- Analyses a text, stores it, and gives back its diagnostics. Nothing is stored once the worker is stopped. -/
def update (s : Service) (uri text : Bytes) : List Diagnostic × Service :=
  match s.worker.submit fun m => (.ok (analyze uri text), m) with
  | (.error _, worker) => ([], { s with worker })
  | (.ok analysis, worker) =>
    let before := s.documents[uri]?
    let lastGood := analysis.chunk? <|> before.bind Document.lastGood
    (analysis.diagnostics, { s with worker, documents := s.documents.insert uri ⟨text, analysis, lastGood⟩ })

def publish (s : Service) (uri text : Bytes) : Answer × Service :=
  let (diagnostics, s) := s.update uri text
  ({ published := [⟨uri, diagnostics⟩] }, s)

def completion (s : Service) (uri : Bytes) (p : Place) : Answer × Service :=
  match s.documents[uri]? with
  | none => ({}, s)
  | some doc =>
    let fragment := fragmentAt doc.text p
    if fragment.isEmpty then ({}, s)
    else match s.worker.submit fun m => (.ok (complete m doc.lastGood fragment), m) with
      | (.ok [], worker) => ({}, { s with worker })
      | (.ok items, worker) => ({ result := .completions items }, { s with worker })
      | (.error fault, worker) => ({ fault := some fault }, { s with worker })

def hoverAt (s : Service) (uri : Bytes) (p : Place) : Answer × Service :=
  match s.documents[uri]? with
  | none => ({}, s)
  | some doc =>
    let word := wordAt doc.text p
    if word.isEmpty then ({}, s)
    else match s.worker.submit fun m => (.ok (hover m doc.lastGood word (p.line.toNat + 1)), m) with
      | (.ok (some text), worker) => ({ result := .hover text }, { s with worker })
      | (_, worker) => ({}, { s with worker })

def definition (s : Service) (uri : Bytes) (p : Place) : Answer :=
  match s.documents[uri]? with
  | none => {}
  | some doc =>
    let word := wordAt doc.text p
    match doc.lastGood.bind (lookupLocal · word (p.line.toNat + 1)) with
    | some l =>
      if word.isEmpty then {}
      else { result := .locations uri [.ofPosition l.line.toInt l.column.toInt word.length] }
    | none => {}

def references (s : Service) (uri : Bytes) (p : Place) : Answer :=
  match s.documents[uri]? with
  | none => {}
  | some doc =>
    let word := wordAt doc.text p
    match if word.isEmpty then [] else occurrences doc.text word with
    | [] => {}
    | ranges => { result := .locations uri ranges }

/-- Only the last of several changes counts, and only if it gives the whole text. -/
def change (s : Service) (uri : Bytes) (changes : List Change) : Answer × Service :=
  match changes.getLast? with
  | some (.whole text) => s.publish uri text
  | _ => ({}, s)

def handle (s : Service) : Request → Answer × Service
  | .greet => ({ result := .capabilities ⟨serviceName, serviceVersion, [utf8 "."]⟩ }, s)
  | .greeted | .setTrace => ({}, s)
  | .shutdown => ({}, { s with worker := s.worker.stop })
  | .didOpen uri text => s.publish uri text
  | .didChange uri changes => s.change uri changes
  | .didClose uri => ({ published := [⟨uri, []⟩] }, { s with documents := s.documents.erase uri })
  | .completion uri p => s.completion uri p
  | .hover uri p => s.hoverAt uri p
  | .definition uri p => (s.definition uri p, s)
  | .references uri p => (s.references uri p, s)

end Service

end MiniLua.Editor
