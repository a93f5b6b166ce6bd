import Scad.Parse.Statement
import Scad.Resolve
import Scad.Token.Stream

/-! A text from its characters to a resolved document, with everything that the parts of the work
have to say about it. -/
namespace Scad

inductive LogLevel where
  | debug | warning
  deriving DecidableEq

/-- Who writes into the log. -/
inductive LogSource where
  | scanner | parser | resolver | loader
  /-- A sink that writes findings into the log. -/
  | sink
  deriving DecidableEq

structure LogRecord where
  source : LogSource
  level : LogLevel
  message : String

/-- Where findings go as they are made. -/
inductive Sink where
  | collect
  /-- Into the log, each on one line. -/
  | log
  /-- Into the log, each with its line of the text. -/
  | logFormatted (source : String)

/-- What a sink writes into the log. -/
def Sink.records (sink : Sink) (d : Diagnostic) : List LogRecord :=
  match sink with
  | .collect => []
  | .log => [⟨.sink, .warning, d.render⟩]
  | .logFormatted source => [⟨.sink, .warning, d.format source⟩]

namespace Analysis

def scanRecords (sink : Sink) (origin : String) (stream : TokenStream) : List LogRecord :=
  stream.faults.flatMap sink.records
    ++ [⟨.scanner, .debug, "lexed " ++ toString stream.tokens.length ++ " tokens from " ++ origin
      ++ " with " ++ toString stream.faults.length ++ " errors"⟩]

def eventRecords (sink : Sink) : Parse.Event → List LogRecord
  | .error d => ⟨.parser, .debug, d.render⟩ :: sink.records d
  | .recovered start stop _ _ =>
    [⟨.parser, .debug, "recovered from " ++ start.render ++ " to " ++ stop.render⟩]
  | .block _ _ | .discarded _ => []

def parseRecords (sink : Sink) (p : Parse.Parsed) : List LogRecord :=
  p.events.flatMap (eventRecords sink)
    ++ [⟨.parser, .debug, "parsed " ++ toString p.document.statements.length ++ " statements, "
      ++ toString p.document.arena.size ++ " nodes from " ++ p.document.origin ++ " with "
      ++ toString p.document.syntaxErrors.length ++ " errors"⟩]

def resolveRecords (sink : Sink) (r : Resolve.Resolution) : List LogRecord :=
  (r.missing.map fun (inclusion, file) =>
    ⟨.resolver, .debug, "no document for " ++ (Kind.fileReference inclusion).name ++ " <" ++ file
      ++ ">"⟩)
    ++ r.document.bindingErrors.flatMap (fun d =>
      ⟨.resolver, .debug, d.render⟩ :: sink.records d)
    ++ [⟨.resolver, .debug, "resolved " ++ r.document.origin ++ " with "
      ++ toString r.document.bindingErrors.length ++ " binding errors"⟩]

/-- What is said about a finished document: errors of its text aloud, unbound names quietly. -/
def summaryRecords (d : Document) (source : String) : List LogRecord :=
  (d.lexErrors ++ d.syntaxErrors).map (fun e => ⟨.loader, .warning, e.format source⟩)
    ++ d.bindingErrors.map fun e => ⟨.loader, .debug, e.render⟩

end Analysis

/-- A resolved document, the findings in the order in which they were made, and the log. -/
structure Analysis where
  document : Document
  reported : List Diagnostic
  records : List LogRecord

/-- Tokenizes and parses a text; the document keeps the faults of its tokens. -/
def parseText (source origin : String) : Except NumeralFault (TokenStream × Parse.Parsed) := do
  let stream := tokenize source origin
  let p ← parse stream.tokens (some origin)
  return (stream, { p with document := { p.document with lexErrors := stream.faults } })

/-- Tokenizes, parses and resolves a text. -/
def analyze (source origin : String) (builtins : Option Builtins) (sink : Sink) :
    Except NumeralFault Analysis := do
  let (stream, p) ← parseText source origin
  let r := resolve p.document [] builtins
  let d := r.document
  return {
    document := d
    reported := d.lexErrors ++ d.syntaxErrors ++ d.bindingErrors
    records := Analysis.scanRecords sink origin stream ++ Analysis.parseRecords sink p
      ++ Analysis.resolveRecords sink r ++ Analysis.summaryRecords d source }

end Scad
