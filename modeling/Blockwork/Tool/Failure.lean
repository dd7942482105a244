import Blockwork.Error

/-!
# Failures

A failure is an error together with what was being done. Its report starts with the outermost
description and goes on to the causes.

* `Failure.chain`: the descriptions from the outermost one to the root.
* `Failure.report`: the text for the user.
-/

namespace Blockwork

/-- What was being done, and what went wrong. -/
inductive Failure where
  | parsing (error : ParseError)
  | running (error : RuntimeError)
  | generating (error : CompileError)
  | flushing (error : IoError)
  | tokenizing (error : LexError)
  /-- The output of a listing. -/
  | listing (error : IoError)
  | reading (path : String) (error : IoError)
  | creating (path : String) (error : IoError)
  | compiling (path : String) (error : CompileError)
  | writing (path : String) (error : IoError)
  deriving DecidableEq, Repr

namespace Failure

/-- A parse error that comes from scanning has the scanner's error as its cause. -/
def parseChain (error : ParseError) : List String :=
  match error with
  | .scan cause => [error.message, cause.message]
  | _ => [error.message]

/-- A compile error that comes from the output has the output's error as its cause. -/
def compileChain (error : CompileError) : List String :=
  match error with
  | .io cause => [error.message, cause.message]
  | .obstacle _ => [error.message]

/-- The descriptions, the outermost first. -/
def chain : Failure → List String
  | parsing e => "Parsing program" :: parseChain e
  | running e => ["Running program", e.message]
  | generating e => "Generating assembly" :: compileChain e
  | flushing e => ["Flushing assembly", e.message]
  | tokenizing e => ["Tokenizing program", e.message]
  | listing e => [e.message]
  | reading path e => [s!"Reading {path}", e.message]
  | creating path e => [s!"Creating {path}", e.message]
  | compiling path e => s!"Compiling {path}" :: compileChain e
  | writing path e => [s!"Writing {path}", e.message]

/-- The causes, each on a line of its own, numbered from `n` on. -/
def numbered (n : Nat) : List String → String
  | [] => ""
  | cause :: causes => s!"    {n}: {cause}\n" ++ numbered (n + 1) causes

/-- The text for the user. Causes are numbered if there are several. -/
def report (f : Failure) : String :=
  match f.chain with
  | [] => ""
  | [outer] => s!"Error: {outer}\n"
  | [outer, cause] => s!"Error: {outer}\n\nCaused by:\n    {cause}\n"
  | outer :: causes => s!"Error: {outer}\n\nCaused by:\n" ++ numbered 0 causes

end Failure

end Blockwork
