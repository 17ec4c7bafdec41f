import ScriptCore.Machine

/-! # What running code may ask of its machine

Getters, conversion methods and native functions run code of the program in the middle of an
operation. They do so only through an `Engine`: a record of the ways to run code on top of the
frames that are open. Everything that may run code takes the engine as an argument, so what an
operation does between two such calls can be read off its definition alone. -/

namespace ScriptCore

/-- The ways to run code on top of the open frames. -/
structure Engine where
  /-- Evaluates a branch to its end. -/
  evaluate : BranchRequest → Run Completion
  /-- Calls a value with a receiver and arguments. -/
  call : (func receiver : Value) → (args : List Value) → Run Value
  /-- Opens the root branch. -/
  start : BranchRequest → Run Unit
  /-- Drives the root branch to its next visible boundary; `none` while it goes on. -/
  step : Run (Option Completion)
  /-- Drives the root branch to its end. -/
  run : Run Completion
  /-- Runs a program in the global scope. -/
  execute : List Stmt → Run Value

end ScriptCore
