import ScriptCore.Host.Natives

/-! # Hosts

The plain host evaluates every branch by its syntax. A host may refuse branches of one kind, and it
may give marker statements, string literals that start with two at-signs, an outcome of their own. -/

namespace ScriptCore

/-- The outcome that a marker names: what follows the at-signs is a word, or a word and an argument
after a colon. Words that name no completion name an error. -/
def markerOutcome (word : String) (argument : Option String) : Except Error Completion :=
  let seven := Value.number 7.0
  match word with
  | "throw" => .ok (.thrown seven)
  | "return" => .ok (.returned seven)
  | "normal" => .ok .empty
  | "break" => .ok (.broken argument none)
  | "continue" => .ok (.continued argument none)
  | "breakv" => .ok (.broken argument (some seven))
  | "continuev" => .ok (.continued argument (some seven))
  | kind =>
    let text := argument.getD ""
    .error ((Error.ofKind? kind text seven).getD (.typeError text))

/-- The outcome that a string literal names, if it is a marker. -/
def marker? (literal : String) : Option (Except Error Completion) :=
  match literal.toList with
  | '@' :: '@' :: cs =>
    let word := String.ofList (cs.takeWhile (· != ':'))
    match cs.dropWhile (· != ':') with
    | _ :: rest => some (markerOutcome word (some (String.ofList rest)))
    | [] => some (markerOutcome word none)
  | _ => none

namespace Host

/-- Evaluates every branch by its syntax. -/
def plain (stash : List (String × List Stmt)) : Host :=
  { branch := fun r => .ok (Task.ofRequest r)
    native := Natives.run stash }

/-- Gives marker statements their own outcomes. -/
def withMarkers (host : Host) : Host :=
  { host with
    branch := fun r =>
      match r.node with
      | .statement (.expr (.string s)) =>
        match marker? s with
        | some outcome => .ok (.settled outcome)
        | none => host.branch r
      | _ => host.branch r }

/-- Refuses branches of one kind. -/
def refusing (host : Host) (kind : BranchKind) : Host :=
  { host with
    branch := fun r =>
      if r.kind = kind then .error (.typeError ("refused " ++ kind.name)) else host.branch r }

end Host

end ScriptCore
