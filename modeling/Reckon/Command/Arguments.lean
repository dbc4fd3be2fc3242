import Reckon.Text.Numeral
set_option autoImplicit false

namespace Reckon

inductive Switch where
  | showTree | listFunctions | listOperators | verbose | help
deriving DecidableEq

inductive Argument where
  | switch (s : Switch)
  | expression (text : String)
  /-- Two dashes. -/
  | separator
deriving DecidableEq

namespace Argument

def longNames : List (Switch × List Char) :=
  [(.showTree, "show-tree".toList), (.listFunctions, "list".toList),
   (.listOperators, "operators".toList), (.verbose, "verbose".toList), (.help, "help".toList)]

def long? (text : List Char) : Option Switch :=
  if text.isEmpty then none
  else (longNames.find? fun entry => text.isPrefixOf entry.2).map Prod.fst

def letters? (cs : List Char) : Option Switch :=
  if cs.any fun c => c != 'v' && c != 'h' then none
  else if cs.contains 'h' then some .help
  else some .verbose

/-- Digits, or digits after a point with or without digits before it; one line feed may
follow. -/
def isUnsignedNumber (cs : List Char) : Bool :=
  let cs := if cs.getLast? == some '\n' then cs.dropLast else cs
  let rest := cs.dropWhile isDecimalDigit
  match rest with
  | [] => !cs.isEmpty
  | c :: fraction => c == '.' && !fraction.isEmpty && fraction.all isDecimalDigit

/-- What an argument before the separator is; nothing if it is at fault. An unknown option is
an expression after all if it has a space in it. No option takes a value, but an equals sign may
stand between the first letter and further ones. -/
def classify? (text : String) : Option Argument :=
  let unlessFaulty := if text.toList.contains ' ' then some (expression text) else none
  match text.toList with
  | ['-', '-'] => some .separator
  | '-' :: '-' :: name =>
    match long? name with
    | some s => some (.switch s)
    | none =>
      let key := name.takeWhile fun c => c != '='
      if key.length < name.length && (key.isEmpty || (long? key).isSome) then none
      else unlessFaulty
  | '-' :: c :: cs =>
    if c == 'v' || c == 'h' then
      match cs with
      | ['='] => none
      | '=' :: further => (letters? (c :: further)).map .switch
      | _ => (letters? (c :: cs)).map .switch
    else if isUnsignedNumber (c :: cs) then some (.expression text)
    else unlessFaulty
  | _ => some (.expression text)

def classifyAll? : List String → Option (List Argument)
  | [] => some []
  | text :: texts =>
    match classify? text with
    | some .separator => some (.separator :: texts.map .expression)
    | some a => (classifyAll? texts).map fun as => a :: as
    | none => none

def isSwitch : Argument → Bool
  | .switch _ => true
  | _ => false

def expression? : Argument → Option String
  | .expression text => some text
  | _ => none

end Argument

structure Invocation where
  expressions : List String
  showTree : Bool
  listFunctions : Bool
  listOperators : Bool
deriving DecidableEq

namespace Invocation

def readsInput (i : Invocation) : Bool := i.expressions.isEmpty && !i.listOperators

/-- The invocation that the arguments ask for; nothing if they are at fault or ask for help. -/
def ofArguments? (texts : List String) : Option Invocation :=
  match Argument.classifyAll? texts with
  | none => none
  | some arguments =>
    let fromFirst := arguments.dropWhile Argument.isSwitch
    let together := fromFirst.takeWhile fun a => !a.isSwitch
    let after := fromFirst.dropWhile fun a => !a.isSwitch
    if after.all Argument.isSwitch && !arguments.contains (.switch .help) then
      some
        ⟨together.filterMap Argument.expression?,
          arguments.contains (.switch .showTree),
          arguments.contains (.switch .listFunctions),
          arguments.contains (.switch .listOperators)⟩
    else none

end Invocation

end Reckon
