import Reckon.Statement.Level
import Reckon.Token.Queue
import Reckon.Limit
/-!
Reading one statement from a token queue. The reader goes from token to token; its state is
the level it is on, the calls whose arguments surround that level, and a name whose argument
list may follow. A statement ends at a comma, which is taken, or at the end of the line; a nested
one also ends at a close parenthesis of no group of its own, which stays.
-/
set_option autoImplicit false

namespace Reckon

/-- A call whose arguments are being read: its name, the operators that wait for it, and the
arguments before the current one, the last first. -/
structure OpenCall where
  name : String
  waiting : List Waiting
  arguments : List Expr

inductive Lookahead where
  | none
  | named (name : String)
  /-- The parenthesis that opens the argument list has been read too. -/
  | opened (name : String)

structure ReaderState where
  level : Level
  calls : List OpenCall
  lookahead : Lookahead

/-- How the reader goes on after a token. When it stops, the token is taken or stays. -/
inductive ReaderStep where
  | onward (state : ReaderState)
  | stop (result : Except Error Expr) (taken : Bool)

/-- Whether the statement stands inside an argument list, and how deeply argument lists may be
nested in it. -/
structure ReaderMode where
  nested : Bool
  limit : Limit

namespace ReaderState

def start : ReaderState := ⟨.empty, [], .none⟩

def closeCall (call : OpenCall) (arguments : List Expr) (calls : List OpenCall) : ReaderStep :=
  match Expr.ofName call.name arguments with
  | .ok e => .onward ⟨⟨some e, call.waiting⟩, calls, .none⟩
  | .error e => .stop (.error e) true

def comma (s : ReaderState) : ReaderStep :=
  match s.level.finish with
  | .error m => .stop (.error (.misplaced m none)) true
  | .ok e =>
    match s.calls with
    | [] => .stop (.ok e) true
    | call :: calls =>
      .onward ⟨.empty, { call with arguments := e :: call.arguments } :: calls, .none⟩

def closeList (s : ReaderState) : ReaderStep :=
  match s.level.finish with
  | .error m => .stop (.error (.misplaced m none)) false
  | .ok e =>
    match s.calls with
    | [] => .stop (.ok e) false
    | call :: calls => closeCall call (e :: call.arguments).reverse calls

def place (mode : ReaderMode) (s : ReaderState) (t : Token) : ReaderStep :=
  if t.isComma then s.comma
  else if t.isOperator .closeParen && (mode.nested || !s.calls.isEmpty) && !s.level.inGroup then
    s.closeList
  else
    match t.kind with
    | .operator op =>
      match s.level.push op with
      | .ok level => .onward { s with level := level }
      | .error m => .stop (.error (.misplaced m (some t.start))) true
    | .number value =>
      if s.level.operand.isSome then
        .stop (.error (.misplaced (.expectingOperator t.text) (some t.start))) true
      else .onward { s with level := ⟨some (.constant value), s.level.waiting⟩ }
    | .text =>
      if s.level.operand.isSome then
        .stop (.error (.misplaced (.expectingOperator t.text) (some t.start))) true
      else .onward { s with lookahead := .named t.text }

def step (mode : ReaderMode) (s : ReaderState) (t : Token) : ReaderStep :=
  match s.lookahead with
  | .none => place mode s t
  | .named name =>
    if t.isOperator .openParen then .onward { s with lookahead := .opened name }
    else
      match Expr.ofName name [] with
      | .ok e => place mode ⟨⟨some e, s.level.waiting⟩, s.calls, .none⟩ t
      | .error e => .stop (.error e) false
  | .opened name =>
    let call : OpenCall := ⟨name, s.level.waiting, []⟩
    if t.isOperator .closeParen then closeCall call [] s.calls
    else if mode.limit.allows (s.calls.length + 1) then
      place mode ⟨.empty, call :: s.calls, .none⟩ t
    else .stop (.error .excessiveRecursion) false

def atEnd (s : ReaderState) : Except Error Expr :=
  let finished : Level → Except Error Expr := fun level =>
    match level.finish with
    | .error m => .error (.misplaced m none)
    | .ok e => if s.calls.isEmpty then .ok e else .error (.misplaced .endOfInput none)
  match s.lookahead with
  | .none => finished s.level
  | .named name =>
    match Expr.ofName name [] with
    | .ok e => finished ⟨some e, s.level.waiting⟩
    | .error e => .error e
  | .opened _ => .error (.misplaced .endOfInput none)

/-- Reads on, and gives what remains in the queue together with the result. The error at the
end of the tokens goes before everything that the end of the line would bring. -/
def read (mode : ReaderMode) (failure : Option LexicalError) :
    ReaderState → List Token → Except Error Expr × TokenQueue
  | s, [] =>
    match failure with
    | some e => (.error (.lexical e), ⟨[], none⟩)
    | none => (s.atEnd, ⟨[], none⟩)
  | s, t :: ts =>
    match s.step mode t with
    | .onward s => read mode failure s ts
    | .stop result taken => (result, ⟨if taken then ts else t :: ts, failure⟩)

end ReaderState

def TokenQueue.statement (mode : ReaderMode) (q : TokenQueue) :
    Except Error Expr × TokenQueue :=
  ReaderState.start.read mode q.failure q.tokens

end Reckon
