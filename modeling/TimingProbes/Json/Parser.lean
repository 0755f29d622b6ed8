import TimingProbes.Json.Basic
import TimingProbes.Json.Token

/-! # Reading JSON

A machine takes the tokens one by one. It keeps the arrays and objects that are open and knows what
may come next.
-/

namespace TimingProbes.Json

/-- An array or object that is not closed yet, its contents so far last first. -/
inductive Open where
  | array (items : List Json)
  /-- `name` is that of the member whose value comes next. -/
  | object (members : List (String × Json)) (name : String)

/-- What may come next. -/
inductive Expectation where
  | value
  | valueOrClose
  | name
  | nameOrClose
  | colon
  | commaOrClose
  /-- Nothing: the value is complete. -/
  | nothing (value : Json)

structure Machine where
  stack : List Open
  next : Expectation

namespace Machine

def start : Machine := ⟨[], .value⟩

/-- Puts a complete value where it belongs. -/
def deliver (value : Json) : List Open → Machine
  | [] => ⟨[], .nothing value⟩
  | .array items :: stack => ⟨.array (value :: items) :: stack, .commaOrClose⟩
  | .object members name :: stack => ⟨.object ((name, value) :: members) name :: stack, .commaOrClose⟩

/-- The state after a token that begins or is a value. At most `limit` arrays and objects are open
at once. -/
def begin? (limit : Nat) (stack : List Open) : Token → Option Machine
  | .null => some (deliver .null stack)
  | .bool value => some (deliver (.bool value) stack)
  | .number literal => if literal.isFinite then some (deliver (.number literal) stack) else none
  | .string value => some (deliver (.string value) stack)
  | .openArray => if stack.length < limit then some ⟨.array [] :: stack, .valueOrClose⟩ else none
  | .openObject =>
    if stack.length < limit then some ⟨.object [] "" :: stack, .nameOrClose⟩ else none
  | _ => none

/-- The state after a token that closes the innermost array or object. -/
def close? : List Open → Token → Option Machine
  | .array items :: stack, .closeArray => some (deliver (.array items.reverse) stack)
  | .object members _ :: stack, .closeObject => some (deliver (.object members.reverse) stack)
  | _, _ => none

def name? : List Open → Token → Option Machine
  | .object members _ :: stack, .string name => some ⟨.object members name :: stack, .colon⟩
  | _, _ => none

def step? (limit : Nat) (m : Machine) (t : Token) : Option Machine :=
  match m.next with
  | .value => begin? limit m.stack t
  | .valueOrClose =>
    match t with
    | .closeArray => close? m.stack t
    | t => begin? limit m.stack t
  | .name => name? m.stack t
  | .nameOrClose =>
    match t with
    | .closeObject => close? m.stack t
    | t => name? m.stack t
  | .colon => if t = .colon then some ⟨m.stack, .value⟩ else none
  | .commaOrClose =>
    match t, m.stack with
    | .comma, .array _ :: _ => some ⟨m.stack, .value⟩
    | .comma, .object .. :: _ => some ⟨m.stack, .name⟩
    | t, stack => close? stack t
  | .nothing _ => none

end Machine

/-- The number of arrays and objects that may be open at once. -/
def nestingLimit : Nat := 127

/-- The value that tokens write. -/
def ofTokens? (tokens : List Token) : Option Json :=
  match tokens.foldlM (Machine.step? nestingLimit) .start with
  | some ⟨_, .nothing value⟩ => some value
  | _ => none

/-- The value that a text writes. -/
def parse? (text : String) : Option Json := (Token.all? text.toList []).bind ofTokens?

end TimingProbes.Json
