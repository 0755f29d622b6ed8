import TimingProbes.Json.Number
import TimingProbes.Text.Hex

/-! # JSON values and their written form -/

namespace TimingProbes

inductive Json where
  | null
  | bool (value : Bool)
  | number (literal : Json.Literal)
  | string (value : String)
  | array (items : List Json)
  | object (members : List (String × Json))

namespace Json

def nat (n : Nat) : Json := number (.ofNat n)

/-- A character as a string literal shows it: quotes, backslashes and controls are escaped. -/
def escaped (c : Char) : List Char :=
  match c with
  | '"' => ['\\', '"']
  | '\\' => ['\\', '\\']
  | '\x08' => ['\\', 'b']
  | '\x0c' => ['\\', 'f']
  | '\n' => ['\\', 'n']
  | '\r' => ['\\', 'r']
  | '\t' => ['\\', 't']
  | c =>
    if c.toNat < 0x20 then
      ['\\', 'u', '0', '0', Text.hexDigit (c.toNat / 16), Text.hexDigit (c.toNat % 16)]
    else [c]

def quotedChars (s : String) : List Char := '"' :: s.toList.flatMap escaped ++ ['"']

/-- A line break and the blanks that start the next line. -/
def newline (depth : Nat) : List Char := '\n' :: List.replicate (2 * depth) ' '

mutual

/-- The value over several lines, each level two blanks further in. -/
def prettyAt (depth : Nat) : Json → List Char
  | null => "null".toList
  | bool true => "true".toList
  | bool false => "false".toList
  | number literal => literal.chars
  | string value => quotedChars value
  | array [] => ['[', ']']
  | array (item :: items) =>
    '[' :: newline (depth + 1) ++ prettyAt (depth + 1) item ++ prettyItems (depth + 1) items ++
      newline depth ++ [']']
  | object [] => ['{', '}']
  | object ((name, value) :: members) =>
    '{' :: newline (depth + 1) ++ quotedChars name ++ ':' :: ' ' :: prettyAt (depth + 1) value ++
      prettyMembers (depth + 1) members ++ newline depth ++ ['}']

def prettyItems (depth : Nat) : List Json → List Char
  | [] => []
  | item :: items => ',' :: newline depth ++ prettyAt depth item ++ prettyItems depth items

def prettyMembers (depth : Nat) : List (String × Json) → List Char
  | [] => []
  | (name, value) :: members =>
    ',' :: newline depth ++ quotedChars name ++ ':' :: ' ' :: prettyAt depth value ++
      prettyMembers depth members

end

def pretty (j : Json) : String := String.ofList (prettyAt 0 j)

end Json

end TimingProbes
