import TimingProbes.Json.Number
import TimingProbes.Toml.Basic
import TimingProbes.Toml.Scan

/-! # Strings, numbers and dates -/

namespace TimingProbes.Toml

open Scan

def isWhite (c : Char) : Bool := c == ' ' || c == '\t'

/-- The blanks at the start of a line or between its parts. -/
def white : Scan Unit := do let _ ← many isWhite

def newline : Scan Unit := char '\n' <|> exactly ['\r', '\n']

/-- Characters that may stand in comments and literal strings. -/
def isPlain (c : Char) : Bool := c == '\t' || (0x20 ≤ c.toNat && c.toNat ≠ 0x7f)

def isHexDigit (c : Char) : Bool :=
  c.isDigit || ('a' ≤ c && c ≤ 'f') || ('A' ≤ c && c ≤ 'F')

def hexValue (digits : List Char) : Nat :=
  digits.foldl (fun n c => 16 * n +
    if c.isDigit then c.toNat - 48 else if 'a' ≤ c then c.toNat - 87 else c.toNat - 55) 0

/-! ## Strings -/

/-- The character whose number stands in `n` hexadecimal digits. -/
def codePoint (n : Nat) : Scan Char := do
  let value := hexValue (← exact n isHexDigit)
  if Nat.isValidChar value then return Char.ofNat value else failure

/-- What a backslash and the characters after it stand for. -/
def escape : Scan Char := do
  char '\\'
  match ← one fun _ => true with
  | 'b' => return '\x08'
  | 't' => return '\t'
  | 'n' => return '\n'
  | 'f' => return '\x0c'
  | 'r' => return '\r'
  | '"' => return '"'
  | '\\' => return '\\'
  | 'u' => codePoint 4
  | 'U' => codePoint 8
  | _ => failure

def isBasicPlain (c : Char) : Bool := isPlain c && c != '"' && c != '\\'

def basicChar : Scan (Option Char) := do
  match ← peek with
  | some '"' => return none
  | some '\\' => return some (← escape)
  | _ => return some (← one isBasicPlain)

def basicString : Scan String := do
  char '"'
  let text ← loop basicChar []
  char '"'
  return String.ofList text

def literalString : Scan String := do
  char '\''
  let text ← many fun c => isPlain c && c != '\''
  char '\''
  return String.ofList text

/-- A backslash at the end of a line, with the blanks and line breaks after it. -/
def lineContinuation : Scan Unit := do
  char '\\'
  white
  newline
  let _ ← loop (some <$> ((do let _ ← one isWhite) <|> newline) <|> pure none) []

/-- The quotes that stand before the three that close a string, at most two. -/
def closingQuotes (quote : Char) : Scan (List Char) := fun cs =>
  let quotes := cs.takeWhile (· = quote)
  if 3 ≤ quotes.length ∧ quotes.length ≤ 5 then
    some (quotes.drop 3, cs.drop quotes.length)
  else none

/-- A piece of a string over several lines, none at its closing quotes. A line break is one character
however it is written. -/
def multilinePiece (quote : Char) (escapes : Bool) : Scan (Option (List Char)) := fun cs =>
  match cs with
  | '\n' :: rest => some (some ['\n'], rest)
  | '\r' :: '\n' :: rest => some (some ['\n'], rest)
  | '\\' :: _ =>
    if escapes then
      ((do lineContinuation; return some []) <|> (do return some [← escape]) :
        Scan (Option (List Char))) cs
    else some (some ['\\'], cs.drop 1)
  | c :: rest =>
    if c = quote then
      let quotes := (c :: rest).takeWhile (· = quote)
      if quotes.length < 3 then some (some quotes, (c :: rest).drop quotes.length)
      else some (none, c :: rest)
    else if isPlain c then some (some [c], rest)
    else none
  | [] => none

def multilineString (quote : Char) (escapes : Bool) : Scan String := do
  exactly [quote, quote, quote]
  let _ ← optional newline
  let pieces ← loop (multilinePiece quote escapes) []
  let quotes ← closingQuotes quote
  return String.ofList (pieces.flatten ++ quotes)

def quotedString : Scan String := fun cs =>
  match cs with
  | '"' :: '"' :: '"' :: _ => multilineString '"' true cs
  | '"' :: _ => basicString cs
  | '\'' :: '\'' :: '\'' :: _ => multilineString '\'' false cs
  | _ => literalString cs

/-! ## Numbers -/

/-- Digits of a kind with single underscores between them. -/
def digitGroups (p : Char → Bool) : Scan (List Char) := do
  let first ← one p
  let rest ← loop (some <$> (one p <|> (char '_' *> one p)) <|> pure none) []
  return first :: rest

/-- Decimal digits without a zero at their start, unless they are a single zero. -/
def decimalDigits : Scan (List Char) := do
  match ← peek with
  | some '0' => char '0'; return ['0']
  | _ => digitGroups Char.isDigit

def sign : Scan (Option Char) := optional (one fun c => c == '+' || c == '-')

/-- An exponent with its mark: whether it is negative, and its digits. -/
def exponent : Scan (Bool × List Char) := do
  let _ ← one fun c => c == 'e' || c == 'E'
  let negative := (← sign) == some '-'
  return (negative, ← digitGroups Char.isDigit)

/-- The least number that rounds to no binary64 number: the largest of them and half a unit of its
last place. -/
def beyondFloat : Nat := Nat.pow 2 1024 - Nat.pow 2 970

/-- True if the literal's value lies beyond the largest binary64 number. -/
def exceedsFloat (l : Json.Literal) : Bool :=
  let digits := natOfDigits (l.whole ++ l.fraction.getD [])
  let shift : Int := match l.exponent with
    | some (true, e) => -(natOfDigits e : Int)
    | some (false, e) => natOfDigits e
    | none => 0
  let power := shift - ((l.fraction.getD []).length : Int)
  if digits = 0 then false
  else if 400 < power then true
  else if power < 0 then
    let down := power.natAbs
    if l.whole.length + 400 < down then false
    else beyondFloat * Nat.pow 10 down ≤ digits
  else beyondFloat ≤ digits * Nat.pow 10 power.toNat

def float : Scan Unit := do
  let negative := (← sign) == some '-'
  let whole ← decimalDigits
  let fraction ← optional (do char '.'; digitGroups Char.isDigit)
  let exponent ← optional exponent
  if fraction.isNone && exponent.isNone then failure
  if !negative && exceedsFloat ⟨false, whole, fraction, exponent⟩ then failure

def specialFloat : Scan Unit := do
  let _ ← sign
  exactly "inf".toList <|> exactly "nan".toList

/-- The first positive number that does not fit in 64 bits with a sign. -/
def integerLimit : Nat := 0x8000000000000000

/-- An integer that fits in 64 bits. -/
def integer : Scan Unit := fun cs =>
  let radix (p : Char → Bool) (value : List Char → Nat) : Scan Unit := do
    let digits ← digitGroups p
    if integerLimit ≤ value digits then failure
  match cs with
  | '0' :: 'x' :: rest => radix isHexDigit hexValue rest
  | '0' :: 'o' :: rest =>
    radix (fun c => '0' ≤ c && c ≤ '7') (·.foldl (fun n c => 8 * n + digitValue c) 0) rest
  | '0' :: 'b' :: rest =>
    radix (fun c => c == '0' || c == '1') (·.foldl (fun n c => 2 * n + digitValue c) 0) rest
  | cs => (do
    let negative := (← sign) == some '-'
    let value := natOfDigits (← decimalDigits)
    if (if negative then integerLimit < value else integerLimit ≤ value) then failure : Scan Unit) cs

/-! ## Dates and times -/

/-- A number of exactly `n` digits between two bounds. -/
def field (n low high : Nat) : Scan Nat := do
  let value := natOfDigits (← exact n Char.isDigit)
  if low ≤ value ∧ value ≤ high then return value else failure

def daysIn (year month : Nat) : Nat :=
  if month = 2 then
    if year % 4 = 0 ∧ (year % 100 ≠ 0 ∨ year % 400 = 0) then 29 else 28
  else if month = 4 ∨ month = 6 ∨ month = 9 ∨ month = 11 then 30
  else 31

def date : Scan Unit := do
  let year ← field 4 0 9999
  char '-'
  let month ← field 2 1 12
  char '-'
  let _ ← field 2 1 (daysIn year month)

def time : Scan Unit := do
  let _ ← field 2 0 23
  char ':'
  let _ ← field 2 0 59
  char ':'
  let _ ← field 2 0 60
  let _ ← optional (do char '.'; let _ ← one Char.isDigit; many Char.isDigit)

def timeOffset : Scan Unit := do
  match ← one fun c => c == 'Z' || c == 'z' || c == '+' || c == '-' with
  | '+' | '-' =>
    let _ ← field 2 0 23
    char ':'
    let _ ← field 2 0 59
  | _ => return ()

/-- A time of a day or on a date, or a date alone. -/
def dateTime : Scan Unit :=
  (do
    date
    let _ ← optional (do
      let _ ← one fun c => c == 'T' || c == 't' || c == ' '
      time
      let _ ← optional timeOffset)) <|> time

end TimingProbes.Toml
