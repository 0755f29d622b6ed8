import TimingProbes.Text.Glyphless
import TimingProbes.Text.Hex

/-! # Quoted text in messages -/

namespace TimingProbes.Text

/-- A character as a quoted text shows it: a quote and a backslash after a backslash, the usual
short forms, and a number for a character without a glyph. -/
def quotedChar (c : Char) : String :=
  match c with
  | '"' => "\\\""
  | '\\' => "\\\\"
  | '\t' => "\\t"
  | '\n' => "\\n"
  | '\r' => "\\r"
  | '\x00' => "\\0"
  | c => if isGlyphless c then "\\u\x7b" ++ hexNumber 1 c.toNat ++ "\x7d" else c.toString

/-- The text between quotes, with every character that could be misread escaped. -/
def quoted (s : String) : String :=
  "\"" ++ String.join (s.toList.map quotedChar) ++ "\""

end TimingProbes.Text
