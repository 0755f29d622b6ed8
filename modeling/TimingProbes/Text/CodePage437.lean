import TimingProbes.Bytes

/-! # Code page 437

The characters of bytes in names that are not marked as UTF-8: below 128 they are those of ASCII.
-/

namespace TimingProbes.Text.CodePage437

/-- The characters of the bytes from 128 on. -/
def upperHalf : List Char :=
  ("ÇüéâäàåçêëèïîìÄÅÉæÆôöòûùÿÖÜ¢£¥₧ƒ" ++
    "áíóúñÑªº¿⌐¬½¼¡«»░▒▓│┤╡╢╖╕╣║╗╝╜╛┐" ++
    "└┴┬├─┼╞╟╚╔╩╦╠═╬╧╨╤╥╙╘╒╓╫╪┘┌█▄▌▐▀" ++
    "αßΓπΣσµτΦΘΩδ∞φε∩≡±≥≤⌠⌡÷≈°∙·√ⁿ²■\u00a0").toList

def decodeByte (b : UInt8) : Char :=
  if b < 128 then Char.ofNat b.toNat else (upperHalf[b.toNat - 128]?).getD ' '

def decode (bytes : Bytes) : String := String.ofList (bytes.map decodeByte)

end TimingProbes.Text.CodePage437
