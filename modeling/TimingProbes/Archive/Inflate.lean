import TimingProbes.Archive.Inflate.PrefixCode

/-! # Inflating

Deflated bytes are blocks, each stored as it is or as code words of bytes and of copies from what has
been written before.
-/

namespace TimingProbes.Inflate

/-- What has been written so far. -/
abbrev Output := Array UInt8

/-! ## Copies -/

/-- The least length of each length symbol from 257 on, and the bits that follow it. -/
def lengthBands : Array (Nat × Nat) :=
  #[(3, 0), (4, 0), (5, 0), (6, 0), (7, 0), (8, 0), (9, 0), (10, 0), (11, 1), (13, 1), (15, 1),
    (17, 1), (19, 2), (23, 2), (27, 2), (31, 2), (35, 3), (43, 3), (51, 3), (59, 3), (67, 4),
    (83, 4), (99, 4), (115, 4), (131, 5), (163, 5), (195, 5), (227, 5), (258, 0)]

/-- The least distance of each distance symbol, and the bits that follow it. -/
def distanceBands : Array (Nat × Nat) :=
  #[(1, 0), (2, 0), (3, 0), (4, 0), (5, 1), (7, 1), (9, 2), (13, 2), (17, 3), (25, 3), (33, 4),
    (49, 4), (65, 5), (97, 5), (129, 6), (193, 6), (257, 7), (385, 7), (513, 8), (769, 8),
    (1025, 9), (1537, 9), (2049, 10), (3073, 10), (4097, 11), (6145, 11), (8193, 12), (12289, 12),
    (16385, 13), (24577, 13)]

/-- The number that a symbol and the bits after it stand for. -/
def inBand (bands : Array (Nat × Nat)) (symbol : Nat) : BitReader Nat :=
  match bands[symbol]? with
  | some (least, width) => do return least + (← BitReader.number width)
  | none => BitReader.corrupt

/-- Writes `length` bytes again that stand `distance` back, one by one, so that a copy may run into
itself. -/
def copyBack (distance : Nat) : Nat → Output → Output
  | 0, out => out
  | length + 1, out => copyBack distance length (out.push (out.getD (out.size - distance) 0))

/-! ## Blocks -/

/-- The code words of a block up to the one that ends it. Every word has at least a bit, so there are
no more words than `fuel` bits. -/
def words (literals distances : PrefixCode) : (fuel : Nat) → Output → BitReader Output
  | 0, _ => throw .incomplete
  | fuel + 1, out => do
    let symbol ← literals.symbol
    if symbol < 256 then words literals distances fuel (out.push (UInt8.ofNat symbol))
    else if symbol = 256 then return out
    else
      let length ← inBand lengthBands (symbol - 257)
      let distance ← inBand distanceBands (← distances.symbol)
      if out.size < distance then BitReader.corrupt
      words literals distances fuel (copyBack distance length out)

def storedBlock (out : Output) : BitReader Output := do
  let length := Bytes.ofLittleEndian (← BitReader.wholeBytes 2)
  let complement := Bytes.ofLittleEndian (← BitReader.wholeBytes 2)
  if length + complement ≠ 0xFFFF then BitReader.corrupt
  return out ++ (← BitReader.wholeBytes length)

def fixedBlock (fuel : Nat) (out : Output) : BitReader Output := do
  let lengths := List.replicate 144 8 ++ List.replicate 112 9 ++ List.replicate 24 7 ++
    List.replicate 8 8
  let literals ← PrefixCode.ofLengths false lengths
  let distances ← PrefixCode.ofLengths false (List.replicate 32 5)
  words literals distances fuel out

/-- The order in which the word lengths of the length code stand. -/
def lengthOrder : List Nat := [16, 17, 18, 0, 8, 7, 9, 6, 10, 5, 11, 4, 12, 3, 13, 2, 14, 1, 15]

/-- Word lengths, latest first, until there are `total`; a symbol above 15 repeats a length. -/
def wordLengths (code : PrefixCode) (total : Nat) : (fuel : Nat) → List Nat → BitReader (List Nat)
  | 0, _ => throw .incomplete
  | fuel + 1, done =>
    if total < done.length then BitReader.corrupt
    else if done.length = total then return done.reverse
    else do
      let symbol ← code.symbol
      if symbol < 16 then wordLengths code total fuel (symbol :: done)
      else if symbol = 16 then
        match done with
        | [] => BitReader.corrupt
        | last :: _ =>
          wordLengths code total fuel (List.replicate (3 + (← BitReader.number 2)) last ++ done)
      else
        let repeats ← if symbol = 17 then (3 + ·) <$> BitReader.number 3
          else (11 + ·) <$> BitReader.number 7
        wordLengths code total fuel (List.replicate repeats 0 ++ done)

/-- Numbers of three bits. -/
def shortLengths : Nat → BitReader (List Nat)
  | 0 => pure []
  | n + 1 => do
    let length ← BitReader.number 3
    return length :: (← shortLengths n)

def codedBlock (fuel : Nat) (out : Output) : BitReader Output := do
  let literalCount := 257 + (← BitReader.number 5)
  let distanceCount := 1 + (← BitReader.number 5)
  let givenCount := 4 + (← BitReader.number 4)
  if 286 < literalCount ∨ 30 < distanceCount then BitReader.corrupt
  let given ← shortLengths givenCount
  let byOrder := lengthOrder.zip given
  let lengthCode ← PrefixCode.ofLengths false
    ((List.range 19).map fun symbol => (byOrder.lookup symbol).getD 0)
  let total := literalCount + distanceCount
  let lengths ← wordLengths lengthCode total (total + 1) []
  if (lengths[256]?).getD 0 = 0 then BitReader.corrupt
  let literals ← PrefixCode.ofLengths true (lengths.take literalCount)
  let distances ← PrefixCode.ofLengths true (lengths.drop literalCount)
  words literals distances fuel out

/-- Blocks up to the last. -/
def blocks : (fuel : Nat) → Output → BitReader Output
  | 0, _ => throw .incomplete
  | fuel + 1, out => do
    let last ← BitReader.bit
    let out ← match ← BitReader.number 2 with
      | 0 => storedBlock out
      | 1 => fixedBlock fuel out
      | 2 => codedBlock fuel out
      | _ => BitReader.corrupt
    if last = 1 then return out else blocks fuel out

/-- The bytes that some deflated bytes stand for; what follows the last block is passed over. -/
def inflate (deflated : Bytes) : Except InflateError Bytes := do
  let (out, _) ← blocks (8 * deflated.length + 1) #[] ⟨deflated, 0⟩
  return out.toList

/-! ## Stored blocks -/

/-- The longest stored block. -/
def maxStored : Nat := 65535

/-- A form that inflates to the given bytes, in stored blocks. -/
def stored (bytes : Bytes) : Bytes :=
  go bytes.length bytes []
where
  block (last : UInt8) (content : Bytes) : Bytes :=
    last :: (Bytes.littleEndian 2 content.length ++
      (Bytes.littleEndian 2 (maxStored - content.length) ++ content))
  go : (fuel : Nat) → Bytes → List Bytes → Bytes
    | 0, rest, done => (block 1 rest :: done).reverse.flatten
    | fuel + 1, rest, done =>
      if rest.length ≤ maxStored then go 0 rest done
      else go fuel (rest.drop maxStored) (block 0 (rest.take maxStored) :: done)

end TimingProbes.Inflate
