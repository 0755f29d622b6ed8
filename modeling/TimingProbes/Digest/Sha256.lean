import TimingProbes.Text.Hex

/-! # SHA-256 -/

namespace TimingProbes.Digest.Sha256

/-- The eight words that a digest is made of. -/
structure State where
  a : UInt32
  b : UInt32
  c : UInt32
  d : UInt32
  e : UInt32
  f : UInt32
  g : UInt32
  h : UInt32
deriving DecidableEq, Repr

def State.initial : State :=
  ⟨0x6a09e667, 0xbb67ae85, 0x3c6ef372, 0xa54ff53a, 0x510e527f, 0x9b05688c, 0x1f83d9ab, 0x5be0cd19⟩

def State.add (s t : State) : State :=
  ⟨s.a + t.a, s.b + t.b, s.c + t.c, s.d + t.d, s.e + t.e, s.f + t.f, s.g + t.g, s.h + t.h⟩

def State.words (s : State) : List UInt32 := [s.a, s.b, s.c, s.d, s.e, s.f, s.g, s.h]

def roundConstants : List UInt32 :=
  [0x428a2f98, 0x71374491, 0xb5c0fbcf, 0xe9b5dba5, 0x3956c25b, 0x59f111f1, 0x923f82a4, 0xab1c5ed5,
    0xd807aa98, 0x12835b01, 0x243185be, 0x550c7dc3, 0x72be5d74, 0x80deb1fe, 0x9bdc06a7, 0xc19bf174,
    0xe49b69c1, 0xefbe4786, 0x0fc19dc6, 0x240ca1cc, 0x2de92c6f, 0x4a7484aa, 0x5cb0a9dc, 0x76f988da,
    0x983e5152, 0xa831c66d, 0xb00327c8, 0xbf597fc7, 0xc6e00bf3, 0xd5a79147, 0x06ca6351, 0x14292967,
    0x27b70a85, 0x2e1b2138, 0x4d2c6dfc, 0x53380d13, 0x650a7354, 0x766a0abb, 0x81c2c92e, 0x92722c85,
    0xa2bfe8a1, 0xa81a664b, 0xc24b8b70, 0xc76c51a3, 0xd192e819, 0xd6990624, 0xf40e3585, 0x106aa070,
    0x19a4c116, 0x1e376c08, 0x2748774c, 0x34b0bcb5, 0x391c0cb3, 0x4ed8aa4a, 0x5b9cca4f, 0x682e6ff3,
    0x748f82ee, 0x78a5636f, 0x84c87814, 0x8cc70208, 0x90befffa, 0xa4506ceb, 0xbef9a3f7, 0xc67178f2]

def rotateRight (x : UInt32) (n : UInt32) : UInt32 := (x >>> n) ||| (x <<< (32 - n))

/-- The schedule with one more word. -/
def extend (schedule : Array UInt32) : Array UInt32 :=
  let n := schedule.size
  let at_ (back : Nat) : UInt32 := schedule.getD (n - back) 0
  let x := at_ 15
  let y := at_ 2
  let s₀ := rotateRight x 7 ^^^ rotateRight x 18 ^^^ (x >>> 3)
  let s₁ := rotateRight y 17 ^^^ rotateRight y 19 ^^^ (y >>> 10)
  schedule.push (at_ 16 + s₀ + at_ 7 + s₁)

def round (s : State) (constant word : UInt32) : State :=
  let s₁ := rotateRight s.e 6 ^^^ rotateRight s.e 11 ^^^ rotateRight s.e 25
  let choice := (s.e &&& s.f) ^^^ (~~~s.e &&& s.g)
  let t₁ := s.h + s₁ + choice + constant + word
  let s₀ := rotateRight s.a 2 ^^^ rotateRight s.a 13 ^^^ rotateRight s.a 22
  let majority := (s.a &&& s.b) ^^^ (s.a &&& s.c) ^^^ (s.b &&& s.c)
  ⟨t₁ + (s₀ + majority), s.a, s.b, s.c, s.d + t₁, s.e, s.f, s.g⟩

/-- The state after a block of sixteen words. -/
def compress (s : State) (block : Array UInt32) : State :=
  let schedule := (List.range 48).foldl (fun w _ => extend w) block
  let rounds := roundConstants.zip schedule.toList
  s.add (rounds.foldl (fun s (constant, word) => round s constant word) s)

/-- The message with a one bit, zeros and its length in bits, so that it fills whole blocks. -/
def padded (message : Bytes) : Bytes :=
  let length := message.length
  message ++ (0x80 :: (List.replicate ((119 - length % 64) % 64) 0 ++
    Bytes.bigEndian 8 (8 * length)))

def wordsOf (bytes : Bytes) (done : Array UInt32) : Array UInt32 :=
  match bytes with
  | b₀ :: b₁ :: b₂ :: b₃ :: rest =>
    wordsOf rest (done.push
      ((b₀.toUInt32 <<< 24) ||| (b₁.toUInt32 <<< 16) ||| (b₂.toUInt32 <<< 8) ||| b₃.toUInt32))
  | _ => done

/-- The digest of a message. -/
def digest (message : Bytes) : Bytes :=
  let words := wordsOf (padded message) #[]
  let blocks := (List.range (words.size / 16)).map fun i => words.extract (16 * i) (16 * i + 16)
  (blocks.foldl compress .initial).words.flatMap Bytes.ofUInt32

/-- The digest in hexadecimal digits. -/
def hex (message : Bytes) : String := Text.hexBytes (digest message)

end TimingProbes.Digest.Sha256
