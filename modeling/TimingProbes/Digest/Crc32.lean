import TimingProbes.Bytes

/-! # The cyclic redundancy check of archive members -/

namespace TimingProbes.Digest.Crc32

/-- The remainder after one more zero bit. -/
def shift (r : UInt32) : UInt32 := if r &&& 1 = 1 then (r >>> 1) ^^^ 0xEDB88320 else r >>> 1

/-- The remainder after a byte of zero bits, by the low byte of the remainder. -/
def table : Array UInt32 :=
  ((List.range 256).map fun i => Nat.repeat shift 8 (UInt32.ofNat i)).toArray

def step (r : UInt32) (b : UInt8) : UInt32 :=
  (r >>> 8) ^^^ table.getD (r.toUInt8 ^^^ b).toNat 0

/-- The check sum of some bytes. -/
def checksum (bytes : Bytes) : UInt32 := bytes.foldl step 0xFFFFFFFF ^^^ 0xFFFFFFFF

end TimingProbes.Digest.Crc32
