import Mathlib.Algebra.Group.Nat.Defs
import Mathlib.Data.Vector.Defs

namespace Zeg.Base

abbrev Bytes := List UInt8

abbrev Bytes32 := List.Vector UInt8 32
abbrev Address := List.Vector UInt8 20

-- 32-byte values read as big-endian integers
abbrev Word := BitVec 256

def Word.ofBytes (bs : Bytes) : Word := bs.foldl (fun n b => n * 256 + BitVec.ofNat 256 b.toNat) 0

def Word.toBytes (v : Word) : Bytes :=
  (List.range 32).map fun i => UInt8.ofNat (v.toNat / 256 ^ (31 - i))

end Zeg.Base
