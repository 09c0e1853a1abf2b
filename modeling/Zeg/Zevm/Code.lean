import Zeg.Base.Bytes

-- What zevm reads out of bytecode: the jump destinations and the data of PUSH.
namespace Zeg.Zevm

open Base

-- PUSH1..PUSH32 are the opcodes whose top three bits are 011.
def instrWidth (op : UInt8) : Nat := if op &&& 0xe0 = 0x60 then op.toNat - 0x5e else 1

-- The walk over the instructions that start in one group of 64 bytes: the cursor after it and
-- the word of the group. A step takes at least one byte, so 64 of them reach the end.
def walkGroup (code : Bytes) (gStart gEnd : Nat) : Nat → Nat → BitVec 64 → Nat × BitVec 64
  | 0, p, word => (p, word)
  | fuel + 1, p, word =>
    if p < gEnd then
      let op := code.getD p 0
      walkGroup code gStart gEnd fuel (p + instrWidth op)
        (if op = 0x5b then word ||| (1 <<< (p - gStart)) else word)
    else (p, word)

-- The groups from `g` on, `full` of which are whole; `p` carries a PUSH over a group's end.
def bitsetGroups (code : Bytes) : Nat → Nat → Nat → List (BitVec 64)
  | 0, g, p => if code.length % 64 = 0 then [] else [(walkGroup code (g * 64) code.length 64 p 0).2]
  | full + 1, g, p =>
    let (p', word) := walkGroup code (g * 64) (g * 64 + 64) 64 p 0
    word :: bitsetGroups code full (g + 1) p'

def buildJumpdestBitset (code : Bytes) : List (BitVec 64) := bitsetGroups code (code.length / 64) 0 0

def isJumpdest (code : Bytes) (pos : Nat) : Bool :=
  pos < code.length && ((buildJumpdestBitset code).getD (pos / 64) 0).getLsbD (pos % 64)

-- The bytes from `offset` on, up to `size` of them and zeros after the last.
def paddedSlice (data : Bytes) (offset size : Nat) : Bytes :=
  let found := (data.drop offset).take size
  found ++ List.replicate (size - found.length) 0

def shiftIn (v : BitVec 64) (b : UInt8) : BitVec 64 := (v <<< 8) ||| BitVec.ofNat 64 b.toNat

-- push_small: one load of 8 bytes where the code has them, else the bytes one by one.
def smallImmediate (code : Bytes) (pc1 n : Nat) : Word :=
  if pc1 + 8 ≤ code.length then
    ((((code.drop pc1).take 8).foldl shiftIn 0) >>> ((8 - n) * 8)).setWidth 256
  else ((paddedSlice code pc1 n).foldl shiftIn 0).setWidth 256

-- push_big
def bigImmediate (code : Bytes) (pc1 n : Nat) : Word :=
  Word.ofBytes (List.replicate (32 - n) 0 ++ paddedSlice code pc1 n)

-- imm_byte
def immByte (code : Bytes) (pc : Nat) : UInt8 := code.getD (pc + 1) 0

-- The number n of DUPN and SWAPN; none for a forbidden immediate.
def decodeDupnSwapn (imm : UInt8) : Option Nat :=
  if 0x5b ≤ imm ∧ imm ≤ 0x7f then none else some (imm + 0x91).toNat

-- The positions n and m of EXCHANGE.
def decodeExchange (imm : UInt8) : Option (Nat × Nat) :=
  if 0x52 ≤ imm ∧ imm ≤ 0x7f then none
  else
    let k := (imm ^^^ 0x8f).toNat
    let q := k / 16
    let r := k % 16
    some (if q < r then (q + 1, r + 1) else (r + 1, 29 - q))

-- The 0x5b inside PUSH2's data is not a destination, the one after it is.
example : (List.range 6).map (isJumpdest [0x5b, 0x61, 0x5b, 0x5b, 0x5b, 0x00]) =
    [true, false, false, false, true, false] := by decide

example : smallImmediate [0x61, 0xab, 0xcd, 0, 0, 0, 0, 0, 0] 1 2 = 0xabcd ∧
    smallImmediate [0x61, 0xab] 1 2 = 0xab00 := by decide

end Zeg.Zevm
