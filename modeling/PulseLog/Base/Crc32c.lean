/-
  Subject:   CRC-32C (src/base/crc32c.cc), bit by bit over the reflected polynomial.

  The source has a table-driven loop and two hardware loops; all of them compute this function of
  the bytes. `crcBit` is the step `MakeTables` builds its tables with.
-/
import PulseLog.General.Bytes

namespace PulseLog

/-- `kPoly`: the reflected CRC-32C polynomial. -/
def crcPoly : BitVec 32 := 0x82F63B78#32

/-- One bit: shift, and fold the polynomial in when the bit shifted out is set. -/
def crcBit (crc : BitVec 32) : BitVec 32 := (crc >>> 1) ^^^ (crcPoly &&& (~~~(crc &&& 1#32) + 1#32))

/-- Eight bits of one input byte. -/
def crcByte (crc : BitVec 32) (b : UInt8) : BitVec 32 :=
  crcBit (crcBit (crcBit (crcBit (crcBit (crcBit (crcBit (crcBit
    (crc ^^^ BitVec.ofNat 32 b.toNat))))))))

/-- `Crc32c` with a seed. -/
def crc32cSeeded (data : Bytes) (seed : BitVec 32) : BitVec 32 := ~~~(data.foldl crcByte (~~~seed))

/-- `Crc32c` of a byte string. -/
def crc32c (data : Bytes) : BitVec 32 := crc32cSeeded data 0#32

/-- The check value of the CRC-32C parameters: the digits one to nine. -/
example : crc32c [0x31, 0x32, 0x33, 0x34, 0x35, 0x36, 0x37, 0x38, 0x39] = 0xE3069283#32 := by
  decide +kernel

end PulseLog
