import Mathlib

/-!
# CRC-32C

The table-driven checksum every on-disk structure of the repository uses.
-/

namespace Clab.Common

/-- `POLY_CASTAGNOLI`. -/
def polyCastagnoli : BitVec 32 := 0x82F63B78#32

/-- One of the eight shift steps that fill the table. -/
def crc32Shift (crc : BitVec 32) : BitVec 32 :=
  if crc.getLsbD 0 then (crc >>> 1) ^^^ polyCastagnoli else crc >>> 1

/-- `g_crc32c_table.table[i]`. -/
def crc32Table (i : BitVec 32) : BitVec 32 :=
  crc32Shift (crc32Shift (crc32Shift (crc32Shift
    (crc32Shift (crc32Shift (crc32Shift (crc32Shift i)))))))

/-- One byte of `crc32c_software_fallback`. -/
def crc32Step (crc : BitVec 32) (b : UInt8) : BitVec 32 :=
  (crc >>> 8) ^^^ crc32Table ((crc ^^^ BitVec.ofNat 32 b.toNat) &&& 0xFF#32)

/-- `calc_crc32(data, length, previous_crc)`. -/
def calcCrc32 (data : List UInt8) (previousCrc : BitVec 32) : BitVec 32 :=
  match data with
  | [] => previousCrc
  | _ => ~~~ data.foldl crc32Step (~~~ previousCrc)

end Clab.Common
