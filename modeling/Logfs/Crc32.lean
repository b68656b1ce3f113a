import Logfs.DiskFormat

/-! # The table-driven CRC of `crc32.c` -/
namespace Logfs

/-- One round of the inner loop of `crc32_build_table`. -/
def crc32Round (c : UInt32) : UInt32 :=
  if c &&& 1 ≠ 0 then (0xEDB88320 : UInt32) ^^^ (c >>> 1) else c >>> 1

/-- `crc32_table[i]` after `crc32_build_table` -/
def crc32Table (i : UInt32) : UInt32 := crc32Round^[8] i

def crc32Init : UInt32 := 0xFFFFFFFF

def crc32Update (crc : UInt32) (buf : List UInt8) : UInt32 :=
  buf.foldl (fun crc p => crc32Table ((crc ^^^ p.toUInt32) &&& 0xFF) ^^^ (crc >>> 8)) crc

def crc32Final (crc : UInt32) : UInt32 := crc ^^^ 0xFFFFFFFF

end Logfs
