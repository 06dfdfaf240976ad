/-! Where the bytes of a cartridge image show up in the processor's address space. The first bank is
fixed at `$0000`, every other bank is paged into one window at `$4000`, so an image offset and a
processor address agree in the first bank only. Relative jumps are printed with the address that the
processor sees. -/

namespace RomListing

def bankSize : Nat := 0x4000

/-- The address at which the first bank is fixed. -/
def fixedWindow : UInt16 := 0x0000

/-- The address at which every other bank is paged in. -/
def switchableWindow : UInt16 := 0x4000

/-- The processor address of an image offset. An offset on a bank boundary is taken as the end of the
bank before it: it is the position right behind an instruction that ends the bank. -/
def windowAddress (offset : UInt32) : UInt32 :=
  if offset ≤ bankSize.toUInt32 then offset
  else (offset - 1) % bankSize.toUInt32 + 1 + switchableWindow.toUInt32

def wordOf (high low : UInt8) : UInt16 := high.toUInt16 <<< 8 ||| low.toUInt16

/-- The address `count` bytes further on, held at the largest address. -/
def addressAfter (address : UInt32) (count : Nat) : UInt32 :=
  UInt32.ofNat (min (address.toNat + count) 0xffffffff)

/-- Where a relative jump that ends at image offset `stop` would lead if addresses were integers. -/
def rawTarget (stop : UInt32) (offset : Int8) : Int := (windowAddress stop).toNat + offset.toInt

/-- The address a relative jump leads to. A target below `$0000` is held at `$0000`, one past `$ffff`
starts again from the bottom. -/
def jumpTarget (stop : UInt32) (offset : Int8) : UInt16 :=
  let target := rawTarget stop offset
  if target < 0 then fixedWindow
  else if 0xffff < target then UInt16.ofNat (target - 0x10000).toNat
  else UInt16.ofNat target.toNat

end RomListing
