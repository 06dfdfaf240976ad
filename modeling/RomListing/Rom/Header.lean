import RomListing.Rom

/-! The readable fields of a cartridge header. Each of them is there exactly when the image has a
header area; the title must also be well-formed text. -/

namespace RomListing

namespace Header

def cartridgeTypeName : UInt8 → String
  | 0x00 => "ROM ONLY"
  | 0x01 => "MBC1"
  | 0x02 => "MBC1+RAM"
  | 0x03 => "MBC1+RAM+BATTERY"
  | 0x05 => "MBC2"
  | 0x06 => "MBC2+BATTERY"
  | 0x08 => "ROM+RAM"
  | 0x09 => "ROM+RAM+BATTERY"
  | 0x0b => "MMM01"
  | 0x0c => "MMM01+RAM"
  | 0x0d => "MMM01+RAM+BATTERY"
  | 0x0f => "MBC3+TIMER+BATTERY"
  | 0x10 => "MBC3+TIMER+RAM+BATTERY"
  | 0x11 => "MBC3"
  | 0x12 => "MBC3+RAM"
  | 0x13 => "MBC3+RAM+BATTERY"
  | 0x19 => "MBC5"
  | 0x1a => "MBC5+RAM"
  | 0x1b => "MBC5+RAM+BATTERY"
  | 0x1c => "MBC5+RUMBLE"
  | 0x1d => "MBC5+RUMBLE+RAM"
  | 0x1e => "MBC5+RUMBLE+RAM+BATTERY"
  | 0x20 => "MBC6"
  | 0x22 => "MBC7+SENSOR+RUMBLE+RAM+BATTERY"
  | 0xfc => "POCKET CAMERA"
  | 0xfd => "BANDAI TAMA5"
  | 0xfe => "HuC3"
  | 0xff => "HuC1+RAM+BATTERY"
  | _ => "???"

def destinationName : UInt8 → String
  | 0x00 => "Japanese"
  | 0x01 => "Non-Japanese"
  | _ => "???"

end Header

namespace Rom

/-- The title bytes: the title field up to its first zero. Cartridges reuse the rest of the field for
other codes. -/
def titleBytes (rom : Rom) : List UInt8 :=
  (rom.bytes.extract Header.title Header.titleStop).toList.takeWhile (· != 0)

def title? (rom : Rom) : Option String :=
  rom.headerRange.bind fun _ => String.fromUTF8? rom.titleBytes.toByteArray

def cartridgeType? (rom : Rom) : Option String :=
  rom.headerRange.bind fun _ => rom.bytes[Header.cartridgeType]?.map Header.cartridgeTypeName

def destination? (rom : Rom) : Option String :=
  rom.headerRange.bind fun _ => rom.bytes[Header.destination]?.map Header.destinationName

end Rom

end RomListing
