import DotCompletion.Editor.NumericHost

/-!
# Document addresses

Editors name documents by URIs. One with the scheme `file` means a path: its
host, query and fragment are left out, and percent signs with two hexadecimal
digits stand for bytes. Any other address is used as a path as it is.
-/

namespace DotCompletion.Uri

/-- The percent sign. -/
def percent : UInt8 := '%'.toUInt8

/-- The byte is one of the given ASCII characters. -/
def isOneOf (chars : String) (b : UInt8) : Bool :=
  chars.toList.any fun c => c.toUInt8 == b

/-- An ASCII letter or digit. -/
def isAlphanumeric (b : UInt8) : Bool :=
  b < 0x80 && (Char.ofNat b.toNat).isAlphanum

/-- An ASCII digit. -/
def isDigit (b : UInt8) : Bool :=
  b < 0x80 && (Char.ofNat b.toNat).isDigit

/-- The value of a hexadecimal digit. -/
def hexValue? (b : UInt8) : Option UInt8 :=
  if isDigit b then some (b - '0'.toUInt8)
  else if 'a'.toUInt8 ≤ b ∧ b ≤ 'f'.toUInt8 then some (b - 'a'.toUInt8 + 10)
  else if 'A'.toUInt8 ≤ b ∧ b ≤ 'F'.toUInt8 then some (b - 'A'.toUInt8 + 10)
  else none

/-- The bytes meant by a text, if each byte in it may stand there: `plain` says
which stand for themselves, `escaped` which may be written with a percent
sign. -/
def decodeWith (plain escaped : UInt8 → Bool) : Bytes → Option Bytes
  | [] => some []
  | b :: rest =>
    if b = percent then
      match rest with
      | high :: low :: rest =>
        match hexValue? high, hexValue? low with
        | some high, some low =>
          let byte := high * 16 + low
          if escaped byte then (decodeWith plain escaped rest).map (byte :: ·) else none
        | _, _ => none
      | _ => none
    else if plain b then (decodeWith plain escaped rest).map (b :: ·)
    else none

/-- The bytes meant by a text in which every byte may stand. -/
def decode (text : Bytes) : Option Bytes :=
  decodeWith (fun _ => true) (fun _ => true) text

/-- A byte that may stand in the name of a host: not one of the ASCII characters
that mean something elsewhere in an address. -/
def isHostByte (b : UInt8) : Bool :=
  0x80 ≤ b || isAlphanumeric b || isOneOf "!$&'()*+,;=:[]<>\x22-_.~" b

/-- The name of a host that a text means. -/
def hostName? (text : Bytes) : Option Bytes :=
  decodeWith isHostByte (fun b => 0x80 ≤ b || b == percent) text

/-- The zone of a host that a text means. -/
def zone? (text : Bytes) : Option Bytes :=
  decodeWith isHostByte (fun b => b < 0x80 && (b == percent || b == ' '.toUInt8 || isHostByte b))
    text

/-- Nothing, or a colon and digits. -/
def isPort : Bytes → Bool
  | [] => true
  | b :: rest => b == ':'.toUInt8 && rest.all isDigit

/-- What stands in front of the last occurrence of a byte, and what follows it
with that byte; `none` if it does not occur. -/
def splitAtLast? (byte : UInt8) : Bytes → Option (Bytes × Bytes)
  | [] => none
  | b :: rest =>
    match splitAtLast? byte rest with
    | some (front, back) => some (b :: front, back)
    | none => if b = byte then some ([], b :: rest) else none

/-- What stands in front of the first escaped percent sign, and what follows it
with that sign; `none` if there is none. -/
def splitAtZone? : Bytes → Option (Bytes × Bytes)
  | [] => none
  | b :: rest =>
    if (Bytes.ofString "%25").isPrefixOf (b :: rest) then some ([], b :: rest)
    else (splitAtZone? rest).map fun (front, back) => (b :: front, back)

/-- The host in numbers that a text in brackets means. -/
def numericHost? (text : Bytes) : Option Bytes :=
  match splitAtZone? text with
  | some (number, zone) => return (← hostName? number) ++ (← zone? zone)
  | none => hostName? text

/-- The text is a host with an optional port. A host in numbers stands in
brackets. -/
def isHost (text : Bytes) : Bool :=
  match splitAtLast? '['.toUInt8 text with
  | some ([], _) =>
    match splitAtLast? ']'.toUInt8 (text.drop 1) with
    | none => false
    | some (number, back) =>
      isPort (back.drop 1) && ((numericHost? number).map NumericHost.isHost).getD false
  | some _ => false
  | none =>
    (hostName? text).isSome &&
      match splitAtLast? ':'.toUInt8 text with
      | some (_, port) => isPort port
      | none => true

/-- The text names a user, with or without a password. -/
def isUser (text : Bytes) : Bool :=
  (decodeWith (fun b => isAlphanumeric b || isOneOf "-._:~!$&'()*+,;=@" b) (fun _ => true)
    text).isSome

/-- The text is a host, with or without a user in front of it. -/
def isAuthority (text : Bytes) : Bool :=
  match splitAtLast? '@'.toUInt8 text with
  | some (user, host) => isUser user && isHost (host.drop 1)
  | none => isHost text

/-- A control character of ASCII. -/
def isControl (b : UInt8) : Bool := b < 0x20 || b == 0x7F

/-- How the address of a file begins. -/
def scheme : Bytes := Bytes.ofString "file://"

/-- The path that an address means; `none` if it is written badly. -/
def path? (uri : Bytes) : Option Bytes :=
  match Bytes.after? scheme uri with
  | none => some uri
  | some rest =>
    let address := rest.takeWhile (· != '#'.toUInt8)
    let fragment := (rest.dropWhile (· != '#'.toUInt8)).drop 1
    let located := address.takeWhile (· != '?'.toUInt8)
    let authority := located.takeWhile (· != Path.slash)
    if address.any isControl || (decode fragment).isNone || !isAuthority authority then none
    else (decode (located.drop authority.length)).map Path.clean

end DotCompletion.Uri
