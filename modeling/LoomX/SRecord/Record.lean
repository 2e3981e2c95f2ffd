import Mathlib

namespace LoomX.SRecord

abbrev Address := BitVec 64

abbrev Byte := BitVec 8

/-- The characters of a `std::string`. -/
abbrev Text := List Char

inductive Syntax where
  | motorola
  | intel
  | unknown
  deriving DecidableEq, Repr

inductive RecordType where
  | mHeader | mData16 | mData24 | mData32 | mReserved
  | mCount16 | mCount24 | mStart32 | mStart24 | mStart16
  | iData | iEnd | iExtendedSA | iStartSA | iExtendedLA | iStartLA
  | unknown
  deriving DecidableEq, Repr

structure Record where
  type : RecordType := .unknown
  addr : Address := 0
  data : List Byte := []
  error : String := ""
  deriving DecidableEq, Repr

def addressNBytes : RecordType → Nat
  | .mHeader | .mData16 | .mCount16 | .mStart16 => 2
  | .mData24 | .mCount24 | .mStart24 => 3
  | .mData32 | .mStart32 => 4
  | _ => 0

def RecordType.family : RecordType → Syntax
  | .mHeader | .mData16 | .mData24 | .mData32 | .mReserved
  | .mCount16 | .mCount24 | .mStart32 | .mStart24 | .mStart16 => .motorola
  | .iData | .iEnd | .iExtendedSA | .iStartSA | .iExtendedLA | .iStartLA => .intel
  | .unknown => .unknown

def isdigit (c : Char) : Bool := '0' ≤ c && c ≤ '9'

def isupper (c : Char) : Bool := 'A' ≤ c && c ≤ 'Z'

def isxdigit (c : Char) : Bool :=
  isdigit c || ('A' ≤ c && c ≤ 'F') || ('a' ≤ c && c ≤ 'f')

def isspace (c : Char) : Bool := c = ' ' || ('\t' ≤ c && c ≤ '\r')

def isprint (c : Char) : Bool := ' ' ≤ c && c ≤ '~'

def hexadecimalToInt (c : Char) : Nat :=
  if isxdigit c then
    if isdigit c then c.toNat - '0'.toNat
    else if isupper c then c.toNat - 'A'.toNat + 10
    else c.toNat - 'a'.toNat + 10
  else 0

def doubleQuote : Char := Char.ofNat 34

/-- `cEscape` of one character inside a double-quoted string. -/
def cEscapeChar (ch : Char) : String :=
  if ch = '\x07' then "\\a"
  else if ch = '\x08' then "\\b"
  else if ch = '\t' then "\\t"
  else if ch = '\n' then "\\n"
  else if ch = '\x0b' then "\\v"
  else if ch = '\x0c' then "\\f"
  else if ch = '\r' then "\\r"
  else if ch = doubleQuote then "\\" ++ ch.toString
  else if ch = '\\' then "\\\\"
  else if isprint ch then ch.toString
  else "\\" ++ String.ofList ((Nat.toDigits 8 ch.toNat).leftpad 3 '0')

def cEscape (s : Text) : String := String.join (s.map cEscapeChar)

/-- `plural (n, "characters")` below one thousand, where no comma is inserted. -/
def pluralCharacters (n : Nat) : String :=
  toString n ++ (if n = 1 then " character" else " characters")

/-- `%|0wx|` of a number. -/
def hexLower (width n : Nat) : Text := (Nat.toDigits 16 n).leftpad width '0'

/-- `%|0wX|` of a number. -/
def hexUpper (width n : Nat) : Text := (hexLower width n).map Char.toUpper

def addrToString (value : Address) : String :=
  "0x" ++ String.ofList (hexLower (if value.toNat > 0xffffffff then 16 else 8) value.toNat)

def lowMask (n : Nat) : Address :=
  if n ≥ 64 then BitVec.allOnes 64 else (1#64 <<< n) - 1#64

/-- `mask (least, 63)`, the bits from `least` up. -/
def highBits (least : Nat) : Address := lowMask (63 - least + 1) <<< least

def msbLsb (src : Address) (w : Nat) : Bool :=
  if w > 0 then src.getLsbD (w - 1) else false

def signExtend (src : Address) (n : Nat) : Address :=
  if n < 64 then
    if msbLsb src n then src ||| highBits n else src &&& ~~~ highBits n
  else src

/-- One digit of `parseBigEndianInteger`, which fails before the sixteenth nibble is pushed out. -/
def pushDigit (retval : Address) (c : Char) : Option Address :=
  if ¬ isxdigit c then none
  else if (retval >>> 60) &&& 0xf#64 ≠ 0#64 then none
  else some ((retval <<< 4) ||| BitVec.ofNat 64 (hexadecimalToInt c))

/-- The `nChars` characters from `start` on. -/
def field (s : Text) (start nChars : Nat) : Text := (s.drop start).take nChars

def parseBigEndianInteger (s : Text) (start nChars : Nat) : Option Address :=
  if start + nChars > s.length then none
  else (field s start nChars).foldlM pushDigit 0

/-- The sum of `checksum`, over `n` pairs of digits. -/
def sumPairs (input : Text) : Nat → Nat → BitVec 32
  | _, 0 => 0
  | start, n + 1 =>
    ((parseBigEndianInteger input start 2).getD 0).setWidth 32 + sumPairs input (start + 2) n

/-- `none` is a failed assertion. -/
def checksum (family : Syntax) (input : Text) (start nChars : Nat) : Option Byte :=
  if nChars % 2 ≠ 0 then none
  else
    let sum := sumPairs input start (nChars / 2)
    match family with
    | .motorola => some ((~~~ sum).setWidth 8)
    | .intel => some ((~~~ sum + 1).setWidth 8)
    | .unknown => none

/-- The data bytes read from `start` on, up to `n` of them, and whether all were digits. -/
def parseBytes (input : Text) : Nat → Nat → List Byte × Bool
  | _, 0 => ([], true)
  | start, n + 1 =>
    match parseBigEndianInteger input start 2 with
    | none => ([], false)
    | some byte =>
      let rest := parseBytes input (start + 2) n
      (byte.setWidth 8 :: rest.1, rest.2)

def motorolaType : Nat → Except String RecordType
  | 0 => pure .mHeader
  | 1 => pure .mData16
  | 2 => pure .mData24
  | 3 => pure .mData32
  | 4 => pure .mReserved
  | 5 => pure .mCount16
  | 6 => pure .mCount24
  | 7 => pure .mStart32
  | 8 => pure .mStart24
  | 9 => pure .mStart16
  | 256 => throw "type syntax error; expected a hexadecimal character"
  | t => throw ("invalid record type " ++ toString t)

/-- `return srec.error (mesg)`. -/
def Record.fail (srec : Record) (mesg : String) : Except Record Record :=
  throw { srec with error := mesg }

/-- The tail of both parsers: the parsed checksum against the computed one, then white space. -/
def checkTail (input : Text) (srec : Record) (eof start : Nat) : Except Record Record :=
  match parseBigEndianInteger input (eof - 2) 2 with
  | none => srec.fail "checksum syntax error; expected two hexadecimal characters"
  | some parsed =>
    let parsedChecksum : Byte := parsed.setWidth 8
    match checksum srec.type.family input start (eof - start - 2) with
    | none => srec.fail "assertion failed"
    | some computedChecksum =>
      if computedChecksum ≠ parsedChecksum then
        srec.fail ("invalid checksum; parsed " ++ toString parsedChecksum.toNat ++
          ", computed " ++ toString computedChecksum.toNat)
      else if ¬ (input.drop eof).all isspace then
        srec.fail ("trailing garbage: " ++ doubleQuote.toString ++ cEscape (input.drop eof) ++
          doubleQuote.toString)
      else pure srec

def parseMotorola (input : Text) : Except Record Record :=
  let srec : Record := {}
  if input.length < 1 + 1 + 2 then
    srec.fail "short input; Motorola S-Records must be at least 4 characters"
  else if input.head? ≠ some 'S' then
    srec.fail "not a Motorola S-Record since the line doesn't start with 'S'"
  else
    match motorolaType ((parseBigEndianInteger input 1 1).elim 256 BitVec.toNat) with
    | .error mesg => srec.fail mesg
    | .ok type =>
      let srec := { srec with type := type }
      match parseBigEndianInteger input 2 2 with
      | none => srec.fail "payload size syntax error; expected two hexadecimal characters"
      | some size =>
        let payloadNBytes := size.toNat
        if payloadNBytes < addressNBytes type + 1 then
          srec.fail "invalid record size; payload is too small for record type"
        else if input.length < 2 + 2 + 2 * payloadNBytes then
          srec.fail ("short input; line must contain at least " ++
            pluralCharacters (2 + 2 + 2 * payloadNBytes))
        else
          match parseBigEndianInteger input 4 (2 * addressNBytes type) with
          | none => srec.fail "address syntax error; expected four hexadecimal characters"
          | some addr =>
            let srec := { srec with addr := signExtend addr (8 * addressNBytes type) }
            let dataNBytes := payloadNBytes - addressNBytes type - 1
            let (data, good) := parseBytes input (1 + 1 + 2 + 2 * addressNBytes type) dataNBytes
            let srec := { srec with data := data }
            if ¬ good then
              srec.fail "data syntax error; data must contain only hexadecimal characters"
            else checkTail input srec (2 + 2 + 2 * payloadNBytes) 2

/-- The payload size and the message that each Intel type but plain data insists on. -/
def intelType (payloadNBytes : Nat) (addr : Address) : Nat → RecordType × Option String
  | 0 => (.iData, none)
  | 1 => (.iEnd, intelShape "end" "zero payload size" 0)
  | 2 => (.iExtendedSA, intelShape "extended segment address" "two-byte payload" 2)
  | 3 => (.iStartSA, intelShape "start segment address" "two-byte payload" 2)
  | 4 => (.iExtendedLA, intelShape "extended linear address" "two-byte payload" 2)
  | 5 => (.iStartLA, intelShape "start linear address" "four-byte payload" 4)
  | 65536 => (.unknown, some "type syntax error; expected two hexadecimal characters")
  | t => (.unknown, some ("invalid record type " ++ toString t))
where
  intelShape (name payload : String) (size : Nat) : Option String :=
    if payloadNBytes ≠ size then
      some ("Intel " ++ name ++ " record should have a " ++ payload)
    else if addr ≠ 0 then
      some ("Intel " ++ name ++ " record should have a zero address")
    else none

def parseIntel (input : Text) : Except Record Record :=
  let srec : Record := {}
  let headerNChars := 1 + 2 + 4 + 2
  if input.length < headerNChars then
    srec.fail ("short input; Intel S-Records must be at least " ++ pluralCharacters headerNChars)
  else if input.head? ≠ some ':' then
    srec.fail "not an Intel S-Record ince the line doesn't start with ':'"
  else
    match parseBigEndianInteger input 1 2 with
    | none => srec.fail "size syntax error; expected two hexadecimal characters"
    | some size =>
      let payloadNBytes := size.toNat
      let recordNChars := headerNChars + 2 * payloadNBytes + 2
      if input.length < recordNChars then
        srec.fail ("short input; record needs at least " ++ pluralCharacters recordNChars)
      else
        match parseBigEndianInteger input 3 4 with
        | none => srec.fail "address syntax error; expected four hexadecimal characters"
        | some addr =>
          let srec := { srec with addr := addr }
          let (type, mesg) :=
            intelType payloadNBytes addr ((parseBigEndianInteger input 7 2).elim 65536 BitVec.toNat)
          let srec := { srec with type := type }
          match mesg with
          | some mesg => srec.fail mesg
          | none =>
            let (data, good) := parseBytes input headerNChars payloadNBytes
            let srec := { srec with data := data }
            if ¬ good then
              srec.fail "payload syntax error; payload must contain only hexadecimal characters"
            else checkTail input srec recordNChars 1

/-- `SRecord::parse` returns the record either way; its error text is empty on success. -/
def parse (input : Text) : Record :=
  let parsed :=
    if input.head? = some 'S' then parseMotorola input
    else if input.head? = some ':' then parseIntel input
    else Record.fail {} "not an S-Record"
  match parsed with
  | .ok srec => srec
  | .error srec => srec

def motorolaDigit : RecordType → Option Char
  | .mHeader => some '0'
  | .mData16 => some '1'
  | .mData24 => some '2'
  | .mData32 => some '3'
  | .mReserved => some '4'
  | .mCount16 => some '5'
  | .mCount24 => some '6'
  | .mStart32 => some '7'
  | .mStart24 => some '8'
  | .mStart16 => some '9'
  | _ => none

def intelDigits : RecordType → Option Text
  | .iData => some ['0', '0']
  | .iEnd => some ['0', '1']
  | .iExtendedSA => some ['0', '2']
  | .iStartSA => some ['0', '3']
  | .iExtendedLA => some ['0', '4']
  | .iStartLA => some ['0', '5']
  | _ => none

inductive Failure where
  | exception (what : String)
  | assertion
  deriving DecidableEq, Repr

/-- A line up to its data, and the offset at which its checksum starts. -/
def Record.header (r : Record) : Except Failure (Text × Nat) :=
  match motorolaDigit r.type, intelDigits r.type with
  | some digit, _ =>
    let size := addressNBytes r.type + r.data.length + 1
    let addrMask := lowMask (8 * addressNBytes r.type)
    if size > 255 then .error (.exception "S-Record size is too large")
    else if r.addr &&& addrMask ≠ r.addr then
      .error (.exception ("S-Record address " ++ addrToString r.addr ++ " needs more than " ++
        toString (addressNBytes r.type) ++ " bytes"))
    else
      .ok (['S', digit] ++ hexUpper 2 size ++
        hexLower (2 * addressNBytes r.type) (r.addr &&& addrMask).toNat, 2)
  | none, some digits =>
    if r.data.length > 255 then .error (.exception "S-Record size is too large")
    else if r.addr.toNat > 0xffff then .error (.exception "S-Record address is too large")
    else .ok (':' :: hexUpper 2 r.data.length ++ hexUpper 4 r.addr.toNat ++ digits, 1)
  | none, none => .error .assertion

def Record.toString (r : Record) : Except Failure Text :=
  match r.header with
  | .error failure => .error failure
  | .ok (s, checksumOffset) =>
    let s := s ++ r.data.flatMap fun byte => hexUpper 2 byte.toNat
    match checksum r.type.family s checksumOffset (s.length - checksumOffset) with
    | none => .error .assertion
    | some sum => .ok (s ++ hexUpper 2 sum.toNat)

end LoomX.SRecord
