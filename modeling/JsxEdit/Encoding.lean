import JsxEdit.Fault
import JsxEdit.Text.Entity
import JsxEdit.Text.Space

/-
Encodings: how text becomes bytes, and how to tell which encoding bytes are in.

Bytes may start with a mark that tells their encoding. Without one, a declaration near the start of the text counts,
such as `encoding: latin-1`, if the encoding is known.
-/
set_option autoImplicit false

namespace JsxEdit

/-- Which byte of a number comes first. -/
inductive ByteOrder where
  | little
  | big
  deriving DecidableEq, Repr

/-- How text becomes bytes, in one of eleven ways: the encodings of Unicode and three of those with one byte for a
character. Other codecs are left out, so what is said of every encoding is said of these. -/
inductive Encoding where
  | utf8
  /-- UTF-8 with a mark at the start, which may be missing. -/
  | markedUtf8
  | utf16 (order : ByteOrder)
  /-- UTF-16 with a mark for the order of the bytes. -/
  | markedUtf16
  | utf32 (order : ByteOrder)
  /-- UTF-32 with a mark for the order of the bytes. -/
  | markedUtf32
  | latin1
  | windows1252
  | ascii
  deriving DecidableEq, Repr

namespace Encoding

/-- The number that bytes stand for. -/
def number : ByteOrder → List UInt8 → Nat
  | .little, bytes => bytes.foldr (fun b n => b.toNat + 256 * n) 0
  | .big, bytes => bytes.foldl (fun n b => 256 * n + b.toNat) 0

/-- The last `count` bytes of a number. -/
def numberBytes (order : ByteOrder) (count n : Nat) : List UInt8 :=
  let bytes := (List.range count).map fun i => UInt8.ofNat (n / Nat.pow 256 i)
  match order with
  | .little => bytes
  | .big => bytes.reverse

/-- The numbers made of two bytes each; nothing if a byte is left over. -/
def pairs? (order : ByteOrder) : List UInt8 → Option (List Nat)
  | [] => some []
  | a :: b :: rest => (pairs? order rest).map (number order [a, b] :: ·)
  | _ => none

/-- The numbers made of four bytes each; nothing if bytes are left over. -/
def quads? (order : ByteOrder) : List UInt8 → Option (List Nat)
  | [] => some []
  | a :: b :: c :: d :: rest => (quads? order rest).map (number order [a, b, c, d] :: ·)
  | _ => none

/-- The first half of a pair of units that stands for one character. -/
def isHighUnit (n : Nat) : Bool := 0xD800 ≤ n && n < 0xDC00

/-- The second half of a pair of units that stands for one character. -/
def isLowUnit (n : Nat) : Bool := 0xDC00 ≤ n && n < 0xE000

/-- The characters of UTF-16 units; nothing if a half of a pair stands alone. -/
def charsOfUnits? : List Nat → Option (List Char)
  | [] => some []
  | [n] => if isHighUnit n || isLowUnit n then none else some [Char.ofNat n]
  | n :: m :: rest =>
    if isHighUnit n then
      if isLowUnit m then
        (charsOfUnits? rest).map (Char.ofNat (0x10000 + (n - 0xD800) * 0x400 + (m - 0xDC00)) :: ·)
      else none
    else if isLowUnit n then none
    else (charsOfUnits? (m :: rest)).map (Char.ofNat n :: ·)

/-- The UTF-16 units of a character. -/
def unitsOfChar (c : Char) : List Nat :=
  let n := c.toNat
  if n < 0x10000 then [n] else [0xD800 + (n - 0x10000) / 0x400, 0xDC00 + (n - 0x10000) % 0x400]

/-- The character with the number, if there is one. -/
def charOfNumber? (n : Nat) : Option Char := if n.isValidChar then some (Char.ofNat n) else none

/-- The characters that the bytes 0x80 to 0x9F stand for; five of them stand for none. -/
def windowsChar? (n : Nat) : Option Char :=
  if 0x80 ≤ n && n ≤ 0x9F then
    let code := Text.legacyCodes.getD (n - 0x80) n
    if code == n then none else some (Char.ofNat code)
  else some (Char.ofNat n)

/-- The text of bytes below a limit, each of which is the number of a character. -/
def decodeBelow? (limit : Nat) (bytes : List UInt8) : Option String :=
  if bytes.all (·.toNat < limit) then some (.ofList (bytes.map fun b => Char.ofNat b.toNat)) else none

/-- The bytes of a text all of whose characters have numbers below a limit. -/
def encodeBelow? (limit : Nat) (s : String) : Option (List UInt8) :=
  if s.toList.all (·.toNat < limit) then some (s.toList.map fun c => UInt8.ofNat c.toNat) else none

/-- The byte of a character. -/
def windowsByte? (c : Char) : Option UInt8 :=
  ((List.range 256).find? fun n => windowsChar? n == some c).map UInt8.ofNat

/-- The mark of UTF-8. -/
def utf8Mark : List UInt8 := [0xEF, 0xBB, 0xBF]

/-- The mark of two bytes for an order. -/
def mark16 (order : ByteOrder) : List UInt8 := numberBytes order 2 0xFEFF

/-- The mark of four bytes for an order. -/
def mark32 (order : ByteOrder) : List UInt8 := numberBytes order 4 0xFEFF

/-- The text of the bytes, with the marks left in. -/
def decodePlain? : Encoding → List UInt8 → Option String
  | .utf8, bytes | .markedUtf8, bytes => String.fromUTF8? ⟨bytes.toArray⟩
  | .utf16 order, bytes => (pairs? order bytes).bind charsOfUnits? |>.map .ofList
  | .markedUtf16, bytes => (pairs? .little bytes).bind charsOfUnits? |>.map .ofList
  | .utf32 order, bytes => ((quads? order bytes).bind (·.mapM charOfNumber?)).map .ofList
  | .markedUtf32, bytes => ((quads? .little bytes).bind (·.mapM charOfNumber?)).map .ofList
  | .latin1, bytes => decodeBelow? 256 bytes
  | .windows1252, bytes => (bytes.mapM fun b => windowsChar? b.toNat).map .ofList
  | .ascii, bytes => decodeBelow? 128 bytes

/-- The text of the bytes, or what keeps them from being text. -/
def decodeExact (e : Encoding) (bytes : List UInt8) : Except Fault String :=
  match e.decodePlain? bytes with
  | some s => .ok s
  | none => .error .undecodable

/-- The text of bytes in an encoding whose mark of the byte order is required. -/
def decodeOrdered (bytes : List UInt8) (mark : ByteOrder → List UInt8) (encoding : ByteOrder → Encoding) :
    Except Fault String :=
  if (mark .little).isPrefixOf bytes then (encoding .little).decodeExact (bytes.drop (mark .little).length)
  else if (mark .big).isPrefixOf bytes then (encoding .big).decodeExact (bytes.drop (mark .big).length)
  else do
    let s ← (encoding .little).decodeExact bytes
    if s.isEmpty then return s else throw .noByteOrder

/-- The text of the bytes. -/
def decode (e : Encoding) (bytes : ByteArray) : Except Fault String :=
  let bytes := bytes.toList
  match e with
  | .markedUtf8 => decodeExact .utf8 (if utf8Mark.isPrefixOf bytes then bytes.drop utf8Mark.length else bytes)
  | .markedUtf16 => decodeOrdered bytes mark16 .utf16
  | .markedUtf32 => decodeOrdered bytes mark32 .utf32
  | e => e.decodeExact bytes

/-- The bytes of the text. -/
def encode? (e : Encoding) (s : String) : Option ByteArray :=
  let units (order : ByteOrder) : List UInt8 := (s.toList.flatMap unitsOfChar).flatMap (numberBytes order 2)
  let wide (order : ByteOrder) : List UInt8 := s.toList.flatMap fun c => numberBytes order 4 c.toNat
  let bytes := match e with
    | .utf8 => some s.toUTF8.toList
    | .markedUtf8 => some (utf8Mark ++ s.toUTF8.toList)
    | .utf16 order => some (units order)
    | .markedUtf16 => some (mark16 .little ++ units .little)
    | .utf32 order => some (wide order)
    | .markedUtf32 => some (mark32 .little ++ wide .little)
    | .latin1 => encodeBelow? 256 s
    | .windows1252 => s.toList.mapM windowsByte?
    | .ascii => encodeBelow? 128 s
  bytes.map fun bs => ⟨bs.toArray⟩

/-- The parts of a name made of ASCII letters, digits and points; `part` is the current one, last character first. All
other ASCII characters divide parts, and those beyond ASCII divide them unless they are letters or numerals. -/
def nameParts (part : List Char) : List Char → List (List Char)
  | [] => if part.isEmpty then [] else [part.reverse]
  | c :: cs =>
    if c.toNat < 0x80 then
      if c.isAlphanum || c == '.' then nameParts (c.toLower :: part) cs
      else if part.isEmpty then nameParts [] cs
      else part.reverse :: nameParts [] cs
    else if Text.isWord c then nameParts part cs
    else if part.isEmpty then nameParts [] cs
    else part.reverse :: nameParts [] cs

/-- A name of an encoding in its plain form: in lower case, with underscores between its parts. -/
def plainName (name : String) : String :=
  .ofList (['_'].intercalate (nameParts [] name.toList))

/-- The known encodings with their names in plain form. -/
def names : List (Encoding × List String) :=
  [(.utf8, ["utf_8", "u8", "utf", "utf8", "utf8_ucs2", "utf8_ucs4", "cp65001"]),
   (.markedUtf8, ["utf_8_sig"]),
   (.utf16 .little, ["utf_16_le", "utf_16le", "unicodelittleunmarked"]),
   (.utf16 .big, ["utf_16_be", "utf_16be", "unicodebigunmarked"]),
   (.markedUtf16, ["utf_16", "u16", "utf16"]),
   (.utf32 .little, ["utf_32_le", "utf_32le"]),
   (.utf32 .big, ["utf_32_be", "utf_32be"]),
   (.markedUtf32, ["utf_32", "u32", "utf32"]),
   (.latin1, ["latin_1", "8859", "cp819", "csisolatin1", "ibm819", "iso8859", "iso8859_1", "iso_8859_1",
     "iso_8859_1_1987", "iso_ir_100", "l1", "latin", "latin1"]),
   (.windows1252, ["cp1252", "1252", "windows_1252"]),
   (.ascii, ["ascii", "646", "ansi_x3_4_1968", "ansi_x3_4_1986", "cp367", "csascii", "ibm367", "iso646_us",
     "iso_646_irv_1991", "iso_ir_6", "us", "us_ascii"])]

/-- The encoding with this name. -/
def ofName? (name : String) : Option Encoding :=
  let plain := plainName name
  let spelled := Text.replace plain "." "_"
  (names.find? fun (_, ns) => ns.contains plain || ns.contains spelled).map (·.1)

/-- The encoding that the bytes start with a mark of, and the length of the mark. -/
def marked? (bytes : List UInt8) : Option (Encoding × Nat) :=
  let marks := [(Encoding.utf8, utf8Mark), (.utf16 .little, mark16 .little), (.utf16 .big, mark16 .big),
    (.utf32 .little, mark32 .little), (.utf32 .big, mark32 .big)]
  (marks.find? fun (_, mark) => mark.isPrefixOf bytes).map fun (e, mark) => (e, mark.length)

/-- The characters after a word and a separator, with white space around the separator. -/
def afterSeparator? (word : String) (cs : List Char) : Option (List Char) :=
  if word.toList.isPrefixOf cs then
    match (cs.drop word.length).dropWhile Text.isSpace with
    | c :: cs => if c == ':' || c == '=' then some (cs.dropWhile Text.isSpace) else none
    | [] => none
  else none

/-- The name in a declaration that the characters start with; a double quote may stand before it. -/
def declarationAt? (cs : List Char) : Option String := do
  let rest ← afterSeparator? "encoding" cs
  let name := (if rest.head? == some '"' then rest.drop 1 else rest).takeWhile fun c => Text.isWord c || c == '-'
  if name.isEmpty then none else some (.ofList name)

/-- The name in the first declaration that does not start within a word; `before` is the character in front. -/
def declaration? (before : Option Char) : List Char → Option String
  | [] => none
  | c :: cs =>
    match if before.any Text.isWord then none else declarationAt? (c :: cs) with
    | some name => some name
    | none => declaration? (some c) cs

/-- How many bytes are searched for a declaration. -/
def declarationWindow : Nat := 5000

/-- The encoding that the text declares near its start, if it is known. -/
def declared? (bytes : List UInt8) : Option Encoding :=
  let start := (bytes.take declarationWindow).map fun b => Char.ofNat b.toNat
  (declaration? none start).bind ofName?

/-- The text of bytes in the encoding that they tell themselves, or else in a given one. -/
def detect (fallback : Encoding) (bytes : ByteArray) : Except Fault String :=
  match marked? bytes.toList with
  | some (e, length) => e.decodeExact (bytes.toList.drop length)
  | none => ((declared? bytes.toList).getD fallback).decode bytes

end Encoding
end JsxEdit
