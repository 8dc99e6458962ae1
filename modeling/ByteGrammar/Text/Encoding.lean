import ByteGrammar.Text.Characters
import ByteGrammar.Text.CodePage
import ByteGrammar.Text.Utf16

/-!
# Encodings by label

Which encodings there are and what text bytes have in them is for a library of encodings to say.
A label that names none of them means UTF-8. Some common encodings are given here as one such
library, in which a byte order mark is a character like any other.
-/

set_option autoImplicit false

namespace ByteGrammar.Text

/-- What a library of encodings knows under a label: the text of any bytes. -/
abbrev Encodings := String → Option (List UInt8 → String)

def decode (encodings : Encodings) (label : String) (bytes : List UInt8) : String :=
  match encodings (trim label) with
  | some textOf => textOf bytes
  | none => ofUtf8 bytes

inductive Encoding where
  | utf8
  | utf16 (order : ByteOrder)
  | page (page : CodePage)
  /-- An encoding that is refused: whatever it holds is one replacement character. -/
  | refused
  deriving DecidableEq, Repr

namespace Encoding

def utf8Labels : List String :=
  ["utf-8", "utf8", "unicode-1-1-utf-8", "unicode11utf8", "unicode20utf8", "x-unicode20utf8"]

def utf16LittleLabels : List String :=
  ["utf-16le", "utf-16", "ucs-2", "csunicode", "iso-10646-ucs-2", "unicode", "unicodefeff"]

def utf16BigLabels : List String := ["utf-16be", "unicodefffe"]

def windows1252Labels : List String :=
  ["ascii", "us-ascii", "ansi_x3.4-1968", "latin1", "l1", "iso-8859-1", "iso8859-1", "iso88591",
   "iso_8859-1", "iso_8859-1:1987", "iso-ir-100", "cp819", "ibm819", "csisolatin1",
   "windows-1252", "cp1252", "x-cp1252"]

def windows1251Labels : List String := ["windows-1251", "cp1251", "x-cp1251"]

def latin9Labels : List String :=
  ["iso-8859-15", "iso8859-15", "iso885915", "iso_8859-15", "l9", "csisolatin9"]

def koi8rLabels : List String := ["koi8-r", "koi8_r", "koi", "koi8", "cskoi8r"]

def refusedLabels : List String :=
  ["replacement", "hz-gb-2312", "iso-2022-kr", "csiso2022kr", "iso-2022-cn", "iso-2022-cn-ext"]

def labels : List (List String × Encoding) :=
  [(utf8Labels, utf8),
   (utf16LittleLabels, utf16 .little),
   (utf16BigLabels, utf16 .big),
   (windows1252Labels, page .windows1252),
   (windows1251Labels, page .windows1251),
   (latin9Labels, page .latin9),
   (koi8rLabels, page .koi8r),
   (["x-user-defined"], page .userDefined),
   (refusedLabels, refused)]

def ofLabel? (label : String) : Option Encoding :=
  let label := String.ofList (label.toList.map Char.toLower)
  (labels.find? fun entry => entry.1.contains label).map Prod.snd

def decode : Encoding → List UInt8 → String
  | utf8, bytes => ofUtf8 bytes
  | utf16 order, bytes => ofUtf16 order bytes
  | page p, bytes => p.decode bytes
  | refused, bytes => if bytes.isEmpty then "" else String.singleton replacement

end Encoding

def Encodings.common : Encodings := fun label => (Encoding.ofLabel? label).map Encoding.decode

end ByteGrammar.Text
