/-! Bytes that are meant as a text. -/
namespace NodeGraph

/-- What the file system has for a path or in a file: bytes that need not be a text. -/
structure RawText where
  bytes : List UInt8
  deriving DecidableEq, Repr

namespace RawText

def ofText (text : String) : RawText :=
  ⟨text.toUTF8.data.toList⟩

instance : Coe String RawText := ⟨ofText⟩

/-- The text of the bytes, unless they have none. -/
def text? (raw : RawText) : Option String :=
  String.fromUTF8? ⟨raw.bytes.toArray⟩

end RawText
end NodeGraph
