import Abacus.Digest.Blake3
import Abacus.Flow.Text

/-!
# Fingerprints of functions and modules

A function is identified by the hash of its text, a module by the hash of the names and hashes of
its functions in order.
-/

namespace Abacus

/-- The bytes of a text in UTF-8. -/
def utf8Bytes (text : String) : List UInt8 := text.toUTF8.toList

/-- The hash of the text of a function. -/
def Flow.Function.digest (f : Flow.Function) : List UInt8 := Blake3.hash (utf8Bytes f.text)

/-- The names and hashes of the functions of a module, in order. -/
def Flow.Module.functionDigests (m : Flow.Module) : List (String × List UInt8) :=
  m.functions.map fun f => (f.name, f.digest)

/-- The hash of a module. -/
def Flow.Module.digest (m : Flow.Module) : List UInt8 :=
  Blake3.hash (m.functionDigests.flatMap fun (name, digest) => utf8Bytes name ++ digest)

end Abacus
