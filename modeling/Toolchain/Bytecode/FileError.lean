import Toolchain.Bytecode.Verifier

/-!
# What can be wrong with a compiled file

The causes for which a code object is not written or a compiled file is not read, in either of the
two forms such files have.

## Main definitions

* `FileError`: the causes
* `FileError.text`: a cause in words
-/

namespace Toolchain

/-- Why a code object is not written, or a compiled file not read. -/
inductive FileError where
  /-- The code to be written is not valid. -/
  | refused (cause : VerifyError)
  /-- The code that was read is not valid. -/
  | rejected (cause : VerifyError)
  | tooSmall
  | badMagic
  | version (major minor : Nat)
  | payloadLength (length : Nat)
  | checksum
  | stringPool
  | unexpectedEnd
  | stringIndex (index : Nat)
  | codeKind (number : Nat)
  | nesting
  | instructions
  | constantPool
  | constantTag (number : Nat)
  | trailing (bytes : Nat)
  /-- The bytes are not the interchange form of a code object. -/
  | undecodable
  | interchangeVersion (number : Nat)
  | noBody
  deriving DecidableEq, Repr

namespace FileError

/-- The cause, without the words that are common to all. -/
def detail (language : Language) : FileError → Text
  | refused cause => "refusing to serialize invalid code: " ++ cause.text language
  | rejected cause => "bytecode verification failed: " ++ cause.text language
  | tooSmall => "file too small"
  | badMagic => "invalid magic number, not a Pyra compiled file"
  | version major minor =>
    "incompatible version: file is v" ++ (major : Text) ++ "." ++ (minor : Text) ++
      ", reader is v1.0"
  | payloadLength length => "payload length " ++ (length : Text) ++ " does not match file size"
  | checksum => "checksum mismatch"
  | stringPool => "string pool corrupted"
  | unexpectedEnd => "unexpected end of file"
  | stringIndex index => "string index " ++ (index : Text) ++ " out of range"
  | codeKind number => "unknown code kind " ++ (number : Text)
  | nesting => "code objects nested too deeply"
  | instructions => "bytecode corrupted"
  | constantPool => "constant pool corrupted"
  | constantTag number => "unknown constant tag " ++ (number : Text)
  | trailing bytes => (bytes : Text) ++ " trailing bytes"
  | undecodable => "decode CBOR"
  | interchangeVersion number => "incompatible CBOR version " ++ (number : Text)
  | noBody => "code constant without body"

/-- A cause in words. -/
def text (language : Language) (e : FileError) : Text :=
  "invalid compiled file: " ++ e.detail language

end FileError

namespace CodeKind

/-- The kind with a given number, if that stands for one. -/
def ofNumber? (n : UInt8) : Option CodeKind :=
  match ofNumber n with
  | other _ => none
  | kind => some kind

end CodeKind

end Toolchain
