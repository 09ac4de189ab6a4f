import Toolchain.Text.Basic
import Toolchain.Text.Letter

/-!
# Names of documents

An editor names its documents by URIs. That of a file holds its path, in which a byte may be written
as a percent sign and two hexadecimal digits.

## Main definitions

* `Uri.percentDecode?`: the bytes that a part of a URI writes
* `Uri.filename`: the path of the file that a URI names
-/

namespace Toolchain

namespace Uri

/-- The value of a byte that is a hexadecimal digit. -/
def hexByte? (b : UInt8) : Option Nat := Text.hexDigit? (Char.ofNat b.toNat)

/-- The bytes that a part of a URI writes; none if a percent sign has no two digits after it. -/
def percentDecode? : Text → Option Text
  | [] => some []
  | b :: rest =>
    if b = '%'.toUInt8 then
      match rest with
      | high :: low :: after =>
        match hexByte? high, hexByte? low, percentDecode? after with
        | some h, some l, some t => some (UInt8.ofNat (16 * h + l) :: t)
        | _, _, _ => none
      | _ => none
    else (percentDecode? rest).map (b :: ·)

/-- The beginning of the URI of a file. -/
def fileScheme : Text := Text.ofString "file://"

/-- Whether a path starts with the letter of a drive. -/
def startsWithDrive : Text → Bool
  | slash :: letter :: colon :: _ :: _ =>
    slash = '/'.toUInt8 && Text.isLetter (Char.ofNat letter.toNat) && colon = ':'.toUInt8
  | _ => false

/-- The path in the URI of a file: what stands after the name of a host, up to a query. -/
def path? (uri : Text) : Option Text := do
  let rest := (uri.drop fileScheme.length).takeWhile fun b => b ≠ '?'.toUInt8
  let path ← percentDecode? (rest.dropWhile fun b => b ≠ '/'.toUInt8)
  return if startsWithDrive path then path.drop 1 else path

/-- The path of the file that a URI names; any other URI stands for itself. So does a malformed URI
of a file, for which the library that gives the names of documents has no path and fails. -/
def filename (uri : Text) : Text :=
  if uri.startsWith fileScheme then (path? uri).getD uri else uri

end Uri

end Toolchain
