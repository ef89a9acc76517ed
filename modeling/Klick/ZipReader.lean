-- The reader of archives (`lib/uploads/zip-read.ts`): the end record is searched from the
-- back, then the directory is read record by record, with limits against large contents.
import Klick.Binary64
import Klick.LittleEndian
import Klick.Utf8

namespace Klick.Zip

open Js LittleEndian

structure ZipLimits where
  maxEntries : ℕ
  maxEntryBytes : ℕ
  maxTotalBytes : ℕ
  maxRatio : ℚ

/-- `DEFAULT_ZIP_LIMITS` -/
def defaultZipLimits : ZipLimits := ⟨5000, 32 * 1024 * 1024, 64 * 1024 * 1024, 200⟩

/-- A file as it is read. -/
structure ZipFile where
  name : Text
  data : Bytes
deriving DecidableEq

inductive ZipError where
  | notZip
  | zip64
  | tooManyEntries
  | tooLarge
  | ratio
  | encrypted
  | method
  | corrupt
deriving DecidableEq, Repr

/-- The signatures of the records. -/
def eocdSignature : ℕ := 0x06054b50

def cenSignature : ℕ := 0x02014b50

def locSignature : ℕ := 0x04034b50

/-- The last place of an end record, from a place down to `low`. -/
def findDown (bytes : Bytes) (low : ℕ) : ℕ → Option ℕ
  | 0 => if field bytes 0 4 = eocdSignature then some 0 else none
  | i + 1 =>
    if field bytes (i + 1) 4 = eocdSignature then some (i + 1)
    else if i + 1 ≤ low then none
    else findDown bytes low i

def findEocd (bytes : Bytes) : Option ℕ :=
  findDown bytes (bytes.length - 22 - 0xffff) (bytes.length - 22)

/-- `new TextDecoder("utf-8").decode`, which takes off a byte order mark. -/
def decodeName (bs : Bytes) : Text :=
  utf8Decode (if [0xef, 0xbb, 0xbf].isPrefixOf bs then bs.drop 3 else bs)

section Reader

-- `inflateRawSync` with its `maxOutputLength`
variable (inflate : Bytes → ℕ → Option Bytes)

/-- The file of the record of the directory at `p`. -/
def readEntry (bytes : Bytes) (limits : ZipLimits) (p total : ℕ) (name : Text) :
    Except ZipError ZipFile :=
  let flags := field bytes (p + 8) 2
  let method := field bytes (p + 10) 2
  let compSize := field bytes (p + 20) 4
  let size := field bytes (p + 24) 4
  let localOffset := field bytes (p + 42) 4
  if size = 0xffffffff ∨ compSize = 0xffffffff then .error .zip64
  else if flags % 2 = 1 then .error .encrypted
  else if limits.maxEntryBytes < size then .error .tooLarge
  else if 0 < compSize ∧ limits.maxRatio < fl (size / compSize) then .error .ratio
  else if limits.maxTotalBytes < total + size then .error .tooLarge
  else if bytes.length < localOffset + 30 ∨ field bytes localOffset 4 ≠ locSignature then
    .error .corrupt
  else
    let start := localOffset + 30 + field bytes (localOffset + 26) 2 +
      field bytes (localOffset + 28) 2
    if bytes.length < start + compSize then .error .corrupt
    else
      let raw := (bytes.drop start).take compSize
      if method = 0 then
        if raw.length = size then .ok ⟨name, raw⟩ else .error .corrupt
      else if method = 8 then
        match inflate raw limits.maxEntryBytes with
        | some data => if data.length = size then .ok ⟨name, data⟩ else .error .corrupt
        | none => .error .corrupt
      else .error .method

/-- The files of so many records of the directory, from `p` on. -/
def readFrom (bytes : Bytes) (wanted : Text → Bool) (limits : ZipLimits) :
    ℕ → ℕ → ℕ → Except ZipError (List ZipFile)
  | 0, _, _ => .ok []
  | n + 1, p, total =>
    if bytes.length < p + 46 ∨ field bytes p 4 ≠ cenSignature then .error .corrupt
    else
      let nameLen := field bytes (p + 28) 2
      let name := decodeName ((bytes.drop (p + 46)).take nameLen)
      let next := p + 46 + nameLen + field bytes (p + 30) 2 + field bytes (p + 32) 2
      if !wanted name || (js "/").isSuffixOf name then readFrom bytes wanted limits n next total
      else do
        let file ← readEntry inflate bytes limits p total name
        let files ← readFrom bytes wanted limits n next (total + field bytes (p + 24) 4)
        return file :: files

def readZipEntries (bytes : Bytes) (wanted : Text → Bool) (limits : ZipLimits) :
    Except ZipError (List ZipFile) :=
  if bytes.length < 22 then .error .notZip
  else
    match findEocd bytes with
    | none => .error .notZip
    | some eocd =>
      let count := field bytes (eocd + 10) 2
      let cdSize := field bytes (eocd + 12) 4
      let cdOffset := field bytes (eocd + 16) 4
      if count = 0xffff ∨ cdOffset = 0xffffffff ∨ cdSize = 0xffffffff then .error .zip64
      else if limits.maxEntries < count then .error .tooManyEntries
      else if bytes.length < cdOffset + cdSize then .error .corrupt
      else readFrom inflate bytes wanted limits count cdOffset 0

end Reader

end Klick.Zip
