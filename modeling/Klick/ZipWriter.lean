-- The writer of export archives (`lib/export/zip.ts`): names are cleaned and made unique,
-- each entry gets a local header and a record of the directory, and a manifest lists the
-- entries with their hashes.
import Klick.CivilDays
import Klick.Coercion
import Klick.LittleEndian
import Klick.Utf8

namespace Klick.Zip

open Js LittleEndian

/-! ## Entries -/

/-- What a file holds: a text, or bytes. -/
inductive Content where
  | text (t : Text)
  | bytes (b : Bytes)

/-- `bytes` -/
def Content.toBytes : Content → Bytes
  | .text t => utf8 t
  | .bytes b => b

/-- `mtime` in milliseconds. -/
structure ZipEntry where
  name : Text
  data : Content
  mtime : Option ℤ := none

def ZipEntry.raw (e : ZipEntry) : Bytes := e.data.toBytes

/-- `ZIP_MAX_ENTRIES` -/
def zipMaxEntries : ℕ := 65535

/-- A date and a time of DOS. -/
structure DosDateTime where
  date : ℕ
  time : ℕ

def dosDateTime (ms : ℤ) : DosDateTime :=
  let d := civilDay (ms / msPerDay)
  let seconds := ((ms % msPerDay) / 1000).toNat
  let y := (max 1980 (min 2107 d.year)).toNat
  ⟨((y - 1980) <<< 9) ||| (d.month <<< 5) ||| d.day,
    ((seconds / 3600) <<< 11) ||| ((seconds / 60 % 60) <<< 5) ||| (seconds % 60 / 2)⟩

/-! ## Names -/

/-- A character that no name of an archive has. -/
def isUnsafe (u : UInt16) : Bool := u.toNat < 32 || u ∈ js "\x22<>|:*?"

/-- The parts of a path that stay, and no way back among them. -/
def safeParts (name : Text) : List Text :=
  (((name.map fun u => if u = ch '\\' then ch '/' else u).splitOn (ch '/')).map trim).filter
    fun p => p ≠ [] ∧ p ≠ js "." ∧ p ≠ js ".."

/-- The replaced characters are no surrogates, so it does not matter that the source goes
by code points. -/
def safeZipName (name : Text) : Text :=
  let joined := (join (ch '/') (safeParts name)).map fun u => if isUnsafe u then ch '_' else u
  if joined = [] then js "datei" else joined

/-- The name with a number, which the first does not have. -/
def numbered (name : Text) (n : ℕ) : Text :=
  if n ≤ 1 then name else name ++ ch '.' :: decimal n

/-- The first number from `n` on whose name is not taken. -/
def freeFrom (seen : List Text) (name : Text) : ℕ → ℕ → Text
  | 0, n => numbered name n
  | fuel + 1, n =>
    if numbered name n ∈ seen then freeFrom seen name fuel (n + 1) else numbered name n

/-- A name that is not taken; one more than the taken ones are tried. -/
def freeName (seen : List Text) (name : Text) : Text := freeFrom seen name seen.length 1

/-! ## Records -/

section Writer

-- `deflateRawSync`, `crc32` of `node:zlib`, and the time of the export
variable (deflate : Bytes → Bytes) (crc32 : Bytes → UInt32) (now : ℤ)

/-- What the records say of an entry. -/
structure Packed where
  nameBytes : Bytes
  payload : Bytes
  method : ℕ
  crc : ℕ
  size : ℕ
  stamp : DosDateTime

/-- An entry under its name; it is stored as it is where `deflate` does not make it shorter. -/
def pack (name : Text) (e : ZipEntry) : Packed where
  nameBytes := utf8 name
  payload := if (deflate e.raw).length < e.raw.length then deflate e.raw else e.raw
  method := if (deflate e.raw).length < e.raw.length then 8 else 0
  crc := (crc32 e.raw).toNat
  size := e.raw.length
  stamp := dosDateTime (e.mtime.getD now)

def localFields (p : Packed) : List (ℕ × ℕ) :=
  [(4, 0x04034b50), (2, 20), (2, 0x0800), (2, p.method), (2, p.stamp.time), (2, p.stamp.date),
   (4, p.crc), (4, p.payload.length), (4, p.size), (2, p.nameBytes.length), (2, 0)]

def localHeader (p : Packed) : Bytes := LittleEndian.record (localFields p) ++ p.nameBytes

/-- A file that all may read, as UNIX writes it. -/
def externalAttributes : ℕ := 0o100644 <<< 16

def centralFields (p : Packed) (offset : ℕ) : List (ℕ × ℕ) :=
  [(4, 0x02014b50), (2, 0x0314), (2, 20), (2, 0x0800), (2, p.method), (2, p.stamp.time),
   (2, p.stamp.date), (4, p.crc), (4, p.payload.length), (4, p.size), (2, p.nameBytes.length),
   (2, 0), (2, 0), (2, 0), (2, 0), (4, externalAttributes), (4, offset)]

def centralHeader (p : Packed) (offset : ℕ) : Bytes :=
  LittleEndian.record (centralFields p offset) ++ p.nameBytes

def endFields (count centralSize offset : ℕ) : List (ℕ × ℕ) :=
  [(4, 0x06054b50), (2, 0), (2, 0), (2, count), (2, count), (4, centralSize), (4, offset), (2, 0)]

/-- What the loop over the entries has written. -/
structure Written where
  locals : List Bytes := []
  centrals : List Bytes := []
  offset : ℕ := 0
  seen : List Text := []

def addEntry (w : Written) (e : ZipEntry) : Written :=
  let name := freeName w.seen (safeZipName e.name)
  let p := pack deflate crc32 now name e
  { locals := w.locals ++ [localHeader p, p.payload]
    centrals := w.centrals ++ [centralHeader p w.offset]
    offset := w.offset + ((localHeader p).length + p.payload.length)
    seen := name :: w.seen }

def buildZip (entries : List ZipEntry) : Except Text Bytes :=
  if zipMaxEntries < entries.length then
    .error (js "zip: zu viele Einträge (" ++ decimal entries.length ++ js ")")
  else
    let w := entries.foldl (addEntry deflate crc32 now) {}
    let centralSize := (w.centrals.map List.length).sum
    .ok ((w.locals ++ w.centrals).flatten ++
      LittleEndian.record (endFields entries.length centralSize w.offset))

end Writer

/-! ## The manifest -/

structure ManifestFile where
  name : Text
  bytes : ℕ
  sha256 : Text
deriving DecidableEq

structure Period where
  from_ : Option Text
  to_ : Option Text

/-- `generatedAt` in milliseconds; `extra` as a value of JSON. -/
structure ManifestInput where
  title : Text
  generatedAt : ℤ
  organizationId : Text
  organizationName : Text
  period : Option Period := none
  frameworks : List Text := []
  generator : Text := js "Klick"
  extra : Option (List (Text × Value)) := none

structure Manifest where
  input : ManifestInput
  files : List ManifestFile

/-- `toISOString` -/
def isoString (ms : ℤ) : Text :=
  let t := (ms % msPerDay).toNat
  let d := civilDay (ms / msPerDay)
  yearText d.year ++ ch '-' :: (pad d.month ++ ch '-' :: (pad d.day ++ ch 'T' ::
    (pad (t / 3600000) ++ ch ':' :: (pad (t / 60000 % 60) ++ ch ':' :: (pad (t / 1000 % 60) ++
      ch '.' :: (zeroed 3 (t % 1000) ++ [ch 'Z']))))))

def orNull : Option Text → Value
  | some t => .str t
  | none => .null

def ManifestFile.toValue (f : ManifestFile) : Value :=
  .obj (named [("name", .str f.name), ("bytes", .int f.bytes), ("sha256", .str f.sha256)])

def Manifest.toValue (m : Manifest) : Value :=
  .obj (named ([("title", .str m.input.title),
    ("generatedAt", .str (isoString m.input.generatedAt)),
    ("organization", .obj (named [("id", .str m.input.organizationId),
      ("name", .str m.input.organizationName)])),
    ("period", (m.input.period.map fun p =>
      Value.obj (named [("from", orNull p.from_), ("to", orNull p.to_)])).getD .null),
    ("frameworks", .arr (m.input.frameworks.map .str)),
    ("generator", .str m.input.generator),
    ("files", .arr (m.files.map (·.toValue)))] ++
      (m.input.extra.map fun fields => ("extra", Value.obj fields)).toList))

/-- A line end and so many blanks. -/
def newLine (depth : ℕ) : Text := ch '\n' :: List.replicate depth (ch ' ')

/-- The items of a list or an object, one on each line. -/
def block (depth : ℕ) (left right : Char) (items : List Text) : Text :=
  if items = [] then [ch left, ch right]
  else ch left :: ((items.map (newLine (depth + 2) ++ ·)).intersperse [ch ',']).flatten ++
    newLine depth ++ [ch right]

mutual
/-- `JSON.stringify(v, null, 2)` -/
def indented (depth : ℕ) : Value → Text
  | .arr vs => block depth '[' ']' (indentedItems (depth + 2) vs)
  | .obj fs => block depth '\x7b' '\x7d' (indentedFields (depth + 2) fs)
  | v => stringify v
def indentedItems (depth : ℕ) : List Value → List Text
  | [] => []
  | v :: vs => indented depth v :: indentedItems depth vs
def indentedFields (depth : ℕ) : List (Text × Value) → List Text
  | [] => []
  | (_, .undefined) :: fs => indentedFields depth fs
  | (k, v) :: fs => (quote k ++ ch ':' :: ch ' ' :: indented depth v) :: indentedFields depth fs
end

section Listing

-- the hash of `sha256Hex`
variable (sha256 : Bytes → Text)

def manifestFile (e : ZipEntry) : ManifestFile :=
  ⟨safeZipName e.name, e.raw.length, sha256 e.raw⟩

/-- The lines of `SHA256SUMS`. -/
def sumsOf (files : List ManifestFile) : Text :=
  join (ch '\n') (files.map fun f => f.sha256 ++ ch ' ' :: ch ' ' :: f.name) ++ [ch '\n']

def manifestOf (entries : List ZipEntry) (input : ManifestInput) : Manifest :=
  ⟨input, entries.map (manifestFile sha256)⟩

/-- The entries of the archive of `withManifest`, which also gives the manifest. -/
def withManifest (entries : List ZipEntry) (input : ManifestInput) : List ZipEntry :=
  let m := manifestOf sha256 entries input
  entries ++
    [⟨js "MANIFEST.json", .text (indented 0 m.toValue ++ [ch '\n']), some input.generatedAt⟩,
     ⟨js "SHA256SUMS", .text (sumsOf m.files), some input.generatedAt⟩]

end Listing

example : safeZipName (js "../a\\b/ ./c:d") = js "a/b/c_d" := by decide

end Klick.Zip
