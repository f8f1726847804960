import Mathlib.Data.Char
import Mathlib.Data.List.Dedup
import Mathlib.Data.List.Lex
import Mathlib.Data.List.Sort
import Mathlib.Logic.Function.Basic
import Postvec.Format.Grammar

/-!
# Model archives: the deterministic writer and the strict reader

`write_deterministic` and `extract_strict` of the registry's schema crate. The framing of a tar file
is a library's: `Tar` has what the two functions use of it, and `Tar.Faithful` says that entries are
read as they were written.

Paths inside the archive are texts; on disk they are lists of components below the destination. The
files to write are given with their content, the destination is a tree of directories and files
(`Tree`), where a call fails as the system's does: no file over a directory, no directory over a
file. A refusal is an `ArchiveFault`; its class, message and remedy are `ArchiveFault.error`.
-/

namespace Postvec.Registry.Archive

/-! ## 1. Entries -/

/-- How many entries the reader takes. -/
def maxEntries : Nat := 65536

/-- How long a path is at most. -/
def maxPathBytes : Nat := 512

/-- How long a component of a path is at most. -/
def maxComponentBytes : Nat := 255

/-- The kinds of entries the tar library tells apart. -/
inductive EntryType where
  | regular | link | symlink | char | block | directory | fifo | continuous
  | gnuLongName | gnuLongLink | gnuSparse | xGlobalHeader | xHeader
  | other (byte : UInt8)
deriving DecidableEq

/-- A header, with the fields the reader reads or the writer sets. -/
structure Header where
  /-- the POSIX magic -/
  ustar : Bool
  entryType : EntryType
  linkName : Option ByteArray
  path : ByteArray
  /-- what `entry_size` reads, or why it cannot -/
  size : Except Text Nat
  mode : Nat
  uid : Nat
  gid : Nat
  mtime : Nat

/-- An entry as the library hands it on. -/
structure Entry where
  header : Header
  /-- the path with the extension records applied -/
  path : ByteArray
  payload : List UInt8

/-- The tar library, over archives of type `β`. -/
structure Tar (β : Type) where
  /-- `set_path`: the path fits a ustar header, or why it does not -/
  setPath : Text → Except Text Unit
  build : List Entry → β
  /-- an item of the iterator may be an error -/
  entries : β → List (Except Text Entry)
  /-- how long the archive is, and its digest -/
  size : β → Nat
  sha256 : β → Text

/-! ## 2. Faults -/

/-- Why a directory or a file cannot be created. -/
inductive FsFault where
  | present
  | notDirectory
deriving DecidableEq

/-- Why an archive is refused, or cannot be written. -/
inductive ArchiveFault where
  -- the reader
  | entry (detail : Text)
  | tooManyEntries
  | notUstar
  | kind (t : EntryType)
  | linkTarget
  | extensionPath
  | notUtf8
  | emptyPath
  | longPath
  | absolute (path : Text)
  | backslash (path : Text)
  | nul
  | outside (path root : Text)
  | component (path : Text)
  | longComponent
  | control (path : Text)
  | duplicate (path : Text)
  | entrySize (detail : Text)
  | directoryPayload (path : Text)
  | rootFile
  | payloadOverflow
  | payloadExceeds (installedSize : Nat)
  | createDir (path : List Text) (fault : FsFault)
  | createFile (path : List Text) (fault : FsFault)
  | longPayload
  | truncated
  | payloadSize (total installedSize : Nat)
  | noFiles
  -- the writer
  | listedTwice (path : Text)
  | notPlain (path : Text)
  | unfit (path detail : Text)
  | stat (source detail : Text)
  | notRegular (source : Text)
  | sizeOverflow
deriving DecidableEq

/-- A refusal about the content (nothing was changed), or a failure while changing the disk. -/
inductive ErrorClass where
  | precondition
  | apply
deriving DecidableEq, Repr

/-- The error of the source: its class, its message and what to do about it. -/
structure ArchiveError where
  cls : ErrorClass
  message : String
  remediation : Option String

/-- A refusal of the reader. -/
def reject (detail : String) : ArchiveError where
  cls := .precondition
  message := "archive rejected: " ++ detail
  remediation :=
    some "the download verified but its content is not a valid model archive; report this"

section Messages

-- how a text is printed with `:?`, how a path below the destination, a fault of the system and the
-- byte of an unknown entry type are shown
variable (quoted : Text → String) (display : List Text → String) (fsText : FsFault → String)
  (hex : UInt8 → String)

/-- What is said of an entry that is neither a file nor a directory. -/
def kindMessage : EntryType → String
  | .symlink => "symlink entry"
  | .link => "hard link entry"
  | .char | .block => "device entry"
  | .fifo => "FIFO entry"
  | .continuous => "contiguous-file entry"
  | .xHeader | .xGlobalHeader => "PAX extension entry"
  | .gnuLongName | .gnuLongLink => "GNU long-name/long-link entry"
  | .gnuSparse => "GNU sparse entry"
  | .other b => "unknown entry type " ++ hex b
  | .regular | .directory => ""

/-- The error a fault is reported as. -/
def ArchiveFault.error : ArchiveFault → ArchiveError
  | .entry d => reject (String.ofList d)
  | .tooManyEntries => reject ("archive exceeds " ++ toString maxEntries ++ " entries")
  | .notUstar => reject "entry is not plain ustar (POSIX magic missing)"
  | .kind t => reject (kindMessage hex t)
  | .linkTarget => reject "entry carries a link target"
  | .extensionPath => reject "entry path comes from an extension record"
  | .notUtf8 => reject "path is not UTF-8"
  | .emptyPath => reject "entry has an empty path"
  | .longPath => reject ("path exceeds " ++ toString maxPathBytes ++ " bytes")
  | .absolute p => reject ("absolute path " ++ quoted p)
  | .backslash p => reject ("backslash in path " ++ quoted p)
  | .nul => reject "NUL in path"
  | .outside p r => reject ("path " ++ quoted p ++ " is outside the expected root " ++ quoted r)
  | .component p => reject ("path " ++ quoted p ++ " has a forbidden component")
  | .longComponent => reject ("path component exceeds " ++ toString maxComponentBytes ++ " bytes")
  | .control p => reject ("control character in path " ++ quoted p)
  | .duplicate p => reject ("duplicate path " ++ quoted p)
  | .entrySize d => reject ("entry size: " ++ String.ofList d)
  | .directoryPayload p => reject ("directory entry " ++ quoted p ++ " carries payload bytes")
  | .rootFile => reject "a regular file entry names the archive root"
  | .payloadOverflow => reject "cumulative payload size overflows"
  | .payloadExceeds n =>
    reject ("cumulative payload exceeds the advertised installed size " ++ toString n)
  | .createDir p f | .createFile p f =>
    ⟨.apply, "cannot create " ++ display p ++ ": " ++ fsText f, none⟩
  | .longPayload => reject "entry payload exceeds its declared size"
  | .truncated => reject "archive is truncated inside a file payload"
  | .payloadSize t n =>
    reject ("archive payload is " ++ toString t ++ " bytes; the index promised exactly " ++
      toString n)
  | .noFiles => reject "archive contains no regular files"
  | .listedTwice p => ⟨.precondition, "archive input lists " ++ quoted p ++ " twice", none⟩
  | .notPlain p =>
    ⟨.precondition, "archive input path " ++ quoted p ++ " is not a plain relative path", none⟩
  | .unfit p d =>
    ⟨.precondition, "path " ++ quoted p ++ " does not fit a ustar header: " ++ String.ofList d,
      none⟩
  | .stat s d =>
    ⟨.precondition, "cannot stat " ++ String.ofList s ++ ": " ++ String.ofList d, none⟩
  | .notRegular s => ⟨.precondition, String.ofList s ++ " is not a regular file", none⟩
  | .sizeOverflow => ⟨.precondition, "cumulative archive payload overflows u64", none⟩

end Messages

/-! ## 3. The destination -/

/-- What is at a path below the destination. -/
inductive Node where
  | dir (mode : Nat)
  | file (mode : Nat) (bytes : List UInt8)
deriving DecidableEq

/-- What is below a directory. -/
def Tree : Type := List Text → Option Node

/-- An empty directory. -/
def Tree.empty : Tree := fun _ => none

/-- The tree with a node at `path`. -/
def Tree.put (t : Tree) (path : List Text) (node : Node) : Tree :=
  Function.update t path (some node)

/-- The node with another mode. -/
def Node.chmod (mode : Nat) : Node → Node
  | .dir _ => .dir mode
  | .file _ bytes => .file mode bytes

/-- `set_permissions`, at a path where something is. -/
def Tree.setMode (t : Tree) (path : List Text) (mode : Nat) : Tree :=
  Function.update t path ((t path).map (Node.chmod mode))

/-- `create_dir_all`, for the components below `base`; `created` is the mode the process gives. A
    file in the way is `EEXIST` at the end of the path and `ENOTDIR` before it. -/
def Tree.createDirAll (created : Nat) (t : Tree) (base : List Text) :
    List Text → Except FsFault Tree
  | [] => .ok t
  | c :: cs =>
    match t (base ++ [c]) with
    | some (.file _ _) => .error (if cs.isEmpty then .present else .notDirectory)
    | some (.dir _) => Tree.createDirAll created t (base ++ [c]) cs
    | none => Tree.createDirAll created (t.put (base ++ [c]) (.dir created)) (base ++ [c]) cs

/-- Every directory on the way gets the normalised mode. -/
def Tree.normalizeDirs (t : Tree) (base : List Text) : List Text → Tree
  | [] => t
  | c :: cs => Tree.normalizeDirs (t.setMode (base ++ [c]) 0o755) (base ++ [c]) cs

/-- A file is created only where nothing is (`create_new`). -/
def Tree.createNew (created : Nat) (t : Tree) (path : List Text) (bytes : List UInt8) :
    Except FsFault Tree :=
  match t path with
  | some _ => .error .present
  | none => .ok (t.put path (.file created bytes))

/-! ## 4. The strict reader -/

/-- `is_ascii_control` -/
def isControl (c : Char) : Bool := c.toNat < 32 || c.toNat == 127

/-- One component below the root. -/
def checkComponent (path c : Text) : Except ArchiveFault Unit :=
  if c.isEmpty || c == ".".toList || c == "..".toList then .error (.component path)
  else if maxComponentBytes < byteLen c then .error .longComponent
  else if c.any isControl then .error (.control path)
  else .ok ()

/-- The loop over the components. -/
def checkComponents (path : Text) : List Text → Except ArchiveFault Unit
  | [] => .ok ()
  | c :: cs => do
    checkComponent path c
    checkComponents path cs

/-- `strip_suffix` of one slash: a directory entry ends in it. -/
def stripSlash (path : Text) : Text := if path.getLast? = some '/' then path.dropLast else path

/-- The components below the root. -/
def validateEntryPath (path root : Text) : Except ArchiveFault (List Text) :=
  if maxPathBytes < byteLen path then .error .longPath
  else if path.head? = some '/' then .error (.absolute path)
  else if path.contains '\\' then .error (.backslash path)
  else if path.contains (Char.ofNat 0) then .error .nul
  else
    match (stripSlash path).splitOn '/' with
    | [] => .error (.outside path root)
    | first :: rest =>
      if first ≠ root then .error (.outside path root)
      else do
        checkComponents path rest
        return rest

/-- Whether the entry is a directory; other kinds than files and directories are refused. -/
def entryKind : EntryType → Except ArchiveFault Bool
  | .regular => .ok false
  | .directory => .ok true
  | t => .error (.kind t)

/-- The path of an entry: the one in its header, as text. -/
def entryPath (e : Entry) : Except ArchiveFault Text :=
  if e.header.linkName.isSome then .error .linkTarget
  else if e.path.data ≠ e.header.path.data then .error .extensionPath
  else
    match e.path.utf8Decode? with
    | none => .error .notUtf8
    | some chars => if chars.isEmpty then .error .emptyPath else .ok chars.toList

/-- The evidence about one file: where it is, its size and its digest. -/
structure ExtractedFile where
  path : List Text
  size : Nat
  sha256 : Text
deriving DecidableEq

/-- The variables of the loop over the entries, and the tree it has written. -/
structure Extraction where
  entries : Nat
  totalPayload : Nat
  seenPaths : List Text
  files : List ExtractedFile
  tree : Tree

/-- Before the first entry. -/
def Extraction.start (t : Tree) : Extraction := ⟨0, 0, [], [], t⟩

section Reader

-- the modes the process gives, and the digest of a file
variable (created : Nat) (sha256 : List UInt8 → Text)

/-- `checked_add` of two `u64` -/
def checkedAdd (a b : Nat) : Option Nat := if a + b < 2 ^ 64 then some (a + b) else none

/-- A directory entry; the root itself is there already. -/
def extractDir (s : Extraction) (path : Text) (rel : List Text) (size : Nat) :
    Except ArchiveFault Extraction :=
  if size ≠ 0 then .error (.directoryPayload path)
  else if rel.isEmpty then .ok s
  else do
    let t ← (s.tree.createDirAll created [] rel).mapError (.createDir rel)
    return { s with tree := t.setMode rel 0o755 }

/-- A file entry: the sum of the sizes is checked before anything is created. -/
def extractFile (installedSize : Nat) (s : Extraction) (rel : List Text) (size : Nat)
    (payload : List UInt8) : Except ArchiveFault Extraction :=
  if rel.isEmpty then .error .rootFile
  else
    match checkedAdd s.totalPayload size with
    | none => .error .payloadOverflow
    | some total =>
      if installedSize < total then .error (.payloadExceeds installedSize)
      else do
        let parent := rel.dropLast
        let t ← (s.tree.createDirAll created [] parent).mapError (.createDir parent)
        let t ← ((t.normalizeDirs [] parent).createNew created rel payload).mapError
          (.createFile rel)
        if size < payload.length then .error .longPayload
        else if payload.length ≠ size then .error .truncated
        else
          return { s with
            totalPayload := total
            files := s.files ++ [⟨rel, size, sha256 payload⟩]
            tree := t.setMode rel 0o644 }

/-- The body of the loop over the entries. -/
def extractEntry (root : Text) (installedSize : Nat) (s : Extraction) (item : Except Text Entry) :
    Except ArchiveFault Extraction := do
  let e ← item.mapError .entry
  if maxEntries < s.entries + 1 then .error .tooManyEntries
  else if !e.header.ustar then .error .notUstar
  else do
    let isDir ← entryKind e.header.entryType
    let path ← entryPath e
    let rel ← validateEntryPath path root
    if path ∈ s.seenPaths then .error (.duplicate path)
    else do
      let size ← e.header.size.mapError .entrySize
      let s := { s with entries := s.entries + 1, seenPaths := path :: s.seenPaths }
      if isDir then extractDir created s path rel size
      else extractFile created sha256 installedSize s rel size e.payload

/-- The loop over the entries. -/
def extractEntries (root : Text) (installedSize : Nat) :
    Extraction → List (Except Text Entry) → Except ArchiveFault Extraction
  | s, [] => .ok s
  | s, item :: items => do
    let s ← extractEntry created sha256 root installedSize s item
    extractEntries root installedSize s items

/-- `extract_strict`, below the directory `dest`: the evidence about the files, and what is
    there. -/
def extractStrict (items : List (Except Text Entry)) (root : Text) (installedSize : Nat)
    (dest : Tree) : Except ArchiveFault (List ExtractedFile × Tree) := do
  let s ← extractEntries created sha256 root installedSize (.start dest) items
  if s.totalPayload ≠ installedSize then .error (.payloadSize s.totalPayload installedSize)
  else if s.files.isEmpty then .error .noFiles
  else return (s.files, s.tree)

end Reader

/-! ## 5. The deterministic writer -/

/-- What is at a source path. -/
inductive Source where
  | unreadable (detail : Text)
  | special
  | regular (bytes : List UInt8)
deriving DecidableEq

/-- A file to pack. -/
structure ArchiveInput where
  relativePath : Text
  /-- where the bytes are, for messages -/
  sourcePath : Text
  source : Source
deriving DecidableEq

/-- What the writer returns: the archive with what the index says of it. -/
structure WrittenArchive (β : Type) where
  archive : β
  digest : Text
  size : Nat
  installedSize : Nat

/-- `sort_by` the relative path -/
def sortInputs (inputs : List ArchiveInput) : List ArchiveInput :=
  inputs.insertionSort fun a b => a.relativePath ≤ b.relativePath

/-- Two neighbours with one path. -/
def checkTwice : List ArchiveInput → Except ArchiveFault Unit
  | a :: b :: rest =>
    if a.relativePath = b.relativePath then .error (.listedTwice a.relativePath)
    else checkTwice (b :: rest)
  | _ => .ok ()

/-- A component that the reader takes, control characters apart. -/
def plainComponent (c : Text) : Bool :=
  !(c.isEmpty || c == ".".toList || c == "..".toList || decide (maxComponentBytes < byteLen c))

/-- `validate_relative_input` -/
def plainRelative (path : Text) : Bool :=
  !path.isEmpty && path.head? != some '/' && path.getLast? != some '/' &&
    (path.splitOn '/').all plainComponent && decide (byteLen path ≤ maxPathBytes) &&
    !path.contains '\\' && !path.any isControl

/-- The directories above a file, from the outermost; `ancestor` is what was joined so far. -/
def ancestorDirs (root ancestor : Text) : List Text → List Text
  | [] => []
  | c :: cs =>
    (root ++ '/' :: (ancestor ++ c ++ ['/'])) :: ancestorDirs root (ancestor ++ c ++ ['/']) cs

/-- The loop that collects the directories. -/
def collectDirs (root : Text) : List ArchiveInput → Except ArchiveFault (List Text)
  | [] => .ok []
  | i :: is =>
    if !plainRelative i.relativePath then .error (.notPlain i.relativePath)
    else do
      let dirs ← collectDirs root is
      return ancestorDirs root [] (i.relativePath.splitOn '/').dropLast ++ dirs

/-- A sorted set. -/
def sortedSet (paths : List Text) : List Text := paths.dedup.insertionSort fun a b => a ≤ b

section Writer

variable {β : Type} (tar : Tar β)

/-- `pack_header`: nothing in it depends on the machine or the time. -/
def packHeader (path : Text) (size mode : Nat) (kind : EntryType) : Except ArchiveFault Header := do
  (tar.setPath path).mapError (.unfit path)
  return {
    ustar := true
    entryType := kind
    linkName := none
    path := (String.ofList path).toByteArray
    size := .ok size
    mode := mode
    uid := 0
    gid := 0
    mtime := 0 }

/-- The loop over the directories. -/
def appendDirs : List Text → Except ArchiveFault (List Entry)
  | [] => .ok []
  | d :: ds => do
    let header ← packHeader tar d 0 0o755 .directory
    let es ← appendDirs ds
    return ⟨header, header.path, []⟩ :: es

/-- The loop over the files; the content does not change while it is read. -/
def appendFiles (root : Text) (installedSize : Nat) :
    List ArchiveInput → Except ArchiveFault (Nat × List Entry)
  | [] => .ok (installedSize, [])
  | i :: is =>
    match i.source with
    | .unreadable d => .error (.stat i.sourcePath d)
    | .special => .error (.notRegular i.sourcePath)
    | .regular bytes =>
      match checkedAdd installedSize bytes.length with
      | none => .error .sizeOverflow
      | some total => do
        let header ← packHeader tar (root ++ '/' :: i.relativePath) bytes.length 0o644 .regular
        let (total, es) ← appendFiles root total is
        return (total, ⟨header, header.path, bytes⟩ :: es)

/-- `write_deterministic` -/
def writeDeterministic (root : Text) (inputs : List ArchiveInput) :
    Except ArchiveFault (WrittenArchive β) := do
  let inputs := sortInputs inputs
  checkTwice inputs
  let dirs ← collectDirs root inputs
  let dirEntries ← appendDirs tar (sortedSet ((root ++ ['/']) :: dirs))
  let (installedSize, fileEntries) ← appendFiles tar root 0 inputs
  let archive := tar.build (dirEntries ++ fileEntries)
  return ⟨archive, "sha256:".toList ++ tar.sha256 archive, tar.size archive, installedSize⟩

end Writer

end Postvec.Registry.Archive
