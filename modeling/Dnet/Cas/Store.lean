import Dnet.Cas.Path
import Dnet.Lib.Bytes
import Dnet.Lib.Command
import Dnet.Lib.FileSystem
import Mathlib.Algebra.Ring.Nat

/-!
# The content store

`Store` (store.rs) over a file system: blobs are files and trees are directories of one root,
both named `<hex>-<name>` after the key of their content. A new entry is made under a staging
name and then renamed; an entry that is there is taken for published.
-/

namespace Dnet

open Lib

/-! ## The host -/

/-- A name in a directory. -/
abbrev OsName := List UInt8

/-- What the program finds on its host: the process, the directories it was given, the hash
function, and how a file name is read as text (`to_string_lossy`). -/
structure Host where
  pid : Nat
  root : List OsName
  tempDir : List OsName
  blake3 : List UInt8 → Blake3Hash
  lossy : OsName → String
  lossy_utf8 : ∀ s, lossy (utf8 s) = s

/-- The file system and the counters of the process: `COUNTER` of store.rs, `CTR` of drv.rs. -/
structure World where
  fs : Fs OsName
  nonce : Nat
  builds : Nat

/-- A part of a path between two separators. -/
def stepOf : List Char → PathStep OsName
  | [] => .stay
  | ['.'] => .stay
  | ['.', '.'] => .up
  | part => .down (utf8 (String.ofList part))

/-- A path as the operating system gets it; it refuses one with a NUL. -/
def osPath (path : String) : Except FsError (RawPath OsName) :=
  if '\x00' ∈ path.toList then .error .invalidInput
  else .ok ⟨path.toList.head? = some '/', (path.toList.splitOn '/').map stepOf⟩

namespace Store

abbrev Contents := List (String × List UInt8)

structure PathInfo where
  size : Nat
  isTree : Bool
  hash : Blake3Hash

section

variable (h : Host)

/-- The file name of a store path. -/
def fileName (p : StorePath) : OsName := utf8 p.display

def locate (p : StorePath) : List OsName := h.root ++ [fileName p]

/-- `unique_staging`. -/
def uniqueStaging (kind : String) : Command World StoreError OsName := fun w =>
  (.ok (utf8 (kind ++ "-" ++ toString h.pid ++ "-" ++ toString w.nonce)),
    { w with nonce := w.nonce + 1 })

def targetExists (p : StorePath) : Command World StoreError Bool :=
  .ask fun w => .ok (w.fs.exists? h.root (Fs.downs [fileName p]))

/-- The last step of both insertions. If the rename fails, the staged entry is removed, and
the failure does not count when somebody else has published the target. -/
def publish (staging : OsName) (p : StorePath) : Command World StoreError Unit := fun w =>
  let stagingLoc := h.root ++ [staging]
  match w.fs.rename stagingLoc (locate h p) with
  | .ok fs => (.ok (), { w with fs })
  | .error _ =>
    if w.fs.exists? h.root (Fs.downs [fileName p]) then
      (.ok (), { w with fs := w.fs.removeTree stagingLoc })
    else (.error .io, { w with fs := w.fs.removeTree stagingLoc })

/-- The staging file is created anew and filled. -/
def createNew (staging : OsName) (bytes : List UInt8) : Command World StoreError Unit := fun w =>
  if (w.fs.node (h.root ++ [staging])).isSome then (.error .io, w)
  else (.ok (), { w with fs := w.fs.put (h.root ++ [staging]) (.file bytes) })

def writeAtomic (p : StorePath) (bytes : List UInt8) : Command World StoreError Unit := do
  let staging ← uniqueStaging h ".tmp-blob"
  createNew h staging bytes
  publish h staging p

def addRaw (hash : Blake3Hash) (name : String) (bytes : List UInt8) :
    Command World StoreError StorePath := do
  if h.blake3 bytes ≠ hash then .fail .hashMismatch
  else
    let path ← .ask fun _ => StorePath.new hash name
    if ← targetExists h path then return path
    else
      writeAtomic h path bytes
      return path

def add (name : String) (bytes : List UInt8) : Command World StoreError StorePath :=
  addRaw h (h.blake3 bytes) name bytes

/-! ## Trees -/

/-- The relative path of a file as it enters the key. -/
def relPath (names : List OsName) : String :=
  String.ofList ((h.lossy ([0x2F].intercalate names)).toList.map fun c => if c = '\\' then '/' else c)

def readEntry (fs : Fs OsName) (l : List OsName) (e : String × List OsName) :
    Except StoreError (String × List UInt8) :=
  match fs.read l (Fs.downs e.2) with
  | .ok data => .ok (e.1, data)
  | .error _ => .error .io

/-- `tree_contents`: the files of a directory by their relative paths; a link counts as the
file it leads to. The directory is `dir`, taken from `base`. -/
def treeContents (fs : Fs OsName) (base : List OsName) (dir : RawPath OsName) :
    Except StoreError Contents :=
  match fs.resolve true base dir with
  | .ok (.here l) =>
    let entries := (fs.collectFiles l).map fun names => (relPath h names, names)
    let sorted := entries.mergeSort fun a b => a.1 ≤ b.1
    sorted.mapM (readEntry fs l)
  | _ => .error .io

/-- What `hash_contents` feeds to the hash. -/
def treeBytes (contents : Contents) : List UInt8 :=
  contents.flatMap fun (rel, data) =>
    leBytes 8 (utf8 rel).length ++ utf8 rel ++ leBytes 8 data.length ++ data

def hashContents (contents : Contents) : Blake3Hash := h.blake3 (treeBytes contents)

/-- One file of a staged tree. -/
def stageFile (stagingLoc : List OsName) (rel : String) (data : List UInt8) :
    Command World StoreError Unit := fun w =>
  match osPath rel with
  | .error _ => (.error .io, w)
  | .ok dst =>
    match w.fs.createDirAll stagingLoc (Fs.parent dst) with
    | (.error _, fs) => (.error .io, { w with fs })
    | (.ok (), fs) =>
      match fs.write stagingLoc dst data with
      | .error _ => (.error .io, { w with fs })
      | .ok fs => (.ok (), { w with fs })

def stageFiles (stagingLoc : List OsName) : Contents → Command World StoreError Unit
  | [] => return ()
  | (rel, data) :: rest => do
    stageFile stagingLoc rel data
    stageFiles stagingLoc rest

def makeStaging (staging : OsName) : Command World StoreError Unit := fun w =>
  match w.fs.createDirAll h.root (Fs.downs [staging]) with
  | (.ok (), fs) => (.ok (), { w with fs })
  | (.error _, fs) => (.error .io, { w with fs })

/-- `stage_tree`: what was staged is removed if anything fails. -/
def stageTree (staging : OsName) (contents : Contents) : Command World StoreError Unit := fun w =>
  let stagingLoc := h.root ++ [staging]
  let build : Command World StoreError Unit := do
    makeStaging h staging
    stageFiles stagingLoc contents
  match build w with
  | (.ok (), w) => (.ok (), w)
  | (.error e, w) => (.error e, { w with fs := w.fs.removeTree stagingLoc })

def addTree (name : String) (base : List OsName) (dir : RawPath OsName) :
    Command World StoreError StorePath := do
  let contents ← .ask fun w => treeContents h w.fs base dir
  let path ← .ask fun _ => StorePath.new (hashContents h contents) name
  if ← targetExists h path then return path
  else
    let staging ← uniqueStaging h ".tmp-tree"
    stageTree h staging contents
    publish h staging path
    return path

/-! ## Queries -/

def get (fs : Fs OsName) (p : StorePath) : Except StoreError (Option (List UInt8)) :=
  if fs.isDir h.root (Fs.downs [fileName p]) then .error .isTree
  else match fs.read h.root (Fs.downs [fileName p]) with
    | .ok bytes => if h.blake3 bytes ≠ p.hash then .error .hashMismatch else .ok (some bytes)
    | .error .notFound => .ok none
    | .error _ => .error .io

def verify (fs : Fs OsName) (p : StorePath) : Except StoreError Bool := do
  if fs.isDir h.root (Fs.downs [fileName p]) then
    let contents ← treeContents h fs h.root (Fs.downs [fileName p])
    if hashContents h contents = p.hash then return true else .error .hashMismatch
  else match fs.read h.root (Fs.downs [fileName p]) with
    | .ok bytes => if h.blake3 bytes = p.hash then return true else .error .hashMismatch
    | .error .notFound => return false
    | .error _ => .error .io

def queryPathInfo (fs : Fs OsName) (p : StorePath) : Except StoreError (Option PathInfo) := do
  if fs.isDir h.root (Fs.downs [fileName p]) then
    let contents ← treeContents h fs h.root (Fs.downs [fileName p])
    return some
      { size := (contents.map fun e => e.2.length).sum
        isTree := true
        hash := hashContents h contents }
  else match fs.read h.root (Fs.downs [fileName p]) with
    | .ok bytes =>
      return some { size := bytes.length, isTree := false, hash := h.blake3 bytes }
    | .error .notFound => return none
    | .error _ => .error .io

def list (fs : Fs OsName) : Except StoreError (List StorePath) :=
  (((fs.readDir h.root).map h.lossy).filter fun name => !".tmp".toList.isPrefixOf name.toList).mapM
    StorePath.parse

end

end Store

end Dnet
