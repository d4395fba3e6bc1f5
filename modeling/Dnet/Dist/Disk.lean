import Dnet.Cas.Store
import Dnet.Store.Canonical

/-!
# The disk cache

The content-addressed cache of nets (dnx-dist/disk.rs): one file for each key, with the blob of a
net. The key of a blob is not the hash of its bytes, but that of the net that `from_blob` makes of
them, serialised again. So bytes are accepted for a key that no net is serialised to: among the
canonical blobs a key names one byte string (`importBlob_same_key`), but another blob may replace
it (`eraserBehind_same_key`).
-/

namespace Dnet

open Lib Function

/-! ## Errors -/

/-- An error of the operating system, the end of a stream, or an error that the program makes. -/
inductive IoError where
  | fs (e : FsError)
  | unexpectedEof
  | invalidData (message : String)
  deriving DecidableEq, Repr

inductive CacheError where
  | io (e : IoError)
  | decode (e : DnxError)
  | hashMismatch
  deriving DecidableEq, Repr

/-- How the check of a blob can fail: with an error, or on the assertion of `alloc_rep_in`. -/
inductive CacheAbort where
  | err (e : CacheError)
  | assertion
  deriving DecidableEq, Repr

def Abort.inCache : Abort → CacheAbort
  | .err e => .err (.decode e)
  | .assertion => .assertion

/-! ## The check of a blob -/

def Net.canonicalHash (blake3 : List UInt8 → Blake3Hash) (n : Net) (root : PortId) (fuel : Nat) :
    Option (Except DnxError Blake3Hash) := do
  return (← n.serialize root fuel).map blake3

section

variable (blake3 : List UInt8 → Blake3Hash) (debug : Bool)

/-- What `load` and `import` ask of a blob. The fuel is enough for the net of the blob. -/
def checkBlob (hash : Blake3Hash) (blob : List UInt8) : Except CacheAbort (Net × PortId) := do
  let (net, root) ← (fromBlob debug blob).mapError Abort.inCache
  let actual ← ((net.canonicalHash blake3 root (4 * blob.length)).getD
    (.error .readbackIncomplete)).mapError fun e => .err (.decode e)
  if actual ≠ hash then throw (.err .hashMismatch) else return (net, root)

/-- The bytes that are hashed when `blob` is checked. -/
def Hashed (blob bytes : List UInt8) : Prop :=
  ∃ net root fuel, fromBlob debug blob = .ok (net, root) ∧ net.serialize root fuel = some (.ok bytes)

end

/-- The blob's records are their own depth-first listing. -/
def CanonicalBlob (blob : List UInt8) : Prop :=
  ∃ records, decode blob = .ok records ∧ Canonical records

section

variable {blake3 : List UInt8 → Blake3Hash} {debug : Bool} {hash : Blake3Hash}
  {blob bytes : List UInt8} {net : Net} {root : PortId}

theorem Net.serialize_mono {fuel : Nat} {r : Except DnxError (List UInt8)}
    (h : net.serialize root fuel = some r) (more : Nat) :
    net.serialize root (fuel + more) = some r := by
  obtain ⟨records, hrecords, h⟩ := Option.bind_eq_some_iff.mp h
  obtain ⟨st, hst, hrecords⟩ := Option.bind_eq_some_iff.mp hrecords
  obtain rfl := Option.some.inj hrecords
  unfold Net.serialize Net.canonicalRecords Net.dfsAssign
  rw [loop_mono more hst]
  exact h

theorem Hashed.unique {bytes' : List UInt8} (h : Hashed debug blob bytes)
    (h' : Hashed debug blob bytes') : bytes = bytes' := by
  obtain ⟨net, root, fuel, hblob, hrun⟩ := h
  obtain ⟨net', root', fuel', hblob', hrun'⟩ := h'
  rw [hblob] at hblob'
  cases hblob'
  have hlong := Net.serialize_mono hrun fuel'
  rw [Nat.add_comm, Net.serialize_mono hrun' fuel] at hlong
  exact (Except.ok.inj (Option.some.inj hlong)).symm

/-- The net of a blob is always serialised, to the blob itself exactly if that is canonical. -/
theorem hashed_fromBlob (h : fromBlob debug blob = .ok (net, root)) :
    ∃ bytes, net.serialize root (4 * blob.length) = some (.ok bytes) ∧
      (bytes = blob ↔ CanonicalBlob blob) := by
  obtain ⟨records, bytes, hdec, hrun, hiff⟩ := toBlob_fromBlob h
  refine ⟨bytes, hrun _ le_rfl, hiff.trans ⟨fun hc => ⟨records, hdec, hc⟩, ?_⟩⟩
  rintro ⟨records', hdec', hc⟩
  rw [hdec] at hdec'
  cases hdec'
  exact hc

theorem hashed_self_iff (h : fromBlob debug blob = .ok (net, root)) :
    Hashed debug blob blob ↔ CanonicalBlob blob := by
  obtain ⟨bytes, hrun, hiff⟩ := hashed_fromBlob h
  rw [← hiff]
  constructor
  · exact fun hself => Hashed.unique ⟨net, root, _, h, hrun⟩ hself
  · rintro rfl
    exact ⟨net, root, _, h, hrun⟩

theorem checkBlob_eq_ok : checkBlob blake3 debug hash blob = .ok (net, root) ↔
    fromBlob debug blob = .ok (net, root) ∧ ∃ bytes, Hashed debug blob bytes ∧ blake3 bytes = hash := by
  unfold checkBlob
  rw [bind_eq_ok]
  constructor
  · rintro ⟨⟨net', root'⟩, hblob, h⟩
    have hblob : fromBlob debug blob = .ok (net', root') := mapError_eq_ok.mp hblob
    obtain ⟨bytes, hrun, -⟩ := hashed_fromBlob hblob
    dsimp only at h
    rw [Net.canonicalHash, hrun] at h
    have h : (if blake3 bytes ≠ hash then throw (.err .hashMismatch) else pure (net', root') :
      Except CacheAbort (Net × PortId)) = .ok (net, root) := h
    split at h
    · cases h
    · next heq =>
      cases h
      exact ⟨hblob, bytes, ⟨net, root, _, hblob, hrun⟩, not_not.mp heq⟩
  · rintro ⟨hblob, bytes, hhashed, rfl⟩
    obtain ⟨bytes', hrun, -⟩ := hashed_fromBlob hblob
    obtain rfl := hhashed.unique ⟨net, root, _, hblob, hrun⟩
    refine ⟨(net, root), mapError_eq_ok.mpr hblob, ?_⟩
    dsimp only
    rw [Net.canonicalHash, hrun]
    show (if blake3 bytes ≠ blake3 bytes then _ else _) = _
    rw [if_neg (not_not.mpr rfl)]
    rfl

end

/-! ## The cache -/

/-- Lower-case hexadecimal digits. -/
def hex (hash : Blake3Hash) : String := String.ofList (hash.1.flatMap StorePath.hexByte)

structure DiskCache where
  blobs : List OsName

namespace DiskCache

section

variable (cache : DiskCache)

/-- `path`, relative to the directory of the blobs. -/
def fileName (hash : Blake3Hash) : OsName := utf8 (hex hash)

def path (hash : Blake3Hash) : List OsName := cache.blobs ++ [fileName hash]

def contains (fs : Fs OsName) (hash : Blake3Hash) : Bool :=
  fs.isFile cache.blobs (Fs.downs [fileName hash])

/-- The bytes that are read under a key. -/
def found (fs : Fs OsName) (hash : Blake3Hash) : Option (List UInt8) :=
  (fs.read cache.blobs (Fs.downs [fileName hash])).toOption

/-- `export`. -/
def exportBlob (fs : Fs OsName) (hash : Blake3Hash) : Except CacheError (Option (List UInt8)) :=
  if !cache.contains fs hash then .ok none
  else ((fs.read cache.blobs (Fs.downs [fileName hash])).mapError fun e => .io (.fs e)).map some

/-- The name under which a blob is written first. -/
def tmpName (name : String) (pid nanos : Nat) : String :=
  "." ++ name ++ "." ++ toString pid ++ "." ++ toString nanos ++ ".tmp"

def atomicWrite (pid nanos : Nat) (name : String) (bytes : List UInt8) :
    Command (Fs OsName) FsError Unit := fun fs =>
  let tmp := utf8 (tmpName name pid nanos)
  match fs.write cache.blobs (Fs.downs [tmp]) bytes with
  | .error e => (.error e, fs.removeFile (cache.blobs ++ [tmp]))
  | .ok staged =>
    match staged.rename (cache.blobs ++ [tmp]) (cache.blobs ++ [utf8 name]) with
    | .ok done => (.ok (), done)
    | .error e => (.error e, staged.removeFile (cache.blobs ++ [tmp]))

variable (blake3 : List UInt8 → Blake3Hash) (debug : Bool)

def load (fs : Fs OsName) (hash : Blake3Hash) : Except CacheAbort (Option (Net × PortId)) :=
  if !cache.contains fs hash then .ok none
  else do
    let bytes ← (fs.read cache.blobs (Fs.downs [fileName hash])).mapError fun e => .err (.io (.fs e))
    return some (← checkBlob blake3 debug hash bytes)

/-- `import`. -/
def importBlob (pid nanos : Nat) (claimed : Blake3Hash) (blob : List UInt8) :
    Command (Fs OsName) CacheAbort Unit := fun fs =>
  match checkBlob blake3 debug claimed blob with
  | .error e => (.error e, fs)
  | .ok _ =>
    match cache.atomicWrite pid nanos (hex claimed) blob fs with
    | (.ok (), fs) => (.ok (), fs)
    | (.error e, fs) => (.error (.err (.io (.fs e))), fs)

end

/-! ### A directory of files -/

/-- The bytes in the file of a key. -/
def stored (cache : DiskCache) (fs : Fs OsName) (hash : Blake3Hash) : Option (List UInt8) :=
  match fs.node (cache.path hash) with
  | some (.file bytes) => some bytes
  | _ => none

/-- Every entry of the directory is a file. -/
def Plain (cache : DiskCache) (fs : Fs OsName) : Prop :=
  ∀ name, fs.IsLeaf (cache.blobs ++ [name])

/-- Every blob is in a file and passes the check of its key. -/
structure Sound (cache : DiskCache) (blake3 : List UInt8 → Blake3Hash) (debug : Bool)
    (fs : Fs OsName) : Prop where
  plain : cache.Plain fs
  checked : ∀ k b, cache.stored fs k = some b → ∃ v, checkBlob blake3 debug k b = .ok v

theorem hex_injective : Function.Injective hex := by
  intro a b h
  have hread := StorePath.readHex_flatMap a []
  have hdigits : a.1.flatMap StorePath.hexByte = b.1.flatMap StorePath.hexByte :=
    String.ofList_injective h
  rw [hdigits, StorePath.readHex_flatMap] at hread
  exact (congrArg Prod.fst (Option.some.inj hread)).symm

theorem hex_ne_tmpName (hash : Blake3Hash) (name : String) (pid nanos : Nat) :
    hex hash ≠ tmpName name pid nanos := by
  have hdigit : ∀ n < 16, StorePath.hexDigit n ≠ '.' := by decide
  intro heq
  have hhead := congrArg (fun s => s.toList.head?) heq
  obtain ⟨b, bytes, hbytes⟩ := List.exists_cons_of_length_eq_add_one hash.2
  simp only [hex, hbytes, tmpName, String.toList_ofList, String.toList_append] at hhead
  exact hdigit _ (by have := b.toNat_lt; omega) (Option.some.inj hhead)

section

variable {blake3 : List UInt8 → Blake3Hash} {debug : Bool} {cache : DiskCache} {pid nanos : Nat}
  {fs : Fs OsName} {key : Blake3Hash} {blob : List UInt8}

theorem path_eq_iff {k : Blake3Hash} : cache.path k = cache.path key ↔ k = key :=
  ⟨fun h => hex_injective (utf8_injective (List.singleton_injective (List.append_cancel_left h))),
    fun h => h ▸ rfl⟩

theorem contains_eq (cache : DiskCache) (fs : Fs OsName) (key : Blake3Hash) :
    cache.contains fs key = (cache.found fs key).isSome := by
  unfold contains found Fs.isFile Fs.read
  rcases fs.resolve true _ _ with e | (l | l)
  · rfl
  · rfl
  · dsimp only
    rcases fs.node l with _ | (_ | bytes | t) <;> rfl

theorem exportBlob_eq (cache : DiskCache) (fs : Fs OsName) (key : Blake3Hash) :
    cache.exportBlob fs key = .ok (cache.found fs key) := by
  rw [exportBlob, contains_eq, found]
  cases fs.read cache.blobs (Fs.downs [fileName key]) <;> rfl

theorem load_eq (h : cache.found fs key = some blob) :
    cache.load blake3 debug fs key = (checkBlob blake3 debug key blob).map some := by
  rw [load, contains_eq, h]
  unfold found at h
  cases hread : fs.read cache.blobs (Fs.downs [fileName key]) with
  | error e =>
    rw [hread] at h
    cases h
  | ok bytes =>
    rw [hread] at h
    cases h
    rfl

theorem Plain.found_eq (h : cache.Plain fs) (key : Blake3Hash) :
    cache.found fs key = cache.stored fs key := by
  rw [found, Fs.read, Fs.resolve_name_leaf (h _), stored, path]
  dsimp only
  rcases fs.node (cache.blobs ++ [fileName key]) with _ | (_ | bytes | t) <;> rfl

/-- A blob that passes the check replaces the file of its key, and no other file is changed. -/
theorem Plain.importBlob_ok (h : cache.Plain fs) (pid nanos : Nat) {v : Net × PortId}
    (hcheck : checkBlob blake3 debug key blob = .ok v) :
    ∃ fs', cache.importBlob blake3 debug pid nanos key blob fs = (.ok (), fs') ∧ cache.Plain fs' ∧
      ∀ k, cache.stored fs' k = if k = key then some blob else cache.stored fs k := by
  have hne : utf8 (hex key) ≠ utf8 (tmpName (hex key) pid nanos) :=
    utf8_injective.ne (hex_ne_tmpName key _ pid nanos)
  obtain ⟨staged, done, hwrite, hrename, hnode⟩ := Fs.write_rename (h _) (h _) hne blob
  refine ⟨done, ?_, fun name => ?_, fun k => ?_⟩
  · simp only [importBlob, hcheck, atomicWrite, hwrite, hrename]
  · rw [Fs.IsLeaf, hnode, update_apply, update_apply]
    split
    · simp
    · split
      · simp
      · exact h name
  · have htmp : cache.path k ≠ cache.blobs ++ [utf8 (tmpName (hex key) pid nanos)] := fun heq =>
      hex_ne_tmpName k _ _ _
        (utf8_injective (List.singleton_injective (List.append_cancel_left heq)))
    unfold stored
    rw [hnode, update_apply, update_of_ne htmp,
      show cache.blobs ++ [utf8 (hex key)] = cache.path key from rfl]
    by_cases hk : k = key
    · rw [if_pos (path_eq_iff.mpr hk), if_pos hk]
    · rw [if_neg (path_eq_iff.not.mpr hk), if_neg hk]

end

/-! ### Keys -/

section

variable {blake3 : List UInt8 → Blake3Hash} {debug : Bool} {cache : DiskCache} {pid nanos : Nat}
  {fs fs' : Fs OsName} {key : Blake3Hash} {blob : List UInt8}

theorem checkBlob_of_importBlob
    (h : cache.importBlob blake3 debug pid nanos key blob fs = (.ok (), fs')) :
    ∃ net root bytes, fromBlob debug blob = .ok (net, root) ∧ Hashed debug blob bytes ∧
      blake3 bytes = key := by
  unfold importBlob at h
  split at h
  · cases h
  · next v hcheck =>
    obtain ⟨hblob, bytes, hhashed, hkey⟩ := checkBlob_eq_ok.mp hcheck
    exact ⟨v.1, v.2, bytes, hblob, hhashed, hkey⟩

/-- Two blobs accepted under one key, by any processes at any times. What `to_blob` makes of the
net of the first is that blob exactly if it is canonical; and if it is, the second is the same
blob exactly if it is canonical too. -/
theorem importBlob_same_key {fs₁ fs₁' fs₂ fs₂' : Fs OsName} {b₁ b₂ : List UInt8}
    {pid₁ nanos₁ pid₂ nanos₂ : Nat}
    (hinj : Set.InjOn blake3 {bytes | Hashed debug b₁ bytes ∨ Hashed debug b₂ bytes})
    (h₁ : cache.importBlob blake3 debug pid₁ nanos₁ key b₁ fs₁ = (.ok (), fs₁'))
    (h₂ : cache.importBlob blake3 debug pid₂ nanos₂ key b₂ fs₂ = (.ok (), fs₂')) :
    (∀ net root, fromBlob debug b₁ = .ok (net, root) →
        ((∃ fuel, net.toBlob root fuel = some (.ok b₁)) ↔ CanonicalBlob b₁)) ∧
      (CanonicalBlob b₁ → (b₁ = b₂ ↔ CanonicalBlob b₂)) := by
  obtain ⟨net₁, root₁, bytes₁, hblob₁, hhashed₁, hkey₁⟩ := checkBlob_of_importBlob h₁
  obtain ⟨net₂, root₂, bytes₂, hblob₂, hhashed₂, hkey₂⟩ := checkBlob_of_importBlob h₂
  have hsame : bytes₁ = bytes₂ := hinj (.inl hhashed₁) (.inr hhashed₂) (hkey₁.trans hkey₂.symm)
  refine ⟨fun net root hblob => ?_, fun hc₁ => ⟨fun heq => heq ▸ hc₁, fun hc₂ => ?_⟩⟩
  · rw [← hashed_self_iff hblob]
    constructor
    · rintro ⟨fuel, hrun⟩
      exact ⟨net, root, fuel, hblob, hrun⟩
    · rintro ⟨net', root', fuel, hblob', hrun⟩
      rw [hblob] at hblob'
      cases hblob'
      exact ⟨fuel, hrun⟩
  · calc b₁ = bytes₁ := ((hashed_self_iff hblob₁).mpr hc₁).unique hhashed₁
      _ = bytes₂ := hsame
      _ = b₂ := hhashed₂.unique ((hashed_self_iff hblob₂).mpr hc₂)

/-- The identity, and the same blob with an eraser that nothing is wired to. -/
def identityBlob : List UInt8 := blobBytes [.fanAbs (some (0, .aux1)) (some (0, .aux0))]

def eraserBehindBlob : List UInt8 :=
  blobBytes [.fanAbs (some (0, .aux1)) (some (0, .aux0)), .eraser]

theorem hashed_of_run {s : List UInt8}
    (h : ((fromBlob debug blob).toOption.bind fun p => p.1.serialize p.2 (4 * blob.length)) =
      some (.ok s)) : ∃ net root, fromBlob debug blob = .ok (net, root) ∧ Hashed debug blob s := by
  obtain ⟨⟨net, root⟩, hblob, hrun⟩ := Option.bind_eq_some_iff.mp h
  have hblob : fromBlob debug blob = .ok (net, root) := by
    cases hb : fromBlob debug blob with
    | error e =>
      rw [hb] at hblob
      cases hblob
    | ok p =>
      rw [hb] at hblob
      cases hblob
      rfl
  exact ⟨net, root, hblob, net, root, _, hblob, hrun⟩

theorem hashed_identityBlob :
    ∃ net root, fromBlob true identityBlob = .ok (net, root) ∧ Hashed true identityBlob identityBlob :=
  hashed_of_run (by decide +kernel)

theorem hashed_eraserBehindBlob : ∃ net root, fromBlob true eraserBehindBlob = .ok (net, root) ∧
    Hashed true eraserBehindBlob identityBlob :=
  hashed_of_run (by decide +kernel)

/-- A file system with nothing in it. -/
def emptyFs : Fs OsName := .empty

theorem plain_emptyFs : cache.Plain emptyFs := fun _ => Fs.isLeaf_of_none rfl

theorem import_both (blake3 : List UInt8 → Blake3Hash) : ∃ fs₁ fs₂,
    importBlob ⟨[]⟩ blake3 true 0 0 (blake3 identityBlob) identityBlob emptyFs = (.ok (), fs₁) ∧
      importBlob ⟨[]⟩ blake3 true 0 0 (blake3 identityBlob) eraserBehindBlob fs₁ = (.ok (), fs₂) ∧
      stored ⟨[]⟩ fs₁ (blake3 identityBlob) = some identityBlob ∧
      stored ⟨[]⟩ fs₂ (blake3 identityBlob) = some eraserBehindBlob := by
  obtain ⟨net₁, root₁, hblob₁, hhashed₁⟩ := hashed_identityBlob
  obtain ⟨net₂, root₂, hblob₂, hhashed₂⟩ := hashed_eraserBehindBlob
  have hplain : Plain ⟨[]⟩ emptyFs := plain_emptyFs
  obtain ⟨fs₁, h₁, hplain1, hstored₁⟩ := hplain.importBlob_ok 0 0
    (checkBlob_eq_ok.mpr ⟨hblob₁, _, hhashed₁, rfl⟩)
  obtain ⟨fs₂, h₂, -, hstored₂⟩ := hplain1.importBlob_ok 0 0
    (checkBlob_eq_ok.mpr ⟨hblob₂, _, hhashed₂, rfl⟩)
  exact ⟨fs₁, fs₂, h₁, h₂, (hstored₁ _).trans (if_pos rfl), (hstored₂ _).trans (if_pos rfl)⟩

/-- Two byte strings are accepted for one key, whatever the hash function is. -/
theorem eraserBehind_same_key : identityBlob ≠ eraserBehindBlob ∧
    ∀ blake3 : List UInt8 → Blake3Hash, ∃ fs₁ fs₂,
      importBlob ⟨[]⟩ blake3 true 0 0 (blake3 identityBlob) identityBlob emptyFs = (.ok (), fs₁) ∧
      importBlob ⟨[]⟩ blake3 true 0 0 (blake3 identityBlob) eraserBehindBlob fs₁ = (.ok (), fs₂) ∧
      stored ⟨[]⟩ fs₁ (blake3 identityBlob) = some identityBlob ∧
      stored ⟨[]⟩ fs₂ (blake3 identityBlob) = some eraserBehindBlob :=
  ⟨by decide +kernel, import_both⟩

theorem importBlob_same_key_identity : ∃ fs₁ fs₂,
    importBlob ⟨[]⟩ (fun _ => ⟨List.replicate 32 0, rfl⟩) true 0 0 ⟨List.replicate 32 0, rfl⟩
        identityBlob emptyFs = (.ok (), fs₁) ∧
      importBlob ⟨[]⟩ (fun _ => ⟨List.replicate 32 0, rfl⟩) true 0 0 ⟨List.replicate 32 0, rfl⟩
        eraserBehindBlob fs₁ = (.ok (), fs₂) ∧
      CanonicalBlob identityBlob ∧ ¬ CanonicalBlob eraserBehindBlob := by
  obtain ⟨fs₁, fs₂, h₁, h₂, -, -⟩ := import_both fun _ => ⟨List.replicate 32 0, rfl⟩
  obtain ⟨net₁, root₁, hblob₁, hhashed₁⟩ := hashed_identityBlob
  obtain ⟨net₂, root₂, -, hhashed₂⟩ := hashed_eraserBehindBlob
  have hone : ∀ {bytes}, Hashed true identityBlob bytes ∨ Hashed true eraserBehindBlob bytes →
      bytes = identityBlob := by
    rintro bytes (h | h)
    · exact h.unique hhashed₁
    · exact h.unique hhashed₂
  obtain ⟨hself, hother⟩ := importBlob_same_key
    (fun a ha b hb _ => (hone ha).trans (hone hb).symm) h₁ h₂
  have hcanonical : CanonicalBlob identityBlob := by
    obtain ⟨net, root, fuel, hblob, hrun⟩ := hhashed₁
    exact (hself net root hblob).mp ⟨fuel, hrun⟩
  exact ⟨fs₁, fs₂, h₁, h₂, hcanonical, fun hc => absurd ((hother hcanonical).mpr hc) (by decide +kernel)⟩

end

end DiskCache

end Dnet
