import Dnet.Cas.Faithful
import Dnet.Lib.Codec

/-!
# The key of a tree

`add_tree` hashes the sorted list of the paths and bytes of the files, each after its length, so
the key determines the list (`treeBytes_inj`). But a backslash in a name becomes a separator
before, and the tree that is published is not the one that was given (`backslash_moved`). Without
backslashes the key identifies the files of a directory, and they are published exactly if nothing
or the same tree is at the path (`addTree_identifies`): whatever else is there stays.
-/

namespace Dnet

open Lib List Command Fs

namespace Store

/-- The lengths fit into the eight bytes they are written in. -/
def Fits (contents : Contents) : Prop :=
  ∀ e ∈ contents, (utf8 e.1).length < 256 ^ 8 ∧ e.2.length < 256 ^ 8

theorem treeBytes_cons (e : String × List UInt8) (rest : Contents) :
    treeBytes (e :: rest) = leBytes 8 (utf8 e.1).length ++
      (utf8 e.1 ++ (leBytes 8 e.2.length ++ (e.2 ++ treeBytes rest))) := by
  simp [treeBytes]

theorem treeBytes_inj : ∀ {a b : Contents}, Fits a → Fits b → treeBytes a = treeBytes b → a = b
  | [], [], _, _, _ => rfl
  | [], _ :: _, _, _, heq | _ :: _, [], _, _, heq => by
    have hlen := congrArg length heq
    simp [treeBytes] at hlen <;> omega
  | e :: a, e' :: b, ha, hb, heq => by
    obtain ⟨⟨hrel, hdata⟩, ha⟩ := forall_mem_cons.mp ha
    obtain ⟨⟨hrel', hdata'⟩, hb⟩ := forall_mem_cons.mp hb
    rw [treeBytes_cons, treeBytes_cons] at heq
    obtain ⟨hpath, heq⟩ := lengthPrefixed_inj hrel hrel' heq
    obtain ⟨hbytes, heq⟩ := lengthPrefixed_inj hdata hdata' heq
    rw [Prod.ext (utf8_injective hpath) hbytes, treeBytes_inj ha hb heq]

/-! ## Directories and what is made of them -/

/-- A directory of regular files and directories whose names are text. The files, by their
relative paths, are a finite map: a list that is sorted by distinct paths. -/
structure HasMap (fs : Fs OsName) (base : List OsName) (dir : RawPath OsName)
    (files : Contents) : Prop where
  holds : ∃ l, fs.resolve true base dir = .ok (.here l) ∧ Holds fs l files
  sorted : files.Pairwise fun a b => a.1 < b.1
  clean : ∀ e ∈ files, cleanRel e.1 = true

/-- A successful call of `add_tree` on a directory. The staging name is unique, so nothing is
there yet. -/
structure Addition (h : Host) (name : String) where
  (w w' : World)
  base : List OsName
  dir : RawPath OsName
  files : Contents
  path : StorePath
  map : HasMap w.fs base dir files
  unused : ∀ r, w.fs.node (h.root ++ [utf8 (treeStaging h w.nonce)] ++ r) = none
  run : addTree h name base dir w = (.ok path, w')

namespace Addition

variable {h : Host} {name : String}

/-- There is no backslash in the paths, and lengths fit. -/
def Plain (a : Addition h name) : Prop := (∀ e ∈ a.files, '\\' ∉ e.1.toList) ∧ Fits a.files

/-- The directory is in the store, in the state `fs`. -/
def Stored (a : Addition h name) (fs : Fs OsName) : Prop :=
  HasMap fs h.root (downs [fileName a.path]) a.files

theorem spec (a : Addition h name) (ha : a.Plain) :
    StorePath.new (hashContents h a.files) name = .ok a.path ∧
      ((a.w.fs.node (locate h a.path) ≠ none ∧ ∀ x, a.w'.fs.node x = a.w.fs.node x) ∨
        (a.w.fs.node (locate h a.path) = none ∧ Holds a.w'.fs (locate h a.path) a.files)) := by
  obtain ⟨l, hdir, hholds⟩ := a.map.holds
  have hcontents : treeContents h a.w.fs a.base a.dir = .ok a.files :=
    treeContents_of_holds hholds ⟨a.map.sorted, a.map.clean, ha.1⟩ hdir
  obtain ⟨hpath, hkept | ⟨hnone, hpublished, -, -⟩⟩ := addTree_spec a.run hcontents a.map.clean
    (pairwise_map.mpr (a.map.sorted.imp ne_of_lt)) a.unused
  · exact ⟨hpath, .inl hkept⟩
  · exact ⟨hpath, .inr ⟨hnone, hpublished⟩⟩

theorem Stored.of_node_eq {a : Addition h name} {fs fs' : Fs OsName} (hs : a.Stored fs)
    (hsame : ∀ x, fs'.node x = fs.node x) : a.Stored fs' := by
  obtain ⟨l, hl, hholds⟩ := hs.holds
  have hshape : SameShape fs fs' := fun x => by rw [hsame]; exact ⟨Iff.rfl, fun _ => Iff.rfl⟩
  have hl' : fs'.resolve true h.root (downs [fileName a.path]) = .ok (.here l) :=
    ok_of_toOption (by rw [← resolve_of_sameShape hshape, hl]; rfl)
  exact ⟨⟨l, hl', hholds.of_node_eq fun r => hsame _⟩, hs.sorted, hs.clean⟩

theorem stored_iff (a : Addition h name) (ha : a.Plain) :
    a.Stored a.w'.fs ↔ a.w.fs.node (locate h a.path) = none ∨ a.Stored a.w.fs := by
  obtain ⟨-, ⟨hsome, hsame⟩ | ⟨hnone, hholds⟩⟩ := a.spec ha
  · constructor
    · exact fun hs => .inr (hs.of_node_eq fun x => (hsame x).symm)
    · exact fun hs => (hs.resolve_left hsome).of_node_eq hsame
  · refine iff_of_true ?_ (.inl hnone)
    exact ⟨⟨_, resolve_name_dir hholds.isDir, hholds⟩, a.map.sorted, a.map.clean⟩

end Addition

/-- Without backslashes, two directories get one path under a name exactly if they have the same
files, and the tree at the path has them exactly if before the call nothing was there, or the
same tree. -/
theorem addTree_identifies {h : Host} {name : String} (a b : Addition h name) (ha : a.Plain)
    (hb : b.Plain) (hinj : Set.InjOn h.blake3 {treeBytes a.files, treeBytes b.files}) :
    (a.path = b.path ↔ a.files = b.files) ∧
      (a.Stored a.w'.fs ↔ a.w.fs.node (locate h a.path) = none ∨ a.Stored a.w.fs) := by
  have hnew := (a.spec ha).1
  have hnew' := (b.spec hb).1
  refine ⟨⟨fun heq => ?_, fun heq => ?_⟩, a.stored_iff ha⟩
  · refine treeBytes_inj ha.2 hb.2 (hinj (by simp) (by simp) ?_)
    show hashContents h a.files = hashContents h b.files
    rw [(StorePath.new_eq_ok.mp hnew).1, (StorePath.new_eq_ok.mp hnew').1, heq]
  · rw [heq] at hnew
    exact Except.ok.inj (hnew.symm.trans hnew')

/-! ## Directories in a store with other files -/

/-- A file that no insertion made stands in the store. -/
def junkWorld : World :=
  { smallWorld with fs := smallWorld.fs.put [utf8 "store", utf8 "junk"] (.file [1]) }

/-- How a directory `/t` with these files is made. -/
def makeDir (files : Contents) : Command World StoreError Unit :=
  stageTree { smallHost with root := [] } (utf8 "t") files

section

variable {files : Contents} (hclean : ∀ e ∈ files, cleanRel e.1 = true)
  (hsorted : files.Pairwise fun a b => a.1 < b.1)
  (hmake : (makeDir files junkWorld).1.toOption = some ())
include hclean hsorted hmake

theorem makeDir_holds : Holds (makeDir files junkWorld).2.fs [utf8 "t"] files ∧
    SameOutside [[utf8 "t"]] junkWorld.fs (makeDir files junkWorld).2.fs := by
  have hfree : ∀ r, junkWorld.fs.node ([] ++ [utf8 "t"] ++ r) = none := fun r => by
    have ht : utf8 "t" ≠ utf8 "store" ∧ utf8 "t" ≠ utf8 "d" := by decide +kernel
    simp [junkWorld, smallWorld, put, Function.update, ht]
  exact stageTree_holds (Prod.ext (ok_of_toOption hmake) rfl) hfree hclean
    (pairwise_map.mpr (hsorted.imp ne_of_lt))

theorem makeDir_unused (nonce : Nat) (r : List OsName) : (makeDir files junkWorld).2.fs.node
    (smallHost.root ++ [utf8 (treeStaging smallHost nonce)] ++ r) = none := by
  have hjunk : utf8 (treeStaging smallHost nonce) ≠ utf8 "junk" := fun heq => by
    have hhead := treeStaging_head (h := smallHost) nonce
    rw [utf8_injective heq] at hhead
    cases hhead
  refine ((makeDir_holds hclean hsorted hmake).2.node_eq fun hpre => ?_).trans ?_
  · exact absurd (cons_prefix_cons.mp hpre).1 (by decide +kernel)
  · generalize utf8 (treeStaging smallHost nonce) = staging at hjunk
    simp [junkWorld, smallWorld, smallHost, put, Function.update, hjunk]

theorem makeDir_hasMap : HasMap (makeDir files junkWorld).2.fs [] (downs [utf8 "t"]) files := by
  have hmade := (makeDir_holds hclean hsorted hmake).1
  exact ⟨⟨_, resolve_name_dir hmade.isDir, hmade⟩, hsorted, hclean⟩

end

/-- `add_tree` once the files are read. -/
def addContents (h : Host) (name : String) (contents : Contents) :
    Command World StoreError StorePath := do
  let path ← .ask fun _ => StorePath.new (hashContents h contents) name
  if ← targetExists h path then return path
  else
    let staging ← uniqueStaging h ".tmp-tree"
    stageTree h staging contents
    publish h staging path
    return path

/-- `add_tree` on that directory. -/
def addition (files contents : Contents) (p : StorePath)
    (hclean : ∀ e ∈ files, cleanRel e.1 = true) (hsorted : files.Pairwise fun a b => a.1 < b.1)
    (hmake : (makeDir files junkWorld).1.toOption = some ())
    (hread : treeContents smallHost (makeDir files junkWorld).2.fs [] (downs [utf8 "t"]) =
      .ok contents)
    (hp : (addContents smallHost "x" contents (makeDir files junkWorld).2).1.toOption = some p) :
    Addition smallHost "x" where
  w := (makeDir files junkWorld).2
  w' := (addContents smallHost "x" contents (makeDir files junkWorld).2).2
  base := []
  dir := downs [utf8 "t"]
  files := files
  path := p
  map := makeDir_hasMap hclean hsorted hmake
  unused := makeDir_unused hclean hsorted hmake _
  run := (ask_bind_ok (f := fun w : World => treeContents smallHost w.fs [] (downs [utf8 "t"]))
    hread).trans (Prod.ext (ok_of_toOption hp) rfl)

theorem read_plain {files : Contents} (hclean : ∀ e ∈ files, cleanRel e.1 = true)
    (hsorted : files.Pairwise fun a b => a.1 < b.1)
    (hmake : (makeDir files junkWorld).1.toOption = some ())
    (hback : ∀ e ∈ files, '\\' ∉ e.1.toList) :
    treeContents smallHost (makeDir files junkWorld).2.fs [] (downs [utf8 "t"]) = .ok files := by
  have hmade := (makeDir_holds hclean hsorted hmake).1
  exact treeContents_of_holds hmade ⟨hsorted, hclean, hback⟩ (resolve_name_dir hmade.isDir)

/-- The directory with the file `a` and, in `s`, the file `b`. -/
def nestedFiles : Addition smallHost "x" :=
  addition [("a", [7]), ("s/b", [8, 9])] [("a", [7]), ("s/b", [8, 9])]
    { treePath with hash := smallHost.blake3 (treeBytes [("a", [7]), ("s/b", [8, 9])]) }
    (by decide +kernel) (by decide +kernel) (by decide +kernel)
    (read_plain (by decide +kernel) (by decide +kernel) (by decide +kernel) (by decide +kernel))
    (by decide +kernel)

def oneFile : Addition smallHost "x" :=
  addition [("a", [7])] [("a", [7])]
    { treePath with hash := smallHost.blake3 (treeBytes [("a", [7])]) }
    (by decide +kernel) (by decide +kernel) (by decide +kernel)
    (read_plain (by decide +kernel) (by decide +kernel) (by decide +kernel) (by decide +kernel))
    (by decide +kernel)

/-- The files of a directory and of its subdirectory are published next to the other file. -/
theorem nestedFiles_stored :
    nestedFiles.path ≠ oneFile.path ∧ nestedFiles.Stored nestedFiles.w'.fs := by
  have hplain : nestedFiles.Plain ∧ oneFile.Plain := by
    refine ⟨⟨by decide +kernel, ?_⟩, ⟨by decide +kernel, ?_⟩⟩ <;>
      simp only [Fits] <;> decide +kernel
  have hne : smallHost.blake3 (treeBytes nestedFiles.files) ≠
      smallHost.blake3 (treeBytes oneFile.files) := by decide +kernel
  obtain ⟨hpath, hstored⟩ := addTree_identifies nestedFiles oneFile hplain.1 hplain.2 (by
    rintro _ (rfl | rfl) _ (rfl | rfl) heq
    · rfl
    · exact absurd heq hne
    · exact absurd heq.symm hne
    · rfl)
  exact ⟨fun heq => absurd (hpath.mp heq) (by decide +kernel),
    hstored.mpr (.inl (by decide +kernel))⟩

def backslashFile : Addition smallHost "x" :=
  addition [("a\\b", [7])] [("a/b", [7])]
    { treePath with hash := smallHost.blake3 (treeBytes [("a/b", [7])]) }
    (by decide +kernel) (by decide +kernel) (by decide +kernel)
    (ok_of_toOption (by decide +kernel)) (by decide +kernel)

/-- The file `a\b` is published as `b` in a directory `a`, although nothing was at the path. -/
theorem backslash_moved : backslashFile.w.fs.node (locate smallHost backslashFile.path) = none ∧
    ¬ backslashFile.Stored backslashFile.w'.fs := by
  refine ⟨by decide +kernel, fun hstored => ?_⟩
  obtain ⟨l, hl, hholds⟩ := hstored.holds
  rw [resolve_name_dir (by decide +kernel)] at hl
  cases hl
  have hfile := (hholds.files _ [7]).mpr ⟨"a\\b", mem_cons_self, rfl⟩
  revert hfile
  decide +kernel

end Store

end Dnet
