import Dnet.Lib.Loop
import Mathlib.Data.List.Dedup
import Mathlib.Data.List.DropRight
import Mathlib.Data.List.Infix

/-!
# A file system

A finite partial function from locations, lists of names from the root, to nodes: directories,
files and symbolic links. Walking a path follows the links on its way, up to a bound, and arrives
at a directory or at an entry of one, which may be missing.

Every operation that changes something records where (`touched`). The operations are those of
`std::fs`; that the process may do what it asks for, and that no other process interferes
within an operation, is assumed.
-/

namespace Dnet.Lib

open List Function

/-! ## Nodes, paths and file systems -/

inductive PathStep (ν : Type) where
  | stay
  | up
  | down (name : ν)
  deriving DecidableEq, Repr

structure RawPath (ν : Type) where
  absolute : Bool
  steps : List (PathStep ν)
  deriving DecidableEq, Repr

inductive FileNode (ν : Type) where
  | dir
  | file (bytes : List UInt8)
  | link (target : RawPath ν)
  deriving DecidableEq, Repr

inductive FsError where
  | notFound
  | notDirectory
  | isDirectory
  | alreadyExists
  | tooManyLinks
  | invalidInput
  deriving DecidableEq, Repr

/-- The root `[]` is a directory that has no node of its own. `locs` lists every location that
has a node, and perhaps others. -/
structure Fs (ν : Type) where
  node : List ν → Option (FileNode ν)
  locs : List (List ν)
  covers : ∀ l, node l ≠ none → l ∈ locs
  touched : List (List ν)

def Fs.empty {ν : Type} : Fs ν := ⟨fun _ => none, [], fun _ h => absurd rfl h, []⟩

/-- Where a path leads: to a directory, or to an entry of an existing directory. -/
inductive Reached (ν : Type) where
  | here (l : List ν)
  | entry (l : List ν)
  deriving DecidableEq, Repr

/-- The number of links the operating system follows before it gives up. -/
def maxLinks : Nat := 40

namespace Fs

variable {ν : Type}

section

variable [DecidableEq ν]

section

variable (fs : Fs ν)

def put (l : List ν) (n : FileNode ν) : Fs ν where
  node := Function.update fs.node l (some n)
  locs := l :: fs.locs
  covers := by
    intro x hx
    by_cases h : x = l
    · exact h ▸ mem_cons_self
    · rw [update_of_ne h] at hx
      exact mem_cons_of_mem l (fs.covers x hx)
  touched := l :: fs.touched

/-- Delete `l` and everything below it. -/
def removeTree (l : List ν) : Fs ν where
  node := fun x => if l <+: x then none else fs.node x
  locs := fs.locs
  covers := by
    intro x hx
    split at hx
    · exact absurd rfl hx
    · exact fs.covers x hx
  touched := fs.locs.filter (l <+: ·) ++ fs.touched

/-- `fs::remove_file`, its failure ignored: a directory stays. -/
def removeFile (l : List ν) : Fs ν :=
  match fs.node l with
  | none | some .dir => fs
  | some (.file _) | some (.link _) => fs.removeTree l

/-- Move the node `n` of `a`, which is no directory, to `b`. -/
def moveNode (a b : List ν) (n : FileNode ν) : Fs ν where
  node := Function.update (Function.update fs.node a none) b (some n)
  locs := b :: fs.locs
  covers := by
    intro x hx
    by_cases hb : x = b
    · exact hb ▸ mem_cons_self
    · rw [update_of_ne hb] at hx
      by_cases ha : x = a
      · rw [ha, update_self] at hx
        exact absurd rfl hx
      · rw [update_of_ne ha] at hx
        exact mem_cons_of_mem b (fs.covers x hx)
  touched := a :: b :: fs.touched

/-- Move the directory `a` and everything below it to `b`. -/
def move (a b : List ν) : Fs ν where
  node := fun x =>
    if b <+: x then fs.node (a ++ x.drop b.length)
    else if a <+: x then none
    else fs.node x
  locs := fs.locs.map (fun x => b ++ x.drop a.length) ++ fs.locs
  covers := by
    intro x hx
    split at hx
    · next h =>
      obtain ⟨r, rfl⟩ := h
      rw [drop_left] at hx
      refine mem_append_left _ (mem_map.mpr ⟨a ++ r, fs.covers _ hx, ?_⟩)
      rw [drop_left]
    · split at hx
      · exact absurd rfl hx
      · exact mem_append_right _ (fs.covers x hx)
  touched := a :: b :: fs.touched

/-- Everything outside `dir` becomes what it is in `others`. -/
def replaceOutside (dir : List ν) (others : Fs ν) : Fs ν where
  node := fun x => if dir <+: x then fs.node x else others.node x
  locs := fs.locs ++ others.locs
  covers := by
    intro x hx
    split at hx
    · exact mem_append_left _ (fs.covers x hx)
    · exact mem_append_right _ (others.covers x hx)
  touched := fs.touched

end

end

/-! ## Walking a path -/

/-- Walk `steps` from the directory `cur`; `link` says how a link is followed. A link at the
very end is followed only on demand. -/
def walkWith (fs : Fs ν) (follow : Bool)
    (link : List ν → RawPath ν → List (PathStep ν) → Except FsError (Reached ν)) :
    List ν → List (PathStep ν) → Except FsError (Reached ν)
  | cur, [] => .ok (.here cur)
  | cur, .stay :: ss => walkWith fs follow link cur ss
  | cur, .up :: ss => walkWith fs follow link cur.dropLast ss
  | cur, .down n :: ss =>
    match fs.node (cur ++ [n]) with
    | some .dir => walkWith fs follow link (cur ++ [n]) ss
    | some (.link t) =>
      if ss.isEmpty && !follow then .ok (.entry (cur ++ [n])) else link cur t ss
    | some (.file _) => if ss.isEmpty then .ok (.entry (cur ++ [n])) else .error .notDirectory
    | none => if ss.isEmpty then .ok (.entry (cur ++ [n])) else .error .notFound

def walk (fs : Fs ν) (follow : Bool) :
    Nat → List ν → List (PathStep ν) → Except FsError (Reached ν)
  | 0 => walkWith fs follow fun _ _ _ => .error .tooManyLinks
  | k + 1 => walkWith fs follow fun cur t ss =>
    walk fs follow k (if t.absolute then [] else cur) (t.steps ++ ss)

/-- The place of `base.join(path)`. -/
def resolve (fs : Fs ν) (follow : Bool) (base : List ν) (path : RawPath ν) :
    Except FsError (Reached ν) :=
  walk fs follow maxLinks (if path.absolute then [] else base) path.steps

/-! ## Operations -/

section

variable [DecidableEq ν]

/-- `fs::write`: create or truncate, and fill. -/
def write (fs : Fs ν) (base : List ν) (path : RawPath ν) (bytes : List UInt8) :
    Except FsError (Fs ν) :=
  match fs.resolve true base path with
  | .ok (.entry l) => .ok (fs.put l (.file bytes))
  | .ok (.here _) => .error .isDirectory
  | .error e => .error e

end

/-- `fs::read`. -/
def read (fs : Fs ν) (base : List ν) (path : RawPath ν) : Except FsError (List UInt8) :=
  match fs.resolve true base path with
  | .ok (.entry l) =>
    match fs.node l with
    | some (.file bytes) => .ok bytes
    | _ => .error .notFound
  | .ok (.here _) => .error .isDirectory
  | .error e => .error e

/-- `fs::symlink_metadata`: the node, a link at the end not followed. -/
def symlinkMetadata (fs : Fs ν) (base : List ν) (path : RawPath ν) : Except FsError (FileNode ν) :=
  match fs.resolve false base path with
  | .ok (.here _) => .ok .dir
  | .ok (.entry l) =>
    match fs.node l with
    | some n => .ok n
    | none => .error .notFound
  | .error e => .error e

/-- `Path::is_dir`. -/
def isDir (fs : Fs ν) (base : List ν) (path : RawPath ν) : Bool :=
  match fs.resolve true base path with
  | .ok (.here _) => true
  | _ => false

/-- `Path::is_file`. -/
def isFile (fs : Fs ν) (base : List ν) (path : RawPath ν) : Bool :=
  match fs.resolve true base path with
  | .ok (.entry l) =>
    match fs.node l with
    | some (.file _) => true
    | _ => false
  | _ => false

/-- `Path::exists`. -/
def exists? (fs : Fs ν) (base : List ν) (path : RawPath ν) : Bool :=
  match fs.resolve true base path with
  | .ok (.here _) => true
  | .ok (.entry l) => (fs.node l).isSome
  | .error _ => false

section

variable [DecidableEq ν]

/-- `fs::create_dir`. -/
def createDir (fs : Fs ν) (base : List ν) (path : RawPath ν) : Except FsError (Fs ν) :=
  match fs.resolve false base path with
  | .ok (.here _) => .error .alreadyExists
  | .ok (.entry l) => if (fs.node l).isSome then .error .alreadyExists else .ok (fs.put l .dir)
  | .error e => .error e

/-- `Path::parent`: without the last component; dots and separators at the end do not count. -/
def parent (path : RawPath ν) : RawPath ν :=
  { path with
    steps := (path.steps.rdropWhile (· = .stay)).dropLast.rdropWhile (· = .stay) }

/-- The end of `create_dir_all`: a directory that is there already will do. -/
def createLast (base : List ν) (fs : Fs ν) (path : RawPath ν) : Except FsError Unit × Fs ν :=
  match fs.createDir base path with
  | .ok fs' => (.ok (), fs')
  | .error e => if fs.isDir base path then (.ok (), fs) else (.error e, fs)

/-- `fs::create_dir_all`, with the number of ancestors it may have to make. -/
def createDirAllFrom (base : List ν) : Nat → Fs ν → RawPath ν → Except FsError Unit × Fs ν
  | 0, fs, path => createLast base fs path
  | k + 1, fs, path =>
    match fs.createDir base path with
    | .error .notFound =>
      match createDirAllFrom base k fs (parent path) with
      | (.ok (), fs) => createLast base fs path
      | (.error e, fs) => (.error e, fs)
    | _ => createLast base fs path

def createDirAll (fs : Fs ν) (base : List ν) (path : RawPath ν) : Except FsError Unit × Fs ν :=
  createDirAllFrom base path.steps.length fs path

/-- `fs::read_dir`: the names of the entries of a directory. -/
def readDir (fs : Fs ν) (l : List ν) : List ν :=
  (fs.locs.filterMap fun x =>
    if x.dropLast = l ∧ fs.node x ≠ none then x.getLast? else none).dedup

/-- What a recursive listing of `dir` finds that is not a directory, relative to `dir`. Links
are not followed. -/
def collectFrom (fs : Fs ν) : Nat → List ν → List (List ν)
  | 0, _ => []
  | k + 1, dir => (fs.readDir dir).flatMap fun n =>
    if fs.node (dir ++ [n]) = some .dir then (collectFrom fs k (dir ++ [n])).map (n :: ·)
    else [[n]]

/-- No node is deeper. -/
def depth (fs : Fs ν) : Nat := (fs.locs.map List.length).foldr max 0

def collectFiles (fs : Fs ν) (dir : List ν) : List (List ν) := fs.collectFrom fs.depth dir

/-- `fs::rename`: a directory may replace an empty directory, anything else may replace
anything but a directory. -/
def rename (fs : Fs ν) (a b : List ν) : Except FsError (Fs ν) :=
  match fs.node a, fs.node b with
  | none, _ => .error .notFound
  | some .dir, none => .ok (fs.move a b)
  | some .dir, some .dir =>
    if (fs.readDir b).isEmpty then .ok (fs.move a b) else .error .alreadyExists
  | some .dir, some _ => .error .notDirectory
  | some _, some .dir => .error .isDirectory
  | some n, _ => .ok (fs.moveNode a b n)

end

/-! ## Files do not change where a path leads -/

/-- The same directories and the same links. -/
def SameShape (fs fs' : Fs ν) : Prop :=
  ∀ l, (fs.node l = some .dir ↔ fs'.node l = some .dir) ∧
    ∀ t, fs.node l = some (.link t) ↔ fs'.node l = some (.link t)

theorem SameShape.refl (fs : Fs ν) : SameShape fs fs := fun _ => ⟨Iff.rfl, fun _ => Iff.rfl⟩

theorem SameShape.trans {fs1 fs2 fs3 : Fs ν} (h : SameShape fs1 fs2) (h' : SameShape fs2 fs3) :
    SameShape fs1 fs3 := fun l =>
  ⟨(h l).1.trans (h' l).1, fun t => ((h l).2 t).trans ((h' l).2 t)⟩

/-- The entry is missing or a file. -/
def IsLeaf (fs : Fs ν) (l : List ν) : Prop :=
  fs.node l ≠ some .dir ∧ ∀ t, fs.node l ≠ some (.link t)

/-- A walk that arrives, step by step; `k` links may be followed. -/
inductive Leads (fs : Fs ν) (follow : Bool) : Nat → List ν → List (PathStep ν) → Reached ν → Prop
  | here {k cur} : Leads fs follow k cur [] (.here cur)
  | stay {k cur ss r} : Leads fs follow k cur ss r → Leads fs follow k cur (.stay :: ss) r
  | up {k cur ss r} : Leads fs follow k cur.dropLast ss r → Leads fs follow k cur (.up :: ss) r
  | dir {k cur n ss r} : fs.node (cur ++ [n]) = some .dir → Leads fs follow k (cur ++ [n]) ss r →
      Leads fs follow k cur (.down n :: ss) r
  | leaf {k cur n} : IsLeaf fs (cur ++ [n]) → Leads fs follow k cur [.down n] (.entry (cur ++ [n]))
  | link {k cur n t} : fs.node (cur ++ [n]) = some (.link t) → follow = false →
      Leads fs follow k cur [.down n] (.entry (cur ++ [n]))
  | through {k cur n t ss r} : fs.node (cur ++ [n]) = some (.link t) →
      (ss.isEmpty && !follow) = false →
      Leads fs follow k (if t.absolute then [] else cur) (t.steps ++ ss) r →
      Leads fs follow (k + 1) cur (.down n :: ss) r

/-- How the links are followed when `k` of them may be. -/
def linkStep (fs : Fs ν) (follow : Bool) : Nat → List ν → RawPath ν → List (PathStep ν) →
    Except FsError (Reached ν)
  | 0, _, _, _ => .error .tooManyLinks
  | k + 1, cur, t, ss => walk fs follow k (if t.absolute then [] else cur) (t.steps ++ ss)

theorem walk_eq (fs : Fs ν) (follow : Bool) (k : Nat) :
    walk fs follow k = walkWith fs follow (linkStep fs follow k) := by
  cases k <;> rfl

section

variable {fs fs' : Fs ν} {l cur base names : List ν} {follow : Bool}
  {link : List ν → RawPath ν → List (PathStep ν) → Except FsError (Reached ν)} {n : ν}
  {ss : List (PathStep ν)} {r : Reached ν} {k : Nat} {bytes : List UInt8}

theorem sameShape_put_file [DecidableEq ν] (h : IsLeaf fs l) (bytes : List UInt8) :
    SameShape fs (fs.put l (.file bytes)) := by
  intro x
  by_cases hx : x = l
  · subst hx
    simp only [put, update_self, Option.some.injEq, reduceCtorEq, iff_false]
    exact h
  · simp [put, update_of_ne hx]

theorem walkWith_dir (h : fs.node (cur ++ [n]) = some .dir) :
    walkWith fs follow link cur (.down n :: ss) = walkWith fs follow link (cur ++ [n]) ss := by
  simp [walkWith, h]

theorem walkWith_link {t : RawPath ν} (h : fs.node (cur ++ [n]) = some (.link t)) :
    walkWith fs follow link cur (.down n :: ss) =
      if ss.isEmpty && !follow then .ok (.entry (cur ++ [n])) else link cur t ss := by
  simp [walkWith, h]

theorem leads_of_walk (k : Nat) (h : walk fs follow k cur ss = .ok r) :
    Leads fs follow k cur ss r := by
  -- on the links that may be followed, and then on the steps
  induction k generalizing cur ss with
  | zero | succ k ihk =>
    rw [walk_eq] at h
    induction ss generalizing cur with
    | nil =>
      cases h
      exact .here
    | cons s ss ih =>
      cases s with
      | stay => exact .stay (ih h)
      | up => exact .up (ih h)
      | down n =>
        rcases hn : fs.node (cur ++ [n]) with _ | (_ | bytes | t)
        pick_goal 2
        · rw [walkWith_dir hn] at h
          exact .dir hn (ih h)
        pick_goal 3
        · rw [walkWith_link hn] at h
          split at h
          · next hend =>
            obtain ⟨hss, hfollow⟩ := Bool.and_eq_true_iff.mp hend
            rw [isEmpty_iff.mp hss]
            cases h
            exact .link hn (by simpa using hfollow)
          · next hend =>
            first
            | cases h
            | exact .through hn (Bool.eq_false_iff.mpr hend) (ihk h)
        -- nothing or a file, which ends the walk
        all_goals
          cases ss with
          | nil =>
            simp only [walkWith, hn, isEmpty_nil, if_true] at h
            cases h
            exact .leaf ⟨by simp [hn], by simp [hn]⟩
          | cons s ss => simp [walkWith, hn] at h

theorem Leads.walk_eq_ok (h : Leads fs follow k cur ss r) : walk fs follow k cur ss = .ok r := by
  induction h with
  | here => rw [walk_eq]; rfl
  | stay _ ih => rwa [walk_eq] at ih ⊢
  | up _ ih => rwa [walk_eq] at ih ⊢
  | dir hn _ ih => rwa [walk_eq, walkWith_dir hn, ← walk_eq]
  | @leaf k cur n hn =>
    rw [walk_eq]
    rcases hnode : fs.node (cur ++ [n]) with _ | (_ | bytes | t)
    · simp [walkWith, hnode]
    · exact absurd hnode hn.1
    · simp [walkWith, hnode]
    · exact absurd hnode (hn.2 t)
  | link hn hfollow => simp [walk_eq, walkWith_link hn, hfollow]
  | through hn hend _ ih => rwa [walk_eq, walkWith_link hn, hend]

theorem IsLeaf.of_sameShape (h : SameShape fs fs') (hl : IsLeaf fs l) : IsLeaf fs' l :=
  ⟨fun hd => hl.1 ((h l).1.mpr hd), fun t ht => hl.2 t (((h l).2 t).mpr ht)⟩

theorem Leads.of_sameShape (h : SameShape fs fs') (hl : Leads fs follow k cur ss r) :
    Leads fs' follow k cur ss r := by
  induction hl with
  | here => exact .here
  | stay _ ih => exact .stay ih
  | up _ ih => exact .up ih
  | dir hn _ ih => exact .dir ((h _).1.mp hn) ih
  | leaf hn => exact .leaf (hn.of_sameShape h)
  | link hn hfollow => exact .link (((h _).2 _).mp hn) hfollow
  | through hn hend _ ih => exact .through (((h _).2 _).mp hn) hend ih

theorem resolve_of_sameShape (h : SameShape fs fs') (follow : Bool) (base : List ν)
    (path : RawPath ν) :
    (fs.resolve follow base path).toOption = (fs'.resolve follow base path).toOption := by
  have hsymm : SameShape fs' fs := fun l => ⟨(h l).1.symm, fun t => ((h l).2 t).symm⟩
  unfold resolve
  cases hr : walk fs follow maxLinks (if path.absolute then [] else base) path.steps with
  | ok r => rw [((leads_of_walk _ hr).of_sameShape h).walk_eq_ok]
  | error e =>
    cases hr' : walk fs' follow maxLinks (if path.absolute then [] else base) path.steps with
    | ok r => rw [((leads_of_walk _ hr').of_sameShape hsymm).walk_eq_ok] at hr; cases hr
    | error e' => rfl

/-- No new directories and no new links. -/
def NoNewWays (fs fs' : Fs ν) : Prop :=
  ∀ l, (fs'.node l = some .dir → fs.node l = some .dir) ∧
    ∀ t, fs'.node l = some (.link t) → fs.node l = some (.link t)

theorem NoNewWays.refl (fs : Fs ν) : NoNewWays fs fs := fun _ => ⟨id, fun _ => id⟩

theorem NoNewWays.trans {fs1 fs2 fs3 : Fs ν} (h : NoNewWays fs1 fs2) (h' : NoNewWays fs2 fs3) :
    NoNewWays fs1 fs3 := fun l =>
  ⟨fun hd => (h l).1 ((h' l).1 hd), fun t ht => (h l).2 t ((h' l).2 t ht)⟩

/-- A path to a directory led there before. -/
theorem walk_of_noNewWays (h : NoNewWays fs fs') {d : List ν}
    (hw : walk fs' follow k cur ss = .ok (.here d)) : walk fs follow k cur ss = .ok (.here d) := by
  refine Leads.walk_eq_ok ?_
  have hl := leads_of_walk k hw
  clear hw
  generalize hr : Reached.here d = r at hl ⊢
  induction hl with
  | here => exact .here
  | stay _ ih => exact .stay (ih hr)
  | up _ ih => exact .up (ih hr)
  | dir hn _ ih => exact .dir ((h _).1 hn) (ih hr)
  | leaf _ | link _ _ => cases hr
  | through hn hend _ ih => exact .through ((h _).2 _ hn) hend (ih hr)

/-! ## What stands at the end of a path -/

/-- A directory is entered, it is not where a path ends, and a link only if it is not followed. -/
theorem entry_of_walk (h : walk fs follow k cur ss = .ok (.entry l)) :
    IsLeaf fs l ∨ follow = false ∧ ∃ t, fs.node l = some (.link t) := by
  have hl := leads_of_walk k h
  clear h
  generalize hr : Reached.entry l = r at hl
  induction hl with
  | here => cases hr
  | stay _ ih | up _ ih | dir _ _ ih | through _ _ _ ih => exact ih hr
  | leaf hn =>
    cases hr
    exact .inl hn
  | link hn hfollow =>
    cases hr
    exact .inr ⟨hfollow, _, hn⟩

/-- `symlink_metadata` reports a directory for the paths that lead to one. -/
theorem symlinkMetadata_eq_dir {path : RawPath ν} (h : fs.symlinkMetadata base path = .ok .dir) :
    ∃ d, fs.resolve false base path = .ok (.here d) := by
  unfold symlinkMetadata at h
  split at h
  · next d hd => exact ⟨d, hd⟩
  · next l hl =>
    split at h
    · next n hn =>
      cases h
      rcases entry_of_walk hl with hleaf | ⟨-, t, ht⟩
      · exact absurd hn hleaf.1
      · rw [hn] at ht
        cases ht
    · cases h
  · cases h

/-- Without following a last link, a path ends at the same entry or at that link. -/
def EndsAt (fs : Fs ν) (l : List ν) (r : Except FsError (Reached ν)) : Prop :=
  ∃ l', r = .ok (.entry l') ∧ (l' = l ∨ ∃ t, fs.node l' = some (.link t))

theorem walk_nofollow (h : walk fs true k cur ss = .ok (.entry l)) :
    EndsAt fs l (walk fs false k cur ss) := by
  suffices hends : ∃ l', Leads fs false k cur ss (.entry l') ∧
      (l' = l ∨ ∃ t, fs.node l' = some (.link t)) by
    obtain ⟨l', hl', hend⟩ := hends
    exact ⟨l', hl'.walk_eq_ok, hend⟩
  have hl := leads_of_walk k h
  clear h
  generalize hr : Reached.entry l = r at hl
  induction hl with
  | here => cases hr
  | stay _ ih => exact (ih hr).imp fun _ => And.imp_left .stay
  | up _ ih => exact (ih hr).imp fun _ => And.imp_left .up
  | dir hn _ ih => exact (ih hr).imp fun _ => And.imp_left (.dir hn)
  | leaf hn =>
    cases hr
    exact ⟨_, .leaf hn, .inl rfl⟩
  | link _ hfollow => cases hfollow
  | @through k cur n t ss r hn _ _ ih =>
    cases hss : ss.isEmpty with
    | true =>
      rw [isEmpty_iff.mp hss]
      exact ⟨_, .link hn rfl, .inr ⟨t, hn⟩⟩
    | false => exact (ih hr).imp fun _ => And.imp_left (.through hn (by rw [hss]; rfl))

/-! ## Paths that only go down -/

/-- The path through the names of a location. -/
def downs (names : List ν) : RawPath ν := ⟨false, names.map .down⟩

/-- Every directory on the way from `base` to `base ++ names` is there. -/
def DirsTo (fs : Fs ν) (base names : List ν) : Prop :=
  ∀ q, q ≠ [] → q <+: names → fs.node (base ++ q) = some .dir

theorem dirsTo_nil : DirsTo fs base [] := fun _ hne hq => absurd (prefix_nil.mp hq) hne

theorem dirsTo_cons : DirsTo fs base (n :: names) ↔
    fs.node (base ++ [n]) = some .dir ∧ DirsTo fs (base ++ [n]) names := by
  refine ⟨fun h => ⟨h [n] (cons_ne_nil n []) (cons_prefix_cons.mpr ⟨rfl, nil_prefix⟩), ?_⟩, ?_⟩
  · intro q _ hq
    rw [append_assoc]
    exact h (n :: q) (cons_ne_nil n q) (cons_prefix_cons.mpr ⟨rfl, hq⟩)
  · rintro ⟨hn, h⟩ q hne hq
    obtain ⟨q, rfl, hq'⟩ := (prefix_cons_iff.mp hq).resolve_left hne
    rcases eq_or_ne q [] with rfl | hne'
    · exact hn
    · simpa using h q hne' hq'

theorem walkWith_downs : ∀ {base names : List ν}, DirsTo fs base names →
      walkWith fs follow link base (names.map .down ++ ss) =
        walkWith fs follow link (base ++ names) ss
  | base, [], _ => by rw [append_nil]; rfl
  | base, n :: names, h => by
    obtain ⟨hn, h⟩ := dirsTo_cons.mp h
    rw [map_cons, cons_append, walkWith_dir hn, walkWith_downs h, append_assoc, singleton_append]

theorem resolve_downs_dir (h : DirsTo fs base names) :
    fs.resolve follow base (downs names) = .ok (.here (base ++ names)) := by
  show walk fs follow maxLinks base (names.map .down) = _
  rw [walk_eq, ← append_nil (names.map _), walkWith_downs h]
  rfl

theorem resolve_downs_leaf (h : DirsTo fs base names) (hn : IsLeaf fs (base ++ names ++ [n])) :
    fs.resolve follow base (downs (names ++ [n])) = .ok (.entry (base ++ names ++ [n])) := by
  show walk fs follow maxLinks base ((names ++ [n]).map .down) = _
  rw [walk_eq, map_append, walkWith_downs h, ← walk_eq]
  exact (Leads.leaf hn).walk_eq_ok

theorem resolve_name_dir (h : fs.node (base ++ [n]) = some .dir) :
    fs.resolve follow base (downs [n]) = .ok (.here (base ++ [n])) :=
  resolve_downs_dir (dirsTo_cons.mpr ⟨h, dirsTo_nil⟩)

theorem resolve_name_leaf (h : IsLeaf fs (base ++ [n])) :
    fs.resolve follow base (downs [n]) = .ok (.entry (base ++ [n])) := by
  have hres : fs.resolve follow base (downs ([] ++ [n])) = .ok (.entry (base ++ [] ++ [n])) :=
    resolve_downs_leaf dirsTo_nil (by rwa [append_nil])
  rwa [append_nil] at hres

theorem isLeaf_of_file (h : fs.node l = some (.file bytes)) : IsLeaf fs l := by
  rw [IsLeaf, h]
  exact ⟨nofun, fun _ => nofun⟩

theorem isLeaf_of_none (h : fs.node l = none) : IsLeaf fs l := by
  rw [IsLeaf, h]
  exact ⟨nofun, fun _ => nofun⟩

/-- Every node on the way down is a directory or missing. -/
def Clear (fs : Fs ν) (base names : List ν) : Prop :=
  ∀ q, q ≠ [] → q <+: names → fs.node (base ++ q) = none ∨ fs.node (base ++ q) = some .dir

theorem Clear.tail (h : Clear fs base (n :: names)) : Clear fs (base ++ [n]) names := by
  intro q _ hq
  rw [append_assoc]
  exact h (n :: q) (cons_ne_nil n q) (cons_prefix_cons.mpr ⟨rfl, hq⟩)

theorem walkWith_missing :
    ∀ {base names : List ν}, names ≠ [] → Clear fs base names → fs.node (base ++ names) = none →
      walkWith fs follow link base ((names ++ [n]).map .down) = .error .notFound
  | base, a :: names, _, h, hnone => by
    rcases h [a] (cons_ne_nil a []) (cons_prefix_cons.mpr ⟨rfl, nil_prefix⟩)
      with ha | ha
    · simp [walkWith, ha]
    · rw [cons_append, map_cons, walkWith_dir ha]
      have hne : names ≠ [] := by
        rintro rfl
        rw [ha] at hnone
        cases hnone
      refine walkWith_missing hne h.tail ?_
      rw [append_assoc]
      exact hnone

/-- Below `base`, whatever has a node stands in a directory. -/
def ClosedBelow (fs : Fs ν) (base : List ν) : Prop :=
  ∀ q n, fs.node (base ++ q ++ [n]) ≠ none → q = [] ∨ fs.node (base ++ q) = some .dir

theorem ClosedBelow.dirsTo (h : ClosedBelow fs base) :
    ∀ {names : List ν}, names = [] ∨ fs.node (base ++ names) = some .dir →
      DirsTo fs base names := by
  intro names
  induction names using List.reverseRecOn with
  | nil => exact fun _ => dirsTo_nil
  | append_singleton names n ih =>
    intro hnames q hne hq
    have hlast := hnames.resolve_left (append_ne_nil_of_right_ne_nil _ (cons_ne_nil n []))
    rcases prefix_concat_iff.mp hq with rfl | hq
    · exact hlast
    · refine ih (h names n ?_) q hne hq
      rw [append_assoc, hlast]
      exact Option.some_ne_none _

/-- A file on the way ends a walk: at its end, or with an error. -/
theorem resolve_downs_file {q rest : List ν} (h : DirsTo fs base q)
    (hn : fs.node (base ++ q ++ [n]) = some (.file bytes)) :
    fs.resolve follow base (downs (q ++ n :: rest)) =
      if rest.isEmpty then .ok (.entry (base ++ q ++ [n])) else .error .notDirectory := by
  show walk fs follow maxLinks base ((q ++ n :: rest).map .down) = _
  rw [walk_eq, map_append, walkWith_downs h, map_cons]
  simp only [walkWith, hn, isEmpty_map]

theorem length_le_depth (h : fs.node l ≠ none) : l.length ≤ fs.depth := by
  have hmem : l.length ∈ fs.locs.map List.length := mem_map_of_mem (fs.covers l h)
  unfold depth
  generalize fs.locs.map List.length = lengths at hmem
  induction lengths with
  | nil => exact absurd hmem not_mem_nil
  | cons a lengths ih =>
    rcases mem_cons.mp hmem with heq | hmem
    · rw [foldr_cons, heq]
      exact le_max_left _ _
    · rw [foldr_cons]
      exact (ih hmem).trans (le_max_right _ _)

/-- `r` leads from `dir` through directories to something else. -/
structure Leaf (fs : Fs ν) (dir r : List ν) : Prop where
  nonempty : r ≠ []
  dirs : DirsTo fs dir r.dropLast
  there : fs.node (dir ++ r) ≠ none
  notDir : fs.node (dir ++ r) ≠ some .dir

theorem leaf_cons {dir r : List ν} : Leaf fs dir (n :: r) ↔
      (r = [] ∧ fs.node (dir ++ [n]) ≠ none ∧ fs.node (dir ++ [n]) ≠ some .dir) ∨
      (fs.node (dir ++ [n]) = some .dir ∧ Leaf fs (dir ++ [n]) r) := by
  cases r with
  | nil =>
    refine ⟨fun h => .inl ⟨rfl, h.there, h.notDir⟩, ?_⟩
    rintro (⟨-, hthere, hdir⟩ | ⟨-, h⟩)
    · exact ⟨cons_ne_nil n [], dirsTo_nil, hthere, hdir⟩
    · exact absurd rfl h.nonempty
  | cons m r =>
    have hassoc : dir ++ n :: m :: r = dir ++ [n] ++ m :: r := by rw [append_assoc]; rfl
    constructor
    · intro h
      obtain ⟨hn, hdirs⟩ := dirsTo_cons.mp h.dirs
      exact .inr ⟨hn, cons_ne_nil m r, hdirs, hassoc ▸ h.there, hassoc ▸ h.notDir⟩
    · rintro (⟨hnil, -⟩ | ⟨hn, h⟩)
      · cases hnil
      · exact ⟨cons_ne_nil n _, dirsTo_cons.mpr ⟨hn, h.dirs⟩, hassoc ▸ h.there, hassoc ▸ h.notDir⟩

/-- `fs'` is `fs` with the directories on the way to `base ++ names` made. -/
structure MadeDirs (fs fs' : Fs ν) (base names : List ν) : Prop where
  made : DirsTo fs' base names
  frame : ∀ x, (∀ q, q ≠ [] → q <+: names → x ≠ base ++ q) → fs'.node x = fs.node x

/-- What stood on the way stands there still. -/
theorem MadeDirs.node_cases (h : MadeDirs fs fs' base names) (hclear : Clear fs base names)
    (x : List ν) : fs'.node x = fs.node x ∨ (fs.node x = none ∧ fs'.node x = some .dir) := by
  by_cases hx : ∃ q, q ≠ [] ∧ q <+: names ∧ x = base ++ q
  · obtain ⟨q, hne, hq, rfl⟩ := hx
    rw [h.made q hne hq]
    rcases hclear q hne hq with hnone | hdir
    · exact .inr ⟨hnone, rfl⟩
    · exact .inl hdir.symm
  · exact .inl (h.frame x fun q hne hq heq => hx ⟨q, hne, hq, heq⟩)

end

variable [DecidableEq ν]

theorem parent_downs (names : List ν) (n : ν) : parent (downs (names ++ [n])) = downs names := by
  simp [parent, downs]

section

variable {fs : Fs ν} {base names : List ν} {n : ν} {bytes : List UInt8}

theorem createDir_downs (h : DirsTo fs base names) (hn : fs.node (base ++ (names ++ [n])) = none) :
    fs.createDir base (downs (names ++ [n])) = .ok (fs.put (base ++ (names ++ [n])) .dir) := by
  have hleaf : IsLeaf fs (base ++ names ++ [n]) := isLeaf_of_none (by rwa [append_assoc])
  unfold createDir
  rw [resolve_downs_leaf h hleaf, append_assoc]
  simp [hn]

theorem MadeDirs.put_dir {fs' : Fs ν} (h : MadeDirs fs fs' base names) :
    MadeDirs fs (fs'.put (base ++ (names ++ [n])) .dir) base (names ++ [n]) where
  made := by
    intro q hne hq
    by_cases heq : q = names ++ [n]
    · rw [heq]
      exact update_self ..
    · have hlt := (prefix_concat_iff.mp hq).resolve_left heq
      refine (update_of_ne ?_ _ _).trans (h.made q hne hlt)
      exact fun hq => heq (append_cancel_left hq)
  frame := by
    intro x hx
    have hne : x ≠ base ++ (names ++ [n]) :=
      hx _ (append_ne_nil_of_right_ne_nil _ (cons_ne_nil n [])) (prefix_refl _)
    refine (update_of_ne hne _ _).trans (h.frame x fun q hq hqn => hx q hq ?_)
    exact hqn.trans (prefix_append names [n])

theorem createLast_downs (h : DirsTo fs base names) :
    createLast base fs (downs names) = (.ok (), fs) := by
  simp [createLast, createDir, isDir, resolve_downs_dir h]

theorem createDirAll_there (h : DirsTo fs base names) (k : Nat) :
    createDirAllFrom base k fs (downs names) = (.ok (), fs) := by
  cases k with
  | zero => exact createLast_downs h
  | succ k =>
    have hcreate : fs.createDir base (downs names) = .error .alreadyExists := by
      simp [createDir, resolve_downs_dir h]
    simp [createDirAllFrom, hcreate, createLast_downs h]

theorem createDirAll_last (h : DirsTo fs base names) (hn : fs.node (base ++ (names ++ [n])) = none)
    (k : Nat) : createDirAllFrom base (k + 1) fs (downs (names ++ [n])) =
      (.ok (), fs.put (base ++ (names ++ [n])) .dir) := by
  simp [createDirAllFrom, createLast, createDir_downs h hn]

/-- `create_dir_all` makes the missing directories on its way and nothing else. -/
theorem createDirAll_downs (hclosed : ClosedBelow fs base) {k : Nat} (hk : names.length ≤ k)
    (hclear : Clear fs base names) :
    ∃ fs', createDirAllFrom base k fs (downs names) = (.ok (), fs') ∧
      MadeDirs fs fs' base names := by
  induction names using List.reverseRecOn generalizing k with
  | nil =>
    exact ⟨fs, createDirAll_there dirsTo_nil k, dirsTo_nil, fun _ _ => rfl⟩
  | append_singleton names n ih =>
    have hne : names ++ [n] ≠ [] := append_ne_nil_of_right_ne_nil _ (cons_ne_nil n [])
    rw [length_append, length_singleton] at hk
    obtain ⟨k, rfl⟩ : ∃ j, k = j + 1 := ⟨k - 1, by omega⟩
    rcases hclear _ hne (prefix_refl _) with hnone | hdir
    · have hclear' : Clear fs base names := fun q hq hqn =>
        hclear q hq (hqn.trans (prefix_append names [n]))
      by_cases hpar : names = [] ∨ fs.node (base ++ names) = some .dir
      · have hdirs := hclosed.dirsTo hpar
        exact ⟨_, createDirAll_last hdirs hnone k, MadeDirs.put_dir ⟨hdirs, fun _ _ => rfl⟩⟩
      · rw [not_or] at hpar
        have hmissing := (hclear' names hpar.1 (prefix_refl _)).resolve_right hpar.2
        have herror : fs.createDir base (downs (names ++ [n])) = .error .notFound := by
          have hwalk : fs.resolve false base (downs (names ++ [n])) = .error .notFound := by
            show walk fs false maxLinks base ((names ++ [n]).map .down) = _
            rw [walk_eq, walkWith_missing hpar.1 hclear' hmissing]
          unfold createDir
          rw [hwalk]
        obtain ⟨fs1, hfs1, hmade⟩ := ih (k := k) (by omega) hclear'
        have hnone1 : fs1.node (base ++ (names ++ [n])) = none := by
          refine (hmade.frame _ fun q _ hq heq => ?_).trans hnone
          have hlen := hq.length_le
          rw [← append_cancel_left heq, length_append, length_singleton] at hlen
          omega
        refine ⟨fs1.put (base ++ (names ++ [n])) .dir, ?_, hmade.put_dir⟩
        simp [createDirAllFrom, herror, parent_downs, hfs1, createLast,
          createDir_downs hmade.made hnone1]
    · have hdirs := hclosed.dirsTo (.inr hdir)
      exact ⟨fs, createDirAll_there hdirs _, hdirs, fun _ _ => rfl⟩

/-- `create_dir_all` fails when a file is in its way, and changes nothing. -/
theorem createDirAll_blocked {k : Nat} {q rest : List ν} (h : DirsTo fs base q)
    (hn : fs.node (base ++ q ++ [n]) = some (.file bytes)) :
    ∃ e, createDirAllFrom base k fs (downs (q ++ n :: rest)) = (.error e, fs) := by
  have hdir : fs.isDir base (downs (q ++ n :: rest)) = false := by
    unfold isDir
    rw [resolve_downs_file h hn]
    cases rest <;> rfl
  obtain ⟨e, he, hne⟩ : ∃ e, fs.createDir base (downs (q ++ n :: rest)) = .error e ∧
      e ≠ .notFound := by
    unfold createDir
    rw [resolve_downs_file h hn]
    cases rest with
    | nil =>
      refine ⟨.alreadyExists, ?_, nofun⟩
      simp only [isEmpty_nil, if_true, hn, Option.isSome_some]
    | cons m rest => exact ⟨.notDirectory, rfl, nofun⟩
  have hlast : createLast base fs (downs (q ++ n :: rest)) = (.error e, fs) := by
    simp [createLast, he, hdir]
  refine ⟨e, ?_⟩
  cases k with
  | zero => exact hlast
  | succ k =>
    rw [← hlast]
    cases e <;> first | exact absurd rfl hne | simp [createDirAllFrom, he]

theorem rename_file {a b : List ν} (h : fs.node a = some (.file bytes)) : fs.rename a b =
      if fs.node b = some .dir then .error .isDirectory
      else .ok (fs.moveNode a b (.file bytes)) := by
  rcases hb : fs.node b with _ | (_ | bytes' | t) <;> simp [rename, h, hb]

/-- A file is replaced by writing another one next to it and renaming that. -/
theorem write_rename {dir : List ν} {tmp name : ν} (htmp : IsLeaf fs (dir ++ [tmp]))
    (hname : IsLeaf fs (dir ++ [name])) (hne : name ≠ tmp) (bytes : List UInt8) :
    ∃ staged done, fs.write dir (downs [tmp]) bytes = .ok staged ∧
      staged.rename (dir ++ [tmp]) (dir ++ [name]) = .ok done ∧
      done.node = Function.update (Function.update fs.node (dir ++ [tmp]) none)
        (dir ++ [name]) (some (.file bytes)) := by
  have hloc : dir ++ [name] ≠ dir ++ [tmp] := fun heq =>
    hne (singleton_injective (append_cancel_left heq))
  have hstaged : (fs.put (dir ++ [tmp]) (.file bytes)).node (dir ++ [tmp]) = some (.file bytes) :=
    update_self ..
  have htarget : (fs.put (dir ++ [tmp]) (.file bytes)).node (dir ++ [name]) ≠ some .dir := by
    show Function.update fs.node _ _ _ ≠ _
    rw [update_of_ne hloc]
    exact hname.1
  refine ⟨fs.put (dir ++ [tmp]) (.file bytes), _, ?_, by rw [rename_file hstaged, if_neg htarget], ?_⟩
  · rw [write, resolve_name_leaf htmp]
  · simp only [moveNode, put, update_idem]

/-! ## Listings -/

theorem mem_readDir {l : List ν} : n ∈ fs.readDir l ↔ fs.node (l ++ [n]) ≠ none := by
  unfold readDir
  rw [mem_dedup, mem_filterMap]
  constructor
  · rintro ⟨x, -, hx⟩
    split at hx
    · next h =>
      rw [← h.1, dropLast_append_getLast?]
      · exact h.2
      · exact hx
    · cases hx
  · intro h
    refine ⟨l ++ [n], fs.covers _ h, ?_⟩
    rw [if_pos ⟨dropLast_concat, h⟩, List.getLast?_concat]

theorem mem_collectFrom : ∀ {k : Nat} {dir r : List ν},
    fs.depth ≤ dir.length + k → (r ∈ fs.collectFrom k dir ↔ Leaf fs dir r)
  | 0, dir, r, hk => by
    refine ⟨fun h => absurd h not_mem_nil, fun h => ?_⟩
    have := length_le_depth h.there
    have := length_pos_iff.mpr h.nonempty
    rw [length_append] at *
    omega
  | k + 1, dir, r, hk => by
    have ih : ∀ n r, r ∈ fs.collectFrom k (dir ++ [n]) ↔ Leaf fs (dir ++ [n]) r := fun n r =>
      mem_collectFrom (by rw [length_append, length_singleton]; omega)
    unfold collectFrom
    rw [mem_flatMap]
    cases r with
    | nil =>
      refine ⟨?_, fun h => absurd rfl h.nonempty⟩
      rintro ⟨n, -, hn⟩
      split at hn
      · obtain ⟨_, -, hr⟩ := mem_map.mp hn
        cases hr
      · simp at hn
    | cons m r =>
      rw [leaf_cons]
      constructor
      · rintro ⟨n, hmem, hn⟩
        split at hn
        · next hdir =>
          obtain ⟨r', hr', heq⟩ := mem_map.mp hn
          obtain ⟨rfl, rfl⟩ := List.cons.inj heq
          exact .inr ⟨hdir, (ih n r').mp hr'⟩
        · next hdir =>
          obtain ⟨rfl, rfl⟩ := List.cons.inj (mem_singleton.mp hn)
          exact .inl ⟨rfl, mem_readDir.mp hmem, hdir⟩
      · rintro (⟨rfl, hthere, hdir⟩ | ⟨hdir, hr⟩)
        · exact ⟨m, mem_readDir.mpr hthere, by rw [if_neg hdir]; exact mem_singleton_self _⟩
        · refine ⟨m, mem_readDir.mpr (by rw [hdir]; exact Option.some_ne_none _), ?_⟩
          rw [if_pos hdir]
          exact mem_map_of_mem ((ih m r).mpr hr)

theorem nodup_readDir (fs : Fs ν) (l : List ν) : (fs.readDir l).Nodup := nodup_dedup _

theorem nodup_collectFrom (fs : Fs ν) : ∀ (k : Nat) (dir : List ν), (fs.collectFrom k dir).Nodup
  | 0, _ => nodup_nil
  | k + 1, dir => by
    unfold collectFrom
    refine nodup_flatMap.mpr ⟨fun n _ => ?_, ?_⟩
    · split
      · exact (nodup_collectFrom fs k (dir ++ [n])).map (cons_injective)
      · exact nodup_singleton _
    · -- what lies below different entries starts with different names
      refine (nodup_readDir fs dir).imp fun {n m} hne => ?_
      have hhead : ∀ n r, (r ∈ if fs.node (dir ++ [n]) = some .dir
          then (fs.collectFrom k (dir ++ [n])).map (n :: ·) else [[n]]) → r.head? = some n := by
        intro n r hr
        split at hr
        · obtain ⟨r', -, rfl⟩ := mem_map.mp hr
          rfl
        · rw [mem_singleton.mp hr]
          rfl
      intro r hr hr'
      exact hne (Option.some.inj ((hhead n r hr).symm.trans (hhead m r hr')))

end

end Fs

end Dnet.Lib
