import Dnet.Cas.Store
import Mathlib.Data.Set.List

/-!
# What the store keeps

A run of the store is a sequence of successful insertions, between which anything may happen
outside of its root. The store is faithful if a blob is read back and verified, a tree is
verified and reported as a tree, and the listing gives what was published (`Faithful`).

Blobs and trees share one key space, so a blob that is the encoding of a tree and that tree
exclude each other (`emptyTree_not_faithful`). And a backslash in the path of a file becomes a
separator: two files can have one path, and a path can leave the staging directory. In a run that
avoids both, the store is faithful (`Run.faithful`).
-/

namespace Dnet

open Option (some_ne_none)
open Lib List Function Command Fs

namespace Store

/-! ## Names and relative paths -/

theorem fileName_injective : Function.Injective fileName :=
  utf8_injective.comp StorePath.display_injective

theorem display_head (p : StorePath) :
    ∃ n < 16, p.display.toList.head? = some (StorePath.hexDigit n) := by
  obtain ⟨⟨bytes, hlen⟩, name, hname⟩ := p
  obtain ⟨b, bytes, rfl⟩ := exists_cons_of_length_eq_add_one hlen
  have := b.toNat_lt
  refine ⟨b.toNat / 16, by omega, ?_⟩
  simp [StorePath.display, StorePath.hexByte]

theorem display_ne_dot (p : StorePath) (s : String) (hs : s.toList.head? = some '.') :
    p.display ≠ s := by
  obtain ⟨n, hn, hhead⟩ := display_head p
  rintro rfl
  rw [hs] at hhead
  have hdigit : ∀ n < 16, StorePath.hexDigit n ≠ '.' := by decide
  exact hdigit n hn (Option.some.inj hhead).symm

/-- Every part of a relative path is the name of an entry. -/
def cleanRel (rel : String) : Bool :=
  (rel.toList.splitOn '/').all fun part => isPlainName (String.ofList part)

/-- The names on the way of a relative path. -/
def namesOf (rel : String) : List OsName :=
  (rel.toList.splitOn '/').map fun part => utf8 (String.ofList part)

theorem namesOf_ne_nil (rel : String) : namesOf rel ≠ [] :=
  fun hnil => splitOn_ne_nil _ _ (map_eq_nil_iff.mp hnil)

theorem exists_namesOf (rel : String) : ∃ q n, namesOf rel = q ++ [n] := by
  obtain ⟨q, n, hqn⟩ := (eq_nil_or_concat _).resolve_left (namesOf_ne_nil rel)
  exact ⟨q, n, hqn.trans (concat_eq_append ..)⟩

theorem intercalate_utf8 : ∀ parts : List (List Char),
    [0x2F].intercalate (parts.map fun part => utf8 (String.ofList part)) =
      utf8 (String.ofList (['/'].intercalate parts))
  | [] => rfl
  | [part] => by simp [intercalate_singleton]
  | part :: part' :: parts => by
    have ih := intercalate_utf8 (part' :: parts)
    have hslash : utf8 (String.ofList ['/']) = [0x2F] := by decide +kernel
    rw [map_cons] at ih
    rw [map_cons, map_cons, intercalate_cons_cons, intercalate_cons_cons, ih,
      String.ofList_append, String.ofList_append, utf8_append, utf8_append, hslash]

theorem intercalate_namesOf (rel : String) : [0x2F].intercalate (namesOf rel) = utf8 rel := by
  rw [namesOf, intercalate_utf8, intercalate_splitOn, String.ofList_toList]

theorem namesOf_injective : Function.Injective namesOf := by
  intro rel rel' h
  apply utf8_injective
  rw [← intercalate_namesOf, h, intercalate_namesOf]

section

variable (h : Host)

theorem relPath_namesOf {rel : String} (hrel : '\\' ∉ rel.toList) :
    relPath h (namesOf rel) = rel := by
  have hmap : rel.toList.map (fun c => if c = '\\' then '/' else c) = rel.toList := by
    have hkeep : ∀ c ∈ rel.toList, (if c = '\\' then '/' else c) = c := by
      intro c hc
      refine if_neg ?_
      rintro rfl
      exact hrel hc
    rw [map_congr_left hkeep, map_id']
  rw [relPath, intercalate_namesOf, h.lossy_utf8, hmap, String.ofList_toList]

theorem not_mem_relPath (names : List OsName) : '\\' ∉ (relPath h names).toList := by
  rw [relPath, String.toList_ofList, mem_map]
  rintro ⟨c, -, hc⟩
  split at hc
  · exact absurd hc (by decide)
  · next hne => exact hne hc

end

section

variable {rel : String} {fs : Fs OsName} {l q : List OsName} {contents : Contents}
  {data : List UInt8} {fs' : Fs OsName}

theorem osPath_of_cleanRel (hrel : cleanRel rel = true) {dst : RawPath OsName}
    (hdst : osPath rel = .ok dst) : dst = downs (namesOf rel) := by
  unfold osPath at hdst
  split at hdst
  · cases hdst
  · cases hdst
    have hparts : ∀ part ∈ rel.toList.splitOn '/', Plain (String.ofList part) := fun part hpart =>
      isPlainName_iff.mp (all_eq_true.mp hrel part hpart)
    have hsteps : (rel.toList.splitOn '/').map stepOf = (namesOf rel).map .down := by
      rw [namesOf, map_map]
      refine map_congr_left fun part hpart => ?_
      have hplain := hparts part hpart
      unfold stepOf
      split
      · exact absurd rfl hplain.nonempty
      · exact absurd rfl hplain.notDot
      · exact absurd rfl hplain.notDotDot
      · rfl
    have hhead : rel.toList.head? ≠ some '/' := by
      -- a leading separator would leave an empty first part
      intro hslash
      obtain ⟨cs, hcs⟩ := List.head?_eq_some_iff.mp hslash
      have hempty : [] ∈ rel.toList.splitOn '/' := by
        rw [hcs, List.splitOn, splitOnP_cons_eq_if_modifyHead]
        simp
      exact (hparts [] hempty).nonempty rfl
    simp [downs, hsteps, hhead]

/-! ## Files below a directory -/

/-- Below the directory `l` there are directories and these files. -/
structure Holds (fs : Fs OsName) (l : List OsName) (contents : Contents) : Prop where
  isDir : fs.node l = some .dir
  closed : fs.ClosedBelow l
  noLink : ∀ r t, fs.node (l ++ r) ≠ some (.link t)
  files : ∀ r data, fs.node (l ++ r) = some (.file data) ↔
    ∃ rel, (rel, data) ∈ contents ∧ r = namesOf rel

section

variable (h : Holds fs l contents)
include h

theorem Holds.of_node_eq {l' : List OsName}
    (heq : ∀ r, fs'.node (l' ++ r) = fs.node (l ++ r)) : Holds fs' l' contents where
  isDir := by simpa [h.isDir] using heq []
  closed := by
    intro q n hn
    rw [append_assoc, heq, ← append_assoc] at hn
    rw [heq]
    exact h.closed q n hn
  noLink := fun r t => by
    rw [heq]
    exact h.noLink r t
  files := fun r data => by
    rw [heq]
    exact h.files r data

/-- What stands in the way of a path below the directory is a file. -/
theorem Holds.blocked (hclear : ¬ fs.Clear l q) :
    ∃ q' n rest bytes, q = q' ++ n :: rest ∧ fs.DirsTo l q' ∧
      fs.node (l ++ q' ++ [n]) = some (.file bytes) := by
  unfold Fs.Clear at hclear
  push Not at hclear
  obtain ⟨p, hne, ⟨rest, rfl⟩, hnone, hdir⟩ := hclear
  obtain ⟨q', n, rfl⟩ := (eq_nil_or_concat p).resolve_left hne
  rw [concat_eq_append] at hnone hdir ⊢
  have hnode : ∃ bytes, fs.node (l ++ (q' ++ [n])) = some (.file bytes) := by
    rcases hn : fs.node (l ++ (q' ++ [n])) with _ | (_ | bytes | t)
    · exact absurd hn hnone
    · exact absurd hn hdir
    · exact ⟨bytes, rfl⟩
    · exact absurd hn (h.noLink _ t)
  obtain ⟨bytes, hnode⟩ := hnode
  refine ⟨q', n, rest, bytes, by rw [append_assoc]; rfl, ?_, by rwa [append_assoc]⟩
  refine h.closed.dirsTo (h.closed q' n ?_)
  rw [append_assoc]
  exact hnone

theorem Holds.madeDirs (hclear : fs.Clear l q)
    (hmade : fs.MadeDirs fs' l q) : Holds fs' l contents where
  isDir := by
    rcases hmade.node_cases hclear l with heq | ⟨hnone, hdir⟩
    · rw [heq, h.isDir]
    · exact hdir
  closed := by
    intro r n hn
    by_cases hr : r = []
    · exact .inl hr
    right
    rcases hmade.node_cases hclear (l ++ r) with heq | ⟨-, hdir⟩
    · -- the parent is as it was, so the entry has not been made either
      rw [heq]
      by_cases hmem : r ++ [n] <+: q
      · rw [← heq]
        exact hmade.made r hr ((prefix_append r [n]).trans hmem)
      · refine (h.closed r n ?_).resolve_left hr
        have hframe : ∀ q', q' ≠ [] → q' <+: q → l ++ (r ++ [n]) ≠ l ++ q' := by
          intro q' _ hq' heq'
          exact hmem (by rwa [append_cancel_left heq'])
        rw [append_assoc] at hn ⊢
        rwa [hmade.frame _ hframe] at hn
    · exact hdir
  noLink := by
    intro r t hlink
    rcases hmade.node_cases hclear (l ++ r) with heq | ⟨-, hdir⟩
    · exact h.noLink r t (heq ▸ hlink)
    · rw [hdir] at hlink
      cases hlink
  files := by
    intro r data
    rcases hmade.node_cases hclear (l ++ r) with heq | ⟨hnone, hdir⟩
    · rw [heq]
      exact h.files r data
    · rw [← h.files, hnone, hdir]
      exact ⟨nofun, nofun⟩

theorem Holds.put_file {n : OsName}
    (hq : fs.DirsTo l q) (hrel : namesOf rel = q ++ [n]) (hleaf : fs.IsLeaf (l ++ (q ++ [n])))
    (hnew : rel ∉ contents.map Prod.fst) :
    Holds (fs.put (l ++ (q ++ [n])) (.file data)) l (contents ++ [(rel, data)]) where
  isDir := by
    refine (update_of_ne (fun heq => ?_) _ _).trans h.isDir
    simp at heq
  closed := by
    intro r m hm
    by_cases hr : r = []
    · exact .inl hr
    right
    by_cases heq : r ++ [m] = q ++ [n]
    · obtain ⟨rfl, -⟩ := append_inj' heq rfl
      refine (update_of_ne (fun heq => ?_) _ _).trans (hq r hr (prefix_refl r))
      simpa using append_cancel_left heq
    · have hm' : fs.node (l ++ r ++ [m]) ≠ none := by
        rw [append_assoc] at hm ⊢
        have hne : l ++ (r ++ [m]) ≠ l ++ (q ++ [n]) := fun h => heq (append_cancel_left h)
        exact (update_of_ne hne (some (.file data)) fs.node) ▸ hm
      have hdir := (h.closed r m hm').resolve_left hr
      refine (update_of_ne (fun hloc => ?_) _ _).trans hdir
      exact hleaf.1 (hloc ▸ hdir)
  noLink := by
    intro r t
    show Function.update fs.node _ _ (l ++ r) ≠ _
    by_cases heq : l ++ r = l ++ (q ++ [n])
    · rw [heq, update_self]
      nofun
    · rw [update_of_ne heq]
      exact h.noLink r t
  files := by
    intro r d
    show Function.update fs.node _ _ (l ++ r) = _ ↔ _
    by_cases heq : r = q ++ [n]
    · rw [heq, update_self]
      constructor
      · intro hd
        cases hd
        exact ⟨rel, mem_append_right _ mem_cons_self, hrel.symm⟩
      · rintro ⟨rel', hmem, hnames⟩
        obtain rfl := namesOf_injective (hnames.symm.trans hrel.symm)
        rcases mem_append.mp hmem with hmem | hmem
        · exact absurd (mem_map_of_mem hmem) hnew
        · cases mem_singleton.mp hmem
          rfl
    · rw [update_of_ne fun hloc => heq (append_cancel_left hloc), h.files]
      refine exists_congr fun rel' => and_congr_left fun hnames => ?_
      rw [mem_append, mem_singleton]
      refine ⟨.inl, fun hmem => hmem.resolve_right fun heq' => ?_⟩
      cases heq'
      exact heq (hnames.trans hrel)

end

/-! ## Staging -/

/-- Outside of these locations nothing has changed. -/
def SameOutside (locs : List (List OsName)) (fs fs' : Fs OsName) : Prop :=
  ∀ x, (∀ l ∈ locs, ¬ l <+: x) → fs'.node x = fs.node x

theorem SameOutside.node_eq {l x : List OsName} (h : SameOutside [l] fs fs') (hx : ¬l <+: x) :
    fs'.node x = fs.node x := h x (by simpa using hx)

/-- One staged file adds itself, and nothing outside of the staging directory. -/
theorem stageFile_holds {w w' : World}
    (hrun : stageFile l rel data w = (.ok (), w')) (h : Holds w.fs l contents)
    (hrel : cleanRel rel = true) (hnew : rel ∉ contents.map Prod.fst) :
    Holds w'.fs l (contents ++ [(rel, data)]) ∧ SameOutside [l] w.fs w'.fs := by
  unfold stageFile at hrun
  cases hdst : osPath rel with
  | error e => simp [hdst] at hrun
  | ok dst =>
    obtain rfl := osPath_of_cleanRel hrel hdst
    obtain ⟨q, n, hqn⟩ := exists_namesOf rel
    rw [hdst, hqn] at hrun
    dsimp only at hrun
    rw [parent_downs] at hrun
    by_cases hclear : w.fs.Clear l q
    · obtain ⟨fs1, hcreate, hmade⟩ : ∃ fs1, w.fs.createDirAll l (downs q) = (.ok (), fs1) ∧ _ :=
        createDirAll_downs h.closed (length_map _).ge hclear
      rw [hcreate] at hrun
      dsimp only at hrun
      have hholds := h.madeDirs hclear hmade
      have hleaf : fs1.IsLeaf (l ++ (q ++ [n])) := by
        refine ⟨fun hdir => ?_, hholds.noLink (q ++ [n])⟩
        -- a directory in the place of the file would make the write fail
        have hdirs := hholds.closed.dirsTo (.inr hdir)
        simp [write, resolve_downs_dir hdirs] at hrun
      have hwrite : fs1.write l (downs (q ++ [n])) data =
          .ok (fs1.put (l ++ (q ++ [n])) (.file data)) := by
        rw [write, Fs.resolve_downs_leaf hmade.made (by rwa [append_assoc]), append_assoc]
      rw [hwrite] at hrun
      obtain ⟨-, rfl⟩ := Prod.mk.inj hrun
      refine ⟨hholds.put_file hmade.made hqn hleaf hnew, fun x hx => ?_⟩
      have hout : ∀ r, x ≠ l ++ r := fun r hr =>
        hx l (mem_singleton_self l) ⟨r, hr.symm⟩
      refine (update_of_ne (hout _) _ _).trans ?_
      exact hmade.frame x fun r _ _ => hout r
    · obtain ⟨q', m, rest, bytes, rfl, hdirs, hfile⟩ := h.blocked hclear
      obtain ⟨e, hcreate⟩ : ∃ e, w.fs.createDirAll l (downs (q' ++ m :: rest)) = (.error e, w.fs) :=
        createDirAll_blocked hdirs hfile
      rw [hcreate] at hrun
      simp at hrun

theorem stageFiles_holds : ∀ {rest contents : Contents} {w w' : World},
    stageFiles l rest w = (.ok (), w') → Holds w.fs l contents →
      (∀ e ∈ rest, cleanRel e.1 = true) → ((contents ++ rest).map Prod.fst).Nodup →
      Holds w'.fs l (contents ++ rest) ∧ SameOutside [l] w.fs w'.fs
  | [], contents, w, w', hrun, h, _, _ => by
    obtain ⟨-, rfl⟩ := pure_eq_ok.mp hrun
    rw [append_nil]
    exact ⟨h, fun _ _ => rfl⟩
  | (rel, data) :: rest, contents, w, w', hrun, h, hclean, hnodup => by
    obtain ⟨_, w₁, hfile, hrest⟩ := bind_eq_ok.mp hrun
    have hnew : rel ∉ contents.map Prod.fst := by
      rw [map_append, nodup_append] at hnodup
      exact fun hmem => hnodup.2.2 rel hmem rel mem_cons_self rfl
    obtain ⟨h₁, hout1⟩ := stageFile_holds hfile h (hclean _ mem_cons_self) hnew
    have hassoc : contents ++ (rel, data) :: rest = contents ++ [(rel, data)] ++ rest := by
      rw [append_assoc, singleton_append]
    rw [hassoc] at hnodup ⊢
    obtain ⟨h₂, hout2⟩ := stageFiles_holds hrest h₁
      (fun e he => hclean e (mem_cons_of_mem _ he)) hnodup
    exact ⟨h₂, fun x hx => (hout2 x hx).trans (hout1 x hx)⟩

theorem holds_nil (hfree : ∀ r, fs.node (l ++ r) = none) : Holds (fs.put l .dir) l [] := by
  have hself : (fs.put l .dir).node l = some .dir := update_self ..
  have hbelow : ∀ r, r ≠ [] → (fs.put l .dir).node (l ++ r) = none := by
    intro r hr
    refine (update_of_ne (fun heq => hr ?_) _ _).trans (hfree r)
    exact append_right_eq_self.mp heq
  refine ⟨hself, fun q n hn => ?_, fun r t => ?_, fun r data => ?_⟩
  · rw [append_assoc] at hn
    exact absurd (hbelow _ (append_ne_nil_of_right_ne_nil _ (cons_ne_nil n []))) hn
  · rcases eq_or_ne r [] with rfl | hr
    · rw [append_nil, hself]
      nofun
    · rw [hbelow r hr]
      nofun
  · rcases eq_or_ne r [] with rfl | hr
    · rw [append_nil, hself]
      simp
    · rw [hbelow r hr]
      simp

theorem stageTree_holds {h : Host} {staging : OsName} {w w' : World}
    (hrun : stageTree h staging contents w = (.ok (), w'))
    (hfree : ∀ r, w.fs.node (h.root ++ [staging] ++ r) = none)
    (hclean : ∀ e ∈ contents, cleanRel e.1 = true) (hnodup : (contents.map Prod.fst).Nodup) :
    Holds w'.fs (h.root ++ [staging]) contents ∧ SameOutside [h.root ++ [staging]] w.fs w'.fs := by
  have hnone : w.fs.node (h.root ++ ([] ++ [staging])) = none := by
    have := hfree []
    rwa [append_nil] at this
  have hmkdir : makeStaging h staging w =
      (.ok (), { w with fs := w.fs.put (h.root ++ [staging]) .dir }) := by
    have hlast : w.fs.createDirAll h.root (downs [staging]) =
        (.ok (), w.fs.put (h.root ++ [staging]) .dir) :=
      createDirAll_last dirsTo_nil hnone 0
    rw [makeStaging, hlast]
  have hbuild : stageFiles (h.root ++ [staging]) contents
      { w with fs := w.fs.put (h.root ++ [staging]) .dir } = (.ok (), w') := by
    unfold stageTree at hrun
    dsimp only at hrun
    rw [bind_run, hmkdir] at hrun
    dsimp only at hrun
    split at hrun
    · next hw =>
      cases hrun
      exact hw
    · cases hrun
  obtain ⟨hholds, hout⟩ := stageFiles_holds hbuild (holds_nil hfree) hclean hnodup
  refine ⟨hholds, fun x hx => (hout x hx).trans (update_of_ne ?_ _ _)⟩
  rintro rfl
  exact hx _ (mem_singleton_self _) (prefix_refl _)

end

/-! ## Reading a tree back -/

section

variable {h : Host}

/-- The list is sorted, every path in it is clean, and none has a backslash. -/
structure Canonical (contents : Contents) : Prop where
  sorted : contents.Pairwise fun a b => a.1 < b.1
  clean : ∀ e ∈ contents, cleanRel e.1 = true
  noBackslash : ∀ e ∈ contents, '\\' ∉ e.1.toList

variable {contents : Contents} {fs : Fs OsName} {l : List OsName} {dir : RawPath OsName}
  {base : List OsName}

theorem mem_collectFiles_of_holds {r : List OsName} (hholds : Holds fs l contents) :
    r ∈ fs.collectFiles l ↔ ∃ e ∈ contents, r = namesOf e.1 := by
  rw [collectFiles, mem_collectFrom (Nat.le_add_left _ _)]
  constructor
  · intro hleaf
    rcases hn : fs.node (l ++ r) with _ | (_ | data | t)
    · exact absurd hn hleaf.there
    · exact absurd hn hleaf.notDir
    · obtain ⟨rel, hmem, hr⟩ := (hholds.files r data).mp hn
      exact ⟨(rel, data), hmem, hr⟩
    · exact absurd hn (hholds.noLink r t)
  · rintro ⟨⟨rel, data⟩, hmem, rfl⟩
    have hn := (hholds.files _ data).mpr ⟨rel, hmem, rfl⟩
    have hsome : fs.node (l ++ namesOf rel) ≠ none := by
      rw [hn]
      exact some_ne_none _
    obtain ⟨q, n, hqn⟩ := exists_namesOf rel
    refine ⟨namesOf_ne_nil rel, hholds.closed.dirsTo ?_, hsome, by simp [hn]⟩
    rw [hqn] at hsome ⊢
    rw [dropLast_concat]
    refine hholds.closed q n ?_
    rwa [append_assoc]

theorem read_of_holds {rel : String} {data : List UInt8} (hholds : Holds fs l contents)
    (hmem : (rel, data) ∈ contents) : fs.read l (downs (namesOf rel)) = .ok data := by
  have hn := (hholds.files _ data).mpr ⟨rel, hmem, rfl⟩
  obtain ⟨q, n, hqn⟩ := exists_namesOf rel
  rw [hqn] at hn ⊢
  rw [← append_assoc] at hn
  have hdirs := hholds.closed.dirsTo (hholds.closed q n (by rw [hn]; exact some_ne_none _))
  have hleaf : fs.IsLeaf (l ++ q ++ [n]) := by
    rw [Fs.IsLeaf, hn]
    simp
  simp only [Fs.read, Fs.resolve_downs_leaf hdirs hleaf, hn]

theorem treeContents_of_holds (hholds : Holds fs l contents) (hcanon : Canonical contents)
    (hdir : fs.resolve true base dir = .ok (.here l)) :
    treeContents h fs base dir = .ok contents := by
  let entries := (fs.collectFiles l).map fun names => (relPath h names, names)
  let expected := contents.map fun e => (e.1, namesOf e.1)
  have hmem : ∀ e, e ∈ entries ↔ e ∈ expected := by
    intro e
    simp only [entries, expected, mem_map, mem_collectFiles_of_holds hholds]
    constructor
    · rintro ⟨names, ⟨e', he', rfl⟩, rfl⟩
      exact ⟨e', he', by rw [relPath_namesOf h (hcanon.noBackslash e' he')]⟩
    · rintro ⟨e', he', rfl⟩
      exact ⟨namesOf e'.1, ⟨e', he', rfl⟩, by rw [relPath_namesOf h (hcanon.noBackslash e' he')]⟩
  have hexpected : expected.Pairwise fun a b => a.1 < b.1 := hcanon.sorted.map _ fun _ _ => id
  have hperm : entries.Perm expected := by
    refine (perm_ext_iff_of_nodup ?_ (hexpected.imp fun hlt heq => ?_)).mpr hmem
    · exact (nodup_collectFrom fs _ l).map fun _ _ heq => (Prod.mk.inj heq).2
    · exact (heq ▸ hlt).false
  have hsort : entries.mergeSort (fun a b => a.1 ≤ b.1) = expected := by
    refine List.Perm.eq_of_pairwise ?_ (pairwise_mergeSort_key Prod.fst entries)
      (hexpected.imp le_of_lt)
      ((mergeSort_perm _ _).trans hperm)
    -- an entry is determined by its path
    intro a b ha hb hab hba
    have ha' := (hmem a).mp ((mergeSort_perm _ _).mem_iff.mp ha)
    obtain ⟨ea, -, rfl⟩ := mem_map.mp ha'
    obtain ⟨eb, -, rfl⟩ := mem_map.mp hb
    have heq : ea.1 = eb.1 := le_antisymm hab hba
    rw [heq]
  have hread : treeContents h fs base dir = expected.mapM (readEntry fs l) := by
    simp only [treeContents, hdir]
    rw [hsort]
  rw [hread, mapM_eq_ok, forall₂_map_left_iff, forall₂_same]
  rintro ⟨rel, data⟩ he
  simp only [readEntry, read_of_holds hholds he]

theorem treeContents_paths (hc : treeContents h fs base dir = .ok contents) :
    (contents.Pairwise fun a b => a.1 ≤ b.1) ∧ ∀ e ∈ contents, '\\' ∉ e.1.toList := by
  unfold treeContents at hc
  split at hc
  · next l _ =>
    let entries := (fs.collectFiles l).map fun names => (relPath h names, names)
    let sorted := entries.mergeSort fun a b => a.1 ≤ b.1
    have hrel : List.Forall₂ (fun a b => readEntry fs l a = .ok b) sorted contents :=
      mapM_eq_ok.mp hc
    have hfst : ∀ {a : String × List OsName} {b : String × List UInt8},
        readEntry fs l a = .ok b → a.1 = b.1 := by
      intro a b hab
      unfold readEntry at hab
      split at hab
      · cases hab
        rfl
      · cases hab
    have hpaths : sorted.map Prod.fst = contents.map Prod.fst := by
      rw [← forall₂_eq_eq_eq, forall₂_map_left_iff, forall₂_map_right_iff]
      exact hrel.imp fun _ _ hab => hfst hab
    constructor
    · rw [← pairwise_map (f := Prod.fst), ← hpaths, pairwise_map]
      exact pairwise_mergeSort_key Prod.fst entries
    · intro e he
      have hmem := mem_map_of_mem (f := Prod.fst) he
      rw [← hpaths] at hmem
      obtain ⟨e', he', heq⟩ := mem_map.mp hmem
      obtain ⟨names, -, rfl⟩ := mem_map.mp ((mergeSort_perm _ _).mem_iff.mp he')
      rw [← heq]
      exact not_mem_relPath h names
  · cases hc

end

/-! ## Runs of the store -/

inductive Call where
  | add (name : String) (bytes : List UInt8)
  | addRaw (hash : Blake3Hash) (name : String) (bytes : List UInt8)
  | addTree (name : String) (base : List OsName) (dir : RawPath OsName)

/-- What a call gave to the store. -/
inductive Content where
  | blob (bytes : List UInt8)
  | tree (contents : Contents)

/-- A successful call: the path it returned and what it gave. -/
structure Published where
  path : StorePath
  content : Content

def Content.isTree : Content → Bool
  | .blob _ => false
  | .tree _ => true

/-- What is hashed into the key. -/
def Content.preimage : Content → List UInt8
  | .blob bytes => bytes
  | .tree contents => treeBytes contents

section

variable (h : Host)

def Call.exec : Call → Command World StoreError StorePath
  | .add name bytes => Store.add h name bytes
  | .addRaw hash name bytes => Store.addRaw h hash name bytes
  | .addTree name base dir => Store.addTree h name base dir

def Call.content (fs : Fs OsName) : Call → Except StoreError Content
  | .add _ bytes => .ok (.blob bytes)
  | .addRaw _ _ bytes => .ok (.blob bytes)
  | .addTree _ base dir => .tree <$> treeContents h fs base dir

/-- Nobody has written below the root. -/
def Undisturbed (fs fs' : Fs OsName) : Prop := ∀ l, h.root <+: l → fs'.node l = fs.node l

def EmptyStore (fs : Fs OsName) : Prop := ∀ n r, fs.node (h.root ++ n :: r) = none

/-- Successful calls, each of which meets `ok` in the state it is made in, and between them
changes outside of the root. The log lists the calls in their order. -/
inductive Run (ok : Fs OsName → Call → Prop) : World → List Published → World → Prop
  | nil (w : World) : Run ok w [] w
  | call {w₀ w w' : World} {log : List Published} {c : Call} {p : StorePath} {content : Content} :
      Run ok w₀ log w → ok w.fs c → c.content h w.fs = .ok content →
      c.exec h w = (.ok p, w') → Run ok w₀ (log ++ [⟨p, content⟩]) w'
  | outside {w₀ w : World} {log : List Published} {fs : Fs OsName} :
      Run ok w₀ log w → Undisturbed h w.fs fs → Run ok w₀ log { w with fs := fs }

/-- Every blob is read back and verified, every tree is verified and reported as a tree, and
the listing gives what was published, each path once. -/
structure Faithful (fs : Fs OsName) (log : List Published) : Prop where
  blob : ∀ p bytes, ⟨p, .blob bytes⟩ ∈ log →
    get h fs p = .ok (some bytes) ∧ verify h fs p = .ok true
  tree : ∀ p contents, ⟨p, .tree contents⟩ ∈ log →
    verify h fs p = .ok true ∧ ∃ info, queryPathInfo h fs p = .ok (some info) ∧ info.isTree = true
  list : ∃ paths, Store.list h fs = .ok paths ∧ paths.Nodup ∧
    ∀ p, p ∈ paths ↔ p ∈ log.map Published.path

/-- No collision among what was hashed. -/
def NoCollision (log : List Published) : Prop :=
  Set.InjOn h.blake3 { bytes | ∃ e ∈ log, bytes = e.content.preimage }

/-- A blob does not meet a tree of its path; a tree does not meet a blob of its path, and the
paths of its files are clean and differ. -/
def Apart (fs : Fs OsName) : Call → Prop
  | .add name bytes => ∀ p, StorePath.new (h.blake3 bytes) name = .ok p →
    fs.node (locate h p) ≠ some .dir
  | .addRaw hash name _ => ∀ p, StorePath.new hash name = .ok p → fs.node (locate h p) ≠ some .dir
  | .addTree name base dir => ∀ contents, treeContents h fs base dir = .ok contents →
    (∀ e ∈ contents, cleanRel e.1 = true) ∧ (contents.map Prod.fst).Nodup ∧
    ∀ p, StorePath.new (hashContents h contents) name = .ok p →
      ∀ bytes, fs.node (locate h p) ≠ some (.file bytes)

/-! ## What is on disk -/

/-- The content stands at its path. -/
def OnDisk (fs : Fs OsName) (e : Published) : Prop :=
  match e.content with
  | .blob bytes => fs.node (locate h e.path) = some (.file bytes)
  | .tree contents => Holds fs (locate h e.path) contents ∧ Canonical contents

/-- Below the root there are entries of the log only; every entry of the log has its key, and
an entry of its path and kind is on disk. -/
structure Inv (fs : Fs OsName) (log : List Published) : Prop where
  only : ∀ n r, fs.node (h.root ++ n :: r) ≠ none → ∃ e ∈ log, n = fileName e.path
  keyed : ∀ e ∈ log, e.path.hash = h.blake3 e.content.preimage
  onDisk : ∀ e ∈ log, ∃ e' ∈ log, e'.path = e.path ∧
    e'.content.isTree = e.content.isTree ∧ OnDisk h fs e'

end

section

variable {h : Host}

variable {fs fs' : Fs OsName} {e : Published} {log : List Published} {s name : String}
  {p : StorePath} {w : World} {bytes : List UInt8} {contents : Contents} {dir : RawPath OsName}
  {base : List OsName}

theorem OnDisk.of_node_eq (hd : OnDisk h fs e)
    (heq : ∀ r, fs'.node (locate h e.path ++ r) = fs.node (locate h e.path ++ r)) :
    OnDisk h fs' e := by
  unfold OnDisk at hd ⊢
  split at hd
  · simpa [hd] using heq []
  · exact ⟨hd.1.of_node_eq heq, hd.2⟩

theorem Inv.empty (hempty : EmptyStore h fs) : Inv h fs [] where
  only := fun n r hn => absurd (hempty n r) hn
  keyed := fun _ he => absurd he not_mem_nil
  onDisk := fun _ he => absurd he not_mem_nil

theorem Inv.outside (hinv : Inv h fs log) (hsame : Undisturbed h fs fs') : Inv h fs' log where
  only := fun n r hn => hinv.only n r (by rwa [hsame _ (prefix_append _ _)] at hn)
  keyed := hinv.keyed
  onDisk := by
    intro e he
    obtain ⟨e', he', hpath, hkind, hd⟩ := hinv.onDisk e he
    refine ⟨e', he', hpath, hkind, hd.of_node_eq fun r => hsame _ ?_⟩
    rw [locate, append_assoc]
    exact prefix_append _ _

theorem Inv.staging_free (hinv : Inv h fs log) (hs : s.toList.head? = some '.') (r : List OsName) :
    fs.node (h.root ++ [utf8 s] ++ r) = none := by
  by_contra hn
  rw [append_assoc] at hn
  obtain ⟨e, -, hname⟩ := hinv.only _ _ hn
  exact display_ne_dot e.path s hs (utf8_injective hname).symm

theorem Inv.exists_of_node (hinv : Inv h fs log) (hn : fs.node (locate h p) ≠ none) :
    ∃ e ∈ log, e.path = p ∧ OnDisk h fs e := by
  obtain ⟨e, he, hname⟩ := hinv.only _ _ hn
  obtain ⟨e', he', hpath, -, hd⟩ := hinv.onDisk e he
  exact ⟨e', he', hpath.trans (fileName_injective hname).symm, hd⟩

theorem OnDisk.node_ne_none (hd : OnDisk h fs e) : fs.node (locate h e.path) ≠ none := by
  unfold OnDisk at hd
  split at hd
  · rw [hd]
    exact some_ne_none _
  · rw [hd.1.isDir]
    exact some_ne_none _

/-- There are no links in the root, so an entry exists exactly if it is not missing. -/
theorem Inv.exists_iff (hinv : Inv h fs log) (p : StorePath) :
    fs.exists? h.root (downs [fileName p]) = true ↔ fs.node (locate h p) ≠ none := by
  rcases hn : fs.node (locate h p) with _ | node
  · rw [exists?, resolve_name_leaf (isLeaf_of_none hn)]
    simp [show fs.node (h.root ++ [fileName p]) = none from hn]
  · obtain ⟨e, -, rfl, hd⟩ := hinv.exists_of_node (by rw [hn]; exact some_ne_none _)
    refine iff_of_true ?_ (some_ne_none _)
    unfold OnDisk at hd
    rw [locate] at hd
    split at hd
    · rw [exists?, resolve_name_leaf (isLeaf_of_file hd)]
      simp [hd]
    · rw [exists?, resolve_name_dir hd.1.isDir]

theorem Inv.log_append (hinv : Inv h fs log) (hkey : e.path.hash = h.blake3 e.content.preimage)
    (honly : ∀ n r, fs'.node (h.root ++ n :: r) ≠ none → ∃ e' ∈ log ++ [e], n = fileName e'.path)
    (hold : ∀ e' ∈ log, OnDisk h fs e' → OnDisk h fs' e')
    (hthere : ∃ e' ∈ log ++ [e], e'.path = e.path ∧ e'.content.isTree = e.content.isTree ∧
      OnDisk h fs' e') : Inv h fs' (log ++ [e]) where
  only := honly
  keyed := fun e' he' => by
    rcases mem_append.mp he' with he' | he'
    · exact hinv.keyed e' he'
    · rw [mem_singleton.mp he']
      exact hkey
  onDisk := fun e' he' => by
    rcases mem_append.mp he' with he' | he'
    · obtain ⟨e1, he1, hpath, hkind, hd⟩ := hinv.onDisk e' he'
      exact ⟨e1, mem_append_left _ he1, hpath, hkind, hold e1 he1 hd⟩
    · rw [mem_singleton.mp he']
      exact hthere

theorem Inv.again (hinv : Inv h fs log) (hkey : e.path.hash = h.blake3 e.content.preimage)
    (hthere : fs.node (locate h e.path) ≠ none)
    (hkind : ∀ e', e'.path = e.path → OnDisk h fs e' → e'.content.isTree = e.content.isTree) :
    Inv h fs (log ++ [e]) := by
  obtain ⟨e', he', hpath, hd⟩ := hinv.exists_of_node hthere
  refine hinv.log_append hkey (fun n r hn => ?_) (fun _ _ => id)
    ⟨e', mem_append_left _ he', hpath, hkind e' hpath hd, hd⟩
  obtain ⟨e', he', hname⟩ := hinv.only n r hn
  exact ⟨e', mem_append_left _ he', hname⟩

/-- An insertion of something new: it was staged and then moved to its path. -/
theorem Inv.publish (hinv : Inv h fs log) (hs : s.toList.head? = some '.')
    (hkey : e.path.hash = h.blake3 e.content.preimage) (hnew : fs.node (locate h e.path) = none)
    (hout : SameOutside [locate h e.path, h.root ++ [utf8 s]] fs fs')
    (hgone : ∀ r, fs'.node (h.root ++ [utf8 s] ++ r) = none) (hd : OnDisk h fs' e) :
    Inv h fs' (log ++ [e]) := by
  have hframe : ∀ x, ¬ locate h e.path <+: x → ¬ h.root ++ [utf8 s] <+: x →
      fs'.node x = fs.node x := fun x htarget hstaging => hout x (by simp [htarget, hstaging])
  -- entries of the root differ in their first name
  have hhead : ∀ (n m : OsName) (r : List OsName), h.root ++ [m] <+: h.root ++ n :: r → n = m := by
    intro n m r hpre
    have := (prefix_append_right_inj h.root).mp hpre
    exact (cons_prefix_cons.mp this).1.symm
  refine hinv.log_append hkey (fun n r hn => ?_) (fun e1 _ hd1 => ?_)
    ⟨e, mem_append_right _ mem_cons_self, rfl, rfl, hd⟩
  · by_cases htarget : locate h e.path <+: h.root ++ n :: r
    · exact ⟨e, mem_append_right _ mem_cons_self, hhead n _ r htarget⟩
    · by_cases hstaging : h.root ++ [utf8 s] <+: h.root ++ n :: r
      · obtain ⟨r', hr'⟩ := hstaging
        exact absurd (hr' ▸ hgone r') hn
      · rw [hframe _ htarget hstaging] at hn
        obtain ⟨e', he', hname⟩ := hinv.only n r hn
        exact ⟨e', mem_append_left _ he', hname⟩
  · refine hd1.of_node_eq fun r => hframe _ (fun htarget => ?_) fun hstaging => ?_
    · rw [locate, locate, append_assoc] at htarget
      have hpath1 := fileName_injective (hhead _ _ _ htarget)
      exact hd1.node_ne_none (hpath1 ▸ hnew)
    · rw [locate, append_assoc] at hstaging
      exact display_ne_dot e1.path s hs (utf8_injective (hhead _ _ _ hstaging))

theorem not_prefix_of_ne {root : List OsName} {n m : OsName} (hne : n ≠ m) (r : List OsName) :
    ¬ root ++ [n] <+: root ++ [m] ++ r := by
  intro hpre
  rw [append_assoc] at hpre
  have := (prefix_append_right_inj root).mp hpre
  exact hne (cons_prefix_cons.mp this).1

theorem fileName_ne (hs : s.toList.head? = some '.') :
    fileName p ≠ utf8 s := fun heq => display_ne_dot p s hs (utf8_injective heq)

theorem publish_eq {staging : OsName}
    (hrename : w.fs.rename (h.root ++ [staging]) (locate h p) = .ok fs') :
    Store.publish h staging p w = (.ok (), { w with fs := fs' }) := by
  unfold Store.publish
  simp only [hrename]

theorem stagingName_head (kind : String) (hkind : kind.toList.head? = some '.') (s : String) :
    (kind ++ s).toList.head? = some '.' := by
  rw [String.toList_append, List.head?_append, hkind]
  rfl

/-- The staging name of a blob. -/
def blobStaging (h : Host) (nonce : Nat) : String :=
  ".tmp-blob" ++ "-" ++ toString h.pid ++ "-" ++ toString nonce

theorem blobStaging_head (nonce : Nat) : (blobStaging h nonce).toList.head? = some '.' := by
  unfold blobStaging
  simp only [String.append_assoc]
  exact stagingName_head ".tmp-blob" rfl _

/-- The file system after a new blob has been staged and moved to its path. -/
def withBlob (h : Host) (w : World) (p : StorePath) (bytes : List UInt8) : Fs OsName :=
  (w.fs.put (h.root ++ [utf8 (blobStaging h w.nonce)]) (.file bytes)).moveNode
    (h.root ++ [utf8 (blobStaging h w.nonce)]) (locate h p) (.file bytes)

theorem writeAtomic_eq (hinv : Inv h w.fs log) (hnew : w.fs.node (locate h p) = none)
    (bytes : List UInt8) : Store.writeAtomic h p bytes w =
      (.ok (), { w with fs := withBlob h w p bytes, nonce := w.nonce + 1 }) := by
  have hfree : w.fs.node (h.root ++ [utf8 (blobStaging h w.nonce)]) = none := by
    have := hinv.staging_free (blobStaging_head (h := h) w.nonce) []
    rwa [append_nil] at this
  have hloc : locate h p ≠ h.root ++ [utf8 (blobStaging h w.nonce)] := fun heq =>
    fileName_ne (blobStaging_head w.nonce) (List.cons.inj (append_cancel_left heq)).1
  have hcreate : Store.createNew h (utf8 (blobStaging h w.nonce)) bytes
      { w with nonce := w.nonce + 1 } =
        (.ok (), { w with
          fs := w.fs.put (h.root ++ [utf8 (blobStaging h w.nonce)]) (.file bytes)
          nonce := w.nonce + 1 }) := by
    simp [Store.createNew, hfree]
  refine bind_eq_ok.mpr ⟨utf8 (blobStaging h w.nonce), { w with nonce := w.nonce + 1 },
    rfl, bind_eq_ok.mpr ⟨(), _, hcreate, publish_eq ?_⟩⟩
  rw [rename_file (update_self ..), if_neg]
  · rfl
  · exact ((update_of_ne hloc _ _).trans hnew).trans_ne nofun

theorem addRaw_eq (hinv : Inv h w.fs log) (hp : StorePath.new (h.blake3 bytes) name = .ok p) :
    Store.addRaw h (h.blake3 bytes) name bytes w =
      if w.fs.node (locate h p) = none then
        (.ok p, { w with fs := withBlob h w p bytes, nonce := w.nonce + 1 })
      else (.ok p, w) := by
  unfold Store.addRaw
  rw [if_neg (not_not.mpr rfl)]
  have hex := hinv.exists_iff p
  split
  · next hnew =>
    have hno : w.fs.exists? h.root (downs [fileName p]) = false := by
      rw [Bool.eq_false_iff, ne_eq, hex, not_not]
      exact hnew
    refine bind_eq_ok.mpr ⟨p, w, ask_eq_ok.mpr ⟨hp, rfl⟩,
      bind_eq_ok.mpr ⟨false, w, ask_eq_ok.mpr ⟨congrArg Except.ok hno, rfl⟩, ?_⟩⟩
    exact bind_eq_ok.mpr ⟨(), _, writeAtomic_eq hinv hnew bytes, rfl⟩
  · next hthere =>
    exact bind_eq_ok.mpr ⟨p, w, ask_eq_ok.mpr ⟨hp, rfl⟩,
      bind_eq_ok.mpr ⟨true, w,
        ask_eq_ok.mpr ⟨congrArg Except.ok (hex.mpr hthere), rfl⟩, rfl⟩⟩

theorem Inv.withBlob (hinv : Inv h w.fs log) (hnew : w.fs.node (locate h p) = none)
    (hkey : p.hash = h.blake3 bytes) :
    Inv h (Store.withBlob h w p bytes) (log ++ [⟨p, .blob bytes⟩]) := by
  have hdot := blobStaging_head (h := h) w.nonce
  have hne : fileName p ≠ utf8 (blobStaging h w.nonce) := fileName_ne hdot
  set staging := h.root ++ [utf8 (blobStaging h w.nonce)] with hstaging
  -- away from the path and the place of the staged file, nothing has changed
  have hnode : ∀ x, x ≠ locate h p → x ≠ staging →
      (Store.withBlob h w p bytes).node x = w.fs.node x := fun x hx hx' =>
    ((update_of_ne hx _ _).trans (update_of_ne hx' _ _)).trans (update_of_ne hx' _ _)
  refine hinv.publish (e := ⟨p, .blob bytes⟩) hdot hkey hnew (fun x hx => ?_) (fun r => ?_)
    (update_self ..)
  · refine hnode x ?_ ?_ <;> rintro rfl
    · exact hx _ mem_cons_self (prefix_refl _)
    · exact hx _ (mem_cons_of_mem _ mem_cons_self) (prefix_refl _)
  · have hr : staging ++ r ≠ locate h p := fun heq =>
      not_prefix_of_ne hne.symm [] (by rw [append_nil]; exact ⟨r, heq⟩)
    rcases eq_or_ne r [] with rfl | hnil
    · rw [append_nil] at hr ⊢
      exact (update_of_ne hr _ _).trans (update_self ..)
    · exact (hnode _ hr fun heq => hnil (append_right_eq_self.mp heq)).trans
        (hinv.staging_free hdot r)

theorem addRaw_inv {hash : Blake3Hash} {w' : World}
    (hrun : Store.addRaw h hash name bytes w = (.ok p, w')) (hinv : Inv h w.fs log)
    (hapart : ∀ p, StorePath.new hash name = .ok p → w.fs.node (locate h p) ≠ some .dir) :
    Inv h w'.fs (log ++ [⟨p, .blob bytes⟩]) := by
  by_cases hhash : h.blake3 bytes = hash
  · subst hhash
    cases hpath : StorePath.new (h.blake3 bytes) name with
    | error e =>
      rw [Store.addRaw, if_neg (not_not.mpr rfl), ask_bind_error (s := w) hpath] at hrun
      cases hrun
    | ok path =>
      have hkey : path.hash = h.blake3 bytes := (StorePath.new_eq_ok.mp hpath).1.symm
      rw [addRaw_eq hinv hpath] at hrun
      split at hrun
      · next hnew =>
        cases hrun
        exact hinv.withBlob hnew hkey
      · next hthere =>
        cases hrun
        -- what is there is no tree, so it is a blob
        refine hinv.again hkey hthere fun e' (hpath' : e'.path = p) hd => ?_
        cases hcontent : e'.content with
        | blob bytes' => rfl
        | tree contents =>
          unfold OnDisk at hd
          rw [hcontent] at hd
          exact absurd (hpath' ▸ hd.1.isDir) (hapart p hpath)
  · rw [Store.addRaw, if_pos hhash] at hrun
    cases hrun

/-- A state that some insertions lead to; the store works in it. -/
def Ready (h : Host) (w : World) : Prop := ∃ log, Inv h w.fs log

theorem Ready.add (hw : Ready h w) (name : String) (bytes : List UInt8) :
    (Store.add h name bytes w).1 = StorePath.new (h.blake3 bytes) name ∧
      Ready h (Store.add h name bytes w).2 := by
  obtain ⟨log, hinv⟩ := hw
  unfold Store.add
  cases hpath : StorePath.new (h.blake3 bytes) name with
  | error e =>
    have hrun : Store.addRaw h (h.blake3 bytes) name bytes w = (.error e, w) := by
      rw [Store.addRaw, if_neg (not_not.mpr rfl)]
      exact ask_bind_error hpath
    rw [hrun]
    exact ⟨rfl, log, hinv⟩
  | ok path =>
    rw [addRaw_eq hinv hpath]
    split
    · next hnew => exact ⟨rfl, _, hinv.withBlob hnew (StorePath.new_eq_ok.mp hpath).1.symm⟩
    · exact ⟨rfl, log, hinv⟩

theorem canonical_of_treeContents
    (hc : treeContents h fs base dir = .ok contents) (hclean : ∀ e ∈ contents, cleanRel e.1 = true)
    (hnodup : (contents.map Prod.fst).Nodup) : Canonical contents := by
  obtain ⟨hsorted, hback⟩ := treeContents_paths hc
  refine ⟨?_, hclean, hback⟩
  exact (hsorted.and (pairwise_map.mp hnodup)).imp fun hab => lt_of_le_of_ne hab.1 hab.2

/-- The staging name of a tree. -/
def treeStaging (h : Host) (nonce : Nat) : String :=
  ".tmp-tree" ++ "-" ++ toString h.pid ++ "-" ++ toString nonce

theorem treeStaging_head (nonce : Nat) : (treeStaging h nonce).toList.head? = some '.' := by
  unfold treeStaging
  simp only [String.append_assoc]
  exact stagingName_head ".tmp-tree" rfl _

theorem exists?_of_none (hn : fs.node (locate h p) = none) :
    fs.exists? h.root (downs [fileName p]) = false := by
  rw [exists?, resolve_name_leaf (isLeaf_of_none hn)]
  simp [show fs.node (h.root ++ [fileName p]) = none from hn]

/-- The last step for a staged tree: it is moved to a place where nothing is. At any other place
`rename` fails, unless that is an empty directory, and the staged tree is removed. -/
theorem publish_tree {staging : OsName} {w' : World}
    (hholds : Holds w.fs (h.root ++ [staging]) contents)
    (hdir : w.fs.node (locate h p) ≠ some .dir)
    (hrun : Store.publish h staging p w = (.ok (), w')) :
    (w.fs.node (locate h p) ≠ none ∧ w'.fs = w.fs.removeTree (h.root ++ [staging])) ∨
      (w.fs.node (locate h p) = none ∧ w'.fs = w.fs.move (h.root ++ [staging]) (locate h p)) := by
  unfold Store.publish at hrun
  simp only [rename, hholds.isDir] at hrun
  rcases hn : w.fs.node (locate h p) with _ | (_ | bytes | target)
  · rw [hn] at hrun
    cases hrun
    exact .inr ⟨rfl, rfl⟩
  · exact absurd hn hdir
  all_goals
    simp only [hn] at hrun
    split at hrun
    · cases hrun
      exact .inl ⟨some_ne_none _, rfl⟩
    · cases hrun

/-- What `add_tree` does when nothing is at its staging name. If there is something at the path,
the store stays as it is. Otherwise the tree is published and nothing else changes. -/
theorem addTree_spec {w' : World} (hrun : Store.addTree h name base dir w = (.ok p, w'))
    (hcontents : treeContents h w.fs base dir = .ok contents)
    (hclean : ∀ e ∈ contents, cleanRel e.1 = true) (hnodup : (contents.map Prod.fst).Nodup)
    (hfree : ∀ r, w.fs.node (h.root ++ [utf8 (treeStaging h w.nonce)] ++ r) = none) :
    StorePath.new (hashContents h contents) name = .ok p ∧
      ((w.fs.node (locate h p) ≠ none ∧ ∀ x, w'.fs.node x = w.fs.node x) ∨
        (w.fs.node (locate h p) = none ∧ Holds w'.fs (locate h p) contents ∧
          (∀ r, w'.fs.node (h.root ++ [utf8 (treeStaging h w.nonce)] ++ r) = none) ∧
          SameOutside [locate h p, h.root ++ [utf8 (treeStaging h w.nonce)]] w.fs w'.fs)) := by
  unfold Store.addTree at hrun
  obtain ⟨contents', w₁, hask, hrun⟩ := bind_eq_ok.mp hrun
  obtain ⟨hcontents', rfl⟩ := ask_eq_ok.mp hask
  obtain rfl := Except.ok.inj (hcontents'.symm.trans hcontents)
  obtain ⟨path, w₂, hask', hrun⟩ := bind_eq_ok.mp hrun
  obtain ⟨hpath, rfl⟩ := ask_eq_ok.mp hask'
  obtain ⟨there, w3, hask'', hrun⟩ := bind_eq_ok.mp hrun
  obtain ⟨hthere, rfl⟩ := ask_eq_ok.mp hask''
  replace hthere := Except.ok.inj hthere
  split at hrun
  · next hyes =>
    obtain ⟨rfl, rfl⟩ := pure_eq_ok.mp hrun
    refine ⟨hpath, .inl ⟨fun hn => ?_, fun _ => rfl⟩⟩
    rw [← hthere, exists?_of_none hn] at hyes
    cases hyes
  · next hno =>
    obtain ⟨staging, w₁, hstaging, hrun⟩ := bind_eq_ok.mp hrun
    cases hstaging
    obtain ⟨_, w₂, hstage, hrun⟩ := bind_eq_ok.mp hrun
    obtain ⟨_, w3, hpublish, hrun⟩ := bind_eq_ok.mp hrun
    obtain ⟨rfl, rfl⟩ := pure_eq_ok.mp hrun
    obtain ⟨hholds, hout⟩ := stageTree_holds hstage hfree hclean hnodup
    have hne : fileName path ≠ utf8 (treeStaging h w.nonce) := fileName_ne (treeStaging_head _)
    have htarget : w₂.fs.node (locate h path) = w.fs.node (locate h path) :=
      hout.node_eq fun hpre => not_prefix_of_ne hne.symm [] (by rwa [append_nil])
    have hdir : w₂.fs.node (locate h path) ≠ some .dir := by
      rw [htarget]
      intro hd
      rw [← hthere, exists?, resolve_name_dir hd] at hno
      exact hno rfl
    refine ⟨hpath, ?_⟩
    rcases publish_tree hholds hdir hpublish with ⟨hsome, hfs⟩ | ⟨hnone, hfs⟩
    · refine .inl ⟨htarget ▸ hsome, fun x => ?_⟩
      rw [hfs]
      by_cases hx : h.root ++ [utf8 (treeStaging h w.nonce)] <+: x
      · obtain ⟨r, rfl⟩ := hx
        exact (if_pos (prefix_append _ _)).trans (hfree r).symm
      · exact (if_neg hx).trans (hout.node_eq hx)
    · refine .inr ⟨htarget ▸ hnone, ?_, fun r => ?_, fun x hx => ?_⟩ <;> rw [hfs]
      · refine hholds.of_node_eq fun r => (if_pos (prefix_append _ _)).trans ?_
        rw [drop_left]
      · have hr : ¬ locate h path <+: h.root ++ [utf8 (treeStaging h w.nonce)] ++ r :=
          not_prefix_of_ne hne r
        exact (if_neg hr).trans (if_pos (prefix_append _ _))
      · have hx1 := hx _ mem_cons_self
        have hx2 := hx _ (mem_cons_of_mem _ mem_cons_self)
        exact ((if_neg hx1).trans (if_neg hx2)).trans (hout.node_eq hx2)

theorem addTree_inv {w' : World}
    (hrun : Store.addTree h name base dir w = (.ok p, w')) (hinv : Inv h w.fs log)
    (hapart : Apart h w.fs (.addTree name base dir))
    (hcontents : treeContents h w.fs base dir = .ok contents) :
    Inv h w'.fs (log ++ [⟨p, .tree contents⟩]) := by
  obtain ⟨hclean, hnodup, hnofile⟩ := hapart contents hcontents
  have hdot := treeStaging_head (h := h) w.nonce
  obtain ⟨hpath, ⟨hsome, hsame⟩ | ⟨hnone, hholds, hgone, hout⟩⟩ :=
    addTree_spec hrun hcontents hclean hnodup (hinv.staging_free hdot)
  · have hkey : p.hash = h.blake3 (Content.tree contents).preimage :=
      (StorePath.new_eq_ok.mp hpath).1.symm
    -- what is there is no blob, so it is a tree
    refine (hinv.again (e := ⟨p, .tree contents⟩) hkey hsome
      fun e' (hpath' : e'.path = p) hd => ?_).outside fun l _ => hsame l
    cases hcontent : e'.content with
    | tree _ => rfl
    | blob bytes =>
      unfold OnDisk at hd
      rw [hcontent] at hd
      exact absurd (hpath' ▸ hd) (hnofile p hpath bytes)
  · exact hinv.publish (e := ⟨p, .tree contents⟩) hdot (StorePath.new_eq_ok.mp hpath).1.symm
      hnone hout hgone ⟨hholds, canonical_of_treeContents hcontents hclean hnodup⟩

theorem Run.inv {w₀ : World} (hrun : Run h (Apart h) w₀ log w) (hempty : EmptyStore h w₀.fs) :
    Inv h w.fs log := by
  induction hrun with
  | nil => exact Inv.empty hempty
  | @call w w' log c p content _ hapart hcontent hexec ih =>
    cases c with
    | add name bytes | addRaw _ _ _ =>
      cases hcontent
      exact addRaw_inv hexec ih hapart
    | addTree name base dir =>
      simp only [Call.content] at hcontent
      cases hc : treeContents h w.fs base dir with
      | error e =>
        rw [hc] at hcontent
        cases hcontent
      | ok contents =>
        rw [hc] at hcontent
        cases hcontent
        exact addTree_inv hexec ih hapart hc
  | outside _ hsame ih => exact ih.outside hsame

/-! ## What the queries answer -/

theorem Inv.blob_faithful (hinv : Inv h fs log) (hcoll : NoCollision h log)
    (he : ⟨p, .blob bytes⟩ ∈ log) : get h fs p = .ok (some bytes) ∧ verify h fs p = .ok true := by
  obtain ⟨⟨p', content⟩, he', rfl, hkind, hd⟩ := hinv.onDisk _ he
  cases content with
  | tree contents => cases hkind
  | blob bytes' =>
    have hkey := hinv.keyed _ he
    have hkey' := hinv.keyed _ he'
    -- what is on disk has the same key, so it is the same blob
    obtain rfl : bytes' = bytes := hcoll ⟨_, he', rfl⟩ ⟨_, he, rfl⟩ (hkey'.symm.trans hkey)
    have hnode : fs.node (h.root ++ [fileName p']) = some (.file bytes') := hd
    have hhash : h.blake3 bytes' = p'.hash := hkey.symm
    have hres : fs.resolve true h.root (downs [fileName p']) = _ :=
      resolve_name_leaf (isLeaf_of_file hnode)
    have hread : fs.read h.root (downs [fileName p']) = .ok bytes' := by
      simp only [Fs.read, hres, hnode]
    simp [get, verify, Fs.isDir, hres, hread, hhash, pure, Except.pure]

theorem Inv.tree_faithful (hinv : Inv h fs log) (he : ⟨p, .tree contents⟩ ∈ log) :
    verify h fs p = .ok true ∧
      ∃ info, queryPathInfo h fs p = .ok (some info) ∧ info.isTree = true := by
  obtain ⟨⟨p', content⟩, he', rfl, hkind, hd⟩ := hinv.onDisk _ he
  cases content with
  | blob bytes => cases hkind
  | tree contents' =>
    obtain ⟨hholds, hcanon⟩ : Holds fs (locate h p') contents' ∧ Canonical contents' := hd
    have hres : fs.resolve true h.root (downs [fileName p']) = .ok (.here (locate h p')) :=
      resolve_name_dir hholds.isDir
    have hread : treeContents h fs h.root (downs [fileName p']) = .ok contents' :=
      treeContents_of_holds hholds hcanon hres
    have hhash : hashContents h contents' = p'.hash := (hinv.keyed _ he').symm
    simp [verify, queryPathInfo, Fs.isDir, hres, hread, hhash, bind, Except.bind, pure, Except.pure]

theorem Inv.list_faithful (hinv : Inv h fs log) :
    ∃ paths, Store.list h fs = .ok paths ∧ paths.Nodup ∧
      ∀ p, p ∈ paths ↔ p ∈ log.map Published.path := by
  have hmem : ∀ n, n ∈ fs.readDir h.root ↔ ∃ p ∈ log.map Published.path, n = fileName p := by
    intro n
    rw [mem_readDir]
    constructor
    · intro hn
      obtain ⟨e, he, rfl⟩ := hinv.only n [] hn
      exact ⟨e.path, mem_map_of_mem he, rfl⟩
    · rintro ⟨p, hp, rfl⟩
      obtain ⟨e, he, rfl⟩ := mem_map.mp hp
      obtain ⟨e', -, hpath, -, hd⟩ := hinv.onDisk e he
      exact hpath ▸ hd.node_ne_none
  obtain ⟨paths, hpaths⟩ : fs.readDir h.root ∈ Set.range (List.map fileName) := by
    rw [Set.range_list_map]
    intro n hn
    obtain ⟨p, -, rfl⟩ := (hmem n).mp hn
    exact ⟨p, rfl⟩
  refine ⟨paths, ?_, ?_, fun p => ?_⟩
  · have hnames : (fs.readDir h.root).map h.lossy = paths.map StorePath.display := by
      rw [← hpaths, map_map]
      exact map_congr_left fun p _ => h.lossy_utf8 p.display
    have hkept : ∀ name ∈ paths.map StorePath.display,
        (!".tmp".toList.isPrefixOf name.toList) = true := by
      intro name hname
      obtain ⟨p, -, rfl⟩ := mem_map.mp hname
      rw [Bool.not_eq_true', Bool.eq_false_iff, ne_eq, isPrefixOf_iff_prefix]
      rintro ⟨rest, hrest⟩
      exact display_ne_dot p p.display (by rw [← hrest]; rfl) rfl
    rw [Store.list, hnames, filter_eq_self.mpr hkept, mapM_eq_ok,
      forall₂_map_left_iff, forall₂_same]
    exact fun p _ => StorePath.parse_display p
  · refine List.Nodup.of_map fileName ?_
    rw [hpaths]
    exact nodup_readDir fs h.root
  · rw [← mem_map_of_injective fileName_injective, hpaths, hmem]
    constructor
    · rintro ⟨p', hp', heq⟩
      exact fileName_injective heq ▸ hp'
    · intro hp
      exact ⟨p, hp, rfl⟩

/-- In a run from an empty store in which blobs and trees keep apart, the store is faithful in
every state. -/
theorem Run.faithful {w₀ w : World} {log : List Published} (hrun : Run h (Apart h) w₀ log w)
    (hempty : EmptyStore h w₀.fs) (hcoll : NoCollision h log) : Faithful h w.fs log := by
  have hinv := hrun.inv hempty
  exact
    { blob := fun _ _ he => hinv.blob_faithful hcoll he
      tree := fun _ _ he => hinv.tree_faithful he
      list := hinv.list_faithful }

end

/-! ## Two runs -/

/-- A store in `/store` and an empty directory `/d`. The hash is cut short: it tells apart what
these runs hash. -/
def smallHost : Host where
  pid := 1
  root := [utf8 "store"]
  tempDir := [utf8 "tmp"]
  blake3 := fun bytes => ⟨(bytes ++ List.replicate 32 0).take 32, by simp⟩
  lossy := fun name => (String.fromUTF8? name.toByteArray).getD ""
  lossy_utf8 := fun s => by rw [fromUTF8?_eq_some.mpr rfl, Option.getD_some]

def smallWorld : World where
  fs :=
    { node := fun l => if l = [utf8 "store"] ∨ l = [utf8 "d"] then some .dir else none
      locs := [[utf8 "store"], [utf8 "d"]]
      covers := by
        intro l hl
        split at hl
        · next h => simpa using h
        · exact absurd rfl hl
      touched := [] }
  nonce := 0
  builds := 0

def emptyDir : RawPath OsName := downs [utf8 "d"]

theorem smallWorld_empty : EmptyStore smallHost smallWorld.fs := by
  intro n r
  simp [smallWorld, smallHost]

theorem ok_of_toOption {ε α : Type} : ∀ {x : Except ε α} {a : α}, x.toOption = some a → x = .ok a
  | .ok _, _, rfl => rfl

theorem exec_eq {h : Host} {c : Call} {w : World} {p : StorePath}
    (hp : (c.exec h w).1.toOption = some p) : c.exec h w = (.ok p, (c.exec h w).2) :=
  Prod.ext (ok_of_toOption hp) rfl

def blobPath : StorePath := ⟨smallHost.blake3 [1], "a", by decide +kernel⟩
def treePath : StorePath := ⟨smallHost.blake3 [], "x", by decide +kernel⟩

def filePath : StorePath := ⟨smallHost.blake3 (treeBytes [("f", [5])]), "x", by decide +kernel⟩

/-- A blob, then a file that somebody puts into `/d`, and then the tree `/d`, added twice. -/
theorem smallRun_faithful : ∃ log w, Run smallHost (Apart smallHost) smallWorld log w ∧
    log.map Published.path = [blobPath, filePath, filePath] ∧ Faithful smallHost w.fs log := by
  let tree : Call := .addTree "x" [] emptyDir
  let w₁ := ((Call.add "a" [1]).exec smallHost smallWorld).2
  let w₂ : World := { w₁ with fs := w₁.fs.put [utf8 "d", utf8 "f"] (.file [5]) }
  let w₃ := (tree.exec smallHost w₂).2
  let w₄ := (tree.exec smallHost w₃).2
  have h₁ : (Call.add "a" [1]).exec smallHost smallWorld = (.ok blobPath, w₁) :=
    exec_eq (by decide +kernel)
  have h₃ : tree.exec smallHost w₂ = (.ok filePath, w₃) := exec_eq (by decide +kernel)
  have h₄ : tree.exec smallHost w₃ = (.ok filePath, w₄) := exec_eq (by decide +kernel)
  have hblob : Apart smallHost smallWorld.fs (.add "a" [1]) := by
    intro p _ hdir
    rw [locate, smallWorld_empty (fileName p) []] at hdir
    cases hdir
  have hput : Undisturbed smallHost w₁.fs w₂.fs := fun l hl => by
    refine update_of_ne ?_ _ _
    rintro rfl
    exact absurd (cons_prefix_cons.mp hl).1 (by decide +kernel)
  -- in both states `/d` has the one file, and there is no blob at the path of the tree
  have htree {w : World} (hc : (treeContents smallHost w.fs [] emptyDir).toOption =
        some [("f", [5])])
      (hn : ∀ bytes, w.fs.node (locate smallHost filePath) ≠ some (.file bytes)) :
      Apart smallHost w.fs tree ∧ tree.content smallHost w.fs = .ok (.tree [("f", [5])]) := by
    replace hc := ok_of_toOption hc
    refine ⟨fun contents hc' => ?_, by rw [Call.content, hc]; rfl⟩
    obtain rfl := Except.ok.inj (hc'.symm.trans hc)
    refine ⟨by decide +kernel, by decide +kernel, fun p hp => ?_⟩
    obtain rfl := Except.ok.inj (hp.symm.trans (StorePath.new_single filePath))
    exact hn
  have hn₂ : w₂.fs.node (locate smallHost filePath) = none := by decide +kernel
  have hn₃ : w₃.fs.node (locate smallHost filePath) = some .dir := by decide +kernel
  obtain ⟨hapart₂, hcontent₂⟩ := htree (w := w₂) (by decide +kernel) (by simp [hn₂])
  obtain ⟨hapart₃, hcontent₃⟩ := htree (w := w₃) (by decide +kernel) (by simp [hn₃])
  have hrun : Run smallHost (Apart smallHost) smallWorld
      [⟨blobPath, .blob [1]⟩, ⟨filePath, .tree [("f", [5])]⟩, ⟨filePath, .tree [("f", [5])]⟩] w₄ :=
    .call (.call (.outside (.call (.nil smallWorld) hblob rfl h₁) hput) hapart₂ hcontent₂ h₃)
      hapart₃ hcontent₃ h₄
  refine ⟨_, w₄, hrun, rfl, hrun.faithful smallWorld_empty ?_⟩
  rintro bytes ⟨e, he, rfl⟩ bytes' ⟨e', he', rfl⟩ heq
  simp only [mem_cons, not_mem_nil, or_false, or_self] at he he'
  have hne : smallHost.blake3 [1] ≠ smallHost.blake3 (treeBytes [("f", [5])]) := by decide +kernel
  rcases he with rfl | rfl <;> rcases he' with rfl | rfl
  · rfl
  · exact absurd heq hne
  · exact absurd heq.symm hne
  · rfl

/-- An empty blob and then an empty tree of the same name: both calls succeed and return one
path, which stays a blob. -/
theorem emptyTree_not_faithful : ∃ log w, Run smallHost (fun _ _ => True) smallWorld log w ∧
    EmptyStore smallHost smallWorld.fs ∧ NoCollision smallHost log ∧
    ¬ Faithful smallHost w.fs log := by
  let w₁ := ((Call.add "x" []).exec smallHost smallWorld).2
  have h₁ : (Call.add "x" []).exec smallHost smallWorld = (.ok treePath, w₁) :=
    exec_eq (by decide +kernel)
  let w₂ := ((Call.addTree "x" [] emptyDir).exec smallHost w₁).2
  have h₂ : (Call.addTree "x" [] emptyDir).exec smallHost w₁ = (.ok treePath, w₂) :=
    exec_eq (by decide +kernel)
  have hcontents : treeContents smallHost w₁.fs [] emptyDir = .ok [] :=
    ok_of_toOption (by decide +kernel)
  have hrun : Run smallHost (fun _ _ => True) smallWorld
      [⟨treePath, .blob []⟩, ⟨treePath, .tree []⟩] w₂ :=
    .call (.call (.nil smallWorld) trivial rfl h₁) trivial (by rw [Call.content, hcontents]; rfl) h₂
  have hinfo : (queryPathInfo smallHost w₂.fs treePath).toOption.map
      (Option.map PathInfo.isTree) = some (some false) := by decide +kernel
  refine ⟨_, w₂, hrun, smallWorld_empty, ?_, fun hfaithful => ?_⟩
  · rintro bytes ⟨e, he, rfl⟩ bytes' ⟨e', he', rfl⟩ -
    simp only [mem_cons, not_mem_nil, or_false] at he he'
    rcases he with rfl | rfl <;> rcases he' with rfl | rfl <;> rfl
  · obtain ⟨-, info, hquery, htree⟩ :=
      hfaithful.tree treePath [] (mem_cons_of_mem _ mem_cons_self)
    rw [hquery] at hinfo
    simp [Except.toOption, htree] at hinfo

end Store

end Dnet
