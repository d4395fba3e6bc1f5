import Dnet.Build.Realize
import Dnet.Cas.Faithful

/-!
# Confinement of builtin builds

A builtin build should create, write and delete only below its own directory and below the
store root. Nothing checks the names of the outputs, and they are joined to the directory as
paths: `..` and absolute paths lead out of it (`outside_not_confined`). It is confined exactly if
every write that takes place lands inside (`realize_confined_iff`), as for plain names
(`landsInside_of_plain`).
-/

namespace Dnet

open Lib List Function Command Fs

/-! ## What is touched -/

/-- What was touched between two states lies in `region`; no new directory or link was made. -/
structure Touches (region : List OsName → Prop) (fs fs' : Fs OsName) : Prop where
  touched : ∃ new, fs'.touched = new ++ fs.touched ∧ ∀ l ∈ new, region l
  ways : fs.NoNewWays fs'

namespace Touches

variable {region : List OsName → Prop} {fs fs1 fs2 : Fs OsName} {l : List OsName}

theorem refl (fs : Fs OsName) : Touches region fs fs where
  touched := ⟨[], rfl, fun _ h => absurd h not_mem_nil⟩
  ways := Fs.NoNewWays.refl fs

theorem trans (h : Touches region fs fs1) (h' : Touches region fs1 fs2) :
    Touches region fs fs2 where
  touched := by
    obtain ⟨new, heq, hnew⟩ := h.touched
    obtain ⟨new', heq', hnew'⟩ := h'.touched
    refine ⟨new' ++ new, by rw [heq', heq, append_assoc], fun l hl => ?_⟩
    rcases mem_append.mp hl with hl | hl
    · exact hnew' l hl
    · exact hnew l hl
  ways := h.ways.trans h'.ways

theorem put_file (hl : region l) (bytes : List UInt8) :
    Touches region fs (fs.put l (.file bytes)) where
  touched := ⟨[l], rfl, fun x hx => mem_singleton.mp hx ▸ hl⟩
  ways := by
    intro x
    by_cases hx : x = l
    · subst hx
      simp [put]
    · simp [put, update_of_ne hx]

theorem moveNode {a b : List OsName} (ha : region a) (hb : region b) (bytes : List UInt8) :
    Touches region fs (fs.moveNode a b (.file bytes)) where
  touched := ⟨[a, b], rfl, forall_mem_cons.mpr ⟨ha, forall_mem_singleton.mpr hb⟩⟩
  ways := by
    intro x
    by_cases hxb : x = b
    · subst hxb
      simp [Fs.moveNode]
    · by_cases hxa : x = a
      · subst hxa
        simp [Fs.moveNode, update_of_ne hxb]
      · simp [Fs.moveNode, update_of_ne hxb, update_of_ne hxa]

theorem removeTree (hl : ∀ x, l <+: x → region x) : Touches region fs (fs.removeTree l) where
  touched := ⟨fs.locs.filter (l <+: ·), rfl, fun x hx =>
    hl x (of_decide_eq_true (mem_filter.mp hx).2)⟩
  ways := by
    intro x
    by_cases hx : l <+: x
    · simp [Fs.removeTree, hx]
    · simp [Fs.removeTree, hx]

end Touches

/-! ## The store touches its root -/

section

variable {h : Host}

/-- Below the store root. -/
def InRoot (h : Host) (l : List OsName) : Prop := h.root <+: l

theorem inRoot_entry (n : OsName) (r : List OsName) : InRoot h (h.root ++ [n] ++ r) := by
  rw [append_assoc]
  exact prefix_append _ _

theorem inRoot_name (n : OsName) : InRoot h (h.root ++ [n]) := prefix_append _ _

theorem publish_touches {staging : OsName} {p : StorePath} {w : World} {bytes : List UInt8}
    (hstaged : w.fs.node (h.root ++ [staging]) = some (.file bytes)) :
    Touches (InRoot h) w.fs (Store.publish h staging p w).2.fs := by
  have hremove : Touches (InRoot h) w.fs (w.fs.removeTree (h.root ++ [staging])) := by
    refine Touches.removeTree ?_
    rintro x ⟨r, rfl⟩
    exact inRoot_entry staging r
  unfold Store.publish
  dsimp only
  split
  · next fs hrename =>
    rw [rename_file hstaged] at hrename
    split at hrename
    · cases hrename
    · cases hrename
      exact Touches.moveNode (inRoot_name _) (inRoot_name _) bytes
  · split <;> exact hremove

/-- Whatever the outcome, the command touches `region` only. -/
def WorldTouches (region : List OsName → Prop) (w w' : World) : Prop := Touches region w.fs w'.fs

instance (region : List OsName → Prop) : IsPreorder World (WorldTouches region) where
  refl w := Touches.refl w.fs
  trans _ _ _ := Touches.trans

theorem writeAtomic_touches (p : StorePath) (bytes : List UInt8) :
    (Store.writeAtomic h p bytes).Relates (WorldTouches (InRoot h)) := by
  intro w
  set staging := utf8 (".tmp-blob" ++ "-" ++ toString h.pid ++ "-" ++ toString w.nonce) with hs
  have hrun : Store.writeAtomic h p bytes w =
      if (w.fs.node (h.root ++ [staging])).isSome then
        (.error .io, { w with nonce := w.nonce + 1 })
      else Store.publish h staging p
        { w with
          fs := w.fs.put (h.root ++ [staging]) (.file bytes)
          nonce := w.nonce + 1 } := by
    unfold Store.writeAtomic
    rw [bind_run]
    simp only [Store.uniqueStaging, ← hs]
    rw [bind_run]
    by_cases hthere : (w.fs.node (h.root ++ [staging])).isSome = true
    · simp [Store.createNew, hthere]
    · simp [Store.createNew, hthere]
  rw [hrun]
  split
  · exact Touches.refl w.fs
  · have hput : Touches (InRoot h) w.fs (w.fs.put (h.root ++ [staging]) (.file bytes)) :=
      Touches.put_file (inRoot_name staging) bytes
    refine hput.trans ?_
    exact publish_touches (w := { w with
      fs := w.fs.put (h.root ++ [staging]) (.file bytes)
      nonce := w.nonce + 1 }) (update_self ..)

theorem add_touches (name : String) (bytes : List UInt8) :
    (Store.add h name bytes).Relates (WorldTouches (InRoot h)) := by
  unfold Store.add Store.addRaw
  rw [if_neg (not_not.mpr rfl)]
  refine .bind (.ask _) fun path => .bind (.ask _) fun there => ?_
  split
  · exact .pure path
  · exact .bind (writeAtomic_touches path bytes) fun _ => .pure path

end

/-! ## Where outputs land -/

theorem osPath_of_plain {name : String} (hname : Plain name) (hnul : '\x00' ∉ name.toList) :
    osPath name = .ok (downs [utf8 name]) := by
  have hhead : name.toList.head? ≠ some '/' := fun heq =>
    hname.noSlash (mem_of_mem_head? heq)
  have hne : ∀ s : String, name ≠ s → name.toList ≠ s.toList := fun s hs heq =>
    hs (String.toList_inj.mp heq)
  have hstep : stepOf name.toList = .down (utf8 name) := by
    unfold stepOf
    split
    · next heq => exact absurd heq (hne "" hname.nonempty)
    · next heq => exact absurd heq (hne "." hname.notDot)
    · next heq => exact absurd heq (hne ".." hname.notDotDot)
    · rw [String.ofList_toList]
  rw [osPath, if_neg hnul, splitOn_eq_self hname.noSlash]
  simp [downs, hhead, hstep]

/-- Where `fs::write` of an output puts its bytes. -/
def lands (fs : Fs OsName) (temp : List OsName) (out : String) : Option (List OsName) :=
  match osPath out with
  | .error _ => none
  | .ok path =>
    match fs.resolve true temp path with
    | .ok (.entry l) => some l
    | _ => none

/-- The places of the writes, up to the first output that cannot be written. -/
def landings (fs : Fs OsName) (temp : List OsName) : List String → List (List OsName)
  | [] => []
  | out :: outs =>
    match lands fs temp out with
    | some l => l :: landings fs temp outs
    | none => []

theorem lands_eq_some {fs : Fs OsName} {temp l : List OsName} {out : String} :
    lands fs temp out = some l ↔
      ∃ path, osPath out = .ok path ∧ fs.resolve true temp path = .ok (.entry l) := by
  unfold lands
  cases osPath out with
  | error e => simp
  | ok path =>
    simp only [Except.ok.injEq, exists_eq_left']
    split
    · next l' hl => simp [hl]
    · next hne =>
      simp only [reduceCtorEq, false_iff]
      exact fun hl => hne l hl

variable {fs fs' : Fs OsName}

theorem lands_of_sameShape (h : fs.SameShape fs') (temp : List OsName)
    (out : String) : lands fs temp out = lands fs' temp out := by
  unfold lands
  cases osPath out with
  | error e => rfl
  | ok path =>
    have hres := resolve_of_sameShape h true temp path
    dsimp only
    rcases hr : fs.resolve true temp path with e | (d | l) <;>
      rcases hr' : fs'.resolve true temp path with e' | (d' | l') <;>
      simp_all [Except.toOption]

theorem landings_of_sameShape (h : fs.SameShape fs') (temp : List OsName) :
    ∀ outs, landings fs temp outs = landings fs' temp outs
  | [] => rfl
  | out :: outs => by
    rw [landings, landings, lands_of_sameShape h, landings_of_sameShape h temp outs]

namespace Derivation

theorem writeOutput_eq {temp : List OsName} {bytes : List UInt8} {out : String} {w : World} :
    writeOutput temp bytes out w = match lands w.fs temp out with
      | some l => (.ok (), { w with fs := w.fs.put l (.file bytes) })
      | none => (.error .spawn, w) := by
  unfold writeOutput lands
  cases osPath out with
  | error e => rfl
  | ok path =>
    simp only [write]
    rcases w.fs.resolve true temp path with e | (d | l) <;> rfl

/-- The loop writes where the outputs land and changes no directory and no link. -/
structure Wrote (temp : List OsName) (bytes : List UInt8) (outs : List String) (w : World)
    (r : Except BuildError Unit × World) : Prop where
  touched : r.2.fs.touched = (landings w.fs temp outs).reverse ++ w.fs.touched
  shape : w.fs.SameShape r.2.fs
  ok_iff : r.1 = .ok () ↔ ∀ out ∈ outs, lands w.fs temp out ≠ none
  kept : ∀ l, w.fs.node l = some (.file bytes) → r.2.fs.node l = some (.file bytes)
  written : ∀ out ∈ outs, ∀ l, r.1 = .ok () → lands w.fs temp out = some l →
    r.2.fs.node l = some (.file bytes)

theorem writeOutputs_spec (temp : List OsName) (bytes : List UInt8) :
    ∀ (outs : List String) (w : World), Wrote temp bytes outs w (writeOutputs temp bytes outs w)
  | [], w => ⟨rfl, .refl w.fs, iff_of_true rfl nofun, fun _ hl => hl, nofun⟩
  | out :: outs, w => by
    unfold writeOutputs
    rw [bind_run, writeOutput_eq]
    cases hl : lands w.fs temp out with
    | none =>
      exact ⟨by rw [landings, hl]; rfl, .refl w.fs, ⟨nofun, fun h => absurd hl (h out mem_cons_self)⟩,
        fun _ hl => hl, fun _ _ _ hok => nomatch hok⟩
    | some l =>
      obtain ⟨path, -, hres⟩ := lands_eq_some.mp hl
      have hshape : w.fs.SameShape (w.fs.put l (.file bytes)) :=
        sameShape_put_file ((entry_of_walk hres).resolve_right fun h => nomatch h.1) bytes
      have hlands := lands_of_sameShape hshape temp
      have ih := writeOutputs_spec temp bytes outs { w with fs := w.fs.put l (.file bytes) }
      refine ⟨?_, hshape.trans ih.shape, ?_, fun l' hl' => ih.kept l' ?_, fun o ho l' hok hl' => ?_⟩
      · dsimp only
        rw [ih.touched, ← landings_of_sameShape hshape, landings, hl, reverse_cons, append_assoc]
        rfl
      · rw [forall_mem_cons, hl, and_iff_right (Option.some_ne_none l)]
        simpa only [hlands] using ih.ok_iff
      · by_cases heq : l' = l
        · rw [heq]
          exact Function.update_self ..
        · exact (Function.update_of_ne heq _ _).trans hl'
      · rcases mem_cons.mp ho with rfl | ho
        · cases hl.symm.trans hl'
          exact ih.kept l (Function.update_self ..)
        · exact ih.written o ho l' hok ((hlands o).symm.trans hl')

/-! ## Capturing the outputs -/

section

variable {h : Host}

/-- From states that have no more ways than `fs1`, the root only is touched. -/
def TouchesFrom (h : Host) (fs1 : Fs OsName) (w w' : World) : Prop :=
  fs1.NoNewWays w.fs → Touches (InRoot h) w.fs w'.fs

instance (fs1 : Fs OsName) : IsPreorder World (TouchesFrom h fs1) where
  refl w := fun _ => Touches.refl w.fs
  trans _ _ _ h1 h2 := fun hw => (h1 hw).trans (h2 (hw.trans (h1 hw).ways))

variable {fs1 : Fs OsName} {temp : List OsName} {d : Derivation} {w : World} {name : String}

theorem inStore_touches {α : Type} {c : Command World StoreError α}
    (hc : c.Relates (WorldTouches (InRoot h))) : (inStore c).Relates (TouchesFrom h fs1) := by
  intro w _
  have hw := hc w
  unfold inStore
  split
  · next hrun => rwa [hrun] at hw
  · next hrun => rwa [hrun] at hw

/-- An output that was written is no directory, so it is stored as a blob or refused. -/
theorem captureOutput_touches {out : String} (hlands : lands fs1 temp out ≠ none) :
    (captureOutput h temp out).Relates (TouchesFrom h fs1) := by
  obtain ⟨l, hl⟩ := Option.ne_none_iff_exists'.mp hlands
  obtain ⟨path, hpath, hres⟩ := lands_eq_some.mp hl
  intro w hways
  unfold captureOutput
  rw [ask_bind_ok (a := path) (by rw [hpath])]
  cases hmeta : w.fs.symlinkMetadata temp path with
  | error e =>
    rw [ask_bind_error (e := .missingOutput out) (by rw [hmeta])]
    exact Touches.refl w.fs
  | ok node =>
    rw [ask_bind_ok (a := node) (by rw [hmeta])]
    cases node with
    | link t => exact Touches.refl w.fs
    | file bytes =>
      exact Command.Relates.bind (R := TouchesFrom h fs1) (.ask _)
        (fun bytes => inStore_touches (add_touches out bytes)) w hways
    | dir =>
      -- the path would have led to a directory before the write too
      obtain ⟨d, hd⟩ := symlinkMetadata_eq_dir hmeta
      have hd1 := walk_of_noNewWays hways hd
      obtain ⟨l', hl', -⟩ := walk_nofollow hres
      rw [hd1] at hl'
      cases hl'

theorem capture_touches : ∀ {outs : List String} {results : OrdMap String StorePath},
      (∀ out ∈ outs, lands fs1 temp out ≠ none) →
      (capture h temp outs results).Relates (TouchesFrom h fs1)
  | [], results, _ => .pure results
  | out :: _, _, hall =>
    .bind (captureOutput_touches (hall out mem_cons_self)) fun _ =>
      capture_touches fun out hout => hall out (mem_cons_of_mem _ hout)

/-! ## A whole build -/

/-- The directory of the build is fresh, and the record of what is touched starts with it. -/
structure BuildStart (h : Host) (d : Derivation) (w : World) : Prop where
  fresh : ∀ r, w.fs.node (d.tempLoc h w.builds ++ r) = none
  record : w.fs.touched = []

/-- Below the directory of the build or the store root. -/
def Inside (h : Host) (d : Derivation) (w : World) (l : List OsName) : Prop :=
  d.tempLoc h w.builds <+: l ∨ h.root <+: l

/-- Everything that `realize` creates, writes or deletes is inside, however it ends. -/
def Confined (h : Host) (external : External) (d : Derivation) (w : World) : Prop :=
  ∀ l ∈ (d.realize h external w).2.fs.touched, Inside h d w l

/-- The file system in which a builder starts. -/
def builderFs (h : Host) (d : Derivation) (w : World) : Fs OsName :=
  w.fs.put (d.tempLoc h w.builds) .dir

/-- The places that the builder writes to, if it has something to write. -/
def builderWrites (h : Host) (d : Derivation) (name : String) (fs : Fs OsName)
    (temp : List OsName) : List (List OsName) :=
  match d.builtinBytes h name fs with
  | .ok _ => landings fs temp d.outputs
  | .error _ => []

/-- If the build gets to its builder, everything that the builder writes lands inside. -/
def LandsInside (h : Host) (d : Derivation) (name : String) (w : World) : Prop :=
  isPlainName d.name = true → '\x00' ∉ d.name.toList →
    ∀ l ∈ builderWrites h d name (builderFs h d w) (d.tempLoc h w.builds), Inside h d w l

/-- The name of a build directory adds digits and a fixed text to the derivation's name. -/
theorem mem_tempName {n : Nat} {c : Char} (hdigit : c.isDigit = false)
    (htext : c ∉ "dnx-build-".toList) : c ∈ (d.tempName h n).toList ↔ c ∈ d.name.toList := by
  have hnat : ∀ m : Nat, c ∉ (toString m).toList := by
    intro m hm
    rw [Nat.toString_eq_ofList_toDigits, String.toList_ofList] at hm
    rw [Nat.isDigit_of_mem_toDigits (by decide : 0 < 10) (by decide) hm] at hdigit
    cases hdigit
  have hdash : c ∉ "-".toList := fun hc => htext (by
    rw [mem_singleton.mp hc]
    decide)
  simp only [tempName, String.toList_append, mem_append, htext, hdash, hnat, false_or]

theorem tempName_plain {n : Nat} (hplain : Plain d.name) : Plain (d.tempName h n) := by
  have hlength : 10 ≤ (d.tempName h n).toList.length := by
    simp only [tempName, String.toList_append, length_append]
    have : "dnx-build-".toList.length = 10 := rfl
    omega
  have hne : ∀ s : String, s.toList.length < 10 → d.tempName h n ≠ s := by
    rintro s hs rfl
    omega
  exact
    { nonempty := hne "" (by decide)
      notDot := hne "." (by decide)
      notDotDot := hne ".." (by decide)
      noSlash := fun hmem => hplain.noSlash ((mem_tempName (by decide) (by decide)).mp hmem) }

/-- Where a build starts: with an empty directory of its own, unless its name is refused. -/
theorem makeTempDir_eq (hstart : BuildStart h d w) : d.makeTempDir h w =
      if isPlainName d.name = false then (.error (badName d.name), w)
      else if '\x00' ∈ d.name.toList then (.error .spawn, { w with builds := w.builds + 1 })
      else (.ok (d.tempLoc h w.builds),
        { w with fs := builderFs h d w, builds := w.builds + 1 }) := by
  unfold makeTempDir
  by_cases hname : isPlainName d.name = true
  · have hplain := isPlainName_iff.mp hname
    have hnul : '\x00' ∈ (d.tempName h w.builds).toList ↔ '\x00' ∈ d.name.toList :=
      mem_tempName (by decide) (by decide)
    rw [hname]
    by_cases hmem : '\x00' ∈ d.name.toList
    · simp [osPath, hnul.mpr hmem, hmem]
    · have hnone : w.fs.node (h.tempDir ++ ([] ++ [utf8 (d.tempName h w.builds)])) = none := by
        have := hstart.fresh []
        rwa [append_nil] at this
      have hmkdir : w.fs.createDirAll h.tempDir (downs [utf8 (d.tempName h w.builds)]) =
          (.ok (), builderFs h d w) :=
        createDirAll_last dirsTo_nil hnone 0
      rw [osPath_of_plain (tempName_plain hplain) (fun hc => hmem (hnul.mp hc))]
      simp [hmkdir, hmem]
  · rw [Bool.not_eq_true] at hname
    simp [hname]

theorem runBuiltin_eq : d.runBuiltin h name temp w = match d.builtinBytes h name w.fs with
      | .ok bytes => writeOutputs temp bytes d.outputs w
      | .error e => (.error e, w) := by
  unfold runBuiltin
  rw [bind_run, ask]
  cases d.builtinBytes h name w.fs <;> rfl

theorem realizeIn_touches (external : External) (hbuiltin : d.builtin = some name)
    (temp : List OsName) (w : World) : ∃ new, (d.realizeIn h external temp w).2.fs.touched =
        new ++ (builderWrites h d name w.fs temp).reverse ++ w.fs.touched ∧
      ∀ l ∈ new, InRoot h l := by
  unfold realizeIn builderWrites
  rw [hbuiltin]
  dsimp only
  rw [bind_run, runBuiltin_eq]
  cases d.builtinBytes h name w.fs with
  | error e => exact ⟨[], rfl, fun _ hl => absurd hl not_mem_nil⟩
  | ok bytes =>
    dsimp only
    have hwrote := writeOutputs_spec temp bytes d.outputs w
    rcases hrun : writeOutputs temp bytes d.outputs w with ⟨e | u, w1⟩ <;> rw [hrun] at hwrote
    · exact ⟨[], hwrote.touched, fun _ hl => absurd hl not_mem_nil⟩
    · have hall1 : ∀ out ∈ d.outputs, lands w1.fs temp out ≠ none := by
        intro out hout
        rw [← lands_of_sameShape hwrote.shape]
        exact hwrote.ok_iff.mp rfl out hout
      have hcapture : Touches (InRoot h) w1.fs (capture h temp d.outputs .empty w1).2.fs :=
        capture_touches hall1 w1 (Fs.NoNewWays.refl w1.fs)
      obtain ⟨new, hnew, hroot⟩ := hcapture.touched
      refine ⟨new, ?_, hroot⟩
      dsimp only
      rw [hnew, hwrote.touched, append_assoc]

/-- A builtin build is confined exactly if every output that it writes lands inside. -/
theorem realize_confined_iff {external : External} {d : Derivation} {name : String} {w : World}
    (hbuiltin : d.builtin = some name) (hstart : BuildStart h d w) :
    Confined h external d w ↔ LandsInside h d name w := by
  unfold Confined LandsInside realize
  rw [makeTempDir_eq hstart]
  by_cases hname : isPlainName d.name = true
  · rw [hname, if_neg nofun]
    by_cases hnul : '\x00' ∈ d.name.toList
    · rw [if_pos hnul]
      simp [hstart.record, hnul]
    · rw [if_neg hnul]
      obtain ⟨new, htouched, hroot⟩ := realizeIn_touches (h := h) external hbuiltin
        (d.tempLoc h w.builds) { w with fs := builderFs h d w, builds := w.builds + 1 }
      have hstarted : (builderFs h d w).touched = [d.tempLoc h w.builds] :=
        congrArg (d.tempLoc h w.builds :: ·) hstart.record
      -- the directory, the writes, the store, and the removal of the directory
      simp only [Fs.removeTree, htouched, hstarted, mem_append, mem_filter,
        mem_reverse, mem_singleton, decide_eq_true_eq]
      constructor
      · exact fun hall _ _ l hl => hall l (.inr (.inl (.inr hl)))
      · rintro hlands l (⟨-, hl⟩ | (hl | hl) | rfl)
        · exact .inl hl
        · exact .inr (hroot l hl)
        · exact hlands trivial hnul l hl
        · exact .inl (prefix_refl _)
  · rw [Bool.not_eq_true] at hname
    rw [if_pos hname]
    simp [hstart.record, hname]

theorem mem_landings {fs : Fs OsName} {l : List OsName} : ∀ {outs : List String},
    l ∈ landings fs temp outs → ∃ out ∈ outs, lands fs temp out = some l
  | out :: outs, hl => by
    unfold landings at hl
    split at hl
    · next l' hl' =>
      rcases mem_cons.mp hl with rfl | hl
      · exact ⟨out, mem_cons_self, hl'⟩
      · obtain ⟨out', hout', hlands⟩ := mem_landings hl
        exact ⟨out', mem_cons_of_mem _ hout', hlands⟩
    · exact absurd hl not_mem_nil

theorem landsInside_of_plain (hstart : BuildStart h d w)
    (hplain : ∀ out ∈ d.outputs, isPlainName out = true) : LandsInside h d name w := by
  intro _ _ l hl
  unfold builderWrites at hl
  split at hl
  · obtain ⟨out, hout, hlands⟩ := mem_landings hl
    obtain ⟨path, hpath, hres⟩ := lands_eq_some.mp hlands
    by_cases hnul : '\x00' ∈ out.toList
    · rw [osPath, if_pos hnul] at hpath
      cases hpath
    · rw [osPath_of_plain (isPlainName_iff.mp (hplain out hout)) hnul] at hpath
      cases hpath
      have hnone : (builderFs h d w).node (d.tempLoc h w.builds ++ [utf8 out]) = none := by
        refine (update_of_ne ?_ _ _).trans (hstart.fresh _)
        exact fun heq => cons_ne_nil _ _ (append_right_eq_self.mp heq)
      rw [resolve_name_leaf (isLeaf_of_none hnone)] at hres
      cases hres
      exact .inl (prefix_append _ _)
  · exact absurd hl not_mem_nil

end

/-! ## Two builds -/

/-- A temporary directory and a store. -/
def buildWorld : World where
  fs :=
    { node := fun l => if l = [utf8 "store"] ∨ l = [utf8 "tmp"] then some .dir else none
      locs := [[utf8 "store"], [utf8 "tmp"]]
      covers := by
        intro l hl
        split at hl
        · next h => simpa using h
        · exact absurd rfl hl
      touched := [] }
  nonce := 0
  builds := 0

theorem buildWorld_start (d : Derivation) : BuildStart Store.smallHost d buildWorld where
  fresh := by
    intro r
    simp [buildWorld, tempLoc, Store.smallHost]
  record := rfl

/-- `builtin:write` with one output. -/
def writeAttrs (out : String) : List (String × PrimValue Empty) :=
  [("name", .str "x"), ("builder", .str "builtin:write"), ("text", .str "t"),
    ("outputs", .list [.str out])]

def writeDrv (out : String) : Derivation where
  name := "x"
  builder := "builtin:write"
  args := []
  env := OrdMap.empty.insertAll [("name", "x"), ("builder", "builtin:write"), ("text", "t")]
  inputSrcs := []
  outputs := [out]

def noProgram : External := fun _ _ => pure ()

/-- The output `out` lands in the directory of the build. -/
theorem writeOut_confined : fromAttrs (writeAttrs "out") = .ok (writeDrv "out") ∧
      Confined Store.smallHost noProgram (writeDrv "out") buildWorld := by
  have hbuiltin : (writeDrv "out").builtin = some "write" := by decide +kernel
  refine ⟨by rfl, (realize_confined_iff hbuiltin (buildWorld_start _)).mpr ?_⟩
  refine landsInside_of_plain (buildWorld_start _) fun out hout => ?_
  rw [mem_singleton.mp hout]
  decide +kernel

/-- The output `../y` lands next to it. -/
theorem outside_not_confined : fromAttrs (writeAttrs "../y") = .ok (writeDrv "../y") ∧
      (writeDrv "../y").builtin = some "write" ∧
      BuildStart Store.smallHost (writeDrv "../y") buildWorld ∧
      ¬ Confined Store.smallHost noProgram (writeDrv "../y") buildWorld := by
  refine ⟨by rfl, by decide +kernel, buildWorld_start _, fun hconfined => ?_⟩
  have htouched : [utf8 "tmp", utf8 "y"] ∈
      ((writeDrv "../y").realize Store.smallHost noProgram buildWorld).2.fs.touched := by
    decide +kernel
  have hinside : ¬ Inside Store.smallHost (writeDrv "../y") buildWorld [utf8 "tmp", utf8 "y"] := by
    unfold Inside
    decide +kernel
  exact hinside (hconfined _ htouched)

end Derivation

end Dnet
