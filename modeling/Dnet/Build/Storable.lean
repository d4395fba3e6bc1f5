import Dnet.Build.Confined

/-!
# Storable names

`from_attrs` accepts a name that is a single path component (`is_plain_name`); the store
refuses backslashes and control characters too (`is_single_component`), and output names are
not checked at all. So a derivation that was accepted can fail with `BadName`
(`backslash_badName`), unless its name and the names of the outputs that are stored are storable
(`neverBadName_iff`).
-/

namespace Dnet

open Lib List Command

section

variable {h : Host} {w : World} {bytes : List UInt8}

/-! ## When the store refuses a name -/

theorem publish_ne_badName {staging : OsName} {p : StorePath} {n : String} :
    (Store.publish h staging p w).1 ≠ .error (.badName n) := by
  unfold Store.publish
  dsimp only
  split
  · nofun
  · split <;> nofun

theorem writeAtomic_ne_badName {p : StorePath} {n : String} :
    (Store.writeAtomic h p bytes w).1 ≠ .error (.badName n) := by
  intro herror
  have hrun : Store.writeAtomic h p bytes w =
      (.error (.badName n), (Store.writeAtomic h p bytes w).2) := Prod.ext herror rfl
  rcases bind_eq_error.mp hrun with hstaging | ⟨staging, w₁, -, hrun⟩
  · cases hstaging
  · rcases bind_eq_error.mp hrun with hcreate | ⟨_, w2, -, hpublish⟩
    · unfold Store.createNew at hcreate
      split at hcreate <;> cases hcreate
    · exact publish_ne_badName (congrArg Prod.fst hpublish)

/-- `add` refuses the names that are no single component, and fails with `BadName` for no
other reason. -/
theorem add_badName_iff {name : String} :
    (∃ n, (Store.add h name bytes w).1 = .error (.badName n)) ↔ isSingleComponent name = false := by
  constructor
  · rintro ⟨n, herror⟩
    have hrun : Store.add h name bytes w =
        (.error (.badName n), (Store.add h name bytes w).2) := Prod.ext herror rfl
    unfold Store.add Store.addRaw at hrun
    rw [if_neg (not_not.mpr rfl)] at hrun
    rcases bind_eq_error.mp hrun with hnew | ⟨path, w₁, -, hrun⟩
    · exact (StorePath.new_eq_error.mp (congrArg Prod.fst hnew)).1
    · rcases bind_eq_error.mp hrun with hask | ⟨there, w2, -, hrun⟩
      · cases hask
      · split at hrun
        · cases hrun
        · rcases bind_eq_error.mp hrun with hwrite | ⟨_, w3, -, hrun⟩
          · exact absurd (congrArg Prod.fst hwrite) writeAtomic_ne_badName
          · cases hrun
  · intro hname
    have hnew : StorePath.new (h.blake3 bytes) name = .error (.badName name) :=
      StorePath.new_eq_error.mpr ⟨hname, rfl⟩
    refine ⟨name, ?_⟩
    unfold Store.add Store.addRaw
    rw [if_neg (not_not.mpr rfl), bind_run, ask, hnew]

namespace Derivation

section

variable {d : Derivation} {w : World} {name : String} {temp : List OsName}

theorem instantiate_badName_iff : (∃ n, (d.instantiate h w).1 = .error (.store (.badName n))) ↔
      isSingleComponent (d.name ++ ".drv") = false := by
  have hadd : (∃ n, (Store.add h (d.name ++ ".drv") d.toBytes w).1 = .error (.badName n)) ↔ _ :=
    add_badName_iff
  rw [← hadd]
  unfold instantiate
  refine exists_congr fun n => ?_
  split
  · next hrun => rw [hrun]; exact ⟨nofun, nofun⟩
  · next hrun => rw [hrun]; simp

theorem isSingleComponent_drv (hname : Plain name) : isSingleComponent (name ++ ".drv") = true ↔
      ∀ c ∈ name.toList, isControl c = false ∧ c ≠ '\\' := by
  have hplain : Plain (name ++ ".drv") := by
    have hlength : 4 ≤ (name ++ ".drv").toList.length := by
      rw [String.toList_append, length_append]
      have : ".drv".toList.length = 4 := rfl
      omega
    have hne : ∀ s : String, s.toList.length < 4 → name ++ ".drv" ≠ s := by
      rintro s hs rfl
      omega
    refine ⟨hne "" (by decide), hne "." (by decide), hne ".." (by decide), ?_⟩
    rw [String.toList_append, mem_append, not_or]
    exact ⟨hname.noSlash, by decide⟩
  rw [isSingleComponent_iff]
  constructor
  · rintro ⟨-, hchars⟩ c hc
    exact hchars c (by rw [String.toList_append]; exact mem_append_left _ hc)
  · intro hchars
    refine ⟨hplain, fun c hc => ?_⟩
    rw [String.toList_append, mem_append] at hc
    rcases hc with hc | hc
    · exact hchars c hc
    · have hdrv : ∀ c ∈ ".drv".toList, isControl c = false ∧ c ≠ '\\' := by simp [isControl]
      exact hdrv c hc

/-! ## Outputs that were produced -/

/-- The builder has something to write and can write every output. -/
def Produces (h : Host) (d : Derivation) (name : String) (temp : List OsName) (fs : Fs OsName) :
    Prop :=
  (∃ bytes, d.builtinBytes h name fs = .ok bytes) ∧ ∀ out ∈ d.outputs, lands fs temp out ≠ none

/-- The path of the output ends at a symbolic link. -/
def IsLink (fs : Fs OsName) (temp : List OsName) (out : String) : Prop :=
  ∃ path l t, osPath out = .ok path ∧ fs.resolve false temp path = .ok (.entry l) ∧
    fs.node l = some (.link t)

theorem produces_of_runBuiltin {w₁ : World} (hrun : d.runBuiltin h name temp w = (.ok (), w₁)) :
    Produces h d name temp w.fs := by
  rw [runBuiltin_eq] at hrun
  cases hbytes : d.builtinBytes h name w.fs with
  | error e =>
    rw [hbytes] at hrun
    cases hrun
  | ok bytes =>
    rw [hbytes] at hrun
    exact ⟨⟨bytes, hbytes⟩,
      (writeOutputs_spec temp bytes d.outputs w).ok_iff.mp (congrArg Prod.fst hrun)⟩

theorem captureOutput_badName_iff {w₁ : World} (hrun : d.runBuiltin h name temp w = (.ok (), w₁))
    {out : String} (hout : out ∈ d.outputs) :
    (∃ n, (captureOutput h temp out w₁).1 = .error (.store (.badName n))) ↔
      ¬ IsLink w.fs temp out ∧ isSingleComponent out = false := by
  obtain ⟨⟨bytes, hbytes⟩, hall⟩ := produces_of_runBuiltin hrun
  rw [runBuiltin_eq, hbytes] at hrun
  have hwrote := writeOutputs_spec temp bytes d.outputs w
  rw [show writeOutputs temp bytes d.outputs w = (.ok (), w₁) from hrun] at hwrote
  have hshape : w.fs.SameShape w₁.fs := hwrote.shape
  obtain ⟨l, hl⟩ := Option.ne_none_iff_exists'.mp (hall out hout)
  have hfile : w₁.fs.node l = some (.file bytes) := hwrote.written out hout l rfl hl
  rw [lands_of_sameShape hshape] at hl
  obtain ⟨path, hpath, hres⟩ := lands_eq_some.mp hl
  obtain ⟨l', hl', hend⟩ := Fs.walk_nofollow hres
  have hl' : w₁.fs.resolve false temp path = .ok (.entry l') := hl'
  have hlink : IsLink w.fs temp out ↔ ∃ t, w₁.fs.node l' = some (.link t) := by
    have hsame := Fs.resolve_of_sameShape hshape false temp path
    rw [hl'] at hsame
    have hresw : w.fs.resolve false temp path = .ok (.entry l') := Store.ok_of_toOption hsame
    constructor
    · rintro ⟨path', l'', t, hpath', hl'', ht⟩
      cases hpath.symm.trans hpath'
      cases hresw.symm.trans hl''
      exact ⟨t, ((hshape l').2 t).mp ht⟩
    · rintro ⟨t, ht⟩
      exact ⟨path, l', t, hpath, hresw, ((hshape l').2 t).mpr ht⟩
  unfold captureOutput
  rw [hlink, ask_bind_ok (a := path) (by rw [hpath])]
  rcases hend with rfl | ⟨t, ht⟩
  · have hmeta : w₁.fs.symlinkMetadata temp path = .ok (.file bytes) := by
      simp only [Fs.symlinkMetadata, hl', hfile]
    have hread : w₁.fs.read temp path = .ok bytes := by
      simp only [Fs.read, hres, hfile]
    rw [ask_bind_ok (a := .file bytes) (by rw [hmeta])]
    dsimp only
    rw [ask_bind_ok (a := bytes) (by rw [hread])]
    have hadd : (∃ n, (Store.add h out bytes w₁).1 = .error (.badName n)) ↔ _ := add_badName_iff
    rw [← hadd, hfile]
    unfold inStore
    constructor
    · rintro ⟨n, hn⟩
      refine ⟨by simp, n, ?_⟩
      split at hn
      · cases hn
      · next hrun =>
        rw [hrun]
        cases hn
        rfl
    · rintro ⟨-, n, hn⟩
      refine ⟨n, ?_⟩
      split
      · next hrun =>
        rw [hrun] at hn
        cases hn
      · next hrun =>
        rw [hrun] at hn
        cases hn
        rfl
  · have hmeta : w₁.fs.symlinkMetadata temp path = .ok (.link t) := by
      simp only [Fs.symlinkMetadata, hl', ht]
    rw [ask_bind_ok (a := .link t) (by rw [hmeta])]
    constructor
    · rintro ⟨n, hn⟩
      cases hn
    · rintro ⟨hno, -⟩
      exact absurd ⟨t, ht⟩ hno

/-! ## Accepted derivations -/

/-- Instantiation does not fail with `BadName`, and when a builtin builder has produced the
outputs in `temp`, storing one of them does not. -/
def NeverBadName (h : Host) (d : Derivation) (temp : List OsName) (w : World) : Prop :=
  (∀ n, (d.instantiate h w).1 ≠ .error (.store (.badName n))) ∧
  ∀ name w₁, d.builtin = some name → d.runBuiltin h name temp w = (.ok (), w₁) →
    ∀ out ∈ d.outputs, ∀ n, (captureOutput h temp out w₁).1 ≠ .error (.store (.badName n))

/-- The name has no backslash and no control character, and if the outputs can be produced, each
is a link, which is refused, or has a storable name. -/
def StorableNames (h : Host) (d : Derivation) (temp : List OsName) (w : World) : Prop :=
  (∀ c ∈ d.name.toList, isControl c = false ∧ c ≠ '\\') ∧
  ∀ name, d.builtin = some name → Produces h d name temp w.fs →
    ∀ out ∈ d.outputs, IsLink w.fs temp out ∨ isSingleComponent out = true

theorem runBuiltin_of_produces (hprod : Produces h d name temp w.fs) :
    ∃ w₁, d.runBuiltin h name temp w = (.ok (), w₁) := by
  obtain ⟨⟨bytes, hbytes⟩, hall⟩ := hprod
  refine ⟨(writeOutputs temp bytes d.outputs w).2, ?_⟩
  rw [runBuiltin_eq, hbytes]
  exact Prod.ext ((writeOutputs_spec temp bytes d.outputs w).ok_iff.mpr hall) rfl

/-- An accepted derivation never fails with `BadName` exactly if its names are storable. -/
theorem neverBadName_iff {P : Type} {attrs : List (String × PrimValue P)} {d : Derivation}
    (hd : fromAttrs attrs = .ok d) (temp : List OsName) (w : World) :
    NeverBadName h d temp w ↔ StorableNames h d temp w := by
  have hname : (∀ n, (d.instantiate h w).1 ≠ .error (.store (.badName n))) ↔
      ∀ c ∈ d.name.toList, isControl c = false ∧ c ≠ '\\' := by
    rw [← not_exists, instantiate_badName_iff, Bool.not_eq_false,
      isSingleComponent_drv (fromAttrs_plain hd)]
  refine and_congr hname ⟨fun hstored name hbuiltin hprod out hout => ?_,
    fun hstorable name w₁ hbuiltin hrun out hout => ?_⟩
  · obtain ⟨w₁, hrun⟩ := runBuiltin_of_produces hprod
    have hnever := not_exists.mpr (hstored name w₁ hbuiltin hrun out hout)
    rw [captureOutput_badName_iff hrun hout, not_and_or, not_not, Bool.not_eq_false] at hnever
    exact hnever
  · rw [← not_exists, captureOutput_badName_iff hrun hout, not_and_or, not_not, Bool.not_eq_false]
    exact hstorable name hbuiltin (produces_of_runBuiltin hrun) out hout

/-- The attributes with the output `out` meet the condition. -/
theorem writeOut_neverBadName :
    NeverBadName Store.smallHost (writeDrv "out") [utf8 "tmp"] buildWorld := by
  have hd : fromAttrs (writeAttrs "out") = .ok (writeDrv "out") := by rfl
  refine (neverBadName_iff hd [utf8 "tmp"] buildWorld).mpr
    ⟨by simp [writeDrv, isControl], fun _ _ _ out hout => ?_⟩
  rw [mem_singleton.mp hout]
  exact .inr (by decide +kernel)

def backslashAttrs : List (String × PrimValue Empty) :=
  [("name", .str "a\\b"), ("builder", .str "builtin:json")]

def backslashDrv : Derivation where
  name := "a\\b"
  builder := "builtin:json"
  args := []
  env := OrdMap.empty.insertAll [("name", "a\\b"), ("builder", "builtin:json")]
  inputSrcs := []
  outputs := ["out"]

/-- A backslash passes the check of `from_attrs` and fails that of the store. -/
theorem backslash_badName : fromAttrs backslashAttrs = .ok backslashDrv ∧
    ¬ NeverBadName Store.smallHost backslashDrv [utf8 "tmp"] buildWorld := by
  have hname : isSingleComponent (backslashDrv.name ++ ".drv") = false := by decide +kernel
  refine ⟨by rfl, fun hnever => ?_⟩
  obtain ⟨n, hn⟩ := instantiate_badName_iff.mpr hname
  exact hnever.1 n hn

end

end Derivation

end

end Dnet
