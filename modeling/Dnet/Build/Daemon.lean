import Dnet.Build.Storable
import Dnet.Lib.Memo

/-!
# The daemon

A daemon answers requests one after the other (server.rs). For a build it first writes the
derivation to the store and takes the key of the file as the key of its memo table; only if
the table has no entry does it call the realizer, and a success is entered.

If the realizer's answer depends on the derivation only, then so does the daemon's, and no
derivation is realized twice. But a name that the store refuses fails when the daemon
instantiates, where a local builder succeeds (`backslash_refused`, `daemon_as_local_iff`).
-/

namespace Dnet

open Lib List Command

/-! ## Errors and their texts -/

/-- A message after a heading. -/
def Message.after (heading : String) : Message → Message
  | .text s => .text (heading ++ s)
  | .quoting before value after => .quoting (heading ++ before) value after

/-- `Display` of a derivation error; the text of an error of the operating system is left
out. -/
def DrvError.message : DrvError → Message
  | .store e => e.message.after "store: "
  | .spawn => .text "builder spawn"
  | .build (some code) => .text ("builder failed with exit code " ++ toString code)
  | .build none => .text "builder killed by signal"
  | .missingOutput n => .quoting "builder produced no output " n ""
  | .outputSymlink n => .quoting "output " n " is a symlink; build outputs must be real files"
  | .badAttrs m => m.after "invalid derivation attrs: "
  | .unknownBuiltin n => .text ("unknown builtin builder \"builtin:" ++ n ++ "\"")
  | .missingInput p => .text ("input " ++ p.display ++ " is not in the store")
  | .decode m => m.after "malformed derivation bytes: "

inductive DaemonError where
  | io
  | frameTooLarge
  | badTag
  | protocol (m : String)
  | build (e : DrvError)
  | store (e : StoreError)
  | noOutput
  | notRunning
  deriving DecidableEq

inductive DaemonErrorKind where
  | io | frameTooLarge | badTag | build | notFound | protocol | hashMismatch
  deriving DecidableEq, Repr

namespace DaemonError

def kind : DaemonError → DaemonErrorKind
  | .io => .io
  | .frameTooLarge => .frameTooLarge
  | .badTag => .badTag
  | .protocol _ => .protocol
  | .build _ => .build
  | .store _ => .io
  | .noOutput => .notFound
  | .notRunning => .io

def message : DaemonError → Message
  | .io => .text "daemon io"
  | .frameTooLarge => .text "frame exceeds MAX_FRAME"
  | .badTag => .text "unknown protocol tag"
  | .protocol m => .text ("protocol: " ++ m)
  | .build e => e.message.after "build: "
  | .store e => e.message.after "store: "
  | .noOutput => .text "derivation produced no output"
  | .notRunning => .text "no daemon at socket"

end DaemonError

/-! ## The local builder -/

/-- The output `out`, or else the first one that is declared. -/
def primaryOutput (d : Derivation) (outs : OrdMap String StorePath) : Option StorePath :=
  match outs.get? "out" with
  | some p => some p
  | none => d.outputs.head?.bind outs.get?

def LocalBuilder.realizePrimary (h : Host) (external : Derivation.External) (d : Derivation) :
    Command World DaemonError StorePath := fun w =>
  match d.realize h external w with
  | (.error e, w) => (.error (.build e), w)
  | (.ok outs, w) =>
    match primaryOutput d outs with
    | some p => (.ok p, w)
    | none => (.error .noOutput, w)

/-! ## Requests and replies -/

inductive Request where
  | build (drvBytes : List UInt8)
  | storeQuery (hash : Blake3Hash)
  | cacheLookup (hash : Blake3Hash)
  | ping
  | shutdown
  deriving DecidableEq

inductive Response where
  | built (p : StorePath)
  | storePresent (b : Bool)
  | cacheHit (blob : List UInt8)
  | cacheMiss
  | pong (version queueDepth built : Nat)
  | failed (kind : DaemonErrorKind) (message : Message)
  deriving DecidableEq

def protoVersion : Nat := 1

/-- How the result of a build goes over the wire. -/
def Response.ofBuild : Except DaemonError StorePath → Response
  | .ok p => .built p
  | .error e => .failed e.kind e.message

/-- A file of the root whose name is a text that starts with the key in hex and a dash. -/
def storeHasHash (h : Host) (fs : Fs OsName) (hash : Blake3Hash) : Bool :=
  (fs.readDir h.root).any fun name =>
    match String.fromUTF8? name.toByteArray with
    | some name => (hash.1.flatMap StorePath.hexByte ++ ['-']).isPrefixOf name.toList
    | none => false

/-! ## The daemon's state -/

/-- `store` is the file system that the store lives on. `realized` is a record of the model:
the derivations that were realized with success, the last one first. -/
structure Daemon where
  store : World
  warm : List (Blake3Hash × List UInt8)
  built : List (Blake3Hash × StorePath)
  realized : List Derivation

namespace Daemon

def new (store : World) : Daemon := ⟨store, [], [], []⟩

def builtCount (s : Daemon) : Nat := s.built.length

section

variable (h : Host) (realize : Derivation → Command World DaemonError StorePath)

/-- A command of the store, run on the daemon's. -/
def onStore {ε α : Type} (c : Command World ε α) : Command Daemon ε α := fun s =>
  ((c s.store).1, { s with store := (c s.store).2 })

/-- `instantiate` with its error as an error of the daemon. -/
def instantiateKey (d : Derivation) : Command World DaemonError Blake3Hash := fun w =>
  match d.instantiate h w with
  | (.ok p, w) => (.ok p.hash, w)
  | (.error e, w) => (.error (.build e), w)

def enter (d : Derivation) (key : Blake3Hash) (out : StorePath) :
    Command Daemon DaemonError StorePath := fun s =>
  (.ok out, { s with built := memoInsert s.built key out, realized := d :: s.realized })

def buildMemo (d : Derivation) : Command Daemon DaemonError StorePath := do
  let key ← onStore (instantiateKey h d)
  match ← .ask fun s => .ok (s.built.lookup key) with
  | some out => return out
  | none =>
    let out ← onStore (realize d)
    enter d key out

def buildWire (drvBytes : List UInt8) : Command Daemon DaemonError StorePath := do
  let d ← .ask fun _ => match Derivation.fromBytes drvBytes with
    | .ok d => .ok d
    | .error e => .error (.build e)
  buildMemo h realize d

/-- The count is cut to 32 bits. -/
def pong (s : Daemon) : Response := .pong protoVersion 0 (s.builtCount % 2 ^ 32)

/-- The reply, whether the daemon stops, and its state. -/
def handle (s : Daemon) : Request → Response × Bool × Daemon
  | .build drvBytes =>
    let (result, s) := buildWire h realize drvBytes s
    (.ofBuild result, false, s)
  | .storeQuery hash => (.storePresent (storeHasHash h s.store.fs hash), false, s)
  | .cacheLookup hash =>
    match s.warm.lookup hash with
    | some blob => (.cacheHit blob, false, s)
    | none => (.cacheMiss, false, s)
  | .ping => (pong s, false, s)
  | .shutdown => (pong s, true, s)

/-- The requests that are answered, with their replies, and the state at the end. -/
def acceptLoop : Daemon → List Request → List (Request × Response) × Daemon
  | s, [] => ([], s)
  | s, req :: reqs =>
    let (res, stop, s) := handle h realize s req
    if stop then ([(req, res)], s)
    else
      let (log, s) := acceptLoop s reqs
      ((req, res) :: log, s)

end

/-! ## A realizer whose answer depends on the derivation -/

/-- A derivation that is asked for. -/
def Requested (reqs : List Request) (d : Derivation) : Prop :=
  ∃ drvBytes, Request.build drvBytes ∈ reqs ∧ Derivation.fromBytes drvBytes = .ok d

/-- In the states that are `good` the store works and the answer of the realizer to what is
`asked` is `result`; building leads to such states only. The hash function has no collision
between the derivations that are asked for. -/
structure Setting (h : Host) (realize : Derivation → Command World DaemonError StorePath)
    (result : Derivation → Except DaemonError StorePath) (good : World → Prop)
    (asked : Derivation → Prop) : Prop where
  ready : ∀ {w}, good w → Store.Ready h w
  instantiates : ∀ {w d}, good w → asked d → good (d.instantiate h w).2
  realizes : ∀ {w d}, good w → asked d → (realize d w).1 = result d ∧ good (realize d w).2
  order : ∀ {d d'}, asked d → asked d' → d.SameUpToOrder d' → result d = result d'
  inMemory : ∀ {d}, asked d → d.InMemory
  injective : Set.InjOn h.blake3 (Derivation.toBytes '' {d | asked d})

/-- The key of a derivation in the table. -/
def key (h : Host) (d : Derivation) : Blake3Hash := h.blake3 d.toBytes

/-- What the store says to the name of the derivation's file. -/
def refusal (d : Derivation) : DaemonError := .build (.store (.badName (d.name ++ ".drv")))

def answer (result : Derivation → Except DaemonError StorePath) (d : Derivation) :
    Except DaemonError StorePath :=
  if isSingleComponent (d.name ++ ".drv") then result d else .error (refusal d)

/-- The table is that of the derivations realized. -/
structure Memoised (h : Host) (result : Derivation → Except DaemonError StorePath)
    (good : World → Prop) (asked : Derivation → Prop) (s : Daemon) : Prop where
  store : good s.store
  records : Records (key h) (fun d out => result d = .ok out) s.realized s.built
  realized : ∀ d ∈ s.realized, asked d

section

variable {h : Host} {realize : Derivation → Command World DaemonError StorePath}
  {result : Derivation → Except DaemonError StorePath} {good : World → Prop}
  {asked : Derivation → Prop}

variable {d : Derivation} {s : Daemon}

theorem Setting.key_eq_iff (hs : Setting h realize result good asked) {d' : Derivation}
    (hd : asked d) (hd' : asked d') : key h d = key h d' ↔ d.SameUpToOrder d' := by
  rw [← Derivation.toBytes_eq_iff (hs.inMemory hd)]
  exact hs.injective.eq_iff ⟨d, hd, rfl⟩ ⟨d', hd', rfl⟩

theorem instantiateKey_eq {w : World} (hw : Store.Ready h w) (d : Derivation) :
    instantiateKey h d w =
      (if isSingleComponent (d.name ++ ".drv") then .ok (key h d) else .error (refusal d),
        (d.instantiate h w).2) := by
  have hadd := (hw.add (d.name ++ ".drv") d.toBytes).1
  unfold instantiateKey Derivation.instantiate
  rcases hrun : Store.add h (d.name ++ ".drv") d.toBytes w with ⟨e | p, w'⟩
  · rw [hrun] at hadd
    obtain ⟨hname, rfl⟩ := StorePath.new_eq_error.mp hadd.symm
    rw [hname]
    rfl
  · rw [hrun] at hadd
    obtain ⟨hhash, hname⟩ := StorePath.new_eq_ok.mp hadd.symm
    have hsingle : isSingleComponent (d.name ++ ".drv") = true := hname ▸ p.single
    rw [if_pos hsingle, key, hhash]

theorem onStore_eq {ε α : Type} {c : Command World ε α} {r : Except ε α} {w : World}
    (hrun : c s.store = (r, w)) : onStore c s = (r, { s with store := w }) := by
  unfold onStore
  rw [hrun]

/-- The four ways of a build: refused, remembered, failed, realized. -/
theorem buildMemo_eq (hw : Store.Ready h s.store) (d : Derivation) :
    buildMemo h realize d s =
      let w := (d.instantiate h s.store).2
      if isSingleComponent (d.name ++ ".drv") then
        match s.built.lookup (key h d) with
        | some out => (.ok out, { s with store := w })
        | none =>
          match realize d w with
          | (.ok out, w) => (.ok out, { s with
              store := w
              built := memoInsert s.built (key h d) out
              realized := d :: s.realized })
          | (.error e, w) => (.error e, { s with store := w })
      else (.error (refusal d), { s with store := w }) := by
  have hkey := onStore_eq (instantiateKey_eq hw d)
  dsimp only
  by_cases hname : isSingleComponent (d.name ++ ".drv") = true
  · rw [if_pos hname] at hkey ⊢
    refine (bind_of_ok hkey).trans ((ask_bind_ok
      (f := fun s : Daemon => .ok (s.built.lookup (key h d))) rfl).trans ?_)
    dsimp only
    cases s.built.lookup (key h d) with
    | some out => rfl
    | none =>
      dsimp only
      rcases hrun : realize d (d.instantiate h s.store).2 with ⟨e | out, w⟩
      · exact bind_of_error (onStore_eq hrun)
      · exact bind_of_ok (onStore_eq hrun)
  · rw [if_neg hname] at hkey ⊢
    exact bind_of_error hkey

/-- A build is answered from the name and the realizer alone, whatever the table holds. -/
theorem buildMemo_spec (hs : Setting h realize result good asked)
    (hm : Memoised h result good asked s) (hd : asked d) :
    (buildMemo h realize d s).1 = answer result d ∧
      Memoised h result good asked (buildMemo h realize d s).2 := by
  have hgood := hs.instantiates hm.store hd
  rw [buildMemo_eq (hs.ready hm.store), answer]
  dsimp only
  by_cases hname : isSingleComponent (d.name ++ ".drv") = true
  · rw [if_pos hname, if_pos hname]
    cases hlookup : s.built.lookup (key h d) with
    | some out =>
      obtain ⟨d', hd', hsame, hout⟩ := hm.records.hit hlookup
      have hresult := hs.order hd (hm.realized d' hd')
        ((hs.key_eq_iff hd (hm.realized d' hd')).mp hsame)
      exact ⟨(hresult.trans hout).symm, hgood, hm.records, hm.realized⟩
    | none =>
      obtain ⟨hrun, hgood'⟩ := hs.realizes hgood hd
      rcases hout : realize d (d.instantiate h s.store).2 with ⟨e | out, w⟩
      · rw [hout] at hrun hgood'
        exact ⟨hrun, hgood', hm.records, hm.realized⟩
      · rw [hout] at hrun hgood'
        exact ⟨hrun, hgood', hm.records.miss hlookup hrun.symm, forall_mem_cons.mpr ⟨hd, hm.realized⟩⟩
  · rw [if_neg hname, if_neg hname]
    exact ⟨rfl, hgood, hm.records, hm.realized⟩

/-! ## Whole runs -/

/-- The result for the bytes of a derivation, for a given way to answer derivations. -/
def decoded (answer : Derivation → Except DaemonError StorePath) (drvBytes : List UInt8) :
    Except DaemonError StorePath :=
  match Derivation.fromBytes drvBytes with
  | .ok d => answer d
  | .error e => .error (.build e)

/-- The requests before the daemon stops. -/
def answered : List Request → List Request
  | [] => []
  | .shutdown :: _ => [.shutdown]
  | req :: reqs => req :: answered reqs

theorem buildWire_spec (hs : Setting h realize result good asked)
    (hm : Memoised h result good asked s) {drvBytes : List UInt8}
    (hreq : ∀ d, Derivation.fromBytes drvBytes = .ok d → asked d) :
    (buildWire h realize drvBytes s).1 = decoded (answer result) drvBytes ∧
      Memoised h result good asked (buildWire h realize drvBytes s).2 := by
  cases hdecode : Derivation.fromBytes drvBytes with
  | error e =>
    have hrun : buildWire h realize drvBytes s = (.error (.build e), s) :=
      bind_of_error (by rw [ask, hdecode])
    rw [hrun, decoded, hdecode]
    exact ⟨rfl, hm⟩
  | ok d =>
    have hrun : buildWire h realize drvBytes s = buildMemo h realize d s :=
      bind_of_ok (by rw [ask, hdecode])
    rw [hrun, decoded, hdecode]
    exact buildMemo_spec hs hm (hreq d hdecode)

theorem handle_spec (hs : Setting h realize result good asked)
    (hm : Memoised h result good asked s) {req : Request}
    (hreq : ∀ d, Requested [req] d → asked d) : (∀ drvBytes, req = .build drvBytes →
      (handle h realize s req).1 = .ofBuild (decoded (answer result) drvBytes)) ∧
    ((handle h realize s req).2.1 = true ↔ req = .shutdown) ∧
    Memoised h result good asked (handle h realize s req).2.2 := by
  cases req with
  | build drvBytes =>
    have hwire := buildWire_spec hs hm fun d hd => hreq d ⟨drvBytes, mem_singleton_self _, hd⟩
    refine ⟨?_, ⟨nofun, nofun⟩, hwire.2⟩
    rintro _ ⟨⟩
    exact congrArg Response.ofBuild hwire.1
  | storeQuery hash | ping => exact ⟨nofun, ⟨nofun, nofun⟩, hm⟩
  | cacheLookup hash =>
    unfold handle
    dsimp only
    split <;> exact ⟨nofun, ⟨nofun, nofun⟩, hm⟩
  | shutdown => exact ⟨nofun, ⟨fun _ => rfl, fun _ => rfl⟩, hm⟩

theorem acceptLoop_spec (hs : Setting h realize result good asked) :
    ∀ {s : Daemon} {reqs : List Request}, Memoised h result good asked s →
      (∀ d, Requested reqs d → asked d) →
      (acceptLoop h realize s reqs).1.map Prod.fst = answered reqs ∧
      (∀ e ∈ (acceptLoop h realize s reqs).1, ∀ drvBytes, e.1 = .build drvBytes →
        e.2 = .ofBuild (decoded (answer result) drvBytes)) ∧
      Memoised h result good asked (acceptLoop h realize s reqs).2
  | s, [], hm, _ => ⟨rfl, nofun, hm⟩
  | s, req :: reqs, hm, hreqs => by
    have hreq : ∀ d, Requested [req] d → asked d := fun d ⟨bytes, hmem, hd⟩ =>
      hreqs d ⟨bytes, mem_cons.mpr (.inl (mem_singleton.mp hmem)), hd⟩
    obtain ⟨hreply, hstop, hm'⟩ := handle_spec hs hm hreq
    unfold acceptLoop
    rcases hhandle : handle h realize s req with ⟨res, stop, s'⟩
    rw [hhandle] at hreply hstop hm'
    dsimp only at hreply hstop hm' ⊢
    split
    · next hstops =>
      obtain rfl := hstop.mp hstops
      exact ⟨rfl, forall_mem_singleton.mpr hreply, hm'⟩
    · next hgoes =>
      have hreqs' : ∀ d, Requested reqs d → asked d := fun d ⟨bytes, hmem, hd⟩ =>
        hreqs d ⟨bytes, mem_cons_of_mem _ hmem, hd⟩
      obtain ⟨hmap, hreplies, hfinal⟩ := acceptLoop_spec hs hm' hreqs'
      refine ⟨?_, forall_mem_cons.mpr ⟨hreply, hreplies⟩, hfinal⟩
      rw [map_cons, hmap]
      cases req with
      | shutdown => exact absurd (hstop.mpr rfl) hgoes
      | _ => rfl

/-- The replies to builds are those of a local builder. -/
def AsLocal (result : Derivation → Except DaemonError StorePath)
    (log : List (Request × Response)) : Prop :=
  ∀ e ∈ log, ∀ drvBytes, e.1 = .build drvBytes → e.2 = .ofBuild (decoded result drvBytes)

/-- No two of the realized derivations are the same up to the order of their sources, and the
count is their number. -/
def OncePerDerivation (s : Daemon) : Prop :=
  s.realized.Pairwise (fun d d' => ¬ d.SameUpToOrder d') ∧ s.builtCount = s.realized.length

/-- The name of the derivation's file is one that the store accepts, or the builder refuses it
in the same words. -/
def Accepted (result : Derivation → Except DaemonError StorePath) (d : Derivation) : Prop :=
  isSingleComponent (d.name ++ ".drv") = true ∨
    Response.ofBuild (result d) = .ofBuild (.error (refusal d))

theorem accepted_iff :
    Accepted result d ↔ Response.ofBuild (answer result d) = .ofBuild (result d) := by
  unfold Accepted answer
  split
  · next hname => exact iff_of_true (.inl hname) rfl
  · next hname =>
    exact ⟨fun h => (h.resolve_left hname).symm, fun h => .inr h.symm⟩

theorem Memoised.once (hs : Setting h realize result good asked)
    (hm : Memoised h result good asked s) : OncePerDerivation s := by
  refine ⟨?_, hm.records.entries.length_eq.symm⟩
  refine (pairwise_map.mp hm.records.once).imp_of_mem fun hd hd' hne hsame => ?_
  exact hne ((hs.key_eq_iff (hm.realized _ hd) (hm.realized _ hd')).mpr hsame)

/-- In every run of a fresh daemon the replies are those of a local builder, no derivation is
realized twice and the count is the number of those realized, exactly if every derivation that
is asked for before the daemon stops is accepted. -/
theorem daemon_as_local_iff {reqs : List Request}
    (hs : Setting h realize result good (Requested reqs)) {w : World} (hw : good w) :
    AsLocal result (acceptLoop h realize (new w) reqs).1 ∧
        OncePerDerivation (acceptLoop h realize (new w) reqs).2 ↔
      ∀ d, Requested (answered reqs) d → Accepted result d := by
  have hm : Memoised h result good (Requested reqs) (new w) := ⟨hw, ⟨.nil, nodup_nil⟩, nofun⟩
  obtain ⟨hmap, hreplies, hfinal⟩ := acceptLoop_spec hs hm fun _ hd => hd
  rw [and_iff_left (hfinal.once hs)]
  constructor
  · rintro hlocal d ⟨bytes, hmem, hd⟩
    rw [← hmap] at hmem
    obtain ⟨e, he, hbuild⟩ := mem_map.mp hmem
    have hsame := (hreplies e he bytes hbuild).symm.trans (hlocal e he bytes hbuild)
    rw [decoded, decoded, hd] at hsame
    exact accepted_iff.mpr hsame
  · intro haccepted e he bytes hbuild
    rw [hreplies e he bytes hbuild, decoded, decoded]
    cases hd : Derivation.fromBytes bytes with
    | error _ => rfl
    | ok d =>
      refine accepted_iff.mp (haccepted d ⟨bytes, ?_, hd⟩)
      rw [← hmap, ← hbuild]
      exact mem_map_of_mem he

end

/-! ## A realizer that stores the derivation itself -/

def stored (h : Host) (d : Derivation) : Except DaemonError StorePath :=
  match StorePath.new (h.blake3 d.toBytes) "out" with
  | .ok p => .ok p
  | .error e => .error (.store e)

def storing (h : Host) (d : Derivation) : Command World DaemonError StorePath := fun w =>
  match Store.add h "out" d.toBytes w with
  | (.ok p, w) => (.ok p, w)
  | (.error e, w) => (.error (.store e), w)

theorem storing_spec {h : Host} {w : World} (hw : Store.Ready h w) (d : Derivation) :
    (storing h d w).1 = stored h d ∧ Store.Ready h (storing h d w).2 := by
  obtain ⟨hadd, hready⟩ := hw.add "out" d.toBytes
  unfold storing stored
  rcases hrun : Store.add h "out" d.toBytes w with ⟨e | p, w'⟩
  · rw [hrun] at hadd hready
    rw [← hadd]
    exact ⟨rfl, hready⟩
  · rw [hrun] at hadd hready
    rw [← hadd]
    exact ⟨rfl, hready⟩

theorem Ready.instantiate {h : Host} {w : World} (hw : Store.Ready h w) (d : Derivation) :
    Store.Ready h (d.instantiate h w).2 := by
  have hready := (hw.add (d.name ++ ".drv") d.toBytes).2
  unfold Derivation.instantiate
  rcases hrun : Store.add h (d.name ++ ".drv") d.toBytes w with ⟨e | p, w'⟩
  · rw [hrun] at hready
    exact hready
  · rw [hrun] at hready
    exact hready

theorem storing_setting (h : Host) {d : Derivation} (hd : d.InMemory) {reqs : List Request}
    (hreqs : ∀ drvBytes, Request.build drvBytes ∈ reqs → drvBytes = d.toBytes) :
    Setting h (storing h) (stored h) (Store.Ready h) (Requested reqs) := by
  have honly : ∀ {d'}, Requested reqs d' → d' = d.canonical := by
    rintro d' ⟨bytes, hmem, hdecode⟩
    rw [hreqs bytes hmem, Derivation.fromBytes_toBytes hd] at hdecode
    exact (Except.ok.inj hdecode).symm
  have hcanonical : d.canonical.InMemory := by
    have hsame : d.canonical.SameUpToOrder d :=
      ⟨rfl, rfl, rfl, rfl, StorePath.sort_perm _, rfl⟩
    unfold Derivation.InMemory
    rw [Derivation.toBytes_eq_of_sameUpToOrder hsame]
    exact hd
  refine ⟨id, fun hw _ => Ready.instantiate hw _, fun hw _ => storing_spec hw _,
    fun hd1 hd2 _ => ?_, fun hd' => ?_, ?_⟩
  · rw [honly hd1, honly hd2]
  · rw [honly hd']
    exact hcanonical
  · rintro _ ⟨d1, hd1, rfl⟩ _ ⟨d2, hd2, rfl⟩ _
    rw [honly hd1, honly hd2]

theorem buildWorld_ready : Store.Ready Store.smallHost Derivation.buildWorld := by
  refine ⟨[], Store.Inv.empty fun n r => ?_⟩
  simp [Derivation.buildWorld, Store.smallHost]

def writeTwice : List Request :=
  [.build (Derivation.writeDrv "out").toBytes, .ping, .build (Derivation.writeDrv "out").toBytes]

/-- The same derivation twice. -/
theorem writeTwice_as_local :
    Setting Store.smallHost (storing Store.smallHost) (stored Store.smallHost)
      (Store.Ready Store.smallHost) (Requested writeTwice) ∧
    AsLocal (stored Store.smallHost) (acceptLoop Store.smallHost (storing Store.smallHost)
      (new Derivation.buildWorld) writeTwice).1 ∧
    OncePerDerivation (acceptLoop Store.smallHost (storing Store.smallHost)
      (new Derivation.buildWorld) writeTwice).2 := by
  have hsmall : (Derivation.writeDrv "out").InMemory := by
    unfold Derivation.InMemory
    decide +kernel
  have hbuilds : ∀ drvBytes, Request.build drvBytes ∈ writeTwice →
      drvBytes = (Derivation.writeDrv "out").toBytes := by
    intro drvBytes hmem
    simpa [writeTwice] using hmem
  have hs := storing_setting Store.smallHost hsmall hbuilds
  refine ⟨hs, (daemon_as_local_iff hs buildWorld_ready).mpr fun d hd => .inl ?_⟩
  obtain ⟨drvBytes, hmem, hdecode⟩ := hd
  rw [hbuilds drvBytes hmem, Derivation.fromBytes_toBytes hsmall] at hdecode
  rw [← Except.ok.inj hdecode]
  decide +kernel

/-- A local builder builds the derivation with the backslash in its name, and the daemon
refuses it, with the builder of the program and with one that the assumptions hold for. -/
theorem backslash_refused :
    Setting Store.smallHost (storing Store.smallHost) (stored Store.smallHost)
      (Store.Ready Store.smallHost) (Requested [.build Derivation.backslashDrv.toBytes]) ∧
    Store.Ready Store.smallHost Derivation.buildWorld ∧
    ¬ AsLocal (stored Store.smallHost) (acceptLoop Store.smallHost (storing Store.smallHost)
      (new Derivation.buildWorld) [.build Derivation.backslashDrv.toBytes]).1 ∧
    (LocalBuilder.realizePrimary Store.smallHost Derivation.noProgram Derivation.backslashDrv
      Derivation.buildWorld).1.isOk = true ∧
    (acceptLoop Store.smallHost (LocalBuilder.realizePrimary Store.smallHost Derivation.noProgram)
      (new Derivation.buildWorld) [.build Derivation.backslashDrv.toBytes]).1.map Prod.snd =
        [.failed .build (.quoting "build: store: invalid store name: " "a\\b.drv" "")] := by
  have hsmall : Derivation.backslashDrv.InMemory := by
    unfold Derivation.InMemory
    decide +kernel
  refine ⟨storing_setting Store.smallHost hsmall ?_, buildWorld_ready, fun hlocal => ?_,
    by decide +kernel, by decide +kernel⟩
  · rintro drvBytes hmem
    simpa using hmem
  · have hreplies : ∀ e ∈ (acceptLoop Store.smallHost (storing Store.smallHost)
        (new Derivation.buildWorld) [.build Derivation.backslashDrv.toBytes]).1,
          e.2 ≠ .ofBuild (decoded (stored Store.smallHost) Derivation.backslashDrv.toBytes) := by
      decide +kernel
    have hmem : (Request.build Derivation.backslashDrv.toBytes) ∈ (acceptLoop Store.smallHost
        (storing Store.smallHost) (new Derivation.buildWorld)
          [.build Derivation.backslashDrv.toBytes]).1.map Prod.fst := by
      decide +kernel
    obtain ⟨e, he, hbuild⟩ := mem_map.mp hmem
    exact hreplies e he (hlocal e he _ hbuild)

end Daemon

end Dnet
