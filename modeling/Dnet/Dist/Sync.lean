import Dnet.Dist.Wire

/-!
# Serving and pulling blobs

The two ends of a transfer (dnx-dist/wire.rs): the server answers one request on each connection,
the client asks for keys and imports what it is sent.

The server stops at the first connection that it cannot answer, such as a client that hangs up
(`serve_answers_iff`, `serve_hangUp`). The client imports whatever passes the check, asked for or
not (`syncPull_solicited_iff`, `syncPull_unasked`).
-/

namespace Dnet

namespace Wire

open Lib DiskCache List

/-! ## The server -/

section

variable (cache : DiskCache) (fs : Fs OsName)

/-- The blobs of the keys that are there. -/
def exportAll : List Blake3Hash → Except CacheError (List (Blake3Hash × List UInt8))
  | [] => .ok []
  | k :: keys => do
    let blob ← cache.exportBlob fs k
    return (blob.map (k, ·)).toList ++ (← exportAll keys)

/-- What is sent to a client that sent `s`. -/
def serveConn (s : List UInt8) : Except CacheError (List UInt8) := do
  match (← readMsg s).1 with
  | .want keys => writeMsg (.blobs (← exportAll cache fs keys))
  | .have' keys => writeMsg (.held (keys.map (cache.contains fs)))
  | .blobs _ | .held _ | .failed _ _ => writeMsg (.failed 2 "unexpected request")

/-- What is sent on the connections that are served, and how the loop ends. -/
def serve : List (List UInt8) → List (List UInt8) × Except CacheError Unit
  | [] => ([], .ok ())
  | s :: conns =>
    match serveConn cache fs s with
    | .error e => ([], .error e)
    | .ok out => (out :: (serve conns).1, (serve conns).2)

/-- The answer to a message, from what the cache holds. -/
def answer : Msg → Msg
  | .want keys => .blobs (keys.filterMap fun k => (cache.found fs k).map (k, ·))
  | .have' keys => .held (keys.map fun k => (cache.found fs k).isSome)
  | .blobs _ | .held _ | .failed _ _ => .failed 2 "unexpected request"

/-- A complete frame, whose answer fits into a frame. -/
def Servable (s : List UInt8) : Prop :=
  ∃ m rest out, readMsg s = .ok (m, rest) ∧ writeMsg (answer cache fs m) = .ok out

end

/-- `Want` or `Have`. -/
def Msg.IsRequest : Msg → Prop
  | .want _ | .have' _ => True
  | .blobs _ | .held _ | .failed _ _ => False

section

variable {cache : DiskCache} {fs : Fs OsName} {s out : List UInt8} {conns : List (List UInt8)}

theorem exportAll_eq (keys : List Blake3Hash) : exportAll cache fs keys =
    .ok (keys.filterMap fun k => (cache.found fs k).map (k, ·)) := by
  induction keys with
  | nil => rfl
  | cons k keys ih =>
    rw [exportAll, cache.exportBlob_eq, ih, filterMap_cons]
    cases cache.found fs k <;> rfl

theorem serveConn_of_readMsg {m : Msg} {rest : List UInt8} (h : readMsg s = .ok (m, rest)) :
    serveConn cache fs s = writeMsg (answer cache fs m) := by
  rw [serveConn, h]
  cases m with
  | want keys =>
    show (exportAll cache fs keys >>= _) = _
    rw [exportAll_eq]
    rfl
  | have' keys =>
    show writeMsg (.held (keys.map (cache.contains fs))) = _
    rw [answer, funext (cache.contains_eq fs)]
  | blobs _ | held _ | failed _ _ => rfl

theorem servable_of_serveConn (h : serveConn cache fs s = .ok out) : Servable cache fs s := by
  obtain ⟨⟨m, rest⟩, hread, -⟩ := bind_eq_ok.mp h
  exact ⟨m, rest, out, hread, (serveConn_of_readMsg hread).symm.trans h⟩

/-- A connection is served exactly if it and all before it can be. -/
theorem serve_getElem? {k : Nat} (hk : conns[k]? = some s) :
    (serve cache fs conns).1[k]? = some out ↔
      (∀ i ≤ k, ∀ s', conns[i]? = some s' → Servable cache fs s') ∧
        serveConn cache fs s = .ok out := by
  induction conns generalizing k with
  | nil => cases hk
  | cons s0 conns ih =>
    rw [serve]
    cases hconn : serveConn cache fs s0 with
    | error e =>
      constructor
      · nofun
      · rintro ⟨hall, -⟩
        obtain ⟨m, rest, out0, hread, hwrite⟩ := hall 0 (Nat.zero_le k) s0 rfl
        rw [serveConn_of_readMsg hread, hwrite] at hconn
        cases hconn
    | ok out0 =>
      have hfirst := servable_of_serveConn hconn
      cases k with
      | zero =>
        cases hk
        rw [hconn]
        constructor
        · intro h
          cases h
          refine ⟨fun i hi s' hs' => ?_, rfl⟩
          obtain rfl := Nat.le_zero.mp hi
          cases hs'
          exact hfirst
        · rintro ⟨-, h⟩
          cases h
          rfl
      | succ k =>
        rw [List.getElem?_cons_succ] at hk ⊢
        rw [ih hk]
        refine and_congr_left fun _ => ⟨fun h i hi s' hs' => ?_, fun h i hi => h (i + 1) (by omega)⟩
        cases i with
        | zero =>
          cases hs'
          exact hfirst
        | succ i => exact h i (by omega) s' hs'

end

/-- The requests are answered from the cache exactly if, for each of them, every connection up to
it sends a complete frame whose answer fits into a frame. -/
theorem serve_answers_iff (cache : DiskCache) (fs : Fs OsName) (conns : List (List UInt8)) :
    (∀ (k : Nat) s m rest, conns[k]? = some s → readMsg s = .ok (m, rest) → m.IsRequest →
        ∃ out, (serve cache fs conns).1[k]? = some out ∧ writeMsg (answer cache fs m) = .ok out) ↔
      ∀ (k : Nat) s m rest, conns[k]? = some s → readMsg s = .ok (m, rest) → m.IsRequest →
        ∀ i ≤ k, ∀ s', conns[i]? = some s' → Servable cache fs s' := by
  refine forall₄_congr fun k s m rest => forall₃_congr fun hk hread _ => ?_
  constructor
  · rintro ⟨out, hout, -⟩
    exact ((serve_getElem? hk).mp hout).1
  · intro hall
    obtain ⟨m', rest', out, hread', hwrite⟩ := hall k le_rfl s hk
    rw [hread] at hread'
    cases hread'
    exact ⟨out, (serve_getElem? hk).mpr ⟨hall, (serveConn_of_readMsg hread).trans hwrite⟩, hwrite⟩

/-- The second client asks for nothing and is not answered, since the first one hung up. -/
theorem serve_hangUp : readMsg (Msg.want []).frame = .ok (.want [], []) ∧
    serve ⟨[]⟩ emptyFs [[], (Msg.want []).frame] = ([], .error (.io .unexpectedEof)) ∧
      writeMsg (answer ⟨[]⟩ emptyFs (.want [])) = .ok (Msg.blobs []).frame := by
  decide +kernel

/-! ## The client -/

section

variable (blake3 : List UInt8 → Blake3Hash) (debug : Bool) (cache : DiskCache) (pid : Nat)

/-- The loop of `sync_pull`; `clock` gives the times of the writes. -/
def importAll : (Nat → Nat) → List (Blake3Hash × List UInt8) → Command (Fs OsName) CacheAbort Unit
  | _, [] => pure ()
  | clock, (hash, blob) :: pairs => do
    cache.importBlob blake3 debug pid (clock 0) hash blob
    importAll (fun i => clock (i + 1)) pairs

/-- `sync_pull`, when the peer sends `s`. -/
def syncPull (clock : Nat → Nat) (want : List Blake3Hash) (s : List UInt8) :
    Command (Fs OsName) CacheAbort Unit :=
  match writeMsg (.want want) with
  | .error e => .fail (.err e)
  | .ok _ =>
    match readMsg s with
    | .error e => .fail (.err e)
    | .ok (.blobs pairs, _) => importAll blake3 debug cache pid clock pairs
    | .ok (.failed _ why, _) => .fail (.err (ioErr ("peer refused: " ++ why)))
    | .ok (.want _, _) | .ok (.have' _, _) | .ok (.held _, _) =>
      .fail (.err (ioErr "peer sent an unexpected reply to Want"))

/-- The last blob for a key among the pairs before the first one that does not pass the check. -/
def lastAccepted (key : Blake3Hash) : List (Blake3Hash × List UInt8) → Option (List UInt8)
  | [] => none
  | (hash, blob) :: pairs =>
    match checkBlob blake3 debug hash blob with
    | .error _ => none
    | .ok _ => (lastAccepted key pairs).or (if key = hash then some blob else none)

end

/-- The pairs that a peer sends. -/
def sentPairs (want : List Blake3Hash) (s : List UInt8) : List (Blake3Hash × List UInt8) :=
  match writeMsg (.want want), readMsg s with
  | .ok _, .ok (.blobs pairs, _) => pairs
  | _, _ => []

section

variable {blake3 : List UInt8 → Blake3Hash} {debug : Bool} {cache : DiskCache} {pid : Nat}
  {fs : Fs OsName} {key : Blake3Hash} {blob : List UInt8}

theorem checkBlob_of_lastAccepted {pairs : List (Blake3Hash × List UInt8)}
    (h : lastAccepted blake3 debug key pairs = some blob) :
    ∃ v, checkBlob blake3 debug key blob = .ok v := by
  induction pairs with
  | nil => cases h
  | cons pair pairs ih =>
    unfold lastAccepted at h
    split at h
    · cases h
    · next v hcheck =>
      rcases Option.or_eq_some_iff.mp h with hlater | ⟨-, hfirst⟩
      · exact ih hlater
      · obtain ⟨rfl, hblob⟩ := Option.ite_none_right_eq_some.mp hfirst
        cases hblob
        exact ⟨v, hcheck⟩

theorem importAll_stored (hplain : cache.Plain fs) (pid : Nat) (clock : Nat → Nat)
    (pairs : List (Blake3Hash × List UInt8)) :
    cache.Plain (importAll blake3 debug cache pid clock pairs fs).2 ∧
      ∀ k, cache.stored (importAll blake3 debug cache pid clock pairs fs).2 k =
        (lastAccepted blake3 debug k pairs).or (cache.stored fs k) := by
  -- on the pairs; the files change under the loop
  induction pairs generalizing fs clock with
  | nil => exact ⟨hplain, fun _ => rfl⟩
  | cons pair pairs ih =>
    unfold importAll lastAccepted
    cases hcheck : checkBlob blake3 debug pair.1 pair.2 with
    | error e =>
      have himport : cache.importBlob blake3 debug pid (clock 0) pair.1 pair.2 fs = (.error e, fs) := by
        simp only [importBlob, hcheck]
      rw [Command.bind_of_error himport]
      exact ⟨hplain, fun _ => rfl⟩
    | ok v =>
      obtain ⟨fs1, himport, hplain1, hstored1⟩ := hplain.importBlob_ok pid (clock 0) hcheck
      rw [Command.bind_of_ok himport]
      obtain ⟨hplain', hstored⟩ := ih hplain1 fun i => clock (i + 1)
      refine ⟨hplain', fun k => (hstored k).trans ?_⟩
      rw [hstored1 k, Option.or_assoc]
      split <;> rfl

variable {fs' : Fs OsName} {r : Except CacheAbort Unit} {clock : Nat → Nat}
  {want : List Blake3Hash} {s : List UInt8}

theorem syncPull_stored (hplain : cache.Plain fs)
    (hrun : syncPull blake3 debug cache pid clock want s fs = (r, fs')) :
    cache.Plain fs' ∧ ∀ k, cache.stored fs' k =
      (lastAccepted blake3 debug k (sentPairs want s)).or (cache.stored fs k) := by
  obtain rfl : _ = fs' := congrArg Prod.snd hrun
  have hsame : cache.Plain fs ∧ ∀ k, cache.stored fs k = none.or (cache.stored fs k) :=
    ⟨hplain, fun _ => rfl⟩
  unfold syncPull sentPairs
  rcases writeMsg (.want want) with e | out
  · exact hsame
  · rcases readMsg s with e | ⟨m, rest⟩
    · exact hsame
    · cases m with
      | blobs pairs => exact importAll_stored hplain pid clock pairs
      | want _ | have' _ | held _ | failed _ _ => exact hsame

/-- After a pull nothing is there but what was there and what was asked for, what is new can be
loaded, and no other blob is changed — exactly if each blob that is accepted under another key is
the one that is there. -/
theorem syncPull_solicited_iff (hplain : cache.Plain fs)
    (hrun : syncPull blake3 debug cache pid clock want s fs = (r, fs')) :
    ((∀ k, cache.contains fs' k → cache.contains fs k ∨ k ∈ want) ∧
      (∀ k, cache.contains fs' k → ¬ cache.contains fs k →
        ∃ v, cache.load blake3 debug fs' k = .ok (some v)) ∧
      ∀ k ∉ want, ∀ b, cache.exportBlob fs k = .ok (some b) →
        cache.exportBlob fs' k = .ok (some b)) ↔
      ∀ k ∉ want, ∀ b, lastAccepted blake3 debug k (sentPairs want s) = some b →
        cache.exportBlob fs k = .ok (some b) := by
  obtain ⟨hplain', hstored⟩ := syncPull_stored hplain hrun
  simp only [cache.contains_eq, cache.exportBlob_eq, hplain.found_eq, hplain'.found_eq,
    Except.ok.injEq, Option.isSome_iff_exists, not_exists]
  constructor
  · rintro ⟨hasked, -, hkept⟩ k hk b haccepted
    have hafter : cache.stored fs' k = some b := by rw [hstored, haccepted, Option.some_or]
    obtain ⟨b', hbefore⟩ := (hasked k ⟨b, hafter⟩).resolve_right hk
    have hsame := hkept k hk b' hbefore
    rwa [hafter, ← hbefore, eq_comm] at hsame
  · intro h
    refine ⟨fun k hafter => ?_, fun k hafter hnew => ?_, fun k hk b hbefore => ?_⟩
    · obtain ⟨b, hafter⟩ := hafter
      rw [hstored] at hafter
      rcases Option.or_eq_some_iff.mp hafter with haccepted | ⟨-, hbefore⟩
      · exact or_iff_not_imp_right.mpr fun hk => ⟨b, h k hk b haccepted⟩
      · exact .inl ⟨b, hbefore⟩
    · obtain ⟨b, hafter⟩ := hafter
      have haccepted := hafter
      rw [hstored] at haccepted
      obtain haccepted := (Option.or_eq_some_iff.mp haccepted).resolve_right fun h => hnew b h.2
      obtain ⟨v, hcheck⟩ := checkBlob_of_lastAccepted haccepted
      refine ⟨v, ?_⟩
      rw [load_eq ((hplain'.found_eq k).trans hafter), hcheck]
      rfl
    · rw [hstored]
      refine Option.or_eq_some_iff.mpr ?_
      cases haccepted : lastAccepted blake3 debug k (sentPairs want s) with
      | none => exact .inr ⟨rfl, hbefore⟩
      | some b' => exact .inl ((h k hk b' haccepted).symm.trans hbefore)

/-- Whatever the peers send, pulls keep the cache sound, and all it holds can be loaded. -/
theorem pulls_sound (h : cache.Sound blake3 debug fs)
    (hrun : Relation.ReflTransGen (fun a b => ∃ pid clock want s r,
      syncPull blake3 debug cache pid clock want s a = (r, b)) fs fs') :
    cache.Sound blake3 debug fs' ∧
      ∀ k, cache.contains fs' k → ∃ v, cache.load blake3 debug fs' k = .ok (some v) := by
  have hsound : cache.Sound blake3 debug fs' := by
    induction hrun with
    | refl => exact h
    | tail _ hstep ih =>
      obtain ⟨pid, clock, want, s, r, hpull⟩ := hstep
      obtain ⟨hplain, hstored⟩ := syncPull_stored ih.plain hpull
      refine ⟨hplain, fun k b hb => ?_⟩
      rw [hstored] at hb
      rcases Option.or_eq_some_iff.mp hb with hnew | ⟨-, hold⟩
      · exact checkBlob_of_lastAccepted hnew
      · exact ih.checked k b hold
  refine ⟨hsound, fun k hk => ?_⟩
  rw [contains_eq, hsound.plain.found_eq] at hk
  obtain ⟨b, hb⟩ := Option.isSome_iff_exists.mp hk
  obtain ⟨v, hv⟩ := hsound.checked k b hb
  refine ⟨v, ?_⟩
  rw [load_eq ((hsound.plain.found_eq k).trans hb), hv]
  rfl

end

/-- What a peer sends that has the identity. -/
def sendsIdentity (key : Blake3Hash) : Msg := .blobs [(key, identityBlob)]

theorem syncPull_identity (blake3 : List UInt8 → Blake3Hash) {want : List Blake3Hash}
    (hwant : (Msg.want want).Within) : ∃ fs',
    syncPull blake3 true ⟨[]⟩ 0 id want (sendsIdentity (blake3 identityBlob)).frame
        emptyFs = (.ok (), fs') ∧
      DiskCache.contains ⟨[]⟩ emptyFs (blake3 identityBlob) = false ∧
      DiskCache.contains ⟨[]⟩ fs' (blake3 identityBlob) = true := by
  obtain ⟨net, root, hblob, hhashed⟩ := hashed_identityBlob
  have hplain : DiskCache.Plain ⟨[]⟩ emptyFs := plain_emptyFs
  obtain ⟨fs', himport, hplain', hstored⟩ := hplain.importBlob_ok 0 0
    (checkBlob_eq_ok.mpr ⟨hblob, _, hhashed, rfl⟩)
  have hwithin : (sendsIdentity (blake3 identityBlob)).Within := by
    simp only [Msg.Within, sendsIdentity, Msg.bytes, pairBytes, flatMap_cons, flatMap_nil,
      length_append, length_leBytes, (blake3 identityBlob).2]
    decide +kernel
  have hread := readMsg_frame hwithin []
  rw [append_nil] at hread
  refine ⟨fs', ?_, ?_, ?_⟩
  · rw [syncPull, writeMsg_eq hwant, hread]
    exact (Command.bind_of_ok himport).trans rfl
  · rw [contains_eq, hplain.found_eq]
    rfl
  · rw [contains_eq, hplain'.found_eq, hstored, if_pos rfl]
    rfl

/-- Nothing is asked for, and a blob is stored, whatever the hash function is. -/
theorem syncPull_unasked : ∃ fs' : (List UInt8 → Blake3Hash) → Fs OsName, ∀ blake3,
    syncPull blake3 true ⟨[]⟩ 0 id [] (sendsIdentity (blake3 identityBlob)).frame
        emptyFs = (.ok (), fs' blake3) ∧
      DiskCache.contains ⟨[]⟩ emptyFs (blake3 identityBlob) = false ∧
      DiskCache.contains ⟨[]⟩ (fs' blake3) (blake3 identityBlob) = true :=
  Classical.skolem.mp fun blake3 => syncPull_identity blake3 (by decide +kernel)

theorem syncPull_asked : ∃ fs' v,
    syncPull (fun _ => ⟨List.replicate 32 0, rfl⟩) true ⟨[]⟩ 0 id [⟨List.replicate 32 0, rfl⟩]
        (sendsIdentity ⟨List.replicate 32 0, rfl⟩).frame emptyFs = (.ok (), fs') ∧
      DiskCache.load ⟨[]⟩ (fun _ => ⟨List.replicate 32 0, rfl⟩) true fs'
        ⟨List.replicate 32 0, rfl⟩ = .ok (some v) := by
  have hwant : (Msg.want [⟨List.replicate 32 0, rfl⟩]).Within := by decide +kernel
  have hsent : sentPairs [⟨List.replicate 32 0, rfl⟩] (sendsIdentity ⟨List.replicate 32 0, rfl⟩).frame =
    [(⟨List.replicate 32 0, rfl⟩, identityBlob)] := by decide +kernel
  obtain ⟨fs', hrun, hbefore, hafter⟩ :=
    syncPull_identity (fun _ => ⟨List.replicate 32 0, rfl⟩) hwant
  obtain ⟨-, hload, -⟩ := (syncPull_solicited_iff plain_emptyFs hrun).mpr fun k hk b haccepted => by
      rw [hsent, lastAccepted, if_neg fun heq => hk (mem_singleton.mpr heq)] at haccepted
      split at haccepted <;> cases haccepted
  obtain ⟨v, hv⟩ := hload _ hafter (Bool.not_eq_true _ ▸ hbefore)
  exact ⟨fs', v, hrun, hv⟩

theorem syncPull_silent (blake3 : List UInt8 → Blake3Hash) {want : List Blake3Hash}
    (hwant : (Msg.want want).Within) :
    syncPull blake3 true ⟨[]⟩ 0 id want [] emptyFs =
      (.error (.err (.io .unexpectedEof)), emptyFs) := by
  rw [syncPull, writeMsg_eq hwant]
  rfl

/-- A peer that hangs up leaves the cache as it is; the next one sends the identity, which is
then loaded. -/
theorem pulls_sound_hangUp : ∃ fs' v,
    syncPull (fun _ => ⟨replicate 32 0, rfl⟩) true ⟨[]⟩ 0 id [] [] emptyFs =
      (.error (.err (.io .unexpectedEof)), emptyFs) ∧
    syncPull (fun _ => ⟨replicate 32 0, rfl⟩) true ⟨[]⟩ 0 id []
      (sendsIdentity ⟨replicate 32 0, rfl⟩).frame emptyFs = (.ok (), fs') ∧
    DiskCache.Sound ⟨[]⟩ (fun _ => ⟨replicate 32 0, rfl⟩) true fs' ∧
    DiskCache.load ⟨[]⟩ (fun _ => ⟨replicate 32 0, rfl⟩) true fs'
      ⟨replicate 32 0, rfl⟩ = .ok (some v) := by
  have hwant : (Msg.want []).Within := by decide +kernel
  have hsilent := syncPull_silent (fun _ => ⟨replicate 32 0, rfl⟩) hwant
  obtain ⟨fs', hpull, -, hafter⟩ := syncPull_identity (fun _ => ⟨replicate 32 0, rfl⟩) hwant
  obtain ⟨hsound, hload⟩ := pulls_sound ⟨plain_emptyFs, nofun⟩
    (.tail (.single ⟨_, _, _, _, _, hsilent⟩) ⟨_, _, _, _, _, hpull⟩)
  obtain ⟨v, hv⟩ := hload _ hafter
  exact ⟨fs', v, hsilent, hpull, hsound, hv⟩

end Wire

end Dnet
