import Dnet.Cas.Path
import Dnet.Lib.Codec
import Dnet.Lib.OrdMap

/-!
# The derivation codec

`Derivation` and its byte form (`to_bytes`, `from_bytes`, drv.rs). Every field is prefixed by
a length of eight bytes; the sources are written in the order of their keys, the environment
in the order of its names. `from_bytes` accepts a little more: sources and environment in any
order, and a name several times. `fromBytes_eq_ok` says that this is all.
-/

namespace Dnet

open Lib List StorePath

/-! ## Derivations and errors -/

/-- The text of an error: given as it is, or with a value printed by `{:?}` inside. -/
inductive Message where
  | text (s : String)
  | quoting (before value after : String)
  deriving DecidableEq, Repr

/-- `Display` of a store error. -/
def StoreError.message : StoreError → Message
  | .io => .text "store io"
  | .badName n => .quoting "invalid store name: " n ""
  | .hashMismatch => .text "content hash mismatch"
  | .isTree => .text "store path is a tree, not a blob"

inductive DrvError where
  | store (e : StoreError)
  | spawn
  | build (code : Option Int)
  | missingOutput (name : String)
  | outputSymlink (name : String)
  | badAttrs (m : Message)
  | unknownBuiltin (name : String)
  | missingInput (path : StorePath)
  | decode (m : Message)
  deriving DecidableEq

structure Derivation where
  name : String
  builder : String
  args : List String
  env : OrdMap String String
  inputSrcs : List StorePath
  outputs : List String

/-! ## Writing -/

/-- `(n as u64).to_le_bytes()`. -/
def pushLen (n : Nat) : List UInt8 := leBytes 8 n

def pushStr (s : String) : List UInt8 := pushLen (utf8 s).length ++ utf8 s

def pushSeq (items : List String) : List UInt8 := pushLen items.length ++ items.flatMap pushStr

def pushEntry (e : String × String) : List UInt8 := pushStr e.1 ++ pushStr e.2

def pushSrc (p : StorePath) : List UInt8 := pushLen p.hash.1.length ++ p.hash.1 ++ pushStr p.name

/-- The fields in their order, the environment and the sources as they are listed. -/
def encode (name builder : String) (args : List String) (entries : List (String × String))
    (srcs : List StorePath) (outputs : List String) : List UInt8 :=
  pushStr name ++ pushStr builder ++ pushSeq args
    ++ (pushLen entries.length ++ entries.flatMap pushEntry)
    ++ (pushLen srcs.length ++ srcs.flatMap pushSrc) ++ pushSeq outputs

namespace Derivation

def toBytes (d : Derivation) : List UInt8 :=
  encode d.name d.builder d.args d.env.entries (sort d.inputSrcs) d.outputs

end Derivation

/-! ## Reading

The reader of the source holds the whole buffer and a position. Here the state is what is left
of the buffer, and `size` is the length of the whole. -/

namespace DrvReader

section

variable (size : Nat)

def take (n : Nat) : Reader DrvError { bytes : List UInt8 // bytes.length = n } := fun rest =>
  let pos := size - rest.length
  if 2 ^ 64 ≤ pos + n then .error (.decode (.text "length overflow"))
  else if h : size < pos + n then .error (.decode (.text "unexpected end of input"))
  else .ok (⟨rest.take n, by rw [length_take]; omega⟩, rest.drop n)

/-- `usize` has 64 bits, so the number fits. -/
def len : Reader DrvError Nat := do
  return ofLe (← take size 8).1

def str : Reader DrvError String := do
  let n ← len size
  let s ← take size n
  match String.fromUTF8? s.1.toByteArray with
  | some s => return s
  | none => throw (.decode (.text "invalid utf-8"))

def seq : Reader DrvError (List String) := do
  let n ← len size
  readMany (str size) n

def hash : Reader DrvError Blake3Hash := do
  let n ← len size
  if n ≠ 32 then throw (.decode (.text "hash length is not 32"))
  take size 32

def finish : Reader DrvError Unit := fun rest =>
  if size - rest.length = size then .ok ((), rest)
  else .error (.decode (.text "trailing bytes"))

/-- The loop that fills the environment; a later entry replaces an earlier one of its name. -/
def env : Nat → OrdMap String String → Reader DrvError (OrdMap String String)
  | 0, m => return m
  | n + 1, m => do
    let k ← str size
    let v ← str size
    env n (m.insert k v)

def src : Reader DrvError StorePath := do
  let hash ← hash size
  let name ← str size
  match new hash name with
  | .ok p => return p
  | .error e => throw (.decode e.message)

def derivation : Reader DrvError Derivation := do
  let name ← str size
  let builder ← str size
  let args ← seq size
  let envLen ← len size
  let env ← env size envLen .empty
  let srcsLen ← len size
  let inputSrcs ← readMany (src size) srcsLen
  let outputs ← seq size
  finish size
  return { name, builder, args, env, inputSrcs, outputs }

end

end DrvReader

def Derivation.fromBytes (bytes : List UInt8) : Except DrvError Derivation :=
  Prod.fst <$> DrvReader.derivation bytes.length bytes

/-! ## The readers are exact -/

namespace DrvReader

section

variable {size : Nat}

theorem take_eq_ok (hsize : size < 2 ^ 64) {n : Nat} {s : List UInt8}
    {bytes : { bytes : List UInt8 // bytes.length = n }} {s' : List UInt8} (hs : s.length ≤ size) :
    take size n s = .ok (bytes, s') ↔ s = bytes.1 ++ s' := by
  obtain ⟨bytes, rfl⟩ := bytes
  unfold take
  dsimp only
  constructor
  · intro h
    split at h
    · cases h
    · split at h
      · cases h
      · obtain ⟨htake, rfl⟩ := Prod.mk.inj (Except.ok.inj h)
        have htake : s.take bytes.length = bytes := congrArg Subtype.val htake
        conv_lhs => rw [← take_append_drop bytes.length s, htake]
  · rintro rfl
    have hlength : (bytes ++ s').length = bytes.length + s'.length := length_append
    rw [if_neg (by omega), dif_neg (by omega)]
    simp

theorem len_lengthField (hsize : size < 2 ^ 64) : LengthField size (len size) pushLen := by
  intro s n s' hs
  constructor
  · intro h
    obtain ⟨bytes, s1, hbytes, h⟩ := reader_bind_eq_ok.mp h
    cases h
    rw [(take_eq_ok hsize hs).mp hbytes]
    have := leBytes_ofLe bytes.1
    rw [bytes.2] at this
    rw [pushLen, this]
  · intro hn h
    refine reader_bind_eq_ok.mpr ⟨⟨leBytes 8 n, length_leBytes 8 n⟩, s',
      (take_eq_ok hsize hs).mpr h, ?_⟩
    show Except.ok (ofLe (leBytes 8 n), s') = .ok (n, s')
    rw [ofLe_leBytes (by omega)]

theorem str_exact (hsize : size < 2 ^ 64) : Exact size (str size) pushStr := by
  refine Exact.measured (len_lengthField hsize) ?_ fun s => le_refl (utf8 s).length
  intro n s a s' hs
  constructor
  · intro h
    obtain ⟨bytes, s1, hbytes, h⟩ := reader_bind_eq_ok.mp h
    cases hutf8 : String.fromUTF8? bytes.1.toByteArray with
    | none =>
      rw [hutf8] at h
      cases h
    | some t =>
      rw [hutf8] at h
      cases h
      rw [← fromUTF8?_eq_some.mp hutf8]
      exact ⟨bytes.2, (take_eq_ok hsize hs).mp hbytes⟩
  · rintro ⟨rfl, h⟩
    refine reader_bind_eq_ok.mpr ⟨⟨utf8 a, rfl⟩, s', (take_eq_ok hsize hs).mpr h, ?_⟩
    rw [fromUTF8?_eq_some.mpr rfl]
    rfl

theorem pushStr_ne_nil (s : String) : pushStr s ≠ [] :=
  append_ne_nil_of_left_ne_nil (fun h => absurd (congrArg List.length h) (by simp [pushLen])) _

theorem seq_exact (hsize : size < 2 ^ 64) : Exact size (seq size) pushSeq :=
  Exact.counted (len_lengthField hsize) (str_exact hsize) pushStr_ne_nil

theorem hash_exact (hsize : size < 2 ^ 64) :
    Exact size (hash size) fun h => pushLen h.1.length ++ h.1 := by
  intro s h s' hs
  constructor
  · intro hr
    obtain ⟨n, s1, hn, hr⟩ := reader_bind_eq_ok.mp hr
    have h1 := (len_lengthField hsize hs).1 hn
    split at hr
    · obtain ⟨_, _, hthrow, _⟩ := reader_bind_eq_ok.mp hr
      cases hthrow
    · next hne =>
      have hn32 : n = 32 := not_not.mp hne
      have h2 := (take_eq_ok hsize (length_le_of_append hs h1)).mp hr
      show s = pushLen h.1.length ++ h.1 ++ s'
      rw [h1, h2, h.2, hn32, append_assoc]
  · intro (hr : s = pushLen h.1.length ++ h.1 ++ s')
    rw [append_assoc] at hr
    have hlength := congrArg List.length hr
    rw [length_append, length_append, h.2] at hlength
    rw [h.2] at hr
    refine reader_bind_eq_ok.mpr ⟨32, h.1 ++ s', (len_lengthField hsize hs).2 (by omega) hr, ?_⟩
    exact (take_eq_ok hsize (length_le_of_append hs hr)).mpr rfl

theorem src_exact (hsize : size < 2 ^ 64) : Exact size (src size) pushSrc := by
  intro s p s' hs
  constructor
  · intro hr
    obtain ⟨h, s1, hh, hr⟩ := reader_bind_eq_ok.mp hr
    obtain ⟨name, s2, hname, hr⟩ := reader_bind_eq_ok.mp hr
    have h1 := (hash_exact hsize hs).mp hh
    have h2 := (str_exact hsize (length_le_of_append hs h1)).mp hname
    cases hnew : new h name with
    | error e =>
      rw [hnew] at hr
      cases hr
    | ok p' =>
      rw [hnew] at hr
      cases hr
      obtain ⟨rfl, rfl⟩ := new_eq_ok.mp hnew
      rw [h1, h2, pushSrc, append_assoc _ (pushStr p.name)]
  · intro hr
    rw [pushSrc, append_assoc _ (pushStr p.name)] at hr
    refine reader_bind_eq_ok.mpr ⟨p.hash, _, (hash_exact hsize hs).mpr hr,
      reader_bind_eq_ok.mpr ⟨p.name, s', (str_exact hsize (length_le_of_append hs hr)).mpr rfl, ?_⟩⟩
    rw [new_single]
    rfl

theorem env_eq_ok : ∀ {n : Nat} {m m' : OrdMap String String} {s s' : List UInt8},
    env size n m s = .ok (m', s') ↔
      ∃ es, readMany (do return (← str size, ← str size)) n s = .ok (es, s') ∧ m' = m.insertAll es
  | 0, m, m', s, s' => by
    constructor
    · intro h
      cases h
      exact ⟨[], rfl, rfl⟩
    · rintro ⟨es, hes, rfl⟩
      cases hes
      rfl
  | n + 1, m, m', s, s' => by
    constructor
    · intro h
      obtain ⟨k, s1, hk, h⟩ := reader_bind_eq_ok.mp h
      obtain ⟨v, s2, hv, h⟩ := reader_bind_eq_ok.mp h
      obtain ⟨es, hes, rfl⟩ := env_eq_ok.mp h
      refine ⟨(k, v) :: es, reader_bind_eq_ok.mpr ⟨(k, v), s2, ?_, ?_⟩, rfl⟩
      · exact reader_bind_eq_ok.mpr ⟨k, s1, hk, reader_bind_eq_ok.mpr ⟨v, s2, hv, rfl⟩⟩
      · exact reader_bind_eq_ok.mpr ⟨es, s', hes, rfl⟩
    · rintro ⟨es, hes, rfl⟩
      obtain ⟨e, s2, he, hes⟩ := reader_bind_eq_ok.mp hes
      obtain ⟨k, s1, hk, he⟩ := reader_bind_eq_ok.mp he
      obtain ⟨v, s2, hv, he⟩ := reader_bind_eq_ok.mp he
      cases he
      obtain ⟨es', s3, hes', hes⟩ := reader_bind_eq_ok.mp hes
      cases hes
      exact reader_bind_eq_ok.mpr ⟨k, s1, hk, reader_bind_eq_ok.mpr ⟨v, s2, hv,
        env_eq_ok.mpr ⟨es', hes', rfl⟩⟩⟩

theorem srcs_exact (hsize : size < 2 ^ 64) :
    Exact size (do readMany (src size) (← len size)) fun srcs =>
      pushLen srcs.length ++ srcs.flatMap pushSrc :=
  Exact.counted (len_lengthField hsize) (src_exact hsize) fun p =>
    append_ne_nil_of_right_ne_nil _ (pushStr_ne_nil p.name)

theorem entries_exact (hsize : size < 2 ^ 64) :
    Exact size (do readMany (do return (← str size, ← str size)) (← len size)) fun es =>
      pushLen es.length ++ es.flatMap pushEntry :=
  Exact.counted (len_lengthField hsize) (Exact.pair (str_exact hsize) (str_exact hsize)) fun e =>
    append_ne_nil_of_left_ne_nil (pushStr_ne_nil e.1) _

theorem finish_eq_ok {s s' : List UInt8} (hs : s.length ≤ size) :
    finish size s = .ok ((), s') ↔ s = [] ∧ s' = [] := by
  unfold finish
  rw [← length_eq_zero_iff]
  split
  · next h =>
    have hnil : s.length = 0 := by omega
    rw [length_eq_zero_iff] at hnil
    simp [hnil, eq_comm]
  · next h =>
    refine ⟨nofun, fun ⟨hnil, _⟩ => absurd ?_ h⟩
    omega

theorem derivation_eq_ok (hsize : size < 2 ^ 64) {s s' : List UInt8} {d : Derivation}
    (hs : s.length ≤ size) : derivation size s = .ok (d, s') ↔
      ∃ es, s = encode d.name d.builder d.args es d.inputSrcs d.outputs ∧
        d.env = OrdMap.empty.insertAll es ∧ s' = [] := by
  constructor
  · intro h
    obtain ⟨name, s1, hname, h⟩ := reader_bind_eq_ok.mp h
    have h1 := (str_exact hsize hs).mp hname
    have hs1 := length_le_of_append hs h1
    obtain ⟨builder, s2, hbuilder, h⟩ := reader_bind_eq_ok.mp h
    have h2 := (str_exact hsize hs1).mp hbuilder
    have hs2 := length_le_of_append hs1 h2
    obtain ⟨args, s3, hargs, h⟩ := reader_bind_eq_ok.mp h
    have h3 := (seq_exact hsize hs2).mp hargs
    have hs3 := length_le_of_append hs2 h3
    obtain ⟨envLen, s4, hlen, h⟩ := reader_bind_eq_ok.mp h
    obtain ⟨m, s5, henv, h⟩ := reader_bind_eq_ok.mp h
    obtain ⟨es, hes, rfl⟩ := env_eq_ok.mp henv
    have h5 := (entries_exact hsize hs3).mp (reader_bind_eq_ok.mpr ⟨envLen, s4, hlen, hes⟩)
    have hs5 := length_le_of_append hs3 h5
    obtain ⟨srcsLen, s6, hlen, h⟩ := reader_bind_eq_ok.mp h
    obtain ⟨srcs, s7, hread, h⟩ := reader_bind_eq_ok.mp h
    have h7 := (srcs_exact hsize hs5).mp (reader_bind_eq_ok.mpr ⟨srcsLen, s6, hlen, hread⟩)
    have hs7 := length_le_of_append hs5 h7
    obtain ⟨outputs, s8, houtputs, h⟩ := reader_bind_eq_ok.mp h
    have h8 := (seq_exact hsize hs7).mp houtputs
    obtain ⟨_, s9, hfinish, h⟩ := reader_bind_eq_ok.mp h
    obtain ⟨h9, rfl⟩ := (finish_eq_ok (length_le_of_append hs7 h8)).mp hfinish
    cases h
    refine ⟨es, ?_, rfl, rfl⟩
    rw [h1, h2, h3, h5, h7, h8, h9]
    simp [encode]
  · rintro ⟨es, h, henv, rfl⟩
    obtain ⟨name, builder, args, env, srcs, outputs⟩ := d
    dsimp only at h henv
    subst henv
    simp only [encode, append_assoc] at h
    have hs1 := length_le_of_append hs h
    have hs2 := length_le_of_append hs1 rfl
    have hs3 := length_le_of_append hs2 rfl
    have hs5 := length_le_of_append hs3 (append_assoc ..).symm
    have hs7 := length_le_of_append hs5 (append_assoc ..).symm
    obtain ⟨envLen, s4, hlen, hes⟩ := reader_bind_eq_ok.mp
      ((entries_exact hsize hs3).mpr (append_assoc ..).symm)
    obtain ⟨srcsLen, s6, hlen', hread⟩ := reader_bind_eq_ok.mp
      ((srcs_exact hsize hs5).mpr (append_assoc ..).symm)
    exact reader_bind_eq_ok.mpr ⟨name, _, (str_exact hsize hs).mpr h,
      reader_bind_eq_ok.mpr ⟨builder, _, (str_exact hsize hs1).mpr rfl,
      reader_bind_eq_ok.mpr ⟨args, _, (seq_exact hsize hs2).mpr rfl,
      reader_bind_eq_ok.mpr ⟨envLen, s4, hlen,
      reader_bind_eq_ok.mpr ⟨_, _, env_eq_ok.mpr ⟨es, hes, rfl⟩,
      reader_bind_eq_ok.mpr ⟨srcsLen, s6, hlen',
      reader_bind_eq_ok.mpr ⟨srcs, _, hread,
      reader_bind_eq_ok.mpr ⟨outputs, [], (seq_exact hsize hs7).mpr (append_nil _).symm,
      reader_bind_eq_ok.mpr ⟨(), [], (finish_eq_ok (Nat.zero_le _)).mpr ⟨rfl, rfl⟩, rfl⟩⟩⟩⟩⟩⟩⟩⟩⟩

end

end DrvReader

/-! ## The canonical form -/

namespace Derivation

/-- What `to_bytes` writes is a `Vec`, which holds fewer than `2 ^ 63` bytes. -/
def InMemory (d : Derivation) : Prop := d.toBytes.length < 2 ^ 64

/-- The derivation with its sources in the order in which they are written. -/
def canonical (d : Derivation) : Derivation :=
  { d with inputSrcs := sort d.inputSrcs }

/-- Equal up to the order of the sources. -/
structure SameUpToOrder (d d' : Derivation) : Prop where
  name : d.name = d'.name
  builder : d.builder = d'.builder
  args : d.args = d'.args
  env : d.env = d'.env
  inputSrcs : d.inputSrcs.Perm d'.inputSrcs
  outputs : d.outputs = d'.outputs

/-- `bytes` is the form of `d` but for the order of the sources, and the order and the
repetition of entries of the environment: of the entries of one name the last one counts. -/
def Reordered (bytes : List UInt8) (d : Derivation) : Prop :=
  ∃ entries srcs, bytes = encode d.name d.builder d.args entries srcs d.outputs ∧
    srcs.Perm d.inputSrcs ∧
    ∀ k v, (k, v) ∈ d.env ↔
      ∃ before after, entries = before ++ (k, v) :: after ∧ k ∉ after.map Prod.fst

variable {d d' : Derivation}

theorem canonical_eq_iff : d.canonical = d'.canonical ↔ d.SameUpToOrder d' := by
  constructor
  · intro h
    obtain ⟨h1, h2, h3, h4, h5, h6⟩ := Derivation.mk.inj h
    exact ⟨h1, h2, h3, h4, sort_eq_iff.mp h5, h6⟩
  · rintro ⟨h1, h2, h3, h4, h5, h6⟩
    unfold canonical
    rw [h1, h2, h3, h4, h6, sort_eq_iff.mpr h5]

theorem fromBytes_eq_ok {bytes : List UInt8} {d : Derivation} (hsize : bytes.length < 2 ^ 64) :
    fromBytes bytes = .ok d ↔
      ∃ es, bytes = encode d.name d.builder d.args es d.inputSrcs d.outputs ∧
        d.env = OrdMap.empty.insertAll es := by
  have hread : fromBytes bytes = .ok d ↔
      ∃ s', DrvReader.derivation bytes.length bytes = .ok (d, s') := by
    unfold fromBytes
    cases DrvReader.derivation bytes.length bytes with
    | error e => simp
    | ok p =>
      obtain ⟨d', s'⟩ := p
      simp
  rw [hread]
  constructor
  · rintro ⟨s', h⟩
    obtain ⟨es, hes, henv, -⟩ := (DrvReader.derivation_eq_ok hsize (le_refl _)).mp h
    exact ⟨es, hes, henv⟩
  · rintro ⟨es, hes, henv⟩
    exact ⟨[], (DrvReader.derivation_eq_ok hsize (le_refl _)).mpr ⟨es, hes, henv, rfl⟩⟩

theorem fromBytes_toBytes {d : Derivation} (h : d.InMemory) :
    fromBytes d.toBytes = .ok d.canonical :=
  (fromBytes_eq_ok h).mpr ⟨d.env.entries, rfl,
    (OrdMap.eq_of_entries_eq (OrdMap.entries_insertAll d.env.sorted)).symm⟩

theorem toBytes_eq_of_sameUpToOrder (h : d.SameUpToOrder d') : d.toBytes = d'.toBytes := by
  unfold toBytes
  rw [h.name, h.builder, h.args, h.env, h.outputs, sort_eq_iff.mpr h.inputSrcs]

theorem toBytes_eq_iff (h : d.InMemory) : d.toBytes = d'.toBytes ↔ d.SameUpToOrder d' := by
  refine ⟨fun heq => canonical_eq_iff.mp ?_, toBytes_eq_of_sameUpToOrder⟩
  have h' : d'.InMemory := by
    unfold InMemory
    rw [← heq]
    exact h
  have hd := fromBytes_toBytes h
  rw [heq, fromBytes_toBytes h'] at hd
  exact (Except.ok.inj hd).symm

/-- The codec is a canonical form: a written derivation is read back with its sources sorted,
the bytes of two derivations agree exactly if the derivations do up to the order of their
sources, and a string that is accepted differs from the form of what it stands for only in
the order and repetition of environment entries and in the order of the sources. -/
theorem toBytes_canonicalForm :
    (∀ d : Derivation, d.InMemory → fromBytes d.toBytes = .ok d.canonical) ∧
    (∀ d d' : Derivation, d.InMemory → d'.InMemory →
      (d.toBytes = d'.toBytes ↔ d.SameUpToOrder d')) ∧
    (∀ (bytes : List UInt8) (d : Derivation), bytes.length < 2 ^ 64 →
      fromBytes bytes = .ok d → Reordered bytes d) := by
  refine ⟨fun d => fromBytes_toBytes, fun d d' h _ => toBytes_eq_iff h, fun bytes d hsize h => ?_⟩
  obtain ⟨es, hes, henv⟩ := (fromBytes_eq_ok hsize).mp h
  refine ⟨es, d.inputSrcs, hes, List.Perm.refl _, fun k v => ?_⟩
  rw [henv]
  exact OrdMap.mem_insertAll_empty

theorem length_toBytes (d : Derivation) : d.toBytes.length =
    (encode d.name d.builder d.args d.env.entries d.inputSrcs d.outputs).length := by
  have hperm := StorePath.sort_perm d.inputSrcs
  simp only [toBytes, encode, length_append, hperm.length_eq,
    (hperm.flatMap_right pushSrc).length_eq]

theorem src_single : isSingleComponent "src" = true := by decide +kernel

/-- A source whose hash has the byte `b` everywhere. -/
def srcPath (b : UInt8) : StorePath := ⟨⟨replicate 32 b, length_replicate⟩, "src", src_single⟩

def helloDrv (srcs : List StorePath) : Derivation :=
  ⟨"hello", "/bin/sh", ["-c", "true"], OrdMap.empty.insertAll [("a", "2")], srcs, ["out"]⟩

/-- Two sources in either order give the same bytes, and a variable that is given twice has the
value that is given last. -/
theorem helloDrv_canonicalForm :
    (helloDrv [srcPath 2, srcPath 1]).toBytes = (helloDrv [srcPath 1, srcPath 2]).toBytes ∧
    fromBytes (helloDrv [srcPath 2, srcPath 1]).toBytes =
      .ok (helloDrv [srcPath 2, srcPath 1]).canonical ∧
    Reordered (encode "hello" "/bin/sh" ["-c", "true"] [("a", "1"), ("a", "2")]
      [srcPath 2, srcPath 1] ["out"]) (helloDrv [srcPath 2, srcPath 1]) := by
  have hmem : (helloDrv [srcPath 2, srcPath 1]).InMemory := by
    rw [InMemory, length_toBytes]
    decide +kernel
  have hmem' : (helloDrv [srcPath 1, srcPath 2]).InMemory := by
    rw [InMemory, length_toBytes]
    decide +kernel
  have hsize : (encode "hello" "/bin/sh" ["-c", "true"] [("a", "1"), ("a", "2")]
      [srcPath 2, srcPath 1] ["out"]).length < 2 ^ 64 := by decide +kernel
  have hread := (fromBytes_eq_ok (d := helloDrv [srcPath 2, srcPath 1]) hsize).mpr
    ⟨[("a", "1"), ("a", "2")], rfl, OrdMap.eq_of_entries_eq (by decide +kernel)⟩
  obtain ⟨hback, hbytes, haccepted⟩ := toBytes_canonicalForm
  exact ⟨(hbytes _ _ hmem hmem').mpr ⟨rfl, rfl, rfl, rfl, .swap _ _ _, rfl⟩, hback _ hmem,
    haccepted _ _ hsize hread⟩

end Derivation

end Dnet
