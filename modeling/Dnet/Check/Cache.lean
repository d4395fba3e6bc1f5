import Dnet.Cas.Store
import Dnet.Check.Verdict
import Mathlib.Data.List.Pairwise

/-!
# Cached verdicts

The result cache of the test runner (dnx-test/cache.rs): one file for each case, named after a
hash of the case's path and its two sources, which holds the verdict. It should make no
difference.

But the sources may import files, and the names that the translation makes up are numbered by
counters of the process. The verdict that is served is right exactly if evaluating the case still
gives a verdict of that kind (`cache_transparent_iff`); when an imported file changes or a counter
has moved on it can be wrong (`import_stale`, `counter_stale`).
-/

namespace Dnet

open Lib List

/-! ## Keys -/

/-- FNV-1a on 64 bits. -/
def fnv1a (bytes : List UInt8) : UInt64 :=
  bytes.foldl (fun h byte => (h ^^^ byte.toUInt64) * 0x00000100000001b3) 0xcbf29ce484222325

/-- The digits of `{h:016x}`. -/
def hexDigits (h : UInt64) : List Char :=
  (List.range 16).reverse.map fun i => StorePath.hexDigit (h.toNat / 16 ^ i % 16)

def caseKey (c : TestCase) : String :=
  String.ofList (hexDigits (fnv1a (utf8 c.path ++ 0 :: utf8 c.expr ++ 0 :: utf8 c.expected)))

/-! ## Entries -/

/-- Fields have no tab and no end of line. -/
def sanitize (s : String) : List Char :=
  s.toList.map fun c => if c = '\t' ∨ c = '\n' ∨ c = '\r' then ' ' else c

def Outcome.encode : Outcome → String
  | .pass => "P"
  | .fail expected got => String.ofList ('F' :: '\t' :: sanitize expected ++ '\t' :: sanitize got)
  | .error message => String.ofList ('E' :: '\t' :: sanitize message)

/-- `splitn`: at most `n` parts. -/
def splitn (sep : Char) : Nat → List Char → List (List Char)
  | 0, _ => []
  | 1, cs => [cs]
  | n + 2, cs => match cs.span (· ≠ sep) with
    | (part, []) => [part]
    | (part, _ :: rest) => part :: splitn sep (n + 1) rest

def Outcome.decode (s : String) : Option Outcome :=
  match splitn '\t' 3 s.toList with
  | ['P'] :: _ => some .pass
  | ['F'] :: expected :: got :: _ => some (.fail (String.ofList expected) (String.ofList got))
  | ['E'] :: rest => some (.error (String.ofList (rest.head?.getD [])))
  | _ => none

/-- An outcome without its texts. -/
inductive Outcome.Kind where
  | pass
  | fail
  | error
  deriving DecidableEq, Repr

def Outcome.kind : Outcome → Outcome.Kind
  | .pass => .pass
  | .fail .. => .fail
  | .error _ => .error

section

variable {sep : Char} {part rest : List Char}

theorem splitn_cons (h : sep ∉ part) (n : Nat) :
    splitn sep (n + 2) (part ++ sep :: rest) = part :: splitn sep (n + 1) rest := by
  have hpart : ∀ c ∈ part, decide (c ≠ sep) = true := fun c hc =>
    decide_eq_true fun heq => h (heq ▸ hc)
  rw [splitn, span_eq_takeWhile_dropWhile, takeWhile_append_of_pos hpart,
    dropWhile_append_of_pos hpart, takeWhile_cons_of_neg (by simp),
    dropWhile_cons_of_neg (by simp), append_nil]

theorem splitn_last (h : sep ∉ part) (n : Nat) : splitn sep (n + 1) part = [part] := by
  cases n with
  | zero => rfl
  | succ n =>
    have hpart : ∀ c ∈ part, decide (c ≠ sep) = true := fun c hc =>
      decide_eq_true fun heq => h (heq ▸ hc)
    rw [splitn, span_eq_takeWhile_dropWhile, takeWhile_eq_self_iff.mpr hpart,
      dropWhile_eq_nil_iff.mpr hpart]

end

theorem tab_notMem_sanitize (s : String) : '\t' ∉ sanitize s := by
  rw [sanitize, mem_map]
  rintro ⟨c, -, hc⟩
  split at hc
  · exact absurd hc (by decide)
  · next h => exact h (Or.inl hc)

theorem Outcome.decode_encode : ∀ o : Outcome, ∃ o', decode o.encode = some o' ∧ o'.kind = o.kind
  | .pass => ⟨.pass, by decide, rfl⟩
  | .fail expected got => by
    have hF : '\t' ∉ ['F'] := by decide
    refine ⟨.fail (String.ofList (sanitize expected)) (String.ofList (sanitize got)), ?_, rfl⟩
    rw [decode, encode, String.toList_ofList]
    rw [show 'F' :: '\t' :: sanitize expected ++ '\t' :: sanitize got =
      ['F'] ++ '\t' :: (sanitize expected ++ '\t' :: sanitize got) from rfl, splitn_cons hF,
      splitn_cons (tab_notMem_sanitize expected), splitn_last (tab_notMem_sanitize got)]
    rfl
  | .error message => by
    have hE : '\t' ∉ ['E'] := by decide
    refine ⟨.error (String.ofList (sanitize message)), ?_, rfl⟩
    rw [decode, encode, String.toList_ofList]
    rw [show 'E' :: '\t' :: sanitize message = ['E'] ++ '\t' :: sanitize message from rfl,
      splitn_cons hE, splitn_last (tab_notMem_sanitize message)]
    rfl

/-! ## The cache -/

/-- A directory with one file for each key. -/
structure DiskResultCache where
  dir : List OsName

namespace DiskResultCache

variable (cache : DiskResultCache)

/-- The file of a key. -/
def path (key : String) : List OsName := cache.dir ++ [utf8 key]

def get (fs : Fs OsName) (key : String) : Option Outcome :=
  match fs.read cache.dir (Fs.downs [utf8 key]) with
  | .ok bytes => (String.fromUTF8? bytes.toByteArray).bind Outcome.decode
  | .error _ => none

/-- The cache as it is opened in a new directory. -/
def Fresh (fs : Fs OsName) : Prop := ∀ name, fs.node (cache.dir ++ [name]) = none

/-- The name under which an entry is written first. -/
def tmpName (key : String) (pid : Nat) : String := "." ++ key ++ "." ++ toString pid ++ ".tmp"

/-- A failure is ignored. -/
def put (pid : Nat) (fs : Fs OsName) (key : String) (outcome : Outcome) : Fs OsName :=
  let tmp := tmpName key pid
  match fs.write cache.dir (Fs.downs [utf8 tmp]) (utf8 outcome.encode) with
  | .error _ => fs
  | .ok fs =>
    match fs.rename (cache.path tmp) (cache.path key) with
    | .ok fs => fs
    | .error _ => fs.removeTree (cache.path tmp)

/-! ### Reading and writing -/

theorem caseKey_ne_tmpName (c : TestCase) (key : String) (pid : Nat) :
    caseKey c ≠ tmpName key pid := by
  have hdigit : ∀ n < 16, StorePath.hexDigit n ≠ '.' := by decide
  intro heq
  have hhead := congrArg (fun s => s.toList.head?) heq
  simp only [caseKey, tmpName, String.toList_ofList, String.toList_append] at hhead
  exact hdigit _ (Nat.mod_lt _ (by decide)) (Option.some.inj hhead)

theorem path_injective : Function.Injective cache.path := fun _ _ heq =>
  utf8_injective (singleton_injective (append_cancel_left heq))

variable {cache}

theorem get_eq {fs : Fs OsName} {key : String} (h : fs.IsLeaf (cache.path key)) :
    cache.get fs key = match fs.node (cache.path key) with
      | some (.file bytes) => (String.fromUTF8? bytes.toByteArray).bind Outcome.decode
      | _ => none := by
  rw [get, Fs.read, Fs.resolve_name_leaf h]
  dsimp only [path]
  rcases fs.node (cache.dir ++ [utf8 key]) with _ | (_ | bytes | t) <;> rfl

/-- The entry is written, and nothing else in the directory changes but the temporary file. -/
theorem put_node {fs : Fs OsName} {key : String} {pid : Nat} {o : Outcome}
    (htmp : fs.IsLeaf (cache.path (tmpName key pid))) (hkey : fs.IsLeaf (cache.path key))
    (hne : key ≠ tmpName key pid) : (cache.put pid fs key o).node =
      Function.update (Function.update fs.node (cache.path (tmpName key pid)) none)
        (cache.path key) (some (.file (utf8 o.encode))) := by
  obtain ⟨staged, done, hwrite, hrename, hnode⟩ :=
    Fs.write_rename htmp hkey (utf8_injective.ne hne) (utf8 o.encode)
  simp only [put, path, hwrite, hrename, hnode]

/-- Every entry is a file or missing. -/
def Plain (cache : DiskResultCache) (fs : Fs OsName) : Prop :=
  ∀ key, fs.IsLeaf (cache.path key)

section

variable {fs : Fs OsName} {c : TestCase} {pid : Nat} {o : Outcome}

theorem Plain.put_node (h : cache.Plain fs) (key : String) :
    (cache.put pid fs (caseKey c) o).node (cache.path key) =
      if key = caseKey c then some (.file (utf8 o.encode))
      else if key = tmpName (caseKey c) pid then none
      else fs.node (cache.path key) := by
  rw [DiskResultCache.put_node (h _) (h _) (caseKey_ne_tmpName c _ pid), Function.update_apply,
    Function.update_apply]
  simp only [cache.path_injective.eq_iff]

theorem Plain.put (h : cache.Plain fs) : cache.Plain (cache.put pid fs (caseKey c) o) := by
  intro key
  rw [Fs.IsLeaf, h.put_node]
  split
  · simp
  · split
    · simp
    · exact h key

theorem Plain.get_put_self (h : cache.Plain fs) :
    ∃ o', cache.get (cache.put pid fs (caseKey c) o) (caseKey c) = some o' ∧ o'.kind = o.kind := by
  obtain ⟨o', hdecode, hkind⟩ := o.decode_encode
  refine ⟨o', ?_, hkind⟩
  rw [get_eq (h.put _), h.put_node, if_pos rfl]
  show (String.fromUTF8? (utf8 o.encode).toByteArray).bind Outcome.decode = some o'
  rw [fromUTF8?_eq_some.mpr rfl, Option.bind_some, hdecode]

theorem Plain.get_put_of_ne (h : cache.Plain fs) {key : String} (hne : key ≠ caseKey c)
    {o' : Outcome} (hget : cache.get (cache.put pid fs (caseKey c) o) key = some o') :
    cache.get fs key = some o' := by
  rw [get_eq (h.put key), h.put_node, if_neg hne] at hget
  split at hget
  case h_2 => cases hget
  case h_1 bytes hnode =>
    split at hnode
    · cases hnode
    · rw [get_eq (h key), hnode]
      exact hget

theorem Plain.get_put_case (h : cache.Plain fs) {c' : TestCase} (hne : caseKey c' ≠ caseKey c) :
    cache.get (cache.put pid fs (caseKey c) o) (caseKey c') = cache.get fs (caseKey c') := by
  rw [get_eq (h.put _), h.put_node, if_neg hne, if_neg (caseKey_ne_tmpName c' _ pid),
    ← get_eq (h _)]

end

end DiskResultCache

/-- A case's result and how it was obtained; the time is left out. -/
structure CaseReport where
  path : String
  outcome : Outcome
  interactions : Nat
  cached : Bool
  deriving DecidableEq, Repr

/-- What the runner needs beside the cache. `files` says how the file system answers the
translation. -/
structure TestRunner (P : Type) where
  fmt : Formats
  rt : NixRuntime P
  fuel : Nat
  files : Fs OsName → Files

/-- What a run of a case finds: the file system and the counters of the process. -/
structure Moment where
  fs : Fs OsName
  ctrs : CaseCounters

variable {P : Type}

namespace TestRunner

variable (R : TestRunner P)

/-- The verdict without the cache. -/
def eval (s : Moment) (c : TestCase) : Option (Outcome × Nat) :=
  evalCase R.fmt R.rt s.ctrs R.fuel (R.files s.fs) c

/-- `none` if the evaluation does not return. -/
def runOne (pid : Nat) (c : TestCase) (cache : Option DiskResultCache) (s : Moment) :
    Option (CaseReport × Fs OsName) :=
  match cache.bind (·.get s.fs (caseKey c)) with
  | some outcome => some (⟨c.path, outcome, 0, true⟩, s.fs)
  | none =>
    (R.eval s c).map fun (outcome, interactions) =>
      (⟨c.path, outcome, interactions, false⟩,
        match cache with
        | some cache => cache.put pid s.fs (caseKey c) outcome
        | none => s.fs)

end TestRunner

/-! ## Histories -/

/-- A run of a case by some process, or any change of files outside the cache. The counters of the
process stand anywhere: what else the process has evaluated has advanced them. -/
inductive CacheEvent where
  | run (pid : Nat) (ctrs : CaseCounters) (c : TestCase)
  | change (others : Fs OsName)

/-- The cases of the runs. -/
def casesOf (events : List CacheEvent) : Set TestCase :=
  {c | ∃ pid ctrs, .run pid ctrs c ∈ events}

theorem casesOf_cons (e : CacheEvent) (events : List CacheEvent) :
    casesOf events ⊆ casesOf (e :: events) :=
  fun _ ⟨pid, ctrs, hc⟩ => ⟨pid, ctrs, mem_cons_of_mem e hc⟩

/-- A case that was run, what it found and its report. -/
structure CaseRun where
  moment : Moment
  test : TestCase
  report : CaseReport

namespace TestRunner

variable (R : TestRunner P) (cache : DiskResultCache)

/-- The runs of a history, in order. -/
def play : Fs OsName → List CacheEvent → Option (List CaseRun)
  | _, [] => some []
  | fs, .run pid ctrs c :: events => do
    let (report, fs') ← R.runOne pid c (some cache) ⟨fs, ctrs⟩
    return ⟨⟨fs, ctrs⟩, c, report⟩ :: (← play fs' events)
  | fs, .change others :: events => play (fs.replaceOutside cache.dir others) events

/-- The kind of the verdict without the cache, if the evaluation returns. -/
def kindAt (s : Moment) (c : TestCase) : Option Outcome.Kind := (R.eval s c).map (·.1.kind)

/-- Every verdict is of the kind that evaluating the case gives at that moment. -/
def Transparent (log : List CaseRun) : Prop :=
  ∀ e ∈ log, R.kindAt e.moment e.test = some e.report.outcome.kind

/-- Evaluated without the cache, a case gets verdicts of the same kind in all its runs. -/
def Unchanging (log : List CaseRun) : Prop :=
  ∀ e ∈ log, ∀ e' ∈ log, e.test = e'.test →
    R.kindAt e.moment e.test = R.kindAt e'.moment e'.test

/-- What the translation of a case asks the file system. -/
def asks (s : Moment) (c : TestCase) : List FileQuery :=
  (R.rt.term c.expr s.ctrs.expr.parser).asked (R.files s.fs) ++
    (R.rt.term c.expected s.ctrs.expected.parser).asked (R.files s.fs)

/-- The counters stand where they stood, and the answers that a case got are what they were. -/
def Undisturbed (c : TestCase) (s s' : Moment) : Prop :=
  s.ctrs = s'.ctrs ∧ ∀ q ∈ R.asks s c, R.files s.fs q = R.files s'.fs q

/-- No case is disturbed between two of its runs. -/
def Steady (log : List CaseRun) : Prop :=
  log.Pairwise fun e e' => e.test = e'.test → R.Undisturbed e.test e.moment e'.moment

instance : ∀ q : FileQuery, DecidableEq q.Answer
  | .isDir _ => inferInstanceAs (DecidableEq Bool)
  | .readToString _ => inferInstanceAs (DecidableEq (Except String String))
  | .canonicalize _ => inferInstanceAs (DecidableEq (Option String))

instance (c : TestCase) (s s' : Moment) : Decidable (R.Undisturbed c s s') :=
  inferInstanceAs (Decidable (s.ctrs = s'.ctrs ∧ ∀ q ∈ R.asks s c, R.files s.fs q = R.files s'.fs q))

instance (log : List CaseRun) : Decidable (R.Steady log) :=
  inferInstanceAs (Decidable (log.Pairwise _))

/-! ## What the cache holds -/

/-- The cache holds the verdicts of the runs so far, and no others. The first run of a case has
evaluated it. -/
structure Valid (past : List CaseRun) (fs : Fs OsName) : Prop where
  plain : cache.Plain fs
  entries : ∀ key o, cache.get fs key = some o → ∃ e ∈ past, caseKey e.test = key
  kept : ∀ e ∈ past, ∃ o, cache.get fs (caseKey e.test) = some o ∧ o.kind = e.report.outcome.kind
  first : ∀ e ∈ past, ∃ e₀ ∈ past, e₀.test = e.test ∧
    R.kindAt e₀.moment e₀.test = some e₀.report.outcome.kind

variable {R cache}

section

variable {c : TestCase} {s : Moment} {fs fs' : Fs OsName} {report : CaseReport}
  {past log : List CaseRun}

theorem Undisturbed.kindAt_eq {s' : Moment} (h : R.Undisturbed c s s') :
    R.kindAt s c = R.kindAt s' c := by
  obtain ⟨hctrs, hfiles⟩ := h
  have hexpr := R.rt.evalCanonical_congr (fun q hq => hfiles q (mem_append_left _ hq)) R.fuel
  have hexpected := R.rt.evalCanonical_congr (fun q hq => hfiles q (mem_append_right _ hq)) R.fuel
  rw [kindAt, eval, evalCase, hexpr, hexpected, hctrs, ← evalCase, ← eval, ← kindAt]

theorem Steady.unchanging (h : R.Steady log) : R.Unchanging log := by
  have hsame : log.Pairwise fun e e' => e.test = e'.test →
      R.kindAt e.moment e.test = R.kindAt e'.moment e'.test :=
    h.imp fun {e e'} hkept htest => htest ▸ (hkept htest).kindAt_eq
  have : Std.Symm fun e e' : CaseRun => e.test = e'.test →
      R.kindAt e.moment e.test = R.kindAt e'.moment e'.test :=
    ⟨fun _ _ h htest => (h htest.symm).symm⟩
  exact fun e he e' he' => hsame.forall_of_forall (fun _ _ _ => rfl) he he'

theorem valid_of_fresh (h : cache.Fresh fs) : R.Valid cache [] fs := by
  have hplain : cache.Plain fs := fun key => Fs.isLeaf_of_none (h (utf8 key))
  refine ⟨hplain, fun key o hget => ?_, nofun, nofun⟩
  rw [DiskResultCache.get_eq (hplain key), DiskResultCache.path, h (utf8 key)] at hget
  cases hget

theorem Valid.change (h : R.Valid cache past fs) (others : Fs OsName) :
    R.Valid cache past (fs.replaceOutside cache.dir others) := by
  have hnode : ∀ key, (fs.replaceOutside cache.dir others).node (cache.path key) =
      fs.node (cache.path key) := fun key => if_pos (prefix_append ..)
  have hplain : cache.Plain (fs.replaceOutside cache.dir others) := fun key => by
    rw [Fs.IsLeaf, hnode]
    exact h.plain key
  have hget : ∀ key, cache.get (fs.replaceOutside cache.dir others) key = cache.get fs key := by
    intro key
    rw [DiskResultCache.get_eq (hplain key), hnode, ← DiskResultCache.get_eq (h.plain key)]
  exact ⟨hplain, fun key o hkey => h.entries key o (hget key ▸ hkey),
    fun e he => by rw [hget]; exact h.kept e he, h.first⟩

theorem runOne_cases {pid : Nat} (h : R.runOne pid c (some cache) s = some (report, fs')) :
    (cache.get s.fs (caseKey c) = some report.outcome ∧ fs' = s.fs) ∨
      cache.get s.fs (caseKey c) = none ∧ R.kindAt s c = some report.outcome.kind ∧
        fs' = cache.put pid s.fs (caseKey c) report.outcome := by
  rw [runOne, Option.bind_some] at h
  split at h
  case h_1 outcome hget =>
    cases h
    exact Or.inl ⟨hget, rfl⟩
  case h_2 hget =>
    obtain ⟨⟨outcome, k⟩, heval, hreport⟩ := Option.map_eq_some_iff.mp h
    cases hreport
    exact Or.inr ⟨hget, by rw [kindAt, heval]; rfl, rfl⟩

theorem Valid.run (h : R.Valid cache past s.fs) {pid : Nat}
    (hinj : ∀ e ∈ past, caseKey e.test = caseKey c → e.test = c)
    (hrun : R.runOne pid c (some cache) s = some (report, fs')) :
    R.Valid cache (past ++ [⟨s, c, report⟩]) fs' := by
  rcases runOne_cases hrun with ⟨hget, rfl⟩ | ⟨hnone, heval, rfl⟩
  · -- served: the case has been run before
    refine ⟨h.plain, fun key o hkey => ?_, ?_, ?_⟩
    · obtain ⟨e, he, hkey⟩ := h.entries key o hkey
      exact ⟨e, mem_append_left _ he, hkey⟩
    · exact forall_mem_append.mpr ⟨h.kept, forall_mem_singleton.mpr ⟨_, hget, rfl⟩⟩
    · have hfirst : ∀ e ∈ past, ∃ e₀ ∈ past ++ [⟨s, c, report⟩], e₀.test = e.test ∧
          R.kindAt e₀.moment e₀.test = some e₀.report.outcome.kind := fun e he => by
        obtain ⟨e₀, he₀, hfirst⟩ := h.first e he
        exact ⟨e₀, mem_append_left _ he₀, hfirst⟩
      refine forall_mem_append.mpr ⟨hfirst, forall_mem_singleton.mpr ?_⟩
      obtain ⟨e, he, hkey⟩ := h.entries _ _ hget
      exact hinj e he hkey ▸ hfirst e he
  · -- evaluated: the case has not been run before
    have hnew : ∀ e ∈ past, caseKey e.test ≠ caseKey c := fun e he hkey => by
      obtain ⟨o, hget, -⟩ := h.kept e he
      cases hnone.symm.trans (hkey ▸ hget)
    refine ⟨h.plain.put, fun key o hget => ?_, ?_, ?_⟩
    · by_cases hkey : key = caseKey c
      · exact ⟨_, mem_append_right _ (mem_singleton_self _), hkey.symm⟩
      · obtain ⟨e, he, hkey⟩ := h.entries key o (h.plain.get_put_of_ne hkey hget)
        exact ⟨e, mem_append_left _ he, hkey⟩
    · refine forall_mem_append.mpr ⟨fun e he => ?_, forall_mem_singleton.mpr h.plain.get_put_self⟩
      rw [h.plain.get_put_case (hnew e he)]
      exact h.kept e he
    · refine forall_mem_append.mpr ⟨fun e he => ?_, forall_mem_singleton.mpr ?_⟩
      · obtain ⟨e₀, he₀, hfirst⟩ := h.first e he
        exact ⟨e₀, mem_append_left _ he₀, hfirst⟩
      · exact ⟨_, mem_append_right _ (mem_singleton_self _), rfl, heval⟩

theorem Valid.play {S : Set TestCase} (hinj : Set.InjOn caseKey S) :
    ∀ {events : List CacheEvent} {past log : List CaseRun} {fs : Fs OsName},
      R.Valid cache past fs → (∀ e ∈ past, e.test ∈ S) → casesOf events ⊆ S →
      R.play cache fs events = some log → ∃ fs', R.Valid cache (past ++ log) fs'
  | [], past, _, fs, h, _, _, hplay => by
    cases hplay
    exact ⟨fs, (append_nil past).symm ▸ h⟩
  | .change others :: events, _, _, _, h, hpast, hevents, hplay =>
    (h.change others).play hinj hpast ((casesOf_cons _ events).trans hevents) hplay
  | .run pid ctrs c :: events, past, _, fs, h, hpast, hevents, hplay => by
    obtain ⟨⟨report, fs'⟩, hrun, hrest⟩ := Option.bind_eq_some_iff.mp hplay
    obtain ⟨rest, hplayRest, hlog⟩ := Option.bind_eq_some_iff.mp hrest
    cases hlog
    have hc : c ∈ S := hevents ⟨pid, ctrs, mem_cons_self⟩
    have hnext := h.run (s := ⟨fs, ctrs⟩) (fun e he => hinj (hpast e he) hc) hrun
    rw [append_cons]
    exact hnext.play hinj (forall_mem_append.mpr ⟨hpast, forall_mem_singleton.mpr hc⟩)
      ((casesOf_cons _ events).trans hevents) hplayRest

theorem Valid.transparent_iff (h : R.Valid cache log fs) :
    R.Transparent log ↔ R.Unchanging log := by
  have hsame : ∀ e ∈ log, ∀ e' ∈ log, e.test = e'.test →
      e.report.outcome.kind = e'.report.outcome.kind := fun e he e' he' htest => by
    obtain ⟨o, hget, hkind⟩ := h.kept e he
    obtain ⟨o', hget', hkind'⟩ := h.kept e' he'
    obtain rfl := Option.some.inj (hget.symm.trans (htest ▸ hget'))
    exact hkind.symm.trans hkind'
  constructor
  · intro htrans e he e' he' htest
    rw [htrans e he, htrans e' he', hsame e he e' he' htest]
  · intro hunch e he
    obtain ⟨e₀, he₀, htest, hfirst⟩ := h.first e he
    rw [hunch e he e₀ he₀ htest.symm, hfirst, hsame e₀ he₀ e he htest]

end

variable (R cache)

/-- In every history, the cache is transparent exactly if no case gets verdicts of two kinds when it
is evaluated without the cache in each of its runs. It does not if the files that it reads and the
counters of the processes are what they were. -/
theorem cache_transparent_iff (fs : Fs OsName) (hfresh : cache.Fresh fs) (events : List CacheEvent)
    (hinj : Set.InjOn caseKey (casesOf events)) (log : List CaseRun)
    (hplay : R.play cache fs events = some log) :
    (R.Transparent log ↔ R.Unchanging log) ∧ (R.Steady log → R.Unchanging log) := by
  obtain ⟨fs', h⟩ := (valid_of_fresh hfresh).play hinj nofun subset_rfl hplay
  exact ⟨h.transparent_iff, Steady.unchanging⟩

end TestRunner

/-! ## A stale verdict -/

/-- The texts of the errors on Linux. -/
def Lib.FsError.text : FsError → String
  | .notFound => "No such file or directory (os error 2)"
  | .notDirectory => "Not a directory (os error 20)"
  | .isDirectory => "Is a directory (os error 21)"
  | .alreadyExists => "File exists (os error 17)"
  | .tooManyLinks => "Too many levels of symbolic links (os error 40)"
  | .invalidInput => "file name contained an unexpected NUL byte"

/-- How a file system answers the translation; `lossy` reads file names as text. -/
def Files.of (lossy : OsName → String) (cwd : List OsName) (fs : Fs OsName) : Files
  | .isDir path => match osPath path with
    | .ok path => fs.isDir cwd path
    | .error _ => false
  | .readToString path => match osPath path >>= fs.read cwd with
    | .ok bytes => match String.fromUTF8? bytes.toByteArray with
      | some text => .ok text
      | Option.none => .error "stream did not contain valid UTF-8"
    | .error e => .error e.text
  | .canonicalize path => match osPath path >>= fs.resolve true cwd with
    | .ok (.here l) => some ("/" ++ "/".intercalate (l.map lossy))
    | .ok (.entry l) =>
      if (fs.node l).isSome then some ("/" ++ "/".intercalate (l.map lossy)) else Option.none
    | .error _ => Option.none

namespace TestRunner

/-- A file system with the directory of the cache and one file. -/
def withFile (content : String) : Fs OsName :=
  Fs.put (Fs.put .empty [utf8 "cache"] .dir) [utf8 "f.nix"] (.file (utf8 content))

def importCase : TestCase := ⟨"imports", "import /f.nix", "1"⟩

def importRunner : TestRunner (NixPrim Empty) where
  fmt := ⟨id, fun _ => ""⟩
  rt := .parsing [(importCase.expr, .apply (.ident "import") (.path "/f.nix")),
    ("1", .int (.ok 1)), ("2", .int (.ok 2))]
  fuel := 100
  files := Files.of (fun name => (String.fromUTF8? name.toByteArray).getD "") []

def importCache : DiskResultCache := ⟨[utf8 "cache"]⟩

theorem importCache_fresh (content : String) : importCache.Fresh (withFile content) := fun _ => rfl

/-- The case is run twice, by two processes; in between files change. -/
def importEvents (others : Fs OsName) : List CacheEvent :=
  [.run 1 {} importCase, .change others, .run 2 {} importCase]

theorem importEvents_injOn (others : Fs OsName) :
    Set.InjOn caseKey (casesOf (importEvents others)) := by
  have hcase : ∀ c ∈ casesOf (importEvents others), c = importCase := by
    rintro c ⟨pid, ctrs, hc⟩
    simp only [importEvents, mem_cons, CacheEvent.run.injEq, reduceCtorEq, false_or,
      not_mem_nil, or_false] at hc
    exact hc.elim (·.2.2) (·.2.2)
  exact fun c hc c' hc' _ => (hcase c hc).trans (hcase c' hc').symm

/-- Another file changes. -/
theorem cache_transparent_unrelated : ∃ log, importRunner.play importCache (withFile "1")
      (importEvents ((withFile "1").put [utf8 "g.nix"] (.file (utf8 "2")))) = some log ∧
    log.length = 2 ∧ importRunner.Transparent log := by
  have hsteady : (importRunner.play importCache (withFile "1") (importEvents
      ((withFile "1").put [utf8 "g.nix"] (.file (utf8 "2"))))).any
        (fun log => log.length = 2 ∧ importRunner.Steady log) = true := by decide +kernel
  obtain ⟨log, hplay, hlog⟩ := (Option.any_eq_true _ _).mp hsteady
  obtain ⟨hlength, hsteady⟩ := of_decide_eq_true hlog
  obtain ⟨hiff, hunch⟩ := importRunner.cache_transparent_iff importCache (withFile "1")
    (importCache_fresh "1") (importEvents _) (importEvents_injOn _) log hplay
  exact ⟨log, hplay, hlength, hiff.mpr (hunch hsteady)⟩

/-- A verdict of the wrong kind is served. -/
def stale (R : TestRunner P) (log : List CaseRun) : Bool :=
  log.any fun e => R.kindAt e.moment e.test ≠ some e.report.outcome.kind

theorem exists_stale {R : TestRunner P} {cache : DiskResultCache} {fs : Fs OsName}
    {events : List CacheEvent} (h : (R.play cache fs events).any R.stale = true) :
    ∃ log, R.play cache fs events = some log ∧ ¬R.Transparent log := by
  obtain ⟨log, hlog, hany⟩ := (Option.any_eq_true _ _).mp h
  obtain ⟨e, he, hkind⟩ := any_eq_true.mp hany
  exact ⟨log, hlog, fun htrans => of_decide_eq_true hkind (htrans e he)⟩

/-- The file that the case imports changes. -/
theorem import_stale : importCache.Fresh (withFile "1") ∧
    Set.InjOn caseKey (casesOf (importEvents (withFile "2"))) ∧
    ∃ log, importRunner.play importCache (withFile "1") (importEvents (withFile "2")) = some log ∧
      ¬importRunner.Transparent log :=
  ⟨importCache_fresh "1", importEvents_injOn _, exists_stale (by decide +kernel)⟩

/-- The parameter has the first name that the translation of `with` makes up. -/
def withCase : TestCase :=
  ⟨"with", "(_nix_with0: with \x7b a = 1; \x7d; _nix_with0) 5", "5"⟩

def withRunner : TestRunner (NixPrim Empty) where
  fmt := ⟨id, fun _ => ""⟩
  rt := .parsing [(withCase.expr, .apply (.paren (.lambda "_nix_with0" (.withIn
      (.attrSet false [.attrpathValue [.ident "a"] (.int (.ok 1))]) (.ident "_nix_with0"))))
      (.int (.ok 5))), ("5", .int (.ok 5))]
  fuel := 100
  files := fun _ => .none

/-- No file changes; the second process has made up a name before. -/
theorem counter_stale : ∃ log, withRunner.play importCache (withFile "1")
      [.run 1 {} withCase, .run 2 ⟨{ parser := 1 }, {}⟩ withCase] = some log ∧
    ¬withRunner.Transparent log :=
  exists_stale (by decide +kernel)

end TestRunner

end Dnet
