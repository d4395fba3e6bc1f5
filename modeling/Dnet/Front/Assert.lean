import Dnet.Front.Wiring

/-!
# Elaboration in a debug build

`alloc_rep_in` asserts that the level of a replicator is at most 385 (net.rs), and only a debug
build tests it. The levels that `alloc_rep_in` is called with (`Ast.repLevels`) decide what a debug
build does: what the release build does, or a panic at the first level above 385
(`elabImpl_monitored`).
-/

namespace Dnet

open Lib

variable {V F α β ε : Type}

/-! ## Checked calls -/

/-- What is listed after `x` has returned. -/
def afterwards (x : Except ε α) (f : α → List β) : List β :=
  match x with
  | .ok a => f a
  | .error _ => []

/-- `y` does what `x` does, unless one of the levels is above 385. -/
def Checked (levels : List Nat) (x y : Except Abort α) : Prop :=
  y = if ∀ l ∈ levels, l ≤ 385 then x else .error .assertion

namespace Checked

variable {x y : Except Abort α} {f g : α → Except Abort β} {ls : List Nat} {ms : α → List Nat}

theorem refl (x : Except Abort α) : Checked [] x x := (if_pos (by simp)).symm

theorem bind (hx : Checked ls x y) (hf : ∀ a, Checked (ms a) (f a) (g a)) :
    Checked (ls ++ afterwards x ms) (x >>= f) (y >>= g) := by
  unfold Checked at hx ⊢
  subst hx
  by_cases hls : ∀ l ∈ ls, l ≤ 385
  · rw [if_pos hls]
    cases x with
    | error e =>
      rw [if_pos (by simpa [afterwards] using hls)]
      rfl
    | ok a =>
      have hiff : (∀ l ∈ ls ++ afterwards (.ok a : Except Abort α) ms, l ≤ 385) ↔
          ∀ l ∈ ms a, l ≤ 385 :=
        List.forall_mem_append.trans (and_iff_right hls)
      simp only [hiff]
      exact hf a
  · rw [if_neg hls, if_neg fun h => hls (List.forall_mem_append.mp h).1]
    rfl

theorem bind_same (hx : Checked ls x y) (f : α → Except Abort β) :
    Checked ls (x >>= f) (y >>= f) := by
  have h := hx.bind (f := f) fun a => refl (f a)
  have hnil : afterwards x (fun _ => ([] : List Nat)) = [] := by cases x <;> rfl
  rwa [hnil, List.append_nil] at h

theorem lift_bind (x : Except DnxError α) (hf : ∀ a, Checked (ms a) (f a) (g a)) :
    Checked (afterwards x ms) (liftM x >>= f) (liftM x >>= g) := by
  cases x with
  | error e => exact refl _
  | ok a => exact hf a

theorem allocRepIn (n : Net) (l : Nat) (d0 d1 : Int) :
    Checked [l] (n.allocRepIn false l d0 d1) (n.allocRepIn true l d0 d1) := by
  rw [Checked, Net.allocRepIn, Net.allocRepIn]
  split
  · next h => rw [if_neg (by simpa using h)]
  · next h => exact (if_pos (by simpa using h)).symm

end Checked

/-! ## The levels of replicators -/

/-- The levels that `alloc_rep_in` is called with, in order, until the call returns or fails. -/
abbrev Levels := Nat → LOPath → ElabState → List Nat

def levelsAbs (x : Name) (body : Levels) : Levels := fun level lo st =>
  afterwards st.net.allocAbs fun (abs, net) => afterwards lo.extendLeft fun loBody =>
    body level loBody { st with net := net, env := bindName st.env x (abs.aux1, level + 1) }

def levelsApp (f : Elab) (fLevels xLevels : Levels) : Levels := fun level lo st =>
  afterwards st.net.allocApp fun (_, net) => afterwards lo.extendLeft fun loFn =>
    fLevels level loFn { st with net := net } ++
      afterwards (f level loFn { st with net := net }) fun (_, st) =>
        afterwards lo.extendRight fun loArg => xLevels (level + 1) loArg st

def levelsRep (usage : Name → Option Nat) (e : Elab) (eLevels : Levels) (a b : Name)
    (bodyLevels : Levels) : Levels := fun level lo st =>
  let la := (usage a).getD level
  let lb := (usage b).getD level
  eLevels level lo st ++ afterwards (e level lo st) fun ((eP, repLevel), st) =>
    afterwards (toI16 ((la : Int) - repLevel)) fun d0 =>
    afterwards (toI16 ((lb : Int) - repLevel)) fun d1 =>
      [repLevel % 2 ^ 16] ++
        afterwards (st.net.allocRepIn false (repLevel % 2 ^ 16) d0 d1) fun (rep, net) =>
          bodyLevels level lo { st with
            net := net.connect rep.principal eP lo
            env := bindName (bindName st.env a (rep.aux0, la)) b (rep.aux1, lb) }

def levelsEra (e : Elab) (eLevels bodyLevels : Levels) : Levels := fun level lo st =>
  eLevels level lo st ++ afterwards (e level lo st) fun ((eP, _), st) =>
    bodyLevels level lo { st with net := st.net.connect .era eP lo }

def levelsFix (inner : Elab) (innerLevels : Levels) : Levels := fun level lo st =>
  afterwards lo.extendLeft fun loFn =>
    innerLevels level loFn st ++ afterwards (inner level loFn st) fun (_, st) =>
      afterwards st.net.allocApp fun _ => [level % 2 ^ 16]

def levelsFresh2 (k : Name → Name → Levels) : Levels := fun level lo st =>
  k ("_r" ++ toString st.freshCtr) ("_lbl" ++ toString (st.freshCtr + 1)) level lo
    { st with freshCtr := st.freshCtr + 2 }

/-- The levels that the elaboration of the term asks for, in a release build. -/
def Ast.repLevels (usage : Name → Option Nat) : Ast V F → Levels
  | .abs x body => levelsAbs x (body.repLevels usage)
  | .app f x => levelsApp (f.elabImpl false usage) (f.repLevels usage) (x.repLevels usage)
  | .rep e a b body =>
    levelsRep usage (e.elabImpl false usage) (e.repLevels usage) a b (body.repLevels usage)
  | .era e body => levelsEra (e.elabImpl false usage) (e.repLevels usage) (body.repLevels usage)
  | .fix inner => levelsFix (inner.elabImpl false usage) (inner.repLevels usage)
  | .handle comp (.cons _ argName kName body .nil) =>
    levelsFresh2 fun r lbl =>
      levelsApp (elabApp (comp.elabImpl false usage) (elabAbs r (elabName r)))
        (levelsApp (comp.elabImpl false usage) (comp.repLevels usage)
          (levelsAbs r fun _ _ _ => []))
        (levelsAbs lbl (levelsAbs argName (levelsAbs kName
          (levelsEra (elabName lbl) (fun _ _ _ => []) (body.repLevels usage)))))
  | .name _ | .perform _ _ | .handle _ _ | .val _ | .fn _ => fun _ _ _ => []

/-! ## A debug build follows the release build -/

/-- In a debug build the elaborator does what it does in a release build, unless one of its levels
is above 385. -/
structure Monitored (run : Bool → Elab) (levels : Levels) : Prop where
  checked : ∀ level lo st,
    Checked (levels level lo st) (run false level lo st) (run true level lo st)

namespace Monitored

variable {e f body : Bool → Elab} {eLevels fLevels bodyLevels : Levels}

theorem const (e : Elab) : Monitored (fun _ => e) fun _ _ _ => [] := ⟨fun _ _ _ => .refl _⟩

theorem abs (h : Monitored body bodyLevels) (x : Name) :
    Monitored (fun debug => elabAbs x (body debug)) (levelsAbs x bodyLevels) :=
  ⟨fun _ _ _ => .lift_bind _ fun _ => .lift_bind _ fun _ => (h.checked _ _ _).bind_same _⟩

theorem app (hf : Monitored f fLevels) (hx : Monitored e eLevels) :
    Monitored (fun debug => elabApp (f debug) (e debug)) (levelsApp (f false) fLevels eLevels) :=
  ⟨fun _ _ _ => .lift_bind _ fun _ => .lift_bind _ fun _ => (hf.checked _ _ _).bind fun _ =>
    .lift_bind _ fun _ => (hx.checked _ _ _).bind_same _⟩

theorem rep (he : Monitored e eLevels) (hbody : Monitored body bodyLevels)
    (usage : Name → Option Nat) (a b : Name) :
    Monitored (fun debug => elabRep debug usage (e debug) a b (body debug))
      (levelsRep usage (e false) eLevels a b bodyLevels) :=
  ⟨fun _ _ _ => (he.checked _ _ _).bind fun _ => .lift_bind _ fun _ => .lift_bind _ fun _ =>
    (Checked.allocRepIn _ _ _ _).bind fun _ => hbody.checked _ _ _⟩

theorem era (he : Monitored e eLevels) (hbody : Monitored body bodyLevels) :
    Monitored (fun debug => elabEra (e debug) (body debug))
      (levelsEra (e false) eLevels bodyLevels) :=
  ⟨fun _ _ _ => (he.checked _ _ _).bind fun _ => hbody.checked _ _ _⟩

theorem fix (h : Monitored e eLevels) :
    Monitored (fun debug => elabFix debug (e debug)) (levelsFix (e false) eLevels) :=
  ⟨fun _ _ _ => .lift_bind _ fun _ => (h.checked _ _ _).bind fun _ => .lift_bind _ fun _ =>
    (Checked.allocRepIn _ _ _ _).bind_same _⟩

theorem fresh2 {run : Name → Name → Bool → Elab} {levels : Name → Name → Levels}
    (h : ∀ r lbl, Monitored (run r lbl) (levels r lbl)) :
    Monitored (fun debug => elabFresh2 fun r lbl => run r lbl debug) (levelsFresh2 levels) :=
  ⟨fun _ _ _ => (h _ _).checked _ _ _⟩

end Monitored

theorem elabImpl_monitored (usage : Name → Option Nat) : ∀ t : Ast V F,
    Monitored (fun debug => t.elabImpl debug usage) (t.repLevels usage)
  | .name n => .const (elabName n)
  | .abs x body => (elabImpl_monitored usage body).abs x
  | .app f x => (elabImpl_monitored usage f).app (elabImpl_monitored usage x)
  | .rep e a b body => (elabImpl_monitored usage e).rep (elabImpl_monitored usage body) usage a b
  | .era e body => (elabImpl_monitored usage e).era (elabImpl_monitored usage body)
  | .fix inner => (elabImpl_monitored usage inner).fix
  | .handle comp (.cons _ argName kName body .nil) =>
    .fresh2 fun r lbl =>
      ((elabImpl_monitored usage comp).app ((Monitored.const (elabName r)).abs r)).app
      (((((Monitored.const (elabName lbl)).era (elabImpl_monitored usage body)).abs kName).abs
        argName).abs lbl)
  | .perform _ _ | .handle _ .nil | .handle _ (.cons _ _ _ _ (.cons ..)) | .val _ | .fn _ =>
    .const _

/-! ## Closed terms -/

/-- A closed term that pass 1 accepts after renaming elaborates fully exactly if the build is a
release build or no replicator that is asked for has a level above 385. -/
theorem elaboratesFully_iff {t : Ast V F} (hclosed : t.Closed) (hcore : t.Core) {ctr : Nat}
    {r : Pass1Result} (hpass : pass1 (t.alphaRename ctr) = .ok r) (debug : Bool) (capacity : Nat) :
    (t.alphaRename ctr).ElaboratesFully debug r.usageLevels capacity ↔
      (debug = true → ∀ l ∈ (t.alphaRename ctr).repLevels r.usageLevels 0 .root (.init capacity),
        l ≤ 385) := by
  have hrelease : ∀ e, (t.alphaRename ctr).elabImpl false r.usageLevels 0 .root (.init capacity) =
      .error e → Expected false e := elabImpl_error (hcore.rename _ ctr) (hclosed.fits hpass)
  have hdebug := (elabImpl_monitored r.usageLevels (t.alphaRename ctr)).checked 0 .root
    (.init capacity)
  constructor
  · rintro hfull rfl
    by_contra hlevel
    rw [Checked, if_neg hlevel] at hdebug
    rcases hfull with ⟨e, -, h⟩ | ⟨p, l, st, h, -⟩ <;> cases hdebug.symm.trans h
  · intro hlevel
    refine elabImpl_fullyWired hclosed hcore hpass fun hassert => ?_
    cases debug with
    | false => cases hrelease _ hassert
    | true =>
      rw [Checked, if_pos (hlevel rfl)] at hdebug
      cases hrelease _ (hdebug.symm.trans hassert)

/-- `fix (λx. λy. Era(y, Rep(x, a, b, a b)))`, with a node of each kind. -/
def sharedFix : Ast Empty Empty :=
  .fix (.abs "x" (.abs "y" (.era (.name "y")
    (.rep (.name "x") "a" "b" (.app (.name "a") (.name "b"))))))

theorem sharedFix_elaboratesFully : ∃ r, pass1 (sharedFix.alphaRename 0) = .ok r ∧
    (sharedFix.alphaRename 0).ElaboratesFully true r.usageLevels 64 := by
  have hlevels : returns (fun r : Pass1Result => decide (∀ l ∈ (sharedFix.alphaRename 0).repLevels
      r.usageLevels 0 .root (.init 64), l ≤ 385)) (some (pass1 (sharedFix.alphaRename 0))) = true := by
    decide +kernel
  obtain ⟨r, hpass, hlevels⟩ := exists_ok_of_returns hlevels
  have hclosed : sharedFix.Closed := by simp [sharedFix, Ast.Closed, Ast.freeNames]
  have hcore : sharedFix.Core := by simp [sharedFix, Ast.Core]
  exact ⟨r, hpass, (elaboratesFully_iff hclosed hcore hpass true 64).mpr
    fun _ => of_decide_eq_true hlevels⟩

/-- `fix (λs. s)` under `n` applications of the identity. -/
def fixBelow : Nat → Ast Empty Empty
  | 0 => .fix (.abs "s" (.name "s"))
  | n + 1 => .app (.abs "x" (.name "x")) (fixBelow n)

theorem fixBelow_freeNames (n : Nat) : (fixBelow n).freeNames = [] := by
  induction n with
  | zero => simp [fixBelow, Ast.freeNames]
  | succ n ih => simp [fixBelow, Ast.freeNames, ih]

theorem fixBelow_core (n : Nat) : (fixBelow n).Core := by
  induction n with
  | zero => simp [fixBelow, Ast.Core]
  | succ n ih => simp [fixBelow, Ast.Core, ih]

/-- The fixpoint under 386 applications has level 386. -/
theorem fixBelow_panics : (fixBelow 386).Closed ∧ (fixBelow 386).Core ∧
    ∃ r, pass1 ((fixBelow 386).alphaRename 0) = .ok r ∧
      ¬((fixBelow 386).alphaRename 0).ElaboratesFully true r.usageLevels 4000 := by
  have hlevels : returns (fun r : Pass1Result => fails .assertion
      (some (((fixBelow 386).alphaRename 0).elabImpl true r.usageLevels 0 .root (.init 4000))))
      (some (pass1 ((fixBelow 386).alphaRename 0))) = true := by
    decide +kernel
  obtain ⟨r, hpass, hfails⟩ := exists_ok_of_returns hlevels
  refine ⟨fixBelow_freeNames 386, fixBelow_core 386, r, hpass, ?_⟩
  have hrun := Option.some.inj (eq_of_fails hfails)
  rintro (⟨e, -, h⟩ | ⟨p, l, st, h, -⟩) <;> cases hrun.symm.trans h

end Dnet
