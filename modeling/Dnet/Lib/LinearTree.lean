import Dnet.Lib.Descent
import Dnet.Lib.Lambda
import Mathlib.Data.List.Nodup
import Mathlib.Data.List.Perm.Basic

/-!
# Linear λ-terms as wiring diagrams

A tree whose abstractions and applications carry labels, and whose variables name the
abstraction that binds them. If every label stands once and every variable is used once,
the tree is a wiring diagram: every pin is at the end of one wire (`ends_wiresAt`). Contracting a
redex (`Fire`) takes the wires of two agents out of the diagram and joins their outer ends
(`Fire.rewires`).
-/

namespace Dnet.Lib

open List

/-- A λ-term with labels. `lam i` binds the variable `var i`. -/
inductive Tree (ν : Type) where
  | var (i : ν)
  | lam (i : ν) (body : Tree ν)
  | app (j : ν) (f x : Tree ν)
  deriving DecidableEq, Repr

/-- The places of a diagram: the one outside of it, an output, a body and a variable for
each abstraction, an output, a function and an argument for each application. -/
inductive Pin (ν : Type) where
  | root
  | lamOut (i : ν)
  | lamBody (i : ν)
  | lamVar (i : ν)
  | appOut (j : ν)
  | appFn (j : ν)
  | appArg (j : ν)
  deriving DecidableEq, Repr

/-- A pin that a term can have at its top. -/
def Pin.IsTop {ν : Type} : Pin ν → Prop
  | .lamOut _ | .appOut _ | .lamVar _ => True
  | .root | .lamBody _ | .appFn _ | .appArg _ => False

namespace Tree

variable {ν : Type} {t : Tree ν} {w : Pin ν × Pin ν}

/-! ## Pins and wires -/

/-- The pins of the agents and, for each variable, the pin of its abstraction. -/
def pins : Tree ν → List (Pin ν)
  | .var i => [.lamVar i]
  | .lam i body => .lamOut i :: .lamBody i :: body.pins
  | .app j f x => .appOut j :: .appFn j :: .appArg j :: (f.pins ++ x.pins)

/-- The pin that stands for the whole term. -/
def top : Tree ν → Pin ν
  | .var i => .lamVar i
  | .lam i _ => .lamOut i
  | .app j _ _ => .appOut j

/-- The wires inside the term, each from the place of a subterm to its top. -/
def wires : Tree ν → List (Pin ν × Pin ν)
  | .var _ => []
  | .lam i body => (.lamBody i, body.top) :: body.wires
  | .app j f x => (.appFn j, f.top) :: (.appArg j, x.top) :: (f.wires ++ x.wires)

/-- The wires of the term at the place `p`. -/
def wiresAt (p : Pin ν) (t : Tree ν) : List (Pin ν × Pin ν) := (p, t.top) :: t.wires

/-- Every abstraction uses its variable. -/
def Uses : Tree ν → Prop
  | .var _ => True
  | .lam i body => .lamVar i ∈ body.pins ∧ body.Uses
  | .app _ f x => f.Uses ∧ x.Uses

/-- Every variable is bound in the term. -/
def Closed (t : Tree ν) : Prop := ∀ i, .lamVar i ∈ t.pins → .lamOut i ∈ t.pins

/-- The ends of wires. -/
def ends (ws : List (Pin ν × Pin ν)) : List (Pin ν) := ws.flatMap fun w => [w.1, w.2]

/-- The pins of an agent come together. -/
theorem mem_pins (t : Tree ν) : .root ∉ t.pins ∧ ∀ i, (.lamBody i ∈ t.pins ↔ .lamOut i ∈ t.pins) ∧
    (.appFn i ∈ t.pins ↔ .appOut i ∈ t.pins) ∧ (.appArg i ∈ t.pins ↔ .appOut i ∈ t.pins) := by
  induction t with
  | var k => simp [pins]
  | lam k body ih => simp [pins, ih]
  | app j f x ihf ihx => simp [pins, ihf, ihx]

theorem root_not_mem_pins (t : Tree ν) : .root ∉ t.pins := t.mem_pins.1

theorem top_mem_pins : ∀ t : Tree ν, t.top ∈ t.pins
  | .var _ => mem_singleton_self _
  | .lam _ _ => mem_cons_self
  | .app _ _ _ => mem_cons_self

theorem isTop_top (t : Tree ν) : t.top.IsTop := by
  cases t <;> trivial

theorem lamVar_mem_pins {i : ν} (hu : t.Uses) (hi : .lamOut i ∈ t.pins) : .lamVar i ∈ t.pins := by
  induction t with
  | var k => simp [pins] at hi
  | lam k body ih =>
    simp only [pins, mem_cons, Pin.lamOut.injEq, reduceCtorEq, false_or] at hi ⊢
    rcases hi with rfl | hi
    · exact hu.1
    · exact ih hu.2 hi
  | app j f x ihf ihx =>
    simp only [pins, mem_cons, reduceCtorEq, false_or, mem_append] at hi ⊢
    exact hi.imp (ihf hu.1) (ihx hu.2)

theorem isTop_of_mem_wires (h : w ∈ t.wires) : ¬ w.1.IsTop ∧ w.2.IsTop := by
  induction t with
  | var k => cases h
  | lam k body ih =>
    rcases mem_cons.mp h with rfl | h
    · exact ⟨id, isTop_top body⟩
    · exact ih h
  | app j f x ihf ihx =>
    simp only [wires, mem_cons, mem_append] at h
    rcases h with rfl | rfl | h | h
    · exact ⟨id, isTop_top f⟩
    · exact ⟨id, isTop_top x⟩
    · exact ihf h
    · exact ihx h

/-! ## Contexts -/

/-- One node around a hole. -/
inductive Frame (ν : Type) where
  | lam (k : ν)
  | appL (k : ν) (x : Tree ν)
  | appR (k : ν) (f : Tree ν)

namespace Frame

def plug : Frame ν → Tree ν → Tree ν
  | .lam k, t => .lam k t
  | .appL k x, t => .app k t x
  | .appR k f, t => .app k f t

/-- The place of the hole. -/
def hole : Frame ν → Pin ν
  | .lam k => .lamBody k
  | .appL k _ => .appFn k
  | .appR k _ => .appArg k

def top : Frame ν → Pin ν
  | .lam k => .lamOut k
  | .appL k _ | .appR k _ => .appOut k

/-- The pins and the wires beside the hole. -/
def pins : Frame ν → List (Pin ν)
  | .lam k => [.lamOut k, .lamBody k]
  | .appL k t | .appR k t => .appOut k :: .appFn k :: .appArg k :: t.pins

def wires : Frame ν → List (Pin ν × Pin ν)
  | .lam _ => []
  | .appL k x => x.wiresAt (.appArg k)
  | .appR k f => f.wiresAt (.appFn k)

end Frame

/-- Put a term into a context, a list of frames from the outside in. -/
def fill : List (Frame ν) → Tree ν → Tree ν
  | [], t => t
  | F :: C, t => F.plug (fill C t)

/-- The place of the hole, in a context that stands at `p`. -/
def holeOf : Pin ν → List (Frame ν) → Pin ν
  | p, [] => p
  | _, F :: C => holeOf F.hole C

def pinsOf (C : List (Frame ν)) : List (Pin ν) := C.flatMap Frame.pins

def wiresOf : Pin ν → List (Frame ν) → List (Pin ν × Pin ν)
  | _, [] => []
  | p, F :: C => (p, F.top) :: (F.wires ++ wiresOf F.hole C)

theorem top_plug (F : Frame ν) (t : Tree ν) : (F.plug t).top = F.top := by
  cases F <;> rfl

theorem mem_ends {p : Pin ν} {ws : List (Pin ν × Pin ν)} :
    p ∈ ends ws ↔ ∃ w ∈ ws, p = w.1 ∨ p = w.2 := by
  simp [ends]

theorem isTop_of_mem_wiresAt {p : Pin ν} (hp : ¬ p.IsTop)
    (h : w ∈ t.wiresAt p) : ¬ w.1.IsTop ∧ w.2.IsTop := by
  rcases mem_cons.mp h with rfl | h
  · exact ⟨hp, isTop_top t⟩
  · exact isTop_of_mem_wires h

variable [DecidableEq ν]

theorem pins_plug (F : Frame ν) (t : Tree ν) : (F.plug t).pins.Perm (F.pins ++ t.pins) := by
  refine perm_iff_count.mpr fun a => ?_
  cases F <;> simp only [Frame.plug, Frame.pins, pins, count_cons, count_append,
    count_nil] <;> omega

theorem wires_plug (F : Frame ν) (t : Tree ν) :
    (F.plug t).wires.Perm (F.wires ++ t.wiresAt F.hole) := by
  refine perm_iff_count.mpr fun a => ?_
  cases F <;> simp only [Frame.plug, Frame.wires, Frame.hole, wires, wiresAt, count_cons,
    count_append, count_nil] <;> omega

theorem pins_fill (C : List (Frame ν)) (t : Tree ν) : (fill C t).pins.Perm (pinsOf C ++ t.pins) := by
  induction C with
  | nil => exact .refl _
  | cons F C ih =>
    rw [fill, pinsOf, flatMap_cons, append_assoc]
    exact (pins_plug F _).trans (ih.append_left _)

theorem wires_fill (p : Pin ν) (C : List (Frame ν)) (t : Tree ν) :
    ((fill C t).wiresAt p).Perm (wiresOf p C ++ t.wiresAt (holeOf p C)) := by
  induction C generalizing p with
  | nil => exact .refl _
  | cons F C ih =>
    rw [fill, wiresAt, top_plug, wiresOf, cons_append, append_assoc]
    exact .cons _ ((wires_plug F _).trans ((ih F.hole).append_left _))

/-- Every pin is at the end of one wire. -/
theorem ends_wiresAt (p : Pin ν) : ∀ t : Tree ν, (ends (wiresAt p t)).Perm (p :: t.pins)
  | .var i => .refl _
  | .lam i body => by
    have hb := ends_wiresAt (.lamBody i) body
    refine perm_iff_count.mpr fun a => ?_
    have := hb.count_eq a
    simp only [ends, wiresAt, wires, top, pins, flatMap_cons, cons_append,
      nil_append, count_cons] at this ⊢
    omega
  | .app j f x => by
    have hf := ends_wiresAt (.appFn j) f
    have hx := ends_wiresAt (.appArg j) x
    refine perm_iff_count.mpr fun a => ?_
    have h1 := hf.count_eq a
    have h2 := hx.count_eq a
    simp only [ends, wiresAt, wires, top, pins, flatMap_cons, flatMap_append,
      cons_append, nil_append, count_cons, count_append] at h1 h2 ⊢
    omega

theorem exists_wire_to {p q : Pin ν} (hp : ¬ p.IsTop) (hq : q ∈ t.pins)
    (htop : q.IsTop) : ∃ c, (c, q) ∈ t.wiresAt p := by
  have hmem := (ends_wiresAt p t).mem_iff.mpr (mem_cons_of_mem _ hq)
  obtain ⟨⟨c, b⟩, hw, rfl | rfl⟩ := mem_ends.mp hmem
  · exact absurd htop (isTop_of_mem_wiresAt hp hw).1
  · exact ⟨c, hw⟩

theorem exists_wire_from {p q : Pin ν} (hp : ¬ p.IsTop) (hq : q ∈ p :: t.pins)
    (htop : ¬ q.IsTop) : ∃ b, (q, b) ∈ t.wiresAt p := by
  obtain ⟨⟨c, b⟩, hw, rfl | rfl⟩ := mem_ends.mp ((ends_wiresAt p t).mem_iff.mpr hq)
  · exact ⟨b, hw⟩
  · exact absurd (isTop_of_mem_wiresAt hp hw).2 htop

/-! ## Contraction -/

/-- Put `s` in the place of the variable `i`. Labels stand once, so nothing is captured. -/
def subst : Tree ν → ν → Tree ν → Tree ν
  | .var k, i, s => if k = i then s else .var k
  | .lam k body, i, s => .lam k (body.subst i s)
  | .app j f x, i, s => .app j (f.subst i s) (x.subst i s)

/-- Contract the redex of the application `j` and the abstraction `i`. -/
inductive Fire (j i : ν) : Tree ν → Tree ν → Prop where
  | beta (body x : Tree ν) : Fire j i (.app j (.lam i body) x) (body.subst i x)
  | lam (k : ν) {body body' : Tree ν} : Fire j i body body' → Fire j i (.lam k body) (.lam k body')
  | appL (k : ν) {f f' : Tree ν} (x : Tree ν) : Fire j i f f' → Fire j i (.app k f x) (.app k f' x)
  | appR (k : ν) (f : Tree ν) {x x' : Tree ν} : Fire j i x x' → Fire j i (.app k f x) (.app k f x')

section

variable {i j : ν} {t t' : Tree ν} {C : List (Frame ν)} {k l : ν}

theorem subst_var_self (i : ν) (s : Tree ν) : (Tree.var i).subst i s = s := if_pos rfl

theorem subst_var_ne {k : ν} (s : Tree ν) (h : k ≠ i) : (Tree.var k).subst i s = .var k := if_neg h

theorem subst_of_not_mem (s : Tree ν) (h : .lamVar i ∉ t.pins) : t.subst i s = t := by
  induction t with
  | var k => exact if_neg fun hk : k = i => h (hk ▸ mem_singleton_self _)
  | lam k body ih =>
    simp only [pins, mem_cons, reduceCtorEq, false_or] at h
    rw [subst, ih h]
  | app j f x ihf ihx =>
    simp only [pins, mem_cons, reduceCtorEq, false_or, mem_append, not_or] at h
    rw [subst, ihf h.1, ihx h.2]

theorem subst_fill (h : .lamVar i ∉ pinsOf C) (t s : Tree ν) :
    (fill C t).subst i s = fill C (t.subst i s) := by
  induction C with
  | nil => rfl
  | cons F C ih =>
    rw [pinsOf, flatMap_cons, mem_append, not_or] at h
    have hrest := ih h.2
    cases F with
    | lam k => rw [fill, Frame.plug, subst, hrest]; rfl
    | appL k x =>
      have hx : .lamVar i ∉ x.pins := fun hm => h.1 (by simp [Frame.pins, hm])
      rw [fill, Frame.plug, subst, hrest, subst_of_not_mem s hx]
      rfl
    | appR k f =>
      have hf : .lamVar i ∉ f.pins := fun hm => h.1 (by simp [Frame.pins, hm])
      rw [fill, Frame.plug, subst, hrest, subst_of_not_mem s hf]
      rfl

omit [DecidableEq ν] in
theorem exists_fill_var (hn : t.pins.Nodup) (hi : .lamVar i ∈ t.pins) :
    ∃ C, t = fill C (.var i) ∧ .lamVar i ∉ pinsOf C := by
  induction t with
  | var k =>
    cases mem_singleton.mp hi
    exact ⟨[], rfl, not_mem_nil⟩
  | lam k body ih =>
    simp only [pins, mem_cons, reduceCtorEq, false_or] at hi
    obtain ⟨C, rfl, hC⟩ := ih (nodup_cons.mp (nodup_cons.mp hn).2).2 hi
    exact ⟨.lam k :: C, rfl, by simpa [pinsOf, Frame.pins] using hC⟩
  | app k f x ihf ihx =>
    simp only [pins, mem_cons, reduceCtorEq, false_or, mem_append] at hi
    simp only [pins, nodup_cons] at hn
    obtain ⟨hf, hx, hd⟩ := nodup_append.mp hn.2.2.2
    rcases hi with hi | hi
    · have hx' : .lamVar i ∉ x.pins := fun h => hd _ hi _ h rfl
      obtain ⟨C, rfl, hC⟩ := ihf hf hi
      exact ⟨.appL k x :: C, rfl, by simpa [pinsOf, Frame.pins, hx'] using hC⟩
    · have hf' : .lamVar i ∉ f.pins := fun h => hd _ h _ hi rfl
      obtain ⟨C, rfl, hC⟩ := ihx hx hi
      exact ⟨.appR k f :: C, rfl, by simpa [pinsOf, Frame.pins, hf'] using hC⟩

/-- A contraction replaces a redex in its context. -/
theorem Fire.exists_fill (h : Fire j i t t') : ∃ C body x,
    t = fill C (.app j (.lam i body) x) ∧ t' = fill C (body.subst i x) := by
  induction h with
  | beta body x => exact ⟨[], body, x, rfl, rfl⟩
  | lam k _ ih =>
    obtain ⟨C, body, x, rfl, rfl⟩ := ih
    exact ⟨.lam k :: C, body, x, rfl, rfl⟩
  | appL k y _ ih =>
    obtain ⟨C, body, x, rfl, rfl⟩ := ih
    exact ⟨.appL k y :: C, body, x, rfl, rfl⟩
  | appR k f _ ih =>
    obtain ⟨C, body, x, rfl, rfl⟩ := ih
    exact ⟨.appR k f :: C, body, x, rfl, rfl⟩

omit [DecidableEq ν] in
omit [DecidableEq ν] in
theorem uses_of_fill (h : (fill C t).Uses) : t.Uses := by
  induction C with
  | nil => exact h
  | cons F C ih =>
    cases F with
    | lam k => exact ih h.2
    | appL k x => exact ih h.1
    | appR k f => exact ih h.2

theorem nodup_of_fill (h : (fill C t).pins.Nodup) : t.pins.Nodup :=
  (nodup_append.mp ((pins_fill C t).nodup_iff.mp h)).2.1

/-- The parts of a contraction: an argument, the context of the variable in the body, and
the context of the redex. -/
theorem Fire.parts (h : Fire j i t t') (hn : t.pins.Nodup) (hu : t.Uses) : ∃ C D x,
    t = fill C (.app j (.lam i (fill D (.var i))) x) ∧ t' = fill C (fill D x) ∧
      .lamVar i ∉ pinsOf D := by
  obtain ⟨C, body, x, rfl, rfl⟩ := h.exists_fill
  obtain ⟨⟨hi, -⟩, -⟩ := uses_of_fill hu
  have hbody : body.pins.Nodup := by
    have hredex := nodup_of_fill hn
    simp only [pins, cons_append, nodup_cons, nodup_append] at hredex
    tauto
  obtain ⟨D, rfl, hD⟩ := exists_fill_var hbody hi
  exact ⟨C, D, x, rfl, by rw [subst_fill hD, subst_var_self], hD⟩

/-- The pins that a contraction removes. -/
def redexPins (j i : ν) : List (Pin ν) :=
  [.appOut j, .appFn j, .appArg j, .lamOut i, .lamBody i, .lamVar i]

theorem Fire.pins_perm (h : Fire j i t t') (hn : t.pins.Nodup) (hu : t.Uses) :
    t.pins.Perm (redexPins j i ++ t'.pins) := by
  obtain ⟨C, D, x, rfl, rfl, -⟩ := h.parts hn hu
  refine perm_iff_count.mpr fun a => ?_
  have h1 := (pins_fill C (.app j (.lam i (fill D (.var i))) x)).count_eq a
  have h2 := (pins_fill D (.var i)).count_eq a
  have h3 := (pins_fill C (fill D x)).count_eq a
  have h4 := (pins_fill D x).count_eq a
  simp only [pins, redexPins, count_cons, count_append, count_nil] at h1 h2 h3 h4 ⊢
  omega

/-- What a contraction does to the wires. The wires of the two agents go, and their outer
ends are joined: the place of the redex with the body, and the place of the variable with
the argument. If the body is the variable, the place of the redex gets the argument. -/
theorem Fire.rewires (h : Fire j i t t') (hn : t.pins.Nodup) (hu : t.Uses) (p : Pin ν) :
    (∃ c a R, (wiresAt p t).Perm ((c, .appOut j) :: (.appFn j, .lamOut i) ::
        (.lamBody i, .lamVar i) :: (.appArg j, a) :: R) ∧ (wiresAt p t').Perm ((c, a) :: R)) ∨
    (∃ c b q a R, (wiresAt p t).Perm ((c, .appOut j) :: (.appFn j, .lamOut i) ::
        (.lamBody i, b) :: (q, .lamVar i) :: (.appArg j, a) :: R) ∧
      (wiresAt p t').Perm ((c, b) :: (q, a) :: R)) := by
  obtain ⟨C, D, x, rfl, rfl, -⟩ := h.parts hn hu
  cases D with
  | nil =>
    refine .inl ⟨holeOf p C, x.top, wiresOf p C ++ x.wires, ?_, ?_⟩ <;>
      refine perm_iff_count.mpr fun w => ?_
    · have := (wires_fill p C (.app j (.lam i (.var i)) x)).count_eq w
      simp only [fill, wiresAt, wires, top, count_cons, count_append, count_nil] at this ⊢
      omega
    · have := (wires_fill p C x).count_eq w
      simp only [fill, wiresAt, count_cons, count_append] at this ⊢
      omega
  | cons F D =>
    refine .inr ⟨holeOf p C, F.top, holeOf F.hole D, x.top,
      wiresOf p C ++ (F.wires ++ wiresOf F.hole D) ++ x.wires, ?_, ?_⟩ <;>
      refine perm_iff_count.mpr fun w => ?_
    · have h1 := (wires_fill p C (.app j (.lam i (fill (F :: D) (.var i))) x)).count_eq w
      have h2 := (wires_fill (.lamBody i) (F :: D) (.var i)).count_eq w
      simp only [wiresAt, wires, wiresOf, holeOf, top, count_cons, count_append,
        count_nil] at h1 h2 ⊢
      omega
    · have h1 := (wires_fill p C (fill (F :: D) x)).count_eq w
      have h2 := (wires_fill (holeOf p C) (F :: D) x).count_eq w
      simp only [wiresAt, wiresOf, holeOf, count_cons, count_append] at h1 h2 ⊢
      omega

/-- The wires of a contraction: `L` is new, `R` is what stays of the old ones. A new wire may
be listed from either end. -/
structure Splice (j i : ν) (t t' : Tree ν) (L R : List (Pin ν × Pin ν)) : Prop where
  stays : ∀ w ∈ R, w ∈ t.wiresAt .root
  gone : ∀ w ∈ t.wiresAt .root, w ∈ R ∨ w.1 ∈ redexPins j i ∨ w.2 ∈ redexPins j i
  ends : (ends (L ++ R)).Perm (.root :: t'.pins)
  sound : ∀ w ∈ L ++ R, w ∈ t'.wiresAt .root ∨ w.swap ∈ t'.wiresAt .root
  complete : ∀ w ∈ t'.wiresAt .root, w ∈ L ++ R ∨ w.swap ∈ L ++ R

theorem Fire.splice (h : Fire j i t t') (hn : t.pins.Nodup) (hu : t.Uses) :
    (∃ c a R, (.lamBody i, .lamVar i) ∈ t.wiresAt .root ∧ (c, .appOut j) ∈ t.wiresAt .root ∧
      (.appArg j, a) ∈ t.wiresAt .root ∧ Splice j i t t' [(c, a)] R) ∨
    (∃ c b q a R, b ≠ .lamVar i ∧ b ≠ .lamOut i ∧ (.lamBody i, b) ∈ t.wiresAt .root ∧
      (q, .lamVar i) ∈ t.wiresAt .root ∧ (c, .appOut j) ∈ t.wiresAt .root ∧
      (.appArg j, a) ∈ t.wiresAt .root ∧ Splice j i t t' [(b, c), (q, a)] R) := by
  rcases h.rewires hn hu .root with ⟨c, a, R, ht, ht'⟩ | ⟨c, b, q, a, R, ht, ht'⟩
  · refine .inl ⟨c, a, R, ht.mem_iff.mpr (by simp), ht.mem_iff.mpr (by simp),
      ht.mem_iff.mpr (by simp), fun w hw => ht.mem_iff.mpr (by simp [hw]), fun w hw => ?_,
      (ht'.symm.flatMap_right _).trans (ends_wiresAt .root t'),
      fun w hw => .inl (ht'.mem_iff.mpr hw), fun w hw => .inl (ht'.mem_iff.mp hw)⟩
    have hw := ht.mem_iff.mp hw
    simp only [mem_cons] at hw
    rcases hw with rfl | rfl | rfl | rfl | hw
    · exact .inr (.inr (by simp [redexPins]))
    · exact .inr (.inl (by simp [redexPins]))
    · exact .inr (.inl (by simp [redexPins]))
    · exact .inr (.inl (by simp [redexPins]))
    · exact .inl hw
  · have hnd := ((ht.flatMap_right _).symm.trans (ends_wiresAt .root t)).nodup_iff.mpr
      (nodup_cons.mpr ⟨root_not_mem_pins _, hn⟩)
    simp only [flatMap_cons, cons_append, nil_append, nodup_cons, mem_cons, not_or] at hnd
    refine .inr ⟨c, b, q, a, R, by tauto, by tauto, ht.mem_iff.mpr (by simp),
      ht.mem_iff.mpr (by simp), ht.mem_iff.mpr (by simp), ht.mem_iff.mpr (by simp),
      fun w hw => ht.mem_iff.mpr (by simp [hw]), fun w hw => ?_, ?_, fun w hw => ?_, fun w hw => ?_⟩
    · have hw := ht.mem_iff.mp hw
      simp only [mem_cons] at hw
      rcases hw with rfl | rfl | rfl | rfl | rfl | hw
      · exact .inr (.inr (by simp [redexPins]))
      · exact .inr (.inl (by simp [redexPins]))
      · exact .inr (.inl (by simp [redexPins]))
      · exact .inr (.inr (by simp [redexPins]))
      · exact .inr (.inl (by simp [redexPins]))
      · exact .inl hw
    · exact .trans (.swap _ _ _) ((ht'.symm.flatMap_right _).trans (ends_wiresAt .root t'))
    · simp only [cons_append, nil_append, mem_cons] at hw
      rcases hw with rfl | rfl | hw
      · exact .inr (ht'.mem_iff.mpr (by simp))
      · exact .inl (ht'.mem_iff.mpr (by simp))
      · exact .inl (ht'.mem_iff.mpr (by simp [hw]))
    · have hw := ht'.mem_iff.mp hw
      simp only [mem_cons] at hw
      rcases hw with rfl | rfl | hw
      · exact .inr (by simp)
      · exact .inl (by simp)
      · exact .inl (by simp [hw])

/-- A redex is a wire from the function of an application to the output of an abstraction. -/
theorem mem_wires_iff_fire : (.appFn j, .lamOut i) ∈ t.wires ↔ ∃ t', Fire j i t t' := by
  constructor
  · intro h
    induction t with
    | var k => cases h
    | lam k body ih =>
      obtain ⟨b, hb⟩ := ih ((mem_cons.mp h).resolve_left fun he => by cases he)
      exact ⟨_, .lam k hb⟩
    | app k f x ihf ihx =>
      simp only [wires, mem_cons, Prod.mk.injEq, Pin.appFn.injEq, reduceCtorEq, false_and,
        false_or, mem_append] at h
      rcases h with ⟨rfl, htop⟩ | hf | hx
      · cases f with
        | lam k body =>
          cases htop
          exact ⟨_, .beta body x⟩
        | _ => cases htop
      · obtain ⟨f', hf'⟩ := ihf hf
        exact ⟨_, .appL k x hf'⟩
      · obtain ⟨x', hx'⟩ := ihx hx
        exact ⟨_, .appR k f hx'⟩
  · rintro ⟨t', h⟩
    induction h with
    | beta body x => exact mem_cons_self
    | lam k _ ih => exact mem_cons_of_mem _ ih
    | appL k x _ ih =>
      exact mem_cons_of_mem _ (mem_cons_of_mem _ (mem_append_left _ ih))
    | appR k f _ ih =>
      exact mem_cons_of_mem _ (mem_cons_of_mem _ (mem_append_right _ ih))

/-- Replacing the inner term of a context keeps the uses, if it keeps the variables that the
context binds. -/
theorem uses_fill (h : (fill C t).Uses) (ht' : t'.Uses)
    (hvars : ∀ k, .lamOut k ∈ pinsOf C → .lamVar k ∈ t.pins → .lamVar k ∈ t'.pins) :
    (fill C t').Uses := by
  induction C with
  | nil => exact ht'
  | cons F C ih =>
    have hrest : ∀ k, .lamOut k ∈ pinsOf C → .lamVar k ∈ t.pins → .lamVar k ∈ t'.pins :=
      fun k hk => hvars k (mem_append_right _ hk)
    cases F with
    | lam k =>
      refine ⟨?_, ih h.2 hrest⟩
      have hk := (pins_fill C t).mem_iff.mp h.1
      refine (pins_fill C t').mem_iff.mpr ((mem_append.mp hk).elim
        (mem_append_left _) fun hk => mem_append_right _ (hvars k ?_ hk))
      exact mem_append_left _ mem_cons_self
    | appL k x => exact ⟨ih h.1 hrest, h.2⟩
    | appR k f => exact ⟨h.1, ih h.2 hrest⟩

theorem Fire.uses (h : Fire j i t t') (hn : t.pins.Nodup) (hu : t.Uses) : t'.Uses := by
  obtain ⟨C, D, x, rfl, rfl, -⟩ := h.parts hn hu
  obtain ⟨⟨hi, hbody⟩, hx⟩ := uses_of_fill hu
  have hredex := nodup_of_fill hn
  have houtD : .lamOut i ∉ pinsOf D := fun hD => by
    have hmem := (pins_fill D (.var i)).mem_iff.mpr (mem_append_left _ hD)
    simp only [pins, cons_append, nodup_cons, mem_cons, mem_append] at hredex
    tauto
  refine uses_fill hu (uses_fill hbody hx fun k hk hv => ?_) fun k hk hv => ?_
  · cases mem_singleton.mp hv
    exact absurd hk houtD
  · have houtC : .lamOut i ∉ pinsOf C := fun hC =>
      (nodup_append.mp ((pins_fill C _).nodup_iff.mp hn)).2.2 _ hC _ (by simp [pins]) rfl
    have hki : k ≠ i := fun he => houtC (he ▸ hk)
    have hD := (pins_fill D (.var i)).mem_iff (a := .lamVar k)
    have hD' := (pins_fill D x).mem_iff (a := .lamVar k)
    simp only [pins, mem_cons, mem_append, reduceCtorEq, false_or, Pin.lamVar.injEq,
      hki, not_mem_nil, or_false] at hv hD hD' ⊢
    tauto

theorem Fire.closed (h : Fire j i t t') (hn : t.pins.Nodup) (hu : t.Uses) (hc : t.Closed) :
    t'.Closed := by
  have hperm := h.pins_perm hn hu
  have hnodup := hperm.nodup_iff.mp hn
  intro k hk
  have hki : k ≠ i := by
    rintro rfl
    exact (nodup_append.mp hnodup).2.2 (.lamVar k) (by simp [redexPins]) _ hk rfl
  have hout := hperm.mem_iff.mp (hc k (hperm.mem_iff.mpr (mem_append_right _ hk)))
  simpa [redexPins, hki] using hout

/-! ## The λ-term -/

/-- The λ-term of a tree under the binders `Γ`, innermost first. -/
def toTerm (Γ : List ν) : Tree ν → Term
  | .var i => .var (Γ.idxOf i)
  | .lam i body => .lam (body.toTerm (i :: Γ))
  | .app _ f x => .app (f.toTerm Γ) (x.toTerm Γ)

/-! ## Commutation -/

theorem subst_subst {b a x : Tree ν} {l : ν} (hne : l ≠ i) (hl : .lamVar l ∉ x.pins) :
    (b.subst l a).subst i x = (b.subst i x).subst l (a.subst i x) := by
  induction b with
  | var m =>
    by_cases hm : m = l
    · subst hm
      rw [subst_var_self, subst_var_ne x hne, subst_var_self]
    · rw [subst_var_ne a hm]
      by_cases hmi : m = i
      · subst hmi
        rw [subst_var_self, subst_of_not_mem _ hl]
      · rw [subst_var_ne x hmi, subst_var_ne _ hm]
  | lam m body ih => rw [subst, subst, subst, subst, ih]
  | app m f y ihf ihy => rw [subst, subst, subst, subst, ihf, ihy]

theorem Fire.subst {x : Tree ν} (h : Fire k l t t') (hne : l ≠ i)
    (hl : .lamVar l ∉ x.pins) : Fire k l (t.subst i x) (t'.subst i x) := by
  induction h with
  | beta body y =>
    rw [subst_subst hne hl]
    exact .beta _ _
  | lam m _ ih => exact .lam m ih
  | appL m y _ ih => exact .appL m _ ih
  | appR m f _ ih => exact .appR m _ ih

theorem Fire.fill (h : Fire j i t t') (C : List (Frame ν)) :
    Fire j i (fill C t) (Tree.fill C t') := by
  induction C with
  | nil => exact h
  | cons F C ih =>
    cases F with
    | lam k => exact .lam k ih
    | appL k x => exact .appL k x ih
    | appR k f => exact .appR k f ih

theorem Fire.mem_pins (h : Fire j i t t') : .appOut j ∈ t.pins ∧ .lamOut i ∈ t.pins := by
  obtain ⟨C, body, x, rfl, -⟩ := h.exists_fill
  refine ⟨(pins_fill C _).mem_iff.mpr ?_, (pins_fill C _).mem_iff.mpr ?_⟩ <;> simp [pins]

theorem Fire.diamond_beta {body x : Tree ν}
    (hn : (Tree.app j (.lam i body) x).pins.Nodup) (hu : (Tree.app j (.lam i body) x).Uses)
    (h : Fire k l (.app j (.lam i body) x) t') :
    body.subst i x = t' ∨ ∃ u, Fire k l (body.subst i x) u ∧ Fire j i t' u := by
  have hnodup := hn
  simp only [pins, cons_append, nodup_cons, mem_cons, mem_append, nodup_append] at hnodup
  cases h with
  | beta => exact .inl rfl
  | appL _ _ hf =>
    cases hf with
    | @lam _ _ body' hb =>
      have hne : l ≠ i := by
        rintro rfl
        have := hb.mem_pins.2
        tauto
      have hl : .lamVar l ∉ x.pins := by
        have := lamVar_mem_pins hu.1.2 hb.mem_pins.2
        grind
      exact .inr ⟨body'.subst i x, hb.subst hne hl, .beta body' x⟩
  | @appR _ _ _ x' hx =>
    have hbody : body.pins.Nodup := by tauto
    obtain ⟨D, rfl, hD⟩ := exists_fill_var hbody hu.1.1
    refine .inr ⟨(Tree.fill D (.var i)).subst i x', ?_, .beta _ x'⟩
    rw [subst_fill hD, subst_var_self, subst_fill hD, subst_var_self]
    exact hx.fill D

/-- Two contractions are the same or commute. -/
theorem Fire.diamond {t1 t2 : Tree ν} (hn : t.pins.Nodup) (hu : t.Uses)
    (h₁ : Fire j i t t1) (h₂ : Fire k l t t2) : t1 = t2 ∨ ∃ u, Fire k l t1 u ∧ Fire j i t2 u := by
  induction h₁ generalizing t2 with
  | beta body x => exact h₂.diamond_beta hn hu
  | lam m hb ih =>
    cases h₂ with
    | lam _ hb2 =>
      have hbody := (nodup_cons.mp (nodup_cons.mp hn).2).2
      rcases ih hbody hu.2 hb2 with rfl | ⟨u, h, h'⟩
      · exact .inl rfl
      · exact .inr ⟨_, .lam m h, .lam m h'⟩
  | appL m x hf ih =>
    cases h₂ with
    | beta body _ =>
      rcases (Fire.appL _ x hf).diamond_beta hn hu with he | ⟨u, h, h'⟩
      · exact .inl he.symm
      · exact .inr ⟨u, h', h⟩
    | appL _ _ hf2 =>
      have hfn := nodup_of_fill (C := [.appL m x]) hn
      rcases ih hfn hu.1 hf2 with rfl | ⟨u, h, h'⟩
      · exact .inl rfl
      · exact .inr ⟨_, .appL m x h, .appL m x h'⟩
    | appR _ _ hx => exact .inr ⟨_, .appR m _ hx, .appL m _ hf⟩
  | appR m f hx ih =>
    cases h₂ with
    | beta body _ =>
      rcases (Fire.appR _ _ hx).diamond_beta hn hu with he | ⟨u, h, h'⟩
      · exact .inl he.symm
      · exact .inr ⟨u, h', h⟩
    | appL _ _ hf => exact .inr ⟨_, .appL m _ hf, .appR m _ hx⟩
    | appR _ _ hx2 =>
      have hxn := nodup_of_fill (C := [.appR m f]) hn
      rcases ih hxn hu.2 hx2 with rfl | ⟨u, h, h'⟩
      · exact .inl rfl
      · exact .inr ⟨_, .appR m f h, .appR m f h'⟩

end

end Tree

/-! ## Diagrams -/

/-- A closed linear term: labels stand once, and every abstraction binds one variable. -/
structure Diagram (ν : Type) where
  tree : Tree ν
  nodup : tree.pins.Nodup
  uses : tree.Uses
  closed : tree.Closed

namespace Diagram

variable {ν : Type} [DecidableEq ν] {d d' : Diagram ν}

def Step (d d' : Diagram ν) : Prop := ∃ j i, Tree.Fire j i d.tree d'.tree

omit [DecidableEq ν] in
theorem ext (h : d.tree = d'.tree) : d = d' := by
  cases d
  cases d'
  cases h
  rfl

/-- A contraction of a diagram gives a diagram. -/
def fire (d : Diagram ν) {j i : ν} {t : Tree ν} (h : Tree.Fire j i d.tree t) : Diagram ν where
  tree := t
  nodup := (nodup_append.mp ((h.pins_perm d.nodup d.uses).nodup_iff.mp d.nodup)).2.1
  uses := h.uses d.nodup d.uses
  closed := h.closed d.nodup d.uses d.closed

theorem diamond : Diamond (Step (ν := ν)) := by
  rintro d d1 d2 ⟨j, i, h₁⟩ ⟨k, l, h₂⟩
  rcases h₁.diamond d.nodup d.uses h₂ with he | ⟨u, hu, hu'⟩
  · exact .inl (ext he)
  · exact .inr ⟨d1.fire hu, ⟨k, l, hu⟩, j, i, hu'⟩

def size (d : Diagram ν) : Nat := d.tree.pins.length

theorem Step.size_lt (h : Step d d') : d'.size < d.size := by
  obtain ⟨j, i, h⟩ := h
  have := (h.pins_perm d.nodup d.uses).length_eq
  rw [length_append] at this
  simp only [size, this, Tree.redexPins, length_cons]
  omega

end Diagram

end Dnet.Lib
