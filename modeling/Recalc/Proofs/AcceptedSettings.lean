import Recalc.Proofs.Overrides
import Recalc.Proofs.Reentry
import Recalc.Proofs.SettingRequests

set_option autoImplicit false

/-!
# Accepted settings

The host may say for cells whether they may be empty. Authored cells keep what was said, whatever
happens to their bases and to the spaces around them, and evaluation goes by it wherever the cells
are called. Derived cells do not: the wave after the request sets them back to what their base says.
-/

namespace Recalc

open Recalc.Action Recalc.Model

/-- The request does not name the cells, and the space they are in outlives it. -/
def Step.LeavesAlone (id : CellId) (s : Step) : Prop :=
  s.request.edited? ≠ some (.cells id) ∧ s.after.Addressable ∧
    ∀ c, s.before.cells.get? id = some c → s.before.Secure s.request c.space

namespace Model

variable {m m' m₁ : Model} {id : CellId} {flag : Bool}

/-- The cells are authored in a static space, with a setting of their own. -/
def OwnSetting (m : Model) (id : CellId) (flag : Bool) : Prop :=
  ∃ c s, m.cells.get? id = some c ∧ c.derived = false ∧ c.allowNone = some flag ∧
    m.spaces.get? c.space = some s ∧ s.isStatic = true

theorem OwnSetting.mayBeEmpty (h : m.OwnSetting id flag) : m.mayBeEmpty id = flag := by
  obtain ⟨c, -, hc, -, hallow, -⟩ := h
  exact mayBeEmpty_of_own hc hallow

theorem SameDefinitions.ownSetting (h : SameDefinitions m m') (hown : m.OwnSetting id flag) :
    m'.OwnSetting id flag := by
  obtain ⟨c, s, hc, hauthored, hallow, hs, hstatic⟩ := hown
  obtain ⟨c', hc', hbare, -⟩ := h.cells id c s hc hs hstatic
  obtain ⟨instances, hs'⟩ := h.spaces _ s hs hstatic
  have hlasts := Cells.lasts_of_bare hbare hauthored
  rw [← hlasts.space] at hs'
  exact ⟨c', _, hc', hlasts.authored, hlasts.allowNone.trans hallow, hs', hstatic⟩

/-! ## The request and what comes after it -/

section Requests

variable {q q' : Request}

theorem Tied.congr (h : m'.spaces = m.spaces) (hq : ∀ x b, q' ≠ .unlinkBase x b) {x b : SpaceId}
    (ht : m.Tied q x b) : m'.Tied q' x b := by
  induction ht with
  | explicit hs hb => exact .explicit (h ▸ hs) hb (hq _ _)
  | implicit hs hb hp _ ht hchild ih => exact .implicit (h ▸ hs) hb hp ih (h ▸ ht) hchild

/-- To requests that take nothing away, what is secure from another one is secure. -/
theorem Secure.congr (h : m'.spaces = m.spaces) (hq : ∀ x, q' ≠ .removeSpace x)
    (hbase : ∀ x b, q' ≠ .unlinkBase x b) {x : SpaceId} (hsecure : m.Secure q x) :
    m'.Secure q' x := by
  induction hsecure with
  | authored hs hstatic hauthored _ _ ih => exact .authored (h ▸ hs) hstatic hauthored ih (hq _)
  | derived hs hderived hp _ htied ht hchild _ ih ih' =>
    exact .derived (h ▸ hs) hderived hp ih (htied.congr h hbase) (h ▸ ht) hchild ih'

/-- The wave after the request leaves the new setting of authored cells as it is. -/
theorem leaves_accepted (hm : m.Faithful fun _ => False) {c : Cells} {fuel : Nat}
    (hc : m.cells.get? id = some c) (authored : c.derived = false)
    (secure : m.Secure (.letCellsBeEmpty id (some flag)) c.space)
    (hset : letCellsBeEmpty fuel id (some flag) m = some (.ok (), m')) (room : m'.Addressable) :
    m'.OwnSetting id flag := by
  have hcell : m.cell id = .ok c := cell_eq_ok.2 hc
  unfold letCellsBeEmpty at hset
  rw [read_bind, hcell] at hset
  dsimp only at hset
  rw [read_bind] at hset
  cases hs : m.editable c.space with
  | error e => simp only [hs] at hset; cases hset
  | ok s =>
    simp only [hs] at hset
    rw [modify_bind] at hset
    let f : Cells → Cells := fun d => { d with allowNone := some flag }
    have hsettled := follows_redefinition (f := f) (fun _ => rfl) (fun _ => hm) hcell hs
    have howned : (m.modifyCell id f).Owned := owned_modifyCell hm.owned fun _ => rfl
    have hforget := (forgetsAll_invalidateCells (m.modifyCell id f) id).forgetsSome
    -- seen from the model with the setting, nothing happens to the cells
    have hsafe : Leaves (Safeguards .forgetAll (m.modifyCell id f)) (deriveFrom fuel [c.space])
        (((m.modifyCell id f).invalidateCells id).2.dropStaleInstances c.space) :=
      leaves_deriveFrom _ fuel _ howned fun small =>
        ⟨hsettled.holds small,
          ((Safeguards.refl _ _).forget howned hforget).dropStaleInstances
            (hforget.alike.owned howned) _⟩
    have hguards : Safeguards .forgetAll (m.modifyCell id f) m' := by
      rcases (bind_eq_some _).1 hset with ⟨_, m₁, hwave, hrest⟩ | ⟨e, -, hfails⟩
      · cases hrest
        exact hsafe _ _ hwave room
      · cases hfails
    have hc₁ : (m.modifyCell id f).cells.get? id = some (f c) := by
      show (m.cells.modify id f).get? id = _
      rw [Pool.get?_modify, if_pos rfl, hc, Option.map_some]
    have hspaces : (m.modifyCell id f).spaces = m.spaces := rfl
    have hsecure : (m.modifyCell id f).Secure .forgetAll c.space :=
      secure.congr hspaces (fun _ => Request.noConfusion) fun _ _ => Request.noConfusion
    obtain ⟨c', hc', hlasts⟩ :=
      hguards.cells id (f c) (.cells hc₁ authored hsecure (by simp [Request.edited?])) hc₁
    obtain ⟨s', hs', hstatic⟩ := hguards.static hsecure
    exact ⟨c', s', hc', hlasts.authored, hlasts.allowNone, hlasts.space ▸ hs', hstatic⟩

theorem OwnSetting.step (h : m.OwnSetting id flag) (hm : Reachable m) {s : Step}
    (hbefore : s.before = m) (hsound : s.Sound) (halone : s.LeavesAlone id) :
    s.after.OwnSetting id flag := by
  subst hbefore
  obtain ⟨c, -, hc, hauthored, hallow, -⟩ := h
  obtain ⟨hq, room, hsecure⟩ := halone
  have hguards := hm.safeguards hsound room
  have hsecure := hsecure c hc
  obtain ⟨c', hc', hlasts⟩ := hguards.cells id c (.cells hc hauthored hsecure hq) hc
  obtain ⟨s', hs', hstatic⟩ := hguards.static hsecure
  exact ⟨c', s', hc', hlasts.authored, hlasts.allowNone.trans hallow, hlasts.space ▸ hs', hstatic⟩

theorem OwnSetting.becomes (h : m.OwnSetting id flag) (hm : Reachable m)
    (hbecomes : Becomes (Step.LeavesAlone id) m m') : Reachable m' ∧ m'.OwnSetting id flag := by
  induction hbecomes with
  | refl => exact ⟨hm, h⟩
  | step s _ hsound halone ih => exact ⟨ih.1.next hsound, ih.2.step ih.1 rfl hsound halone⟩

end Requests

/-! ## Evaluation -/

/-- The models in which something is evaluated for a request to `m`: nodes are put on the stack,
bodies start, reads are noted, children are made and questions are answered. -/
inductive Amid (m : Model) : Model → Prop
  | idle : Amid m m
  | ready (held : List Handle) : Amid m (m.ready held)
  | entered {m₁ m₂ : Model} {id : CellId} {c : Cells} {key : Key} : Amid m m₁ →
      m₁.cells.get? id = some c → c.contents.get? key = none →
      enter (.cells id key) m₁ = some (.ok (), m₂) → Amid m m₂
  | started {m₁ : Model} : Amid m m₁ → Amid m { m₁ with runs := m₁.runs + 1 }
  | noted {m₁ : Model} {n : Node} : Amid m m₁ → m₁.isLive n = true → Amid m (noteRead n m₁)
  | made {m₁ m₂ : Model} {parent : SpaceId} {name : String} {r : Except Failure SpaceId} :
      Amid m m₁ → ensureChild parent name m₁ = some (r, m₂) → Amid m m₂
  | answered {m₁ m₂ : Model} {fuel : Nat} {id : SpaceId} {q : Query} {r : Except Failure Value} :
      Amid m m₁ → answer (runFormula fuel) id q m₁ = some (r, m₂) → Amid m m₂

/-- No definition changed, and evaluation may go on. -/
structure Serves (m m₁ : Model) : Prop where
  running : m₁.Running
  fits : Fits m m₁
  same : m₁.Addressable → SameDefinitions m m₁

theorem Serves.adds {m₂ : Model} (h : Serves m m₁) (hadds : Under Running Adds m₁ m₂) :
    Serves m m₂ := by
  obtain ⟨hrunning, hadds⟩ := hadds h.running
  exact ⟨hrunning, Frame.trans h.fits hadds.grows.fits, fun room =>
    (h.same (hadds.grows.fits.addressable room)).trans (hadds.enriches room).sameDefinitions⟩

theorem Amid.serves (h : m.Amid m₁) (hm : Reachable m) : Serves m m₁ := by
  induction h with
  | idle => exact ⟨hm.running, Frame.refl m, fun _ => .refl m⟩
  | ready held =>
    obtain ⟨hrunning, -, hfits, hsame⟩ := hm.ready held
    exact ⟨hrunning, hfits, fun room => hsame (hfits.addressable room)⟩
  | entered _ hc hnone henter ih =>
    obtain ⟨-, stack, hpush, rfl⟩ := enter_eq_ok henter
    refine ⟨ih.running.pushed hpush hc hnone, Frame.trans ih.fits (alike_stack _ _).fits, ?_⟩
    exact fun room => (ih.same ((alike_stack _ _).addressable.1 room)).trans
      (Enriches.refl _).beside.sameDefinitions
  | started _ ih => exact ih.adds (evaluationFrame_adds.start _)
  | noted _ hn ih => exact ih.adds (evaluationFrame_adds.note _ _ hn)
  | made _ hmade ih => exact ih.adds (evaluationFrame_adds.child _ _ _ _ _ hmade)
  | @answered _ _ fuel id q _ _ hanswer ih =>
    exact ih.adds (evaluationFrame_adds.answer (runs_adds fuel) id q _ _ _ hanswer)

/-- What cells compute at a key: what their formula comes to, or nothing. -/
def ruleOf (run : RunFormula) (c : Cells) (key : Key) : Action Value :=
  c.formula.elim (pure .empty) fun f => run c.space f key.values

theorem runCells_of_rule {run : RunFormula} {c : Cells} {key : Key} {r : Except Failure Value}
    (h : ruleOf run c key m = some (r, m')) :
    runCells run id c key m = some (.ok (outcome id (.cells id key) r m'), m') := by
  unfold runCells
  rw [attempt_bind]
  unfold ruleOf at h
  cases hf : c.formula with
  | none =>
    rw [hf] at h
    cases h
    rfl
  | some f =>
    rw [hf] at h
    replace h : run c.space f key.values m = some (r, m') := h
    simp only [h]
    rfl

theorem adds_ruleOf (fuel : Nat) (c : Cells) (key : Key) :
    Obeys (Under Running Adds) (ruleOf (runFormula fuel) c key) := by
  unfold ruleOf
  cases c.formula with
  | none => exact obeys_pure _
  | some f => exact runs_adds fuel _ _ _

/-- Cells whose formula ends with an empty value give it when they may be empty, and else fail. -/
theorem evaluateKey_of_empty {c : Cells} {key : Key} {fuel : Nat} {m₂ : Model}
    (hrunning : m.Running) (hc : m.cells.get? id = some c) (hnone : c.contents.get? key = none)
    (henter : enter (.cells id key) m = some (.ok (), m₁))
    (hrule : ruleOf (runFormula fuel) c key m₁ = some (.ok .empty, m₂)) :
    ∃ m₃, evaluateKey (runFormula fuel) id key m =
      some (if m₂.mayBeEmpty id = true then .ok .empty
        else .error (.noneReturned (m₂.labelOf (.cells id key))), m₃) := by
  have hcompute : evaluateKey (runFormula fuel) id key m = finish id key
      (outcome id (.cells id key) (.ok .empty) m₂) { m₂ with stack := m₂.stack.pop } := by
    unfold evaluateKey
    rw [read_bind, cell_eq_ok.2 hc]
    simp only [hnone]
    unfold compute
    rw [bind_apply, henter]
    dsimp only
    rw [bind_apply, runCells_of_rule hrule]
    rfl
  rw [hcompute]
  unfold outcome
  cases hallows : m₂.mayBeEmpty id with
  | false => exact ⟨_, rfl⟩
  | true =>
    obtain ⟨-, stack, hpush, rfl⟩ := enter_eq_ok henter
    -- the node has been on the stack throughout, so nothing is stored for it
    have hpushed := hrunning.pushed hpush hc hnone
    obtain ⟨hrunning₂, hadds⟩ := adds_ruleOf fuel c key _ _ _ hrule hpushed
    have hnodes : m₂.stack.nodes = .cells id key :: m.stack.nodes :=
      hadds.grows.retains.stack.trans (Stack.nodes_of_push? hpush)
    obtain ⟨other, c₂, he, hc₂, hnone₂⟩ :=
      hrunning₂.tracked.waiting (.cells id key) (by rw [hnodes]; exact List.mem_cons_self)
    cases he
    have hfree := Contents.inputs_eq_none_iff.1 (Option.or_eq_none_iff.1 hnone₂).1
    have hstore := (Contents.store?_eq_some (v := .empty)).2 ⟨hfree, rfl⟩
    exact ⟨_, finish_of_store (m := { m₂ with stack := m₂.stack.pop }) hc₂ hstore⟩

/-- What was said of authored cells is in force wherever they are evaluated. -/
structure Heeded (m : Model) (id : CellId) (flag : Bool) : Prop where
  own : m.OwnSetting id flag
  inForce : m.mayBeEmpty id = flag
  /-- An empty end of their formula is their value, or the failure that says so. -/
  evaluated : ∀ m₁ c key fuel m₂ m₃, m.Amid m₁ → m₁.cells.get? id = some c →
    c.contents.get? key = none → enter (.cells id key) m₁ = some (.ok (), m₂) →
    ruleOf (runFormula fuel) c key m₂ = some (.ok .empty, m₃) → m₃.Addressable →
    ∃ m₄, evaluateKey (runFormula fuel) id key m₁ =
      some (if flag = true then .ok .empty
        else .error (.noneReturned (m₃.labelOf (.cells id key))), m₄)
  /-- Nothing empty is left from before. -/
  stored : flag = false → m.Addressable → ∀ c k, m.cells.get? id = some c →
    c.contents.values.get? k ≠ some .empty

theorem OwnSetting.heeded (h : m.OwnSetting id flag) (hm : Reachable m) : m.Heeded id flag where
  own := h
  inForce := h.mayBeEmpty
  evaluated m₁ c key fuel m₂ m₃ hamid hc hnone henter hrule room := by
    obtain ⟨m₄, hvalue⟩ := evaluateKey_of_empty (hamid.serves hm).running hc hnone henter hrule
    have hran := ((hamid.entered hc hnone henter).serves hm).adds (adds_ruleOf _ _ _ _ _ _ hrule)
    have hown := (hran.same room).ownSetting h
    rw [hown.mayBeEmpty] at hvalue
    exact ⟨m₄, hvalue⟩
  stored hflag room c k hc hv := by
    have hallows := (hm.orderly.proper room).governs_iff hc true
    rw [h.mayBeEmpty, hflag] at hallows
    exact absurd (hallows.1 (hm.allows room id c k hc hv)) Bool.false_ne_true

end Model

/-- Once the host has said of authored cells whether they may be empty, that is in force through all
requests that leave the cells alone, whatever they do to bases and to the spaces around. -/
theorem Reachable.settingHeeded {m m₁ m' : Model} (h : Reachable m) {fuel : Nat} {id : CellId}
    {flag : Bool} {c : Cells} (hc : m.cells.get? id = some c) (authored : c.derived = false)
    (secure : m.Secure (.letCellsBeEmpty id (some flag)) c.space)
    (hset : letCellsBeEmpty fuel id (some flag) m = some (.ok (), m₁)) (room : m₁.Addressable)
    (later : Becomes (Step.LeavesAlone id) m₁ m') : m'.Heeded id flag := by
  obtain ⟨-, hfits⟩ := proper_letCellsBeEmpty fuel id (some flag) m _ m₁ hset h.orderly.proper
  have hm := h.orderly.proper (hfits.addressable room)
  have hnext : (Request.letCellsBeEmpty id (some flag)).run fuel [] m = some (.ok .done, m₁) := by
    show ((fun _ => Reply.done) <$> letCellsBeEmpty fuel id (some flag)) m = _
    rw [← bind_pure_comp, bind_apply, hset]
    rfl
  obtain ⟨hreach, hown⟩ := (leaves_accepted hm hc authored secure hset room).becomes (h.next hnext) later
  exact hown.heeded hreach

def Model.inRoot (m : Model) (id : CellId) : Bool :=
  (m.cells.get? id).any fun c => (m.spaces.get? c.space).any fun s =>
    s.isStatic && (!s.isDerived && s.parent.isNone)

theorem Model.secure_of_inRoot {m : Model} {q : Request} {id : CellId} {c : Cells}
    (h : m.inRoot id = true) (hq : ∀ x, q ≠ .removeSpace x) (hc : m.cells.get? id = some c) :
    m.Secure q c.space := by
  obtain ⟨d, hd, h⟩ := (Option.any_eq_true _ _).1 h
  cases hc.symm.trans hd
  obtain ⟨s, hs, h⟩ := (Option.any_eq_true _ _).1 h
  simp only [Bool.and_eq_true, Bool.not_eq_true', Option.isNone_iff_eq_none] at h
  obtain ⟨hstatic, hauthored, hroot⟩ := h
  refine .authored hs hstatic hauthored (fun p hp => ?_) (hq _)
  rw [hroot] at hp
  contradiction

/-- `A.c` comes to nothing, and `B` derives it. -/
def inheritedNoteRequests : List Request :=
  [.createSpace none "A", .defineCells ⟨0, 0⟩ "c" (some (Formula.constant 1 .empty)),
    .createSpace none "B", .linkBase ⟨1, 0⟩ ⟨0, 0⟩]

/-- An override of `B.c` may be empty, though `B` and then `A.c` are told that they may not. -/
theorem overriding_settingHeeded : ∃ m m₁ m' b c,
    Request.runAll 9 [] (inheritedNoteRequests ++ [.redefine ⟨1, 0⟩ (Formula.constant 2 .empty)])
      Shop.start = some m ∧
    letCellsBeEmpty 9 ⟨1, 0⟩ (some true) m = some (.ok (), m₁) ∧
    Request.runAll 9 [] [.letSpaceBeEmpty ⟨1, 0⟩ (some false),
      .letCellsBeEmpty ⟨0, 0⟩ (some false)] m₁ = some m' ∧
    m'.spaces.get? ⟨1, 0⟩ = some b ∧ b.allowNone = some false ∧
    m'.cells.get? ⟨0, 0⟩ = some c ∧ c.allowNone = some false ∧ m'.Heeded ⟨1, 0⟩ true := by
  have hrun : ((Request.runAll 9 [] (inheritedNoteRequests ++
      [.redefine ⟨1, 0⟩ (Formula.constant 2 .empty)]) Shop.start).any fun m =>
      (m.cells.get? ⟨1, 0⟩).any fun d => (letCellsBeEmpty 9 ⟨1, 0⟩ (some true) m).any fun o =>
        o.1.isOk && ((Request.letSpaceBeEmpty ⟨1, 0⟩ (some false)).run 9 [] o.2).any fun o₂ =>
          ((Request.letCellsBeEmpty ⟨0, 0⟩ (some false)).run 9 [] o₂.2).any fun o₃ =>
            (o₃.2.spaces.get? ⟨1, 0⟩).any fun b => (o₃.2.cells.get? ⟨0, 0⟩).any fun c =>
              decide (d.derived = false ∧ b.allowNone = some false ∧ c.allowNone = some false ∧
                m.inRoot ⟨1, 0⟩ = true ∧ o.2.inRoot ⟨1, 0⟩ = true ∧ o₂.2.inRoot ⟨1, 0⟩ = true ∧
                o.2.Addressable ∧ o₂.2.Addressable ∧ o₃.2.Addressable)) = true := by
    decide +kernel
  obtain ⟨m, hm, hrun⟩ := (Option.any_eq_true _ _).1 hrun
  obtain ⟨d, hd, hrun⟩ := (Option.any_eq_true _ _).1 hrun
  obtain ⟨m₁, hset, hrun⟩ := exists_of_isOk hrun
  obtain ⟨⟨r₂, m₂⟩, hspace, hrun⟩ := (Option.any_eq_true _ _).1 hrun
  obtain ⟨⟨r₃, m'⟩, hbase, hrun⟩ := (Option.any_eq_true _ _).1 hrun
  obtain ⟨b, hb, hrun⟩ := (Option.any_eq_true _ _).1 hrun
  obtain ⟨c, hc, hfacts⟩ := (Option.any_eq_true _ _).1 hrun
  obtain ⟨hauthored, hbnone, hcnone, hroot, hroot₁, hroot₂, room₁, room₂, room'⟩ :=
    of_decide_eq_true hfacts
  have hlater : Becomes (Step.LeavesAlone ⟨1, 0⟩) m₁ m' := by
    refine .step ⟨m₂, 9, [], .letCellsBeEmpty ⟨0, 0⟩ (some false), r₃, m'⟩
      (.step ⟨m₁, 9, [], .letSpaceBeEmpty ⟨1, 0⟩ (some false), r₂, m₂⟩ .refl hspace ?_) hbase ?_
    · exact ⟨by simp [Request.edited?], room₂, fun _ => secure_of_inRoot hroot₁ fun _ => Request.noConfusion⟩
    · exact ⟨by simp [Request.edited?], room', fun _ => secure_of_inRoot hroot₂ fun _ => Request.noConfusion⟩
  refine ⟨m, m₁, m', b, c, hm, hset, ?_, hb, hbnone, hc, hcnone,
    Reachable.settingHeeded ⟨_, .new "doc" {}, Request.becomes_of_runAll _ hm⟩ hd hauthored
      (secure_of_inRoot hroot (fun _ => Request.noConfusion) hd) hset room₁ hlater⟩
  simp only [Request.runAll, hspace, hbase]

/-- The derived `B.c` is told that it may be empty. It is not, and a call fails. -/
theorem derived_setting_lost : ∃ m m₁ m' c s, Reachable m ∧
    m.cells.get? ⟨1, 0⟩ = some c ∧ m.spaces.get? c.space = some s ∧ s.isStatic = true ∧
    letCellsBeEmpty 9 ⟨1, 0⟩ (some true) m = some (.ok (), m₁) ∧ m₁.mayBeEmpty ⟨1, 0⟩ = false ∧
    Model.call 9 [] ⟨1, 0⟩ {} m₁ = some (.error (.noneReturned "B.c()"), m') := by
  have hrun : ((Request.runAll 9 [] inheritedNoteRequests Shop.start).any fun m =>
      (m.cells.get? ⟨1, 0⟩).any fun c => (m.spaces.get? c.space).any fun s => s.isStatic &&
        (letCellsBeEmpty 9 ⟨1, 0⟩ (some true) m).any fun o => o.1.isOk &&
          (!o.2.mayBeEmpty ⟨1, 0⟩ && (rejection? (Model.call 9 [] ⟨1, 0⟩ {}) o.2).any
            fun e => e.1 == .noneReturned "B.c()")) = true := by
    decide +kernel
  obtain ⟨m, hm, hrun⟩ := (Option.any_eq_true _ _).1 hrun
  obtain ⟨c, hc, hrun⟩ := (Option.any_eq_true _ _).1 hrun
  obtain ⟨s, hs, hrun⟩ := (Option.any_eq_true _ _).1 hrun
  obtain ⟨hstatic, hrun⟩ := Bool.and_eq_true_iff.1 hrun
  obtain ⟨m₁, hset, hrun⟩ := exists_of_isOk hrun
  obtain ⟨hforbidden, hrun⟩ := Bool.and_eq_true_iff.1 hrun
  obtain ⟨⟨e, m'⟩, hcall, he⟩ := (Option.any_eq_true _ _).1 hrun
  exact ⟨m, m₁, m', c, s, ⟨_, .new "doc" {}, Request.becomes_of_runAll _ hm⟩, hc, hs, hstatic,
    hset, by simpa using hforbidden, eq_of_beq he ▸ rejection?_eq_some.1 hcall⟩

end Recalc
