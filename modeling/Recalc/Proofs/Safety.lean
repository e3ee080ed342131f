import Recalc.Proofs.Newcomers
import Recalc.Proofs.Reclaiming

set_option autoImplicit false

/-!
# What is protected from a request

The host may author members anywhere, also inside spaces that are derived. A wave destroys a derived
space when its bases no longer account for it, and what was authored inside goes too. A space is
secure when neither the request nor a wave after it can take it away: it is authored, or derived
from secure bases, and the space around it is secure. What the host authored in a secure space is
protected.
-/

namespace Recalc

open Recalc.Action Recalc.Model

def Request.edited? : Request → Option Entity
  | .redefine id _ | .removeCells id | .letCellsBeEmpty id _ | .dropOverride id => some (.cells id)
  | .rebind id _ | .unbind id => some (.ref id)
  | _ => none

/-- Authored cells as the host left them, whatever was put into them or computed. -/
structure Cells.Lasts (c c' : Cells) : Prop where
  name : c'.name = c.name
  space : c'.space = c.space
  authored : c'.derived = false
  formula : c'.formula = c.formula
  allowNone : c'.allowNone = c.allowNone

/-- A static space in its place. A derived one may have become authored. -/
structure Space.Lasts (s s' : Space) : Prop where
  name : s'.name = s.name
  parent : s'.parent = s.parent
  isStatic : s'.isStatic = true
  authored : s.isDerived = false → s'.isDerived = false

theorem Cells.Lasts.trans {c₁ c₂ c₃ : Cells} (h : c₁.Lasts c₂) (h' : c₂.Lasts c₃) :
    c₁.Lasts c₃ :=
  ⟨h'.name.trans h.name, h'.space.trans h.space, h'.authored, h'.formula.trans h.formula,
    h'.allowNone.trans h.allowNone⟩

theorem Space.Lasts.trans {s₁ s₂ s₃ : Space} (h : s₁.Lasts s₂) (h' : s₂.Lasts s₃) :
    s₁.Lasts s₃ :=
  ⟨h'.name.trans h.name, h'.parent.trans h.parent, h'.isStatic,
    fun hs => h'.authored (h.authored hs)⟩

theorem Cells.Persists.lasts {c c' : Cells} (h : c.Persists c') (hc : c.derived = false) :
    c.Lasts c' :=
  ⟨h.name, h.space, h.derived.trans hc, (h.authored hc).1, (h.authored hc).2⟩

theorem Cells.lasts_of_bare {c c' : Cells} (h : c'.bare = c.bare) (hc : c.derived = false) :
    c.Lasts c' := by
  have hname : c'.bare.name = c.bare.name := by rw [h]
  have hspace : c'.bare.space = c.bare.space := by rw [h]
  have hderived : c'.bare.derived = c.bare.derived := by rw [h]
  have hformula : c'.bare.formula = c.bare.formula := by rw [h]
  have hallow : c'.bare.allowNone = c.bare.allowNone := by rw [h]
  exact ⟨hname, hspace, hderived.trans hc, hformula, hallow⟩

theorem Space.Persists.lasts {s s' : Space} (h : s.Persists s') (hs : s.isStatic = true) :
    s.Lasts s' :=
  ⟨h.name, h.parent, h.isStatic.trans hs, h.isDerived.trans⟩

namespace Space

theorem lasts_setDerived (s : Space) (hs : s.isStatic = true) : s.Lasts (s.setDerived false) := by
  cases hk : s.kind <;> simp [isStatic, hk] at hs
  refine ⟨?_, ?_, ?_, fun _ => ?_⟩ <;> simp [setDerived, isStatic, isDerived, hk]

theorem bases_setDerived (s : Space) (flag : Bool) : (s.setDerived flag).bases = s.bases := by
  cases hk : s.kind <;> simp [setDerived, bases, hk]

theorem implicitBases_setDerived (s : Space) (flag : Bool) :
    (s.setDerived flag).implicitBases = s.implicitBases := by
  cases hk : s.kind <;> simp [setDerived, implicitBases, hk]

end Space

namespace Model

/-! ## Secure spaces -/

/-- The link of a space to a base outlives the request: the request does not take it out, and an
implicit one follows from such a link of the parent. -/
inductive Tied (m : Model) (q : Request) : SpaceId → SpaceId → Prop
  | explicit {id b : SpaceId} {s : Space} : m.spaces.get? id = some s → b ∈ s.bases →
      q ≠ .unlinkBase id b → Tied m q id b
  | implicit {id b p a : SpaceId} {s t : Space} : m.spaces.get? id = some s →
      b ∈ s.implicitBases → s.parent = some p → Tied m q p a → m.spaces.get? a = some t →
      t.spaces.get? s.name = some b → Tied m q id b

/-- The implicit base of the space is a child of a base that the parent is tied to. -/
def Handed (m : Model) (q : Request) (id b : SpaceId) : Prop :=
  ∃ s p a t, m.spaces.get? id = some s ∧ b ∈ s.implicitBases ∧ s.parent = some p ∧
    m.Tied q p a ∧ m.spaces.get? a = some t ∧ t.spaces.get? s.name = some b

/-- The static space outlives the request. An authored one does unless the request deletes it; a
derived one needs a child of its name, secure itself, in a base that its parent is tied to. -/
inductive Secure (m : Model) (q : Request) : SpaceId → Prop
  | authored {id : SpaceId} {s : Space} : m.spaces.get? id = some s → s.isStatic = true →
      s.isDerived = false → (∀ p, s.parent = some p → Secure m q p) → q ≠ .removeSpace id →
      Secure m q id
  | derived {id p b c : SpaceId} {s t : Space} : m.spaces.get? id = some s → s.isDerived = true →
      s.parent = some p → Secure m q p → Tied m q p b → m.spaces.get? b = some t →
      t.spaces.get? s.name = some c → Secure m q c → Secure m q id

/-- A secure space, or what the host authored in one, unless the request names it. -/
inductive Protected (m : Model) (q : Request) : Entity → Prop
  | space {id : SpaceId} : m.Secure q id → Protected m q (.space id)
  | cells {c : CellId} {d : Cells} : m.cells.get? c = some d → d.derived = false →
      m.Secure q d.space → q.edited? ≠ some (.cells c) → Protected m q (.cells c)
  | ref {r : RefId} {x : Reference} {o : SpaceId} : m.refs.get? r = some x → x.derived = false →
      x.owner = some o → m.Secure q o → q.edited? ≠ some (.ref r) → Protected m q (.ref r)

section Security

variable {m : Model} {q : Request} {id : SpaceId} {s : Space}

theorem Secure.static (h : m.Secure q id) : m.Static id := by
  cases h with
  | authored hs hstatic => exact ⟨_, hs, hstatic⟩
  | derived hs hderived => exact ⟨_, hs, Space.isStatic_of_isDerived hderived⟩

theorem Secure.parent (h : m.Secure q id) (hs : m.spaces.get? id = some s) {p : SpaceId}
    (hp : s.parent = some p) : m.Secure q p := by
  cases h with
  | authored ht _ _ hparent =>
    cases hs.symm.trans ht
    exact hparent p hp
  | derived ht _ hparent hsecure =>
    cases hs.symm.trans ht
    cases hp.symm.trans hparent
    exact hsecure

/-- A request that deletes a space deletes an authored one. -/
theorem Secure.not_removed (h : m.Secure q id) (hs : m.spaces.get? id = some s)
    (hauthored : s.isDerived = false) : q ≠ .removeSpace id := by
  cases h with
  | authored ht _ _ _ hq => exact hq
  | derived ht hderived =>
    cases hs.symm.trans ht
    rw [hauthored] at hderived
    contradiction

/-- Where everything around a space is authored, and the request deletes none of it, the space is
secure. -/
theorem Owned.secure (hm : m.Owned) (hs : m.spaces.get? id = some s) (hstatic : s.isStatic = true)
    (h : ∀ a ∈ m.ancestry id, q ≠ .removeSpace a ∧
      ∀ t, m.spaces.get? a = some t → t.isDerived = false) : m.Secure q id := by
  have key : ∀ id, m.Grounded id → ∀ s, m.spaces.get? id = some s → s.isStatic = true →
      (∀ a ∈ m.ancestry id, q ≠ .removeSpace a ∧
        ∀ t, m.spaces.get? a = some t → t.isDerived = false) → m.Secure q id := by
    intro id hid
    induction hid with
    | intro id u hu _ ih =>
      intro s hs hstatic h
      cases hu.symm.trans hs
      obtain ⟨hq, hauthored⟩ := h id (hm.mem_ancestry_self hs hstatic)
      refine .authored hs hstatic (hauthored _ hs) (fun p hp => ?_) hq
      obtain ⟨t, ht, htstatic, -⟩ := hm.static_holder hs hstatic hp
      exact ih p (by rw [home_space?_of_static hstatic, hp]) t ht htstatic fun a ha =>
        h a ((hm.mem_ancestry hs hstatic).2 (.inr ⟨p, hp, ha⟩))
  exact key id (hm.grounded id s hs) s hs hstatic h

end Security

/-! ## What is protected is there -/

structure Safeguards (q : Request) (m₀ m : Model) : Prop where
  space : ∀ id s, m₀.Secure q id → m₀.spaces.get? id = some s →
    ∃ s', m.spaces.get? id = some s' ∧ s.Lasts s'
  explicit : ∀ id b s s', m₀.Secure q id → m₀.Secure q b → m₀.spaces.get? id = some s →
    b ∈ s.bases → q ≠ .unlinkBase id b → m.spaces.get? id = some s' → b ∈ s'.bases
  implicit : ∀ id b s', m₀.Secure q id → m₀.Secure q b → m₀.Handed q id b →
    m.spaces.get? id = some s' → b ∈ s'.implicitBases
  cells : ∀ c d, m₀.Protected q (.cells c) → m₀.cells.get? c = some d →
    ∃ d', m.cells.get? c = some d' ∧ d.Lasts d'
  ref : ∀ r x, m₀.Protected q (.ref r) → m₀.refs.get? r = some x → m.refs.get? r = some x

/-- The heritage has every secure child of a base that the space is tied to. -/
def Provides (q : Request) (m₀ : Model) (id : SpaceId) (h : Heritage) : Prop :=
  m₀.Secure q id → ∀ a t name b, m₀.Tied q id a → m₀.spaces.get? a = some t →
    t.spaces.get? name = some b → m₀.Secure q b → b ∈ (h.spaces.get? name).getD []

section Guarding

variable {q : Request} {m₀ m m' : Model} {id : SpaceId} {h : Heritage}

theorem Protected.cells_authored {c : CellId} {d : Cells} (hprot : m₀.Protected q (.cells c))
    (hd : m₀.cells.get? c = some d) : d.derived = false ∧ m₀.Secure q d.space := by
  cases hprot with
  | cells hx hderived hsecure =>
    cases hd.symm.trans hx
    exact ⟨hderived, hsecure⟩

theorem Protected.ref_authored {r : RefId} {x : Reference} (hprot : m₀.Protected q (.ref r))
    (hx : m₀.refs.get? r = some x) : x.derived = false ∧ ∃ o, x.owner = some o ∧ m₀.Secure q o := by
  cases hprot with
  | ref hy hderived howner hsecure =>
    cases hx.symm.trans hy
    exact ⟨hderived, _, howner, hsecure⟩

theorem not_protected_cells {c : CellId} {d : Cells} (hd : m₀.cells.get? c = some d)
    (hderived : d.derived = true) : ¬ m₀.Protected q (.cells c) := by
  intro hprot
  rw [(hprot.cells_authored hd).1] at hderived
  contradiction

theorem not_protected_ref {r : RefId} {x : Reference} (hx : m₀.refs.get? r = some x)
    (hderived : x.derived = true) : ¬ m₀.Protected q (.ref r) := by
  intro hprot
  rw [(hprot.ref_authored hx).1] at hderived
  contradiction

/-- Model-level references belong to no space. -/
theorem not_protected_global {r : RefId} {x : Reference} (hx : m₀.refs.get? r = some x)
    (howner : x.owner = none) : ¬ m₀.Protected q (.ref r) := by
  intro hprot
  obtain ⟨-, o, ho, -⟩ := hprot.ref_authored hx
  cases howner.symm.trans ho

/-- The member that a request names is not protected from it. -/
theorem not_protected_edited {e : Entity} (hq : q.edited? = some e) : ¬ m₀.Protected q e := by
  intro hprot
  cases hprot with
  | space =>
    unfold Request.edited? at hq
    split at hq <;> cases hq
  | cells _ _ _ hne => exact hne hq
  | ref _ _ _ _ hne => exact hne hq

theorem Safeguards.refl (q : Request) (m : Model) : Safeguards q m m where
  space _ s hsecure hs := by
    obtain ⟨t, ht, hstatic⟩ := hsecure.static
    cases hs.symm.trans ht
    exact ⟨s, hs, (Space.Persists.refl s).lasts hstatic⟩
  explicit _ _ _ _ _ _ hs hb _ hs' := by
    cases hs.symm.trans hs'
    exact hb
  implicit _ _ _ _ _ hhanded hs' := by
    obtain ⟨s, -, -, -, hs, hb, -⟩ := hhanded
    cases hs.symm.trans hs'
    exact hb
  cells _ d hprot hd := ⟨d, hd, (Cells.Persists.refl d).lasts (hprot.cells_authored hd).1⟩
  ref _ _ _ hx := hx

theorem Safeguards.static (hguards : Safeguards q m₀ m) (hsecure : m₀.Secure q id) :
    m.Static id := by
  obtain ⟨s, hs, -⟩ := hsecure.static
  obtain ⟨s', hs', hlasts⟩ := hguards.space id s hsecure hs
  exact ⟨s', hs', hlasts.isStatic⟩

/-- A base that the space is tied to is a base of it. -/
theorem Safeguards.base (hguards : Safeguards q m₀ m) {b : SpaceId} {s' : Space}
    (hid : m₀.Secure q id) (hb : m₀.Secure q b) (htied : m₀.Tied q id b)
    (hs' : m.spaces.get? id = some s') : b ∈ s'.bases ++ s'.implicitBases := by
  cases htied with
  | explicit hs hmem hq =>
    exact List.mem_append_left _ (hguards.explicit id b _ s' hid hb hs hmem hq hs')
  | implicit hs hmem hp htied ht hchild =>
    exact List.mem_append_right _
      (hguards.implicit id b s' hid hb ⟨_, _, _, _, hs, hmem, hp, htied, ht, hchild⟩ hs')

/-- What is protected is where it was. -/
theorem Safeguards.home (hguards : Safeguards q m₀ m) {e : Entity} (hprot : m₀.Protected q e) :
    m.home? e = m₀.home? e := by
  cases hprot with
  | space hsecure =>
    obtain ⟨s, hs, hstatic⟩ := hsecure.static
    obtain ⟨s', hs', hlasts⟩ := hguards.space _ s hsecure hs
    rw [home?_space hs, home?_space hs', Space.home_of_static hstatic,
      Space.home_of_static hlasts.isStatic, hlasts.parent, hlasts.name]
  | cells hd hderived hsecure hq =>
    obtain ⟨d', hd', hlasts⟩ := hguards.cells _ _ (.cells hd hderived hsecure hq) hd
    rw [home?_cells hd, home?_cells hd', Cells.home, Cells.home, hlasts.space, hlasts.name]
  | ref hx hderived howner hsecure hq =>
    rw [home?_ref hx, home?_ref (hguards.ref _ _ (.ref hx hderived howner hsecure hq) hx)]

/-- The space in which something protected is at home is secure. -/
theorem Protected.holder {e : Entity} {a : Address} {p : SpaceId} (hprot : m₀.Protected q e)
    (ha : m₀.home? e = some a) (hp : a.space? = some p) : m₀.Secure q p := by
  cases hprot with
  | space hsecure =>
    obtain ⟨s, hs, hstatic⟩ := hsecure.static
    rw [home?_space hs, Option.some.injEq, Space.home_of_static hstatic] at ha
    cases hparent : s.parent with
    | none =>
      rw [hparent] at ha
      subst ha
      cases hp
    | some o =>
      rw [hparent] at ha
      subst ha
      cases hp
      exact hsecure.parent hs hparent
  | cells hd _ hsecure =>
    rw [home?_cells hd] at ha
    cases ha
    cases hp
    exact hsecure
  | ref hx _ howner hsecure =>
    rw [home?_ref hx, Reference.home, howner] at ha
    cases ha
    cases hp
    exact hsecure

/-- Something protected lies in secure spaces only. -/
theorem Safeguards.protected_of_within (hguards : Safeguards q m₀ m) {top e : Entity}
    (hw : m.Within top e) (hprot : m₀.Protected q e) : m₀.Protected q top := by
  induction hw with
  | self => exact hprot
  | inside ha hp _ ih =>
    rw [hguards.home hprot] at ha
    exact ih (.space (hprot.holder ha hp))

theorem Safeguards.provides (hguards : Safeguards q m₀ m) (hm₀ : m₀.Owned) (hm : m.Owned)
    (hh : m.heritage id = .ok h) : Provides q m₀ id h := by
  intro hid a t name b htied ht hb hsecure
  obtain ⟨y, hy, hparent, rfl, -⟩ := hm₀.child_of_listed ht hb
  have ha : m₀.Secure q a := hsecure.parent hy hparent
  obtain ⟨s, hs, -⟩ := hid.static
  obtain ⟨s', hs', -⟩ := hguards.space id s hid hs
  obtain ⟨t', ht', -⟩ := hguards.space a t ha ht
  have hbase : a ∈ m.allBases id := mem_allBases.2
    ⟨s', hs', hguards.base hid ha htied hs', Pool.contains_iff.2 ⟨t', ht'⟩⟩
  -- the base lists the child that it listed
  obtain ⟨y', hy', hlasts⟩ := hguards.space b y hsecure hy
  obtain ⟨u, hu, -, hlisted⟩ := hm.static_holder hy' hlasts.isStatic (hlasts.parent.trans hparent)
  rw [hlasts.name] at hlisted
  exact mem_heritage_spaces hh hbase hu hlisted

/-- Nothing protected goes with a member that the heritage does not account for. -/
theorem Safeguards.not_goes (hguards : Safeguards q m₀ m) (hprovides : Provides q m₀ id h)
    {e : Entity} (hprot : m₀.Protected q e) : ¬ m.Goes id h e := by
  rintro ⟨top, hunsourced, hw⟩
  have htop := hguards.protected_of_within hw hprot
  cases hunsourced with
  | cells hd' _ hderived =>
    cases htop with
    | cells hd hauthored hsecure hq =>
      obtain ⟨x, hx, hlasts⟩ := hguards.cells _ _ (.cells hd hauthored hsecure hq) hd
      cases hd'.symm.trans hx
      rw [hlasts.authored] at hderived
      contradiction
  | ref hx' _ hderived =>
    cases htop with
    | ref hx hauthored howner hsecure hq =>
      cases hx'.symm.trans (hguards.ref _ _ (.ref hx hauthored howner hsecure hq) hx)
      rw [hauthored] at hderived
      contradiction
  | @space c t' ht' hderived hparent hname =>
    cases htop with
    | space hsecure =>
      obtain ⟨t, ht, -⟩ := hsecure.static
      obtain ⟨x, hx, hlasts⟩ := hguards.space c t hsecure ht
      cases ht'.symm.trans hx
      cases hsecure with
      | authored hu _ hauthored =>
        cases ht.symm.trans hu
        rw [hlasts.authored hauthored] at hderived
        contradiction
      | derived hu _ hp hpsecure htied hb hchild hcsecure =>
        cases ht.symm.trans hu
        rw [hlasts.parent, hp] at hparent
        cases hparent
        have hmem := hprovides hpsecure _ _ _ _ htied hb hchild hcsecure
        rw [hlasts.name, NameMap.contains, Option.isSome_eq_false_iff,
          Option.isNone_iff_eq_none] at hname
        rw [hname] at hmem
        contradiction

theorem Safeguards.alters (hguards : Safeguards q m₀ m) (hprovides : Provides q m₀ id h)
    (halters : Alters id h m m') : Safeguards q m₀ m' := by
  have hspace : ∀ x s, m₀.Secure q x → m₀.spaces.get? x = some s → ∃ s₁ s',
      m.spaces.get? x = some s₁ ∧ m'.spaces.get? x = some s' ∧ s.Lasts s₁ ∧ s₁.Alters id h s' := by
    intro x s hsecure hs
    obtain ⟨s₁, hs₁, hlasts⟩ := hguards.space x s hsecure hs
    rcases halters.space x s₁ hs₁ with ⟨s', hs', hstep⟩ | ⟨-, hgoes⟩
    · exact ⟨s₁, s', hs₁, hs', hlasts, hstep⟩
    · exact absurd hgoes (hguards.not_goes hprovides (.space hsecure))
  refine ⟨fun x s hsecure hs => ?_, fun x b s s' hsecure hbsecure hs hb hq hs' => ?_,
    fun x b s' hsecure hbsecure hhanded hs' => ?_, fun c d hprot hd => ?_,
    fun r x hprot hx => ?_⟩
  · obtain ⟨s₁, s', -, hs', hlasts, hstep⟩ := hspace x s hsecure hs
    exact ⟨s', hs', hlasts.trans (hstep.toPersists.lasts hlasts.isStatic)⟩
  · obtain ⟨s₁, t, hs₁, ht, -, hstep⟩ := hspace x s hsecure hs
    cases hs'.symm.trans ht
    rw [hstep.bases]
    exact hguards.explicit x b s s₁ hsecure hbsecure hs hb hq hs₁
  · have hmem := fun u => hguards.implicit x b u hsecure hbsecure hhanded
    obtain ⟨s, p, a, t, hs, -, hp, htied, ht, hchild⟩ := hhanded
    obtain ⟨s₁, u, hs₁, hu, hlasts, hstep⟩ := hspace x s hsecure hs
    cases hs'.symm.trans hu
    rcases hstep.implicitBases with heq | ⟨hparent, heq⟩
    · rw [heq]
      exact hmem s₁ hs₁
    · rw [hlasts.parent, hp] at hparent
      cases hparent
      rw [heq, hlasts.name]
      exact hprovides (hsecure.parent hs hp) a t _ b htied ht hchild hbsecure
  · obtain ⟨d₁, hd₁, hlasts⟩ := hguards.cells c d hprot hd
    rcases halters.cells c d₁ hd₁ with ⟨d', hd', hstep⟩ | ⟨-, hgoes⟩
    · exact ⟨d', hd', hlasts.trans (hstep.lasts hlasts.authored)⟩
    · exact absurd hgoes (hguards.not_goes hprovides hprot)
  · rcases halters.ref r x (hguards.ref r x hprot hx) with ⟨x', hx', hstep⟩ | ⟨-, hgoes⟩
    · rw [hx', hstep.authored (hprot.ref_authored hx).1]
    · exact absurd hgoes (hguards.not_goes hprovides hprot)

theorem Safeguards.drops (hguards : Safeguards q m₀ m) (hm : m.Owned) (hm' : m'.Owned)
    (hdrops : Drops m m') : Safeguards q m₀ m' := by
  have hspace : ∀ x s, m₀.Secure q x → m₀.spaces.get? x = some s → ∃ s₁ s',
      m.spaces.get? x = some s₁ ∧ m'.spaces.get? x = some s' ∧ s.Lasts s₁ ∧
        s' = { s₁ with instances := s'.instances } := by
    intro x s hsecure hs
    obtain ⟨s₁, hs₁, hlasts⟩ := hguards.space x s hsecure hs
    obtain ⟨s', hs', heq⟩ := hdrops.static' hs₁ hlasts.isStatic
    exact ⟨s₁, s', hs₁, hs', hlasts, heq⟩
  refine ⟨fun x s hsecure hs => ?_, fun x b s s' hsecure hbsecure hs hb hq hs' => ?_,
    fun x b s' hsecure hbsecure hhanded hs' => ?_, fun c d hprot hd => ?_, fun r x hprot hx => ?_⟩
  · obtain ⟨s₁, s', -, hs', hlasts, heq⟩ := hspace x s hsecure hs
    refine ⟨s', hs', ?_⟩
    rw [heq]
    exact ⟨hlasts.name, hlasts.parent, hlasts.isStatic, hlasts.authored⟩
  · obtain ⟨s₁, t, hs₁, ht, -, heq⟩ := hspace x s hsecure hs
    cases hs'.symm.trans ht
    rw [heq]
    exact hguards.explicit x b s s₁ hsecure hbsecure hs hb hq hs₁
  · obtain ⟨s, hs, -⟩ := hsecure.static
    obtain ⟨s₁, t, hs₁, ht, -, heq⟩ := hspace x s hsecure hs
    cases hs'.symm.trans ht
    rw [heq]
    exact hguards.implicit x b s₁ hsecure hbsecure hhanded hs₁
  · obtain ⟨d₁, hd₁, hlasts⟩ := hguards.cells c d hprot hd
    obtain ⟨-, hsecure⟩ := hprot.cells_authored hd
    obtain ⟨s, hs, -⟩ := hsecure.static
    obtain ⟨-, s', -, hs', -⟩ := hspace _ s hsecure hs
    rw [← hlasts.space] at hs'
    obtain ⟨d', hd', hbare⟩ := hdrops.keepsCells hm hm' hd₁ (Pool.contains_iff.2 ⟨s', hs'⟩)
    exact ⟨d', hd', hlasts.trans (Cells.lasts_of_bare hbare hlasts.authored)⟩
  · rw [hdrops.keepsRefs hm hm' r]
    exact hguards.ref r x hprot hx

/-- A space changes in place. A secure one keeps what makes it so. -/
theorem Safeguards.modifySpace (hguards : Safeguards q m₀ m) {x : SpaceId} {f : Space → Space}
    (hf : ∀ s : Space, s.isStatic = true → s.Lasts (f s))
    (hexplicit : ∀ s₀ s b, m₀.spaces.get? x = some s₀ → s.isStatic = true → m₀.Secure q b →
      q ≠ .unlinkBase x b → b ∈ s₀.bases → b ∈ s.bases → b ∈ (f s).bases)
    (himplicit : ∀ s b, s.isStatic = true → m₀.Secure q b → b ∈ s.implicitBases →
      b ∈ (f s).implicitBases) : Safeguards q m₀ (m.modifySpace x f) := by
  have hspace : ∀ y s₀, m₀.Secure q y → m₀.spaces.get? y = some s₀ → ∃ s s',
      m.spaces.get? y = some s ∧ (m.modifySpace x f).spaces.get? y = some s' ∧ s₀.Lasts s ∧
        (s' = s ∨ (x = y ∧ s' = f s)) := by
    intro y s₀ hsecure hs₀
    obtain ⟨s, hs, hlasts⟩ := hguards.space y s₀ hsecure hs₀
    have hget := Pool.get?_modify m.spaces x y f
    by_cases heq : x = y
    · subst heq
      rw [if_pos rfl, hs, Option.map_some] at hget
      exact ⟨s, f s, hs, hget, hlasts, .inr ⟨rfl, rfl⟩⟩
    · rw [if_neg heq, hs] at hget
      exact ⟨s, s, hs, hget, hlasts, .inl rfl⟩
  refine ⟨fun y s₀ hsecure hs₀ => ?_, fun y b s₀ t hsecure hbsecure hs₀ hb hq ht => ?_,
    fun y b t hsecure hbsecure hhanded ht => ?_, hguards.cells, hguards.ref⟩
  · obtain ⟨s, s', -, hs', hlasts, rfl | ⟨-, rfl⟩⟩ := hspace y s₀ hsecure hs₀
    · exact ⟨_, hs', hlasts⟩
    · exact ⟨_, hs', hlasts.trans (hf s hlasts.isStatic)⟩
  · obtain ⟨s, s', hs, hs', hlasts, hcase⟩ := hspace y s₀ hsecure hs₀
    cases ht.symm.trans hs'
    have hmem := hguards.explicit y b s₀ s hsecure hbsecure hs₀ hb hq hs
    obtain rfl | ⟨rfl, rfl⟩ := hcase
    · exact hmem
    · exact hexplicit s₀ s b hs₀ hlasts.isStatic hbsecure hq hb hmem
  · obtain ⟨s₀, hs₀, -⟩ := hsecure.static
    obtain ⟨s, s', hs, hs', hlasts, hcase⟩ := hspace y s₀ hsecure hs₀
    cases ht.symm.trans hs'
    have hmem := hguards.implicit y b s hsecure hbsecure hhanded hs
    obtain rfl | ⟨rfl, rfl⟩ := hcase
    · exact hmem
    · exact himplicit s b hlasts.isStatic hbsecure hmem

/-- A space changes in place, and its bases are the same. -/
theorem Safeguards.retouch (hguards : Safeguards q m₀ m) (x : SpaceId) {f : Space → Space}
    (hf : ∀ s : Space, s.isStatic = true → s.Lasts (f s)) (hbases : ∀ s, (f s).bases = s.bases)
    (himplicit : ∀ s, (f s).implicitBases = s.implicitBases) :
    Safeguards q m₀ (m.modifySpace x f) :=
  hguards.modifySpace hf (fun _ s _ _ _ _ _ _ hb => by rwa [hbases s])
    fun s _ _ _ hb => by rwa [himplicit s]

/-- Links to bases that are secure are not dropped. -/
theorem Safeguards.unlink (hguards : Safeguards q m₀ m) :
    Safeguards q m₀ m.unlinkDeadBases.2 := by
  have hlive : ∀ b, m₀.Secure q b → m.spaces.contains b = true := by
    intro b hb
    obtain ⟨s, hs, -⟩ := hb.static
    obtain ⟨s', hs', -⟩ := hguards.space b s hb hs
    exact Pool.contains_iff.2 ⟨s', hs'⟩
  unfold unlinkDeadBases
  refine foldl_keeps (P := Safeguards q m₀) (fun m' x h => h.modifySpace (fun s hs => ?_)
    (fun _ s b _ hs hb _ _ hmem => ?_) fun s b hs hb hmem => ?_) _ hguards
  · exact ((s.persists_setBases _).trans (Space.persists_setImplicitBases _ _)).lasts hs
  · rw [Space.bases_setImplicitBases, Space.bases_setBases _ _ hs]
    exact List.mem_filter.2 ⟨hmem, hlive b hb⟩
  · have hset := (s.persists_setBases (·.filter m.spaces.contains)).isStatic.trans hs
    rw [Space.implicitBases_setImplicitBases _ _ hset, Space.implicitBases_setBases]
    exact List.mem_filter.2 ⟨hmem, hlive b hb⟩

theorem Safeguards.modifyCell (hguards : Safeguards q m₀ m) {c : CellId}
    (hc : ¬ m₀.Protected q (.cells c)) (f : Cells → Cells) :
    Safeguards q m₀ (m.modifyCell c f) := by
  refine { hguards with cells := fun b d hprot hd => ?_ }
  have hget := Pool.get?_modify m.cells c b f
  have hne : c ≠ b := by
    rintro rfl
    exact hc hprot
  rw [if_neg hne] at hget
  obtain ⟨d', hd', hlasts⟩ := hguards.cells b d hprot hd
  exact ⟨d', hget.trans hd', hlasts⟩

theorem Safeguards.modifyRef (hguards : Safeguards q m₀ m) {r : RefId}
    (hr : ¬ m₀.Protected q (.ref r)) (f : Reference → Reference) :
    Safeguards q m₀ (m.modifyRef r f) := by
  refine { hguards with ref := fun b x hprot hx => ?_ }
  have hget := Pool.get?_modify m.refs r b f
  have hne : r ≠ b := by
    rintro rfl
    exact hr hprot
  rw [if_neg hne] at hget
  exact hget.trans (hguards.ref b x hprot hx)

/-- Nothing protected goes. -/
theorem Safeguards.sheds (hguards : Safeguards q m₀ m) {W : Entity → Prop} (hsheds : Sheds W m m')
    (hexposed : ∀ e, m₀.Protected q e → ¬ W e) : Safeguards q m₀ m' := by
  have hspaces : ∀ x, m₀.Secure q x → m'.spaces.get? x = m.spaces.get? x := fun x hx =>
    (hsheds.spaces x).resolve_right fun hgone => hexposed _ (.space hx) hgone.1
  refine ⟨fun x s hsecure hs => ?_, fun x b s s' hsecure hbsecure hs hb hq hs' => ?_,
    fun x b s' hsecure hbsecure hhanded hs' => ?_, fun c d hprot hd => ?_, fun r x hprot hx => ?_⟩
  · rw [hspaces x hsecure]
    exact hguards.space x s hsecure hs
  · rw [hspaces x hsecure] at hs'
    exact hguards.explicit x b s s' hsecure hbsecure hs hb hq hs'
  · rw [hspaces x hsecure] at hs'
    exact hguards.implicit x b s' hsecure hbsecure hhanded hs'
  · obtain ⟨d₁, hd₁, hlasts⟩ := hguards.cells c d hprot hd
    have hkept := (hsheds.record (.cells c)).resolve_right fun hgone => hexposed _ hprot hgone.1
    simp only [record?, hd₁, Option.map_some] at hkept
    obtain ⟨b, hb, hrecord⟩ := Option.map_eq_some_iff.1 hkept
    obtain ⟨d', hd', rfl⟩ := Option.map_eq_some_iff.1 hb
    exact ⟨d', hd', hlasts.trans (Cells.lasts_of_bare (Record.cells.inj hrecord) hlasts.authored)⟩
  · have hkept := (hsheds.ref r).resolve_right fun hgone => hexposed _ hprot hgone.2
    exact hkept.trans (hguards.ref r x hprot hx)

theorem Safeguards.forget (hguards : Safeguards q m₀ m) (hm : m.Owned) (h : ForgetsSome m m') :
    Safeguards q m₀ m' :=
  hguards.drops hm (h.alike.owned hm) h.alike.drops

theorem Safeguards.dropStaleInstances (hguards : Safeguards q m₀ m) (hm : m.Owned) (x : SpaceId) :
    Safeguards q m₀ (m.dropStaleInstances x) := by
  obtain ⟨hm', hdrops⟩ := under_dropStaleInstances m x hm
  exact hguards.drops hm hm' hdrops

/-- Something comes, and everything that was there stays as it was. -/
theorem Safeguards.widen (hguards : Safeguards q m₀ m)
    (hspaces : ∀ x s, m.spaces.get? x = some s → m'.spaces.get? x = some s)
    (hcells : ∀ c d, m.cells.get? c = some d → m'.cells.get? c = some d)
    (hrefs : ∀ r x, m.refs.get? r = some x → m'.refs.get? r = some x) : Safeguards q m₀ m' := by
  have hspace : ∀ x s', m₀.Secure q x → m'.spaces.get? x = some s' →
      m.spaces.get? x = some s' := by
    intro x s' hsecure hs'
    obtain ⟨s, hs, -⟩ := hsecure.static
    obtain ⟨s₁, hs₁, -⟩ := hguards.space x s hsecure hs
    cases hs'.symm.trans (hspaces x s₁ hs₁)
    exact hs₁
  refine ⟨fun x s hsecure hs => ?_, fun x b s s' hsecure hbsecure hs hb hq hs' => ?_,
    fun x b s' hsecure hbsecure hhanded hs' => ?_, fun c d hprot hd => ?_, fun r x hprot hx => ?_⟩
  · obtain ⟨s₁, hs₁, hlasts⟩ := hguards.space x s hsecure hs
    exact ⟨s₁, hspaces x s₁ hs₁, hlasts⟩
  · exact hguards.explicit x b s s' hsecure hbsecure hs hb hq (hspace x s' hsecure hs')
  · exact hguards.implicit x b s' hsecure hbsecure hhanded (hspace x s' hsecure hs')
  · obtain ⟨d', hd', hlasts⟩ := hguards.cells c d hprot hd
    exact ⟨d', hcells c d' hd', hlasts⟩
  · exact hrefs r x (hguards.ref r x hprot hx)

/-- Something new comes and is listed. -/
theorem Joins.safeguards {e : Entity} (hjoins : Joins e m₀ m) : Safeguards q m₀ m where
  space x s hsecure hs := by
    obtain ⟨s', hs', hpersists, -⟩ := hjoins.space x s hs
    obtain ⟨t, ht, hstatic⟩ := hsecure.static
    cases hs.symm.trans ht
    exact ⟨s', hs', hpersists.lasts hstatic⟩
  explicit x _ s s' _ _ hs hb _ hs' := by
    obtain ⟨t, ht, -, hkind⟩ := hjoins.space x s hs
    cases hs'.symm.trans ht
    rwa [Space.bases_congr hkind]
  implicit x _ s' _ _ hhanded hs' := by
    obtain ⟨s, -, -, -, hs, hb, -⟩ := hhanded
    obtain ⟨t, ht, -, hkind⟩ := hjoins.space x s hs
    cases hs'.symm.trans ht
    rwa [Space.implicitBases_congr hkind]
  cells c d hprot hd :=
    ⟨d, hjoins.cells c d hd, (Cells.Persists.refl d).lasts (hprot.cells_authored hd).1⟩
  ref r x _ hx := hjoins.ref r x hx

theorem lasting_safeguards (q : Request) (hm₀ : m₀.Owned) :
    Lasting (Safeguards q m₀) (Provides q m₀) where
  heritage _ _ _ hm hguards _ hh := hguards.provides hm₀ hm hh
  alters _ _ _ _ _ _ hguards _ hprovides halters := hguards.alters hprovides halters
  drops _ _ hm hm' hguards hdrops _ := hguards.drops hm hm' hdrops
  unlink _ _ hguards := hguards.unlink

end Guarding

end Model

end Recalc
