import Recalc.Proofs.Discarding
import Recalc.Proofs.Exhausting
import Recalc.Proofs.Thinning

set_option autoImplicit false

/-!
# Reclamation in any order

A round of a reclamation goes through the instances that are free at its beginning, and nothing says
in which order. What is left in the end does not depend on it. An instance that is left in one end
is kept there by a handle or a read; along every other way both are still there when the instance
has its turn, so it is never free. And an instance that is free has no other inside it, so each
removal takes one instance along, and the count is right.
-/

namespace Recalc.Model

open Recalc.Action

variable {m r b l : Model} {held : List Handle} {owner item : SpaceId} {key : Key}

/-! ## Runs of rounds -/

def IsItem (m : Model) (i : SpaceId) : Prop :=
  ∃ s owner c args enclosing, m.spaces.get? i = some s ∧ s.kind = .item owner c args enclosing

/-- A round goes through the instances that are free at its beginning, in some order, and answers
how many of them it destroyed. There must be one. -/
def Round (held : List Handle) (m : Model) (x : Nat × Model) : Prop :=
  ∃ dead : List (SpaceId × Key), dead ≠ [] ∧ dead.Perm (m.freeInstances held) ∧
    x = m.removeInstances dead

inductive Rounds (held : List Handle) : Model → Nat × Model → Prop
  | done (m : Model) : Rounds held m (0, m)
  | round {m : Model} {x y : Nat × Model} : Round held m x → Rounds held x.2 y →
      Rounds held m (x.1 + y.1, y.2)

structure SameContents (m m' : Model) : Prop where
  spaces : ∀ id, m'.spaces.get? id = m.spaces.get? id
  cells : ∀ id, m'.cells.get? id = m.cells.get? id
  refs : ∀ id, m'.refs.get? id = m.refs.get? id
  reads : ∀ a b, m'.graph.hasEdge a b = m.graph.hasEdge a b
  roots : m'.roots = m.roots
  globals : m'.globals = m.globals
  settings : SameSettings m m'

/-- Nothing keeps the instance `item` that `owner` has for `key`, and nothing read it. -/
structure Free (m : Model) (held : List Handle) (owner : SpaceId) (key : Key) (item : SpaceId) :
    Prop where
  listed : (m.spaces.get? owner).bind (·.instances.get? key) = some item
  unpinned : ¬ m.Pins held item
  unread : ∀ a, m.graph.hasEdge a (.item owner key) = false

inductive Strips (held : List Handle) : Model → Nat × Model → Prop
  | done (m : Model) : Strips held m (0, m)
  | step {m : Model} {owner item : SpaceId} {key : Key} {x : Nat × Model} :
      m.Free held owner key item → Strips held (m.removeInstance owner key).2 x →
      Strips held m (x.1 + 1, x.2)

/-! ## Models on the way -/

/-- What a reclamation relies on. An instance that lies in another one keeps that one. -/
structure Tame (m : Model) : Prop where
  owned : m.Owned
  calm : m.Calm
  room : m.Addressable
  nested : ∀ x i s owner c args enclosing, m.IsItem x → m.spaces.get? i = some s →
    s.kind = .item owner c args enclosing → m.Inside x (.space i) → x = i ∨ x ∈ enclosing

structure Prunes (m m' : Model) : Prop where
  drops : Drops m m'
  culls : Culls m m'
  thinned : Thinned m m'
  inputs : KeepsInputs m m'
  settings : SameSettings m m'
  fewer : ∀ a b, m'.graph.hasEdge a b = true → m.graph.hasEdge a b = true
  reads : ∀ a b, m'.isComputed a = true → m.graph.hasEdge a b = true →
    m'.graph.hasEdge a b = true

theorem Culls.isComputed (h : Culls m l) {n : Node} (hn : l.isComputed n = true) :
    m.isComputed n = true := by
  obtain ⟨id, c', he, hc', hk⟩ := isComputed_iff.1 hn
  obtain ⟨c, hc, -, -, hvalues⟩ := h.cells id c' hc'
  rw [Contents.hasComputed, Table.contains_eq_isSome, Option.isSome_iff_exists] at hk
  obtain ⟨v, hv⟩ := hk
  obtain ⟨k, hentry, hkey⟩ := Table.mem_entries_of_get? hv
  refine isComputed_iff.2 ⟨id, c, he, hc, ?_⟩
  rw [Contents.hasComputed, ← Table.contains_congr _ hkey]
  exact Table.contains_of_get? (Table.get?_of_mem_entries (hvalues hentry))

instance : Frame Prunes where
  refl m := ⟨Frame.refl m, Frame.refl m, Frame.refl m, Frame.refl m, Frame.refl m,
    fun _ _ h => h, fun _ _ _ h => h⟩
  trans h h' := ⟨Frame.trans h.drops h'.drops, Frame.trans h.culls h'.culls,
    Frame.trans h.thinned h'.thinned, Frame.trans h.inputs h'.inputs,
    Frame.trans h.settings h'.settings, fun a b hab => h.fewer a b (h'.fewer a b hab),
    fun a b ha hab => h'.reads a b ha (h.reads a b (h'.culls.isComputed ha) hab)⟩

theorem Drops.isItem (h : Drops m l) {i : SpaceId} (hi : l.IsItem i) : m.IsItem i := by
  obtain ⟨s', owner, c, args, enclosing, hs', hk⟩ := hi
  obtain ⟨s, hs, heq, -⟩ := h.space i s' hs'
  refine ⟨s, owner, c, args, enclosing, hs, ?_⟩
  rw [heq] at hk
  exact hk

theorem Tame.removeInstance (hm : m.Tame) (owner : SpaceId) (key : Key) :
    (m.removeInstance owner key).2.Tame ∧ Prunes m (m.removeInstance owner key).2 := by
  obtain ⟨howned, hdrops⟩ := under_removeInstance m owner key hm.owned
  obtain ⟨hcalm, hupholds⟩ := editFrame_upholds.removeInstance m owner key hm.calm
  refine ⟨⟨howned, hcalm, hdrops.addressable.2 hm.room, ?_⟩, hdrops,
    culls_removeInstance m owner key, removalFrame_thinned.removeInstance m owner key,
    (trimsCells_removeInstance m owner key).keepsInputs, sameSettings_removeInstance m owner key,
    hupholds.edges, fun a b ha hab => ?_⟩
  · intro x i s' p c args enclosing hx hs' hk hinside
    obtain ⟨s, hs, heq, -⟩ := hdrops.space i s' hs'
    rw [heq] at hk
    exact hm.nested x i s p c args enclosing (hdrops.isItem hx) hs hk (hdrops.inside hinside)
  · cases hitem : (m.spaces.get? owner).bind (·.instances.get? key) with
    | none =>
      unfold Model.removeInstance
      rwa [hitem]
    | some item =>
      exact ((hm.owned.discards hitem hm.calm).edges a b).2
        ⟨hab, hm.owned.not_rests_of_computed hitem hm.calm ha⟩

/-! ## One end is below every model on the way -/

structure Below (r b : Model) : Prop where
  spaces : ∀ id, r.spaces.contains id = true → b.spaces.contains id = true
  values : ∀ n, r.isComputed n = true → b.isComputed n = true

section Comparison

variable (hr : r.Tame) (hb : b.Tame) (hmr : Prunes m r) (hmb : Prunes m b) (hle : Below r b)
include hr hmr hmb hle

theorem Below.edges {x y : Node} (h : r.graph.hasEdge x y = true) : b.graph.hasEdge x y = true :=
  hmb.reads x y (hle.values x (hr.calm.computed h)) (hmr.fewer x y h)

include hb

theorem Below.space {id : SpaceId} {s : Space} (hs : r.spaces.get? id = some s) :
    ∃ s', b.spaces.get? id = some s' ∧ s' = { s with instances := s'.instances } ∧
      s.instances.entries ⊆ s'.instances.entries := by
  obtain ⟨s', hs'⟩ := Pool.contains_iff.1 (hle.spaces id (Pool.contains_iff.2 ⟨s, hs⟩))
  obtain ⟨t, ht, heq, -⟩ := hmr.drops.space id s hs
  have hlike := hmb.drops.like ht hs'
  refine ⟨s', hs', hlike.trans (by rw [heq]), ?_⟩
  obtain ⟨_, hd, -, -, hsub⟩ := hmr.culls.spaces id s hs
  cases ht.symm.trans hd
  obtain ⟨_, hd, -, -, hsub'⟩ := hmb.culls.spaces id s' hs'
  cases ht.symm.trans hd
  refine Table.entries_subset hsub hsub' fun k hk => ?_
  -- an instance that is left is listed under the arguments in its record
  rw [Table.contains_eq_isSome, Option.isSome_iff_exists] at hk
  obtain ⟨i, hi⟩ := hk
  obtain ⟨u, c, args, enclosing, hu, hkind, hargs⟩ := hr.owned.item_of_listed hs hi
  obtain ⟨u', hu'⟩ := Pool.contains_iff.1 (hle.spaces i (Pool.contains_iff.2 ⟨u, hu⟩))
  obtain ⟨v, hv, heq, -⟩ := hmr.drops.space i u hu
  have hkind' : u'.kind = .item id c args enclosing := by
    rw [hmb.drops.like hv hu']
    rw [heq] at hkind
    exact hkind
  obtain ⟨q, hq, hlisted⟩ := hb.owned.item_holder hu' hkind'
  cases hs'.symm.trans hq
  rw [← Table.contains_congr _ hargs]
  exact Table.contains_of_get? hlisted

theorem Below.cells (hm : m.Owned) {id : CellId} {c : Cells} (hc : r.cells.get? id = some c) :
    ∃ c', b.cells.get? id = some c' ∧ c'.bare = c.bare ∧
      c'.contents.inputs = c.contents.inputs ∧
      c.contents.values.entries ⊆ c'.contents.values.entries := by
  obtain ⟨d, hd, hbare⟩ := hmr.drops.cells id c hc
  obtain ⟨s, hs, -⟩ := hr.owned.cells_holder hc
  have hspace : b.spaces.contains d.space = true := by
    rw [← (Cells.mk.inj hbare).2.1]
    exact hle.spaces c.space (Pool.contains_iff.2 ⟨s, hs⟩)
  obtain ⟨c', hc', hbare'⟩ := hmb.drops.keepsCells hm hb.owned hd hspace
  obtain ⟨_, he, -, hinputs, hsub⟩ := hmr.culls.cells id c hc
  cases hd.symm.trans he
  obtain ⟨_, he, -, hinputs', hsub'⟩ := hmb.culls.cells id c' hc'
  cases hd.symm.trans he
  refine ⟨c', hc', hbare'.trans hbare.symm, hinputs'.trans hinputs.symm,
    Table.entries_subset hsub hsub' fun k hk => ?_⟩
  obtain ⟨_, d', he, hd', hk'⟩ :=
    isComputed_iff.1 (hle.values (.cells id k) (isComputed_iff.2 ⟨id, c, rfl, hc, hk⟩))
  cases he
  cases hc'.symm.trans hd'
  exact hk'

/-- What keeps an instance in one model keeps it in every model above. -/
theorem Below.pins (hm : m.Owned) {i : SpaceId} (h : r.Pins held i) : b.Pins held i := by
  cases h with
  | held ha hi => exact .held ha hi
  | @cells id c a hc ha hi =>
    obtain ⟨c', hc', hbare, hinputs, hsub⟩ := hle.cells hr hb hmr hmb hm hc
    exact .cells hc' (Cells.handles_subset (formula_of_bare hbare).1 hinputs.symm hsub ha) hi
  | @ref id q a hq ha hi =>
    have hsame : b.refs.get? id = r.refs.get? id :=
      (hmb.drops.keepsRefs hm hb.owned id).trans (hmr.drops.keepsRefs hm hr.owned id).symm
    exact .ref (hsame.trans hq) ha hi
  | @space id s a hs ha hi =>
    obtain ⟨s', hs', heq, hsub⟩ := hle.space hr hb hmr hmb hs
    exact .space hs' (Space.handles_subset (by rw [heq]) (by rw [heq]) hsub ha) hi
  | graph ha hi =>
    exact .graph (hmr.thinned.handles_subset hmb.thinned hr.calm.indexed hb.calm.indexed
      (fun _ _ => hle.edges hr hmr hmb) ha) hi
  | stack hn ha hi =>
    rw [hr.calm.idle] at hn
    cases hn
  | inside hs hi =>
    obtain ⟨s', hs', heq, -⟩ := hle.space hr hb hmr hmb hs
    refine .inside hs' ?_
    rw [heq]
    exact hi

variable (hge : Below b r)
include hge

theorem Below.space_eq {id : SpaceId} {s : Space} (hs : r.spaces.get? id = some s) :
    b.spaces.get? id = some s := by
  obtain ⟨s', hs', heq, hsub⟩ := hle.space hr hb hmr hmb hs
  obtain ⟨t, ht, -, hsup⟩ := hge.space hb hr hmb hmr hs'
  cases hs.symm.trans ht
  rw [hs', heq, Table.eq_of_entries hsup hsub]

theorem Below.cells_eq (hm : m.Owned) {id : CellId} {c : Cells} (hc : r.cells.get? id = some c) :
    b.cells.get? id = some c := by
  obtain ⟨c', hc', hbare, hinputs, hsub⟩ := hle.cells hr hb hmr hmb hm hc
  obtain ⟨d, hd, -, -, hsup⟩ := hge.cells hb hr hmb hmr hm hc'
  cases hc.symm.trans hd
  obtain ⟨name, space, formula, derived, allowNone, values, inputs⟩ := c
  obtain ⟨name', space', formula', derived', allowNone', values', inputs'⟩ := c'
  cases hbare
  cases hinputs
  cases Table.eq_of_entries hsub hsup
  exact hc'

end Comparison

/-- Two models that are below each other are the same, up to the places of what is gone. -/
theorem Below.sameContents (hm : m.Owned) (hr : r.Tame) (hb : b.Tame) (hmr : Prunes m r)
    (hmb : Prunes m b) (hle : Below r b) (hge : Below b r) : SameContents r b where
  spaces _ := Option.ext fun _ =>
    ⟨hge.space_eq hb hr hmb hmr hle, hle.space_eq hr hb hmr hmb hge⟩
  cells _ := Option.ext fun _ =>
    ⟨hge.cells_eq hb hr hmb hmr hle hm, hle.cells_eq hr hb hmr hmb hge hm⟩
  refs id := (hmb.drops.keepsRefs hm hb.owned id).trans (hmr.drops.keepsRefs hm hr.owned id).symm
  reads _ _ := Bool.eq_iff_iff.2 ⟨hge.edges hb hmb hmr, hle.edges hr hmr hmb⟩
  roots := hmb.drops.roots.trans hmr.drops.roots.symm
  globals := hmb.drops.globals.trans hmr.drops.globals.symm
  settings := ⟨hmb.settings.name.trans hmr.settings.name.symm,
    hmb.settings.config.trans hmr.settings.config.symm,
    hmb.settings.stack.trans hmr.settings.stack.symm,
    hmb.settings.runs.trans hmr.settings.runs.symm⟩

/-! ## Free instances -/

theorem Owned.isItem_of_listed (hm : m.Owned)
    (h : (m.spaces.get? owner).bind (·.instances.get? key) = some item) : m.IsItem item := by
  obtain ⟨s, hs, hlisted⟩ := Option.bind_eq_some_iff.1 h
  obtain ⟨t, c, args, enclosing, ht, hk, -⟩ := hm.item_of_listed hs hlisted
  exact ⟨t, owner, c, args, enclosing, ht, hk⟩

theorem Faithful.nested {sites : SpaceId → Prop} (hm : m.Faithful sites) {x i p c : SpaceId}
    {s : Space} {args : Key} {enclosing : List SpaceId} (hx : m.IsItem x)
    (hs : m.spaces.get? i = some s) (hk : s.kind = .item p c args enclosing)
    (hinside : m.Inside x (.space i)) : x = i ∨ x ∈ enclosing := by
  obtain ⟨t, _, _, _, _, ht, hkind⟩ := hx
  have hself : x ∈ m.pinsOf x := by
    rw [pinsOf_of_enclosing ht hkind]
    exact List.mem_cons_self
  have hpins := hm.mem_pinsOf_of_inside hself hinside
  rwa [pinsOf_of_enclosing hs hk, List.mem_cons] at hpins

section Freedom

variable (hm : m.Tame)
include hm

theorem Tame.free_of_mem (h : (owner, key) ∈ m.freeInstances held) :
    ∃ item, m.Free held owner key item := by
  obtain ⟨item, hitem, hpinned, hreaders⟩ := hm.owned.of_mem_freeInstances hm.room h
  refine ⟨item, hitem, fun hpins => hpinned ((mem_pinned_iff hm.room).2 hpins), fun a => ?_⟩
  refine Bool.eq_false_iff.2 fun ha => ?_
  rw [(hasReaders_iff hm.calm.indexed).2 ⟨a, ha⟩] at hreaders
  contradiction

/-- No other instance lies in a free one. -/
theorem Tame.alone (hfree : m.Free held owner key item) {i : SpaceId} (hi : m.IsItem i)
    (hinside : m.Inside item (.space i)) : i = item := by
  obtain ⟨s, p, c, args, enclosing, hs, hk⟩ := hi
  rcases hm.nested item i s p c args enclosing (hm.owned.isItem_of_listed hfree.listed) hs hk
    hinside with heq | hmem
  · exact heq.symm
  · refine absurd (Pins.inside hs ?_) hfree.unpinned
    rwa [Space.enclosing, hk]

theorem Tame.keepsItem (hfree : m.Free held owner key item) {i : SpaceId} (hi : m.IsItem i)
    (hne : i ≠ item) : (m.removeInstance owner key).2.IsItem i := by
  have houtside : ¬ m.Inside item (.space i) := fun hinside => hne (hm.alone hfree hi hinside)
  obtain ⟨s, p, c, args, enclosing, hs, hk⟩ := hi
  have hspace := hm.owned.spaces_removeInstance hfree.listed houtside
  split at hspace
  next heq =>
    subst heq
    rw [hs, Option.map_some] at hspace
    exact ⟨_, p, c, args, enclosing, hspace, hk⟩
  next => exact ⟨s, p, c, args, enclosing, hspace.trans hs, hk⟩

end Freedom

/-! ## An end is below every model on another way -/

/-- What is stored rests on what is stored, along the reads recorded at the beginning. -/
theorem Prunes.live_of_rests (h : Prunes m r) (hm : m.Calm) (hr : r.Calm) {x y : Node}
    (hrest : m.RestsOn x y) (hx : r.isLive x = true) : r.isLive y = true := by
  induction hrest with
  | self heq => rwa [← isLive_congr r heq]
  | read hedge _ ih =>
    have hx := h.inputs.isComputed hm (hm.computed hedge) hx
    exact ih ((hr.read _ _ (h.reads _ _ hx hedge)).resolve_right id)

section Ends

variable (hm : m.Tame) (hr : r.Tame) (hb : b.Tame) (hmr : Prunes m r) (hmb : Prunes m b)
  (hle : Below r b) (hnil : r.freeInstances held = []) (hfree : b.Free held owner key item)
include hm hr hb hmr hmb hle hnil hfree

theorem Below.gone : r.spaces.contains item = false := by
  refine Bool.eq_false_iff.2 fun hthere => ?_
  obtain ⟨t, ht⟩ := Pool.contains_iff.1 hthere
  obtain ⟨p, hp, hitem⟩ := Option.bind_eq_some_iff.1 hfree.listed
  obtain ⟨u, c, args, enclosing, hu, hk, hargs⟩ := hb.owned.item_of_listed hp hitem
  obtain ⟨u', hu', heq, -⟩ := hle.space hr hb hmr hmb ht
  cases hu.symm.trans hu'
  have hk' : t.kind = .item owner c args enclosing := by
    rw [heq] at hk
    exact hk
  obtain ⟨q, hq, hlisted⟩ := hr.owned.item_holder ht hk'
  rcases kept_of_freeInstances_nil hr.room hr.calm.indexed hnil hq hlisted ht hk' with
    hpins | ⟨a, ha⟩
  · exact hfree.unpinned (hle.pins hr hb hmr hmb hm.owned hpins)
  · have hnode : (Node.item owner args == Node.item owner key) = true := by
      simpa [Graph.node_beq_iff, Node.item] using hargs
    have hedge := hle.edges hr hmr hmb ha
    rw [b.graph.hasEdge_congr BEq.rfl hnode, hfree.unread a] at hedge
    contradiction

theorem Below.outside {e : Entity} {a : Address} (ha : r.home? e = some a) :
    ¬ b.Inside item e := by
  intro hinside
  induction hinside generalizing a with
  | self =>
    obtain ⟨t, ht, -⟩ := space_of_home? ha
    have hgone := hle.gone hm hr hb hmr hmb hnil hfree
    rw [Pool.contains_iff.2 ⟨t, ht⟩] at hgone
    contradiction
  | member hhome hp _ ih =>
    cases (hmr.drops.home ha).symm.trans (hmb.drops.home hhome)
    obtain ⟨q, hq, -⟩ := hr.owned.holder ha hp
    exact ih (home?_space hq)

theorem Below.not_ofItem {n : Node} (hn : r.isLive n = true) : ¬ b.OfItem owner key item n := by
  rintro (hnode | hinside)
  · rw [isLive_congr r hnode] at hn
    obtain ⟨q, hq, hcontains⟩ := (Option.any_eq_true _ _).1 hn
    obtain ⟨i, hi⟩ := Option.isSome_iff_exists.1
      ((Table.contains_eq_isSome q.instances key).symm.trans hcontains)
    obtain ⟨t, -, -, -, ht, -⟩ := hr.owned.item_of_listed hq hi
    -- both ways began with the same table
    obtain ⟨p, hp, hitem⟩ := Option.bind_eq_some_iff.1 hfree.listed
    obtain ⟨s, hs, -, hsub⟩ := hmr.drops.space owner q hq
    obtain ⟨s', hs', -, hsub'⟩ := hmb.drops.space owner p hp
    cases hs.symm.trans hs'
    cases (hsub key i hi).symm.trans (hsub' key item hitem)
    have hgone := hle.gone hm hr hb hmr hmb hnil hfree
    rw [Pool.contains_iff.2 ⟨t, ht⟩] at hgone
    contradiction
  · obtain ⟨a, ha⟩ := home_of_isLive hn
    exact hle.outside hm hr hb hmr hmb hnil hfree ha hinside

theorem Below.removeInstance : Below r (b.removeInstance owner key).2 := by
  refine ⟨fun id hid => ?_, fun n hn => ?_⟩
  · obtain ⟨s, hs⟩ := Pool.contains_iff.1 hid
    obtain ⟨s', hs'⟩ := Pool.contains_iff.1 (hle.spaces id hid)
    exact hb.owned.kept_removeInstance hfree.listed hs'
      (hle.outside hm hr hb hmr hmb hnil hfree (home?_space hs))
  · obtain ⟨id, c, he, hc, hk⟩ := isComputed_iff.1 (hle.values n hn)
    obtain ⟨a, ha⟩ := home_of_isLive (isLive_of_isComputed hn)
    rw [he] at ha
    have hdiscards := hb.owned.discards hfree.listed hb.calm
    obtain ⟨c', hc', -, -, hvalues⟩ :=
      hdiscards.cells id c hc (hle.outside hm hr hb hmr hmb hnil hfree ha)
    obtain ⟨v, hv⟩ := Option.isSome_iff_exists.1
      ((Table.contains_eq_isSome c.contents.values n.key).symm.trans hk)
    refine isComputed_iff.2 ⟨id, c', he, hc', Table.contains_of_get? ((hvalues _ v).2 ⟨hv, ?_⟩)⟩
    rintro ⟨x, hrest, hx⟩
    have hnode : (n == .cells id n.key) = true := by simp [Graph.node_beq_iff, he, Node.cells]
    have hrests : m.RestsOn n x := RestsOn.congr hnode (hrest.mono hmb.fewer)
    exact hle.not_ofItem hm hr hb hmr hmb hnil hfree
      (hmr.live_of_rests hm.calm hr.calm hrests (isLive_of_isComputed hn)) hx

end Ends

/-! ## Runs -/

theorem Prunes.below (h : Prunes m l) : Below l m where
  spaces id hid := by
    obtain ⟨s', hs'⟩ := Pool.contains_iff.1 hid
    obtain ⟨s, hs, -⟩ := h.drops.space id s' hs'
    exact Pool.contains_iff.2 ⟨s, hs⟩
  values _ hn := h.culls.isComputed hn

/-- A free instance stays free as long as it is there. -/
theorem Prunes.free (h : Prunes m l) (hm : m.Tame) (hl : l.Tame) {i : SpaceId}
    (hlisted : (l.spaces.get? owner).bind (·.instances.get? key) = some i)
    (hfree : ∀ j, (m.spaces.get? owner).bind (·.instances.get? key) = some j →
      m.Free held owner key j) : l.Free held owner key i := by
  obtain ⟨s', hs', hi⟩ := Option.bind_eq_some_iff.1 hlisted
  obtain ⟨s, hs, -, hsub⟩ := h.drops.space owner s' hs'
  have hfree := hfree i (by rw [hs, Option.bind_some, hsub key i hi])
  refine ⟨hlisted, fun hpins => ?_, fun a => Bool.eq_false_iff.2 fun ha => ?_⟩
  · exact hfree.unpinned (h.below.pins hl hm h (Frame.refl m) hm.owned hpins)
  · have hedge := h.fewer a _ ha
    rw [hfree.unread a] at hedge
    contradiction

namespace Strips

variable {x y : Nat × Model}

theorem tame (h : Strips held m x) (hm : m.Tame) : x.2.Tame ∧ Prunes m x.2 := by
  induction h with
  | done => exact ⟨hm, Frame.refl _⟩
  | @step m owner item key x hfree _ ih =>
    obtain ⟨hl, hprunes⟩ := hm.removeInstance owner key
    obtain ⟨hx, hrest⟩ := ih hl
    exact ⟨hx, Frame.trans hprunes hrest⟩

theorem trans (h : Strips held m x) (h' : Strips held x.2 y) :
    Strips held m (x.1 + y.1, y.2) := by
  induction h with
  | done =>
    rw [Nat.zero_add]
    exact h'
  | @step m owner item key x hfree _ ih =>
    rw [Nat.add_right_comm]
    exact .step hfree (ih h')

/-- An end stays below every model on another way from the same beginning. -/
theorem above (h : Strips held b x) (hm : m.Tame) (hr : r.Tame) (hb : b.Tame) (hmr : Prunes m r)
    (hmb : Prunes m b) (hle : Below r b) (hnil : r.freeInstances held = []) : Below r x.2 := by
  induction h with
  | done => exact hle
  | @step b owner item key x hfree _ ih =>
    obtain ⟨hl, hprunes⟩ := hb.removeInstance owner key
    exact ih hl (Frame.trans hmb hprunes) (hle.removeInstance hm hr hb hmr hmb hnil hfree)

/-- Each removal takes one instance along, so the count is that of the instances that are gone. -/
theorem gone (h : Strips held m x) (hm : m.Tame) : ∃ gone : List SpaceId,
    gone.length = x.1 ∧ gone.Nodup ∧ ∀ i, i ∈ gone ↔ m.IsItem i ∧ ¬ x.2.IsItem i := by
  induction h with
  | done => exact ⟨[], rfl, .nil, fun i => by simp⟩
  | @step m owner item key x hfree hrest ih =>
    obtain ⟨hl, hprunes⟩ := hm.removeInstance owner key
    obtain ⟨gone, hlength, hnodup, hmem⟩ := ih hl
    have hdiscards := hm.owned.discards hfree.listed hm.calm
    have hitem := hm.owned.isItem_of_listed hfree.listed
    have hleft : ¬ (m.removeInstance owner key).2.IsItem item := by
      rintro ⟨s, -, -, -, -, hs, -⟩
      have hnone := hdiscards.gone _ .self
      simp [record?, hs] at hnone
    refine ⟨item :: gone, ?_, ?_, fun i => ?_⟩
    · rw [List.length_cons, hlength]
    · exact List.nodup_cons.2 ⟨fun hin => hleft ((hmem item).1 hin).1, hnodup⟩
    · rw [List.mem_cons, hmem]
      constructor
      · rintro (rfl | ⟨hi, hgone⟩)
        · exact ⟨hitem, fun hi => hleft ((hrest.tame hl).2.drops.isItem hi)⟩
        · exact ⟨hprunes.drops.isItem hi, hgone⟩
      · rintro ⟨hi, hgone⟩
        by_cases heq : i = item
        · exact .inl heq
        · exact .inr ⟨hm.keepsItem hfree hi heq, hgone⟩

end Strips

/-- Going through instances of which each is free as long as it is there removes free ones. -/
theorem Tame.strips_foldl (dead : List (SpaceId × Key)) (x : Nat × Model) (hx : x.2.Tame)
    (hfree : ∀ i ∈ dead, ∀ item, (x.2.spaces.get? i.1).bind (·.instances.get? i.2) = some item →
      x.2.Free held i.1 i.2 item) :
    ∃ k, Strips held x.2 (k, (dead.foldl (fun r i => (if (r.2.removeInstance i.1 i.2).1
      then r.1 + 1 else r.1, (r.2.removeInstance i.1 i.2).2)) x).2) ∧
      (dead.foldl (fun r i => (if (r.2.removeInstance i.1 i.2).1 then r.1 + 1 else r.1,
        (r.2.removeInstance i.1 i.2).2)) x).1 = x.1 + k := by
  induction dead generalizing x with
  | nil => exact ⟨0, .done x.2, rfl⟩
  | cons i dead ih =>
    rw [List.foldl_cons]
    cases hitem : (x.2.spaces.get? i.1).bind (·.instances.get? i.2) with
    | none =>
      have hstay : x.2.removeInstance i.1 i.2 = (false, x.2) := by
        unfold Model.removeInstance
        rw [hitem]
      rw [hstay]
      exact ih x hx fun j hj => hfree j (List.mem_cons_of_mem _ hj)
    | some item =>
      have hfound : (x.2.removeInstance i.1 i.2).1 = true := by
        unfold Model.removeInstance
        rw [hitem]
      obtain ⟨hl, hprunes⟩ := hx.removeInstance i.1 i.2
      rw [hfound, if_pos rfl]
      obtain ⟨k, hstrips, hcount⟩ := ih (x.1 + 1, (x.2.removeInstance i.1 i.2).2) hl
        fun j hj item' hitem' =>
          hprunes.free hx hl hitem' (hfree j (List.mem_cons_of_mem _ hj))
      refine ⟨k + 1, .step (hfree i List.mem_cons_self item hitem) hstrips, ?_⟩
      rw [hcount]
      omega

theorem Round.strips {x : Nat × Model} (h : Round held m x) (hm : m.Tame) : Strips held m x := by
  obtain ⟨dead, -, hperm, rfl⟩ := h
  obtain ⟨k, hstrips, hcount⟩ := hm.strips_foldl dead (0, m) fun i hi item hitem => by
    obtain ⟨j, hfree⟩ := hm.free_of_mem (hperm.mem_iff.1 hi)
    cases hfree.listed.symm.trans hitem
    exact hfree
  rw [Nat.zero_add] at hcount
  rw [← hcount] at hstrips
  exact hstrips

theorem Rounds.strips {x : Nat × Model} (h : Rounds held m x) (hm : m.Tame) :
    Strips held m x := by
  induction h with
  | done m => exact .done m
  | round hround _ ih =>
    have hstrips := hround.strips hm
    exact hstrips.trans (ih (hstrips.tame hm).1)

/-- Going through the free instances as they are listed is one way to reclaim. -/
theorem rounds_reclaimRounds (held : List Handle) (fuel count : Nat) (m : Model) :
    ∃ x, Rounds held m x ∧ reclaimRounds held fuel count m = (count + x.1, x.2) := by
  induction fuel generalizing count m with
  | zero => exact ⟨(0, m), .done m, rfl⟩
  | succ fuel ih =>
    unfold reclaimRounds
    split
    next => exact ⟨(0, m), .done m, rfl⟩
    next dead hne =>
      obtain ⟨x, hx, hrest⟩ := ih (count + (m.removeInstances (m.freeInstances held)).1)
        (m.removeInstances (m.freeInstances held)).2
      have hround : Round held m (m.removeInstances (m.freeInstances held)) :=
        ⟨_, hne, .refl _, rfl⟩
      refine ⟨_, .round hround hx, hrest.trans ?_⟩
      rw [Nat.add_assoc]

/-- However rounds go, they come to an end. -/
theorem Tame.rounds_end (hm : m.Tame) :
    Acc (fun after before => ∃ count, Round held before (count, after)) m := by
  generalize hbound : m.spaces.population = bound
  induction bound using Nat.strong_induction_on generalizing m with
  | _ bound ih =>
    subst hbound
    refine .intro m fun after hround => ?_
    obtain ⟨count, hround⟩ := hround
    have hafter := ((hround.strips hm).tame hm).1
    obtain ⟨dead, hne, hperm, heq⟩ := hround
    obtain ⟨i, rest, rfl⟩ := List.exists_cons_of_ne_nil hne
    have hless : (m.removeInstances (i :: rest)).2.spaces.population < m.spaces.population :=
      hm.owned.population_round hm.room (hperm.mem_iff.1 List.mem_cons_self)
    rw [← heq] at hless
    exact ih _ hless hafter rfl

/-- A reclamation comes to the one end there is. -/
structure ReclamationSound (held : List Handle) (m : Model) : Prop where
  /-- However the rounds go through what is free, they come to an end. -/
  ends : Acc (fun after before => ∃ count, Round held before (count, after)) m
  /-- A reclamation is one such run, and it goes on until nothing is free. -/
  run : Rounds held m (m.reclaim held)
  exhausted : (m.reclaim held).2.freeInstances held = []
  /-- Each instance that is left is kept by a handle or by an instance inside it, or was read for a
  value that is still stored. -/
  kept : ∀ owner s key item, (m.reclaim held).2.spaces.get? owner = some s →
    s.instances.get? key = some item → (m.reclaim held).2.Pins held item ∨
      ∃ n, (m.reclaim held).2.isComputed n = true ∧
        (m.reclaim held).2.graph.hasEdge n (.item owner key) = true
  /-- The answer is the number of instances that are gone. -/
  counted : ∃ gone : List SpaceId, gone.length = (m.reclaim held).1 ∧ gone.Nodup ∧
    ∀ i, i ∈ gone ↔ m.IsItem i ∧ ¬ (m.reclaim held).2.IsItem i
  /-- Along the way no instance that is free has another one inside it, so an order matters only
  among those that are free. -/
  alone : ∀ x, Rounds held m x → ∀ owner key item i, x.2.Free held owner key item → x.2.IsItem i →
    x.2.Inside item (.space i) → i = item
  /-- Every run that goes on until nothing is free gives the same answer and leaves the same. -/
  confluent : ∀ x, Rounds held m x → x.2.freeInstances held = [] →
    x.1 = (m.reclaim held).1 ∧ SameContents (m.reclaim held).2 x.2

theorem Tame.reclamation (hm : m.Tame) (held : List Handle) : m.ReclamationSound held := by
  have hrun : Rounds held m (m.reclaim held) := by
    obtain ⟨x, hx, heq⟩ := rounds_reclaimRounds held (m.spaces.capacity + 1) 0 m
    rw [Nat.zero_add] at heq
    have hsame : m.reclaim held = x := heq
    rw [hsame]
    exact hx
  have hnil := hm.owned.freeInstances_reclaim hm.room held
  have hstrips := hrun.strips hm
  obtain ⟨hr, hmr⟩ := hstrips.tame hm
  obtain ⟨gone, hlength, hnodup, hmem⟩ := hstrips.gone hm
  refine ⟨hm.rounds_end, hrun, hnil, fun owner s key item hs hitem => ?_,
    ⟨gone, hlength, hnodup, hmem⟩, fun x hx owner key item i hfree hi hinside => ?_,
    fun x hx hend => ?_⟩
  · obtain ⟨t, c, args, enclosing, ht, hk, -⟩ := hr.owned.item_of_listed hs hitem
    refine (kept_of_freeInstances_nil hr.room hr.calm.indexed hnil hs hitem ht hk).imp_right ?_
    exact fun ⟨a, ha⟩ => ⟨a, hr.calm.computed ha, ha⟩
  · exact ((hx.strips hm).tame hm).1.alone hfree hi hinside
  · have hstripped := hx.strips hm
    obtain ⟨hb, hmb⟩ := hstripped.tame hm
    have hle := hstripped.above hm hr hm hmr (Frame.refl m) hmr.below hnil
    have hge := hstrips.above hm hb hm hmb (Frame.refl m) hmb.below hend
    have hsame := hle.sameContents hm.owned hr hb hmr hmb hge
    refine ⟨?_, hsame⟩
    -- the same instances are gone
    obtain ⟨gone', hlength', hnodup', hmem'⟩ := hstripped.gone hm
    have hitems : ∀ i, x.2.IsItem i ↔ (m.reclaim held).2.IsItem i := fun i => by
      unfold IsItem
      rw [hsame.spaces i]
    have hperm : gone'.Perm gone := (List.perm_ext_iff_of_nodup hnodup' hnodup).2 fun i => by
      rw [hmem', hmem, hitems]
    rw [← hlength', ← hlength, hperm.length_eq]

end Recalc.Model

namespace Recalc

open Recalc.Model

theorem Reachable.tame {m : Model} (h : Reachable m) (room : m.Addressable) : m.Tame :=
  ⟨(h.orderly.proper room).owned, h.calm, room,
    fun _ _ _ _ _ _ _ hx hs hk => (h.running.faithful room).nested hx hs hk⟩

/-- Whatever the host holds, the reclamation of a reachable model comes to the one end there is. -/
theorem Reachable.reclamationSound {m : Model} (h : Reachable m) (room : m.Addressable)
    (held : List Handle) : m.ReclamationSound held := (h.tame room).reclamation held

/-- The instance `Lender[1]` is kept by the key of `Box[Lender[1]]` alone. -/
def boxedRequests : List Request :=
  [.createSpace none "Lender", .declareParams ⟨0, 0⟩ [{ name := "q" }] none,
    .createSpace none "Box", .declareParams ⟨1, 0⟩ [{ name := "p" }] none,
    .selectInstance ⟨0, 0⟩ { positional := [.int 1] },
    .selectInstance ⟨1, 0⟩ { positional := [.space { id := ⟨2, 0⟩, pins := [⟨2, 0⟩] }] }]

/-- One of the two is free, and when it is gone the other one is. -/
theorem boxed_reclamationSound : ∃ m,
    Request.runAll 9 [{ id := ⟨2, 0⟩, pins := [⟨2, 0⟩] }] boxedRequests Shop.start = some m ∧
      m.Addressable ∧ (m.freeInstances []).length = 1 ∧ (m.reclaim []).1 = 2 ∧
        m.ReclamationSound [] := by
  have hrun : ((Request.runAll 9 [{ id := ⟨2, 0⟩, pins := [⟨2, 0⟩] }] boxedRequests
      Shop.start).any fun m => decide (m.Addressable ∧ (m.freeInstances []).length = 1 ∧
        (m.reclaim []).1 = 2)) = true := by decide +kernel
  obtain ⟨m, hm, hfacts⟩ := (Option.any_eq_true _ _).1 hrun
  obtain ⟨room, hfree, hcount⟩ := of_decide_eq_true hfacts
  have hreach : Reachable m := ⟨_, .new "doc" {}, Request.becomes_of_runAll boxedRequests hm⟩
  exact ⟨m, hm, room, hfree, hcount, Reachable.reclamationSound hreach room []⟩

end Recalc
