import Recalc.Proofs.KeptInputs
import Recalc.Proofs.Recalling

set_option autoImplicit false

/-!
# Discarding one instance

An instance goes with everything inside it: the children made so far and the instances nested in
them, however deep. A value elsewhere is forgotten with it exactly when it rested on the node of the
instance or on a node that something inside owns. Nothing else changes.
-/

namespace Recalc.Model

open Recalc.Action

variable {m m' : Model}

/-! ## Trees of spaces -/

section Trees

theorem Inside.trans {x y : SpaceId} {e : Entity} (h : m.Inside x (.space y)) (h' : m.Inside y e) :
    m.Inside x e := by
  induction h' with
  | self => exact h
  | member hhome hp _ ih => exact .member hhome hp ih

/-- Of two spaces around one entity, one lies in the other. -/
theorem Inside.nested {x y : SpaceId} {e : Entity} (h : m.Inside x e) (h' : m.Inside y e) :
    m.Inside x (.space y) ∨ m.Inside y (.space x) := by
  induction h with
  | self => exact .inr h'
  | member hhome hp hinside ih =>
    cases h' with
    | self => exact .inl (.member hhome hp hinside)
    | member hhome' hp' hinside' =>
      cases hhome.symm.trans hhome'
      cases hp.symm.trans hp'
      exact ih hinside'

/-- A space does not hold what holds it. -/
theorem Grounded.acyclic {id : SpaceId} (h : m.Grounded id) {a : Address} {p : SpaceId}
    (ha : m.home? (.space id) = some a) (hp : a.space? = some p) : ¬ m.Inside id (.space p) := by
  induction h generalizing a p with
  | intro id s hs _ ih =>
    intro hinside
    have hhome := ha
    rw [home?_space hs, Option.some.injEq] at hhome
    subst hhome
    cases hinside with
    | self => exact ih id hp ha hp .self
    | member hhome hq hinside =>
      exact ih p hp hhome hq (Inside.trans (.member ha hp .self) hinside)

variable (hm : m.Owned) {owner item : SpaceId} {key : Key}
include hm

theorem Owned.home_of_listed
    (hitem : (m.spaces.get? owner).bind (·.instances.get? key) = some item) :
    ∃ args, m.home? (.space item) = some (.item owner args) ∧ (args == key) = true := by
  obtain ⟨s, hs, hlisted⟩ := Option.bind_eq_some_iff.1 hitem
  obtain ⟨t, c, args, enclosing, ht, hk, hargs⟩ := hm.item_of_listed hs hlisted
  exact ⟨args, by rw [home?_space ht, home_of_item hk], hargs⟩

theorem Owned.owner_outside
    (hitem : (m.spaces.get? owner).bind (·.instances.get? key) = some item) :
    ¬ m.Inside item (.space owner) := by
  obtain ⟨args, hhome, -⟩ := hm.home_of_listed hitem
  obtain ⟨t, ht, -⟩ := space_of_home? hhome
  exact (hm.grounded item t ht).acyclic hhome rfl

/-- Two instances of a space have nothing in common. -/
theorem Owned.apart {other : SpaceId} {k : Key}
    (hitem : (m.spaces.get? owner).bind (·.instances.get? key) = some item)
    (hother : (m.spaces.get? owner).bind (·.instances.get? k) = some other)
    (hne : (key == k) = false) {e : Entity} (h : m.Inside other e) : ¬ m.Inside item e := by
  -- the outer one of the two would lie around their owner, or be the inner one
  have hsplit : ∀ {i j : SpaceId} {k k' : Key},
      (m.spaces.get? owner).bind (·.instances.get? k) = some i →
      (m.spaces.get? owner).bind (·.instances.get? k') = some j →
      m.Inside i (.space j) → (k == k') = true := by
    intro i j k k' hi hj hinside
    obtain ⟨args', hhome', hargs'⟩ := hm.home_of_listed hj
    cases hinside with
    | self =>
      obtain ⟨args, hhome, hargs⟩ := hm.home_of_listed hi
      cases hhome.symm.trans hhome'
      exact BEq.trans (BEq.symm hargs) hargs'
    | member hhome hp hinside =>
      cases hhome.symm.trans hhome'
      cases hp
      exact absurd hinside (hm.owner_outside hi)
  intro hinside
  rcases hinside.nested h with hin | hin
  · rw [hsplit hitem hother hin] at hne
    contradiction
  · rw [BEq.symm (hsplit hother hitem hin)] at hne
    contradiction

end Trees

/-! ## What an instance takes along -/

/-- The node of an instance or a node that something inside it owns. -/
def OfItem (m : Model) (owner : SpaceId) (key : Key) (item : SpaceId) (n : Node) : Prop :=
  (n == .item owner key) = true ∨ m.Inside item n.entity

/-- The node is one of the instance's own, or read one of them, directly or through others. -/
def RestsOnItem (m : Model) (owner : SpaceId) (key : Key) (item : SpaceId) (n : Node) : Prop :=
  ∃ b, m.RestsOn n b ∧ m.OfItem owner key item b

/-- What the model is like when the instance `item` that `owner` had for `key` was discarded. -/
structure Discarded (m : Model) (owner : SpaceId) (key : Key) (item : SpaceId) (m' : Model) :
    Prop where
  /-- Nothing inside the instance is found any more. -/
  gone : ∀ e, m.Inside item e → m'.record? e = none
  /-- The owner has lost this instance and is otherwise as it was. -/
  table : m'.spaces.get? owner =
    (m.spaces.get? owner).map fun s => { s with instances := s.instances.erase key }
  /-- The other instances of the owner lie outside with everything inside them. -/
  others : ∀ k other e, (m.spaces.get? owner).bind (·.instances.get? k) = some other →
    (key == k) = false → m.Inside other e → ¬ m.Inside item e
  /-- Spaces outside are as they were. -/
  spaces : ∀ id, owner ≠ id → ¬ m.Inside item (.space id) → m'.spaces.get? id = m.spaces.get? id
  /-- Cells outside have their definition and their inputs, and those of their values that did not
  rest on the instance. -/
  cells : ∀ id c, m.cells.get? id = some c → ¬ m.Inside item (.cells id) →
    ∃ c', m'.cells.get? id = some c' ∧ c'.bare = c.bare ∧
      c'.contents.inputs = c.contents.inputs ∧
      ∀ k v, c'.contents.values.get? k = some v ↔
        c.contents.values.get? k = some v ∧ ¬ m.RestsOnItem owner key item (.cells id k)
  /-- A recorded read is forgotten when its reader rested on the instance. -/
  edges : ∀ a b, m'.graph.hasEdge a b = true ↔
    m.graph.hasEdge a b = true ∧ ¬ m.RestsOnItem owner key item a
  refs : ∀ id, m'.refs.get? id = m.refs.get? id
  roots : m'.roots = m.roots
  globals : m'.globals = m.globals
  settings : SameSettings m m'

theorem RestsOn.live (hcalm : m.Calm) {a b : Node} (h : m.RestsOn a b) (ha : m.isLive a = true) :
    m.isLive b = true := by
  induction h with
  | self hab => rwa [← isLive_congr m hab]
  | read hedge _ ih => exact ih ((hcalm.read _ _ hedge).resolve_right id)

theorem home_of_isLive {n : Node} (h : m.isLive n = true) : ∃ a, m.home? n.entity = some a := by
  unfold isLive at h
  split at h
  next id he =>
    obtain ⟨c, hc, -⟩ := (Option.any_eq_true _ _).1 h
    exact ⟨_, he ▸ home?_cells hc⟩
  next id he =>
    obtain ⟨s, hs, -⟩ := (Option.any_eq_true _ _).1 h
    exact ⟨_, he ▸ home?_space hs⟩
  next id he =>
    obtain ⟨r, hr⟩ := Pool.contains_iff.1 h
    exact ⟨_, he ▸ home?_ref hr⟩

/-- A computed value whose cells still hold something for its key is still there. -/
theorem KeepsInputs.isComputed (h : KeepsInputs m m') (hcalm : m.Calm) {n : Node}
    (hn : m.isComputed n = true) (hlive : m'.isLive n = true) : m'.isComputed n = true := by
  obtain ⟨id, c, he, hc, hk⟩ := isComputed_iff.1 hn
  obtain ⟨c', v, hc', hv⟩ := stored_of_isLive hlive he
  obtain ⟨d, hd, hinputs⟩ := h id c' hc'
  cases hc.symm.trans hd
  have hnone : c'.contents.inputs.get? n.key = none := by
    rw [hinputs, Contents.inputs_eq_none_iff]
    refine Bool.eq_false_iff.2 fun hinput => ?_
    rw [hcalm.exclusive id c n.key hc hinput] at hk
    contradiction
  rw [Contents.get?, hnone, Option.none_or] at hv
  exact isComputed_iff.2 ⟨id, c', he, hc', Table.contains_of_get? hv⟩

section Removal

variable (hm : m.Owned) {owner item : SpaceId} {key : Key}
  (hitem : (m.spaces.get? owner).bind (·.instances.get? key) = some item)
include hm hitem

/-- What lies inside the instance is not listed any more, from the root of the instance down. -/
theorem Owned.home_removeInstance {e : Entity} (h : m.Inside item e) :
    (m.removeInstance owner key).2.home? e = none := by
  obtain ⟨hm', hdrops⟩ := under_removeInstance m owner key hm
  induction h with
  | self =>
    refine Option.eq_none_iff_forall_ne_some.2 fun a ha => ?_
    obtain ⟨args, hhome, hargs⟩ := hm.home_of_listed hitem
    cases hhome.symm.trans (hdrops.home ha)
    obtain ⟨s', hs', hlists⟩ := hm'.holder ha rfl
    obtain ⟨i, hi, -⟩ := Option.map_eq_some_iff.1 hlists
    rw [Table.get?_congr s'.instances hargs, absent_removeInstance m owner key hs'] at hi
    cases hi
  | member hhome hp _ ih =>
    refine Option.eq_none_iff_forall_ne_some.2 fun a ha => ?_
    cases hhome.symm.trans (hdrops.home ha)
    obtain ⟨s', hs', -⟩ := hm'.holder ha hp
    rw [home?_space hs'] at ih
    cases ih

theorem Owned.record_removeInstance {e : Entity} (h : ¬ m.Inside item e) :
    (m.removeInstance owner key).2.record? e = (m.modifySpace owner fun s =>
      { s with instances := s.instances.erase key }).record? e := by
  have hcut := drops_eraseInstance m owner key
  have halike := (forgetsAll_invalidate (m.modifySpace owner fun s =>
    { s with instances := s.instances.erase key }) (.item owner key)).forgetsSome.alike
  have hsheds : Sheds (m.Inside item) _ _ := Frame.trans (halike.sheds (m.Inside item))
    (sheds_destroySpace .self (hm.closed_inside (Frame.trans hcut halike.drops) item))
  unfold removeInstance
  rw [hitem]
  exact (hsheds.record e).resolve_right fun hin => h hin.1

theorem Owned.spaces_removeInstance {id : SpaceId} (h : ¬ m.Inside item (.space id)) :
    (m.removeInstance owner key).2.spaces.get? id = if owner = id then
      (m.spaces.get? owner).map fun s => { s with instances := s.instances.erase key }
      else m.spaces.get? id := by
  have hinj : Function.Injective Record.space := fun _ _ heq => Record.space.inj heq
  have heq := Option.map_injective hinj (hm.record_removeInstance hitem h)
  exact heq.trans (Pool.get?_modify m.spaces owner id _)

/-- What was there and is gone belonged to the instance. -/
theorem Owned.ofItem_of_gone {n : Node} (hlive : m.isLive n = true)
    (hgone : (m.removeInstance owner key).2.Gone n) : m.OfItem owner key item n := by
  by_contra hout
  obtain ⟨hnode, hout⟩ := not_or.1 hout
  have hrecord := hm.record_removeInstance hitem hout
  unfold isLive at hlive
  unfold Gone at hgone
  split at hgone
  next id he =>
    simp only [he] at hlive hrecord
    obtain ⟨c, hc, -⟩ := (Option.any_eq_true _ _).1 hlive
    simp [record?, hgone, modifySpace, hc] at hrecord
  next id he =>
    simp only [he] at hlive hout
    obtain ⟨s, hs, hcontains⟩ := (Option.any_eq_true _ _).1 hlive
    rw [Table.contains_eq_isSome] at hcontains
    have hspace := hm.spaces_removeInstance hitem hout
    by_cases howner : owner = id
    · subst howner
      rw [if_pos rfl, hs, Option.map_some] at hspace
      have hnone := hgone _ hspace
      rw [Table.get?_erase] at hnone
      split at hnone
      next hk => exact hnode (by simp [Graph.node_beq_iff, he, Node.item, BEq.symm hk])
      next => simp [hnone] at hcontains
    · rw [if_neg howner, hs] at hspace
      simp [hgone s hspace] at hcontains
  next id he =>
    simp only [he] at hlive
    obtain ⟨hm', hdrops⟩ := under_removeInstance m owner key hm
    rw [hdrops.keepsRefs hm hm'] at hgone
    simp [Pool.contains, hgone] at hlive

theorem Owned.not_live_of_ofItem {n : Node} (h : m.OfItem owner key item n) :
    (m.removeInstance owner key).2.isLive n = false := by
  refine Bool.eq_false_iff.2 fun hlive => ?_
  rcases h with hnode | hinside
  · rw [Graph.node_beq_iff, Bool.and_eq_true, beq_iff_eq] at hnode
    unfold isLive at hlive
    rw [hnode.1] at hlive
    obtain ⟨s, hs, hcontains⟩ := (Option.any_eq_true _ _).1 hlive
    rw [Table.contains_congr _ hnode.2, Table.contains_eq_isSome] at hcontains
    simp [Node.item, absent_removeInstance m owner key hs] at hcontains
  · obtain ⟨a, ha⟩ := home_of_isLive hlive
    rw [hm.home_removeInstance hitem hinside] at ha
    contradiction

variable (hcalm : m.Calm)
include hcalm

theorem Owned.not_live_of_rests {n b : Node} (hrest : m.RestsOn n b)
    (hb : m.OfItem owner key item b) : (m.removeInstance owner key).2.isLive n = false := by
  obtain ⟨hm', hdrops⟩ := under_removeInstance m owner key hm
  obtain ⟨hcalm', hupholds⟩ := editFrame_upholds.removeInstance m owner key hcalm
  induction hrest with
  | self hab =>
    rw [isLive_congr _ hab]
    exact hm.not_live_of_ofItem hitem hb
  | @read a c b hedge _ ih =>
    have hc := ih hb
    refine Bool.eq_false_iff.2 fun hlive => ?_
    -- a value that stays keeps its reads, and what it read is there
    have hcomputed : (m.removeInstance owner key).2.isComputed a = true :=
      (trimsCells_removeInstance m owner key).keepsInputs.isComputed hcalm (hcalm.computed hedge)
        hlive
    have hregular : c.Regular := by
      intro r hr
      have hthere := (hcalm.read a c hedge).resolve_right id
      unfold isLive at hthere hc
      simp only [hr] at hthere hc
      rw [Pool.contains, hdrops.keepsRefs hm hm' r, ← Pool.contains, hthere] at hc
      contradiction
    have hread := hupholds.reads a c hcomputed ⟨hedge, hregular⟩
    rw [(hcalm'.read a c hread.1).resolve_right id] at hc
    contradiction

theorem Owned.rests_of_gone {n b : Node} (hn : m.isComputed n = true) (hrest : m.RestsOn n b)
    (hgone : (m.removeInstance owner key).2.Gone b) : m.RestsOnItem owner key item n :=
  ⟨b, hrest, hm.ofItem_of_gone hitem (hrest.live hcalm (isLive_of_isComputed hn)) hgone⟩

theorem Owned.not_rests_of_computed {n : Node}
    (hn : (m.removeInstance owner key).2.isComputed n = true) :
    ¬ m.RestsOnItem owner key item n := by
  rintro ⟨b, hrest, hb⟩
  have hlive := isLive_of_isComputed hn
  rw [hm.not_live_of_rests hitem hcalm hrest hb] at hlive
  contradiction

theorem Owned.discards : Discarded m owner key item (m.removeInstance owner key).2 := by
  obtain ⟨hm', hdrops⟩ := under_removeInstance m owner key hm
  obtain ⟨hcalm', hupholds⟩ := editFrame_upholds.removeInstance m owner key hcalm
  obtain ⟨-, hbereaves⟩ := bereaves_removeInstance m owner key hcalm.indexed
  have hinputs := (trimsCells_removeInstance m owner key).keepsInputs
  refine ⟨fun e he => ?_, ?_, fun k other e hother hne he => ?_, fun id hne hout => ?_,
    fun id c hc hout => ?_, fun a b => ⟨fun hab => ?_, fun h => ?_⟩,
    hdrops.keepsRefs hm hm', hdrops.roots, hdrops.globals, sameSettings_removeInstance m owner key⟩
  · exact Option.map_eq_none_iff.1 (hm.home_removeInstance hitem he)
  · rw [hm.spaces_removeInstance hitem (hm.owner_outside hitem), if_pos rfl]
  · exact hm.apart hitem hother hne he
  · rw [hm.spaces_removeInstance hitem hout, if_neg hne]
  · have hrecord := hm.record_removeInstance hitem hout
    simp only [record?, modifySpace, hc, Option.map_some, Option.map_eq_some_iff] at hrecord
    obtain ⟨_, ⟨c', hc', rfl⟩, hbare⟩ := hrecord
    obtain ⟨d, hd, hsame⟩ := hinputs id c' hc'
    cases hc.symm.trans hd
    refine ⟨c', hc', Record.cells.inj hbare, hsame,
      fun k v => ⟨fun hv => ?_, fun h => ?_⟩⟩
    · obtain ⟨d, hd, hv', -⟩ := hupholds.stored id c' k v hc' hv
      cases hc.symm.trans hd
      exact ⟨hv', hm.not_rests_of_computed hitem hcalm
        (isComputed_iff.2 ⟨id, c', rfl, hc', Table.contains_of_get? hv⟩)⟩
    · obtain ⟨hv, hrests⟩ := h
      have hn : m.isComputed (.cells id k) = true :=
        isComputed_iff.2 ⟨id, c, rfl, hc, Table.contains_of_get? hv⟩
      rcases hbereaves.costs.values _ hn with hn' | ⟨b, hrest, hgone⟩
      · obtain ⟨other, d', he, hd', hk⟩ := isComputed_iff.1 hn'
        cases he
        cases hc'.symm.trans hd'
        rw [Contents.hasComputed, Table.contains_eq_isSome, Option.isSome_iff_exists] at hk
        obtain ⟨w, hw⟩ := hk
        obtain ⟨d, hd, hv', -⟩ := hupholds.stored id c' k w hc' hw
        cases hc.symm.trans hd
        cases hv.symm.trans hv'
        exact hw
      · exact absurd (hm.rests_of_gone hitem hcalm hn hrest hgone) hrests
  · exact ⟨hupholds.edges a b hab, hm.not_rests_of_computed hitem hcalm (hcalm'.computed hab)⟩
  · obtain ⟨hab, hrests⟩ := h
    rcases hbereaves.costs.reads a b hab with hab' | ⟨c, hrest, hgone⟩
    · exact hab'
    · exact absurd (hm.rests_of_gone hitem hcalm (hcalm.computed hab) hrest hgone) hrests

end Removal

theorem removeInstance_eq (m : Model) {owner : SpaceId} (key : Key) {s : Space}
    (hs : m.spaces.get? owner = some s) :
    (m.removeInstance owner key).1 = s.instances.contains key ∧
      (s.instances.get? key = none → (m.removeInstance owner key).2 = m) := by
  unfold removeInstance
  rw [hs, Option.bind_some, Table.contains_eq_isSome]
  cases s.instances.get? key with
  | none => exact ⟨rfl, fun _ => rfl⟩
  | some item => exact ⟨rfl, fun h => nomatch h⟩

theorem space_of_signature {id : SpaceId} {spec : Signature} (h : m.signature id = .ok spec) :
    ∃ s, m.spaces.get? id = some s := by
  cases hs : m.spaces.get? id with
  | some s => exact ⟨s, rfl⟩
  | none =>
    simp only [signature, counterpart, space, hs] at h
    cases h

/-- When the parameters of a space alone decide the key, discarding runs no formula. -/
theorem discardInstance_eq {owner : SpaceId} {spec : Signature} {args bound : List Value}
    {key : Key} (hspec : m.signature owner = .ok spec) (hbinder : spec.binder = none)
    (hbound : matchArguments spec.params { positional := args } (m.dottedName owner) = .ok bound)
    (hkey : Key.ofValues bound = .ok key) (fuel : Nat) :
    discardInstance fuel owner args m =
      some (.ok (m.removeInstance owner key).1, (m.removeInstance owner key).2) := by
  obtain ⟨s, hs⟩ := space_of_signature hspec
  simp only [discardInstance, itemKey, bind_apply, Action.read, hspec, hbound, hbinder,
    Action.ofExcept, hkey, space, hs, update]

end Recalc.Model

namespace Recalc

open Recalc.Model

/-- Where the parameters of a space decide the key, discarding an instance answers whether there was
one, and takes along what is inside it and what rested on that, and nothing else. -/
theorem Reachable.discardedInstance {m : Model} (h : Reachable m) (room : m.Addressable)
    {owner : SpaceId} {spec : Signature} {args bound : List Value} {key : Key}
    (hspec : m.signature owner = .ok spec) (hbinder : spec.binder = none)
    (hbound : matchArguments spec.params { positional := args } (m.dottedName owner) = .ok bound)
    (hkey : Key.ofValues bound = .ok key) (fuel : Nat) :
    ∃ s m', m.spaces.get? owner = some s ∧
      discardInstance fuel owner args m = some (.ok (s.instances.contains key), m') ∧
      (s.instances.get? key = none → m' = m) ∧
      ∀ item, s.instances.get? key = some item → Discarded m owner key item m' := by
  obtain ⟨s, hs⟩ := space_of_signature hspec
  obtain ⟨hfound, hnone⟩ := removeInstance_eq m key hs
  refine ⟨s, _, hs, ?_, hnone, fun item hitem => ?_⟩
  · rw [discardInstance_eq hspec hbinder hbound hkey fuel, hfound]
  · exact (h.orderly.proper room).owned.discards (by rw [hs]; exact hitem) h.calm

def itemFormula : Formula where
  ident := 1
  params := [{ name := "i" }]
  rule := .computed (fun args => do
    match ← Body.query (.lookup none "s" (some { positional := args })) with
    | .space item => Body.query (.lookup (some item) "a" none)
    | v => return v) []

/-- `T.x(i)` reads `a` in the instance `S[i]`, and is computed for two instances. -/
def itemRequests : List Request :=
  [.createSpace none "S", .declareParams ⟨0, 0⟩ [{ name := "n" }] none,
    .defineCells ⟨0, 0⟩ "a"
      (some ⟨0, [], .computed (fun _ => Body.query (.lookup none "n" none)) [], none⟩),
    .createSpace none "T", .bindName ⟨1, 0⟩ "s" (.space { id := ⟨0, 0⟩ }) .auto,
    .defineCells ⟨1, 0⟩ "x" (some itemFormula),
    .call ⟨1, 0⟩ { positional := [.int 1] }, .call ⟨1, 0⟩ { positional := [.int 2] }]

/-- With `S[1]` goes the value of `T.x(1)`, and that of `T.x(2)` stays. -/
theorem item_discarded : ∃ m spec bound key key₂ s item m',
    Request.runAll 9 [] itemRequests Shop.start = some m ∧ m.Addressable ∧
      m.signature ⟨0, 0⟩ = .ok spec ∧ spec.binder = none ∧
      matchArguments spec.params { positional := [.int 1] } (m.dottedName ⟨0, 0⟩) = .ok bound ∧
      Key.ofValues bound = .ok key ∧ Key.ofValues [.int 2] = .ok key₂ ∧
      m.spaces.get? ⟨0, 0⟩ = some s ∧ s.instances.get? key = some item ∧
      discardInstance 9 ⟨0, 0⟩ [.int 1] m = some (.ok true, m') ∧
      Discarded m ⟨0, 0⟩ key item m' ∧
      m.isComputed (.cells ⟨1, 0⟩ key) = true ∧ m'.isComputed (.cells ⟨1, 0⟩ key) = false ∧
      m.isComputed (.cells ⟨1, 0⟩ key₂) = true ∧ m'.isComputed (.cells ⟨1, 0⟩ key₂) = true := by
  have hrun : ((Request.runAll 9 [] itemRequests Shop.start).any fun m =>
      (m.signature ⟨0, 0⟩).toOption.any fun spec =>
        (matchArguments spec.params { positional := [.int 1] } (m.dottedName ⟨0, 0⟩)).toOption.any
          fun bound => (Key.ofValues bound).toOption.any fun key =>
            (Key.ofValues [.int 2]).toOption.any fun key₂ =>
              (m.spaces.get? ⟨0, 0⟩).any fun s => (s.instances.get? key).any fun _ =>
                (discardInstance 9 ⟨0, 0⟩ [.int 1] m).any fun o => decide (m.Addressable ∧
                  spec.binder.isNone = true ∧ s.instances.contains key = true ∧
                  m.isComputed (.cells ⟨1, 0⟩ key) = true ∧
                  o.2.isComputed (.cells ⟨1, 0⟩ key) = false ∧
                  m.isComputed (.cells ⟨1, 0⟩ key₂) = true ∧
                  o.2.isComputed (.cells ⟨1, 0⟩ key₂) = true)) = true := by decide +kernel
  obtain ⟨m, hm, hrun⟩ := (Option.any_eq_true _ _).1 hrun
  obtain ⟨spec, hspec, hrun⟩ := (Option.any_eq_true _ _).1 hrun
  obtain ⟨bound, hbound, hrun⟩ := (Option.any_eq_true _ _).1 hrun
  obtain ⟨key, hkey, hrun⟩ := (Option.any_eq_true _ _).1 hrun
  obtain ⟨key₂, hkey₂, hrun⟩ := (Option.any_eq_true _ _).1 hrun
  obtain ⟨s, hs, hrun⟩ := (Option.any_eq_true _ _).1 hrun
  obtain ⟨item, hitem, hrun⟩ := (Option.any_eq_true _ _).1 hrun
  obtain ⟨⟨r, m'⟩, ho, hfacts⟩ := (Option.any_eq_true _ _).1 hrun
  obtain ⟨room, hbinder, hfound, hcomputed⟩ := of_decide_eq_true hfacts
  rw [toOption_eq_some] at hspec hbound hkey hkey₂
  have hbinder := Option.isNone_iff_eq_none.1 hbinder
  obtain ⟨t, m'', ht, hrun, -, hdiscarded⟩ := Reachable.discardedInstance
    ⟨_, .new "doc" {}, Request.becomes_of_runAll itemRequests hm⟩ room hspec hbinder hbound hkey 9
  cases hs.symm.trans ht
  cases ho.symm.trans hrun
  rw [hfound] at hrun
  exact ⟨m, spec, bound, key, key₂, s, item, m', hm, room, hspec, hbinder, hbound, hkey, hkey₂, hs,
    hitem, hrun, hdiscarded item hitem, hcomputed⟩

end Recalc
