import Recalc.Proofs.Enclosing
import Recalc.Proofs.GraphKeys

set_option autoImplicit false

/-!
# What keeps the instances behind a stored value

A body that is discreet uses only handles that it was given: those it keeps, those among its
arguments and those among the answers to its questions. Wherever such a handle leads, the node under
evaluation has recorded what keeps the instances there alive: they are pinned by its key, by a value
that it read or by a definition, or it read them, or an instance that is kept has them among its
arguments or lies in them.
-/

namespace Recalc

open Recalc.Action

/-! ## Discretion -/

def Query.handles : Query → List Handle
  | .lookup place _ call => place.toList ++ (call.map Arguments.handles).getD []
  | .item space args => space :: Value.itemHandles args
  | .argValues space => [space]
  | _ => []

def answered : Except Failure Value → List Handle
  | .ok v => v.handles
  | .error _ => []

/-- The body uses only known handles, and those of the answers it gets. -/
inductive Body.Discreet : List Handle → Body Value → Prop
  | done {known : List Handle} {r : Except Failure Value} :
      answered r ⊆ known → Discreet known (.done r)
  | ask {known : List Handle} {q : Query} {resume : Except Failure Value → Body Value} :
      q.handles ⊆ known → (∀ r, Discreet (known ++ answered r) (resume r)) →
      Discreet known (.ask q resume)

def Formula.Discreet (f : Formula) : Prop :=
  ∀ body kept, f.rule = .computed body kept →
    ∀ args, (body args).Discreet (kept ++ Value.itemHandles args)

theorem Cells.Extends.formula {c c' : Cells} (h : c.Extends c') :
    c'.formula = c.formula :=
  (Model.formula_of_bare h.bare).1.symm

theorem Cells.Extends.space {c c' : Cells} (h : c.Extends c') :
    c'.space = c.space :=
  (Cells.mk.inj h.bare).2.1

/-- What is stored or put in is still there. -/
theorem Cells.Extends.get? {c c' : Cells} (h : c.Extends c') {k : Key} {v : Value}
    (hv : c.contents.get? k = some v) : c'.contents.get? k = some v := by
  unfold Contents.get? at hv ⊢
  rw [h.inputs]
  rcases Option.or_eq_some_iff.1 hv with hv | ⟨hnone, hv⟩
  · rw [hv, Option.some_or]
  · rw [hnone, Option.none_or]
    exact h.values k v hv

namespace Model

structure Discreet (m : Model) : Prop where
  cells : ∀ id c f, m.cells.get? id = some c → c.formula = some f → f.Discreet
  binders : ∀ id s spec f, m.spaces.get? id = some s → s.isStatic = true →
    s.signature = some spec → spec.binder = some f → f.Discreet

variable (issue : SpaceId → List SpaceId)

/-! ## Handles as they were issued -/

/-- The handles have the pins that they were issued with. -/
def Issued (l : List Handle) : Prop := ∀ h ∈ l, h.pins = issue h.id

/-- Slots have indices of 32 bits, and a handle to a space has the pins that `issue` tells. -/
structure Issuing (m : Model) : Prop where
  room : m.Addressable
  pins : ∀ id s, m.spaces.get? id = some s → m.pinsOf id = issue id

structure Stocked (m : Model) : Prop where
  cells : ∀ id c, m.cells.get? id = some c → Issued issue c.handles
  refs : ∀ id r, m.refs.get? id = some r → Issued issue r.value.handles
  spaces : ∀ id s, m.spaces.get? id = some s → Issued issue s.handles
  graph : m.graph.Keyed fun k => Issued issue k.handles
  stack : ∀ n ∈ m.stack.nodes, Issued issue n.key.handles

/-- What the records of the node `z` keep alive, directly and through other instances. -/
inductive Backed (m : Model) (z : Node) : SpaceId → Prop
  | home {id : CellId} {c : Cells} {i : SpaceId} : z.entity = .cells id →
      m.cells.get? id = some c → i ∈ issue c.space → Backed m z i
  | key {h : Handle} {i : SpaceId} : h ∈ z.key.handles → i ∈ issue h.id → Backed m z i
  | formula {id : CellId} {c : Cells} {f : Formula} {h : Handle} {i : SpaceId} :
      z.entity = .cells id → m.cells.get? id = some c → c.formula = some f → h ∈ f.handles →
      i ∈ issue h.id → Backed m z i
  | value {id : CellId} {key : Key} {c : Cells} {v : Value} {h : Handle} {i : SpaceId} :
      m.graph.hasEdge z (.cells id key) = true → m.cells.get? id = some c →
      c.contents.get? key = some v → h ∈ v.handles → i ∈ issue h.id → Backed m z i
  | ref {r : RefId} {q : Reference} {h : Handle} {i : SpaceId} : m.refs.get? r = some q →
      h ∈ q.value.handles → i ∈ issue h.id → Backed m z i
  | signature {id : SpaceId} {s : Space} {spec : Signature} {h : Handle} {i : SpaceId} :
      m.spaces.get? id = some s → s.isStatic = true → s.signature = some spec →
      h ∈ spec.handles → i ∈ issue h.id → Backed m z i
  | item {p : SpaceId} {key : Key} {s : Space} {i : SpaceId} :
      m.graph.hasEdge z (.item p key) = true → m.spaces.get? p = some s →
      s.instances.get? key = some i → Backed m z i
  | args {j owner c : SpaceId} {t : Space} {key : Key} {around : List SpaceId} {h : Handle}
      {i : SpaceId} : Backed m z j → m.spaces.get? j = some t →
      t.kind = .item owner c key around → h ∈ key.handles → i ∈ issue h.id → Backed m z i
  | around {j owner c : SpaceId} {t : Space} {key : Key} {around : List SpaceId} {i : SpaceId} :
      Backed m z j → m.spaces.get? j = some t → t.kind = .item owner c key around →
      i ∈ around → Backed m z i

/-- When `a` read cells, its records keep alive what the cells lie in. -/
def BacksRead (m : Model) (a b : Node) : Prop :=
  ∀ id, b.entity = .cells id →
    ∃ c, m.cells.get? id = some c ∧ ∀ i ∈ issue c.space, m.Backed issue a i

/-- The records of the node under evaluation keep alive what the space lies in. -/
def Near (m : Model) (id : SpaceId) : Prop :=
  ∀ z, m.stack.top? = some z → ∀ i ∈ issue id, m.Backed issue z i

/-- A handle as it was issued, to a space that is kept alive. -/
def Known (m : Model) (h : Handle) : Prop := h.pins = issue h.id ∧ m.Near issue h.id

variable {issue} {m m₁ m' : Model} {a b z : Node} {i id : SpaceId}

theorem Issued.append {l l' : List Handle} (h : Issued issue l) (h' : Issued issue l') :
    Issued issue (l ++ l') :=
  fun a ha => (List.mem_append.1 ha).elim (h a) (h' a)

theorem Issued.subset {l l' : List Handle} (h : Issued issue l) (hsub : l' ⊆ l) :
    Issued issue l' :=
  fun a ha => h a (hsub ha)

theorem issued_nil : Issued issue [] := fun _ ha => absurd ha List.not_mem_nil

/-- A model is stocked when all its handles are as they were issued. -/
theorem stocked_of_issued (room : m.Addressable) (h : Issued issue m.handles) :
    m.Stocked issue := by
  unfold handles at h
  refine ⟨fun id c hc a ha => h a ?_, fun id r hr a ha => h a ?_, fun id s hs a ha => h a ?_,
    Graph.keyed_iff.2 fun a ha => h a ?_, fun n hn a ha => h a ?_⟩
  · exact List.mem_append_left _ (List.mem_append_left _ (List.mem_append_left _
      (List.mem_append_left _ (List.mem_flatMap.2 ⟨_, (Pool.mem_entries room.2).2 hc, ha⟩))))
  · exact List.mem_append_left _ (List.mem_append_left _ (List.mem_append_left _
      (List.mem_append_right _ (List.mem_flatMap.2 ⟨_, (Pool.mem_entries room.3).2 hr, ha⟩))))
  · exact List.mem_append_left _ (List.mem_append_left _
      (List.mem_append_right _ (List.mem_flatMap.2 ⟨_, (Pool.mem_entries room.1).2 hs, ha⟩)))
  · exact List.mem_append_left _ (List.mem_append_right _ ha)
  · exact List.mem_append_right _ (List.mem_flatMap.2 ⟨n, hn, ha⟩)

/-! ## What is recorded stays recorded -/

structure Carries (m m' : Model) : Prop where
  refs : m'.refs = m.refs
  spaces : ∀ id s, m.spaces.get? id = some s → ∃ s', m'.spaces.get? id = some s' ∧ s.Extends s'
  cells : ∀ id c, m.cells.get? id = some c → ∃ c', m'.cells.get? id = some c' ∧ c.Extends c'

theorem Enriches.carries (h : Enriches m m') : Carries m m' := ⟨h.refs, h.spaces, h.cells⟩

/-- The graph, the stack and the count of formulas that ran are no records. -/
theorem carries_beside (m : Model) (graph : Graph) (stack : Stack) (runs : Nat) :
    Carries m { m with graph, stack, runs } :=
  ⟨rfl, fun _ s hs => ⟨s, hs, .refl s⟩, fun _ c hc => ⟨c, hc, .refl c⟩⟩

theorem Carries.trans (h : Carries m m₁) (h' : Carries m₁ m') : Carries m m' := by
  refine ⟨h'.refs.trans h.refs, fun id s hs => ?_, fun id c hc => ?_⟩
  · obtain ⟨s₁, hs₁, hext⟩ := h.spaces id s hs
    obtain ⟨s', hs', hext'⟩ := h'.spaces id s₁ hs₁
    exact ⟨s', hs', hext.trans hext'⟩
  · obtain ⟨c₁, hc₁, hext⟩ := h.cells id c hc
    obtain ⟨c', hc', hext'⟩ := h'.cells id c₁ hc₁
    exact ⟨c', hc', hext.trans hext'⟩

theorem Backed.mono (h : m.Backed issue z i) (hcarries : Carries m m')
    (hedges : ∀ b, m.graph.hasEdge z b = true → m'.graph.hasEdge z b = true) :
    m'.Backed issue z i := by
  induction h with
  | home he hc hi =>
    obtain ⟨c', hc', hext⟩ := hcarries.cells _ _ hc
    exact .home he hc' (by rwa [hext.space])
  | key hh hi => exact .key hh hi
  | formula he hc hf hh hi =>
    obtain ⟨c', hc', hext⟩ := hcarries.cells _ _ hc
    exact .formula he hc' (hext.formula.trans hf) hh hi
  | value hedge hc hv hh hi =>
    obtain ⟨c', hc', hext⟩ := hcarries.cells _ _ hc
    exact .value (hedges _ hedge) hc' (hext.get? hv) hh hi
  | ref hq hh hi => exact .ref (by rw [hcarries.refs]; exact hq) hh hi
  | signature hs hstatic hspec hh hi =>
    obtain ⟨s', hs', hext⟩ := hcarries.spaces _ _ hs
    exact .signature hs' (hext.isStatic.trans hstatic) (by rw [hext.same]; exact hspec) hh hi
  | item hedge hs hlisted =>
    obtain ⟨s', hs', hext⟩ := hcarries.spaces _ _ hs
    exact .item (hedges _ hedge) hs' (hext.instances _ _ hlisted)
  | args _ ht hk hh hi ih =>
    obtain ⟨t', ht', hext⟩ := hcarries.spaces _ _ ht
    exact .args ih ht' (hext.kind.trans hk) hh hi
  | around _ ht hk hi ih =>
    obtain ⟨t', ht', hext⟩ := hcarries.spaces _ _ ht
    exact .around ih ht' (hext.kind.trans hk) hi

/-- Equal nodes keep the same alive. -/
theorem Backed.congr (hab : (a == b) = true) (h : m.Backed issue a i) : m.Backed issue b i := by
  obtain ⟨hentity, hkey⟩ : a.entity = b.entity ∧ (a.key == b.key) = true := by
    rw [Graph.node_beq_iff, Bool.and_eq_true, beq_iff_eq] at hab
    exact hab
  have hedge : ∀ c, m.graph.hasEdge a c = true → m.graph.hasEdge b c = true := fun c hac =>
    (m.graph.hasEdge_congr hab BEq.rfl).symm.trans hac
  induction h with
  | home he hc hi => exact .home (hentity.symm.trans he) hc hi
  | key hh hi =>
    obtain ⟨h', hh', hid⟩ := Key.exists_handle_of_beq hkey hh
    exact .key hh' (by rwa [hid])
  | formula he hc hf hh hi => exact .formula (hentity.symm.trans he) hc hf hh hi
  | value hread hc hv hh hi => exact .value (hedge _ hread) hc hv hh hi
  | ref hq hh hi => exact .ref hq hh hi
  | signature hs hstatic hspec hh hi => exact .signature hs hstatic hspec hh hi
  | item hread hs hlisted => exact .item (hedge _ hread) hs hlisted
  | args _ ht hk hh hi ih => exact .args ih ht hk hh hi
  | around _ ht hk hi ih => exact .around ih ht hk hi

theorem BacksRead.mono (h : m.BacksRead issue a b) (hcarries : Carries m m')
    (hedges : ∀ b, m.graph.hasEdge a b = true → m'.graph.hasEdge a b = true) :
    m'.BacksRead issue a b := by
  intro id he
  obtain ⟨c, hc, hbacked⟩ := h id he
  obtain ⟨c', hc', hext⟩ := hcarries.cells id c hc
  refine ⟨c', hc', fun i hi => ?_⟩
  rw [hext.space] at hi
  exact (hbacked i hi).mono hcarries hedges

theorem BacksRead.congr {a' b' : Node} (ha : (a == a') = true) (hb : (b == b') = true)
    (h : m.BacksRead issue a b) : m.BacksRead issue a' b' := by
  intro id he
  rw [Graph.node_beq_iff, Bool.and_eq_true, beq_iff_eq] at hb
  obtain ⟨c, hc, hbacked⟩ := h id (hb.1.trans he)
  exact ⟨c, hc, fun i hi => (hbacked i hi).congr ha⟩

theorem Near.mono (h : m.Near issue id) (henriches : Enriches m m')
    (hstack : m'.stack.nodes = m.stack.nodes) : m'.Near issue id := by
  intro z hz i hi
  refine (h z ?_ i hi).mono henriches.carries fun b => henriches.edges z b
  unfold Stack.top? at hz ⊢
  rwa [← hstack]

theorem Known.mono {h : Handle} (hknown : m.Known issue h) (henriches : Enriches m m')
    (hstack : m'.stack.nodes = m.stack.nodes) : m'.Known issue h :=
  ⟨hknown.1, hknown.2.mono henriches hstack⟩

theorem Enriches.discreet (h : Enriches m m') (hm : m.Discreet) : m'.Discreet := by
  refine ⟨fun id c' f hc' hf => ?_, fun id s' spec f hs' hstatic hspec hf => ?_⟩
  · cases hc : m.cells.get? id with
    | none =>
      obtain ⟨-, d, c, hd, heq⟩ := h.copies id c' hc' hc
      exact hm.cells d c f hd (heq.symm.trans hf)
    | some c =>
      obtain ⟨c₁, hc₁, hext⟩ := h.cells id c hc
      cases hc'.symm.trans hc₁
      exact hm.cells id c f hc (hext.formula.symm.trans hf)
  · cases hs : m.spaces.get? id with
    | none =>
      rw [h.replicas id s' hs' hs] at hstatic
      contradiction
    | some s =>
      obtain ⟨s₁, hs₁, hext⟩ := h.spaces id s hs
      cases hs'.symm.trans hs₁
      refine hm.binders id s spec f hs (hext.isStatic.symm.trans hstatic) ?_ hf
      rw [← hspec, hext.same]

/-! ## Models whose handles can be trusted -/

/-- Every record holds handles as they were issued, and no formula has others. -/
structure Trusted (issue : SpaceId → List SpaceId) (m : Model) : Prop where
  running : m.Running
  issuing : m.Issuing issue
  stocked : m.Stocked issue
  discreet : m.Discreet

/-- What an evaluation records is backed by what it records besides. -/
structure Vouched (issue : SpaceId → List SpaceId) (m m' : Model) : Prop where
  enriches : Enriches m m'
  stocked : m'.Stocked issue
  edges : ∀ a b, m'.graph.hasEdge a b = true →
    m.graph.hasEdge a b = true ∨ m'.BacksRead issue a b

theorem Vouched.refl (hm : m.Stocked issue) : Vouched issue m m :=
  ⟨.refl m, hm, fun _ _ h => .inl h⟩

theorem Vouched.trans (h : Vouched issue m m₁) (h' : Vouched issue m₁ m') : Vouched issue m m' := by
  refine ⟨h.enriches.trans h'.enriches, h'.stocked, fun a b hab => ?_⟩
  rcases h'.edges a b hab with hab | hbacked
  · exact (h.edges a b hab).imp_right fun hbacked =>
      hbacked.mono h'.enriches.carries fun b => h'.enriches.edges a b
  · exact .inr hbacked

theorem Trusted.faithful (hm : m.Trusted issue) : m.Faithful fun _ => False :=
  hm.running.faithful hm.issuing.room

/-- Spaces keep their pins, so what is issued later was issued before. -/
theorem Issuing.before (h : m'.Issuing issue) (hm : m.Running) (hgrows : Grows m m') :
    m.Issuing issue := by
  have room := hgrows.fits.addressable h.room
  refine ⟨room, fun id s hs => ?_⟩
  obtain ⟨s', hs', -⟩ := hgrows.retains.spaces id s hs
  rw [← h.pins id s' hs', (hm.faithful room).pinsOf_retained hgrows.retains hs]

theorem Vouched.trusted (h : Vouched issue m m') (hm : m.Trusted issue) (hrunning : m'.Running)
    (hissuing : m'.Issuing issue) : m'.Trusted issue :=
  ⟨hrunning, hissuing, h.stocked, h.enriches.discreet hm.discreet⟩

/-- As long as handles are issued as told, all that the action records is vouched for, and a result
meets `post`. -/
def Leads {α : Type} (issue : SpaceId → List SpaceId) (x : Action α) (m : Model)
    (post : α → Model → Prop) : Prop :=
  ∀ r m', x m = some (r, m') → m'.Issuing issue →
    Vouched issue m m' ∧ ∀ a, r = .ok a → post a m'

section Combining

variable {α β : Type} {x : Action α} {f : α → Action β} {post : α → Model → Prop}
  {post' : β → Model → Prop}

/-- Look-ups and results change nothing. -/
theorem leads_stay (hm : m.Trusted issue) (hx : ∀ r m', x m = some (r, m') →
    m' = m ∧ ∀ a, r = .ok a → post a m) : Leads issue x m post := by
  intro r m' h _
  obtain ⟨rfl, hend⟩ := hx r m' h
  exact ⟨.refl hm.stocked, hend⟩

theorem leads_pure (hm : m.Trusted issue) {a : α} (h : post a m) :
    Leads issue (pure a) m post := by
  refine leads_stay hm fun r m' hx => ?_
  cases hx
  refine ⟨rfl, fun b hb => ?_⟩
  cases hb
  exact h

theorem leads_fail (hm : m.Trusted issue) {e : Failure} :
    Leads issue (fail e : Action α) m post := by
  refine leads_stay hm fun r m' hx => ?_
  cases hx
  exact ⟨rfl, fun _ h => nomatch h⟩

theorem leads_read (hm : m.Trusted issue) {g : Model → Except Failure α}
    (h : ∀ a, g m = .ok a → post a m) : Leads issue (read g) m post := by
  refine leads_stay hm fun r m' hx => ?_
  cases hx
  exact ⟨rfl, h⟩

theorem leads_ofExcept (hm : m.Trusted issue) {q : Except Failure α}
    (h : ∀ a, q = .ok a → post a m) : Leads issue (ofExcept q) m post :=
  leads_read (g := fun _ => q) hm h

/-- A caught failure is a result, of which nothing else is known. -/
theorem Leads.attempt (h : Leads issue x m post) :
    Leads issue (attempt x) m fun q m' => ∀ a, q = .ok a → post a m' := by
  intro r m' hx hissuing
  obtain ⟨q, hq, rfl⟩ := (attempt_eq_some m).1 hx
  obtain ⟨hvouched, hend⟩ := h q m' hq hissuing
  refine ⟨hvouched, fun q' hq' => ?_⟩
  cases hq'
  exact hend

/-- One action after the other. -/
theorem Leads.bind (hm : m.Trusted issue) (hx : Obeys (Under Running Adds) x)
    (hf : ∀ a m₁ r m', x m = some (.ok a, m₁) → f a m₁ = some (r, m') → Under Running Adds m₁ m')
    (first : Leads issue x m post)
    (next : ∀ a m₁, m₁.Trusted issue → Vouched issue m m₁ →
      m₁.stack.nodes = m.stack.nodes → post a m₁ → Leads issue (f a) m₁ post') :
    Leads issue (x >>= f) m post' := by
  intro r m' h hissuing
  rcases (bind_eq_some m).1 h with ⟨a, m₁, hfirst, hrest⟩ | ⟨e, hfirst, rfl⟩
  · obtain ⟨hrunning, hadds⟩ := hx m _ m₁ hfirst hm.running
    have hissuing₁ := hissuing.before hrunning (hf a m₁ r m' hfirst hrest hrunning).2.grows
    obtain ⟨hvouched, hpost⟩ := first _ m₁ hfirst hissuing₁
    obtain ⟨hvouched', hend⟩ := next a m₁ (hvouched.trusted hm hrunning hissuing₁) hvouched
      hadds.grows.retains.stack (hpost a rfl) r m' hrest hissuing
    exact ⟨hvouched.trans hvouched', hend⟩
  · obtain ⟨hvouched, -⟩ := first _ m' hfirst hissuing
    exact ⟨hvouched, fun _ h => nomatch h⟩

/-- A look-up comes first. -/
theorem leads_read_bind (hm : m.Trusted issue) {g : Model → Except Failure α}
    (h : ∀ a, g m = .ok a → Leads issue (f a) m post') :
    Leads issue (read g >>= f) m post' := by
  intro r m' hx hissuing
  rw [read_bind] at hx
  split at hx
  next a ha => exact h a ha r m' hx hissuing
  next =>
    cases hx
    exact ⟨.refl hm.stocked, fun _ h => nomatch h⟩

end Combining

end Model

end Recalc
