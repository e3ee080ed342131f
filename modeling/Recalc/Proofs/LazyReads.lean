import Recalc.Proofs.Answering
import Recalc.Proofs.LazyChildren

set_option autoImplicit false

/-!
# Reading names past children made on demand

To read a name comes to the same whatever children were made before: to the same value or failure,
or to the same space. The space is made by the read if it is not there. When the space that was read
is called then both calls run one binder, or they come to the instances of the same space for one
key. Where the name means cells, the reads call the same cells, and what an earlier read of them
gave is given again. A way that breaks off in the counterpart is the exception: the first read fails
halfway, and what it made on the way leads the second one elsewhere.
-/

namespace Recalc.Model

open Recalc.Action

variable {m m' : Model} {id : SpaceId} {s : Space}

/-! ## Handles to what is pending -/

theorem total_ensureChild (parent : SpaceId) (name : String) : Total (ensureChild parent name) := by
  unfold ensureChild
  refine Total.bind (total_read _) fun s => ?_
  split
  · exact total_pure _
  · refine Total.bind (fun m => ⟨.ok m, m, rfl⟩) fun m => ?_
    dsimp only
    split
    · exact total_fail _
    · refine Total.bind (total_read _) fun source => ?_
      split
      · exact total_fail _
      · exact fun m => ⟨_, _, rfl⟩

theorem total_ensurePath (path : List String) (id : SpaceId) : Total (ensurePath path id) := by
  induction path generalizing id with
  | nil => exact total_pure id
  | cons name rest ih => exact (total_ensureChild id name).bind ih

theorem total_handleValue (place : Place) : Total (handleValue place) := by
  refine Total.bind ?_ fun id => (total_read _).bind fun _ => total_pure _
  cases place with
  | existing id => exact (total_read _).bind fun _ => total_pure id
  | pending start path => exact total_ensurePath path start

theorem Running.handleValue_embodies {place : Place} {name : String} {c : SpaceId}
    {r : Except Failure Value} {m₁ : Model} (hm : m.Running) (hpromises : m.Promises name c place)
    (h : handleValue place m = some (r, m₁)) (room : m₁.Addressable) :
    ∃ a, r = .ok (.space a) ∧ m₁.Embodies name c a.id := by
  rcases (bind_eq_some m).1 h with ⟨y, m₂, hplace, hvalue⟩ | ⟨e, hplace, rfl⟩
  · rw [read_bind] at hvalue
    obtain rfl : m₁ = m₂ := by split at hvalue <;> cases hvalue <;> rfl
    obtain ⟨_, heq, hembodies⟩ := hm.makes_place hpromises hplace room
    cases heq
    obtain ⟨t, ht⟩ := Pool.contains_iff.1 hembodies.1
    rw [handleTo_eq_ok.2 ⟨t, ht, rfl⟩] at hvalue
    cases hvalue
    exact ⟨_, rfl, hembodies⟩
  · obtain ⟨y, heq, -⟩ := hm.makes_place hpromises hplace room
    contradiction

theorem handleValue_of_gone (hnone : m.spaces.get? id = none) :
    handleValue (.existing id) m = some (.error (gone "space" id), m) := by
  refine (bind_eq_some m).2 (.inr ⟨_, ?_, rfl⟩)
  rw [ensurePlace_existing, Model.space, hnone]
  rfl

/-- Handles to one place are handles to one space. -/
theorem SamePlace.handleValue {p p' : Place} {m₁ m₁' : Model} (h : SamePlace m m' p p')
    (hm : m.Running) (hm' : m'.Running) {r r' : Except Failure Value}
    (hr : handleValue p m = some (r, m₁)) (hr' : Model.handleValue p' m' = some (r', m₁'))
    (room : m₁.Addressable) (room' : m₁'.Addressable) : Concur (SameValue m₁ m₁') r r' := by
  cases h with
  | promised name c hpromises hpromises' =>
    obtain ⟨a, rfl, ha⟩ := hm.handleValue_embodies hpromises hr room
    obtain ⟨b, rfl, hb⟩ := hm'.handleValue_embodies hpromises' hr' room'
    exact .ok (.space (.promised name c ha hb))
  | gone hnone hnone' =>
    cases (handleValue_of_gone hnone).symm.trans hr
    cases (handleValue_of_gone hnone').symm.trans hr'
    exact .error _

section Noting

variable {n : Node} (hm : m.Running) (hm' : m'.Running) (room : m.Addressable)
  (room' : m'.Addressable) (hn : m.isLive n = true) (hn' : m'.isLive n = true)
include hm hm' room room' hn hn'

theorem SamePlace.noted {p p' : Place} (h : SamePlace m m' p p') :
    SamePlace (noteRead n m) (noteRead n m') p p' := by
  have hnoted : ∀ {m : Model} {p : Place} {name : String} {c : SpaceId}, m.Running →
      m.Addressable → m.isLive n = true → m.Promises name c p →
        (noteRead n m).Promises name c p := by
    intro m p name c hm room hn hpromises
    obtain ⟨hrunning, hadds⟩ := evaluationFrame_adds.note m n hn hm
    have hroom : (noteRead n m).Addressable := (alike_noteRead m n).addressable.2 room
    exact (hadds.enriches hroom).promises (hm.faithful room) (hrunning.faithful hroom) hpromises
  cases h with
  | promised name c hpromises hpromises' =>
    exact .promised name c (hnoted hm room hn hpromises) (hnoted hm' room' hn' hpromises')
  | gone hnone hnone' =>
    refine .gone ?_ ?_
    · rwa [(pools_noteRead n m).2.2]
    · rwa [(pools_noteRead n m').2.2]

theorem SameValue.noted {v v' : Value} (h : SameValue m m' v v') :
    SameValue (noteRead n m) (noteRead n m') v v' := by
  cases h with
  | other hv => exact .other hv
  | space hplace => exact .space (hplace.noted hm hm' room room' hn hn')

end Noting

/-! ## Calls of spaces -/

def IsItemOf (m : Model) (name : String) (key : Key) (id : SpaceId) : Prop :=
  ∃ s owner c args around, m.spaces.get? id = some s ∧ s.kind = .item owner c args around ∧
    (args == key) = true ∧ m.dottedName owner = name

inductive SameItem (m m' : Model) : Value → Value → Prop
  | mk {a b : Handle} (name : String) (key : Key) : m.IsItemOf name key a.id →
      m'.IsItemOf name key b.id → SameItem m m' (.space a) (.space b)

/-- Calling what was read runs the same binder, or ends alike. -/
def CallsAlike (run : RunFormula) (name : String) (a : Arguments) (m m' : Model) (v v' : Value) :
    Prop :=
  (∃ h h' spec binder, v = .space h ∧ v' = .space h' ∧ m.signature h.id = .ok spec ∧
    m'.signature h'.id = .ok spec ∧ spec.binder = some binder) ∨
  ∃ r m₁ r' m₁', applyCall run name (some a) v m = some (r, m₁) ∧
    applyCall run name (some a) v' m' = some (r', m₁') ∧
      (m₁.Addressable → m₁'.Addressable → Concur (SameItem m₁ m₁') r r')

section Items

variable {key : Key} {run : RunFormula} {name : String} {a : Arguments} {h : Handle}

theorem ensureItem_of_counterpart {c : SpaceId} (key : Key) (hs : m.spaces.get? id = some s)
    (hc : m.counterpart id = .ok c) :
    (∃ item, s.instances.get? key = some item ∧ m.spaces.contains item = true ∧
      ensureItem id key m =
        some ((noteRead (.item id key) m).handleTo item, noteRead (.item id key) m)) ∨
    ∃ item m₁, m.addReplica (m.itemRecord s id c key) c = (item, m₁) ∧
      ensureItem id key m = some ((noteRead (.item id key) (m₁.listItem id key item)).handleTo item,
        noteRead (.item id key) (m₁.listItem id key item)) := by
  unfold ensureItem
  rw [read_bind, space_eq_ok.2 hs]
  simp only [get_bind]
  cases hfound : (s.instances.get? key).filter m.spaces.contains with
  | some item =>
    obtain ⟨hlisted, hlive⟩ := Option.filter_eq_some_iff.1 hfound
    exact .inl ⟨item, hlisted, hlive, rfl⟩
  | none =>
    refine .inr ⟨_, _, rfl, ?_⟩
    simp only [makeItem, read_bind, bind_assoc, hc, space_eq_ok.2 hs]
    rfl

/-- What a space gives for a key is its instance for the key. -/
theorem Running.gives_item (hm : m.Running) (hs : m.spaces.get? id = some s)
    (hfits : m.KeyFits id key) : ∃ r m₁, ensureItem id key m = some (r, m₁) ∧
      (m₁.Addressable → ∃ b, r = .ok b ∧ m₁.IsItemOf (m.dottedName id) key b.id) := by
  obtain ⟨c, hc⟩ := exists_counterpart hs
  rcases ensureItem_of_counterpart key hs hc with ⟨item, hlisted, hlive, hend⟩ |
      ⟨item, m₁, hadd, hend⟩
  all_goals
    refine ⟨_, _, hend, fun room => ?_⟩
    have hf := hm.faithful ((fits_ensureItem hend).addressable room)
    have hf' := (evaluationFrame_adds.item id key m _ _ hfits hend hm).1.faithful room
    have hname := (enriches_ensureItem hm hfits hend room).dottedName hf hf' hs
  · obtain ⟨t, d, args, around, ht, hk, hargs⟩ := hf.owned.item_of_listed hs hlisted
    have ht' : (noteRead (.item id key) m).spaces.get? item = some t := by
      rwa [(pools_noteRead _ m).2.2]
    exact ⟨_, handleTo_eq_ok.2 ⟨t, ht', rfl⟩, t, id, d, args, around, ht', hk,
      hargs, hname⟩
  · have room₁ : m₁.Addressable := (addressable_modifySpace id _).1
      ((alike_noteRead (m₁.listItem id key item) _).addressable.1 room)
    obtain ⟨source, hsource, -⟩ := hf.counterpart hs hc
    obtain ⟨t, hnew⟩ := unlisted_addReplica hf.owned hadd room₁ hsource
      (lists_of_empty rfl rfl rfl rfl) rfl
    have hself : m₁.spaces.get? item = some t := (hnew.spaces item).trans (if_pos rfl)
    have hother : id ≠ item := by
      rintro rfl
      cases hnew.fresh.symm.trans hs
    have ht' : (noteRead (.item id key) (m₁.listItem id key item)).spaces.get? item = some t := by
      rw [(pools_noteRead _ _).2.2]
      refine (get?_modifySpace (hnew.old hs) _ item).trans ?_
      rw [if_neg hother, hself]
    exact ⟨_, handleTo_eq_ok.2 ⟨t, ht', rfl⟩, t, id, c, key, m.pinsOf id, ht',
      hnew.kind, BEq.rfl, hname⟩

theorem applyCall_of_unknown {e : Failure} (hspec : m.signature h.id = .error e) :
    applyCall run name (some a) (.space h) m = some (.error e, m) := by
  simp only [applyCall, instantiate, itemKey, bind_assoc, read_bind, hspec]

theorem applyCall_of_unbound {spec : Signature} (hspec : m.signature h.id = .ok spec)
    (hbinder : spec.binder = none) : applyCall run name (some a) (.space h) m =
      (ofExcept (matchArguments spec.params a (m.dottedName h.id) >>= Key.ofValues) >>= fun key =>
        Value.space <$> ensureItem h.id key) m := by
  simp only [applyCall, instantiate, itemKey, bind_assoc, read_bind, hspec, hbinder]
  cases matchArguments spec.params a (m.dottedName h.id) with
  | error e => rfl
  | ok bound =>
    rw [except_ok_bind]
    simp only [map_eq_pure_bind]

/-- A space has the parameters of its counterpart, from the model in which nothing was made. -/
theorem Enriches.signature_embodied {sites : SpaceId → Prop} (h : Enriches m m')
    (hm' : m'.Faithful sites) {c : SpaceId} (hembodies : m'.Embodies name c id) :
    m'.signature id = match (m.spaces.get? c).bind (·.signature) with
      | some spec => .ok spec
      | none => .error (.invalidArguments name "space does not declare parameters") := by
  obtain ⟨hlive, hc, rfl⟩ := hembodies
  obtain ⟨t, ht⟩ := Pool.contains_iff.1 hlive
  obtain ⟨source', hsource', hstatic⟩ := hm'.counterpart ht hc
  cases hsource : m.spaces.get? c with
  | none =>
    rw [h.replicas c source' hsource' hsource] at hstatic
    contradiction
  | some source =>
    obtain ⟨u, hu, hext⟩ := h.spaces c source hsource
    cases hsource'.symm.trans hu
    unfold signature
    rw [hc, except_ok_bind, space_eq_ok.2 hsource', except_ok_bind, hext.signature,
      Option.bind_some]
    cases source.signature <;> rfl

theorem signature_of_gone (hnone : m.spaces.get? id = none) :
    m.signature id = .error (gone "space" id) := by
  simp only [signature, counterpart, Model.space, hnone, bind, Except.bind]

theorem SamePlace.of_existing {x y : SpaceId} (h : SamePlace m m' (.existing x) (.existing y)) :
    (∃ name c, m.Embodies name c x ∧ m'.Embodies name c y) ∨
      x = y ∧ m.spaces.get? x = none ∧ m'.spaces.get? y = none := by
  cases h with
  | promised name c hembodies hembodies' => exact .inl ⟨name, c, hembodies, hembodies'⟩
  | gone hnone hnone' => exact .inr ⟨rfl, hnone, hnone'⟩

theorem SameValue.callsAlike {m₀ : Model} {v v' : Value} (hsame : SameValue m m' v v')
    (h : Enriches m₀ m) (h' : Enriches m₀ m') (hm : m.Running) (hm' : m'.Running)
    (room : m.Addressable) (room' : m'.Addressable) : CallsAlike run name a m m' v v' := by
  cases hsame with
  | @other v hother =>
    refine .inr ⟨_, m, _, m', ?_, ?_, fun _ _ => .error (.invalidArguments name "not callable")⟩
    all_goals
      cases v with
      | space b => exact absurd rfl (hother b)
      | _ => rfl
  | @space b b' hplace =>
    rcases hplace.of_existing with ⟨owner, c, hembodies, hembodies'⟩ | ⟨heq, hnone, hnone'⟩
    · have hspec := h.signature_embodied (hm.faithful room) hembodies
      have hspec' := h'.signature_embodied (hm'.faithful room') hembodies'
      obtain ⟨hlive, -, hname⟩ := hembodies
      obtain ⟨hlive', -, hname'⟩ := hembodies'
      obtain ⟨t, ht⟩ := Pool.contains_iff.1 hlive
      obtain ⟨t', ht'⟩ := Pool.contains_iff.1 hlive'
      cases hsource : (m₀.spaces.get? c).bind (·.signature) with
      | none =>
        rw [hsource] at hspec hspec'
        exact .inr ⟨_, m, _, m', applyCall_of_unknown hspec, applyCall_of_unknown hspec',
          fun _ _ => .error _⟩
      | some spec =>
        rw [hsource] at hspec hspec'
        cases hbinder : spec.binder with
        | some binder => exact .inl ⟨b, b', spec, binder, rfl, rfl, hspec, hspec', hbinder⟩
        | none =>
          refine .inr ?_
          rw [applyCall_of_unbound hspec hbinder, applyCall_of_unbound hspec' hbinder, hname,
            hname']
          cases hkey : matchArguments spec.params a owner >>= Key.ofValues with
          | error e => exact ⟨_, m, _, m', rfl, rfl, fun _ _ => .error e⟩
          | ok key =>
            have hlength : key.values.length = spec.params.length := by
              obtain ⟨bound, hbound, hvalues⟩ := except_bind_eq_ok.1 hkey
              rw [Key.length_ofValues hvalues, length_matchArguments hbound]
            obtain ⟨r, m₁, hend, hitem⟩ := hm.gives_item ht ⟨spec, hspec, hlength⟩
            obtain ⟨r', m₁', hend', hitem'⟩ := hm'.gives_item ht' ⟨spec, hspec', hlength⟩
            have hmap : ∀ {m m₁ : Model} {x : Action Handle} {r : Except Failure Handle},
                x m = some (r, m₁) → (Value.space <$> x) m = some (r.map Value.space, m₁) := by
              intro m m₁ x r hx
              rw [map_eq_pure_bind, bind_apply, hx]
              cases r <;> rfl
            refine ⟨_, m₁, _, m₁', hmap hend, hmap hend', fun room₁ room₁' => ?_⟩
            obtain ⟨i, rfl, hi⟩ := hitem room₁
            obtain ⟨i', rfl, hi'⟩ := hitem' room₁'
            rw [hname] at hi
            rw [hname'] at hi'
            exact .ok (.mk owner key hi hi')
    · rw [← heq] at hnone'
      refine .inr ⟨_, m, _, m', applyCall_of_unknown (signature_of_gone hnone),
        applyCall_of_unknown ?_, fun _ _ => .error _⟩
      rw [← heq, signature_of_gone hnone']

end Items

/-! ## Reads -/

/-- What a model becomes when children of replicas are made and names are read. -/
inductive Made (m : Model) : Model → Prop
  | refl : Made m m
  | child {m₁ m₂ : Model} {parent : SpaceId} {name : String} {r : Except Failure SpaceId} :
      Made m m₁ → ensureChild parent name m₁ = some (r, m₂) → Made m m₂
  | read {m₁ m₂ : Model} {fuel : Nat} {id : SpaceId} {name : String} {call : Option Arguments}
      {r : Except Failure Value} :
      Made m m₁ → readName (runFormula fuel) id name call m₁ = some (r, m₂) → Made m m₂

theorem Made.adds (h : Made m m') (hm : m.Running) : m'.Running ∧ Adds m m' := by
  induction h with
  | refl => exact ⟨hm, Frame.refl m⟩
  | @child m₁ m₂ parent name r _ hchild ih =>
    obtain ⟨hm₁, hadds⟩ := ih
    obtain ⟨hm₂, hmore⟩ := evaluationFrame_adds.child parent name m₁ r m₂ hchild hm₁
    exact ⟨hm₂, Frame.trans hadds hmore⟩
  | @read m₁ m₂ fuel id name call r _ hread ih =>
    obtain ⟨hm₁, hadds⟩ := ih
    obtain ⟨hm₂, hmore⟩ :=
      evaluationFrame_adds.readName (runs_adds fuel) id name call m₁ r m₂ hread hm₁
    exact ⟨hm₂, Frame.trans hadds hmore⟩

/-- To read the name ends in both models, with the same failure or with values that are the same
when they are read and when they are called. -/
structure EndsAlike (run : RunFormula) (m m' : Model) (id : SpaceId) (name : String) : Prop where
  reads : ∃ r m₁ r' m₁', readName run id name none m = some (r, m₁) ∧
    readName run id name none m' = some (r', m₁') ∧ (m₁.Addressable → m₁'.Addressable →
      Concur (fun v v' => SameValue m₁ m₁' v v' ∧ ∀ a, CallsAlike run name a m₁ m₁' v v') r r')
  calls : ∀ a, readName run id name (some a) m =
      (readName run id name none >>= applyCall run name (some a)) m ∧
    readName run id name (some a) m' =
      (readName run id name none >>= applyCall run name (some a)) m'

/-- The same cells are called with the same keys, and what a read of them gave is given again when
the other model was made after it. -/
structure CallsCells (m m' : Model) (id : SpaceId) (name : String) (c : CellId) : Prop where
  means : m.meaning id name = .ok (.cells c)
  means' : m'.meaning id name = .ok (.cells c)
  binds : ∀ a, m'.bindCells c a = m.bindCells c a
  repeats : ∀ fuel call v m₁, readName (runFormula fuel) id name call m = some (.ok v, m₁) →
    Made m₁ m' → ∀ run, ∃ m₂, readName run id name call m' = some (.ok v, m₂) ∧ m₂.runs = m'.runs

/-- Reading a name in two models is to call the same cells, or it ends alike. -/
inductive ReadsAlike (m m' : Model) (id : SpaceId) (name : String) : Prop
  | cells (c : CellId) : CallsCells m m' id name c → ReadsAlike m m' id name
  | ends : (∀ run, EndsAlike run m m' id name) → ReadsAlike m m' id name

section Reading

variable {name : String} {run : RunFormula} {call : Option Arguments}

theorem readName_of_cells {c : CellId} (h : m.meaning id name = .ok (.cells c)) :
    readName run id name call m = evaluate run c (call.getD {}) m := by
  unfold readName
  rw [read_bind, h]

theorem readName_of_space {p : Place} (h : m.meaning id name = .ok (.space p)) :
    readName run id name call m = (handleValue p >>= applyCall run name call) m := by
  unfold readName
  rw [read_bind, h]

theorem readName_of_error {e : Failure} (h : m.meaning id name = .error e) :
    readName run id name call m = some (.error e, m) := by
  unfold readName
  rw [read_bind, h]

theorem readName_of_value {r : RefId} {v : Value}
    (h : m.meaning id name = .ok (.ref r (.value v))) :
    readName run id name call m = applyCall run name call v (noteRead (.ref r) m) := by
  unfold readName
  rw [read_bind, h]
  rfl

theorem readName_of_target {r : RefId} {p : Place}
    (h : m.meaning id name = .ok (.ref r (.space p))) : readName run id name call m =
      (handleValue p >>= applyCall run name call) (noteRead (.ref r) m) := by
  unfold readName
  rw [read_bind, h]
  rfl

theorem readName_of_param {v : Value} (h : m.meaning id name = .ok (.param v)) :
    readName run id name call m = applyCall run name call v m := by
  unfold readName
  rw [read_bind, h]

theorem readName_of_model (h : m.meaning id name = .ok .model) :
    readName run id name call m = applyCall run name call (.text m.name) m := by
  unfold readName
  rw [read_bind, h]
  rfl

theorem handleValue_read (p : Place) :
    (handleValue p >>= applyCall run name none) = handleValue p := bind_pure _

/-- To call what a name means that is no cells is to read the name first. -/
theorem readName_call (a : Arguments) (hcells : ∀ c, m.meaning id name ≠ .ok (.cells c)) :
    readName run id name (some a) m =
      (readName run id name none >>= applyCall run name (some a)) m := by
  rw [bind_apply]
  cases hfound : m.meaning id name with
  | error e => rw [readName_of_error hfound, readName_of_error hfound]
  | ok found =>
    cases found with
    | cells c => exact absurd hfound (hcells c)
    | space p =>
      rw [readName_of_space hfound, readName_of_space hfound, handleValue_read]
      exact bind_apply _ _ m
    | ref r target =>
      cases target with
      | value v =>
        rw [readName_of_value hfound, readName_of_value hfound]
        rfl
      | space p =>
        rw [readName_of_target hfound, readName_of_target hfound, handleValue_read]
        exact bind_apply _ _ _
    | param v =>
      rw [readName_of_param hfound, readName_of_param hfound]
      rfl
    | model =>
      rw [readName_of_model hfound, readName_of_model hfound]
      rfl

theorem Enriches.bindCells {sites : SpaceId → Prop} (h : Enriches m m') (hm : m.Faithful sites)
    (hm' : m'.Faithful sites) {c : CellId} {cells : Cells} (hc : m.cells.get? c = some cells)
    (a : Arguments) : m'.bindCells c a = m.bindCells c a := by
  obtain ⟨cells', hc', hext⟩ := h.cells c cells hc
  obtain ⟨q, hq, -⟩ := hm.owned.holder (home?_cells hc) rfl
  have hname : cells'.name = cells.name := (Cells.mk.inj hext.bare).1
  have hlabel : m'.cellsName c = m.cellsName c := by
    simp only [cellsName, hc, hc', hext.space, hname, h.dottedName hm hm' hq]
  unfold Model.bindCells
  rw [cell_eq_ok.2 hc, cell_eq_ok.2 hc', except_ok_bind, except_ok_bind, hext.formula, hlabel]

theorem endsAlike_of_reads {found found' : Except Failure Meaning} {r r' : Except Failure Value}
    {m₁ m₁' : Model} (hfound : m.meaning id name = found) (hfound' : m'.meaning id name = found')
    (hcells : ∀ c, found ≠ .ok (.cells c)) (hcells' : ∀ c, found' ≠ .ok (.cells c))
    (hr : readName run id name none m = some (r, m₁))
    (hr' : readName run id name none m' = some (r', m₁')) (h : Under Running Adds m m₁)
    (h' : Under Running Adds m' m₁') (hm : m.Running) (hm' : m'.Running) (hadds : Adds m m')
    (hsame : m₁.Addressable → m₁'.Addressable → Concur (SameValue m₁ m₁') r r') :
    EndsAlike run m m' id name where
  reads := by
    refine ⟨r, m₁, r', m₁', hr, hr', fun room room' => ?_⟩
    cases hsame room room' with
    | error e => exact .error e
    | ok hvalue =>
      have henriches' := (Frame.trans hadds (h' hm').2).enriches room'
      exact .ok ⟨hvalue, fun a => hvalue.callsAlike ((h hm).2.enriches room) henriches' (h hm).1
        (h' hm').1 room room'⟩
  calls a := by
    subst hfound hfound'
    exact ⟨readName_call a hcells, readName_call a hcells'⟩

/-- What a read of cells gave is stored, and stays stored when more is made. -/
theorem repeats_of_cells {c : CellId} {fuel : Nat} {v : Value} {m₁ : Model}
    (hm : m.Running) (room : m'.Addressable) (hmeans : m.meaning id name = .ok (.cells c))
    (hmeans' : m'.meaning id name = .ok (.cells c))
    (hbinds : m'.bindCells c (call.getD {}) = m.bindCells c (call.getD {}))
    (hread : readName (runFormula fuel) id name call m = some (.ok v, m₁)) (hmade : Made m₁ m') :
    ∃ m₂, readName run id name call m' = some (.ok v, m₂) ∧ m₂.runs = m'.runs := by
  obtain ⟨hm₁, -⟩ :=
    evaluationFrame_adds.readName (runs_adds fuel) id name call m _ m₁ hread hm
  have henriches := (hmade.adds hm₁).2.enriches room
  rw [readName_of_cells hmeans] at hread
  obtain ⟨-, key, -, hkey, hevaluated⟩ := exists_key_of_evaluate hread
  obtain ⟨d, hd, hv⟩ := stored_of_evaluateKey hevaluated
  obtain ⟨d', hd', hext⟩ := henriches.cells c d hd
  refine ⟨noteRead (.cells c key) m', ?_, ?_⟩
  · rw [readName_of_cells hmeans']
    exact evaluate_of_stored (hbinds.trans hkey) hd' (hext.get? hv)
  · unfold noteRead
    split <;> rfl

end Reading

/-- Whatever was made and evaluated in between, reading a name comes to the same. -/
theorem Adds.reads {name : String} (hadds : Adds m m') (hm : m.Running) (hm' : m'.Running)
    (room : m'.Addressable)
    (hold : ∀ x, m.Mentions x → m.spaces.get? x = none → m'.spaces.get? x = none)
    (hs : m.spaces.get? id = some s)
    (hwhole : ∀ found, m.meaning id name = .ok found → m.WholeMeaning found) :
    ReadsAlike m m' id name := by
  have h := hadds.enriches room
  have room₀ : m.Addressable := hadds.grows.fits.addressable room
  have hf := hm.faithful room₀
  have hf' := hm'.faithful room
  have hconcur := h.meaning_concur hf hf' hold name hs hwhole
  have hplace := evaluationFrame_adds.handleValue
  have hnote := evaluationFrame_adds.note
  have hrefs : ∀ q, (∃ target, m.meaning id name = .ok (.ref q target)) →
      m.isLive (.ref q) = true ∧ m'.isLive (.ref q) = true := by
    rintro q ⟨target, hmeans⟩
    obtain ⟨r, hr⟩ := refs_of_meaning hmeans
    exact ⟨isLive_ref_of_meaning hr,
      isLive_ref_of_meaning ((congrArg (·.get? q) h.refs).trans hr)⟩
  generalize hfound : m.meaning id name = found, hfound' : m'.meaning id name = found' at hconcur
  cases hconcur with
  | error e =>
    exact .ends fun run => endsAlike_of_reads hfound hfound' nofun nofun
      (readName_of_error hfound) (readName_of_error hfound') (Frame.refl m) (Frame.refl m') hm hm'
      hadds fun _ _ => .error e
  | ok hsame =>
    cases hsame with
    | @cells c hlive =>
      obtain ⟨d, hd⟩ := Pool.contains_iff.1 hlive
      have hbinds := h.bindCells hf hf' hd
      exact .cells c ⟨hfound, hfound', hbinds, fun fuel call v m₁ hread hmade run =>
        repeats_of_cells hm room hfound hfound' (hbinds _) hread hmade⟩
    | @space p p' hsame =>
      obtain ⟨r, m₁, hr⟩ := total_handleValue p m
      obtain ⟨r', m₁', hr'⟩ := total_handleValue p' m'
      refine .ends fun run => endsAlike_of_reads hfound hfound' nofun nofun ?_ ?_
        (hplace p m r m₁ hr) (hplace p' m' r' m₁' hr') hm hm' hadds
        (hsame.handleValue hm hm' hr hr')
      · rw [readName_of_space hfound, handleValue_read, hr]
      · rw [readName_of_space hfound', handleValue_read, hr']
    | @value q v hsame =>
      obtain ⟨hlive, hlive'⟩ := hrefs q ⟨_, hfound⟩
      exact .ends fun run => endsAlike_of_reads hfound hfound' nofun nofun
        (readName_of_value hfound) (readName_of_value hfound') (hnote m _ hlive)
        (hnote m' _ hlive') hm hm' hadds fun _ _ => .ok (hsame.noted hm hm' room₀ room hlive hlive')
    | @target q p p' hsame =>
      obtain ⟨hlive, hlive'⟩ := hrefs q ⟨_, hfound⟩
      obtain ⟨r, m₁, hr⟩ := total_handleValue p (noteRead (.ref q) m)
      obtain ⟨r', m₁', hr'⟩ := total_handleValue p' (noteRead (.ref q) m')
      have hnoted := hnote m _ hlive
      have hnoted' := hnote m' _ hlive'
      refine .ends fun run => endsAlike_of_reads hfound hfound' nofun nofun ?_ ?_
        (Frame.trans hnoted (hplace p _ r m₁ hr)) (Frame.trans hnoted' (hplace p' _ r' m₁' hr')) hm
        hm' hadds ((hsame.noted hm hm' room₀ room hlive hlive').handleValue (hnoted hm).1
          (hnoted' hm').1 hr hr')
      · rw [readName_of_target hfound, handleValue_read, hr]
      · rw [readName_of_target hfound', handleValue_read, hr']
    | @param v hsame =>
      exact .ends fun run => endsAlike_of_reads hfound hfound' nofun nofun
        (readName_of_param hfound) (readName_of_param hfound') (Frame.refl m) (Frame.refl m') hm hm'
        hadds fun _ _ => .ok hsame
    | model =>
      refine .ends fun run => endsAlike_of_reads hfound hfound' nofun nofun
        (readName_of_model hfound) (readName_of_model hfound') (Frame.refl m) (Frame.refl m') hm hm'
        hadds fun _ _ => .ok ?_
      rw [h.name]
      exact .other nofun

end Recalc.Model

namespace Recalc

open Recalc.Model

/-- The models in which names are read, between requests and while formulas run. -/
inductive Evaluating : Model → Prop
  | reached {m : Model} : Reachable m → Evaluating m
  | entered {m : Model} {id : CellId} {c : Cells} {key : Key} {stack : Stack} : Evaluating m →
      m.cells.get? id = some c → c.contents.get? key = none →
      m.stack.push? (.cells id key) = some stack → Evaluating { m with stack }
  | ran {m : Model} : Evaluating m → Evaluating { m with runs := m.runs + 1 }
  | made {m m' : Model} : Evaluating m → m.Made m' → Evaluating m'

theorem Evaluating.running {m : Model} (h : Evaluating m) : m.Running := by
  induction h with
  | reached h => exact h.running
  | entered _ hc hnone hpush ih => exact ih.pushed hpush hc hnone
  | ran _ ih => exact (evaluationFrame_adds.start _ ih).1
  | made _ hmade ih => exact (hmade.adds ih).1

/-- Whatever children were made before and whatever names were read, a name means the same in a
space, and to read it comes to the same, if no way of a reference breaks off where a child is still
to be made. What the model mentions is not only made on the way. -/
theorem Evaluating.readsAlike {m m' : Model} (h : Evaluating m) (hmade : m.Made m')
    (room : m'.Addressable)
    (hold : ∀ x, m.Mentions x → m.spaces.get? x = none → m'.spaces.get? x = none)
    {id : SpaceId} {s : Space} (hs : m.spaces.get? id = some s) {name : String}
    (hwhole : ∀ found, m.meaning id name = .ok found → m.WholeMeaning found) :
    Concur (Model.SameMeaning m m') (m.meaning id name) (m'.meaning id name) ∧
      Model.ReadsAlike m m' id name := by
  obtain ⟨hm', hadds⟩ := hmade.adds h.running
  have hfaithful := h.running.faithful (hadds.grows.fits.addressable room)
  exact ⟨(hadds.enriches room).meaning_concur hfaithful (hm'.faithful room) hold name hs hwhole,
    hadds.reads h.running hm' room hold hs hwhole⟩

/-- `R.B.r` is bound to `R.a.b` and inherited by `Q.C`. The way from `C` to `a` and `b` beside it is
there in `Q`. -/
def strollRequests : List Request :=
  [.createSpace none "R", .createSpace (some ⟨0, 0⟩) "B", .createSpace (some ⟨0, 0⟩) "a",
    .createSpace (some ⟨2, 0⟩) "b", .bindName ⟨1, 0⟩ "r" (.space { id := ⟨3, 0⟩ }) .auto,
    .createSpace none "Q", .createSpace (some ⟨4, 0⟩) "C", .createSpace (some ⟨4, 0⟩) "a",
    .createSpace (some ⟨6, 0⟩) "b", .linkBase ⟨5, 0⟩ ⟨1, 0⟩,
    .declareParams ⟨4, 0⟩ [{ name := "n" }] none,
    .selectInstance ⟨4, 0⟩ { positional := [.int 1] }, .childNamed ⟨8, 0⟩ "C"]

/-- Reading `r` in `Q[1].C` makes `Q[1].a` and `Q[1].a.b`, and to read it again comes to the
same. -/
theorem stroll_readsAlike : ∃ m v m',
    Request.runAll 9 [{ id := ⟨8, 0⟩, pins := [⟨8, 0⟩] }] strollRequests Shop.start = some m ∧
      readName (runFormula 9) ⟨9, 0⟩ "r" none m = some (.ok v, m') ∧ m'.Addressable ∧
      m'.spaces.population = m.spaces.population + 2 ∧
      Concur (Model.SameMeaning m m') (m.meaning ⟨9, 0⟩ "r") (m'.meaning ⟨9, 0⟩ "r") ∧
      Model.ReadsAlike m m' ⟨9, 0⟩ "r" := by
  have hrun : ((Request.runAll 9 [{ id := ⟨8, 0⟩, pins := [⟨8, 0⟩] }] strollRequests
      Shop.start).any fun m => (m.spaces.get? ⟨9, 0⟩).any fun _ =>
        (m.meaning ⟨9, 0⟩ "r").toOption.any fun found =>
        (readName (runFormula 9) ⟨9, 0⟩ "r" none m).any fun o => o.1.toOption.any fun _ =>
          decide (m.Addressable ∧ o.2.Addressable ∧
            o.2.spaces.population = m.spaces.population + 2 ∧ m.WholeMeaning found ∧
            (∀ e ∈ m.refs.entries, (∀ x ∈ e.2.origin, m.spaces.contains x = true) ∧
              ∀ a ∈ e.2.value.handles, m.spaces.contains a.id = true) ∧
            ∀ e ∈ m.spaces.entries, e.2.handles = [])) = true := by
    decide +kernel
  obtain ⟨m, hm, hrun⟩ := (Option.any_eq_true _ _).1 hrun
  obtain ⟨s, hs, hrun⟩ := (Option.any_eq_true _ _).1 hrun
  obtain ⟨found, hfound, hrun⟩ := (Option.any_eq_true _ _).1 hrun
  obtain ⟨⟨r, m'⟩, ho, hrun⟩ := (Option.any_eq_true _ _).1 hrun
  obtain ⟨v, hv, hfacts⟩ := (Option.any_eq_true _ _).1 hrun
  obtain ⟨room, room', hmore, hwhole, hrefs, hspaces⟩ := of_decide_eq_true hfacts
  rw [toOption_eq_some] at hfound hv
  obtain rfl : r = .ok v := hv
  have hreach : Reachable m := ⟨_, .new "doc" {}, Request.becomes_of_runAll strollRequests hm⟩
  refine ⟨m, v, m', hm, ho, room', hmore, Evaluating.readsAlike (.reached hreach)
    (.read .refl ho) room' (fun x hx hnone => ?_) hs fun other hother => ?_⟩
  · -- what the model mentions is there
    have hlive : m.spaces.contains x = true := by
      cases hx with
      | @ref q r a hr ha =>
        refine (hrefs (q, r) ((Pool.mem_entries room.3).2 hr)).2 a ?_
        rw [ha]
        exact List.mem_cons_self
      | @origin q r x hr hx => exact (hrefs (q, r) ((Pool.mem_entries room.3).2 hr)).1 x hx
      | @argument y owner c t args around a ht hk ha =>
        have hnone := hspaces (y, t) ((Pool.mem_entries room.1).2 ht)
        rw [Space.handles, hk, List.append_eq_nil_iff] at hnone
        have hmem := Value.mem_itemHandles.2 ⟨.space a, ha, List.mem_cons_self⟩
        rw [show Value.itemHandles args.values = [] from hnone.2] at hmem
        cases hmem
    rw [Pool.contains, hnone] at hlive
    exact absurd hlive Bool.false_ne_true
  · cases hfound.symm.trans hother
    exact hwhole

/-- Like the one before, but `Q.a` has no `b`. -/
def halfwayRequests : List Request :=
  [.createSpace none "R", .createSpace (some ⟨0, 0⟩) "B", .createSpace (some ⟨0, 0⟩) "a",
    .createSpace (some ⟨2, 0⟩) "b", .bindName ⟨1, 0⟩ "r" (.space { id := ⟨3, 0⟩ }) .auto,
    .createSpace none "Q", .createSpace (some ⟨4, 0⟩) "C", .createSpace (some ⟨4, 0⟩) "a",
    .linkBase ⟨5, 0⟩ ⟨1, 0⟩, .declareParams ⟨4, 0⟩ [{ name := "n" }] none,
    .selectInstance ⟨4, 0⟩ { positional := [.int 1] }, .childNamed ⟨7, 0⟩ "C"]

/-- The first read of `r` makes `Q[1].a` and fails, because there is no `b` to be made. The second
one finds that the way is not there and gives `R.a.b`. -/
theorem halfway_reads_differ : ∃ m e m₁ h m₂, Reachable m ∧
    Model.readFrom 9 [{ id := ⟨7, 0⟩, pins := [⟨7, 0⟩] }] ⟨8, 0⟩ "r" m = some (.error e, m₁) ∧
      Model.readFrom 9 [{ id := ⟨7, 0⟩, pins := [⟨7, 0⟩] }] ⟨8, 0⟩ "r" m₁ =
        some (.ok (.space h), m₂) ∧ m₂.dottedName h.id = "R.a.b" := by
  have hrun : ((Request.runAll 9 [{ id := ⟨7, 0⟩, pins := [⟨7, 0⟩] }] halfwayRequests
      Shop.start).any fun m =>
      (Model.readFrom 9 [{ id := ⟨7, 0⟩, pins := [⟨7, 0⟩] }] ⟨8, 0⟩ "r" m).any fun o =>
        (Model.readFrom 9 [{ id := ⟨7, 0⟩, pins := [⟨7, 0⟩] }] ⟨8, 0⟩ "r" o.2).any fun o' =>
          o.1.toOption.isNone && o'.1.toOption.any fun v =>
            v.toSpace.toOption.any fun h => o'.2.dottedName h.id == "R.a.b") = true := by
    decide +kernel
  obtain ⟨m, hm, hrun⟩ := (Option.any_eq_true _ _).1 hrun
  obtain ⟨⟨r, m₁⟩, hfirst, hrun⟩ := (Option.any_eq_true _ _).1 hrun
  obtain ⟨⟨r', m₂⟩, hsecond, hrun⟩ := (Option.any_eq_true _ _).1 hrun
  have hreach : Reachable m := ⟨_, .new "doc" {}, Request.becomes_of_runAll halfwayRequests hm⟩
  obtain ⟨hfails, hgives⟩ := Bool.and_eq_true_iff.1 hrun
  obtain ⟨v, hv, hgives⟩ := (Option.any_eq_true _ _).1 hgives
  obtain ⟨h, hspace, hname⟩ := (Option.any_eq_true _ _).1 hgives
  rw [toOption_eq_some] at hv hspace
  cases r with
  | ok v => cases hfails
  | error e =>
    cases v with
    | space a =>
      cases hspace
      obtain rfl : r' = .ok (.space h) := hv
      exact ⟨m, e, m₁, h, m₂, hreach, hfirst, hsecond, eq_of_beq hname⟩
    | _ => cases hspace

end Recalc
