import Recalc.Proofs.Deriving

set_option autoImplicit false

/-!
# Derivation keeps mirrors

Every member of a space is derived without failure once the heritage of the space is known.
-/

namespace Recalc.Model

open Recalc.Action

section Lookups

variable {P : Model → Prop} {id : SpaceId} {c : CellId} {r : RefId}

theorem ensures_space (h : ∀ m, P m → ∃ s, m.spaces.get? id = some s) :
    Ensures P (read (·.space id)) fun s m => P m ∧ m.spaces.get? id = some s := by
  refine ensures_read fun m hm => ?_
  obtain ⟨s, hs⟩ := h m hm
  exact ⟨s, space_eq_ok.2 hs, hm, hs⟩

theorem ensures_cell (h : ∀ m, P m → ∃ d, m.cells.get? c = some d) :
    Ensures P (read (·.cell c)) fun d m => P m ∧ m.cells.get? c = some d := by
  refine ensures_read fun m hm => ?_
  obtain ⟨d, hd⟩ := h m hm
  exact ⟨d, cell_eq_ok.2 hd, hm, hd⟩

theorem ensures_reference (h : ∀ m, P m → ∃ q, m.refs.get? r = some q) :
    Ensures P (read (·.reference r)) fun q m => P m ∧ m.refs.get? r = some q := by
  refine ensures_read fun m hm => ?_
  obtain ⟨q, hq⟩ := h m hm
  exact ⟨q, reference_eq_ok.2 hq, hm, hq⟩

end Lookups

structure Lists {β : Type} (listing : Space → NameMap β) (id : SpaceId) (l : List (String × β))
    (m : Model) : Prop where
  names : l.Pairwise fun a b => a.1 ≠ b.1
  space : ∃ s, m.spaces.get? id = some s ∧ ∀ e ∈ l, (listing s).get? e.1 = some e.2

section Listings

variable {β : Type} {listing : Space → NameMap β} {id : SpaceId} {l : List (String × β)}
  {m m' : Model} {s s' : Space} {e : String × β}

theorem lists_entries (hs : m.spaces.get? id = some s) :
    Lists listing id (listing s).entries m :=
  ⟨(listing s).pairwise_ne, s, hs, fun _ he => NameMap.mem_entries.1 he⟩

theorem Lists.tail (h : Lists listing id (e :: l) m) (spaces : m'.spaces = m.spaces) :
    Lists listing id l m' := by
  obtain ⟨s, hs, hl⟩ := h.space
  exact ⟨h.names.tail, s, spaces ▸ hs, fun e' he' => hl e' (List.mem_cons_of_mem _ he')⟩

theorem Lists.head (h : Lists listing id (e :: l) m) :
    ∃ s, m.spaces.get? id = some s ∧ (listing s).get? e.1 = some e.2 := by
  obtain ⟨s, hs, hl⟩ := h.space
  exact ⟨s, hs, hl e List.mem_cons_self⟩

theorem Lists.retouch {e : String × SpaceId} {l : List (String × SpaceId)} {c : SpaceId}
    {f : Space → Space} (h : Lists Space.spaces id (e :: l) m)
    (hf : ∀ s, Space.Retouches s (f s)) : Lists Space.spaces id l (m.modifySpace c f) := by
  obtain ⟨s, hs, hl⟩ := h.space
  have hget := Pool.get?_modify m.spaces c id f
  refine ⟨h.names.tail, ?_⟩
  by_cases heq : c = id
  · subst heq
    refine ⟨f s, ?_, fun e' he' => ?_⟩
    · rw [if_pos rfl, hs] at hget
      exact hget
    · rw [(hf s).spaces]
      exact hl e' (List.mem_cons_of_mem _ he')
  · refine ⟨s, ?_, fun e' he' => hl e' (List.mem_cons_of_mem _ he')⟩
    rw [if_neg heq, hs] at hget
    exact hget

/-- The first entry goes. -/
theorem Lists.erase (h : Lists listing id (e :: l) m) (hs : m.spaces.get? id = some s)
    (hs' : m'.spaces.get? id = some s') (erased : listing s' = (listing s).erase e.1) :
    Lists listing id l m' := by
  obtain ⟨t, ht, hl⟩ := h.space
  cases hs.symm.trans ht
  refine ⟨h.names.tail, s', hs', fun e' he' => ?_⟩
  rw [erased, NameMap.get?_erase, if_neg ((List.pairwise_cons.1 h.names).1 e' he')]
  exact hl e' (List.mem_cons_of_mem _ he')

end Listings

section Derivation

variable {id : SpaceId} {sites around : SpaceId → Prop} {before : Changes} {rs : List RefId}

theorem Deriving.live {cs : List CellId} {m : Model}
    (h : Deriving id sites around cs rs before m) : ∃ s, m.spaces.get? id = some s := by
  obtain ⟨s, hs, -⟩ := h.self
  exact ⟨s, hs⟩

theorem Deriving.tail {c : CellId} {cs : List CellId} {m : Model}
    (h : Deriving id sites around (c :: cs) rs before m) : Deriving id sites around cs rs before m :=
  { h with cells := fun c' hc' => h.cells c' (List.mem_cons_of_mem _ hc') }

theorem Deriving.tailRef {r : RefId} {m : Model}
    (h : Deriving id sites around [] (r :: rs) before m) :
    Deriving id sites around [] rs before m :=
  { h with refs := fun r' hr' => h.refs r' (List.mem_cons_of_mem _ hr') }

theorem ensures_deriveCells (name : String) (source : CellId) (cs : List CellId) :
    Ensures (Deriving id sites around (source :: cs) rs before) (deriveCells id name source)
      fun changes => Deriving id sites around cs rs (before ++ changes) := by
  unfold deriveCells
  refine ensures_bind (ensures_cell fun m hm => hm.cells source List.mem_cons_self) fun src =>
    ensures_bind (ensures_space fun m hm => hm.1.live) fun s => ?_
  split
  next hfree =>
    refine ensures_bind (ensures_modify (fun m => ?_) fun m small hm => ?_)
      fun _ => ensures_pure fun m hm => hm
    · exact Frame.trans (fits_addCells m _) (fits_hideGlobal _ name)
    · have halike := fun m => (forgetsSome_hideGlobal m name).alike
      exact (hm.1.1.tail.addCells ((halike _).addressable.1 small) hm.2 rfl hfree).alike (halike _)
  next own hown =>
    refine ensures_bind (ensures_cell fun m hm => ?_) fun current => ?_
    · obtain ⟨d, hd, -⟩ := hm.1.1.owned.cells_of_listed hm.2 hown
      exact ⟨d, hd⟩
    · split
      next =>
        refine ensures_bind (ensures_modify (fun m => ?_) fun m small hm => ?_)
          fun _ => ensures_pure fun m hm => hm
        · exact Frame.trans (fits_modifyCell m own _)
            (forgetsAll_invalidateCells _ own).forgetsSome.alike.fits
        · obtain ⟨d, hd, hspace, -⟩ := hm.1.1.1.owned.cells_of_listed hm.1.2 hown
          have hstep := hm.1.1.1.tail.modifyCell (f := fun c =>
            { c with formula := src.formula, allowNone := src.allowNone }) hd hspace
            (fun _ => rfl) { updated := 1, redefined := true } (.inr rfl)
          exact hstep.alike (forgetsAll_invalidateCells _ own).forgetsSome.alike
      next => exact ensures_pure fun m hm => hm.1.1.1.tail.append {}

theorem ensures_dropCells (heritage : Heritage) (e : String × CellId)
    (l : List (String × CellId)) :
    Ensures (fun m => Deriving id sites around [] rs before m ∧ Lists Space.cells id (e :: l) m)
      (dropCells id heritage e) fun changes m =>
        Deriving id sites around [] rs (before ++ changes) m ∧ Lists Space.cells id l m := by
  unfold dropCells
  split
  next => exact ensures_pure fun m hm => ⟨hm.1.append {}, hm.2.tail rfl⟩
  next =>
    refine ensures_bind (ensures_cell fun m hm => ?_) fun c => ?_
    · obtain ⟨s, hs, hc⟩ := hm.2.head
      obtain ⟨d, hd, -⟩ := hm.1.owned.cells_of_listed hs hc
      exact ⟨d, hd⟩
    · split
      next =>
        refine ensures_bind (ensures_modify (fun m => ?_) fun m small hm => ?_)
          fun _ => ensures_pure fun m hm => hm
        · exact Frame.trans (fits_modifySpace m id _) (fits_destroyCells _ e.2)
        · obtain ⟨s, hs, hc⟩ := hm.1.2.head
          have hself : ((m.modifySpace id fun s =>
              { s with cells := s.cells.erase e.1 }).destroyCells e.2).spaces.get? id =
              some { s with cells := s.cells.erase e.1 } := by
            rw [spaces_destroyCells, get?_modifySpace hs, if_pos rfl]
          exact ⟨hm.1.1.dropCells hs hc, hm.1.2.erase hs hself rfl⟩
      next => exact ensures_pure fun m hm => ⟨hm.1.1.append {}, hm.1.2.tail rfl⟩

theorem ensures_deriveRef (name : String) (source : RefId) (rs : List RefId) :
    Ensures (Deriving id sites around [] (source :: rs) before) (deriveRef id name source)
      fun changes => Deriving id sites around [] rs (before ++ changes) := by
  unfold deriveRef
  refine ensures_bind (ensures_reference fun m hm => hm.refs source List.mem_cons_self)
    fun src => ensures_bind (ensures_space fun m hm => hm.1.live) fun s => ?_
  split
  next hfree =>
    refine ensures_bind (ensures_modify (fun m => ?_) fun m small hm => ?_)
      fun _ => ensures_pure fun m hm => hm
    · exact Frame.trans (fits_addRef m _) (fits_hideGlobal _ name)
    · have halike := fun m => (forgetsSome_hideGlobal m name).alike
      exact (hm.1.1.tailRef.addRef ((halike _).addressable.1 small) hm.2 rfl hfree).alike (halike _)
  next own hown =>
    refine ensures_bind (ensures_reference fun m hm => ?_) fun current => ?_
    · obtain ⟨q, hq, -⟩ := hm.1.1.owned.ref_of_listed hm.2 hown
      exact ⟨q, hq⟩
    · split
      next =>
        refine ensures_bind (ensures_modify (fun m => ?_) fun m small hm => ?_)
          fun _ => ensures_pure fun m hm => hm
        · exact Frame.trans (fits_modifyRef m own _)
            (forgetsAll_invalidate _ (.ref own)).forgetsSome.alike.fits
        · have hstep := hm.1.1.1.tailRef.modifyRef (r := own) (f := fun r =>
            { r with value := src.value, mode := src.mode, relative := src.relative,
                     origin := src.origin }) (fun _ => by rfl) { updated := 1 }
          exact hstep.alike (forgetsAll_invalidate _ (.ref own)).forgetsSome.alike
      next => exact ensures_pure fun m hm => hm.1.1.1.tailRef.append {}

theorem ensures_dropRef (heritage : Heritage) (e : String × RefId) (l : List (String × RefId)) :
    Ensures (fun m => Deriving id sites around [] [] before m ∧ Lists Space.refs id (e :: l) m)
      (dropRef id heritage e) fun changes m =>
        Deriving id sites around [] [] (before ++ changes) m ∧ Lists Space.refs id l m := by
  unfold dropRef
  split
  next => exact ensures_pure fun m hm => ⟨hm.1.append {}, hm.2.tail rfl⟩
  next =>
    refine ensures_bind (ensures_reference fun m hm => ?_) fun r => ?_
    · obtain ⟨s, hs, hr⟩ := hm.2.head
      obtain ⟨q, hq, -⟩ := hm.1.owned.ref_of_listed hs hr
      exact ⟨q, hq⟩
    · split
      next =>
        refine ensures_bind (ensures_modify (fun m => ?_) fun m small hm => ?_)
          fun _ => ensures_pure fun m hm => hm
        · exact Frame.trans (fits_modifySpace m id _) (fits_destroyReference _ e.2)
        · obtain ⟨s, hs, hr⟩ := hm.1.2.head
          have hself : ((m.modifySpace id fun s =>
              { s with refs := s.refs.erase e.1 }).destroyReference e.2).spaces.get? id =
              some { s with refs := s.refs.erase e.1 } := by
            rw [spaces_destroyReference, get?_modifySpace hs, if_pos rfl]
          exact ⟨hm.1.1.dropRef hs hr, hm.1.2.erase hs hself rfl⟩
      next => exact ensures_pure fun m hm => ⟨hm.1.1.append {}, hm.1.2.tail rfl⟩

theorem ensures_deriveChild (name : String) (sources : List SpaceId) :
    Ensures (Deriving id sites around [] [] before) (deriveChild id name sources)
      fun changes => Deriving id sites around [] [] (before ++ changes) := by
  unfold deriveChild
  refine ensures_bind (ensures_space fun m hm => hm.live) fun s => ?_
  split
  next hfree =>
    refine ensures_bind (Q := fun child => Deriving id sites around [] []
        (before ++ { Changes.memberCreated with follow := [child] }))
      (ensures_update (fun m => fits_addChild m id _) fun m small hm => ?_)
      fun child => ensures_bind (ensures_modify (fun m => fits_hideGlobal m name)
        fun m small hm => ?_) fun _ => ensures_pure fun m hm => hm
    · exact hm.1.addChild small hm.2 hfree rfl rfl (lists_of_empty rfl rfl rfl rfl) _ (.inl rfl)
    · exact hm.alike (forgetsSome_hideGlobal m name).alike
  next child hchild =>
    refine ensures_bind (ensures_space fun m hm => ?_) fun c => ?_
    · obtain ⟨t, ht, -⟩ := hm.1.owned.child_of_listed hm.2 hchild
      exact ⟨t, ht⟩
    · split
      next =>
        refine ensures_bind (ensures_modify (fun m => fits_modifySpace m child _)
          fun m small hm => ?_) fun _ => ensures_pure fun m hm => hm
        exact hm.1.1.rebase (fun s => Space.retouches_setImplicitBases _ s)
          (fun s => Space.signature_setImplicitBases _ s)
          (fun s hs => Space.setImplicitBases_of_replica _ s hs) { follow := [child] }
      next => exact ensures_pure fun m hm => hm.1.1.append {}

theorem ensures_dropChild (heritage : Heritage) (e : String × SpaceId)
    (l : List (String × SpaceId)) :
    Ensures (fun m => Deriving id sites around [] [] before m ∧ Lists Space.spaces id (e :: l) m)
      (dropChild id heritage e) fun changes m =>
        Deriving id sites around [] [] (before ++ changes) m ∧ Lists Space.spaces id l m := by
  unfold dropChild
  split
  next => exact ensures_pure fun m hm => ⟨hm.1.append {}, hm.2.tail rfl⟩
  next =>
    refine ensures_bind (ensures_space fun m hm => ?_) fun c => ?_
    · obtain ⟨s, hs, hc⟩ := hm.2.head
      obtain ⟨t, ht, -⟩ := hm.1.owned.child_of_listed hs hc
      exact ⟨t, ht⟩
    · split
      next =>
        refine ensures_bind (ensures_modify (fun m => ?_) fun m small hm => ?_)
          fun _ => ensures_pure fun m hm => hm
        · exact Frame.trans (fits_modifySpace m id _) (fits_destroySpace _ e.2)
        · obtain ⟨s, hs, hc⟩ := hm.1.2.head
          obtain ⟨hstep, hself⟩ := hm.1.1.dropChild hs hc
            { Changes.memberRemoved with destroyed := true } (.inl rfl)
          exact ⟨hstep, hm.1.2.erase hs hself rfl⟩
      next =>
        split
        next =>
          refine ensures_bind (ensures_modify (fun m => fits_modifySpace m e.2 _)
            fun m small hm => ?_) fun _ => ensures_pure fun m hm => hm
          refine ⟨hm.1.1.rebase (fun s => Space.retouches_setImplicitBases _ s)
            (fun s => Space.signature_setImplicitBases _ s)
            (fun s hs => Space.setImplicitBases_of_replica _ s hs) { follow := [e.2] }, ?_⟩
          exact hm.1.2.retouch fun s => Space.retouches_setImplicitBases _ s
        next => exact ensures_pure fun m hm => ⟨hm.1.1.append {}, hm.1.2.tail rfl⟩

theorem ensures_deriveSignature (heritage : Heritage) :
    Ensures (Deriving id sites around [] [] before) (deriveSignature id heritage)
      fun changes => Deriving id sites around [] [] (before ++ changes) := by
  unfold deriveSignature
  refine ensures_bind (ensures_space fun m hm => hm.live) fun s => ?_
  split
  next =>
    refine ensures_bind (ensures_modify (fun m => fits_modifySpace m id _) fun m small hm => ?_)
      fun _ => ensures_pure fun m hm => hm
    exact hm.1.resign (f := fun s => { s with signature := heritage.signature })
      (fun s => ⟨⟨rfl, rfl, rfl, fun _ => rfl, fun _ => rfl⟩, rfl, rfl, rfl, rfl⟩)
      { structural := true } (.inl rfl)
  next => exact ensures_pure fun m hm => hm.1.append {}

end Derivation

end Recalc.Model
