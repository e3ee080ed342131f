import Recalc.Evaluate
import Recalc.Proofs.NormalForms

set_option autoImplicit false

/-!
# Handles in values

Where values are turned into keys and bound to parameters no handle comes in: those of a key are the
ones of its arguments, and what is bound to a parameter is an argument or a default. Equal keys have
handles to the same spaces, whatever those handles keep alive.
-/

namespace Recalc

namespace Value

variable {v w : Value} {vs ws : List Value} {h : Handle}

theorem itemHandles_eq_flatMap : itemHandles vs = vs.flatMap handles := by
  induction vs with
  | nil => rfl
  | cons v vs ih => rw [itemHandles, ih, List.flatMap_cons]

theorem mem_itemHandles : h ∈ itemHandles vs ↔ ∃ v ∈ vs, h ∈ v.handles := by
  rw [itemHandles_eq_flatMap, List.mem_flatMap]

theorem itemHandles_congr (hmap : vs.map handles = ws.map handles) :
    itemHandles vs = itemHandles ws := by
  rw [itemHandles_eq_flatMap, itemHandles_eq_flatMap, List.flatMap_def, List.flatMap_def, hmap]

/-- The normal form of a value has the handles of the value. -/
theorem handles_normalize (h : v.normalize = .ok w) : w.handles = v.handles := by
  induction v using induct generalizing w with
  | tuple items ih | list items ih =>
    rw [normalize, except_map_eq_ok] at h
    obtain ⟨ws, hws, rfl⟩ := h
    rw [handles, handles]
    exact itemHandles_congr (map_of_normalizeItems (fun v hv w => ih v hv) hws)
  | host => cases h
  | _ =>
    cases h
    rfl

mutual

/-- Equal values name the same spaces, in the same order. -/
theorem ids_of_same : (v w : Value) → same v w = true →
    v.handles.map Handle.id = w.handles.map Handle.id
  | .empty, w, h => by cases w <;> first | rfl | cases h
  | .bool _, w, h => by cases w <;> first | rfl | cases h
  | .int _, w, h => by cases w <;> first | rfl | cases h
  | .number _, w, h => by cases w <;> first | rfl | cases h
  | .text _, w, h => by cases w <;> first | rfl | cases h
  | .host _, w, h => by cases w <;> first | rfl | cases h
  | .space a, w, h => by
    cases w with
    | space b => exact congrArg ([·]) (beq_iff_eq.1 (show (a.id == b.id) = true from h))
    | _ => cases h
  | .tuple as, w, h => by
    cases w with
    | tuple bs => exact ids_of_sameItems as bs (by rwa [same] at h)
    | _ => cases h
  | .list as, w, h => by
    cases w with
    | list bs => exact ids_of_sameItems as bs (by rwa [same] at h)
    | _ => cases h

theorem ids_of_sameItems : (vs ws : List Value) → sameItems vs ws = true →
    (itemHandles vs).map Handle.id = (itemHandles ws).map Handle.id
  | [], ws, h => by cases ws <;> first | rfl | cases h
  | v :: vs, ws, h => by
    cases ws with
    | nil => cases h
    | cons w ws =>
      rw [sameItems, Bool.and_eq_true] at h
      rw [itemHandles, itemHandles, List.map_append, List.map_append, ids_of_same v w h.1,
        ids_of_sameItems vs ws h.2]

end

end Value

namespace Key

theorem handles_ofValues {vs : List Value} {k : Key} (h : ofValues vs = .ok k) :
    k.handles = Value.itemHandles vs :=
  Value.itemHandles_congr
    (Value.map_of_normalizeItems (fun _ _ _ => Value.handles_normalize) (ofValues_eq_ok.1 h))

/-- Each handle of a key has its like in an equal key. -/
theorem exists_handle_of_beq {k k' : Key} (h : (k == k') = true) {a : Handle} (ha : a ∈ k.handles) :
    ∃ b ∈ k'.handles, b.id = a.id := by
  have hids : k.handles.map Handle.id = k'.handles.map Handle.id :=
    Value.ids_of_sameItems k.values k'.values h
  have hmem := List.mem_map_of_mem (f := Handle.id) ha
  rw [hids] at hmem
  exact List.mem_map.1 hmem

end Key

def Arguments.handles (a : Arguments) : List Handle :=
  Value.itemHandles a.positional ++ a.named.flatMap fun e => e.2.handles

namespace Binding

variable {params : List Param} {invalid : String → Failure}

theorem mem_placePositional {args : List Value} {v : Value}
    (h : some v ∈ placePositional params args) : v ∈ args := by
  rcases List.mem_append.1 h with h | h
  · obtain ⟨w, hw, heq⟩ := List.mem_map.1 h
    cases heq
    exact hw
  · cases List.eq_of_mem_replicate h

theorem mem_placeNamed (named : List (String × Value)) {slots filled : List (Option Value)}
    (h : placeNamed params invalid named slots = .ok filled) {v : Value} (hv : some v ∈ filled) :
    some v ∈ slots ∨ ∃ name, (name, v) ∈ named := by
  induction named generalizing slots with
  | nil =>
    cases h
    exact .inl hv
  | cons e rest ih =>
    obtain ⟨name, w⟩ := e
    rw [placeNamed] at h
    split at h
    next => contradiction
    next i _ =>
      split at h
      next => contradiction
      next =>
        rcases ih h with hslot | ⟨other, hrest⟩
        · rcases List.mem_or_eq_of_mem_set hslot with hold | heq
          · exact .inl hold
          · cases heq
            exact .inr ⟨name, List.mem_cons_self⟩
        · exact .inr ⟨other, List.mem_cons_of_mem _ hrest⟩

theorem mem_fillDefaults (params : List Param) (slots : List (Option Value)) {vs : List Value}
    (h : fillDefaults invalid params slots = .ok vs) {v : Value} (hv : v ∈ vs) :
    some v ∈ slots ∨ ∃ p ∈ params, p.default = some v := by
  induction params generalizing slots vs with
  | nil =>
    cases h
    cases hv
  | cons p params ih =>
    cases slots with
    | nil =>
      cases h
      cases hv
    | cons slot slots =>
      rw [fillDefaults] at h
      split at h
      next w hw =>
        cases hrest : fillDefaults invalid params slots with
        | error e => rw [hrest] at h; contradiction
        | ok ws =>
          rw [hrest] at h
          cases h
          rcases List.mem_cons.1 hv with rfl | hv
          · rcases Option.or_eq_some_iff.1 hw with rfl | ⟨-, hdefault⟩
            · exact .inl List.mem_cons_self
            · exact .inr ⟨p, List.mem_cons_self, hdefault⟩
          · rcases ih slots hrest hv with hslot | ⟨q, hq, hdefault⟩
            · exact .inl (List.mem_cons_of_mem _ hslot)
            · exact .inr ⟨q, List.mem_cons_of_mem _ hq, hdefault⟩
      next => contradiction

end Binding

/-- What is bound to parameters has the handles of the arguments and of the defaults. -/
theorem handles_matchArguments {params : List Param} {a : Arguments} {target : String}
    {vs : List Value} (h : matchArguments params a target = .ok vs) :
    Value.itemHandles vs ⊆ a.handles ++ paramHandles params := by
  intro b hb
  obtain ⟨v, hv, hb⟩ := Value.mem_itemHandles.1 hb
  have hgiven : some v ∈ Binding.placePositional params a.positional ∨
      (∃ name, (name, v) ∈ a.named) ∨ ∃ p ∈ params, p.default = some v := by
    unfold matchArguments at h
    dsimp only at h
    split at h
    next => contradiction
    next =>
      split at h
      next => contradiction
      next slots hslots =>
        rcases Binding.mem_fillDefaults params slots h hv with hslot | hdefault
        · exact (Binding.mem_placeNamed a.named hslots hslot).imp_right .inl
        · exact .inr (.inr hdefault)
  rcases hgiven with hslot | ⟨name, hnamed⟩ | ⟨p, hp, hdefault⟩
  · exact List.mem_append_left _ (List.mem_append_left _
      (Value.mem_itemHandles.2 ⟨v, Binding.mem_placePositional hslot, hb⟩))
  · exact List.mem_append_left _ (List.mem_append_right _ (List.mem_flatMap.2 ⟨_, hnamed, hb⟩))
  · refine List.mem_append_right _ (List.mem_flatMap.2 ⟨p, hp, ?_⟩)
    rwa [hdefault]

/-- What a binder gives, or was given, has no handles of its own. -/
theorem Model.handles_canonicalArguments {spec : Signature} {target : String}
    {bound vs : List Value} {given : Value}
    (h : canonicalArguments spec target bound given = .ok vs) :
    Value.itemHandles vs ⊆ Value.itemHandles bound ++ given.handles := by
  have hother : ∀ {e : Failure}, (if spec.params.length = 1 then Except.ok [given] else .error e) =
      .ok vs → Value.itemHandles vs ⊆ Value.itemHandles bound ++ given.handles := by
    intro e h
    split at h
    next =>
      cases h
      rw [Value.itemHandles, Value.itemHandles, List.append_nil]
      exact List.subset_append_right _ _
    next => contradiction
  unfold canonicalArguments at h
  dsimp only at h
  split at h
  next =>
    cases h
    exact List.subset_append_left _ _
  next items =>
    split at h
    next =>
      cases h
      exact List.subset_append_right _ _
    next => exact hother h
  next items =>
    split at h
    next =>
      cases h
      exact List.subset_append_right _ _
    next => exact hother h
  next => exact hother h

end Recalc
