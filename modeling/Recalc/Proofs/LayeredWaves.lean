import Mathlib.Data.Multiset.DershowitzManna
import Recalc.Proofs.Confinement
import Recalc.Proofs.MirroredRequests

set_option autoImplicit false

/-!
# Waves come to an end

A wave over layered spaces goes through its queue after finitely many derivations, whatever children
come and go on the way. A derivation puts spaces back into the queue, but all of them rank below the
space that was derived, so the ranks in the queue decrease as a multiset. A space that has gone
leaves the queue shorter, and one that waits brings the wave nearer to the point where it waits no
longer.
-/

namespace Recalc.Model

open Recalc.Action

/-! ## A derivation ends -/

section Totality

theorem total_collect {α : Type} {f : α → Action Changes} (h : ∀ a, Total (f a)) (l : List α) :
    Total (collect f l) := by
  induction l with
  | nil => exact total_pure _
  | cons a l ih => exact (h a).bind fun _ => ih.bind fun _ => total_pure _

theorem total_deriveCells (id : SpaceId) (name : String) (source : CellId) :
    Total (deriveCells id name source) := by
  refine (total_read _).bind fun src => (total_read _).bind fun s => ?_
  split
  · exact (total_modify _).bind fun _ => total_pure _
  · refine (total_read _).bind fun current => ?_
    split
    · exact (total_modify _).bind fun _ => total_pure _
    · exact total_pure _

theorem total_dropCells (id : SpaceId) (heritage : Heritage) (e : String × CellId) :
    Total (dropCells id heritage e) := by
  unfold dropCells
  split
  · exact total_pure _
  · refine (total_read _).bind fun c => ?_
    split
    · exact (total_modify _).bind fun _ => total_pure _
    · exact total_pure _

theorem total_deriveRef (id : SpaceId) (name : String) (source : RefId) :
    Total (deriveRef id name source) := by
  refine (total_read _).bind fun src => (total_read _).bind fun s => ?_
  split
  · exact (total_modify _).bind fun _ => total_pure _
  · refine (total_read _).bind fun current => ?_
    split
    · exact (total_modify _).bind fun _ => total_pure _
    · exact total_pure _

theorem total_dropRef (id : SpaceId) (heritage : Heritage) (e : String × RefId) :
    Total (dropRef id heritage e) := by
  unfold dropRef
  split
  · exact total_pure _
  · refine (total_read _).bind fun r => ?_
    split
    · exact (total_modify _).bind fun _ => total_pure _
    · exact total_pure _

theorem total_deriveChild (id : SpaceId) (name : String) (sources : List SpaceId) :
    Total (deriveChild id name sources) := by
  refine (total_read _).bind fun s => ?_
  split
  · exact (total_update _).bind fun _ => (total_modify _).bind fun _ => total_pure _
  · refine (total_read _).bind fun c => ?_
    split
    · exact (total_modify _).bind fun _ => total_pure _
    · exact total_pure _

theorem total_dropChild (id : SpaceId) (heritage : Heritage) (e : String × SpaceId) :
    Total (dropChild id heritage e) := by
  unfold dropChild
  split
  · exact total_pure _
  · refine (total_read _).bind fun c => ?_
    split
    · exact (total_modify _).bind fun _ => total_pure _
    · split
      · exact (total_modify _).bind fun _ => total_pure _
      · exact total_pure _

theorem total_deriveSignature (id : SpaceId) (heritage : Heritage) :
    Total (deriveSignature id heritage) := by
  refine (total_read _).bind fun s => ?_
  split
  · exact (total_modify _).bind fun _ => total_pure _
  · exact total_pure _

/-- Each entry of a listing is dropped or stays. -/
theorem total_collectListed {β : Type} {drop : String × β → Action Changes}
    (h : ∀ e, Total (drop e)) (listing : Space → NameMap β) (id : SpaceId) :
    Total (do collect drop (listing (← read (·.space id))).entries) :=
  (total_read _).bind fun _ => total_collect h _

theorem total_deriveMembers (id : SpaceId) (heritage : Heritage) :
    Total (deriveMembers id heritage) := by
  have hnoCells := total_collectListed (total_dropCells id heritage) Space.cells id
  have hnoRefs := total_collectListed (total_dropRef id heritage) Space.refs id
  have hnoSpaces := total_collectListed (total_dropChild id heritage) Space.spaces id
  have hphases := (total_collect (fun e => total_deriveCells id e.1 e.2)
    heritage.cells.entries).bind fun cells => hnoCells.bind fun noCells =>
    (total_collect (fun e => total_deriveRef id e.1 e.2) heritage.refs.entries).bind fun refs =>
    hnoRefs.bind fun noRefs =>
    (total_collect (fun e => total_deriveChild id e.1 e.2) heritage.spaces.entries).bind
      fun spaces => hnoSpaces.bind fun noSpaces =>
    (total_deriveSignature id heritage).bind fun signature =>
    total_pure (cells ++ noCells ++ refs ++ noRefs ++ spaces ++ noSpaces ++ signature)
  simp only [bind_assoc] at hphases
  exact hphases

theorem total_settle (id : SpaceId) (changes : Changes) : Total (settle id changes) := by
  refine (total_modify _).bind fun _ => ?_
  split
  · exact total_update _
  · exact total_pure _

theorem total_derive (id : SpaceId) : Total (derive id) := by
  refine (total_read _).bind fun s => ?_
  split
  · exact total_pure _
  · exact (total_read _).bind fun heritage => (total_deriveMembers id heritage).bind fun changes =>
      (total_settle id changes).bind fun _ => total_pure _

end Totality

/-! ## The steps of a wave -/

section Steps

variable {m : Model} {id : SpaceId} {rest : List SpaceId} {stalled fuel : Nat}

/-- The head of the queue goes back to its end. -/
def HoldsBack (m : Model) (stalled : Nat) (id : SpaceId) (rest : List SpaceId) : Prop :=
  stalled ≤ rest.length ∧ m.waits id rest = true

instance (m : Model) (stalled : Nat) (id : SpaceId) (rest : List SpaceId) :
    Decidable (m.HoldsBack stalled id rest) := inferInstanceAs (Decidable (_ ∧ _))

theorem wave_gone (hgone : m.spaces.contains id = false) (summary : Summary) :
    wave (fuel + 1) stalled (id :: rest) summary m = wave fuel stalled rest summary m := by
  rw [wave, get_bind, hgone]
  rfl

theorem wave_waits (hhere : m.spaces.contains id = true) (hback : m.HoldsBack stalled id rest)
    (summary : Summary) : wave (fuel + 1) stalled (id :: rest) summary m =
      wave fuel (stalled + 1) (rest ++ [id]) summary m := by
  rw [wave, get_bind, hhere, hback.2, decide_eq_true hback.1]
  rfl

theorem wave_derives (hhere : m.spaces.contains id = true)
    (hgoes : ¬ m.HoldsBack stalled id rest) (summary : Summary) :
    wave (fuel + 1) stalled (id :: rest) summary m = (do
      let changes ← derive id
      let m ← get
      wave fuel 0 (enqueue rest (changes.follow ++ m.heirs id)) (summary.add changes)) m := by
  have htest : (decide (stalled ≤ rest.length) && m.waits id rest) = false := by
    rw [← Bool.not_eq_true, Bool.and_eq_true, decide_eq_true_eq]
    exact hgoes
  rw [wave, get_bind, hhere, htest]
  rfl

/-- More fuel than a wave needs changes nothing. -/
theorem wave_of_le {queue : List SpaceId} {summary : Summary} {o : Except Failure Summary × Model}
    {more : Nat} (h : wave fuel stalled queue summary m = some o) (hle : fuel ≤ more) :
    wave more stalled queue summary m = some o := by
  induction fuel generalizing more stalled queue summary m with
  | zero => cases h
  | succ fuel ih =>
    obtain ⟨more, rfl⟩ := Nat.exists_eq_add_of_le' (Nat.le_of_add_left_le hle)
    replace hle := Nat.le_of_succ_le_succ hle
    cases queue with
    | nil => exact h
    | cons id rest =>
      cases hhere : m.spaces.contains id with
      | false =>
        rw [wave_gone hhere] at h ⊢
        exact ih h hle
      | true =>
        by_cases hback : m.HoldsBack stalled id rest
        · rw [wave_waits hhere hback] at h ⊢
          exact ih h hle
        · rw [wave_derives hhere hback] at h ⊢
          rcases (bind_eq_some m).1 h with ⟨changes, m₁, hderive, hrest⟩ | hfails
          · exact (bind_eq_some m).2 (.inl ⟨changes, m₁, hderive, ih hrest hle⟩)
          · exact (bind_eq_some m).2 (.inr hfails)

def Terminates (m : Model) (stalled : Nat) (queue : List SpaceId) : Prop :=
  ∃ fuel, ∀ summary, ∃ o, wave fuel stalled queue summary m = some o

theorem terminates_nil (m : Model) (stalled : Nat) : m.Terminates stalled [] :=
  ⟨1, fun _ => ⟨_, rfl⟩⟩

theorem Terminates.gone (h : m.Terminates stalled rest) (hgone : m.spaces.contains id = false) :
    m.Terminates stalled (id :: rest) := by
  obtain ⟨fuel, h⟩ := h
  refine ⟨fuel + 1, fun summary => ?_⟩
  rw [wave_gone hgone]
  exact h summary

theorem Terminates.waits (h : m.Terminates (stalled + 1) (rest ++ [id]))
    (hhere : m.spaces.contains id = true) (hback : m.HoldsBack stalled id rest) :
    m.Terminates stalled (id :: rest) := by
  obtain ⟨fuel, h⟩ := h
  refine ⟨fuel + 1, fun summary => ?_⟩
  rw [wave_waits hhere hback]
  exact h summary

theorem terminates_of_derives (hhere : m.spaces.contains id = true)
    (hgoes : ¬ m.HoldsBack stalled id rest)
    (h : ∀ changes m', derive id m = some (.ok changes, m') →
      m'.Terminates 0 (enqueue rest (changes.follow ++ m'.heirs id))) :
    m.Terminates stalled (id :: rest) := by
  obtain ⟨r, m₁, hderive⟩ := total_derive id m
  cases r with
  | error e =>
    refine ⟨1, fun summary => ⟨(.error e, m₁), ?_⟩⟩
    rw [wave_derives hhere hgoes]
    exact (bind_eq_some m).2 (.inr ⟨e, hderive, rfl⟩)
  | ok changes =>
    obtain ⟨fuel, h⟩ := h changes m₁ hderive
    refine ⟨fuel + 1, fun summary => ?_⟩
    obtain ⟨o, hrest⟩ := h (summary.add changes)
    rw [wave_derives hhere hgoes]
    exact ⟨o, (bind_eq_some m).2 (.inl ⟨changes, m₁, hderive, hrest⟩)⟩

end Steps

end Recalc.Model

namespace Recalc.Tiers

def ranksOf (t : Tiers) (m : Model) (p : SpaceId → Prop) [DecidablePred p]
    (queue : List SpaceId) : Multiset Nat :=
  ((Multiset.filter m.Static (queue : Multiset SpaceId)).filter p).map t.rank

def weight (t : Tiers) (m : Model) (queue : List SpaceId) : Multiset Nat :=
  (Multiset.filter m.Static (queue : Multiset SpaceId)).map t.rank

section Weights

variable {t t' : Tiers} {m m' : Model} {id : SpaceId} {rest : List SpaceId}

theorem weight_of_static (hself : m.Static id) :
    t.weight m (id :: rest) = t.rank id ::ₘ t.weight m rest := by
  rw [weight, ← Multiset.cons_coe, Multiset.filter_cons_of_pos _ hself, Multiset.map_cons, weight]

theorem weight_of_not_static (hself : ¬ m.Static id) :
    t.weight m (id :: rest) = t.weight m rest := by
  rw [weight, ← Multiset.cons_coe, Multiset.filter_cons_of_neg _ hself, weight]

theorem weight_append (queue more : List SpaceId) :
    t.weight m (queue ++ more) = t.weight m queue + t.weight m more := by
  rw [weight, ← Multiset.coe_add, Multiset.filter_add, Multiset.map_add, weight, weight]

theorem weight_rotate (id : SpaceId) (rest : List SpaceId) :
    t.weight m (rest ++ [id]) = t.weight m (id :: rest) := by
  rw [weight_append, add_comm, ← weight_append, List.singleton_append]

theorem weight_split (p : SpaceId → Prop) [DecidablePred p] (queue : List SpaceId) :
    t.weight m queue = t.ranksOf m p queue + t.ranksOf m (fun x => ¬ p x) queue := by
  rw [ranksOf, ranksOf, ← Multiset.map_add, Multiset.filter_add_not, weight]

theorem mem_ranksOf {p : SpaceId → Prop} [DecidablePred p] {queue : List SpaceId} {n : Nat} :
    n ∈ t.ranksOf m p queue ↔ ∃ x ∈ queue, m.Static x ∧ p x ∧ t.rank x = n := by
  simp only [ranksOf, Multiset.mem_map, Multiset.mem_filter, Multiset.mem_coe, and_assoc]

/-- A derivation makes the queue lighter: it takes one rank out and puts smaller ones in. -/
theorem weight_lt_of_descends {heritage : Heritage} {changes : Changes}
    (h : Model.Descends t t' id heritage m changes m') (hself : m.Static id)
    {more : List SpaceId} (hmore : ∀ x ∈ more, x ∈ changes.follow ++ m'.heirs id) :
    Multiset.IsDershowitzMannaLT (t'.weight m' (rest ++ more)) (t.weight m (id :: rest)) := by
  -- what was static before and still is has the ranks that it had
  have hstays : t'.ranksOf m' m.Static rest = t.ranksOf m m'.Static rest := by
    rw [ranksOf, ranksOf, Multiset.filter_comm]
    refine Multiset.map_congr rfl fun x hx => h.rank x ?_
    exact (Multiset.mem_filter.1 (Multiset.mem_filter.1 hx).1).2
  refine ⟨t.ranksOf m m'.Static rest,
    t'.ranksOf m' (fun x => ¬ m.Static x) rest + t'.weight m' more,
    t.rank id ::ₘ t.ranksOf m (fun x => ¬ m'.Static x) rest, Multiset.cons_ne_zero, ?_, ?_,
    fun y hy => ⟨t.rank id, Multiset.mem_cons_self _ _, ?_⟩⟩
  · rw [weight_append, weight_split m.Static rest, hstays, add_assoc]
  · rw [weight_of_static hself, weight_split m'.Static rest, Multiset.add_cons]
  · rcases Multiset.mem_add.1 hy with hy | hy
    · obtain ⟨x, -, hstatic, hnew, rfl⟩ := mem_ranksOf.1 hy
      exact h.new x hstatic hnew
    · obtain ⟨x, hx, rfl⟩ := Multiset.mem_map.1 hy
      obtain ⟨hx, hstatic⟩ := Multiset.mem_filter.1 hx
      exact h.follow x (hmore x (Multiset.mem_coe.1 hx)) hstatic

end Weights

end Recalc.Tiers

namespace Recalc.Model

open Recalc.Action

/-! ## Layered waves -/

theorem enqueue_eq_append (queue more : List SpaceId) :
    ∃ new, enqueue queue more = queue ++ new ∧ ∀ x ∈ new, x ∈ more := by
  unfold enqueue
  induction more generalizing queue with
  | nil => exact ⟨[], (List.append_nil _).symm, fun _ hx => hx⟩
  | cons id more ih =>
    rw [List.foldl_cons]
    split
    next =>
      obtain ⟨new, heq, hnew⟩ := ih queue
      exact ⟨new, heq, fun x hx => List.mem_cons_of_mem id (hnew x hx)⟩
    next =>
      obtain ⟨new, heq, hnew⟩ := ih (queue ++ [id])
      refine ⟨id :: new, heq.trans (List.append_assoc queue [id] new), fun x hx => ?_⟩
      exact List.mem_cons.2 ((List.mem_cons.1 hx).imp_right (hnew x))

/-- The queue gets lighter, else shorter, else the wave is nearer to taking its head. -/
def Nearer : Multiset Nat × Nat × Nat → Multiset Nat × Nat × Nat → Prop :=
  Prod.Lex Multiset.IsDershowitzMannaLT (Prod.Lex (· < ·) (· < ·))

theorem wellFounded_nearer : WellFounded Nearer :=
  Multiset.wellFounded_isDershowitzMannaLT.prod_lex (Nat.lt_wfRel.wf.prod_lex Nat.lt_wfRel.wf)

def distance (m : Model) (t : Tiers) (stalled : Nat) (queue : List SpaceId) :
    Multiset Nat × Nat × Nat :=
  (t.weight m queue, queue.length, queue.length + 1 - stalled)

section Waves

variable {m m₀ m' : Model} {id : SpaceId} {rest : List SpaceId} {stalled : Nat} {t t' : Tiers}
  {heritage : Heritage} {changes : Changes} {sites : SpaceId → Prop}
  {P : MemberKind → List Location}

theorem nearer_of_gone (hself : ¬ m.Static id) (stalled' : Nat) :
    Nearer (m.distance t stalled' rest) (m.distance t stalled (id :: rest)) := by
  refine Prod.lex_def.2 (.inr ⟨(t.weight_of_not_static hself).symm, Prod.lex_def.2 (.inl ?_)⟩)
  exact Nat.lt_succ_self rest.length

theorem nearer_of_wait (hback : m.HoldsBack stalled id rest) :
    Nearer (m.distance t (stalled + 1) (rest ++ [id])) (m.distance t stalled (id :: rest)) := by
  have hlength : (rest ++ [id]).length = (id :: rest).length := by simp
  refine Prod.lex_def.2 (.inr ⟨t.weight_rotate id rest, Prod.lex_def.2 (.inr ⟨hlength, ?_⟩)⟩)
  show (rest ++ [id]).length + 1 - (stalled + 1) < (id :: rest).length + 1 - stalled
  have := hback.1
  rw [hlength, List.length_cons]
  omega

theorem nearer_of_derive (h : Descends t t' id heritage m changes m') (hself : m.Static id) :
    Nearer (m'.distance t' 0 (enqueue rest (changes.follow ++ m'.heirs id)))
      (m.distance t stalled (id :: rest)) := by
  obtain ⟨new, heq, hnew⟩ := enqueue_eq_append rest (changes.follow ++ m'.heirs id)
  rw [heq]
  exact Prod.lex_def.2 (.inl (Tiers.weight_lt_of_descends h hself hnew))

/-- Nothing inherits from a replica. -/
theorem LiveBases.heirs_of_replica (hlive : m.LiveBases) (small : m.Addressable)
    (hreplica : ¬ m.Static id) : m.heirs id = [] := by
  refine List.eq_nil_iff_forall_not_mem.2 fun x hx => hreplica ?_
  obtain ⟨o, ho, hlink⟩ := outline_of_heir small hx
  exact static_iff_outline?.2 (hlive x o ho id hlink)

/-- Over spaces on tiers a wave comes to an end, whatever its queue, in the room that its locations
need. -/
theorem Faithful.terminates (hm : m.Faithful sites) (hlive : m.LiveBases) (ht : m.Tiered t)
    (hconfined : Confined P m₀ m)
    (room : ∀ kind, (m₀.load kind).capacity + 2 * (P kind).length ≤ UInt32.size)
    (stalled : Nat) (queue : List SpaceId) : m.Terminates stalled queue := by
  -- by how far the wave is from its end
  generalize hd : m.distance t stalled queue = d
  induction d using wellFounded_nearer.induction generalizing m t stalled queue with
  | h d ih =>
    subst hd
    cases queue with
    | nil => exact terminates_nil m stalled
    | cons id rest =>
      cases hhere : m.spaces.contains id with
      | false =>
        have hself : ¬ m.Static id := by
          rintro ⟨s, hs, -⟩
          rw [Pool.contains_iff.2 ⟨s, hs⟩] at hhere
          cases hhere
        exact (ih _ (nearer_of_gone hself stalled) hm hlive ht hconfined stalled rest rfl).gone
          hhere
      | true =>
        by_cases hback : m.HoldsBack stalled id rest
        · exact (ih _ (nearer_of_wait hback) hm hlive ht hconfined (stalled + 1) _ rfl).waits
            hhere hback
        · refine terminates_of_derives hhere hback fun changes m' hrun => ?_
          by_cases hself : m.Static id
          · obtain ⟨hm', _, hdescends, hconfined'⟩ := hconfined.derive room hm hlive ht hself hrun
            exact ih _ (nearer_of_derive hdescends hself) hm' hdescends.live hdescends.tiered
              hconfined' 0 _ rfl
          · rcases derive_eq_ok hrun with ⟨-, rfl, rfl⟩ | ⟨_, _, _, _, hstatic, -⟩
            · have small := addressable_of_capacity fun kind =>
                (hconfined.capacity kind).trans (room kind)
              rw [hlive.heirs_of_replica small hself]
              exact ih _ (nearer_of_gone hself 0) hm hlive ht hconfined 0 rest rfl
            · exact absurd hstatic hself

/-- Where the roots can be numbered so that every base lies under a root with a smaller number, a
wave from any spaces ends, in a summary or in a failure, however many children it brings and drops.
Models between edits are faithful while there is room for their identities, and so are those in
which an edit starts its wave. How much room the wave needs is known before it starts. -/
theorem Faithful.layered_wave_ends (h : m.Faithful sites) {number : SpaceId → Nat}
    (hlayered : m.Layered number) (room : m.Ample) (starts : List SpaceId) :
    ∃ enough r m', ∀ fuel, enough ≤ fuel → deriveFrom fuel starts m = some (r, m') := by
  have small := addressable_of_capacity fun kind => Nat.le_of_add_right_le (room kind)
  obtain ⟨enough, hends⟩ := h.terminates hlayered.liveBases (hlayered.tiered h.owned)
    (hlayered.fenced h.owned small).confined room 0 (m.frontier starts)
  obtain ⟨⟨r, m'⟩, hrun⟩ := hends {}
  exact ⟨enough, r, m', fun fuel hle => wave_of_le hrun hle⟩

/-- `A` has a child with a child of its own, and `C` derives from `B`. Now `B` has got the base `A`,
and the wave is still to come. -/
def linkedLayers : Option Model :=
  (Request.runAll 9 [] [.createSpace none "A", .createSpace none "B", .createSpace none "C",
    .linkBase ⟨2, 0⟩ ⟨1, 0⟩, .createSpace (some ⟨0, 0⟩) "N", .createSpace (some ⟨3, 0⟩) "P"]
    Shop.start).map (·.modifySpace ⟨1, 0⟩ (Space.setBases (· ++ [⟨0, 0⟩])))

/-- The children of `A` come to `B` and to `C`, and the wave ends. -/
theorem linkedLayers_wave_ends : ∃ m m' : Model, ∃ number enough summary,
    linkedLayers = some m ∧ m.Layered number ∧ m.Ample ∧ m.spaces.population = 5 ∧
    m'.spaces.population = 9 ∧
    ∀ fuel, enough ≤ fuel → deriveFrom fuel [⟨1, 0⟩] m = some (.ok summary, m') := by
  have hrun : (linkedLayers.any fun m =>
      (m.spaces.entries.all fun e => e.2.outline.links.all fun b => decide (m.Static b) &&
        (m.rootOf? b).any fun q => (m.rootOf? e.1).any fun r =>
          decide (q.index.toNat < r.index.toNat)) &&
      decide m.Ample && (deriveFrom 20 [⟨1, 0⟩] m).any fun o => decide (o.1.isOk = true ∧
        m.spaces.population = 5 ∧ o.2.spaces.population = 9)) = true := by
    decide +kernel
  obtain ⟨m, hm, hrun⟩ := (Option.any_eq_true _ _).1 hrun
  obtain ⟨hbefore, hrun⟩ := (Bool.and_eq_true _ _).mp hrun
  obtain ⟨hlayers, room⟩ := (Bool.and_eq_true _ _).mp hbefore
  replace room : m.Ample := of_decide_eq_true room
  obtain ⟨⟨r, m'⟩, hwave, hfacts⟩ := (Option.any_eq_true _ _).1 hrun
  obtain ⟨hok, hfive, hnine⟩ := of_decide_eq_true hfacts
  have hlayered : m.Layered fun x => x.index.toNat := by
    intro x o ho b hb
    obtain ⟨s, hs, -, rfl⟩ := outline?_eq_some.1 ho
    have hlinks := List.all_eq_true.1 hlayers _ (Pool.mem_entries_of_get? hs)
    obtain ⟨hstatic, hroots⟩ := (Bool.and_eq_true _ _).mp (List.all_eq_true.1 hlinks b hb)
    obtain ⟨q, hq, hroots⟩ := (Option.any_eq_true _ _).1 hroots
    obtain ⟨r, hr, hlt⟩ := (Option.any_eq_true _ _).1 hroots
    exact ⟨of_decide_eq_true hstatic, q, r, hq, hr, of_decide_eq_true hlt⟩
  have hproper : Proper m := by
    obtain ⟨m₀, hbuilt, rfl⟩ := Option.map_eq_some_iff.1 hm
    have hreachable : Reachable m₀ := ⟨_, .new "doc" {}, Request.becomes_of_runAll _ hbuilt⟩
    exact (Follows.setBases (.start hreachable.orderly.proper) _ _).holds
  have small := addressable_of_capacity fun kind => Nat.le_of_add_right_le (room kind)
  obtain ⟨enough, r', m₁, hends⟩ := (hproper small).layered_wave_ends hlayered room [⟨1, 0⟩]
  -- the two runs have one outcome
  cases (hends (enough + 20) (Nat.le_add_right _ _)).symm.trans
    (wave_of_le hwave (Nat.le_add_left _ _))
  cases r with
  | error => cases hok
  | ok summary =>
    exact ⟨m, m', _, enough, summary, hm, hlayered, room, hfive, hnine, hends⟩

end Waves

end Recalc.Model
