import Mathlib.Data.List.Nodup
import Recalc.Proofs.PoolLaws

set_option autoImplicit false

/-!
# Histories of pools

A pool is used by inserting, removing, reading and changing in place, through whatever identities
the user has. What happened is told without slots and generations: which identities were given out,
what was stored under them, how it was changed and when it was taken out. As long as no slot is
freed so often that its generation comes round again, and slots have an index of 32 bits, the pool
answers as this tale says, and no identity is given out twice.
-/

namespace Recalc.Pool

variable {family : Family} {α : Type}

inductive Use (family : Family) (α : Type) where
  | insert (v : α)
  | remove (id : Id family)
  | read (id : Id family)
  | change (id : Id family) (f : α → α)

inductive Event (family : Family) (α : Type) where
  | inserted (id : Id family) (v : α)
  | removed (id : Id family) (answer : Option α)
  | answered (id : Id family) (answer : Option α)
  | changed (id : Id family) (f : α → α)

/-- A pool with its history, the last event first. -/
structure Used (family : Family) (α : Type) where
  history : List (Event family α) := []
  pool : Pool family α := .empty

def Use.run (a : Pool family α) : Use family α → Event family α × Pool family α
  | .insert v =>
    let (id, b) := a.insert v
    (.inserted id v, b)
  | .remove id =>
    match a.remove? id with
    | some (v, b) => (.removed id (some v), b)
    | none => (.removed id none, a)
  | .read id => (.answered id (a.get? id), a)
  | .change id f => (.changed id f, a.modify id f)

def Used.use (p : Used family α) (u : Use family α) : Used family α :=
  let (e, a) := u.run p.pool
  ⟨e :: p.history, a⟩

def used (l : List (Use family α)) : Used family α := l.foldl Used.use {}

/-! ## What a history tells -/

def Event.issued? : Event family α → Option (Id family)
  | .inserted id _ => some id
  | _ => none

def issued (h : List (Event family α)) : List (Id family) := h.filterMap Event.issued?

def Event.takes (id : Id family) : Event family α → Bool
  | .removed x (some _) => x == id
  | _ => false

def Event.freesSlot (i : UInt32) : Event family α → Bool
  | .removed x (some _) => x.index == i
  | _ => false

def frees (h : List (Event family α)) (i : UInt32) : Nat := h.countP (Event.freesSlot i)

def TakenOut (h : List (Event family α)) (id : Id family) : Prop :=
  ∃ v, Event.removed id (some v) ∈ h

def changes (id : Id family) : List (Event family α) → α → α
  | [], v => v
  | .changed x f :: h, v => if x = id then f (changes id h v) else changes id h v
  | _ :: h, v => changes id h v

/-- What an identity names after a history: nothing before it is given out, then what was stored
under it, as it was changed since, and nothing once that was taken out. -/
inductive Names (h : List (Event family α)) (id : Id family) : Option α → Prop
  | before : id ∉ issued h → Names h id none
  | during {later earlier : List (Event family α)} {v : α} :
      h = later ++ .inserted id v :: earlier → ¬ TakenOut later id →
      Names h id (some (changes id later v))
  | after : TakenOut h id → Names h id none

def Event.Truthful (earlier : List (Event family α)) : Event family α → Prop
  | .removed id r | .answered id r => Names earlier id r
  | _ => True

section Histories

variable {h : List (Event family α)} {e : Event family α} {id : Id family}

theorem issued_cons (he : e.issued? = none) : issued (e :: h) = issued h :=
  List.filterMap_cons_none he

theorem mem_issued : id ∈ issued h ↔ ∃ v, Event.inserted id v ∈ h := by
  unfold issued
  rw [List.mem_filterMap]
  constructor
  · rintro ⟨e, he, hid⟩
    cases e with
    | inserted x v =>
      cases hid
      exact ⟨v, he⟩
    | _ => cases hid
  · rintro ⟨v, hv⟩
    exact ⟨_, hv, rfl⟩

theorem TakenOut.cons (ht : TakenOut h id) (e : Event family α) : TakenOut (e :: h) id :=
  ht.imp fun _ hv => List.mem_cons_of_mem _ hv

theorem takenOut_cons : TakenOut (e :: h) id ↔ (∃ v, e = .removed id (some v)) ∨ TakenOut h id := by
  constructor
  · rintro ⟨v, hv⟩
    exact (List.mem_cons.1 hv).imp (fun he => ⟨v, he.symm⟩) fun hv => ⟨v, hv⟩
  · rintro (⟨v, rfl⟩ | ht)
    · exact ⟨v, List.mem_cons_self⟩
    · exact ht.cons e

theorem frees_cons_le (e : Event family α) (h : List (Event family α)) (i : UInt32) :
    frees h i ≤ frees (e :: h) i := by
  unfold frees
  rw [List.countP_cons]
  exact Nat.le_add_right _ _

theorem frees_cons_of_quiet {i : UInt32} (he : e.freesSlot i = false) :
    frees (e :: h) i = frees h i := by
  unfold frees
  rw [List.countP_cons_of_neg (by simp [he])]

theorem frees_cons_removed (id : Id family) (v : α) :
    frees (.removed id (some v) :: h) id.index = frees h id.index + 1 :=
  List.countP_cons_of_pos (by simp [Event.freesSlot])

theorem countP_takes_eq_zero (ht : ¬ TakenOut h id) : h.countP (Event.takes id) = 0 := by
  refine List.countP_eq_zero.2 fun e he htakes => ht ?_
  cases e with
  | removed x r =>
    cases r with
    | none => cases htakes
    | some v =>
      obtain rfl : x = id := by simpa [Event.takes] using htakes
      exact ⟨v, he⟩
  | _ => cases htakes

end Histories

inductive Happens (p : Used family α) : Used family α → Prop
  | inserted (v : α) :
      Happens p ⟨.inserted (p.pool.insert v).1 v :: p.history, (p.pool.insert v).2⟩
  | removed (id : Id family) (v : α) : p.pool.get? id = some v →
      Happens p ⟨.removed id (some v) :: p.history, p.pool.erase id⟩
  | missed (id : Id family) : p.pool.get? id = none →
      Happens p ⟨.removed id none :: p.history, p.pool⟩
  | answered (id : Id family) : Happens p ⟨.answered id (p.pool.get? id) :: p.history, p.pool⟩
  | changed (id : Id family) (f : α → α) :
      Happens p ⟨.changed id f :: p.history, p.pool.modify id f⟩

section Uses

variable {p q : Used family α}

theorem happens_use (p : Used family α) (u : Use family α) : Happens p (p.use u) := by
  cases u with
  | insert v => exact .inserted v
  | remove id =>
    cases hr : p.pool.remove? id with
    | none =>
      simp only [Used.use, Use.run, hr]
      exact .missed id ((remove?_eq_none _ _).1 hr)
    | some r =>
      obtain ⟨v, b⟩ := r
      obtain ⟨hv, rfl⟩ := (remove?_eq_some _ _).1 hr
      simp only [Used.use, Use.run, hr]
      exact .removed id v hv
  | read id => exact .answered id
  | change id f => exact .changed id f

theorem Happens.history (hq : Happens p q) : ∃ e, q.history = e :: p.history := by
  cases hq <;> exact ⟨_, rfl⟩

theorem Happens.size_le (hq : Happens p q) : p.pool.slots.size ≤ q.pool.slots.size := by
  cases hq with
  | inserted v => exact size_insert_le _ v
  | removed id v => exact Nat.le_of_eq (size_erase _ id).symm
  | missed => exact Nat.le_refl _
  | answered => exact Nat.le_refl _
  | changed id f => exact Nat.le_of_eq (size_modify _ id f).symm

theorem Happens.frees_le (hq : Happens p q) (i : UInt32) :
    frees p.history i ≤ frees q.history i := by
  obtain ⟨e, he⟩ := hq.history
  rw [he]
  exact frees_cons_le e _ i

/-! ## Slots and their generations -/

/-- The generation of a slot is how often it was freed, and an identity that was given out is live
or older than its slot. -/
structure Counted (p : Used family α) : Prop where
  tidy : p.pool.Tidy
  generation : ∀ (i g : UInt32), p.pool.generation? i.toNat = some g →
    g = (frees p.history i).toUInt32
  unfreed : ∀ i : UInt32, p.pool.slots.size ≤ i.toNat → frees p.history i = 0
  older : ∀ id ∈ issued p.history,
    p.pool.contains id = true ∨ id.generation.toNat < frees p.history id.index

theorem exists_generation {a : Pool family α} {i : Nat} (hi : i < a.slots.size) :
    ∃ g, a.generation? i = some g := by
  refine ⟨a.slots[i].generation, ?_⟩
  rw [generation?, Array.getElem?_eq_getElem hi, Option.map_some]

/-- A slot that was not there has never been freed. -/
theorem generation_of_new {a : Pool family α} (tidy : a.Tidy) {v : α} {i : Nat} {g : UInt32}
    (hi : a.slots.size ≤ i) (hg : (a.insert v).2.generation? i = some g) : g = 0 := by
  cases hf : a.free with
  | cons j rest =>
    have hsize := (insert_of_free (v := v) tidy hf).2.2.1
    rw [generation?, Array.getElem?_eq_none (by omega)] at hg
    cases hg
  | nil =>
    rw [insert_of_no_free hf, generation?, Array.getElem?_push] at hg
    split at hg
    next => cases hg; rfl
    next =>
      rw [Array.getElem?_eq_none hi] at hg
      cases hg

theorem Counted.generation_insert (hp : Counted p) {v : α} {i g : UInt32}
    (hg : (p.pool.insert v).2.generation? i.toNat = some g) :
    g = (frees p.history i).toUInt32 := by
  by_cases hi : i.toNat < p.pool.slots.size
  · obtain ⟨k, hk⟩ := exists_generation hi
    cases hg.symm.trans (generation?_insert hk v)
    exact hp.generation i g hk
  · rw [hp.unfreed i (Nat.not_lt.1 hi), generation_of_new hp.tidy (Nat.not_lt.1 hi) hg]
    rfl

/-- A new identity was not given out before. -/
theorem Counted.not_issued (hp : Counted p) {v : α} (room : (p.pool.insert v).2.Addressable)
    (seldom : ∀ i, frees p.history i < UInt32.size) :
    (p.pool.insert v).1 ∉ issued p.history := by
  obtain ⟨hnone, hget⟩ := insert_fresh hp.tidy room
  have hlive : (p.pool.insert v).2.get? (p.pool.insert v).1 = some v := by
    rw [hget, if_pos rfl]
  have hgeneration := hp.generation_insert (generation?_of_get? hlive)
  intro hissued
  rcases hp.older _ hissued with hc | hlt
  · obtain ⟨w, hw⟩ := contains_iff.1 hc
    rw [hnone] at hw
    cases hw
  · rw [hgeneration, UInt32.toNat_ofNat_of_lt' (seldom _)] at hlt
    exact Nat.lt_irrefl _ hlt

theorem counted_empty : Counted ({} : Used family α) where
  tidy := tidy_empty
  generation i g hg := by simp [generation?, Pool.empty] at hg
  unfreed _ _ := rfl
  older _ hid := by cases hid

/-- A use that frees no slot and gives out no identity. -/
theorem Counted.quiet (hp : Counted p) {e : Event family α} {b : Pool family α} (tidy : b.Tidy)
    (size : b.slots.size = p.pool.slots.size)
    (generation : ∀ i, b.generation? i = p.pool.generation? i)
    (contains : ∀ id, b.contains id = p.pool.contains id) (hissued : e.issued? = none)
    (hfrees : ∀ i, e.freesSlot i = false) : Counted ⟨e :: p.history, b⟩ where
  tidy := tidy
  generation i g hg := by
    rw [generation] at hg
    rw [frees_cons_of_quiet (hfrees i)]
    exact hp.generation i g hg
  unfreed i hi := by
    rw [frees_cons_of_quiet (hfrees i)]
    exact hp.unfreed i (size ▸ hi)
  older id hid := by
    rw [issued_cons hissued] at hid
    rw [contains, frees_cons_of_quiet (hfrees _)]
    exact hp.older id hid

theorem Counted.inserted (hp : Counted p) {v : α} (room : (p.pool.insert v).2.Addressable) :
    Counted ⟨.inserted (p.pool.insert v).1 v :: p.history, (p.pool.insert v).2⟩ where
  tidy := tidy_insert hp.tidy v
  generation _ _ hg := hp.generation_insert hg
  unfreed i hi := hp.unfreed i (Nat.le_trans (size_insert_le _ v) hi)
  older id hid := by
    obtain ⟨-, hget⟩ := insert_fresh hp.tidy room
    rcases List.mem_cons.1 hid with rfl | hid
    · exact .inl (contains_iff.2 ⟨v, by rw [hget, if_pos rfl]⟩)
    · refine (hp.older id hid).imp_left fun hc => ?_
      obtain ⟨w, hw⟩ := contains_iff.1 hc
      refine contains_iff.2 ?_
      rw [hget]
      split
      · exact ⟨v, rfl⟩
      · exact ⟨w, hw⟩

theorem Counted.removed (hp : Counted p) {id : Id family} {v : α} (hv : p.pool.get? id = some v)
    (seldom : ∀ i, frees p.history i < UInt32.size) :
    Counted ⟨.removed id (some v) :: p.history, p.pool.erase id⟩ := by
  have hquiet : ∀ {i : UInt32}, id.index ≠ i →
      (Event.removed id (some v)).freesSlot i = false := fun hi => beq_false_of_ne hi
  have hgeneration : id.generation = (frees p.history id.index).toUInt32 :=
    hp.generation id.index _ (generation?_of_get? hv)
  refine ⟨tidy_erase _ id hp.tidy, fun i g hg => ?_, fun i hi => ?_, fun x hx => ?_⟩
  · rw [generation?_erase hv] at hg
    by_cases hi : id.index = i
    · subst hi
      rw [if_pos rfl, Option.some.injEq] at hg
      rw [← hg, hgeneration, frees_cons_removed]
      exact (UInt32.ofNat_add _ 1).symm
    · rw [if_neg fun h => hi (UInt32.toNat_inj.1 h)] at hg
      rw [frees_cons_of_quiet (hquiet hi)]
      exact hp.generation i g hg
  · rw [size_erase] at hi
    have hlt := lt_size_of_get? hv
    rw [frees_cons_of_quiet (hquiet (by rintro rfl; omega))]
    exact hp.unfreed i hi
  · rw [issued_cons rfl] at hx
    by_cases hid : id = x
    · subst hid
      refine .inr ?_
      rw [frees_cons_removed, hgeneration, UInt32.toNat_ofNat_of_lt' (seldom _)]
      exact Nat.lt_succ_self _
    · refine (hp.older x hx).imp (fun hc => ?_) fun hlt =>
        Nat.lt_of_lt_of_le hlt (frees_cons_le _ _ _)
      rwa [contains, get?_erase, if_neg hid]

theorem Counted.happens (hp : Counted p) (hq : Happens p q) (room : q.pool.Addressable)
    (seldom : ∀ i, frees p.history i < UInt32.size) : Counted q := by
  cases hq with
  | inserted v => exact hp.inserted room
  | removed id v hv => exact hp.removed hv seldom
  | missed =>
    exact hp.quiet hp.tidy rfl (fun _ => rfl) (fun _ => rfl) rfl fun _ => rfl
  | answered =>
    exact hp.quiet hp.tidy rfl (fun _ => rfl) (fun _ => rfl) rfl fun _ => rfl
  | changed id f =>
    exact hp.quiet (tidy_modify _ id f hp.tidy) (size_modify _ id f) (generation?_modify _ id f)
      (contains_modify _ id f) rfl fun _ => rfl

/-! ## The pool answers as its history tells -/

structure Told (p : Used family α) : Prop where
  distinct : (issued p.history).Nodup
  taken : ∀ id, TakenOut p.history id → id ∈ issued p.history
  before : ∀ id, id ∉ issued p.history → p.pool.get? id = none
  during : ∀ {id later earlier v}, p.history = later ++ .inserted id v :: earlier →
    ¬ TakenOut later id → p.pool.get? id = some (changes id later v)
  after : ∀ id, TakenOut p.history id → p.pool.get? id = none
  once : ∀ id, p.history.countP (Event.takes id) ≤ 1
  truthful : ∀ {later e earlier}, p.history = later ++ e :: earlier → e.Truthful earlier

theorem Told.names (hp : Told p) (id : Id family) (r : Option α) :
    Names p.history id r ↔ p.pool.get? id = r := by
  constructor
  · rintro (hid | ⟨hsplit, ht⟩ | ht)
    · exact hp.before id hid
    · exact hp.during hsplit ht
    · exact hp.after id ht
  · rintro rfl
    by_cases hid : id ∈ issued p.history
    · obtain ⟨v, hv⟩ := mem_issued.1 hid
      obtain ⟨later, earlier, hsplit⟩ := List.append_of_mem hv
      by_cases ht : TakenOut later id
      · have ht : TakenOut p.history id := by
          obtain ⟨w, hw⟩ := ht
          exact ⟨w, hsplit ▸ List.mem_append_left _ hw⟩
        rw [hp.after id ht]
        exact .after ht
      · rw [hp.during hsplit ht]
        exact .during hsplit ht
    · rw [hp.before id hid]
      exact .before hid

theorem told_empty : Told ({} : Used family α) where
  distinct := List.nodup_nil
  taken _ ht := by
    obtain ⟨_, hv⟩ := ht
    cases hv
  before id _ := get?_empty id
  during hsplit := by simp at hsplit
  after _ ht := by
    obtain ⟨_, hv⟩ := ht
    cases hv
  once _ := Nat.zero_le 1
  truthful hsplit := by simp at hsplit

/-- An event more leaves what was told before as it was. -/
theorem Told.truthful_cons (hp : Told p) (e : Event family α) (he : e.Truthful p.history)
    {later earlier : List (Event family α)} {x : Event family α}
    (hsplit : e :: p.history = later ++ x :: earlier) : x.Truthful earlier := by
  rcases List.cons_eq_append_iff.1 hsplit with ⟨-, hfirst⟩ | ⟨later, -, hrest⟩
  · cases hfirst
    exact he
  · exact hp.truthful hrest

theorem Told.inserted (hp : Told p) {id : Id family} {v : α} {b : Pool family α}
    (fresh : p.pool.Fresh b id v) (hnew : id ∉ issued p.history) :
    Told ⟨.inserted id v :: p.history, b⟩ := by
  have htaken : ∀ {x}, TakenOut (.inserted id v :: p.history) x → TakenOut p.history x := by
    intro x ht
    exact (takenOut_cons.1 ht).resolve_left (by rintro ⟨_, he⟩; cases he)
  have hold : ∀ {x}, x ∈ issued p.history → b.get? x = p.pool.get? x := by
    intro x hx
    rw [fresh.2, if_neg]
    rintro rfl
    exact hnew hx
  refine ⟨List.nodup_cons.2 ⟨hnew, hp.distinct⟩, fun x ht => ?_, fun x hx => ?_, ?_, fun x ht => ?_,
    fun x => ?_, hp.truthful_cons (.inserted id v) trivial⟩
  · exact List.mem_cons_of_mem _ (hp.taken x (htaken ht))
  · rw [fresh.2, if_neg (List.ne_of_not_mem_cons hx).symm]
    exact hp.before x (List.not_mem_of_not_mem_cons hx)
  · intro x later earlier w hsplit ht
    rcases List.cons_eq_append_iff.1 hsplit with ⟨rfl, hfirst⟩ | ⟨later, rfl, hrest⟩
    · cases hfirst
      rw [fresh.2, if_pos rfl]
      rfl
    · have hx : x ∈ issued p.history :=
        mem_issued.2 ⟨w, hrest ▸ List.mem_append_right _ List.mem_cons_self⟩
      have hlast := hp.during hrest fun h => ht (h.cons _)
      exact (hold hx).trans hlast
  · rw [hold (hp.taken x (htaken ht))]
    exact hp.after x (htaken ht)
  · exact hp.once x

theorem Told.removed (hp : Told p) {id : Id family} {v : α} (hv : p.pool.get? id = some v) :
    Told ⟨.removed id (some v) :: p.history, p.pool.erase id⟩ := by
  have hissued : id ∈ issued p.history := by
    by_contra hid
    rw [hp.before id hid] at hv
    cases hv
  have hout : ¬ TakenOut p.history id := by
    intro ht
    rw [hp.after id ht] at hv
    cases hv
  refine ⟨hp.distinct, fun x ht => ?_, fun x hx => ?_, ?_, fun x ht => ?_, fun x => ?_,
    hp.truthful_cons (.removed id (some v)) ((hp.names id _).2 hv)⟩
  · rcases takenOut_cons.1 ht with ⟨w, he⟩ | ht
    · cases he
      exact hissued
    · exact hp.taken x ht
  · rw [get?_erase, hp.before x hx]
    split <;> rfl
  · intro x later earlier w hsplit ht
    rcases List.cons_eq_append_iff.1 hsplit with ⟨-, hfirst⟩ | ⟨later, rfl, hrest⟩
    · cases hfirst
    · have hne : id ≠ x := by
        rintro rfl
        exact ht ⟨v, List.mem_cons_self⟩
      have hlast := hp.during hrest fun h => ht (h.cons _)
      rw [get?_erase, if_neg hne]
      exact hlast
  · rw [get?_erase]
    split
    next => rfl
    next hne =>
      refine hp.after x ((takenOut_cons.1 ht).resolve_left ?_)
      rintro ⟨w, he⟩
      cases he
      exact hne rfl
  · by_cases hx : id = x
    · subst hx
      rw [List.countP_cons_of_pos (by simp [Event.takes]), countP_takes_eq_zero hout]
    · rw [List.countP_cons_of_neg (by simp [Event.takes, hx])]
      exact hp.once x

/-- A use that inserts and takes out nothing changes the entities as it says. -/
theorem Told.quiet (hp : Told p) {e : Event family α} {b : Pool family α}
    (hissued : e.issued? = none) (htakes : ∀ id, e.takes id = false)
    (he : e.Truthful p.history)
    (get? : ∀ id, b.get? id = (p.pool.get? id).map (changes id [e])) :
    Told ⟨e :: p.history, b⟩ := by
  have htaken : ∀ {h x}, TakenOut (e :: h) x → TakenOut h x := by
    intro h x ht
    refine (takenOut_cons.1 ht).resolve_left ?_
    rintro ⟨w, rfl⟩
    simp [Event.takes] at htakes
  have hchanges : ∀ x (later : List (Event family α)) w,
      changes x [e] (changes x later w) = changes x (e :: later) w := by
    intro x later w
    cases e <;> rfl
  refine ⟨?_, fun x ht => ?_, fun x hx => ?_, ?_, fun x ht => ?_, fun x => ?_,
    hp.truthful_cons e he⟩
  · rw [issued_cons hissued]
    exact hp.distinct
  · rw [issued_cons hissued]
    exact hp.taken x (htaken ht)
  · rw [issued_cons hissued] at hx
    rw [get?, hp.before x hx, Option.map_none]
  · intro x later earlier w hsplit ht
    rcases List.cons_eq_append_iff.1 hsplit with ⟨-, hfirst⟩ | ⟨later, rfl, hrest⟩
    · cases hfirst
      cases hissued
    · rw [get?, hp.during hrest fun h => ht (h.cons _), Option.map_some, hchanges]
  · rw [get?, hp.after x (htaken ht), Option.map_none]
  · rw [List.countP_cons_of_neg (by simp [htakes x])]
    exact hp.once x

theorem Told.happens (hp : Told p) (counted : Counted p) (hq : Happens p q)
    (room : q.pool.Addressable) (seldom : ∀ i, frees p.history i < UInt32.size) : Told q := by
  cases hq with
  | inserted v => exact hp.inserted (insert_fresh counted.tidy room) (counted.not_issued room seldom)
  | removed id v hv => exact hp.removed hv
  | missed id hnone =>
    exact hp.quiet rfl (fun _ => rfl) ((hp.names id _).2 hnone) fun x => Option.map_id'.symm
  | answered id =>
    exact hp.quiet rfl (fun _ => rfl) ((hp.names id _).2 rfl) fun x => Option.map_id'.symm
  | changed id f =>
    refine hp.quiet rfl (fun _ => rfl) trivial fun x => ?_
    rw [get?_modify]
    by_cases hx : id = x
    · subst hx
      rw [if_pos rfl]
      congr 1
      funext w
      exact (if_pos rfl).symm
    · rw [if_neg hx]
      cases p.pool.get? x with
      | none => rfl
      | some w => exact congrArg some (if_neg hx).symm

/-- A run of uses keeps to its history, as long as generations do not come round. -/
theorem told_used (l : List (Use family α)) (room : (used l).pool.Addressable)
    (seldom : ∀ i, frees (used l).history i < UInt32.size) :
    Counted (used l) ∧ Told (used l) := by
  induction l using List.reverseRecOn with
  | nil => exact ⟨counted_empty, told_empty⟩
  | append_singleton l u ih =>
    have hstep : used (l ++ [u]) = (used l).use u := List.foldl_concat ..
    rw [hstep] at room seldom ⊢
    have hq := happens_use (used l) u
    have hseldom : ∀ i, frees (used l).history i < UInt32.size := fun i =>
      Nat.lt_of_le_of_lt (hq.frees_le i) (seldom i)
    obtain ⟨hcounted, htold⟩ := ih (Nat.le_trans hq.size_le room) hseldom
    exact ⟨hcounted.happens hq room hseldom, htold.happens hcounted hq room hseldom⟩

end Uses

/-! ## Identities are never confused -/

/-- Each identity is given out once and names what was stored under it, as changed since, until it
is taken out; it names nothing before or after. Reads and removals answered so all along, nothing
was taken out twice, and the listing has what is named now, each identity once. -/
structure IdentitiesSound (p : Used family α) : Prop where
  distinct : (issued p.history).Nodup
  names : ∀ id r, Names p.history id r ↔ p.pool.get? id = r
  reads : ∀ later id r earlier, p.history = later ++ .answered id r :: earlier →
    Names earlier id r
  removals : ∀ later id r earlier, p.history = later ++ .removed id r :: earlier →
    Names earlier id r
  once : ∀ id, p.history.countP (Event.takes id) ≤ 1
  listedOnce : p.pool.ids.Nodup
  listed : ∀ id v, (id, v) ∈ p.pool.entries ↔ Names p.history id (some v)

/-- A pool never confuses its identities, while every slot was freed less than `2 ^ 32` times and
has an index of 32 bits. -/
theorem identitiesSound (l : List (Use family α)) (room : (used l).pool.Addressable)
    (seldom : ∀ i, frees (used l).history i < UInt32.size) : IdentitiesSound (used l) := by
  obtain ⟨-, told⟩ := told_used l room seldom
  exact
    { distinct := told.distinct
      names := told.names
      reads := fun _ _ _ _ hsplit => told.truthful hsplit
      removals := fun _ _ _ _ hsplit => told.truthful hsplit
      once := told.once
      listedOnce := nodup_ids room
      listed := fun id v => (mem_entries room).trans (told.names id (some v)).symm }

/-- Two entities, one of them taken out and its slot used again: the old identity is asked for, and
the new one is changed and taken out. -/
def turnover : List (Use .cells Nat) :=
  [.insert 5, .insert 6, .remove ⟨0, 0⟩, .insert 7, .read ⟨0, 0⟩, .change ⟨0, 1⟩ (· + 1),
    .read ⟨0, 1⟩, .remove ⟨0, 1⟩, .remove ⟨0, 1⟩, .insert 8]

theorem turnover_identitiesSound :
    (used turnover).pool.Addressable ∧ (∀ i, frees (used turnover).history i < UInt32.size) ∧
      issued (used turnover).history = [⟨0, 2⟩, ⟨0, 1⟩, ⟨1, 0⟩, ⟨0, 0⟩] ∧
      (used turnover).pool.entries = [(⟨0, 2⟩, 8), (⟨1, 0⟩, 6)] ∧
      IdentitiesSound (used turnover) := by
  have room : (used turnover).pool.Addressable := by
    show 2 ≤ UInt32.size
    decide
  have seldom : ∀ i, frees (used turnover).history i < UInt32.size := by
    intro i
    have hle : frees (used turnover).history i ≤ 10 := List.countP_le_length
    exact Nat.lt_of_le_of_lt hle (by decide)
  exact ⟨room, seldom, by decide, by decide, identitiesSound turnover room seldom⟩

end Recalc.Pool
