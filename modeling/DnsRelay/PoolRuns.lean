import DnsRelay.IdPool
set_option autoImplicit false

/-!
Runs of the pool of relay ids. The ids in use are those a call handed out and
no later call gave back, whatever else was given back in between.
-/

namespace DnsRelay
namespace IdPool

inductive Op where
  | alloc (target : Bool)
  | free (id : UInt16)

/-- The id that a call stores at its target; `none` also stands for the target NULL. -/
def call (p : IdPool) : Op → Option UInt16 × IdPool
  | .alloc true =>
      match p.alloc with
      | some (id,p') => (some id,p')
      | none => (none,p)
  | .alloc false => (none,p)
  | .free id => (none,p.free id)

def run (p : IdPool) : List Op → List (Op × Option UInt16) × IdPool
  | [] => ([],p)
  | op :: ops =>
      let (answer,p) := p.call op
      let (events,p) := run p ops
      ((op,answer) :: events,p)

def takes (used : Set UInt16) : Op × Option UInt16 → Set UInt16
  | (.alloc _,some id) => insert id used
  | (.alloc _,none) => used
  | (.free id,_) => used \ {id}

def inUse (events : List (Op × Option UInt16)) : Set UInt16 := events.foldl takes ∅

structure Tracks (p : IdPool) (used : Set UInt16) : Prop where
  exact : Exact p
  marked : ∀ id, p.st id = true ↔ id ∈ used

theorem tracks_init : init.Tracks ∅ := ⟨exact_init,fun id => by simp [init]⟩

variable {p : IdPool} {used : Set UInt16}

theorem Tracks.call (h : p.Tracks used) (op : Op) :
    (p.call op).2.Tracks (takes used (op,(p.call op).1)) := by
  cases op with
  | alloc target =>
    cases target with
    | false => exact h
    | true =>
      simp only [IdPool.call]
      cases hp : p.alloc with
      | none => exact h
      | some taken =>
        obtain ⟨hexact,_,hst⟩ := h.exact.alloc hp
        refine ⟨hexact,fun id => ?_⟩
        have hmark := h.marked id
        rw [hst id]
        simp only [takes,Set.mem_insert_iff]
        split
        · rename_i hid
          simp [hid]
        · rename_i hid
          simp [hid,hmark]
  | free id =>
    obtain ⟨hexact,hst⟩ := h.exact.free id
    refine ⟨hexact,fun i => ?_⟩
    have hmark := h.marked i
    simp only [IdPool.call,takes,hst i,Set.mem_sdiff,Set.mem_singleton_iff]
    split
    · rename_i hi
      simp [hi]
    · rename_i hi
      simp [hi,hmark]

theorem Tracks.run (h : p.Tracks used) (ops : List Op) :
    (p.run ops).2.Tracks ((p.run ops).1.foldl takes used) := by
  induction ops generalizing p used with
  | nil => exact h
  | cons op ops ih => exact ih (h.call op)

theorem Tracks.listed (h : p.Tracks used) {id : UInt16} (hid : id ∉ used) :
    ∃! i : Nat, (i : Int) ≤ p.top ∧ p.ids i = id := by
  have hst : p.st id = false := Bool.eq_false_iff.mpr fun ht => hid ((h.marked id).mp ht)
  obtain ⟨i,hi,hids⟩ := (h.exact.listed id).mp hst
  exact ⟨i,⟨hi,hids⟩,fun j ⟨hj,hjds⟩ => h.exact.once j i hj hi (hjds.trans hids.symm)⟩

theorem Tracks.unlisted (h : p.Tracks used) {id : UInt16} (hid : id ∈ used) :
    ∀ i : Nat, (i : Int) ≤ p.top → p.ids i ≠ id := by
  intro i hi hids
  have hfree := (h.exact.listed id).mpr ⟨i,hi,hids⟩
  rw [(h.marked id).mpr hid] at hfree
  exact Bool.noConfusion hfree

theorem Tracks.alloc_eq_none (h : p.Tracks used) : p.alloc = none ↔ ∀ id, id ∈ used := by
  have hlow := h.exact.low
  constructor
  · intro hnone id
    by_contra hid
    obtain ⟨i,⟨hi,_⟩,_⟩ := h.listed hid
    have htop : ¬ p.top < 0 := by omega
    simp [IdPool.alloc,htop] at hnone
  · intro hall
    by_contra hsome
    have htop : ¬ p.top < 0 := fun htop => hsome (by simp [IdPool.alloc,htop])
    exact h.unlisted (hall (p.ids 0)) 0 (by omega) rfl

theorem Tracks.alloc_fresh (h : p.Tracks used) {id : UInt16} {p' : IdPool}
    (ha : p.alloc = some (id,p')) : id ∉ used := by
  intro hid
  have hfree := (h.exact.alloc ha).2.1
  rw [(h.marked id).mpr hid] at hfree
  exact Bool.noConfusion hfree

theorem Tracks.free_unused (h : p.Tracks used) {id : UInt16} (hid : id ∉ used) : p.free id = p := by
  have hst : ¬ p.st id = true := fun ht => hid ((h.marked id).mp ht)
  rw [IdPool.free,if_neg fun hc => hst hc.1]

/-- After any calls every id is either in use or on the stack once, and the next call hands out
no id in use, fails only when all are, and ignores an id that is not in use. -/
theorem run_exact (ops : List Op) :
    let p := (init.run ops).2
    let used := inUse (init.run ops).1
    (-1 ≤ p.top ∧ p.top ≤ 65535) ∧
    (∀ id, p.st id = false ↔ id ∉ used) ∧
    (∀ id, p.st id = false → ∃! i : Nat, (i : Int) ≤ p.top ∧ p.ids i = id) ∧
    (∀ i : Nat, (i : Int) ≤ p.top → p.st (p.ids i) = false) ∧
    (∀ id, (p.call (.alloc true)).1 = some id → id ∉ used) ∧
    ((p.call (.alloc true)).1 = none ↔ ∀ id, id ∈ used) ∧
    ∀ id, id ∉ used → (p.call (.free id)).2 = p := by
  intro p used
  have h : p.Tracks used := tracks_init.run ops
  have hst : ∀ id, p.st id = false ↔ id ∉ used := fun id => by
    rw [← h.marked id,Bool.not_eq_true]
  refine ⟨⟨h.exact.low,h.exact.high⟩,hst,fun id hid => h.listed ((hst id).mp hid),fun i hi =>
    (hst _).mpr fun hused =>
    h.unlisted hused i hi rfl,fun id hid => ?_,?_,fun id hid => h.free_unused hid⟩
  · cases ha : p.alloc with
    | none => simp [IdPool.call,ha] at hid
    | some taken =>
      obtain ⟨id',p'⟩ := taken
      simp only [IdPool.call,ha,Option.some.injEq] at hid
      exact hid ▸ h.alloc_fresh ha
  · rw [← h.alloc_eq_none]
    simp only [IdPool.call]
    cases p.alloc with
    | none => simp
    | some taken => simp

end IdPool
end DnsRelay
