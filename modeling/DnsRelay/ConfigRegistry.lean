import DnsRelay.ConfigCenter
set_option autoImplicit false

/-!
The maps of parsers and cleaners of config_center.c. Each key is the address of
the buffer the registering call had the name in, which every later lookup reads;
the buffer is gone when that call returns.
-/

namespace DnsRelay

open Lib Lib.Exec

abbrev Buffers := Nat → Option Bytes

namespace ConfigRegistry
variable {P : Type}

def readKey (buffers : Buffers) (a : Nat) : Exec Bytes :=
  match buffers a with
  | some s => .ok s
  | none => .fault .useAfterFree

def findNode (buffers : Buffers) (key : Bytes) : List (Nat × P) → Exec (Option (Nat × P))
  | [] => .ok none
  | entry :: rest => do
      let s ← readKey buffers entry.1
      if strcmp s key = 0 then .ok (some entry) else findNode buffers key rest

def bucketAt (m : HashMap Nat P) (key : Bytes) : List (Nat × P) :=
  m.buckets.getD (HashMap.bucketIndex cstrHashing key m.buckets.length) []

def get (buffers : Buffers) (m : HashMap Nat P) (key : Bytes) : Exec (Option P) := do
  let entry ← findNode buffers key (bucketAt m key)
  .ok (entry.map Prod.snd)

def addLast (buffers : Buffers) (bucketCount : Nat) (buckets : List (List (Nat × P)))
    (entry : Nat × P) : Exec (List (List (Nat × P))) := do
  let s ← readKey buffers entry.1
  .ok (buckets.modify (HashMap.bucketIndex cstrHashing s bucketCount) (· ++ [entry]))

def resize (buffers : Buffers) (m : HashMap Nat P) (newBucketCount : Nat) :
    Exec (HashMap Nat P) := do
  let buckets ← m.entries.foldlM (addLast buffers newBucketCount) (List.replicate newBucketCount [])
  .ok ⟨buckets,m.size⟩

/-- The map stores the address of the key. -/
def put (buffers : Buffers) (m : HashMap Nat P) (a : Nat) (data : P) : Exec (HashMap Nat P) := do
  let key ← readKey buffers a
  let bucketCount := m.buckets.length
  let index := HashMap.bucketIndex cstrHashing key bucketCount
  let node ← findNode buffers key (bucketAt m key)
  match node with
  | some old =>
      .ok ⟨m.buckets.modify index
        (List.map fun entry => if entry.1 = old.1 then (entry.1,data) else entry),m.size⟩
  | none => do
      let buckets ← addLast buffers bucketCount m.buckets (a,data)
      let added : HashMap Nat P := ⟨buckets,m.size+1⟩
      if HashMap.overloaded added.size bucketCount then resize buffers added (bucketCount*2)
      else .ok added

/-- A registration: the name is copied into a buffer of the call, at an address of its own. -/
def register (buffers : Buffers) (fresh : Nat) (m : HashMap Nat P) (section_ : Bytes) (data : P) :
    Exec (HashMap Nat P) := do
  let sec ← strcpy keySize section_
  put (fun a => if a = fresh then some sec else buffers a) m fresh data

def Apart (names : List Bytes) (s : Bytes) : Prop :=
  ∀ name ∈ names, HashMap.bucketIndex cstrHashing name 16 ≠ HashMap.bucketIndex cstrHashing s 16

instance (names : List Bytes) (s : Bytes) : Decidable (Apart names s) :=
  inferInstanceAs (Decidable (∀ name ∈ names,
    HashMap.bucketIndex cstrHashing name 16 ≠ HashMap.bucketIndex cstrHashing s 16))

structure Files (m : HashMap Nat P) (names : List Bytes) (fresh : Nat) : Prop where
  length : m.buckets.length = 16
  size : m.size = names.length
  few : names.length ≤ 12
  occupied : ∀ i, m.buckets.getD i [] ≠ [] ↔ ∃ name ∈ names,
    HashMap.bucketIndex cstrHashing name 16 = i
  old : ∀ i, ∀ entry ∈ m.buckets.getD i [], entry.1 < fresh

theorem files_create (fresh : Nat) : Files (HashMap.create : HashMap Nat P) [] fresh where
  length := by simp [HashMap.create,HashMap.initBuckets]
  size := rfl
  few := Nat.zero_le 12
  occupied i := by simp [HashMap.create]
  old i entry h := by simp [HashMap.create] at h

variable {m : HashMap Nat P} {names : List Bytes} {fresh : Nat}

theorem Files.mono (h : Files m names fresh) : Files m names (fresh+1) :=
  { h with old := fun i entry hentry => Nat.lt_succ_of_lt (h.old i entry hentry) }

theorem Files.bucketAt_eq_nil (h : Files m names fresh) (s : Bytes) :
    bucketAt m s = [] ↔ Apart names s := by
  rw [bucketAt,h.length]
  have hocc := h.occupied (HashMap.bucketIndex cstrHashing s 16)
  constructor
  · intro hnil name hname he
    exact hocc.mpr ⟨name,hname,he⟩ hnil
  · intro happart
    by_contra hne
    obtain ⟨name,hname,he⟩ := hocc.mp hne
    exact happart name hname he

theorem findNode_dead {buffers : Buffers} {bucket : List (Nat × P)}
    (hdead : ∀ entry ∈ bucket, buffers entry.1 = none) (hne : bucket ≠ []) (key : Bytes) :
    findNode buffers key bucket = .fault .useAfterFree := by
  cases bucket with
  | nil => exact absurd rfl hne
  | cons entry rest =>
    rw [findNode,readKey,hdead entry (List.mem_cons_self ..)]
    rfl

theorem Files.get (h : Files m names fresh) (s : Bytes) :
    ConfigRegistry.get (fun _ => none) m s =
      if Apart names s then .ok none else .fault .useAfterFree := by
  rw [ConfigRegistry.get]
  split
  · rename_i happart
    rw [(h.bucketAt_eq_nil s).mpr happart]
    rfl
  · rename_i hhit
    rw [findNode_dead (fun _ _ => rfl) (fun hnil => hhit ((h.bucketAt_eq_nil s).mp hnil))]
    rfl

/-- Rehashing reads every key, so one that is gone spoils it. -/
theorem foldlM_addLast_dead {buffers : Buffers} {n : Nat} {es : List (Nat × P)}
    (hdead : ∃ entry ∈ es, buffers entry.1 = none) (buckets : List (List (Nat × P))) :
    es.foldlM (addLast buffers n) buckets = .fault .useAfterFree := by
  induction es generalizing buckets with
  | nil => simp at hdead
  | cons entry es ih =>
    rw [List.foldlM_cons,addLast,readKey]
    cases hread : buffers entry.1 with
    | none => rfl
    | some s =>
      obtain ⟨dead,hmem,hnone⟩ := hdead
      have hrest : dead ∈ es := by
        rcases List.mem_cons.mp hmem with rfl | hrest
        · rw [hread] at hnone
          exact absurd hnone (by simp)
        · exact hrest
      simp only [ok_bind]
      exact ih ⟨dead,hrest,hnone⟩ _

section Registering
variable {s : Bytes}

def during (fresh : Nat) (s : Bytes) : Buffers := fun a => if a = fresh then some s else none

theorem Files.dead (h : Files m names fresh) {i : Nat} {entry : Nat × P}
    (hentry : entry ∈ m.buckets.getD i []) : during fresh s entry.1 = none :=
  if_neg (Nat.ne_of_lt (h.old i entry hentry))

theorem Files.put_collides (h : Files m names fresh) (hhit : ¬ Apart names s) (data : P) :
    put (during fresh s) m fresh data = .fault .useAfterFree := by
  have hkey : readKey (during fresh s) fresh = .ok s := by simp [readKey,during]
  have hdead : ∀ entry ∈ bucketAt m s, during fresh s entry.1 = none :=
    fun entry hentry => h.dead hentry
  have hfind := findNode_dead hdead (fun hnil => hhit ((h.bucketAt_eq_nil s).mp hnil)) s
  simp only [put,hkey,ok_bind,hfind,fault_bind]

theorem Files.put_apart (h : Files m names fresh) (happart : Apart names s) (data : P) :
    put (during fresh s) m fresh data =
      if names.length < 12 then
        .ok ⟨m.buckets.modify (HashMap.bucketIndex cstrHashing s 16) (· ++ [(fresh,data)]),m.size+1⟩
      else .fault .useAfterFree := by
  have hkey : readKey (during fresh s) fresh = .ok s := by simp [readKey,during]
  have hlt : HashMap.bucketIndex cstrHashing s 16 < m.buckets.length := by
    rw [h.length]
    exact HashMap.bucketIndex_lt cstrHashing s (by decide)
  have hfind : findNode (during fresh s) s (bucketAt m s) = .ok none := by
    rw [(h.bucketAt_eq_nil s).mpr happart]
    rfl
  simp only [put,hkey,ok_bind,hfind,addLast,h.length,HashMap.overloaded,h.size,decide_eq_true_eq]
  have hfew := h.few
  by_cases hlast : names.length < 12
  · rw [if_neg (by omega),if_pos hlast]
  · rw [if_pos (by omega),if_neg hlast,resize,foldlM_addLast_dead ?_,fault_bind]
    -- twelve other keys are there
    obtain ⟨name,hname⟩ : ∃ name, name ∈ names := by
      cases names with
      | nil => simp at hlast
      | cons name names => exact ⟨name,List.mem_cons_self ..⟩
    have hocc := (h.occupied (HashMap.bucketIndex cstrHashing name 16)).mpr ⟨name,hname,rfl⟩
    obtain ⟨entry,hentry⟩ := List.exists_mem_of_ne_nil _ hocc
    refine ⟨entry,?_,h.dead hentry⟩
    have hlt' : HashMap.bucketIndex cstrHashing name 16 < (m.buckets.modify
        (HashMap.bucketIndex cstrHashing s 16) (· ++ [(fresh,data)])).length := by
      rw [List.length_modify,h.length]
      exact HashMap.bucketIndex_lt cstrHashing name (by decide)
    refine List.mem_flatten.mpr ⟨_,List.getElem_mem hlt',?_⟩
    rw [← List.getD_eq_getElem _ [] hlt',HashMap.getD_modify _ _ _ _ hlt]
    split
    · rename_i he
      rw [← he]
      exact List.mem_append_left _ hentry
    · exact hentry

theorem Files.add (h : Files m names fresh) (hlast : names.length < 12) (data : P) :
    Files ⟨m.buckets.modify (HashMap.bucketIndex cstrHashing s 16) (· ++ [(fresh,data)]),m.size+1⟩
      (s :: names) (fresh+1) := by
  have hlt : HashMap.bucketIndex cstrHashing s 16 < m.buckets.length := by
    rw [h.length]
    exact HashMap.bucketIndex_lt cstrHashing s (by decide)
  refine ⟨by rw [List.length_modify,h.length],by rw [h.size,List.length_cons],hlast,fun i => ?_,
    fun i entry hentry => ?_⟩
  · rw [HashMap.getD_modify _ _ _ _ hlt]
    split
    · rename_i hi
      simp [hi]
    · rename_i hi
      rw [h.occupied i]
      simp [Ne.symm hi]
  · rw [HashMap.getD_modify _ _ _ _ hlt] at hentry
    split at hentry
    · rcases List.mem_append.mp hentry with hentry | hentry
      · exact Nat.lt_succ_of_lt (h.old _ entry hentry)
      · rw [List.mem_singleton.mp hentry]
        exact Nat.lt_succ_self fresh
    · exact Nat.lt_succ_of_lt (h.old i entry hentry)

theorem Files.register (h : Files m names fresh) (s : Bytes) (data : P)
    (hfits : s.length < keySize ∧ Apart names s ∧ names.length < 12) :
    ∃ m', ConfigRegistry.register (fun _ => none) fresh m s data = .ok m' ∧
      Files m' (s :: names) (fresh+1) := by
  obtain ⟨hshort,happart,hlast⟩ := hfits
  refine ⟨_,?_,h.add hlast data⟩
  rw [ConfigRegistry.register,strcpy,if_pos hshort,ok_bind]
  exact (h.put_apart happart data).trans (if_pos hlast)

theorem Files.register_fault (h : Files m names fresh) (s : Bytes) (data : P)
    (hfits : ¬ (s.length < keySize ∧ Apart names s ∧ names.length < 12)) :
    ∃ f, ConfigRegistry.register (fun _ => none) fresh m s data = .fault f := by
  rw [ConfigRegistry.register,strcpy]
  by_cases hshort : s.length < keySize
  · refine ⟨.useAfterFree,?_⟩
    rw [if_pos hshort,ok_bind]
    by_cases happart : Apart names s
    · exact (h.put_apart happart data).trans (if_neg fun hlast => hfits ⟨hshort,happart,hlast⟩)
    · exact h.put_collides happart data
  · exact ⟨.outOfBounds,by rw [if_neg hshort,fault_bind]⟩

end Registering
end ConfigRegistry
end DnsRelay
